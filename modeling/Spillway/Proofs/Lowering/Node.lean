import Spillway.Lowering.Program

/-!
# Lowering nodes and lowering trees

Lowering goes from number to number through the arenas. It does what lowering the tree of a node does, whatever is
shared and whichever numbers the nodes have: `Env.typeWithin_eq`, `Env.exprWithin_eq` and `Env.stmtWithin_eq`. The
two go down side by side, so this holds at every depth, for the code, the counters and also the report of a failure.
-/

namespace Spillway

theorem Journal.lift_ok_bind {ε σ ω α β : Type} (a : α) (f : α → Journal ε σ ω β) :
    (liftM (Except.ok a : Except ε α) >>= f) = f a := pure_bind a f

theorem Journal.lift_error_bind {ε σ ω α β : Type} (e : ε) (f : α → Journal ε σ ω β) :
    (liftM (Except.error e : Except ε α) >>= f) = Journal.fail e := rfl

/-! ### One step down -/

theorem Nodes.exprWithin_succ (ns : Nodes) (depth : Nat) (i : ExprId) : ns.exprUnfolding.within (depth + 1) i
    = (ns.exprs.get? i).elim (.missing i ns.exprs.size) (ExprNode.tree (ns.exprUnfolding.within depth)) := rfl

theorem Nodes.stmtWithin_succ (ns : Nodes) (depth : Nat) (i : StmtId) : ns.stmtUnfolding.within (depth + 1) i
    = (ns.stmts.get? i).elim (.missing i ns.stmts.size)
      (StmtNode.tree ns.exprTree (ns.stmtUnfolding.within depth)) := rfl

namespace Lowering.Env

variable (env : Env) (ns : Nodes)

/-! ### Types -/

theorem structWithin_eq (depth : Nat) (ids : List ExprId) :
    structWithin ns depth ids = structArgument? (ids.map (ns.exprUnfolding.within depth)) := by
  cases ids with
  | nil => cases depth <;> rfl
  | cons i rest =>
    cases depth with
    | zero => rfl
    | succ depth =>
      rw [structWithin, List.map_cons, Nodes.expr, Nodes.exprWithin_succ]
      cases hnode : ns.exprs.get? i with
      | none =>
        rw [Arena.fetch_of_none hnode]
        rfl
      | some node =>
        rw [Arena.fetch_ok_iff.2 hnode]
        cases node <;> rfl

/-- **Types.** The type of a node is that of its tree. -/
theorem typeWithin_eq (depth : Nat) (i : ExprId) :
    env.typeWithin ns depth i = env.typeOf (ns.exprUnfolding.within depth i) := by
  induction depth generalizing i with
  | zero => rfl
  | succ depth ih =>
    rw [typeWithin, Nodes.expr, Nodes.exprWithin_succ]
    cases hnode : ns.exprs.get? i with
    | none =>
      rw [Arena.fetch_of_none hnode]
      rfl
    | some node =>
      rw [Arena.fetch_ok_iff.2 hnode]
      cases node with
      | int value => rfl
      | bool value => rfl
      | nil => rfl
      | name name => rfl
      | paren inner => exact ih inner
      | chain head links =>
        cases links with
        | nil => exact ih head
        | cons l links => rfl
      | unary op operand => rfl
      | select base fields =>
        show (env.typeWithin ns depth base >>= fun ty => env.typeAlong ty fields) = _
        rw [ih]
        rfl
      | call name arguments =>
        show (env.callee name >>= _) = env.typeOf (.call name (arguments.map _))
        rw [typeOf]
        cases env.callee name with
        | error d => rfl
        | ok goal =>
          rcases goal with f | _ | _
          · rfl
          · show (structWithin ns depth arguments >>= _) = (structArgument? _ >>= _)
            rw [structWithin_eq]
          · rfl

/-! ### Expressions -/

theorem exprs_map {lower : ExprId → Lower VReg} {tree : ExprId → Expr} (h : ∀ i, lower i = env.expr (tree i))
    (ids : List ExprId) : ids.mapM lower = env.exprs (ids.map tree) := by
  induction ids with
  | nil => rfl
  | cons i ids ih =>
    rw [List.mapM_cons, List.map_cons, exprs, h, ih]

theorem links_map {lower : ExprId → Lower VReg} {tree : ExprId → Expr} (h : ∀ i, lower i = env.expr (tree i))
    (links : List (BinOp × ExprId)) (first : VReg) :
    links.foldlM (fun result l => do combine l.1 result (← lower l.2)) first
      = env.links first (links.map fun l => (l.1, tree l.2)) := by
  induction links generalizing first with
  | nil => rfl
  | cons l links ih =>
    rw [List.foldlM_cons, List.map_cons, Env.links, h, bind_assoc]
    simp only [ih]

theorem callWithin_eq {lower : ExprId → Lower VReg} {depth : Nat}
    (h : ∀ i, lower i = env.expr (ns.exprUnfolding.within depth i)) (name : String) (arguments : List ExprId)
    (wanted : Bool) :
    env.callWithin ns depth lower name arguments wanted =
      env.callWith name (structArgument? (arguments.map (ns.exprUnfolding.within depth)))
        (env.exprs (arguments.map (ns.exprUnfolding.within depth)))
        (env.firstExpr (arguments.map (ns.exprUnfolding.within depth))) wanted := by
  unfold callWithin
  rw [structWithin_eq, env.exprs_map h]
  congr 1
  cases arguments with
  | nil => rfl
  | cons i rest => exact h i

/-- **Expressions.** Lowering a node is lowering its tree. -/
theorem exprWithin_eq (depth : Nat) (i : ExprId) :
    env.exprWithin ns depth i = env.expr (ns.exprUnfolding.within depth i) := by
  induction depth generalizing i with
  | zero =>
    show _ = env.expr (.missing i ns.exprs.size)
    rw [exprWithin, expr]
  | succ depth ih =>
    rw [exprWithin, Nodes.expr, Nodes.exprWithin_succ]
    cases hnode : ns.exprs.get? i with
    | none => rw [Arena.fetch_of_none hnode, Option.elim_none, expr, Journal.lift_error_bind]
    | some node =>
      rw [Arena.fetch_ok_iff.2 hnode, Option.elim_some, Journal.lift_ok_bind]
      cases node with
      | int value => rw [ExprNode.tree, expr]
      | bool value => rw [ExprNode.tree, expr]
      | nil => rw [ExprNode.tree, expr]
      | name name => rw [ExprNode.tree, expr]
      | paren inner =>
        rw [ExprNode.tree, expr]
        exact ih inner
      | chain head links =>
        rw [ExprNode.tree, expr, ← ih]
        simp only [env.links_map ih]
      | unary op operand =>
        rw [ExprNode.tree, expr, ← ih]
      | select base fields =>
        rw [ExprNode.tree, expr, ← ih, ← typeWithin_eq]
      | call name arguments =>
        rw [ExprNode.tree, expr]
        exact congrArg (· >>= _) (env.callWithin_eq ns ih name arguments true)

theorem exprAt_eq (i : ExprId) : env.exprAt ns i = env.expr (ns.exprTree i) := env.exprWithin_eq ns _ i

/-! ### Statements -/

theorem block_map {lower : StmtId → Lower Unit} {tree : StmtId → Stmt} (h : ∀ i, lower i = env.stmt (tree i))
    (ids : List StmtId) : ids.forM lower = env.block (ids.map tree) := by
  induction ids with
  | nil => rfl
  | cons i ids ih =>
    show (do lower i; ids.forM lower) = _
    rw [List.map_cons, block, h, ih]

/-- **Statements.** Lowering a node is lowering its tree. -/
theorem stmtWithin_eq (depth : Nat) (i : StmtId) :
    env.stmtWithin ns depth i = env.stmt (ns.stmtUnfolding.within depth i) := by
  induction depth generalizing i with
  | zero =>
    show _ = env.stmt (.missing i ns.stmts.size)
    rw [stmtWithin, stmt]
  | succ depth ih =>
    rw [stmtWithin, Nodes.stmt, Nodes.stmtWithin_succ]
    cases hnode : ns.stmts.get? i with
    | none => rw [Arena.fetch_of_none hnode, Option.elim_none, stmt, Journal.lift_error_bind]
    | some node =>
      rw [Arena.fetch_ok_iff.2 hnode, Option.elim_some, Journal.lift_ok_bind]
      cases node with
      | assign target value => rw [StmtNode.tree, stmt, ← exprAt_eq]
      | print name newline => rw [StmtNode.tree, stmt]
      | read name => rw [StmtNode.tree, stmt]
      | cond test thenBlock elseBlock =>
        cases elseBlock with
        | none =>
          rw [StmtNode.tree, Option.map_none, stmt, condition, ← exprAt_eq, ← env.block_map ih]
        | some elseBlock =>
          rw [StmtNode.tree, Option.map_some, stmt, condition, ← exprAt_eq, ← env.block_map ih, ← env.block_map ih]
      | loop test body => rw [StmtNode.tree, stmt, condition, ← exprAt_eq, ← env.block_map ih]
      | ret value =>
        cases value with
        | none => rw [StmtNode.tree, Option.map_none, stmt]
        | some value => rw [StmtNode.tree, Option.map_some, stmt, ← exprAt_eq]
      | call name arguments =>
        rw [StmtNode.tree, stmt]
        show (env.callWithin ns ns.exprDepth (env.exprAt ns) name arguments false >>= _) = _
        rw [env.callWithin_eq ns (env.exprAt_eq ns)]
        rfl

theorem stmtAt_eq (i : StmtId) : env.stmtAt ns i = env.stmt (ns.stmtTree i) := env.stmtWithin_eq ns _ i

theorem functionAt_eq (locals : List String) (body : List StmtId) :
    env.functionAt ns locals body = env.function locals (body.map ns.stmtTree) := by
  rw [functionAt, function, env.block_map (env.stmtAt_eq ns)]

end Lowering.Env

/-- A function is lowered as the trees of its body are. -/
theorem Program.lowerFunction_eq (p : Program) (f : FunctionDecl) :
    p.lowerFunction f = (do
      Journal.record (.entered f.name f.body.length)
      Lowering.fragment f.name ((p.env f.scope).function f.locals (p.body f))) := by
  rw [lowerFunction, Lowering.Env.functionAt_eq]
  rfl

end Spillway
