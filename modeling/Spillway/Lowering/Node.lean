import Spillway.Lowering.Stmt

/-!
# Lowering nodes

A program is lowered node by node: what a node names is looked up and lowered in its turn, and a node
that is named twice is lowered twice. This module goes from number to number where `Env.typeOf`,
`Env.expr` and `Env.stmt` go down a tree.

A node that is its own descendant would never come to an end, so the number of steps down is limited.
The limit is deep enough for all other nodes: a path that comes to no node twice has at most as many
steps as there are nodes.
-/

namespace Spillway.Lowering.Env

/-- The struct that an allocation names: its first argument has to be a plain name. -/
def structWithin (ns : Nodes) : (depth : Nat) → List ExprId → Except Defect (Option String)
  | _, [] => return none
  | 0, i :: _ => throw (.missing i ns.exprs.size)
  | _ + 1, i :: _ => do
    match ← ns.expr i with
    | .name struct => return some struct
    | _ => return none

/-- The type of an expression node, as far as selecting a field needs it. -/
def typeWithin (env : Env) (ns : Nodes) : (depth : Nat) → ExprId → Except Defect Ty
  | 0, i => throw (.missing i ns.exprs.size)
  | depth + 1, i => do
    match ← ns.expr i with
    | .int _ => return .int
    | .bool _ => return .bool
    | .nil => return .unknown
    | .name name => return (← env.var name).ty
    | .paren inner => env.typeWithin ns depth inner
    | .chain head [] => env.typeWithin ns depth head
    | .chain _ ((op, _) :: _) => return op.resultType
    | .unary op _ => return op.resultType
    | .select base fields => do env.typeAlong (← env.typeWithin ns depth base) fields
    | .call name arguments => do
      match ← env.callee name with
      | .user f => return f.returns
      | .builtin .new => return (← structWithin ns depth arguments).elim .unknown .struct
      | .builtin .delete => return .void

/-- Lowers a call whose arguments are nodes, given how to lower one of them. -/
def callWithin (env : Env) (ns : Nodes) (depth : Nat) (lower : ExprId → Lower VReg) (name : String)
    (arguments : List ExprId) (wanted : Bool) : Lower (Option VReg) :=
  env.callWith name (structWithin ns depth arguments) (arguments.mapM lower)
    (match arguments with
      | [] => Journal.fail .deleteWithoutArgument
      | first :: _ => lower first)
    wanted

/-- Lowers an expression node and returns the register of its value. -/
def exprWithin (env : Env) (ns : Nodes) : (depth : Nat) → ExprId → Lower VReg
  | 0, i => Journal.fail (.missing i ns.exprs.size)
  | depth + 1, i => do
    match ← ns.expr i with
    | .int value => constant value
    | .bool value => constant (if value then 1 else 0)
    | .nil => constant 0
    | .name name => env.readName name
    | .paren inner => env.exprWithin ns depth inner
    | .chain head links => do
      let first ← env.exprWithin ns depth head
      links.foldlM (fun result l => do combine l.1 result (← env.exprWithin ns depth l.2)) first
    | .unary op operand => do applyUnary op (← env.exprWithin ns depth operand)
    | .select base fields => do
      let ty ← env.typeWithin ns depth base
      let register ← env.exprWithin ns depth base
      env.loadPath register ty fields
    | .call name arguments => do
      match ← env.callWithin ns depth (env.exprWithin ns depth) name arguments true with
      | some result => return result
      | none => Journal.fail (.valuelessCall name)

/-- Lowers an expression node. -/
def exprAt (env : Env) (ns : Nodes) (i : ExprId) : Lower VReg := env.exprWithin ns ns.exprDepth i

/-- Lowers a statement node. -/
def stmtWithin (env : Env) (ns : Nodes) : (depth : Nat) → StmtId → Lower Unit
  | 0, i => Journal.fail (.missing i ns.stmts.size)
  | depth + 1, i => do
    match ← ns.stmt i with
    | .assign target value => do env.store target (← env.exprAt ns value)
    | .print name newline => do
      let source ← env.readName name
      emit (if newline then .println source else .print source)
    | .read name => env.readInto name
    | .cond test thenBlock none =>
      conditional (compareWithOne (env.exprAt ns test)) (thenBlock.forM (env.stmtWithin ns depth))
    | .cond test thenBlock (some elseBlock) =>
      alternative (compareWithOne (env.exprAt ns test)) (thenBlock.forM (env.stmtWithin ns depth))
        (elseBlock.forM (env.stmtWithin ns depth))
    | .loop test body =>
      repetition (compareWithOne (env.exprAt ns test)) (body.forM (env.stmtWithin ns depth))
    | .ret none => emit (.ret none)
    | .ret (some value) => do
      let register ← env.exprAt ns value
      emit (.ret (some (.reg register)))
    | .call name arguments => do
      let _ ← env.callWithin ns ns.exprDepth (env.exprAt ns) name arguments false

/-- Lowers a statement node. -/
def stmtAt (env : Env) (ns : Nodes) (i : StmtId) : Lower Unit := env.stmtWithin ns ns.stmtDepth i

end Spillway.Lowering.Env
