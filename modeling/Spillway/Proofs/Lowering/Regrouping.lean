import Spillway.Proofs.Lowering.Places

/-!
# Regrouping does not change code

A chain may be written with its first links in a chain of their own, a path of fields may be cut in two, and anything
may be put into parentheses. None of this shows in lowered code, wherever in a program it is done: `Regroup` is one such
change, `Expr.Context` and `Stmt.Context` are the places for it, and `Env.regroup_keeps_code` is the result. The one
place that has to be spared is the argument of an allocation, which must be a plain name.

What makes this delicate is that field selections around the change depend on the *type* of what is changed. The type of
a chain is that of its first operator, and regrouping may put another operator first. Types therefore need not stay the
same; what stays is which struct they point to, if any (`SameStruct`), and nothing else about a type is looked at. Where
lowering fails, the report may name the other type, so only successful runs are compared (`Journal.Alike`).
-/

namespace Spillway

/-! ### Computations that succeed alike -/

namespace Journal

variable {ε σ ω α β : Type}

/-- Whenever one of two computations succeeds, so does the other, with the same value, state and entries. -/
def Alike (m n : Journal ε σ ω α) : Prop := ∀ s a t w, m.run s = ⟨.ok a, t, w⟩ ↔ n.run s = ⟨.ok a, t, w⟩

namespace Alike

variable {m n : Journal ε σ ω α} {f g : α → Journal ε σ ω β}

theorem refl (m : Journal ε σ ω α) : m.Alike m := fun _ _ _ _ => Iff.rfl

theorem of_eq (h : m = n) : m.Alike n := h ▸ refl m

theorem bind (hm : m.Alike n) (hf : ∀ a, (f a).Alike (g a)) : (m >>= f).Alike (n >>= g) := by
  intro s b t w
  rw [bind_eq_ok_iff, bind_eq_ok_iff]
  constructor
  · rintro ⟨a, u, v, v', hrun, hrun', rfl⟩
    exact ⟨a, u, v, v', (hm ..).1 hrun, (hf a ..).1 hrun', rfl⟩
  · rintro ⟨a, u, v, v', hrun, hrun', rfl⟩
    exact ⟨a, u, v, v', (hm ..).2 hrun, (hf a ..).2 hrun', rfl⟩

/-- Computations that both never succeed. -/
theorem of_fail (hm : ∀ s a t w, m.run s ≠ ⟨.ok a, t, w⟩) (hn : ∀ s a t w, n.run s ≠ ⟨.ok a, t, w⟩) : m.Alike n :=
  fun s a t w => iff_of_false (hm s a t w) (hn s a t w)

theorem of_error (e e' : ε) : Alike ((liftM (Except.error e : Except ε α) : Journal ε σ ω α) >>= f)
    ((liftM (Except.error e' : Except ε α) : Journal ε σ ω α) >>= g) :=
  .of_fail (fun _ _ _ _ hrun => by cases hrun) fun _ _ _ _ hrun => by cases hrun

end Alike

end Journal

/-! ### Types that point to the same struct -/

/-- Both types are unknown, or both are known and point to the same struct or to none. -/
def SameStruct (x y : Except Defect Ty) : Prop := x.toOption.map Ty.structName? = y.toOption.map Ty.structName?

namespace SameStruct

variable {x y : Except Defect Ty} {ty ty' : Ty}

theorem of_eq (h : x = y) : SameStruct x y := h ▸ rfl

theorem of_ok (h : ty.structName? = ty'.structName?) : SameStruct (.ok ty) (.ok ty') := congrArg some h

theorem cases (h : SameStruct x y) :
    (∃ e e', x = .error e ∧ y = .error e') ∨
      ∃ ty ty', x = .ok ty ∧ y = .ok ty' ∧ ty.structName? = ty'.structName? := by
  rcases x with e | ty <;> rcases y with e' | ty'
  · exact .inl ⟨e, e', rfl, rfl⟩
  · cases h
  · cases h
  · exact .inr ⟨ty, ty', rfl, rfl, Option.some.inj h⟩

end SameStruct

theorem Ty.eq_struct_of_structName? {ty : Ty} {struct : String} (h : ty.structName? = some struct) :
    ty = .struct struct := by
  cases ty <;> simp [Ty.structName?] at h
  rw [h]

theorem BinOp.structName?_resultType (op : BinOp) : op.resultType.structName? = none := by cases op <;> rfl

/-! ### Changes and their places -/

/-- One regrouping. -/
inductive Regroup : Expr → Expr → Prop
  | chain {head : Expr} {first rest : List (BinOp × Expr)} :
      Regroup (.chain (.chain head first) rest) (.chain head (first ++ rest))
  | select {base : Expr} {fields path : List String} :
      Regroup (.select (.select base fields) path) (.select base (fields ++ path))
  | paren {e : Expr} : Regroup (.paren e) e

/-- A place in an expression: the expression with a hole. -/
inductive Expr.Context where
  | hole
  | paren (inner : Context)
  | chain (inner : Context) (links : List (BinOp × Expr))
  | link (head : Expr) (before : List (BinOp × Expr)) (op : BinOp) (inner : Context) (after : List (BinOp × Expr))
  | unary (op : UnOp) (inner : Context)
  | select (inner : Context) (fields : List String)
  | argument (callee : String) (before : List Expr) (inner : Context) (after : List Expr)

/-- The expression with this in its hole. -/
def Expr.Context.fill : Expr.Context → Expr → Expr
  | .hole, e => e
  | .paren inner, e => .paren (inner.fill e)
  | .chain inner links, e => .chain (inner.fill e) links
  | .link head before op inner after, e => .chain head (before ++ (op, inner.fill e) :: after)
  | .unary op inner, e => .unary op (inner.fill e)
  | .select inner fields, e => .select (inner.fill e) fields
  | .argument callee before inner after, e => .call callee (before ++ inner.fill e :: after)

/-- A place for an expression in a statement: the statement with a hole. -/
inductive Stmt.Context where
  | value (target : Place) (inner : Expr.Context)
  | test (inner : Expr.Context) (thenBlock : List Stmt) (elseBlock : Option (List Stmt))
  | inThen (condition : Expr) (before : List Stmt) (inner : Context) (after : List Stmt)
      (elseBlock : Option (List Stmt))
  | inElse (condition : Expr) (thenBlock before : List Stmt) (inner : Context) (after : List Stmt)
  | loopTest (inner : Expr.Context) (body : List Stmt)
  | inLoop (condition : Expr) (before : List Stmt) (inner : Context) (after : List Stmt)
  | ret (inner : Expr.Context)
  | argument (callee : String) (before : List Expr) (inner : Expr.Context) (after : List Expr)

/-- The statement with this in its hole. -/
def Stmt.Context.fill : Stmt.Context → Expr → Stmt
  | .value target inner, e => .assign target (inner.fill e)
  | .test inner thenBlock elseBlock, e => .cond (inner.fill e) thenBlock elseBlock
  | .inThen condition before inner after elseBlock, e =>
    .cond condition (before ++ inner.fill e :: after) elseBlock
  | .inElse condition thenBlock before inner after, e =>
    .cond condition thenBlock (some (before ++ inner.fill e :: after))
  | .loopTest inner body, e => .loop (inner.fill e) body
  | .inLoop condition before inner after, e => .loop condition (before ++ inner.fill e :: after)
  | .ret inner, e => .ret (some (inner.fill e))
  | .argument callee before inner after, e => .call callee (before ++ inner.fill e :: after)

namespace Lowering

open Journal (Alike)

/-- The hole is not itself the argument by which an allocation names its struct. -/
def Env.SparesArgument (env : Env) (callee : String) (before : List Expr) (inner : Expr.Context) : Prop :=
  before = [] → inner = .hole → env.callee callee ≠ .ok (.builtin .new)

/-- Nowhere above the hole does it name the struct of an allocation. -/
def Env.Spares (env : Env) : Expr.Context → Prop
  | .hole => True
  | .paren inner | .chain inner _ | .link _ _ _ inner _ | .unary _ inner | .select inner _ => env.Spares inner
  | .argument callee before inner _ => env.SparesArgument callee before inner ∧ env.Spares inner

/-- The same for a place in a statement. -/
def Env.SparesIn (env : Env) : Stmt.Context → Prop
  | .value _ inner | .test inner _ _ | .loopTest inner _ | .ret inner => env.Spares inner
  | .inThen _ _ inner _ _ | .inElse _ _ _ inner _ | .inLoop _ _ inner _ => env.SparesIn inner
  | .argument callee before inner _ => env.SparesArgument callee before inner ∧ env.Spares inner

namespace Env

variable {env : Env}

/-! ### Paths of fields -/

theorem typeAlong_append (ty : Ty) (fields path : List String) :
    env.typeAlong ty (fields ++ path) = (env.typeAlong ty fields >>= fun ty' => env.typeAlong ty' path) := by
  induction fields generalizing ty with
  | nil => rfl
  | cons x fields ih =>
    rw [List.cons_append, typeAlong, typeAlong, bind_assoc]
    exact bind_congr fun field => ih field.2

/-- The code of a path is that of its first half and then, with the type that this leads to, that of the second. -/
theorem loadPath_append {ty ty' : Ty} {fields : List String} (h : env.typeAlong ty fields = .ok ty') (r : VReg)
    (path : List String) :
    env.loadPath r ty (fields ++ path) = (env.loadPath r ty fields >>= fun r' => env.loadPath r' ty' path) := by
  induction fields generalizing ty r with
  | nil =>
    cases h
    rw [loadPath, pure_bind]
    rfl
  | cons x fields ih =>
    obtain ⟨field, hfield, hrest⟩ := Journal.except_bind_ok.1 h
    have hload : env.loadField r ty x = (do
        let target ← freshRegister
        emit (.loadField target r x field.1)
        return (target, field.2)) := by
      rw [loadField, hfield]
      rfl
    rw [List.cons_append, loadPath, loadPath, hload]
    simp only [bind_assoc, pure_bind]
    exact bind_congr fun target => bind_congr fun _ => ih hrest target

/-- There is no code for a path that leads nowhere. -/
theorem typeAlong_of_loadPath {ty : Ty} {fields path : List String} {r r' : VReg} {c c' : Counters}
    {code : List Linear.Instr} (h : (env.loadPath r ty (fields ++ path)).run c = ⟨.ok r', c', code⟩) :
    ∃ ty', env.typeAlong ty fields = .ok ty' := by
  induction fields generalizing ty r c code with
  | nil => exact ⟨ty, rfl⟩
  | cons x fields ih =>
    cases follows_of_loadPath h with
    | cons hfield hrest =>
      obtain ⟨ty', hty'⟩ := ih hrest.run_eq
      refine ⟨ty', ?_⟩
      rw [typeAlong, hfield]
      exact hty'

/-- Only the struct that a type points to counts for selecting a field. -/
theorem field_error {ty : Ty} (h : ty.structName? = none) (x : String) :
    env.field ty x = .error (.fieldOfNonStruct x ty) := by
  cases ty <;> first | rfl | cases h

theorem loadPath_alike {ty ty' : Ty} (h : ty.structName? = ty'.structName?) (r : VReg) (path : List String) :
    Alike (env.loadPath r ty path) (env.loadPath r ty' path) := by
  cases hty : ty.structName? with
  | some struct =>
    rw [Ty.eq_struct_of_structName? hty, Ty.eq_struct_of_structName? (h.symm.trans hty)]
    exact .refl _
  | none =>
    cases path with
    | nil => exact .refl _
    | cons x path =>
      refine .of_fail (fun c r' c' code hrun => ?_) fun c r' c' code hrun => ?_
      · rw [loadPath, loadField, field_error hty] at hrun
        cases hrun
      · rw [loadPath, loadField, field_error (h.symm.trans hty)] at hrun
        cases hrun

theorem typeAlong_sameStruct {ty ty' : Ty} (h : ty.structName? = ty'.structName?) (path : List String) :
    SameStruct (env.typeAlong ty path) (env.typeAlong ty' path) := by
  cases path with
  | nil => exact .of_ok h
  | cons x path =>
    cases hty : ty.structName? with
    | some struct =>
      rw [Ty.eq_struct_of_structName? hty, Ty.eq_struct_of_structName? (h.symm.trans hty)]
      exact .of_eq rfl
    | none =>
      rw [typeAlong, typeAlong, field_error hty, field_error (h.symm.trans hty)]
      rfl

/-! ### Expressions that can stand for each other -/

/-- Two expressions have the same code, and types that point to the same struct. -/
structure Interchangeable (env : Env) (e e' : Expr) : Prop where
  code : Alike (env.expr e) (env.expr e')
  type : SameStruct (env.typeOf e) (env.typeOf e')

theorem links_append (first rest : List (BinOp × Expr)) (r : VReg) :
    env.links r (first ++ rest) = (env.links r first >>= fun r' => env.links r' rest) := by
  induction first generalizing r with
  | nil => rw [List.nil_append, links, pure_bind]
  | cons l first ih =>
    obtain ⟨op, e⟩ := l
    rw [List.cons_append, links, links, bind_assoc]
    refine bind_congr fun right => ?_
    rw [bind_assoc]
    exact bind_congr fun r' => ih r'

theorem regroup_chain (head : Expr) (first rest : List (BinOp × Expr)) :
    env.Interchangeable (.chain (.chain head first) rest) (.chain head (first ++ rest)) := by
  constructor
  · apply Alike.of_eq
    rw [expr, expr, expr, bind_assoc]
    exact bind_congr fun r => (links_append first rest r).symm
  · -- the first operator may become another one, but no operator computes a struct
    cases rest with
    | nil => rw [List.append_nil, typeOf]; exact .of_eq rfl
    | cons l rest =>
      cases first with
      | nil => rw [List.nil_append, typeOf, typeOf]; exact .of_eq rfl
      | cons l' first =>
        rw [List.cons_append, typeOf, typeOf]
        exact .of_ok (l.1.structName?_resultType.trans l'.1.structName?_resultType.symm)

theorem regroup_select (base : Expr) (fields path : List String) :
    env.Interchangeable (.select (.select base fields) path) (.select base (fields ++ path)) := by
  constructor
  · rw [expr, expr, expr, typeOf]
    cases hty : env.typeOf base with
    | error e => exact .of_error e e
    | ok ty =>
      show Alike (liftM (env.typeAlong ty fields) >>= fun ty' =>
          (env.expr base >>= fun r => env.loadPath r ty fields) >>= fun r => env.loadPath r ty' path)
        (env.expr base >>= fun r => env.loadPath r ty (fields ++ path))
      cases hpath : env.typeAlong ty fields with
      | error e =>
        refine .of_fail (fun _ _ _ _ hrun => by cases hrun) fun c r c' code hrun => ?_
        obtain ⟨_, _, _, _, -, hload, -⟩ := Journal.bind_eq_ok_iff.1 hrun
        obtain ⟨ty', hty'⟩ := typeAlong_of_loadPath hload
        rw [hpath] at hty'
        cases hty'
      | ok ty' =>
        apply Alike.of_eq
        show (env.expr base >>= fun r => env.loadPath r ty fields) >>= (fun r => env.loadPath r ty' path) = _
        rw [bind_assoc]
        exact bind_congr fun r => (loadPath_append hpath r path).symm
  · apply SameStruct.of_eq
    rw [typeOf, typeOf, typeOf, bind_assoc]
    exact bind_congr fun ty => (typeAlong_append ty fields path).symm

/-- A regrouping leaves an expression that can stand for the old one. -/
theorem regroup_interchangeable {e e' : Expr} (h : Regroup e e') : env.Interchangeable e e' := by
  cases h with
  | chain => exact regroup_chain ..
  | select => exact regroup_select ..
  | paren => exact ⟨.of_eq (by rw [expr]), .of_eq (by rw [typeOf])⟩

/-! ### The same in a larger expression -/

section Inside

variable {e e' : Expr} (h : env.Interchangeable e e')

include h

theorem links_alike (before after : List (BinOp × Expr)) (op : BinOp) (r : VReg) :
    Alike (env.links r (before ++ (op, e) :: after)) (env.links r (before ++ (op, e') :: after)) := by
  rw [links_append, links_append]
  refine .bind (.refl _) fun r' => ?_
  rw [links, links]
  exact h.code.bind fun right => .refl _

theorem exprs_alike (before after : List Expr) :
    Alike (env.exprs (before ++ e :: after)) (env.exprs (before ++ e' :: after)) := by
  induction before with
  | nil =>
    rw [List.nil_append, List.nil_append, exprs, exprs]
    exact h.code.bind fun r => .refl _
  | cons first before ih =>
    rw [List.cons_append, List.cons_append, exprs, exprs]
    exact .bind (.refl _) fun r => ih.bind fun rs => .refl _

theorem firstExpr_alike (before after : List Expr) :
    Alike (env.firstExpr (before ++ e :: after)) (env.firstExpr (before ++ e' :: after)) := by
  cases before with
  | nil =>
    rw [List.nil_append, List.nil_append, firstExpr, firstExpr]
    exact h.code
  | cons first before =>
    rw [List.cons_append, List.cons_append, firstExpr, firstExpr]
    exact .refl _

/-- A call whose argument is changed, unless the argument names the struct of an allocation. -/
theorem callWith_alike {callee : String} {before after : List Expr}
    (hnew : env.callee callee = .ok (.builtin .new) →
      structArgument? (before ++ e :: after) = structArgument? (before ++ e' :: after)) (wanted : Bool) :
    Alike
      (env.callWith callee (structArgument? (before ++ e :: after)) (env.exprs (before ++ e :: after))
        (env.firstExpr (before ++ e :: after)) wanted)
      (env.callWith callee (structArgument? (before ++ e' :: after)) (env.exprs (before ++ e' :: after))
        (env.firstExpr (before ++ e' :: after)) wanted) := by
  unfold callWith
  cases hcallee : env.callee callee with
  | error d => exact .of_error d d
  | ok target =>
    cases target with
    | user f => exact (exprs_alike h before after).bind fun rs => .refl (callUser callee rs wanted)
    | builtin b =>
      cases b with
      | new =>
        rw [hnew hcallee]
        exact .refl _
      | delete =>
        exact (firstExpr_alike h before after).bind fun r => .refl (emit (.free r) >>= fun _ => pure none)

theorem interchangeable_argument {callee : String} {before after : List Expr}
    (hnew : env.callee callee = .ok (.builtin .new) →
      structArgument? (before ++ e :: after) = structArgument? (before ++ e' :: after)) :
    env.Interchangeable (.call callee (before ++ e :: after)) (.call callee (before ++ e' :: after)) := by
  constructor
  · rw [expr, expr]
    exact (callWith_alike h hnew true).bind fun result => .refl _
  · apply SameStruct.of_eq
    rw [typeOf, typeOf]
    cases hcallee : env.callee callee with
    | error d => rfl
    | ok target =>
      cases target with
      | user f => rfl
      | builtin b =>
        cases b with
        | new =>
          show (structArgument? _ >>= _) = (structArgument? _ >>= _)
          rw [hnew hcallee]
        | delete => rfl

theorem interchangeable_select (fields : List String) :
    env.Interchangeable (.select e fields) (.select e' fields) := by
  have htype := h.type.cases
  constructor
  · rw [expr, expr]
    obtain ⟨d, d', hty, hty'⟩ | ⟨ty, ty', hty, hty', hsame⟩ := htype
    · rw [hty, hty']
      exact .of_error d d'
    · rw [hty, hty']
      exact h.code.bind fun r => loadPath_alike hsame r fields
  · rw [typeOf, typeOf]
    obtain ⟨d, d', hty, hty'⟩ | ⟨ty, ty', hty, hty', hsame⟩ := htype
    · rw [hty, hty']
      rfl
    · rw [hty, hty']
      exact typeAlong_sameStruct hsame fields

end Inside

/-- What has a hole in it is no plain name, unless it is the hole itself. -/
theorem structArgument?_fill {inner : Expr.Context} (hinner : inner ≠ .hole) (e : Expr) (after : List Expr) :
    structArgument? (inner.fill e :: after) = .ok none := by
  cases inner with
  | hole => exact absurd rfl hinner
  | _ => rfl

/-- An allocation names the same struct as before where the hole is spared. -/
theorem SparesArgument.structArgument?_eq {callee : String} {before : List Expr} {inner : Expr.Context}
    (hspares : env.SparesArgument callee before inner) (hnew : env.callee callee = .ok (.builtin .new))
    (e e' : Expr) (after : List Expr) :
    structArgument? (before ++ inner.fill e :: after) = structArgument? (before ++ inner.fill e' :: after) := by
  cases before with
  | nil =>
    have hinner : inner ≠ .hole := fun heq => hspares rfl heq hnew
    rw [List.nil_append, List.nil_append, structArgument?_fill hinner, structArgument?_fill hinner]
  | cons first before => cases first <;> rfl

/-- **Expressions.** What can stand for each other can do so anywhere in an expression. -/
theorem fill_interchangeable {e e' : Expr} (h : env.Interchangeable e e') {place : Expr.Context}
    (hplace : env.Spares place) : env.Interchangeable (place.fill e) (place.fill e') := by
  induction place with
  | hole => exact h
  | paren inner ih =>
    have hinner := ih hplace
    refine ⟨?_, ?_⟩
    · rw [Expr.Context.fill, Expr.Context.fill, expr, expr]
      exact hinner.code
    · rw [Expr.Context.fill, Expr.Context.fill, typeOf, typeOf]
      exact hinner.type
  | chain inner links ih =>
    have hinner := ih hplace
    refine ⟨?_, ?_⟩
    · rw [Expr.Context.fill, Expr.Context.fill, expr, expr]
      exact hinner.code.bind fun r => .refl _
    · rw [Expr.Context.fill, Expr.Context.fill]
      cases links with
      | nil =>
        rw [typeOf, typeOf]
        exact hinner.type
      | cons l links =>
        rw [typeOf, typeOf]
        exact .of_eq rfl
  | link head before op inner after ih =>
    refine ⟨?_, ?_⟩
    · rw [Expr.Context.fill, Expr.Context.fill, expr, expr]
      exact .bind (.refl _) fun r => links_alike (ih hplace) before after op r
    · apply SameStruct.of_eq
      rw [Expr.Context.fill, Expr.Context.fill]
      cases before with
      | nil => rw [List.nil_append, List.nil_append, typeOf, typeOf]
      | cons l before => rw [List.cons_append, List.cons_append, typeOf, typeOf]
  | unary op inner ih =>
    refine ⟨?_, ?_⟩
    · rw [Expr.Context.fill, Expr.Context.fill, expr, expr]
      exact (ih hplace).code.bind fun r => .refl _
    · rw [Expr.Context.fill, Expr.Context.fill, typeOf, typeOf]
      exact .of_eq rfl
  | select inner fields ih => exact interchangeable_select (ih hplace) fields
  | argument callee before inner after ih =>
    obtain ⟨hspares, hinner⟩ := hplace
    exact interchangeable_argument (ih hinner) fun hnew => hspares.structArgument?_eq hnew e e' after

/-! ### The same in a statement -/

theorem block_alike {s s' : Stmt} (h : Alike (env.stmt s) (env.stmt s')) (before after : List Stmt) :
    Alike (env.block (before ++ s :: after)) (env.block (before ++ s' :: after)) := by
  induction before with
  | nil =>
    rw [List.nil_append, List.nil_append, block, block]
    exact h.bind fun _ => .refl _
  | cons first before ih =>
    rw [List.cons_append, List.cons_append, block, block]
    exact .bind (.refl _) fun _ => ih

/-- A conditional with another condition or another first block. -/
theorem cond_alike {e e' : Expr} {thenBlock thenBlock' : List Stmt} (htest : Alike (env.expr e) (env.expr e'))
    (hthen : Alike (env.block thenBlock) (env.block thenBlock')) (elseBlock : Option (List Stmt)) :
    Alike (env.stmt (.cond e thenBlock elseBlock)) (env.stmt (.cond e' thenBlock' elseBlock)) := by
  have hcondition : Alike (env.condition e) (env.condition e') := htest.bind fun r => .refl _
  cases elseBlock with
  | none =>
    rw [stmt, stmt]
    exact hcondition.bind fun _ => .bind (.refl _) fun done => .bind (.refl _) fun _ => hthen.bind fun _ => .refl _
  | some elseBlock =>
    rw [stmt, stmt]
    exact hcondition.bind fun _ => .bind (.refl _) fun otherwise => .bind (.refl _) fun done =>
      .bind (.refl _) fun _ => hthen.bind fun _ => .refl _

/-- A loop with another condition or another body. -/
theorem loop_alike {e e' : Expr} {body body' : List Stmt} (htest : Alike (env.expr e) (env.expr e'))
    (hbody : Alike (env.block body) (env.block body')) :
    Alike (env.stmt (.loop e body)) (env.stmt (.loop e' body')) := by
  have hcondition : Alike (env.condition e) (env.condition e') := htest.bind fun r => .refl _
  rw [stmt, stmt]
  exact .bind (.refl _) fun entry => .bind (.refl _) fun again => .bind (.refl _) fun _ => .bind (.refl _) fun _ =>
    hbody.bind fun _ => .bind (.refl _) fun _ => hcondition.bind fun _ => .refl _

/-- **Statements.** What can stand for each other can do so anywhere in a statement. -/
theorem fill_alike {e e' : Expr} (h : env.Interchangeable e e') {place : Stmt.Context}
    (hplace : env.SparesIn place) : Alike (env.stmt (place.fill e)) (env.stmt (place.fill e')) := by
  induction place with
  | value target inner =>
    rw [Stmt.Context.fill, Stmt.Context.fill, stmt, stmt]
    exact (fill_interchangeable h hplace).code.bind fun r => .refl _
  | test inner thenBlock elseBlock => exact cond_alike (fill_interchangeable h hplace).code (.refl _) elseBlock
  | inThen condition before inner after elseBlock ih =>
    exact cond_alike (.refl _) (block_alike (ih hplace) before after) elseBlock
  | inElse condition thenBlock before inner after ih =>
    rw [Stmt.Context.fill, Stmt.Context.fill, stmt, stmt]
    refine .bind (.refl _) fun _ => .bind (.refl _) fun otherwise => .bind (.refl _) fun done => ?_
    refine .bind (.refl _) fun _ => .bind (.refl _) fun _ => .bind (.refl _) fun _ => .bind (.refl _) fun _ => ?_
    exact (block_alike (ih hplace) before after).bind fun _ => .refl _
  | loopTest inner body => exact loop_alike (fill_interchangeable h hplace).code (.refl _)
  | inLoop condition before inner after ih => exact loop_alike (.refl _) (block_alike (ih hplace) before after)
  | ret inner =>
    rw [Stmt.Context.fill, Stmt.Context.fill, stmt, stmt]
    exact (fill_interchangeable h hplace).code.bind fun r => .refl _
  | argument callee before inner after =>
    obtain ⟨hspares, hinner⟩ := hplace
    rw [Stmt.Context.fill, Stmt.Context.fill, stmt, stmt]
    refine (callWith_alike (fill_interchangeable h hinner) (fun hnew => ?_) false).bind fun _ => .refl _
    exact hspares.structArgument?_eq hnew e e' after

/-- **Regrouping.** Regrouping anywhere in an expression or a statement, but for the argument by which an allocation
names its struct, keeps what lowering succeeds on, and where it succeeds it keeps the code, the register of the value
and the counters. -/
theorem regroup_keeps_code (env : Env) {e e' : Expr} (h : Regroup e e') (c : Counters) :
    (∀ place : Expr.Context, env.Spares place → ∀ r c' code,
      (env.expr (place.fill e)).run c = ⟨.ok r, c', code⟩ ↔ (env.expr (place.fill e')).run c = ⟨.ok r, c', code⟩) ∧
    ∀ place : Stmt.Context, env.SparesIn place → ∀ c' code,
      (env.stmt (place.fill e)).run c = ⟨.ok (), c', code⟩ ↔ (env.stmt (place.fill e')).run c = ⟨.ok (), c', code⟩ := by
  have hsame : env.Interchangeable e e' := regroup_interchangeable h
  exact ⟨fun place hplace => (fill_interchangeable hsame hplace).code c,
    fun place hplace => fill_alike hsame hplace c ()⟩

end Env

end Lowering

namespace Draft

open Lowering (Env)

/-- The value of the second pair may be selected in one step or in two. -/
theorem regroup_keeps_code_linkedPairs :
    Regroup (.select (.select (.name "p") ["next"]) ["value"]) (.select (.name "p") ["next", "value"]) ∧
    (linkedPairs.program.env SymbolTable.global).SparesIn (.ret (.chain (.paren .hole) [(.add, .int 1)])) ∧
    ((linkedPairs.program.env SymbolTable.global).stmt
      (.ret (some (.chain (.paren (.select (.select (.name "p") ["next"]) ["value"])) [(.add, .int 1)])))).run ⟨3, 0⟩
      = ⟨.ok (), ⟨8, 0⟩,
        [.load ⟨3⟩ (.global "p"), .loadField ⟨4⟩ ⟨3⟩ "next" 0, .loadField ⟨5⟩ ⟨4⟩ "value" 1,
          .mov ⟨6⟩ (.imm 1) .always, .binary .add ⟨7⟩ ⟨5⟩ (.reg ⟨6⟩), .ret (some (.reg ⟨7⟩))]⟩ := by
  have hregroup : Regroup (.select (.select (.name "p") ["next"]) ["value"]) (.select (.name "p") ["next", "value"]) :=
    .select
  have hspares : (linkedPairs.program.env SymbolTable.global).SparesIn
      (.ret (.chain (.paren .hole) [(.add, .int 1)])) := trivial
  exact ⟨hregroup, hspares, (((Env.regroup_keeps_code _ hregroup ⟨3, 0⟩).2 _ hspares) _ _).2 rfl⟩

/-- An allocation has to name its struct without parentheses. -/
example : ((linkedPairs.program.env SymbolTable.global).expr (.call "new" [.paren (.name "Pair")])).run ⟨3, 0⟩
      = ⟨.error .newWithoutStruct, ⟨3, 0⟩, []⟩ ∧
    ((linkedPairs.program.env SymbolTable.global).expr (.call "new" [.name "Pair"])).run ⟨3, 0⟩
      = ⟨.ok ⟨3⟩, ⟨4, 0⟩, [.alloc ⟨3⟩ "Pair" 2]⟩ := ⟨rfl, rfl⟩

end Draft

end Spillway
