import Spillway.Lowering.Stmt
import Spillway.Proofs.Journal

/-!
# The code of expressions and statements

What lowering writes, as relations between a phrase of the program, the counters before, the code, and
the counters after. The relations are read off the language, one rule for each form; that a successful
run of the lowering writes such code is proved once, and everything else about the code follows from
the rules.

* `Env.Computes` — code that leaves the values of expressions in registers.
* `Env.Emits` — the code of statements.
* `Env.computes_of_expr`, `Env.emits_of_block` — lowering that succeeds writes such code.
-/

namespace Spillway.Lowering

open Linear (Instr)

/-! ### Successful steps -/

section Steps

variable {α β : Type} {c c' : Counters} {b : β} {w : List Instr}

theorem lift_bind_ok {x : Except Defect α} {f : α → Lower β} :
    ((liftM x : Lower α) >>= f).run c = ⟨.ok b, c', w⟩ ↔
      ∃ a, x = .ok a ∧ (f a).run c = ⟨.ok b, c', w⟩ := Journal.ofExcept_bind_ok

theorem lift_ok {x : Except Defect β} :
    (liftM x : Lower β).run c = ⟨.ok b, c', w⟩ ↔ x = .ok b ∧ c' = c ∧ w = [] := Journal.ofExcept_ok

theorem emit_bind_ok {i : Instr} {f : Unit → Lower β} :
    (emit i >>= f).run c = ⟨.ok b, c', w⟩ ↔
      ∃ w', (f ()).run c = ⟨.ok b, c', w'⟩ ∧ w = i :: w' := Journal.record_bind_ok

theorem emit_ok {i : Instr} {u : Unit} :
    (emit i).run c = ⟨.ok u, c', w⟩ ↔ c' = c ∧ w = [i] := Journal.record_ok

theorem fresh_bind_ok {f : VReg → Lower β} :
    (freshRegister >>= f).run c = ⟨.ok b, c', w⟩ ↔
      (f ⟨c.registers⟩).run ⟨c.registers + 1, c.labels⟩ = ⟨.ok b, c', w⟩ := Iff.rfl

theorem freshLabel_bind_ok {stem : String} {f : Label → Lower β} :
    (freshLabel stem >>= f).run c = ⟨.ok b, c', w⟩ ↔
      (f (.numbered stem c.labels)).run ⟨c.registers, c.labels + 1⟩ = ⟨.ok b, c', w⟩ := Iff.rfl

end Steps

/-! ### Code that computes values -/

/-- The instructions that combine two registers into a third. -/
def combination (op : BinOp) (target left right : VReg) : List Instr :=
  match Action.of op with
  | .compare c => [.mov target (.imm 0) .always, .cmp left (.reg right), .mov target (.imm 1) (.on c)]
  | .compute op => [.binary op target left (.reg right)]

/-- What is lowered to values: an expression, the links of a chain that go on from a register, or a list
of expressions. -/
inductive Phrase where
  | expr (e : Expr)
  | links (result : VReg) (rest : List (BinOp × Expr))
  | exprs (es : List Expr)

namespace Env

/-- Only structs have fields, and the table knows them. -/
theorem field_ok {env : Env} {ty ty' : Ty} {x : String} {k : Nat} (h : env.field ty x = .ok (k, ty')) :
    ∃ struct e, ty = .struct struct ∧ env.symbols.field struct x = .ok (some (k, e)) ∧
      ty' = e.ty?.getD .unknown := by
  cases ty with
  | struct struct =>
    obtain ⟨found, hfield, hfound⟩ := Journal.except_bind_ok.1 h
    cases found with
    | none => cases hfound
    | some found =>
      obtain ⟨place, e⟩ := found
      cases hfound
      exact ⟨struct, e, rfl, hfield, rfl⟩
  | _ => cases h

/-- The code that follows a path of fields from a register, and where it ends. -/
inductive Follows (env : Env) : VReg → Ty → List String → Counters → List Instr → VReg → Counters → Prop
  | nil {r : VReg} {ty : Ty} {c : Counters} : Follows env r ty [] c [] r c
  | cons {r r' : VReg} {ty ty' : Ty} {x : String} {xs : List String} {k : Nat} {c c' : Counters}
      {code : List Instr} :
      env.field ty x = .ok (k, ty') →
      Follows env ⟨c.registers⟩ ty' xs ⟨c.registers + 1, c.labels⟩ code r' c' →
      Follows env r ty (x :: xs) c (.loadField ⟨c.registers⟩ r x k :: code) r' c'

/-- The code that leaves values in registers. -/
inductive Computes (env : Env) : Phrase → Counters → List Instr → List VReg → Counters → Prop
  | int {v : Int64} {c : Counters} :
      Computes env (.expr (.int v)) c [.mov ⟨c.registers⟩ (.imm v) .always] [⟨c.registers⟩]
        ⟨c.registers + 1, c.labels⟩
  | bool {b : Bool} {c : Counters} :
      Computes env (.expr (.bool b)) c [.mov ⟨c.registers⟩ (.imm (if b then 1 else 0)) .always]
        [⟨c.registers⟩] ⟨c.registers + 1, c.labels⟩
  | nil {c : Counters} :
      Computes env (.expr .nil) c [.mov ⟨c.registers⟩ (.imm 0) .always] [⟨c.registers⟩]
        ⟨c.registers + 1, c.labels⟩
  | global {x : String} {c : Counters} :
      env.isGlobal x = .ok true →
      Computes env (.expr (.name x)) c [.load ⟨c.registers⟩ (.global x)] [⟨c.registers⟩]
        ⟨c.registers + 1, c.labels⟩
  | own {x : String} {r : VReg} {c : Counters} :
      env.isGlobal x = .ok false → env.registerOf x = .ok r →
      Computes env (.expr (.name x)) c [] [r] c
  | paren {e : Expr} {r : VReg} {c c' : Counters} {code : List Instr} :
      Computes env (.expr e) c code [r] c' → Computes env (.expr (.paren e)) c code [r] c'
  | chain {head : Expr} {links : List (BinOp × Expr)} {r r' : VReg} {c c₁ c₂ : Counters}
      {code code' : List Instr} :
      Computes env (.expr head) c code [r] c₁ → Computes env (.links r links) c₁ code' [r'] c₂ →
      Computes env (.expr (.chain head links)) c (code ++ code') [r'] c₂
  | not {e : Expr} {r : VReg} {c c' : Counters} {code : List Instr} :
      Computes env (.expr e) c code [r] c' →
      Computes env (.expr (.unary .not e)) c (code ++ [.not ⟨c'.registers⟩ r]) [⟨c'.registers⟩]
        ⟨c'.registers + 1, c'.labels⟩
  | negate {e : Expr} {r : VReg} {c c' : Counters} {code : List Instr} :
      Computes env (.expr e) c code [r] c' →
      Computes env (.expr (.unary .negate e)) c
        (code ++ [.mov ⟨c'.registers⟩ (.imm 0) .always,
          .binary .sub ⟨c'.registers + 1⟩ ⟨c'.registers⟩ (.reg r)])
        [⟨c'.registers + 1⟩] ⟨c'.registers + 2, c'.labels⟩
  | select {base : Expr} {fields : List String} {ty : Ty} {r r' : VReg} {c c₁ c₂ : Counters}
      {code code' : List Instr} :
      env.typeOf base = .ok ty → Computes env (.expr base) c code [r] c₁ →
      env.Follows r ty fields c₁ code' r' c₂ →
      Computes env (.expr (.select base fields)) c (code ++ code') [r'] c₂
  | alloc {name struct : String} {arguments : List Expr} {fields : Nat} {c : Counters} :
      env.callee name = .ok (.builtin .new) → structArgument? arguments = .ok (some struct) →
      env.symbols.fieldCount struct = .ok (some fields) →
      Computes env (.expr (.call name arguments)) c [.alloc ⟨c.registers⟩ struct fields]
        [⟨c.registers⟩] ⟨c.registers + 1, c.labels⟩
  | call {name : String} {f : Signature} {arguments : List Expr} {rs : List VReg} {c c' : Counters}
      {code : List Instr} :
      env.callee name = .ok (.user f) → Computes env (.exprs arguments) c code rs c' →
      Computes env (.expr (.call name arguments)) c
        (code ++ [.push rs name, .call name, .result ⟨c'.registers⟩, .pop rs name])
        [⟨c'.registers⟩] ⟨c'.registers + 1, c'.labels⟩
  | linksNil {r : VReg} {c : Counters} : Computes env (.links r []) c [] [r] c
  | linksCons {op : BinOp} {e : Expr} {rest : List (BinOp × Expr)} {r r₁ r₂ : VReg}
      {c c₁ c₂ : Counters} {code code' : List Instr} :
      Computes env (.expr e) c code [r₁] c₁ →
      Computes env (.links ⟨c₁.registers⟩ rest) ⟨c₁.registers + 1, c₁.labels⟩ code' [r₂] c₂ →
      Computes env (.links r ((op, e) :: rest)) c
        (code ++ combination op ⟨c₁.registers⟩ r r₁ ++ code') [r₂] c₂
  | exprsNil {c : Counters} : Computes env (.exprs []) c [] [] c
  | exprsCons {e : Expr} {rest : List Expr} {r : VReg} {rs : List VReg} {c c₁ c₂ : Counters}
      {code code' : List Instr} :
      Computes env (.expr e) c code [r] c₁ → Computes env (.exprs rest) c₁ code' rs c₂ →
      Computes env (.exprs (e :: rest)) c (code ++ code') (r :: rs) c₂

theorem follows_of_loadPath {env : Env} {fields : List String} {r r' : VReg} {ty : Ty}
    {c c' : Counters} {code : List Instr}
    (h : (env.loadPath r ty fields).run c = ⟨.ok r', c', code⟩) :
    env.Follows r ty fields c code r' c' := by
  induction fields generalizing r ty c code with
  | nil =>
    obtain ⟨rfl, rfl, rfl⟩ := Journal.pure_ok.1 h
    exact .nil
  | cons x xs ih =>
    obtain ⟨⟨target, fieldTy⟩, c₁, w, w', hload, hrest, rfl⟩ := Journal.bind_eq_ok_iff.1 h
    obtain ⟨⟨k, ty'⟩, hfield, hload⟩ := lift_bind_ok.1 hload
    obtain ⟨_, hpure, rfl⟩ := emit_bind_ok.1 (fresh_bind_ok.1 hload)
    obtain ⟨hpair, rfl, rfl⟩ := Journal.pure_ok.1 hpure
    obtain ⟨rfl, rfl⟩ := Prod.mk.inj hpair
    exact .cons hfield (ih hrest)

theorem computes_of_readName {env : Env} {x : String} {r : VReg} {c c' : Counters}
    {code : List Instr} (h : (env.readName x).run c = ⟨.ok r, c', code⟩) :
    env.Computes (.expr (.name x)) c code [r] c' := by
  obtain ⟨isGlobal, hglobal, h⟩ := lift_bind_ok.1 h
  cases isGlobal with
  | true =>
    obtain ⟨_, hpure, rfl⟩ := emit_bind_ok.1 (fresh_bind_ok.1 h)
    obtain ⟨rfl, rfl, rfl⟩ := Journal.pure_ok.1 hpure
    exact .global hglobal
  | false =>
    obtain ⟨hr, rfl, rfl⟩ := lift_ok.1 h
    exact .own hglobal hr

theorem combination_of_combine {op : BinOp} {left right r : VReg} {c c' : Counters}
    {code : List Instr} (h : (combine op left right).run c = ⟨.ok r, c', code⟩) :
    r = ⟨c.registers⟩ ∧ c' = ⟨c.registers + 1, c.labels⟩ ∧
      code = combination op ⟨c.registers⟩ left right := by
  replace h := fresh_bind_ok.1 h
  unfold combination
  cases ha : Action.of op with
  | compare cond =>
    rw [ha] at h
    obtain ⟨_, h₁, rfl⟩ := emit_bind_ok.1 h
    obtain ⟨_, h₂, rfl⟩ := emit_bind_ok.1 h₁
    obtain ⟨_, h₃, rfl⟩ := emit_bind_ok.1 h₂
    obtain ⟨rfl, rfl, rfl⟩ := Journal.pure_ok.1 h₃
    exact ⟨rfl, rfl, rfl⟩
  | compute alu =>
    rw [ha] at h
    obtain ⟨_, h₁, rfl⟩ := emit_bind_ok.1 h
    obtain ⟨rfl, rfl, rfl⟩ := Journal.pure_ok.1 h₁
    exact ⟨rfl, rfl, rfl⟩

theorem alloc_of_allocate {env : Env} {struct? : Option String} {r : VReg} {c c' : Counters}
    {code : List Instr} (h : (env.allocate struct?).run c = ⟨.ok r, c', code⟩) :
    ∃ struct fields, struct? = some struct ∧
      env.symbols.fieldCount struct = .ok (some fields) ∧ r = ⟨c.registers⟩ ∧
      c' = ⟨c.registers + 1, c.labels⟩ ∧ code = [.alloc ⟨c.registers⟩ struct fields] := by
  cases struct? with
  | none => cases h
  | some struct =>
    obtain ⟨fields, hfields, h₁⟩ := lift_bind_ok.1 h
    cases fields with
    | none => cases h₁
    | some fields =>
      obtain ⟨_, h₂, rfl⟩ := emit_bind_ok.1 (fresh_bind_ok.1 h₁)
      obtain ⟨rfl, rfl, rfl⟩ := Journal.pure_ok.1 h₂
      exact ⟨struct, fields, rfl, hfields, rfl, rfl, rfl⟩

theorem callUser_wanted {name : String} {rs : List VReg} {result : Option VReg} {c c' : Counters}
    {code : List Instr} (h : (callUser name rs true).run c = ⟨.ok result, c', code⟩) :
    result = some ⟨c.registers⟩ ∧ c' = ⟨c.registers + 1, c.labels⟩ ∧
      code = [.push rs name, .call name, .result ⟨c.registers⟩, .pop rs name] := by
  obtain ⟨_, h₁, rfl⟩ := emit_bind_ok.1 h
  obtain ⟨_, h₂, rfl⟩ := emit_bind_ok.1 h₁
  obtain ⟨_, h₃, rfl⟩ := emit_bind_ok.1 (fresh_bind_ok.1 h₂)
  obtain ⟨_, h₄, rfl⟩ := emit_bind_ok.1 h₃
  obtain ⟨rfl, rfl, rfl⟩ := Journal.pure_ok.1 h₄
  exact ⟨rfl, rfl, rfl⟩

theorem callUser_unwanted {name : String} {rs : List VReg} {result : Option VReg} {c c' : Counters}
    {code : List Instr} (h : (callUser name rs false).run c = ⟨.ok result, c', code⟩) :
    c' = c ∧ code = [.push rs name, .call name, .pop rs name] := by
  obtain ⟨_, h₁, rfl⟩ := emit_bind_ok.1 h
  obtain ⟨_, h₂, rfl⟩ := emit_bind_ok.1 h₁
  obtain ⟨_, h₃, rfl⟩ := emit_bind_ok.1 h₂
  obtain ⟨-, rfl, rfl⟩ := Journal.pure_ok.1 h₃
  exact ⟨rfl, rfl⟩

/-- The three kinds of call: an allocation, giving a struct back, and a function of the program. -/
theorem callWith_cases {env : Env} {name : String} {argument : Except Defect (Option String)}
    {all : Lower (List VReg)} {first : Lower VReg} {wanted : Bool} {result : Option VReg} {c c' : Counters}
    {code : List Instr}
    (h : (env.callWith name argument all first wanted).run c = ⟨.ok result, c', code⟩) :
    (env.callee name = .ok (.builtin .new) ∧ ∃ struct? r, argument = .ok struct? ∧
      result = some r ∧ (env.allocate struct?).run c = ⟨.ok r, c', code⟩) ∨
    (env.callee name = .ok (.builtin .delete) ∧
      ∃ r w, result = none ∧ first.run c = ⟨.ok r, c', w⟩ ∧ code = w ++ [.free r]) ∨
    (∃ f, env.callee name = .ok (.user f) ∧
      ∃ rs c₁ w w', all.run c = ⟨.ok rs, c₁, w⟩ ∧
        (callUser name rs wanted).run c₁ = ⟨.ok result, c', w'⟩ ∧ code = w ++ w') := by
  obtain ⟨callee, hcallee, h₁⟩ := lift_bind_ok.1 h
  cases callee with
  | user f =>
    obtain ⟨rs, c₁, w, w', hall, hcall, rfl⟩ := Journal.bind_eq_ok_iff.1 h₁
    exact .inr (.inr ⟨f, hcallee, rs, c₁, w, w', hall, hcall, rfl⟩)
  | builtin b =>
    cases b with
    | new =>
      obtain ⟨struct?, hstruct, h₂⟩ := lift_bind_ok.1 h₁
      obtain ⟨r, c₁, w, w', halloc, hpure, rfl⟩ := Journal.bind_eq_ok_iff.1 h₂
      obtain ⟨rfl, rfl, rfl⟩ := Journal.pure_ok.1 hpure
      exact .inl ⟨hcallee, struct?, r, hstruct, rfl, by rw [List.append_nil]; exact halloc⟩
    | delete =>
      obtain ⟨r, c₁, w, w', hfirst, h₂, rfl⟩ := Journal.bind_eq_ok_iff.1 h₁
      obtain ⟨_, h₃, rfl⟩ := emit_bind_ok.1 h₂
      obtain ⟨rfl, rfl, rfl⟩ := Journal.pure_ok.1 h₃
      exact .inr (.inl ⟨hcallee, r, w, rfl, hfirst, rfl⟩)

mutual

/-- Lowering an expression writes code that computes it. -/
theorem computes_of_expr (env : Env) : ∀ (e : Expr) {r : VReg} {c c' : Counters} {code : List Instr},
    (env.expr e).run c = ⟨.ok r, c', code⟩ → env.Computes (.expr e) c code [r] c'
  | .int v, r, c, c', code, h => by
    obtain ⟨_, h₁, rfl⟩ := emit_bind_ok.1 (fresh_bind_ok.1 (by rw [expr, constant] at h; exact h))
    obtain ⟨rfl, rfl, rfl⟩ := Journal.pure_ok.1 h₁
    exact .int
  | .bool b, r, c, c', code, h => by
    obtain ⟨_, h₁, rfl⟩ := emit_bind_ok.1 (fresh_bind_ok.1 (by rw [expr, constant] at h; exact h))
    obtain ⟨rfl, rfl, rfl⟩ := Journal.pure_ok.1 h₁
    exact .bool
  | .nil, r, c, c', code, h => by
    obtain ⟨_, h₁, rfl⟩ := emit_bind_ok.1 (fresh_bind_ok.1 (by rw [expr, constant] at h; exact h))
    obtain ⟨rfl, rfl, rfl⟩ := Journal.pure_ok.1 h₁
    exact .nil
  | .name x, r, c, c', code, h => by
    rw [expr] at h
    exact computes_of_readName h
  | .paren e, r, c, c', code, h => by
    rw [expr] at h
    exact .paren (computes_of_expr env e h)
  | .chain head links, r, c, c', code, h => by
    rw [expr] at h
    obtain ⟨r₁, c₁, w, w', hhead, hlinks, rfl⟩ := Journal.bind_eq_ok_iff.1 h
    exact .chain (computes_of_expr env head hhead) (computes_of_links env links hlinks)
  | .unary op e, r, c, c', code, h => by
    rw [expr] at h
    obtain ⟨r₁, c₁, w, w', he, hop, rfl⟩ := Journal.bind_eq_ok_iff.1 h
    cases op with
    | not =>
      obtain ⟨_, h₁, rfl⟩ := emit_bind_ok.1 (fresh_bind_ok.1 hop)
      obtain ⟨rfl, rfl, rfl⟩ := Journal.pure_ok.1 h₁
      exact .not (computes_of_expr env e he)
    | negate =>
      obtain ⟨zero, c₂, v, v', hzero, hsub, rfl⟩ := Journal.bind_eq_ok_iff.1 hop
      obtain ⟨_, h₁, rfl⟩ := emit_bind_ok.1 (fresh_bind_ok.1 hzero)
      obtain ⟨rfl, rfl, rfl⟩ := Journal.pure_ok.1 h₁
      obtain ⟨_, h₂, rfl⟩ := emit_bind_ok.1 (fresh_bind_ok.1 hsub)
      obtain ⟨rfl, rfl, rfl⟩ := Journal.pure_ok.1 h₂
      exact .negate (computes_of_expr env e he)
  | .select base fields, r, c, c', code, h => by
    rw [expr] at h
    obtain ⟨ty, hty, h₁⟩ := lift_bind_ok.1 h
    obtain ⟨r₁, c₁, w, w', hbase, hpath, rfl⟩ := Journal.bind_eq_ok_iff.1 h₁
    exact .select hty (computes_of_expr env base hbase) (follows_of_loadPath hpath)
  | .call name arguments, r, c, c', code, h => by
    rw [expr] at h
    obtain ⟨result, c₁, w, w', hcall, hresult, rfl⟩ := Journal.bind_eq_ok_iff.1 h
    cases result with
    | none => cases hresult
    | some result =>
      obtain ⟨rfl, rfl, rfl⟩ := Journal.pure_ok.1 hresult
      rw [List.append_nil]
      obtain ⟨hnew, struct?, r, hstruct, hr, halloc⟩ | ⟨-, _, _, hnone, -⟩ |
        ⟨f, huser, rs, c₁, v, v', hargs, huserCall, rfl⟩ := callWith_cases hcall
      · obtain ⟨struct, fields, rfl, hfields, rfl, rfl, rfl⟩ := alloc_of_allocate halloc
        cases hr
        exact .alloc hnew hstruct hfields
      · cases hnone
      · obtain ⟨hr, rfl, rfl⟩ := callUser_wanted huserCall
        cases hr
        exact .call huser (computes_of_exprs env arguments hargs)
  | .missing index size, r, c, c', code, h => by
    rw [expr] at h
    cases h

/-- Lowering the links of a chain writes code that combines them. -/
theorem computes_of_links (env : Env) : ∀ (links : List (BinOp × Expr)) {r r' : VReg}
    {c c' : Counters} {code : List Instr},
    (env.links r links).run c = ⟨.ok r', c', code⟩ → env.Computes (.links r links) c code [r'] c'
  | [], r, r', c, c', code, h => by
    rw [links] at h
    obtain ⟨rfl, rfl, rfl⟩ := Journal.pure_ok.1 h
    exact .linksNil
  | (op, e) :: rest, r, r', c, c', code, h => by
    rw [links] at h
    obtain ⟨r₁, c₁, w, w', he, h₁, rfl⟩ := Journal.bind_eq_ok_iff.1 h
    obtain ⟨r₂, c₂, v, v', hop, hrest, rfl⟩ := Journal.bind_eq_ok_iff.1 h₁
    obtain ⟨rfl, rfl, rfl⟩ := combination_of_combine hop
    rw [← List.append_assoc]
    exact .linksCons (computes_of_expr env e he) (computes_of_links env rest hrest)

/-- Lowering a list of expressions writes code that computes all of them. -/
theorem computes_of_exprs (env : Env) : ∀ (es : List Expr) {rs : List VReg} {c c' : Counters}
    {code : List Instr},
    (env.exprs es).run c = ⟨.ok rs, c', code⟩ → env.Computes (.exprs es) c code rs c'
  | [], rs, c, c', code, h => by
    rw [exprs] at h
    obtain ⟨rfl, rfl, rfl⟩ := Journal.pure_ok.1 h
    exact .exprsNil
  | e :: rest, rs, c, c', code, h => by
    rw [exprs] at h
    obtain ⟨r, c₁, w, w', he, h₁, rfl⟩ := Journal.bind_eq_ok_iff.1 h
    obtain ⟨rs', c₂, v, v', hrest, hpure, rfl⟩ := Journal.bind_eq_ok_iff.1 h₁
    obtain ⟨rfl, rfl, rfl⟩ := Journal.pure_ok.1 hpure
    rw [List.append_nil]
    exact .exprsCons (computes_of_expr env e he) (computes_of_exprs env rest hrest)

end

/-! ### Code of statements -/

/-- The code that stores a register into the field at the end of a path. -/
inductive StoresPath (env : Env) (value : VReg) :
    VReg → Ty → String → List String → Counters → List Instr → Counters → Prop
  | last {r : VReg} {ty ty' : Ty} {x : String} {k : Nat} {c : Counters} :
      env.field ty x = .ok (k, ty') → StoresPath env value r ty x [] c [.storeField value r x k] c
  | step {r : VReg} {ty ty' : Ty} {x y : String} {ys : List String} {k : Nat} {c c' : Counters}
      {code : List Instr} :
      env.field ty x = .ok (k, ty') →
      StoresPath env value ⟨c.registers⟩ ty' y ys ⟨c.registers + 1, c.labels⟩ code c' →
      StoresPath env value r ty x (y :: ys) c (.loadField ⟨c.registers⟩ r x k :: code) c'

/-- The code that stores a register into a place. -/
inductive Stores (env : Env) (value : VReg) : Place → Counters → List Instr → Counters → Prop
  | global {x : String} {c : Counters} :
      env.isGlobal x = .ok true → Stores env value ⟨x, []⟩ c [.store value (.global x)] c
  | own {x : String} {r : VReg} {c : Counters} :
      env.isGlobal x = .ok false → env.registerOf x = .ok r →
      Stores env value ⟨x, []⟩ c [.mov r (.reg value) .always] c
  | field {x y : String} {ys : List String} {v : Variable} {r : VReg} {c c₁ c₂ : Counters}
      {code code' : List Instr} :
      env.var x = .ok v → env.Computes (.expr (.name x)) c code [r] c₁ →
      env.StoresPath value r v.ty y ys c₁ code' c₂ →
      Stores env value ⟨x, y :: ys⟩ c (code ++ code') c₂

/-- A statement, or statements one after the other. -/
inductive Part where
  | stmt (s : Stmt)
  | block (ss : List Stmt)

/-- The code of statements. -/
inductive Emits (env : Env) : Part → Counters → List Instr → Counters → Prop
  | assign {target : Place} {value : Expr} {r : VReg} {c c₁ c₂ : Counters}
      {code code' : List Instr} :
      env.Computes (.expr value) c code [r] c₁ → env.Stores r target c₁ code' c₂ →
      Emits env (.stmt (.assign target value)) c (code ++ code') c₂
  | print {x : String} {newline : Bool} {r : VReg} {c c' : Counters} {code : List Instr} :
      env.Computes (.expr (.name x)) c code [r] c' →
      Emits env (.stmt (.print x newline)) c
        (code ++ [if newline then .println r else .print r]) c'
  | readGlobal {x : String} {c : Counters} :
      env.isGlobal x = .ok true →
      Emits env (.stmt (.read x)) c
        [.read ⟨c.registers⟩ x, .store ⟨c.registers⟩ (.global x)] ⟨c.registers + 1, c.labels⟩
  | readOwn {x : String} {r : VReg} {c : Counters} :
      env.isGlobal x = .ok false → env.registerOf x = .ok r →
      Emits env (.stmt (.read x)) c [.read r x] c
  | when {test : Expr} {thenBlock : List Stmt} {r : VReg} {c c₁ c₂ : Counters}
      {code code' : List Instr} :
      env.Computes (.expr test) c code [r] c₁ →
      Emits env (.block thenBlock) ⟨c₁.registers, c₁.labels + 1⟩ code' c₂ →
      Emits env (.stmt (.cond test thenBlock none)) c
        (code ++ [.cmp r (.imm 1), .branch (.on .ne) (.numbered "done" c₁.labels)] ++ code' ++
          [.branch .always (.numbered "done" c₁.labels), .label (.numbered "done" c₁.labels)]) c₂
  | choose {test : Expr} {thenBlock elseBlock : List Stmt} {r : VReg} {c c₁ c₂ c₃ : Counters}
      {code code' code'' : List Instr} :
      env.Computes (.expr test) c code [r] c₁ →
      Emits env (.block thenBlock) ⟨c₁.registers, c₁.labels + 2⟩ code' c₂ →
      Emits env (.block elseBlock) c₂ code'' c₃ →
      Emits env (.stmt (.cond test thenBlock (some elseBlock))) c
        (code ++ [.cmp r (.imm 1), .branch (.on .ne) (.numbered "else" c₁.labels)] ++ code' ++
          [.branch .always (.numbered "done" (c₁.labels + 1)),
            .label (.numbered "else" c₁.labels)] ++ code'' ++
          [.label (.numbered "done" (c₁.labels + 1))]) c₃
  | loop {test : Expr} {body : List Stmt} {r : VReg} {c c₁ c₂ : Counters}
      {code code' : List Instr} :
      Emits env (.block body) ⟨c.registers, c.labels + 2⟩ code c₁ →
      env.Computes (.expr test) c₁ code' [r] c₂ →
      Emits env (.stmt (.loop test body)) c
        ([.branch .always (.numbered "condLabel" c.labels),
            .label (.numbered "loopBody" (c.labels + 1))] ++ code ++
          [.label (.numbered "condLabel" c.labels)] ++ code' ++
          [.cmp r (.imm 1), .branch (.on .eq) (.numbered "loopBody" (c.labels + 1))]) c₂
  | leave {c : Counters} : Emits env (.stmt (.ret none)) c [.ret none] c
  | give {value : Expr} {r : VReg} {c c' : Counters} {code : List Instr} :
      env.Computes (.expr value) c code [r] c' →
      Emits env (.stmt (.ret (some value))) c (code ++ [.ret (some (.reg r))]) c'
  | alloc {name struct : String} {arguments : List Expr} {fields : Nat} {c : Counters} :
      env.callee name = .ok (.builtin .new) → structArgument? arguments = .ok (some struct) →
      env.symbols.fieldCount struct = .ok (some fields) →
      Emits env (.stmt (.call name arguments)) c [.alloc ⟨c.registers⟩ struct fields]
        ⟨c.registers + 1, c.labels⟩
  | free {name : String} {e : Expr} {rest : List Expr} {r : VReg} {c c' : Counters}
      {code : List Instr} :
      env.callee name = .ok (.builtin .delete) → env.Computes (.expr e) c code [r] c' →
      Emits env (.stmt (.call name (e :: rest))) c (code ++ [.free r]) c'
  | call {name : String} {f : Signature} {arguments : List Expr} {rs : List VReg} {c c' : Counters}
      {code : List Instr} :
      env.callee name = .ok (.user f) → env.Computes (.exprs arguments) c code rs c' →
      Emits env (.stmt (.call name arguments)) c
        (code ++ [.push rs name, .call name, .pop rs name]) c'
  | nil {c : Counters} : Emits env (.block []) c [] c
  | cons {s : Stmt} {rest : List Stmt} {c c₁ c₂ : Counters} {code code' : List Instr} :
      Emits env (.stmt s) c code c₁ → Emits env (.block rest) c₁ code' c₂ →
      Emits env (.block (s :: rest)) c (code ++ code') c₂

theorem storesPath_of_storePath {env : Env} {path : List String} {value r : VReg} {ty : Ty}
    {x : String} {c c' : Counters} {code : List Instr}
    (h : (env.storePath value r ty x path).run c = ⟨.ok (), c', code⟩) :
    env.StoresPath value r ty x path c code c' := by
  induction path generalizing r ty x c code with
  | nil =>
    obtain ⟨⟨k, ty'⟩, hfield, h₁⟩ := lift_bind_ok.1 h
    obtain ⟨rfl, rfl⟩ := emit_ok.1 h₁
    exact .last hfield
  | cons y ys ih =>
    obtain ⟨⟨target, fieldTy⟩, c₁, w, w', hload, hrest, rfl⟩ := Journal.bind_eq_ok_iff.1 h
    obtain ⟨⟨k, ty'⟩, hfield, hload⟩ := lift_bind_ok.1 hload
    obtain ⟨_, hpure, rfl⟩ := emit_bind_ok.1 (fresh_bind_ok.1 hload)
    obtain ⟨hpair, rfl, rfl⟩ := Journal.pure_ok.1 hpure
    obtain ⟨rfl, rfl⟩ := Prod.mk.inj hpair
    exact .step hfield (ih hrest)

theorem stores_of_store {env : Env} {place : Place} {value : VReg} {c c' : Counters}
    {code : List Instr} (h : (env.store place value).run c = ⟨.ok (), c', code⟩) :
    env.Stores value place c code c' := by
  obtain ⟨x, fields⟩ := place
  cases fields with
  | nil =>
    obtain ⟨isGlobal, hglobal, h₁⟩ := lift_bind_ok.1 h
    cases isGlobal with
    | true =>
      obtain ⟨rfl, rfl⟩ := emit_ok.1 h₁
      exact .global hglobal
    | false =>
      obtain ⟨r, hr, h₂⟩ := lift_bind_ok.1 h₁
      obtain ⟨rfl, rfl⟩ := emit_ok.1 h₂
      exact .own hglobal hr
  | cons y ys =>
    obtain ⟨v, hv, h₁⟩ := lift_bind_ok.1 h
    obtain ⟨r, c₁, w, w', hread, hpath, rfl⟩ := Journal.bind_eq_ok_iff.1 h₁
    exact .field hv (computes_of_readName hread) (storesPath_of_storePath hpath)

theorem computes_of_condition {env : Env} {e : Expr} {c c' : Counters} {code : List Instr}
    (h : (env.condition e).run c = ⟨.ok (), c', code⟩) :
    ∃ r w, env.Computes (.expr e) c w [r] c' ∧ code = w ++ [.cmp r (.imm 1)] := by
  obtain ⟨r, c₁, w, w', he, h₁, rfl⟩ := Journal.bind_eq_ok_iff.1 h
  obtain ⟨rfl, rfl⟩ := emit_ok.1 h₁
  exact ⟨r, w, computes_of_expr env e he, rfl⟩

mutual

/-- Lowering a statement writes its code. -/
theorem emits_of_stmt (env : Env) : ∀ (s : Stmt) {c c' : Counters} {code : List Instr},
    (env.stmt s).run c = ⟨.ok (), c', code⟩ → env.Emits (.stmt s) c code c'
  | .assign target value, c, c', code, h => by
    rw [stmt] at h
    obtain ⟨r, c₁, w, w', hvalue, hstore, rfl⟩ := Journal.bind_eq_ok_iff.1 h
    exact .assign (computes_of_expr env value hvalue) (stores_of_store hstore)
  | .print x newline, c, c', code, h => by
    rw [stmt] at h
    obtain ⟨r, c₁, w, w', hread, h₁, rfl⟩ := Journal.bind_eq_ok_iff.1 h
    obtain ⟨rfl, rfl⟩ := emit_ok.1 h₁
    exact .print (computes_of_readName hread)
  | .read x, c, c', code, h => by
    rw [stmt] at h
    obtain ⟨isGlobal, hglobal, h₁⟩ := lift_bind_ok.1 h
    cases isGlobal with
    | true =>
      obtain ⟨_, h₂, rfl⟩ := emit_bind_ok.1 (fresh_bind_ok.1 h₁)
      obtain ⟨rfl, rfl⟩ := emit_ok.1 h₂
      exact .readGlobal hglobal
    | false =>
      obtain ⟨r, hr, h₂⟩ := lift_bind_ok.1 h₁
      obtain ⟨rfl, rfl⟩ := emit_ok.1 h₂
      exact .readOwn hglobal hr
  | .cond test thenBlock none, c, c', code, h => by
    rw [stmt] at h
    obtain ⟨_, c₁, w, w', htest, h₁, rfl⟩ := Journal.bind_eq_ok_iff.1 h
    obtain ⟨r, v, hr, rfl⟩ := computes_of_condition htest
    obtain ⟨_, h₂, rfl⟩ := emit_bind_ok.1 (freshLabel_bind_ok.1 h₁)
    obtain ⟨_, c₂, u, u', hthen, h₃, rfl⟩ := Journal.bind_eq_ok_iff.1 h₂
    obtain ⟨_, h₄, rfl⟩ := emit_bind_ok.1 h₃
    obtain ⟨rfl, rfl⟩ := emit_ok.1 h₄
    have hcode := Emits.when hr (emits_of_block env thenBlock hthen)
    simpa only [List.append_assoc, List.cons_append, List.nil_append] using hcode
  | .cond test thenBlock (some elseBlock), c, c', code, h => by
    rw [stmt] at h
    obtain ⟨_, c₁, w, w', htest, h₁, rfl⟩ := Journal.bind_eq_ok_iff.1 h
    obtain ⟨r, v, hr, rfl⟩ := computes_of_condition htest
    obtain ⟨_, h₂, rfl⟩ := emit_bind_ok.1 (freshLabel_bind_ok.1 (freshLabel_bind_ok.1 h₁))
    obtain ⟨_, c₂, u, u', hthen, h₃, rfl⟩ := Journal.bind_eq_ok_iff.1 h₂
    obtain ⟨_, h₄, rfl⟩ := emit_bind_ok.1 h₃
    obtain ⟨_, h₅, rfl⟩ := emit_bind_ok.1 h₄
    obtain ⟨_, c₃, t, t', helse, h₆, rfl⟩ := Journal.bind_eq_ok_iff.1 h₅
    obtain ⟨rfl, rfl⟩ := emit_ok.1 h₆
    have hcode := Emits.choose hr (emits_of_block env thenBlock hthen)
      (emits_of_block env elseBlock helse)
    simpa only [List.append_assoc, List.cons_append, List.nil_append] using hcode
  | .loop test body, c, c', code, h => by
    rw [stmt] at h
    obtain ⟨_, h₁, rfl⟩ := emit_bind_ok.1 (freshLabel_bind_ok.1 (freshLabel_bind_ok.1 h))
    obtain ⟨_, h₂, rfl⟩ := emit_bind_ok.1 h₁
    obtain ⟨_, c₁, w, w', hbody, h₃, rfl⟩ := Journal.bind_eq_ok_iff.1 h₂
    obtain ⟨_, h₄, rfl⟩ := emit_bind_ok.1 h₃
    obtain ⟨_, c₂, u, u', htest, h₅, rfl⟩ := Journal.bind_eq_ok_iff.1 h₄
    obtain ⟨r, v, hr, rfl⟩ := computes_of_condition htest
    obtain ⟨rfl, rfl⟩ := emit_ok.1 h₅
    have hcode := Emits.loop (c := c) (emits_of_block env body hbody) hr
    simpa only [List.append_assoc, List.cons_append, List.nil_append] using hcode
  | .ret none, c, c', code, h => by
    rw [stmt] at h
    obtain ⟨rfl, rfl⟩ := emit_ok.1 h
    exact .leave
  | .ret (some value), c, c', code, h => by
    rw [stmt] at h
    obtain ⟨r, c₁, w, w', hvalue, h₁, rfl⟩ := Journal.bind_eq_ok_iff.1 h
    obtain ⟨rfl, rfl⟩ := emit_ok.1 h₁
    exact .give (computes_of_expr env value hvalue)
  | .call name arguments, c, c', code, h => by
    rw [stmt] at h
    obtain ⟨result, c₁, w, w', hcall, hpure, rfl⟩ := Journal.bind_eq_ok_iff.1 h
    obtain ⟨-, rfl, rfl⟩ := Journal.pure_ok.1 hpure
    rw [List.append_nil]
    obtain ⟨hnew, struct?, r, hstruct, -, halloc⟩ | ⟨hdelete, r, v, -, hfirst, rfl⟩ |
      ⟨f, huser, rs, c₁, v, v', hargs, huserCall, rfl⟩ := callWith_cases hcall
    · obtain ⟨struct, fields, rfl, hfields, rfl, rfl, rfl⟩ := alloc_of_allocate halloc
      exact .alloc hnew hstruct hfields
    · cases arguments with
      | nil => rw [firstExpr] at hfirst; cases hfirst
      | cons e rest =>
        rw [firstExpr] at hfirst
        exact .free hdelete (computes_of_expr env e hfirst)
    · obtain ⟨rfl, rfl⟩ := callUser_unwanted huserCall
      exact .call huser (computes_of_exprs env arguments hargs)
  | .missing index size, c, c', code, h => by
    rw [stmt] at h
    cases h

/-- Lowering statements writes their code. -/
theorem emits_of_block (env : Env) : ∀ (ss : List Stmt) {c c' : Counters} {code : List Instr},
    (env.block ss).run c = ⟨.ok (), c', code⟩ → env.Emits (.block ss) c code c'
  | [], c, c', code, h => by
    rw [block] at h
    obtain ⟨-, rfl, rfl⟩ := Journal.pure_ok.1 h
    exact .nil
  | s :: rest, c, c', code, h => by
    rw [block] at h
    obtain ⟨_, c₁, w, w', hs, hrest, rfl⟩ := Journal.bind_eq_ok_iff.1 h
    exact .cons (emits_of_stmt env s hs) (emits_of_block env rest hrest)

end

end Env

end Spillway.Lowering
