import Spillway.Proofs.Linear.Drawn
import Spillway.Proofs.Linear.Mirrors
import Spillway.Proofs.Lowering.Code

/-!
# What the code of expressions computes

Code that computes an expression leaves its value in the register that lowering returns, does to the
world what the expression does, and keeps every register that was drawn before it. The last is what lets
a variable be used in place: its register still holds it when the operands after it were computed.

* `Env.Describes` — what lowering knows about names, fields and callees is what they mean.
* `Env.Computes.drawn`, `Env.Computes.results_lt` — registers are drawn upward.
* `Env.Computes.mirrors` — running the code of an expression is evaluating the expression.
* `Env.Computes.run` — the code of an expression computes its value.
-/

namespace Spillway.Lowering

open Linear (Instr State Drawn Mirrors straight straight_next straight_call sameBut_of_straight mirrors_pure
  mirrors_compute mirrors_load mirrors_ask mirrors_call mirrors_singleton)

variable {W : Type}

namespace Phrase

/-- The registers that a phrase goes on from. -/
def start : Phrase → List VReg
  | .links r _ => [r]
  | .expr _ | .exprs _ => []

/-- The values of a phrase, and the world after it. -/
def values (Γ : Statics) (rt : Runtime W) (calls : Calls W) (ρ : String → Word)
    (regs : VReg → Word) : Phrase → Outside W → Option (List Word × Outside W)
  | .expr e, o => (Γ.eval rt calls ρ e o).map fun r => ([r.1], r.2)
  | .links r rest, o => (Γ.evalLinks rt calls ρ (regs r) rest o).map fun r => ([r.1], r.2)
  | .exprs es, o => Γ.evalAll rt calls ρ es o

section Values

variable {Γ : Statics} {rt : Runtime W} {calls : Calls W} {ρ : String → Word} {regs : VReg → Word}
  {o o' : Outside W} {vs : List Word}

theorem values_expr {e : Expr} : (expr e).values Γ rt calls ρ regs o = some (vs, o') ↔
    ∃ v, Γ.eval rt calls ρ e o = some (v, o') ∧ [v] = vs := by
  simp [values]

/-- The values of a phrase, with what it asks the world for. -/
def perform (Γ : Statics) (rt : Runtime W) (calls : Calls W) (ρ : String → Word) (regs : VReg → Word) :
    Phrase → Asking W (List Word)
  | .expr e => (fun v => [v]) <$> Γ.perform rt calls ρ e
  | .links r rest => (fun v => [v]) <$> Γ.performLinks rt calls ρ (regs r) rest
  | .exprs es => Γ.performAll rt calls ρ es

theorem finished?_perform (ph : Phrase) :
    ((ph.perform Γ rt calls ρ regs).run o).finished? = ph.values Γ rt calls ρ regs o := by
  cases ph with
  | expr e => rw [perform, values, Journal.finished?_map, Statics.finished?_perform]
  | links r rest => rw [perform, values, Journal.finished?_map, Statics.finished?_performLinks]
  | exprs es => exact Statics.finished?_performAll es o

end Values

end Phrase

/-! ### Operators -/

theorem drawn_combination {old : Set VReg} (op : BinOp) (n : Nat) (left right : VReg) :
    Drawn old n (combination op ⟨n⟩ left right) (n + 1) := by
  rw [combination]
  cases Action.of op with
  | compare c => exact .compare .nil
  | compute alu => exact .one rfl

/-- Combining two registers asks the world for nothing. -/
theorem quiet_combination (op : BinOp) (target left right : VReg) :
    ∀ i ∈ combination op target left right, ∀ s : State W, i.request? s = none := by
  unfold combination
  cases Action.of op <;> simp [Instr.request?]

namespace Env

/-! ### What lowering knows -/

/-- A name is that of a variable with a register of its own. -/
def Owns (env : Env) (x : String) (r : VReg) : Prop :=
  env.isGlobal x = .ok false ∧ env.registerOf x = .ok r

/-- What lowering finds out about names, fields and callees is what they mean. -/
structure Describes (env : Env) (Γ : Statics) : Prop where
  memory : ∀ {x}, env.isGlobal x = .ok true → Γ.home x = some .memory
  own : ∀ {x r}, env.Owns x r → Γ.home x = some .own
  pointee : ∀ {x v}, env.var x = .ok v → Γ.pointee x = v.ty.structName?
  callee : ∀ {x f}, env.callee x = .ok f → Γ.callee x = some f
  field : ∀ {ty x k ty'}, env.field ty x = .ok (k, ty') →
    ∃ struct, ty.structName? = some struct ∧ Γ.field struct x = some (k, ty'.structName?)
  words : ∀ {struct n}, env.symbols.fieldCount struct = .ok (some n) → Γ.words struct = some n

/-- Every variable has its value in its register. -/
def Agrees (env : Env) (ρ : String → Word) (regs : VReg → Word) : Prop :=
  ∀ ⦃x r⦄, env.Owns x r → regs r = ρ x

/-- The registers of variables are among the first `n`. -/
def Below (env : Env) (n : Nat) : Prop := ∀ ⦃x r⦄, env.Owns x r → r.id < n

variable {env : Env} {Γ : Statics}

theorem allocated?_of_structArgument? {arguments : List Expr} {struct? : Option String}
    (h : structArgument? arguments = .ok struct?) : Statics.allocated? arguments = struct? := by
  cases arguments with
  | nil => cases h; rfl
  | cons e rest => cases e <;> cases h <;> rfl

theorem Describes.pointeeAlong (h : env.Describes Γ) {path : List String} {ty ty' : Ty}
    (hty : env.typeAlong ty path = .ok ty') :
    Γ.pointeeAlong ty.structName? path = ty'.structName? := by
  induction path generalizing ty with
  | nil =>
    cases hty
    rfl
  | cons x path ih =>
    rw [typeAlong] at hty
    obtain ⟨⟨k, ty₁⟩, hfield, hrest⟩ := Journal.except_bind_ok.1 hty
    obtain ⟨struct, hstruct, hΓ⟩ := h.field hfield
    rw [Statics.pointeeAlong, hstruct]
    simp only [Option.bind_eq_bind, Option.bind_some, hΓ]
    exact ih hrest

/-- The type that lowering finds for an expression points to the struct that its value points to. -/
theorem Describes.pointeeOf (h : env.Describes Γ) : ∀ {e : Expr} {ty : Ty},
    env.typeOf e = .ok ty → Γ.pointeeOf e = ty.structName?
  | .int _, ty, hty | .bool _, ty, hty | .nil, ty, hty => by
    rw [typeOf] at hty
    cases hty
    rfl
  | .name x, ty, hty => by
    rw [typeOf] at hty
    obtain ⟨v, hvar, hv⟩ := Journal.except_bind_ok.1 hty
    cases hv
    exact h.pointee hvar
  | .paren e, ty, hty => by
    rw [typeOf] at hty
    show Γ.pointeeOf e = _
    exact h.pointeeOf hty
  | .chain head [], ty, hty => by
    rw [typeOf] at hty
    show Γ.pointeeOf head = _
    exact h.pointeeOf hty
  | .chain head ((op, e) :: rest), ty, hty => by
    rw [typeOf] at hty
    cases hty
    cases op <;> rfl
  | .unary op e, ty, hty => by
    rw [typeOf] at hty
    cases hty
    cases op <;> rfl
  | .select base path, ty, hty => by
    rw [typeOf] at hty
    obtain ⟨ty₁, hbase, hpath⟩ := Journal.except_bind_ok.1 hty
    rw [Statics.pointeeOf, h.pointeeOf hbase]
    exact h.pointeeAlong hpath
  | .call f arguments, ty, hty => by
    rw [typeOf] at hty
    obtain ⟨callee, hcallee, hrest⟩ := Journal.except_bind_ok.1 hty
    unfold Statics.pointeeOf
    rw [h.callee hcallee]
    cases callee with
    | user sig => cases hrest; rfl
    | builtin b =>
      cases b with
      | new =>
        obtain ⟨struct?, harg, hstruct⟩ := Journal.except_bind_ok.1 hrest
        cases hstruct
        show Statics.allocated? arguments = _
        rw [allocated?_of_structArgument? harg]
        cases struct? <;> rfl
      | delete => cases hrest; rfl
  | .missing i n, ty, hty => by
    rw [typeOf] at hty
    cases hty

/-! ### Registers are drawn upward -/

variable {old : Set VReg} {c c' : Counters} {code : List Instr}

theorem Follows.drawn {r r' : VReg} {ty : Ty} {path : List String}
    (h : env.Follows r ty path c code r' c') : Drawn old c.registers code c'.registers := by
  induction h with
  | nil => exact .nil
  | cons _ _ ih => exact .draw rfl ih

/-- **Expressions.** The code of an expression writes what was drawn for it and nothing else. -/
theorem Computes.drawn {ph : Phrase} {rs : List VReg} (h : env.Computes ph c code rs c') :
    Drawn old c.registers code c'.registers := by
  induction h with
  | int | bool | nil | global | alloc => exact .one rfl
  | own | linksNil | exprsNil => exact .nil
  | paren _ ih => exact ih
  | chain _ _ ih ih' | exprsCons _ _ ih ih' => exact ih.append ih'
  | not _ ih => exact ih.append (.one rfl)
  | negate _ ih => exact ih.append (.draw rfl (.one rfl))
  | select _ _ hfollows ih => exact ih.append hfollows.drawn
  | call _ _ ih => exact ih.append ((Drawn.none rfl).append ((Drawn.none rfl).append (.draw rfl (.none rfl))))
  | linksCons _ _ ih ih' => exact (ih.append (drawn_combination ..)).append ih'

theorem Computes.registers_le {ph : Phrase} {rs : List VReg} (h : env.Computes ph c code rs c') :
    c.registers ≤ c'.registers := by
  have hdrawn : Drawn ∅ c.registers code c'.registers := h.drawn
  exact hdrawn.le

theorem Follows.result_lt {r r' : VReg} {ty : Ty} {path : List String}
    (h : env.Follows r ty path c code r' c') (hr : r.id < c.registers) : r'.id < c'.registers := by
  induction h with
  | nil => exact hr
  | cons _ _ ih => exact ih (Nat.lt_succ_self _)

/-- The results of a phrase are in registers that are drawn by then. -/
theorem Computes.results_lt {ph : Phrase} {n : Nat} {rs : List VReg} (h : env.Computes ph c code rs c')
    (hbelow : env.Below n) (hn : n ≤ c.registers) (hstart : ∀ r ∈ ph.start, r.id < c.registers) :
    ∀ r ∈ rs, r.id < c'.registers := by
  have hone : ∀ {r : VReg} {m : Nat}, r.id < m → ∀ r' ∈ [r], r'.id < m := by
    intro r m hr r' hr'
    rw [List.mem_singleton] at hr'
    rwa [hr']
  induction h with
  | int | bool | nil | global _ | alloc _ _ _ | not _ _ | negate _ _ | call _ _ _ =>
    exact hone (Nat.lt_succ_self _)
  | own hglobal hr => exact hone (Nat.lt_of_lt_of_le (hbelow ⟨hglobal, hr⟩) hn)
  | paren _ ih => exact ih hn nofun
  | chain h₁ _ ih₁ ih₂ =>
    exact ih₂ (Nat.le_trans hn h₁.registers_le) (ih₁ hn nofun)
  | select _ _ hpath ih => exact hone (hpath.result_lt (ih hn nofun _ (List.mem_singleton.2 rfl)))
  | linksNil => exact hstart
  | linksCons h₁ _ _ ih₂ =>
    exact ih₂ (Nat.le_succ_of_le (Nat.le_trans hn h₁.registers_le)) (hone (Nat.lt_succ_self _))
  | exprsNil => exact nofun
  | exprsCons h₁ h₂ ih₁ ih₂ =>
    intro r hr
    obtain rfl | hr := List.mem_cons.1 hr
    · exact Nat.lt_of_lt_of_le (ih₁ hn nofun _ (List.mem_singleton.2 rfl)) h₂.registers_le
    · exact ih₂ (Nat.le_trans hn h₁.registers_le) nofun r hr

/-! ### Values -/

theorem Agrees.keep {ρ : String → Word} {n : Nat} {s s' : State W} (h : env.Agrees ρ s.regs)
    (hbelow : env.Below n) (hsame : State.SameBelow n s s') : env.Agrees ρ s'.regs := by
  intro x r hx
  rw [hsame r (hbelow hx)]
  exact h hx

variable {rt : Runtime W} {calls : Calls W}

/-- An operator that is lowered to a comparison gives its truth value. -/
theorem apply_of_compare {op : BinOp} {cond : Linear.Cond} (h : Action.of op = .compare cond)
    (a b : Word) : op.apply a b = truth (cond.holds a.toInt b.toInt) := by
  cases op <;> cases h <;> simp [BinOp.apply, Linear.Cond.holds, BitVec.toInt_inj]

theorem apply_of_compute {op : BinOp} {alu : Linear.AluOp} (h : Action.of op = .compute alu)
    (a b : Word) : op.apply a b = alu.apply a b := by
  cases op <;> cases h <;> rfl

/-- The code of an operator combines two registers that were drawn before. -/
theorem run_combination (rt : Runtime W) (calls : Calls W) (op : BinOp) {n : Nat} {left right : VReg}
    (s : State W) (hleft : left.id < n) (hright : right.id < n) :
    ∃ s', straight rt calls (combination op ⟨n⟩ left right) s = some s' ∧
      s'.outside = s.outside ∧ s'.regs ⟨n⟩ = op.apply (s.regs left) (s.regs right) := by
  have hl : left ≠ ⟨n⟩ := by
    rintro rfl
    exact Nat.lt_irrefl _ hleft
  have hr : right ≠ ⟨n⟩ := by
    rintro rfl
    exact Nat.lt_irrefl _ hright
  unfold combination
  cases haction : Action.of op with
  | compute alu =>
    refine ⟨s.set ⟨n⟩ (alu.apply (s.regs left) (s.regs right)), straight_next rfl, rfl, ?_⟩
    rw [State.set_regs, Function.update_self, apply_of_compute haction]
  | compare cond =>
    -- the register is cleared first; the operands are other registers, so it is they that are compared
    let s₁ := s.set ⟨n⟩ 0
    let s₂ : State W := { s₁ with flags := some (s.regs left, s.regs right) }
    have hleft₁ : s₁.regs left = s.regs left := Function.update_of_ne hl _ _
    have hright₁ : s₁.regs right = s.regs right := Function.update_of_ne hr _ _
    have hcmp : (Instr.cmp left (.reg right)).effect rt s₁ = some (s₂, .next) := by
      simp only [Instr.effect, Linear.Operand.value, hleft₁, hright₁, s₂]
    have hclear : (Instr.mov ⟨n⟩ (.imm 0) .always).effect rt s = some (s₁, .next) := rfl
    rw [straight_next hclear, straight_next hcmp]
    cases htest : cond.holds (s.regs left).toInt (s.regs right).toInt with
    | true =>
      have hmov : (Instr.mov ⟨n⟩ (.imm 1) (.on cond)).effect rt s₂ = some (s₂.set ⟨n⟩ 1, .next) := by
        simp only [Instr.effect, Linear.Guard.passes, s₂, Option.map_some, htest]
        rfl
      refine ⟨s₂.set ⟨n⟩ 1, straight_next hmov, rfl, ?_⟩
      rw [State.set_regs, Function.update_self, apply_of_compare haction, htest]
      rfl
    | false =>
      have hmov : (Instr.mov ⟨n⟩ (.imm 1) (.on cond)).effect rt s₂ = some (s₂, .next) := by
        simp only [Instr.effect, Linear.Guard.passes, s₂, Option.map_some, htest]
        rfl
      refine ⟨s₂, straight_next hmov, rfl, ?_⟩
      rw [apply_of_compare haction, htest]
      exact Function.update_self ..

/-- An instruction that computes a value into the register that comes next. -/
theorem run_fresh (calls : Calls W) {i : Instr} {n : Nat} {s t : State W} {v : Word}
    (h : i.effect rt s = some (t.set ⟨n⟩ v, .next)) (ht : t.regs = s.regs) :
    ∃ s', straight rt calls [i] s = some s' ∧ s'.outside = t.outside ∧
      [⟨n⟩].map s'.regs = [v] ∧ State.SameBelow n s s' := by
  refine ⟨t.set ⟨n⟩ v, straight_next h, rfl, ?_, ?_⟩
  · rw [List.map_singleton, State.set_regs, Function.update_self]
  · intro r hr
    rw [← ht]
    exact State.SameBelow.fresh n t v r hr

/-- A register that was drawn before is negated: it is subtracted from a register that holds zero. -/
theorem run_negation (rt : Runtime W) (calls : Calls W) {n : Nat} {r : VReg} (s : State W) (hr : r.id < n) :
    ∃ s', straight rt calls [.mov ⟨n⟩ (.imm 0) .always, .binary .sub ⟨n + 1⟩ ⟨n⟩ (.reg r)] s = some s' ∧
      s'.outside = s.outside ∧ s'.regs ⟨n + 1⟩ = -s.regs r := by
  have hne : r ≠ ⟨n⟩ := by
    rintro rfl
    exact Nat.lt_irrefl _ hr
  let s₁ := s.set ⟨n⟩ 0
  have hclear : (Instr.mov ⟨n⟩ (.imm 0) .always).effect rt s = some (s₁, .next) := rfl
  have hsub : (Instr.binary .sub ⟨n + 1⟩ ⟨n⟩ (.reg r)).effect rt s₁
      = some (s₁.set ⟨n + 1⟩ (-s.regs r), .next) := by
    have hzero : s₁.regs ⟨n⟩ = 0#64 := Function.update_self ..
    have hoperand : s₁.regs r = s.regs r := Function.update_of_ne hne _ _
    simp only [Instr.effect, Linear.Operand.value, Linear.AluOp.apply, hzero, hoperand, BitVec.zero_sub]
  exact ⟨s₁.set ⟨n + 1⟩ (-s.regs r), (straight_next hclear).trans (straight_next hsub), rfl, Function.update_self ..⟩

/-- Arguments are passed and the function is called. -/
theorem run_call {name : String} {rs : List VReg} {s : State W} {v : Option Word} {o : Outside W}
    (h : calls name (rs.map s.regs) s.outside = some (v, o)) (code : List Instr) :
    straight rt calls (.push rs name :: .call name :: code) s
      = straight rt calls code (s.returned v o) := by
  have hpush : (Instr.push rs name).effect rt s = some ({ s with args := rs.map s.regs }, .next) := rfl
  rw [straight_next hpush, straight_call h]
  rfl

/-- The code of a path of fields follows the path. -/
theorem Follows.mirrors {r r' : VReg} {ty : Ty} {path : List String} (hdesc : env.Describes Γ)
    (h : env.Follows r ty path c code r' c') (s : State W) :
    Mirrors rt calls code (·.regs r') (Γ.performPath rt calls (s.regs r) ty.structName? path) s := by
  induction h generalizing s with
  | nil => exact mirrors_pure (List.forall_mem_nil _) rfl rfl rfl
  | @cons r r' ty ty' x path k c c' code hfield _ ih =>
    obtain ⟨struct, hstruct, hΓ⟩ := hdesc.field hfield
    have hpath : Γ.performPath rt calls (s.regs r) ty.structName? (x :: path)
        = (Request.load (.field (s.regs r) k)).ask rt calls >>= fun v =>
          Γ.performPath rt calls v ty'.structName? path := by
      rw [Statics.performPath, hstruct, Option.bind_some, hΓ]
    rw [hpath]
    exact (mirrors_load (i := .loadField ⟨c.registers⟩ r x k) rfl rfl).bind fun t _ => ih t

/-- **The code of a phrase does what the phrase does.** The induction is over the rules for code. From one piece of code
to the next goes that the registers drawn before are kept: so variables, which were drawn before all code, still have
their values, and operands that were computed still have theirs. -/
theorem Computes.mirrors {ph : Phrase} {n : Nat} {rs : List VReg} (h : env.Computes ph c code rs c')
    (hdesc : env.Describes Γ) (hbelow : env.Below n) (hn : n ≤ c.registers)
    (hstart : ∀ r ∈ ph.start, r.id < c.registers) {ρ : String → Word} (s : State W)
    (hagree : env.Agrees ρ s.regs) :
    Mirrors rt calls code (fun t => rs.map t.regs) (ph.perform Γ rt calls ρ s.regs) s := by
  induction h generalizing s with
  | @int v c =>
    rw [Phrase.perform, Statics.perform]
    exact mirrors_singleton.2 (mirrors_compute (fun _ => rfl) rfl)
  | @bool b c =>
    rw [Phrase.perform, Statics.perform]
    refine mirrors_singleton.2 (mirrors_compute (fun _ => rfl) ?_)
    cases b <;> rfl
  | @nil c =>
    rw [Phrase.perform, Statics.perform]
    exact mirrors_singleton.2 (mirrors_compute (fun _ => rfl) rfl)
  | @global x c hglobal =>
    rw [Phrase.perform, Statics.perform, Statics.performName, hdesc.memory hglobal]
    exact mirrors_singleton.2 (mirrors_load rfl rfl)
  | @own x r c hglobal hr =>
    rw [Phrase.perform, Statics.perform, Statics.performName, hdesc.own ⟨hglobal, hr⟩]
    exact mirrors_singleton.2 (mirrors_pure (List.forall_mem_nil _) rfl rfl (hagree ⟨hglobal, hr⟩))
  | @paren e r c c' code _ ih =>
    rw [Phrase.perform, Statics.perform]
    exact ih hn (List.forall_mem_nil _) s hagree
  | @chain head links r r' c c₁ c₂ code code' h₁ h₂ ih₁ ih₂ =>
    rw [Phrase.perform, Statics.perform]
    have hhead := mirrors_singleton.1 (ih₁ hn (List.forall_mem_nil _) s hagree)
    refine mirrors_singleton.2 (hhead.bind fun t ht => mirrors_singleton.1 ?_)
    exact ih₂ (Nat.le_trans hn h₁.registers_le) (h₁.results_lt hbelow hn (List.forall_mem_nil _)) t
      (hagree.keep hbelow ((h₁.drawn.sameBelow ht).mono hn))
  | @not e r c c' code h₁ ih =>
    rw [Phrase.perform, Statics.perform]
    have hoperand := mirrors_singleton.1 (ih hn (List.forall_mem_nil _) s hagree)
    exact mirrors_singleton.2 (hoperand.bind fun t _ => mirrors_compute (fun _ => rfl) rfl)
  | @negate e r c c' code h₁ ih =>
    rw [Phrase.perform, Statics.perform]
    have hoperand := mirrors_singleton.1 (ih hn (List.forall_mem_nil _) s hagree)
    refine mirrors_singleton.2 (hoperand.bind fun t _ => ?_)
    have hr : r.id < c'.registers := h₁.results_lt hbelow hn (List.forall_mem_nil _) r (List.mem_singleton.2 rfl)
    obtain ⟨t', hrun, hout, hres⟩ := run_negation rt calls t hr
    exact mirrors_pure (by simp [Instr.request?]) hrun hout hres
  | @select base path ty r r' c c₁ c₂ code code' hty h₁ hpath ih =>
    rw [Phrase.perform, Statics.perform, hdesc.pointeeOf hty]
    have hbase := mirrors_singleton.1 (ih hn (List.forall_mem_nil _) s hagree)
    exact mirrors_singleton.2 (hbase.bind fun t _ => hpath.mirrors hdesc t)
  | @alloc name struct arguments fields c hnew harg hfields =>
    rw [Phrase.perform, Statics.perform, hdesc.callee hnew]
    have hnew' : Γ.performNew rt calls arguments = (Request.alloc fields).ask rt calls := by
      rw [Statics.performNew, allocated?_of_structArgument? harg, Option.bind_some, hdesc.words hfields]
    refine mirrors_singleton.2 ?_
    simp only [hnew']
    exact mirrors_ask (s.outside.alloc rt fields) s.called rfl rfl rfl fun _ => rfl
  | @call name f arguments rs c c' code hcallee h₁ ih =>
    rw [Phrase.perform, Statics.perform, hdesc.callee hcallee]
    have harguments := ih hn (List.forall_mem_nil _) s hagree
    exact mirrors_singleton.2 (harguments.bind fun t _ => mirrors_call rs name _ t)
  | @linksNil r c =>
    rw [Phrase.perform, Statics.performLinks]
    exact mirrors_singleton.2 (mirrors_pure (List.forall_mem_nil _) rfl rfl rfl)
  | @linksCons op e rest r r₁ r₂ c c₁ c₂ code code' h₁ h₂ ih₁ ih₂ =>
    have hr : r.id < c.registers := hstart r (List.mem_singleton.2 rfl)
    have hr₁ : r₁.id < c₁.registers := h₁.results_lt hbelow hn (List.forall_mem_nil _) r₁ (List.mem_singleton.2 rfl)
    have hn₁ : n ≤ c₁.registers := Nat.le_trans hn h₁.registers_le
    have hoperand := mirrors_singleton.1 (ih₁ hn (List.forall_mem_nil _) s hagree)
    have hcombined : Mirrors rt calls (code ++ combination op ⟨c₁.registers⟩ r r₁) (·.regs ⟨c₁.registers⟩)
        (Γ.perform rt calls ρ e >>= fun v => pure (op.apply (s.regs r) v)) s := by
      refine hoperand.bind fun t ht => ?_
      obtain ⟨t', hrun, hout, hres⟩ :=
        run_combination rt calls op t (Nat.lt_of_lt_of_le hr h₁.registers_le) hr₁
      -- the register the chain went on from was drawn before the operand, so it still holds its value
      rw [h₁.drawn.sameBelow ht r hr] at hres
      exact mirrors_pure (quiet_combination op _ r r₁) hrun hout hres
    have hlinks : Γ.performLinks rt calls ρ (s.regs r) ((op, e) :: rest)
        = (Γ.perform rt calls ρ e >>= fun v => pure (op.apply (s.regs r) v)) >>= fun v =>
          Γ.performLinks rt calls ρ v rest := by
      rw [Statics.performLinks, bind_assoc]
      simp only [pure_bind]
    rw [Phrase.perform, hlinks]
    refine mirrors_singleton.2 (hcombined.bind fun t ht => mirrors_singleton.1 ?_)
    have hsame := (h₁.drawn.append (drawn_combination op _ r r₁)).sameBelow ht
    refine ih₂ (Nat.le_succ_of_le hn₁) (fun r' hr' => ?_) t (hagree.keep hbelow (hsame.mono hn))
    rw [List.mem_singleton.1 hr']
    exact Nat.lt_succ_self _
  | exprsNil =>
    rw [Phrase.perform, Statics.performAll]
    exact mirrors_pure (List.forall_mem_nil _) rfl rfl rfl
  | @exprsCons e rest r rs c c₁ c₂ code code' h₁ h₂ ih₁ ih₂ =>
    have hr : r.id < c₁.registers := h₁.results_lt hbelow hn (List.forall_mem_nil _) r (List.mem_singleton.2 rfl)
    have hfirst := mirrors_singleton.1 (ih₁ hn (List.forall_mem_nil _) s hagree)
    rw [Phrase.perform, Statics.performAll]
    refine hfirst.bind fun t ht => ?_
    have hrest := ih₂ (Nat.le_trans hn h₁.registers_le) (List.forall_mem_nil _) t
      (hagree.keep hbelow ((h₁.drawn.sameBelow ht).mono hn))
    rw [bind_pure_comp]
    refine hrest.map fun t' ht' => ?_
    rw [List.map_cons, h₂.drawn.sameBelow ht' r hr]

/-- **Expressions compute their values.** From a state that holds every variable in its register, the
code of a phrase leaves its values in the result registers, does to the world what the phrase does, and
keeps every register that was drawn before. -/
theorem Computes.run {ph : Phrase} {n : Nat} {rs : List VReg}
    (h : env.Computes ph c code rs c') (hdesc : env.Describes Γ) (hbelow : env.Below n)
    (hn : n ≤ c.registers) (hstart : ∀ r ∈ ph.start, r.id < c.registers) {ρ : String → Word}
    (s : State W) (hagree : env.Agrees ρ s.regs) {vs : List Word} {o : Outside W}
    (hv : ph.values Γ rt calls ρ s.regs s.outside = some (vs, o)) :
    ∃ s', straight rt calls code s = some s' ∧ s'.outside = o ∧ rs.map s'.regs = vs ∧
      State.SameBelow c.registers s s' := by
  have hmirrors : Mirrors rt calls code (fun t => rs.map t.regs) (ph.perform Γ rt calls ρ s.regs) s :=
    h.mirrors hdesc hbelow hn hstart s hagree
  have hrun := hmirrors.straight_eq
  rw [Phrase.finished?_perform, hv] at hrun
  obtain ⟨s', hs', hpair⟩ := Option.map_eq_some_iff.1 hrun
  cases hpair
  exact ⟨s', hs', rfl, rfl, h.drawn.sameBelow (sameBut_of_straight hs')⟩

end Env

end Spillway.Lowering
