import Mathlib.Data.List.Destutter
import Spillway.Proofs.Lowering.Written

/-!
# Registers that lowering draws

Lowering draws a register for every value that it computes, and writes it at once. The registers that
code writes are therefore those drawn for it, in the order in which they were drawn, and registers of
variables in between: `Linear.Drawn`. Only a comparison writes its register twice.

* `Env.Emits.drawn` — the code of statements writes what was drawn for it, and variables.
* `Linear.Drawn.targets_eq` — the registers that were drawn, read off the code.
* `Linear.Drawn.eq_comparison` — two instructions that write one drawn register.
* `Draft.Assembled.registers_fresh` — the same of whole programs.
-/

namespace Spillway

/-! ### Lists of registers -/

/-- The registers from `n` up to `m`. -/
def VReg.range (n m : Nat) : List VReg := (List.range' n (m - n)).map VReg.mk

theorem VReg.range_self (n : Nat) : range n n = [] := by simp [range]

theorem VReg.range_cons {n m : Nat} (h : n < m) : range n m = ⟨n⟩ :: range (n + 1) m := by
  obtain ⟨d, rfl⟩ := Nat.exists_eq_add_of_lt h
  rw [range, range, show n + d + 1 - n = d + 1 by omega, List.range'_succ, List.map_cons,
    show n + d + 1 - (n + 1) = d by omega]

namespace Linear

/-- The registers that code writes, from number `n₀` on, each as often as it is written. -/
def targetsFrom (n₀ : Nat) (code : List Instr) : List VReg :=
  (Fragment.targets code).filter fun r => n₀ ≤ r.id

section TargetsFrom

variable {n₀ : Nat} {i : Instr} {code : List Instr}

theorem targetsFrom_cons_of_lt (h : ∀ r, i.target? = some r → r.id < n₀) :
    targetsFrom n₀ (i :: code) = targetsFrom n₀ code := by
  unfold targetsFrom Fragment.targets
  cases ht : i.target? with
  | none => rw [List.filterMap_cons_none ht]
  | some r =>
    have hr := h r ht
    rw [List.filterMap_cons_some ht, List.filter_cons_of_neg (by simpa using hr)]

theorem targetsFrom_cons_of_le {r : VReg} (h : i.target? = some r) (hr : n₀ ≤ r.id) :
    targetsFrom n₀ (i :: code) = r :: targetsFrom n₀ code := by
  unfold targetsFrom Fragment.targets
  rw [List.filterMap_cons_some h, List.filter_cons_of_pos (by simpa using hr)]

theorem targetsFrom_comparison {n : Nat} (hn : n₀ ≤ n) (left right : VReg) (c : Cond) :
    targetsFrom n₀ (.mov ⟨n⟩ (.imm 0) .always :: .cmp left (.reg right) ::
      .mov ⟨n⟩ (.imm 1) (.on c) :: code) = ⟨n⟩ :: ⟨n⟩ :: targetsFrom n₀ code := by
  have hcmp : ∀ r, (Instr.cmp left (.reg right)).target? = some r → r.id < n₀ := by
    intro r hr
    cases hr
  rw [targetsFrom_cons_of_le rfl hn, targetsFrom_cons_of_lt hcmp, targetsFrom_cons_of_le rfl hn]

end TargetsFrom

namespace Drawn

variable {old old' : Set VReg} {n m k : Nat} {code code' : List Instr}

/-! ### The registers, read off the code -/

section Read

variable {n₀ : Nat}

/-- Read after an earlier register, the registers that were drawn are those from `n` up to `m`. -/
theorem destutter'_targets (h : Drawn { r | r.id < n₀ } n code m) (hn : n₀ ≤ n) {r : VReg}
    (hr : r.id < n) :
    (targetsFrom n₀ code).destutter' (· ≠ ·) r = r :: VReg.range n m := by
  induction h generalizing r with
  | nil => rw [VReg.range_self]; rfl
  | keep hi _ ih => rw [targetsFrom_cons_of_lt hi, ih hn hr]
  | @draw n m i code hi htail ih =>
    have hne : r ≠ ⟨n⟩ := by rintro rfl; exact Nat.lt_irrefl _ hr
    rw [targetsFrom_cons_of_le hi hn, List.destutter'_cons_pos _ hne, ih (Nat.le_succ_of_le hn) (Nat.lt_succ_self n),
      VReg.range_cons htail.le]
  | @compare n m left right c code htail ih =>
    have hne : r ≠ ⟨n⟩ := by rintro rfl; exact Nat.lt_irrefl _ hr
    rw [targetsFrom_comparison hn,
      List.destutter'_cons_pos _ hne, List.destutter'_cons_neg _ (not_not.2 rfl),
      ih (Nat.le_succ_of_le hn) (Nat.lt_succ_self n), VReg.range_cons htail.le]

/-- **Read off the code.** Without the older registers, and where a register that is written twice in a row
counts once, the code writes the registers from `n` up to `m` in order. -/
theorem targets_eq (h : Drawn { r | r.id < n₀ } n code m) (hn : n₀ ≤ n) :
    (targetsFrom n₀ code).destutter (· ≠ ·) = VReg.range n m := by
  induction h with
  | nil => rw [VReg.range_self]; rfl
  | keep hi _ ih => rw [targetsFrom_cons_of_lt hi, ih hn]
  | @draw n m i code hi htail ih =>
    rw [targetsFrom_cons_of_le hi hn, List.destutter_cons',
      htail.destutter'_targets (Nat.le_succ_of_le hn) (Nat.lt_succ_self n), VReg.range_cons htail.le]
  | @compare n m left right c code htail ih =>
    rw [targetsFrom_comparison hn, List.destutter_cons',
      List.destutter'_cons_neg _ (not_not.2 rfl),
      htail.destutter'_targets (Nat.le_succ_of_le hn) (Nat.lt_succ_self n), VReg.range_cons htail.le]

end Read

/-! ### Registers that are written twice -/

/-- What is drawn later has another number. -/
theorem target_ne {n₀ : Nat} (h : Drawn { r | r.id < n₀ } (n + 1) code m) (hn : n₀ ≤ n) {i : Instr}
    (hi : i ∈ code) : i.target? ≠ some ⟨n⟩ := by
  intro htarget
  obtain hlt | ⟨hlt, -⟩ := h.target hi htarget
  · exact Nat.not_lt.2 hn hlt
  · exact Nat.not_succ_le_self n hlt

/-- **Only comparisons write twice.** If two instructions write one register that was drawn, they are the
first and the last of the three instructions of a comparison. -/
theorem eq_comparison {n₀ : Nat} (h : Drawn { r | r.id < n₀ } n code m) (hn : n₀ ≤ n)
    {before between after : List Instr} {a b : Instr} {r : VReg}
    (hcode : code = before ++ a :: (between ++ b :: after)) (ha : a.target? = some r)
    (hb : b.target? = some r) (hr : n₀ ≤ r.id) :
    a = .mov r (.imm 0) .always ∧ (∃ left right, between = [.cmp left (.reg right)]) ∧
      ∃ c, b = .mov r (.imm 1) (.on c) := by
  have hmem : b ∈ between ++ b :: after := List.mem_append_right _ (List.mem_cons_self ..)
  induction h generalizing before with
  | nil => cases before <;> cases hcode
  | keep hold _ ih =>
    cases before with
    | nil =>
      obtain ⟨rfl, -⟩ := List.cons.inj hcode
      exact absurd (hold r ha) (Nat.not_lt.2 hr)
    | cons x before => exact ih hn (List.cons.inj hcode).2
  | draw hdraw htail ih =>
    cases before with
    | nil =>
      obtain ⟨rfl, rfl⟩ := List.cons.inj hcode
      rw [hdraw] at ha
      cases ha
      exact absurd hb (htail.target_ne hn hmem)
    | cons x before => exact ih (Nat.le_succ_of_le hn) (List.cons.inj hcode).2
  | @compare n m left right c code htail ih =>
    cases before with
    | nil =>
      obtain ⟨rfl, hrest⟩ := List.cons.inj hcode
      cases ha
      cases between with
      | nil =>
        obtain ⟨rfl, -⟩ := List.cons.inj hrest
        cases hb
      | cons x between =>
        obtain ⟨rfl, hlast⟩ := List.cons.inj hrest
        cases between with
        | nil =>
          obtain ⟨rfl, -⟩ := List.cons.inj hlast
          exact ⟨rfl, ⟨left, right, rfl⟩, c, rfl⟩
        | cons y between =>
          obtain ⟨-, rfl⟩ := List.cons.inj hlast
          refine absurd hb (htail.target_ne hn ?_)
          exact List.mem_append_right _ (List.mem_cons_self ..)
    | cons x before =>
      obtain ⟨-, hrest⟩ := List.cons.inj hcode
      cases before with
      | nil =>
        obtain ⟨rfl, -⟩ := List.cons.inj hrest
        cases ha
      | cons y before =>
        obtain ⟨-, hlast⟩ := List.cons.inj hrest
        cases before with
        | nil =>
          obtain ⟨rfl, rfl⟩ := List.cons.inj hlast
          cases ha
          exact absurd hb (htail.target_ne hn hmem)
        | cons z before => exact ih (Nat.le_succ_of_le hn) (List.cons.inj hlast).2

end Drawn

end Linear

/-! ### Lowered code -/

namespace Lowering

open Linear (Instr Drawn Fragment)

namespace Env

variable {env : Env} {old : Set VReg} {c c' : Counters} {code : List Instr}

theorem StoresPath.drawn {value r : VReg} {ty : Ty} {x : String} {path : List String}
    (h : env.StoresPath value r ty x path c code c') : Drawn old c.registers code c'.registers := by
  induction h with
  | last => exact .none rfl
  | step _ _ ih => exact .draw rfl ih

theorem Stores.drawn {value : VReg} {place : Place} (h : env.Stores value place c code c') :
    Drawn env.owned c.registers code c'.registers := by
  cases h with
  | global => exact .none rfl
  | @own x r _ hglobal hr =>
    refine .keep (fun s hs => ?_) .nil
    cases hs
    exact ⟨x, hglobal, hr⟩
  | field _ hread hpath => exact hread.drawn.append hpath.drawn

/-- **Statements.** The code of statements writes what was drawn for it, and variables. -/
theorem Emits.drawn {part : Part} (h : env.Emits part c code c') :
    Drawn env.owned c.registers code c'.registers := by
  induction h with
  | assign hvalue hstores => exact hvalue.drawn.append hstores.drawn
  | @print x newline r c c' code hread =>
    refine hread.drawn.append ?_
    cases newline <;> exact .none rfl
  | readGlobal => exact .draw rfl (.none rfl)
  | @readOwn x r c hglobal hr =>
    refine .keep (fun s hs => ?_) .nil
    cases hs
    exact ⟨x, hglobal, hr⟩
  | when htest _ ih =>
    exact ((htest.drawn.append ((Drawn.none rfl).append (.none rfl))).append ih).append
      ((Drawn.none rfl).append (.none rfl))
  | choose htest _ _ ih ih' =>
    exact ((((htest.drawn.append ((Drawn.none rfl).append (.none rfl))).append ih).append
      ((Drawn.none rfl).append (.none rfl))).append ih').append (.none rfl)
  | loop _ htest ih =>
    exact ((((Drawn.none rfl).append (.none rfl)).append ih).append (.none rfl)).append htest.drawn
      |>.append ((Drawn.none rfl).append (.none rfl))
  | leave => exact .none rfl
  | give hvalue | free _ hvalue => exact hvalue.drawn.append (.none rfl)
  | alloc => exact .one rfl
  | call _ harguments =>
    exact harguments.drawn.append ((Drawn.none rfl).append ((Drawn.none rfl).append (.none rfl)))
  | nil => exact .nil
  | cons _ _ ih ih' => exact ih.append ih'

/-- The code that clears variables writes their registers. -/
theorem Clears.drawn {names : List String} (h : env.Clears names code) (n : Nat)
    (hold : ∀ x ∈ names, ∀ r, env.registerOf x = .ok r → r ∈ old) : Drawn old n code n := by
  induction h with
  | nil => exact .nil
  | @cons x i names code hx _ ih =>
    obtain ⟨r, hr, rfl⟩ := hx
    refine .keep (fun s hs => ?_) (ih fun y hy => hold y (List.mem_cons_of_mem _ hy))
    cases hs
    exact hold x (List.mem_cons_self ..) r hr

/-- The code that clears globals writes their registers. -/
theorem Resets.drawn {names : List String} (h : env.Resets names code) (n : Nat)
    (hold : ∀ x ∈ names, ∀ r, env.registerOf x = .ok r → r ∈ old) : Drawn old n code n := by
  induction h with
  | nil => exact .nil
  | @cons x r names code hr _ ih =>
    refine .keep (fun s hs => ?_) (.keep nofun (ih fun y hy => hold y (List.mem_cons_of_mem _ hy)))
    cases hs
    exact hold x (List.mem_cons_self ..) r hr

end Env

end Lowering

/-! ### Programs -/

namespace Program

open Linear (Drawn Fragment Instr targetsFrom)

/-- The registers of the variables that the fragment with number `k` may write: those of the globals for
the first fragment, and for every other one those of the parameters and locals of its function. -/
def variableRegisters (p : Program) : Nat → Set VReg
  | 0 => { r | ∃ x ∈ p.globals, ∃ v, p.symbols.bound? SymbolTable.global x = some (.var v) ∧
      v.register = r }
  | k + 1 => { r | ∃ f, p.functions.get? k = some f ∧ ∃ x ∈ p.parameterNames f ++ f.locals, ∃ v,
      p.symbols.bound? f.scope x = some (.var v) ∧ v.register = r }

variable {p : Program} {c c' : Counters} {n : Nat}

theorem variableRegisters_lt (h : p.symbols.Fresh n) (k : Nat) :
    p.variableRegisters k ⊆ { r | r.id < n } := by
  cases k with
  | zero =>
    rintro r ⟨x, -, v, hv, rfl⟩
    exact h.below hv
  | succ k =>
    rintro r ⟨f, -, x, -, v, hv, rfl⟩
    exact h.below hv

theorem Scoped.drawn_globals (h : p.Scoped) {code : List Instr}
    (hresets : (p.env SymbolTable.global).Resets p.globals code) (n : Nat) :
    Drawn (p.variableRegisters 0) n code n := by
  refine hresets.drawn n fun x hx r hr => ?_
  obtain ⟨v, hv, hreg⟩ := h.bound?_of_registerOf hr
  exact ⟨x, hx, v, hv, hreg⟩

theorem Scoped.drawn_function (h : p.Scoped) {k : FunctionId} {f : FunctionDecl} {frag : Fragment}
    (hf : p.functions.get? k = some f) (htranslates : p.Translates c f frag c') :
    Drawn (p.variableRegisters (k + 1)) c.registers frag.body c'.registers := by
  have howned : (p.env f.scope).owned ⊆ p.variableRegisters (k + 1) := by
    rintro r ⟨x, hx⟩
    obtain ⟨v, hv, rfl⟩ := (h.owns_iff hf).1 hx
    exact ⟨f, hf, x, (h.mem_variables hf x).2 ⟨v, hv⟩, v, hv, rfl⟩
  obtain ⟨-, clear, code, hbody, hclears, hemits⟩ := htranslates
  rw [hbody]
  refine (hclears.drawn c.registers fun x hx r hr => ?_).append (hemits.drawn.mono howned)
  exact howned ⟨x, h.owns_of_local hf hx hr⟩

/-- What the code of all functions together writes. -/
theorem drawn_functions {old : Set VReg} {fs : List FunctionDecl} {frags : List Fragment}
    (hchain : Journal.Chain p.Translates c fs frags c')
    (hdrawn : ∀ f ∈ fs, ∀ {c frag c'}, p.Translates c f frag c' →
      Drawn old c.registers frag.body c'.registers) :
    Drawn old c.registers (frags.flatMap (·.body)) c'.registers := by
  induction hchain with
  | nil => exact .nil
  | cons hf _ ih =>
    rw [List.flatMap_cons]
    exact (hdrawn _ (List.mem_cons_self ..) hf).append
      (ih fun g hg => hdrawn g (List.mem_cons_of_mem _ hg))

/-- A variable's register is written only where the variable belongs. -/
theorem Scoped.variable_of_target (h : p.Scoped) {fragments : List Fragment}
    {w : List Lowering.Notice} (hlower : p.lower.run c = ⟨.ok fragments, c', w⟩) {k : Nat}
    {frag : Fragment} (hfrag : fragments[k]? = some frag) {i : Instr} (hi : i ∈ frag.body) {r : VReg}
    (hr : i.target? = some r) (hlt : r.id < c.registers) : r ∈ p.variableRegisters k := by
  obtain ⟨globals, functions, rfl, -, hresets, hchain⟩ := translates_of_lower hlower
  cases k with
  | zero =>
    cases hfrag
    exact ((h.drawn_globals hresets c.registers).target hi hr).resolve_right fun hdrawn => Nat.not_le.2 hlt hdrawn.1
  | succ k =>
    rw [List.getElem?_cons_succ] at hfrag
    obtain ⟨hk, rfl⟩ := List.getElem?_eq_some_iff.1 hfrag
    have hall := lowers_of_chain hchain (Nat.le_refl _)
    have hk' : k < p.functions.toList.length := by rw [hall.length_eq]; exact hk
    have hf : p.functions.get? k = some p.functions.toList[k] := by
      rw [Arena.get?_eq, List.getElem?_eq_getElem hk']
    obtain ⟨hlabel, clear, code, c₁, c₂, hbody, hclears, hemits, hle⟩ := hall.get hk' hk
    have hdrawn := h.drawn_function hf ⟨hlabel, clear, code, hbody, hclears, hemits⟩
    exact (hdrawn.target hi hr).resolve_right fun hnew => Nat.not_le.2 (Nat.lt_of_lt_of_le hlt hle) hnew.1

/-- The code of a whole program writes the registers that were drawn for it, and older ones. -/
theorem Scoped.drawn (h : p.Scoped) (hfresh : p.symbols.Fresh c.registers) {fragments : List Fragment}
    {w : List Lowering.Notice} (hlower : p.lower.run c = ⟨.ok fragments, c', w⟩) :
    Drawn { r | r.id < c.registers } c.registers (fragments.flatMap (·.body)) c'.registers := by
  obtain ⟨globals, functions, rfl, -, hresets, hchain⟩ := translates_of_lower hlower
  rw [List.flatMap_cons]
  refine ((h.drawn_globals hresets _).mono (variableRegisters_lt hfresh 0)).append ?_
  refine drawn_functions hchain fun f hf => fun htranslates => ?_
  obtain ⟨k, hk, rfl⟩ := List.getElem_of_mem hf
  refine (h.drawn_function (k := k) ?_ htranslates).mono (variableRegisters_lt hfresh _)
  rw [Arena.get?_eq, List.getElem?_eq_getElem hk]

end Program

/-- **Registers are fresh.** Take a program that was assembled in any order, names declared again or not,
while no register was numbered again. Every register of a variable was drawn before, and no two variables
have the same. If the program is then lowered, the registers that its code writes, without those drawn
before and where a register that is written twice in a row counts once, are those drawn for it, each once
and in order. Only a comparison writes such a register twice. A register that was drawn before is written
only by the fragment that its variable belongs to. -/
theorem Draft.Assembled.registers_fresh {d : Draft} (h : d.Assembled) :
    d.program.symbols.Fresh d.counters.registers ∧
    ∀ {fragments : List Linear.Fragment} {c : Counters} {w : List Lowering.Notice},
      d.program.lower.run d.counters = ⟨.ok fragments, c, w⟩ →
      d.counters.registers ≤ c.registers ∧
      (Linear.targetsFrom d.counters.registers (fragments.flatMap (·.body))).destutter (· ≠ ·)
        = VReg.range d.counters.registers c.registers ∧
      (∀ {before between after : List Linear.Instr} {a b : Linear.Instr} {r : VReg},
        fragments.flatMap (·.body) = before ++ a :: (between ++ b :: after) →
        a.target? = some r → b.target? = some r → d.counters.registers ≤ r.id →
        a = .mov r (.imm 0) .always ∧ (∃ left right, between = [.cmp left (.reg right)]) ∧
          ∃ c, b = .mov r (.imm 1) (.on c)) ∧
      ∀ {k : Nat} {frag : Linear.Fragment} {i : Linear.Instr} {r : VReg},
        fragments[k]? = some frag → i ∈ frag.body → i.target? = some r →
        r.id < d.counters.registers → r ∈ d.program.variableRegisters k := by
  refine ⟨h.fresh, fun hlower => ?_⟩
  have hdrawn := h.wellScoped.drawn h.fresh hlower
  exact ⟨hdrawn.le, hdrawn.targets_eq (Nat.le_refl _), hdrawn.eq_comparison (Nat.le_refl _),
    fun hfrag hi hr hlt => h.wellScoped.variable_of_target hlower hfrag hi hr hlt⟩

/-- `Draft.sumDown` with its local declared once more. -/
def Draft.sumAgain : Draft := ((Draft.declareLocal 0 "t" .int).run Draft.sumDown).state

/-- In `Draft.sumAgain` the local has the register of its second declaration, and the registers 3 to 7 are
drawn for the code, the last one for a comparison. -/
theorem Draft.registers_fresh_sumAgain :
    Draft.sumAgain.Assembled ∧ Draft.sumAgain.counters.registers = 3 ∧ ∃ fragments c w,
      Draft.sumAgain.program.lower.run Draft.sumAgain.counters = ⟨.ok fragments, c, w⟩ ∧
      c.registers = 8 ∧
      Linear.targetsFrom 3 (fragments.flatMap (·.body)) = [⟨3⟩, ⟨4⟩, ⟨5⟩, ⟨6⟩, ⟨7⟩, ⟨7⟩] ∧
      (Linear.targetsFrom 3 (fragments.flatMap (·.body))).destutter (· ≠ ·) = VReg.range 3 8 ∧
      (⟨2⟩ : VReg) ∈ Draft.sumAgain.program.variableRegisters 1 := by
  have hassembled : Draft.sumAgain.Assembled :=
    (built_sumDown Onward).assembled.add
      (.declareLocal (show (Draft.declareLocal 0 "t" .int).run Draft.sumDown = _ from rfl)) trivial
  obtain ⟨-, hlowered⟩ := Draft.Assembled.registers_fresh hassembled
  obtain ⟨fragments, c, w, hlower, hc, htargets, body, hfrag, hclear⟩ : ∃ fragments c w,
      Draft.sumAgain.program.lower.run Draft.sumAgain.counters = ⟨.ok fragments, c, w⟩ ∧
        c.registers = 8 ∧
        Linear.targetsFrom 3 (fragments.flatMap (·.body)) = [⟨3⟩, ⟨4⟩, ⟨5⟩, ⟨6⟩, ⟨7⟩, ⟨7⟩] ∧
        ∃ body, fragments[1]? = some ⟨"sum", body⟩ ∧ .mov ⟨2⟩ (.imm 0) .always ∈ body :=
    ⟨_, _, _, rfl, rfl, rfl, _, rfl, List.mem_cons_self ..⟩
  obtain ⟨-, hrange, -, howner⟩ := hlowered hlower
  rw [hc] at hrange
  exact ⟨hassembled, rfl, fragments, c, w, hlower, hc, htargets, hrange,
    howner hfrag hclear rfl (by decide)⟩

end Spillway
