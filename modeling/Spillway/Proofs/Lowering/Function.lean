import Mathlib.Data.List.Forall2
import Spillway.Proofs.Lowering.Node
import Spillway.Proofs.Lowering.Simulation

/-!
# The code of functions

The code of a function clears its locals and then runs its body. Lowering a program that succeeds makes
one fragment per function, in order, each with such code: `Program.translates_of_lower`.
-/

namespace Spillway

open Linear (Instr Fragment State straight straight_next)

namespace Lowering.Env

/-! ### Clearing the locals -/

/-- The code that clears variables. -/
def Clears (env : Env) : List String → List Instr → Prop :=
  List.Forall₂ fun x i => ∃ r, env.registerOf x = .ok r ∧ i = .mov r (.imm 0) .always

variable {env : Env} {names : List String} {code : List Instr}

theorem clears_of_clearLocals {c c' : Counters} {u : Unit}
    (h : (env.clearLocals names).run c = ⟨.ok u, c', code⟩) : c' = c ∧ env.Clears names code := by
  induction names generalizing c code with
  | nil =>
    obtain ⟨-, rfl, rfl⟩ := Journal.pure_ok.1 h
    exact ⟨rfl, .nil⟩
  | cons x names ih =>
    obtain ⟨_, c₁, w, w', hx, hrest, rfl⟩ := Journal.bind_eq_ok_iff.1 h
    obtain ⟨r, hr, hemit⟩ := lift_bind_ok.1 hx
    obtain ⟨rfl, rfl⟩ := emit_ok.1 hemit
    obtain ⟨rfl, hclears⟩ := ih hrest
    exact ⟨rfl, .cons ⟨r, hr, rfl⟩ hclears⟩

theorem Clears.labels_eq (h : env.Clears names code) : Linear.labels code = [] := by
  induction h with
  | nil => rfl
  | cons hx _ ih =>
    obtain ⟨r, -, rfl⟩ := hx
    exact ih

/-- The code that clears variables clears their registers and no others. -/
theorem Clears.run {W : Type} {rt : Runtime W} {calls : Calls W} (h : env.Clears names code)
    (s : State W) :
    ∃ s', straight rt calls code s = some s' ∧ s'.outside = s.outside ∧
      (∀ x ∈ names, ∀ r, env.registerOf x = .ok r → s'.regs r = 0) ∧
      ∀ r, (∀ x ∈ names, env.registerOf x ≠ .ok r) → s'.regs r = s.regs r := by
  induction h generalizing s with
  | nil => exact ⟨s, rfl, rfl, nofun, fun _ _ => rfl⟩
  | @cons x i names code hx _ ih =>
    obtain ⟨r, hr, rfl⟩ := hx
    obtain ⟨s', hrun, hout, hzero, hkeep⟩ := ih (s.set r 0)
    have hinstr : (Instr.mov r (.imm 0) .always).effect rt s = some (s.set r 0, .next) := rfl
    refine ⟨s', (straight_next hinstr).trans hrun, hout, ?_, ?_⟩
    · intro y hy r' hr'
      by_cases hlater : ∃ z ∈ names, env.registerOf z = .ok r'
      · obtain ⟨z, hz, hzr⟩ := hlater
        exact hzero z hz r' hzr
      · rw [hkeep r' fun z hz hzr => hlater ⟨z, hz, hzr⟩]
        obtain rfl | hy := List.mem_cons.1 hy
        · rw [hr] at hr'
          cases hr'
          exact Function.update_self ..
        · exact absurd ⟨y, hy, hr'⟩ hlater
    · intro r' hne
      rw [hkeep r' fun z hz => hne z (List.mem_cons_of_mem _ hz)]
      apply Function.update_of_ne
      rintro rfl
      exact hne x (List.mem_cons_self ..) hr

/-! ### Clearing the globals -/

/-- The code that clears globals, in their registers and in memory. -/
inductive Resets (env : Env) : List String → List Instr → Prop
  | nil : Resets env [] []
  | cons {x : String} {r : VReg} {names : List String} {code : List Instr} :
      env.registerOf x = .ok r → Resets env names code →
      Resets env (x :: names) (.mov r (.imm 0) .always :: .store r (.global x) :: code)

theorem resets_of_clearGlobals {c c' : Counters} {u : Unit}
    (h : (env.clearGlobals names).run c = ⟨.ok u, c', code⟩) : c' = c ∧ env.Resets names code := by
  induction names generalizing c code with
  | nil =>
    obtain ⟨-, rfl, rfl⟩ := Journal.pure_ok.1 h
    exact ⟨rfl, .nil⟩
  | cons x names ih =>
    obtain ⟨_, c₁, w, w', hx, hrest, rfl⟩ := Journal.bind_eq_ok_iff.1 h
    obtain ⟨r, hr, h₁⟩ := lift_bind_ok.1 hx
    obtain ⟨_, h₂, rfl⟩ := emit_bind_ok.1 h₁
    obtain ⟨rfl, rfl⟩ := emit_ok.1 h₂
    obtain ⟨rfl, hresets⟩ := ih hrest
    exact ⟨rfl, .cons hr hresets⟩

end Lowering.Env

/-! ### Fragments -/

namespace Program

open Lowering (Env)

variable {p : Program}

/-- A fragment is the code of a function, which draws no register below `n`. -/
def Lowers (p : Program) (n : Nat) (f : FunctionDecl) (frag : Fragment) : Prop :=
  frag.label = f.name ∧ ∃ clear code c c', frag.body = clear ++ code ∧
    (p.env f.scope).Clears f.locals clear ∧
    (p.env f.scope).Emits (.block (p.body f)) c code c' ∧ n ≤ c.registers

/-- A fragment is the code of a function, lowered from the first counters to the second. -/
def Translates (p : Program) (c : Counters) (f : FunctionDecl) (frag : Fragment) (c' : Counters) : Prop :=
  frag.label = f.name ∧ ∃ clear code, frag.body = clear ++ code ∧
    (p.env f.scope).Clears f.locals clear ∧ (p.env f.scope).Emits (.block (p.body f)) c code c'

variable {c c' : Counters} {f : FunctionDecl} {frag : Fragment} {w : List Lowering.Notice}

theorem translates_of_lowerFunction (h : (p.lowerFunction f).run c = ⟨.ok frag, c', w⟩) :
    p.Translates c f frag c' := by
  rw [lowerFunction_eq] at h
  obtain ⟨_, h₁, -⟩ := Journal.record_bind_ok.1 h
  obtain ⟨⟨_, body⟩, c₁, _, _, hcollect, hpure, -⟩ := Journal.bind_eq_ok_iff.1 h₁
  obtain ⟨rfl, rfl, -⟩ := Journal.pure_ok.1 hpure
  obtain ⟨_, c₂, clear, code, hclear, hblock, hbody⟩ :=
    Journal.bind_eq_ok_iff.1 (Journal.collect_ok hcollect)
  obtain ⟨rfl, hclears⟩ := Env.clears_of_clearLocals hclear
  exact ⟨rfl, clear, code, hbody, hclears, Env.emits_of_block _ _ hblock⟩

theorem Translates.lowers {n : Nat} (h : p.Translates c f frag c') (hn : n ≤ c.registers) :
    p.Lowers n f frag := by
  obtain ⟨hlabel, clear, code, hbody, hclears, hemits⟩ := h
  exact ⟨hlabel, clear, code, c, c', hbody, hclears, hemits, hn⟩

theorem Translates.registers_le (h : p.Translates c f frag c') : c.registers ≤ c'.registers := by
  obtain ⟨-, _, _, -, -, hemits⟩ := h
  exact hemits.registers_le

theorem resets_of_lowerGlobals (h : p.lowerGlobals.run c = ⟨.ok frag, c', w⟩) :
    c' = c ∧ frag.label = Fragment.globalsLabel ∧
      (p.env SymbolTable.global).Resets p.globals frag.body := by
  obtain ⟨⟨_, body⟩, c₁, _, _, hcollect, hpure, -⟩ := Journal.bind_eq_ok_iff.1 h
  obtain ⟨rfl, rfl, -⟩ := Journal.pure_ok.1 hpure
  obtain ⟨rfl, hresets⟩ := Env.resets_of_clearGlobals (Journal.collect_ok hcollect)
  exact ⟨rfl, rfl, hresets⟩

/-- **One fragment per function.** A program that is lowered gives the fragment of its globals and then,
in order, one fragment with the code of each function, each from the counters that the one before left. -/
theorem translates_of_lower {fragments : List Fragment}
    (h : p.lower.run c = ⟨.ok fragments, c', w⟩) :
    ∃ globals functions, fragments = globals :: functions ∧ globals.label = Fragment.globalsLabel ∧
      (p.env SymbolTable.global).Resets p.globals globals.body ∧
      Journal.Chain p.Translates c p.functions.toList functions c' := by
  obtain ⟨globals, c₁, _, _, hglobals, h₁, -⟩ := Journal.bind_eq_ok_iff.1 h
  obtain ⟨rfl, hlabel, hresets⟩ := resets_of_lowerGlobals hglobals
  obtain ⟨functions, c₂, _, _, hfunctions, hpure, -⟩ := Journal.bind_eq_ok_iff.1 h₁
  obtain ⟨rfl, rfl, -⟩ := Journal.pure_ok.1 hpure
  exact ⟨globals, functions, rfl, hlabel, hresets,
    Journal.chain_of_mapM translates_of_lowerFunction hfunctions⟩

/-- Registers that had been drawn before are not drawn for any of the functions. -/
theorem lowers_of_chain {fs : List FunctionDecl} {frags : List Fragment} {n : Nat}
    (h : Journal.Chain p.Translates c fs frags c') (hn : n ≤ c.registers) :
    List.Forall₂ (p.Lowers n) fs frags := by
  induction h with
  | nil => exact .nil
  | cons hf _ ih => exact .cons (hf.lowers hn) (ih (Nat.le_trans hn hf.registers_le))

theorem lowers_of_lower {fragments : List Fragment} (h : p.lower.run c = ⟨.ok fragments, c', w⟩) :
    ∃ globals functions, fragments = globals :: functions ∧
      List.Forall₂ (p.Lowers c.registers) p.functions.toList functions := by
  obtain ⟨globals, functions, rfl, -, -, hchain⟩ := translates_of_lower h
  exact ⟨globals, functions, rfl, lowers_of_chain hchain (Nat.le_refl _)⟩

end Program

end Spillway
