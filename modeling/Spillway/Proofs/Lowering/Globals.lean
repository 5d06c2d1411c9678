import Mathlib.Data.List.Induction
import Spillway.Proofs.Lowering.Function
import Spillway.Proofs.Program.Names

/-!
# Programs that have only globals

Any number of globals can be declared, each with a register of its own, and lowering a program that has nothing else
gives the one fragment that clears them.

* `Draft.exists_globals` — globals with given names.
* `Program.lower_globals` — the fragment that clears them.
-/

namespace Spillway

open Linear (Fragment)

/-! ### Declaring globals -/

namespace Draft

/-- A global can be declared. -/
theorem declareGlobal_succeeds {d : Draft} {s : Scope}
    (hroot : d.program.symbols.scopes.get? SymbolTable.global = some s) (x : String) (ty : Ty) :
    ∃ r d' w, (declareGlobal x ty).run d = ⟨.ok r, d', w⟩ := by
  obtain ⟨r, d', w, hdeclare⟩ := declare_succeeds (Scoping.declareVariable_succeeds hroot x ty)
  exact ⟨r, _, _, Journal.bind_eq_ok_iff.2 ⟨_, _, _, _, hdeclare, rfl, rfl⟩⟩

/-- Globals of any number can be declared. They have the registers from 0 on. -/
theorem exists_globals (drift : Counters → Counters → Prop) {names : List String} (hdup : names.Nodup) :
    ∃ d : Draft, d.Built drift ∧ d.program.globals = names ∧ d.program.functions = {} ∧
      d.counters.registers = names.length ∧ ∀ x, d.program.symbols.bound? SymbolTable.global x
        = if x ∈ names then some (.var { ty := .int, register := ⟨names.idxOf x⟩ }) else none := by
  induction names using List.reverseRecOn with
  | nil => exact ⟨{}, .start {}, rfl, rfl, rfl, fun _ => rfl⟩
  | append_singleton names x ih =>
    rw [List.nodup_append_comm, List.singleton_append, List.nodup_cons] at hdup
    obtain ⟨d, hbuilt, hglobals, hfunctions, hregisters, hbound⟩ := ih hdup.2
    obtain ⟨s, hs, -⟩ := hbuilt.inStep.root
    have hnew : d.program.symbols.bound? SymbolTable.global x = none := by rw [hbound, if_neg hdup.1]
    obtain ⟨r, d', w, hrun⟩ := declareGlobal_succeeds hs x .int
    have hbuilt' := hbuilt.add (.declareGlobal hrun) hnew
    obtain ⟨s', t, hs', hsets, rfl⟩ := declareGlobal_ok hrun
    refine ⟨_, hbuilt', ?_, hfunctions, ?_, fun y => ?_⟩
    · rw [hglobals]
    · rw [hregisters, List.length_append, List.length_singleton]
    · rw [hsets.bound?_bind hs', hbound, hregisters, List.idxOf_append]
      by_cases hy : y = x
      · simp [hy, hdup.1]
      · by_cases hmem : y ∈ names <;> simp [hy, hmem]

end Draft

/-! ### Clearing globals -/

theorem Program.Scoped.lookup_global {p : Program} (h : p.Scoped) (x : String) :
    p.symbols.lookup SymbolTable.global x = .ok (p.symbols.bound? SymbolTable.global x) := by
  rw [SymbolTable.lookup, SymbolTable.resolve, h.resolveWithin_global]
  cases p.symbols.bound? SymbolTable.global x <;> rfl

theorem Program.Scoped.registerOf_global {p : Program} (h : p.Scoped) {x : String} {v : Variable}
    (hx : p.symbols.bound? SymbolTable.global x = some (.var v)) :
    (p.env SymbolTable.global).registerOf x = .ok v.register := by
  have hlookup : (p.env SymbolTable.global).symbols.lookup (p.env SymbolTable.global).scope x
      = .ok (some (.var v)) := by
    rw [← hx]
    exact h.lookup_global x
  rw [Lowering.Env.registerOf, hlookup]
  rfl

/-- The fragment that clears globals, given their registers. -/
def Linear.Fragment.clearing (names : List String) (reg : String → VReg) : Fragment where
  label := Fragment.globalsLabel
  body := names.flatMap fun x => [.mov (reg x) (.imm 0) .always, .store (reg x) (.global x)]

theorem Linear.Fragment.targets_clearing (names : List String) (reg : String → VReg) :
    targets (clearing names reg).body = names.map reg := by
  rw [clearing]
  induction names with
  | nil => rfl
  | cons x names ih => exact congrArg (reg x :: ·) ih

theorem Lowering.Env.clearGlobals_run {env : Env} {names : List String} {reg : String → VReg}
    (h : ∀ x ∈ names, env.registerOf x = .ok (reg x)) (c : Counters) :
    (env.clearGlobals names).run c = ⟨.ok ⟨⟩, c, (Fragment.clearing names reg).body⟩ := by
  induction names with
  | nil => rfl
  | cons x names ih =>
    obtain ⟨hx, hrest⟩ := List.forall_mem_cons.1 h
    exact Journal.bind_eq_ok_iff.2 ⟨⟨⟩, c, _, _, lift_bind_ok.2 ⟨reg x, hx, rfl⟩, ih hrest, rfl⟩

/-- **One fragment.** Lowering a program without functions gives the fragment that clears its globals. -/
theorem Program.lower_globals {p : Program} {reg : String → VReg} (hfunctions : p.functions = {})
    (h : ∀ x ∈ p.globals, (p.env SymbolTable.global).registerOf x = .ok (reg x)) (c : Counters) :
    ∃ w, p.lower.run c = ⟨.ok [.clearing p.globals reg], c, w⟩ := by
  have hglobals : ∃ w, p.lowerGlobals.run c = ⟨.ok (.clearing p.globals reg), c, w⟩ := by
    rw [lowerGlobals, Lowering.fragment, Journal.bind_run, Journal.collect_run, Lowering.Env.clearGlobals_run h]
    exact ⟨_, rfl⟩
  obtain ⟨w, hglobals⟩ := hglobals
  refine ⟨w ++ [], Journal.bind_eq_ok_iff.2 ⟨_, c, w, [], hglobals, ?_, rfl⟩⟩
  rw [hfunctions]
  rfl

end Spillway
