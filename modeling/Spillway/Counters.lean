import Spillway.Fault
import Spillway.Journal
import Spillway.Label

/-!
# The counters of a compilation

Virtual registers and labels are numbered from two counters. Drawing never gives the same number twice
until the counter is reset.

`drawRegister` and `drawLabel` go on without end. The counters of a session have 32 bits, and drawing
their last number is an overflow: `nextRegister` and `nextLabel`. A computation that draws many numbers
is described with counters without end, and `counted` says what becomes of it with 32 bits. Counters
only grow during a run, so a draw has overflowed exactly if the counters where the run ends are past
the last number: `Journal.counted_bind_eval`.
-/

namespace Spillway

/-- How many virtual registers and labels have been drawn. -/
@[ext] structure Counters where
  registers : Nat := 0
  labels : Nat := 0
  deriving DecidableEq, Repr

namespace Counters

/-- The next virtual register. -/
def drawRegister (c : Counters) : VReg × Counters :=
  (⟨c.registers⟩, { c with registers := c.registers + 1 })

/-- The next label with the given stem. -/
def drawLabel (c : Counters) (stem : String) : Label × Counters :=
  (.numbered stem c.labels, { c with labels := c.labels + 1 })

/-- How many numbers 32 bits tell apart. -/
def capacity : Nat := 4294967296

/-- Both counters have 32 bits. -/
def Countable (c : Counters) : Prop := c.registers < capacity ∧ c.labels < capacity

instance (c : Counters) : Decidable c.Countable := inferInstanceAs (Decidable (_ ∧ _))

/-- Neither counter goes back. -/
def Reaches (c c' : Counters) : Prop := c.registers ≤ c'.registers ∧ c.labels ≤ c'.labels

/-- The counters, each stopped at the last number if it is past it. -/
def capped (c : Counters) : Counters := ⟨min c.registers (capacity - 1), min c.labels (capacity - 1)⟩

/-- The next virtual register, with a counter of 32 bits. -/
def nextRegister (c : Counters) : Except Trap (VReg × Counters) :=
  if c.registers + 1 < capacity then .ok c.drawRegister else .error .addOverflow

/-- The next label with the given stem, with a counter of 32 bits. -/
def nextLabel (c : Counters) (stem : String) : Except Trap (Label × Counters) :=
  if c.labels + 1 < capacity then .ok (c.drawLabel stem) else .error .addOverflow

/-- Registers are numbered from zero again. -/
def resetRegisters (c : Counters) : Counters := { c with registers := 0 }

/-- Labels are numbered from zero again. -/
def resetLabels (c : Counters) : Counters := { c with labels := 0 }

/-- Both counters start again. -/
def reset (_ : Counters) : Counters := {}

@[simp] theorem drawRegister_fst (c : Counters) : c.drawRegister.1 = ⟨c.registers⟩ := rfl

@[simp] theorem drawRegister_snd (c : Counters) :
    c.drawRegister.2 = ⟨c.registers + 1, c.labels⟩ := rfl

@[simp] theorem drawLabel_fst (c : Counters) (stem : String) :
    (c.drawLabel stem).1 = .numbered stem c.labels := rfl

@[simp] theorem drawLabel_snd (c : Counters) (stem : String) :
    (c.drawLabel stem).2 = ⟨c.registers, c.labels + 1⟩ := rfl

theorem Countable.of_reaches {c c' : Counters} (h : c'.Countable) (hle : c.Reaches c') : c.Countable :=
  ⟨Nat.lt_of_le_of_lt hle.1 h.1, Nat.lt_of_le_of_lt hle.2 h.2⟩

end Counters

namespace Journal

variable {ε σ ω α β : Type}

/-- Runs a computation, and fails if the state where it ends is out of range. `stop` is the state that
is left then, made from those at the start and at the end. An overflow ends everything, so the entries
that are left are those of the whole run: how many had been written by then is not told. -/
def bounded (range : σ → Prop) [DecidablePred range] (stop : σ → σ → σ) (e : ε) (m : Journal ε σ ω α) :
    Journal ε σ ω α := fun s =>
  if range (m.run s).state then m.run s else ⟨.error e, stop s (m.run s).state, (m.run s).entries⟩

/-- A computation that draws registers and labels, with counters of 32 bits. -/
def counted (m : Journal Defect Counters ω α) : Journal Fault Counters ω α :=
  (m.mapError Fault.defect).bounded Counters.Countable (fun _ c => c.capped) (.trap .addOverflow)

theorem counted_run_of_countable {m : Journal Defect Counters ω α} {c : Counters}
    (h : (m.run c).state.Countable) :
    m.counted.run c = ⟨(m.run c).result.mapError .defect, (m.run c).state, (m.run c).entries⟩ := if_pos h

theorem counted_run_of_not_countable {m : Journal Defect Counters ω α} {c : Counters}
    (h : ¬ (m.run c).state.Countable) :
    m.counted.run c = ⟨.error (.trap .addOverflow), (m.run c).state.capped, (m.run c).entries⟩ := if_neg h

/-- **Success with 32 bits** is success without end that stays within 32 bits. -/
theorem counted_eq_ok_iff {m : Journal Defect Counters ω α} {c c' : Counters} {a : α} {w : List ω} :
    m.counted.run c = ⟨.ok a, c', w⟩ ↔ m.run c = ⟨.ok a, c', w⟩ ∧ c'.Countable := by
  constructor
  · intro hrun
    by_cases h : (m.run c).state.Countable
    · rw [counted_run_of_countable h] at hrun
      generalize m.run c = r at h hrun ⊢
      rcases r with ⟨_ | _, _, _⟩
      · cases hrun
      · cases hrun
        exact ⟨rfl, h⟩
    · rw [counted_run_of_not_countable h] at hrun
      cases hrun
  · rintro ⟨hrun, hc⟩
    rw [counted_run_of_countable (by rw [hrun]; exact hc), hrun]
    rfl

theorem exists_counted_ok_iff {m : Journal Defect Counters ω α} {c : Counters} :
    (∃ a c' w, m.counted.run c = ⟨.ok a, c', w⟩) ↔
      (∃ a c' w, m.run c = ⟨.ok a, c', w⟩) ∧ (m.run c).state.Countable := by
  simp only [counted_eq_ok_iff]
  constructor
  · rintro ⟨a, c', w, hrun, hc⟩
    exact ⟨⟨a, c', w, hrun⟩, by rwa [hrun]⟩
  · rintro ⟨⟨a, c', w, hrun⟩, hc⟩
    rw [hrun] at hc
    exact ⟨a, c', w, hrun, hc⟩

theorem counted_eval (m : Journal Defect Counters ω α) (c : Counters) :
    m.counted.eval c
      = if (m.run c).state.Countable then (m.eval c).mapError .defect else .error (.trap .addOverflow) := by
  by_cases h : (m.run c).state.Countable
  · rw [eval, counted_run_of_countable h, if_pos h, eval]
  · rw [eval, counted_run_of_not_countable h, if_neg h]

/-- **One check for many.** To check the counters at the end of a sequence is to check them after each
half, if the second half never goes back. -/
theorem counted_bind_eval {m : Journal Defect Counters ω α} {f : α → Journal Defect Counters ω β}
    (hf : ∀ (a : α) (c : Counters), c.Reaches ((f a).run c).state) (c : Counters) :
    (m >>= f).counted.eval c = (m.counted >>= fun a => (f a).counted).eval c := by
  rw [counted_eval]
  unfold eval
  rw [bind_run, bind_run]
  by_cases h : (m.run c).state.Countable
  · rw [counted_run_of_countable h]
    generalize m.run c = r at h
    rcases r with ⟨d | a, c', w⟩
    · exact if_pos h
    · exact (counted_eval (f a) c').symm
  · rw [counted_run_of_not_countable h]
    generalize m.run c = r at h
    rcases r with ⟨d | a, c', w⟩
    · exact if_neg h
    · exact if_neg fun hend => h (hend.of_reaches (hf a c'))

end Journal

end Spillway
