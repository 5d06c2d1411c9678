import Mathlib.Data.Set.Basic
import Spillway.Proofs.Linear.Machine

/-!
# Code that writes the registers that were drawn for it

Lowering draws a register for every value that it computes, and writes it at once. `Drawn` says of code that it writes
registers in the order in which they were drawn, and older ones in between. Code that writes no older ones writes
exactly those that were drawn (`Drawn.mem_targets_iff`) and keeps the rest (`Drawn.sameBelow`).
-/

namespace Spillway.Linear

/-- The code writes the registers from `n` up to `n'` in order, and in between registers that are
`old`. -/
inductive Drawn (old : Set VReg) : Nat → List Instr → Nat → Prop
  | nil {n : Nat} : Drawn old n [] n
  | keep {n n' : Nat} {i : Instr} {code : List Instr} :
      (∀ r, i.target? = some r → r ∈ old) → Drawn old n code n' → Drawn old n (i :: code) n'
  | draw {n n' : Nat} {i : Instr} {code : List Instr} :
      i.target? = some ⟨n⟩ → Drawn old (n + 1) code n' → Drawn old n (i :: code) n'
  /-- The result of a comparison is cleared and then set. -/
  | compare {n n' : Nat} {left right : VReg} {c : Cond} {code : List Instr} :
      Drawn old (n + 1) code n' →
      Drawn old n (.mov ⟨n⟩ (.imm 0) .always :: .cmp left (.reg right) ::
        .mov ⟨n⟩ (.imm 1) (.on c) :: code) n'

namespace Drawn

variable {old old' : Set VReg} {n m k : Nat} {code code' : List Instr}

theorem append (h : Drawn old n code m) (h' : Drawn old m code' k) : Drawn old n (code ++ code') k := by
  induction h with
  | nil => exact h'
  | keep hi _ ih => exact .keep hi (ih h')
  | draw hi _ ih => exact .draw hi (ih h')
  | compare _ ih => exact .compare (ih h')

theorem mono (h : Drawn old n code m) (hsub : old ⊆ old') : Drawn old' n code m := by
  induction h with
  | nil => exact .nil
  | keep hi _ ih => exact .keep (fun r hr => hsub (hi r hr)) ih
  | draw hi _ ih => exact .draw hi ih
  | compare _ ih => exact .compare ih

/-- An instruction that writes no register. -/
theorem none {i : Instr} (h : i.target? = .none) : Drawn old n [i] n :=
  .keep (fun r hr => by rw [h] at hr; cases hr) .nil

/-- An instruction that writes the next register. -/
theorem one {i : Instr} (h : i.target? = some ⟨n⟩) : Drawn old n [i] (n + 1) := .draw h .nil

theorem le (h : Drawn old n code m) : n ≤ m := by
  induction h with
  | nil => exact Nat.le_refl _
  | keep _ _ ih => exact ih
  | draw _ _ ih | compare _ ih => exact Nat.le_of_succ_le ih

/-- What code writes is old, or was drawn for it. -/
theorem target (h : Drawn old n code m) {i : Instr} (hi : i ∈ code) {r : VReg}
    (hr : i.target? = some r) : r ∈ old ∨ n ≤ r.id ∧ r.id < m := by
  induction h with
  | nil => cases hi
  | keep hold _ ih =>
    obtain rfl | hi := List.mem_cons.1 hi
    · exact .inl (hold r hr)
    · exact ih hi
  | draw hdraw htail ih =>
    obtain rfl | hi := List.mem_cons.1 hi
    · rw [hdraw] at hr
      cases hr
      exact .inr ⟨Nat.le_refl _, htail.le⟩
    · exact (ih hi).imp_right (And.imp_left Nat.le_of_succ_le)
  | compare htail ih =>
    rw [List.mem_cons, List.mem_cons, List.mem_cons] at hi
    obtain rfl | rfl | rfl | hi := hi
    · cases hr
      exact .inr ⟨Nat.le_refl _, htail.le⟩
    · cases hr
    · cases hr
      exact .inr ⟨Nat.le_refl _, htail.le⟩
    · exact (ih hi).imp_right (And.imp_left Nat.le_of_succ_le)

/-- The registers that drawn code writes. -/
theorem mem_targets_iff (h : Drawn ∅ n code m) {r : VReg} :
    r ∈ Fragment.targets code ↔ n ≤ r.id ∧ r.id < m := by
  induction h with
  | nil => simp [Fragment.targets]
  | @keep n m i code hi _ ih =>
    have hnone : i.target? = Option.none := Option.eq_none_iff_forall_ne_some.2 hi
    rw [← ih, Fragment.targets, List.filterMap_cons_none hnone, ← Fragment.targets]
  | @draw n m i code hi htail ih =>
    have hle := htail.le
    have hreg : r = ⟨n⟩ ↔ r.id = n := VReg.ext_iff
    rw [Fragment.targets, List.filterMap_cons_some hi, ← Fragment.targets, List.mem_cons, ih, hreg]
    omega
  | @compare n m left right c code htail ih =>
    have hle := htail.le
    have hreg : r = ⟨n⟩ ↔ r.id = n := VReg.ext_iff
    show r ∈ ⟨n⟩ :: ⟨n⟩ :: Fragment.targets code ↔ _
    rw [List.mem_cons, List.mem_cons, ih, hreg]
    omega

/-- Drawn code keeps what was drawn before. -/
theorem sameBelow {W : Type} (h : Drawn ∅ n code m) {s s' : State W} (hsame : State.SameBut code s s') :
    State.SameBelow n s s' :=
  fun r hr => hsame r fun hmem => Nat.not_lt.2 (h.mem_targets_iff.1 hmem).1 hr

end Drawn

end Spillway.Linear
