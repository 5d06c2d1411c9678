import Mathlib.Data.List.Nodup
import Spillway.Proofs.Linear.Machine

/-!
# Labels of linear code

A branch goes to a label by its text. The text of a numbered label ends in its number, and no digit is
part of what stands before, so numbered labels with different numbers are written differently
(`Label.number_eq_of_text_eq`). Where the labels of some code are all written differently, a branch
goes on after the one label that it names (`after_eq_of_unique`).
-/

namespace Spillway

/-! ### Texts of numbered labels -/

theorem Label.toList_text_numbered (stem : String) (n : Nat) :
    (Label.numbered stem n).text.toList = stem.toList ++ ['_', 'L'] ++ Nat.toDigits 10 n := by
  show (toString stem ++ "_L" ++ toString n).toList = _
  rw [String.toList_append, String.toList_append, Nat.toString_eq_repr, Nat.toList_repr]
  rfl

/-- The digits at the end of a numbered label are its number. -/
theorem Label.takeWhile_text_numbered (stem : String) (n : Nat) :
    (Label.numbered stem n).text.toList.reverse.takeWhile Char.isDigit
      = (Nat.toDigits 10 n).reverse := by
  have hdigits : ∀ d ∈ (Nat.toDigits 10 n).reverse, d.isDigit = true := by
    intro d hd
    exact Nat.isDigit_of_mem_toDigits (by decide) (by decide) (List.mem_reverse.1 hd)
  rw [toList_text_numbered, List.reverse_append, List.takeWhile_append_of_pos hdigits,
    List.reverse_append]
  simp

/-- **Numbers show.** Numbered labels that are written alike have the same number, whatever their
stems are. -/
theorem Label.number_eq_of_text_eq {stem stem' : String} {n n' : Nat}
    (h : (Label.numbered stem n).text = (Label.numbered stem' n').text) : n = n' := by
  have hdigits : (Nat.toDigits 10 n).reverse = (Nat.toDigits 10 n').reverse := by
    rw [← takeWhile_text_numbered stem n, h, takeWhile_text_numbered]
  have hparsed := congrArg (fun ds => Nat.ofDigitChars 10 ds 0) (List.reverse_injective hdigits)
  simpa using hparsed

namespace Linear

/-! ### The labels that code defines -/

/-- The label that an instruction defines. -/
def Instr.defines? : Instr → Option Label
  | .label l => some l
  | _ => none

/-- The labels that code defines, in order. -/
def labels (code : List Instr) : List Label := code.filterMap Instr.defines?

@[simp] theorem labels_nil : labels [] = [] := rfl

@[simp] theorem labels_append (code code' : List Instr) :
    labels (code ++ code') = labels code ++ labels code' := List.filterMap_append

@[simp] theorem labels_label (l : Label) (code : List Instr) :
    labels (.label l :: code) = l :: labels code := rfl

/-- No two labels of the code are written alike. -/
def UniqueLabels (code : List Instr) : Prop := ((labels code).map Label.text).Nodup

/-- A label is found behind code that does not define it. -/
theorem after_append_label {l : Label} {code rest : List Instr}
    (h : l.text ∉ (labels code).map Label.text) : after l (code ++ .label l :: rest) = some rest := by
  induction code with
  | nil => simp [after]
  | cons i code ih =>
    cases i with
    | label m =>
      rw [labels_label, List.map_cons, List.mem_cons, not_or] at h
      rw [List.cons_append, after, if_neg (Ne.symm h.1)]
      exact ih h.2
    | _ => exact ih h

/-- A branch goes on after the one label that it names. -/
theorem after_eq_of_unique {l : Label} {code rest : List Instr}
    (h : UniqueLabels (code ++ .label l :: rest)) :
    after l (code ++ .label l :: rest) = some rest := by
  apply after_append_label
  intro hmem
  rw [UniqueLabels, labels_append, labels_label, List.map_append, List.map_cons] at h
  exact (List.nodup_append.1 h).2.2 _ hmem _ (List.mem_cons_self ..) rfl

end Linear

end Spillway
