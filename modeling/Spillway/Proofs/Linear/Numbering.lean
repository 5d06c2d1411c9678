import Spillway.Counters
import Spillway.Proofs.Linear.Labels

/-!
# The numbering of labels

A label is written as its stem, `_L` and its number. The stem may be anything, also something that looks like the
end of a label, but the digits at the end of the text are those of the number and of nothing else. What is left
without them ends in the `_L` that was put there, so that the text shows both the number and the stem. Between two
resets a number is used once, and no text is given out twice, whatever the stems are.

* `Label.text_numbered_inj` — texts show labels.
* `Counters.labelsOf` — the labels that are drawn one after the other.
* `Counters.texts_distinct` — **no two of them are written alike**.
-/

namespace Spillway

/-- **Texts show labels.** Numbered labels that are written alike have the same stem and the same number. -/
theorem Label.text_numbered_inj {stem stem' : String} {n n' : Nat} :
    (Label.numbered stem n).text = (Label.numbered stem' n').text ↔ stem = stem' ∧ n = n' := by
  constructor
  · intro h
    obtain rfl := number_eq_of_text_eq h
    have hlist := congrArg String.toList h
    rw [toList_text_numbered, toList_text_numbered, List.append_assoc, List.append_assoc] at hlist
    exact ⟨String.ext (List.append_cancel_right hlist), rfl⟩
  · rintro ⟨rfl, rfl⟩
    rfl

namespace Counters

/-- A use of the counters that does not number labels from zero again. -/
inductive Draw where
  | register
  | label (stem : String)
  | resetRegisters
  deriving DecidableEq, Repr

namespace Draw

/-- The counters afterwards. -/
def after (c : Counters) : Draw → Counters
  | register => c.drawRegister.2
  | label stem => (c.drawLabel stem).2
  | resetRegisters => c.resetRegisters

/-- The stem of the label that is asked for. -/
def stem? : Draw → Option String
  | label stem => some stem
  | register | resetRegisters => none

/-- The label that is given. -/
def label? (c : Counters) (d : Draw) : Option Label := d.stem?.map fun stem => (c.drawLabel stem).1

end Draw

/-- The labels that are given, one after the other. -/
def labelsOf (c : Counters) : List Draw → List Label
  | [] => []
  | d :: draws => (d.label? c).toList ++ (d.after c).labelsOf draws

/-- A label counts up, and nothing else touches the number of the next label. -/
theorem Draw.labels_after (c : Counters) (d : Draw) : (d.after c).labels = c.labels + d.stem?.toList.length := by
  cases d <;> rfl

/-- **Numbers go up.** The labels that are given have the stems that are asked for, in order, and the numbers from
the next one on. -/
theorem labelsOf_eq (c : Counters) (draws : List Draw) :
    c.labelsOf draws = ((draws.filterMap Draw.stem?).zipIdx c.labels).map fun p => .numbered p.1 p.2 := by
  induction draws generalizing c with
  | nil => rfl
  | cons d draws ih =>
    rw [labelsOf, ih, d.labels_after]
    cases d <;> rfl

/-- Labels with numbers from `n` on are written differently, since no number is used twice. -/
theorem nodup_text_zipIdx (stems : List String) (n : Nat) :
    (((stems.zipIdx n).map fun p => Label.numbered p.1 p.2).map Label.text).Nodup := by
  have hnumbers : ((stems.zipIdx n).map Prod.snd).Nodup := by
    rw [List.zipIdx_map_snd]
    exact List.nodup_range'
  have hpairs : (stems.zipIdx n).Nodup := .of_map _ hnumbers
  rw [List.map_map]
  refine hpairs.map fun p q h => ?_
  obtain ⟨hstem, hnumber⟩ := Label.text_numbered_inj.1 h
  exact Prod.ext hstem hnumber

/-- **No text is given twice.** From any counters, and however labels and registers are drawn in turn, the labels are
written as their stems, `_L` and the numbers from the next one on. No two of these texts are the same, whatever the
stems are: the text of a label shows its number, and its stem as well. -/
theorem texts_distinct (c : Counters) (draws : List Draw) :
    (c.labelsOf draws).map Label.text
      = ((draws.filterMap Draw.stem?).zipIdx c.labels).map (fun p => s!"{p.1}_L{p.2}") ∧
    ((c.labelsOf draws).map Label.text).Nodup ∧
    ∀ {stem stem' : String} {n n' : Nat},
      (Label.numbered stem n).text = (Label.numbered stem' n').text ↔ stem = stem' ∧ n = n' := by
  rw [labelsOf_eq]
  exact ⟨List.map_map .., nodup_text_zipIdx _ _, Label.text_numbered_inj⟩

/-- Stems that are empty or end like labels. -/
example : (({ labels := 9 } : Counters).labelsOf
    [.label "a", .register, .label "a_L1", .label "", .label "a_L1"]).map Label.text
      = ["a_L9", "a_L1_L10", "_L11", "a_L1_L12"] := by decide

end Counters

end Spillway
