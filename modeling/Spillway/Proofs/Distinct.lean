import Mathlib.Data.Finset.Card
import Spillway.Distinct

/-!
# Lists without repetitions

Registers, globals and format strings are all kept in the order of their first appearances, each once. This module has
what is true of such lists: how long they are, where an element stands in them, and what becomes of them under other
names.
-/

namespace Spillway

variable {α β : Type}

theorem nodup_eraseDups [BEq α] [LawfulBEq α] (xs : List α) : xs.eraseDups.Nodup := by
  cases xs with
  | nil => exact List.nodup_nil
  | cons x xs =>
    rw [List.eraseDups_cons, List.nodup_cons]
    refine ⟨fun hmem => ?_, nodup_eraseDups _⟩
    simpa using List.mem_eraseDups.1 hmem
termination_by xs.length
decreasing_by exact Nat.lt_succ_of_le (List.length_filter_le ..)

/-- A list in which nothing stands twice has nothing to be left out. -/
theorem eraseDups_of_nodup [BEq α] [LawfulBEq α] {xs : List α} (h : xs.Nodup) : xs.eraseDups = xs := by
  induction xs with
  | nil => rfl
  | cons x xs ih =>
    obtain ⟨hx, hxs⟩ := List.nodup_cons.1 h
    have hfilter : (xs.filter fun y => !y == x) = xs := by
      refine List.filter_eq_self.2 fun y hy => ?_
      have hne : y ≠ x := fun he => hx (he ▸ hy)
      simp [hne]
    rw [List.eraseDups_cons, hfilter, ih hxs]

section Places

variable [DecidableEq α] [DecidableEq β]

theorem length_eraseDups (xs : List α) : xs.eraseDups.length = xs.toFinset.card := by
  rw [← List.toFinset_card_of_nodup (nodup_eraseDups xs)]
  congr 1
  ext x
  simp

/-- The place of an element among the distinct ones is the number of distinct elements before it appears first. -/
theorem idxOf?_eraseDups {before after : List α} {x : α} (hx : x ∉ before) :
    (before ++ x :: after).eraseDups.idxOf? x = some before.toFinset.card := by
  have hkept : (x :: after).removeAll before = x :: after.removeAll before := by
    rw [List.cons_removeAll, if_pos (by simpa using hx)]
  have hbefore : before.eraseDups.findIdx? (· == x) = none :=
    List.idxOf?_eq_none_iff.2 (mt List.mem_eraseDups.1 hx)
  rw [List.eraseDups_append, hkept, List.eraseDups_cons, List.idxOf?, List.findIdx?_append, hbefore,
    ← length_eraseDups]
  simp [List.findIdx?_cons]

/-! ### Under other names -/

variable {f : α → β}

theorem idxOf?_map (hf : Function.Injective f) (xs : List α) (x : α) :
    (xs.map f).idxOf? (f x) = xs.idxOf? x := by
  unfold List.idxOf?
  rw [List.findIdx?_map]
  congr 1
  funext y
  simp [hf.eq_iff]

theorem eraseDups_map (hf : Function.Injective f) (xs : List α) : (xs.map f).eraseDups = xs.eraseDups.map f := by
  cases xs with
  | nil => rfl
  | cons x xs =>
    have hrest : ((xs.map f).filter fun y => !y == f x) = (xs.filter fun y => !y == x).map f := by
      rw [List.filter_map]
      congr 2
      funext y
      simp [hf.eq_iff]
    rw [List.map_cons, List.eraseDups_cons, List.eraseDups_cons, hrest, eraseDups_map hf, List.map_cons]
termination_by xs.length
decreasing_by exact Nat.lt_succ_of_le (List.length_filter_le ..)

end Places

end Spillway
