import Std.Data.TreeSet

/-!
# Each element once

`distinctBy key xs` keeps of every element of a list the first occurrence and leaves the order as it is.
Elements are told apart by a number. The numbers seen so far are kept in a search tree, so a long list
takes little more time than a short one for each element. `distinctBy_eq_eraseDups` gives the result
without the search tree.
-/

namespace Spillway

variable {α : Type}

/-- The numbers seen so far, and the elements kept so far. -/
structure Distinct (α : Type) where
  seen : Std.TreeSet Nat := ∅
  kept : Array α := #[]

/-- Keeps an element unless its number has been seen. -/
def Distinct.add (key : α → Nat) (d : Distinct α) (x : α) : Distinct α :=
  if d.seen.contains (key x) then d else ⟨d.seen.insert (key x), d.kept.push x⟩

/-- The elements of a list, each at its first place. -/
def distinctBy (key : α → Nat) (xs : List α) : List α :=
  (xs.foldl (Distinct.add key) {}).kept.toList

/-- A number is in a search tree after an insertion exactly if it was put in or was there before. -/
theorem contains_insert_iff (seen : Std.TreeSet Nat) (m n : Nat) :
    (seen.insert m).contains n = (decide (n = m) || seen.contains n) := by
  rw [Std.TreeSet.contains_insert]
  by_cases h : n = m
  · simp [h]
  · have hne : compare m n ≠ .eq := fun hc => h (Std.LawfulEqOrd.eq_of_compare hc).symm
    simp [h, beq_eq_false_iff_ne.2 hne]

theorem Distinct.kept_foldl_add [BEq α] [LawfulBEq α] {key : α → Nat}
    (hkey : ∀ x y, key x = key y → x = y) (xs : List α) (d : Distinct α) :
    (xs.foldl (Distinct.add key) d).kept.toList
      = d.kept.toList ++ (xs.filter fun x => !d.seen.contains (key x)).eraseDups := by
  induction xs generalizing d with
  | nil => simp
  | cons x xs ih =>
    rw [List.foldl_cons, ih]
    by_cases hx : d.seen.contains (key x) = true
    · simp [Distinct.add, hx]
    · have hfilter : (xs.filter fun y => !(d.seen.insert (key x)).contains (key y))
          = (xs.filter fun y => !d.seen.contains (key y)).filter fun y => !y == x := by
        rw [List.filter_filter]
        apply List.filter_congr
        intro y _
        rw [contains_insert_iff]
        by_cases hyx : y = x
        · simp [hyx]
        · have hne : key y ≠ key x := fun h => hyx (hkey y x h)
          simp [hne, beq_eq_false_iff_ne.2 hyx]
      rw [List.filter_cons_of_pos (by simp [hx]), List.eraseDups_cons, ← hfilter]
      simp [Distinct.add, hx, -Std.TreeSet.contains_insert]

/-- **First occurrences.** The search tree does not show in the result. -/
theorem distinctBy_eq_eraseDups [BEq α] [LawfulBEq α] {key : α → Nat}
    (hkey : ∀ x y, key x = key y → x = y) (xs : List α) :
    distinctBy key xs = xs.eraseDups := by
  have hall : (xs.filter fun x => !(∅ : Std.TreeSet Nat).contains (key x)) = xs :=
    List.filter_eq_self.2 fun _ _ => by simp
  rw [distinctBy, Distinct.kept_foldl_add hkey, hall]
  rfl

end Spillway
