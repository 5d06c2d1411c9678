import Spillway.Fault

/-!
# Arenas

An arena stores items under the numbers `0, 1, 2, …` in which they came; nothing is ever taken out.
There are two ways to ask for an item that may not be there. `fetch` treats a missing item as a defect
of the program that holds the index; `index` and `update` treat it as a trap.
-/

namespace Spillway

/-- Items numbered in the order in which they were stored. -/
structure Arena (α : Type) where
  items : Array α := #[]

namespace Arena

variable {α : Type}

instance : Inhabited (Arena α) := ⟨{}⟩

/-- How many items there are. -/
def size (a : Arena α) : Nat := a.items.size

/-- The items in order. -/
def toList (a : Arena α) : List α := a.items.toList

/-- Stores an item and returns its number. -/
def push (a : Arena α) (x : α) : Nat × Arena α := (a.size, ⟨a.items.push x⟩)

/-- The item with this number, if there is one. -/
def get? (a : Arena α) (i : Nat) : Option α := a.items[i]?

/-- The item with this number; a missing one is a defect. -/
def fetch (a : Arena α) (i : Nat) : Except Defect α :=
  match a.get? i with
  | some x => .ok x
  | none => .error (.missing i a.size)

/-- The item with this number; a missing one is a trap. -/
def index (a : Arena α) (i : Nat) : Except Trap α :=
  match a.get? i with
  | some x => .ok x
  | none => .error (.outOfBounds a.size i)

/-- Changes the item with this number; a missing one is a trap. -/
def update (a : Arena α) (i : Nat) (f : α → α) : Except Trap (Arena α) :=
  if i < a.size then .ok ⟨a.items.modify i f⟩ else .error (.outOfBounds a.size i)

/-! ### The arena as a list -/

@[simp] theorem push_fst (a : Arena α) (x : α) : (a.push x).1 = a.size := rfl

@[simp] theorem size_push (a : Arena α) (x : α) : (a.push x).2.size = a.size + 1 := by
  simp [push, size]

@[simp] theorem toList_push (a : Arena α) (x : α) : (a.push x).2.toList = a.toList ++ [x] := by
  simp [push, toList]

theorem get?_eq (a : Arena α) (i : Nat) : a.get? i = a.toList[i]? := by
  simp [get?, toList]

theorem size_eq (a : Arena α) : a.size = a.toList.length := by
  simp [size, toList]

/-- An item is there exactly under the numbers below the size. -/
theorem get?_isSome_iff (a : Arena α) (i : Nat) : (a.get? i).isSome ↔ i < a.size := by
  simp [get?, size]

theorem get?_push (a : Arena α) (x : α) (i : Nat) :
    (a.push x).2.get? i = if i = a.size then some x else a.get? i := by
  unfold push get? size
  rw [Array.getElem?_push]

theorem fetch_ok_iff {a : Arena α} {i : Nat} {x : α} : a.fetch i = .ok x ↔ a.get? i = some x := by
  rw [fetch]
  cases a.get? i with
  | none => exact ⟨nofun, nofun⟩
  | some y => simp

theorem fetch_of_none {a : Arena α} {i : Nat} (h : a.get? i = none) : a.fetch i = .error (.missing i a.size) := by
  rw [fetch, h]

theorem get?_update {a b : Arena α} {i : Nat} {f : α → α} (h : a.update i f = .ok b) (j : Nat) :
    b.get? j = if j = i then (a.get? j).map f else a.get? j := by
  unfold update at h
  split at h
  · cases h
    simp only [get?, Array.getElem?_modify]
    by_cases hji : j = i
    · simp [hji]
    · simp [hji, Ne.symm hji]
  · cases h

@[simp] theorem size_update {a b : Arena α} {i : Nat} {f : α → α} (h : a.update i f = .ok b) :
    b.size = a.size := by
  unfold update at h
  split at h
  · cases h; simp [size]
  · cases h

end Arena

end Spillway
