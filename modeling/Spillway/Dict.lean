/-!
# Dictionaries in insertion order

A `Dict` maps names to values and remembers the order in which the names first came. Giving a name a
new value leaves it at its place. The position of a name is what the layout of a struct is made of, so
it is part of the interface (`Dict.position?`).

The entries of a scope are kept in an `IndexMap`, a hash map in insertion order. A `Dict` is what the
documentation of that map promises, and this is an assumption of the model: a key that is new goes to
the end, a key that is there keeps its position and gets the new value, and positions count from zero.
Nothing is ever taken out.

* `Dict.keys_insert` — inserting appends a new name and keeps the order of a known one.
* `Dict.get?_insert` — looking up after an insertion.
-/

namespace Spillway

namespace Assoc

variable {α : Type}

/-- The value of a name in a list of pairs. -/
def lookup (name : String) : List (String × α) → Option α
  | [] => none
  | (key, value) :: rest => if key = name then some value else lookup name rest

/-- Gives a name a value: at its place if it is there, at the end otherwise. -/
def insert (name : String) (value : α) : List (String × α) → List (String × α)
  | [] => [(name, value)]
  | (key, old) :: rest =>
    if key = name then (key, value) :: rest else (key, old) :: insert name value rest

/-- The place of a name, counted from zero. -/
def position? (name : String) : List (String × α) → Option Nat
  | [] => none
  | (key, _) :: rest => if key = name then some 0 else (position? name rest).map (· + 1)

theorem keys_insert (name : String) (value : α) (ps : List (String × α)) :
    (insert name value ps).map Prod.fst
      = if name ∈ ps.map Prod.fst then ps.map Prod.fst else ps.map Prod.fst ++ [name] := by
  induction ps with
  | nil => simp [insert]
  | cons p ps ih =>
      obtain ⟨key, old⟩ := p
      by_cases h : key = name
      · simp [insert, h]
      · have hne : ¬ name = key := fun e => h e.symm
        simp only [insert, h, if_false, List.map_cons, ih, List.mem_cons, hne, false_or]
        split <;> simp

theorem lookup_insert (name other : String) (value : α) (ps : List (String × α)) :
    lookup other (insert name value ps) = if other = name then some value else lookup other ps := by
  induction ps with
  | nil => by_cases h : name = other <;> simp [insert, lookup, h, eq_comm]
  | cons p ps ih =>
      obtain ⟨key, old⟩ := p
      by_cases h : key = name
      · by_cases ho : key = other
        · simp [insert, lookup, ← h, ho]
        · simp [insert, lookup, ← h, ho, Ne.symm ho]
      · by_cases ho : key = other
        · have hne : ¬ other = name := fun e => h (ho.trans e)
          simp [insert, lookup, ho, hne]
        · simp [insert, lookup, h, ho, ih]

theorem lookup_eq_none_iff (name : String) (ps : List (String × α)) :
    lookup name ps = none ↔ name ∉ ps.map Prod.fst := by
  induction ps with
  | nil => simp [lookup]
  | cons p ps ih =>
      obtain ⟨key, value⟩ := p
      by_cases h : key = name
      · simp [lookup, h]
      · have hne : ¬ name = key := fun e => h e.symm
        simp [lookup, h, ih, hne]

theorem lookup_of_mem {ps : List (String × α)} (h : (ps.map Prod.fst).Nodup) {name : String} {a : α}
    (hmem : (name, a) ∈ ps) : lookup name ps = some a := by
  induction ps with
  | nil => cases hmem
  | cons p ps ih =>
    rw [List.map_cons, List.nodup_cons] at h
    rcases List.mem_cons.1 hmem with rfl | hmem
    · simp [lookup]
    · have hne : p.1 ≠ name := by
        intro heq
        exact h.1 (heq ▸ List.mem_map_of_mem hmem)
      simp [lookup, hne, ih h.2 hmem]

/-- A name's place is the place of its key. -/
theorem position?_eq_idxOf? (name : String) (ps : List (String × α)) :
    position? name ps = (ps.map Prod.fst).idxOf? name := by
  induction ps with
  | nil => rfl
  | cons p ps ih =>
      obtain ⟨key, value⟩ := p
      by_cases h : key = name <;> simp [position?, List.idxOf?_cons, h, ih]

end Assoc

/-- A dictionary that keeps its names in the order in which they first came. -/
structure Dict (α : Type) where
  items : List (String × α)
  nodup : (items.map Prod.fst).Nodup

namespace Dict

variable {α : Type}

instance : Inhabited (Dict α) := ⟨⟨[], List.Pairwise.nil⟩⟩

/-- The names, in the order in which they first came. -/
def keys (d : Dict α) : List String := d.items.map Prod.fst

/-- How many names there are. -/
def size (d : Dict α) : Nat := d.items.length

/-- The value of a name. -/
def get? (d : Dict α) (name : String) : Option α := Assoc.lookup name d.items

/-- The place of a name among the names, counted from zero. -/
def position? (d : Dict α) (name : String) : Option Nat := Assoc.position? name d.items

/-- Gives a name a value. A name that is there keeps its place. -/
def insert (d : Dict α) (name : String) (value : α) : Dict α where
  items := Assoc.insert name value d.items
  nodup := by
    rw [Assoc.keys_insert]
    split
    · exact d.nodup
    · rename_i h
      rw [List.nodup_append]
      refine ⟨d.nodup, by simp, ?_⟩
      rintro a ha b hb rfl
      rw [List.mem_singleton] at hb
      exact h (hb ▸ ha)

/-- The dictionary without names. -/
def empty : Dict α := default

@[simp] theorem keys_empty : (empty : Dict α).keys = [] := rfl

@[simp] theorem get?_empty (name : String) : (empty : Dict α).get? name = none := rfl

theorem keys_insert (d : Dict α) (name : String) (value : α) :
    (d.insert name value).keys = if name ∈ d.keys then d.keys else d.keys ++ [name] :=
  Assoc.keys_insert name value d.items

theorem get?_insert (d : Dict α) (name other : String) (value : α) :
    (d.insert name value).get? other = if other = name then some value else d.get? other :=
  Assoc.lookup_insert name other value d.items

theorem get?_eq_none_iff (d : Dict α) (name : String) : d.get? name = none ↔ name ∉ d.keys :=
  Assoc.lookup_eq_none_iff name d.items

theorem get?_of_mem {d : Dict α} {name : String} {value : α} (h : (name, value) ∈ d.items) :
    d.get? name = some value := Assoc.lookup_of_mem d.nodup h

theorem position?_eq (d : Dict α) (name : String) : d.position? name = d.keys.idxOf? name :=
  Assoc.position?_eq_idxOf? name d.items

theorem size_eq (d : Dict α) : d.size = d.keys.length := by simp [size, keys]

end Dict

end Spillway
