import Mathlib.Logic.Relation
import Spillway.Proofs.Symbol.Change

/-!
# The forest of scopes

The parent of a scope was there before the scope, so a chain of parents goes down in number and ends.
This is what every lookup rests on. All changes to a table are made of three edits, `SymbolTable.Edit`,
also those of a declaration that stops half-way; what the edits keep, every sequence of changes keeps.

* `SymbolTable.Change`, `SymbolTable.Reached` — the changes, and the tables that they lead to.
* `SymbolTable.Forest`, `SymbolTable.Edit.forest` — the order of the scopes, kept by every edit.
* `SymbolTable.Ancestry` — the chain of parents of a scope, and `Ancestry.resolve_eq`, what is found on it.
* `SymbolTable.Spares`, `SymbolTable.Edit.spares` — what an edit leaves as it was.
* `SymbolTable.Reached.nearest_binding` — **the shape of every table that is reached, and its lookups**.
-/

namespace Spillway

/-- A new value leaves the pairs of the other names as they are, and in their order. -/
theorem Assoc.filter_insert {α : Type} {name : String} {keep : String × α → Bool}
    (hkeep : ∀ v, keep (name, v) = false) (value : α) (ps : List (String × α)) :
    (insert name value ps).filter keep = ps.filter keep := by
  induction ps with
  | nil => simp [insert, hkeep]
  | cons p ps ih =>
    obtain ⟨key, old⟩ := p
    by_cases h : key = name
    · subst key
      simp [insert, hkeep]
    · simp [insert, h, List.filter_cons, ih]

namespace SymbolTable

variable {t t' : SymbolTable} {i j p : ScopeId} {s : Scope} {x : String}

/-! ### Edits -/

/-- One edit of a table: a scope is added, a name is bound, or a parameter is noted. A name may be bound
in a scope from number `n` on, or at the one place that is given. -/
inductive Edit (n : Nat) (place : Option (ScopeId × String)) (t : SymbolTable) : SymbolTable → Prop
  | addScope {name : String} {parent : Option ScopeId} {t' : SymbolTable} :
      (∀ p, parent = some p → p < t.scopes.size) → t.Sets t.scopes.size { name, parent } t' →
      Edit n place t t'
  | bind {i : ScopeId} {s : Scope} {x : String} {e : Entry} {t' : SymbolTable} :
      n ≤ i ∨ place = some (i, x) → t.scopes.get? i = some s → t.Sets i (s.bind x e) t' →
      Edit n place t t'
  | note {i : ScopeId} {s : Scope} {names : List String} {types : List Ty} {t' : SymbolTable} :
      t.scopes.get? i = some s → t.Sets i { s with parameterNames := names, parameterTypes := types } t' →
      Edit n place t t'

/-- Several edits, one after the other. -/
abbrev Edits (n : Nat) (place : Option (ScopeId × String)) : SymbolTable → SymbolTable → Prop :=
  Relation.ReflTransGen (Edit n place)

theorem newScope_ok {parent : Option ScopeId} {name : String} {i : ScopeId}
    (h : t.newScope parent name = .ok (i, t')) :
    i = t.scopes.size ∧ (∀ p, parent = some p → p < t.scopes.size) ∧
      t.Sets t.scopes.size { name, parent } t' := by
  cases parent with
  | none =>
    cases h
    refine ⟨rfl, fun p hp => ?_, fun j => Arena.get?_push ..⟩
    cases hp
  | some q =>
    rw [SymbolTable.newScope] at h
    split at h
    · rename_i hq
      cases h
      refine ⟨rfl, fun p hp => ?_, fun j => Arena.get?_push ..⟩
      cases hp
      exact hq
    · cases h

theorem setValue_ok {value : String} (h : t.setValue i x value = .ok t') :
    ∃ s e, t.scopes.get? i = some s ∧ t.Sets i (s.bind x e) t' := by
  obtain ⟨home, -, h⟩ := Journal.except_bind_ok.1 h
  split at h
  · obtain ⟨s, hs, hsets⟩ := insert_ok (Journal.mapError_eq_ok_iff.1 h)
    exact ⟨s, _, hs, hsets⟩
  · cases h

end SymbolTable

/-! ### Edits of a declaration -/

namespace Scoping

open SymbolTable (Edit)

variable {α β : Type} {n : Nat} {place : Option (ScopeId × String)} {s : Scoping}

/-- However the computation ends, it has made edits of the table and nothing else. -/
def Edits (n : Nat) (place : Option (ScopeId × String)) (m : Declare α) (s : Scoping) : Prop :=
  SymbolTable.Edits n place s.table (m.run s).state.table

theorem Edits.pure (a : α) : Edits n place (pure a) s := .refl

theorem Edits.bind {m : Declare α} {f : α → Declare β} (hm : Edits n place m s)
    (hf : ∀ a s' w, m.run s = ⟨.ok a, s', w⟩ → Edits n place (f a) s') :
    Edits n place (m >>= f) s := by
  rw [Edits, Journal.bind_run]
  rcases hrun : m.run s with ⟨_ | a, s', w⟩
  · rw [Edits, hrun] at hm
    exact hm
  · rw [Edits, hrun] at hm
    exact hm.trans (hf a s' w hrun)

theorem Edits.forM {γ : Type} {f : γ → Declare PUnit} {xs : List γ}
    (hf : ∀ x ∈ xs, ∀ s, Edits n place (f x) s) : Edits n place (xs.forM f) s := by
  induction xs generalizing s with
  | nil => exact .pure _
  | cons x xs ih =>
    exact (hf x (List.mem_cons_self ..) s).bind fun _ _ _ _ =>
      ih fun y hy => hf y (List.mem_cons_of_mem _ hy)

/-- A step that only asks the table makes no edit. -/
theorem Edits.except {y : Except Fault α} {f : α → Declare β}
    (hf : ∀ a, y = .ok a → Edits n place (f a) s) : Edits n place (Journal.ofExcept y >>= f) s := by
  cases y with
  | error e => exact .refl
  | ok a => exact hf a rfl

theorem edits_newScope (parent : Option ScopeId) (name : String) :
    Edits n place (newScope parent name) s := by
  show Edits n place (Journal.ofExcept ((s.table.newScope parent name).mapError Fault.defect) >>= _) s
  refine .except fun r hr => ?_
  obtain ⟨i, t⟩ := r
  obtain ⟨-, hparent, hsets⟩ := SymbolTable.newScope_ok (Journal.mapError_eq_ok_iff.1 hr)
  exact .single (.addScope hparent hsets)

theorem edits_insert {i : ScopeId} {name : String} (e : Entry) (h : n ≤ i ∨ place = some (i, name)) :
    Edits n place (insert i name e) s := by
  show Edits n place (Journal.ofExcept ((s.table.scopes.index i).mapError Fault.trap) >>= fun home =>
    Journal.ofExcept ((s.table.insert i name e).mapError Fault.trap) >>= _) s
  refine .except fun home _ => .except fun t ht => ?_
  obtain ⟨scope, hscope, hsets⟩ := SymbolTable.insert_ok (Journal.mapError_eq_ok_iff.1 ht)
  have hedit : SymbolTable.Edits n place s.table t := .single (.bind h hscope hsets)
  by_cases hbound : (home.entries.get? name).isSome
  · simp only [hbound, if_true]
    exact hedit
  · simp only [hbound]
    exact hedit

theorem edits_setValue {i : ScopeId} {name : String} (value : String) (h : place = some (i, name)) :
    Edits n place (setValue i name value) s := by
  show Edits n place (Journal.ofExcept (s.table.setValue i name value) >>= _) s
  refine .except fun t ht => ?_
  obtain ⟨scope, e, hscope, hsets⟩ := SymbolTable.setValue_ok ht
  exact .single (.bind (.inr h) hscope hsets)

theorem edits_declareVariable {i : ScopeId} {name : String} (ty : Ty)
    (h : n ≤ i ∨ place = some (i, name)) : Edits n place (declareVariable i name ty) s :=
  .bind (m := drawRegister) .refl fun _ _ _ _ =>
    .bind .refl fun _ _ _ _ => (edits_insert _ h).bind fun _ _ _ _ => .pure _

theorem edits_declareParameter {i : ScopeId} {name : String} (ty : Ty)
    (h : n ≤ i ∨ place = some (i, name)) : Edits n place (declareParameter i name ty) s := by
  refine (edits_declareVariable ty h).bind fun r s' _ _ => ?_
  show Edits n place (Journal.ofExcept ((s'.table.addParameter i name ty).mapError Fault.trap) >>= _) s'
  refine .except fun t ht => ?_
  obtain ⟨scope, hscope, hsets⟩ := SymbolTable.addParameter_ok (Journal.mapError_eq_ok_iff.1 ht)
  exact .single (.note hscope hsets)

theorem edits_declareFunction {name : String} (returns : Ty)
    (h : place = some (SymbolTable.global, name)) : Edits n place (declareFunction name returns) s :=
  (edits_newScope _ name).bind fun _ _ _ _ => (edits_insert _ (.inr h)).bind fun _ _ _ _ => .pure _

/-- The fields are bound in a scope that was not there before. -/
theorem edits_declareStruct {name : String} (fields : List (String × Ty))
    (h : place = some (SymbolTable.global, name)) :
    Edits s.table.scopes.size place (declareStruct name fields) s := by
  obtain ⟨t, c⟩ := s
  refine (edits_newScope _ name).bind fun i s' w hnew => ?_
  obtain ⟨t', c'⟩ := s'
  obtain ⟨rfl, -, -⟩ := newScope_ok hnew
  refine (edits_insert _ (.inr h)).bind fun _ _ _ _ => .bind (.forM fun f _ s => ?_) fun _ _ _ _ => .pure _
  exact (edits_declareVariable f.2 (.inl (Nat.le_refl _))).bind fun _ _ _ _ => .pure _

end Scoping

namespace SymbolTable

variable {t t' : SymbolTable} {n : Nat} {place : Option (ScopeId × String)} {i j : ScopeId}
  {is : List ScopeId} {x : String}

/-! ### The order of the scopes -/

/-- The global scope has no parent, and the parent of any scope was there before it. -/
structure Forest (t : SymbolTable) : Prop where
  root : ∃ s, t.scopes.get? global = some s ∧ s.parent = none
  parent_lt : ∀ i s p, t.scopes.get? i = some s → s.parent = some p → p < i

theorem forest_initial : initial.Forest := by
  refine ⟨⟨_, rfl, rfl⟩, fun i s p hs hp => ?_⟩
  cases i with
  | zero =>
    cases hs
    cases hp
  | succ i => cases hs

/-- Setting a scope keeps the order if its parent comes before it. -/
theorem Forest.set {s : Scope} (h : t.Forest) (hsets : t.Sets i s t')
    (hparent : ∀ p, s.parent = some p → p < i) (hroot : i = global → s.parent = none) : t'.Forest := by
  constructor
  · by_cases hi : i = global
    · subst i
      exact ⟨s, hsets.at, hroot rfl⟩
    · obtain ⟨r, hr, hnone⟩ := h.root
      exact ⟨r, (hsets.off (Ne.symm hi)).trans hr, hnone⟩
  · intro j r p hr hp
    by_cases hj : j = i
    · subst j
      rw [hsets.at] at hr
      cases hr
      exact hparent p hp
    · rw [hsets.off hj] at hr
      exact h.parent_lt j r p hr hp

/-- A scope that keeps its parent keeps the order. -/
theorem Forest.set_again {s s' : Scope} (h : t.Forest) (hs : t.scopes.get? i = some s)
    (hsets : t.Sets i s' t') (hparent : s'.parent = s.parent) : t'.Forest := by
  refine h.set hsets (fun p hp => h.parent_lt i s p hs (hparent ▸ hp)) fun hi => ?_
  subst i
  obtain ⟨r, hr, hnone⟩ := h.root
  rw [hs] at hr
  cases hr
  exact hparent.trans hnone

theorem Edit.forest (h : Edit n place t t') (hf : t.Forest) : t'.Forest := by
  cases h with
  | addScope hparent hsets =>
    refine hf.set hsets hparent fun hsize => ?_
    obtain ⟨r, hr, -⟩ := hf.root
    exact absurd hsize.symm (ne_size_of_scope hr)
  | bind _ hs hsets => exact hf.set_again hs hsets rfl
  | note hs hsets => exact hf.set_again hs hsets rfl

theorem Edits.forest (h : Edits n place t t') (hf : t.Forest) : t'.Forest := by
  induction h with
  | refl => exact hf
  | tail _ hedit ih => exact hedit.forest ih

/-! ### What edits leave as it was -/

/-- The scopes below `n` keep their name and parent, and their entries, in order, apart from the one at
the place that is given. -/
def Spares (n : Nat) (place : Option (ScopeId × String)) (t t' : SymbolTable) : Prop :=
  ∀ i s, i < n → t.scopes.get? i = some s →
    ∃ s', t'.scopes.get? i = some s' ∧ s'.name = s.name ∧ s'.parent = s.parent ∧
      s'.entries.items.filter (fun q => place ≠ some (i, q.1))
        = s.entries.items.filter (fun q => place ≠ some (i, q.1))

theorem Spares.trans {t'' : SymbolTable} (h : Spares n place t t') (h' : Spares n place t' t'') :
    Spares n place t t'' := by
  intro i s hi hs
  obtain ⟨s', hs', hname, hparent, hentries⟩ := h i s hi hs
  obtain ⟨s'', hs'', hname', hparent', hentries'⟩ := h' i s' hi hs'
  exact ⟨s'', hs'', hname'.trans hname, hparent'.trans hparent, hentries'.trans hentries⟩

theorem Edit.spares (h : Edit n place t t') : Spares n place t t' := by
  intro j s hj hs
  cases h with
  | addScope _ hsets => exact ⟨s, (hsets.off (ne_size_of_scope hs)).trans hs, rfl, rfl, rfl⟩
  | @bind i r y e _ hplace hr hsets =>
    by_cases hji : j = i
    · subst j
      rw [hr] at hs
      cases hs
      refine ⟨_, hsets.at, rfl, rfl, Assoc.filter_insert (fun v => ?_) e _⟩
      obtain hn | hplace := hplace
      · omega
      · simp [hplace]
    · exact ⟨s, (hsets.off hji).trans hs, rfl, rfl, rfl⟩
  | @note i r names types _ hr hsets =>
    by_cases hji : j = i
    · subst j
      rw [hr] at hs
      cases hs
      exact ⟨_, hsets.at, rfl, rfl, rfl⟩
    · exact ⟨s, (hsets.off hji).trans hs, rfl, rfl, rfl⟩

theorem Edits.spares (h : Edits n place t t') : Spares n place t t' := by
  induction h with
  | refl => exact fun i s _ hs => ⟨s, hs, rfl, rfl, rfl⟩
  | tail _ hedit ih => exact ih.trans hedit.spares

/-! ### Chains of parents -/

/-- The scopes from `i` up to the one without a parent. -/
inductive Ancestry (t : SymbolTable) : ScopeId → List ScopeId → Prop
  | root {i : ScopeId} {s : Scope} : t.scopes.get? i = some s → s.parent = none → Ancestry t i [i]
  | under {i p : ScopeId} {s : Scope} {is : List ScopeId} :
      t.scopes.get? i = some s → s.parent = some p → Ancestry t p is → Ancestry t i (i :: is)

/-- Every scope has a chain of parents: the numbers go down. -/
theorem Forest.exists_ancestry (hf : t.Forest) (hi : i < t.scopes.size) : ∃ is, t.Ancestry i is := by
  induction i using Nat.strongRecOn with
  | ind i ih =>
    obtain ⟨s, hs⟩ := Option.isSome_iff_exists.1 ((Arena.get?_isSome_iff _ _).2 hi)
    cases hparent : s.parent with
    | none => exact ⟨[i], .root hs hparent⟩
    | some p =>
      have hlt := hf.parent_lt i s p hs hparent
      obtain ⟨is, his⟩ := ih p hlt (Nat.lt_trans hlt hi)
      exact ⟨i :: is, .under hs hparent his⟩

theorem Ancestry.lt_size (h : t.Ancestry i is) : i < t.scopes.size := by
  rw [← Arena.get?_isSome_iff]
  cases h with
  | root hs _ => simp [hs]
  | under hs _ _ => simp [hs]

theorem Ancestry.length_le (h : t.Ancestry i is) (hf : t.Forest) : is.length ≤ i + 1 := by
  induction h with
  | root _ _ => simp
  | under hs hp _ ih =>
    exact Nat.succ_le_succ (Nat.le_trans ih (hf.parent_lt _ _ _ hs hp))

/-- A walk that may go far enough finds what is bound first on the chain. -/
theorem Ancestry.resolveWithin_eq (h : t.Ancestry i is) (x : String) {depth : Nat}
    (hdepth : is.length ≤ depth) :
    t.resolveWithin x depth i = .ok (is.findSome? fun j => (t.bound? j x).map (j, ·)) := by
  induction h generalizing depth with
  | @root i s hs hp =>
    obtain ⟨depth, rfl⟩ : ∃ d, depth = d + 1 := ⟨depth - 1, by simp at hdepth; omega⟩
    rw [resolveWithin, scope, Arena.fetch, hs, List.findSome?_cons, bound?_of_scope hs]
    simp only [bind, Except.bind, hp]
    cases s.entries.get? x <;> rfl
  | @under i p s is hs hp _ ih =>
    obtain ⟨depth, rfl⟩ : ∃ d, depth = d + 1 := ⟨depth - 1, by simp at hdepth; omega⟩
    rw [resolveWithin, scope, Arena.fetch, hs, List.findSome?_cons, bound?_of_scope hs]
    simp only [bind, Except.bind, hp]
    cases s.entries.get? x with
    | some e => rfl
    | none => exact ih (by simpa using hdepth)

theorem Ancestry.resolve_eq (h : t.Ancestry i is) (hf : t.Forest) (x : String) :
    t.resolve i x = .ok (is.findSome? fun j => (t.bound? j x).map (j, ·)) := by
  have hlength : is.length ≤ t.scopes.size := Nat.le_trans (h.length_le hf) h.lt_size
  exact h.resolveWithin_eq x (Nat.le_succ_of_le hlength)

/-- Scope `j` is the first of these scopes that binds the name, and it binds it to `e`. -/
def BindsFirst (t : SymbolTable) (is : List ScopeId) (x : String) (j : ScopeId) (e : Entry) : Prop :=
  ∃ inner outer, is = inner ++ j :: outer ∧ t.bound? j x = some e ∧ ∀ k ∈ inner, t.bound? k x = none

theorem findSome?_eq_some_iff_bindsFirst {e : Entry} :
    (is.findSome? fun j => (t.bound? j x).map (j, ·)) = some (j, e) ↔ t.BindsFirst is x j e := by
  rw [List.findSome?_eq_some_iff]
  simp only [Option.map_eq_some_iff, Option.map_eq_none_iff, Prod.mk.injEq]
  constructor
  · rintro ⟨inner, j, outer, his, ⟨e, he, rfl, rfl⟩, hinner⟩
    exact ⟨inner, outer, his, he, hinner⟩
  · rintro ⟨inner, outer, his, he, hinner⟩
    exact ⟨inner, j, outer, his, ⟨e, he, rfl, rfl⟩, hinner⟩

/-- What is looked up is what the nearest scope of the chain binds. -/
theorem Ancestry.lookup_eq (h : t.Ancestry i is) (hf : t.Forest) (x : String) :
    t.lookup i x = .ok (is.findSome? (t.bound? · x)) := by
  rw [lookup, h.resolve_eq hf]
  show Except.ok ((is.findSome? _).map Prod.snd) = _
  rw [List.map_findSome?]
  simp [Function.comp_def]

theorem Ancestry.lookup_eq_some_iff (h : t.Ancestry i is) (hf : t.Forest) (e : Entry) :
    t.lookup i x = .ok (some e) ↔ ∃ j, t.BindsFirst is x j e := by
  rw [h.lookup_eq hf, Except.ok.injEq, List.findSome?_eq_some_iff]
  exact exists_comm

theorem Ancestry.lookup_eq_none_iff (h : t.Ancestry i is) (hf : t.Forest) :
    t.lookup i x = .ok none ↔ ∀ j ∈ is, t.bound? j x = none := by
  rw [h.lookup_eq hf, Except.ok.injEq, List.findSome?_eq_none_iff]

/-- A name stands for a global variable if the global scope is the nearest that binds it. -/
theorem Ancestry.isGlobal_eq (h : t.Ancestry i is) (hf : t.Forest) :
    ∃ b, t.isGlobal i x = .ok b ∧ (b = true ↔ ∃ v, t.BindsFirst is x global (.var v)) := by
  rw [isGlobal, h.resolve_eq hf]
  cases hfound : is.findSome? fun j => (t.bound? j x).map (j, ·) with
  | none =>
    refine ⟨false, rfl, ?_⟩
    simp only [← findSome?_eq_some_iff_bindsFirst, hfound]
    simp
  | some q =>
    obtain ⟨j, e⟩ := q
    refine ⟨e.var?.isSome && decide (j = global), by cases e <;> rfl, ?_⟩
    simp only [← findSome?_eq_some_iff_bindsFirst, hfound]
    cases e <;> simp [Entry.var?]

/-! ### The tables that changes lead to -/

/-- A call that changes a table. -/
inductive Change where
  | newScope (parent : Option ScopeId) (name : String)
  | insert (scope : ScopeId) (name : String) (e : Entry)
  | setValue (scope : ScopeId) (name value : String)
  | declareVariable (scope : ScopeId) (name : String) (ty : Ty)
  | declareParameter (scope : ScopeId) (name : String) (ty : Ty)
  | declareFunction (name : String) (returns : Ty)
  | declareStruct (name : String) (fields : List (String × Ty))

namespace Change

/-- What a call leaves behind, whether it succeeds or fails. -/
def after (s : Scoping) : Change → Scoping
  | newScope parent name => ((Scoping.newScope parent name).run s).state
  | insert scope name e => ((Scoping.insert scope name e).run s).state
  | setValue scope name value => ((Scoping.setValue scope name value).run s).state
  | declareVariable scope name ty => ((Scoping.declareVariable scope name ty).run s).state
  | declareParameter scope name ty => ((Scoping.declareParameter scope name ty).run s).state
  | declareFunction name returns => ((Scoping.declareFunction name returns).run s).state
  | declareStruct name fields => ((Scoping.declareStruct name fields).run s).state

/-- The name that a call is given to bind, and the scope in which it binds it. -/
def place? : Change → Option (ScopeId × String)
  | newScope .. => none
  | insert scope name _ => some (scope, name)
  | setValue scope name _ => some (scope, name)
  | declareVariable scope name _ => some (scope, name)
  | declareParameter scope name _ => some (scope, name)
  | declareFunction name _ => some (global, name)
  | declareStruct name _ => some (global, name)

theorem edits (k : Change) (s : Scoping) :
    Edits s.table.scopes.size k.place? s.table (k.after s).table := by
  cases k with
  | newScope parent name => exact Scoping.edits_newScope parent name
  | insert scope name e => exact Scoping.edits_insert e (.inr rfl)
  | setValue scope name value => exact Scoping.edits_setValue value rfl
  | declareVariable scope name ty => exact Scoping.edits_declareVariable ty (.inr rfl)
  | declareParameter scope name ty => exact Scoping.edits_declareParameter ty (.inr rfl)
  | declareFunction name returns => exact Scoping.edits_declareFunction returns rfl
  | declareStruct name fields => exact Scoping.edits_declareStruct fields rfl

end Change

/-- The tables that calls lead to from the initial one, each call with counters of its own. -/
inductive Reached : SymbolTable → Prop
  | initial : Reached initial
  | call {t : SymbolTable} (k : Change) (c : Counters) : Reached t → Reached (k.after ⟨t, c⟩).table

theorem Reached.calls (h : t.Reached) (c : Counters) (ks : List Change) :
    (ks.foldl (fun t k => (k.after ⟨t, c⟩).table) t).Reached := by
  induction ks generalizing t with
  | nil => exact h
  | cons k ks ih => exact ih (.call k c h)

theorem Reached.forest (h : t.Reached) : t.Forest := by
  induction h with
  | initial => exact forest_initial
  | call k c _ ih => exact (k.edits ⟨_, c⟩).forest ih

/-- **The nearest binding.** Whatever calls led to a table: its global scope has no parent and every
parent comes before its children, so the chain of parents of any scope ends, and a walk that may go to
its end finds no more by going further. Looking a name up gives what the first scope of the chain that
binds it binds it to, and nothing exactly if none does. The name stands for a global variable exactly if
that scope is the global one and the entry a variable. The next call, however it ends, leaves the names
and parents of all scopes as they are, and in their order all entries but the one it is given. -/
theorem Reached.nearest_binding (h : t.Reached) :
    (∃ s, t.scopes.get? global = some s ∧ s.parent = none) ∧
    (∀ i s p, t.scopes.get? i = some s → s.parent = some p → p < i) ∧
    (∀ i, i < t.scopes.size → ∃ is, t.Ancestry i is) ∧
    (∀ i is, t.Ancestry i is → ∀ x,
      (∀ depth, is.length ≤ depth → t.resolveWithin x depth i = t.resolve i x) ∧
      (∀ e, t.lookup i x = .ok (some e) ↔ ∃ j, t.BindsFirst is x j e) ∧
      (t.lookup i x = .ok none ↔ ∀ j ∈ is, t.bound? j x = none) ∧
      ∃ b, t.isGlobal i x = .ok b ∧ (b = true ↔ ∃ v, t.BindsFirst is x global (.var v))) ∧
    ∀ (k : Change) (c : Counters), Spares t.scopes.size k.place? t (k.after ⟨t, c⟩).table := by
  have hf := h.forest
  refine ⟨hf.root, hf.parent_lt, fun i hi => hf.exists_ancestry hi, ?_, ?_⟩
  · intro i is his x
    refine ⟨fun depth hdepth => ?_, his.lookup_eq_some_iff hf, his.lookup_eq_none_iff hf, his.isGlobal_eq hf⟩
    rw [his.resolveWithin_eq x hdepth, his.resolve_eq hf]
  · intro k c
    exact (k.edits ⟨t, c⟩).spares

/-- Two globals, a function whose parameter hides one of them, a block in the function, a scope apart
from the others, and a declaration that fails because its scope is not there. -/
def nested : SymbolTable :=
  ([.declareVariable 0 "x" .int, .declareVariable 0 "y" .int, .declareFunction "f" .void,
    .declareParameter 1 "x" .bool, .newScope (some 1) "block", .newScope none "apart",
    .declareVariable 9 "z" .int, .setValue 0 "x" "5"] : List Change).foldl
    (fun t k => (k.after ⟨t, {}⟩).table) initial

/-- From the block the parameter hides the global `x` but not `y`; from the scope apart nothing is
seen, and setting a value there or anywhere else moves no other entry. -/
theorem nested_nearest_binding :
    nested.Reached ∧ nested.Ancestry 2 [2, 1, 0] ∧ nested.Ancestry 3 [3] ∧
    nested.isGlobal 2 "y" = .ok true ∧ nested.isGlobal 2 "x" = .ok false ∧
    (∃ v, nested.BindsFirst [2, 1, 0] "y" global (.var v)) ∧
    (¬∃ v, nested.BindsFirst [2, 1, 0] "x" global (.var v)) ∧
    (∀ j ∈ [3], nested.bound? j "x" = none) ∧
    Spares 4 (some (0, "y")) nested ((Change.setValue 0 "y" "7").after ⟨nested, {}⟩).table := by
  have hreached : nested.Reached := Reached.initial.calls _ _
  have hblock : nested.Ancestry 2 [2, 1, 0] := .under rfl rfl (.under rfl rfl (.root rfl rfl))
  have hapart : nested.Ancestry 3 [3] := .root rfl rfl
  obtain ⟨-, -, -, hlookup, hspares⟩ := hreached.nearest_binding
  have hy : nested.isGlobal 2 "y" = .ok true := rfl
  have hx : nested.isGlobal 2 "x" = .ok false := rfl
  obtain ⟨b, hb, hiff⟩ := (hlookup 2 [2, 1, 0] hblock "y").2.2.2
  obtain ⟨b', hb', hiff'⟩ := (hlookup 2 [2, 1, 0] hblock "x").2.2.2
  rw [hy] at hb
  rw [hx] at hb'
  cases hb
  cases hb'
  exact ⟨hreached, hblock, hapart, hy, hx, hiff.1 rfl, fun h => Bool.false_ne_true (hiff'.2 h),
    (hlookup 3 [3] hapart "x").2.2.1.1 rfl, hspares (.setValue 0 "y" "7") {}⟩

end SymbolTable

end Spillway
