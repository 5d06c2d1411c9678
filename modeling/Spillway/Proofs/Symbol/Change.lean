import Spillway.Proofs.Journal
import Spillway.Symbol.Declare

/-!
# What declarations change

Every change to a symbol table sets one scope and leaves the others as they are: `SymbolTable.Sets`.
Each step of a declaration is described by what it sets, so that nothing later has to look into the
steps again.

* `Scoping.insert_ok`, `Scoping.newScope_ok`, `Scoping.declareVariable_ok` — a step that succeeds.
* `Scoping.declareVariables_ok` — a list of variables at once.
* `Scoping.Fresh` — no register belongs to two variables or was not drawn yet; every declaration keeps
  it, also one that replaces a binding.
-/

namespace Spillway

theorem Dict.keys_insert_of_none {α : Type} {d : Dict α} {name : String} (h : d.get? name = none)
    (value : α) : (d.insert name value).keys = d.keys ++ [name] := by
  rw [Dict.keys_insert, if_neg ((Dict.get?_eq_none_iff d name).1 h)]

/-! ### Scopes -/

namespace Scope

/-- A scope with one more binding. -/
def bind (s : Scope) (name : String) (e : Entry) : Scope :=
  { s with entries := s.entries.insert name e }

/-- A scope with more variables, which have registers from `n` on. -/
def bindAll (s : Scope) : (n : Nat) → List (String × Ty) → Scope
  | _, [] => s
  | n, (name, ty) :: rest => (s.bind name (.var { ty, register := ⟨n⟩ })).bindAll (n + 1) rest

/-- A scope with more parameters, which have registers from `n` on. -/
def bindParameters (s : Scope) (n : Nat) (ps : List (String × Ty)) : Scope :=
  { s.bindAll n ps with
    parameterNames := s.parameterNames ++ ps.map Prod.fst
    parameterTypes := s.parameterTypes ++ ps.map Prod.snd }

theorem get?_bind (s : Scope) (name other : String) (e : Entry) :
    (s.bind name e).entries.get? other = if other = name then some e else s.entries.get? other :=
  Dict.get?_insert ..

theorem parent_bindAll (s : Scope) (n : Nat) (vs : List (String × Ty)) :
    (s.bindAll n vs).parent = s.parent := by
  induction vs generalizing s n with
  | nil => rfl
  | cons v vs ih => exact ih (s.bind v.1 _) (n + 1)

/-- New names come after the ones that are there, in order. -/
theorem keys_bindAll {s : Scope} {vs : List (String × Ty)} (n : Nat)
    (hnew : ∀ v ∈ vs, s.entries.get? v.1 = none) (hdup : (vs.map Prod.fst).Nodup) :
    (s.bindAll n vs).entries.keys = s.entries.keys ++ vs.map Prod.fst := by
  induction vs generalizing s n with
  | nil => exact (List.append_nil _).symm
  | cons v vs ih =>
    obtain ⟨name, ty⟩ := v
    rw [List.map_cons, List.nodup_cons] at hdup
    have hkeys : (s.bind name (.var { ty, register := ⟨n⟩ })).entries.keys = s.entries.keys ++ [name] :=
      Dict.keys_insert_of_none (hnew (name, ty) (List.mem_cons_self ..)) _
    have hrest : ∀ w ∈ vs, (s.bind name (.var { ty, register := ⟨n⟩ })).entries.get? w.1 = none := by
      intro w hw
      have hne : w.1 ≠ name := by
        intro he
        exact hdup.1 (List.mem_map.2 ⟨w, hw, he⟩)
      rw [get?_bind, if_neg hne]
      exact hnew w (List.mem_cons_of_mem _ hw)
    rw [bindAll, ih (n + 1) hrest hdup.2, hkeys, List.append_assoc]
    rfl

theorem bindAll_withParameters (s : Scope) (names : List String) (types : List Ty) (n : Nat)
    (vs : List (String × Ty)) :
    ({ s with parameterNames := names, parameterTypes := types } : Scope).bindAll n vs
      = { s.bindAll n vs with parameterNames := names, parameterTypes := types } := by
  induction vs generalizing s n with
  | nil => rfl
  | cons v vs ih => exact ih (s.bind v.1 _) (n + 1)

theorem bindParameters_cons (s : Scope) (n : Nat) (p : String × Ty) (ps : List (String × Ty)) :
    (s.bindParameters n [p]).bindParameters (n + 1) ps = s.bindParameters n (p :: ps) := by
  unfold bindParameters
  rw [bindAll_withParameters]
  simp [bindAll]

/-- What binding variables adds is variables. -/
theorem get?_bindAll {s : Scope} {vs : List (String × Ty)} {n : Nat} {name : String} {e : Entry}
    (h : (s.bindAll n vs).entries.get? name = some e) :
    s.entries.get? name = some e ∨ ∃ v, e = .var v := by
  induction vs generalizing s n with
  | nil => exact .inl h
  | cons w vs ih =>
    obtain h' | h' := ih h
    · rw [get?_bind] at h'
      split at h'
      · exact .inr ⟨_, (Option.some.inj h').symm⟩
      · exact .inl h'
    · exact .inr h'

end Scope

/-! ### Tables -/

namespace SymbolTable

/-- What a name is bound to in scope `i` itself. -/
def bound? (t : SymbolTable) (i : ScopeId) (name : String) : Option Entry :=
  (t.scopes.get? i).bind fun s => s.entries.get? name

/-- The second table is the first with scope `i` set to `s`. -/
def Sets (t : SymbolTable) (i : ScopeId) (s : Scope) (t' : SymbolTable) : Prop :=
  ∀ j, t'.scopes.get? j = if j = i then some s else t.scopes.get? j

theorem bound?_of_scope {t : SymbolTable} {i : ScopeId} {s : Scope} (h : t.scopes.get? i = some s)
    (name : String) : t.bound? i name = s.entries.get? name := by
  rw [bound?, h]
  rfl

/-- There is no scope yet under the next number. -/
theorem get?_size (t : SymbolTable) : t.scopes.get? t.scopes.size = none := by
  rw [← Option.not_isSome_iff_eq_none, Arena.get?_isSome_iff]
  exact Nat.lt_irrefl _

theorem ne_size_of_scope {t : SymbolTable} {i : ScopeId} {s : Scope}
    (h : t.scopes.get? i = some s) : i ≠ t.scopes.size := by
  rintro rfl
  rw [get?_size] at h
  cases h

section Sets

variable {t t' t'' : SymbolTable} {i j : ScopeId} {s s' : Scope}

theorem Sets.at (h : t.Sets i s t') : t'.scopes.get? i = some s := by rw [h i, if_pos rfl]

theorem Sets.off (h : t.Sets i s t') (hne : j ≠ i) : t'.scopes.get? j = t.scopes.get? j := by
  rw [h j, if_neg hne]

/-- Setting a scope twice sets it once. -/
theorem Sets.again (h : t.Sets i s t') (h' : t'.Sets i s' t'') : t.Sets i s' t'' := by
  intro j
  rw [h' j]
  split
  · rfl
  · exact h.off ‹_›

/-- What is bound after a scope was set. -/
theorem Sets.bound? (h : t.Sets i s t') (j : ScopeId) (name : String) :
    t'.bound? j name = if j = i then s.entries.get? name else t.bound? j name := by
  split
  · subst j
    exact bound?_of_scope h.at name
  · rw [SymbolTable.bound?, h.off ‹_›]
    rfl

theorem Sets.bound?_bind {x : String} {e : Entry} (hs : t.scopes.get? i = some s)
    (h : t.Sets i (s.bind x e) t') (j : ScopeId) (y : String) :
    t'.bound? j y = if j = i ∧ y = x then some e else t.bound? j y := by
  rw [h.bound?]
  by_cases hj : j = i
  · subst j
    rw [if_pos rfl, Scope.get?_bind, bound?_of_scope hs]
    simp only [true_and]
  · rw [if_neg hj, if_neg (fun hc => hj hc.1)]

end Sets

theorem sets_of_update {t : SymbolTable} {i : ScopeId} {f : Scope → Scope} {a : Arena Scope}
    (h : t.scopes.update i f = .ok a) :
    ∃ s, t.scopes.get? i = some s ∧ t.Sets i (f s) ⟨a⟩ := by
  have hlt : i < t.scopes.size := by
    rw [Arena.update] at h
    split at h
    · assumption
    · cases h
  obtain ⟨s, hs⟩ := Option.isSome_iff_exists.1 ((Arena.get?_isSome_iff _ _).2 hlt)
  refine ⟨s, hs, fun j => (Arena.get?_update h j).trans ?_⟩
  split
  · subst j
    rw [hs]
    rfl
  · rfl

theorem insert_ok {t t' : SymbolTable} {i : ScopeId} {name : String} {e : Entry}
    (h : t.insert i name e = .ok t') :
    ∃ s, t.scopes.get? i = some s ∧ t.Sets i (s.bind name e) t' := by
  rw [SymbolTable.insert] at h
  cases hu : t.scopes.update i fun s => { s with entries := s.entries.insert name e } with
  | error _ => rw [hu] at h; cases h
  | ok a =>
    rw [hu] at h
    cases h
    exact sets_of_update hu

theorem addParameter_ok {t t' : SymbolTable} {i : ScopeId} {name : String} {ty : Ty}
    (h : t.addParameter i name ty = .ok t') :
    ∃ s, t.scopes.get? i = some s ∧
      t.Sets i { s with
        parameterNames := s.parameterNames ++ [name]
        parameterTypes := s.parameterTypes ++ [ty] } t' := by
  rw [addParameter] at h
  cases hu : t.scopes.update i fun s => { s with
      parameterNames := s.parameterNames ++ [name]
      parameterTypes := s.parameterTypes ++ [ty] } with
  | error _ => rw [hu] at h; cases h
  | ok a =>
    rw [hu] at h
    cases h
    exact sets_of_update hu

end SymbolTable

/-! ### Steps of a declaration -/

namespace Scoping

open SymbolTable (Sets)

variable {t t' : SymbolTable} {c c' : Counters} {w : List Notice} {name : String}

theorem newScope_ok {p : ScopeId} {i : ScopeId}
    (h : (newScope (some p) name).run ⟨t, c⟩ = ⟨.ok i, ⟨t', c'⟩, w⟩) :
    i = t.scopes.size ∧ c' = c ∧ t.Sets i { name, parent := some p } t' := by
  obtain ⟨⟨id, t₁⟩, hnew, h₁⟩ := Journal.defect_bind_ok.1 (Journal.get_bind_ok.1 h)
  have h₂ := Journal.set_bind_ok.1 h₁
  obtain ⟨rfl, hstate, -⟩ := Journal.pure_ok.1 h₂
  obtain ⟨rfl, rfl⟩ := Scoping.mk.inj hstate
  rw [SymbolTable.newScope] at hnew
  split at hnew
  · cases hnew
    refine ⟨rfl, rfl, fun j => ?_⟩
    exact Arena.get?_push ..
  · cases hnew

theorem insert_ok {i : ScopeId} {e : Entry} {previous : Option Entry}
    (h : (Scoping.insert i name e).run ⟨t, c⟩ = ⟨.ok previous, ⟨t', c'⟩, w⟩) :
    c' = c ∧ ∃ s, t.scopes.get? i = some s ∧ t.Sets i (s.bind name e) t' := by
  obtain ⟨home, -, h₁⟩ := Journal.trap_bind_ok.1 (Journal.get_bind_ok.1 h)
  obtain ⟨t₁, hinsert, h₂⟩ := Journal.trap_bind_ok.1 h₁
  have hstate : (⟨t', c'⟩ : Scoping) = ⟨t₁, c⟩ := by
    replace h₂ := Journal.set_bind_ok.1 h₂
    by_cases hbound : (home.entries.get? name).isSome
    · simp only [hbound, if_true] at h₂
      obtain ⟨_, h₃, -⟩ := Journal.record_bind_ok.1 h₂
      exact (Journal.pure_ok.1 h₃).2.1
    · simp only [hbound] at h₂
      exact (Journal.pure_ok.1 h₂).2.1
  obtain ⟨rfl, rfl⟩ := Scoping.mk.inj hstate
  exact ⟨rfl, SymbolTable.insert_ok hinsert⟩

theorem drawRegister_run :
    drawRegister.run ⟨t, c⟩ = ⟨.ok ⟨c.registers⟩, ⟨t, ⟨c.registers + 1, c.labels⟩⟩, []⟩ := rfl

theorem declareVariable_ok {i : ScopeId} {ty : Ty} {r : VReg}
    (h : (declareVariable i name ty).run ⟨t, c⟩ = ⟨.ok r, ⟨t', c'⟩, w⟩) :
    r = ⟨c.registers⟩ ∧ c' = ⟨c.registers + 1, c.labels⟩ ∧ ∃ s, t.scopes.get? i = some s ∧
      t.Sets i (s.bind name (.var { ty, register := ⟨c.registers⟩ })) t' := by
  obtain ⟨_, _, _, _, hdraw, h₁, -⟩ := Journal.bind_eq_ok_iff.1 h
  rw [drawRegister_run] at hdraw
  cases hdraw
  obtain ⟨_, h₂, -⟩ := Journal.record_bind_ok.1 h₁
  obtain ⟨_, ⟨t₁, c₁⟩, _, _, hinsert, hpure, -⟩ := Journal.bind_eq_ok_iff.1 h₂
  obtain ⟨rfl, hstate, -⟩ := Journal.pure_ok.1 hpure
  obtain ⟨rfl, rfl⟩ := Scoping.mk.inj hstate
  obtain ⟨rfl, hsets⟩ := insert_ok hinsert
  exact ⟨rfl, rfl, hsets⟩

theorem declareParameter_ok {i : ScopeId} {ty : Ty} {r : VReg}
    (h : (declareParameter i name ty).run ⟨t, c⟩ = ⟨.ok r, ⟨t', c'⟩, w⟩) :
    c' = ⟨c.registers + 1, c.labels⟩ ∧ ∃ s, t.scopes.get? i = some s ∧
      t.Sets i (s.bindParameters c.registers [(name, ty)]) t' := by
  obtain ⟨_, ⟨t₁, c₁⟩, _, _, hvar, h₁, -⟩ := Journal.bind_eq_ok_iff.1 h
  obtain ⟨rfl, rfl, s, hs, hsets⟩ := declareVariable_ok hvar
  obtain ⟨t₂, hadd, h₂⟩ := Journal.trap_bind_ok.1 (Journal.get_bind_ok.1 h₁)
  have h₃ := Journal.set_bind_ok.1 h₂
  obtain ⟨-, hstate, -⟩ := Journal.pure_ok.1 h₃
  obtain ⟨rfl, rfl⟩ := Scoping.mk.inj hstate
  obtain ⟨s', hs', hsets'⟩ := SymbolTable.addParameter_ok hadd
  rw [hsets.at] at hs'
  cases hs'
  exact ⟨rfl, s, hs, hsets.again hsets'⟩

/-- Declaring variables one after the other binds them all. -/
theorem declareVariables_ok {i : ScopeId} {vs : List (String × Ty)} {s : Scope} {u : PUnit}
    (hs : t.scopes.get? i = some s)
    (h : (vs.forM fun v => do let _ ← declareVariable i v.1 v.2).run ⟨t, c⟩ = ⟨.ok u, ⟨t', c'⟩, w⟩) :
    c' = ⟨c.registers + vs.length, c.labels⟩ ∧ t.Sets i (s.bindAll c.registers vs) t' := by
  induction vs generalizing t c w s with
  | nil =>
    obtain ⟨-, hstate, -⟩ := Journal.pure_ok.1 h
    obtain ⟨rfl, rfl⟩ := Scoping.mk.inj hstate
    refine ⟨rfl, fun j => ?_⟩
    split
    · subst j
      exact hs
    · rfl
  | cons v vs ih =>
    obtain ⟨_, ⟨t₁, c₁⟩, _, _, hfirst, hrest, -⟩ := Journal.bind_eq_ok_iff.1 h
    obtain ⟨_, _, _, _, hvar, hpure, -⟩ := Journal.bind_eq_ok_iff.1 hfirst
    obtain ⟨-, rfl, -⟩ := Journal.pure_ok.1 hpure
    obtain ⟨-, rfl, s', hs', hsets⟩ := declareVariable_ok hvar
    rw [hs] at hs'
    cases hs'
    obtain ⟨rfl, hsets'⟩ := ih hsets.at hrest
    refine ⟨Counters.ext ?_ rfl, hsets.again hsets'⟩
    show c.registers + 1 + vs.length = c.registers + (vs.length + 1)
    omega

/-! ### Declarations that succeed -/

/-- A name can be bound in a scope that is there, also if it is bound already. -/
theorem insert_succeeds {i : ScopeId} {s : Scope} (hs : t.scopes.get? i = some s) (name : String) (e : Entry) :
    ∃ previous t' w, (Scoping.insert i name e).run ⟨t, c⟩ = ⟨.ok previous, ⟨t', c⟩, w⟩ := by
  have hindex : t.scopes.index i = .ok s := by rw [Arena.index, hs]
  have hlt : i < t.scopes.size := (Arena.get?_isSome_iff _ _).1 (by rw [hs]; rfl)
  obtain ⟨t', ht'⟩ : ∃ t', t.insert i name e = .ok t' := by
    rw [SymbolTable.insert, Arena.update, if_pos hlt]
    exact ⟨_, rfl⟩
  refine ⟨s.entries.get? name, t', if (s.entries.get? name).isSome then [.redeclared name s.name] else [], ?_⟩
  refine Journal.get_bind_ok.2 (Journal.trap_bind_ok.2 ⟨s, hindex, ?_⟩)
  refine Journal.trap_bind_ok.2 ⟨t', ht', Journal.set_bind_ok.2 ?_⟩
  cases s.entries.get? name <;> rfl

theorem declareVariable_succeeds {i : ScopeId} {s : Scope} (hs : t.scopes.get? i = some s) (name : String) (ty : Ty) :
    ∃ r u w, (declareVariable i name ty).run ⟨t, c⟩ = ⟨.ok r, u, w⟩ := by
  obtain ⟨previous, t', w, hinsert⟩ := insert_succeeds (c := ⟨c.registers + 1, c.labels⟩) hs name
    (.var { ty, register := ⟨c.registers⟩ })
  exact ⟨_, _, _, Journal.bind_eq_ok_iff.2 ⟨_, _, _, _, drawRegister_run,
    Journal.record_bind_ok.2 ⟨_, Journal.bind_eq_ok_iff.2 ⟨_, _, _, _, hinsert, rfl, rfl⟩, rfl⟩, rfl⟩⟩

theorem declareVariables_succeeds {i : ScopeId} {s : Scope} (hs : t.scopes.get? i = some s)
    (vs : List (String × Ty)) :
    ∃ u s' w, (vs.forM fun v => do let _ ← declareVariable i v.1 v.2).run ⟨t, c⟩ = ⟨.ok u, s', w⟩ := by
  induction vs generalizing t c s with
  | nil => exact ⟨_, _, _, rfl⟩
  | cons v vs ih =>
    obtain ⟨r, ⟨t₁, c₁⟩, w, hvar⟩ := declareVariable_succeeds (c := c) hs v.1 v.2
    obtain ⟨-, -, s', hs', hsets⟩ := declareVariable_ok hvar
    obtain ⟨u, s₂, w', hrest⟩ := ih (c := c₁) hsets.at
    have hfirst : (do let _ ← declareVariable i v.1 v.2 : Declare PUnit).run ⟨t, c⟩
        = ⟨.ok ⟨⟩, ⟨t₁, c₁⟩, w ++ []⟩ := Journal.bind_eq_ok_iff.2 ⟨_, _, _, _, hvar, rfl, rfl⟩
    exact ⟨u, s₂, _, Journal.bind_eq_ok_iff.2 ⟨_, _, _, _, hfirst, hrest, rfl⟩⟩

theorem newScope_succeeds {p : ScopeId} {s : Scope} (hp : t.scopes.get? p = some s) (name : String) :
    ∃ i u w, (newScope (some p) name).run ⟨t, c⟩ = ⟨.ok i, u, w⟩ := by
  have hlt : p < t.scopes.size := (Arena.get?_isSome_iff _ _).1 (by rw [hp]; rfl)
  have hnew : t.newScope (some p) name = .ok (t.scopes.size, ⟨(t.scopes.push { name, parent := some p }).2⟩) := by
    rw [SymbolTable.newScope, if_pos hlt]
  exact ⟨_, _, _, Journal.get_bind_ok.2 (Journal.defect_bind_ok.2 ⟨_, hnew, rfl⟩)⟩

/-- A struct can be declared, with any list of fields. -/
theorem declareStruct_succeeds {s : Scope} (hroot : t.scopes.get? SymbolTable.global = some s) (name : String)
    (fields : List (String × Ty)) : ∃ i u w, (declareStruct name fields).run ⟨t, c⟩ = ⟨.ok i, u, w⟩ := by
  obtain ⟨i, ⟨t₁, c₁⟩, w₁, hnew⟩ := newScope_succeeds (c := c) hroot name
  obtain ⟨rfl, rfl, hsets⟩ := newScope_ok hnew
  have hne : SymbolTable.global ≠ t.scopes.size := SymbolTable.ne_size_of_scope hroot
  obtain ⟨previous, t₂, w₂, hinsert⟩ := insert_succeeds (c := c₁) ((hsets.off hne).trans hroot) name
    (.struct t.scopes.size)
  obtain ⟨-, s', -, hsets'⟩ := insert_ok hinsert
  obtain ⟨u, s₂, w₃, hfields⟩ := declareVariables_succeeds (c := c₁) ((hsets'.off hne.symm).trans hsets.at) fields
  exact ⟨_, s₂, _, Journal.bind_eq_ok_iff.2 ⟨_, _, _, _, hnew, Journal.bind_eq_ok_iff.2 ⟨_, _, _, _, hinsert,
    Journal.bind_eq_ok_iff.2 ⟨_, _, _, _, hfields, rfl, rfl⟩, rfl⟩, rfl⟩⟩

end Scoping

/-! ### Registers of variables -/

/-- Every register of a variable is below `n`, and no two variables have the same. -/
structure SymbolTable.Fresh (t : SymbolTable) (n : Nat) : Prop where
  below : ∀ {i x v}, t.bound? i x = some (.var v) → v.register.id < n
  apart : ∀ {i j x y v v'}, t.bound? i x = some (.var v) → t.bound? j y = some (.var v') →
    v.register = v'.register → i = j ∧ x = y

namespace SymbolTable.Fresh

variable {t t' : SymbolTable} {n m : Nat}

theorem mono (h : t.Fresh n) (hnm : n ≤ m) : t.Fresh m :=
  ⟨fun hv => Nat.lt_of_lt_of_le (h.below hv) hnm, h.apart⟩

/-- A binding keeps registers apart if it brings a register that was not drawn before, or none. -/
theorem bind {i : ScopeId} {s : Scope} {x : String} {e : Entry} (h : t.Fresh n)
    (hs : t.scopes.get? i = some s) (hsets : t.Sets i (s.bind x e) t') (hnm : n ≤ m)
    (he : ∀ v, e = .var v → n ≤ v.register.id ∧ v.register.id < m) : t'.Fresh m := by
  constructor
  · intro j y v hv
    rw [hsets.bound?_bind hs] at hv
    split at hv
    · exact (he v (Option.some.inj hv)).2
    · exact Nat.lt_of_lt_of_le (h.below hv) hnm
  · intro j k y z v v' hv hv' hr
    rw [hsets.bound?_bind hs] at hv hv'
    -- the new binding against an old one: the old register was drawn before
    split at hv <;> split at hv'
    · rename_i hj hk
      exact ⟨hj.1.trans hk.1.symm, hj.2.trans hk.2.symm⟩
    · have hnew := (he v (Option.some.inj hv)).1
      have hold := h.below hv'
      rw [hr] at hnew
      omega
    · have hnew := (he v' (Option.some.inj hv')).1
      have hold := h.below hv
      rw [hr] at hold
      omega
    · exact h.apart hv hv' hr

/-- A scope without entries brings no register. -/
theorem newScope {i : ScopeId} {x : String} {p : Option ScopeId} (h : t.Fresh n)
    (hsets : t.Sets i { name := x, parent := p } t') : t'.Fresh n := by
  have hold : ∀ {j y e}, t'.bound? j y = some e → t.bound? j y = some e := by
    intro j y e he
    rw [hsets.bound?] at he
    split at he
    · cases he
    · exact he
  exact ⟨fun hv => h.below (hold hv), fun hv hv' => h.apart (hold hv) (hold hv')⟩

end SymbolTable.Fresh

namespace Scoping

/-- Every register of a variable was drawn, and no two variables have the same. -/
def Fresh (s : Scoping) : Prop := s.table.Fresh s.counters.registers

theorem keeps_newScope (p : ScopeId) (name : String) : (newScope (some p) name).Keeps Fresh := by
  rintro ⟨t, c⟩ ⟨t', c'⟩ i w h hs
  obtain ⟨-, rfl, hsets⟩ := newScope_ok h
  exact SymbolTable.Fresh.newScope hs hsets

theorem keeps_insert {e : Entry} (i : ScopeId) (name : String) (he : e.var? = none) :
    (Scoping.insert i name e).Keeps Fresh := by
  rintro ⟨t, c⟩ ⟨t', c'⟩ r w h hs
  obtain ⟨rfl, s, hscope, hsets⟩ := insert_ok h
  refine SymbolTable.Fresh.bind hs hscope hsets (Nat.le_refl _) fun v hv => ?_
  subst hv
  cases he

theorem keeps_declareVariable (i : ScopeId) (name : String) (ty : Ty) :
    (declareVariable i name ty).Keeps Fresh := by
  rintro ⟨t, c⟩ ⟨t', c'⟩ r w h hs
  obtain ⟨rfl, rfl, s, hscope, hsets⟩ := declareVariable_ok h
  refine SymbolTable.Fresh.bind hs hscope hsets (Nat.le_succ _) fun v hv => ?_
  cases hv
  exact ⟨Nat.le_refl _, Nat.lt_succ_self _⟩

theorem keeps_declareParameter (i : ScopeId) (name : String) (ty : Ty) :
    (declareParameter i name ty).Keeps Fresh := by
  refine (keeps_declareVariable i name ty).bind fun r => ?_
  rintro ⟨t, c⟩ ⟨t', c'⟩ r' w h hs
  obtain ⟨t₁, hadd, h₁⟩ := Journal.trap_bind_ok.1 (Journal.get_bind_ok.1 h)
  have h₂ := Journal.set_bind_ok.1 h₁
  obtain ⟨-, hstate, -⟩ := Journal.pure_ok.1 h₂
  obtain ⟨rfl, rfl⟩ := Scoping.mk.inj hstate
  obtain ⟨s, hscope, hsets⟩ := SymbolTable.addParameter_ok hadd
  have hold : ∀ j y, t'.bound? j y = t.bound? j y := by
    intro j y
    rw [hsets.bound?]
    split
    · subst j
      exact (SymbolTable.bound?_of_scope hscope y).symm
    · rfl
  exact ⟨fun hv => hs.below (hold _ _ ▸ hv), fun hv hv' => hs.apart (hold _ _ ▸ hv) (hold _ _ ▸ hv')⟩

theorem keeps_declareFunction (name : String) (returns : Ty) :
    (declareFunction name returns).Keeps Fresh :=
  (keeps_newScope _ name).bind fun _ => (keeps_insert _ name (by rfl)).bind fun _ => Journal.Keeps.pure _

theorem keeps_declareStruct (name : String) (fields : List (String × Ty)) :
    (declareStruct name fields).Keeps Fresh :=
  (keeps_newScope _ name).bind fun i => (keeps_insert _ name (by rfl)).bind fun _ =>
    (Journal.Keeps.forM fields fun f _ =>
      (keeps_declareVariable i f.1 f.2).bind fun _ => Journal.Keeps.pure _).bind fun _ =>
      Journal.Keeps.pure _

end Scoping

end Spillway
