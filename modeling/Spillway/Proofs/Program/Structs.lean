import Spillway.Proofs.Program.Names

/-!
# The layout of structs

The fields of a struct are the names of a scope, which keeps them in the order in which they first came. A name that is
given twice keeps its place and gets the later type. Nothing is ever added to the scope of a struct after the struct was
declared, so its layout stays until the name of the struct is declared again.

* `Program.Structs` — what holds of the scopes of all structs; every declaration keeps it.
* `SymbolTable.LaysOut` — the layout that a list of fields gives to a struct.
* `Draft.Declared.laysOut` — the layout of a struct that was declared, then and later.
-/

namespace Spillway

/-! ### Scopes that stay as they are -/

/-- The scope of a struct is neither the global one nor that of a function, and is as required. -/
def Program.Structs (p : Program) (Q : String → Scope → Prop) : Prop :=
  ∀ (x : String) (i : ScopeId), p.symbols.bound? SymbolTable.global x = some (.struct i) →
    i ≠ SymbolTable.global ∧ (∀ {k f}, p.functions.get? k = some f → f.scope ≠ i) ∧
    ∃ s, p.symbols.scopes.get? i = some s ∧ Q x s

namespace Program.Structs

variable {p : Program} {Q R : String → Scope → Prop} {t : SymbolTable} {x : String} {s : Scope}

/-- A new global variable. -/
theorem declareGlobal {v : Variable} {globals : List String} (h : p.Structs Q)
    (hs : p.symbols.scopes.get? SymbolTable.global = some s)
    (hsets : p.symbols.Sets SymbolTable.global (s.bind x (.var v)) t) :
    ({ p with globals, symbols := t } : Program).Structs Q := by
  intro y i hy
  replace hy := (hsets.bound?_bind hs _ y).symm.trans hy
  split at hy
  · cases hy
  · obtain ⟨hne, hfunctions, s', hs', hQ⟩ := h y i hy
    exact ⟨hne, hfunctions, s', (hsets.off hne).trans hs', hQ⟩

/-- A new struct. What is required of the others may be weakened. -/
theorem declareStruct (h : p.Structs Q) (hp : p.Scoped) (hnew : R x s)
    (hopens : p.symbols.Opens x (.struct p.symbols.scopes.size) s t) (hothers : ∀ y s, y ≠ x → Q y s → R y s) :
    ({ p with symbols := t } : Program).Structs R := by
  intro y i hy
  replace hy := (hopens.bound?_global y).symm.trans hy
  split at hy
  · cases hy
    subst y
    obtain ⟨root, hroot, -⟩ := hopens.root
    refine ⟨(SymbolTable.ne_size_of_scope hroot).symm, fun hf => ?_, s, hopens.new, hnew⟩
    obtain ⟨s', hs', -⟩ := hp.scope hf
    exact SymbolTable.ne_size_of_scope hs'
  · obtain ⟨hne, hfunctions, s', hs', hQ⟩ := h y i hy
    exact ⟨hne, hfunctions, s', hopens.other hs' hne, hothers y s' ‹_› hQ⟩

/-- A new function. -/
theorem declareFunction {sig : Signature} (h : p.Structs Q) (hopens : p.symbols.Opens x (.function sig) s t) :
    ({ p with
        functions := (p.functions.push { name := x, scope := p.symbols.scopes.size }).2,
        symbols := t } : Program).Structs Q := by
  intro y i hy
  replace hy := (hopens.bound?_global y).symm.trans hy
  split at hy
  · cases hy
  · obtain ⟨hne, hfunctions, s', hs', hQ⟩ := h y i hy
    refine ⟨hne, fun {k f} hf => ?_, s', hopens.other hs' hne, hQ⟩
    replace hf := (Arena.get?_push ..).symm.trans hf
    split at hf
    · cases hf
      exact (SymbolTable.ne_size_of_scope hs').symm
    · exact hfunctions hf

/-- A function is changed, but not its scope. -/
theorem update {k : FunctionId} {change : FunctionDecl → FunctionDecl} {fs : Arena FunctionDecl}
    (h : p.Structs Q) (hfs : p.functions.update k change = .ok fs) (hscope : ∀ f, (change f).scope = f.scope) :
    ({ p with functions := fs } : Program).Structs Q := by
  intro y i hy
  obtain ⟨hne, hfunctions, hfields⟩ := h y i hy
  refine ⟨hne, fun {l g} hg => ?_, hfields⟩
  obtain ⟨g', hg', rfl⟩ := Arena.of_get?_update hfs hg
  split
  · rw [hscope]
    exact hfunctions hg'
  · exact hfunctions hg'

/-- A new variable of a function. -/
theorem bind {k : FunctionId} {f : FunctionDecl} {v : Variable} (h : p.Structs Q) (hp : p.Scoped)
    (hf : p.functions.get? k = some f) (hs : p.symbols.scopes.get? f.scope = some s)
    (hsets : p.symbols.Sets f.scope (s.bind x (.var v)) t) : ({ p with symbols := t } : Program).Structs Q := by
  intro y i hy
  have hne : SymbolTable.global ≠ f.scope := (hp.scope_ne hf).symm
  replace hy := (hsets.bound?_bind hs _ y).symm.trans hy
  rw [if_neg fun hc => hne hc.1] at hy
  obtain ⟨hne, hfunctions, s', hs', hQ⟩ := h y i hy
  exact ⟨hne, hfunctions, s', (hsets.off (hfunctions hf).symm).trans hs', hQ⟩

end Program.Structs

/-- In a declared program structs have scopes of their own. -/
theorem Draft.Declared.structs {d : Draft} (h : d.Declared) : d.program.Structs fun _ _ => True := by
  refine Grown.induct (P := fun d => d.program.Structs fun _ _ => True) h (fun c => ?_)
    fun {d call d'} hd ih hadds _ => ?_
  · intro x i hx
    cases hx
  have hscoped := Declared.wellScoped hd
  cases hadds with
  | elsewhere c => exact ih
  | addExpr node => exact ih
  | addStmt node => exact ih
  | declareGlobal hrun =>
    obtain ⟨s, t, hs, hsets, rfl⟩ := declareGlobal_ok hrun
    exact ih.declareGlobal hs hsets
  | declareStruct hrun =>
    obtain ⟨s, hroot, -⟩ := hscoped.root
    obtain ⟨t, hopens, rfl⟩ := declareStruct_ok hroot hrun
    exact ih.declareStruct hscoped trivial hopens fun _ _ _ h => h
  | declareFunction hrun =>
    obtain ⟨s, hroot, -⟩ := hscoped.root
    obtain ⟨t, hopens, rfl⟩ := declareFunction_ok hroot hrun
    exact ih.declareFunction hopens
  | declareLocal hrun =>
    obtain ⟨f, s, t, fs, hf, hs, hsets, hfs, rfl⟩ := declareLocal_ok hrun
    exact (ih.bind hscoped hf hs hsets).update hfs fun _ => rfl
  | pushStatement hrun =>
    obtain ⟨fs, hfs, rfl⟩ := modifyFunction_ok hrun
    exact ih.update hfs fun _ => rfl

/-! ### The scope of a struct -/

namespace Scope

/-- New names come after the ones that are there, each once and in the order in which they first came. -/
theorem keys_bindAll_eq (s : Scope) (n : Nat) (vs : List (String × Ty)) :
    (s.bindAll n vs).entries.keys = s.entries.keys ++ ((vs.map Prod.fst).removeAll s.entries.keys).eraseDups := by
  induction vs generalizing s n with
  | nil => simp [bindAll, List.removeAll]
  | cons v vs ih =>
    have hkeys : (s.bind v.1 (.var { ty := v.2, register := ⟨n⟩ })).entries.keys
        = if v.1 ∈ s.entries.keys then s.entries.keys else s.entries.keys ++ [v.1] := Dict.keys_insert ..
    rw [bindAll, ih, hkeys, List.map_cons, List.cons_removeAll]
    by_cases hv : v.1 ∈ s.entries.keys
    · rw [if_pos hv, if_neg (by simpa using hv)]
    · have hrest : (vs.map Prod.fst).removeAll (s.entries.keys ++ [v.1])
          = ((vs.map Prod.fst).removeAll s.entries.keys).filter fun y => !y == v.1 := by
        rw [List.removeAll, List.removeAll, List.filter_filter]
        apply List.filter_congr
        intro y _
        by_cases hy : y = v.1 <;> simp [hy]
      rw [if_neg hv, if_pos (by simpa using hv), List.eraseDups_cons, hrest, List.append_assoc]
      rfl

/-- A variable that was bound several times has the last of its types. -/
theorem ty?_bindAll (s : Scope) (n : Nat) (vs : List (String × Ty)) (x : String) :
    ((s.bindAll n vs).entries.get? x).bind Entry.ty? =
      (vs.reverse.lookup x).or ((s.entries.get? x).bind Entry.ty?) := by
  induction vs generalizing s n with
  | nil => rfl
  | cons v vs ih =>
    obtain ⟨name, ty⟩ := v
    rw [bindAll, ih, get?_bind, List.reverse_cons, List.lookup_append, Option.or_assoc]
    congr 1
    by_cases hx : x = name
    · simp [hx, Entry.ty?, Entry.var?]
    · simp [hx, List.lookup_cons, beq_eq_false_iff_ne.2 hx]

/-- What was bound is a variable, and it has the last of the types that were given for its name. -/
theorem var_of_mem (name : String) (parent : Option ScopeId) (n : Nat) {vs : List (String × Ty)} {x : String}
    (hx : x ∈ vs.map Prod.fst) :
    ∃ v, (({ name, parent } : Scope).bindAll n vs).entries.get? x = some (.var v) ∧
      vs.reverse.lookup x = some v.ty := by
  have hkey : x ∈ (({ name, parent } : Scope).bindAll n vs).entries.keys := mem_keys_bindAll.2 (.inr hx)
  obtain ⟨e, he⟩ := Option.ne_none_iff_exists'.1 fun hnone => (Dict.get?_eq_none_iff _ _).1 hnone hkey
  obtain hempty | ⟨v, rfl⟩ := get?_bindAll he
  · cases hempty
  · have hty := ty?_bindAll { name, parent } n vs x
    rw [he] at hty
    exact ⟨v, he, by simpa [Entry.ty?, Entry.var?] using hty.symm⟩

end Scope

/-! ### Layouts -/

/-- The fields of a struct in a table: there is one for each name of the list, the names come in the order in which
they first stand in it, and each has the last of the types that stand there with it. -/
structure SymbolTable.LaysOut (t : SymbolTable) (struct : String) (fields : List (String × Ty)) : Prop where
  count : t.fieldCount struct = .ok (some (fields.map Prod.fst).eraseDups.length)
  absent : ∀ x ∉ fields.map Prod.fst, t.field struct x = .ok none
  present : ∀ x ∈ fields.map Prod.fst, ∃ k v, t.field struct x = .ok (some (k, .var v)) ∧
    (fields.map Prod.fst).eraseDups.idxOf? x = some k ∧ fields.reverse.lookup x = some v.ty
  /-- Every place is below the number of fields. -/
  inside : ∀ x k e, t.field struct x = .ok (some (k, e)) → k < (fields.map Prod.fst).eraseDups.length
  /-- Every place is that of one field. -/
  unique : ∀ k < (fields.map Prod.fst).eraseDups.length, ∃! x, ∃ e, t.field struct x = .ok (some (k, e))

/-- The place of a field is where its name stands among the names of the scope. -/
theorem SymbolTable.getElem?_keys_of_field {t : SymbolTable} {struct x : String} {i : ScopeId} {s : Scope} {k : Nat}
    {e : Entry} (hi : t.bound? global struct = some (.struct i)) (hs : t.scopes.get? i = some s)
    (h : t.field struct x = .ok (some (k, e))) : s.entries.keys[k]? = some x := by
  obtain ⟨i', s', hi', hs', hplace, -⟩ := field_ok h
  obtain rfl := Entry.struct.inj (Option.some.inj (hi'.symm.trans hi))
  obtain rfl := Option.some.inj (hs'.symm.trans hs)
  rw [Dict.position?_eq] at hplace
  obtain ⟨hlt, hget, -⟩ := List.idxOf?_eq_some_iff.1 hplace
  exact List.getElem?_eq_some_iff.2 ⟨hlt, by simpa using hget⟩

/-- The layout of a struct whose scope has these fields and no other names. -/
theorem SymbolTable.laysOut_of_scope {t : SymbolTable} {struct name : String} {i : ScopeId} {s : Scope}
    {parent : Option ScopeId} {n : Nat} {fields : List (String × Ty)}
    (hi : t.bound? global struct = some (.struct i)) (hs : t.scopes.get? i = some s)
    (hentries : s.entries = (({ name, parent } : Scope).bindAll n fields).entries) : t.LaysOut struct fields := by
  have hkeys : s.entries.keys = (fields.map Prod.fst).eraseDups := by
    rw [hentries, Scope.keys_bindAll_eq]
    simp [List.removeAll]
  have hmem : ∀ x, x ∈ s.entries.keys ↔ x ∈ fields.map Prod.fst := fun x => by rw [hkeys, List.mem_eraseDups]
  have hpresent : ∀ x ∈ fields.map Prod.fst, ∃ k v, t.field struct x = .ok (some (k, .var v)) ∧
      (fields.map Prod.fst).eraseDups.idxOf? x = some k ∧ fields.reverse.lookup x = some v.ty := by
    intro x hx
    obtain ⟨k, hk⟩ := Option.isSome_iff_exists.1 (List.isSome_idxOf?.2 ((hmem x).2 hx))
    obtain ⟨v, hv, hty⟩ := Scope.var_of_mem name parent n hx
    rw [← hentries] at hv
    exact ⟨k, v, field_eq hi hs ((Dict.position?_eq ..).trans hk) hv, hkeys ▸ hk, hty⟩
  have hfound : ∀ {x k e}, t.field struct x = .ok (some (k, e)) → s.entries.keys[k]? = some x :=
    getElem?_keys_of_field hi hs
  constructor
  · rw [← hkeys, fieldCount_eq hi hs, Dict.size_eq]
  · intro x hx
    exact field_eq_none hi hs fun hmem' => hx ((hmem x).1 hmem')
  · exact hpresent
  · intro x k e hfield
    rw [← hkeys]
    exact (List.getElem?_eq_some_iff.1 (hfound hfield)).1
  · intro k hk
    rw [← hkeys] at hk
    have hget : s.entries.keys[k]? = some s.entries.keys[k] := List.getElem?_eq_getElem hk
    obtain ⟨k', v, hfield, -⟩ := hpresent _ ((hmem _).1 (List.getElem_mem hk))
    obtain rfl : k' = k := by
      have hlt := (List.getElem?_eq_some_iff.1 (hfound hfield)).1
      exact (List.getElem?_inj hlt s.entries.nodup).1 ((hfound hfield).trans hget.symm)
    refine ⟨_, ⟨_, hfield⟩, fun y hy => ?_⟩
    obtain ⟨e, hy⟩ := hy
    exact Option.some.inj ((hfound hy).symm.trans hget)

/-! ### Later declarations -/

namespace Draft

variable {start d : Draft} {struct : String}

/-- The struct stays, and so does its scope. -/
theorem DeclaredSince.keeps {Q : Scope → Prop} (h : start.DeclaredSince struct d) (hstart : start.Declared)
    (hbound : ∃ i, start.program.symbols.bound? SymbolTable.global struct = some (.struct i))
    (hQ : start.program.Structs fun x s => x = struct → Q s) :
    (∃ i, d.program.symbols.bound? SymbolTable.global struct = some (.struct i)) ∧
      d.program.Structs fun x s => x = struct → Q s := by
  obtain ⟨calls, h⟩ := h
  induction h with
  | nil => exact ⟨hbound, hQ⟩
  | add hgrows hadds hspares ih =>
    obtain ⟨⟨i, hi⟩, hstructs⟩ := ih
    have hscoped := (DeclaredSince.declared ⟨_, hgrows⟩ hstart).wellScoped
    cases hadds with
    | elsewhere c => exact ⟨⟨i, hi⟩, hstructs⟩
    | addExpr node => exact ⟨⟨i, hi⟩, hstructs⟩
    | addStmt node => exact ⟨⟨i, hi⟩, hstructs⟩
    | declareGlobal hrun =>
      obtain ⟨s, t, hs, hsets, rfl⟩ := declareGlobal_ok hrun
      refine ⟨⟨i, (hsets.bound?_bind hs _ struct).trans ?_⟩, hstructs.declareGlobal hs hsets⟩
      rw [if_neg fun hc => hspares hc.2.symm, hi]
    | declareStruct hrun =>
      obtain ⟨s, hroot, -⟩ := hscoped.root
      obtain ⟨t, hopens, rfl⟩ := declareStruct_ok hroot hrun
      refine ⟨⟨i, (hopens.bound?_global struct).trans ?_⟩, ?_⟩
      · rw [if_neg (Ne.symm hspares), hi]
      · exact hstructs.declareStruct hscoped (fun heq => absurd heq hspares) hopens fun _ _ _ h => h
    | declareFunction hrun =>
      obtain ⟨s, hroot, -⟩ := hscoped.root
      obtain ⟨t, hopens, rfl⟩ := declareFunction_ok hroot hrun
      refine ⟨⟨i, (hopens.bound?_global struct).trans ?_⟩, hstructs.declareFunction hopens⟩
      rw [if_neg (Ne.symm hspares), hi]
    | declareLocal hrun =>
      obtain ⟨f, s, t, fs, hf, hs, hsets, hfs, rfl⟩ := declareLocal_ok hrun
      refine ⟨⟨i, (hsets.bound?_bind hs _ struct).trans ?_⟩,
        (hstructs.bind hscoped hf hs hsets).update hfs fun _ => rfl⟩
      rw [if_neg fun hc => (hscoped.scope_ne hf) hc.1.symm, hi]
    | pushStatement hrun =>
      obtain ⟨fs, hfs, rfl⟩ := modifyFunction_ok hrun
      exact ⟨⟨i, hi⟩, hstructs.update hfs fun _ => rfl⟩

/-- **Layouts.** A struct can be declared with any list of fields. It then has the layout of the list, and keeps it
until its name is declared again. -/
theorem Declared.laysOut (h : d.Declared) (struct : String) (fields : List (String × Ty)) :
    ∃ d₁ w, (Draft.declareStruct struct fields).run d = ⟨.ok (), d₁, w⟩ ∧
      ∀ d₂, d₁.DeclaredSince struct d₂ → d₂.program.symbols.LaysOut struct fields := by
  obtain ⟨s, hroot, -⟩ := h.wellScoped.root
  obtain ⟨d₁, w, hrun⟩ := declareStruct_succeeds hroot struct fields
  refine ⟨d₁, w, hrun, fun d₂ hsince => ?_⟩
  have hd₁ : d₁.Declared := h.add (.declareStruct hrun) trivial
  obtain ⟨t, hopens, rfl⟩ := declareStruct_ok hroot hrun
  have hbound : t.bound? SymbolTable.global struct = some (.struct d.program.symbols.scopes.size) := by
    rw [hopens.bound?_global, if_pos rfl]
  have hstructs := h.structs.declareStruct (R := fun x s => x = struct → s.entries =
    (({ name := struct, parent := some SymbolTable.global } : Scope).bindAll d.counters.registers fields).entries)
    h.wellScoped (fun _ => rfl) hopens fun y _ hne _ heq => absurd heq hne
  obtain ⟨⟨i, hi⟩, hkept⟩ := hsince.keeps hd₁ ⟨_, hbound⟩ hstructs
  obtain ⟨-, -, s', hs', hentries⟩ := hkept struct i hi
  exact SymbolTable.laysOut_of_scope hi hs' (hentries rfl)

end Draft

end Spillway
