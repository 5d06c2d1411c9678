import Spillway.Proofs.Program.Built

/-!
# Programs assembled in any order

A draft is *declared* if it was made by declarations, new nodes and appended statements in any order. A name
may be declared any number of times: the last declaration in a scope is the one that counts. The draft is
*assembled* if moreover no register was numbered again, so that the register of a declaration that was replaced
is not used again.

* `Draft.Declared.structsOpen` — every global struct of a declared program has a scope.
* `Draft.Assembled.fresh` — every register of a variable was drawn, and no two variables have the same.
* `Draft.Declared.wellScoped` — the scope of a function has the function's parameters and locals and nothing
  else.
-/

namespace Spillway

/-! ### Scopes of functions -/

namespace Scope

theorem mem_keys_bind {s : Scope} {x y : String} {e : Entry} :
    y ∈ (s.bind x e).entries.keys ↔ y ∈ s.entries.keys ∨ y = x := by
  show y ∈ (s.entries.insert x e).keys ↔ _
  rw [Dict.keys_insert]
  split
  · exact ⟨.inl, fun h => h.elim id fun hyx => hyx ▸ ‹_›⟩
  · rw [List.mem_append, List.mem_singleton]

/-- Binding variables adds their names. -/
theorem mem_keys_bindAll {s : Scope} {n : Nat} {vs : List (String × Ty)} {x : String} :
    x ∈ (s.bindAll n vs).entries.keys ↔ x ∈ s.entries.keys ∨ x ∈ vs.map Prod.fst := by
  induction vs generalizing s n with
  | nil => simp [bindAll]
  | cons v vs ih => rw [bindAll, ih, mem_keys_bind, List.map_cons, List.mem_cons, or_assoc]

/-- A scope lies right under the global one and holds variables: the parameters, and the given locals. -/
structure Holds (s : Scope) (locals : List String) : Prop where
  parent : s.parent = some SymbolTable.global
  keys : ∀ x, x ∈ s.entries.keys ↔ x ∈ s.parameterNames ++ locals
  vars : ∀ {x e}, s.entries.get? x = some e → ∃ v, e = .var v

/-- The scope of a new function holds its parameters. -/
theorem holds_bindParameters (x : String) (n : Nat) (ps : List (String × Ty)) :
    (({ name := x, parent := some SymbolTable.global } : Scope).bindParameters n ps).Holds [] := by
  constructor
  · exact parent_bindAll ..
  · intro y
    show y ∈ (bindAll _ n ps).entries.keys ↔ y ∈ ([] ++ ps.map Prod.fst) ++ []
    rw [mem_keys_bindAll, List.append_nil, List.nil_append]
    exact or_iff_right List.not_mem_nil
  · intro y e he
    obtain he | he := get?_bindAll he
    · cases he
    · exact he

/-- One more local. -/
theorem Holds.bind {s : Scope} {locals : List String} (h : s.Holds locals) (x : String)
    (v : Variable) : (s.bind x (.var v)).Holds (locals ++ [x]) := by
  constructor
  · exact h.parent
  · intro y
    rw [mem_keys_bind, h.keys, ← List.append_assoc, List.mem_append (t := [x]), List.mem_singleton]
    rfl
  · intro y e he
    rw [get?_bind] at he
    split at he
    · exact ⟨v, (Option.some.inj he).symm⟩
    · exact h.vars he

end Scope

/-- Every function of a program has a scope of its own, which holds its parameters and locals. -/
structure Program.Scoped (p : Program) : Prop where
  root : ∃ s, p.symbols.scopes.get? SymbolTable.global = some s ∧ s.parent = none
  scope : ∀ {k f}, p.functions.get? k = some f →
    ∃ s, p.symbols.scopes.get? f.scope = some s ∧ s.Holds f.locals
  apart : ∀ {k l f g}, p.functions.get? k = some f → p.functions.get? l = some g →
    f.scope = g.scope → k = l

theorem Program.InStep.wellScoped {p : Program} (h : p.InStep) : p.Scoped := by
  refine ⟨h.root, fun hf => ?_, h.apart⟩
  obtain ⟨s, hs, hparent, hkeys, hvars⟩ := h.scope hf
  exact ⟨s, hs, hparent, fun x => by rw [hkeys], hvars⟩

namespace Program.Scoped

variable {p : Program} {s : Scope} {t : SymbolTable} {x : String}

/-- The scope of a function is not the global one. -/
theorem scope_ne (h : p.Scoped) {k : FunctionId} {f : FunctionDecl}
    (hf : p.functions.get? k = some f) : f.scope ≠ SymbolTable.global := by
  obtain ⟨s, hs, hholds⟩ := h.scope hf
  obtain ⟨s', hs', hparent⟩ := h.root
  intro he
  rw [he, hs'] at hs
  cases hs
  have hcontra := hholds.parent
  rw [hparent] at hcontra
  cases hcontra

theorem declareGlobal {v : Variable} {globals : List String} (h : p.Scoped)
    (hs : p.symbols.scopes.get? SymbolTable.global = some s)
    (hsets : p.symbols.Sets SymbolTable.global (s.bind x (.var v)) t) :
    ({ p with globals, symbols := t } : Program).Scoped := by
  refine ⟨?_, fun hf => ?_, h.apart⟩
  · obtain ⟨s', hs', hparent⟩ := h.root
    rw [hs] at hs'
    cases hs'
    exact ⟨_, hsets.at, hparent⟩
  · obtain ⟨s', hs', hholds⟩ := h.scope hf
    exact ⟨s', (hsets.off (h.scope_ne hf)).trans hs', hholds⟩

/-- Opening a scope leaves the scopes of the functions as they are. -/
theorem opens {e : Entry} (h : p.Scoped) (hopens : p.symbols.Opens x e s t) :
    ({ p with symbols := t } : Program).Scoped := by
  refine ⟨?_, fun hf => ?_, h.apart⟩
  · obtain ⟨s', hs', hget⟩ := hopens.root
    obtain ⟨s'', hs'', hparent⟩ := h.root
    rw [hs'] at hs''
    cases hs''
    exact ⟨_, hget, hparent⟩
  · obtain ⟨s', hs', hholds⟩ := h.scope hf
    exact ⟨s', hopens.other hs' (h.scope_ne hf), hholds⟩

theorem declareFunction {e : Entry} (h : p.Scoped) (hopens : p.symbols.Opens x e s t)
    (hs : s.Holds []) :
    ({ p with
        functions := (p.functions.push { name := x, scope := p.symbols.scopes.size }).2,
        symbols := t } : Program).Scoped := by
  have hfunctions : ∀ {k f},
      (p.functions.push { name := x, scope := p.symbols.scopes.size }).2.get? k = some f →
      (k = p.functions.size ∧ f = { name := x, scope := p.symbols.scopes.size }) ∨
        p.functions.get? k = some f := by
    intro k f hf
    rw [Arena.get?_push] at hf
    split at hf
    · exact .inl ⟨‹_›, (Option.some.inj hf).symm⟩
    · exact .inr hf
  have hold : ∀ {k f}, p.functions.get? k = some f → f.scope ≠ p.symbols.scopes.size := by
    intro k f hf
    obtain ⟨s', hs', -⟩ := h.scope hf
    exact SymbolTable.ne_size_of_scope hs'
  refine ⟨(h.opens hopens).root, fun hf => ?_, fun hf hg he => ?_⟩
  · obtain ⟨-, rfl⟩ | hf := hfunctions hf
    · exact ⟨s, hopens.new, hs⟩
    · exact (h.opens hopens).scope hf
  · obtain ⟨rfl, rfl⟩ | hf := hfunctions hf <;> obtain ⟨rfl, rfl⟩ | hg := hfunctions hg
    · rfl
    · exact absurd he.symm (hold hg)
    · exact absurd he (hold hf)
    · exact h.apart hf hg he

theorem declareLocal {k : FunctionId} {f : FunctionDecl} {v : Variable} {fs : Arena FunctionDecl}
    (h : p.Scoped) (hf : p.functions.get? k = some f) (hs : p.symbols.scopes.get? f.scope = some s)
    (hsets : p.symbols.Sets f.scope (s.bind x (.var v)) t)
    (hfs : p.functions.update k (fun f => { f with locals := f.locals ++ [x] }) = .ok fs) :
    ({ p with functions := fs, symbols := t } : Program).Scoped := by
  refine ⟨?_, fun {l g} hg => ?_, fun {l m g g₂} hg hg₂ he => ?_⟩
  · obtain ⟨s', hs', hparent⟩ := h.root
    exact ⟨s', (hsets.off (h.scope_ne hf).symm).trans hs', hparent⟩
  · obtain ⟨g', hg', rfl⟩ := Arena.of_get?_update hfs hg
    obtain ⟨s', hs', hholds⟩ := h.scope hg'
    by_cases hl : l = k
    · subst l
      rw [hf] at hg'
      cases hg'
      rw [hs] at hs'
      cases hs'
      rw [if_pos rfl]
      exact ⟨_, hsets.at, hholds.bind x v⟩
    · have hscope : g'.scope ≠ f.scope := fun he => hl (h.apart hg' hf he)
      rw [if_neg hl]
      exact ⟨s', (hsets.off hscope).trans hs', hholds⟩
  · obtain ⟨g', hg', rfl⟩ := Arena.of_get?_update hfs hg
    obtain ⟨g₂', hg₂', rfl⟩ := Arena.of_get?_update hfs hg₂
    apply h.apart hg' hg₂'
    split at he <;> split at he <;> exact he

theorem pushStatement {k : FunctionId} {i : StmtId} {fs : Arena FunctionDecl} (h : p.Scoped)
    (hfs : p.functions.update k (fun f => { f with body := f.body ++ [i] }) = .ok fs) :
    ({ p with functions := fs } : Program).Scoped := by
  have hfunctions : ∀ {l g}, fs.get? l = some g → ∃ g', p.functions.get? l = some g' ∧
      g'.scope = g.scope ∧ g'.locals = g.locals := by
    intro l g hg
    obtain ⟨g', hg', rfl⟩ := Arena.of_get?_update hfs hg
    refine ⟨g', hg', ?_⟩
    split <;> exact ⟨rfl, rfl⟩
  refine ⟨h.root, fun hg => ?_, fun hg hg₂ he => ?_⟩
  · obtain ⟨g', hg', hscope, hlocals⟩ := hfunctions hg
    rw [← hscope, ← hlocals]
    exact h.scope hg'
  · obtain ⟨g', hg', hscope, -⟩ := hfunctions hg
    obtain ⟨g₂', hg₂', hscope₂, -⟩ := hfunctions hg₂
    exact h.apart hg' hg₂' (hscope.trans (he.trans hscope₂.symm))

end Program.Scoped

/-! ### Scopes of structs -/

namespace SymbolTable

/-- Every global struct has a scope. -/
def StructsOpen (t : SymbolTable) : Prop :=
  ∀ (x : String) (i : ScopeId), t.bound? global x = some (.struct i) → ∃ s, t.scopes.get? i = some s

variable {t t' : SymbolTable} {i : ScopeId} {s : Scope} {x : String}

/-- A variable is bound. -/
theorem StructsOpen.bind {v : Variable} (h : t.StructsOpen) (hs : t.scopes.get? i = some s)
    (hsets : t.Sets i (s.bind x (.var v)) t') : t'.StructsOpen := by
  intro y j hy
  replace hy := (hsets.bound?_bind hs _ y).symm.trans hy
  split at hy
  · cases hy
  · obtain ⟨s', hs'⟩ := h y j hy
    by_cases hj : j = i
    · exact ⟨_, hj ▸ hsets.at⟩
    · exact ⟨s', (hsets.off hj).trans hs'⟩

/-- A scope is opened for a struct or a function. -/
theorem StructsOpen.opens {e : Entry} (h : t.StructsOpen) (hopens : t.Opens x e s t')
    (he : ∀ j, e = .struct j → j = t.scopes.size) : t'.StructsOpen := by
  intro y j hy
  replace hy := (hopens.bound?_global y).symm.trans hy
  split at hy
  · rw [he j (Option.some.inj hy)]
    exact ⟨s, hopens.new⟩
  · obtain ⟨s', hs'⟩ := h y j hy
    by_cases hj : j = global
    · obtain ⟨_, -, hroot⟩ := hopens.root
      exact ⟨_, hj ▸ hroot⟩
    · exact ⟨s', hopens.other hs' hj⟩

end SymbolTable

/-! ### Declared drafts -/

namespace Draft

/-- **Scopes of functions.** In a declared program every function has a scope of its own, which holds
its parameters and locals. -/
theorem Declared.wellScoped {d : Draft} (h : d.Declared) : d.program.Scoped := by
  refine Grown.induct (P := fun d => d.program.Scoped) h (fun c => ?_) fun {d call d'} _ ih hadds _ => ?_
  · refine ⟨⟨_, rfl, rfl⟩, fun hf => ?_, fun hf => ?_⟩
    · cases hf
    · cases hf
  cases hadds with
  | elsewhere c => exact ih
  | addExpr node => exact ⟨ih.root, ih.scope, ih.apart⟩
  | addStmt node => exact ⟨ih.root, ih.scope, ih.apart⟩
  | declareGlobal hrun =>
    obtain ⟨s, t, hs, hsets, rfl⟩ := declareGlobal_ok hrun
    exact ih.declareGlobal hs hsets
  | declareStruct hrun =>
    obtain ⟨s, hroot, -⟩ := ih.root
    obtain ⟨t, hopens, rfl⟩ := declareStruct_ok hroot hrun
    exact ih.opens hopens
  | declareFunction hrun =>
    obtain ⟨s, hroot, -⟩ := ih.root
    obtain ⟨t, hopens, rfl⟩ := declareFunction_ok hroot hrun
    exact ih.declareFunction hopens (Scope.holds_bindParameters ..)
  | declareLocal hrun =>
    obtain ⟨f, s, t, fs, hf, hs, hsets, hfs, rfl⟩ := declareLocal_ok hrun
    exact ih.declareLocal hf hs hsets hfs
  | pushStatement hrun =>
    obtain ⟨fs, hfs, rfl⟩ := modifyFunction_ok hrun
    exact ih.pushStatement hfs

/-- **Scopes of structs.** In a declared program every global struct has a scope. -/
theorem Declared.structsOpen {d : Draft} (h : d.Declared) : d.program.symbols.StructsOpen := by
  refine Grown.induct (P := fun d => d.program.symbols.StructsOpen) h (fun c => ?_)
    fun {d call d'} hd ih hadds _ => ?_
  · intro x i hx
    cases hx
  cases hadds with
  | elsewhere c => exact ih
  | addExpr node => exact ih
  | addStmt node => exact ih
  | declareGlobal hrun =>
    obtain ⟨s, t, hs, hsets, rfl⟩ := declareGlobal_ok hrun
    exact ih.bind hs hsets
  | declareStruct hrun =>
    obtain ⟨s, hroot, -⟩ := (Declared.wellScoped hd).root
    obtain ⟨t, hopens, rfl⟩ := declareStruct_ok hroot hrun
    refine ih.opens hopens fun j hj => ?_
    cases hj
    rfl
  | declareFunction hrun =>
    obtain ⟨s, hroot, -⟩ := (Declared.wellScoped hd).root
    obtain ⟨t, hopens, rfl⟩ := declareFunction_ok hroot hrun
    refine ih.opens hopens fun j hj => ?_
    cases hj
  | declareLocal hrun =>
    obtain ⟨f, s, t, fs, hf, hs, hsets, hfs, rfl⟩ := declareLocal_ok hrun
    exact ih.bind hs hsets
  | pushStatement hrun =>
    obtain ⟨fs, hfs, rfl⟩ := modifyFunction_ok hrun
    exact ih

/-! ### Assembled drafts -/

variable {d : Draft}

/-- The same for an assembled draft. -/
theorem Assembled.wellScoped (h : d.Assembled) : d.program.Scoped := h.declared.wellScoped

/-- **Fresh registers.** Every register of a variable was drawn, and no two variables have the same. -/
theorem Assembled.fresh (h : d.Assembled) : d.Fresh := by
  refine h.induct (fun c => ?_) fun {d call d'} _ ih hadds hrule => ?_
  · have hnone : ∀ i x, SymbolTable.initial.bound? i x = none := by
      intro i x
      cases hs : SymbolTable.initial.scopes.get? i with
      | none => rw [SymbolTable.bound?, hs]; rfl
      | some s =>
        have hempty : s.entries = .empty := by
          obtain rfl := Array.mem_singleton.1 (Array.mem_of_getElem? hs)
          rfl
        rw [SymbolTable.bound?_of_scope hs, hempty, Dict.get?_empty]
    constructor
    · intro i x v hv
      rw [hnone] at hv
      cases hv
    · intro i j x y v v' hv
      rw [hnone] at hv
      cases hv
  cases hadds with
  | elsewhere c => exact ih.mono hrule
  | addExpr node => exact ih
  | addStmt node => exact ih
  | declareGlobal hrun => exact keeps_declareGlobal _ _ _ _ _ _ hrun ih
  | declareStruct hrun => exact keeps_declareStruct _ _ _ _ _ _ hrun ih
  | declareFunction hrun => exact keeps_declareFunction _ _ _ _ _ _ _ hrun ih
  | declareLocal hrun => exact keeps_declareLocal _ _ _ _ _ _ _ hrun ih
  | pushStatement hrun => exact keeps_modifyFunction _ _ _ _ _ _ hrun ih

/-- The same for a built draft, as long as no register is numbered again. -/
theorem Built.fresh (h : d.Built Onward) : d.Fresh := h.assembled.fresh

end Draft

end Spillway
