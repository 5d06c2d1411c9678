import Spillway.Proofs.Program.Growth

/-!
# Programs that were built

What each declaration does to a draft, and what a draft keeps in step while it is built.

* `Draft.Built.inStep` — the functions and the symbol table of a built program are in step.
* `Draft.Fresh` — every register of a variable was drawn, and no two variables have the same; every
  declaration keeps this.
-/

namespace Spillway

open SymbolTable (Sets)

/-! ### Arenas with one item changed -/

theorem Arena.get?_update_some {α : Type} {a b : Arena α} {i j : Nat} {f : α → α} {x : α}
    (h : a.update i f = .ok b) (hx : a.get? j = some x) :
    b.get? j = some (if j = i then f x else x) := by
  rw [get?_update h, hx]
  split <;> rfl

theorem Arena.of_get?_update {α : Type} {a b : Arena α} {i j : Nat} {f : α → α} {y : α}
    (h : a.update i f = .ok b) (hy : b.get? j = some y) :
    ∃ x, a.get? j = some x ∧ y = if j = i then f x else x := by
  cases hx : a.get? j with
  | none =>
    rw [get?_update h, hx] at hy
    split at hy <;> cases hy
  | some x =>
    rw [get?_update_some h hx] at hy
    exact ⟨x, rfl, (Option.some.inj hy).symm⟩

/-! ### Tables with one more scope -/

namespace SymbolTable

/-- The second table is the first with one more scope, and with a name bound to it in the global one. -/
def Opens (t : SymbolTable) (x : String) (e : Entry) (s' : Scope) (t' : SymbolTable) : Prop :=
  ∃ s, t.scopes.get? global = some s ∧ ∀ j, t'.scopes.get? j =
    if j = t.scopes.size then some s' else if j = global then some (s.bind x e) else t.scopes.get? j

variable {t t₁ t₂ t' : SymbolTable} {x : String} {e : Entry} {s s₁ s' : Scope}

/-- A scope is opened empty, named, and then filled. -/
theorem opens_of_sets (hroot : t.scopes.get? global = some s)
    (hnew : t.Sets t.scopes.size s₁ t₁) (hname : t₁.Sets global (s.bind x e) t₂)
    (hfill : t₂.Sets t.scopes.size s' t') : t.Opens x e s' t' := by
  refine ⟨s, hroot, fun j => ?_⟩
  have hne : global ≠ t.scopes.size := ne_size_of_scope hroot
  rw [hfill j]
  split
  · rfl
  · rw [hname j]
    split
    · rfl
    · exact hnew.off ‹_›

theorem Opens.new (h : t.Opens x e s' t') : t'.scopes.get? t.scopes.size = some s' := by
  obtain ⟨s, -, hget⟩ := h
  rw [hget, if_pos rfl]

theorem Opens.root (h : t.Opens x e s' t') :
    ∃ s, t.scopes.get? global = some s ∧ t'.scopes.get? global = some (s.bind x e) := by
  obtain ⟨s, hs, hget⟩ := h
  refine ⟨s, hs, ?_⟩
  rw [hget, if_neg (ne_size_of_scope hs), if_pos rfl]

theorem Opens.other {j : ScopeId} {s₂ : Scope} (h : t.Opens x e s' t')
    (hj : t.scopes.get? j = some s₂) (hne : j ≠ global) : t'.scopes.get? j = some s₂ := by
  obtain ⟨s, -, hget⟩ := h
  rw [hget, if_neg (ne_size_of_scope hj), if_neg hne, hj]

theorem Opens.bound?_global (h : t.Opens x e s' t') (y : String) :
    t'.bound? global y = if y = x then some e else t.bound? global y := by
  obtain ⟨s, hs, hs'⟩ := h.root
  rw [bound?_of_scope hs', bound?_of_scope hs, Scope.get?_bind]

end SymbolTable

/-! ### What each declaration does to a draft -/

namespace Draft

variable {d d' : Draft} {w : List Scoping.Notice}

theorem declare_ok {α : Type} {m : Scoping.Declare α} {a : α}
    (h : (declare m).run d = ⟨.ok a, d', w⟩) :
    ∃ t c, m.run ⟨d.program.symbols, d.counters⟩ = ⟨.ok a, ⟨t, c⟩, w⟩ ∧
      d' = ⟨{ d.program with symbols := t }, c⟩ := by
  rw [declare, Journal.zoom_run, Run.mk.injEq] at h
  obtain ⟨hresult, rfl, rfl⟩ := h
  exact ⟨_, _, Run.ext hresult rfl rfl, rfl⟩

theorem declare_succeeds {α : Type} {m : Scoping.Declare α}
    (h : ∃ a u w, m.run ⟨d.program.symbols, d.counters⟩ = ⟨.ok a, u, w⟩) :
    ∃ a d' w, (declare m).run d = ⟨.ok a, d', w⟩ := by
  obtain ⟨a, u, w, hrun⟩ := h
  refine ⟨a, d.withScoping u, w, ?_⟩
  rw [declare, Journal.zoom_run, scoping, hrun]

theorem modifyProgram_ok {f : Program → Program} {u : Unit}
    (h : (modifyProgram f).run d = ⟨.ok u, d', w⟩) : d' = ⟨f d.program, d.counters⟩ := by
  cases h
  rfl

theorem modifyFunction_ok {k : FunctionId} {change : FunctionDecl → FunctionDecl} {u : Unit}
    (h : (modifyFunction k change).run d = ⟨.ok u, d', w⟩) :
    ∃ fs, d.program.functions.update k change = .ok fs ∧
      d' = ⟨{ d.program with functions := fs }, d.counters⟩ := by
  obtain ⟨fs, hfs, h₁⟩ := Journal.trap_bind_ok.1 (Journal.get_bind_ok.1 h)
  exact ⟨fs, hfs, modifyProgram_ok h₁⟩

theorem declareGlobal_ok {x : String} {ty : Ty} {r : VReg}
    (h : (declareGlobal x ty).run d = ⟨.ok r, d', w⟩) :
    ∃ s t, d.program.symbols.scopes.get? SymbolTable.global = some s ∧
      d.program.symbols.Sets SymbolTable.global
        (s.bind x (.var { ty, register := ⟨d.counters.registers⟩ })) t ∧
      d' = ⟨{ d.program with globals := d.program.globals ++ [x], symbols := t },
        ⟨d.counters.registers + 1, d.counters.labels⟩⟩ := by
  obtain ⟨r', d₁, _, _, hdeclare, h₁, -⟩ := Journal.bind_eq_ok_iff.1 h
  obtain ⟨t, c, hvar, rfl⟩ := declare_ok hdeclare
  obtain ⟨-, rfl, s, hs, hsets⟩ := Scoping.declareVariable_ok hvar
  obtain ⟨_, d₂, _, _, hglobals, hpure, -⟩ := Journal.bind_eq_ok_iff.1 h₁
  obtain ⟨-, rfl, -⟩ := Journal.pure_ok.1 hpure
  exact ⟨s, t, hs, hsets, modifyProgram_ok hglobals⟩

/-- The declaration of a struct or a function, before its variables are declared. -/
theorem opens_of_declare {t t₁ : SymbolTable} {c c₁ : Counters} {x : String} {e : ScopeId → Entry}
    {s : Scope} {i : ScopeId} (hroot : t.scopes.get? SymbolTable.global = some s)
    (h : (do
      let scope ← Scoping.newScope (some SymbolTable.global) x
      let _ ← Scoping.insert SymbolTable.global x (e scope)
      return scope : Scoping.Declare ScopeId).run ⟨t, c⟩ = ⟨.ok i, ⟨t₁, c₁⟩, w⟩) :
    i = t.scopes.size ∧ c₁ = c ∧
      t₁.scopes.get? i = some { name := x, parent := some SymbolTable.global } ∧
      ∀ s' t', t₁.Sets i s' t' → t.Opens x (e i) s' t' := by
  obtain ⟨i', ⟨t₂, c₂⟩, _, _, hnew, h₁, -⟩ := Journal.bind_eq_ok_iff.1 h
  obtain ⟨rfl, rfl, hsets⟩ := Scoping.newScope_ok hnew
  obtain ⟨_, ⟨t₃, c₃⟩, _, _, hinsert, hpure, -⟩ := Journal.bind_eq_ok_iff.1 h₁
  obtain ⟨rfl, hstate, -⟩ := Journal.pure_ok.1 hpure
  obtain ⟨rfl, rfl⟩ := Scoping.mk.inj hstate
  obtain ⟨rfl, s₂, hs₂, hsets'⟩ := Scoping.insert_ok hinsert
  have hne : SymbolTable.global ≠ t.scopes.size := SymbolTable.ne_size_of_scope hroot
  rw [hsets.off hne, hroot] at hs₂
  cases hs₂
  refine ⟨rfl, rfl, ?_, fun s' t' hfill => SymbolTable.opens_of_sets hroot hsets hsets' hfill⟩
  rw [hsets'.off hne.symm, hsets.at]

theorem declareStruct_ok {x : String} {fields : List (String × Ty)} {s : Scope} {u : Unit}
    (hroot : d.program.symbols.scopes.get? SymbolTable.global = some s)
    (h : (declareStruct x fields).run d = ⟨.ok u, d', w⟩) :
    ∃ t, d.program.symbols.Opens x (.struct d.program.symbols.scopes.size)
        (({ name := x, parent := some SymbolTable.global } : Scope).bindAll d.counters.registers
          fields) t ∧
      d' = ⟨{ d.program with symbols := t },
        ⟨d.counters.registers + fields.length, d.counters.labels⟩⟩ := by
  obtain ⟨_, d₁, _, _, hdeclare, hpure, -⟩ := Journal.bind_eq_ok_iff.1 h
  obtain ⟨-, rfl, -⟩ := Journal.pure_ok.1 hpure
  obtain ⟨t, c, hstruct, rfl⟩ := declare_ok hdeclare
  have hsplit : Scoping.declareStruct x fields = (do
      let scope ← (do
        let scope ← Scoping.newScope (some SymbolTable.global) x
        let _ ← Scoping.insert SymbolTable.global x (.struct scope)
        return scope)
      fields.forM fun f => do let _ ← Scoping.declareVariable scope f.1 f.2
      return scope) := by
    simp only [Scoping.declareStruct, bind_assoc, pure_bind]
  rw [hsplit] at hstruct
  obtain ⟨i, ⟨t₁, c₁⟩, _, _, hopen, h₁, -⟩ := Journal.bind_eq_ok_iff.1 hstruct
  obtain ⟨rfl, rfl, hs, hopens⟩ := opens_of_declare (e := .struct) hroot hopen
  obtain ⟨_, ⟨t₂, c₂⟩, _, _, hfields, hpure, -⟩ := Journal.bind_eq_ok_iff.1 h₁
  obtain ⟨-, hstate, -⟩ := Journal.pure_ok.1 hpure
  obtain ⟨rfl, rfl⟩ := Scoping.mk.inj hstate
  obtain ⟨rfl, hsets⟩ := Scoping.declareVariables_ok hs hfields
  exact ⟨t, hopens _ _ hsets, rfl⟩

theorem declareStruct_succeeds {s : Scope} (hroot : d.program.symbols.scopes.get? SymbolTable.global = some s)
    (x : String) (fields : List (String × Ty)) :
    ∃ d' w, (declareStruct x fields).run d = ⟨.ok (), d', w⟩ := by
  obtain ⟨i, d', w, hdeclare⟩ := declare_succeeds (Scoping.declareStruct_succeeds hroot x fields)
  exact ⟨d', _, Journal.bind_eq_ok_iff.2 ⟨_, _, _, _, hdeclare, rfl, rfl⟩⟩

/-- Declaring parameters one after the other binds them all. -/
theorem declareParameters_ok {i : ScopeId} {ps : List (String × Ty)} {s : Scope} {u : PUnit}
    (hs : d.program.symbols.scopes.get? i = some s)
    (h : (ps.forM fun p => do let _ ← declare (Scoping.declareParameter i p.1 p.2)).run d
      = ⟨.ok u, d', w⟩) :
    ∃ t, d.program.symbols.Sets i (s.bindParameters d.counters.registers ps) t ∧
      d' = ⟨{ d.program with symbols := t },
        ⟨d.counters.registers + ps.length, d.counters.labels⟩⟩ := by
  induction ps generalizing d w s with
  | nil =>
    obtain ⟨-, rfl, -⟩ := Journal.pure_ok.1 h
    refine ⟨_, fun j => ?_, rfl⟩
    split
    · subst j
      rw [hs, Scope.bindParameters, List.map_nil, List.map_nil, List.append_nil, List.append_nil]
      rfl
    · rfl
  | cons p ps ih =>
    obtain ⟨_, d₁, _, _, hfirst, hrest, -⟩ := Journal.bind_eq_ok_iff.1 h
    obtain ⟨_, _, _, _, hdeclare, hpure, -⟩ := Journal.bind_eq_ok_iff.1 hfirst
    obtain ⟨-, rfl, -⟩ := Journal.pure_ok.1 hpure
    obtain ⟨t₁, c₁, hparameter, rfl⟩ := declare_ok hdeclare
    obtain ⟨rfl, s', hs', hsets⟩ := Scoping.declareParameter_ok hparameter
    rw [hs] at hs'
    cases hs'
    obtain ⟨t, hsets', rfl⟩ := ih hsets.at hrest
    refine ⟨t, ?_, ?_⟩
    · rw [← Scope.bindParameters_cons]
      exact hsets.again hsets'
    · simp only [List.length_cons, Nat.add_assoc, Nat.add_comm 1]

theorem declareFunction_ok {x : String} {ps : List (String × Ty)} {returns : Ty} {s : Scope}
    {k : FunctionId} (hroot : d.program.symbols.scopes.get? SymbolTable.global = some s)
    (h : (declareFunction x ps returns).run d = ⟨.ok k, d', w⟩) :
    ∃ t, d.program.symbols.Opens x (.function { returns, scope := d.program.symbols.scopes.size })
        (({ name := x, parent := some SymbolTable.global } : Scope).bindParameters
          d.counters.registers ps) t ∧
      d' = ⟨{ d.program with
          functions := (d.program.functions.push
            { name := x, scope := d.program.symbols.scopes.size }).2,
          symbols := t },
        ⟨d.counters.registers + ps.length, d.counters.labels⟩⟩ := by
  obtain ⟨i, d₁, _, _, hdeclare, h₁, -⟩ := Journal.bind_eq_ok_iff.1 h
  obtain ⟨t₁, c₁, hopen, rfl⟩ := declare_ok hdeclare
  obtain ⟨rfl, rfl, hs, hopens⟩ :=
    opens_of_declare (e := fun i => .function { returns, scope := i }) hroot hopen
  obtain ⟨_, d₂, _, _, hps, h₂, -⟩ := Journal.bind_eq_ok_iff.1 h₁
  obtain ⟨t, hsets, rfl⟩ := declareParameters_ok hs hps
  have h₃ := Journal.get_bind_ok.1 h₂
  obtain ⟨_, d₃, _, _, hpush, hpure, -⟩ := Journal.bind_eq_ok_iff.1 h₃
  obtain ⟨-, rfl, -⟩ := Journal.pure_ok.1 hpure
  exact ⟨t, hopens _ _ hsets, modifyProgram_ok hpush⟩

theorem declareLocal_ok {k : FunctionId} {x : String} {ty : Ty} {r : VReg}
    (h : (declareLocal k x ty).run d = ⟨.ok r, d', w⟩) :
    ∃ f s t fs, d.program.functions.get? k = some f ∧
      d.program.symbols.scopes.get? f.scope = some s ∧
      d.program.symbols.Sets f.scope
        (s.bind x (.var { ty, register := ⟨d.counters.registers⟩ })) t ∧
      d.program.functions.update k (fun f => { f with locals := f.locals ++ [x] }) = .ok fs ∧
      d' = ⟨{ d.program with functions := fs, symbols := t },
        ⟨d.counters.registers + 1, d.counters.labels⟩⟩ := by
  obtain ⟨f, hf, h₁⟩ := Journal.trap_bind_ok.1 (Journal.get_bind_ok.1 h)
  obtain ⟨_, d₁, _, _, hdeclare, h₂, -⟩ := Journal.bind_eq_ok_iff.1 h₁
  obtain ⟨t, c, hvar, rfl⟩ := declare_ok hdeclare
  obtain ⟨-, rfl, s, hs, hsets⟩ := Scoping.declareVariable_ok hvar
  obtain ⟨_, d₂, _, _, hmodify, hpure, -⟩ := Journal.bind_eq_ok_iff.1 h₂
  obtain ⟨-, rfl, -⟩ := Journal.pure_ok.1 hpure
  obtain ⟨fs, hfs, rfl⟩ := modifyFunction_ok hmodify
  have hget : d.program.functions.get? k = some f := by
    rw [Arena.index] at hf
    split at hf
    · cases hf
      assumption
    · cases hf
  exact ⟨f, s, t, fs, hget, hs, hsets, hfs, rfl⟩

end Draft

/-! ### Functions and symbols in step -/

/-- The functions of a program and its symbol table agree. -/
structure Program.InStep (p : Program) : Prop where
  root : ∃ s, p.symbols.scopes.get? SymbolTable.global = some s ∧ s.parent = none
  /-- The scope of a function lies under the global one and has its parameters and then its locals. -/
  scope : ∀ {k f}, p.functions.get? k = some f → ∃ s, p.symbols.scopes.get? f.scope = some s ∧
    s.parent = some SymbolTable.global ∧
    s.entries.keys = s.parameterNames ++ f.locals ∧
    ∀ {x e}, s.entries.get? x = some e → ∃ v, e = .var v
  bound : ∀ {k f}, p.functions.get? k = some f →
    ∃ returns, p.symbols.bound? SymbolTable.global f.name = some (.function { returns, scope := f.scope })
  declared : ∀ {x sig}, p.symbols.bound? SymbolTable.global x = some (.function sig) →
    ∃ k f, p.functions.get? k = some f ∧ f.name = x ∧ f.scope = sig.scope
  apart : ∀ {k l f g}, p.functions.get? k = some f → p.functions.get? l = some g →
    f.scope = g.scope → k = l

namespace Program.InStep

variable {p : Program}

/-- The scope of a function is not the global one. -/
theorem scope_ne (h : p.InStep) {k : FunctionId} {f : FunctionDecl}
    (hf : p.functions.get? k = some f) : f.scope ≠ SymbolTable.global := by
  obtain ⟨s, hs, hparent, -⟩ := h.scope hf
  obtain ⟨s', hs', hparent'⟩ := h.root
  intro he
  rw [he, hs'] at hs
  cases hs
  rw [hparent'] at hparent
  cases hparent

/-- A name that is not bound is not that of a function. -/
theorem name_ne (h : p.InStep) {k : FunctionId} {f : FunctionDecl} {x : String}
    (hf : p.functions.get? k = some f) (hnew : p.symbols.bound? SymbolTable.global x = none) :
    f.name ≠ x := by
  obtain ⟨returns, hr⟩ := h.bound hf
  intro he
  rw [he, hnew] at hr
  cases hr

/-- Only the functions and the symbol table count. -/
theorem congr {q : Program} (h : p.InStep) (hfunctions : q.functions = p.functions)
    (hsymbols : q.symbols = p.symbols) : q.InStep := by
  constructor
  · rw [hsymbols]; exact h.root
  · rw [hfunctions, hsymbols]; exact h.scope
  · rw [hfunctions, hsymbols]; exact h.bound
  · rw [hfunctions, hsymbols]; exact h.declared
  · rw [hfunctions]; exact h.apart

/-- A new global variable. -/
theorem declareGlobal {s : Scope} {t : SymbolTable} {x : String} {v : Variable}
    {globals : List String} (h : p.InStep) (hnew : p.symbols.bound? SymbolTable.global x = none)
    (hs : p.symbols.scopes.get? SymbolTable.global = some s)
    (hsets : p.symbols.Sets SymbolTable.global (s.bind x (.var v)) t) :
    ({ p with globals, symbols := t } : Program).InStep := by
  have hbound : ∀ y, t.bound? SymbolTable.global y
      = if y = x then some (.var v) else p.symbols.bound? SymbolTable.global y := by
    intro y
    rw [hsets.bound?_bind hs]
    simp only [true_and]
  constructor
  · obtain ⟨s', hs', hparent⟩ := h.root
    rw [hs] at hs'
    cases hs'
    exact ⟨_, hsets.at, hparent⟩
  · intro k f hf
    obtain ⟨s', hs', hrest⟩ := h.scope hf
    exact ⟨s', (hsets.off (h.scope_ne hf)).trans hs', hrest⟩
  · intro k f hf
    obtain ⟨returns, hr⟩ := h.bound hf
    refine ⟨returns, ?_⟩
    show t.bound? _ _ = _
    rw [hbound, if_neg (h.name_ne hf hnew), hr]
  · intro y sig hy
    replace hy : t.bound? _ _ = _ := hy
    rw [hbound] at hy
    split at hy
    · cases hy
    · exact h.declared hy
  · exact h.apart

/-- A new struct. -/
theorem declareStruct {t : SymbolTable} {x : String} {i : ScopeId} {s : Scope} (h : p.InStep)
    (hnew : p.symbols.bound? SymbolTable.global x = none)
    (hopens : p.symbols.Opens x (.struct i) s t) : ({ p with symbols := t } : Program).InStep := by
  constructor
  · obtain ⟨s', hs', hget⟩ := hopens.root
    obtain ⟨s'', hs'', hparent⟩ := h.root
    rw [hs'] at hs''
    cases hs''
    exact ⟨_, hget, hparent⟩
  · intro k f hf
    obtain ⟨s', hs', hrest⟩ := h.scope hf
    exact ⟨s', hopens.other hs' (h.scope_ne hf), hrest⟩
  · intro k f hf
    obtain ⟨returns, hr⟩ := h.bound hf
    refine ⟨returns, (hopens.bound?_global f.name).trans ?_⟩
    rw [if_neg (h.name_ne hf hnew), hr]
  · intro y sig hy
    replace hy := (hopens.bound?_global y).symm.trans hy
    split at hy
    · cases hy
    · exact h.declared hy
  · exact h.apart

/-- A new function with its parameters. -/
theorem declareFunction {t : SymbolTable} {x : String} {ps : List (String × Ty)} {returns : Ty}
    {n : Nat} (h : p.InStep) (hnew : p.symbols.bound? SymbolTable.global x = none)
    (hdup : (ps.map Prod.fst).Nodup)
    (hopens : p.symbols.Opens x (.function { returns, scope := p.symbols.scopes.size })
      (({ name := x, parent := some SymbolTable.global } : Scope).bindParameters n ps) t) :
    ({ p with
        functions := (p.functions.push { name := x, scope := p.symbols.scopes.size }).2,
        symbols := t } : Program).InStep := by
  have hfunctions : ∀ {k f},
      (p.functions.push { name := x, scope := p.symbols.scopes.size }).2.get? k = some f →
      (k = p.functions.size ∧ f = { name := x, scope := p.symbols.scopes.size }) ∨
        p.functions.get? k = some f := by
    intro k f hf
    rw [Arena.get?_push] at hf
    split at hf
    · exact .inl ⟨‹_›, (Option.some.inj hf).symm⟩
    · exact .inr hf
  have hkeep : ∀ {k f}, p.functions.get? k = some f →
      (p.functions.push { name := x, scope := p.symbols.scopes.size }).2.get? k = some f := by
    intro k f hf
    have hlt : k < p.functions.size := (Arena.get?_isSome_iff _ _).1 (by rw [hf]; rfl)
    rw [Arena.get?_push, if_neg (Nat.ne_of_lt hlt), hf]
  have hold : ∀ {k f}, p.functions.get? k = some f → f.scope ≠ p.symbols.scopes.size := by
    intro k f hf
    obtain ⟨s', hs', -⟩ := h.scope hf
    exact SymbolTable.ne_size_of_scope hs'
  constructor
  · obtain ⟨s', hs', hget⟩ := hopens.root
    obtain ⟨s'', hs'', hparent⟩ := h.root
    rw [hs'] at hs''
    cases hs''
    exact ⟨_, hget, hparent⟩
  · intro k f hf
    obtain ⟨-, rfl⟩ | hf := hfunctions hf
    · refine ⟨_, hopens.new, Scope.parent_bindAll _ _ _, ?_, ?_⟩
      · show (Scope.bindAll _ n ps).entries.keys = ([] ++ ps.map Prod.fst) ++ []
        rw [Scope.keys_bindAll n (fun _ _ => rfl) hdup, List.append_nil]
        rfl
      · intro y e he
        obtain he | he := Scope.get?_bindAll he
        · cases he
        · exact he
    · obtain ⟨s', hs', hrest⟩ := h.scope hf
      exact ⟨s', hopens.other hs' (h.scope_ne hf), hrest⟩
  · intro k f hf
    obtain ⟨-, rfl⟩ | hf := hfunctions hf
    · refine ⟨returns, (hopens.bound?_global x).trans ?_⟩
      rw [if_pos rfl]
    · obtain ⟨returns', hr⟩ := h.bound hf
      refine ⟨returns', (hopens.bound?_global f.name).trans ?_⟩
      rw [if_neg (h.name_ne hf hnew), hr]
  · intro y sig hy
    replace hy := (hopens.bound?_global y).symm.trans hy
    split at hy
    · subst y
      cases hy
      refine ⟨p.functions.size, { name := x, scope := p.symbols.scopes.size }, ?_, rfl, rfl⟩
      show (p.functions.push _).2.get? _ = _
      rw [Arena.get?_push, if_pos rfl]
    · obtain ⟨k, f, hf, hrest⟩ := h.declared hy
      exact ⟨k, f, hkeep hf, hrest⟩
  · intro k l f g hf hg he
    obtain ⟨rfl, rfl⟩ | hf := hfunctions hf <;> obtain ⟨rfl, rfl⟩ | hg := hfunctions hg
    · rfl
    · exact absurd he.symm (hold hg)
    · exact absurd he (hold hf)
    · exact h.apart hf hg he

/-- A new local variable. -/
theorem declareLocal {k : FunctionId} {f : FunctionDecl} {s : Scope} {t : SymbolTable} {x : String}
    {v : Variable} {fs : Arena FunctionDecl} (h : p.InStep) (hf : p.functions.get? k = some f)
    (hnew : p.symbols.bound? f.scope x = none) (hs : p.symbols.scopes.get? f.scope = some s)
    (hsets : p.symbols.Sets f.scope (s.bind x (.var v)) t)
    (hfs : p.functions.update k (fun f => { f with locals := f.locals ++ [x] }) = .ok fs) :
    ({ p with functions := fs, symbols := t } : Program).InStep := by
  have hne : SymbolTable.global ≠ f.scope := (h.scope_ne hf).symm
  have hglobal : ∀ y, t.bound? SymbolTable.global y = p.symbols.bound? SymbolTable.global y := by
    intro y
    rw [hsets.bound?, if_neg hne]
  constructor
  · obtain ⟨s', hs', hparent⟩ := h.root
    exact ⟨s', (hsets.off hne).trans hs', hparent⟩
  · intro l g hg
    obtain ⟨g', hg', rfl⟩ := Arena.of_get?_update hfs hg
    obtain ⟨s', hs', hparent, hkeys, hvars⟩ := h.scope hg'
    by_cases hl : l = k
    · subst l
      rw [hf] at hg'
      cases hg'
      rw [hs] at hs'
      cases hs'
      rw [if_pos rfl]
      refine ⟨_, hsets.at, hparent, ?_, ?_⟩
      · have hunbound : s.entries.get? x = none := by rw [← SymbolTable.bound?_of_scope hs, hnew]
        show (s.entries.insert x _).keys = s.parameterNames ++ (f.locals ++ [x])
        rw [Dict.keys_insert_of_none hunbound, hkeys, List.append_assoc]
      · intro y e he
        rw [Scope.get?_bind] at he
        split at he
        · exact ⟨v, (Option.some.inj he).symm⟩
        · exact hvars he
    · rw [if_neg hl]
      have hscope : g'.scope ≠ f.scope := fun he => hl (h.apart hg' hf he)
      exact ⟨s', (hsets.off hscope).trans hs', hparent, hkeys, hvars⟩
  · intro l g hg
    obtain ⟨g', hg', rfl⟩ := Arena.of_get?_update hfs hg
    obtain ⟨returns, hr⟩ := h.bound hg'
    refine ⟨returns, (hglobal _).trans ?_⟩
    split
    · exact hr
    · exact hr
  · intro y sig hy
    obtain ⟨l, g, hg, hname, hscope⟩ := h.declared ((hglobal y).symm.trans hy)
    refine ⟨l, _, Arena.get?_update_some hfs hg, ?_, ?_⟩
    · split <;> exact hname
    · split <;> exact hscope
  · intro l m g g₂ hg hg₂ he
    obtain ⟨g', hg', rfl⟩ := Arena.of_get?_update hfs hg
    obtain ⟨g₂', hg₂', rfl⟩ := Arena.of_get?_update hfs hg₂
    apply h.apart hg' hg₂'
    split at he <;> split at he <;> exact he

/-- One more statement in the body of a function. -/
theorem pushStatement {k : FunctionId} {i : StmtId} {fs : Arena FunctionDecl} (h : p.InStep)
    (hfs : p.functions.update k (fun f => { f with body := f.body ++ [i] }) = .ok fs) :
    ({ p with functions := fs } : Program).InStep := by
  have hfunctions : ∀ {l g}, fs.get? l = some g → ∃ g', p.functions.get? l = some g' ∧
      g'.name = g.name ∧ g'.scope = g.scope ∧ g'.locals = g.locals := by
    intro l g hg
    obtain ⟨g', hg', rfl⟩ := Arena.of_get?_update hfs hg
    refine ⟨g', hg', ?_⟩
    split <;> exact ⟨rfl, rfl, rfl⟩
  constructor
  · exact h.root
  · intro l g hg
    obtain ⟨g', hg', -, hscope, hlocals⟩ := hfunctions hg
    rw [← hscope, ← hlocals]
    exact h.scope hg'
  · intro l g hg
    obtain ⟨g', hg', hname, hscope, -⟩ := hfunctions hg
    rw [← hname, ← hscope]
    exact h.bound hg'
  · intro y sig hy
    obtain ⟨l, g, hg, hname, hscope⟩ := h.declared hy
    refine ⟨l, _, Arena.get?_update_some hfs hg, ?_, ?_⟩
    · split <;> exact hname
    · split <;> exact hscope
  · intro l m g g₂ hg hg₂ he
    obtain ⟨g', hg', -, hscope, -⟩ := hfunctions hg
    obtain ⟨g₂', hg₂', -, hscope₂, -⟩ := hfunctions hg₂
    exact h.apart hg' hg₂' (hscope.trans (he.trans hscope₂.symm))

end Program.InStep

/-! ### Built drafts -/

namespace Draft

variable {drift : Counters → Counters → Prop} {d : Draft}

/-- **In step.** In a built program the functions and the symbol table agree. -/
theorem Built.inStep (h : d.Built drift) : d.program.InStep := by
  refine Grown.induct (P := fun d => d.program.InStep) h (fun c => ?_) fun {d call d'} _ ih hadds hrule => ?_
  · have hfunctions : ∀ {k f}, (default : Arena FunctionDecl).get? k = some f → False := by
      intro k f hf
      cases hf
    have hnone : ∀ {x sig},
        SymbolTable.initial.bound? SymbolTable.global x = some (.function sig) → False := by
      intro x sig hx
      cases hx
    exact ⟨⟨_, rfl, rfl⟩, fun hf => (hfunctions hf).elim, fun hf => (hfunctions hf).elim,
      fun hx => (hnone hx).elim, fun hf => (hfunctions hf).elim⟩
  cases hadds with
  | elsewhere c => exact ih
  | addExpr node => exact ih.congr rfl rfl
  | addStmt node => exact ih.congr rfl rfl
  | declareGlobal hrun =>
    obtain ⟨s, t, hs, hsets, rfl⟩ := declareGlobal_ok hrun
    exact ih.declareGlobal hrule hs hsets
  | declareStruct hrun =>
    obtain ⟨s, hroot, -⟩ := ih.root
    obtain ⟨t, hopens, rfl⟩ := declareStruct_ok hroot hrun
    exact ih.declareStruct hrule.1 hopens
  | declareFunction hrun =>
    obtain ⟨s, hroot, -⟩ := ih.root
    obtain ⟨t, hopens, rfl⟩ := declareFunction_ok hroot hrun
    exact ih.declareFunction hrule.1 hrule.2 hopens
  | declareLocal hrun =>
    obtain ⟨f, hf, hnew⟩ := hrule
    obtain ⟨f', s, t, fs, hf', hs, hsets, hfs, rfl⟩ := declareLocal_ok hrun
    rw [hf] at hf'
    cases hf'
    exact ih.declareLocal hf hnew hs hsets hfs
  | pushStatement hrun =>
    obtain ⟨fs, hfs, rfl⟩ := modifyFunction_ok hrun
    exact ih.pushStatement hfs

/-! ### Registers of a built program -/

/-- Every register of a variable was drawn, and no two variables have the same. -/
def Fresh (d : Draft) : Prop := d.program.symbols.Fresh d.counters.registers

theorem keeps_declare {α : Type} {m : Scoping.Declare α} (hm : m.Keeps Scoping.Fresh) :
    (declare m).Keeps Fresh := by
  intro d d' a w h hd
  obtain ⟨t, c, hrun, rfl⟩ := declare_ok h
  exact hm _ _ _ _ hrun hd

theorem keeps_modifyProgram {f : Program → Program} (hf : ∀ p, (f p).symbols = p.symbols) :
    (modifyProgram f).Keeps Fresh := by
  intro d d' a w h hd
  obtain rfl := modifyProgram_ok h
  show (f d.program).symbols.Fresh _
  rw [hf]
  exact hd

theorem keeps_modifyFunction (k : FunctionId) (change : FunctionDecl → FunctionDecl) :
    (modifyFunction k change).Keeps Fresh := by
  intro d d' a w h hd
  obtain ⟨fs, -, rfl⟩ := modifyFunction_ok h
  exact hd

theorem keeps_declareGlobal (x : String) (ty : Ty) : (declareGlobal x ty).Keeps Fresh :=
  (keeps_declare (Scoping.keeps_declareVariable _ x ty)).bind fun _ =>
    (keeps_modifyProgram (by intro p; rfl)).bind fun _ => Journal.Keeps.pure _

theorem keeps_declareStruct (x : String) (fields : List (String × Ty)) :
    (declareStruct x fields).Keeps Fresh :=
  (keeps_declare (Scoping.keeps_declareStruct x fields)).bind fun _ => Journal.Keeps.pure _

theorem keeps_declareFunction (x : String) (ps : List (String × Ty)) (returns : Ty) :
    (declareFunction x ps returns).Keeps Fresh := by
  refine (keeps_declare (Scoping.keeps_declareFunction x returns)).bind fun i => ?_
  refine (Journal.Keeps.forM ps fun p _ =>
    (keeps_declare (Scoping.keeps_declareParameter i p.1 p.2)).bind fun _ =>
      Journal.Keeps.pure _).bind fun _ => ?_
  intro d d' k w h hd
  have h₁ := Journal.get_bind_ok.1 h
  obtain ⟨_, d₁, _, _, hpush, hpure, -⟩ := Journal.bind_eq_ok_iff.1 h₁
  obtain ⟨-, rfl, -⟩ := Journal.pure_ok.1 hpure
  exact keeps_modifyProgram (by intro p; rfl) _ _ _ _ hpush hd

theorem keeps_declareLocal (k : FunctionId) (x : String) (ty : Ty) :
    (declareLocal k x ty).Keeps Fresh := by
  intro d d' r w h hd
  obtain ⟨f, -, h₁⟩ := Journal.trap_bind_ok.1 (Journal.get_bind_ok.1 h)
  exact ((keeps_declare (Scoping.keeps_declareVariable f.scope x ty)).bind fun _ =>
    (keeps_modifyFunction k _).bind fun _ => Journal.Keeps.pure _) _ _ _ _ h₁ hd

/-! ### A small program -/

/-- The nodes of a function that adds up the numbers from `n` down to 1, prints the sum and returns
it. -/
def sumNodes : Nodes where
  exprs := ⟨#[.name "n", .int 0, .chain 0 [(.gt, 1)], .name "t", .chain 3 [(.add, 0)], .int 1,
    .chain 0 [(.sub, 5)]]⟩
  stmts := ⟨#[.assign ⟨"t", []⟩ 4, .assign ⟨"n", []⟩ 6, .loop 2 [0, 1], .print "t" true, .ret (some 3)]⟩

/-- The program with this one function. -/
def sumDown : Draft :=
  ((do
    let k ← declareFunction "sum" [("n", .int)] .int
    let _ ← declareLocal k "t" .int
    pushStatement k 2
    pushStatement k 3
    pushStatement k 4 : Extend Unit).run ⟨{ nodes := sumNodes }, {}⟩).state

theorem built_sumDown (drift : Counters → Counters → Prop) : sumDown.Built drift := by
  have hnodes := Built.ofNodes drift sumNodes {}
  have hfunction := hnodes.add
    (.declareFunction (show (declareFunction "sum" [("n", .int)] .int).run _ = _ from rfl)) ⟨rfl, by decide⟩
  have hlocal := hfunction.add (.declareLocal (show (declareLocal 0 "t" .int).run _ = _ from rfl)) ⟨_, rfl, rfl⟩
  have hloop := hlocal.add (.pushStatement (show (pushStatement 0 2).run _ = _ from rfl)) trivial
  have hprint := hloop.add (.pushStatement (show (pushStatement 0 3).run _ = _ from rfl)) trivial
  exact hprint.add (.pushStatement (show (pushStatement 0 4).run _ = _ from rfl)) trivial

end Draft

end Spillway
