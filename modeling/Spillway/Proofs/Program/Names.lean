import Mathlib.Data.List.Forall2
import Spillway.Lowering.Program
import Spillway.Proofs.Lowering.Value
import Spillway.Proofs.Program.Assembled

/-!
# Names in the functions of a program

The scope of a function lies right under the global one. A name in it stands for one of the function's
own variables, or else for what it stands for globally: `Program.Scoped.resolve_eq`. The variables with a
register of their own are the function's parameters and locals, `Program.Scoped.owns_iff` and
`Program.Scoped.mem_variables`. In a program whose functions and symbol table are in step, what lowering
finds out about names is therefore what they mean, `Program.InStep.describes`.
-/

namespace Spillway

/-! ### Queries that succeed -/

theorem Dict.lt_of_position? {α : Type} {d : Dict α} {x : String} {k : Nat} (h : d.position? x = some k) :
    k < d.size := by
  rw [position?_eq] at h
  rw [size_eq]
  exact (List.idxOf?_eq_some_iff.1 h).1

namespace SymbolTable

variable {t : SymbolTable} {struct x : String}

theorem entry?_ok {i : ScopeId} {e : Option Entry} (h : t.entry? i x = .ok e) :
    t.bound? i x = e := by
  obtain ⟨s, hs, hx⟩ := Journal.except_bind_ok.1 h
  cases hx
  exact bound?_of_scope (Arena.fetch_ok_iff.1 hs) x

theorem function?_of_bound {s : Scope} {sig : Signature} (hs : t.scopes.get? global = some s)
    (h : t.bound? global x = some (.function sig)) : t.function? x = .ok (some sig) := by
  rw [bound?_of_scope hs] at h
  rw [function?, entry?, scope, Arena.fetch_ok_iff.2 hs]
  simp only [bind, Except.bind, pure, Except.pure, h]

theorem scope_of_bound? {i : ScopeId} {e : Entry} (h : t.bound? i x = some e) :
    ∃ s, t.scopes.get? i = some s ∧ s.entries.get? x = some e := by
  cases hs : t.scopes.get? i with
  | none =>
    rw [bound?, hs] at h
    cases h
  | some s => exact ⟨s, rfl, (bound?_of_scope hs x).symm.trans h⟩

theorem struct?_eq {i : ScopeId} (h : t.bound? global struct = some (.struct i)) :
    t.struct? struct = .ok (some i) := by
  obtain ⟨s, hs, he⟩ := scope_of_bound? h
  rw [struct?, entry?, scope, Arena.fetch_ok_iff.2 hs]
  simp only [bind, Except.bind, pure, Except.pure, he]

theorem struct?_ok {i : ScopeId} (h : t.struct? struct = .ok (some i)) :
    t.bound? global struct = some (.struct i) := by
  obtain ⟨e, he, hi⟩ := Journal.except_bind_ok.1 h
  rw [entry?_ok he]
  split at hi <;> cases hi
  rfl

theorem field_ok {place : Nat} {e : Entry} (h : t.field struct x = .ok (some (place, e))) :
    ∃ i s, t.bound? global struct = some (.struct i) ∧ t.scopes.get? i = some s ∧
      s.entries.position? x = some place ∧ s.entries.get? x = some e := by
  obtain ⟨i?, hi, h₁⟩ := Journal.except_bind_ok.1 h
  cases i? with
  | none => cases h₁
  | some i =>
    obtain ⟨s, hs, h₂⟩ := Journal.except_bind_ok.1 h₁
    refine ⟨i, s, struct?_ok hi, Arena.fetch_ok_iff.1 hs, ?_⟩
    cases hplace : s.entries.position? x <;> cases hentry : s.entries.get? x <;>
      simp only [hplace, hentry] at h₂ <;> cases h₂
    exact ⟨rfl, rfl⟩

theorem fieldCount_ok {n : Nat} (h : t.fieldCount struct = .ok (some n)) :
    ∃ i s, t.bound? global struct = some (.struct i) ∧ t.scopes.get? i = some s ∧
      s.entries.size = n := by
  obtain ⟨i?, hi, h₁⟩ := Journal.except_bind_ok.1 h
  cases i? with
  | none => cases h₁
  | some i =>
    obtain ⟨s, hs, h₂⟩ := Journal.except_bind_ok.1 h₁
    cases h₂
    exact ⟨i, s, struct?_ok hi, Arena.fetch_ok_iff.1 hs, rfl⟩

section Struct

variable {i : ScopeId} {s : Scope} (hi : t.bound? global struct = some (.struct i)) (hs : t.scopes.get? i = some s)

include hi hs

theorem fieldCount_eq : t.fieldCount struct = .ok (some s.entries.size) := by
  rw [fieldCount, struct?_eq hi]
  simp only [bind, Except.bind, pure, Except.pure, scope, Arena.fetch_ok_iff.2 hs]

theorem field_eq {place : Nat} {e : Entry} (hplace : s.entries.position? x = some place)
    (he : s.entries.get? x = some e) : t.field struct x = .ok (some (place, e)) := by
  rw [field, struct?_eq hi]
  simp only [bind, Except.bind, pure, Except.pure, scope, Arena.fetch_ok_iff.2 hs, hplace, he]

theorem field_eq_none (hx : x ∉ s.entries.keys) : t.field struct x = .ok none := by
  have hplace : s.entries.position? x = none := by
    rw [Dict.position?_eq]
    exact List.idxOf?_eq_none_iff.2 hx
  rw [field, struct?_eq hi]
  simp only [bind, Except.bind, pure, Except.pure, scope, Arena.fetch_ok_iff.2 hs, hplace]

end Struct

end SymbolTable

namespace Program.Scoped

open Lowering (Env)

variable {p : Program} {k : FunctionId} {f : FunctionDecl}

/-! ### Resolving a name -/

/-- A name is looked up in the global scope and nowhere else from there. -/
theorem resolveWithin_global (h : p.Scoped) (depth : Nat) (x : String) :
    p.symbols.resolveWithin x (depth + 1) SymbolTable.global
      = .ok ((p.symbols.bound? SymbolTable.global x).map fun e => (SymbolTable.global, e)) := by
  obtain ⟨s, hs, hparent⟩ := h.root
  rw [SymbolTable.resolveWithin, SymbolTable.scope, Arena.fetch_ok_iff.2 hs,
    SymbolTable.bound?_of_scope hs]
  cases hx : s.entries.get? x <;> simp [bind, Except.bind, hx, hparent, pure, Except.pure]

/-- A name in a function is looked up in the function's own scope and then in the global one. -/
theorem resolve_eq (h : p.Scoped) (hf : p.functions.get? k = some f) (x : String) :
    p.symbols.resolve f.scope x = .ok (
      match p.symbols.bound? f.scope x with
      | some e => some (f.scope, e)
      | none => (p.symbols.bound? SymbolTable.global x).map fun e => (SymbolTable.global, e)) := by
  obtain ⟨s, hs, hholds⟩ := h.scope hf
  have hpos : 0 < p.symbols.scopes.size := by
    obtain ⟨s₀, hs₀, -⟩ := h.root
    exact (Arena.get?_isSome_iff p.symbols.scopes SymbolTable.global).1 (by rw [hs₀]; rfl)
  obtain ⟨depth, hdepth⟩ : ∃ depth, p.symbols.scopes.size + 1 = depth + 2 :=
    ⟨p.symbols.scopes.size - 1, by omega⟩
  rw [SymbolTable.resolve, hdepth, SymbolTable.resolveWithin, SymbolTable.scope, Arena.fetch_ok_iff.2 hs,
    SymbolTable.bound?_of_scope hs]
  cases hx : s.entries.get? x with
  | some e => simp [bind, Except.bind, hx, pure, Except.pure]
  | none =>
    simp only [bind, Except.bind, hx, hholds.parent]
    exact h.resolveWithin_global depth x

theorem lookup_eq (h : p.Scoped) (hf : p.functions.get? k = some f) (x : String) :
    p.symbols.lookup f.scope x = .ok (p.entry? f x) := by
  rw [SymbolTable.lookup, h.resolve_eq hf, Program.entry?]
  cases p.symbols.bound? f.scope x <;> cases p.symbols.bound? SymbolTable.global x <;> rfl

theorem isGlobal_eq (h : p.Scoped) (hf : p.functions.get? k = some f) (x : String) :
    p.symbols.isGlobal f.scope x = .ok (
      match p.symbols.bound? f.scope x, p.symbols.bound? SymbolTable.global x with
      | none, some (.var _) => true
      | _, _ => false) := by
  have hne : ¬ f.scope = SymbolTable.global := h.scope_ne hf
  rw [SymbolTable.isGlobal, h.resolve_eq hf]
  cases p.symbols.bound? f.scope x with
  | some e => cases e <;> simp [bind, Except.bind, pure, Except.pure, hne]
  | none =>
    cases p.symbols.bound? SymbolTable.global x with
    | none => rfl
    | some e => cases e <;> rfl

/-- What is bound in the scope of a function is a variable. -/
theorem eq_var (h : p.Scoped) (hf : p.functions.get? k = some f) {x : String} {e : Entry}
    (hx : p.symbols.bound? f.scope x = some e) : ∃ v, e = .var v := by
  obtain ⟨s, hs, hholds⟩ := h.scope hf
  rw [SymbolTable.bound?_of_scope hs] at hx
  exact hholds.vars hx

theorem registerOf_eq (h : p.Scoped) (hf : p.functions.get? k = some f) (x : String) :
    (p.env f.scope).registerOf x =
      match (p.entry? f x).bind Entry.register? with
      | some r => .ok r
      | none => .error (.noRegister x) := by
  rw [Env.registerOf, show (p.env f.scope).symbols.lookup (p.env f.scope).scope x = _ from
    h.lookup_eq hf x]
  cases hr : (p.entry? f x).bind Entry.register? <;> simp [bind, Except.bind, hr] <;> rfl

/-- Seen from the global scope, the variables are the global ones. -/
theorem bound?_of_registerOf (h : p.Scoped) {x : String} {r : VReg}
    (hr : (p.env SymbolTable.global).registerOf x = .ok r) :
    ∃ v, p.symbols.bound? SymbolTable.global x = some (.var v) ∧ v.register = r := by
  obtain ⟨e, hlookup, hr⟩ := Journal.except_bind_ok.1 hr
  obtain ⟨found, hresolve, he⟩ := Journal.except_bind_ok.1 hlookup
  obtain rfl := Except.ok.inj ((h.resolveWithin_global p.symbols.scopes.size x).symm.trans hresolve)
  cases hbound : p.symbols.bound? SymbolTable.global x with
  | none =>
    rw [hbound] at he
    cases he
    cases hr
  | some entry =>
    rw [hbound] at he
    cases he
    cases entry with
    | var v => exact ⟨v, rfl, Except.ok.inj hr⟩
    | function _ => cases hr
    | struct _ => cases hr

/-- The variables of a function with a register of their own are those of its scope. -/
theorem owns_iff (h : p.Scoped) (hf : p.functions.get? k = some f) {x : String} {r : VReg} :
    (p.env f.scope).Owns x r ↔ ∃ v, p.symbols.bound? f.scope x = some (.var v) ∧ v.register = r := by
  rw [Env.Owns, h.registerOf_eq hf, show (p.env f.scope).isGlobal x = _ from h.isGlobal_eq hf x,
    Program.entry?]
  cases hown : p.symbols.bound? f.scope x with
  | some e =>
    obtain ⟨v, rfl⟩ := h.eq_var hf hown
    simp [Entry.register?, Entry.var?]
  | none =>
    cases hglobal : p.symbols.bound? SymbolTable.global x with
    | none => simp
    | some e => cases e <;> simp [Entry.register?, Entry.var?]

/-- The variables of a function's scope are its parameters and its locals. -/
theorem mem_variables (h : p.Scoped) (hf : p.functions.get? k = some f) (x : String) :
    x ∈ p.parameterNames f ++ f.locals ↔ ∃ v, p.symbols.bound? f.scope x = some (.var v) := by
  obtain ⟨s, hs, hholds⟩ := h.scope hf
  have hnames : p.parameterNames f = s.parameterNames := by
    rw [Program.parameterNames, hs]
    rfl
  rw [hnames, ← hholds.keys, SymbolTable.bound?_of_scope hs]
  constructor
  · intro hx
    cases he : s.entries.get? x with
    | none => exact absurd hx ((Dict.get?_eq_none_iff _ _).1 he)
    | some e =>
      obtain ⟨v, rfl⟩ := hholds.vars he
      exact ⟨v, rfl⟩
  · rintro ⟨v, hv⟩
    by_contra hx
    rw [(Dict.get?_eq_none_iff _ _).2 hx] at hv
    cases hv

/-- A local of a function has a register of its own. -/
theorem owns_of_local (h : p.Scoped) (hf : p.functions.get? k = some f) {x : String}
    (hx : x ∈ f.locals) {r : VReg} (hr : (p.env f.scope).registerOf x = .ok r) :
    (p.env f.scope).Owns x r := by
  obtain ⟨v, hv⟩ := (h.mem_variables hf x).1 (List.mem_append_right _ hx)
  have howns : (p.env f.scope).Owns x v.register := (h.owns_iff hf).2 ⟨v, hv, rfl⟩
  rw [howns.2] at hr
  cases hr
  exact howns

end Program.Scoped

namespace Program.InStep

open Lowering (Env)

variable {p : Program} {k : FunctionId} {f : FunctionDecl}

/-! ### What lowering finds out -/

theorem owns_iff (h : p.InStep) (hf : p.functions.get? k = some f) {x : String} {r : VReg} :
    (p.env f.scope).Owns x r ↔ ∃ v, p.symbols.bound? f.scope x = some (.var v) ∧ v.register = r :=
  h.wellScoped.owns_iff hf

/-- What lowering finds out about the names in a function is what they mean. -/
theorem describes (h : p.InStep) (hf : p.functions.get? k = some f) :
    (p.env f.scope).Describes (p.statics f) := by
  constructor
  · intro x hx
    replace hx := (h.wellScoped.isGlobal_eq hf x).symm.trans hx
    simp only [Program.statics]
    split at hx
    · simp [*]
    · cases hx
  · intro x r hx
    obtain ⟨v, hv, -⟩ := (h.owns_iff hf).1 hx
    simp only [Program.statics, hv]
  · intro x v hx
    obtain ⟨e, hlookup, he⟩ := Journal.except_bind_ok.1 hx
    obtain rfl := Except.ok.inj ((h.wellScoped.lookup_eq hf x).symm.trans hlookup)
    simp only [Program.statics]
    split at he
    · cases he
      simp [*, Entry.ty?, Entry.var?]
    · cases he
    · cases he
  · intro x callee hx
    obtain ⟨callee?, hcallee, hsome⟩ := Journal.except_bind_ok.1 hx
    obtain ⟨e, hlookup, he⟩ := Journal.except_bind_ok.1 hcallee
    obtain rfl := Except.ok.inj ((h.wellScoped.lookup_eq hf x).symm.trans hlookup)
    cases callee? with
    | none => cases hsome
    | some callee' =>
      cases hsome
      simp only [Program.statics]
      cases hentry : p.entry? f x with
      | none =>
        rw [hentry] at he
        exact Except.ok.inj he
      | some entry =>
        rw [hentry] at he
        cases entry <;> exact Except.ok.inj he
  · intro ty x place ty' hx
    obtain ⟨struct, e, rfl, hfield, rfl⟩ := Env.field_ok hx
    obtain ⟨i, s, hstruct, hs, hplace, he⟩ := SymbolTable.field_ok hfield
    replace hstruct : p.symbols.bound? SymbolTable.global struct = some (.struct i) := hstruct
    replace hs : p.symbols.scopes.get? i = some s := hs
    refine ⟨struct, rfl, ?_⟩
    simp only [Program.statics, hstruct, hs, Option.bind_eq_bind, Option.bind_some, hplace, he]
    cases e <;> rfl
  · intro struct n hn
    obtain ⟨i, s, hstruct, hs, rfl⟩ := SymbolTable.fieldCount_ok hn
    replace hstruct : p.symbols.bound? SymbolTable.global struct = some (.struct i) := hstruct
    replace hs : p.symbols.scopes.get? i = some s := hs
    simp only [Program.statics, hstruct, hs]
    rfl

/-! ### The variables of a function -/

/-- The variables of a function are its parameters and its locals. No name stands for two of them. -/
theorem nodup_variables (h : p.InStep) (hf : p.functions.get? k = some f) :
    (p.parameterNames f ++ f.locals).Nodup ∧ ∀ x, x ∈ p.parameterNames f ++ f.locals ↔
      ∃ v, p.symbols.bound? f.scope x = some (.var v) := by
  obtain ⟨s, hs, -, hkeys, -⟩ := h.scope hf
  have hnames : p.parameterNames f ++ f.locals = s.entries.keys := by
    rw [hkeys, Program.parameterNames, hs]
    rfl
  refine ⟨?_, h.wellScoped.mem_variables hf⟩
  rw [hnames]
  exact s.entries.nodup

/-- The parameters of a function are variables of its scope, in the order of their names. -/
theorem parameters_ok (h : p.InStep) (hf : p.functions.get? k = some f) :
    ∃ vs, p.symbols.parameters f.scope = .ok vs ∧ List.Forall₂
      (fun x v => p.symbols.bound? f.scope x = some (.var v)) (p.parameterNames f) vs := by
  obtain ⟨s, hs, -⟩ := h.scope hf
  have hnames : p.parameterNames f = s.parameterNames := by
    rw [Program.parameterNames, hs]
    rfl
  have hbound : ∀ x ∈ s.parameterNames, ∃ v, p.symbols.bound? f.scope x = some (.var v) := by
    intro x hx
    refine ((h.nodup_variables hf).2 x).1 (List.mem_append_left _ ?_)
    rwa [hnames]
  rw [hnames, SymbolTable.parameters, SymbolTable.scope, Arena.fetch_ok_iff.2 hs]
  show ∃ vs, s.parameterNames.mapM (SymbolTable.parameter s) = .ok vs ∧ _
  clear hnames
  generalize s.parameterNames = xs at hbound
  induction xs with
  | nil => exact ⟨[], rfl, .nil⟩
  | cons x xs ih =>
    obtain ⟨vs, hvs, hall⟩ := ih fun y hy => hbound y (List.mem_cons_of_mem _ hy)
    obtain ⟨v, hv⟩ := hbound x (List.mem_cons_self ..)
    refine ⟨v :: vs, ?_, .cons hv hall⟩
    rw [SymbolTable.bound?_of_scope hs] at hv
    rw [List.mapM_cons, SymbolTable.parameter, hv, hvs]
    rfl

/-! ### Functions and their names -/

/-- No two functions have the same name. -/
theorem name_injective (h : p.InStep) {l : FunctionId} {g : FunctionDecl}
    (hf : p.functions.get? k = some f) (hg : p.functions.get? l = some g) (hname : g.name = f.name) :
    l = k := by
  obtain ⟨_, hbound⟩ := h.bound hf
  obtain ⟨_, hbound'⟩ := h.bound hg
  rw [hname, hbound, Option.some.injEq, Entry.function.injEq, Signature.mk.injEq] at hbound'
  exact h.apart hg hf hbound'.2.symm

/-- A function is declared globally, under its name. -/
theorem function?_eq (h : p.InStep) (hf : p.functions.get? k = some f) :
    ∃ returns, p.symbols.function? f.name = .ok (some { returns, scope := f.scope }) := by
  obtain ⟨s, hs, -⟩ := h.root
  obtain ⟨returns, hbound⟩ := h.bound hf
  exact ⟨returns, SymbolTable.function?_of_bound hs hbound⟩

end Program.InStep

end Spillway
