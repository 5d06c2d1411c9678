import Spillway.Proofs.Symbol.Forest

/-!
# What a call goes to

A call of a name goes to the function that the name stands for. Every other name is searched among the
built-in operations, those of variables and structs included. So a function comes before the built-in
operation of its name, but a variable or a struct does not, and where it hides a function of that name, the
call goes to the built-in operation instead.

* `SymbolTable.callee_eq_user_iff`, `callee_eq_builtin_iff`, `callee_eq_none_iff` — the callee, from what
  the name stands for.
* `SymbolTable.Reached.callee_nearest` — **the callee in every table that is reached**.
-/

namespace Spillway.SymbolTable

variable {t : SymbolTable} {i : ScopeId} {is : List ScopeId} {x : String} {found : Option Entry}

/-! ### From what a name stands for -/

/-- A name that stands for a function calls it. -/
theorem callee_of_function {f : Signature} (h : t.lookup i x = .ok (some (.function f))) :
    t.callee i x = .ok (some (.user f)) := by
  rw [callee, h]
  rfl

/-- A name that does not is searched among the built-in operations. -/
theorem callee_of_not_function (h : t.lookup i x = .ok found) (hfound : ¬ ∃ f, found = some (.function f)) :
    t.callee i x = .ok ((Builtin.ofName? x).map .builtin) := by
  rw [callee, h]
  rcases found with _ | e
  · rfl
  · cases e with
    | function f => exact absurd ⟨f, rfl⟩ hfound
    | var v | struct s => rfl

theorem callee_ok (h : t.lookup i x = .ok found) : ∃ callee, t.callee i x = .ok callee := by
  by_cases hfunction : ∃ f, found = some (.function f)
  · obtain ⟨f, rfl⟩ := hfunction
    exact ⟨_, callee_of_function h⟩
  · exact ⟨_, callee_of_not_function h hfunction⟩

theorem callee_eq_user_iff (h : t.lookup i x = .ok found) {f : Signature} :
    t.callee i x = .ok (some (.user f)) ↔ found = some (.function f) := by
  by_cases hfunction : ∃ f', found = some (.function f')
  · obtain ⟨f', rfl⟩ := hfunction
    simp [callee_of_function h]
  · rw [callee_of_not_function h hfunction]
    simp [not_exists.1 hfunction f]

theorem callee_eq_builtin_iff (h : t.lookup i x = .ok found) {b : Builtin} :
    t.callee i x = .ok (some (.builtin b)) ↔ x = b.name ∧ ¬ ∃ f, found = some (.function f) := by
  by_cases hfunction : ∃ f, found = some (.function f)
  · obtain ⟨f, rfl⟩ := hfunction
    simp [callee_of_function h]
  · rw [callee_of_not_function h hfunction, ← Builtin.ofName?_eq_some_iff]
    simp [hfunction]

theorem callee_eq_none_iff (h : t.lookup i x = .ok found) :
    t.callee i x = .ok none ↔ (∀ b : Builtin, x ≠ b.name) ∧ ¬ ∃ f, found = some (.function f) := by
  by_cases hfunction : ∃ f, found = some (.function f)
  · obtain ⟨f, rfl⟩ := hfunction
    simp [callee_of_function h]
  · rw [callee_of_not_function h hfunction]
    simp only [ne_eq, ← Builtin.ofName?_eq_some_iff]
    simp [hfunction, Option.eq_none_iff_forall_ne_some]

/-! ### From the chain of parents -/

theorem Ancestry.not_function_iff (h : t.Ancestry i is) (hf : t.Forest) (hfound : t.lookup i x = .ok found) :
    (¬ ∃ f, found = some (.function f)) ↔ ¬ ∃ j f, t.BindsFirst is x j (.function f) := by
  rw [exists_comm]
  simp only [← h.lookup_eq_some_iff hf, hfound, Except.ok.injEq]

/-- A name that is bound and does not stand for a function stands for a variable or a struct. -/
theorem Ancestry.bound_not_function_iff (h : t.Ancestry i is) (hf : t.Forest) :
    (¬ ∃ j f, t.BindsFirst is x j (.function f)) ∧ (∃ j ∈ is, t.bound? j x ≠ none) ↔
      (∃ j v, t.BindsFirst is x j (.var v)) ∨ ∃ j s, t.BindsFirst is x j (.struct s) := by
  have hbound : (∃ j ∈ is, t.bound? j x ≠ none) ↔ t.lookup i x ≠ .ok none := by
    rw [ne_eq, h.lookup_eq_none_iff hf]
    simp only [not_forall, exists_prop, ne_eq]
  rw [hbound, exists_comm (p := fun j f => t.BindsFirst is x j (.function f)),
    exists_comm (p := fun j v => t.BindsFirst is x j (.var v)),
    exists_comm (p := fun j s => t.BindsFirst is x j (.struct s))]
  simp only [← h.lookup_eq_some_iff hf, h.lookup_eq hf, Except.ok.injEq]
  rcases is.findSome? (t.bound? · x) with _ | e
  · simp
  · cases e <;> simp

/-- **Functions first, then built-in operations.** Whatever calls led to a table, and whatever the name is, a
call from a scope of the table goes to a function exactly if the nearest scope of the chain that binds the name
binds it to that function. It goes to a built-in operation exactly if the name is that of the operation and does
not stand for a function. Otherwise it goes nowhere. So a built-in operation is found for a name that some scope
of the chain binds exactly if the nearest binding is that of a variable or a struct. -/
theorem Reached.callee_nearest (h : t.Reached) (hi : i < t.scopes.size) (x : String) :
    (∃ is, t.Ancestry i is) ∧ (∃ callee, t.callee i x = .ok callee) ∧
    ∀ is, t.Ancestry i is →
      (∀ f, t.callee i x = .ok (some (.user f)) ↔ ∃ j, t.BindsFirst is x j (.function f)) ∧
      (∀ b, t.callee i x = .ok (some (.builtin b)) ↔
        x = b.name ∧ ¬ ∃ j f, t.BindsFirst is x j (.function f)) ∧
      (t.callee i x = .ok none ↔
        (∀ b : Builtin, x ≠ b.name) ∧ ¬ ∃ j f, t.BindsFirst is x j (.function f)) ∧
      ∀ b, t.callee i x = .ok (some (.builtin b)) ∧ (∃ j ∈ is, t.bound? j x ≠ none) ↔
        x = b.name ∧ ((∃ j v, t.BindsFirst is x j (.var v)) ∨ ∃ j s, t.BindsFirst is x j (.struct s)) := by
  have hf := h.forest
  obtain ⟨is, his⟩ := hf.exists_ancestry hi
  refine ⟨⟨is, his⟩, callee_ok (his.lookup_eq hf x), fun is his => ?_⟩
  have hfound := his.lookup_eq hf x
  have hbuiltin : ∀ b, t.callee i x = .ok (some (.builtin b)) ↔
      x = b.name ∧ ¬ ∃ j f, t.BindsFirst is x j (.function f) := by
    intro b
    rw [callee_eq_builtin_iff hfound, his.not_function_iff hf hfound]
  refine ⟨fun f => ?_, hbuiltin, ?_, fun b => ?_⟩
  · rw [callee_eq_user_iff hfound, ← his.lookup_eq_some_iff hf, hfound, Except.ok.injEq]
  · rw [callee_eq_none_iff hfound, his.not_function_iff hf hfound]
  · rw [hbuiltin, and_assoc, his.bound_not_function_iff hf]

/-- A function with the name of a built-in operation, a function with a variable that hides it, and a struct
with the name of the other built-in operation. -/
def operationNames : SymbolTable :=
  ([.declareFunction "new" .int, .declareFunction "main" .void, .declareVariable 2 "new" .int,
    .declareStruct "delete" []] : List Change).foldl (fun t k => (k.after ⟨t, {}⟩).table) initial

/-- From the global scope `new` is the function. From the scope of `main`, where the variable hides it, and for
the struct, the built-in operations are found although the names are bound. -/
theorem callee_nearest_operationNames :
    operationNames.Reached ∧ 2 < operationNames.scopes.size ∧ operationNames.Ancestry 2 [2, 0] ∧
    operationNames.callee 0 "new" = .ok (some (.user ⟨.int, 1⟩)) ∧
    (∃ j, operationNames.BindsFirst [0] "new" j (.function ⟨.int, 1⟩)) ∧
    operationNames.callee 2 "main" = .ok (some (.user ⟨.void, 2⟩)) ∧
    (∃ j, operationNames.BindsFirst [2, 0] "main" j (.function ⟨.void, 2⟩)) ∧
    operationNames.callee 2 "new" = .ok (some (.builtin .new)) ∧
    (¬ ∃ j f, operationNames.BindsFirst [2, 0] "new" j (.function f)) ∧
    operationNames.callee 2 "other" = .ok none := by
  have hreached : operationNames.Reached := Reached.initial.calls _ _
  have hglobal : operationNames.Ancestry 0 [0] := .root rfl rfl
  have hmain : operationNames.Ancestry 2 [2, 0] := .under rfl rfl hglobal
  have hnew : operationNames.callee 0 "new" = .ok (some (.user ⟨.int, 1⟩)) := rfl
  have hcall : operationNames.callee 2 "main" = .ok (some (.user ⟨.void, 2⟩)) := rfl
  have hhidden : operationNames.callee 2 "new" = .ok (some (.builtin .new)) := rfl
  have hin : 2 < operationNames.scopes.size := by decide
  exact ⟨hreached, hin, hmain, hnew, (((hreached.callee_nearest (by decide) "new").2.2 [0] hglobal).1 _).1 hnew,
    hcall, (((hreached.callee_nearest hin "main").2.2 [2, 0] hmain).1 _).1 hcall, hhidden,
    ((((hreached.callee_nearest hin "new").2.2 [2, 0] hmain).2.1 _).1 hhidden).2, rfl⟩

/-- **Bindings that are passed over.** The variable and the struct are the nearest bindings of their names, and
the built-in operations are found all the same. -/
theorem builtin_found_past_binding :
    operationNames.Reached ∧ operationNames.Ancestry 2 [2, 0] ∧
    (∃ v, operationNames.BindsFirst [2, 0] "new" 2 (.var v)) ∧
    operationNames.callee 2 "new" = .ok (some (.builtin .new)) ∧
    operationNames.BindsFirst [2, 0] "delete" 0 (.struct 3) ∧
    operationNames.callee 2 "delete" = .ok (some (.builtin .delete)) := by
  refine ⟨Reached.initial.calls _ _, .under rfl rfl (.root rfl rfl), ⟨_, [], [0], rfl, rfl, ?_⟩, rfl,
    ⟨[2], [], rfl, rfl, ?_⟩, rfl⟩
  · exact List.forall_mem_nil _
  · exact List.forall_mem_singleton.2 rfl

end Spillway.SymbolTable
