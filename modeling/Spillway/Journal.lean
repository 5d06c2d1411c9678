/-!
# Journalled computations

A `Journal ε σ ω α` reads and updates a state `σ`, writes entries `ω` and ends in a value `α` or in an
error `ε`. Failure does not roll back: a failing run keeps the state it had reached and the entries it
had written, so a counter that was advanced stays advanced.

The entries of a run never depend on what was written before it: they are returned, not threaded
through the state. Lowering writes instructions this way, code generation writes assembly lines, and
both report what they do as notices.

* `Run` is the outcome of one run, `Journal.bind_run` says how two runs are put together.
* `Journal.bind_eq_ok_iff` splits a successful run of a sequence into its two halves.
-/

namespace Spillway

/-- The outcome of one run: a value or an error, the state reached and the entries written. -/
@[ext] structure Run (ε σ ω α : Type) where
  result : Except ε α
  state : σ
  entries : List ω

/-- A computation over a state that writes entries and may fail, keeping state and entries. -/
def Journal (ε σ ω α : Type) : Type := σ → Run ε σ ω α

variable {ε ε' σ τ ω ν α β : Type}

/-- Goes on with `f` after a successful run; a failed run is left as it is. -/
def Run.andThen (r : Run ε σ ω α) (f : α → Journal ε σ ω β) : Run ε σ ω β :=
  match r.result with
  | .error e => ⟨.error e, r.state, r.entries⟩
  | .ok a => ⟨(f a r.state).result, (f a r.state).state, r.entries ++ (f a r.state).entries⟩

namespace Journal

/-- Runs the computation from a state. -/
def run (m : Journal ε σ ω α) (s : σ) : Run ε σ ω α := m s

/-- The result of a run that starts in `s`. -/
def eval (m : Journal ε σ ω α) (s : σ) : Except ε α := (m.run s).result

instance : Monad (Journal ε σ ω) where
  pure a := fun s => ⟨.ok a, s, []⟩
  bind m f := fun s => (m.run s).andThen f

instance : MonadStateOf σ (Journal ε σ ω) where
  get := fun s => ⟨.ok s, s, []⟩
  set t := fun _ => ⟨.ok ⟨⟩, t, []⟩
  modifyGet f := fun s => ⟨.ok (f s).1, (f s).2, []⟩

/-- Stops with an error. -/
def fail (e : ε) : Journal ε σ ω α := fun s => ⟨.error e, s, []⟩

/-- Writes one entry. -/
def record (w : ω) : Journal ε σ ω Unit := fun s => ⟨.ok (), s, [w]⟩

/-- Writes several entries, in order. -/
def recordAll (ws : List ω) : Journal ε σ ω Unit := fun s => ⟨.ok (), s, ws⟩

/-- A computation that neither looks at the state nor writes anything. -/
def ofExcept (x : Except ε α) : Journal ε σ ω α := fun s => ⟨x, s, []⟩

instance : MonadLift (Except ε) (Journal ε σ ω) where
  monadLift := ofExcept

/-- Renames the errors. -/
def mapError (f : ε → ε') (m : Journal ε σ ω α) : Journal ε' σ ω α := fun s =>
  ⟨(m.run s).result.mapError f, (m.run s).state, (m.run s).entries⟩

/-- Renames the entries. -/
def mapEntries (f : ω → ν) (m : Journal ε σ ω α) : Journal ε σ ν α := fun s =>
  ⟨(m.run s).result, (m.run s).state, (m.run s).entries.map f⟩

/-- Runs a computation on a part of a larger state. -/
def zoom (view : τ → σ) (put : τ → σ → τ) (m : Journal ε σ ω α) : Journal ε τ ω α := fun t =>
  ⟨(m.run (view t)).result, put t (m.run (view t)).state, (m.run (view t)).entries⟩

/-- Hands the entries to the caller with the value, and reports each of them as a notice. -/
def collect (notice : ω → ν) (m : Journal ε σ ω α) : Journal ε σ ν (α × List ω) := fun s =>
  ⟨(m.run s).result.map fun a => (a, (m.run s).entries), (m.run s).state,
    (m.run s).entries.map notice⟩

/-! ### What each operation does to a run -/

@[simp] theorem pure_run (a : α) (s : σ) :
    (pure a : Journal ε σ ω α).run s = ⟨.ok a, s, []⟩ := rfl

theorem bind_run (m : Journal ε σ ω α) (f : α → Journal ε σ ω β) (s : σ) :
    (m >>= f).run s = (m.run s).andThen f := rfl

@[simp] theorem get_run (s : σ) : (get : Journal ε σ ω σ).run s = ⟨.ok s, s, []⟩ := rfl

@[simp] theorem set_run (s t : σ) : (set t : Journal ε σ ω PUnit).run s = ⟨.ok ⟨⟩, t, []⟩ := rfl

@[simp] theorem modify_run (f : σ → σ) (s : σ) :
    (modify f : Journal ε σ ω PUnit).run s = ⟨.ok ⟨⟩, f s, []⟩ := rfl

@[simp] theorem fail_run (e : ε) (s : σ) :
    (fail e : Journal ε σ ω α).run s = ⟨.error e, s, []⟩ := rfl

@[simp] theorem record_run (w : ω) (s : σ) :
    (record w : Journal ε σ ω Unit).run s = ⟨.ok (), s, [w]⟩ := rfl

@[simp] theorem recordAll_run (ws : List ω) (s : σ) :
    (recordAll ws : Journal ε σ ω Unit).run s = ⟨.ok (), s, ws⟩ := rfl

@[simp] theorem ofExcept_run (x : Except ε α) (s : σ) :
    (ofExcept x : Journal ε σ ω α).run s = ⟨x, s, []⟩ := rfl

@[simp] theorem andThen_ok (a : α) (s : σ) (w : List ω) (f : α → Journal ε σ ω β) :
    (Run.mk (.ok a) s w).andThen f
      = ⟨((f a).run s).result, ((f a).run s).state, w ++ ((f a).run s).entries⟩ := rfl

@[simp] theorem andThen_error (e : ε) (s : σ) (w : List ω) (f : α → Journal ε σ ω β) :
    (Run.mk (.error e) s w).andThen f = ⟨.error e, s, w⟩ := rfl

@[ext] theorem ext {m n : Journal ε σ ω α} (h : ∀ s, m.run s = n.run s) : m = n := funext h

instance : LawfulMonad (Journal ε σ ω) := LawfulMonad.mk' _
  (by
    intro α x
    funext s
    show (x.run s).andThen (fun a => pure (id a)) = x.run s
    rcases x.run s with ⟨_ | _, _, _⟩ <;> simp)
  (by
    intro α β x f
    funext s
    show (Run.mk (.ok x) s []).andThen f = (f x).run s
    simp)
  (by
    intro α β γ x f g
    funext s
    show ((x.run s).andThen f).andThen g = (x.run s).andThen fun a => f a >>= g
    rcases x.run s with ⟨_ | a, t, w⟩
    · rfl
    · simp only [andThen_ok, bind_run]
      rcases (f a).run t with ⟨_ | b, u, v⟩ <;> simp)

/-- **Splitting a sequence.** A sequence succeeds exactly if both halves do, the second from the state
where the first ended, and it writes the entries of the first and then those of the second. -/
theorem bind_eq_ok_iff {m : Journal ε σ ω α} {f : α → Journal ε σ ω β} {s t : σ} {b : β}
    {w : List ω} :
    (m >>= f).run s = ⟨.ok b, t, w⟩ ↔
      ∃ a u v v', m.run s = ⟨.ok a, u, v⟩ ∧ (f a).run u = ⟨.ok b, t, v'⟩ ∧ w = v ++ v' := by
  rw [bind_run]
  constructor
  · intro h
    rcases hm : m.run s with ⟨_ | a, u, v⟩
    · simp [hm] at h
    · rw [hm, andThen_ok, Run.mk.injEq] at h
      exact ⟨a, u, v, _, rfl, Run.ext h.1 h.2.1 rfl, h.2.2.symm⟩
  · rintro ⟨a, u, v, v', hm, hf, rfl⟩
    simp [hm, hf]

/-- A sequence fails if its first half fails, or if its second half fails after the first. -/
theorem bind_eq_error_iff {m : Journal ε σ ω α} {f : α → Journal ε σ ω β} {s t : σ} {e : ε}
    {w : List ω} :
    (m >>= f).run s = ⟨.error e, t, w⟩ ↔
      m.run s = ⟨.error e, t, w⟩ ∨
        ∃ a u v v', m.run s = ⟨.ok a, u, v⟩ ∧ (f a).run u = ⟨.error e, t, v'⟩ ∧ w = v ++ v' := by
  rw [bind_run]
  constructor
  · intro h
    rcases hm : m.run s with ⟨_ | a, u, v⟩
    · exact .inl (by simpa [hm] using h)
    · rw [hm, andThen_ok, Run.mk.injEq] at h
      exact .inr ⟨a, u, v, _, rfl, Run.ext h.1 h.2.1 rfl, h.2.2.symm⟩
  · rintro (hm | ⟨a, u, v, v', hm, hf, rfl⟩)
    · simp [hm]
    · simp [hm, hf]

@[simp] theorem mapError_run (f : ε → ε') (m : Journal ε σ ω α) (s : σ) :
    (m.mapError f).run s
      = ⟨(m.run s).result.mapError f, (m.run s).state, (m.run s).entries⟩ := rfl

@[simp] theorem mapEntries_run (f : ω → ν) (m : Journal ε σ ω α) (s : σ) :
    (m.mapEntries f).run s
      = ⟨(m.run s).result, (m.run s).state, (m.run s).entries.map f⟩ := rfl

@[simp] theorem zoom_run (view : τ → σ) (put : τ → σ → τ) (m : Journal ε σ ω α) (t : τ) :
    (m.zoom view put).run t
      = ⟨(m.run (view t)).result, put t (m.run (view t)).state, (m.run (view t)).entries⟩ := rfl

@[simp] theorem collect_run (notice : ω → ν) (m : Journal ε σ ω α) (s : σ) :
    (m.collect notice).run s
      = ⟨(m.run s).result.map fun a => (a, (m.run s).entries), (m.run s).state,
          (m.run s).entries.map notice⟩ := rfl

end Journal

end Spillway
