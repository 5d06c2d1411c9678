import Mathlib.Data.List.Forall2
import Spillway.Fault
import Spillway.Journal

/-!
# Splitting successful runs

A run that succeeds is taken apart from the front, one step at a time. Each lemma says what a
successful run of a step followed by `f` tells about the run of `f`.
-/

namespace Spillway.Journal

variable {ε σ ω α β : Type} {s t : σ} {b : β} {w : List ω}

theorem pure_ok {a : β} :
    (pure a : Journal ε σ ω β).run s = ⟨.ok b, t, w⟩ ↔ b = a ∧ t = s ∧ w = [] := by
  rw [pure_run, Run.mk.injEq, Except.ok.injEq, eq_comm (a := a), eq_comm (a := s), eq_comm (a := [])]

theorem eq_of_bind_pure {m : Journal ε σ ω α} {a : β}
    (h : (m >>= fun _ => pure a).run s = ⟨.ok b, t, w⟩) : b = a := by
  obtain ⟨_, _, _, _, -, hpure, -⟩ := bind_eq_ok_iff.1 h
  exact (pure_ok.1 hpure).1

theorem get_bind_ok {f : σ → Journal ε σ ω β} :
    ((get : Journal ε σ ω σ) >>= f).run s = ⟨.ok b, t, w⟩ ↔ (f s).run s = ⟨.ok b, t, w⟩ := Iff.rfl

theorem set_bind_ok {u : σ} {f : PUnit → Journal ε σ ω β} :
    ((set u : Journal ε σ ω PUnit) >>= f).run s = ⟨.ok b, t, w⟩ ↔
      (f ⟨⟩).run u = ⟨.ok b, t, w⟩ := Iff.rfl

theorem record_bind_ok {x : ω} {f : Unit → Journal ε σ ω β} :
    (record x >>= f).run s = ⟨.ok b, t, w⟩ ↔
      ∃ w', (f ()).run s = ⟨.ok b, t, w'⟩ ∧ w = x :: w' := by
  rw [bind_eq_ok_iff]
  constructor
  · rintro ⟨_, _, _, w', hx, hf, rfl⟩
    cases hx
    exact ⟨w', hf, rfl⟩
  · rintro ⟨w', hf, rfl⟩
    exact ⟨(), s, [x], w', rfl, hf, rfl⟩

theorem record_ok {x : ω} {u : Unit} :
    (record x : Journal ε σ ω Unit).run s = ⟨.ok u, t, w⟩ ↔ t = s ∧ w = [x] := by
  rw [record_run, Run.mk.injEq, eq_comm (a := s), eq_comm (a := [x])]
  simp

theorem ofExcept_bind_ok {x : Except ε α} {f : α → Journal ε σ ω β} :
    (ofExcept x >>= f).run s = ⟨.ok b, t, w⟩ ↔ ∃ a, x = .ok a ∧ (f a).run s = ⟨.ok b, t, w⟩ := by
  cases x with
  | error e =>
    constructor
    · intro h
      cases h
    · rintro ⟨a, ha, -⟩
      cases ha
  | ok a =>
    constructor
    · intro h
      exact ⟨a, rfl, h⟩
    · rintro ⟨a', ha, h⟩
      cases ha
      exact h

theorem ofExcept_ok {x : Except ε β} :
    (ofExcept x : Journal ε σ ω β).run s = ⟨.ok b, t, w⟩ ↔ x = .ok b ∧ t = s ∧ w = [] := by
  rw [ofExcept_run, Run.mk.injEq, eq_comm (a := s), eq_comm (a := [])]

theorem collect_ok {ν : Type} {notice : ω → ν} {m : Journal ε σ ω α} {r : α × List ω} {v : List ν}
    (h : (m.collect notice).run s = ⟨.ok r, t, v⟩) : m.run s = ⟨.ok r.1, t, r.2⟩ := by
  rw [collect_run, Run.mk.injEq] at h
  obtain ⟨hresult, hstate, -⟩ := h
  rcases hm : m.run s with ⟨_ | a, u, w⟩
  · rw [hm] at hresult
    cases hresult
  · rw [hm] at hresult hstate
    cases hresult
    rw [← hstate]

theorem eval_eq_ok_iff {m : Journal ε σ ω α} {a : α} :
    m.eval s = .ok a ↔ ∃ t w, m.run s = ⟨.ok a, t, w⟩ := by
  constructor
  · intro h
    exact ⟨_, _, Run.ext h rfl rfl⟩
  · rintro ⟨t, w, h⟩
    rw [eval, h]

/-- A computation of which a view of the value is known succeeds. -/
theorem run_ok_of_view {β : Type} {m : Journal ε σ ω α} {view : α → β} {b : β}
    (h : (m.eval s).toOption.map view = some b) : ∃ a t w, m.run s = ⟨.ok a, t, w⟩ ∧ view a = b := by
  cases hm : m.eval s with
  | error e =>
    rw [hm] at h
    cases h
  | ok a =>
    obtain ⟨t, w, hrun⟩ := eval_eq_ok_iff.1 hm
    rw [hm] at h
    exact ⟨a, t, w, hrun, Option.some.inj h⟩

theorem eval_eq_error_iff {m : Journal ε σ ω α} {e : ε} :
    m.eval s = .error e ↔ ∃ t w, m.run s = ⟨.error e, t, w⟩ := by
  constructor
  · intro h
    exact ⟨_, _, Run.ext h rfl rfl⟩
  · rintro ⟨t, w, h⟩
    rw [eval, h]

/-- A sequence without state succeeds exactly if both halves do. -/
theorem except_bind_ok {x : Except ε α} {f : α → Except ε β} :
    x >>= f = .ok b ↔ ∃ a, x = .ok a ∧ f a = .ok b := by
  cases x with
  | error e => exact ⟨nofun, nofun⟩
  | ok a =>
    constructor
    · intro h
      exact ⟨a, rfl, h⟩
    · rintro ⟨a', ha, h⟩
      cases ha
      exact h

/-! ### Steps that come from a smaller kind of failure -/

theorem mapError_eq_ok_iff {ε' : Type} {g : ε' → ε} {x : Except ε' α} {a : α} :
    x.mapError g = .ok a ↔ x = .ok a := by
  cases x with
  | error e => exact ⟨nofun, nofun⟩
  | ok b =>
    show Except.ok b = Except.ok a ↔ _
    rw [Except.ok.injEq, Except.ok.injEq]

theorem trap_bind_ok {x : Except Trap α} {f : α → Journal Fault σ ω β} :
    ((liftM x : Journal Fault σ ω α) >>= f).run s = ⟨.ok b, t, w⟩ ↔
      ∃ a, x = .ok a ∧ (f a).run s = ⟨.ok b, t, w⟩ := by
  show (ofExcept (x.mapError Fault.trap) >>= f).run s = _ ↔ _
  rw [ofExcept_bind_ok]
  simp only [mapError_eq_ok_iff]

theorem defect_bind_ok {x : Except Defect α} {f : α → Journal Fault σ ω β} :
    ((liftM x : Journal Fault σ ω α) >>= f).run s = ⟨.ok b, t, w⟩ ↔
      ∃ a, x = .ok a ∧ (f a).run s = ⟨.ok b, t, w⟩ := by
  show (ofExcept (x.mapError Fault.defect) >>= f).run s = _ ↔ _
  rw [ofExcept_bind_ok]
  simp only [mapError_eq_ok_iff]

/-! ### What a computation keeps -/

/-- Every successful run keeps a property of the state. -/
def Keeps (P : σ → Prop) (m : Journal ε σ ω α) : Prop :=
  ∀ s t a w, m.run s = ⟨.ok a, t, w⟩ → P s → P t

theorem Keeps.bind {P : σ → Prop} {m : Journal ε σ ω α} {f : α → Journal ε σ ω β}
    (hm : m.Keeps P) (hf : ∀ a, (f a).Keeps P) : (m >>= f).Keeps P := by
  intro s t b w h hs
  obtain ⟨a, u, v, v', hm', hf', rfl⟩ := bind_eq_ok_iff.1 h
  exact hf a u t b v' hf' (hm s u a v hm' hs)

theorem Keeps.pure {P : σ → Prop} (a : α) : (pure a : Journal ε σ ω α).Keeps P := by
  intro s t b w h hs
  obtain ⟨-, rfl, -⟩ := pure_ok.1 h
  exact hs

theorem Keeps.forM {γ : Type} {P : σ → Prop} {f : γ → Journal ε σ ω PUnit} (xs : List γ)
    (hf : ∀ x ∈ xs, (f x).Keeps P) : (xs.forM f).Keeps P := by
  induction xs with
  | nil => exact Keeps.pure _
  | cons x xs ih =>
    exact (hf x (List.mem_cons_self ..)).bind fun _ => ih fun y hy => hf y (List.mem_cons_of_mem _ hy)

/-! ### What a computation yields -/

/-- The computation succeeds, with a value, a state and entries that are as required. -/
def Yields (m : Journal ε σ ω α) (s : σ) (Q : α → σ → List ω → Prop) : Prop :=
  ∃ a t w, m.run s = ⟨.ok a, t, w⟩ ∧ Q a t w

theorem Yields.bind {m : Journal ε σ ω α} {f : α → Journal ε σ ω β} {Q : α → σ → List ω → Prop}
    {R : β → σ → List ω → Prop} (h : m.Yields s Q)
    (hf : ∀ a t w, Q a t w → (f a).Yields t fun b u w' => R b u (w ++ w')) : (m >>= f).Yields s R := by
  obtain ⟨a, t, w, hm, hQ⟩ := h
  obtain ⟨b, u, w', hfa, hR⟩ := hf a t w hQ
  exact ⟨b, u, w ++ w', bind_eq_ok_iff.2 ⟨a, t, w, w', hm, hfa, rfl⟩, hR⟩

theorem Yields.mono {m : Journal ε σ ω α} {Q R : α → σ → List ω → Prop} (h : m.Yields s Q)
    (hR : ∀ a t w, Q a t w → R a t w) : m.Yields s R := by
  obtain ⟨a, t, w, hm, hQ⟩ := h
  exact ⟨a, t, w, hm, hR a t w hQ⟩

/-! ### How a computation ends -/

/-- However the run ends, it is as required: a success with its value, state and entries, a failure with
its error. -/
def Ends (m : Journal ε σ ω α) (s : σ) (Q : α → σ → List ω → Prop) (E : ε → Prop) : Prop :=
  (∀ a t w, m.run s = ⟨.ok a, t, w⟩ → Q a t w) ∧ ∀ e t w, m.run s = ⟨.error e, t, w⟩ → E e

section Ends

variable {m : Journal ε σ ω α} {Q : α → σ → List ω → Prop} {E : ε → Prop}

theorem Yields.ends (h : m.Yields s Q) : m.Ends s Q E := by
  obtain ⟨a, t, w, hm, hQ⟩ := h
  refine ⟨fun a' t' w' hm' => ?_, fun e t' w' hm' => ?_⟩
  · rw [hm] at hm'
    cases hm'
    exact hQ
  · rw [hm] at hm'
    cases hm'

theorem Ends.of_error {e : ε} (hm : m.run s = ⟨.error e, t, w⟩) (h : E e) : m.Ends s Q E := by
  refine ⟨fun a t' w' hm' => ?_, fun e' t' w' hm' => ?_⟩
  · rw [hm] at hm'
    cases hm'
  · rw [hm] at hm'
    cases hm'
    exact h

theorem Ends.fail {e : ε} (h : E e) : (Journal.fail e : Journal ε σ ω α).Ends s Q E := .of_error rfl h

theorem Ends.mono {R : α → σ → List ω → Prop} {F : ε → Prop} (h : m.Ends s Q E)
    (hR : ∀ a t w, Q a t w → R a t w) (hF : ∀ e, E e → F e) : m.Ends s R F :=
  ⟨fun a t w hm => hR a t w (h.1 a t w hm), fun e t w hm => hF e (h.2 e t w hm)⟩

theorem Ends.bind {f : α → Journal ε σ ω β} {R : β → σ → List ω → Prop} (h : m.Ends s Q E)
    (hf : ∀ a t w, Q a t w → (f a).Ends t (fun b u w' => R b u (w ++ w')) E) :
    (m >>= f).Ends s R E := by
  refine ⟨fun b u w hrun => ?_, fun e u w hrun => ?_⟩
  · obtain ⟨a, t, v, v', hm, hfa, rfl⟩ := bind_eq_ok_iff.1 hrun
    exact (hf a t v (h.1 a t v hm)).1 b u v' hfa
  · obtain hm | ⟨a, t, v, v', hm, hfa, rfl⟩ := bind_eq_error_iff.1 hrun
    · exact h.2 e u w hm
    · exact (hf a t v (h.1 a t v hm)).2 e u v' hfa

/-- A run that ends either succeeds as required or fails as required. -/
theorem Ends.cases (h : m.Ends s Q E) :
    (∃ a t w, m.run s = ⟨.ok a, t, w⟩ ∧ Q a t w) ∨ ∃ e t w, m.run s = ⟨.error e, t, w⟩ ∧ E e := by
  rcases hm : m.run s with ⟨e | a, t, w⟩
  · exact .inr ⟨e, t, w, rfl, h.2 e t w hm⟩
  · exact .inl ⟨a, t, w, rfl, h.1 a t w hm⟩

end Ends

/-! ### One computation per item -/

/-- A run over the items of a list: each is related to what it gave, to the state before it and to the
state after it, and the next one starts from there. -/
inductive Chain {γ : Type} (R : σ → α → γ → σ → Prop) : σ → List α → List γ → σ → Prop
  | nil {s : σ} : Chain R s [] [] s
  | cons {s t u : σ} {x : α} {y : γ} {xs : List α} {ys : List γ} :
      R s x y t → Chain R t xs ys u → Chain R s (x :: xs) (y :: ys) u

/-- A computation that succeeds on each item of a list makes such a chain. -/
theorem chain_of_mapM {γ : Type} {m : α → Journal ε σ ω γ} {R : σ → α → γ → σ → Prop}
    (hstep : ∀ {x s t y w}, (m x).run s = ⟨.ok y, t, w⟩ → R s x y t) {xs : List α} {ys : List γ}
    (h : (xs.mapM m).run s = ⟨.ok ys, t, w⟩) : Chain R s xs ys t := by
  induction xs generalizing s ys w with
  | nil =>
    rw [List.mapM_nil] at h
    obtain ⟨rfl, rfl, -⟩ := pure_ok.1 h
    exact .nil
  | cons x xs ih =>
    rw [List.mapM_cons] at h
    obtain ⟨y, s₁, _, _, hx, h₁, -⟩ := bind_eq_ok_iff.1 h
    obtain ⟨ys', s₂, _, _, hxs, hpure, -⟩ := bind_eq_ok_iff.1 h₁
    obtain ⟨rfl, rfl, -⟩ := pure_ok.1 hpure
    exact .cons (hstep hx) (ih hxs)

/-- Conversely a computation succeeds along a chain of items that it succeeds on. -/
theorem mapM_of_chain {γ : Type} {m : α → Journal ε σ ω γ} {R : σ → α → γ → σ → Prop}
    (hstep : ∀ {x s t y}, R s x y t → ∃ w, (m x).run s = ⟨.ok y, t, w⟩) {xs : List α} {ys : List γ}
    (h : Chain R s xs ys t) : ∃ w, (xs.mapM m).run s = ⟨.ok ys, t, w⟩ := by
  induction h with
  | nil => exact ⟨[], by rw [List.mapM_nil]; rfl⟩
  | cons hx _ ih =>
    obtain ⟨w, hw⟩ := hstep hx
    obtain ⟨w', hw'⟩ := ih
    refine ⟨w ++ (w' ++ []), ?_⟩
    rw [List.mapM_cons]
    exact bind_eq_ok_iff.2 ⟨_, _, _, _, hw, bind_eq_ok_iff.2 ⟨_, _, _, _, hw', rfl, rfl⟩, rfl⟩

/-- A computation that fails on a list fails on one of its items, after it has succeeded on those before. -/
theorem mapM_eq_error {γ : Type} {m : α → Journal ε σ ω γ} {xs : List α} {e : ε}
    (h : (xs.mapM m).run s = ⟨.error e, t, w⟩) :
    ∃ before x after ys u v v', xs = before ++ x :: after ∧ (before.mapM m).run s = ⟨.ok ys, u, v⟩ ∧
      (m x).run u = ⟨.error e, t, v'⟩ := by
  induction xs generalizing s w with
  | nil =>
    rw [List.mapM_nil] at h
    cases h
  | cons x xs ih =>
    rw [List.mapM_cons] at h
    obtain hx | ⟨y, u, v, _, hx, hrest, -⟩ := bind_eq_error_iff.1 h
    · exact ⟨[], x, xs, [], s, [], w, rfl, by rw [List.mapM_nil]; rfl, hx⟩
    · obtain hxs | ⟨ys, _, _, _, _, hpure, -⟩ := bind_eq_error_iff.1 hrest
      · obtain ⟨before, x', after, ys, u', v', v'', rfl, hbefore, hx'⟩ := ih hxs
        refine ⟨x :: before, x', after, y :: ys, u', v ++ (v' ++ []), v'', rfl, ?_, hx'⟩
        rw [List.mapM_cons]
        exact bind_eq_ok_iff.2 ⟨_, _, _, _, hx, bind_eq_ok_iff.2 ⟨_, _, _, _, hbefore, rfl, rfl⟩, rfl⟩
      · cases hpure

/-- Items that can be related to something from any state make a chain. -/
theorem exists_chain {γ : Type} {R : σ → α → γ → σ → Prop} {xs : List α}
    (h : ∀ x ∈ xs, ∀ s, ∃ y t, R s x y t) (s : σ) : ∃ ys t, Chain R s xs ys t := by
  induction xs generalizing s with
  | nil => exact ⟨_, _, .nil⟩
  | cons x xs ih =>
    obtain ⟨hx, hxs⟩ := List.forall_mem_cons.1 h
    obtain ⟨y, t, hy⟩ := hx s
    obtain ⟨ys, u, hys⟩ := ih hxs t
    exact ⟨_, _, .cons hy hys⟩

namespace Chain

variable {γ δ τ : Type} {R : σ → α → γ → σ → Prop} {S : τ → γ → δ → τ → Prop} {u v : τ} {xs : List α}
  {ys : List γ} {zs : List δ}

theorem forall_mem {P : γ → Prop} (h : Chain R s xs ys t) (hP : ∀ {s x y t}, R s x y t → P y) :
    ∀ y ∈ ys, P y := by
  induction h with
  | nil => exact nofun
  | cons hx _ ih => exact List.forall_mem_cons.2 ⟨hP hx, ih⟩

theorem exists_of_mem (h : Chain R s xs ys t) : ∀ x ∈ xs, ∃ s y t, R s x y t := by
  induction h with
  | nil => exact List.forall_mem_nil _
  | cons hx _ ih => exact List.forall_mem_cons.2 ⟨⟨_, _, _, hx⟩, ih⟩

theorem exists_of_mem_right (h : Chain R s xs ys t) : ∀ y ∈ ys, ∃ x ∈ xs, ∃ s t, R s x y t := by
  induction h with
  | nil => exact List.forall_mem_nil _
  | cons hx _ ih =>
    refine List.forall_mem_cons.2 ⟨⟨_, List.mem_cons_self .., _, _, hx⟩, fun y hy => ?_⟩
    obtain ⟨x, hmem, hstep⟩ := ih y hy
    exact ⟨x, List.mem_cons_of_mem _ hmem, hstep⟩

theorem forall₂ {P : α → γ → Prop} (h : Chain R s xs ys t) (hP : ∀ {s x y t}, R s x y t → P x y) :
    List.Forall₂ P xs ys := by
  induction h with
  | nil => exact .nil
  | cons hx _ ih => exact .cons (hP hx) ih

theorem mono {P : σ → α → γ → σ → Prop} (h : Chain R s xs ys t) (hP : ∀ {s x y t}, R s x y t → P s x y t) :
    Chain P s xs ys t := by
  induction h with
  | nil => exact .nil
  | cons hx _ ih => exact .cons (hP hx) ih

/-- A property of the state that every step keeps holds at every step. -/
theorem keep {I : σ → Prop} {P : σ → α → γ → σ → Prop} (h : Chain R s xs ys t) (hs : I s)
    (hstep : ∀ {s x y t}, I s → R s x y t → I t ∧ P s x y t) : I t ∧ Chain P s xs ys t := by
  induction h with
  | nil => exact ⟨hs, .nil⟩
  | cons hx _ ih =>
    obtain ⟨ht, hP⟩ := hstep hs hx
    obtain ⟨hu, hchain⟩ := ih ht
    exact ⟨hu, .cons hP hchain⟩

/-- Two runs one after the other, where the second takes what the first gave. -/
theorem through {P : α → δ → Prop} (h : Chain R s xs ys t) (h' : Chain S u ys zs v)
    (hP : ∀ {s x y t u z v}, R s x y t → S u y z v → P x z) : List.Forall₂ P xs zs := by
  induction h generalizing u zs with
  | nil =>
    cases h'
    exact .nil
  | cons hx _ ih =>
    cases h' with
    | cons hy hrest => exact .cons (hP hx hy) (ih hrest)

end Chain

end Spillway.Journal
