import Spillway.Journal

/-!
# Runs in translation

Two computations may do the same under other names: the second starts from the translated state, writes
the translated entries, reaches the translated state, and ends in the translated value or in the
translated error. `Translation.Carries` says so for every run, failing runs included. It is proved
along the structure of a computation, one lemma for each way to put computations together.
-/

namespace Spillway.Journal

variable {ε σ ω ν α β γ δ : Type}

/-- How the errors, states and entries of one computation appear in another. -/
structure Translation (ε σ ω : Type) where
  error : ε → ε
  state : σ → σ
  entry : ω → ω
  /-- The states that the translation is for. -/
  covers : σ → Prop

namespace Translation

/-- The outcome of a run in translation. -/
def run (T : Translation ε σ ω) (f : α → β) (r : Run ε σ ω α) : Run ε σ ω β :=
  ⟨(r.result.map f).mapError T.error, T.state r.state, r.entries.map T.entry⟩

/-- The second computation is the first in translation, and the states remain covered. -/
def Carries (T : Translation ε σ ω) (f : α → β) (m : Journal ε σ ω α) (m' : Journal ε σ ω β) : Prop :=
  ∀ s, T.covers s → T.covers (m.run s).state ∧ m'.run (T.state s) = T.run f (m.run s)

namespace Carries

variable {T : Translation ε σ ω} {f : α → β} {g : γ → δ}

theorem pure {a : α} {b : β} (h : b = f a) : T.Carries f (pure a) (pure b) := by
  rw [h]
  exact fun _ hs => ⟨hs, rfl⟩

theorem bind {m : Journal ε σ ω α} {m' : Journal ε σ ω β} {k : α → Journal ε σ ω γ}
    {k' : β → Journal ε σ ω δ} (hm : T.Carries f m m') (hk : ∀ a, T.Carries g (k a) (k' (f a))) :
    T.Carries g (m >>= k) (m' >>= k') := by
  intro s hs
  obtain ⟨hcovers, hrun⟩ := hm s hs
  rw [bind_run, bind_run, hrun]
  generalize m.run s = r at hcovers
  rcases r with ⟨_ | a, t, w⟩
  · exact ⟨hcovers, rfl⟩
  · obtain ⟨hcovers', hrun'⟩ := hk a t hcovers
    refine ⟨hcovers', ?_⟩
    show (Run.mk (.ok (f a)) (T.state t) (w.map T.entry)).andThen k' = _
    rw [andThen_ok, andThen_ok, hrun']
    simp [run]

theorem fail (e : ε) : T.Carries f (fail e) (fail (T.error e)) := fun _ hs => ⟨hs, rfl⟩

theorem ofExcept {x : Except ε α} {x' : Except ε β} (h : x' = (x.map f).mapError T.error) :
    T.Carries f (ofExcept x) (ofExcept x') := by
  rw [h]
  exact fun _ hs => ⟨hs, rfl⟩

theorem record {w w' : ω} (h : w' = T.entry w) : T.Carries id (record w) (record w') := by
  rw [h]
  exact fun _ hs => ⟨hs, rfl⟩

theorem recordAll {ws ws' : List ω} (h : ws' = ws.map T.entry) :
    T.Carries id (recordAll ws) (recordAll ws') := by
  rw [h]
  exact fun _ hs => ⟨hs, rfl⟩

theorem get : T.Carries T.state get get := fun _ hs => ⟨hs, rfl⟩

theorem set {t : σ} (ht : T.covers t) : T.Carries id (set t) (set (T.state t)) := fun _ _ => ⟨ht, rfl⟩

theorem ite {c : Prop} [Decidable c] {m n : Journal ε σ ω α} {m' n' : Journal ε σ ω β}
    (hm : c → T.Carries f m m') (hn : ¬c → T.Carries f n n') :
    T.Carries f (if c then m else n) (if c then m' else n') := by
  by_cases h : c
  · rw [if_pos h, if_pos h]
    exact hm h
  · rw [if_neg h, if_neg h]
    exact hn h

theorem modify {h h' : σ → σ} (hh : ∀ s, T.covers s → T.covers (h s) ∧ h' (T.state s) = T.state (h s)) :
    T.Carries id (modify h) (modify h') := by
  intro s hs
  obtain ⟨hcovers, heq⟩ := hh s hs
  rw [modify_run, modify_run, heq]
  exact ⟨hcovers, rfl⟩

theorem modifyGet {h : σ → α × σ} {h' : σ → β × σ}
    (hh : ∀ s, T.covers s → T.covers (h s).2 ∧ h' (T.state s) = (f (h s).1, T.state (h s).2)) :
    T.Carries f (modifyGet h) (modifyGet h') := by
  intro s hs
  obtain ⟨hcovers, heq⟩ := hh s hs
  refine ⟨hcovers, ?_⟩
  show Run.mk (.ok (h' (T.state s)).1) (h' (T.state s)).2 [] = _
  rw [heq]
  rfl

/-! ### One computation per item -/

theorem forM {m : γ → Journal ε σ ω PUnit} {m' : δ → Journal ε σ ω PUnit} (xs : List γ)
    (h : ∀ x ∈ xs, T.Carries id (m x) (m' (g x))) : T.Carries id (xs.forM m) ((xs.map g).forM m') := by
  induction xs with
  | nil => exact .pure rfl
  | cons x xs ih =>
    exact (h x (List.mem_cons_self ..)).bind fun _ => ih fun y hy => h y (List.mem_cons_of_mem _ hy)

theorem mapM {m : γ → Journal ε σ ω α} {m' : δ → Journal ε σ ω β} (xs : List γ)
    (h : ∀ x ∈ xs, T.Carries f (m x) (m' (g x))) :
    T.Carries (List.map f) (xs.mapM m) ((xs.map g).mapM m') := by
  induction xs with
  | nil => exact .pure rfl
  | cons x xs ih =>
    rw [List.map_cons, List.mapM_cons, List.mapM_cons]
    refine (h x (List.mem_cons_self ..)).bind fun a => ?_
    refine (ih fun y hy => h y (List.mem_cons_of_mem _ hy)).bind fun as => ?_
    exact .pure rfl

/-! ### Handing over the entries -/

/-- The translation of a computation that reports entries as notices. -/
theorem collect {U : Translation ε σ ν} {notice : ω → ν} {m : Journal ε σ ω α} {m' : Journal ε σ ω β}
    (hm : T.Carries f m m') (herror : U.error = T.error) (hstate : U.state = T.state)
    (hcovers : U.covers = T.covers) (hnotice : ∀ w, U.entry (notice w) = notice (T.entry w)) :
    U.Carries (Prod.map f (List.map T.entry)) (m.collect notice) (m'.collect notice) := by
  intro s hs
  rw [hcovers] at hs
  obtain ⟨hcovers', hrun⟩ := hm s hs
  rw [hcovers, collect_run, collect_run, hstate, hrun]
  refine ⟨hcovers', ?_⟩
  have hmap : ∀ ws : List ω, (ws.map T.entry).map notice = (ws.map notice).map U.entry := by
    intro ws
    simp [hnotice]
  rcases m.run s with ⟨_ | a, t, w⟩ <;> simp only [run, hmap, herror, hstate] <;> rfl

end Carries

end Translation

end Spillway.Journal
