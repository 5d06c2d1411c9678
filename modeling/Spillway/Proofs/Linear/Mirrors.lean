import Spillway.Proofs.Requests

/-!
# Code that does what a computation does

Seen from outside, a run of code has a result, which is read off its last state, it leaves the world in some state, and
it has asked for things one after the other. Code mirrors a computation if all this is the same, also if both are
stopped. Pieces of code that mirror the steps of a computation mirror the whole: `Mirrors.bind`.
-/

namespace Spillway.Linear

variable {W α β : Type} {rt : Runtime W} {calls : Calls W}

/-- What a run of code looks like from outside, if `read` reads its result off the state. -/
def observed (read : State W → α) (run : Run Unit (State W) Request Unit) : Run Unit (Outside W) Request α :=
  ⟨run.result.map fun _ => read run.state, run.state.outside, run.entries⟩

/-- Run from a state, the code does what a computation does. -/
def Mirrors (rt : Runtime W) (calls : Calls W) (code : List Instr) (read : State W → α) (x : Asking W α)
    (s : State W) : Prop :=
  observed read ((perform rt calls code).run s) = x.run s.outside

variable {code code' : List Instr} {s s' : State W} {read : State W → α} {read' : State W → β}

/-- Code runs on from any state that the code before it may end in. -/
theorem Mirrors.bind {x : Asking W α} {f : α → Asking W β} (h : Mirrors rt calls code read x s)
    (hnext : ∀ t : State W, State.SameBut code s t →
      Mirrors rt calls code' read' (f (read t)) t) :
    Mirrors rt calls (code ++ code') read' (x >>= f) s := by
  have hkept : State.SameBut code s ((perform rt calls code).run s).state := sameBut_perform code s
  rw [Mirrors, perform_append, Journal.bind_run, Journal.bind_run, ← h]
  generalize (perform rt calls code).run s = run at hkept ⊢
  rcases run with ⟨_ | _, t, asked⟩
  · rfl
  · have hthen := hnext t hkept
    rw [Mirrors] at hthen
    show observed read' _ = Run.mk ((f (read t)).run t.outside).result ((f (read t)).run t.outside).state
      (asked ++ ((f (read t)).run t.outside).entries)
    rw [← hthen]
    rfl

theorem Mirrors.map {x : Asking W α} {g : α → β} (h : Mirrors rt calls code read x s)
    (hread : ∀ t : State W, State.SameBut code s t → read' t = g (read t)) :
    Mirrors rt calls code read' (g <$> x) s := by
  rw [← List.append_nil code, ← bind_pure_comp]
  refine h.bind fun t ht => ?_
  rw [← hread t ht]
  rfl

/-- One result may be read off as a list. -/
theorem mirrors_singleton {r : VReg} {x : Asking W Word} :
    Mirrors rt calls code (fun t => [r].map t.regs) ((fun v => [v]) <$> x) s ↔
      Mirrors rt calls code (·.regs r) x s := by
  constructor
  · intro h
    have hhead : (fun vs : List Word => vs.headD 0) <$> (fun v => [v]) <$> x = x := by
      rw [← comp_map]
      exact id_map x
    rw [← hhead]
    exact h.map fun _ _ => rfl
  · intro h
    exact h.map fun _ _ => rfl

/-- A run that is not stopped has the value that the computation has. -/
theorem Mirrors.run_eq {x : Asking W α} (h : Mirrors rt calls code read x s)
    (hok : ((perform rt calls code).run s).result = .ok ()) :
    x.run s.outside = ⟨.ok (read ((perform rt calls code).run s).state),
      ((perform rt calls code).run s).state.outside, ((perform rt calls code).run s).entries⟩ := by
  rw [← h, observed, hok]
  rfl

theorem Mirrors.straight_eq {x : Asking W α} (h : Mirrors rt calls code read x s) :
    (straight rt calls code s).map (fun t => (read t, t.outside)) = (x.run s.outside).finished? := by
  have hfinished : ((perform rt calls code).run s).finished? = (straight rt calls code s).map ((), ·) :=
    finished?_perform code s
  rw [← h]
  generalize (perform rt calls code).run s = run at hfinished ⊢
  generalize straight rt calls code s = t at hfinished ⊢
  rcases run with ⟨_ | _, t', asked⟩ <;> cases t <;> cases hfinished <;> rfl

/-- Code that asks for nothing. -/
theorem mirrors_pure {v : α} (hcode : ∀ i ∈ code, ∀ t : State W, i.request? t = none)
    (hrun : straight rt calls code s = some s') (hout : s'.outside = s.outside) (hv : read s' = v) :
    Mirrors rt calls code read (pure v) s := by
  rw [Mirrors, perform_of_quiet hcode hrun, observed, hout, ← hv]
  rfl

/-- An instruction that asks for a value and puts it into a register. -/
theorem mirrors_ask {i : Instr} {q : Request} {r : VReg} (answer : Option (Word × Outside W))
    (next : Outside W → State W) (hq : i.request? s = some q)
    (hanswer : q.answer rt calls s.outside = answer.map fun a => (some a.1, a.2))
    (hi : i.effect rt s = answer.map fun a => ((next a.2).set r a.1, .next)) (hnext : ∀ o, (next o).outside = o) :
    Mirrors rt calls [i] (·.regs r) (q.ask rt calls) s := by
  rw [Mirrors, perform_singleton, Journal.run, Journal.run, Request.ask, hanswer, Instr.perform, Instr.straight, hi, hq]
  cases answer with
  | none => rfl
  | some a =>
    have hvalue : ((next a.2).set r a.1).regs r = a.1 := Function.update_self ..
    show Run.mk (.ok (((next a.2).set r a.1).regs r)) (next a.2).outside [q] = _
    rw [hvalue, hnext]
    rfl

/-- An instruction that loads a word. -/
theorem mirrors_load {i : Instr} {cell : Cell} {r : VReg} (hq : i.request? s = some (.load cell))
    (hi : i.effect rt s = (s.outside.load rt cell).map fun v => (s.set r v, .next)) :
    Mirrors rt calls [i] (·.regs r) ((Request.load cell).ask rt calls) s := by
  refine mirrors_ask ((s.outside.load rt cell).map (·, s.outside)) (fun o => { s with outside := o }) hq ?_ ?_
    fun _ => rfl
  · rw [Option.map_map]
    rfl
  · rw [hi, Option.map_map]
    rfl

/-- An instruction that computes a value. -/
theorem mirrors_compute {i : Instr} {r : VReg} {v : Word} (hq : ∀ t : State W, i.request? t = none)
    (hi : i.effect rt s = some (s.set r v, .next)) : Mirrors rt calls [i] (·.regs r) (pure v) s := by
  refine mirrors_pure (fun j hj => ?_) (straight_next hi) rfl (Function.update_self ..)
  rw [List.mem_singleton.1 hj]
  exact hq

/-- Passing arguments, calling, and taking the value. -/
theorem mirrors_call (rs : List VReg) (f : String) (r : VReg) (s : State W) :
    Mirrors rt calls [.push rs f, .call f, .result r, .pop rs f] (·.regs r)
      ((Request.call f (rs.map s.regs)).ask rt calls) s := by
  let s₁ : State W := { s with args := rs.map s.regs }
  have hpush : ((Instr.push rs f).perform rt calls).run s = ⟨.ok (), s₁, []⟩ := rfl
  have hstraight : (Instr.call f).straight rt calls s₁
      = (calls f (rs.map s.regs) s.outside).map fun a => s₁.returned a.1 a.2 := by
    rw [Option.map_eq_bind]
    rfl
  rw [Mirrors, perform_cons, Journal.bind_run, hpush, Journal.andThen_ok, perform_cons, Journal.bind_run, Journal.run,
    Journal.run, Instr.perform, hstraight, Request.ask, Request.answer]
  -- The call is stopped, or returns nothing and stops `result`, or returns a value.
  rcases calls f (rs.map s.regs) s.outside with _ | ⟨_ | v, o⟩
  · rfl
  · rfl
  · have hvalue : ((s₁.returned (some v) o).set r v).regs r = v := Function.update_self ..
    show Run.mk (.ok (((s₁.returned (some v) o).set r v).regs r)) o _ = _
    rw [hvalue]
    rfl

end Spillway.Linear
