import Spillway.Proofs.Journal
import Spillway.Proofs.Linear.Machine
import Spillway.Proofs.Source.Semantics

/-!
# What code asks the world for

Loads leave no mark on the world, so the world alone does not tell in which order they were made. Here every use that
is made of the world is a `Request`, and evaluating an expression or running code writes its requests down in order.
A run that the world stops has written down all requests up to the one that was refused.

* `Statics.perform` — the value of an expression, with its requests. `Statics.finished?_perform` says that without the
  requests it is `Statics.eval`.
* `Linear.perform` — code without jumps, with its requests. Without them it is `Linear.straight`.
-/

namespace Spillway

variable {ε σ ω α β W : Type}

/-! ### Runs without their entries -/

/-- The value and the state of a run that succeeds. -/
def Run.finished? (r : Run ε σ ω α) : Option (α × σ) :=
  match r.result with
  | .ok a => some (a, r.state)
  | .error _ => none

theorem Journal.finished?_bind (m : Journal ε σ ω α) (f : α → Journal ε σ ω β) (s : σ) :
    ((m >>= f).run s).finished? = (m.run s).finished?.bind fun r => ((f r.1).run r.2).finished? := by
  rw [bind_run]
  rcases m.run s with ⟨_ | a, t, w⟩ <;> rfl

theorem Journal.finished?_map (g : α → β) (m : Journal ε σ ω α) (s : σ) :
    ((g <$> m).run s).finished? = (m.run s).finished?.map fun r => (g r.1, r.2) := by
  rw [← bind_pure_comp, finished?_bind, Option.map_eq_bind]
  rfl

/-! ### Requests -/

/-- Something that code asks the world for. -/
inductive Request where
  | load (c : Cell)
  | store (c : Cell) (value : Word)
  | alloc (words : Nat)
  | free (pointer : Word)
  | call (function : String) (arguments : List Word)
  | print (value : Word) (newline : Bool)
  | read
  deriving DecidableEq, Repr

/-- What the world does when it is asked: the value that comes back, if there is one, and the world afterwards. -/
def Request.answer (rt : Runtime W) (calls : Calls W) (o : Outside W) : Request → Option (Option Word × Outside W)
  | .load c => (o.load rt c).map fun v => (some v, o)
  | .store c value => (o.store rt c value).map fun o' => (none, o')
  | .alloc words => (o.alloc rt words).map fun r => (some r.1, r.2)
  | .free pointer => (o.free rt pointer).map fun o' => (none, o')
  | .call f arguments => calls f arguments o
  | .print value newline => some (none, o.print value newline)
  | .read => (o.read rt).map fun r => (some r.1, r.2)

/-- A computation that asks the world for things. -/
abbrev Asking (W : Type) := Journal Unit (Outside W) Request

/-- Asks the world for a value. It is an error if none comes back. -/
def Request.ask (rt : Runtime W) (calls : Calls W) (q : Request) : Asking W Word := fun o =>
  match q.answer rt calls o with
  | none => ⟨.error (), o, [q]⟩
  | some (none, o') => ⟨.error (), o', [q]⟩
  | some (some v, o') => ⟨.ok v, o', [q]⟩

theorem Request.finished?_ask (rt : Runtime W) (calls : Calls W) (q : Request) (o : Outside W) :
    ((q.ask rt calls).run o).finished? = (q.answer rt calls o).bind fun r => r.1.map (·, r.2) := by
  rw [Journal.run, ask]
  rcases q.answer rt calls o with _ | ⟨_ | v, o'⟩ <;> rfl

/-! ### Expressions -/

/-- Whether an operator compares. -/
def BinOp.compares : BinOp → Bool
  | .eq | .ne | .lt | .le | .gt | .ge => true
  | .or | .and | .add | .sub | .mul | .div => false

theorem truth_eq (b : Bool) : truth b = 0 ∨ truth b = 1 := by
  cases b
  · exact .inl rfl
  · exact .inr rfl

theorem BinOp.apply_of_compares {op : BinOp} (h : op.compares = true) (a b : Word) :
    op.apply a b = 0 ∨ op.apply a b = 1 := by
  cases op with
  | eq | ne | lt | le | gt | ge => exact truth_eq _
  | or | and | add | sub | mul | div => cases h

namespace Statics

variable (Γ : Statics) (rt : Runtime W) (calls : Calls W)

/-- The value of a variable. -/
def performName (ρ : String → Word) (x : String) : Asking W Word :=
  match Γ.home x with
  | some .own => return ρ x
  | some .memory => (Request.load (.global x)).ask rt calls
  | none => Journal.fail ()

/-- The word that a path of fields leads to. -/
def performPath : Word → Option String → List String → Asking W Word
  | v, _, [] => return v
  | v, struct, x :: path =>
    match struct.bind (Γ.field · x) with
    | some (place, next) => do performPath (← (Request.load (.field v place)).ask rt calls) next path
    | none => Journal.fail ()

/-- Allocates the struct that an allocation names. -/
def performNew (arguments : List Expr) : Asking W Word :=
  match (allocated? arguments).bind Γ.words with
  | some words => (Request.alloc words).ask rt calls
  | none => Journal.fail ()

mutual

/-- The value of an expression. -/
def perform (ρ : String → Word) : Expr → Asking W Word
  | .int v => return v.toBitVec
  | .bool b => return truth b
  | .nil => return 0
  | .name x => Γ.performName rt calls ρ x
  | .paren e => perform ρ e
  | .chain head links => do performLinks ρ (← perform ρ head) links
  | .unary op e => do return op.apply (← perform ρ e)
  | .select base path => do Γ.performPath rt calls (← perform ρ base) (Γ.pointeeOf base) path
  | .call f arguments =>
    match Γ.callee f with
    | some (.user _) => do (Request.call f (← performAll ρ arguments)).ask rt calls
    | some (.builtin .new) => Γ.performNew rt calls arguments
    | some (.builtin .delete) | none => Journal.fail ()
  | .missing .. => Journal.fail ()

/-- The value of a chain that goes on from a value, from left to right. -/
def performLinks (ρ : String → Word) : Word → List (BinOp × Expr) → Asking W Word
  | v, [] => return v
  | v, (op, e) :: rest => do performLinks ρ (op.apply v (← perform ρ e)) rest

/-- The values of expressions, from left to right. -/
def performAll (ρ : String → Word) : List Expr → Asking W (List Word)
  | [] => return []
  | e :: rest => do
    let v ← perform ρ e
    return v :: (← performAll ρ rest)

end

variable {Γ rt calls} {ρ : String → Word}

theorem finished?_load (c : Cell) (o : Outside W) :
    (((Request.load c).ask rt calls).run o).finished? = (o.load rt c).map (·, o) := by
  rw [Request.finished?_ask, Request.answer]
  cases o.load rt c <;> rfl

theorem finished?_performName (x : String) (o : Outside W) :
    ((Γ.performName rt calls ρ x).run o).finished? = (Γ.readName rt ⟨ρ, o⟩ x).map (·, o) := by
  rw [performName, readName]
  rcases Γ.home x with _ | _ | _
  · rfl
  · rfl
  · exact finished?_load (.global x) o

theorem finished?_performPath (v : Word) (struct : Option String) (path : List String) (o : Outside W) :
    ((Γ.performPath rt calls v struct path).run o).finished? = (Γ.follow rt o v struct path).map (·, o) := by
  induction path generalizing v struct with
  | nil => rfl
  | cons x path ih =>
    rw [performPath, follow]
    rcases struct with _ | struct
    · rfl
    · simp only [Option.bind_some, Option.bind_eq_bind]
      rcases Γ.field struct x with _ | ⟨place, next⟩
      · rfl
      · simp only [Option.bind_some, Journal.finished?_bind, finished?_load]
        cases o.load rt (.field v place) with
        | none => rfl
        | some u => exact ih u next

theorem finished?_performNew (arguments : List Expr) (o : Outside W) :
    ((Γ.performNew rt calls arguments).run o).finished? = Γ.allocate rt o arguments := by
  rw [performNew, allocate]
  rcases allocated? arguments with _ | struct
  · rfl
  · simp only [Option.bind_some, Option.bind_eq_bind]
    rcases Γ.words struct with _ | words
    · rfl
    · simp only [Option.bind_some, Request.finished?_ask, Request.answer]
      cases o.alloc rt words <;> rfl

mutual

/-- **Requests apart, this is evaluation.** -/
theorem finished?_perform : ∀ (e : Expr) (o : Outside W),
    ((Γ.perform rt calls ρ e).run o).finished? = Γ.eval rt calls ρ e o
  | .int v, o => by rw [perform, eval]; rfl
  | .bool b, o => by rw [perform, eval]; rfl
  | .nil, o => by rw [perform, eval]; rfl
  | .name x, o => by
    rw [perform, eval, finished?_performName]
    cases Γ.readName rt ⟨ρ, o⟩ x <;> rfl
  | .paren e, o => by
    rw [perform, eval]
    exact finished?_perform e o
  | .chain head links, o => by
    rw [perform, eval, Journal.finished?_bind, finished?_perform head]
    exact Option.bind_congr fun r _ => finished?_performLinks r.1 links r.2
  | .unary op e, o => by
    rw [perform, eval, Journal.finished?_bind, finished?_perform e]
    rfl
  | .select base path, o => by
    rw [perform, eval, Journal.finished?_bind, finished?_perform base]
    refine Option.bind_congr ?_
    rintro ⟨v, o'⟩ -
    rw [finished?_performPath]
    exact Option.map_eq_bind ..
  | .call f arguments, o => by
    rw [perform, eval]
    rcases Γ.callee f with _ | callee
    · rfl
    · cases callee with
      | user =>
        show ((Γ.performAll rt calls ρ arguments >>= _).run o).finished? = _
        rw [Journal.finished?_bind, finished?_performAll arguments]
        refine Option.bind_congr ?_
        rintro ⟨vs, o'⟩ -
        rw [Request.finished?_ask, Request.answer]
        refine Option.bind_congr ?_
        rintro ⟨_ | v, o''⟩ - <;> rfl
      | builtin b =>
        cases b with
        | new => exact finished?_performNew arguments o
        | delete => rfl
  | .missing _ _, o => by rw [perform, eval]; rfl

theorem finished?_performLinks : ∀ (v : Word) (links : List (BinOp × Expr)) (o : Outside W),
    ((Γ.performLinks rt calls ρ v links).run o).finished? = Γ.evalLinks rt calls ρ v links o
  | v, [], o => by rw [performLinks, evalLinks]; rfl
  | v, (op, e) :: rest, o => by
    rw [performLinks, evalLinks, Journal.finished?_bind, finished?_perform e]
    exact Option.bind_congr fun r _ => finished?_performLinks (op.apply v r.1) rest r.2

theorem finished?_performAll : ∀ (es : List Expr) (o : Outside W),
    ((Γ.performAll rt calls ρ es).run o).finished? = Γ.evalAll rt calls ρ es o
  | [], o => by rw [performAll, evalAll]; rfl
  | e :: rest, o => by
    rw [performAll, evalAll, Journal.finished?_bind, finished?_perform e]
    refine Option.bind_congr fun r _ => ?_
    rw [Journal.finished?_bind, finished?_performAll rest]
    rfl

end

/-- A chain is a fold from the left: each operand is evaluated once, in its place, and combined with the value so
far. -/
theorem performLinks_eq_foldlM (v : Word) (links : List (BinOp × Expr)) :
    Γ.performLinks rt calls ρ v links
      = links.foldlM (fun u link => (link.1.apply u ·) <$> Γ.perform rt calls ρ link.2) v := by
  induction links generalizing v with
  | nil => rw [performLinks, List.foldlM_nil]
  | cons link rest ih =>
    obtain ⟨op, e⟩ := link
    rw [performLinks, List.foldlM_cons, bind_map_left]
    simp only [ih]

/-- A chain that ends in a comparison has the value 0 or 1. -/
theorem perform_comparison {head operand : Expr} {links : List (BinOp × Expr)} {op : BinOp} (hop : op.compares = true)
    {o o' : Outside W} {v : Word} {requests : List Request}
    (h : (Γ.perform rt calls ρ (.chain head (links ++ [(op, operand)]))).run o = ⟨.ok v, o', requests⟩) :
    v = 0 ∨ v = 1 := by
  rw [perform] at h
  obtain ⟨u, _, _, _, -, hlinks, -⟩ := Journal.bind_eq_ok_iff.1 h
  rw [performLinks_eq_foldlM, List.foldlM_append] at hlinks
  obtain ⟨u', _, _, _, -, hlast, -⟩ := Journal.bind_eq_ok_iff.1 hlinks
  rw [List.foldlM_cons, bind_map_left] at hlast
  obtain ⟨w, _, _, _, -, hpure, -⟩ := Journal.bind_eq_ok_iff.1 hlast
  rw [(Journal.pure_ok.1 hpure).1]
  exact BinOp.apply_of_compares hop u' w

end Statics

/-! ### Code -/

namespace Linear

/-- What an instruction asks the world for. -/
def Instr.request? (s : State W) : Instr → Option Request
  | .load _ address => some (.load (address.cell s.regs))
  | .store value address => some (.store (address.cell s.regs) (s.regs value))
  | .loadField _ base _ index => some (.load (.field (s.regs base) index))
  | .storeField value base _ index => some (.store (.field (s.regs base) index) (s.regs value))
  | .alloc _ _ fields => some (.alloc fields)
  | .free pointer => some (.free (s.regs pointer))
  | .call callee => some (.call callee s.args)
  | .print source => some (.print (s.regs source) false)
  | .println source => some (.print (s.regs source) true)
  | .read _ _ => some .read
  | .binary .. | .not .. | .cmp .. | .branch .. | .label _ | .push .. | .pop .. | .mov .. | .result _ | .ret _ => none

variable (rt : Runtime W) (calls : Calls W)

/-- What an instruction does in code without jumps. -/
def Instr.perform (i : Instr) : Journal Unit (State W) Request Unit := fun s =>
  match i.straight rt calls s with
  | some s' => ⟨.ok (), s', (i.request? s).toList⟩
  | none => ⟨.error (), s, (i.request? s).toList⟩

/-- Runs code without jumps. -/
def perform (code : List Instr) : Journal Unit (State W) Request Unit := code.forM (Instr.perform rt calls)

variable {rt calls}

theorem perform_append (code code' : List Instr) :
    perform rt calls (code ++ code') = perform rt calls code >>= fun _ => perform rt calls code' :=
  List.forM_append

theorem Instr.perform_of_some {i : Instr} {s s' : State W} (h : i.straight rt calls s = some s') :
    (i.perform rt calls).run s = ⟨.ok (), s', (i.request? s).toList⟩ := by
  rw [Journal.run, Instr.perform, h]

theorem Instr.perform_of_none {i : Instr} {s : State W} (h : i.straight rt calls s = none) :
    (i.perform rt calls).run s = ⟨.error (), s, (i.request? s).toList⟩ := by
  rw [Journal.run, Instr.perform, h]

theorem perform_cons (i : Instr) (code : List Instr) :
    perform rt calls (i :: code) = i.perform rt calls >>= fun _ => perform rt calls code := rfl

/-- **Requests apart, this is running the code.** -/
theorem finished?_perform (code : List Instr) (s : State W) :
    ((perform rt calls code).run s).finished? = (straight rt calls code s).map ((), ·) := by
  induction code generalizing s with
  | nil => rfl
  | cons i code ih =>
    rw [perform_cons, Journal.finished?_bind, straight, List.foldlM_cons]
    cases h : i.straight rt calls s with
    | none =>
      rw [Instr.perform_of_none h]
      rfl
    | some s' =>
      rw [Instr.perform_of_some h]
      exact ih s'

theorem perform_singleton (i : Instr) : perform rt calls [i] = i.perform rt calls := bind_pure_unit

/-- Code that asks for nothing. -/
theorem perform_of_quiet {code : List Instr} {s s' : State W}
    (hcode : ∀ i ∈ code, ∀ t : State W, i.request? t = none) (hrun : straight rt calls code s = some s') :
    (perform rt calls code).run s = ⟨.ok (), s', []⟩ := by
  induction code generalizing s with
  | nil =>
    cases hrun
    rfl
  | cons i code ih =>
    obtain ⟨t, hi, hcode'⟩ := Option.bind_eq_some_iff.1 hrun
    obtain ⟨hquiet, hrest⟩ := List.forall_mem_cons.1 hcode
    rw [perform_cons, Journal.bind_run, Instr.perform_of_some hi, hquiet, Journal.andThen_ok, ih hrest hcode']
    rfl

/-- The world after requests that are all answered. -/
def replay (rt : Runtime W) (calls : Calls W) (requests : List Request) (o : Outside W) : Option (Outside W) :=
  requests.foldlM (fun o q => (q.answer rt calls o).map Prod.snd) o

theorem Instr.replay_of_effect {i : Instr} {s s' : State W} (h : i.effect rt s = some (s', .next)) :
    replay rt calls (i.request? s).toList s.outside = some s'.outside := by
  cases i with
  | binary | not | cmp | label | push | pop | print | println =>
    cases h
    rfl
  | branch guard l =>
    obtain ⟨taken, -, hpair⟩ := Option.map_eq_some_iff.1 h
    rw [(Prod.mk.inj hpair).1]
    rfl
  | mov target source guard =>
    obtain ⟨taken, -, hpair⟩ := Option.map_eq_some_iff.1 h
    cases hpair
    cases taken <;> rfl
  | result target =>
    obtain ⟨v, -, hpair⟩ := Option.map_eq_some_iff.1 h
    cases hpair
    rfl
  | load | store | loadField | storeField | alloc | free | read =>
    obtain ⟨v, hv, hpair⟩ := Option.map_eq_some_iff.1 h
    cases hpair
    simp [replay, Instr.request?, Request.answer, hv]
  | ret | call => cases h

/-- An instruction does to the world what it asks for. -/
theorem Instr.replay_of_straight {i : Instr} {s s' : State W} (h : i.straight rt calls s = some s') :
    replay rt calls (i.request? s).toList s.outside = some s'.outside := by
  obtain ⟨⟨t, control⟩, heffect, h⟩ := Option.bind_eq_some_iff.1 h
  cases control with
  | next =>
    cases h
    exact Instr.replay_of_effect heffect
  | call f =>
    obtain ⟨rfl, rfl⟩ := Instr.eq_call_of_effect heffect
    obtain ⟨⟨v, o⟩, hcall, hs'⟩ := Option.bind_eq_some_iff.1 h
    cases hs'
    simp [replay, Instr.request?, Request.answer, hcall]
  | jump | leave => cases h

/-- What was asked for is all that was done to the world. -/
theorem replay_of_perform {code : List Instr} {s s' : State W} {requests : List Request}
    (h : (perform rt calls code).run s = ⟨.ok (), s', requests⟩) :
    replay rt calls requests s.outside = some s'.outside := by
  induction code generalizing s requests with
  | nil =>
    cases h
    rfl
  | cons i code ih =>
    obtain ⟨_, t, asked, asked', hi, hcode, rfl⟩ := Journal.bind_eq_ok_iff.1 h
    cases hstraight : i.straight rt calls s with
    | none =>
      rw [Instr.perform_of_none hstraight] at hi
      cases hi
    | some t' =>
      rw [Instr.perform_of_some hstraight] at hi
      cases hi
      rw [replay, List.foldlM_append, ← replay, Instr.replay_of_straight hstraight]
      exact ih hcode

/-- Code changes no register but those it writes, also if it is stopped. -/
theorem sameBut_perform (code : List Instr) (s : State W) :
    State.SameBut code s ((perform rt calls code).run s).state := by
  induction code generalizing s with
  | nil => exact fun _ _ => rfl
  | cons i code ih =>
    rw [perform_cons, Journal.bind_run]
    cases hstraight : i.straight rt calls s with
    | none =>
      rw [Instr.perform_of_none hstraight, Journal.andThen_error]
      exact fun _ _ => rfl
    | some t =>
      rw [Instr.perform_of_some hstraight, Journal.andThen_ok]
      exact .cons (Instr.regs_of_straight hstraight) (ih t)

end Linear

end Spillway
