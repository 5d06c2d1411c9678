import Mathlib.Logic.Function.Basic
import Mathlib.Logic.Relation
import Spillway.Linear.Fragment
import Spillway.Proofs.World

/-!
# The machine that runs linear code

Linear code runs over virtual registers, the outcome of the last comparison, the arguments that were
passed last and the value that was returned last. What it does to globals and to the heap goes through
a `Runtime`, which is a parameter: nothing here depends on where a struct is allocated or on what is
read.

* `Instr.effect` is one instruction: the next state, and where control goes.
* `straight` runs code without jumps, with a given meaning of calls.
* `Config.step` is one step of the whole machine. A branch goes on after the label it names, a call
  enters the code of the function it names, and `ret` or the end of the code goes back to the caller.

A function has its own registers: they come back when it is gone on with. It starts with whatever the
registers held, its parameters apart, so code must not count on cleared registers. Nor may it count on
a comparison that was made before a call.
-/

namespace Spillway.Linear

variable {W : Type}

/-! ### One instruction -/

/-- What an operation computes. Division goes toward zero, and dividing by zero gives zero. -/
def AluOp.apply : AluOp → Word → Word → Word
  | .add, a, b => a + b
  | .sub, a, b => a - b
  | .mul, a, b => a * b
  | .div, a, b => a.sdiv b
  | .and, a, b => a &&& b
  | .or, a, b => a ||| b

/-- The registers, the last comparison, what is passed and returned, and the world. -/
structure State (W : Type) where
  regs : VReg → Word
  /-- The two words that were compared last, unless a call came after. -/
  flags : Option (Word × Word)
  args : List Word
  ret : Option Word
  outside : Outside W

namespace State

/-- Writes a register. -/
def set (s : State W) (r : VReg) (value : Word) : State W :=
  { s with regs := Function.update s.regs r value }

/-- The state after something was called: no comparison is left. -/
def called (s : State W) (o : Outside W) : State W := { s with flags := none, outside := o }

/-- The state after a call that returned. -/
def returned (s : State W) (value : Option Word) (o : Outside W) : State W :=
  { s.called o with args := [], ret := value }

@[simp] theorem set_regs (s : State W) (r : VReg) (value : Word) :
    (s.set r value).regs = Function.update s.regs r value := rfl

@[simp] theorem set_outside (s : State W) (r : VReg) (value : Word) :
    (s.set r value).outside = s.outside := rfl

@[simp] theorem called_regs (s : State W) (o : Outside W) : (s.called o).regs = s.regs := rfl

@[simp] theorem called_outside (s : State W) (o : Outside W) : (s.called o).outside = o := rfl

@[simp] theorem returned_regs (s : State W) (value : Option Word) (o : Outside W) :
    (s.returned value o).regs = s.regs := rfl

@[simp] theorem returned_ret (s : State W) (value : Option Word) (o : Outside W) :
    (s.returned value o).ret = value := rfl

@[simp] theorem returned_outside (s : State W) (value : Option Word) (o : Outside W) :
    (s.returned value o).outside = o := rfl

end State

/-- The value of an operand. -/
def Operand.value (regs : VReg → Word) : Operand → Word
  | .reg r => regs r
  | .imm v => v.toBitVec

/-- The word that an address names. -/
def Address.cell (regs : VReg → Word) : Address → Cell
  | .indexed base offset => .address (regs base + regs offset)
  | .displaced base offset => .address (regs base + offset.toBitVec)
  | .direct base => .address (regs base)
  | .global name => .global name

/-- Whether an instruction with this guard takes effect. A condition needs a comparison. -/
def Guard.passes : Guard → Option (Word × Word) → Option Bool
  | .always, _ => some true
  | .on c, flags => flags.map fun f => c.holds f.1.toInt f.2.toInt

/-- Where control goes after an instruction. -/
inductive Control where
  | next
  | jump (l : Label)
  | call (function : String)
  | leave (value : Option Word)
  deriving DecidableEq, Repr

/-- What one instruction does, if it goes through. -/
def Instr.effect (rt : Runtime W) (s : State W) : Instr → Option (State W × Control)
  | .binary op target left right =>
    some (s.set target (op.apply (s.regs left) (right.value s.regs)), .next)
  | .not target operand => some (s.set target (s.regs operand ^^^ 1), .next)
  | .cmp left right => some ({ s with flags := some (s.regs left, right.value s.regs) }, .next)
  | .branch guard l => (guard.passes s.flags).map fun taken => (s, if taken then .jump l else .next)
  | .label _ => some (s, .next)
  | .load target address =>
    (s.outside.load rt (address.cell s.regs)).map fun v => (s.set target v, .next)
  | .store value address =>
    (s.outside.store rt (address.cell s.regs) (s.regs value)).map fun o =>
      ({ s with outside := o }, .next)
  | .loadField target base _ index =>
    (s.outside.load rt (.field (s.regs base) index)).map fun v => (s.set target v, .next)
  | .storeField value base _ index =>
    (s.outside.store rt (.field (s.regs base) index) (s.regs value)).map fun o =>
      ({ s with outside := o }, .next)
  | .alloc target _ fields =>
    (s.outside.alloc rt fields).map fun r => ((s.called r.2).set target r.1, .next)
  | .free pointer => (s.outside.free rt (s.regs pointer)).map fun o => (s.called o, .next)
  | .push arguments _ => some ({ s with args := arguments.map s.regs }, .next)
  | .pop _ _ => some ({ s with args := [] }, .next)
  | .mov target source guard =>
    (guard.passes s.flags).map fun taken =>
      (if taken then s.set target (source.value s.regs) else s, .next)
  | .result target => s.ret.map fun v => (s.set target v, .next)
  | .ret value => some (s, .leave (value.map (Operand.value s.regs)))
  | .call callee => some (s, .call callee)
  | .print source => some (s.called (s.outside.print (s.regs source) false), .next)
  | .println source => some (s.called (s.outside.print (s.regs source) true), .next)
  | .read target _ => (s.outside.read rt).map fun r => ((s.called r.2).set target r.1, .next)

/-- Only a call calls. -/
theorem Instr.eq_call_of_effect {rt : Runtime W} {s s' : State W} {i : Instr} {f : String}
    (h : i.effect rt s = some (s', .call f)) : i = .call f ∧ s' = s := by
  cases i with
  | call g =>
    cases h
    exact ⟨rfl, rfl⟩
  | branch guard l =>
    obtain ⟨taken, -, hcontrol⟩ := Option.map_eq_some_iff.1 h
    cases taken <;> cases hcontrol
  | _ => simp [Instr.effect] at h

/-- Leaving a function changes nothing. -/
theorem Instr.state_of_leave {rt : Runtime W} {s s' : State W} {i : Instr} {v : Option Word}
    (h : i.effect rt s = some (s', .leave v)) : s' = s := by
  cases i with
  | ret value =>
    cases h
    rfl
  | branch guard l =>
    obtain ⟨taken, -, hcontrol⟩ := Option.map_eq_some_iff.1 h
    cases taken <;> cases hcontrol
  | _ => simp [Instr.effect] at h

/-! ### Code without jumps -/

/-- What an instruction does in code without jumps, with the given meaning of calls. -/
def Instr.straight (rt : Runtime W) (calls : Calls W) (s : State W) (i : Instr) :
    Option (State W) := do
  match ← i.effect rt s with
  | (s', .next) => return s'
  | (s', .call function) =>
    let (value, o) ← calls function s'.args s'.outside
    return s'.returned value o
  | (_, .jump _) | (_, .leave _) => none

/-- Runs code without jumps. -/
def straight (rt : Runtime W) (calls : Calls W) (code : List Instr) (s : State W) :
    Option (State W) :=
  code.foldlM (Instr.straight rt calls) s

theorem straight_append (rt : Runtime W) (calls : Calls W) (code code' : List Instr) (s : State W) :
    straight rt calls (code ++ code') s
      = (straight rt calls code s).bind (straight rt calls code') := by
  simp only [straight, List.foldlM_append]
  rfl

/-- Running two pieces of code one after the other. -/
theorem straight_append_of_eq {rt : Runtime W} {calls : Calls W} {code code' : List Instr}
    {s s' : State W} (h : straight rt calls code s = some s') :
    straight rt calls (code ++ code') s = straight rt calls code' s' := by
  rw [straight_append, h]
  rfl

/-- An instruction after which control goes on. -/
theorem straight_next {rt : Runtime W} {calls : Calls W} {i : Instr} {code : List Instr}
    {s s' : State W} (h : i.effect rt s = some (s', .next)) :
    straight rt calls (i :: code) s = straight rt calls code s' := by
  rw [straight, List.foldlM_cons, Instr.straight, h]
  rfl

/-- A call that ends. -/
theorem straight_call {rt : Runtime W} {calls : Calls W} {f : String} {code : List Instr}
    {s : State W} {v : Option Word} {o : Outside W} (h : calls f s.args s.outside = some (v, o)) :
    straight rt calls (.call f :: code) s = straight rt calls code (s.returned v o) := by
  rw [straight, List.foldlM_cons, Instr.straight]
  simp only [Instr.effect, Option.bind_eq_bind, Option.bind_some, h]
  rfl

/-- The registers below `n` are the same in two states. -/
def State.SameBelow (n : Nat) (s s' : State W) : Prop := ∀ r : VReg, r.id < n → s'.regs r = s.regs r

namespace State.SameBelow

variable {n m : Nat} {s s' s'' : State W}

theorem trans (h : SameBelow n s s') (h' : SameBelow n s' s'') : SameBelow n s s'' :=
  fun r hr => (h' r hr).trans (h r hr)

theorem mono (h : SameBelow m s s') (hnm : n ≤ m) : SameBelow n s s' :=
  fun r hr => h r (Nat.lt_of_lt_of_le hr hnm)

/-- Writing a register that is not below `n`. -/
theorem set (s : State W) {r : VReg} (hr : n ≤ r.id) (v : Word) : SameBelow n s (s.set r v) := by
  intro r' hr'
  have hne : r' ≠ r := by
    rintro rfl
    omega
  rw [State.set_regs, Function.update_of_ne hne]

/-- Writing the register that comes next. -/
theorem fresh (n : Nat) (s : State W) (v : Word) : SameBelow n s (s.set ⟨n⟩ v) :=
  set s (Nat.le_refl n) v

end State.SameBelow

/-- The registers that code does not write are the same in two states. -/
def State.SameBut (code : List Instr) (s s' : State W) : Prop :=
  ∀ r, r ∉ Fragment.targets code → s'.regs r = s.regs r

theorem State.SameBut.cons {i : Instr} {code : List Instr} {s s' s'' : State W}
    (hi : ∀ {r : VReg}, i.target? ≠ some r → s'.regs r = s.regs r) (h : SameBut code s' s'') :
    SameBut (i :: code) s s'' := by
  intro r hr
  have hcode : r ∉ Fragment.targets code := fun hmem => by
    obtain ⟨j, hj, htarget⟩ := List.mem_filterMap.1 hmem
    exact hr (List.mem_filterMap.2 ⟨j, List.mem_cons_of_mem _ hj, htarget⟩)
  exact (h r hcode).trans (hi fun htarget => hr (List.mem_filterMap.2 ⟨i, List.mem_cons_self .., htarget⟩))

/-- An instruction changes no register but the one it writes. -/
theorem Instr.regs_of_effect {rt : Runtime W} {i : Instr} {s s' : State W} {control : Control} {r : VReg}
    (h : i.effect rt s = some (s', control)) (hr : i.target? ≠ some r) : s'.regs r = s.regs r := by
  cases i with
  | cmp | label | push | pop | print | println | ret | call =>
    cases h
    rfl
  | binary op target | not target =>
    cases h
    exact Function.update_of_ne (fun heq => hr (congrArg some heq.symm)) ..
  | branch guard l =>
    obtain ⟨taken, -, hpair⟩ := Option.map_eq_some_iff.1 h
    rw [(Prod.mk.inj hpair).1]
  | mov target source guard =>
    obtain ⟨taken, -, hpair⟩ := Option.map_eq_some_iff.1 h
    cases hpair
    cases taken with
    | false => rfl
    | true => exact Function.update_of_ne (fun heq => hr (congrArg some heq.symm)) ..
  | store | storeField | free =>
    obtain ⟨v, -, hpair⟩ := Option.map_eq_some_iff.1 h
    cases hpair
    rfl
  | load target | loadField target | alloc target | read target | result target =>
    obtain ⟨v, -, hpair⟩ := Option.map_eq_some_iff.1 h
    cases hpair
    exact Function.update_of_ne (fun heq => hr (congrArg some heq.symm)) ..

theorem Instr.regs_of_straight {rt : Runtime W} {calls : Calls W} {i : Instr} {s s' : State W} {r : VReg}
    (h : i.straight rt calls s = some s') (hr : i.target? ≠ some r) : s'.regs r = s.regs r := by
  obtain ⟨⟨t, control⟩, heffect, h⟩ := Option.bind_eq_some_iff.1 h
  have hregs := Instr.regs_of_effect heffect hr
  cases control with
  | next =>
    cases h
    exact hregs
  | call f =>
    obtain ⟨⟨v, o⟩, -, hs'⟩ := Option.bind_eq_some_iff.1 h
    cases hs'
    exact hregs
  | jump | leave => cases h

/-- Code changes no register but those it writes. -/
theorem sameBut_of_straight {rt : Runtime W} {calls : Calls W} {code : List Instr} {s s' : State W}
    (h : straight rt calls code s = some s') : State.SameBut code s s' := by
  induction code generalizing s with
  | nil =>
    cases h
    exact fun _ _ => rfl
  | cons i code ih =>
    obtain ⟨t, hi, hcode⟩ := Option.bind_eq_some_iff.1 h
    exact .cons (Instr.regs_of_straight hi) (ih hcode)

/-! ### The whole machine -/

/-- The code of a function, and the registers of its parameters in order. -/
structure Procedure where
  parameters : List VReg
  body : List Instr

/-- What is gone on with when a function is left: the code that is left to run, the code it is part of,
and the registers. -/
structure Caller where
  body : List Instr
  rest : List Instr
  regs : VReg → Word

/-- The code after a label. Labels are told apart by how they are written. -/
def after (l : Label) : List Instr → Option (List Instr)
  | [] => none
  | .label m :: rest => if m.text = l.text then some rest else after l rest
  | _ :: rest => after l rest

/-- Registers in which some of them hold the given words. -/
def bind : List VReg → List Word → (VReg → Word) → VReg → Word
  | r :: rs, v :: vs, regs => Function.update (bind rs vs regs) r v
  | _, _, regs => regs

/-- Registers that are told apart hold the words they are given. -/
theorem map_bind {rs : List VReg} {vs : List Word} (hnodup : rs.Nodup)
    (hlength : rs.length = vs.length) (regs : VReg → Word) : rs.map (bind rs vs regs) = vs := by
  induction rs generalizing vs with
  | nil => exact (List.length_eq_zero_iff.1 hlength.symm).symm
  | cons r rs ih =>
    obtain ⟨v, vs, rfl⟩ := List.exists_cons_of_length_eq_add_one hlength.symm
    obtain ⟨hr, hrs⟩ := List.nodup_cons.1 hnodup
    have hrest : rs.map (bind (r :: rs) (v :: vs) regs) = rs.map (bind rs vs regs) := by
      refine List.map_congr_left fun r' hr' => ?_
      refine Function.update_of_ne ?_ ..
      rintro rfl
      exact hr hr'
    rw [List.map_cons, hrest, ih hrs (Nat.succ.inj hlength), bind, Function.update_self]

/-- The state in which a function starts: its parameters hold the arguments. -/
def State.enter (s : State W) (parameters : List VReg) : State W :=
  { s with regs := bind parameters s.args s.regs, flags := none, args := [], ret := none }

/-- The machine: the code of the function that runs, the part of it that is left to run, the state, and
the functions to go back to. -/
structure Config (W : Type) where
  body : List Instr
  rest : List Instr
  state : State W
  callers : List Caller

namespace Config

/-- How the function that runs is left next, if that is what comes next. -/
def exit? (rt : Runtime W) (m : Config W) : Option Outcome :=
  match m.rest with
  | [] => some .fell
  | i :: _ =>
    match i.effect rt m.state with
    | some (_, .leave value) => some (.returned value)
    | _ => none

/-- Goes back to the caller with an outcome. Nothing follows the function that was run first. -/
def leave (m : Config W) (out : Outcome) : Option (Config W) :=
  match m.callers with
  | [] => none
  | c :: callers =>
    some ⟨c.body, c.rest, { m.state.returned out.value? m.state.outside with regs := c.regs }, callers⟩

/-- One step. A call has to pass as many arguments as the function has parameters. -/
def step (rt : Runtime W) (code : String → Option Procedure) (m : Config W) : Option (Config W) :=
  match m.rest with
  | [] => m.leave .fell
  | i :: rest =>
    match i.effect rt m.state with
    | none => none
    | some (s, .next) => some { m with rest, state := s }
    | some (s, .jump l) => (after l m.body).map fun rest => { m with rest, state := s }
    | some (s, .call function) =>
      match code function with
      | none => none
      | some p =>
        if p.parameters.length = s.args.length then
          some ⟨p.body, p.body, s.enter p.parameters, ⟨m.body, rest, s.regs⟩ :: m.callers⟩
        else none
    | some (s, .leave value) => { m with state := s }.leave (.returned value)

/-- The step of a function that is left next. -/
theorem step_of_exit? {rt : Runtime W} {code : String → Option Procedure} {m : Config W}
    {out : Outcome} (h : m.exit? rt = some out) : m.step rt code = m.leave out := by
  rw [exit?] at h
  rw [step]
  split at h
  case h_1 =>
    cases h
    rfl
  case h_2 =>
    split at h
    case h_1 s v heffect =>
      cases h
      obtain rfl := Instr.state_of_leave heffect
      simp only [heffect]
    case h_2 => cases h

/-- Some number of steps. -/
def Reaches (rt : Runtime W) (code : String → Option Procedure) : Config W → Config W → Prop :=
  Relation.ReflTransGen fun m m' => m.step rt code = some m'

section Reaches

variable {rt : Runtime W} {code : String → Option Procedure} {body rest rest' : List Instr}
  {s s' : State W} {callers : List Caller}

theorem Reaches.trans {m m' m'' : Config W} (h : Reaches rt code m m') (h' : Reaches rt code m' m'') :
    Reaches rt code m m'' := Relation.ReflTransGen.trans h h'

/-- An instruction after which control goes on. -/
theorem reaches_next {i : Instr} (h : i.effect rt s = some (s', .next)) :
    Reaches rt code ⟨body, i :: rest, s, callers⟩ ⟨body, rest, s', callers⟩ := by
  apply Relation.ReflTransGen.single
  simp only [step, h]

/-- An instruction that jumps. -/
theorem reaches_jump {i : Instr} {l : Label} (h : i.effect rt s = some (s', .jump l))
    (hafter : after l body = some rest') :
    Reaches rt code ⟨body, i :: rest, s, callers⟩ ⟨body, rest', s', callers⟩ := by
  apply Relation.ReflTransGen.single
  simp only [step, h, hafter, Option.map_some]

end Reaches

/-- On the machine calls do what they are said to do. -/
def Realizes (rt : Runtime W) (code : String → Option Procedure) (calls : Calls W) : Prop :=
  ∀ {f body rest s callers v o}, calls f s.args s.outside = some (v, o) →
    Reaches rt code ⟨body, .call f :: rest, s, callers⟩ ⟨body, rest, s.returned v o, callers⟩

/-- The machine runs code without jumps as it runs by itself. -/
theorem reaches_of_straight {rt : Runtime W} {code : String → Option Procedure} {calls : Calls W}
    {part body rest : List Instr} {s s' : State W} {callers : List Caller}
    (hcalls : Realizes rt code calls) (h : straight rt calls part s = some s') :
    Reaches rt code ⟨body, part ++ rest, s, callers⟩ ⟨body, rest, s', callers⟩ := by
  induction part generalizing s with
  | nil =>
    cases h
    exact Relation.ReflTransGen.refl
  | cons i part ih =>
    rw [straight, List.foldlM_cons] at h
    obtain ⟨s₁, hfirst, hrest⟩ := Option.bind_eq_some_iff.1 h
    refine Reaches.trans ?_ (ih hrest)
    obtain ⟨⟨s₂, control⟩, heffect, hcontrol⟩ := Option.bind_eq_some_iff.1 hfirst
    cases control with
    | next =>
      cases hcontrol
      exact reaches_next heffect
    | call f =>
      obtain ⟨⟨v, o⟩, hcall, hreturn⟩ := Option.bind_eq_some_iff.1 hcontrol
      cases hreturn
      obtain ⟨rfl, rfl⟩ := Instr.eq_call_of_effect heffect
      exact hcalls hcall
    | jump l => cases hcontrol
    | leave v => cases hcontrol

end Config

end Spillway.Linear
