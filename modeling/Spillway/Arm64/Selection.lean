import Spillway.Arm64.Generator

/-!
# The code of each instruction

Every value is loaded from its home before use and put back right after it was computed. Around a call
the parameters are saved below the stack pointer, because the call may overwrite their registers.
-/

namespace Spillway.Arm64.Context

/-- Calls a library routine around which the parameters are saved. -/
def callRoutine (ctx : Context) (routine : String) (arguments results : Emit Unit) : Emit Unit := do
  let area ← ctx.saveParameters 0
  arguments
  emit (.call (.name routine))
  results
  ctx.restoreParameters area

/-- Prints a value. The value is loaded first, since the address of the format string goes to the first
argument register. -/
def print (ctx : Context) (source : VReg) (f : Format) : Emit Unit :=
  ctx.callRoutine f.routine
    (do
      ctx.loadInto source (.x 1)
      formatAddress f .result)
    (pure ())

/-- Puts the address where `target` lives into a register: its slot, or the place where it is saved. -/
def homeAddress (ctx : Context) (target : VReg) (d : Reg) : Emit Unit := do
  match ← ctx.frame.locate target with
  | .slot k => emit (.subImm d .fp (slotDepth k))
  | .parameter i => emit (.addImm d .sp (Word.bytes * i))

/-- Passes the arguments of a call. -/
def push (ctx : Context) (arguments : List VReg) (callee : String) : Emit Unit := do
  if Limit.maxArguments < arguments.length then
    Journal.fail (.limit (.tooManyArguments callee arguments.length))
  else
    let _ ← ctx.saveParameters arguments.length
    (Argument.all.zip arguments).forM fun a => do
      ctx.loadInto a.2 a.1.reg
      occupy a.1

/-- Ends a call with this number of arguments. -/
def pop (ctx : Context) (count : Nat) : Emit Unit := do
  let parameters := ctx.frame.parameterRegs.length
  ctx.restoreParameters (Word.areaBytes (max count parameters))
  releaseArguments ((Argument.all.take count).drop parameters)

/-- Compares a value with an operand; a small constant is part of the instruction. -/
def compare (ctx : Context) (left : VReg) (right : Linear.Operand) : Emit Unit := do
  let a ← ctx.load left
  match right with
  | .imm value =>
    if 0 ≤ value.toInt ∧ value.toInt ≤ 4095 then emit (.cmpImm a value.toInt)
    else emit (.cmp a (← ctx.loadOperand right))
  | .reg _ => emit (.cmp a (← ctx.loadOperand right))

/-- Copies an operand, always or on a condition. -/
def move (ctx : Context) (target : VReg) (source : Linear.Operand) : Linear.Guard → Emit Unit
  | .always => do
    let d ← ctx.destination target
    match source with
    | .reg r => emit (.mov d (← ctx.load r))
    | .imm value => emitAll (immediate d value)
    ctx.store target d
  | .on c => do
    let skip ← nextSkip
    emit (.branchOn c.inverse skip)
    let s ← ctx.loadOperand source
    ctx.store target s
    emitLabel skip

/-- Returns from the function, with or without a value. -/
def leave (ctx : Context) (value : Option Linear.Operand) : Emit Unit := do
  match value with
  | some (.reg r) => ctx.loadInto r .result
  | some (.imm value) => emitAll (immediate .result value)
  | none => pure ()
  emit (.branch (.exit ctx.name))

/-- The code of one instruction. -/
def instr (ctx : Context) : Linear.Instr → Emit Unit
  | .binary op target left right => do
    let a ← ctx.load left
    let b ← ctx.loadOperand right
    let d ← ctx.destination target
    emit (.alu op d a b)
    ctx.store target d
  | .not target operand => do
    let a ← ctx.load operand
    let d ← ctx.destination target
    emit (.eorImm d a 1)
    ctx.store target d
  | .cmp left right => ctx.compare left right
  | .branch .always l => emit (.branch (.block l))
  | .branch (.on c) l => emit (.branchOn c (.block l))
  | .label l => emitLabel (.block l)
  | .load target address => do
    let m ← ctx.memory address
    let d ← ctx.destination target
    emit (.load d m)
    ctx.store target d
  | .store value address => do
    let s ← ctx.load value
    let m ← ctx.memory address
    emit (.store s m)
  | .loadField target base _ index => do
    let b ← ctx.load base
    let d ← ctx.destination target
    let offset ← displacement index
    emit (.load d (.displaced b offset.toInt))
    ctx.store target d
  | .storeField value base _ index => do
    let s ← ctx.load value
    let b ← ctx.load base
    let offset ← displacement index
    emit (.store s (.displaced b offset.toInt))
  | .alloc target _ fields =>
    ctx.callRoutine "malloc"
      (do emitAll (immediate .result (← displacement fields)))
      (ctx.store target .result)
  | .free pointer => ctx.callRoutine "free" (ctx.loadInto pointer .result) (pure ())
  | .push arguments callee => ctx.push arguments callee
  | .pop arguments _ => ctx.pop arguments.length
  | .mov target source guard => ctx.move target source guard
  | .result target => ctx.store target .result
  | .ret value => ctx.leave value
  | .call callee => emit (.call (.name callee))
  | .print source => ctx.print source .print
  | .println source => ctx.print source .println
  | .read target _ =>
    ctx.callRoutine Format.read.routine
      (do
        ctx.homeAddress target (.x 1)
        formatAddress .read .result)
      (pure ())

end Spillway.Arm64.Context
