import Spillway.Arm64.Frame
import Spillway.Arm64.Immediate
import Spillway.Arm64.Pool
import Spillway.Journal

/-!
# Writing assembly

While a function's code is written, the generator keeps track of the scratch registers in use, of the
format strings referred to, of the labels it has made, and of whether the argument registers of the
function are saved below the stack pointer. This module has the steps that instructions are made of.
-/

namespace Spillway.Arm64

/-- What is remembered from one instruction to the next. -/
structure Generator where
  pool : Pool := .fresh
  formats : Formats := []
  /-- How many conditional moves there have been. -/
  skips : Nat := 0
  /-- The scratch registers that the current instruction holds. -/
  scratch : List PoolReg := []
  /-- Whether the parameters are saved below the stack pointer. -/
  saved : Bool := false
  deriving DecidableEq

/-- A computation that writes lines of assembly. -/
abbrev Emit := Journal Failure Generator Line

/-- The function whose code is being written. -/
structure Context where
  name : String
  frame : Frame

/-- Writes one instruction. -/
def emit (i : Instr) : Emit Unit := Journal.record (.instr i)

/-- Writes several instructions. -/
def emitAll (is : List Instr) : Emit Unit := Journal.recordAll (is.map .instr)

/-- Writes a label. -/
def emitLabel (s : Symbol) : Emit Unit := Journal.record (.label s)

/-! ### Scratch registers -/

/-- Takes a scratch register for the current instruction. -/
def acquire : Emit Reg := do
  let g ← get
  match g.pool.acquire? with
  | some (i, pool) =>
    set { g with pool, scratch := g.scratch ++ [i] }
    return i.reg
  | none => Journal.fail (.fault (.defect .poolExhausted))

/-- Gives back the scratch registers of the current instruction. -/
def releaseScratch : Emit Unit :=
  modify fun g => { g with pool := g.scratch.foldl Pool.release g.pool, scratch := [] }

/-- Keeps an argument register from being used as scratch. -/
def occupy (i : Argument) : Emit Unit := modify fun g => { g with pool := g.pool.occupy i.pool }

/-- Lets argument registers be used as scratch again. -/
def releaseArguments (is : List Argument) : Emit Unit :=
  modify fun g => { g with pool := (is.map Argument.pool).foldl Pool.release g.pool }

/-! ### Slots and parameters -/

/-- The least displacement from the frame pointer that an access can name. -/
def minDirectOffset : Int := -256

/-- An access to a slot. The address of a far slot is formed first. -/
def slotAccess (access : Mem → Instr) (slot : Nat) : List Instr :=
  if minDirectOffset ≤ slotOffset slot then [access (.displaced .fp (slotOffset slot))]
  else [.subImm .far .fp (slotDepth slot), access (.direct .far)]

namespace Context

/-- The register that holds a value: that of a parameter, or a scratch register loaded from a slot. -/
def load (ctx : Context) (r : VReg) : Emit Reg := do
  match ← ctx.frame.locate r with
  | .parameter i => return i.reg
  | .slot k =>
    let d ← acquire
    emitAll (slotAccess (.load d) k)
    return d

/-- Puts a value into a given register. -/
def loadInto (ctx : Context) (r : VReg) (d : Reg) : Emit Unit := do
  match ← ctx.frame.locate r with
  | .parameter i =>
    if (← get).saved then emit (.load d (.displaced .sp i.saved))
    else if i.reg ≠ d then emit (.mov d i.reg)
  | .slot k => emitAll (slotAccess (.load d) k)

/-- The register that holds an operand. -/
def loadOperand (ctx : Context) : Linear.Operand → Emit Reg
  | .reg r => ctx.load r
  | .imm value => do
    let d ← acquire
    emitAll (immediate d value)
    return d

/-- The register that the value of `r` is computed into. -/
def destination (ctx : Context) (r : VReg) : Emit Reg := do
  match ctx.frame.location? r with
  | some (.parameter i) => if (← get).saved then acquire else return i.reg
  | _ => acquire

/-- Puts a computed value where `r` lives. -/
def store (ctx : Context) (r : VReg) (s : Reg) : Emit Unit := do
  match ← ctx.frame.locate r with
  | .slot k => emitAll (slotAccess (.store s) k)
  | .parameter i =>
    if (← get).saved then emit (.store s (.displaced .sp i.saved))
    else if i.reg ≠ s then emit (.mov i.reg s)

/-- Reserves an aligned area of at least `words` words below the stack pointer and saves the parameters
at its bottom. Returns the bytes of the area. -/
def saveParameters (ctx : Context) (words : Nat) : Emit Nat := do
  let regs := ctx.frame.parameterRegs
  let area := Word.areaBytes (max words regs.length)
  if area = 0 then
    return 0
  else
    emit (.subImm .sp .sp area)
    emitAll (regs.map fun i => .store i.reg (.displaced .sp i.saved))
    modify fun g => { g with saved := !regs.isEmpty }
    return area

/-- Restores the parameters from an area and gives it back. -/
def restoreParameters (ctx : Context) (area : Nat) : Emit Unit := do
  if area ≠ 0 then
    emitAll (ctx.frame.parameterRegs.map fun i => .load i.reg (.displaced .sp i.saved))
    emit (.addImm .sp .sp area)
    modify fun g => { g with saved := false }

/-- The word in memory that an address names. -/
def memory (ctx : Context) : Linear.Address → Emit Mem
  | .indexed base offset => do
    let b ← ctx.load base
    let o ← ctx.load offset
    return .indexed b o
  | .displaced base offset => return .displaced (← ctx.load base) offset.toInt
  | .direct base => return .direct (← ctx.load base)
  | .global name => do
    let d ← acquire
    emitAll [.page d (.name name), .addPageOffset d d (.name name)]
    return .direct d

/-- Puts the address of a format string into a register. -/
def formatAddress (f : Format) (d : Reg) : Emit Unit := do
  modify fun g => { g with formats := g.formats.mark f }
  emitAll [.page d (.format f), .addPageOffset d d (.format f)]

end Context

/-- The number of the next conditional move. -/
def nextSkip : Emit Symbol := modifyGet fun g => (.skip g.skips, { g with skips := g.skips + 1 })

/-- The displacement in bytes of a word. -/
def displacement (index : Nat) : Emit Int64 :=
  Journal.ofExcept ((Word.displacement index).mapError fun t => .fault (.trap t))

end Spillway.Arm64
