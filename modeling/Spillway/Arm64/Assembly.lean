import Spillway.Arm64.Selection
import Spillway.Counters
import Spillway.Linear.Fragment
import Spillway.Log
import Spillway.Symbol.Table

/-!
# Assembly of a program

The assembly of a program is a header that reserves the globals, one block per function, and the format
strings that the blocks refer to. The generator starts afresh, so what it was used for before does not
show.
-/

namespace Spillway.Arm64

open Linear (Fragment)

/-- What code generation reports. -/
inductive Notice where
  | slot (function : String) (register : VReg) (offset : Int)
  | frame (function : String) (slots : Nat) (size : Int)
  | format (f : Format)
  deriving DecidableEq, Repr

instance : Logged Notice where
  severity
    | .slot .. => .trace
    | .frame .. => .debug
    | .format _ => .debug
  message
    | .slot function register offset => s!"{function}: {register.text} -> [x29, #{offset}]"
    | .frame function slots size => s!"Function `{function}`: {slots} slots, frame size {size}"
    | .format f => s!"Format string {f.symbol} referenced"

/-- A computation that generates code and reports on it. -/
abbrev Generate := Journal Failure Generator Notice

/-! ### Blocks -/

/-- Saves the frame and link registers and reserves the frame. -/
def Frame.opening (f : Frame) : List Instr :=
  [.subImm .sp .sp 16, .storePair .fp .lr (.direct .sp), .mov .fp .sp, .subImm .sp .sp f.bytes]

/-- Gives the frame back, restores the frame and link registers, and returns. -/
def Frame.closing (f : Frame) : List Instr :=
  [.addImm .sp .sp f.bytes, .loadPair .fp .lr (.direct .sp), .addImm .sp .sp 16, .ret]

/-- The lines before a function's code: its symbol, and the instructions that open its frame. -/
def Context.prologue (ctx : Context) : List Line :=
  [.directive (.typeFunction ctx.name), .directive (.globalSymbol ctx.name), .directive .align,
    .label (.name ctx.name)] ++ ctx.frame.opening.map .instr

/-- The instructions that set the exit status: the main function returns zero unless it returns a value
of its own. -/
def Context.status (ctx : Context) (returns : Ty) : List Instr :=
  if ctx.name = "main" ∧ returns = Ty.void then immediate .result 0 else []

/-- The lines after a function's code. -/
def Context.epilogue (ctx : Context) (returns : Ty) : List Line :=
  .label (.exit ctx.name) :: (ctx.status returns ++ ctx.frame.closing).map .instr ++
    [.directive (.functionSize ctx.name)]

/-- The code of a body, instruction by instruction. -/
def Context.body (ctx : Context) (instrs : List Linear.Instr) : Emit Unit :=
  instrs.forM fun i => do
    ctx.instr i
    releaseScratch

/-- The block of a function. -/
def Context.block (ctx : Context) (instrs : List Linear.Instr) (returns : Ty) : Emit Unit := do
  Journal.recordAll ctx.prologue
  ctx.body instrs
  Journal.recordAll (ctx.epilogue returns)

/-- The generator at the start of a function: only its parameters are in use. -/
def Generator.enter (g : Generator) (frame : Frame) : Generator :=
  { g with pool := (frame.parameterRegs.map Argument.pool).foldl Pool.occupy .fresh }

/-- Hands the lines to the caller, and reports each format string that is referred to for the first
time. -/
def narrate (m : Emit Unit) : Generate (List Line) := fun g =>
  let r := m.run g
  ⟨r.result.map fun _ => r.entries, r.state,
    (r.state.formats.drop g.formats.length).map .format⟩

/-! ### Functions and programs -/

/-- Lays out the frame of a function and reports each slot. -/
def layout (fragment : Fragment) (parameters : List VReg) : Generate Frame := do
  let frame := Frame.spill fragment.body parameters
  if parameters.length ≤ Limit.maxArguments then
    Journal.recordAll (frame.slots.mapIdx fun k r => .slot fragment.label r (slotOffset k))
  let frame ← frame.checked fragment.label
  Journal.record (.frame fragment.label frame.slots.length frame.size)
  return frame

/-- Generates the block of one function. -/
def generateFunction (symbols : SymbolTable) (fragment : Fragment) : Generate (List Line) := do
  match ← symbols.function? fragment.label with
  | none => Journal.fail (.fault (.defect (.undeclaredFunction fragment.label)))
  | some signature =>
    let parameters ← symbols.parameters signature.scope
    let frame ← layout fragment (parameters.map (·.register))
    modify fun g => g.enter frame
    narrate (Context.block ⟨fragment.label, frame⟩ fragment.body signature.returns)

/-- The lines before the functions: each global is reserved once. -/
def header (globals : Fragment) : List Line :=
  .directive .arch ::
  ((globals.body.filterMap Linear.Instr.global?).eraseDups.map fun name =>
    .directive (.common name)) ++
  [.directive .code]

/-- Generates the assembly of a program, whose first fragment has to be that of the globals. -/
def generate (fragments : List Fragment) (symbols : SymbolTable) : Generate (List Line) := do
  set ({} : Generator)
  match fragments with
  | [] => Journal.fail (.fault (.defect .noFragments))
  | globals :: functions =>
    if globals.isGlobals then
      let blocks ← functions.mapM (generateFunction symbols)
      return header globals ++ blocks.flatten ++ (← get).formats.lines
    else
      Journal.fail (.fault (.defect (.missingGlobals globals.label)))

/-- Generates the assembly of a program, whose conditional moves are numbered with 32 bits. -/
def generateCounted (fragments : List Fragment) (symbols : SymbolTable) : Generate (List Line) :=
  (generate fragments symbols).bounded (fun g => g.skips < Counters.capacity)
    (fun _ g => { g with skips := Counters.capacity - 1 }) (.fault (.trap .addOverflow))

end Spillway.Arm64
