import Spillway.Label
import Spillway.Linear.Operator
import Spillway.Word

/-!
# Instructions of linear code

Linear code is a list of instructions over virtual registers. Each writes at most one register
(`Instr.target?`) and reads a list of them (`Instr.sources`); these two views are all that the layout of
a frame needs to know.
-/

namespace Spillway.Linear

/-- A register or a constant. -/
inductive Operand where
  | reg (r : VReg)
  | imm (value : Int64)
  deriving DecidableEq, Repr

namespace Operand

/-- How an operand is written. -/
def text : Operand → String
  | .reg r => r.text
  | .imm value => "#" ++ Word.text value

/-- The registers an operand reads. -/
def registers : Operand → List VReg
  | .reg r => [r]
  | .imm _ => []

end Operand

/-- Where a word is in memory. -/
inductive Address where
  | indexed (base offset : VReg)
  | displaced (base : VReg) (offset : Int64)
  | direct (base : VReg)
  | global (name : String)
  deriving DecidableEq, Repr

namespace Address

/-- How an address is written. -/
def text : Address → String
  | .indexed base offset => s!"{base.text},{offset.text}"
  | .displaced base offset => s!"{base.text},#{Word.text offset}"
  | .direct base => base.text
  | .global name => s!"@{name}"

/-- The registers an address is formed from. -/
def registers : Address → List VReg
  | .indexed base offset => [base, offset]
  | .displaced base _ | .direct base => [base]
  | .global _ => []

end Address

/-- An instruction. -/
inductive Instr where
  | binary (op : AluOp) (target left : VReg) (right : Operand)
  | not (target operand : VReg)
  | cmp (left : VReg) (right : Operand)
  | branch (guard : Guard) (label : Label)
  | label (label : Label)
  | load (target : VReg) (address : Address)
  | store (value : VReg) (address : Address)
  /-- Reads word `index` of the struct at `base`. -/
  | loadField (target base : VReg) (field : String) (index : Nat)
  /-- Writes word `index` of the struct at `base`. -/
  | storeField (value base : VReg) (field : String) (index : Nat)
  | alloc (target : VReg) (struct : String) (fields : Nat)
  | free (pointer : VReg)
  /-- Passes the arguments of a call. -/
  | push (arguments : List VReg) (callee : String)
  /-- Ends a call. -/
  | pop (arguments : List VReg) (callee : String)
  | mov (target : VReg) (source : Operand) (guard : Guard)
  /-- Takes the value that the last call returned. -/
  | result (target : VReg)
  | ret (value : Option Operand)
  | call (callee : String)
  | print (source : VReg)
  | println (source : VReg)
  | read (target : VReg) (name : String)
  deriving DecidableEq, Repr

namespace Instr

/-- The register an instruction writes. -/
def target? : Instr → Option VReg
  | .binary _ target _ _ | .not target _ | .load target _ | .loadField target _ _ _
  | .alloc target _ _ | .mov target _ _ | .result target | .read target _ => some target
  | .cmp .. | .branch .. | .label _ | .store .. | .storeField .. | .free _ | .push .. | .pop ..
  | .ret _ | .call _ | .print _ | .println _ => none

/-- The registers an instruction reads, in the order in which it reads them. -/
def sources : Instr → List VReg
  | .binary _ _ left right | .cmp left right => left :: right.registers
  | .not _ operand => [operand]
  | .load _ address => address.registers
  | .store value address => value :: address.registers
  | .loadField _ base _ _ => [base]
  | .storeField value base _ _ => [value, base]
  | .free pointer => [pointer]
  | .push arguments _ => arguments
  | .mov _ source _ => source.registers
  | .ret (some value) => value.registers
  | .print source | .println source => [source]
  | .branch .. | .label _ | .alloc .. | .pop .. | .result _ | .ret none | .call _ | .read .. => []

/-- The label that a branch names or a label instruction defines. -/
def label? : Instr → Option Label
  | .branch _ l | .label l => some l
  | _ => none

/-- The global variable that an instruction reads or writes. -/
def global? : Instr → Option String
  | .load _ (.global name) | .store _ (.global name) => some name
  | _ => none

/-- How a list of registers is written. -/
def registersText (rs : List VReg) : String :=
  "\x7b" ++ ",".intercalate (rs.map VReg.text) ++ "\x7d"

/-- How an instruction is written. -/
def text : Instr → String
  | .binary op target left right => s!"{op.mnemonic} {target.text},{left.text},{right.text}"
  | .not target operand => s!"not {target.text},{operand.text}"
  | .cmp left right => s!"cmp {left.text},{right.text}"
  | .branch guard l => s!"b{guard.suffix} {l.text}"
  | .label l => s!"{l.text}:"
  | .load target address => s!"ldr {target.text},{address.text}"
  | .store value address => s!"str {value.text},{address.text}"
  | .loadField target base field _ => s!"loadRef {target.text},{base.text},@{field}"
  | .storeField value base field _ => s!"strRef {value.text},{base.text},@{field}"
  | .alloc target struct _ => s!"new {target.text},{struct}"
  | .free pointer => s!"delete {pointer.text}"
  | .push arguments callee => s!"push {registersText arguments} @{callee}"
  | .pop arguments callee => s!"pop {registersText arguments} @{callee}"
  | .mov target source guard => s!"mov{guard.suffix} {target.text},{source.text}"
  | .result target => s!"mov {target.text},@ret"
  | .ret (some value) => s!"ret {value.text}"
  | .ret none => "ret"
  | .call callee => s!"bl {callee}"
  | .print source => s!"print {source.text}"
  | .println source => s!"println {source.text}"
  | .read target name => s!"read {target.text} @{name}"

end Instr

end Spillway.Linear
