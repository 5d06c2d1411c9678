import Spillway.Arm64.Format
import Spillway.Arm64.Register
import Spillway.Label
import Spillway.Linear.Operator
import Spillway.Word

/-!
# Lines of assembly

Assembly is a list of lines: instructions, labels and directives. Only `Line.text` knows how they are
written; everything else works on the lines themselves.
-/

namespace Spillway.Arm64

open Linear (Cond AluOp)

/-- A name in assembly. -/
inductive Symbol where
  /-- A function, a global variable or a library routine. -/
  | name (text : String)
  /-- A label of linear code. -/
  | block (label : Label)
  /-- The point after a conditional move. -/
  | skip (number : Nat)
  /-- The point where a function returns. -/
  | exit (function : String)
  | format (f : Format)
  deriving DecidableEq, Repr

/-- How a symbol is written. -/
def Symbol.text : Symbol → String
  | .name text => text
  | .block label => label.text
  | .skip number => s!".Lskip_{number}"
  | .exit function => s!".Lreturn_{function}"
  | .format f => f.symbol

/-- A word in memory. -/
inductive Mem where
  | direct (base : Reg)
  | displaced (base : Reg) (offset : Int)
  | indexed (base offset : Reg)
  deriving DecidableEq, Repr

/-- How a word in memory is written. -/
def Mem.text : Mem → String
  | .direct base => s!"[{base.text}]"
  | .displaced base offset => s!"[{base.text}, #{offset}]"
  | .indexed base offset => s!"[{base.text}, {offset.text}]"

/-- An instruction. -/
inductive Instr where
  | mov (d s : Reg)
  | movImm (d : Reg) (value : Int)
  /-- Sets a register to a 16-bit chunk. -/
  | movz (d : Reg) (chunk : Nat)
  /-- Replaces the 16 bits of a register from bit `shift` on. -/
  | movk (d : Reg) (chunk shift : Nat)
  | alu (op : AluOp) (d a b : Reg)
  | eorImm (d a : Reg) (value : Nat)
  | addImm (d a : Reg) (value : Nat)
  | subImm (d a : Reg) (value : Nat)
  | cmp (a b : Reg)
  | cmpImm (a : Reg) (value : Int)
  | branch (target : Symbol)
  | branchOn (c : Cond) (target : Symbol)
  | call (target : Symbol)
  | load (d : Reg) (source : Mem)
  | store (s : Reg) (target : Mem)
  | loadPair (d e : Reg) (source : Mem)
  | storePair (s t : Reg) (target : Mem)
  /-- The page of a symbol. -/
  | page (d : Reg) (symbol : Symbol)
  /-- Adds the place of a symbol in its page. -/
  | addPageOffset (d a : Reg) (symbol : Symbol)
  | ret
  deriving DecidableEq, Repr

/-- The mnemonic of an operation. -/
def mnemonic : AluOp → String
  | .add => "add"
  | .sub => "sub"
  | .mul => "mul"
  | .div => "sdiv"
  | .and => "and"
  | .or => "orr"

/-- How an instruction is written. -/
def Instr.text : Instr → String
  | .mov d s => s!"mov {d.text}, {s.text}"
  | .movImm d value => s!"mov {d.text}, #{value}"
  | .movz d chunk => s!"movz {d.text}, #{chunk}"
  | .movk d chunk shift => s!"movk {d.text}, #{chunk}, lsl #{shift}"
  | .alu op d a b => s!"{mnemonic op} {d.text}, {a.text}, {b.text}"
  | .eorImm d a value => s!"eor {d.text}, {a.text}, #{value}"
  | .addImm d a value => s!"add {d.text}, {a.text}, #{value}"
  | .subImm d a value => s!"sub {d.text}, {a.text}, #{value}"
  | .cmp a b => s!"cmp {a.text}, {b.text}"
  | .cmpImm a value => s!"cmp {a.text}, #{value}"
  | .branch target => s!"b {target.text}"
  | .branchOn c target => s!"b.{c.suffix} {target.text}"
  | .call target => s!"bl {target.text}"
  | .load d source => s!"ldr {d.text}, {source.text}"
  | .store s target => s!"str {s.text}, {target.text}"
  | .loadPair d e source => s!"ldp {d.text}, {e.text}, {source.text}"
  | .storePair s t target => s!"stp {s.text}, {t.text}, {target.text}"
  | .page d symbol => s!"adrp {d.text}, {symbol.text}"
  | .addPageOffset d a symbol => s!"add {d.text}, {a.text}, :lo12:{symbol.text}"
  | .ret => "ret"

/-- A directive. -/
inductive Directive where
  | arch
  /-- Reserves a word for a global variable. -/
  | common (name : String)
  | code
  | typeFunction (name : String)
  | globalSymbol (name : String)
  | align
  /-- The size of a function that ends here. -/
  | functionSize (name : String)
  | readOnlyData
  | string (literal : String)
  | size (symbol : Symbol) (bytes : Nat)
  deriving DecidableEq, Repr

/-- How a directive is written. -/
def Directive.text : Directive → String
  | .arch => ".arch armv8-a"
  | .common name => s!".comm {name},8,8"
  | .code => ".text"
  | .typeFunction name => s!".type {name},%function"
  | .globalSymbol name => s!".global {name}"
  | .align => ".p2align 2"
  | .functionSize name => s!".size {name},(.-{name})"
  | .readOnlyData => ".section\t.rodata"
  | .string literal => s!".asciz\t\"{literal}\""
  | .size symbol bytes => s!".size\t{symbol.text}, {bytes}"

/-- A line of assembly. -/
inductive Line where
  | instr (i : Instr)
  | label (s : Symbol)
  | directive (d : Directive)
  deriving DecidableEq, Repr

/-- How a line is written. -/
def Line.text : Line → String
  | .instr i => "\t" ++ i.text
  | .label s => s.text ++ ":"
  | .directive d => "\t" ++ d.text

/-- The lines that define one format string. -/
def Format.lines (f : Format) : List Line :=
  [.label (.format f), .directive (.string f.literal), .directive (.size (.format f) f.bytes)]

/-- The section that defines the format strings in use, if there are any. -/
def Formats.lines (fs : Formats) : List Line :=
  if fs.isEmpty then [] else .directive .readOnlyData :: fs.flatMap Format.lines

end Spillway.Arm64
