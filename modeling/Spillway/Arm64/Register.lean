import Spillway.Fault

/-!
# Registers of the target

The general registers `x0`, `x1`, … and the stack pointer. The first eight pass arguments, and the first
of them also returns a result. `x29` is the frame pointer, `x30` the link register; `x16` forms the
addresses of slots that are too far from the frame pointer.
-/

namespace Spillway.Arm64

/-- A register of the target. -/
inductive Reg where
  | x (number : Nat)
  | sp
  deriving DecidableEq, Repr

namespace Reg

/-- How a register is written. -/
def text : Reg → String
  | .x number => s!"x{number}"
  | .sp => "sp"

/-- The frame pointer. -/
def fp : Reg := .x 29

/-- The link register. -/
def lr : Reg := .x 30

/-- The register that forms addresses of far slots. -/
def far : Reg := .x 16

/-- The register that returns the result of a function. -/
def result : Reg := .x 0

end Reg

/-- The place of an argument that is passed in a register. -/
abbrev Argument := Fin Limit.maxArguments

namespace Argument

/-- The register that passes an argument. -/
def reg (i : Argument) : Reg := .x i

/-- The displacement from the stack pointer at which an argument register is saved. -/
def saved (i : Argument) : Int := 8 * i

/-- All places, in order. -/
def all : List Argument := List.finRange Limit.maxArguments

/-- The place with this number, if arguments are passed there. -/
def ofNat? (index : Nat) : Option Argument :=
  if h : index < Limit.maxArguments then some ⟨index, h⟩ else none

end Argument

end Spillway.Arm64
