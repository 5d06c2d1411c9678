import Spillway.Fault

/-!
# Conditions and operations of linear code

A condition is what a comparison of two signed words may come out as. A `Guard` makes an instruction
depend on the last comparison, or not.
-/

namespace Spillway.Linear

/-- An outcome of a comparison. -/
inductive Cond where
  | eq
  | ne
  | gt
  | lt
  | ge
  | le
  deriving DecidableEq, Repr

namespace Cond

/-- How a condition is written after a mnemonic. -/
def suffix : Cond → String
  | .eq => "eq"
  | .ne => "ne"
  | .gt => "gt"
  | .lt => "lt"
  | .ge => "ge"
  | .le => "le"

/-- The condition that holds exactly if this one does not. -/
def inverse : Cond → Cond
  | .eq => .ne
  | .ne => .eq
  | .gt => .le
  | .le => .gt
  | .lt => .ge
  | .ge => .lt

@[simp] theorem inverse_inverse (c : Cond) : c.inverse.inverse = c := by cases c <;> rfl

/-- Whether the condition holds of two words. -/
def holds (c : Cond) (a b : Int) : Bool :=
  match c with
  | .eq => a = b
  | .ne => a ≠ b
  | .gt => b < a
  | .lt => a < b
  | .ge => b ≤ a
  | .le => a ≤ b

theorem holds_inverse (c : Cond) (a b : Int) : c.inverse.holds a b = !c.holds a b := by
  cases c <;> simp [inverse, holds] <;> grind

end Cond

/-- When an instruction takes effect. -/
inductive Guard where
  | always
  | on (c : Cond)
  deriving DecidableEq, Repr

namespace Guard

/-- How a guard is written after a mnemonic. -/
def suffix : Guard → String
  | .always => ""
  | .on c => c.suffix

/-- The opposite guard, which only a condition has. -/
def inverse : Guard → Except Defect Guard
  | .always => .error .noInverse
  | .on c => .ok (.on c.inverse)

end Guard

/-- An operation on two words. -/
inductive AluOp where
  | add
  | sub
  | mul
  | div
  | and
  | or
  deriving DecidableEq, Repr

/-- How an operation is written. -/
def AluOp.mnemonic : AluOp → String
  | .add => "add"
  | .sub => "sub"
  | .mul => "mul"
  | .div => "div"
  | .and => "and"
  | .or => "or"

end Spillway.Linear
