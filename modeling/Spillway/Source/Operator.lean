import Spillway.Ty

/-!
# Operators of the source language

Twelve binary operators, which an expression chains from left to right, and two unary ones.
-/

namespace Spillway

/-- A binary operator. -/
inductive BinOp where
  | or
  | and
  | eq
  | ne
  | lt
  | le
  | gt
  | ge
  | add
  | sub
  | mul
  | div
  deriving DecidableEq, Repr

namespace BinOp

/-- How an operator is written. -/
def text : BinOp → String
  | .or => "||"
  | .and => "&&"
  | .eq => "=="
  | .ne => "!="
  | .lt => "<"
  | .le => "<="
  | .gt => ">"
  | .ge => ">="
  | .add => "+"
  | .sub => "-"
  | .mul => "*"
  | .div => "/"

/-- All operators. -/
def all : List BinOp := [.or, .and, .eq, .ne, .lt, .le, .gt, .ge, .add, .sub, .mul, .div]

/-- Reads an operator from its text. -/
def ofText? (text : String) : Option BinOp := all.find? (·.text = text)

/-- Reading an operator's text gives the operator back. -/
theorem ofText?_text (op : BinOp) : ofText? op.text = some op := by
  cases op <;> decide

/-- The type of what an operator computes. -/
def resultType : BinOp → Ty
  | .add | .sub | .mul | .div => .int
  | .or | .and | .eq | .ne | .lt | .le | .gt | .ge => .bool

end BinOp

/-- A unary operator. -/
inductive UnOp where
  | not
  | negate
  deriving DecidableEq, Repr

/-- The type of what a unary operator computes. -/
def UnOp.resultType : UnOp → Ty
  | .not => .bool
  | .negate => .int

end Spillway
