import Spillway.Ty
import Spillway.VReg

/-!
# What a name can stand for

A name is bound to a variable, a function or a struct. Functions and structs have a scope of their own,
which holds the parameters and locals of the one and the fields of the other.
-/

namespace Spillway

/-- The number of a scope in its symbol table. -/
abbrev ScopeId := Nat

/-- A variable: its type, the literal value recorded for it, and the register that is its own for good. -/
@[ext] structure Variable where
  ty : Ty
  value : Option String := none
  register : VReg
  deriving DecidableEq, Repr

/-- A function: what it returns, and the scope of its parameters and locals. -/
@[ext] structure Signature where
  returns : Ty
  scope : ScopeId
  deriving DecidableEq, Repr

/-- What a name is bound to. -/
inductive Entry where
  | var (v : Variable)
  | function (f : Signature)
  /-- A struct, whose fields are the variables of `scope`. -/
  | struct (scope : ScopeId)
  deriving DecidableEq, Repr

namespace Entry

/-- The variable, if the name is one. -/
def var? : Entry → Option Variable
  | .var v => some v
  | _ => none

/-- The type of a variable. -/
def ty? (e : Entry) : Option Ty := e.var?.map (·.ty)

/-- The register of a variable. -/
def register? (e : Entry) : Option VReg := e.var?.map (·.register)

/-- The literal value recorded for a variable. -/
def value? (e : Entry) : Option String := e.var?.bind (·.value)

/-- What a function returns. -/
def returns? : Entry → Option Ty
  | .function f => some f.returns
  | _ => none

/-- The scope that a function or a struct has of its own. -/
def scope? : Entry → Option ScopeId
  | .function f => some f.scope
  | .struct scope => some scope
  | .var _ => none

end Entry

/-- The operations that are always there. -/
inductive Builtin where
  /-- Allocates a struct. -/
  | new
  /-- Gives a struct back. -/
  | delete
  deriving DecidableEq, Repr

namespace Builtin

/-- How a built-in operation is called. -/
def name : Builtin → String
  | .new => "new"
  | .delete => "delete"

/-- The built-in operation of this name. -/
def ofName? (name : String) : Option Builtin :=
  if name = "new" then some .new else if name = "delete" then some .delete else none

theorem ofName?_eq_some_iff {name : String} {b : Builtin} :
    ofName? name = some b ↔ name = b.name := by
  unfold ofName?
  cases b <;> by_cases h : name = "new" <;> simp_all [Builtin.name]

end Builtin

/-- What a call may go to. -/
inductive Callee where
  | user (f : Signature)
  | builtin (b : Builtin)
  deriving DecidableEq, Repr

end Spillway
