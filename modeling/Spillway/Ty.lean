/-!
# Types of the source language

The four named types, and a pointer to a struct for every struct name. A type's text starts with `*`
exactly if it is a struct, so the text determines the type (`Ty.ofText?_text`).
-/

namespace Spillway

/-- A type of the source language. -/
inductive Ty where
  | int
  | bool
  | void
  | unknown
  /-- A pointer to a value of the struct of this name. -/
  | struct (name : String)
  deriving DecidableEq, Repr

namespace Ty

/-- How a type is written. -/
def text : Ty → String
  | .int => "int"
  | .bool => "bool"
  | .void => "void"
  | .unknown => "unknown"
  | .struct name => "*" ++ name

/-- The struct a value of this type points to. -/
def structName? : Ty → Option String
  | .struct name => some name
  | _ => none

/-- Reads a type from its text. -/
def ofText? (text : String) : Option Ty :=
  match text.toList with
  | '*' :: name => some (.struct (String.ofList name))
  | _ =>
    if text = "int" then some .int
    else if text = "bool" then some .bool
    else if text = "void" then some .void
    else if text = "unknown" then some .unknown
    else none

/-- Reading a type's text gives the type back. -/
theorem ofText?_text (ty : Ty) : ofText? ty.text = some ty := by
  cases ty with
  | struct name => simp [ofText?, text]
  | _ => decide

end Ty

end Spillway
