import Spillway.Counters
import Spillway.Journal
import Spillway.Log
import Spillway.Symbol.Table

/-!
# Declarations

Declaring a variable draws a register for it and binds its name. The register is drawn first, so it is
used up also if the scope turns out not to exist. Functions and structs are declared in the global scope
and get a scope of their own under it.
-/

namespace Spillway

/-- A symbol table together with the counters that its variables draw their registers from. -/
structure Scoping where
  table : SymbolTable := .initial
  counters : Counters := {}

namespace Scoping

/-- What a declaration reports. -/
inductive Notice where
  | declared (name : String) (ty : Ty) (scope : ScopeId) (register : VReg)
  | redeclared (name scope : String)
  deriving DecidableEq, Repr

instance : Logged Notice where
  severity
    | .declared .. => .trace
    | .redeclared .. => .warn
  message
    | .declared name ty scope register =>
      s!"Declaring `{name}`: {ty.text} in scope ScopeIdx \x7b index: {scope} \x7d as {register.text}"
    | .redeclared name scope => s!"`{name}` redeclared in scope `{scope}`, replacing the previous entry"

/-- A computation that declares names. -/
abbrev Declare := Journal Fault Scoping Notice

/-- Opens a scope and returns its number. -/
def newScope (parent : Option ScopeId) (name : String) : Declare ScopeId := do
  let s ← get
  let (id, table) ← s.table.newScope parent name
  set { s with table }
  return id

/-- Binds a name and returns what it was bound to in the same scope before. -/
def insert (scope : ScopeId) (name : String) (e : Entry) : Declare (Option Entry) := do
  let s ← get
  let home ← s.table.scopes.index scope
  set { s with table := ← s.table.insert scope name e }
  let previous := home.entries.get? name
  if previous.isSome then
    Journal.record (.redeclared name home.name)
  return previous

/-- Records the literal value of a variable. -/
def setValue (scope : ScopeId) (name value : String) : Declare Unit := do
  let s ← get
  set { s with table := ← s.table.setValue scope name value }

/-- Draws a register. -/
def drawRegister : Declare VReg := do
  let s ← get
  set { s with counters := s.counters.drawRegister.2 }
  return s.counters.drawRegister.1

/-- Declares a variable and returns its register. -/
def declareVariable (scope : ScopeId) (name : String) (ty : Ty) : Declare VReg := do
  let register ← drawRegister
  Journal.record (.declared name ty scope register)
  let _ ← insert scope name (.var { ty, register })
  return register

/-- Declares a parameter of the function that owns the scope. -/
def declareParameter (scope : ScopeId) (name : String) (ty : Ty) : Declare VReg := do
  let register ← declareVariable scope name ty
  let s ← get
  set { s with table := ← s.table.addParameter scope name ty }
  return register

/-- Declares a function without parameters and returns its scope. -/
def declareFunction (name : String) (returns : Ty) : Declare ScopeId := do
  let scope ← newScope (some SymbolTable.global) name
  let _ ← insert SymbolTable.global name (.function { returns, scope })
  return scope

/-- Declares a struct with its fields and returns its scope. -/
def declareStruct (name : String) (fields : List (String × Ty)) : Declare ScopeId := do
  let scope ← newScope (some SymbolTable.global) name
  let _ ← insert SymbolTable.global name (.struct scope)
  fields.forM fun f => do
    let _ ← declareVariable scope f.1 f.2
  return scope

end Scoping

end Spillway
