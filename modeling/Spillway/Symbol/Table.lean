import Spillway.Arena
import Spillway.Dict
import Spillway.Symbol.Entry

/-!
# The symbol table

A symbol table is a forest of scopes. Scope `0` is the global one; every other scope may have a parent,
which was there before it. A name is looked up along the chain of parents, innermost scope first.

The queries come first, then the four ways to change a table. A query about a scope that does not exist
is a defect; a change to one is a trap.
-/

namespace Spillway

/-- A scope: its entries in declaration order, and the names and types of the parameters if it is that
of a function. -/
structure Scope where
  name : String
  parent : Option ScopeId
  entries : Dict Entry := .empty
  parameterNames : List String := []
  parameterTypes : List Ty := []

/-- The scopes of one program. -/
structure SymbolTable where
  scopes : Arena Scope

namespace SymbolTable

/-- The global scope. -/
def global : ScopeId := 0

/-- The table that has only the global scope, and nothing in it. -/
def initial : SymbolTable := ⟨⟨#[{ name := "global", parent := none }]⟩⟩

instance : Inhabited SymbolTable := ⟨initial⟩

/-! ### Queries -/

/-- The scope with this number. -/
def scope (t : SymbolTable) (i : ScopeId) : Except Defect Scope := t.scopes.fetch i

/-- What a name is bound to in this scope itself. -/
def entry? (t : SymbolTable) (i : ScopeId) (name : String) : Except Defect (Option Entry) := do
  return (← t.scope i).entries.get? name

/-- Looks a name up on the chain of parents that starts at `i`, at most `depth` scopes of it. -/
def resolveWithin (t : SymbolTable) (name : String) :
    (depth : Nat) → ScopeId → Except Defect (Option (ScopeId × Entry))
  | 0, _ => .ok none
  | depth + 1, i => do
    let s ← t.scope i
    match s.entries.get? name, s.parent with
    | some e, _ => return some (i, e)
    | none, some parent => t.resolveWithin name depth parent
    | none, none => return none

/-- The nearest binding of a name seen from scope `i`, and the scope that holds it. No chain of parents
is longer than the number of scopes. -/
def resolve (t : SymbolTable) (i : ScopeId) (name : String) :
    Except Defect (Option (ScopeId × Entry)) :=
  t.resolveWithin name (t.scopes.size + 1) i

/-- What a name stands for, seen from scope `i`. -/
def lookup (t : SymbolTable) (i : ScopeId) (name : String) : Except Defect (Option Entry) := do
  return (← t.resolve i name).map (·.2)

/-- Whether a name stands for a global variable, one that lives in memory. -/
def isGlobal (t : SymbolTable) (i : ScopeId) (name : String) : Except Defect Bool := do
  match ← t.resolve i name with
  | some (home, .var _) => return home = global
  | _ => return false

/-- What a call of this name goes to. A function of the program comes before a built-in operation. -/
def callee (t : SymbolTable) (i : ScopeId) (name : String) : Except Defect (Option Callee) := do
  match ← t.lookup i name with
  | some (.function f) => return some (.user f)
  | _ => return (Builtin.ofName? name).map .builtin

/-- The function of this name in the global scope. -/
def function? (t : SymbolTable) (name : String) : Except Defect (Option Signature) := do
  match ← t.entry? global name with
  | some (.function f) => return some f
  | _ => return none

/-- The scope of the struct of this name in the global scope. -/
def struct? (t : SymbolTable) (name : String) : Except Defect (Option ScopeId) := do
  match ← t.entry? global name with
  | some (.struct i) => return some i
  | _ => return none

/-- What the function that owns scope `i` returns; it is found through the scope's name. -/
def returnType (t : SymbolTable) (i : ScopeId) : Except Defect (Option Ty) := do
  let s ← t.scope i
  match s.parent with
  | none => return none
  | some parent => return (← t.entry? parent s.name).bind Entry.returns?

/-- The variable that a parameter of scope `s` stands for. -/
def parameter (s : Scope) (name : String) : Except Defect Variable :=
  match s.entries.get? name with
  | some (.var v) => .ok v
  | _ => .error (.parameterNotVariable name s.name)

/-- The parameters of the function that owns scope `i`, in declaration order. -/
def parameters (t : SymbolTable) (i : ScopeId) : Except Defect (List Variable) := do
  let s ← t.scope i
  s.parameterNames.mapM (parameter s)

/-- How many fields a struct has. -/
def fieldCount (t : SymbolTable) (struct : String) : Except Defect (Option Nat) := do
  match ← t.struct? struct with
  | none => return none
  | some i => return some (← t.scope i).entries.size

/-- The place of a field in its struct, counted in words, and what the field is. -/
def field (t : SymbolTable) (struct field : String) : Except Defect (Option (Nat × Entry)) := do
  match ← t.struct? struct with
  | none => return none
  | some i =>
    let entries := (← t.scope i).entries
    match entries.position? field, entries.get? field with
    | some position, some e => return some (position, e)
    | _, _ => return none

/-! ### Changes -/

/-- Adds a scope under a parent that is already there, or at the root. -/
def newScope (t : SymbolTable) (parent : Option ScopeId) (name : String) :
    Except Defect (ScopeId × SymbolTable) :=
  match parent with
  | some p =>
    if p < t.scopes.size then
      .ok (t.scopes.size, ⟨(t.scopes.push { name, parent }).2⟩)
    else .error (.missingParent p name)
  | none => .ok (t.scopes.size, ⟨(t.scopes.push { name, parent }).2⟩)

/-- Binds a name in scope `i`. -/
def insert (t : SymbolTable) (i : ScopeId) (name : String) (e : Entry) : Except Trap SymbolTable := do
  return ⟨← t.scopes.update i fun s => { s with entries := s.entries.insert name e }⟩

/-- Adds to the parameters of the function that owns scope `i`. -/
def addParameter (t : SymbolTable) (i : ScopeId) (name : String) (ty : Ty) :
    Except Trap SymbolTable := do
  return ⟨← t.scopes.update i fun s => { s with
    parameterNames := s.parameterNames ++ [name], parameterTypes := s.parameterTypes ++ [ty] }⟩

/-- Records the literal value of a variable of scope `i`. -/
def setValue (t : SymbolTable) (i : ScopeId) (name value : String) : Except Fault SymbolTable := do
  match (← t.scopes.index i).entries.get? name with
  | some (.var v) => t.insert i name (.var { v with value := some value })
  | _ => throw (.defect (.valueOfNonVariable name))

end SymbolTable

end Spillway
