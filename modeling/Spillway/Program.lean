import Spillway.Source.Tree
import Spillway.Symbol.Declare

/-!
# Programs

A program is its nodes, its symbol table, the names of its globals and its functions. The declarations
of this module keep the lists and the symbol table in step: a global is listed when its name is bound in
the global scope, a local when it is bound in the scope of its function.
-/

namespace Spillway

/-- The number of a function in its program. -/
abbrev FunctionId := Nat

/-- A function: its locals in declaration order, parameters not among them, its body and its scope. -/
structure FunctionDecl where
  name : String
  scope : ScopeId
  locals : List String := []
  body : List StmtId := []
  deriving DecidableEq, Repr

/-- A program that is ready to be lowered. -/
structure Program where
  nodes : Nodes := {}
  globals : List String := []
  functions : Arena FunctionDecl := {}
  symbols : SymbolTable := .initial

/-- The body of a function as trees. -/
def Program.body (p : Program) (f : FunctionDecl) : List Stmt := f.body.map p.nodes.stmtTree

/-- A program that is being declared, and the counters that its variables draw registers from. -/
structure Draft where
  program : Program := {}
  counters : Counters := {}

namespace Draft

/-- The part of a draft that declarations of names work on. -/
def scoping (d : Draft) : Scoping := ⟨d.program.symbols, d.counters⟩

/-- Puts a symbol table and counters back into a draft. -/
def withScoping (d : Draft) (s : Scoping) : Draft :=
  { program := { d.program with symbols := s.table }, counters := s.counters }

/-- A computation that adds to a program. -/
abbrev Extend := Journal Fault Draft Scoping.Notice

/-- A step that adds to a program, with counters of 32 bits. An overflow adds nothing. -/
def counting {α : Type} (m : Extend α) : Extend α :=
  m.bounded (fun d => d.counters.Countable) (fun d d' => { d with counters := d'.counters.capped })
    (.trap .addOverflow)

/-- Declares names only. -/
def declare {α : Type} (m : Scoping.Declare α) : Extend α := m.zoom scoping withScoping

/-- Changes the program itself. -/
def modifyProgram (f : Program → Program) : Extend Unit :=
  modify fun d => { d with program := f d.program }

/-- Changes one function; a missing one is a trap. -/
def modifyFunction (f : FunctionId) (change : FunctionDecl → FunctionDecl) : Extend Unit := do
  let functions ← (← get).program.functions.update f change
  modifyProgram fun p => { p with functions }

/-- Declares a global variable and returns its register. -/
def declareGlobal (name : String) (ty : Ty) : Extend VReg := do
  let register ← declare (Scoping.declareVariable SymbolTable.global name ty)
  modifyProgram fun p => { p with globals := p.globals ++ [name] }
  return register

/-- Declares a struct. -/
def declareStruct (name : String) (fields : List (String × Ty)) : Extend Unit := do
  let _ ← declare (Scoping.declareStruct name fields)

/-- Declares a function with its parameters and returns its number. -/
def declareFunction (name : String) (parameters : List (String × Ty)) (returns : Ty) :
    Extend FunctionId := do
  let scope ← declare (Scoping.declareFunction name returns)
  parameters.forM fun p => do
    let _ ← declare (Scoping.declareParameter scope p.1 p.2)
  let (id, functions) := (← get).program.functions.push { name, scope }
  modifyProgram fun p => { p with functions }
  return id

/-- Declares a local variable of a function and returns its register. -/
def declareLocal (function : FunctionId) (name : String) (ty : Ty) : Extend VReg := do
  let f ← (← get).program.functions.index function
  let register ← declare (Scoping.declareVariable f.scope name ty)
  modifyFunction function fun f => { f with locals := f.locals ++ [name] }
  return register

/-- Appends a statement to the body of a function. -/
def pushStatement (function : FunctionId) (statement : StmtId) : Extend Unit :=
  modifyFunction function fun f => { f with body := f.body ++ [statement] }

end Draft

end Spillway
