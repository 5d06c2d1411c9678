import Spillway.Linear.Fragment
import Spillway.Lowering.Node
import Spillway.Program

/-!
# Lowering programs

A program becomes one fragment that clears its globals, followed by one fragment per function in
declaration order. A function first clears its locals.
-/

namespace Spillway

namespace Lowering

open Linear (Instr Fragment)

/-- What lowering reports. -/
inductive Notice where
  | entered (function : String) (statements : Nat)
  | emitted (i : Instr)
  deriving DecidableEq, Repr

instance : Logged Notice where
  severity
    | .entered .. => .debug
    | .emitted _ => .trace
  message
    | .entered function statements => s!"Lowering function `{function}` ({statements} statements)"
    | .emitted i => s!"Emitting `{i.text}`"

/-- The code that clears the globals. -/
def Env.clearGlobals (env : Env) (names : List String) : Lower Unit :=
  names.forM fun name => do
    let register ← env.registerOf name
    emit (.mov register (.imm 0) .always)
    emit (.store register (.global name))

/-- The code that clears the locals of a function. -/
def Env.clearLocals (env : Env) (names : List String) : Lower Unit :=
  names.forM fun name => do
    emit (.mov (← env.registerOf name) (.imm 0) .always)

/-- The code of a function: its locals are cleared, then the nodes of its body run. -/
def Env.functionAt (env : Env) (ns : Nodes) (locals : List String) (body : List StmtId) : Lower Unit := do
  env.clearLocals locals
  body.forM (env.stmtAt ns)

/-- The code of a function whose body is given as trees. -/
def Env.function (env : Env) (locals : List String) (body : List Stmt) : Lower Unit := do
  env.clearLocals locals
  env.block body

/-- Makes a fragment of the code that a computation writes. -/
def fragment (label : String) (code : Lower Unit) : Journal Defect Counters Notice Fragment := do
  let (_, body) ← code.collect .emitted
  return { label, body }

end Lowering

namespace Program

open Lowering
open Linear (Fragment)

/-- The environment of the code in a scope. -/
def env (p : Program) (scope : ScopeId) : Env := ⟨p.symbols, scope⟩

/-- Lowers the globals. -/
def lowerGlobals (p : Program) : Journal Defect Counters Notice Fragment :=
  fragment Fragment.globalsLabel ((p.env SymbolTable.global).clearGlobals p.globals)

/-- Lowers one function. -/
def lowerFunction (p : Program) (f : FunctionDecl) : Journal Defect Counters Notice Fragment := do
  Journal.record (.entered f.name f.body.length)
  fragment f.name ((p.env f.scope).functionAt p.nodes f.locals f.body)

/-- Lowers a program. -/
def lower (p : Program) : Journal Defect Counters Notice (List Fragment) := do
  let globals ← p.lowerGlobals
  let functions ← p.functions.toList.mapM p.lowerFunction
  return globals :: functions

/-- Lowers one expression in the global scope. -/
def lowerExpr (p : Program) (i : ExprId) : Journal Defect Counters Notice VReg :=
  ((p.env SymbolTable.global).exprAt p.nodes i).mapEntries .emitted

end Program

end Spillway
