import Spillway.Counters
import Spillway.Journal
import Spillway.Linear.Instr
import Spillway.Lowering.Env

/-!
# Lowering expressions

The code of an expression leaves its value in a register, which `Env.expr` returns. A local variable is
its own register; every other value goes to a register that is drawn for it. Operands and arguments are
lowered once each, from left to right.

A comparison clears its register, compares, and then sets the register if the condition holds. A call
passes its arguments, jumps, takes the result if it is wanted, and ends the call.
-/

namespace Spillway.Lowering

open Linear (Instr)

/-- A computation that writes linear code and draws registers and labels for it. -/
abbrev Lower := Journal Defect Counters Instr

/-- Writes one instruction. -/
def emit (i : Instr) : Lower Unit := Journal.record i

/-- Draws a register. -/
def freshRegister : Lower VReg := modifyGet Counters.drawRegister

/-- Draws a label. -/
def freshLabel (stem : String) : Lower Label := modifyGet fun c => c.drawLabel stem

/-- Puts a constant into a register of its own. -/
def constant (value : Int64) : Lower VReg := do
  let target ← freshRegister
  emit (.mov target (.imm value) .always)
  return target

/-- Combines two registers into a new one. -/
def combine (op : BinOp) (left right : VReg) : Lower VReg := do
  let target ← freshRegister
  match Action.of op with
  | .compare c =>
    emit (.mov target (.imm 0) .always)
    emit (.cmp left (.reg right))
    emit (.mov target (.imm 1) (.on c))
  | .compute op => emit (.binary op target left (.reg right))
  return target

/-- Applies a unary operator to a register. A number is negated by subtracting it from zero. -/
def applyUnary (op : UnOp) (operand : VReg) : Lower VReg := do
  match op with
  | .not =>
    let target ← freshRegister
    emit (.not target operand)
    return target
  | .negate =>
    let zero ← constant 0
    let target ← freshRegister
    emit (.binary .sub target zero (.reg operand))
    return target

namespace Env

/-- The register that holds a variable: its own, or a new one that a global is loaded into. -/
def readName (env : Env) (name : String) : Lower VReg := do
  if ← env.isGlobal name then
    let target ← freshRegister
    emit (.load target (.global name))
    return target
  else
    env.registerOf name

/-- Loads a field of the struct that a register points to, and returns the field's type with it. -/
def loadField (env : Env) (base : VReg) (ty : Ty) (name : String) : Lower (VReg × Ty) := do
  let (index, fieldTy) ← env.field ty name
  let target ← freshRegister
  emit (.loadField target base name index)
  return (target, fieldTy)

/-- Follows a path of fields from a register. -/
def loadPath (env : Env) : VReg → Ty → List String → Lower VReg
  | base, _, [] => return base
  | base, ty, name :: path => do
    let (target, fieldTy) ← env.loadField base ty name
    env.loadPath target fieldTy path

/-- Allocates a struct, if one is named. -/
def allocate (env : Env) : Option String → Lower VReg
  | none => Journal.fail .newWithoutStruct
  | some struct => do
    match ← env.symbols.fieldCount struct with
    | none => Journal.fail (.newOfUnknownStruct struct)
    | some fields =>
      let target ← freshRegister
      emit (.alloc target struct fields)
      return target

/-- Calls a function of the program with arguments that are in registers. -/
def callUser (name : String) (arguments : List VReg) (wanted : Bool) : Lower (Option VReg) := do
  emit (.push arguments name)
  emit (.call name)
  if wanted then
    let target ← freshRegister
    emit (.result target)
    emit (.pop arguments name)
    return some target
  else
    emit (.pop arguments name)
    return none

/-- Lowers a call, given the struct that its first argument names, how to lower all its arguments and how
to lower the first. Returns the register of the result if the call has one and it is wanted. -/
def callWith (env : Env) (name : String) (struct? : Except Defect (Option String))
    (all : Lower (List VReg)) (first : Lower VReg) (wanted : Bool) : Lower (Option VReg) := do
  match ← env.callee name with
  | .builtin .new => return some (← env.allocate (← struct?))
  | .builtin .delete =>
    let pointer ← first
    emit (.free pointer)
    return none
  | .user _ => callUser name (← all) wanted

mutual

/-- Lowers an expression and returns the register of its value. -/
def expr (env : Env) : Expr → Lower VReg
  | .int value => constant value
  | .bool value => constant (if value then 1 else 0)
  | .nil => constant 0
  | .name name => env.readName name
  | .paren inner => env.expr inner
  | .chain head links => do env.links (← env.expr head) links
  | .unary op operand => do applyUnary op (← env.expr operand)
  | .select base fields => do
    let ty ← env.typeOf base
    let register ← env.expr base
    env.loadPath register ty fields
  | .call name arguments => do
    match ← env.callWith name (structArgument? arguments) (env.exprs arguments) (env.firstExpr arguments)
      true with
    | some result => return result
    | none => Journal.fail (.valuelessCall name)
  | .missing index size => Journal.fail (.missing index size)

/-- Combines a register with the links of a chain, from left to right. -/
def links (env : Env) : VReg → List (BinOp × Expr) → Lower VReg
  | result, [] => return result
  | result, (op, operand) :: rest => do
    let right ← env.expr operand
    env.links (← combine op result right) rest

/-- Lowers a list of expressions from left to right. -/
def exprs (env : Env) : List Expr → Lower (List VReg)
  | [] => return []
  | e :: rest => do
    let register ← env.expr e
    return register :: (← env.exprs rest)

/-- Lowers the first of a list of expressions. -/
def firstExpr (env : Env) : List Expr → Lower VReg
  | [] => Journal.fail .deleteWithoutArgument
  | e :: _ => env.expr e

end

end Env

end Spillway.Lowering
