import Spillway.Lowering.Expr

/-!
# Lowering statements

A condition is compared with one. A conditional jumps over the branch that is not taken; a loop enters
at its condition, which stands after its body. The labels of a conditional are drawn after its
condition, those of a loop before everything else.
-/

namespace Spillway.Lowering

namespace Env

/-- Stores a register into the field that a path of fields leads to. -/
def storePath (env : Env) (value : VReg) : VReg → Ty → String → List String → Lower Unit
  | base, ty, name, [] => do
    let (index, _) ← env.field ty name
    emit (.storeField value base name index)
  | base, ty, name, next :: path => do
    let (target, fieldTy) ← env.loadField base ty name
    env.storePath value target fieldTy next path

/-- Stores a register into a place. -/
def store (env : Env) (place : Place) (value : VReg) : Lower Unit := do
  match place.fields with
  | [] =>
    if ← env.isGlobal place.base then
      emit (.store value (.global place.base))
    else
      emit (.mov (← env.registerOf place.base) (.reg value) .always)
  | name :: path =>
    let ty := (← env.var place.base).ty
    let base ← env.readName place.base
    env.storePath value base ty name path

/-- Reads a number into a variable. -/
def readInto (env : Env) (name : String) : Lower Unit := do
  if ← env.isGlobal name then
    let target ← freshRegister
    emit (.read target name)
    emit (.store target (.global name))
  else
    emit (.read (← env.registerOf name) name)

end Env

/-- Compares a value with one. -/
def compareWithOne (value : Lower VReg) : Lower Unit := do
  let register ← value
  emit (.cmp register (.imm 1))

/-- Code that runs only if the condition holds. -/
def conditional (test thenBlock : Lower Unit) : Lower Unit := do
  test
  let done ← freshLabel "done"
  emit (.branch (.on .ne) done)
  thenBlock
  emit (.branch .always done)
  emit (.label done)

/-- Code that runs if the condition holds, and code that runs if not. -/
def alternative (test thenBlock elseBlock : Lower Unit) : Lower Unit := do
  test
  let otherwise ← freshLabel "else"
  let done ← freshLabel "done"
  emit (.branch (.on .ne) otherwise)
  thenBlock
  emit (.branch .always done)
  emit (.label otherwise)
  elseBlock
  emit (.label done)

/-- Code that runs as long as the condition holds. -/
def repetition (test body : Lower Unit) : Lower Unit := do
  let entry ← freshLabel "condLabel"
  let again ← freshLabel "loopBody"
  emit (.branch .always entry)
  emit (.label again)
  body
  emit (.label entry)
  test
  emit (.branch (.on .eq) again)

namespace Env

/-- Lowers a condition and compares it with one. -/
def condition (env : Env) (e : Expr) : Lower Unit := compareWithOne (env.expr e)

mutual

/-- Lowers a statement. -/
def stmt (env : Env) : Stmt → Lower Unit
  | .assign target value => do env.store target (← env.expr value)
  | .print name newline => do
    let source ← env.readName name
    emit (if newline then .println source else .print source)
  | .read name => env.readInto name
  | .cond test thenBlock none => conditional (env.condition test) (env.block thenBlock)
  | .cond test thenBlock (some elseBlock) =>
    alternative (env.condition test) (env.block thenBlock) (env.block elseBlock)
  | .loop test body => repetition (env.condition test) (env.block body)
  | .ret none => emit (.ret none)
  | .ret (some value) => do
    let register ← env.expr value
    emit (.ret (some (.reg register)))
  | .call name arguments => do
    let _ ← env.callWith name (structArgument? arguments) (env.exprs arguments) (env.firstExpr arguments)
      false
  | .missing index size => Journal.fail (.missing index size)

/-- Lowers statements one after the other. -/
def block (env : Env) : List Stmt → Lower Unit
  | [] => return
  | s :: rest => do
    env.stmt s
    env.block rest

end

end Env

end Spillway.Lowering
