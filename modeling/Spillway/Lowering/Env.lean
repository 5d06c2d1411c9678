import Spillway.Linear.Operator
import Spillway.Source.Tree
import Spillway.Symbol.Table

/-!
# What lowering knows about names

Code is lowered in an environment: a symbol table and the scope that the code stands in. The
environment answers what a name, a field or a callee is, and what type an expression has. Types matter
only where a field is selected, so `Env.typeOf` looks no deeper than that needs: the type of a chain is
that of its first operator.
-/

namespace Spillway.Lowering

open Linear (Cond AluOp)

/-- The surroundings of the code that is being lowered. -/
structure Env where
  symbols : SymbolTable
  scope : ScopeId

/-- What a binary operator becomes: a comparison, or an operation on two words. -/
inductive Action where
  | compare (c : Cond)
  | compute (op : AluOp)
  deriving DecidableEq, Repr

/-- What a binary operator becomes. -/
def Action.of : BinOp → Action
  | .eq => .compare .eq
  | .ne => .compare .ne
  | .gt => .compare .gt
  | .lt => .compare .lt
  | .ge => .compare .ge
  | .le => .compare .le
  | .add => .compute .add
  | .sub => .compute .sub
  | .mul => .compute .mul
  | .div => .compute .div
  | .and => .compute .and
  | .or => .compute .or

namespace Env

/-- The variable a name stands for. -/
def var (env : Env) (name : String) : Except Defect Variable := do
  match ← env.symbols.lookup env.scope name with
  | some (.var v) => return v
  | some _ => throw (.notVariable name)
  | none => throw (.unresolvedName name)

/-- The register of the variable a name stands for. -/
def registerOf (env : Env) (name : String) : Except Defect VReg := do
  match (← env.symbols.lookup env.scope name).bind Entry.register? with
  | some r => return r
  | none => throw (.noRegister name)

/-- Whether a name stands for a global variable. -/
def isGlobal (env : Env) (name : String) : Except Defect Bool :=
  env.symbols.isGlobal env.scope name

/-- What a call of this name goes to. -/
def callee (env : Env) (name : String) : Except Defect Callee := do
  match ← env.symbols.callee env.scope name with
  | some c => return c
  | none => throw (.unresolvedFunction name)

/-- The place and the type of a field of a value of the given type. A field that is not a variable has
no known type. -/
def field (env : Env) (ty : Ty) (name : String) : Except Defect (Nat × Ty) := do
  match ty with
  | .struct struct =>
    match ← env.symbols.field struct name with
    | some (index, e) => return (index, e.ty?.getD .unknown)
    | none => throw (.noSuchField struct name)
  | _ => throw (.fieldOfNonStruct name ty)

/-- The type that a path of fields leads to. -/
def typeAlong (env : Env) : Ty → List String → Except Defect Ty
  | ty, [] => return ty
  | ty, name :: path => do env.typeAlong (← env.field ty name).2 path

/-- The struct that an allocation names: its first argument has to be a plain name. -/
def structArgument? : List Expr → Except Defect (Option String)
  | .name struct :: _ => .ok (some struct)
  | .missing index size :: _ => .error (.missing index size)
  | _ => .ok none

/-- The type of an expression, as far as selecting a field needs it. -/
def typeOf (env : Env) : Expr → Except Defect Ty
  | .int _ => return .int
  | .bool _ => return .bool
  | .nil => return .unknown
  | .name name => return (← env.var name).ty
  | .paren inner => env.typeOf inner
  | .chain head [] => env.typeOf head
  | .chain _ ((op, _) :: _) => return op.resultType
  | .unary op _ => return op.resultType
  | .select base fields => do env.typeAlong (← env.typeOf base) fields
  | .call name arguments => do
    match ← env.callee name with
    | .user f => return f.returns
    | .builtin .new => return (← structArgument? arguments).elim .unknown .struct
    | .builtin .delete => return .void
  | .missing index size => throw (.missing index size)

end Env

end Spillway.Lowering
