import Spillway.Ty
import Spillway.VReg

/-!
# What can go wrong

Three kinds of cause are kept apart.

* A `Trap` is an arithmetic or indexing error.
* A `Defect` is an inconsistency that an earlier check of the program should have excluded; its text is
  a bug report.
* A `Limit` is a property of the program that the target cannot express.

`Fault` is a trap or a defect, `Failure` any of the three. Each cause has its wording in one place, its
`message`.
-/

namespace Spillway

/-- An arithmetic or indexing error. -/
inductive Trap where
  | outOfBounds (size index : Nat)
  | negateOverflow
  | addOverflow
  | multiplyOverflow
  deriving DecidableEq, Repr

/-- How a trap is reported. -/
def Trap.message : Trap → String
  | .outOfBounds size index =>
    s!"index out of bounds: the len is {size} but the index is {index}"
  | .negateOverflow => "attempt to negate with overflow"
  | .addOverflow => "attempt to add with overflow"
  | .multiplyOverflow => "attempt to multiply with overflow"

/-- An inconsistency of the program or of the compiler. -/
inductive Defect where
  /-- Nothing is stored under this index. -/
  | missing (index size : Nat)
  /-- A scope was opened under a parent that does not exist. -/
  | missingParent (parent : Nat) (scope : String)
  | parameterNotVariable (parameter scope : String)
  | valueOfNonVariable (name : String)
  /-- The name is bound to a function or a struct. -/
  | notVariable (name : String)
  | unresolvedName (name : String)
  /-- The name is bound to no register. -/
  | noRegister (name : String)
  | fieldOfNonStruct (field : String) (ty : Ty)
  | noSuchField (struct field : String)
  | newWithoutStruct
  | newOfUnknownStruct (struct : String)
  | deleteWithoutArgument
  | valuelessCall (callee : String)
  | unresolvedFunction (callee : String)
  | noFragments
  | missingGlobals (label : String)
  | undeclaredFunction (label : String)
  /-- The register is neither a parameter nor ever written. -/
  | unlocated (register : VReg)
  | poolExhausted
  | noInverse
  deriving DecidableEq, Repr

namespace Defect

/-- What a bug report says about the defect. -/
def report : Defect → String
  | .missing index size => s!"Index {index} out of bounds (len {size})"
  | .missingParent parent scope =>
    s!"Parent scope ScopeIdx \x7b index: {parent} \x7d of `{scope}` does not exist"
  | .parameterNotVariable parameter scope =>
    s!"Parameter `{parameter}` of `{scope}` is not a variable"
  | .valueOfNonVariable name => s!"Cannot record a value for non-variable `{name}`"
  | .notVariable name => s!"`{name}` is not a variable"
  | .unresolvedName name => s!"Unresolved identifier `{name}` reached lowering"
  | .noRegister name => s!"`{name}` does not resolve to a variable"
  | .fieldOfNonStruct field ty => s!"Field `{field}` selected on non-struct type {ty.text}"
  | .noSuchField struct field => s!"Struct `{struct}` has no field `{field}`"
  | .newWithoutStruct => "`new` expects a struct name"
  | .newOfUnknownStruct struct => s!"`new` of unknown struct `{struct}`"
  | .deleteWithoutArgument => "`delete` expects one argument"
  | .valuelessCall callee => s!"Call to `{callee}` used as a value produces none"
  | .unresolvedFunction callee => s!"Unresolved function `{callee}` reached lowering"
  | .noFragments => "No fragments to generate code for"
  | .missingGlobals label => s!"First fragment is `{label}`, expected the global variables"
  | .undeclaredFunction label => s!"Fragment `{label}` has no function declaration"
  | .unlocated register => s!"{register.text} is read before any write or parameter binding"
  | .poolExhausted => "Physical register pool exhausted"
  | .noInverse => "An unconditional flag has no inverse"

/-- The bug report of a defect. -/
def message (d : Defect) : String :=
  "There seems to be a bug with the compiler.\n " ++ d.report

end Defect

/-- A trap or a defect. -/
inductive Fault where
  | trap (t : Trap)
  | defect (d : Defect)
  deriving DecidableEq, Repr

/-- How a fault is reported. -/
def Fault.message : Fault → String
  | .trap t => t.message
  | .defect d => d.message

/-- A property of the program that the target cannot express. -/
inductive Limit where
  | tooManyArguments (callee : String) (count : Nat)
  | tooManyParameters (function : String) (count : Nat)
  /-- The frame needs `bytes` bytes. -/
  | frameTooLarge (function : String) (bytes : Nat)
  deriving DecidableEq, Repr

/-- How many arguments and parameters the target passes in registers. -/
def Limit.maxArguments : Nat := 8

/-- The largest frame, in bytes, that the target's immediates can encode. -/
def Limit.maxFrameBytes : Nat := 4080

/-- How a limit is reported. -/
def Limit.message : Limit → String
  | .tooManyArguments callee count =>
    s!"call to `{callee}` passes {count} arguments, at most {Limit.maxArguments} are supported"
  | .tooManyParameters function count =>
    s!"function `{function}` declares {count} parameters, at most {Limit.maxArguments} are supported"
  | .frameTooLarge function bytes =>
    s!"stack frame of `{function}` needs {bytes} bytes, at most {Limit.maxFrameBytes} are encodable"

/-- Why no assembly was generated. -/
inductive Failure where
  | limit (l : Limit)
  | fault (f : Fault)
  deriving DecidableEq, Repr

/-- How a failure is reported. -/
def Failure.message : Failure → String
  | .limit l => l.message
  | .fault f => f.message

instance : MonadLift (Except Trap) (Except Fault) where
  monadLift := Except.mapError .trap

instance : MonadLift (Except Defect) (Except Fault) where
  monadLift := Except.mapError .defect

instance : MonadLift (Except Fault) (Except Failure) where
  monadLift := Except.mapError .fault

instance : MonadLift (Except Limit) (Except Failure) where
  monadLift := Except.mapError .limit

end Spillway
