import Spillway.Arm64.Assembly
import Spillway.Lowering.Program
import Spillway.Session.Path

/-!
# What a session does to the outside

A session logs notices, prints text and writes files. It does none of this itself: its runs return what
is to be done, in order, as a list of effects.
-/

namespace Spillway.Session

/-- What a session reports. -/
inductive Notice where
  | lowering (n : Lowering.Notice)
  | generating (n : Arm64.Notice)
  | reset (registers labels : Nat)
  | wrote (lines : Nat) (path : String)
  deriving DecidableEq, Repr

instance : Logged Notice where
  severity
    | .lowering n => Logged.severity n
    | .generating n => Logged.severity n
    | .reset .. => .debug
    | .wrote .. => .debug
  message
    | .lowering n => Logged.message n
    | .generating n => Logged.message n
    | .reset registers labels =>
      s!"Resetting session after {registers} registers and {labels} labels"
    | .wrote lines path => s!"Wrote {lines} lines to {path}"

/-- Something that is to be done outside. -/
inductive Effect where
  | log (n : Notice)
  | print (text : String)
  | write (path text : String)
  deriving DecidableEq, Repr

namespace Effect

/-- The notices among the effects. -/
def notices (es : List Effect) : List Notice :=
  es.filterMap fun
    | .log n => some n
    | _ => none

/-- All that is printed. -/
def printed (es : List Effect) : String :=
  String.join (es.filterMap fun
    | .print text => some text
    | _ => none)

/-- The text of the file that was written last. -/
def written? (es : List Effect) : Option String :=
  (es.filterMap fun
    | .write _ text => some text
    | _ => none).getLast?

end Effect

/-- Why a session did not succeed. -/
inductive Error where
  | failure (f : Failure)
  | create (path : String) (cause : CreateError)
  deriving DecidableEq, Repr

/-- What an error says, outermost message first. A limit is reported as the cause of failed code
generation; a fault speaks for itself. -/
def Error.chain : Error → List String
  | .failure (.limit l) => ["Could not generate ARM64 assembly", l.message]
  | .failure (.fault f) => [f.message]
  | .create path cause => [s!"Failed to create '{path}'", cause.message]

end Spillway.Session
