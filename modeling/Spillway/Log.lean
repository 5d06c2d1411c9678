/-!
# Notices and their severity

Every stage reports what it does as *notices*, values of a type of its own. `Logged` gives a notice its
severity and its text; a reader who asks for one severity also sees the graver ones.
-/

namespace Spillway

/-- How grave a notice is, gravest first. -/
inductive Severity where
  | warn
  | debug
  | trace
  deriving DecidableEq, Repr

namespace Severity

/-- The word that stands before the text of a notice. -/
def name : Severity → String
  | .warn => "WARN"
  | .debug => "DEBUG"
  | .trace => "TRACE"

/-- The place in the order, `0` for the gravest. -/
def rank : Severity → Nat
  | .warn => 0
  | .debug => 1
  | .trace => 2

/-- A log kept at `level` shows notices of that severity and graver ones. -/
def shows (level severity : Severity) : Bool := severity.rank ≤ level.rank

end Severity

/-- A type of notices. -/
class Logged (ω : Type) where
  severity : ω → Severity
  message : ω → String

namespace Logged

variable {ω : Type} [Logged ω]

/-- A notice as one line of a log. -/
def line (w : ω) : String := (severity w).name ++ " " ++ message w

/-- The lines of a log kept at `level`. -/
def lines (level : Severity) (ws : List ω) : List String :=
  (ws.filter fun w => level.shows (severity w)).map line

end Logged

end Spillway
