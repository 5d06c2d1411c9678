import Spillway.Linear.Instr

/-!
# Fragments and their listing

A fragment is the linear code of one function. The code that clears the globals is a fragment of its
own, told by its label. In a listing labels stand at the margin and other instructions are indented.
-/

namespace Spillway.Linear

/-- The linear code of one function. -/
structure Fragment where
  label : String
  body : List Instr
  deriving DecidableEq, Repr

namespace Fragment

/-- The label of the fragment that clears the globals. -/
def globalsLabel : String := "Global Variable"

/-- Whether a fragment is the one that clears the globals. -/
def isGlobals (f : Fragment) : Bool := f.label = globalsLabel

/-- The registers that a body writes, each as often as it is written. -/
def targets (body : List Instr) : List VReg := body.filterMap Instr.target?

end Fragment

/-- An instruction as a line of a listing. -/
def Instr.listing : Instr → String
  | .label l => l.text ++ ":\n"
  | i => "    " ++ i.text ++ "\n"

/-- The listing of one fragment. -/
def Fragment.listing (f : Fragment) : String :=
  f.label ++ ":\n" ++ String.join (f.body.map Instr.listing)

/-- The listing of a program. -/
def listing (fs : List Fragment) : String := String.join (fs.map Fragment.listing)

end Spillway.Linear
