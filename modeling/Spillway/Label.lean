/-!
# Labels of linear code

A label is either *numbered*, made by the compiler from a stem and a number that it never uses twice, or
*named* outright by whoever wrote the code by hand.
-/

namespace Spillway

/-- A point in linear code that branches may name. -/
inductive Label where
  | numbered (stem : String) (number : Nat)
  | named (text : String)
  deriving DecidableEq, Repr

/-- How a label is written. -/
def Label.text : Label → String
  | .numbered stem number => s!"{stem}_L{number}"
  | .named text => text

end Spillway
