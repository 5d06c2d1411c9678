/-!
# Virtual registers

A virtual register is an abstract value slot, told apart by its number. There are as many as needed;
where each of them lives is decided by the frame of the function that uses it.
-/

namespace Spillway

/-- A virtual register. -/
@[ext] structure VReg where
  id : Nat
  deriving DecidableEq, Repr

/-- How a virtual register is written. -/
def VReg.text (r : VReg) : String := s!"r{r.id}"

end Spillway
