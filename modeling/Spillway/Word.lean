import Spillway.Fault

/-!
# Checked arithmetic on 64-bit words

Constants and displacements are signed 64-bit words. The two computations that may leave their range
are checked: rounding a frame offset, and turning the number of a word into a displacement in bytes.
-/

namespace Spillway.Word

/-- The bytes of one word. -/
def bytes : Nat := 8

/-- The stack pointer stays a multiple of this. -/
def alignment : Nat := 16

/-- The decimal text of a word, with a sign if it is negative. -/
def text (v : Int64) : String := toString v.toInt

/-- Whether a number is that of a signed 64-bit word. -/
def Fits (n : Int) : Prop := Int64.minValue.toInt ≤ n ∧ n ≤ Int64.maxValue.toInt

instance (n : Int) : Decidable (Fits n) := inferInstanceAs (Decidable (_ ∧ _))

/-- The greatest multiple of the alignment that is not above `n`. -/
def alignDown (n : Int) : Int := n / alignment * alignment

/-- Rounds up to a multiple of the alignment: what is missing is added, and a mask clears the low bits. -/
def roundUp (n : Int64) : Int64 := (n + 15) &&& ~~~15

/-- Rounds a frame offset down to a multiple of the alignment. The offset is negated and rounded up, and
negating it and adding to it have to fit. -/
def alignFrame (offset : Int64) : Except Trap Int64 :=
  if ¬ Fits (-offset.toInt) then .error .negateOverflow
  else if ¬ Fits (-offset.toInt + (alignment - 1)) then .error .addOverflow
  else .ok (-roundUp (-offset))

/-- The displacement in bytes of word `index`, taken as a signed word. -/
def displacement (index : Nat) : Except Trap Int64 :=
  let n := (Int64.ofNat index).toInt * bytes
  if Fits n then .ok (Int64.ofInt n) else .error .multiplyOverflow

/-- Words of an area that keeps the stack pointer aligned and has room for `count` words, in bytes. -/
def areaBytes (count : Nat) : Nat := (count + 1) / 2 * alignment

/-! ### Rounding -/

theorem alignDown_le (n : Int) : alignDown n ≤ n := by
  unfold alignDown alignment
  omega

theorem lt_alignDown_add (n : Int) : n < alignDown n + alignment := by
  unfold alignDown alignment
  omega

theorem alignment_dvd_alignDown (n : Int) : (alignment : Int) ∣ alignDown n :=
  ⟨n / alignment, by rw [alignDown, Int.mul_comm]⟩

/-- The area for `count` words is the rounded number of their bytes. -/
theorem areaBytes_eq (count : Nat) : (areaBytes count : Int) = -alignDown (-(bytes * count : Int)) := by
  unfold areaBytes alignDown bytes alignment
  omega

end Spillway.Word
