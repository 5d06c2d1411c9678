import Mathlib.Data.Nat.Bitwise
import Spillway.Word

/-!
# Rounding by masks

Sizes are rounded by adding and clearing low bits. On the words on which that does not overflow, the masks round to
multiples of the alignment: `toInt_roundUp`, and the offset of a frame is rounded down: `alignFrame_eq`. An area for a
number of words is as large as the mask makes it: `roundUp_bytes`.
-/

namespace Spillway.Word

/-- A mask clears the remainder of a word and leaves the rest. -/
theorem toNat_and_not (x : BitVec 64) : (x &&& ~~~15#64).toNat = x.toNat / 16 * 16 := by
  have hdisjoint : (x &&& ~~~15#64) &&& (x &&& 15#64) = 0#64 := by
    ext i
    simp only [BitVec.getElem_and, BitVec.getElem_not]
    cases x[i] <;> cases (15#64)[i] <;> simp
  have hjoined : (x &&& ~~~15#64) ||| (x &&& 15#64) = x := by
    ext i
    simp only [BitVec.getElem_or, BitVec.getElem_and, BitVec.getElem_not]
    cases x[i] <;> cases (15#64)[i] <;> rfl
  have hlow : (x &&& 15#64).toNat = x.toNat % 16 := by
    rw [BitVec.toNat_and]
    exact Nat.and_two_pow_sub_one_eq_mod x.toNat 4
  have hsum := BitVec.toNat_add_of_and_eq_zero hdisjoint
  rw [BitVec.add_eq_or_of_and_eq_zero _ _ hdisjoint, hjoined, hlow] at hsum
  omega

/-- **Clearing the low bits** of a word is rounding down. -/
theorem toInt_and_not (n : Int64) : (n &&& ~~~15).toInt = alignDown n.toInt := by
  have hnat : (n.toBitVec &&& ~~~15#64).toNat = n.toBitVec.toNat / 16 * 16 := toNat_and_not _
  rw [← Int64.toInt_toBitVec, ← Int64.toInt_toBitVec]
  show (n.toBitVec &&& ~~~15#64).toInt = _
  rw [BitVec.toInt_eq_toNat_cond, BitVec.toInt_eq_toNat_cond, hnat, alignDown, alignment]
  have hlt := n.toBitVec.isLt
  split <;> split <;> omega

theorem bmod_of_fits {m : Int} (h : Fits m) : m.bmod (2 ^ 64) = m := by
  rw [Fits, Int64.toInt_minValue, Int64.toInt_maxValue] at h
  apply Int.bmod_eq_of_le <;> omega

/-- **Rounding up** a word that is not among the last ones. -/
theorem toInt_roundUp {n : Int64} (h : Fits (n.toInt + 15)) : (roundUp n).toInt = -alignDown (-n.toInt) := by
  have hadd : (n + 15).toInt = n.toInt + 15 := by
    rw [Int64.toInt_add]
    exact bmod_of_fits h
  rw [roundUp, toInt_and_not, hadd, alignDown, alignDown, alignment]
  omega

/-- **Rounding an offset** down to the alignment. -/
theorem alignFrame_eq (offset : Int64) : alignFrame offset =
    if ¬ Fits (-offset.toInt) then .error .negateOverflow
    else if ¬ Fits (-offset.toInt + 15) then .error .addOverflow
    else .ok (Int64.ofInt (alignDown offset.toInt)) := by
  rw [alignFrame, show ((alignment : Int) - 1) = 15 from rfl]
  by_cases hneg : Fits (-offset.toInt)
  · by_cases hadd : Fits (-offset.toInt + 15)
    · have hminus : (-offset).toInt = -offset.toInt := by
        rw [Int64.toInt_neg]
        exact bmod_of_fits hneg
      have hround : -roundUp (-offset) = Int64.ofInt (alignDown offset.toInt) := by
        rw [← Int64.toInt_inj, Int64.toInt_neg, toInt_roundUp (by rwa [hminus]), hminus, Int.neg_neg, Int.neg_neg,
          Int64.toInt_ofInt]
      rw [hround]
    · rw [if_neg (not_not.2 hneg), if_pos hadd, if_neg (not_not.2 hneg), if_pos hadd]
  · rw [if_pos hneg, if_pos hneg]

/-- **The area for a number of words** is as large as the mask makes it. -/
theorem roundUp_bytes {count : Nat} (h : Fits (bytes * count + 15)) :
    roundUp (Int64.ofNat (bytes * count)) = Int64.ofNat (areaBytes count) := by
  have hrange := h
  rw [Fits, Int64.toInt_maxValue, bytes] at hrange
  have hbytes : (Int64.ofNat (bytes * count)).toInt = bytes * count := by
    rw [Int64.toInt_ofNat_of_lt (by rw [bytes]; omega)]
    push_cast
    rfl
  have harea : (Int64.ofNat (areaBytes count)).toInt = areaBytes count :=
    Int64.toInt_ofNat_of_lt (by rw [areaBytes, alignment]; omega)
  rw [← Int64.toInt_inj, toInt_roundUp (by rwa [hbytes]), hbytes, harea, areaBytes_eq]

end Spillway.Word
