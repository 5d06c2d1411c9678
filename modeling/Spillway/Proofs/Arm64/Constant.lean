import Spillway.Proofs.Arm64.Machine

/-!
# Constants and addresses in registers

* `does_immediate` — the instructions for a constant leave the register with the constant.
* `does_symbol` — the page of a symbol and its place in the page make up its address.
-/

namespace Spillway.Arm64

/-! ### Chunks of a constant -/

/-- The lowest `n` bits of a word. -/
def lowBits (value : Int64) (n : Nat) : Word := (value.toBitVec.setWidth n).setWidth 64

theorem getLsbD_lowBits (value : Int64) (n i : Nat) :
    (lowBits value n).getLsbD i = (decide (i < n) && value.toBitVec.getLsbD i) := by
  rw [lowBits, BitVec.getLsbD_setWidth, BitVec.getLsbD_setWidth]
  by_cases hi : i < 64
  · simp [hi]
  · rw [BitVec.getLsbD_of_ge _ _ (Nat.not_lt.1 hi)]
    simp

theorem lowBits_all (value : Int64) : lowBits value 64 = value.toBitVec := by
  apply BitVec.eq_of_getLsbD_eq
  intro i hi
  rw [getLsbD_lowBits, decide_eq_true hi, Bool.true_and]

theorem testBit_chunk (value : Int64) (shift i : Nat) :
    (chunk value shift).testBit i = (decide (i < 16) && value.toBitVec.getLsbD (shift + i)) := by
  rw [chunk, show 65536 = 2 ^ 16 from rfl, Nat.testBit_mod_two_pow, Nat.testBit_shiftRight,
    BitVec.testBit_toNat]

/-- The first chunk is the lowest bits. -/
theorem ofNat_chunk_zero (value : Int64) : BitVec.ofNat 64 (chunk value 0) = lowBits value 16 := by
  apply BitVec.eq_of_getLsbD_eq
  intro i hi
  rw [getLsbD_lowBits, BitVec.getLsbD_ofNat, testBit_chunk, Nat.zero_add, decide_eq_true hi,
    Bool.true_and]

/-- Putting a chunk behind the bits below it. -/
theorem insert_chunk (value : Int64) {shift : Nat} (hshift : shift ≤ 48) :
    (lowBits value shift &&& ~~~(0xffff#64 <<< shift)) ||| BitVec.ofNat 64 (chunk value shift) <<< shift
      = lowBits value (shift + 16) := by
  apply BitVec.eq_of_getLsbD_eq
  intro i hi
  have hmask : ∀ j, (0xffff#64).getLsbD j = decide (j < 16) := by
    intro j
    rw [BitVec.getLsbD_ofNat, show 0xffff = 2 ^ 16 - 1 from rfl, Nat.testBit_two_pow_sub_one]
    by_cases hj : j < 16
    · have hlt : j < 64 := by omega
      simp [hj, hlt]
    · simp [hj]
  simp only [BitVec.getLsbD_or, BitVec.getLsbD_and, BitVec.getLsbD_not, BitVec.getLsbD_shiftLeft,
    getLsbD_lowBits, hmask, BitVec.getLsbD_ofNat, testBit_chunk, hi]
  by_cases hlow : i < shift
  · have hbelow : i < shift + 16 := by omega
    simp [hlow, hbelow]
  · have hge : shift + (i - shift) = i := by omega
    have hin : i - shift < 16 ↔ i < shift + 16 := by omega
    have hlt : i - shift < 64 := by omega
    simp [hlow, hge, hin, hlt]

/-- A chunk that is zero need not be put in. -/
theorem lowBits_skip (value : Int64) {shift : Nat} (hzero : chunk value shift = 0) :
    lowBits value (shift + 16) = lowBits value shift := by
  apply BitVec.eq_of_getLsbD_eq
  intro i hi
  rw [getLsbD_lowBits, getLsbD_lowBits]
  have hbit := testBit_chunk value shift (i - shift)
  rw [hzero, Nat.zero_testBit] at hbit
  by_cases hlow : i < shift
  · have hbelow : i < shift + 16 := by omega
    simp [hlow, hbelow]
  · have hge : shift + (i - shift) = i := by omega
    have hin : i - shift < 16 ↔ i < shift + 16 := by omega
    simpa [hlow, hge, hin] using hbit

variable {place : Symbol → Word}

/-- The chunks from bit `shift` on are put in one after the other; those that are zero are left out. -/
theorem does_chunk {d : Reg} {value : Int64} {shift : Nat} {shifts : List Nat} {m m' : Machine}
    (hshift : shift ≤ 48)
    (h : Does place (((shifts.filter (chunk value · ≠ 0)).map fun s =>
      Instr.movk d (chunk value s) s).map .instr) (m.set d (lowBits value (shift + 16))) m') :
    Does place ((((shift :: shifts).filter (chunk value · ≠ 0)).map fun s =>
      Instr.movk d (chunk value s) s).map .instr) (m.set d (lowBits value shift)) m' := by
  by_cases hzero : chunk value shift = 0
  · rw [List.filter_cons_of_neg (by simpa using hzero)]
    rwa [lowBits_skip value hzero] at h
  · rw [List.filter_cons_of_pos (by simpa using hzero)]
    refine Does.cons ?_ h
    rw [Instr.effect, Machine.set_set, Machine.set_regs, Function.update_self,
      insert_chunk value hshift]

/-- **Constants.** The instructions for a constant leave the register with the constant. -/
theorem does_immediate (d : Reg) (value : Int64) (m : Machine) :
    Does place ((immediate d value).map .instr) m (m.set d value.toBitVec) := by
  rw [immediate]
  split
  · apply Does.single
    rw [Instr.effect, ← Int64.toInt_toBitVec, BitVec.ofInt_toInt]
  · rw [← lowBits_all]
    have hfirst : (Instr.movz d (chunk value 0)).effect place m
        = (m.set d (lowBits value 16), .next) := by
      rw [Instr.effect, ofNat_chunk_zero]
    refine Does.cons hfirst (does_chunk ?_ (does_chunk ?_ (does_chunk ?_ (Does.nil place _)))) <;> omega

/-! ### Addresses of symbols -/

/-- An address is that of its page and the place in the page. -/
theorem page_add_offset (a : Word) : (a &&& ~~~pageMask) + (a &&& pageMask) = a := by
  have hdisjoint : (a &&& ~~~pageMask) &&& (a &&& pageMask) = 0#64 := by
    apply BitVec.eq_of_getLsbD_eq
    intro i hi
    simp only [BitVec.getLsbD_and, BitVec.getLsbD_not, hi, decide_true, Bool.true_and,
      BitVec.getLsbD_zero]
    cases a.getLsbD i <;> cases pageMask.getLsbD i <;> rfl
  rw [BitVec.add_eq_or_of_and_eq_zero _ _ hdisjoint]
  apply BitVec.eq_of_getLsbD_eq
  intro i hi
  simp only [BitVec.getLsbD_or, BitVec.getLsbD_and, BitVec.getLsbD_not, hi, decide_true, Bool.true_and]
  cases a.getLsbD i <;> cases pageMask.getLsbD i <;> rfl

/-- **Addresses.** The two instructions for the address of a symbol leave the register with it. -/
theorem does_symbol (d : Reg) (s : Symbol) (m : Machine) :
    Does place ([Instr.page d s, Instr.addPageOffset d d s].map .instr) m (m.set d (place s)) := by
  refine Does.cons rfl (Does.single ?_)
  rw [Instr.effect, Machine.set_set, Machine.set_regs, Function.update_self, page_add_offset]

end Spillway.Arm64
