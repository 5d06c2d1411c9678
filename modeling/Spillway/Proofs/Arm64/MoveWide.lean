import Spillway.Proofs.Arm64.Constant

/-!
# The instructions that a constant is made of

The target has three instructions that put sixteen bits into a register at one of four places: the first clears the
other bits, the second does so and then inverts all of them, the third keeps them. A constant is written with `mov`,
`movz` and `movk`, and each of these has to be one such instruction.

* `MoveWide` — the three instructions, and what they do.
* `InRange.moveWide` — a `mov`, `movz` or `movk` whose numbers are in range is one of them.
* `immediate_exact` — the instructions for a constant leave it in the register, change nothing else, and are all
  in range.
-/

namespace Spillway.Arm64

/-! ### Sixteen bits at one of four places -/

/-- What becomes of the bits that are not given. -/
inductive MoveWide.Kind where
  | clear
  | invert
  | keep
  deriving DecidableEq, Repr

/-- An instruction that puts sixteen bits into a register. -/
structure MoveWide where
  kind : MoveWide.Kind
  bits : BitVec 16
  /-- The place of the bits, counted in units of sixteen. -/
  place : Fin 4
  deriving DecidableEq, Repr

namespace MoveWide

/-- The bits where they go. -/
def placed (w : MoveWide) : Word := w.bits.setWidth 64 <<< (16 * w.place.val)

/-- What a register that held `old` holds afterwards. -/
def apply (w : MoveWide) (old : Word) : Word :=
  match w.kind with
  | .clear => w.placed
  | .invert => ~~~w.placed
  | .keep => (old &&& ~~~(0xffff#64 <<< (16 * w.place.val))) ||| w.placed

/-- An instruction is one that puts sixteen bits into register `d`. -/
def Encodes (w : MoveWide) (d : Reg) (i : Instr) : Prop :=
  ∀ (place : Symbol → Word) (m : Machine), i.effect place m = (m.set d (w.apply (m.regs d)), .next)

end MoveWide

/-- The ranges in which a `mov`, `movz` or `movk` to register `d` can be encoded. -/
inductive InRange (d : Reg) : Instr → Prop
  | mov {n : Int} : -65536 ≤ n → n ≤ 65535 → InRange d (.movImm d n)
  | movz {c : Nat} : c ≤ 65535 → InRange d (.movz d c)
  | movk {c shift : Nat} : c ≤ 65535 → shift ∈ [16, 32, 48] → InRange d (.movk d c shift)

/-- A number of sixteen bits as a word. -/
theorem setWidth_ofNat_of_le {c : Nat} (h : c ≤ 65535) : (BitVec.ofNat 16 c).setWidth 64 = BitVec.ofNat 64 c := by
  apply BitVec.eq_of_toNat_eq
  rw [BitVec.toNat_setWidth, BitVec.toNat_ofNat, BitVec.toNat_ofNat, Nat.mod_eq_of_lt (by omega : c < 2 ^ 16)]

variable {d : Reg} {i : Instr}

/-- **Encodings.** What is in range is one instruction of the target. -/
theorem InRange.moveWide (h : InRange d i) : ∃ w : MoveWide, w.Encodes d i := by
  cases h with
  | @mov n hlow hhigh =>
    cases n with
    | ofNat k =>
      have hk : k ≤ 65535 := Int.ofNat_le.1 hhigh
      refine ⟨⟨.clear, BitVec.ofNat 16 k, 0⟩, fun place m => ?_⟩
      rw [Instr.effect, MoveWide.apply, MoveWide.placed, setWidth_ofNat_of_le hk]
      simp
    | negSucc k =>
      have hk : k ≤ 65535 := by omega
      refine ⟨⟨.invert, BitVec.ofNat 16 k, 0⟩, fun place m => ?_⟩
      rw [Instr.effect, MoveWide.apply, MoveWide.placed, setWidth_ofNat_of_le hk]
      simp
  | @movz c hc =>
    refine ⟨⟨.clear, BitVec.ofNat 16 c, 0⟩, fun place m => ?_⟩
    rw [Instr.effect, MoveWide.apply, MoveWide.placed, setWidth_ofNat_of_le hc]
    simp
  | @movk c shift hc hshift =>
    obtain ⟨k, rfl⟩ : ∃ k : Fin 4, shift = 16 * k.val := by
      simp only [List.mem_cons, List.not_mem_nil, or_false] at hshift
      obtain rfl | rfl | rfl := hshift
      · exact ⟨1, rfl⟩
      · exact ⟨2, rfl⟩
      · exact ⟨3, rfl⟩
    refine ⟨⟨.keep, BitVec.ofNat 16 c, k⟩, fun place m => ?_⟩
    rw [Instr.effect, MoveWide.apply, MoveWide.placed, setWidth_ofNat_of_le hc]

/-! ### Constants -/

/-- How far a chunk is moved. -/
def Instr.shift? : Instr → Option Nat
  | .movk _ _ shift => some shift
  | _ => none

theorem inRange_of_mem_immediate {value : Int64} (h : i ∈ immediate d value) : InRange d i := by
  rw [immediate] at h
  split at h
  · rename_i hshort
    rw [isShort, Bool.and_eq_true, decide_eq_true_iff, decide_eq_true_iff] at hshort
    obtain rfl := List.mem_singleton.1 h
    exact .mov hshort.1 hshort.2
  · obtain rfl | h := List.mem_cons.1 h
    · exact .movz (Nat.le_of_lt_succ (chunk_lt value 0))
    · obtain ⟨shift, hshift, rfl⟩ := List.mem_map.1 h
      exact .movk (Nat.le_of_lt_succ (chunk_lt value shift)) (List.mem_filter.1 hshift).1

/-- No chunk but the lowest is put in twice. -/
theorem nodup_shifts_immediate (d : Reg) (value : Int64) : ((immediate d value).filterMap Instr.shift?).Nodup := by
  rw [immediate]
  split
  · exact List.nodup_nil
  · rw [List.filterMap_cons_none rfl, List.filterMap_map]
    have hshifts : (Instr.shift? ∘ fun shift => Instr.movk d (chunk value shift) shift) = some := rfl
    rw [hshifts, List.filterMap_some]
    exact List.Pairwise.filter _ (by decide : [16, 32, 48].Nodup)

/-- **Constants are made exactly.** From any state of the machine the instructions for a constant leave the register
with the constant, and every other register, the flags and the memory as they were. Each of them is one instruction
of the target: its numbers are in range, and no two of them put in chunks at the same place. -/
theorem immediate_exact (d : Reg) (value : Int64) :
    (∀ (place : Symbol → Word) (m : Machine), ∃ m' : Machine,
      run place ((immediate d value).map .instr) none m = (m', .fell) ∧ m'.regs d = value.toBitVec ∧
      (∀ r, r ≠ d → m'.regs r = m.regs r) ∧ m'.flags = m.flags ∧ m'.mem = m.mem) ∧
    (∀ i ∈ immediate d value, InRange d i ∧ ∃ w : MoveWide, w.Encodes d i) ∧
    ((immediate d value).filterMap Instr.shift?).Nodup := by
  refine ⟨fun place m => ?_, fun i hi => ?_, nodup_shifts_immediate d value⟩
  · refine ⟨m.set d value.toBitVec, (does_immediate d value m).run_eq, ?_, fun r hr => ?_, rfl, rfl⟩
    · rw [Machine.set_regs, Function.update_self]
    · rw [Machine.set_regs, Function.update_of_ne hr]
  · have hrange := inRange_of_mem_immediate hi
    exact ⟨hrange, hrange.moveWide⟩

-- the two ranges meet: one more bit takes a second instruction
example : immediate (.x 0) (-65536) = [.movImm (.x 0) (-65536)] ∧
    immediate (.x 0) 65536 = [.movz (.x 0) 0, .movk (.x 0) 1 16] ∧
    immediate (.x 0) (-65537)
      = [.movz (.x 0) 65535, .movk (.x 0) 65534 16, .movk (.x 0) 65535 32, .movk (.x 0) 65535 48] := by
  decide

end Spillway.Arm64
