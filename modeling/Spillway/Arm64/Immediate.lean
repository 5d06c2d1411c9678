import Spillway.Arm64.Line

/-!
# Constants in registers

A constant of sixteen bits and a sign takes one instruction. Any other is put together from its four
16-bit chunks: the lowest clears the rest, and chunks that are zero need nothing more.
-/

namespace Spillway.Arm64

/-- The 16 bits of a word from bit `shift` on. -/
def chunk (value : Int64) (shift : Nat) : Nat := (value.toBitVec.toNat >>> shift) % 65536

theorem chunk_lt (value : Int64) (shift : Nat) : chunk value shift < 65536 :=
  Nat.mod_lt _ (by decide)

/-- Whether a constant takes one instruction. -/
def isShort (value : Int64) : Bool := -65536 ≤ value.toInt && value.toInt ≤ 65535

/-- The instructions that put a constant into a register. -/
def immediate (d : Reg) (value : Int64) : List Instr :=
  if isShort value then [.movImm d value.toInt]
  else
    .movz d (chunk value 0) ::
      ([16, 32, 48].filter (chunk value · ≠ 0)).map fun shift => .movk d (chunk value shift) shift

end Spillway.Arm64
