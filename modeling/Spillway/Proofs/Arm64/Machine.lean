import Mathlib.Logic.Function.Basic
import Spillway.Arm64.Immediate
import Spillway.Proofs.Linear.Machine

/-!
# The machine that runs assembly

What the lines of the target mean: general registers, condition flags and a memory of bytes. Words are
stored with their lowest byte first. Where a symbol lies is a parameter, and so is the rest of the
program: a jump to a symbol that does not follow, and a call, end the run of some lines.

* `Flags.holds_ofCompare` — the conditions say how two signed words compare.
* `Memory.word_setWord` — a word that was stored is read back.
* `Does.trans` — lines that run one after the other.
-/

namespace Spillway.Arm64

open Linear (Cond AluOp)

/-! ### Flags -/

/-- The condition flags. -/
structure Flags where
  negative : Bool
  zero : Bool
  carry : Bool
  overflow : Bool
  deriving DecidableEq, Repr

namespace Flags

/-- The flags of a comparison: those of the difference. -/
def ofCompare (a b : Word) : Flags where
  negative := (a - b).msb
  zero := a - b == 0
  carry := b ≤ a
  overflow := a.ssubOverflow b

/-- Whether the flags meet a condition. -/
def holds (f : Flags) : Cond → Bool
  | .eq => f.zero
  | .ne => !f.zero
  | .ge => f.negative == f.overflow
  | .lt => f.negative != f.overflow
  | .gt => !f.zero && f.negative == f.overflow
  | .le => f.zero || f.negative != f.overflow

/-- A difference is zero exactly if the two words are the same. -/
theorem zero_ofCompare (a b : Word) : (ofCompare a b).zero = decide (a.toInt = b.toInt) := by
  rw [show (ofCompare a b).zero = (a - b == 0#64) from rfl, Bool.eq_iff_iff, beq_iff_eq,
    decide_eq_true_iff, BitVec.toInt_inj]
  bv_omega

/-- The sign of a difference is right unless the difference does not fit. -/
theorem negative_ofCompare (a b : Word) :
    ((ofCompare a b).negative != (ofCompare a b).overflow) = decide (a.toInt < b.toInt) := by
  have ha := a.toInt_lt
  have ha' := a.le_toInt
  have hb := b.toInt_lt
  have hb' := b.le_toInt
  have hdiff : (a - b).toInt = (a.toInt - b.toInt).bmod (2 ^ 64) := BitVec.toInt_sub
  simp only [ofCompare, BitVec.msb_eq_toInt, BitVec.ssubOverflow, hdiff, Int.bmod]
  grind

/-- **Conditions.** After a comparison a condition holds exactly if it holds of the two words. -/
theorem holds_ofCompare (a b : Word) (c : Cond) : (ofCompare a b).holds c = c.holds a.toInt b.toInt := by
  have hzero := zero_ofCompare a b
  have hnegative := negative_ofCompare a b
  have hge : ((ofCompare a b).negative == (ofCompare a b).overflow) = decide (b.toInt ≤ a.toInt) := by
    simpa only [bne, Bool.not_eq_eq_eq_not, ← decide_not, Int.not_lt] using hnegative
  cases c with
  | eq => exact hzero
  | ne => rw [holds, hzero, Cond.holds, decide_not]
  | ge => exact hge
  | lt => exact hnegative
  | gt =>
    rw [holds, hzero, hge, Cond.holds]
    grind
  | le =>
    rw [holds, hzero, hnegative, Cond.holds]
    grind

end Flags

/-! ### Memory -/

/-- A byte for every address. -/
abbrev Memory := Word → BitVec 8

namespace Memory

/-- Whether a byte belongs to the word at an address. -/
def InWord (a b : Word) : Prop := (b - a).toNat < 8

instance (a b : Word) : Decidable (InWord a b) := inferInstanceAs (Decidable (_ < _))

/-- The word at an address. -/
def word (m : Memory) (a : Word) : Word :=
  m (a + 7#64) ++ m (a + 6#64) ++ m (a + 5#64) ++ m (a + 4#64) ++ m (a + 3#64) ++ m (a + 2#64) ++
    m (a + 1#64) ++ m a

/-- Stores a word at an address. -/
def setWord (m : Memory) (a value : Word) : Memory := fun b =>
  if InWord a b then value.extractLsb' (8 * (b - a).toNat) 8 else m b

/-- The bytes of a word determine it. -/
theorem word_congr {m m' : Memory} {a : Word} (h : ∀ b, InWord a b → m' b = m b) :
    m'.word a = m.word a := by
  have hbyte : ∀ i : Nat, i < 8 → m' (a + BitVec.ofNat 64 i) = m (a + BitVec.ofNat 64 i) := by
    intro i hi
    apply h
    rw [InWord]
    bv_omega
  have hfirst : m' a = m a := by simpa using hbyte 0 (by omega)
  rw [word, word, hfirst, hbyte 1 (by omega), hbyte 2 (by omega), hbyte 3 (by omega),
    hbyte 4 (by omega), hbyte 5 (by omega), hbyte 6 (by omega), hbyte 7 (by omega)]

theorem setWord_of_not_inWord {m : Memory} {a b value : Word} (h : ¬ InWord a b) :
    m.setWord a value b = m b := if_neg h

/-- **Stored words.** A word that was stored is read back. -/
theorem word_setWord (m : Memory) (a value : Word) : (m.setWord a value).word a = value := by
  have hbyte : ∀ i : Nat, i < 8 →
      m.setWord a value (a + BitVec.ofNat 64 i) = value.extractLsb' (8 * i) 8 := by
    intro i hi
    have hoffset : (a + BitVec.ofNat 64 i - a).toNat = i := by bv_omega
    have hin : InWord a (a + BitVec.ofNat 64 i) := by rwa [InWord, hoffset]
    rw [setWord, if_pos hin, hoffset]
  have hfirst : m.setWord a value a = value.extractLsb' 0 8 := by simpa using hbyte 0 (by omega)
  rw [word, hfirst, hbyte 1 (by omega), hbyte 2 (by omega), hbyte 3 (by omega), hbyte 4 (by omega),
    hbyte 5 (by omega), hbyte 6 (by omega), hbyte 7 (by omega)]
  rw [BitVec.extractLsb'_append_extractLsb'_eq_extractLsb' (by rfl),
    BitVec.extractLsb'_append_extractLsb'_eq_extractLsb' (by rfl),
    BitVec.extractLsb'_append_extractLsb'_eq_extractLsb' (by rfl),
    BitVec.extractLsb'_append_extractLsb'_eq_extractLsb' (by rfl),
    BitVec.extractLsb'_append_extractLsb'_eq_extractLsb' (by rfl),
    BitVec.extractLsb'_append_extractLsb'_eq_extractLsb' (by rfl),
    BitVec.extractLsb'_append_extractLsb'_eq_extractLsb' (by rfl)]
  exact BitVec.extractLsb'_eq_self

end Memory

/-! ### One instruction -/

/-- The registers, the flags and the memory. -/
structure Machine where
  regs : Reg → Word
  flags : Flags
  mem : Memory

namespace Machine

/-- Writes a register. -/
def set (m : Machine) (d : Reg) (value : Word) : Machine :=
  { m with regs := Function.update m.regs d value }

/-- Stores a word in memory. -/
def setWord (m : Machine) (a value : Word) : Machine := { m with mem := m.mem.setWord a value }

@[simp] theorem set_regs (m : Machine) (d : Reg) (value : Word) :
    (m.set d value).regs = Function.update m.regs d value := rfl

@[simp] theorem set_flags (m : Machine) (d : Reg) (value : Word) :
    (m.set d value).flags = m.flags := rfl

@[simp] theorem set_mem (m : Machine) (d : Reg) (value : Word) : (m.set d value).mem = m.mem := rfl

@[simp] theorem set_set (m : Machine) (d : Reg) (v w : Word) : (m.set d v).set d w = m.set d w := by
  simp [set]

@[simp] theorem setWord_regs (m : Machine) (a value : Word) : (m.setWord a value).regs = m.regs := rfl

@[simp] theorem setWord_flags (m : Machine) (a value : Word) :
    (m.setWord a value).flags = m.flags := rfl

@[simp] theorem setWord_mem (m : Machine) (a value : Word) :
    (m.setWord a value).mem = m.mem.setWord a value := rfl

end Machine

/-- The address of a word in memory. -/
def Mem.address (regs : Reg → Word) : Mem → Word
  | .direct base => regs base
  | .displaced base offset => regs base + BitVec.ofInt 64 offset
  | .indexed base offset => regs base + regs offset

/-- Where control goes after an instruction. -/
inductive Control where
  | next
  | goto (target : Symbol)
  | call (target : Symbol)
  | ret
  deriving DecidableEq, Repr

/-- The bits of an address that say where in its page it is. -/
def pageMask : Word := 0xfff

/-- What one instruction does, where symbols have the given addresses. The link register is left to what
is called. -/
def Instr.effect (place : Symbol → Word) (m : Machine) : Instr → Machine × Control
  | .mov d s => (m.set d (m.regs s), .next)
  | .movImm d value => (m.set d (BitVec.ofInt 64 value), .next)
  | .movz d chunk => (m.set d (BitVec.ofNat 64 chunk), .next)
  | .movk d chunk shift =>
    (m.set d ((m.regs d &&& ~~~(0xffff#64 <<< shift)) ||| BitVec.ofNat 64 chunk <<< shift), .next)
  | .alu op d a b => (m.set d (op.apply (m.regs a) (m.regs b)), .next)
  | .eorImm d a value => (m.set d (m.regs a ^^^ BitVec.ofNat 64 value), .next)
  | .addImm d a value => (m.set d (m.regs a + BitVec.ofNat 64 value), .next)
  | .subImm d a value => (m.set d (m.regs a - BitVec.ofNat 64 value), .next)
  | .cmp a b => ({ m with flags := .ofCompare (m.regs a) (m.regs b) }, .next)
  | .cmpImm a value => ({ m with flags := .ofCompare (m.regs a) (BitVec.ofInt 64 value) }, .next)
  | .branch target => (m, .goto target)
  | .branchOn c target => (m, if m.flags.holds c then .goto target else .next)
  | .call target => (m, .call target)
  | .load d source => (m.set d (m.mem.word (source.address m.regs)), .next)
  | .store s target => (m.setWord (target.address m.regs) (m.regs s), .next)
  | .loadPair d e source =>
    let a := source.address m.regs
    ((m.set d (m.mem.word a)).set e (m.mem.word (a + 8)), .next)
  | .storePair s t target =>
    let a := target.address m.regs
    ((m.setWord a (m.regs s)).setWord (a + 8) (m.regs t), .next)
  | .page d symbol => (m.set d (place symbol &&& ~~~pageMask), .next)
  | .addPageOffset d a symbol => (m.set d (m.regs a + (place symbol &&& pageMask)), .next)
  | .ret => (m, .ret)

/-! ### Lines -/

/-- How a run of some lines ends. -/
inductive Exit where
  | fell
  /-- At a jump to a symbol that does not follow. -/
  | goto (target : Symbol)
  /-- At a call, with the lines that are left. -/
  | call (target : Symbol) (rest : List Line)
  | ret
  deriving DecidableEq, Repr

/-- Runs lines up to the first call. While a jump looks for its label, lines are passed over. -/
def run (place : Symbol → Word) : List Line → Option Symbol → Machine → Machine × Exit
  | [], none, m => (m, .fell)
  | [], some target, m => (m, .goto target)
  | .label s :: lines, some target, m =>
    run place lines (if s.text = target.text then none else some target) m
  | .instr i :: lines, none, m =>
    match i.effect place m with
    | (m', .next) => run place lines none m'
    | (m', .goto target) => run place lines (some target) m'
    | (m', .call target) => (m', .call target lines)
    | (m', .ret) => (m', .ret)
  | _ :: lines, jump, m => run place lines jump m

/-- Lines take one state to another, whatever lines follow. -/
def Does (place : Symbol → Word) (lines : List Line) (m m' : Machine) : Prop :=
  ∀ rest, run place (lines ++ rest) none m = run place rest none m'

section Does

variable {place : Symbol → Word} {lines lines' : List Line} {m m' m'' : Machine} {i : Instr}

theorem Does.nil (place : Symbol → Word) (m : Machine) : Does place [] m m := fun _ => rfl

theorem Does.trans (h : Does place lines m m') (h' : Does place lines' m' m'') :
    Does place (lines ++ lines') m m'' := by
  intro rest
  rw [List.append_assoc, h, h']

/-- Lines after which control goes on. -/
theorem Does.run_eq (h : Does place lines m m') : run place lines none m = (m', .fell) := by
  have hrun := h []
  rwa [List.append_nil] at hrun

/-- An instruction after which control goes on. -/
theorem run_next (h : i.effect place m = (m', .next)) (rest : List Line) :
    run place (.instr i :: rest) none m = run place rest none m' := by
  rw [run, h]

theorem Does.single (h : i.effect place m = (m', .next)) : Does place [.instr i] m m' :=
  run_next h

theorem Does.cons (h : i.effect place m = (m', .next)) (h' : Does place lines m' m'') :
    Does place (.instr i :: lines) m m'' :=
  (Does.single h).trans h'

/-- An instruction that starts a jump. -/
theorem run_goto {target : Symbol} (h : i.effect place m = (m', .goto target)) (rest : List Line) :
    run place (.instr i :: rest) none m = run place rest (some target) m' := by
  rw [run, h]

theorem effect_branchOn_taken {c : Cond} (h : m.flags.holds c = true) (target : Symbol) :
    (Instr.branchOn c target).effect place m = (m, .goto target) := by
  rw [Instr.effect, h, if_pos rfl]

theorem effect_branchOn_untaken {c : Cond} (h : m.flags.holds c = false) (target : Symbol) :
    (Instr.branchOn c target).effect place m = (m, .next) := by
  rw [Instr.effect, h, if_neg Bool.false_ne_true]

/-- Instructions that a jump passes over. -/
theorem run_jump (target : Symbol) (is : List Instr) (rest : List Line) (m : Machine) :
    run place (is.map .instr ++ rest) (some target) m = run place rest (some target) m := by
  induction is with
  | nil => rfl
  | cons i is ih => exact ih

/-- Instructions that are jumped over if a condition holds. -/
theorem does_skip {c : Cond} {skip : Symbol} {is : List Instr}
    (h : if m.flags.holds c then m' = m else Does place (is.map .instr) m m') :
    Does place (.instr (.branchOn c skip) :: (is.map .instr ++ [.label skip])) m m' := by
  intro rest
  rw [List.cons_append, List.append_assoc]
  cases hc : m.flags.holds c with
  | true =>
    rw [hc, if_pos rfl] at h
    rw [run_goto (effect_branchOn_taken hc skip), run_jump, h]
    show run place rest (if skip.text = skip.text then none else some skip) m = _
    rw [if_pos rfl]
  | false =>
    rw [hc, if_neg Bool.false_ne_true] at h
    rw [run_next (effect_branchOn_untaken hc skip), h]
    rfl

end Does

end Spillway.Arm64
