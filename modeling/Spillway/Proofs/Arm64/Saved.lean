import Spillway.Arm64.Selection
import Spillway.Proofs.Arm64.Transfer

/-!
# Saved parameters

Around a call an area below the frame is reserved, and the parameters are saved at its bottom. While they
are there, every virtual register is in memory. Loading an argument then takes its value from a place that
no other argument overwrites, however arguments and parameters overlap.

* `Frame.Parked` — a machine that has every virtual register in memory.
* `Frame.not_inWord_home` — no two of them share a byte there.
* `Context.saveParameters_yields`, `Context.restoreParameters_yields` — the way there and back.
* `Context.loadInto_parked`, `Context.store_parked` — accesses in between.
-/

namespace Spillway.Arm64

/-! ### The stack -/

namespace Machine

/-- Whether a byte is at or above the stack pointer and below the frame pointer. -/
def OnStack (m : Machine) (a : Word) : Prop :=
  (a - m.regs .sp).toNat < (m.regs .fp - m.regs .sp).toNat

/-- Where a virtual register is while the parameters are saved. -/
def home (m : Machine) : Location → Word
  | .slot k => slotAddress (m.regs .fp) k
  | .parameter i => m.regs .sp + BitVec.ofInt 64 i.saved

theorem home_congr {m m' : Machine} (hfp : m'.regs .fp = m.regs .fp) (hsp : m'.regs .sp = m.regs .sp)
    (l : Location) : m'.home l = m.home l := by
  cases l with
  | slot k => rw [home, home, hfp]
  | parameter i => rw [home, home, hsp]

/-- Only registers other than the frame pointer and the stack pointer have changed. -/
structure Steady (m m' : Machine) : Prop where
  fp : m'.regs .fp = m.regs .fp
  sp : m'.regs .sp = m.regs .sp
  mem : m'.mem = m.mem

theorem Steady.refl (m : Machine) : m.Steady m := ⟨rfl, rfl, rfl⟩

theorem Steady.trans {m m' m'' : Machine} (h : m.Steady m') (h' : m'.Steady m'') : m.Steady m'' :=
  ⟨h'.fp.trans h.fp, h'.sp.trans h.sp, h'.mem.trans h.mem⟩

theorem Gets.steady {m m' : Machine} {d : Reg} {value : Word} (h : m.Gets d value m') (hfp : d ≠ .fp)
    (hsp : d ≠ .sp) : m.Steady m' :=
  ⟨h.others _ hfp.symm (by decide), h.others _ hsp.symm (by decide), h.mem⟩

end Machine

namespace Frame

variable {f : Frame} {regs : VReg → Word} {area : Nat} {m m' : Machine} {r r' : VReg} {l l' : Location}

/-- The location is one of the frame's. -/
def Within (f : Frame) : Location → Prop
  | .slot k => k < f.slots.length
  | .parameter i => i.val < f.parameters.length

theorem within_of_location? (h : f.location? r = some l) : f.Within l := by
  cases l with
  | slot k => exact lt_of_slot h
  | parameter i => exact lt_of_parameter? (parameter?_of_location? h)

theorem mem_parameterRegs {i : Argument} : i ∈ f.parameterRegs ↔ f.Within (.parameter i) := by
  rw [parameterRegs, List.mem_take_iff_getElem, Within]
  constructor
  · rintro ⟨n, hn, rfl⟩
    have hplace : Argument.all[n].val = n := by simp [Argument.all]
    rw [hplace]
    exact Nat.lt_of_lt_of_le hn (Nat.min_le_left ..)
  · intro hi
    refine ⟨i.val, ?_, ?_⟩
    · rw [Argument.all, List.length_finRange]
      exact Nat.lt_min.2 ⟨hi, i.isLt⟩
    · simp [Argument.all]

theorem length_parameterRegs (hf : f.Bounded) : f.parameterRegs.length = f.parameters.length := by
  rw [parameterRegs, List.length_take, Argument.all, List.length_finRange]
  exact Nat.min_eq_left hf.parameters

/-- The area has room for the parameters and is not larger than that for all arguments. -/
structure Room (f : Frame) (area : Nat) : Prop where
  parameters : Word.bytes * f.parameters.length ≤ area
  arguments : area ≤ Word.bytes * Limit.maxArguments

theorem room_areaBytes (hf : f.Bounded) {words : Nat} (hwords : words ≤ Limit.maxArguments) :
    f.Room (Word.areaBytes (max words f.parameterRegs.length)) := by
  have hparams := hf.parameters
  rw [length_parameterRegs hf]
  constructor <;> simp only [Word.areaBytes, Word.bytes, Word.alignment, Limit.maxArguments] at * <;>
    omega

/-- The area lies below the frame, and the stack pointer is at its bottom. -/
def Reserves (f : Frame) (area : Nat) (m : Machine) : Prop :=
  m.regs .sp = m.regs .fp - BitVec.ofNat 64 (f.bytes + area)

/-- How far above the stack pointer a location is while an area is reserved. -/
def savedOffset (f : Frame) (area : Nat) : Location → Nat
  | .slot k => f.bytes + area - slotDepth k
  | .parameter i => Word.bytes * i

theorem slotDepth_le {k : Nat} (hk : k < f.slots.length) : slotDepth k ≤ f.bytes := by
  rw [slotDepth, Frame.bytes, Word.areaBytes, Word.bytes, Word.alignment]
  omega

theorem savedOffset_le (hroom : f.Room area) (hl : f.Within l) :
    f.savedOffset area l + Word.bytes ≤ f.bytes + area := by
  cases l with
  | slot k =>
    have hdepth := slotDepth_le hl
    have hword : Word.bytes ≤ slotDepth k := by rw [slotDepth, Word.bytes]; omega
    rw [savedOffset]
    omega
  | parameter i =>
    have hparams := hroom.parameters
    have hi : i.val < f.parameters.length := hl
    rw [Word.bytes] at hparams
    rw [savedOffset, Word.bytes]
    omega

/-- Slots are above the parameters, and otherwise places are one word apart. -/
theorem savedOffset_apart (hroom : f.Room area) (hl : f.Within l) (hl' : f.Within l') (hne : l ≠ l') :
    f.savedOffset area l + Word.bytes ≤ f.savedOffset area l' ∨
      f.savedOffset area l' + Word.bytes ≤ f.savedOffset area l := by
  have hparams := hroom.parameters
  cases l with
  | slot k =>
    have hdepth := slotDepth_le hl
    cases l' with
    | slot k' =>
      have hdepth' := slotDepth_le hl'
      have hk : k ≠ k' := fun e => hne (congrArg Location.slot e)
      simp only [savedOffset, slotDepth, Word.bytes] at *
      omega
    | parameter j =>
      have hj : j.val < f.parameters.length := hl'
      simp only [savedOffset, slotDepth, Word.bytes] at *
      omega
  | parameter i =>
    have hi : i.val < f.parameters.length := hl
    cases l' with
    | slot k' =>
      have hdepth' := slotDepth_le hl'
      simp only [savedOffset, slotDepth, Word.bytes] at *
      omega
    | parameter j =>
      have hij : i.val ≠ j.val := fun e => hne (congrArg Location.parameter (Fin.ext e))
      simp only [savedOffset, Word.bytes]
      omega

/-- A location is as far above the stack pointer as its offset. -/
theorem home_eq (hm : f.Reserves area m) (hl : f.Within l) :
    m.home l = m.regs .sp + BitVec.ofNat 64 (f.savedOffset area l) := by
  cases l with
  | slot k =>
    have hdepth := slotDepth_le hl
    have hsplit : f.bytes + area = slotDepth k + (f.bytes + area - slotDepth k) := by omega
    rw [Machine.home, slotAddress_eq_sub, savedOffset, hm]
    generalize f.bytes + area - slotDepth k = rest at hsplit
    rw [hsplit, BitVec.ofNat_add]
    bv_omega
  | parameter i =>
    rw [Machine.home, savedOffset, Argument.saved, Word.bytes]
    rfl

/-- The bytes of a location, counted from the stack pointer. -/
theorem inWord_home_iff (hf : f.Bounded) (hroom : f.Room area) (hm : f.Reserves area m)
    (hl : f.Within l) {a : Word} :
    Memory.InWord (m.home l) a ↔ f.savedOffset area l ≤ (a - m.regs .sp).toNat ∧
      (a - m.regs .sp).toNat < f.savedOffset area l + Word.bytes := by
  have hle := savedOffset_le hroom hl
  have hbytes := hf.bytes
  have harea := hroom.arguments
  rw [Limit.maxFrameBytes] at hbytes
  rw [Word.bytes, Limit.maxArguments] at harea
  rw [home_eq hm hl, Memory.InWord, Word.bytes]
  rw [Word.bytes] at hle
  generalize f.savedOffset area l = offset at hle ⊢
  bv_omega

/-- The stack is the frame and the area below it. -/
theorem onStack_iff (hf : f.Bounded) (harea : area ≤ Word.bytes * Limit.maxArguments)
    (hm : f.Reserves area m) {a : Word} :
    m.OnStack a ↔ (a - m.regs .sp).toNat < f.bytes + area := by
  have hbytes := hf.bytes
  rw [Limit.maxFrameBytes] at hbytes
  rw [Word.bytes, Limit.maxArguments] at harea
  have hsize : (m.regs .fp - m.regs .sp).toNat = f.bytes + area := by
    rw [hm]
    bv_omega
  rw [Machine.OnStack, hsize]

/-- What is in memory while the parameters are saved is on the stack. -/
theorem onStack_of_inWord_home (hf : f.Bounded) (hroom : f.Room area) (hm : f.Reserves area m)
    (hl : f.Within l) {a : Word} (ha : Memory.InWord (m.home l) a) : m.OnStack a := by
  have hle := savedOffset_le hroom hl
  rw [inWord_home_iff hf hroom hm hl] at ha
  rw [onStack_iff hf hroom.arguments hm]
  omega

/-- **Places in memory.** No two locations share a byte while the parameters are saved. -/
theorem not_inWord_home (hf : f.Bounded) (hroom : f.Room area) (hm : f.Reserves area m)
    (hl : f.Within l) (hl' : f.Within l') (hne : l ≠ l') {a : Word}
    (ha : Memory.InWord (m.home l) a) : ¬ Memory.InWord (m.home l') a := by
  have hapart := savedOffset_apart hroom hl hl' hne
  rw [inWord_home_iff hf hroom hm hl] at ha
  rw [inWord_home_iff hf hroom hm hl']
  omega

/-- Every virtual register that has a home is in memory, above an area of this size. -/
structure Parked (f : Frame) (regs : VReg → Word) (area : Nat) (m : Machine) : Prop where
  reserves : f.Reserves area m
  word : ∀ ⦃r l⦄, f.location? r = some l → m.mem.word (m.home l) = regs r

theorem Parked.steady (h : f.Parked regs area m) (hsteady : m.Steady m') : f.Parked regs area m' where
  reserves := by rw [Reserves, hsteady.sp, hsteady.fp, h.reserves]
  word r l hr := by rw [hsteady.mem, Machine.home_congr hsteady.fp hsteady.sp, h.word hr]

/-- Storing a value where a virtual register is gives the register the value. -/
theorem Parked.stores (hf : f.Bounded) (hroom : f.Room area) (h : f.Parked regs area m)
    (hr : f.location? r = some l) {value : Word} (hstores : m.Stores (m.home l) value m') :
    f.Parked (Function.update regs r value) area m' := by
  have hfp : m'.regs .fp = m.regs .fp := hstores.regs _ (by decide)
  have hsp : m'.regs .sp = m.regs .sp := hstores.regs _ (by decide)
  refine ⟨by rw [Reserves, hsp, hfp, h.reserves], fun r' l' hr' => ?_⟩
  rw [Machine.home_congr hfp hsp, hstores.mem]
  by_cases hne : r' = r
  · subst hne
    rw [hr] at hr'
    cases hr'
    rw [Memory.word_setWord, Function.update_self]
  · have hll : l' ≠ l := by
      rintro rfl
      exact hne (location?_injective hr' hr)
    rw [Memory.word_setWord_of_disjoint value fun b => not_inWord_home hf hroom h.reserves
      (within_of_location? hr') (within_of_location? hr) hll, h.word hr', Function.update_of_ne hne]

end Frame

/-! ### Saving and restoring -/

variable {place : Symbol → Word}

/-- The places of two arguments share no byte. -/
theorem not_inWord_saved {m : Machine} {i j : Argument} (hne : i ≠ j) {a : Word}
    (ha : Memory.InWord (m.home (.parameter i)) a) : ¬ Memory.InWord (m.home (.parameter j)) a := by
  have hi : i.val < 8 := i.isLt
  have hj : j.val < 8 := j.isLt
  have hij : i.val ≠ j.val := fun e => hne (Fin.ext e)
  have hhome : ∀ k : Argument, m.home (.parameter k) = m.regs .sp + BitVec.ofNat 64 (8 * k.val) :=
    fun _ => rfl
  rw [hhome, Memory.InWord] at *
  bv_omega

/-- The argument registers are stored one after the other. -/
theorem does_save (is : List Argument) (m : Machine) :
    ∃ m', Does place ((is.map fun i => Instr.store i.reg (.displaced .sp i.saved)).map .instr) m m' ∧
      m'.regs = m.regs ∧ (∀ i ∈ is, m'.mem.word (m.home (.parameter i)) = m.regs i.reg) ∧
      ∀ a, (∀ i ∈ is, ¬ Memory.InWord (m.home (.parameter i)) a) → m'.mem a = m.mem a := by
  induction is generalizing m with
  | nil => exact ⟨m, Does.nil place m, rfl, nofun, fun _ _ => rfl⟩
  | cons i is ih =>
    have hstore : (Instr.store i.reg (.displaced .sp i.saved)).effect place m
        = (m.setWord (m.home (.parameter i)) (m.regs i.reg), .next) := by
      rw [Instr.effect, Mem.address, Machine.home]
    obtain ⟨m', hrun, hregs, hword, hmem⟩ := ih (m.setWord (m.home (.parameter i)) (m.regs i.reg))
    rw [Machine.setWord_regs] at hregs
    have hhome : ∀ l, (m.setWord (m.home (.parameter i)) (m.regs i.reg)).home l = m.home l :=
      Machine.home_congr (by rw [Machine.setWord_regs]) (by rw [Machine.setWord_regs])
    simp only [hhome, Machine.setWord_regs, Machine.setWord_mem] at hword hmem
    refine ⟨m', Does.cons hstore hrun, hregs, fun j hj => ?_, fun a ha => ?_⟩
    · by_cases hin : j ∈ is
      · exact hword j hin
      · -- No later store reaches the word that was stored first.
        obtain rfl := (List.mem_cons.1 hj).resolve_right hin
        have hne : ∀ k ∈ is, j ≠ k := by
          rintro k hk rfl
          exact hin hk
        rw [Memory.word_congr fun b hb => hmem b fun k hk => not_inWord_saved (hne k hk) hb,
          Memory.word_setWord]
    · rw [hmem a fun k hk => ha k (List.mem_cons_of_mem _ hk),
        Memory.setWord_of_not_inWord (ha i (List.mem_cons_self ..))]

/-- The argument registers are loaded one after the other. -/
theorem does_restore (is : List Argument) (m : Machine) :
    ∃ m', Does place ((is.map fun i => Instr.load i.reg (.displaced .sp i.saved)).map .instr) m m' ∧
      m'.mem = m.mem ∧ (∀ i ∈ is, m'.regs i.reg = m.mem.word (m.home (.parameter i))) ∧
      ∀ r, (∀ i ∈ is, i.reg ≠ r) → m'.regs r = m.regs r := by
  induction is generalizing m with
  | nil => exact ⟨m, Does.nil place m, rfl, nofun, fun _ _ => rfl⟩
  | cons i is ih =>
    have hload : (Instr.load i.reg (.displaced .sp i.saved)).effect place m
        = (m.set i.reg (m.mem.word (m.home (.parameter i))), .next) := by
      rw [Instr.effect, Mem.address, Machine.home]
    have hgets := Machine.Gets.set m i.reg (m.mem.word (m.home (.parameter i)))
    have hsteady := hgets.steady (Argument.reg_ne_fp i) (Argument.reg_ne_sp i)
    obtain ⟨m', hrun, hmem, hword, hothers⟩ := ih (m.set i.reg (m.mem.word (m.home (.parameter i))))
    simp only [Machine.home_congr hsteady.fp hsteady.sp, Machine.set_mem] at hword hmem
    refine ⟨m', Does.cons hload hrun, hmem, fun j hj => ?_, fun r hr => ?_⟩
    · by_cases hin : j ∈ is
      · exact hword j hin
      · obtain rfl := (List.mem_cons.1 hj).resolve_right hin
        rw [hothers j.reg fun k hk e => hin (Argument.reg_injective e ▸ hk), hgets.value]
    · rw [hothers r fun k hk => hr k (List.mem_cons_of_mem _ hk), Machine.set_regs,
        Function.update_of_ne (hr i (List.mem_cons_self ..)).symm]

namespace Frame

variable {f : Frame} {area : Nat}

/-- Lines reserve an area and put the parameters there. They change nothing else in memory. -/
def Parks (f : Frame) (place : Symbol → Word) (area : Nat) (w : List Line) : Prop :=
  ∀ ⦃regs m⦄, f.Holds regs m → f.Reserves 0 m → ∃ m', Does place w m m' ∧ f.Parked regs area m' ∧
    m'.regs .fp = m.regs .fp ∧ ∀ a, (m'.OnStack a → m.OnStack a) → m'.mem a = m.mem a

/-- Lines get the parameters back from an area and give the area back. -/
def Unparks (f : Frame) (place : Symbol → Word) (area : Nat) (w : List Line) : Prop :=
  ∀ ⦃regs m⦄, f.Parked regs area m → ∃ m', Does place w m m' ∧ f.Holds regs m' ∧ f.Reserves 0 m' ∧
    m'.regs .fp = m.regs .fp ∧ m'.mem = m.mem

theorem location?_ne_parameter (hparams : f.parameters.length = 0) (r : VReg) (i : Argument) :
    f.location? r ≠ some (.parameter i) := by
  intro hr
  have hi : i.val < f.parameters.length := within_of_location? hr
  omega

/-- A frame without parameters needs no area. -/
theorem parks_nil (hparams : f.parameters.length = 0) : f.Parks place 0 [] := by
  intro regs m hm hsp
  refine ⟨m, Does.nil place m, ⟨hsp, fun r l hr => ?_⟩, rfl, fun _ _ => rfl⟩
  cases l with
  | slot k => exact hm.slot hr
  | parameter i => exact absurd hr (location?_ne_parameter hparams r i)

theorem unparks_nil (hparams : f.parameters.length = 0) : f.Unparks place 0 [] := by
  intro regs m hm
  refine ⟨m, Does.nil place m, ⟨fun hr => ?_, fun {r i} hr => ?_⟩, hm.reserves, rfl, rfl⟩
  · rw [← hm.word hr, Machine.home]
  · exact absurd hr (location?_ne_parameter hparams r i)

/-- The place of a parameter was below the stack pointer before the area was reserved. -/
theorem not_onStack_of_saved (hf : f.Bounded) (hroom : f.Room area) {m m₀ : Machine} {i : Argument}
    {a : Word} (hm : f.Reserves 0 m) (hm₀ : f.Reserves area m₀)
    (hsp : m.regs .sp = m₀.regs .sp + BitVec.ofNat 64 area) (hi : f.Within (.parameter i))
    (ha : Memory.InWord (m₀.home (.parameter i)) a) : ¬ m.OnStack a := by
  have hbytes := hf.bytes
  have hparams := hroom.parameters
  have harea := hroom.arguments
  have hlt : i.val < f.parameters.length := hi
  rw [inWord_home_iff hf hroom hm₀ hi, savedOffset] at ha
  rw [onStack_iff hf (Nat.zero_le _) hm, hsp]
  simp only [Word.bytes, Limit.maxArguments, Limit.maxFrameBytes] at *
  generalize m₀.regs .sp = sp at ha ⊢
  bv_omega

/-- **Saving the parameters.** -/
theorem parks_save (hf : f.Bounded) (hroom : f.Room area) :
    f.Parks place area (.instr (.subImm .sp .sp area) ::
      (f.parameterRegs.map fun i => Instr.store i.reg (.displaced .sp i.saved)).map .instr) := by
  intro regs m hm hsp
  obtain ⟨m₀, hm₀⟩ : ∃ m₀, m₀ = m.set .sp (m.regs .sp - BitVec.ofNat 64 area) := ⟨_, rfl⟩
  have hfp₀ : m₀.regs .fp = m.regs .fp := by
    rw [hm₀, Machine.set_regs, Function.update_of_ne (by decide)]
  have hsp₀ : m₀.regs .sp = m.regs .sp - BitVec.ofNat 64 area := by
    rw [hm₀, Machine.set_regs, Function.update_self]
  have hreserves : f.Reserves area m₀ := by
    rw [Reserves, hfp₀, hsp₀, hsp, BitVec.ofNat_add, BitVec.ofNat_add]
    bv_omega
  have hmem₀ : m₀.mem = m.mem := by rw [hm₀, Machine.set_mem]
  obtain ⟨m', hrun, hregs, hword, hmem⟩ := does_save f.parameterRegs m₀
  have hhome : ∀ l, m'.home l = m₀.home l :=
    Machine.home_congr (by rw [hregs]) (by rw [hregs])
  refine ⟨m', Does.cons (by rw [Instr.effect, hm₀]) hrun, ⟨?_, fun r l hr => ?_⟩, ?_, fun a ha => ?_⟩
  · rw [Reserves, hregs, hreserves]
  · rw [hhome]
    cases l with
    | slot k =>
      rw [Memory.word_congr fun b hb => hmem b fun i hi => not_inWord_home hf hroom hreserves
        (within_of_location? hr) (mem_parameterRegs.1 hi) (by simp) hb, hmem₀, Machine.home, hfp₀, hm.slot hr]
    | parameter i =>
      rw [hword i (mem_parameterRegs.2 (within_of_location? hr)), hm₀, Machine.set_regs,
        Function.update_of_ne (Argument.reg_ne_sp i), hm.parameter hr]
  · rw [hregs, hfp₀]
  · rw [hmem a fun i hi hin => ?_, hmem₀]
    have hstack := onStack_of_inWord_home hf hroom hreserves (mem_parameterRegs.1 hi) hin
    refine not_onStack_of_saved hf hroom hsp hreserves ?_ (mem_parameterRegs.1 hi) hin (ha ?_)
    · rw [hsp₀, BitVec.sub_add_cancel]
    · rwa [Machine.OnStack, hregs]

/-- **Restoring the parameters.** -/
theorem unparks_restore (f : Frame) (area : Nat) :
    f.Unparks place area ((f.parameterRegs.map fun i =>
      Instr.load i.reg (.displaced .sp i.saved)).map .instr ++ [.instr (.addImm .sp .sp area)]) := by
  intro regs m hm
  obtain ⟨m₁, hrun, hmem, hword, hothers⟩ := does_restore f.parameterRegs m
  have hfp : m₁.regs .fp = m.regs .fp := hothers _ fun i _ => Argument.reg_ne_fp i
  have hsp : m₁.regs .sp = m.regs .sp := hothers _ fun i _ => Argument.reg_ne_sp i
  obtain ⟨m', hm'⟩ : ∃ m', m' = m₁.set .sp (m₁.regs .sp + BitVec.ofNat 64 area) := ⟨_, rfl⟩
  have hfp' : m'.regs .fp = m.regs .fp := by
    rw [hm', Machine.set_regs, Function.update_of_ne (by decide), hfp]
  have hmem' : m'.mem = m.mem := by rw [hm', Machine.set_mem, hmem]
  refine ⟨m', hrun.trans (Does.single (by rw [Instr.effect, hm'])), ⟨fun hr => ?_, fun {r i} hr => ?_⟩,
    ?_, hfp', hmem'⟩
  · rw [hmem', hfp', ← hm.word hr, Machine.home]
  · rw [hm', Machine.set_regs, Function.update_of_ne (Argument.reg_ne_sp i),
      hword i (mem_parameterRegs.2 (within_of_location? hr)), hm.word hr]
  · rw [Reserves, hfp', hm', Machine.set_regs, Function.update_self, hsp, hm.reserves,
      BitVec.ofNat_add, BitVec.ofNat_add]
    bv_omega

/-- Without an area there are no parameters. -/
theorem Room.parameters_eq_zero (h : f.Room 0) : f.parameters.length = 0 := by
  have hparams := h.parameters
  rw [Word.bytes] at hparams
  omega

end Frame

/-! ### Code around a call -/

namespace Context

variable {ctx : Context} {g : Generator} {area : Nat} {r : VReg} {l : Location}

/-- The generator is between saving and restoring: it counts the parameters as saved if there are any. -/
def Saved (ctx : Context) (g : Generator) : Prop := g.saved = !ctx.frame.parameterRegs.isEmpty

theorem saved_of_length_eq_zero (hparams : ctx.frame.parameters.length = 0) (hg : g.saved = false) :
    ctx.Saved g := by
  rw [Saved, hg, Frame.parameterRegs, hparams]
  rfl

theorem Saved.eq_false (h : ctx.Saved g) (hparams : ctx.frame.parameters.length = 0) :
    g.saved = false := by
  rw [h, Frame.parameterRegs, hparams]
  rfl

theorem Saved.eq_true {i : Argument} (h : ctx.Saved g)
    (hr : ctx.frame.location? r = some (.parameter i)) : g.saved = true := by
  have hi := Frame.mem_parameterRegs.2 (Frame.within_of_location? hr)
  rw [h, List.isEmpty_eq_false_iff.2 (List.ne_nil_of_mem hi)]
  rfl

theorem saveParameters_yields (place : Symbol → Word) (hf : ctx.frame.Bounded) (hg : g.saved = false)
    {words : Nat} (hwords : words ≤ Limit.maxArguments) :
    (ctx.saveParameters words).Yields g fun area g' w =>
      area = Word.areaBytes (max words ctx.frame.parameterRegs.length) ∧ ctx.Saved g' ∧
        ctx.frame.Parks place area w := by
  have hroom := Frame.room_areaBytes hf hwords
  rw [saveParameters]
  by_cases hzero : Word.areaBytes (max words ctx.frame.parameterRegs.length) = 0
  · rw [if_pos hzero, hzero]
    have hparams := (hzero ▸ hroom).parameters_eq_zero
    exact ⟨0, g, [], rfl, rfl, saved_of_length_eq_zero hparams hg, Frame.parks_nil hparams⟩
  · rw [if_neg hzero]
    refine (emit_yields _ g).bind fun _ g₁ w₁ ⟨_, hw₁⟩ => ?_
    refine (emitAll_yields _ g₁).bind fun _ g₂ w₂ ⟨_, hw₂⟩ => ?_
    refine ⟨_, { g₂ with saved := !ctx.frame.parameterRegs.isEmpty }, [], rfl, rfl, rfl, ?_⟩
    rw [hw₁, hw₂, List.append_nil, List.singleton_append]
    exact Frame.parks_save hf hroom

theorem restoreParameters_yields (place : Symbol → Word) (hg : ctx.Saved g)
    (hroom : ctx.frame.Room area) :
    (ctx.restoreParameters area).Yields g fun _ g' w =>
      g'.saved = false ∧ ctx.frame.Unparks place area w := by
  rw [restoreParameters]
  by_cases hzero : area = 0
  · subst hzero
    have hparams := hroom.parameters_eq_zero
    exact ⟨(), g, [], rfl, hg.eq_false hparams, Frame.unparks_nil hparams⟩
  · rw [if_pos hzero]
    refine (emitAll_yields _ g).bind fun _ g₁ w₁ ⟨_, hw₁⟩ => ?_
    refine ⟨(), { g₁ with saved := false }, [.instr (.addImm .sp .sp area)], rfl, rfl, ?_⟩
    rw [hw₁]
    exact Frame.unparks_restore ctx.frame area

/-- **Loading into a given register,** while the parameters are saved. -/
theorem loadInto_parked (place : Symbol → Word) (area : Nat) (hr : ctx.frame.location? r = some l)
    (hg : ctx.Saved g) (d : Reg) :
    (ctx.loadInto r d).Yields g fun _ g' w => g' = g ∧ ∀ ⦃regs m⦄, ctx.frame.Parked regs area m →
      ∃ m', Does place w m m' ∧ m.Gets d (regs r) m' := by
  rw [loadInto, locate_bind hr]
  cases l with
  | parameter i =>
    refine ⟨(), g, [.instr (.load d (.displaced .sp i.saved))], ?_, rfl, fun regs m hm => ?_⟩
    · rw [Journal.bind_run, Journal.get_run, Journal.andThen_ok, hg.eq_true hr]
      rfl
    · rw [← hm.word hr]
      exact ⟨_, Does.single rfl, .set m d _⟩
  | slot k =>
    refine (emitAll_yields _ g).mono fun _ g' w h => ⟨h.1, fun regs m hm => ?_⟩
    rw [h.2, ← hm.word hr]
    exact does_slotLoad d k m

/-- **Storing a virtual register,** while the parameters are saved. -/
theorem store_parked (place : Symbol → Word) (hr : ctx.frame.location? r = some l) (hg : ctx.Saved g)
    {s : Reg} (hs : s ≠ .far) :
    (ctx.store r s).Yields g fun _ g' w => g' = g ∧ ∀ m, ∃ m', Does place w m m' ∧
      m.Stores (m.home l) (m.regs s) m' := by
  rw [store, locate_bind hr]
  cases l with
  | slot k =>
    refine (emitAll_yields _ g).mono fun _ g' w h => ⟨h.1, fun m => ?_⟩
    rw [h.2]
    exact does_slotStore hs k m
  | parameter i =>
    refine ⟨(), g, [.instr (.store s (.displaced .sp i.saved))], ?_, rfl, fun m => ?_⟩
    · rw [Journal.bind_run, Journal.get_run, Journal.andThen_ok, hg.eq_true hr]
      rfl
    · have hstore : (Instr.store s (.displaced .sp i.saved)).effect place m
          = (m.setWord (m.home (.parameter i)) (m.regs s), .next) := by
        rw [Instr.effect, Mem.address, Machine.home]
      exact ⟨_, Does.single hstore, Machine.setWord_mem .., fun _ _ => rfl, Machine.setWord_flags ..⟩

/-- **The address of a virtual register,** while the parameters are saved. -/
theorem homeAddress_yields (place : Symbol → Word) (hr : ctx.frame.location? r = some l) (d : Reg) :
    (ctx.homeAddress r d).Yields g fun _ g' w => g' = g ∧ ∀ m, ∃ m', Does place w m m' ∧
      m.Gets d (m.home l) m' := by
  rw [homeAddress, locate_bind hr]
  cases l with
  | slot k =>
    refine ⟨(), g, _, rfl, rfl, fun m => ⟨_, Does.single rfl, ?_⟩⟩
    rw [Machine.home, slotAddress_eq_sub]
    exact .set m d _
  | parameter i => exact ⟨(), g, _, rfl, rfl, fun m => ⟨_, Does.single rfl, .set m d _⟩⟩

theorem formatAddress_yields (place : Symbol → Word) (f : Format) (d : Reg) :
    (formatAddress f d).Yields g fun _ g' w => g'.saved = g.saved ∧ ∀ m, ∃ m', Does place w m m' ∧
      m.Gets d (place (.format f)) m' :=
  ⟨(), _, _, rfl, rfl, fun m => ⟨_, does_symbol d (.format f) m, .set m d _⟩⟩

end Context

end Spillway.Arm64
