import Spillway.Proofs.Arm64.Home
import Spillway.Proofs.Journal

/-!
# Getting values to where they are needed

While an instruction's code is written, the pool hands out one register after the other, from the first
that is no parameter's. What is fetched into one of them stays there: later code of the instruction
works in higher registers. A value that was computed is put where its virtual register lives.

* `Context.load_yields`, `Context.loadOperand_yields`, `Context.memory_yields` — values and addresses.
* `Context.store_yields`, `Context.put_yields` — putting a value where it lives.
-/

namespace Spillway.Arm64

/-! ### Scratch registers -/

/-- The registers below `n` are in use, and the reserved ones. -/
def Pool.Filled (p : Pool) (n : Nat) : Prop := ∀ k : PoolReg, p.isBusy k = (k.isReserved || k.val < n)

/-- The pool hands out the first register that is not in use. -/
theorem Pool.Filled.acquire? {p : Pool} {n : Nat} (h : p.Filled n) (hn : n < 16) :
    ∃ i q, p.acquire? = some (i, q) ∧ i.reg = .x n ∧ q.Filled (n + 1) := by
  have hlt : n < Pool.size := by rw [Pool.size]; omega
  have hfind : (PoolReg.all.find? fun i => !p.isBusy i) = some ⟨n, hlt⟩ := by
    rw [List.find?_eq_some_iff_getElem]
    refine ⟨?_, n, ?_, ?_, ?_⟩
    · have hfree : PoolReg.isReserved ⟨n, hlt⟩ = false := by simp [PoolReg.isReserved]; omega
      simp [h ⟨n, hlt⟩, hfree]
    · simpa [PoolReg.all] using hlt
    · simp [PoolReg.all]
    · intro j hj
      simp [PoolReg.all, h _, hj]
  refine ⟨⟨n, hlt⟩, p.occupy ⟨n, hlt⟩, by rw [Pool.acquire?, hfind]; rfl, rfl, fun k => ?_⟩
  rw [Pool.isBusy_occupy, h k]
  by_cases hk : k = ⟨n, hlt⟩
  · simp [hk]
  · have hval : k.val ≠ n := fun e => hk (Fin.ext e)
    have hiff : k.val < n + 1 ↔ k.val < n := by omega
    simp [hk, hiff]

/-- The parameters are in their registers, and the registers below `n` are in use. -/
structure Generator.Ready (g : Generator) (n : Nat) : Prop where
  saved : g.saved = false
  pool : g.pool.Filled n

theorem acquire_yields {g : Generator} {n : Nat} (hg : g.Ready n) (hn : n < 16) :
    acquire.Yields g fun d g' w => d = .x n ∧ g'.Ready (n + 1) ∧ w = [] := by
  obtain ⟨i, q, hacquire, hreg, hfilled⟩ := hg.pool.acquire? hn
  refine ⟨i.reg, { g with pool := q, scratch := g.scratch ++ [i] }, [], ?_, hreg, ⟨hg.saved, hfilled⟩,
    rfl⟩
  rw [acquire, Journal.bind_run, Journal.get_run, Journal.andThen_ok, hacquire]
  rfl

theorem emitAll_yields (is : List Instr) (g : Generator) :
    (emitAll is).Yields g fun _ g' w => g' = g ∧ w = is.map .instr :=
  ⟨(), g, _, rfl, rfl, rfl⟩

theorem emit_yields (i : Instr) (g : Generator) :
    (emit i).Yields g fun _ g' w => g' = g ∧ w = [.instr i] :=
  ⟨(), g, _, rfl, rfl, rfl⟩

/-- One of the registers below `n`. -/
def Reg.Low (n : Nat) (r : Reg) : Prop := ∃ k < n, r = .x k

theorem Reg.Low.mono {n n' : Nat} {r : Reg} (h : r.Low n) (hn : n ≤ n') : r.Low n' := by
  obtain ⟨k, hk, rfl⟩ := h
  exact ⟨k, by omega, rfl⟩

theorem Reg.Low.ne_far {n : Nat} {r : Reg} (h : r.Low n) (hn : n ≤ 16) : r ≠ .far := by
  obtain ⟨k, hk, rfl⟩ := h
  simp only [Reg.far, ne_eq, Reg.x.injEq]
  omega

/-- Only registers from `n` on have changed. -/
structure Machine.Keeps (n : Nat) (m m' : Machine) : Prop where
  low : ∀ {r : Reg}, r.Low n → m'.regs r = m.regs r
  fp : m'.regs .fp = m.regs .fp
  sp : m'.regs .sp = m.regs .sp
  mem : m'.mem = m.mem
  flags : m'.flags = m.flags

namespace Machine.Keeps

variable {n n' : Nat} {m m' m'' : Machine}

theorem refl (n : Nat) (m : Machine) : m.Keeps n m := ⟨fun _ => rfl, rfl, rfl, rfl, rfl⟩

theorem trans (h : m.Keeps n m') (h' : m'.Keeps n' m'') (hn : n ≤ n') : m.Keeps n m'' where
  low hr := (h'.low (hr.mono hn)).trans (h.low hr)
  fp := h'.fp.trans h.fp
  sp := h'.sp.trans h.sp
  mem := h'.mem.trans h.mem
  flags := h'.flags.trans h.flags

theorem mono (h : m.Keeps n' m') (hn : n ≤ n') : m.Keeps n m' :=
  (refl n m).trans h hn

/-- Giving register `n` a value. -/
theorem of_gets {value : Word} (h : m.Gets (.x n) value m') (hn : n < 16) : m.Keeps n m' where
  low := by
    rintro r ⟨k, hk, rfl⟩
    refine h.others _ ?_ ?_ <;> simp only [Reg.far, ne_eq, Reg.x.injEq] <;> omega
  fp := h.others _ (by simp only [Reg.fp, ne_eq, Reg.x.injEq]; omega) (by decide)
  sp := h.others _ (by simp) (by decide)
  mem := h.mem
  flags := h.flags

end Machine.Keeps

namespace Frame

variable {f : Frame} {regs : VReg → Word} {n n' n'' : Nat} {m m' : Machine} {r : VReg}
  {place : Symbol → Word} {w w' : List Line}

/-- The registers of parameters come before the scratch registers. -/
theorem low_of_parameter {i : Argument} (hr : f.location? r = some (.parameter i))
    (hn : f.parameters.length ≤ n) : i.reg.Low n := by
  have hi := lt_of_parameter? (parameter?_of_location? hr)
  exact ⟨i.val, by omega, rfl⟩

/-- What is in its home stays there while only scratch registers change. -/
theorem Holds.keep (h : f.Holds regs m) (hkeeps : m.Keeps n m') (hn : f.parameters.length ≤ n) :
    f.Holds regs m' := by
  constructor
  · intro r k hr
    rw [hkeeps.mem, hkeeps.fp, h.slot hr]
  · intro r i hr
    rw [hkeeps.low (low_of_parameter hr hn), h.parameter hr]

/-! ### Values -/

/-- Lines fetch a value with the scratch registers from `n` to `n'`. Where it is found does not change as
long as only registers from `n'` on do. -/
structure Fetches (f : Frame) (place : Symbol → Word) (n n' : Nat) (w : List Line)
    (found : (Reg → Word) → Word) (value : (VReg → Word) → Word) : Prop where
  le : n ≤ n'
  plain : ∃ is : List Instr, w = is.map .instr
  stable : ∀ {m m' : Machine}, m.Keeps n' m' → found m'.regs = found m.regs
  does : ∀ {regs m}, f.Holds regs m →
    ∃ m', Does place w m m' ∧ m.Keeps n m' ∧ found m'.regs = value regs

/-- Two values that are fetched one after the other are both there. -/
theorem Fetches.and {found found' : (Reg → Word) → Word} {value value' : (VReg → Word) → Word}
    (h : f.Fetches place n n' w found value) (h' : f.Fetches place n' n'' w' found' value')
    (hn : f.parameters.length ≤ n) (hm : f.Holds regs m) :
    ∃ m', Does place (w ++ w') m m' ∧ m.Keeps n m' ∧
      found m'.regs = value regs ∧ found' m'.regs = value' regs := by
  obtain ⟨m₁, hrun₁, hkeeps₁, hfound₁⟩ := h.does hm
  obtain ⟨m₂, hrun₂, hkeeps₂, hfound₂⟩ := h'.does (hm.keep hkeeps₁ hn)
  refine ⟨m₂, hrun₁.trans hrun₂, hkeeps₁.trans hkeeps₂ h.le, ?_, hfound₂⟩
  rw [h.stable hkeeps₂, hfound₁]

/-- A value that is computed from a value that is fetched. -/
theorem Fetches.map {found : (Reg → Word) → Word} {value : (VReg → Word) → Word}
    (h : f.Fetches place n n' w found value) (g : Word → Word) :
    f.Fetches place n n' w (fun ρ => g (found ρ)) fun regs => g (value regs) where
  le := h.le
  plain := h.plain
  stable hkeeps := congrArg g (h.stable hkeeps)
  does hm := by
    obtain ⟨m', hrun, hkeeps, hfound⟩ := h.does hm
    exact ⟨m', hrun, hkeeps, congrArg g hfound⟩

/-- The sum of two values that are fetched one after the other. -/
theorem Fetches.add {found found' : (Reg → Word) → Word} {value value' : (VReg → Word) → Word}
    (h : f.Fetches place n n' w found value) (h' : f.Fetches place n' n'' w' found' value')
    (hn : f.parameters.length ≤ n) :
    f.Fetches place n n'' (w ++ w') (fun ρ => found ρ + found' ρ)
      fun regs => value regs + value' regs where
  le := Nat.le_trans h.le h'.le
  plain := by
    obtain ⟨is, rfl⟩ := h.plain
    obtain ⟨is', rfl⟩ := h'.plain
    exact ⟨is ++ is', by rw [List.map_append]⟩
  stable hkeeps := by
    rw [h'.stable hkeeps, h.stable (hkeeps.mono h'.le)]
  does hm := by
    obtain ⟨m', hrun, hkeeps, hfound, hfound'⟩ := h.and h' hn hm
    exact ⟨m', hrun, hkeeps, by rw [hfound, hfound']⟩

/-- A value in a register that is not scratch. -/
theorem fetches_parameter {i : Argument} (hr : f.location? r = some (.parameter i))
    (hn : f.parameters.length ≤ n) : f.Fetches place n n [] (· i.reg) (· r) where
  le := Nat.le_refl n
  plain := ⟨[], rfl⟩
  stable hkeeps := hkeeps.low (low_of_parameter hr hn)
  does {_ m} hm := ⟨m, Does.nil place m, .refl n m, hm.parameter hr⟩

/-- A value that is put into the next scratch register. -/
theorem fetches_scratch {is : List Instr} {value : (VReg → Word) → Word} (hn : n < 16)
    (h : ∀ {regs m}, f.Holds regs m →
      ∃ m', Does place (is.map .instr) m m' ∧ m.Gets (.x n) (value regs) m') :
    f.Fetches place n (n + 1) (is.map .instr) (· (.x n)) value where
  le := Nat.le_succ n
  plain := ⟨is, rfl⟩
  stable hkeeps := hkeeps.low ⟨n, Nat.lt_succ_self n, rfl⟩
  does hm := by
    obtain ⟨m', hrun, hgets⟩ := h hm
    exact ⟨m', hrun, .of_gets hgets hn, hgets.value⟩

end Frame

/-! ### Loading -/

/-- The address of a word that linear code names. -/
def cellAddress (place : Symbol → Word) : Cell → Word
  | .global name => place (.name name)
  | .field base index => base + BitVec.ofNat 64 (Word.bytes * index)
  | .address a => a

namespace Context

variable {ctx : Context} {place : Symbol → Word} {g : Generator} {n : Nat} {r : VReg} {l : Location}

theorem locate_bind {α : Type} (hr : ctx.frame.location? r = some l) (k : Location → Emit α) :
    ((liftM (ctx.frame.locate r) : Emit Location) >>= k) = k l := by
  rw [Frame.locate, hr]
  rfl

/-- **Loading a virtual register.** -/
theorem load_yields (place : Symbol → Word) (hr : ctx.frame.location? r = some l) (hg : g.Ready n)
    (hparams : ctx.frame.parameters.length ≤ n) (hn : n < 16) :
    (ctx.load r).Yields g fun d g' w => ∃ n' ≤ n + 1, d.Low n' ∧ g'.Ready n' ∧
      ctx.frame.Fetches place n n' w (· d) (· r) := by
  rw [load, locate_bind hr]
  cases l with
  | parameter i =>
    exact ⟨i.reg, g, [], rfl, n, Nat.le_succ n, Frame.low_of_parameter hr hparams, hg,
      Frame.fetches_parameter hr hparams⟩
  | slot k =>
    refine (acquire_yields hg hn).bind fun d g' w h => ?_
    obtain ⟨rfl, hg', rfl⟩ := h
    refine (emitAll_yields _ g').bind fun _ g₁ w₁ ⟨hg₁, hw₁⟩ => ?_
    refine ⟨.x n, g₁, [], rfl, n + 1, Nat.le_refl _, ⟨n, Nat.lt_succ_self n, rfl⟩, hg₁ ▸ hg', ?_⟩
    rw [List.nil_append, List.append_nil, hw₁]
    refine Frame.fetches_scratch hn fun {regs m} hm => ?_
    rw [← hm.slot hr]
    exact does_slotLoad ..

/-- **Loading an operand.** -/
theorem loadOperand_yields (place : Symbol → Word) {operand : Linear.Operand}
    (hr : ∀ r ∈ operand.registers, ∃ l, ctx.frame.location? r = some l) (hg : g.Ready n)
    (hparams : ctx.frame.parameters.length ≤ n) (hn : n < 16) :
    (ctx.loadOperand operand).Yields g fun d g' w => ∃ n' ≤ n + 1, d.Low n' ∧ g'.Ready n' ∧
      ctx.frame.Fetches place n n' w (· d) operand.value := by
  cases operand with
  | reg r =>
    obtain ⟨l, hl⟩ := hr r (List.mem_singleton_self r)
    exact load_yields place hl hg hparams hn
  | imm value =>
    refine (acquire_yields hg hn).bind fun d g' w h => ?_
    obtain ⟨rfl, hg', rfl⟩ := h
    refine (emitAll_yields _ g').bind fun _ g₁ w₁ ⟨hg₁, hw₁⟩ => ?_
    refine ⟨.x n, g₁, [], rfl, n + 1, Nat.le_refl _, ⟨n, Nat.lt_succ_self n, rfl⟩, hg₁ ▸ hg', ?_⟩
    rw [List.nil_append, List.append_nil, hw₁]
    exact Frame.fetches_scratch hn fun {regs m} hm =>
      ⟨_, does_immediate (.x n) value m, Machine.Gets.set m (.x n) _⟩

/-- **Forming an address.** -/
theorem memory_yields (place : Symbol → Word) {address : Linear.Address}
    (hr : ∀ r ∈ address.registers, ∃ l, ctx.frame.location? r = some l) (hg : g.Ready n)
    (hparams : ctx.frame.parameters.length ≤ n) (hn : n + 1 < 16) :
    (ctx.memory address).Yields g fun mem g' w => ∃ n' ≤ n + 2, g'.Ready n' ∧
      ctx.frame.Fetches place n n' w mem.address
        fun regs => cellAddress place (address.cell regs) := by
  cases address with
  | indexed base offset =>
    obtain ⟨l, hl⟩ := hr base (by simp [Linear.Address.registers])
    obtain ⟨l', hl'⟩ := hr offset (by simp [Linear.Address.registers])
    refine (load_yields place hl hg hparams (by omega)).bind fun b g₁ w₁ h₁ => ?_
    obtain ⟨n₁, hn₁, -, hg₁, hfetch₁⟩ := h₁
    have hle₁ := hfetch₁.le
    refine (load_yields place hl' hg₁ (by omega) (by omega)).bind fun o g₂ w₂ h₂ => ?_
    obtain ⟨n₂, hn₂, -, hg₂, hfetch₂⟩ := h₂
    refine ⟨.indexed b o, g₂, [], rfl, n₂, by omega, hg₂, ?_⟩
    rw [List.append_nil]
    exact hfetch₁.add hfetch₂ hparams
  | displaced base offset =>
    obtain ⟨l, hl⟩ := hr base (by simp [Linear.Address.registers])
    refine (load_yields place hl hg hparams (by omega)).bind fun b g₁ w₁ h₁ => ?_
    obtain ⟨n₁, hn₁, -, hg₁, hfetch₁⟩ := h₁
    refine ⟨.displaced b offset.toInt, g₁, [], rfl, n₁, by omega, hg₁, ?_⟩
    have hoffset : BitVec.ofInt 64 offset.toInt = offset.toBitVec := by
      rw [← Int64.toInt_toBitVec, BitVec.ofInt_toInt]
    rw [List.append_nil]
    show ctx.frame.Fetches place n n₁ w₁ (fun ρ => ρ b + BitVec.ofInt 64 offset.toInt)
      fun regs => regs base + offset.toBitVec
    rw [hoffset]
    exact hfetch₁.map (· + offset.toBitVec)
  | direct base =>
    obtain ⟨l, hl⟩ := hr base (by simp [Linear.Address.registers])
    refine (load_yields place hl hg hparams (by omega)).bind fun b g₁ w₁ h₁ => ?_
    obtain ⟨n₁, hn₁, -, hg₁, hfetch₁⟩ := h₁
    refine ⟨.direct b, g₁, [], rfl, n₁, by omega, hg₁, ?_⟩
    rw [List.append_nil]
    exact hfetch₁
  | global name =>
    refine (acquire_yields hg (by omega)).bind fun d g' w h => ?_
    obtain ⟨rfl, hg', rfl⟩ := h
    refine ⟨.direct (.x n), g', _, rfl, n + 1, by omega, hg', ?_⟩
    rw [List.nil_append]
    exact Frame.fetches_scratch (by omega) fun {regs m} hm =>
      ⟨_, does_symbol (.x n) (.name name) m, Machine.Gets.set m (.x n) _⟩

/-- **Loading into a given register,** while the parameters are in their registers. -/
theorem loadInto_yields (place : Symbol → Word) (hr : ctx.frame.location? r = some l)
    (hsaved : g.saved = false) (d : Reg) :
    (ctx.loadInto r d).Yields g fun _ g' w => g' = g ∧ ∀ {regs m}, ctx.frame.Holds regs m →
      ∃ m', Does place w m m' ∧ m.Gets d (regs r) m' := by
  rw [loadInto, locate_bind hr]
  cases l with
  | parameter i =>
    by_cases hreg : i.reg = d
    · refine ⟨(), g, [], ?_, rfl, fun {regs m} hm => ⟨m, Does.nil place m, ?_⟩⟩
      · rw [Journal.bind_run, Journal.get_run, Journal.andThen_ok, hsaved]
        simp [hreg]
      · rw [← hm.parameter hr, hreg]
        exact .refl m d
    · refine ⟨(), g, [.instr (.mov d i.reg)], ?_, rfl, fun {regs m} hm => ?_⟩
      · rw [Journal.bind_run, Journal.get_run, Journal.andThen_ok, hsaved]
        simp [hreg, emit]
      · rw [← hm.parameter hr]
        exact ⟨_, Does.single rfl, .set m d _⟩
  | slot k =>
    refine (emitAll_yields _ g).mono fun _ g' w ⟨hg', hw⟩ => ⟨hg', fun {regs m} hm => ?_⟩
    rw [hw, ← hm.slot hr]
    exact does_slotLoad d k m

end Context

/-- A displacement in bytes that fits is found. -/
theorem displacement_eq_ok {index : Nat} (h : (Word.bytes * index : Int) ≤ Int64.maxValue.toInt) :
    ∃ offset : Int64, offset.toInt = Word.bytes * index ∧ Word.displacement index = .ok offset := by
  have hmax : Int64.maxValue.toInt = 2 ^ 63 - 1 := by decide
  have hmin : Int64.minValue.toInt = -2 ^ 63 := by decide
  rw [hmax, Word.bytes] at h
  have hindex : (Int64.ofNat index).toInt = index := Int64.toInt_ofNat_of_lt (by omega)
  have hfits : Word.Fits ((Int64.ofNat index).toInt * Word.bytes) := by
    rw [Word.Fits, hindex, hmax, hmin, Word.bytes]
    omega
  refine ⟨Int64.ofInt ((Int64.ofNat index).toInt * Word.bytes), ?_, ?_⟩
  · rw [hindex, Word.bytes, Int64.toInt_ofInt_of_le (by omega) (by omega)]
    omega
  · rw [Word.displacement, if_pos hfits]

theorem displacement_eq_pure {index : Nat}
    (h : (Word.bytes * index : Int) ≤ Int64.maxValue.toInt) :
    ∃ offset : Int64, offset.toInt = Word.bytes * index ∧ displacement index = pure offset := by
  obtain ⟨offset, hoffset, hok⟩ := displacement_eq_ok h
  refine ⟨offset, hoffset, ?_⟩
  rw [displacement, hok]
  rfl

/-! ### Storing -/

theorem Argument.reg_ne_fp : ∀ i : Argument, i.reg ≠ .fp := by decide

theorem Argument.reg_ne_sp : ∀ i : Argument, i.reg ≠ .sp := by decide

theorem Argument.reg_injective {i j : Argument} (h : i.reg = j.reg) : i = j :=
  Fin.ext (Reg.x.inj h)

namespace Frame

variable {f : Frame} {regs : VReg → Word} {n : Nat} {m m' m'' : Machine} {r : VReg}

/-- The memory has changed at most in the slot of a virtual register. The frame, the stack pointer and
the flags are as before. -/
structure Alters (f : Frame) (r : VReg) (m m' : Machine) : Prop where
  fp : m'.regs .fp = m.regs .fp
  sp : m'.regs .sp = m.regs .sp
  flags : m'.flags = m.flags
  mem : ∀ a, (∀ k, f.location? r = some (.slot k) → ¬ Memory.InWord (slotAddress (m.regs .fp) k) a) →
    m'.mem a = m.mem a

theorem alters_of_keeps (r : VReg) (h : m.Keeps n m') : f.Alters r m m' :=
  ⟨h.fp, h.sp, h.flags, fun _ _ => by rw [h.mem]⟩

theorem Alters.of_keeps (h : m.Keeps n m') (h' : f.Alters r m' m'') : f.Alters r m m'' where
  fp := h'.fp.trans h.fp
  sp := h'.sp.trans h.sp
  flags := h'.flags.trans h.flags
  mem a ha := by rw [h'.mem a fun k hk => h.fp ▸ ha k hk, h.mem]

theorem alters_set_parameter (r : VReg) (i : Argument) (value : Word) (m : Machine) :
    f.Alters r m (m.set i.reg value) where
  fp := by rw [Machine.set_regs, Function.update_of_ne (Argument.reg_ne_fp i).symm]
  sp := by rw [Machine.set_regs, Function.update_of_ne (Argument.reg_ne_sp i).symm]
  flags := rfl
  mem _ _ := rfl

/-- Giving a parameter a value. -/
theorem Holds.set_parameter (h : f.Holds regs m) {i : Argument}
    (hr : f.location? r = some (.parameter i)) (value : Word) :
    f.Holds (Function.update regs r value) (m.set i.reg value) := by
  constructor
  · intro r' k hr'
    have hne : r' ≠ r := by
      rintro rfl
      rw [hr] at hr'
      cases hr'
    rw [Machine.set_mem, Machine.set_regs, Function.update_of_ne (Argument.reg_ne_fp i).symm, h.slot hr',
      Function.update_of_ne hne]
  · intro r' j hr'
    by_cases hne : r' = r
    · subst hne
      rw [hr] at hr'
      cases hr'
      rw [Machine.set_regs, Function.update_self, Function.update_self]
    · have hreg : j.reg ≠ i.reg := by
        intro heq
        obtain rfl := Argument.reg_injective heq
        exact hne (location?_injective hr' hr)
      rw [Machine.set_regs, Function.update_of_ne hreg, h.parameter hr', Function.update_of_ne hne]

/-- Where the value of a virtual register is computed: in the register of a parameter, or in the next
scratch register. -/
def Target (f : Frame) (r : VReg) (n : Nat) (d : Reg) : Prop :=
  (∃ i, f.location? r = some (.parameter i) ∧ d = i.reg) ∨
    ∃ k, f.location? r = some (.slot k) ∧ d = .x n

end Frame

namespace Context

variable {ctx : Context} {g : Generator} {n : Nat} {r : VReg} {l : Location}

theorem destination_yields (hr : ctx.frame.location? r = some l) (hg : g.Ready n)
    (hparams : ctx.frame.parameters.length ≤ n) (hn : n < 16) :
    (ctx.destination r).Yields g fun d g' w => ∃ n' ≤ n + 1, n ≤ n' ∧ d.Low n' ∧ g'.Ready n' ∧
      ctx.frame.Target r n d ∧ w = [] := by
  rw [destination, hr]
  cases l with
  | parameter i =>
    refine ⟨i.reg, g, [], ?_, n, Nat.le_succ n, Nat.le_refl n, Frame.low_of_parameter hr hparams, hg,
      .inl ⟨i, hr, rfl⟩, rfl⟩
    show ((get : Emit Generator) >>= fun g => if g.saved then acquire else pure i.reg).run g = _
    rw [Journal.bind_run, Journal.get_run, Journal.andThen_ok, hg.saved]
    rfl
  | slot k =>
    refine (acquire_yields hg hn).mono fun d g' w h => ?_
    obtain ⟨rfl, hg', rfl⟩ := h
    exact ⟨n + 1, Nat.le_refl _, Nat.le_succ n, ⟨n, Nat.lt_succ_self n, rfl⟩, hg', .inr ⟨k, hr, rfl⟩, rfl⟩

/-- **Storing a virtual register.** -/
theorem store_yields (place : Symbol → Word) (hf : ctx.frame.Bounded) {s : Reg}
    (hr : ctx.frame.location? r = some l) (hsaved : g.saved = false) (hs : s ≠ .far) :
    (ctx.store r s).Yields g fun _ g' w => g' = g ∧ (∃ is : List Instr, w = is.map .instr) ∧
      ∀ {regs m}, ctx.frame.Holds regs m → ∃ m', Does place w m m' ∧
        ctx.frame.Holds (Function.update regs r (m.regs s)) m' ∧ ctx.frame.Alters r m m' := by
  rw [store, locate_bind hr]
  cases l with
  | slot k =>
    refine (emitAll_yields _ g).mono fun _ g' w ⟨hg', hw⟩ => ⟨hg', ⟨_, hw⟩, fun {regs m} hm => ?_⟩
    obtain ⟨m', hrun, hstores⟩ := does_slotStore hs k m
    refine ⟨m', hw ▸ hrun, hm.stores hf hr hstores, hstores.regs _ (by decide),
      hstores.regs _ (by decide), hstores.flags, fun a ha => ?_⟩
    rw [hstores.mem, Memory.setWord_of_not_inWord (ha k hr)]
  | parameter i =>
    by_cases hreg : i.reg = s
    · refine ⟨(), g, [], ?_, rfl, ⟨[], rfl⟩, fun {regs m} hm => ⟨m, Does.nil place m, ?_, ?_⟩⟩
      · rw [Journal.bind_run, Journal.get_run, Journal.andThen_ok, hsaved]
        simp [hreg]
      · rw [← hreg, hm.parameter hr, Function.update_eq_self]
        exact hm
      · exact Frame.alters_of_keeps r (.refl 0 m)
    · refine ⟨(), g, [.instr (.mov i.reg s)], ?_, rfl, ⟨[_], rfl⟩, fun {regs m} hm => ?_⟩
      · rw [Journal.bind_run, Journal.get_run, Journal.andThen_ok, hsaved]
        simp [hreg, emit]
      · exact ⟨m.set i.reg (m.regs s), Does.single rfl, hm.set_parameter hr _,
          Frame.alters_set_parameter r i _ m⟩

/-- **Putting a value.** Where a value was computed into the register meant for it, storing it gives the
virtual register the value. -/
theorem put_yields (place : Symbol → Word) (hf : ctx.frame.Bounded) {d : Reg}
    (hd : ctx.frame.Target r n d) (hparams : ctx.frame.parameters.length ≤ n) (hn : n < 16)
    (hsaved : g.saved = false) :
    (ctx.store r d).Yields g fun _ g' w => g' = g ∧
      ∀ {regs : VReg → Word} {m : Machine} (v : Word), ctx.frame.Holds regs m →
        ∃ m', Does place w (m.set d v) m' ∧ ctx.frame.Holds (Function.update regs r v) m' ∧
          ctx.frame.Alters r m m' := by
  rcases hd with ⟨i, hr, rfl⟩ | ⟨k, hr, rfl⟩
  · refine ⟨(), g, [], ?_, rfl, fun {regs m} v hm =>
      ⟨_, Does.nil place _, hm.set_parameter hr v, Frame.alters_set_parameter r i v m⟩⟩
    rw [store, locate_bind hr, Journal.bind_run, Journal.get_run, Journal.andThen_ok, hsaved]
    simp
  · have hfar : (.x n : Reg) ≠ .far := Reg.Low.ne_far ⟨n, Nat.lt_succ_self n, rfl⟩ hn
    refine (store_yields place hf hr hsaved hfar).mono fun _ g' w ⟨hg', _, hdoes⟩ => ⟨hg', ?_⟩
    intro regs m v hm
    have hkeeps : m.Keeps n (m.set (.x n) v) := .of_gets (.set m (.x n) v) hn
    obtain ⟨m', hrun, hholds, halters⟩ := hdoes (hm.keep hkeeps hparams)
    rw [Machine.set_regs, Function.update_self] at hholds
    exact ⟨m', hrun, hholds, halters.of_keeps hkeeps⟩

end Context

end Spillway.Arm64
