import Spillway.Arm64.Selection
import Spillway.Proofs.Arm64.Transfer

/-!
# Data and branch instructions run as they mean

The machine matches a state of linear code when every virtual register is in its home, the flags are
those of the last comparison, and the memory outside the slots is the memory of the linear code, which
cannot get at the slots. The code of an instruction that calls nothing takes a matching machine to a
matching machine and goes where the instruction goes.

* `Frame.Matches` — when a machine matches a state.
* `Context.Simulates` — the code of an instruction does what the instruction does.
* `Context.instr_simulates` — data and branch instructions.
-/

namespace Spillway.Arm64

/-! ### Matching states -/

namespace Memory

/-- The bytes of a word. -/
theorem inWord_iff {a b : Word} : InWord a b ↔ ∃ i : Fin 8, b = a + BitVec.ofNat 64 i := by
  constructor
  · intro h
    refine ⟨⟨(b - a).toNat, h⟩, ?_⟩
    show b = a + BitVec.ofNat 64 (b - a).toNat
    rw [BitVec.ofNat_toNat, BitVec.setWidth_eq, BitVec.add_comm, BitVec.sub_add_cancel]
  · rintro ⟨i, rfl⟩
    have hi := i.isLt
    rw [InWord]
    bv_omega

end Memory

namespace Frame

variable {f : Frame} {place : Symbol → Word} {s : Linear.State Memory} {m m' : Machine} {n : Nat}
  {r : VReg} {v : Word}

/-- A word shares no byte with the slots. -/
def Clear (f : Frame) (fp a : Word) : Prop := ∀ i : Fin 8, ¬ f.Covers fp (a + BitVec.ofNat 64 i)

instance (f : Frame) (fp a : Word) : Decidable (f.Clear fp a) :=
  inferInstanceAs (Decidable (∀ i : Fin 8, ¬ f.Covers fp (a + BitVec.ofNat 64 i)))

theorem Clear.not_covers {fp a b : Word} (h : f.Clear fp a) (hb : Memory.InWord a b) :
    ¬ f.Covers fp b := by
  obtain ⟨i, rfl⟩ := Memory.inWord_iff.1 hb
  exact h i

/-- The memory of linear code: what the machine has outside the slots. -/
def runtime (f : Frame) (place : Symbol → Word) (fp : Word) : Runtime Memory where
  load mem c :=
    if f.Clear fp (cellAddress place c) then some (mem.word (cellAddress place c)) else none
  store mem c value :=
    if f.Clear fp (cellAddress place c) then some (mem.setWord (cellAddress place c) value) else none
  alloc _ _ := none
  free _ _ := none
  read _ := none

/-- The machine is in a state of linear code. -/
structure Matches (f : Frame) (s : Linear.State Memory) (m : Machine) : Prop where
  homes : f.Holds s.regs m
  flags : ∀ {a b}, s.flags = some (a, b) → m.flags = .ofCompare a b
  memory : ∀ {a}, ¬ f.Covers (m.regs .fp) a → m.mem a = s.outside.world a

/-- Giving a virtual register a value. -/
theorem Matches.put (h : f.Matches s m) (hholds : f.Holds (Function.update s.regs r v) m')
    (halters : f.Alters r m m') : f.Matches (s.set r v) m' where
  homes := hholds
  flags hs := by rw [halters.flags, h.flags hs]
  memory {a} ha := by
    rw [halters.fp] at ha
    rw [halters.mem a fun k hk hin => ha ⟨k, lt_of_slot hk, hin⟩, h.memory ha]
    rfl

theorem Matches.keep (h : f.Matches s m) (hkeeps : m.Keeps n m') (hn : f.parameters.length ≤ n) :
    f.Matches s m' where
  homes := h.homes.keep hkeeps hn
  flags hs := by rw [hkeeps.flags, h.flags hs]
  memory ha := by rw [hkeeps.mem, h.memory (hkeeps.fp ▸ ha)]

/-- What linear code loads is what the machine loads. -/
theorem Matches.load (h : f.Matches s m) {c : Cell}
    (hload : s.outside.load (f.runtime place (m.regs .fp)) c = some v) :
    m.mem.word (cellAddress place c) = v := by
  simp only [Outside.load, runtime] at hload
  split at hload
  case isTrue hclear =>
    cases hload
    exact Memory.word_congr fun b hb => h.memory (hclear.not_covers hb)
  case isFalse => cases hload

/-- What linear code stores is what the machine stores. -/
theorem Matches.store (h : f.Matches s m) {c : Cell} {o : Outside Memory}
    (hstore : s.outside.store (f.runtime place (m.regs .fp)) c v = some o) :
    f.Matches { s with outside := o } (m.setWord (cellAddress place c) v) ∧
      ∀ a, o.world a = s.outside.world a →
        (m.setWord (cellAddress place c) v).mem a = m.mem a := by
  obtain ⟨world, hworld, rfl⟩ := Option.map_eq_some_iff.1 hstore
  simp only [runtime] at hworld
  split at hworld
  case isFalse => cases hworld
  case isTrue hclear =>
    cases hworld
    have hbyte : ∀ {a}, ¬ f.Covers (m.regs .fp) a →
        (m.setWord (cellAddress place c) v).mem a
          = s.outside.world.setWord (cellAddress place c) v a := by
      intro a ha
      rw [Machine.setWord_mem, Memory.setWord, Memory.setWord, h.memory ha]
    refine ⟨⟨⟨?_, h.homes.parameter⟩, h.flags, hbyte⟩, fun a ha => ?_⟩
    · intro r k hr
      rw [← h.homes.slot hr]
      refine Memory.word_setWord_of_disjoint v fun b hb hin => hclear.not_covers hin ?_
      exact ⟨k, lt_of_slot hr, hb⟩
    · by_cases hin : Memory.InWord (cellAddress place c) a
      · rw [hbyte (hclear.not_covers hin), h.memory (hclear.not_covers hin)]
        exact ha
      · exact Memory.setWord_of_not_inWord hin

end Frame

/-! ### Simulation -/

namespace Context

variable {ctx : Context} {place : Symbol → Word} {g : Generator} {n : Nat}

/-- The machine has come to where a step of linear code has come. After a return, it is at the end of
the function with the value that is returned, if there is one. -/
def Arrived (ctx : Context) (s : Linear.State Memory) : Linear.Control → Machine → Exit → Prop
  | .next, m, e => e = .fell ∧ ctx.frame.Matches s m
  | .jump l, m, e => e = .goto (.block l) ∧ ctx.frame.Matches s m
  | .leave value, m, e => e = .goto (.exit ctx.name) ∧ ∀ v, value = some v → m.regs .result = v
  | .call _, _, _ => False

/-- From every machine that matches, lines do what an instruction does. The frame pointer and the stack
pointer stay, and so does every byte outside the target's slot that the instruction does not change. -/
def Simulates (ctx : Context) (place : Symbol → Word) (i : Linear.Instr) (w : List Line) : Prop :=
  ∀ ⦃s s' : Linear.State Memory⦄ ⦃m : Machine⦄ ⦃control : Linear.Control⦄, ctx.frame.Matches s m →
    i.effect (ctx.frame.runtime place (m.regs .fp)) s = some (s', control) →
    ∃ m' e, run place w none m = (m', e) ∧ ctx.Arrived s' control m' e ∧
      m'.regs .fp = m.regs .fp ∧ m'.regs .sp = m.regs .sp ∧
      ∀ a, (∀ r k, i.target? = some r → ctx.frame.location? r = some (.slot k) →
          ¬ Memory.InWord (slotAddress (m.regs .fp) k) a) →
        s'.outside.world a = s.outside.world a → m'.mem a = m.mem a

/-- An instruction that gives its target a value. -/
theorem simulates_of_put {i : Linear.Instr} {r : VReg} {w : List Line} (hr : i.target? = some r)
    (h : ∀ ⦃s s' : Linear.State Memory⦄ ⦃m : Machine⦄ ⦃control : Linear.Control⦄,
      ctx.frame.Matches s m →
      i.effect (ctx.frame.runtime place (m.regs .fp)) s = some (s', control) →
      control = .next ∧ ∃ v m', s' = s.set r v ∧ Does place w m m' ∧
        ctx.frame.Holds (Function.update s.regs r v) m' ∧ ctx.frame.Alters r m m') :
    ctx.Simulates place i w := by
  intro s s' m control hm heffect
  obtain ⟨rfl, v, m', rfl, hrun, hholds, halters⟩ := h hm heffect
  refine ⟨m', .fell, Does.run_eq hrun, ⟨rfl, hm.put hholds halters⟩, halters.fp, halters.sp, ?_⟩
  exact fun a ha _ => halters.mem a fun k hk => ha r k hr hk

/-- Lines compute the value of an instruction's target into a register, in a machine that matches. -/
def Computes (ctx : Context) (place : Symbol → Word) (i : Linear.Instr) (r : VReg) (d : Reg)
    (w : List Line) : Prop :=
  ∀ ⦃s s' : Linear.State Memory⦄ ⦃m : Machine⦄ ⦃control : Linear.Control⦄, ctx.frame.Matches s m →
    i.effect (ctx.frame.runtime place (m.regs .fp)) s = some (s', control) →
    control = .next ∧ ∃ v m₁, s' = s.set r v ∧ Does place w m (m₁.set d v) ∧
      m.Keeps ctx.frame.parameters.length m₁

/-- An instruction whose value was computed is done when the value is stored. -/
theorem finish_yields {i : Linear.Instr} {r : VReg} {d : Reg} {w₀ : List Line}
    (hf : ctx.frame.Bounded) (hr : i.target? = some r) (hd : ctx.frame.Target r n d)
    (hparams : ctx.frame.parameters.length ≤ n) (hn : n < 16) (hsaved : g.saved = false)
    (h : ctx.Computes place i r d w₀) :
    (ctx.store r d).Yields g fun _ _ w => ctx.Simulates place i (w₀ ++ w) := by
  refine (put_yields place hf hd hparams hn hsaved).mono fun _ _ w ⟨_, hput⟩ => ?_
  refine simulates_of_put hr fun s s' m control hm heffect => ?_
  obtain ⟨rfl, v, m₁, rfl, hrun, hkeeps⟩ := h hm heffect
  obtain ⟨m', hrun', hholds, halters⟩ := hput v (hm.homes.keep hkeeps (Nat.le_refl _))
  exact ⟨rfl, v, m', rfl, hrun.trans hrun', hholds, halters.of_keeps hkeeps⟩

/-- One instruction computes the value, and then the value is stored. -/
theorem compute_yields {i : Linear.Instr} {r : VReg} {l : Location} {op : Reg → Instr} {w₀ : List Line}
    (hf : ctx.frame.Bounded) (hr : i.target? = some r) (hl : ctx.frame.location? r = some l)
    (hg : g.Ready n) (hparams : ctx.frame.parameters.length ≤ n) (hn : n < 16)
    (h : ∀ d, ctx.Computes place i r d (w₀ ++ [.instr (op d)])) :
    (do
      let d ← ctx.destination r
      emit (op d)
      ctx.store r d : Emit Unit).Yields g fun _ _ w => ctx.Simulates place i (w₀ ++ w) := by
  refine (destination_yields hl hg hparams hn).bind fun d g₁ w₁ h₁ => ?_
  obtain ⟨n₁, -, -, -, hg₁, hd, rfl⟩ := h₁
  refine (emit_yields (op d) g₁).bind fun _ g₂ w₂ ⟨hg₂, hw₂⟩ => ?_
  subst hg₂ hw₂
  refine (finish_yields hf hr hd hparams hn hg₁.saved (h d)).mono fun _ _ w hw => ?_
  rwa [List.append_assoc] at hw

/-- The address of a field, from that of its struct. -/
theorem address_field {offset : Int64} {index : Nat} (hoffset : offset.toInt = Word.bytes * index)
    {b : Reg} {ρ : Reg → Word} {base : Word} (hb : ρ b = base) :
    (Mem.displaced b offset.toInt).address ρ = cellAddress place (.field base index) := by
  rw [Mem.address, hoffset, hb]
  rfl

/-- A store, after the address and the value were fetched. -/
theorem simulates_of_store {i : Linear.Instr} {value : VReg} (cell : (VReg → Word) → Cell) {d : Reg}
    {mem : Mem} {w : List Line}
    (heffect : ∀ rt (s : Linear.State Memory), i.effect rt s =
      (s.outside.store rt (cell s.regs) (s.regs value)).map fun o => ({ s with outside := o }, .next))
    (hfetch : ∀ {regs m}, ctx.frame.Holds regs m → ∃ m₁, Does place w m m₁ ∧
      m.Keeps ctx.frame.parameters.length m₁ ∧ m₁.regs d = regs value ∧
      mem.address m₁.regs = cellAddress place (cell regs)) :
    ctx.Simulates place i (w ++ [.instr (.store d mem)]) := by
  intro s s' m control hm hstep
  rw [heffect] at hstep
  obtain ⟨o, hstore, hset⟩ := Option.map_eq_some_iff.1 hstep
  cases hset
  obtain ⟨m₁, hrun, hkeeps, hvalue, haddress⟩ := hfetch hm.homes
  rw [← hkeeps.fp] at hstore
  obtain ⟨hmatches, hmem⟩ := (hm.keep hkeeps (Nat.le_refl _)).store hstore
  rw [← hvalue] at hmatches hmem
  have hinstr : (Instr.store d mem).effect place m₁
      = (m₁.setWord (cellAddress place (cell s.regs)) (m₁.regs d), .next) := by
    rw [Instr.effect, haddress]
  refine ⟨_, .fell, (hrun.trans (Does.single hinstr)).run_eq, ⟨rfl, hmatches⟩, hkeeps.fp, hkeeps.sp, ?_⟩
  intro a _ ha
  rw [hmem a ha, hkeeps.mem]

section Instructions

variable (hf : ctx.frame.Bounded) (hg : g.Ready ctx.frame.parameters.length)
include hf hg

theorem binary_yields {op : Linear.AluOp} {target left : VReg} {right : Linear.Operand}
    {l l' : Location} (htarget : ctx.frame.location? target = some l)
    (hleft : ctx.frame.location? left = some l')
    (hright : ∀ r ∈ right.registers, ∃ l, ctx.frame.location? r = some l) :
    (ctx.instr (.binary op target left right)).Yields g fun _ _ w =>
      ctx.Simulates place (.binary op target left right) w := by
  have hparams := hf.parameters_le
  refine (load_yields place hleft hg (Nat.le_refl _) (by omega)).bind fun a g₁ w₁ h₁ => ?_
  obtain ⟨n₁, hn₁, -, hg₁, hfetch₁⟩ := h₁
  have hle₁ := hfetch₁.le
  refine (loadOperand_yields place hright hg₁ (by omega) (by omega)).bind fun b g₂ w₂ h₂ => ?_
  obtain ⟨n₂, hn₂, -, hg₂, hfetch₂⟩ := h₂
  have hle₂ := hfetch₂.le
  simp only [← List.append_assoc]
  refine compute_yields hf rfl htarget hg₂ (by omega) (by omega) fun d s s' m control hm heffect => ?_
  cases heffect
  obtain ⟨m₁, hrun, hkeeps, hleft, hright⟩ := hfetch₁.and hfetch₂ (Nat.le_refl _) hm.homes
  refine ⟨rfl, _, m₁, rfl, hrun.trans (Does.single ?_), hkeeps⟩
  rw [Instr.effect, ← hleft, ← hright]

theorem not_yields {target operand : VReg} {l l' : Location}
    (htarget : ctx.frame.location? target = some l) (hoperand : ctx.frame.location? operand = some l') :
    (ctx.instr (.not target operand)).Yields g fun _ _ w =>
      ctx.Simulates place (.not target operand) w := by
  have hparams := hf.parameters_le
  refine (load_yields place hoperand hg (Nat.le_refl _) (by omega)).bind fun a g₁ w₁ h₁ => ?_
  obtain ⟨n₁, hn₁, -, hg₁, hfetch⟩ := h₁
  have hle₁ := hfetch.le
  refine compute_yields hf rfl htarget hg₁ (by omega) (by omega) fun d s s' m control hm heffect => ?_
  cases heffect
  obtain ⟨m₁, hrun, hkeeps, hfound⟩ := hfetch.does hm.homes
  refine ⟨rfl, _, m₁, rfl, hrun.trans (Does.single ?_), hkeeps⟩
  rw [Instr.effect, ← hfound]
  rfl

theorem loadAddress_yields {target : VReg} {address : Linear.Address} {l : Location}
    (htarget : ctx.frame.location? target = some l)
    (haddress : ∀ r ∈ address.registers, ∃ l, ctx.frame.location? r = some l) :
    (ctx.instr (.load target address)).Yields g fun _ _ w =>
      ctx.Simulates place (.load target address) w := by
  have hparams := hf.parameters_le
  refine (memory_yields place haddress hg (Nat.le_refl _) (by omega)).bind fun mem g₁ w₁ h₁ => ?_
  obtain ⟨n₁, hn₁, hg₁, hfetch⟩ := h₁
  have hle₁ := hfetch.le
  refine compute_yields hf rfl htarget hg₁ (by omega) (by omega) fun d s s' m control hm heffect => ?_
  obtain ⟨v, hload, hset⟩ := Option.map_eq_some_iff.1 heffect
  cases hset
  obtain ⟨m₁, hrun, hkeeps, hfound⟩ := hfetch.does hm.homes
  refine ⟨rfl, v, m₁, rfl, hrun.trans (Does.single ?_), hkeeps⟩
  rw [Instr.effect, hfound, hkeeps.mem, hm.load hload]

theorem loadField_yields {target base : VReg} {field : String} {index : Nat} {l l' : Location}
    (htarget : ctx.frame.location? target = some l) (hbase : ctx.frame.location? base = some l')
    (hindex : (Word.bytes * index : Int) ≤ Int64.maxValue.toInt) :
    (ctx.instr (.loadField target base field index)).Yields g fun _ _ w =>
      ctx.Simulates place (.loadField target base field index) w := by
  have hparams := hf.parameters_le
  obtain ⟨offset, hoffset, hpure⟩ := displacement_eq_pure hindex
  refine (load_yields place hbase hg (Nat.le_refl _) (by omega)).bind fun b g₁ w₁ h₁ => ?_
  obtain ⟨n₁, hn₁, -, hg₁, hfetch⟩ := h₁
  have hle₁ := hfetch.le
  simp only [hpure, pure_bind]
  refine compute_yields hf rfl htarget hg₁ (by omega) (by omega) fun d s s' m control hm heffect => ?_
  obtain ⟨v, hload, hset⟩ := Option.map_eq_some_iff.1 heffect
  cases hset
  obtain ⟨m₁, hrun, hkeeps, hfound⟩ := hfetch.does hm.homes
  refine ⟨rfl, v, m₁, rfl, hrun.trans (Does.single ?_), hkeeps⟩
  rw [Instr.effect, address_field hoffset hfound, hkeeps.mem, hm.load hload]

theorem storeAddress_yields {value : VReg} {address : Linear.Address} {l : Location}
    (hvalue : ctx.frame.location? value = some l)
    (haddress : ∀ r ∈ address.registers, ∃ l, ctx.frame.location? r = some l) :
    (ctx.instr (.store value address)).Yields g fun _ _ w =>
      ctx.Simulates place (.store value address) w := by
  have hparams := hf.parameters_le
  refine (load_yields place hvalue hg (Nat.le_refl _) (by omega)).bind fun d g₁ w₁ h₁ => ?_
  obtain ⟨n₁, hn₁, -, hg₁, hfetch₁⟩ := h₁
  have hle₁ := hfetch₁.le
  refine (memory_yields place haddress hg₁ (by omega) (by omega)).bind fun mem g₂ w₂ h₂ => ?_
  obtain ⟨n₂, hn₂, -, hfetch₂⟩ := h₂
  refine (emit_yields (.store d mem) g₂).mono fun _ _ w ⟨_, hw⟩ => ?_
  rw [hw, ← List.append_assoc]
  exact simulates_of_store (Linear.Address.cell · address) (fun _ _ => rfl) fun hm =>
    hfetch₁.and hfetch₂ (Nat.le_refl _) hm

theorem storeField_yields {value base : VReg} {field : String} {index : Nat} {l l' : Location}
    (hvalue : ctx.frame.location? value = some l) (hbase : ctx.frame.location? base = some l')
    (hindex : (Word.bytes * index : Int) ≤ Int64.maxValue.toInt) :
    (ctx.instr (.storeField value base field index)).Yields g fun _ _ w =>
      ctx.Simulates place (.storeField value base field index) w := by
  have hparams := hf.parameters_le
  obtain ⟨offset, hoffset, hpure⟩ := displacement_eq_pure hindex
  refine (load_yields place hvalue hg (Nat.le_refl _) (by omega)).bind fun d g₁ w₁ h₁ => ?_
  obtain ⟨n₁, hn₁, -, hg₁, hfetch₁⟩ := h₁
  have hle₁ := hfetch₁.le
  refine (load_yields place hbase hg₁ (by omega) (by omega)).bind fun b g₂ w₂ h₂ => ?_
  obtain ⟨n₂, hn₂, -, -, hfetch₂⟩ := h₂
  rw [hpure, pure_bind]
  refine (emit_yields (.store d (.displaced b offset.toInt)) g₂).mono fun _ _ w ⟨_, hw⟩ => ?_
  rw [hw, ← List.append_assoc]
  refine simulates_of_store (fun regs => .field (regs base) index) (fun _ _ => rfl)
    fun {regs m} hm => ?_
  obtain ⟨m₁, hrun, hkeeps, hfound₁, hfound₂⟩ := hfetch₁.and hfetch₂ (Nat.le_refl _) hm
  exact ⟨m₁, hrun, hkeeps, hfound₁, address_field hoffset hfound₂⟩

theorem compare_yields {left : VReg} {right : Linear.Operand} {l : Location}
    (hleft : ctx.frame.location? left = some l)
    (hright : ∀ r ∈ right.registers, ∃ l, ctx.frame.location? r = some l) :
    (ctx.instr (.cmp left right)).Yields g fun _ _ w => ctx.Simulates place (.cmp left right) w := by
  have hparams := hf.parameters_le
  -- Whatever instruction compares, the flags are those of the two values.
  have hcompare : ∀ {i : Instr} {w : List Line}, (∀ {regs m}, ctx.frame.Holds regs m → ∃ m₁,
      Does place w m m₁ ∧ m.Keeps ctx.frame.parameters.length m₁ ∧ i.effect place m₁
        = ({ m₁ with flags := .ofCompare (regs left) (right.value regs) }, .next)) →
      ctx.Simulates place (.cmp left right) (w ++ [.instr i]) := by
    intro i w hfetch s s' m control hm heffect
    cases heffect
    obtain ⟨m₁, hrun, hkeeps, hinstr⟩ := hfetch hm.homes
    have hm₁ := hm.keep hkeeps (Nat.le_refl _)
    refine ⟨_, .fell, (hrun.trans (Does.single hinstr)).run_eq, ⟨rfl, ?_⟩, hkeeps.fp, hkeeps.sp, ?_⟩
    · refine ⟨⟨hm₁.homes.slot, hm₁.homes.parameter⟩, fun hflags => ?_, hm₁.memory⟩
      cases hflags
      rfl
    · intro a _ _
      show m₁.mem a = m.mem a
      rw [hkeeps.mem]
  refine (load_yields place hleft hg (Nat.le_refl _) (by omega)).bind fun a g₁ w₁ h₁ => ?_
  obtain ⟨n₁, hn₁, -, hg₁, hfetch₁⟩ := h₁
  have hle₁ := hfetch₁.le
  have hload : (ctx.loadOperand right >>= fun b => emit (.cmp a b)).Yields g₁ fun _ _ w =>
      ctx.Simulates place (.cmp left right) (w₁ ++ w) := by
    refine (loadOperand_yields place hright hg₁ (by omega) (by omega)).bind fun b g₂ w₂ h₂ => ?_
    obtain ⟨n₂, hn₂, -, -, hfetch₂⟩ := h₂
    refine (emit_yields (.cmp a b) g₂).mono fun _ _ w h₃ => ?_
    rw [h₃.2, ← List.append_assoc]
    refine hcompare fun {regs m} hm => ?_
    obtain ⟨m₁, hrun, hkeeps, hfound₁, hfound₂⟩ := hfetch₁.and hfetch₂ (Nat.le_refl _) hm
    exact ⟨m₁, hrun, hkeeps, by rw [Instr.effect, ← hfound₁, ← hfound₂]⟩
  cases right with
  | reg r => exact hload
  | imm value =>
    show (if 0 ≤ value.toInt ∧ value.toInt ≤ 4095 then emit (.cmpImm a value.toInt)
      else ctx.loadOperand (.imm value) >>= fun b => emit (.cmp a b)).Yields g₁ _
    split
    · refine (emit_yields (.cmpImm a value.toInt) g₁).mono fun _ _ w h₂ => ?_
      rw [h₂.2]
      refine hcompare fun {regs m} hm => ?_
      obtain ⟨m₁, hrun, hkeeps, hfound⟩ := hfetch₁.does hm
      refine ⟨m₁, hrun, hkeeps, ?_⟩
      rw [Instr.effect, ← hfound, ← Int64.toInt_toBitVec, BitVec.ofInt_toInt]
      rfl
    · exact hload

theorem move_yields {target : VReg} {source : Linear.Operand} {l : Location}
    (htarget : ctx.frame.location? target = some l)
    (hsource : ∀ r ∈ source.registers, ∃ l, ctx.frame.location? r = some l) :
    (ctx.instr (.mov target source .always)).Yields g fun _ _ w =>
      ctx.Simulates place (.mov target source .always) w := by
  have hparams := hf.parameters_le
  refine (destination_yields htarget hg (Nat.le_refl _) (by omega)).bind fun d g₁ w₁ h₁ => ?_
  obtain ⟨n₁, hn₁, hle₁, -, hg₁, hd, rfl⟩ := h₁
  cases source with
  | reg r =>
    obtain ⟨l', hr⟩ := hsource r (List.mem_singleton_self r)
    refine (load_yields place hr hg₁ hle₁ (by omega)).bind fun s g₂ w₂ h₂ => ?_
    obtain ⟨n₂, -, -, hg₂, hfetch⟩ := h₂
    refine (emit_yields (.mov d s) g₂).bind fun _ g₃ w₃ h₃ => ?_
    obtain ⟨rfl, rfl⟩ := h₃
    simp only [List.nil_append, ← List.append_assoc]
    refine finish_yields hf rfl hd (Nat.le_refl _) (by omega) hg₂.saved ?_
    intro σ σ' m control hm heffect
    cases heffect
    obtain ⟨m₁, hrun, hkeeps, hfound⟩ := hfetch.does hm.homes
    refine ⟨rfl, _, m₁, rfl, hrun.trans (Does.single ?_), hkeeps.mono hle₁⟩
    rw [Instr.effect, hfound]
    rfl
  | imm value =>
    refine (emitAll_yields (immediate d value) g₁).bind fun _ g₂ w₂ h₂ => ?_
    obtain ⟨rfl, rfl⟩ := h₂
    simp only [List.nil_append]
    refine finish_yields hf rfl hd (Nat.le_refl _) (by omega) hg₁.saved ?_
    intro σ σ' m control hm heffect
    cases heffect
    exact ⟨rfl, _, m, rfl, does_immediate d value m, .refl _ m⟩

theorem moveOn_yields {target : VReg} {source : Linear.Operand} {c : Linear.Cond} {l : Location}
    (htarget : ctx.frame.location? target = some l)
    (hsource : ∀ r ∈ source.registers, ∃ l, ctx.frame.location? r = some l) :
    (ctx.instr (.mov target source (.on c))).Yields g fun _ _ w =>
      ctx.Simulates place (.mov target source (.on c)) w := by
  have hparams := hf.parameters_le
  have hskip : nextSkip.Yields g fun skip g' w => g'.Ready ctx.frame.parameters.length ∧ w = [] :=
    ⟨_, _, _, rfl, ⟨hg.saved, hg.pool⟩, rfl⟩
  refine hskip.bind fun skip g₁ w₁ ⟨hg₁, hw₁⟩ => ?_
  refine (emit_yields (.branchOn c.inverse skip) g₁).bind fun _ g₂ w₂ ⟨hg₂, hw₂⟩ => ?_
  subst hw₁ hg₂ hw₂
  refine (loadOperand_yields place hsource hg₁ (Nat.le_refl _) (by omega)).bind fun d g₃ w₃ h₃ => ?_
  obtain ⟨n₃, hn₃, hd, hg₃, hfetch⟩ := h₃
  refine (store_yields place hf htarget hg₃.saved (hd.ne_far (by omega))).bind fun _ g₄ w₄ h₄ => ?_
  obtain ⟨-, ⟨is', rfl⟩, hstore⟩ := h₄
  refine ⟨(), g₄, [.label skip], rfl, ?_⟩
  obtain ⟨is, rfl⟩ := hfetch.plain
  have hlines : [] ++ ([Line.instr (.branchOn c.inverse skip)] ++ (is.map .instr ++
      (is'.map .instr ++ [.label skip])))
        = .instr (.branchOn c.inverse skip) :: ((is ++ is').map .instr ++ [.label skip]) := by
    simp
  rw [hlines]
  intro σ σ' m control hm heffect
  obtain ⟨taken, hpasses, hset⟩ := Option.map_eq_some_iff.1 heffect
  cases hset
  obtain ⟨⟨x, y⟩, hflags, rfl⟩ := Option.map_eq_some_iff.1 hpasses
  have hholds : m.flags.holds c.inverse = !c.holds x.toInt y.toInt := by
    rw [hm.flags hflags, Flags.holds_ofCompare, Linear.Cond.holds_inverse]
  cases htaken : c.holds x.toInt y.toInt with
  | false =>
    rw [htaken, Bool.not_false] at hholds
    have hrun : Does place (.instr (.branchOn c.inverse skip) :: ((is ++ is').map .instr ++
        [.label skip])) m m := does_skip (by rw [hholds, if_pos rfl])
    simp only [Bool.false_eq_true, if_false]
    exact ⟨m, .fell, hrun.run_eq, ⟨rfl, hm⟩, rfl, rfl, fun _ _ _ => rfl⟩
  | true =>
    rw [htaken, Bool.not_true] at hholds
    obtain ⟨m₁, hrun₁, hkeeps, hfound⟩ := hfetch.does hm.homes
    obtain ⟨m₂, hrun₂, hholds₂, halters⟩ := hstore (hm.homes.keep hkeeps (Nat.le_refl _))
    have hrun : Does place (.instr (.branchOn c.inverse skip) :: ((is ++ is').map .instr ++
        [.label skip])) m m₂ := by
      refine does_skip ?_
      rw [hholds, if_neg Bool.false_ne_true, List.map_append]
      exact hrun₁.trans hrun₂
    rw [hfound] at hholds₂
    have halters' := halters.of_keeps hkeeps
    simp only [if_true]
    exact ⟨m₂, .fell, hrun.run_eq, ⟨rfl, hm.put hholds₂ halters'⟩, halters'.fp, halters'.sp,
      fun a ha _ => halters'.mem a fun k hk => ha target k rfl hk⟩

omit hf in
theorem leave_yields {value : Option Linear.Operand}
    (hvalue : ∀ r ∈ (Linear.Instr.ret value).sources, ∃ l, ctx.frame.location? r = some l) :
    (ctx.instr (.ret value)).Yields g fun _ _ w => ctx.Simulates place (.ret value) w := by
  -- Only the result register changes before the jump to the end of the function.
  have hleave : ∀ {w : List Line}, (∀ {regs m}, ctx.frame.Holds regs m → ∃ m', Does place w m m' ∧
      m'.regs .fp = m.regs .fp ∧ m'.regs .sp = m.regs .sp ∧ m'.mem = m.mem ∧
      ∀ v, value.map (Linear.Operand.value regs) = some v → m'.regs .result = v) →
      ctx.Simulates place (.ret value) (w ++ [.instr (.branch (.exit ctx.name))]) := by
    intro w hload s s' m control hm heffect
    cases heffect
    obtain ⟨m', hrun, hfp, hsp, hmem, hresult⟩ := hload hm.homes
    exact ⟨m', .goto (.exit ctx.name), hrun _, ⟨rfl, hresult⟩, hfp, hsp, fun a _ _ => by rw [hmem]⟩
  have hgets : ∀ {m m' : Machine} {v : Word}, m.Gets .result v m' →
      m'.regs .fp = m.regs .fp ∧ m'.regs .sp = m.regs .sp ∧ m'.mem = m.mem :=
    fun h => ⟨h.others _ (by decide) (by decide), h.others _ (by decide) (by decide), h.mem⟩
  match value, hvalue with
  | none, _ =>
    refine ⟨(), g, _, rfl, ?_⟩
    refine hleave (w := []) fun {regs m} _ => ⟨m, Does.nil place m, rfl, rfl, rfl, nofun⟩
  | some (.imm value), _ =>
    refine (emitAll_yields (immediate .result value) g).bind fun _ g₁ w₁ ⟨hg₁, hw₁⟩ => ?_
    refine ⟨(), g₁, _, rfl, hleave fun {regs m} _ => ?_⟩
    have hset := Machine.Gets.set m .result value.toBitVec
    obtain ⟨hfp, hsp, hmem⟩ := hgets hset
    exact ⟨_, hw₁ ▸ does_immediate .result value m, hfp, hsp, hmem, fun v hv => by
      cases hv
      exact hset.value⟩
  | some (.reg r), hvalue =>
    obtain ⟨l, hr⟩ := hvalue r (List.mem_singleton_self r)
    refine (loadInto_yields place hr hg.saved .result).bind fun _ g₁ w₁ ⟨_, hload⟩ => ?_
    refine ⟨(), g₁, _, rfl, hleave fun {regs m} hm => ?_⟩
    obtain ⟨m', hrun, hget⟩ := hload hm
    obtain ⟨hfp, hsp, hmem⟩ := hgets hget
    exact ⟨m', hrun, hfp, hsp, hmem, fun v hv => by
      cases hv
      exact hget.value⟩

end Instructions

theorem branch_simulates (l : Label) :
    ctx.Simulates place (.branch .always l) [.instr (.branch (.block l))] := by
  intro s s' m control hm heffect
  cases heffect
  exact ⟨m, _, rfl, ⟨rfl, hm⟩, rfl, rfl, fun _ _ _ => rfl⟩

theorem branchOn_simulates (c : Linear.Cond) (l : Label) :
    ctx.Simulates place (.branch (.on c) l) [.instr (.branchOn c (.block l))] := by
  intro s s' m control hm heffect
  obtain ⟨taken, hpasses, hset⟩ := Option.map_eq_some_iff.1 heffect
  cases hset
  obtain ⟨⟨x, y⟩, hflags, rfl⟩ := Option.map_eq_some_iff.1 hpasses
  have hholds : m.flags.holds c = c.holds x.toInt y.toInt := by
    rw [hm.flags hflags, Flags.holds_ofCompare]
  cases htaken : c.holds x.toInt y.toInt with
  | true =>
    have hbranch : (Instr.branchOn c (.block l)).effect place m = (m, .goto (.block l)) :=
      effect_branchOn_taken (hholds.trans htaken) _
    exact ⟨m, .goto (.block l), run_goto hbranch [], ⟨rfl, hm⟩, rfl, rfl, fun _ _ _ => rfl⟩
  | false =>
    have hbranch : (Instr.branchOn c (.block l)).effect place m = (m, .next) :=
      effect_branchOn_untaken (hholds.trans htaken) _
    exact ⟨m, .fell, run_next hbranch [], ⟨rfl, hm⟩, rfl, rfl, fun _ _ _ => rfl⟩

theorem label_simulates (l : Label) : ctx.Simulates place (.label l) [.label (.block l)] := by
  intro s s' m control hm heffect
  cases heffect
  exact ⟨m, _, rfl, ⟨rfl, hm⟩, rfl, rfl, fun _ _ _ => rfl⟩

/-- Whether an instruction has nothing to do with a call. -/
def isPlain : Linear.Instr → Bool
  | .alloc .. | .free _ | .push .. | .pop .. | .result _ | .call _ | .print _ | .println _
  | .read .. => false
  | _ => true

/-- The number of the word that a field access names. -/
def fieldIndex? : Linear.Instr → Option Nat
  | .loadField _ _ _ index | .storeField _ _ _ index => some index
  | _ => none

/-- **Data and branch instructions.** Take an instruction of a body whose frame is within the limits,
one that has nothing to do with a call. If its sources have homes and its displacement fits, then from a
generator where the parameters are in their registers and only these and the reserved registers are in
use, its code is generated, and it does what the instruction does. -/
theorem instr_simulates {name : String} {body : List Linear.Instr} {parameters : List VReg}
    {frame : Frame} (hlayout : Frame.layout name body parameters = .ok frame) {i : Linear.Instr}
    (hi : i ∈ body) (hplain : isPlain i = true)
    (hsources : ∀ r ∈ i.sources, ∃ l, frame.location? r = some l)
    (hindex : ∀ index, fieldIndex? i = some index →
      (Word.bytes * index : Int) ≤ Int64.maxValue.toInt)
    {g : Generator} (hsaved : g.saved = false)
    (hpool : ∀ k : PoolReg, g.pool.isBusy k = (k.isReserved || k.val < parameters.length))
    (place : Symbol → Word) :
    ∃ g' lines, (Context.instr ⟨name, frame⟩ i).run g = ⟨.ok (), g', lines⟩ ∧
      Context.Simulates ⟨name, frame⟩ place i lines := by
  obtain ⟨hframe, hf⟩ := Frame.bounded_of_layout hlayout
  have hg : g.Ready (Context.mk name frame).frame.parameters.length := by
    refine ⟨hsaved, fun k => ?_⟩
    rw [hpool, hframe]
    rfl
  have htarget : ∀ {r}, i.target? = some r → ∃ l, frame.location? r = some l :=
    Frame.located_of_layout hlayout hi
  have hyields : (Context.instr ⟨name, frame⟩ i).Yields g fun _ _ w =>
      Context.Simulates ⟨name, frame⟩ place i w := by
    cases i with
    | binary op target left right =>
      obtain ⟨l, hl⟩ := htarget rfl
      obtain ⟨l', hl'⟩ := hsources left (List.mem_cons_self ..)
      exact binary_yields hf hg hl hl' fun r hr => hsources r (List.mem_cons_of_mem _ hr)
    | not target operand =>
      obtain ⟨l, hl⟩ := htarget rfl
      obtain ⟨l', hl'⟩ := hsources operand (List.mem_cons_self ..)
      exact not_yields hf hg hl hl'
    | cmp left right =>
      obtain ⟨l, hl⟩ := hsources left (List.mem_cons_self ..)
      exact compare_yields hf hg hl fun r hr => hsources r (List.mem_cons_of_mem _ hr)
    | branch guard l =>
      cases guard with
      | always => exact ⟨(), g, _, rfl, branch_simulates l⟩
      | on c => exact ⟨(), g, _, rfl, branchOn_simulates c l⟩
    | label l => exact ⟨(), g, _, rfl, label_simulates l⟩
    | load target address =>
      obtain ⟨l, hl⟩ := htarget rfl
      exact loadAddress_yields hf hg hl hsources
    | store value address =>
      obtain ⟨l, hl⟩ := hsources value (List.mem_cons_self ..)
      exact storeAddress_yields hf hg hl fun r hr => hsources r (List.mem_cons_of_mem _ hr)
    | loadField target base field index =>
      obtain ⟨l, hl⟩ := htarget rfl
      obtain ⟨l', hl'⟩ := hsources base (List.mem_cons_self ..)
      exact loadField_yields hf hg hl hl' (hindex index rfl)
    | storeField value base field index =>
      obtain ⟨l, hl⟩ := hsources value (List.mem_cons_self ..)
      obtain ⟨l', hl'⟩ := hsources base (List.mem_cons_of_mem _ (List.mem_cons_self ..))
      exact storeField_yields hf hg hl hl' (hindex index rfl)
    | mov target source guard =>
      obtain ⟨l, hl⟩ := htarget rfl
      cases guard with
      | always => exact move_yields hf hg hl hsources
      | on c => exact moveOn_yields hf hg hl hsources
    | ret value => exact leave_yields hg hsources
    | _ => cases hplain
  obtain ⟨_, g', w, hrun, hsimulates⟩ := hyields
  exact ⟨g', w, hrun, hsimulates⟩

/-- A conditional move of a large constant, after a comparison of 5 with 3. -/
theorem instr_simulates_conditional_move :
    ∃ g' lines m', (Context.instr ⟨"f", ⟨[⟨0⟩], [⟨1⟩]⟩⟩ (.mov ⟨1⟩ (.imm 70000) (.on .gt))).run
        { pool := Pool.fresh.occupy ⟨0, by decide⟩ } = ⟨.ok (), g', lines⟩ ∧
      run (fun _ => 0) lines none ⟨fun _ => 0, .ofCompare 5 3, fun _ => 0⟩ = (m', .fell) ∧
      m'.regs .fp = 0 ∧ m'.regs .sp = 0 ∧ m'.mem.word (slotAddress (m'.regs .fp) 0) = 70000 ∧
      m'.flags = .ofCompare 5 3 := by
  have hlayout : Frame.layout "f" [.cmp ⟨0⟩ (.imm 3), .mov ⟨1⟩ (.imm 70000) (.on .gt)] [⟨0⟩]
      = .ok ⟨[⟨0⟩], [⟨1⟩]⟩ := by rfl
  obtain ⟨g', lines, hrun, hsimulates⟩ := instr_simulates hlayout
    (i := .mov ⟨1⟩ (.imm 70000) (.on .gt)) (by decide) rfl nofun nofun
    (g := { pool := Pool.fresh.occupy ⟨0, by decide⟩ }) rfl (by decide) fun _ => 0
  have hzero : ∀ a, Memory.word (fun _ => 0) a = 0 := by
    intro a
    simp [Memory.word]
  have hmatches : Frame.Matches ⟨[⟨0⟩], [⟨1⟩]⟩ ⟨fun _ => 0, some (5, 3), [], none, ⟨fun _ => 0, []⟩⟩
      ⟨fun _ => 0, .ofCompare 5 3, fun _ => 0⟩ :=
    ⟨⟨fun _ => hzero _, fun _ => rfl⟩, fun hflags => by cases hflags; rfl, fun _ => rfl⟩
  obtain ⟨m', e, hlines, ⟨rfl, hend⟩, hfp, hsp, -⟩ := hsimulates hmatches rfl
  exact ⟨g', lines, m', hrun, hlines, hfp, hsp, hend.homes.slot (r := ⟨1⟩) rfl, hend.flags rfl⟩

end Context

end Spillway.Arm64
