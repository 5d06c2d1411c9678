import Spillway.Arm64.Generator
import Spillway.Proofs.Arm64.Constant

/-!
# Homes of virtual registers

In the frame of a function no two virtual registers share a home, and within the limits of the target no
two slots share a byte. An access to a slot, near or far, reaches the slot and changes nothing else but
the register that forms far addresses.

* `Frame.bounded_of_layout`, `Frame.located_of_layout` — what the layout of a frame guarantees.
* `Frame.location?_injective` — homes are not shared.
* `does_slotLoad`, `does_slotStore` — accesses to slots.
* `Frame.Holds` — a machine that has every virtual register in its home.
-/

namespace Spillway.Arm64

open Linear (Fragment)

/-! ### Layout -/

namespace Frame

variable {f : Frame} {r r' : VReg} {i : Argument} {k : Nat} {l : Location}

/-- A frame within the limits of the target. -/
structure Bounded (f : Frame) : Prop where
  parameters : f.parameters.length ≤ Limit.maxArguments
  bytes : f.bytes ≤ Limit.maxFrameBytes

theorem Bounded.parameters_le (h : f.Bounded) : f.parameters.length ≤ 8 := h.parameters

theorem Bounded.slots (h : f.Bounded) : f.slots.length ≤ 510 := by
  have hbytes := h.bytes
  rw [Frame.bytes, Word.areaBytes, Word.alignment, Limit.maxFrameBytes] at hbytes
  omega

/-- A frame that is laid out is within the limits. -/
theorem bounded_of_layout {name : String} {body : List Linear.Instr} {parameters : List VReg}
    (h : layout name body parameters = .ok f) : f = spill body parameters ∧ f.Bounded := by
  rw [layout, checked] at h
  split at h
  · cases h
  · split at h
    · cases h
    · rename_i hparameters hbytes
      cases h
      exact ⟨rfl, Nat.not_lt.1 hparameters, Nat.not_lt.1 hbytes⟩

/-- The argument register of a parameter is the one in the parameter's place. -/
theorem getElem?_of_parameter? (h : f.parameter? r = some i) : f.parameters[i.val]? = some r := by
  obtain ⟨⟨j, r'⟩, hfind, rfl⟩ := Option.map_eq_some_iff.1 h
  obtain rfl : r' = r := by simpa using List.find?_some hfind
  obtain ⟨n, hn, hget⟩ := List.getElem_of_mem (List.mem_reverse.1 (List.mem_of_find?_eq_some hfind))
  rw [List.getElem_zip, Prod.mk.injEq] at hget
  obtain ⟨hj, hr⟩ := hget
  have hplace : j.val = n := by simp [← hj, Argument.all]
  rw [List.length_zip] at hn
  rw [hplace, ← hr]
  exact List.getElem?_eq_getElem (by omega)

theorem lt_of_parameter? (h : f.parameter? r = some i) : i.val < f.parameters.length :=
  (List.getElem?_eq_some_iff.1 (getElem?_of_parameter? h)).1

/-- Every parameter has an argument register. -/
theorem exists_parameter? (hf : f.Bounded) (hr : r ∈ f.parameters) : ∃ i, f.parameter? r = some i := by
  obtain ⟨n, hn, rfl⟩ := List.getElem_of_mem hr
  have hlt : n < Limit.maxArguments := Nat.lt_of_lt_of_le hn hf.parameters
  have hlength : n < (Argument.all.zip f.parameters).length := by
    rw [List.length_zip, Argument.all, List.length_finRange]
    omega
  have hmem : (⟨n, hlt⟩, f.parameters[n]) ∈ (Argument.all.zip f.parameters).reverse := by
    rw [List.mem_reverse]
    refine List.mem_iff_getElem.2 ⟨n, hlength, ?_⟩
    rw [List.getElem_zip]
    simp [Argument.all]
  obtain ⟨q, hq⟩ := Option.isSome_iff_exists.1
    (List.find?_isSome (p := fun q : Argument × VReg => decide (q.2 = f.parameters[n])) |>.2
      ⟨_, hmem, decide_eq_true rfl⟩)
  exact ⟨q.1, by rw [parameter?, hq]; rfl⟩

theorem parameter?_of_location? (h : f.location? r = some (.parameter i)) : f.parameter? r = some i := by
  rw [location?] at h
  split at h
  · cases h
    assumption
  · obtain ⟨_, -, hslot⟩ := Option.map_eq_some_iff.1 h
    cases hslot

theorem slot_of_location? (h : f.location? r = some (.slot k)) : f.slots[k]? = some r := by
  rw [location?] at h
  split at h
  · cases h
  · obtain ⟨n, hn, hslot⟩ := Option.map_eq_some_iff.1 h
    cases hslot
    obtain ⟨hlt, heq, -⟩ := List.idxOf?_eq_some_iff.1 hn
    rw [List.getElem?_eq_getElem hlt, heq]

theorem lt_of_slot (h : f.location? r = some (.slot k)) : k < f.slots.length :=
  (List.getElem?_eq_some_iff.1 (slot_of_location? h)).1

/-- **Homes.** No two virtual registers share a home. -/
theorem location?_injective (h : f.location? r = some l) (h' : f.location? r' = some l) : r = r' := by
  cases l with
  | slot k =>
    have hr := slot_of_location? h
    rw [slot_of_location? h'] at hr
    exact (Option.some.inj hr).symm
  | parameter i =>
    have hr := getElem?_of_parameter? (parameter?_of_location? h)
    rw [getElem?_of_parameter? (parameter?_of_location? h')] at hr
    exact (Option.some.inj hr).symm

/-- Every register that a body writes has a home. -/
theorem located_of_layout {name : String} {body : List Linear.Instr} {parameters : List VReg}
    (h : layout name body parameters = .ok f) {instr : Linear.Instr} (hmem : instr ∈ body)
    (hr : instr.target? = some r) : ∃ l, f.location? r = some l := by
  obtain ⟨rfl, hbounded⟩ := bounded_of_layout h
  rw [location?]
  cases hparam : (spill body parameters).parameter? r with
  | some i => exact ⟨.parameter i, rfl⟩
  | none =>
    have hnot : r ∉ parameters := by
      intro hin
      obtain ⟨i, hi⟩ := exists_parameter? hbounded (r := r) hin
      rw [hparam] at hi
      cases hi
    have hslot : r ∈ (spill body parameters).slots := by
      rw [slots_spill, List.mem_eraseDups, List.mem_filter]
      exact ⟨List.mem_filterMap.2 ⟨instr, hmem, hr⟩, decide_eq_true hnot⟩
    obtain ⟨k, hk⟩ := Option.isSome_iff_exists.1 (List.isSome_idxOf?.2 hslot)
    exact ⟨.slot k, by rw [hk]; rfl⟩

end Frame

/-! ### Slots -/

/-- The address of a slot, from the frame pointer. -/
def slotAddress (fp : Word) (k : Nat) : Word := fp + BitVec.ofInt 64 (slotOffset k)

theorem slotAddress_eq_sub (fp : Word) (k : Nat) :
    slotAddress fp k = fp - BitVec.ofNat 64 (slotDepth k) := by
  rw [slotAddress, slotOffset, BitVec.ofInt_neg, BitVec.ofInt_natCast, BitVec.sub_eq_add_neg]

/-- Two slots share no byte. -/
theorem not_inWord_slot {fp a : Word} {k k' : Nat} (hne : k ≠ k') (hk : k < 510) (hk' : k' < 510)
    (h : Memory.InWord (slotAddress fp k) a) : ¬ Memory.InWord (slotAddress fp k') a := by
  simp only [Memory.InWord, slotAddress_eq_sub, slotDepth, Word.bytes] at h ⊢
  bv_omega

namespace Frame

/-- Whether a byte belongs to one of the slots. -/
def Covers (f : Frame) (fp a : Word) : Prop :=
  ∃ k < f.slots.length, Memory.InWord (slotAddress fp k) a

instance (f : Frame) (fp a : Word) : Decidable (f.Covers fp a) :=
  inferInstanceAs (Decidable (∃ k < f.slots.length, Memory.InWord (slotAddress fp k) a))

end Frame

namespace Machine

/-- A register was given a value. Nothing else has changed but the register that forms far addresses. -/
structure Gets (m : Machine) (d : Reg) (value : Word) (m' : Machine) : Prop where
  value : m'.regs d = value
  others : ∀ r, r ≠ d → r ≠ .far → m'.regs r = m.regs r
  mem : m'.mem = m.mem
  flags : m'.flags = m.flags

/-- A word was stored. Nothing else has changed but the register that forms far addresses. -/
structure Stores (m : Machine) (a value : Word) (m' : Machine) : Prop where
  mem : m'.mem = m.mem.setWord a value
  regs : ∀ r, r ≠ .far → m'.regs r = m.regs r
  flags : m'.flags = m.flags

theorem Gets.refl (m : Machine) (d : Reg) : m.Gets d (m.regs d) m :=
  ⟨rfl, fun _ _ _ => rfl, rfl, rfl⟩

theorem Gets.set (m : Machine) (d : Reg) (value : Word) : m.Gets d value (m.set d value) :=
  ⟨Function.update_self .., fun _ hr _ => Function.update_of_ne hr .., rfl, rfl⟩

end Machine

variable {place : Symbol → Word}

/-- **Reading a slot.** -/
theorem does_slotLoad (d : Reg) (k : Nat) (m : Machine) :
    ∃ m', Does place ((slotAccess (.load d) k).map .instr) m m' ∧
      m.Gets d (m.mem.word (slotAddress (m.regs .fp) k)) m' := by
  rw [slotAccess]
  split
  · exact ⟨_, Does.single rfl, Machine.Gets.set m d _⟩
  · refine ⟨_, Does.cons rfl (Does.single rfl), ?_⟩
    rw [slotAddress_eq_sub]
    constructor
    · simp [Mem.address]
    · intro r hr hfar
      simp [hr, hfar]
    · rfl
    · rfl

/-- **Writing a slot.** -/
theorem does_slotStore {s : Reg} (hs : s ≠ .far) (k : Nat) (m : Machine) :
    ∃ m', Does place ((slotAccess (.store s) k).map .instr) m m' ∧
      m.Stores (slotAddress (m.regs .fp) k) (m.regs s) m' := by
  rw [slotAccess]
  split
  · have hstore : (Instr.store s (.displaced .fp (slotOffset k))).effect place m
        = (m.setWord (slotAddress (m.regs .fp) k) (m.regs s), .next) := by
      rw [Instr.effect, Mem.address, slotAddress]
    exact ⟨_, Does.single hstore, Machine.setWord_mem .., fun _ _ => rfl, Machine.setWord_flags ..⟩
  · have hfar : (Instr.subImm .far .fp (slotDepth k)).effect place m
        = (m.set .far (slotAddress (m.regs .fp) k), .next) := by
      rw [slotAddress_eq_sub, Instr.effect]
    have hstore : (Instr.store s (.direct .far)).effect place (m.set .far (slotAddress (m.regs .fp) k))
        = ((m.set .far (slotAddress (m.regs .fp) k)).setWord (slotAddress (m.regs .fp) k) (m.regs s),
          .next) := by
      rw [Instr.effect, Mem.address, Machine.set_regs, Function.update_self, Function.update_of_ne hs]
    refine ⟨_, Does.cons hfar (Does.single hstore), ?_, ?_, Machine.setWord_flags ..⟩
    · rw [Machine.setWord_mem, Machine.set_mem]
    · intro r hr
      rw [Machine.setWord_regs, Machine.set_regs, Function.update_of_ne hr]

/-! ### Machines that hold virtual registers -/

theorem Argument.reg_ne_far : ∀ i : Argument, i.reg ≠ .far := by decide

/-- Storing a word leaves the words alone that share no byte with it. -/
theorem Memory.word_setWord_of_disjoint {m : Memory} {a a' : Word} (value : Word)
    (h : ∀ b, InWord a b → ¬ InWord a' b) : (m.setWord a' value).word a = m.word a :=
  word_congr fun b hb => setWord_of_not_inWord (h b hb)

namespace Frame

variable {f : Frame}

/-- Every virtual register that has a home is there. -/
structure Holds (f : Frame) (regs : VReg → Word) (m : Machine) : Prop where
  slot : ∀ {r k}, f.location? r = some (.slot k) →
    m.mem.word (slotAddress (m.regs .fp) k) = regs r
  parameter : ∀ {r i}, f.location? r = some (.parameter i) → m.regs i.reg = regs r

/-- Writing the slot of a virtual register leaves the other slots alone. -/
theorem word_setWord_slot (hf : f.Bounded) {r r' : VReg} {k k' : Nat} {fp : Word} {mem : Memory}
    (hr : f.location? r = some (.slot k)) (hr' : f.location? r' = some (.slot k')) (hne : r' ≠ r)
    (value : Word) :
    (mem.setWord (slotAddress fp k) value).word (slotAddress fp k') = mem.word (slotAddress fp k') := by
  have hk : k' ≠ k := by
    rintro rfl
    exact hne (location?_injective hr' hr)
  have hlt := lt_of_slot hr
  have hlt' := lt_of_slot hr'
  have hslots := hf.slots
  exact Memory.word_setWord_of_disjoint value fun b => not_inWord_slot hk (by omega) (by omega)

/-- Writing the slot of a virtual register gives the register a value. -/
theorem Holds.stores (hf : f.Bounded) {regs : VReg → Word} {m m' : Machine} {r : VReg} {k : Nat}
    {value : Word} (h : f.Holds regs m) (hr : f.location? r = some (.slot k))
    (hstores : m.Stores (slotAddress (m.regs .fp) k) value m') :
    f.Holds (Function.update regs r value) m' := by
  have hfp : m'.regs .fp = m.regs .fp := hstores.regs _ (by decide)
  constructor
  · intro r' k' hr'
    rw [hstores.mem, hfp]
    by_cases hne : r' = r
    · subst hne
      rw [hr] at hr'
      cases hr'
      rw [Memory.word_setWord, Function.update_self]
    · rw [word_setWord_slot hf hr hr' hne, h.slot hr', Function.update_of_ne hne]
  · intro r' i hr'
    have hne : r' ≠ r := by
      rintro rfl
      rw [hr] at hr'
      cases hr'
    rw [hstores.regs _ (Argument.reg_ne_far i), h.parameter hr', Function.update_of_ne hne]

end Frame

end Spillway.Arm64
