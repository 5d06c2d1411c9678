import Spillway.Proofs.Arm64.Saved

/-!
# The stack, line by line

In the code of a function the stack pointer is moved in two ways only: an area is reserved below the frame,
and it is given back. `Frame.Step` says what a line may do, given the bytes that are reserved and whether
the register of far addresses was just set; `Frame.Steps` follows the lines one after the other. How far
the stack pointer has moved can be read off the lines, `Frame.Steps.spOffset_eq`.

* `Frame.Step` — one line.
* `Frame.Steps` — lines one after the other.
* `Frame.Straight` — lines that neither define a label nor jump.
-/

namespace Spillway.Arm64

/-! ### What lines name -/

/-- The registers that the address of a word is formed from. -/
def Mem.registers : Mem → List Reg
  | .direct base | .displaced base _ => [base]
  | .indexed base offset => [base, offset]

/-- The registers that an instruction names. -/
def Instr.registers : Instr → List Reg
  | .movImm d _ | .movz d _ | .movk d _ _ | .cmpImm d _ | .page d _ => [d]
  | .mov d a | .eorImm d a _ | .addImm d a _ | .subImm d a _ | .cmp d a | .addPageOffset d a _ => [d, a]
  | .alu _ d a b => [d, a, b]
  | .load d m | .store d m => d :: m.registers
  | .loadPair d e m | .storePair d e m => d :: e :: m.registers
  | .branch _ | .branchOn .. | .call _ | .ret => []

/-- A register that is neither the stack pointer nor the frame pointer nor the one of far addresses. -/
def Reg.Ordinary (r : Reg) : Prop := r ≠ .sp ∧ r ≠ .fp ∧ r ≠ .far

instance (r : Reg) : Decidable r.Ordinary := inferInstanceAs (Decidable (_ ∧ _ ∧ _))

theorem Argument.ordinary_reg (i : Argument) : i.reg.Ordinary :=
  ⟨reg_ne_sp i, reg_ne_fp i, reg_ne_far i⟩

/-- An instruction on ordinary registers, one that control passes through. -/
def Instr.Plain (i : Instr) : Prop := i.registers ≠ [] ∧ ∀ r ∈ i.registers, r.Ordinary

theorem Instr.plain_pair {i : Instr} {a b : Reg} (hi : i.registers = [a, b]) (ha : a.Ordinary)
    (hb : b.Ordinary) : i.Plain := by
  simp [Instr.Plain, hi, ha, hb]

theorem Instr.plain_access {i : Instr} {d : Reg} {m : Mem} (hi : i.registers = d :: m.registers)
    (hd : d.Ordinary) (hm : ∀ r ∈ m.registers, r.Ordinary) : i.Plain := by
  rw [Instr.Plain, hi]
  exact ⟨List.cons_ne_nil _ _, List.forall_mem_cons.2 ⟨hd, hm⟩⟩

/-- The symbol that a line defines. -/
def Line.defines? : Line → Option Symbol
  | .label s => some s
  | _ => none

/-- The symbol that control may go to from a line. -/
def Line.jump? : Line → Option Symbol
  | .instr (.branch s) | .instr (.branchOn _ s) => some s
  | _ => none

/-- The symbols that lines define, in order. -/
def definitions (lines : List Line) : List Symbol := lines.filterMap Line.defines?

/-- The symbols that control may go to from lines, in order. -/
def jumps (lines : List Line) : List Symbol := lines.filterMap Line.jump?

@[simp] theorem definitions_append (w w' : List Line) :
    definitions (w ++ w') = definitions w ++ definitions w' := List.filterMap_append

@[simp] theorem jumps_append (w w' : List Line) : jumps (w ++ w') = jumps w ++ jumps w' :=
  List.filterMap_append

/-- How far a line moves the stack pointer. -/
def Line.spChange : Line → Int
  | .instr (.addImm .sp .sp bytes) => bytes
  | .instr (.subImm .sp .sp bytes) => -bytes
  | _ => 0

/-- How far lines move the stack pointer, taken together. -/
def spOffset : List Line → Int
  | [] => 0
  | line :: lines => line.spChange + spOffset lines

@[simp] theorem spOffset_nil : spOffset [] = 0 := rfl

@[simp] theorem spOffset_cons (line : Line) (lines : List Line) :
    spOffset (line :: lines) = line.spChange + spOffset lines := rfl

@[simp] theorem spOffset_append (w w' : List Line) : spOffset (w ++ w') = spOffset w + spOffset w' := by
  induction w with
  | nil => rw [List.nil_append, spOffset_nil, Int.zero_add]
  | cons line w ih => rw [List.cons_append, spOffset_cons, spOffset_cons, ih, Int.add_assoc]

theorem Instr.Plain.spChange {i : Instr} (h : i.Plain) : (Line.instr i).spChange = 0 := by
  have hsp : .sp ∉ i.registers := fun hmem => (h.2 .sp hmem).1 rfl
  unfold Line.spChange
  split <;> simp_all [Instr.registers]

theorem Instr.Plain.jump? {i : Instr} (h : i.Plain) : (Line.instr i).jump? = none := by
  obtain ⟨hne, -⟩ := h
  cases i with
  | branch s => exact absurd rfl hne
  | branchOn c s => exact absurd rfl hne
  | _ => rfl

/-! ### One line -/

/-- The bytes reserved below the frame, and whether the register of far addresses was just set. -/
structure Stack where
  area : Nat
  far : Bool := false

/-- The area keeps the stack pointer aligned, and an immediate can name its size. -/
def Stack.Aligned (s : Stack) : Prop := Word.alignment ∣ s.area ∧ s.area ≤ 4095

namespace Frame

/-- What a line of a function's code may do. -/
inductive Step (f : Frame) : Stack → Line → Stack → Prop
  | plain {a : Nat} {i : Instr} : i.Plain → Step f ⟨a, false⟩ (.instr i) ⟨a, false⟩
  /-- A near slot is read. -/
  | loadNear {a k : Nat} {d : Reg} :
      k < f.slots.length → minDirectOffset ≤ slotOffset k → d.Ordinary →
      Step f ⟨a, false⟩ (.instr (.load d (.displaced .fp (slotOffset k)))) ⟨a, false⟩
  | storeNear {a k : Nat} {s : Reg} :
      k < f.slots.length → minDirectOffset ≤ slotOffset k → s.Ordinary →
      Step f ⟨a, false⟩ (.instr (.store s (.displaced .fp (slotOffset k)))) ⟨a, false⟩
  /-- The address of a far slot is formed, and the next line uses it. -/
  | setFar {a k : Nat} :
      k < f.slots.length → Step f ⟨a, false⟩ (.instr (.subImm .far .fp (slotDepth k))) ⟨a, true⟩
  | loadFar {a : Nat} {d : Reg} :
      d.Ordinary → Step f ⟨a, true⟩ (.instr (.load d (.direct .far))) ⟨a, false⟩
  | storeFar {a : Nat} {s : Reg} :
      s.Ordinary → Step f ⟨a, true⟩ (.instr (.store s (.direct .far))) ⟨a, false⟩
  /-- The address of a slot is taken. -/
  | slotAddress {a k : Nat} {d : Reg} :
      k < f.slots.length → d.Ordinary →
      Step f ⟨a, false⟩ (.instr (.subImm d .fp (slotDepth k))) ⟨a, false⟩
  /-- A saved parameter is read. -/
  | loadSaved {a : Nat} {d : Reg} {i : Argument} :
      Word.bytes * i + Word.bytes ≤ a → d.Ordinary →
      Step f ⟨a, false⟩ (.instr (.load d (.displaced .sp i.saved))) ⟨a, false⟩
  | storeSaved {a : Nat} {s : Reg} {i : Argument} :
      Word.bytes * i + Word.bytes ≤ a → s.Ordinary →
      Step f ⟨a, false⟩ (.instr (.store s (.displaced .sp i.saved))) ⟨a, false⟩
  /-- The address of a saved parameter is taken. -/
  | savedAddress {a : Nat} {d : Reg} {i : Argument} :
      Word.bytes * i + Word.bytes ≤ a → d.Ordinary →
      Step f ⟨a, false⟩ (.instr (.addImm d .sp (Word.bytes * i))) ⟨a, false⟩
  | reserve {a : Nat} :
      Word.alignment ∣ a → a ≤ 4095 → Step f ⟨0, false⟩ (.instr (.subImm .sp .sp a)) ⟨a, false⟩
  | release {a : Nat} : Step f ⟨a, false⟩ (.instr (.addImm .sp .sp a)) ⟨0, false⟩
  | call {a : Nat} {s : Symbol} : Step f ⟨a, false⟩ (.instr (.call s)) ⟨a, false⟩
  | label {s : Symbol} : Step f ⟨0, false⟩ (.label s) ⟨0, false⟩
  | branch {s : Symbol} : Step f ⟨0, false⟩ (.instr (.branch s)) ⟨0, false⟩
  | branchOn {c : Linear.Cond} {s : Symbol} :
      Step f ⟨0, false⟩ (.instr (.branchOn c s)) ⟨0, false⟩

variable {f : Frame} {s s₁ s' : Stack} {line : Line} {w w' : List Line} {a : Nat}

/-- The area has room for the place where a parameter is saved. -/
theorem Room.saved_le (h : f.Room a) {i : Argument} (hi : f.Within (.parameter i)) :
    Word.bytes * i + Word.bytes ≤ a := by
  have hparams := h.parameters
  rw [Within] at hi
  rw [Word.bytes] at *
  omega

/-- The stack pointer is as far below the frame as bytes are reserved. -/
theorem Step.spChange_eq (h : f.Step s line s') : line.spChange = (s.area : Int) - s'.area := by
  have hslot : ∀ {d : Reg} {k : Nat}, d ≠ .sp → (Line.instr (.subImm d .fp k)).spChange = 0 := by
    intro d k hd
    cases d with
    | x n => rfl
    | sp => exact absurd rfl hd
  have hsaved : ∀ {d : Reg} {k : Nat}, d ≠ .sp → (Line.instr (.addImm d .sp k)).spChange = 0 := by
    intro d k hd
    cases d with
    | x n => rfl
    | sp => exact absurd rfl hd
  cases h with
  | plain hi => rw [hi.spChange, Int.sub_self]
  | setFar _ => rw [hslot (by decide), Int.sub_self]
  | slotAddress _ hd => rw [hslot hd.1, Int.sub_self]
  | savedAddress _ hd => rw [hsaved hd.1, Int.sub_self]
  | reserve _ _ => simp [Line.spChange]
  | release => simp [Line.spChange]
  | _ => simp [Line.spChange]

theorem Step.aligned (h : f.Step s line s') (hs : s.Aligned) : s'.Aligned := by
  cases h with
  | reserve ha hle => exact ⟨ha, hle⟩
  | release => exact ⟨Nat.dvd_zero _, Nat.zero_le _⟩
  | _ => exact hs

/-! ### Lines one after the other -/

/-- What the lines of a function's code may do, one after the other. -/
inductive Steps (f : Frame) : Stack → List Line → Stack → Prop
  | nil {s : Stack} : Steps f s [] s
  | cons {s s₁ s' : Stack} {line : Line} {lines : List Line} :
      f.Step s line s₁ → Steps f s₁ lines s' → Steps f s (line :: lines) s'

theorem Step.steps (h : f.Step s line s') : f.Steps s [line] s' := .cons h .nil

theorem Steps.append (h : f.Steps s w s₁) (h' : f.Steps s₁ w' s') : f.Steps s (w ++ w') s' := by
  induction h with
  | nil => exact h'
  | cons hline _ ih => exact .cons hline (ih h')

theorem Steps.split (h : f.Steps s (w ++ w') s') : ∃ s₁, f.Steps s w s₁ ∧ f.Steps s₁ w' s' := by
  induction w generalizing s with
  | nil => exact ⟨s, .nil, h⟩
  | cons line w ih =>
    cases h with
    | cons hline hrest =>
      obtain ⟨s₁, hw, hw'⟩ := ih hrest
      exact ⟨s₁, .cons hline hw, hw'⟩

/-- **Bytes reserved.** What the lines have added to the stack pointer is what they have given back, less
what they have reserved. -/
theorem Steps.spOffset_eq (h : f.Steps s w s') : spOffset w = (s.area : Int) - s'.area := by
  induction h with
  | nil => simp
  | cons hline _ ih =>
    rw [spOffset_cons, hline.spChange_eq, ih]
    omega

theorem Steps.aligned (h : f.Steps s w s') (hs : s.Aligned) : s'.Aligned := by
  induction h with
  | nil => exact hs
  | cons hline _ ih => exact ih (hline.aligned hs)

/-- The register of far addresses was set by the line right before. -/
theorem Steps.eq_setFar (h : f.Steps s w s') (hs : s.far = false) (hs' : s'.far = true) :
    ∃ w₀ k, k < f.slots.length ∧ w = w₀ ++ [.instr (.subImm .far .fp (slotDepth k))] := by
  obtain rfl | ⟨w₀, line, rfl⟩ := List.eq_nil_or_concat w
  · cases h
    rw [hs] at hs'
    cases hs'
  · rw [List.concat_eq_append] at h ⊢
    obtain ⟨s₁, -, hlast⟩ := h.split
    cases hlast with
    | cons hline hnil =>
      cases hnil
      cases hline with
      | @setFar a k hk => exact ⟨w₀, k, hk, rfl⟩
      | _ => cases hs'

/-! ### Straight code -/

/-- Lines that neither define a label nor jump. At their start `a` bytes are reserved, at their end `b`. -/
structure Straight (f : Frame) (a : Nat) (w : List Line) (b : Nat) : Prop where
  steps : f.Steps ⟨a, false⟩ w ⟨b, false⟩
  definitions_eq : definitions w = []
  jumps_eq : jumps w = []

namespace Straight

variable {b c : Nat}

theorem nil : f.Straight a [] a := ⟨.nil, rfl, rfl⟩

theorem append (h : f.Straight a w b) (h' : f.Straight b w' c) : f.Straight a (w ++ w') c where
  steps := h.steps.append h'.steps
  definitions_eq := by rw [Arm64.definitions_append, h.definitions_eq, h'.definitions_eq, List.append_nil]
  jumps_eq := by rw [Arm64.jumps_append, h.jumps_eq, h'.jumps_eq, List.append_nil]

theorem definitions_append (h : f.Straight a w b) (w' : List Line) :
    definitions (w ++ w') = definitions w' := by
  rw [Arm64.definitions_append, h.definitions_eq, List.nil_append]

theorem jumps_append (h : f.Straight a w b) (w' : List Line) : jumps (w ++ w') = jumps w' := by
  rw [Arm64.jumps_append, h.jumps_eq, List.nil_append]

theorem single {i : Instr} (h : f.Step ⟨a, false⟩ (.instr i) ⟨b, false⟩)
    (hjump : (Line.instr i).jump? = none) : f.Straight a [.instr i] b where
  steps := h.steps
  definitions_eq := rfl
  jumps_eq := by rw [jumps, List.filterMap_cons_none hjump, List.filterMap_nil]

theorem plain {i : Instr} (h : i.Plain) : f.Straight a [.instr i] a := single (.plain h) h.jump?

theorem instrs {is : List Instr} (h : ∀ i ∈ is, f.Straight a [.instr i] a) :
    f.Straight a (is.map .instr) a := by
  induction is with
  | nil => exact nil
  | cons i is ih =>
    exact (h i (List.mem_cons_self ..)).append (ih fun j hj => h j (List.mem_cons_of_mem _ hj))

/-- Reading a slot, near or far. -/
theorem slotLoad {k : Nat} {d : Reg} (hk : k < f.slots.length) (hd : d.Ordinary) :
    f.Straight a ((slotAccess (.load d) k).map .instr) a := by
  rw [slotAccess]
  split
  · exact single (.loadNear hk ‹_› hd) rfl
  · exact ⟨.cons (.setFar hk) (Step.loadFar hd).steps, rfl, rfl⟩

/-- Writing a slot, near or far. -/
theorem slotStore {k : Nat} {s : Reg} (hk : k < f.slots.length) (hs : s.Ordinary) :
    f.Straight a ((slotAccess (.store s) k).map .instr) a := by
  rw [slotAccess]
  split
  · exact single (.storeNear hk ‹_› hs) rfl
  · exact ⟨.cons (.setFar hk) (Step.storeFar hs).steps, rfl, rfl⟩

/-- Putting a constant into a register. -/
theorem constant {d : Reg} (hd : d.Ordinary) (value : Int64) :
    f.Straight a ((immediate d value).map .instr) a := by
  have hplain : ∀ {i : Instr}, i.registers = [d] → i.Plain := by
    intro i hi
    rw [Instr.Plain, hi]
    exact ⟨List.cons_ne_nil _ _, fun r hr => List.mem_singleton.1 hr ▸ hd⟩
  refine instrs fun i hi => plain ?_
  rw [immediate] at hi
  split at hi
  · obtain rfl := List.mem_singleton.1 hi
    exact hplain rfl
  · rcases List.mem_cons.1 hi with rfl | hi
    · exact hplain rfl
    · obtain ⟨shift, -, rfl⟩ := List.mem_map.1 hi
      exact hplain rfl

/-- Putting the address of a symbol into a register. -/
theorem address {d : Reg} (hd : d.Ordinary) (s : Symbol) :
    f.Straight a ([Instr.page d s, .addPageOffset d d s].map .instr) a := by
  refine instrs fun i hi => plain ?_
  have hregs : ∀ r ∈ i.registers, r = d := by
    rcases List.mem_pair.1 hi with rfl | rfl <;> simp [Instr.registers]
  refine ⟨?_, fun r hr => hregs r hr ▸ hd⟩
  rcases List.mem_pair.1 hi with rfl | rfl <;> simp [Instr.registers]

/-- The parameters are saved in an area with room for them. -/
theorem save {is : List Argument} (h : ∀ i ∈ is, Word.bytes * i.val + Word.bytes ≤ a) :
    f.Straight a ((is.map fun i => Instr.store i.reg (.displaced .sp i.saved)).map .instr) a := by
  refine instrs fun instr hinstr => ?_
  obtain ⟨i, hi, rfl⟩ := List.mem_map.1 hinstr
  exact single (.storeSaved (h i hi) i.ordinary_reg) rfl

/-- The parameters are restored. -/
theorem restore {is : List Argument} (h : ∀ i ∈ is, Word.bytes * i.val + Word.bytes ≤ a) :
    f.Straight a ((is.map fun i => Instr.load i.reg (.displaced .sp i.saved)).map .instr) a := by
  refine instrs fun instr hinstr => ?_
  obtain ⟨i, hi, rfl⟩ := List.mem_map.1 hinstr
  exact single (.loadSaved (h i hi) i.ordinary_reg) rfl

end Straight

end Frame

end Spillway.Arm64
