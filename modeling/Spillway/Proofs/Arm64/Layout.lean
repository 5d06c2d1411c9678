import Mathlib.Order.Bounds.Basic
import Spillway.Proofs.Arm64.Limits
import Spillway.Proofs.Arm64.Undefined
import Spillway.Proofs.Word

/-!
# The layout of frames

A frame is laid out in one pass over the code. A parameter keeps the argument register of the last place at which it
is listed. A register that the code writes has a slot, unless it is a parameter; the slots are numbered in the order in
which their registers first appear.

* `Frame.spilled` — the registers that need slots, as the code writes them.
* `Frame.Exact` — where registers live and how large the frame is.
* `Frame.layout_exact` — when the layout fails, and what it is if it does not.
-/

namespace Spillway.Arm64

open Linear (Fragment)

namespace Frame

/-- The registers that code writes, those of parameters left out, each as often as it is written. -/
def spilled (body : List Linear.Instr) (parameters : List VReg) : List VReg :=
  (Fragment.targets body).filter (· ∉ parameters)

/-- How many registers need a slot. -/
def slotCount (body : List Linear.Instr) (parameters : List VReg) : Nat := (spilled body parameters).toFinset.card

/-- The frame of this code with these parameters: where registers live, and how large it is. -/
structure Exact (f : Frame) (body : List Linear.Instr) (parameters : List VReg) : Prop where
  /-- A parameter lives in the argument register of its last place. -/
  parameter : ∀ {r : VReg} {i : Argument}, f.location? r = some (.parameter i) ↔
    parameters[i.val]? = some r ∧ ∀ j, i.val < j → parameters[j]? ≠ some r
  /-- Any other register that is written has the slot after those of the registers that appear before it. -/
  slot : ∀ {r : VReg} {j : Nat}, f.location? r = some (.slot j) ↔
    ∃ before after, spilled body parameters = before ++ r :: after ∧ r ∉ before ∧ j = before.toFinset.card
  offset : ∀ j : Nat, slotOffset j = -(8 * (j + 1))
  unplaced : ∀ {r : VReg}, f.location? r = none ↔ r ∉ parameters ∧ r ∉ Fragment.targets body
  count : f.slots.length = slotCount body parameters
  size : IsGreatest { m : Int | 16 ∣ m ∧ m ≤ -(8 * slotCount body parameters) } f.size
  /-- The size is the offset of the last slot, rounded. -/
  rounded : Word.alignFrame (Int64.ofInt (-(8 * slotCount body parameters))) = .ok (Int64.ofInt f.size)
  /-- It is what the pass over the code computes, which counts the offset down from slot to slot. -/
  running : (Pass.scan body parameters).offset = -(8 * slotCount body parameters) ∧
    (Pass.scan body parameters).size = .ok (Int64.ofInt f.size)
  bytes : (f.bytes : Int) = -f.size ∧ 8 * slotCount body parameters ≤ f.bytes ∧
    f.bytes ≤ 8 * slotCount body parameters + 8
  masked : Word.roundUp (Int64.ofNat (8 * slotCount body parameters)) = Int64.ofNat f.bytes

variable {f : Frame} {r : VReg} {i : Argument} {body : List Linear.Instr} {parameters : List VReg}

/-! ### Parameters -/

/-- Of several places at which a parameter is listed the last counts. -/
theorem getElem?_ne_of_parameter? (hf : f.Bounded) (h : f.parameter? r = some i) {j : Nat} (hij : i.val < j) :
    f.parameters[j]? ≠ some r := by
  intro hj
  obtain ⟨⟨i', r'⟩, hfind, rfl⟩ := Option.map_eq_some_iff.1 h
  obtain ⟨-, later, sooner, hsplit, hlater⟩ := List.find?_eq_some_iff_append.1 hfind
  have hzip : Argument.all.zip f.parameters = sooner.reverse ++ (i', r') :: later.reverse := by
    rw [← List.reverse_reverse (Argument.all.zip f.parameters), hsplit]
    simp
  -- The pair that is found stands in the place that it names, and the one of place `j` stands after it.
  have hplace : i'.val = sooner.length := by
    have hget : (Argument.all.zip f.parameters)[sooner.length]? = some (i', r') := by
      rw [hzip, List.getElem?_append_right (by simp)]
      simp
    obtain ⟨_, rfl⟩ := List.getElem?_eq_some_iff.1 (List.getElem?_zip_eq_some.1 hget).1
    simp [Argument.all]
  have hlt : j < f.parameters.length := (List.getElem?_eq_some_iff.1 hj).1
  have hbound : j < Limit.maxArguments := Nat.lt_of_lt_of_le hlt hf.parameters
  have hmem : (⟨j, hbound⟩, r) ∈ later.reverse := by
    have hget : (Argument.all.zip f.parameters)[j]? = some (⟨j, hbound⟩, r) := by
      refine List.getElem?_zip_eq_some.2 ⟨?_, hj⟩
      simp [Argument.all, hbound]
    have hafter : j - sooner.length = (j - sooner.length - 1) + 1 := by
      have hij' : i'.val < j := hij
      omega
    rw [hzip, List.getElem?_append_right (by rw [List.length_reverse]; omega), List.length_reverse, hafter,
      List.getElem?_cons_succ] at hget
    exact List.mem_of_getElem? hget
  have hnot := hlater _ (List.mem_reverse.1 hmem)
  simp at hnot

theorem parameter?_eq_some_iff (hf : f.Bounded) :
    f.parameter? r = some i ↔ f.parameters[i.val]? = some r ∧ ∀ j, i.val < j → f.parameters[j]? ≠ some r := by
  constructor
  · intro h
    exact ⟨getElem?_of_parameter? h, fun j => getElem?_ne_of_parameter? hf h⟩
  · rintro ⟨hget, hlast⟩
    obtain ⟨i', hi'⟩ := exists_parameter? hf (List.mem_of_getElem? hget)
    have hle : ¬ i.val < i'.val := fun hlt => hlast i' hlt (getElem?_of_parameter? hi')
    have hge : ¬ i'.val < i.val := fun hlt => getElem?_ne_of_parameter? hf hi' hlt hget
    rw [hi', Fin.ext (by omega : i'.val = i.val)]

theorem parameter?_eq_none_iff (hf : f.Bounded) : f.parameter? r = none ↔ r ∉ f.parameters := by
  constructor
  · intro h hr
    obtain ⟨i, hi⟩ := exists_parameter? hf hr
    rw [h] at hi
    cases hi
  · intro hr
    cases h : f.parameter? r with
    | none => rfl
    | some i => exact absurd (List.mem_of_getElem? (getElem?_of_parameter? h)) hr

/-! ### Slots -/

theorem mem_spilled : r ∈ spilled body parameters ↔ r ∈ Fragment.targets body ∧ r ∉ parameters := by
  rw [spilled, List.mem_filter, decide_eq_true_iff]

theorem location?_eq_slot_iff {j : Nat} :
    f.location? r = some (.slot j) ↔ f.parameter? r = none ∧ f.slots.idxOf? r = some j := by
  rw [location?]
  cases f.parameter? r with
  | some i => simp
  | none => simp

/-- Slots are numbered in the order of first appearance. -/
theorem idxOf?_slots_spill {j : Nat} : (spill body parameters).slots.idxOf? r = some j ↔
    ∃ before after, spilled body parameters = before ++ r :: after ∧ r ∉ before ∧ j = before.toFinset.card := by
  rw [slots_spill, ← spilled]
  constructor
  · intro h
    have hmem : r ∈ spilled body parameters := by
      rw [← List.mem_eraseDups, ← Decidable.not_not (p := r ∈ _), ← List.idxOf?_eq_none_iff, h]
      simp
    obtain ⟨before, after, hsplit, hnot⟩ := List.eq_append_cons_of_mem hmem
    rw [hsplit, idxOf?_eraseDups hnot] at h
    exact ⟨before, after, hsplit, hnot, (Option.some.inj h).symm⟩
  · rintro ⟨before, after, hsplit, hnot, rfl⟩
    rw [hsplit, idxOf?_eraseDups hnot]

/-! ### Sizes -/

theorem isGreatest_alignDown (n : Int) : IsGreatest { m : Int | 16 ∣ m ∧ m ≤ n } (Word.alignDown n) := by
  refine ⟨⟨Word.alignment_dvd_alignDown n, Word.alignDown_le n⟩, ?_⟩
  rintro m ⟨hdvd, hle⟩
  have hlt := Word.lt_alignDown_add n
  have hdvd' := Word.alignment_dvd_alignDown n
  rw [Word.alignment] at hlt hdvd'
  omega

theorem isLeast_bytes (f : Frame) : IsLeast { m : Nat | 16 ∣ m ∧ 8 * f.slots.length ≤ m } f.bytes := by
  rw [bytes, Word.areaBytes, Word.alignment]
  refine ⟨⟨Nat.dvd_mul_left .., by omega⟩, ?_⟩
  rintro m ⟨hdvd, hle⟩
  omega

theorem maxFrameBytes_lt_iff (f : Frame) : Limit.maxFrameBytes < f.bytes ↔ 510 < f.slots.length := by
  rw [bytes, Word.areaBytes, Word.alignment, Limit.maxFrameBytes]
  omega

theorem size_eq_alignDown (f : Frame) : f.size = Word.alignDown (-(8 * f.slots.length)) := by
  rw [size, bytes, Word.areaBytes_eq, Int.neg_neg, Word.bytes]
  rfl

/-- The offset of the last of a bounded number of slots is rounded without overflow. -/
theorem alignFrame_ofInt {k : Nat} (hk : k ≤ 510) :
    Word.alignFrame (Int64.ofInt (-(8 * k))) = .ok (Int64.ofInt (Word.alignDown (-(8 * k)))) := by
  have hoffset : (Int64.ofInt (-(8 * k))).toInt = -(8 * k : Int) := by
    apply Int64.toInt_ofInt_of_le <;> omega
  have hneg : Word.Fits (- -(8 * k : Int)) := by
    rw [Word.Fits, Int64.toInt_minValue, Int64.toInt_maxValue]
    omega
  have hadd : Word.Fits (- -(8 * k : Int) + 15) := by
    rw [Word.Fits, Int64.toInt_minValue, Int64.toInt_maxValue]
    omega
  rw [Word.alignFrame_eq, hoffset, if_neg (not_not.2 hneg), if_neg (not_not.2 hadd)]

theorem roundUp_slots {k : Nat} (hk : k ≤ 510) :
    Word.roundUp (Int64.ofNat (8 * k)) = Int64.ofNat (Word.areaBytes k) := by
  apply Word.roundUp_bytes
  rw [Word.Fits, Int64.toInt_minValue, Int64.toInt_maxValue, Word.bytes]
  omega

/-- Each slot moves the running offset by a word. -/
theorem Pass.offset_foldl (parameters targets : List VReg) {p : Pass} (hp : p.offset = -(8 * p.placed.kept.size)) :
    (targets.foldl (place parameters) p).offset
      = -(8 * (targets.foldl (place parameters) p).placed.kept.size) := by
  induction targets generalizing p with
  | nil => exact hp
  | cons target targets ih =>
    apply ih
    unfold place
    split
    · exact hp
    case isFalse hnew =>
      have hkept : (p.placed.add VReg.id target).kept = p.placed.kept.push target := by
        rw [Distinct.add, if_neg fun hseen => hnew (.inr hseen)]
      rw [hkept, Array.size_push, Word.bytes]
      dsimp only
      omega

/-! ### The whole layout -/

theorem slotCount_eq (body : List Linear.Instr) (parameters : List VReg) :
    (spill body parameters).slots.length = slotCount body parameters :=
  length_slots_spill body parameters

theorem exact_of_layout {name : String} (h : layout name body parameters = .ok f) : f.Exact body parameters := by
  have hunplaced {r : VReg} := location?_eq_none_iff (r := r) h
  obtain ⟨rfl, hbounded⟩ := bounded_of_layout h
  have hcount := slotCount_eq body parameters
  have hsize := size_eq_alignDown (spill body parameters)
  rw [hcount] at hsize
  constructor
  case parameter =>
    intro r i
    refine Iff.trans ⟨parameter?_of_location?, fun hi => ?_⟩ (parameter?_eq_some_iff hbounded)
    rw [location?, hi]
  case slot =>
    intro r j
    rw [location?_eq_slot_iff, idxOf?_slots_spill]
    refine and_iff_right_of_imp ?_
    rintro ⟨before, after, hsplit, -, -⟩
    have hmem : r ∈ spilled body parameters := by simp [hsplit]
    exact (parameter?_eq_none_iff hbounded).2 (mem_spilled.1 hmem).2
  case offset =>
    intro j
    rw [slotOffset, slotDepth, Word.bytes]
    push_cast
    rfl
  case unplaced =>
    intro r
    rw [hunplaced, Fragment.Defines, not_or, Fragment.targets, List.mem_filterMap]
  case count => exact hcount
  case size =>
    rw [hsize]
    exact isGreatest_alignDown _
  case rounded =>
    rw [hsize]
    exact alignFrame_ofInt (hcount ▸ hbounded.slots)
  case running =>
    have hrunning : (Pass.scan body parameters).offset = -(8 * slotCount body parameters) := by
      rw [Pass.scan, Pass.offset_foldl _ _ rfl, ← Pass.scan, ← Array.length_toList, ← hcount]
      rfl
    refine ⟨hrunning, ?_⟩
    rw [Pass.size, hrunning, hsize]
    exact alignFrame_ofInt (hcount ▸ hbounded.slots)
  case bytes =>
    refine ⟨by rw [size, Int.neg_neg], ?_⟩
    rw [bytes, Word.areaBytes, Word.alignment, hcount]
    omega
  case masked =>
    rw [bytes, hcount]
    exact roundUp_slots (hcount ▸ hbounded.slots)

theorem layout_eq (function : String) (body : List Linear.Instr) (parameters : List VReg) :
    layout function body parameters =
      if 8 < parameters.length then .error (.tooManyParameters function parameters.length)
      else if 510 < slotCount body parameters then .error (.frameTooLarge function (spill body parameters).bytes)
      else .ok (spill body parameters) := by
  simp only [layout, checked, maxFrameBytes_lt_iff, slotCount_eq]
  rfl

/-- **Frames are laid out exactly.** The layout fails for too many parameters, and otherwise for a frame that is too
large, which it reports with its size; if it does not fail, the frame is exact. -/
theorem layout_exact (function : String) (body : List Linear.Instr) (parameters : List VReg) :
    (∀ name count, layout function body parameters = .error (.tooManyParameters name count) ↔
      8 < parameters.length ∧ name = function ∧ count = parameters.length) ∧
    (∀ name size, layout function body parameters = .error (.frameTooLarge name size) ↔
      parameters.length ≤ 8 ∧ 510 < slotCount body parameters ∧ name = function ∧
        IsLeast { m : Nat | 16 ∣ m ∧ 8 * slotCount body parameters ≤ m } size) ∧
    ((∃ f, layout function body parameters = .ok f) ↔
      parameters.length ≤ 8 ∧ slotCount body parameters ≤ 510) ∧
    ∀ f, layout function body parameters = .ok f → f.Exact body parameters := by
  have hleast := isLeast_bytes (spill body parameters)
  rw [slotCount_eq] at hleast
  refine ⟨fun name count => ?_, fun name size => ?_, ?_, fun f => exact_of_layout⟩
  · rw [layout_eq]
    split_ifs with hmany hlarge
    · simp only [Except.error.injEq, Limit.tooManyParameters.injEq]
      grind
    · simp [hmany]
    · simp [hmany]
  · rw [layout_eq]
    split_ifs with hmany hlarge
    · simp [hmany]
    · simp only [Except.error.injEq, Limit.frameTooLarge.injEq]
      constructor
      · rintro ⟨rfl, rfl⟩
        exact ⟨Nat.not_lt.1 hmany, hlarge, rfl, hleast⟩
      · rintro ⟨-, -, rfl, hsize⟩
        exact ⟨rfl, hleast.unique hsize⟩
    · simp [hlarge]
  · rw [layout_eq]
    split_ifs with hmany hlarge
    · simp [hmany]
    · simp [hlarge]
    · exact ⟨fun _ => ⟨Nat.not_lt.1 hmany, Nat.not_lt.1 hlarge⟩, fun _ => ⟨_, rfl⟩⟩

-- Register 0 is listed twice and stays in the last of its argument registers, although it is written.
example : (layout "f" [.free ⟨1⟩, .not ⟨5⟩ ⟨1⟩, .not ⟨0⟩ ⟨5⟩, .not ⟨3⟩ ⟨1⟩, .not ⟨5⟩ ⟨3⟩] [⟨0⟩, ⟨1⟩, ⟨0⟩]).map
      (fun f => (List.map f.location? [⟨0⟩, ⟨1⟩, ⟨5⟩, ⟨3⟩, ⟨2⟩], f.size))
    = .ok ([some (.parameter ⟨2, by decide⟩), some (.parameter ⟨1, by decide⟩), some (.slot 0), some (.slot 1),
      none], -16) := by
  rfl

end Frame

end Spillway.Arm64
