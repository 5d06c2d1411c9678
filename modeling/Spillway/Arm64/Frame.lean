import Spillway.Arm64.Register
import Spillway.Distinct
import Spillway.Linear.Fragment
import Spillway.Word

/-!
# Stack frames

Every virtual register has one home for the whole function. A parameter stays in its argument register.
Every other register that the function writes gets a slot of one word below the frame pointer, in the
order of first appearance. The frame is as large as its slots, rounded up to the alignment.
-/

namespace Spillway.Arm64

open Linear (Fragment)

/-- Where a virtual register lives. -/
inductive Location where
  /-- The slot with this number, counted from zero downwards from the frame pointer. -/
  | slot (index : Nat)
  | parameter (i : Argument)
  deriving DecidableEq, Repr

/-- How far slot `index` is below the frame pointer, in bytes. -/
def slotDepth (index : Nat) : Nat := Word.bytes * (index + 1)

/-- The displacement of slot `index` from the frame pointer. -/
def slotOffset (index : Nat) : Int := -slotDepth index

/-- The homes of a function's virtual registers. -/
structure Frame where
  /-- The registers of the parameters, in order. -/
  parameters : List VReg
  /-- The registers that have a slot, in order. -/
  slots : List VReg
  deriving DecidableEq, Repr

namespace Frame

/-- A frame while the code is gone through: the registers that have a slot, and the offset of the last
slot. -/
structure Pass where
  placed : Distinct VReg := {}
  offset : Int := 0

namespace Pass

/-- A register that is written gets the next slot, unless it has a home. -/
def place (parameters : List VReg) (p : Pass) (target : VReg) : Pass :=
  if target ∈ parameters ∨ p.placed.seen.contains target.id then p
  else ⟨p.placed.add VReg.id target, p.offset - Word.bytes⟩

/-- Goes through the code of a function. -/
def scan (body : List Linear.Instr) (parameters : List VReg) : Pass :=
  (Fragment.targets body).foldl (place parameters) {}

/-- The size of the frame as an offset: that of the last slot, rounded. -/
def size (p : Pass) : Except Trap Int64 := Word.alignFrame (Int64.ofInt p.offset)

end Pass

/-- The frame of a function with this body and these parameters. -/
def spill (body : List Linear.Instr) (parameters : List VReg) : Frame where
  parameters
  slots := (Pass.scan body parameters).placed.kept.toList

/-- The bytes reserved below the frame pointer. -/
def bytes (f : Frame) : Nat := Word.areaBytes f.slots.length

/-- The size as an offset from the frame pointer. -/
def size (f : Frame) : Int := -f.bytes

/-- The frame of the named function, if it is within the limits of the target. -/
def checked (f : Frame) (function : String) : Except Limit Frame :=
  if Limit.maxArguments < f.parameters.length then
    .error (.tooManyParameters function f.parameters.length)
  else if Limit.maxFrameBytes < f.bytes then
    .error (.frameTooLarge function f.bytes)
  else .ok f

/-- Lays out the frame of a function within the limits of the target. -/
def layout (function : String) (body : List Linear.Instr) (parameters : List VReg) :
    Except Limit Frame :=
  (spill body parameters).checked function

/-- The pass keeps the registers that are not parameters, each at its first place. -/
theorem Pass.placed_foldl (parameters targets : List VReg) (p : Pass) :
    (targets.foldl (place parameters) p).placed
      = (targets.filter (· ∉ parameters)).foldl (Distinct.add VReg.id) p.placed := by
  induction targets generalizing p with
  | nil => rfl
  | cons target targets ih =>
    rw [List.foldl_cons, ih]
    by_cases hparameter : target ∈ parameters
    · simp [place, hparameter]
    · by_cases hseen : p.placed.seen.contains target.id = true
      · simp [place, hparameter, hseen, Distinct.add]
      · simp [place, hparameter, hseen]

theorem slots_spill (body : List Linear.Instr) (parameters : List VReg) :
    (spill body parameters).slots
      = ((Fragment.targets body).filter (· ∉ parameters)).eraseDups := by
  rw [spill, Pass.scan, Pass.placed_foldl]
  exact distinctBy_eq_eraseDups (fun _ _ h => VReg.ext h) _

/-- The argument registers that hold parameters. -/
def parameterRegs (f : Frame) : List Argument := Argument.all.take f.parameters.length

/-- The argument register of a parameter; of several with one virtual register the last counts. -/
def parameter? (f : Frame) (r : VReg) : Option Argument :=
  ((Argument.all.zip f.parameters).reverse.find? (·.2 = r)).map (·.1)

/-- Where a virtual register lives. -/
def location? (f : Frame) (r : VReg) : Option Location :=
  match f.parameter? r with
  | some i => some (.parameter i)
  | none => (f.slots.idxOf? r).map .slot

/-- Where a virtual register lives; one that lives nowhere is a defect. -/
def locate (f : Frame) (r : VReg) : Except Defect Location :=
  match f.location? r with
  | some l => .ok l
  | none => .error (.unlocated r)

end Frame

end Spillway.Arm64
