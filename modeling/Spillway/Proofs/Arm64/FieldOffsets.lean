import Spillway.Proofs.Arm64.Acts
import Spillway.Proofs.Program.Built

/-!
# Displacements of fields

A field of a struct is read and written by an instruction that names its displacement, eight times the
number of the field. A load or a store can name a multiple of eight up to 32760. The displacement is
written without regard to that: only where it does not fit a signed word is code generation stopped.

* `Nameable` — the displacements that a load or a store can name.
* `Linear.fits_fieldOffset_iff` — the fields at which generation is not stopped.
* `field_offsets_emitted` — the displacements in assembly that is generated.
-/

namespace Spillway

namespace Linear

/-- The field that an instruction reads or writes, by its number. -/
def Instr.field? : Instr → Option Nat
  | .loadField _ _ _ index | .storeField _ _ _ index => some index
  | _ => none

section Words

variable {index : Nat}

theorem toInt_ofNat_of_low (h : 2 * index < UInt64.size) : (Int64.ofNat index).toInt = index := by
  have hsize : UInt64.size = 18446744073709551616 := rfl
  exact Int64.toInt_ofNat_of_lt (by omega)

theorem toInt_ofNat_of_high (h : UInt64.size ≤ 2 * index) (hindex : index < UInt64.size) :
    (Int64.ofNat index).toInt = index - UInt64.size := by
  have hsize : UInt64.size = 18446744073709551616 := rfl
  have hword : Int64.size = 18446744073709551616 := rfl
  rw [Int64.toInt_ofNat', hword, Int.bmod_def]
  split <;> omega

/-- A small field number is multiplied as it is. -/
theorem fieldOffset_of_low (h : 2 * index < UInt64.size) : fieldOffset index = 8 * index := by
  rw [fieldOffset, toInt_ofNat_of_low h, Word.bytes]
  omega

/-- A large one stands for a negative number. -/
theorem fieldOffset_of_high (h : UInt64.size ≤ 2 * index) (hindex : index < UInt64.size) :
    fieldOffset index = 8 * (index - UInt64.size) := by
  rw [fieldOffset, toInt_ofNat_of_high h hindex, Word.bytes]
  omega

/-- The displacement fits a signed word for the first and the last sixteenth of the field numbers. -/
theorem fits_fieldOffset_iff (hindex : index < UInt64.size) :
    Word.Fits (fieldOffset index) ↔ 16 * index < UInt64.size ∨ 15 * UInt64.size ≤ 16 * index := by
  have hsize : UInt64.size = 18446744073709551616 := rfl
  have hmin : Int64.minValue.toInt = -9223372036854775808 := rfl
  have hmax : Int64.maxValue.toInt = 9223372036854775807 := rfl
  rw [Word.Fits, hmin, hmax]
  by_cases h : 2 * index < UInt64.size
  · rw [fieldOffset_of_low h]
    omega
  · rw [fieldOffset_of_high (Nat.not_lt.1 h) hindex]
    omega

end Words

end Linear

namespace Arm64

open Linear (Fragment fieldOffset)

/-- The displacements that a load or a store of a word can name: twelve bits, counted in words. -/
def Nameable (offset : Int) : Prop := 0 ≤ offset ∧ offset ≤ 32760 ∧ 8 ∣ offset

instance (offset : Int) : Decidable (Nameable offset) := inferInstanceAs (Decidable (_ ∧ _ ∧ _))

/-- The displacements of the first 4096 fields can be named, and no others. -/
theorem nameable_fieldOffset_iff {index : Nat} (hindex : index < UInt64.size) :
    Nameable (fieldOffset index) ↔ index ≤ 4095 := by
  have hsize : UInt64.size = 18446744073709551616 := rfl
  rw [Nameable]
  by_cases h : 2 * index < UInt64.size
  · rw [Linear.fieldOffset_of_low h]
    omega
  · rw [Linear.fieldOffset_of_high (Nat.not_lt.1 h) hindex]
    omega

/-- The displacement that an act names. -/
def Act.offset? : Act → Option Int
  | .load offset | .store offset => some offset
  | .call _ => none

/-- The act of an instruction that reads or writes a field names the displacement of the field. -/
theorem offset?_of_field? {i : Linear.Instr} {index : Nat} (h : i.field? = some index) :
    i.act?.bind Act.offset? = some (fieldOffset index) := by
  cases i with
  | loadField target base x k | storeField value base x k =>
    cases h
    rfl
  | _ => cases h

theorem word?_of_field? {i : Linear.Instr} {index : Nat} (h : i.field? = some index) :
    i.word? = some index := by
  cases i with
  | loadField target base x k | storeField value base x k => exact h
  | _ => cases h

/-- **Displacements.** In assembly that is generated the code of every instruction stands in its place, and the code
of one that reads or writes a field has one access through a pointer, at the displacement of the field. For the
first sixteenth of the field numbers that is eight times the number. For the last sixteenth it is negative: the
number wraps around. The access can name it exactly if the number is at most 4095; whether it can is not
checked. -/
theorem field_offsets_emitted {fragments : List Fragment} {symbols : SymbolTable} {g g' : Generator}
    {lines : List Line} {w : List Notice} (h : (generate fragments symbols).run g = ⟨.ok lines, g', w⟩) :
    ∃ globals functions blocks, fragments = globals :: functions ∧
      lines = header globals ++ blocks.flatten ++ g'.formats.lines ∧ List.Forall₂ Cut functions blocks ∧
      ∀ frag ∈ functions, ∀ i ∈ frag.body, ∀ index, i.field? = some index → index < UInt64.size →
        i.act?.bind Act.offset? = some (fieldOffset index) ∧
        (16 * index < UInt64.size ∧ fieldOffset index = 8 * index ∨
          15 * UInt64.size ≤ 16 * index ∧ fieldOffset index = 8 * (index - UInt64.size)) ∧
        (Nameable (fieldOffset index) ↔ index ≤ 4095) := by
  obtain ⟨globals, functions, blocks, rfl, -, hchain, rfl⟩ := generate_ok_iff.1 ⟨w, h⟩
  refine ⟨globals, functions, blocks, rfl, rfl, hchain.forall₂ fun hblock => hblock.cut, ?_⟩
  intro frag hfrag i hi index hindex hlt
  refine ⟨offset?_of_field? hindex, ?_, nameable_fieldOffset_iff hlt⟩
  obtain ⟨_, _, _, hblock⟩ := hchain.exists_of_mem frag hfrag
  have hfits := hblock.fits hi (word?_of_field? hindex)
  obtain hlow | hhigh := (Linear.fits_fieldOffset_iff hlt).1 hfits
  · exact .inl ⟨hlow, Linear.fieldOffset_of_low (by omega)⟩
  · exact .inr ⟨hhigh, Linear.fieldOffset_of_high (by omega) hlt⟩

/-- A function that reads the last field that can be named and writes the one after it. -/
def lastFields : Fragment := ⟨"sum", [.loadField ⟨5⟩ ⟨0⟩ "last" 4095, .storeField ⟨5⟩ ⟨0⟩ "next" 4096]⟩

theorem field_offsets_emitted_lastFields :
    ∃ lines g w, (generate [⟨Fragment.globalsLabel, []⟩, lastFields] Draft.sumDown.program.symbols).run {}
        = ⟨.ok lines, g, w⟩ ∧
      .instr (.load (.x 1) (.displaced (.x 0) 32760)) ∈ lines ∧
      .instr (.store (.x 1) (.displaced (.x 0) 32768)) ∈ lines ∧
      Nameable (fieldOffset 4095) ∧ ¬ Nameable (fieldOffset 4096) := by
  have hview : ((generate [⟨Fragment.globalsLabel, []⟩, lastFields] Draft.sumDown.program.symbols).eval {}
      ).toOption.map (fun lines => (decide (.instr (.load (.x 1) (.displaced (.x 0) 32760)) ∈ lines),
        decide (.instr (.store (.x 1) (.displaced (.x 0) 32768)) ∈ lines))) = some (true, true) := by
    decide +kernel
  obtain ⟨lines, g, w, hrun, hlines⟩ := Journal.run_ok_of_view hview
  obtain ⟨hload, hstore⟩ := Prod.mk.inj hlines
  obtain ⟨globals, functions, blocks, hfragments, -, -, hoffsets⟩ := field_offsets_emitted hrun
  cases hfragments
  have hlast := hoffsets lastFields (List.mem_singleton_self _) _ (List.mem_cons_self ..) 4095 rfl (by decide)
  have hnext := hoffsets lastFields (List.mem_singleton_self _) _
    (List.mem_cons_of_mem _ (List.mem_singleton_self _)) 4096 rfl (by decide)
  exact ⟨lines, g, w, hrun, of_decide_eq_true hload, of_decide_eq_true hstore, hlast.2.2.2 (by decide),
    fun hnameable => absurd (hnext.2.2.1 hnameable) (by decide)⟩

/-- A function that reads a field whose displacement cannot be named, and writes one whose number wraps around. -/
def farFields : Fragment :=
  ⟨"sum", [.loadField ⟨5⟩ ⟨0⟩ "far" 4096, .storeField ⟨5⟩ ⟨0⟩ "wrapped" 18446744073709551615]⟩

/-- Neither is rejected. The first displacement is too large, and the second is not eight times the number. -/
theorem field_offset_unchecked :
    ∃ lines g w, (generate [⟨Fragment.globalsLabel, []⟩, farFields] Draft.sumDown.program.symbols).run {}
        = ⟨.ok lines, g, w⟩ ∧
      .instr (.load (.x 1) (.displaced (.x 0) 32768)) ∈ lines ∧
      .instr (.store (.x 1) (.displaced (.x 0) (-8))) ∈ lines ∧
      ¬ Nameable 32768 ∧ ¬ Nameable (-8) ∧ (-8 : Int) ≠ 8 * 18446744073709551615 := by
  have hview : ((generate [⟨Fragment.globalsLabel, []⟩, farFields] Draft.sumDown.program.symbols).eval {}
      ).toOption.map (fun lines => (decide (.instr (.load (.x 1) (.displaced (.x 0) 32768)) ∈ lines),
        decide (.instr (.store (.x 1) (.displaced (.x 0) (-8))) ∈ lines))) = some (true, true) := by
    decide +kernel
  obtain ⟨lines, g, w, hrun, hlines⟩ := Journal.run_ok_of_view hview
  obtain ⟨hload, hstore⟩ := Prod.mk.inj hlines
  exact ⟨lines, g, w, hrun, of_decide_eq_true hload, of_decide_eq_true hstore, by decide, by decide, by decide⟩

end Arm64

end Spillway
