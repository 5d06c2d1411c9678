import Mathlib.Data.Set.Basic
import Spillway.Linear.Instr

/-!
# Control flow of linear code

The paths that control may take through some code, whatever the conditions of its branches turn out to
be. Code is grounded if, read from its start to its end, every instruction reads only registers that were
written before it. At a label control may come from elsewhere, so nothing is counted as written there but
a fixed set of registers, which therefore has to be written wherever control may leave for a label.

* `Path` — how control comes to a position.
* `Grounded.append` — grounded code one after the other.
* `Path.written` — along every path through grounded code a register is written before it is read.
-/

namespace Spillway.Linear

/-! ### Paths -/

/-- The register that an instruction writes whenever it is executed. -/
def Instr.writes? : Instr → Option VReg
  | .mov _ _ (.on _) => none
  | i => i.target?

/-- Whether control may go from an instruction at position `i` to position `j`. -/
def Instr.LeadsTo (body : List Instr) (i j : Nat) : Instr → Prop
  | .branch .always l => ∃ m, body[j]? = some (.label m) ∧ m.text = l.text
  | .branch (.on _) l => j = i + 1 ∨ ∃ m, body[j]? = some (.label m) ∧ m.text = l.text
  | .ret _ => False
  | _ => j = i + 1

/-- Control has come from the first instruction to a position, through the positions in the list. -/
inductive Path (body : List Instr) : List Nat → Nat → Prop
  | start : Path body [] 0
  | step {visited : List Nat} {i j : Nat} {instr : Instr} :
      Path body visited i → body[i]? = some instr → instr.LeadsTo body i j →
      Path body (visited ++ [i]) j

/-- A register is written at one of these positions. -/
def WrittenAt (body : List Instr) (visited : List Nat) (r : VReg) : Prop :=
  ∃ k ∈ visited, ∃ instr, body[k]? = some instr ∧ instr.writes? = some r

theorem WrittenAt.mono {body : List Instr} {visited : List Nat} {r : VReg}
    (h : WrittenAt body visited r) (i : Nat) : WrittenAt body (visited ++ [i]) r := by
  obtain ⟨k, hk, hwritten⟩ := h
  exact ⟨k, List.mem_append_left _ hk, hwritten⟩

/-! ### Grounded code -/

/-- The registers that count as written after an instruction. -/
def Instr.passed (V A : Set VReg) : Instr → Set VReg
  | .label _ => V
  | i => A ∪ { r | i.writes? = some r }

/-- Code that reads only registers of `A` and what it has written itself, and after which those of `B`
are written. The registers of `V` are written wherever control may go to a label or come from one. -/
def Grounded (V : Set VReg) : Set VReg → List Instr → Set VReg → Prop
  | A, [], B => B ⊆ A
  | A, i :: rest, B =>
    (∀ r ∈ i.sources, r ∈ A) ∧ (i.label?.isSome → V ⊆ A) ∧ Grounded V (i.passed V A) rest B

section Grounded

variable {V A A' B C : Set VReg} {code code' : List Instr} {i : Instr}

theorem Instr.passed_mono (h : A ⊆ A') (i : Instr) : i.passed V A ⊆ i.passed V A' := by
  cases i with
  | label l => exact Set.Subset.refl V
  | _ => exact Set.union_subset_union_left _ h

theorem Grounded.mono (h : Grounded V A code B) (hA : A ⊆ A') : Grounded V A' code B := by
  induction code generalizing A A' with
  | nil => exact Set.Subset.trans h hA
  | cons i rest ih =>
    obtain ⟨hsources, hlabel, hrest⟩ := h
    exact ⟨fun r hr => hA (hsources r hr), fun hl => (hlabel hl).trans hA, ih hrest (i.passed_mono hA)⟩

/-- **One after the other.** -/
theorem Grounded.append (h : Grounded V A code B) (h' : Grounded V B code' C) :
    Grounded V A (code ++ code') C := by
  induction code generalizing A with
  | nil => exact h'.mono h
  | cons i rest ih =>
    obtain ⟨hsources, hlabel, hrest⟩ := h
    exact ⟨hsources, hlabel, ih hrest⟩

theorem Grounded.weaken (h : Grounded V A code B) (hC : C ⊆ B) : Grounded V A code C := by
  have hnil : Grounded V B [] C := hC
  simpa using h.append hnil

/-- What is written on the way need not count afterwards. -/
theorem Grounded.through {S T : Set VReg} (h : Grounded V A code (A ∪ S))
    (h' : Grounded V (A ∪ S) code' (A ∪ S ∪ T)) : Grounded V A (code ++ code') (A ∪ T) :=
  (h.append h').weaken (Set.union_subset_union_left T Set.subset_union_left)

/-- An instruction that control passes through. -/
theorem Grounded.cons (hlabel : i.label? = none) (hsources : ∀ r ∈ i.sources, r ∈ A)
    (h : Grounded V (A ∪ { r | i.writes? = some r }) code B) : Grounded V A (i :: code) B := by
  refine ⟨hsources, fun hl => ?_, ?_⟩
  · rw [hlabel] at hl
    cases hl
  · cases i with
    | label l => cases hlabel
    | _ => exact h

/-- An instruction that only reads. -/
theorem Grounded.reads (hlabel : i.label? = none) (hsources : ∀ r ∈ i.sources, r ∈ A) :
    Grounded V A [i] A :=
  Grounded.cons hlabel hsources Set.subset_union_left

/-- An instruction that writes a register. -/
theorem Grounded.writes {target : VReg} (hlabel : i.label? = none) (hsources : ∀ r ∈ i.sources, r ∈ A)
    (htarget : i.writes? = some target) : Grounded V A [i] (A ∪ { r | r ∈ [target] }) := by
  refine Grounded.cons hlabel hsources (Set.union_subset_union_right A fun r hr => ?_)
  obtain rfl := List.mem_singleton.1 hr
  exact htarget

/-- An instruction that only reads, where nothing counts afterwards but the registers of `V`. -/
theorem Grounded.last (hlabel : i.label? = none) (hsources : ∀ r ∈ i.sources, r ∈ A) (hV : V ⊆ A) :
    Grounded V A [i] V :=
  (Grounded.reads hlabel hsources).weaken hV

/-- At a branch every register of `V` is written. -/
theorem Grounded.branch {guard : Guard} {l : Label} (hV : V ⊆ A) (h : Grounded V A code B) :
    Grounded V A (.branch guard l :: code) B :=
  ⟨nofun, fun _ => hV, h.mono Set.subset_union_left⟩

/-- After a label only the registers of `V` count as written. -/
theorem Grounded.label {l : Label} (hV : V ⊆ A) (h : Grounded V V code B) :
    Grounded V A (.label l :: code) B :=
  ⟨nofun, fun _ => hV, h⟩

/-- What grounded code reads, and what is written after it, is among the registers that it starts with and those
that it writes. -/
theorem Grounded.within {P : Set VReg} (h : Grounded V A code B) (hV : V ⊆ P) (hA : A ⊆ P)
    (hcode : ∀ i ∈ code, ∀ r, i.target? = some r → r ∈ P) : (∀ i ∈ code, ∀ r ∈ i.sources, r ∈ P) ∧ B ⊆ P := by
  induction code generalizing A with
  | nil => exact ⟨nofun, Set.Subset.trans h hA⟩
  | cons i rest ih =>
    obtain ⟨hsources, -, hrest⟩ := h
    obtain ⟨htarget, hcode⟩ := List.forall_mem_cons.1 hcode
    have hpassed : i.passed V A ⊆ P := by
      cases i with
      | label l => exact hV
      | mov target source guard =>
        refine Set.union_subset hA fun r hr => htarget r ?_
        cases guard with
        | always => exact hr
        | on c => cases hr
      | _ => exact Set.union_subset hA htarget
    obtain ⟨hsources', hB⟩ := ih hrest hpassed hcode
    exact ⟨List.forall_mem_cons.2 ⟨fun r hr => hA (hsources r hr), hsources'⟩, hB⟩

/-- What follows a label is grounded in `V`. -/
theorem Grounded.at_label (h : Grounded V A code B) {j : Nat} {l : Label}
    (hj : code[j]? = some (.label l)) : Grounded V V (code.drop j) B := by
  induction code generalizing A j with
  | nil => cases hj
  | cons i rest ih =>
    obtain ⟨-, -, hrest⟩ := h
    cases j with
    | zero =>
      obtain rfl := Option.some.inj hj
      exact Grounded.label (Set.Subset.refl V) hrest
    | succ j => exact ih hrest hj

end Grounded

/-! ### Along a path -/

variable {V A B : Set VReg} {body : List Instr} {visited : List Nat} {i j : Nat} {instr : Instr}

/-- Control is at a position from which the code is grounded in registers that were written on the way. -/
def Supported (V start : Set VReg) (body : List Instr) (visited : List Nat) (i : Nat) : Prop :=
  ∃ A B, Grounded V A (body.drop i) B ∧ ∀ r ∈ A, r ∈ start ∨ WrittenAt body visited r

/-- One step along a path. -/
theorem Supported.step {start : Set VReg} (hbody : Grounded V start body B)
    (h : Supported V start body visited i) (hi : body[i]? = some instr)
    (hj : instr.LeadsTo body i j) : Supported V start body (visited ++ [i]) j := by
  obtain ⟨A, C, hgrounded, hwritten⟩ := h
  have hdrop : body.drop i = instr :: body.drop (i + 1) := by
    obtain ⟨hlt, rfl⟩ := List.getElem?_eq_some_iff.1 hi
    exact List.drop_eq_getElem_cons hlt
  rw [hdrop] at hgrounded
  obtain ⟨-, hlabel, hrest⟩ := hgrounded
  have hkept : ∀ r ∈ A, r ∈ start ∨ WrittenAt body (visited ++ [i]) r := fun r hr =>
    (hwritten r hr).imp_right fun h => h.mono i
  -- Falling through adds what the instruction writes; a jump goes on from `V` alone, which is all that
  -- the code behind a label may count on.
  have hfall : Supported V start body (visited ++ [i]) (i + 1) := by
    refine ⟨_, C, hrest, fun r hr => ?_⟩
    cases instr with
    | label l => exact hkept r (hlabel rfl hr)
    | _ =>
      rcases hr with hr | hr
      · exact hkept r hr
      · exact .inr ⟨i, List.mem_append_right _ (List.mem_singleton_self i), _, hi, hr⟩
  have hjump : ∀ {m}, V ⊆ A → body[j]? = some (.label m) →
      Supported V start body (visited ++ [i]) j := fun hV hm =>
    ⟨V, B, hbody.at_label hm, fun r hr => hkept r (hV hr)⟩
  cases instr with
  | branch guard l =>
    cases guard with
    | always =>
      obtain ⟨m, hm, -⟩ := hj
      exact hjump (hlabel rfl) hm
    | on c =>
      rcases hj with rfl | ⟨m, hm, -⟩
      · exact hfall
      · exact hjump (hlabel rfl) hm
  | ret value => exact hj.elim
  | _ =>
    obtain rfl := hj
    exact hfall

/-- **Paths.** Along every path through code that is grounded in `start`, a register that is read is one
of `start` or was written before. -/
theorem Path.written {start : Set VReg} (hbody : Grounded V start body B) (h : Path body visited i)
    (hi : body[i]? = some instr) {r : VReg} (hr : r ∈ instr.sources) :
    r ∈ start ∨ WrittenAt body visited r := by
  have hsupported : Supported V start body visited i := by
    clear hi hr
    induction h with
    | start => exact ⟨start, B, hbody, fun r hr => .inl hr⟩
    | step _ hi hj ih => exact ih.step hbody hi hj
  obtain ⟨A, C, hgrounded, hwritten⟩ := hsupported
  obtain ⟨hlt, rfl⟩ := List.getElem?_eq_some_iff.1 hi
  rw [List.drop_eq_getElem_cons hlt] at hgrounded
  exact hwritten r (hgrounded.1 r hr)

end Spillway.Linear
