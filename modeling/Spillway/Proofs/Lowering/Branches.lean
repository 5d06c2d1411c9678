import Spillway.Proofs.Lowering.Function
import Spillway.Proofs.Lowering.Labels

/-!
# Branches of lowered code

A branch in the code of a function goes to a label of that function. Over all functions together the labels
have the numbers that were drawn while the program was lowered, each once, so each branch names one label and
no other is written like it.

* `Linear.Resolved` — every branch names a label of the code.
* `Program.labels_of_lower` — the labels of a whole program.
-/

namespace Spillway

/-- The names that numbered labels of lowered code begin with. -/
def Label.stems : List String := ["done", "else", "condLabel", "loopBody"]

/-- Whether a label is one that lowering draws. -/
def Label.isDrawn : Label → Bool
  | .numbered stem _ => stem ∈ stems
  | .named _ => false

namespace Linear

/-- The label that an instruction may go to. -/
def Instr.branch? : Instr → Option Label
  | .branch _ l => some l
  | _ => none

/-- The labels that code branches to, in order. -/
def branches (code : List Instr) : List Label := code.filterMap Instr.branch?

@[simp] theorem branches_append (code code' : List Instr) :
    branches (code ++ code') = branches code ++ branches code' := List.filterMap_append

@[simp] theorem branches_nil : branches [] = [] := rfl

@[simp] theorem branches_branch (guard : Guard) (l : Label) (code : List Instr) :
    branches (.branch guard l :: code) = l :: branches code := rfl

@[simp] theorem branches_label (l : Label) (code : List Instr) :
    branches (.label l :: code) = branches code := rfl

@[simp] theorem branches_cmp (left : VReg) (right : Operand) (code : List Instr) :
    branches (.cmp left right :: code) = branches code := rfl

@[simp] theorem labels_branch (guard : Guard) (l : Label) (code : List Instr) :
    labels (.branch guard l :: code) = labels code := rfl

@[simp] theorem labels_cmp (left : VReg) (right : Operand) (code : List Instr) :
    labels (.cmp left right :: code) = labels code := rfl

/-- Code that neither branches nor has labels. -/
def Unlabelled (code : List Instr) : Prop := ∀ i ∈ code, i.label? = none

theorem Unlabelled.append {code code' : List Instr} (h : Unlabelled code) (h' : Unlabelled code') :
    Unlabelled (code ++ code') := List.forall_mem_append.2 ⟨h, h'⟩

theorem Unlabelled.cons {i : Instr} {code : List Instr} (hi : i.label? = none) (h : Unlabelled code) :
    Unlabelled (i :: code) := List.forall_mem_cons.2 ⟨hi, h⟩

theorem Unlabelled.nil : Unlabelled [] := nofun

theorem Unlabelled.one {i : Instr} (hi : i.label? = none) : Unlabelled [i] := .cons hi .nil

theorem Unlabelled.labels_eq {code : List Instr} (h : Unlabelled code) : labels code = [] := by
  refine List.filterMap_eq_nil_iff.2 fun i hi => ?_
  have hnone := h i hi
  cases i with
  | label l => cases hnone
  | _ => rfl

theorem Unlabelled.branches_eq {code : List Instr} (h : Unlabelled code) : branches code = [] := by
  refine List.filterMap_eq_nil_iff.2 fun i hi => ?_
  have hnone := h i hi
  cases i with
  | branch guard l => cases hnone
  | _ => rfl

/-- Branches go to labels of the code, and these are labels that lowering draws. The first is said of any labels
that include those of the code, so that it can be used for a part of longer code. -/
structure Resolved (code : List Instr) : Prop where
  within : ∀ {ls : List Label}, labels code ⊆ ls → branches code ⊆ ls
  drawn : ∀ l ∈ labels code, l.isDrawn = true

theorem Unlabelled.resolved {code : List Instr} (h : Unlabelled code) : Resolved code where
  within _ := by
    rw [h.branches_eq]
    exact List.nil_subset _
  drawn := by
    rw [h.labels_eq]
    exact nofun

theorem Resolved.append {code code' : List Instr} (h : Resolved code) (h' : Resolved code') :
    Resolved (code ++ code') where
  within hls := by
    rw [labels_append, List.append_subset] at hls
    rw [branches_append, List.append_subset]
    exact ⟨h.within hls.1, h'.within hls.2⟩
  drawn := by
    rw [labels_append, List.forall_mem_append]
    exact ⟨h.drawn, h'.drawn⟩

theorem Resolved.flatMap {fragments : List Fragment} (h : ∀ frag ∈ fragments, Resolved frag.body) :
    Resolved (fragments.flatMap (·.body)) := by
  induction fragments with
  | nil => exact Unlabelled.nil.resolved
  | cons frag fragments ih =>
    obtain ⟨hfrag, hrest⟩ := List.forall_mem_cons.1 h
    rw [List.flatMap_cons]
    exact hfrag.append (ih hrest)

end Linear

namespace Lowering

open Linear (Instr Unlabelled Resolved labels branches)

theorem unlabelled_combination (op : BinOp) (target left right : VReg) :
    Unlabelled (combination op target left right) := by
  rw [combination]
  cases Action.of op with
  | compare c => exact .cons rfl (.cons rfl (.one rfl))
  | compute alu => exact .one rfl

namespace Env

variable {env : Env} {c c' : Counters} {code : List Instr}

theorem Follows.unlabelled {r r' : VReg} {ty : Ty} {path : List String}
    (h : env.Follows r ty path c code r' c') : Unlabelled code := by
  induction h with
  | nil => exact .nil
  | cons _ _ ih => exact .cons rfl ih

theorem Computes.unlabelled {ph : Phrase} {rs : List VReg} (h : env.Computes ph c code rs c') :
    Unlabelled code := by
  induction h with
  | int | bool | nil | global | alloc => exact .one rfl
  | own | linksNil | exprsNil => exact .nil
  | paren _ ih => exact ih
  | chain _ _ ih ih' | exprsCons _ _ ih ih' => exact ih.append ih'
  | not _ ih => exact ih.append (.one rfl)
  | negate _ ih => exact ih.append (.cons rfl (.one rfl))
  | select _ _ hfollows ih => exact ih.append hfollows.unlabelled
  | call _ _ ih => exact ih.append (.cons rfl (.cons rfl (.cons rfl (.one rfl))))
  | linksCons _ _ ih ih' => exact (ih.append (unlabelled_combination _ _ _ _)).append ih'

theorem StoresPath.unlabelled {value r : VReg} {ty : Ty} {x : String} {path : List String}
    (h : env.StoresPath value r ty x path c code c') : Unlabelled code := by
  induction h with
  | last => exact .one rfl
  | step _ _ ih => exact .cons rfl ih

theorem Stores.unlabelled {value : VReg} {place : Place} (h : env.Stores value place c code c') :
    Unlabelled code := by
  cases h with
  | global | own => exact .one rfl
  | field _ hread hpath => exact hread.unlabelled.append hpath.unlabelled

/-- **Branches resolve.** Branches in the code of statements go to labels of that code. -/
theorem Emits.resolved {part : Part} (h : env.Emits part c code c') : Resolved code := by
  have hstem : ∀ {stem : String} (n : Nat), stem ∈ Label.stems → (Label.numbered stem n).isDrawn = true :=
    fun _ hstem => decide_eq_true hstem
  induction h with
  | assign hvalue hstores => exact (hvalue.unlabelled.append hstores.unlabelled).resolved
  | @print x newline r c c' code hread =>
    refine (hread.unlabelled.append ?_).resolved
    cases newline <;> exact .one rfl
  | readGlobal => exact (Unlabelled.cons rfl (.one rfl)).resolved
  | readOwn | leave | alloc => exact (Unlabelled.one rfl).resolved
  | give hvalue | free _ hvalue => exact (hvalue.unlabelled.append (.one rfl)).resolved
  | call _ harguments => exact (harguments.unlabelled.append (.cons rfl (.cons rfl (.one rfl)))).resolved
  | nil => exact Unlabelled.nil.resolved
  | cons _ _ ih ih' => exact ih.append ih'
  | @when test thenBlock r c c₁ c₂ code code' htest _ ih =>
    constructor
    · intro ls hls
      obtain ⟨hthen, hdone⟩ : labels code' ⊆ ls ∧ .numbered "done" c₁.labels ∈ ls := by
        simpa [htest.labels_eq.1] using hls
      simp [htest.unlabelled.branches_eq, hdone, ih.within hthen]
    · simpa [htest.labels_eq.1, or_imp, forall_and] using And.intro ih.drawn (hstem c₁.labels (by decide))
  | @choose test thenBlock elseBlock r c c₁ c₂ c₃ code code' code'' htest _ _ ih ih' =>
    constructor
    · intro ls hls
      obtain ⟨hthen, helse, hother, hdone⟩ : labels code' ⊆ ls ∧ .numbered "else" c₁.labels ∈ ls ∧
          labels code'' ⊆ ls ∧ .numbered "done" (c₁.labels + 1) ∈ ls := by
        simpa [htest.labels_eq.1] using hls
      simp [htest.unlabelled.branches_eq, helse, hdone, ih.within hthen, ih'.within hother]
    · simpa [htest.labels_eq.1, or_imp, forall_and] using And.intro ih.drawn (And.intro
        (hstem c₁.labels (by decide)) (And.intro ih'.drawn (hstem (c₁.labels + 1) (by decide))))
  | @loop test body r c c₁ c₂ code code' _ htest ih =>
    constructor
    · intro ls hls
      obtain ⟨hloop, hbody, hcond⟩ : .numbered "loopBody" (c.labels + 1) ∈ ls ∧ labels code ⊆ ls ∧
          .numbered "condLabel" c.labels ∈ ls := by
        simpa [htest.labels_eq.1] using hls
      simp [htest.unlabelled.branches_eq, hloop, hcond, ih.within hbody]
    · simpa [htest.labels_eq.1, or_imp, forall_and] using And.intro (hstem (c.labels + 1) (by decide))
        (And.intro ih.drawn (hstem c.labels (by decide)))

theorem Clears.unlabelled {names : List String} (h : env.Clears names code) : Unlabelled code := by
  induction h with
  | nil => exact .nil
  | cons hx _ ih =>
    obtain ⟨r, -, rfl⟩ := hx
    exact .cons rfl ih

theorem Resets.unlabelled {names : List String} (h : env.Resets names code) : Unlabelled code := by
  induction h with
  | nil => exact .nil
  | cons _ _ ih => exact .cons rfl (.cons rfl ih)

end Env

end Lowering

/-! ### Programs -/

namespace Program

open Linear (Fragment Numbered UniqueLabels Resolved labels)

variable {p : Program} {c c' : Counters}

theorem Translates.resolved {f : FunctionDecl} {frag : Fragment} (h : p.Translates c f frag c') :
    Resolved frag.body := by
  obtain ⟨-, clear, code, hbody, hclears, hemits⟩ := h
  rw [hbody]
  exact hclears.unlabelled.resolved.append hemits.resolved

/-- The labels of a function have the numbers that were drawn while it was lowered. -/
theorem Translates.draws {f : FunctionDecl} {frag : Fragment} (h : p.Translates c f frag c') :
    c.labels ≤ c'.labels ∧ ∃ ns, Numbered frag.body ns ∧ Draws c.labels c'.labels ns := by
  obtain ⟨-, clear, code, hbody, hclears, hemits⟩ := h
  obtain ⟨hle, ns, hns, hdraws⟩ := hemits.draws
  refine ⟨hle, ns, ?_, hdraws⟩
  rw [hbody]
  exact (Numbered.none hclears.labels_eq).append hns

/-- Over several functions the numbers go on from one to the next. -/
theorem draws_of_chain {fs : List FunctionDecl} {frags : List Fragment}
    (h : Journal.Chain p.Translates c fs frags c') :
    c.labels ≤ c'.labels ∧
      ∃ ns, Numbered (frags.flatMap (·.body)) ns ∧ Draws c.labels c'.labels ns := by
  induction h with
  | nil => exact ⟨Nat.le_refl _, [], .none rfl, .nil _⟩
  | cons hf _ ih =>
    obtain ⟨hle, ns, hns, hdraws⟩ := hf.draws
    obtain ⟨hle', ms, hms, hdraws'⟩ := ih
    refine ⟨Nat.le_trans hle hle', ns ++ ms, ?_, hdraws.append hdraws' hle hle'⟩
    rw [List.flatMap_cons]
    exact hns.append hms

/-- **Labels of a program.** The labels of all fragments together have the numbers that were drawn while the
program was lowered, each once, and each fragment branches to its own labels only. -/
theorem labels_of_lower {fragments : List Fragment} {w : List Lowering.Notice}
    (h : p.lower.run c = ⟨.ok fragments, c', w⟩) :
    c.labels ≤ c'.labels ∧
      (∃ ns, Numbered (fragments.flatMap (·.body)) ns ∧ Draws c.labels c'.labels ns) ∧
      ∀ frag ∈ fragments, Resolved frag.body := by
  obtain ⟨globals, functions, rfl, -, hresets, hchain⟩ := translates_of_lower h
  obtain ⟨hle, ns, hns, hdraws⟩ := draws_of_chain hchain
  refine ⟨hle, ⟨ns, ?_, hdraws⟩, List.forall_mem_cons.2 ⟨hresets.unlabelled.resolved,
    hchain.forall_mem fun hf => hf.resolved⟩⟩
  rw [List.flatMap_cons]
  exact (Numbered.none hresets.unlabelled.labels_eq).append hns

end Program

/-- Numbers that are drawn in a row are those of the range. -/
theorem Draws.perm_range' {lo hi : Nat} {ns : List Nat} (h : Draws lo hi ns) :
    ns.Perm (List.range' lo (hi - lo)) := by
  rw [List.perm_ext_iff_of_nodup h.1 (List.nodup_range' ..)]
  intro n
  rw [h.2, List.mem_range'_1]
  omega

namespace Linear

theorem nodup_labels {code : List Instr} (h : UniqueLabels code) : (labels code).Nodup :=
  List.Nodup.of_map _ h

/-- A label of the code is the only one that is written as it is. -/
theorem filter_text_eq {code : List Instr} (h : UniqueLabels code) {l : Label} (hl : l ∈ labels code) :
    ((labels code).filter fun m => m.text = l.text) = [l] := by
  refine List.perm_singleton.1 ((List.perm_ext_iff_of_nodup ((nodup_labels h).filter _)
    (List.nodup_singleton l)).2 fun m => ?_)
  rw [List.mem_filter, List.mem_singleton, decide_eq_true_iff]
  constructor
  · rintro ⟨hm, htext⟩
    exact List.inj_on_of_nodup_map h hm hl htext
  · rintro rfl
    exact ⟨hl, rfl⟩

/-- The labels of a part are written differently too. -/
theorem UniqueLabels.of_mem {fragments : List Fragment} (h : UniqueLabels (fragments.flatMap (·.body)))
    {frag : Fragment} (hfrag : frag ∈ fragments) : UniqueLabels frag.body := by
  obtain ⟨before, after, rfl⟩ := List.append_of_mem hfrag
  rw [UniqueLabels, List.flatMap_append, List.flatMap_cons, labels_append, labels_append, List.map_append,
    List.map_append] at h
  exact h.of_append_right.of_append_left

end Linear

end Spillway
