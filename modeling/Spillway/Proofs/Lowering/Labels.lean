import Spillway.Proofs.Linear.Labels
import Spillway.Proofs.Lowering.Value

/-!
# Labels of lowered code

Lowering defines each label that it draws once, and no other. The numbers of the labels in the code of
some statements are therefore those between the two counters, each once: `Env.Emits.draws`. Since a
label shows its number, no two labels of the code are written alike: `Env.Emits.uniqueLabels`.
-/

namespace Spillway

/-! ### Numbers drawn in a row -/

/-- The numbers from `lo` up to `hi`, each once and in some order. -/
def Draws (lo hi : Nat) (ns : List Nat) : Prop := ns.Nodup ∧ ∀ n, n ∈ ns ↔ lo ≤ n ∧ n < hi

namespace Draws

variable {lo mid hi : Nat} {ns ms : List Nat}

theorem nil (n : Nat) : Draws n n [] := by
  refine ⟨List.nodup_nil, fun m => ?_⟩
  simp only [List.not_mem_nil, false_iff]
  omega

theorem single (n : Nat) : Draws n (n + 1) [n] := by
  refine ⟨List.nodup_singleton n, fun m => ?_⟩
  rw [List.mem_singleton]
  omega

theorem append (h : Draws lo mid ns) (h' : Draws mid hi ms) (hle : lo ≤ mid) (hle' : mid ≤ hi) :
    Draws lo hi (ns ++ ms) := by
  constructor
  · rw [List.nodup_append]
    refine ⟨h.1, h'.1, fun a ha b hb hab => ?_⟩
    have hlt := ((h.2 a).1 ha).2
    have hge := ((h'.2 b).1 hb).1
    omega
  · intro n
    rw [List.mem_append, h.2, h'.2]
    omega

theorem perm (h : Draws lo hi ns) (hp : ns.Perm ms) : Draws lo hi ms :=
  ⟨hp.nodup_iff.1 h.1, fun n => hp.mem_iff.symm.trans (h.2 n)⟩

end Draws

/-- The number of a numbered label. -/
def Label.number? : Label → Option Nat
  | .numbered _ n => some n
  | .named _ => none

namespace Linear

/-- The labels that code defines are numbered, with the given numbers in order. -/
def Numbered (code : List Instr) (ns : List Nat) : Prop :=
  (labels code).map Label.number? = ns.map some

namespace Numbered

variable {code code' : List Instr} {ns ms : List Nat}

theorem none (h : labels code = []) : Numbered code [] := by
  rw [Numbered, h]
  rfl

theorem one {stem : String} {n : Nat} (h : labels code = [.numbered stem n]) : Numbered code [n] := by
  rw [Numbered, h]
  rfl

theorem append (h : Numbered code ns) (h' : Numbered code' ms) :
    Numbered (code ++ code') (ns ++ ms) := by
  rw [Numbered, labels_append, List.map_append, h, h', ← List.map_append]

theorem append_none (h : Numbered code ns) (h' : labels code' = []) :
    Numbered (code ++ code') ns := by
  rw [Numbered, labels_append, h', List.append_nil, h]

theorem mem (h : Numbered code ns) {l : Label} (hl : l ∈ labels code) : ∃ n ∈ ns, l.number? = some n := by
  have hmem : l.number? ∈ ns.map some := by
    rw [← h]
    exact List.mem_map_of_mem hl
  obtain ⟨n, hn, heq⟩ := List.mem_map.1 hmem
  exact ⟨n, hn, heq.symm⟩

/-- Code with labels of different numbers has no two labels that are written alike. -/
theorem uniqueLabels (h : Numbered code ns) (hdup : ns.Nodup) : UniqueLabels code := by
  have hnumbers : ((labels code).map Label.number?).Nodup := by
    rw [h]
    exact hdup.map fun _ _ => Option.some.inj
  have hsome : ∀ l ∈ labels code, ∃ stem n, l = .numbered stem n := by
    intro l hl
    obtain ⟨n, -, hn⟩ := h.mem hl
    cases l with
    | numbered stem m => exact ⟨stem, m, rfl⟩
    | named t => cases hn
  rw [UniqueLabels, List.Nodup, List.pairwise_map]
  rw [List.Nodup, List.pairwise_map] at hnumbers
  refine hnumbers.imp_of_mem fun {l m} hl hm hne htext => ?_
  obtain ⟨stem, n, rfl⟩ := hsome l hl
  obtain ⟨stem', n', rfl⟩ := hsome m hm
  exact hne (congrArg some (Label.number_eq_of_text_eq htext))

end Numbered

end Linear

namespace Lowering.Env

open Linear (Instr Numbered labels)

variable {env : Env}

/-! ### Expressions define no labels -/

theorem Follows.labels_eq {r r' : VReg} {ty : Ty} {path : List String} {c c' : Counters}
    {code : List Instr} (h : env.Follows r ty path c code r' c') :
    labels code = [] ∧ c'.labels = c.labels := by
  induction h with
  | nil => exact ⟨rfl, rfl⟩
  | cons _ _ ih => exact ih

theorem labels_combination (op : BinOp) (target left right : VReg) :
    labels (combination op target left right) = [] := by
  unfold combination
  cases Action.of op <;> rfl

theorem Computes.labels_eq {ph : Phrase} {c c' : Counters} {code : List Instr} {rs : List VReg}
    (h : env.Computes ph c code rs c') : labels code = [] ∧ c'.labels = c.labels := by
  induction h with
  | int | bool | nil | global _ | alloc _ _ _ | own _ _ | linksNil | exprsNil => exact ⟨rfl, rfl⟩
  | paren _ ih => exact ih
  | chain _ _ ih₁ ih₂ | exprsCons _ _ ih₁ ih₂ =>
    refine ⟨?_, ih₂.2.trans ih₁.2⟩
    rw [Linear.labels_append, ih₁.1, ih₂.1]
    rfl
  | not _ ih | negate _ ih | call _ _ ih =>
    refine ⟨?_, ih.2⟩
    rw [Linear.labels_append, ih.1]
    rfl
  | select _ _ hpath ih =>
    refine ⟨?_, hpath.labels_eq.2.trans ih.2⟩
    rw [Linear.labels_append, ih.1, hpath.labels_eq.1]
    rfl
  | linksCons _ _ ih₁ ih₂ =>
    refine ⟨?_, ih₂.2.trans ih₁.2⟩
    rw [Linear.labels_append, Linear.labels_append, ih₁.1, ih₂.1, labels_combination]
    rfl

theorem StoresPath.labels_eq {value r : VReg} {ty : Ty} {x : String} {path : List String}
    {c c' : Counters} {code : List Instr} (h : env.StoresPath value r ty x path c code c') :
    labels code = [] ∧ c'.labels = c.labels := by
  induction h with
  | last _ => exact ⟨rfl, rfl⟩
  | step _ _ ih => exact ih

theorem Stores.labels_eq {value : VReg} {place : Place} {c c' : Counters} {code : List Instr}
    (h : env.Stores value place c code c') : labels code = [] ∧ c'.labels = c.labels := by
  cases h with
  | global _ | own _ _ => exact ⟨rfl, rfl⟩
  | field _ hbase hpath =>
    refine ⟨?_, hpath.labels_eq.2.trans hbase.labels_eq.2⟩
    rw [Linear.labels_append, hbase.labels_eq.1, hpath.labels_eq.1]
    rfl

/-! ### Statements define the labels that they draw -/

/-- **Labels are drawn once.** The labels in the code of statements have the numbers between the two
counters, each once. -/
theorem Emits.draws {part : Part} {c c' : Counters} {code : List Instr}
    (h : env.Emits part c code c') :
    c.labels ≤ c'.labels ∧ ∃ ns, Numbered code ns ∧ Draws c.labels c'.labels ns := by
  have hplain : ∀ {code : List Instr} {c c' : Counters}, labels code = [] →
      c'.labels = c.labels →
      c.labels ≤ c'.labels ∧ ∃ ns, Numbered code ns ∧ Draws c.labels c'.labels ns := by
    intro code c c' hcode hc
    refine ⟨Nat.le_of_eq hc.symm, [], .none hcode, ?_⟩
    rw [hc]
    exact .nil _
  induction h with
  | readGlobal _ | readOwn _ _ | leave | alloc _ _ _ | nil => exact hplain rfl rfl
  | assign hvalue hstore =>
    refine hplain ?_ (hstore.labels_eq.2.trans hvalue.labels_eq.2)
    rw [Linear.labels_append, hvalue.labels_eq.1, hstore.labels_eq.1]
    rfl
  | @print x newline r c c' code hread =>
    refine hplain ?_ hread.labels_eq.2
    rw [Linear.labels_append, hread.labels_eq.1]
    cases newline <;> rfl
  | give hvalue | free _ hvalue | call _ hvalue =>
    refine hplain ?_ hvalue.labels_eq.2
    rw [Linear.labels_append, hvalue.labels_eq.1]
    rfl
  | @when test thenBlock r c c₁ c₂ code code' htest _ ih =>
    obtain ⟨hle, ns, hns, hdraws⟩ := ih
    rw [← htest.labels_eq.2]
    refine ⟨Nat.le_of_succ_le hle, ns ++ [c₁.labels], ?_, ?_⟩
    · exact (((Numbered.none htest.labels_eq.1).append_none rfl).append hns).append (.one rfl)
    · exact ((Draws.single c₁.labels).append hdraws (Nat.le_succ _) hle).perm List.perm_append_comm
  | @choose test thenBlock elseBlock r c c₁ c₂ c₃ code code' code'' htest _ _ ih₁ ih₂ =>
    obtain ⟨hle₁, ns₁, hns₁, hdraws₁⟩ := ih₁
    obtain ⟨hle₂, ns₂, hns₂, hdraws₂⟩ := ih₂
    rw [← htest.labels_eq.2]
    have hle : c₁.labels + 2 ≤ c₃.labels := Nat.le_trans hle₁ hle₂
    refine ⟨by omega, ns₁ ++ [c₁.labels] ++ ns₂ ++ [c₁.labels + 1], ?_, ?_⟩
    · exact (((((Numbered.none htest.labels_eq.1).append_none rfl).append hns₁).append
        (.one rfl)).append hns₂).append (.one rfl)
    · have htwo := (Draws.single c₁.labels).append (.single (c₁.labels + 1)) (by omega) (by omega)
      refine (htwo.append (hdraws₁.append hdraws₂ hle₁ hle₂) (by omega) hle).perm ?_
      -- the two labels of the conditional stand behind its two blocks
      calc ([c₁.labels] ++ [c₁.labels + 1] ++ (ns₁ ++ ns₂)).Perm
            (c₁.labels :: (ns₁ ++ ns₂ ++ [c₁.labels + 1])) :=
          (List.perm_append_singleton _ _).symm.cons _
        _ = c₁.labels :: (ns₁ ++ (ns₂ ++ [c₁.labels + 1])) := by rw [List.append_assoc]
        _ |>.Perm (ns₁ ++ c₁.labels :: (ns₂ ++ [c₁.labels + 1])) := List.perm_middle.symm
        _ = ns₁ ++ [c₁.labels] ++ ns₂ ++ [c₁.labels + 1] := by simp
  | @loop test body r c c₁ c₂ code code' _ htest ih =>
    obtain ⟨hle, ns, hns, hdraws⟩ := ih
    rw [htest.labels_eq.2]
    replace hle : c.labels + 2 ≤ c₁.labels := hle
    refine ⟨by omega, [c.labels + 1] ++ ns ++ [c.labels], ?_, ?_⟩
    · exact ((((Numbered.one rfl).append hns).append (.one rfl)).append_none
        htest.labels_eq.1).append_none rfl
    · have hrest := (Draws.single (c.labels + 1)).append hdraws (by omega) hle
      exact ((Draws.single c.labels).append hrest (by omega) (by omega)).perm List.perm_append_comm
  | cons _ _ ih₁ ih₂ =>
    obtain ⟨hle₁, ns₁, hns₁, hdraws₁⟩ := ih₁
    obtain ⟨hle₂, ns₂, hns₂, hdraws₂⟩ := ih₂
    exact ⟨Nat.le_trans hle₁ hle₂, ns₁ ++ ns₂, hns₁.append hns₂, hdraws₁.append hdraws₂ hle₁ hle₂⟩

/-- No two labels in the code of statements are written alike. -/
theorem Emits.uniqueLabels {part : Part} {c c' : Counters} {code : List Instr}
    (h : env.Emits part c code c') : Linear.UniqueLabels code := by
  obtain ⟨-, ns, hns, hdraws⟩ := h.draws
  exact hns.uniqueLabels hdraws.1

end Lowering.Env

end Spillway
