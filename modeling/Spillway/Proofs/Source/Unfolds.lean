import Mathlib.Data.List.Forall2
import Mathlib.Data.List.Perm.Subperm
import Mathlib.Logic.Relation
import Spillway.Source.Tree

/-!
# The trees of acyclic nodes

Where every child of a node exists and no node is its own descendant, a node stands for one finite
tree, and `Nodes.exprTree` and `Nodes.stmtTree` are that tree: a path without a repetition passes each
node at most once, so it never comes to the depth at which unfolding is cut.

* `Nodes.ExprUnfolds`, `Nodes.StmtUnfolds` — the tree of a node, without a depth.
* `Nodes.exprUnfolds_exprTree`, `Nodes.stmtUnfolds_stmtTree` — the tree that is lowered is that tree.
-/

namespace Spillway

/-! ### Unfolding without a cut -/

namespace Unfolding

variable {α : Type}

/-- One node is a child of another. -/
def Child (u : Unfolding α) (i c : Nat) : Prop := c ∈ u.children i

/-- No node is its own descendant. -/
def Acyclic (u : Unfolding α) : Prop := ∀ i, ¬ Relation.TransGen u.Child i i

/-- Where children have smaller numbers than their parents, no node is its own descendant. -/
theorem acyclic_of_lt {u : Unfolding α} (h : ∀ i c, u.Child i c → c < i) : u.Acyclic := by
  intro i hi
  have hlt : ∀ {j}, Relation.TransGen u.Child i j → j < i := by
    intro j hj
    induction hj with
    | single hc => exact h _ _ hc
    | tail _ hc ih => exact Nat.lt_trans (h _ _ hc) ih
  exact Nat.lt_irrefl i (hlt hi)

/-- Numbers below `n` of which none comes twice are at most `n`. -/
theorem length_le_of_nodup {path : List Nat} {n : Nat} (hdup : path.Nodup)
    (hlt : ∀ i ∈ path, i < n) : path.length ≤ n := by
  have hsub : path ⊆ List.range n := fun i hi => List.mem_range.2 (hlt i hi)
  have hle := (hdup.subperm hsub).length_le
  rwa [List.length_range] at hle

/-- **No cut.** Of nodes below `n` that are closed under children and of which none is its own descendant, what holds
of every node that is built from its children holds of the tree down to any depth above `n`. -/
theorem within_induct (u : Unfolding α) {K : Nat → Prop} {P : Nat → α → Prop} {n : Nat}
    (hacyclic : ∀ i, K i → ¬ Relation.TransGen u.Child i i) (hbound : ∀ i, K i → i < n)
    (hchild : ∀ i, K i → ∀ c ∈ u.children i, K c)
    (hbuild : ∀ i, K i → ∀ f, (∀ c ∈ u.children i, P c (f c)) → P i (u.build f i))
    {depth : Nat} (hdepth : n < depth) {i : Nat} (hi : K i) : P i (u.within depth i) := by
  -- the nodes above `i` on the path that led to it use up the depth that is gone
  have hpath : ∀ (depth : Nat) (path : List Nat) (i : Nat), path.Nodup → (∀ j ∈ path, j < n) →
      (∀ j ∈ path, Relation.TransGen u.Child j i) → n < path.length + depth → K i →
      P i (u.within depth i) := by
    intro depth
    induction depth with
    | zero =>
      intro path i hdup hlt _ hlong _
      have hshort := length_le_of_nodup hdup hlt
      omega
    | succ depth ih =>
      intro path i hdup hlt habove hlong hi
      refine hbuild i hi _ fun c hc => ?_
      have hnew : i ∉ path := fun hmem => hacyclic i hi (habove i hmem)
      apply ih (i :: path) c (List.nodup_cons.2 ⟨hnew, hdup⟩)
      · intro j hj
        obtain rfl | hj := List.mem_cons.1 hj
        · exact hbound j hi
        · exact hlt j hj
      · intro j hj
        obtain rfl | hj := List.mem_cons.1 hj
        · exact .single hc
        · exact (habove j hj).tail hc
      · rw [List.length_cons]
        omega
      · exact hchild i hi c hc
  exact hpath depth [] i List.nodup_nil nofun nofun (by simpa using hdepth) hi

end Unfolding

/-! ### Expressions and statements -/

/-- The expressions that stand in a statement itself. -/
def StmtNode.exprs : StmtNode → List ExprId
  | .assign _ value => [value]
  | .cond condition _ _ | .loop condition _ => [condition]
  | .ret value => value.toList
  | .call _ arguments => arguments
  | .print .. | .read _ => []

theorem StmtNode.tree_congr_exprs {e e' : ExprId → Expr} {f : StmtId → Stmt} (n : StmtNode)
    (h : ∀ c ∈ n.exprs, e c = e' c) : n.tree e f = n.tree e' f := by
  cases n with
  | ret value => cases value <;> simp_all [exprs, tree]
  | _ => simp_all [exprs, tree]

namespace Nodes

/-- A tree is that of an expression node. -/
inductive ExprUnfolds (ns : Nodes) : ExprId → Expr → Prop
  | node {i : ExprId} {node : ExprNode} {f : ExprId → Expr} :
      ns.exprs.get? i = some node → (∀ c ∈ node.children, ExprUnfolds ns c (f c)) →
      ExprUnfolds ns i (node.tree f)

/-- A tree is that of a statement node. -/
inductive StmtUnfolds (ns : Nodes) : StmtId → Stmt → Prop
  | node {i : StmtId} {node : StmtNode} {e : ExprId → Expr} {f : StmtId → Stmt} :
      ns.stmts.get? i = some node → (∀ c ∈ node.exprs, ns.ExprUnfolds c (e c)) →
      (∀ c ∈ node.children, StmtUnfolds ns c (f c)) → StmtUnfolds ns i (node.tree e f)

/-- No node is its own descendant. -/
structure Acyclic (ns : Nodes) : Prop where
  exprs : ns.exprUnfolding.Acyclic
  stmts : ns.stmtUnfolding.Acyclic

/-- Every child of a node exists. -/
structure Closed (ns : Nodes) : Prop where
  exprs : ∀ {i node}, ns.exprs.get? i = some node → ∀ c ∈ node.children, c < ns.exprs.size
  values : ∀ {i node}, ns.stmts.get? i = some node → ∀ c ∈ node.exprs, c < ns.exprs.size
  stmts : ∀ {i node}, ns.stmts.get? i = some node → ∀ c ∈ node.children, c < ns.stmts.size

/-- Every child is stored before the node that names it. -/
def Ordered (ns : Nodes) : Prop :=
  (∀ i < ns.exprs.size, ∀ c ∈ ns.exprUnfolding.children i, c < i) ∧
  ∀ i < ns.stmts.size, (∀ c ∈ ns.stmtUnfolding.children i, c < i) ∧
    ∀ c ∈ (ns.stmts.get? i).elim [] StmtNode.exprs, c < ns.exprs.size

instance (ns : Nodes) : Decidable ns.Ordered := inferInstanceAs (Decidable (_ ∧ _))

variable {ns : Nodes}

theorem size_lt_exprDepth (ns : Nodes) : ns.exprs.size < ns.exprDepth := by
  rw [exprDepth]
  omega

theorem size_lt_stmtDepth (ns : Nodes) : ns.stmts.size < ns.stmtDepth := Nat.lt_succ_self _

/-- Nodes that name older nodes only are acyclic. -/
theorem Ordered.acyclic (h : ns.Ordered) : ns.Acyclic := by
  constructor
  · refine Unfolding.acyclic_of_lt fun i c hc => ?_
    cases hi : ns.exprs.get? i with
    | none => simp only [Unfolding.Child, exprUnfolding, hi, Option.elim_none, List.not_mem_nil] at hc
    | some node => exact h.1 i ((Arena.get?_isSome_iff _ _).1 (by rw [hi]; rfl)) c hc
  · refine Unfolding.acyclic_of_lt fun i c hc => ?_
    cases hi : ns.stmts.get? i with
    | none => simp only [Unfolding.Child, stmtUnfolding, hi, Option.elim_none, List.not_mem_nil] at hc
    | some node => exact (h.2 i ((Arena.get?_isSome_iff _ _).1 (by rw [hi]; rfl))).1 c hc

/-- Nodes that name older nodes only name no missing node. -/
theorem Ordered.closed (h : ns.Ordered) : ns.Closed := by
  constructor
  · intro i node hi c hc
    have hlt := (Arena.get?_isSome_iff _ _).1 (Option.isSome_of_eq_some hi)
    refine Nat.lt_trans (h.1 i hlt c ?_) hlt
    simpa only [exprUnfolding, hi, Option.elim_some] using hc
  · intro i node hi c hc
    have hlt := (Arena.get?_isSome_iff _ _).1 (Option.isSome_of_eq_some hi)
    refine (h.2 i hlt).2 c ?_
    rwa [hi]
  · intro i node hi c hc
    have hlt := (Arena.get?_isSome_iff _ _).1 (Option.isSome_of_eq_some hi)
    refine Nat.lt_trans ((h.2 i hlt).1 c ?_) hlt
    simpa only [stmtUnfolding, hi, Option.elim_some] using hc

theorem exprUnfolds_exprTree (hacyclic : ns.Acyclic) (hclosed : ns.Closed) {i : ExprId}
    (hi : i < ns.exprs.size) : ns.ExprUnfolds i (ns.exprTree i) := by
  apply ns.exprUnfolding.within_induct (K := (· < ns.exprs.size)) (fun i _ => hacyclic.exprs i) (fun _ hi => hi)
  · intro i hi c hc
    obtain ⟨node, hnode⟩ := Option.isSome_iff_exists.1 ((Arena.get?_isSome_iff _ _).2 hi)
    simp only [exprUnfolding, hnode, Option.elim_some] at hc
    exact hclosed.exprs hnode c hc
  · intro i hi f hf
    obtain ⟨node, hnode⟩ := Option.isSome_iff_exists.1 ((Arena.get?_isSome_iff _ _).2 hi)
    simp only [exprUnfolding, hnode, Option.elim_some] at hf ⊢
    exact .node hnode hf
  · exact ns.size_lt_exprDepth
  · exact hi

theorem stmtUnfolds_stmtTree (hacyclic : ns.Acyclic) (hclosed : ns.Closed) {i : StmtId}
    (hi : i < ns.stmts.size) : ns.StmtUnfolds i (ns.stmtTree i) := by
  apply ns.stmtUnfolding.within_induct (K := (· < ns.stmts.size)) (fun i _ => hacyclic.stmts i) (fun _ hi => hi)
  · intro i hi c hc
    obtain ⟨node, hnode⟩ := Option.isSome_iff_exists.1 ((Arena.get?_isSome_iff _ _).2 hi)
    simp only [stmtUnfolding, hnode, Option.elim_some] at hc
    exact hclosed.stmts hnode c hc
  · intro i hi f hf
    obtain ⟨node, hnode⟩ := Option.isSome_iff_exists.1 ((Arena.get?_isSome_iff _ _).2 hi)
    simp only [stmtUnfolding, hnode, Option.elim_some] at hf ⊢
    exact .node hnode (fun c hc =>
      exprUnfolds_exprTree hacyclic hclosed (hclosed.values hnode c hc)) hf
  · exact ns.size_lt_stmtDepth
  · exact hi

/-! ### The tree of a node is the one that is lowered -/

theorem ExprUnfolds.unique {i : ExprId} {t t' : Expr} (h : ns.ExprUnfolds i t) (h' : ns.ExprUnfolds i t') :
    t = t' := by
  induction h generalizing t' with
  | @node i node f hnode _ ih =>
    cases h' with
    | node hnode' hchildren' =>
      rw [hnode] at hnode'
      cases hnode'
      exact node.tree_congr fun c hc => ih c hc (hchildren' c hc)

theorem ExprUnfolds.get? {i : ExprId} {t : Expr} (h : ns.ExprUnfolds i t) :
    ∃ node, ns.exprs.get? i = some node ∧ ∀ c ∈ node.children, ∃ t', ns.ExprUnfolds c t' := by
  cases h with
  | @node _ node f hnode hchildren => exact ⟨node, hnode, fun c hc => ⟨f c, hchildren c hc⟩⟩

theorem ExprUnfolds.not_transGen {i : ExprId} {t : Expr} (h : ns.ExprUnfolds i t) :
    ¬ Relation.TransGen ns.exprUnfolding.Child i i := by
  induction h with
  | @node i node f hnode _ ih =>
    -- a way back to the node would pass one of its children, and lead back to that child
    intro hcycle
    obtain ⟨c, hc, hback⟩ := Relation.TransGen.head'_iff.1 hcycle
    have hmem : c ∈ node.children := by simpa only [Unfolding.Child, exprUnfolding, hnode, Option.elim_some] using hc
    exact ih c hmem (.tail' hback hc)

/-- **Expressions.** However deep a node that has a tree is followed, it is followed to the end if the depth is
greater than the number of nodes. -/
theorem ExprUnfolds.within_eq {i : ExprId} {t : Expr} (h : ns.ExprUnfolds i t) {depth : Nat}
    (hdepth : ns.exprs.size < depth) : ns.exprUnfolding.within depth i = t := by
  have htree : ns.ExprUnfolds i (ns.exprUnfolding.within depth i) := by
    apply ns.exprUnfolding.within_induct (K := fun j => ∃ t, ns.ExprUnfolds j t) (n := ns.exprs.size)
    · rintro j ⟨t, hj⟩
      exact hj.not_transGen
    · rintro j ⟨t, hj⟩
      obtain ⟨node, hnode, -⟩ := hj.get?
      exact (Arena.get?_isSome_iff _ _).1 (Option.isSome_of_eq_some hnode)
    · rintro j ⟨t, hj⟩ c hc
      obtain ⟨node, hnode, hchildren⟩ := hj.get?
      simp only [exprUnfolding, hnode, Option.elim_some] at hc
      exact hchildren c hc
    · rintro j ⟨t, hj⟩ f hf
      obtain ⟨node, hnode, -⟩ := hj.get?
      simp only [exprUnfolding, hnode, Option.elim_some] at hf ⊢
      exact .node hnode hf
    · exact hdepth
    · exact ⟨t, h⟩
  exact htree.unique h

theorem ExprUnfolds.exprTree_eq {i : ExprId} {t : Expr} (h : ns.ExprUnfolds i t) : ns.exprTree i = t :=
  h.within_eq ns.size_lt_exprDepth

/-- A statement node, with the trees of its expressions that are lowered. -/
theorem StmtUnfolds.get? {i : StmtId} {t : Stmt} (h : ns.StmtUnfolds i t) :
    ∃ node f, ns.stmts.get? i = some node ∧ t = node.tree ns.exprTree f ∧
      (∀ c ∈ node.exprs, ns.ExprUnfolds c (ns.exprTree c)) ∧ ∀ c ∈ node.children, ns.StmtUnfolds c (f c) := by
  cases h with
  | @node _ node e f hnode hexprs hchildren =>
    have htree : ∀ c ∈ node.exprs, e c = ns.exprTree c := fun c hc => (hexprs c hc).exprTree_eq.symm
    refine ⟨node, f, hnode, node.tree_congr_exprs htree, fun c hc => ?_, hchildren⟩
    rw [← htree c hc]
    exact hexprs c hc

theorem StmtUnfolds.unique {i : StmtId} {t t' : Stmt} (h : ns.StmtUnfolds i t) (h' : ns.StmtUnfolds i t') :
    t = t' := by
  induction h generalizing t' with
  | @node i node e f hnode hexprs _ ih =>
    obtain ⟨node', f', hnode', rfl, -, hchildren'⟩ := h'.get?
    rw [hnode] at hnode'
    cases hnode'
    rw [node.tree_congr_exprs fun c hc => (hexprs c hc).exprTree_eq.symm]
    exact node.tree_congr fun c hc => ih c hc (hchildren' c hc)

theorem StmtUnfolds.not_transGen {i : StmtId} {t : Stmt} (h : ns.StmtUnfolds i t) :
    ¬ Relation.TransGen ns.stmtUnfolding.Child i i := by
  induction h with
  | @node i node e f hnode _ _ ih =>
    intro hcycle
    obtain ⟨c, hc, hback⟩ := Relation.TransGen.head'_iff.1 hcycle
    have hmem : c ∈ node.children := by simpa only [Unfolding.Child, stmtUnfolding, hnode, Option.elim_some] using hc
    exact ih c hmem (.tail' hback hc)

/-- **Statements.** The same for statements. -/
theorem StmtUnfolds.within_eq {i : StmtId} {t : Stmt} (h : ns.StmtUnfolds i t) {depth : Nat}
    (hdepth : ns.stmts.size < depth) : ns.stmtUnfolding.within depth i = t := by
  have htree : ns.StmtUnfolds i (ns.stmtUnfolding.within depth i) := by
    apply ns.stmtUnfolding.within_induct (K := fun j => ∃ t, ns.StmtUnfolds j t) (n := ns.stmts.size)
    · rintro j ⟨t, hj⟩
      exact hj.not_transGen
    · rintro j ⟨t, hj⟩
      obtain ⟨node, f, hnode, -⟩ := hj.get?
      exact (Arena.get?_isSome_iff _ _).1 (Option.isSome_of_eq_some hnode)
    · rintro j ⟨t, hj⟩ c hc
      obtain ⟨node, f, hnode, -, -, hchildren⟩ := hj.get?
      simp only [stmtUnfolding, hnode, Option.elim_some] at hc
      exact ⟨f c, hchildren c hc⟩
    · rintro j ⟨t, hj⟩ f hf
      obtain ⟨node, _, hnode, -, hexprs, -⟩ := hj.get?
      simp only [stmtUnfolding, hnode, Option.elim_some] at hf ⊢
      exact .node hnode hexprs hf
    · exact hdepth
    · exact ⟨t, h⟩
  exact htree.unique h

theorem StmtUnfolds.stmtTree_eq {i : StmtId} {t : Stmt} (h : ns.StmtUnfolds i t) : ns.stmtTree i = t :=
  h.within_eq ns.size_lt_stmtDepth

/-- The tree of an expression node is made from those of its children. -/
theorem ExprUnfolds.exprTree_node {i : ExprId} {t : Expr} (h : ns.ExprUnfolds i t) :
    ∃ node, ns.exprs.get? i = some node ∧ ns.exprTree i = node.tree ns.exprTree := by
  have htree := h.exprTree_eq
  cases h with
  | @node _ node f hnode hchildren =>
    refine ⟨node, hnode, htree.trans ?_⟩
    exact node.tree_congr fun c hc => (hchildren c hc).exprTree_eq.symm

/-- The tree of a statement node is made from those of its expressions and of the statements in its blocks. -/
theorem StmtUnfolds.stmtTree_node {i : StmtId} {t : Stmt} (h : ns.StmtUnfolds i t) :
    ∃ node, ns.stmts.get? i = some node ∧ ns.stmtTree i = node.tree ns.exprTree ns.stmtTree := by
  obtain ⟨node, f, hnode, ht, -, hchildren⟩ := h.get?
  refine ⟨node, hnode, h.stmtTree_eq.trans (ht.trans ?_)⟩
  exact node.tree_congr fun c hc => (hchildren c hc).stmtTree_eq.symm

/-- The trees of statements that exist. -/
theorem stmtUnfolds_map (hacyclic : ns.Acyclic) (hclosed : ns.Closed) {ids : List StmtId}
    (hids : ∀ i ∈ ids, i < ns.stmts.size) :
    List.Forall₂ ns.StmtUnfolds ids (ids.map ns.stmtTree) := by
  rw [List.forall₂_map_right_iff, List.forall₂_same]
  exact fun i hi => stmtUnfolds_stmtTree hacyclic hclosed (hids i hi)

end Nodes

end Spillway
