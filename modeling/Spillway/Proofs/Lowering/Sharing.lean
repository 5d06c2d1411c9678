import Mathlib.Order.Basic
import Spillway.Proofs.Lowering.Exact
import Spillway.Proofs.Lowering.Node
import Spillway.Proofs.Lowering.Registers
import Spillway.Proofs.Source.Unfolds

/-!
# Shared nodes

Lowering goes from number to number through an arena. What it does depends only on the tree that it unfolds on the way:
`Env.exprWithin_congr` and `Env.stmtWithin_congr` compare two arenas.

A node that is named in several places is lowered in each of them anew. The code of a whole contains, for every path
that leads to the node, one piece that is the code of the node, lowered from the counters that were reached there:
`Nodes.Unfolds.visits`. Pieces of different paths stand one behind the other, so no register and no label is drawn for
two of them.

A path is a list of positions among the nodes that lowering goes on to (`Nodes.visited`). These are the children of a
node, in the order in which their code is written, but for arguments of built-in functions that are not evaluated: an
allocation only looks at the name that is its argument.
-/

namespace Spillway

/-- Counters that are ahead of others. -/
instance : Preorder Counters where
  le c c' := c.registers ≤ c'.registers ∧ c.labels ≤ c'.labels
  le_refl c := ⟨Nat.le_refl _, Nat.le_refl _⟩
  le_trans _ _ _ h h' := ⟨Nat.le_trans h.1 h'.1, Nat.le_trans h.2 h'.2⟩

theorem Counters.le_ahead (c : Counters) (n m : Nat) : c ≤ ⟨c.registers + n, c.labels + m⟩ :=
  ⟨Nat.le_add_right _ n, Nat.le_add_right _ m⟩

namespace Lowering

open Linear (Instr Drawn Fragment Numbered labels)

namespace Env

variable {env : Env} {c c' : Counters} {code : List Instr}

theorem Follows.counters_le {r r' : VReg} {ty : Ty} {path : List String} (h : env.Follows r ty path c code r' c') :
    c ≤ c' := ⟨(h.drawn : Drawn ∅ _ _ _).le, Nat.le_of_eq h.labels_eq.2.symm⟩

theorem Computes.counters_le {ph : Phrase} {rs : List VReg} (h : env.Computes ph c code rs c') : c ≤ c' :=
  ⟨h.registers_le, Nat.le_of_eq h.labels_eq.2.symm⟩

theorem Stores.counters_le {value : VReg} {place : Place} (h : env.Stores value place c code c') : c ≤ c' :=
  ⟨h.registers_le, Nat.le_of_eq h.labels_eq.2.symm⟩

theorem Emits.counters_le {part : Part} (h : env.Emits part c code c') : c ≤ c' := ⟨h.registers_le, h.draws.1⟩

end Env

/-! ### Pieces of code -/

/-- Code, with the counters before and after it was written. -/
structure Piece where
  start : Counters
  code : List Instr
  stop : Counters

namespace Piece

/-- The pieces stand in the code one behind the other, and each starts from counters that are not behind those at
which the one before it stopped. -/
inductive Holds : Piece → List Piece → Prop
  | nil {c c' : Counters} {code : List Instr} : c ≤ c' → Holds ⟨c, code, c'⟩ []
  | cons {c c' : Counters} {before after : List Instr} {p : Piece} {ps : List Piece} :
      c ≤ p.start → p.start ≤ p.stop → Holds ⟨p.stop, after, c'⟩ ps →
      Holds ⟨c, before ++ (p.code ++ after), c'⟩ (p :: ps)

namespace Holds

variable {c c₁ c₂ : Counters} {code code' : List Instr} {whole p : Piece} {ps qs : List Piece}

/-- Code that is written first does not matter. -/
theorem after (hle : c ≤ c₁) (h : Holds ⟨c₁, code', c₂⟩ ps) : Holds ⟨c, code ++ code', c₂⟩ ps := by
  cases h with
  | nil hle' => exact .nil (le_trans hle hle')
  | cons hstart hstop hrest =>
    rw [← List.append_assoc]
    exact .cons (le_trans hle hstart) hstop hrest

theorem append (h : Holds ⟨c, code, c₁⟩ ps) (h' : Holds ⟨c₁, code', c₂⟩ qs) :
    Holds ⟨c, code ++ code', c₂⟩ (ps ++ qs) := by
  generalize hwhole : (⟨c, code, c₁⟩ : Piece) = whole at h
  induction h generalizing c code with
  | nil hle =>
    cases hwhole
    exact h'.after hle
  | cons hstart hstop _ ih =>
    cases hwhole
    rw [List.append_assoc, List.append_assoc]
    exact .cons hstart hstop (ih rfl)

theorem single (h : p.start ≤ p.stop) : Holds p [p] := by
  have hp : Holds ⟨p.start, [] ++ (p.code ++ []), p.stop⟩ [p] := .cons le_rfl h (.nil le_rfl)
  rwa [List.nil_append, List.append_nil] at hp

theorem start_le (h : whole.Holds ps) (hp : p ∈ ps) : whole.start ≤ p.start := by
  induction h with
  | nil => cases hp
  | cons hstart hstop _ ih =>
    obtain rfl | hp := List.mem_cons.1 hp
    · exact hstart
    · exact le_trans (le_trans hstart hstop) (ih hp)

/-- Of two pieces one has stopped where the other starts. -/
theorem pairwise (h : whole.Holds ps) : ps.Pairwise fun p q => p.stop ≤ q.start := by
  induction h with
  | nil => exact .nil
  | cons _ _ hrest ih => exact .cons (fun q hq => hrest.start_le hq) ih

end Holds

/-- The code writes the registers and defines the labels that were drawn for it, and writes `old` registers. -/
def Fresh (old : Set VReg) (p : Piece) : Prop :=
  Drawn old p.start.registers p.code p.stop.registers ∧
    ∃ ns, Numbered p.code ns ∧ Draws p.start.labels p.stop.labels ns

/-- Two pieces write no register in common, but for `old` ones, and define no label in common. -/
def Apart (old : Set VReg) (p q : Piece) : Prop :=
  (∀ r ∈ Fragment.targets p.code, r ∈ Fragment.targets q.code → r ∈ old) ∧
    ∀ l ∈ labels p.code, l ∉ labels q.code

/-- Fresh pieces of which the second starts where the first has stopped, or later, are apart. -/
theorem Fresh.apart {old : Set VReg} {p q : Piece} (hp : p.Fresh old) (hq : q.Fresh old) (hle : p.stop ≤ q.start) :
    p.Apart old q := by
  constructor
  · intro r hr hr'
    obtain ⟨i, hi, htarget⟩ := List.mem_filterMap.1 hr
    obtain ⟨j, hj, htarget'⟩ := List.mem_filterMap.1 hr'
    obtain hold | ⟨-, hlt⟩ := hp.1.target hi htarget
    · exact hold
    · obtain hold | ⟨hge, -⟩ := hq.1.target hj htarget'
      · exact hold
      · have hregisters := hle.1
        omega
  · intro l hl hl'
    obtain ⟨ns, hns, hdraws⟩ := hp.2
    obtain ⟨ms, hms, hdraws'⟩ := hq.2
    obtain ⟨n, hn, hnumber⟩ := hns.mem hl
    obtain ⟨m, hm, hnumber'⟩ := hms.mem hl'
    have hsame : n = m := Option.some.inj (hnumber.symm.trans hnumber')
    have hlt := ((hdraws.2 n).1 hn).2
    have hge := ((hdraws'.2 m).1 hm).1
    have hlabels := hle.2
    omega

end Piece

end Lowering

/-! ### The nodes that lowering goes on to -/

open Lowering (Env Piece)

/-- The number of an expression node or of a statement node. -/
inductive NodeId where
  | expr (i : ExprId)
  | stmt (i : StmtId)
  deriving DecidableEq, Repr

/-- The arguments of a call that are evaluated: all for a function of the program, the first where a struct is given
back, and none for an allocation. -/
def Lowering.Env.evaluated {α : Type} (env : Env) (callee : String) (arguments : List α) : List α :=
  match env.callee callee with
  | .ok (.user _) => arguments
  | .ok (.builtin .delete) => arguments.take 1
  | .ok (.builtin .new) | .error _ => []

/-- The expressions that lowering an expression goes on to, in this order. -/
def ExprNode.visited (env : Env) : ExprNode → List ExprId
  | .call callee arguments => env.evaluated callee arguments
  | node => node.children

/-- The nodes that lowering a statement goes on to, in this order. A loop tests its condition behind its body. -/
def StmtNode.visited (env : Env) : StmtNode → List NodeId
  | .assign _ value => [.expr value]
  | .print .. | .read _ => []
  | .cond condition thenBlock elseBlock => .expr condition :: (thenBlock ++ elseBlock.getD []).map .stmt
  | .loop condition body => body.map .stmt ++ [.expr condition]
  | .ret value => value.toList.map .expr
  | .call callee arguments => (env.evaluated callee arguments).map .expr

namespace Nodes

/-- The nodes that lowering a node goes on to, in this order. -/
def visited (ns : Nodes) (env : Env) : NodeId → List NodeId
  | .expr i => (ns.exprs.get? i).elim [] fun node => (node.visited env).map .expr
  | .stmt i => (ns.stmts.get? i).elim [] (StmtNode.visited env)

/-- The node that a path leads to. -/
def find? (ns : Nodes) (env : Env) : NodeId → List Nat → Option NodeId
  | k, [] => some k
  | k, n :: path => (ns.visited env k)[n]?.bind fun j => ns.find? env j path

/-- A node stands for a finite tree. -/
def Unfolds (ns : Nodes) : NodeId → Prop
  | .expr i => ∃ t, ns.ExprUnfolds i t
  | .stmt i => ∃ t, ns.StmtUnfolds i t

/-- Lowering a node writes this piece of code. -/
def Lowers (ns : Nodes) (env : Env) (k : NodeId) (p : Piece) : Prop :=
  match k with
  | .expr i => ∃ r, (env.exprAt ns i).run p.start = ⟨.ok r, p.stop, p.code⟩
  | .stmt i => (env.stmtAt ns i).run p.start = ⟨.ok (), p.stop, p.code⟩

variable {ns : Nodes} {env : Env} {k j : NodeId}

theorem lowers_expr_iff {i : ExprId} {p : Piece} :
    ns.Lowers env (.expr i) p ↔ ∃ r, env.Computes (.expr (ns.exprTree i)) p.start p.code [r] p.stop := by
  show (∃ r, (env.exprAt ns i).run p.start = _) ↔ _
  rw [Env.exprAt_eq]
  exact exists_congr fun r => ⟨Env.computes_of_expr env _, fun h => h.runs.expr_run⟩

theorem lowers_stmt_iff {i : StmtId} {p : Piece} :
    ns.Lowers env (.stmt i) p ↔ env.Emits (.stmt (ns.stmtTree i)) p.start p.code p.stop := by
  show (env.stmtAt ns i).run p.start = _ ↔ _
  rw [Env.stmtAt_eq]
  exact ⟨Env.emits_of_stmt env _, fun h => h.writes⟩

theorem find?_append (path path' : List Nat) :
    ns.find? env k (path ++ path') = (ns.find? env k path).bind fun j => ns.find? env j path' := by
  induction path generalizing k with
  | nil => rfl
  | cons n path ih =>
    rw [List.cons_append, find?, find?, Option.bind_assoc]
    exact Option.bind_congr fun j _ => ih

/-! ### No node comes twice on a path -/

theorem mem_of_mem_evaluated {α : Type} {callee : String} {arguments : List α} {a : α}
    (h : a ∈ env.evaluated callee arguments) : a ∈ arguments := by
  unfold Env.evaluated at h
  split at h
  · exact h
  · exact List.mem_of_mem_take h
  · cases h
  · cases h

theorem mem_children_of_visited {node : ExprNode} {c : ExprId} (h : c ∈ node.visited env) : c ∈ node.children := by
  cases node with
  | call callee arguments => exact mem_of_mem_evaluated h
  | _ => exact h

theorem mem_of_visited {node : StmtNode} (h : j ∈ node.visited env) :
    (∃ c ∈ node.exprs, j = .expr c) ∨ ∃ c ∈ node.children, j = .stmt c := by
  cases node with
  | assign target value => exact .inl ⟨value, List.mem_singleton.2 rfl, List.mem_singleton.1 h⟩
  | print | read => cases h
  | cond condition thenBlock elseBlock =>
    obtain rfl | h := List.mem_cons.1 h
    · exact .inl ⟨condition, List.mem_singleton.2 rfl, rfl⟩
    · obtain ⟨c, hc, rfl⟩ := List.mem_map.1 h
      exact .inr ⟨c, hc, rfl⟩
  | loop condition body =>
    obtain h | h := List.mem_append.1 h
    · obtain ⟨c, hc, rfl⟩ := List.mem_map.1 h
      exact .inr ⟨c, hc, rfl⟩
    · exact .inl ⟨condition, List.mem_singleton.2 rfl, List.mem_singleton.1 h⟩
  | ret value =>
    obtain ⟨c, hc, rfl⟩ := List.mem_map.1 h
    exact .inl ⟨c, hc, rfl⟩
  | call callee arguments =>
    obtain ⟨c, hc, rfl⟩ := List.mem_map.1 h
    exact .inl ⟨c, mem_of_mem_evaluated hc, rfl⟩

/-- What lowering goes on to from an expression is one of its children. -/
theorem exists_of_visited_expr {i : ExprId} {node : ExprNode} (hnode : ns.exprs.get? i = some node)
    (h : j ∈ ns.visited env (.expr i)) : ∃ c ∈ node.children, j = .expr c := by
  rw [visited, hnode] at h
  obtain ⟨c, hc, rfl⟩ := List.mem_map.1 h
  exact ⟨c, mem_children_of_visited hc, rfl⟩

/-- **Induction over shared nodes.** What holds of a node whenever it holds of those that lowering goes on to from it,
holds of every node that stands for a finite tree. -/
theorem Unfolds.induct (env : Env) {P : NodeId → Prop}
    (hstep : ∀ k, ns.Unfolds k → (∀ j ∈ ns.visited env k, P j) → P k) (h : ns.Unfolds k) : P k := by
  have hexpr : ∀ {i t}, ns.ExprUnfolds i t → P (.expr i) := by
    intro i t h
    induction h with
    | node hnode hchildren ih =>
      refine hstep _ ⟨_, .node hnode hchildren⟩ fun j hj => ?_
      obtain ⟨c, hc, rfl⟩ := exists_of_visited_expr hnode hj
      exact ih c hc
  have hstmt : ∀ {i t}, ns.StmtUnfolds i t → P (.stmt i) := by
    intro i t h
    induction h with
    | node hnode hexprs hchildren ih =>
      refine hstep _ ⟨_, .node hnode hexprs hchildren⟩ fun j hj => ?_
      rw [visited, hnode] at hj
      obtain ⟨c, hc, rfl⟩ | ⟨c, hc, rfl⟩ := mem_of_visited hj
      · exact hexpr (hexprs c hc)
      · exact ih c hc
  cases k with
  | expr i =>
    obtain ⟨t, ht⟩ := h
    exact hexpr ht
  | stmt i =>
    obtain ⟨t, ht⟩ := h
    exact hstmt ht

/-- No path leads from a node back to it. -/
theorem Unfolds.find?_self (h : ns.Unfolds k) : ∀ path, ns.find? env k path = some k → path = [] := by
  refine Unfolds.induct env (P := fun k => ∀ path, ns.find? env k path = some k → path = []) ?_ h
  intro k _ ih path hpath
  cases path with
  | nil => rfl
  | cons n path =>
    obtain ⟨j, hj, hback⟩ := Option.bind_eq_some_iff.1 hpath
    -- the path back to `k` and its first step lead from `j` to `j`
    have hcycle : ns.find? env j (path ++ [n]) = some j := by
      rw [find?_append, hback]
      show ((ns.visited env k)[n]?.bind fun j => some j) = some j
      rw [hj]
      rfl
    have hnil := ih j (List.mem_of_getElem? hj) _ hcycle
    simp at hnil

/-! ### One step: the code of a node holds that of the nodes it goes on to -/

/-- The code of these nodes stands in the piece, one behind the other. -/
def Passes (ns : Nodes) (env : Env) (ks : List NodeId) (whole : Piece) : Prop :=
  ∃ ps, whole.Holds ps ∧ List.Forall₂ (ns.Lowers env) ks ps

section Passes

open Linear (Instr)

variable {ks ks' : List NodeId} {c c₁ c₂ : Counters} {code code' : List Instr}

theorem Lowers.start_le {p : Piece} (h : ns.Lowers env k p) : p.start ≤ p.stop := by
  cases k with
  | expr i =>
    obtain ⟨r, hcode⟩ := lowers_expr_iff.1 h
    exact hcode.counters_le
  | stmt i => exact (lowers_stmt_iff.1 h).counters_le

theorem Passes.none (h : c ≤ c₁) : ns.Passes env [] ⟨c, code, c₁⟩ := ⟨[], .nil h, .nil⟩

theorem Passes.one {p : Piece} (h : ns.Lowers env k p) : ns.Passes env [k] p :=
  ⟨[p], .single h.start_le, .cons h .nil⟩

theorem Passes.append (h : ns.Passes env ks ⟨c, code, c₁⟩) (h' : ns.Passes env ks' ⟨c₁, code', c₂⟩) :
    ns.Passes env (ks ++ ks') ⟨c, code ++ code', c₂⟩ := by
  obtain ⟨ps, hholds, hlowers⟩ := h
  obtain ⟨qs, hholds', hlowers'⟩ := h'
  exact ⟨ps ++ qs, hholds.append hholds', List.rel_append hlowers hlowers'⟩

/-- What the node itself writes last. -/
theorem Passes.before (h : ns.Passes env ks ⟨c, code, c₁⟩) (hle : c₁ ≤ c₂) (last : List Instr) :
    ns.Passes env ks ⟨c, code ++ last, c₂⟩ := by
  have hlast : ns.Passes env [] ⟨c₁, last, c₂⟩ := .none hle
  have happend := h.append hlast
  rwa [List.append_nil] at happend

theorem passes_expr {i : ExprId} {r : VReg} (h : env.Computes (.expr (ns.exprTree i)) c code [r] c₁) :
    ns.Passes env [.expr i] ⟨c, code, c₁⟩ := .one (lowers_expr_iff.2 ⟨r, h⟩)

theorem passes_stmt {i : StmtId} (h : env.Emits (.stmt (ns.stmtTree i)) c code c₁) :
    ns.Passes env [.stmt i] ⟨c, code, c₁⟩ := .one (lowers_stmt_iff.2 h)

theorem passes_links {links : List (BinOp × ExprId)} {r r' : VReg}
    (h : env.Computes (.links r (links.map fun l => (l.1, ns.exprTree l.2))) c code [r'] c₁) :
    ns.Passes env ((links.map (·.2)).map .expr) ⟨c, code, c₁⟩ := by
  induction links generalizing r c code with
  | nil =>
    cases h
    exact .none le_rfl
  | cons l links ih =>
    cases h with
    | linksCons he hrest =>
      exact ((passes_expr he).before (Counters.le_ahead _ 1 0) _).append (ih hrest)

theorem passes_exprs {ids : List ExprId} {rs : List VReg}
    (h : env.Computes (.exprs (ids.map ns.exprTree)) c code rs c₁) :
    ns.Passes env (ids.map .expr) ⟨c, code, c₁⟩ := by
  induction ids generalizing rs c code with
  | nil =>
    cases h
    exact .none le_rfl
  | cons i ids ih =>
    cases h with
    | exprsCons he hrest => exact (passes_expr he).append (ih hrest)

theorem passes_block {ids : List StmtId} (h : env.Emits (.block (ids.map ns.stmtTree)) c code c₁) :
    ns.Passes env (ids.map .stmt) ⟨c, code, c₁⟩ := by
  induction ids generalizing c code with
  | nil =>
    cases h
    exact .none le_rfl
  | cons i ids ih =>
    cases h with
    | cons hs hrest => exact (passes_stmt hs).append (ih hrest)

/-- The arguments that a call evaluates. -/
theorem evaluated_user {α : Type} {callee : String} {f : Signature} (h : env.callee callee = .ok (.user f))
    (arguments : List α) : env.evaluated callee arguments = arguments := by
  rw [Env.evaluated, h]

theorem evaluated_delete {α : Type} {callee : String} (h : env.callee callee = .ok (.builtin .delete))
    (arguments : List α) : env.evaluated callee arguments = arguments.take 1 := by
  rw [Env.evaluated, h]

theorem evaluated_new {α : Type} {callee : String} (h : env.callee callee = .ok (.builtin .new))
    (arguments : List α) : env.evaluated callee arguments = [] := by
  rw [Env.evaluated, h]

/-- **Expressions.** One case for each kind of expression. -/
theorem passes_exprNode {node : ExprNode} {r : VReg} (h : env.Computes (.expr (node.tree ns.exprTree)) c code [r] c₁) :
    ns.Passes env ((node.visited env).map .expr) ⟨c, code, c₁⟩ := by
  have hle := h.counters_le
  cases node with
  | int | bool | nil | name => exact .none hle
  | paren inner =>
    cases h with
    | paren he => exact passes_expr he
  | chain head links =>
    cases h with
    | chain hhead hlinks => exact (passes_expr hhead).append (passes_links hlinks)
  | unary op operand =>
    cases h with
    | not he => exact (passes_expr he).before (Counters.le_ahead _ 1 0) _
    | negate he => exact (passes_expr he).before (Counters.le_ahead _ 2 0) _
  | select base fields =>
    cases h with
    | select _ hbase hpath => exact (passes_expr hbase).before hpath.counters_le _
  | call callee arguments =>
    cases h with
    | alloc hnew =>
      rw [ExprNode.visited, evaluated_new hnew]
      exact .none hle
    | call huser harguments =>
      rw [ExprNode.visited, evaluated_user huser]
      exact (passes_exprs harguments).before (Counters.le_ahead _ 1 0) _

/-- **Statements.** One case for each kind of statement. -/
theorem passes_stmtNode {node : StmtNode} (h : env.Emits (.stmt (node.tree ns.exprTree ns.stmtTree)) c code c₁) :
    ns.Passes env (node.visited env) ⟨c, code, c₁⟩ := by
  have hle := h.counters_le
  cases node with
  | assign target value =>
    cases h with
    | assign hvalue hstores => exact (passes_expr hvalue).before hstores.counters_le _
  | print | read => exact .none hle
  | cond condition thenBlock elseBlock =>
    cases elseBlock with
    | none =>
      rw [StmtNode.visited, Option.getD_none, List.append_nil]
      cases h with
      | when htest hthen =>
        show ns.Passes env ([.expr condition] ++ thenBlock.map .stmt) _
        refine .before (.append (.before ?_ (Counters.le_ahead _ 0 1) _) (passes_block hthen)) le_rfl _
        exact passes_expr htest
    | some elseBlock =>
      rw [StmtNode.visited, Option.getD_some, List.map_append]
      cases h with
      | choose htest hthen helse =>
        show ns.Passes env ([.expr condition] ++ thenBlock.map .stmt ++ elseBlock.map .stmt) _
        refine .before (.append (.before ?_ le_rfl _) (passes_block helse)) le_rfl _
        refine .append (.before ?_ (Counters.le_ahead _ 0 2) _) (passes_block hthen)
        exact passes_expr htest
  | loop condition body =>
    cases h with
    | loop hbody htest =>
      refine .before (.append (.before ?_ le_rfl _) (passes_expr htest)) le_rfl _
      exact .append (.none (c.le_ahead 0 2)) (passes_block hbody)
  | ret value =>
    cases value with
    | none => exact .none hle
    | some value =>
      cases h with
      | give hvalue => exact (passes_expr hvalue).before le_rfl _
  | call callee arguments =>
    rw [StmtNode.visited]
    cases arguments with
    | nil =>
      have hnone : env.evaluated callee ([] : List ExprId) = [] := List.eq_nil_iff_forall_not_mem.2 fun a ha =>
        List.not_mem_nil (mem_of_mem_evaluated ha)
      rw [hnone]
      exact .none hle
    | cons e rest =>
      cases h with
      | alloc hnew =>
        rw [evaluated_new hnew]
        exact .none hle
      | free hdelete he =>
        rw [evaluated_delete hdelete]
        exact (passes_expr he).before le_rfl _
      | call huser harguments =>
        rw [evaluated_user huser]
        exact (passes_exprs harguments).before le_rfl _

end Passes

/-- **One step.** The code of a node holds that of the nodes that lowering goes on to, once each and in this order. -/
theorem Unfolds.passes (h : ns.Unfolds k) {whole : Piece} (hlowers : ns.Lowers env k whole) :
    ns.Passes env (ns.visited env k) whole := by
  cases k with
  | expr i =>
    obtain ⟨t, ht⟩ := h
    obtain ⟨node, hnode, htree⟩ := ht.exprTree_node
    obtain ⟨r, hcode⟩ := lowers_expr_iff.1 hlowers
    rw [htree] at hcode
    rw [visited, hnode]
    exact passes_exprNode hcode
  | stmt i =>
    obtain ⟨t, ht⟩ := h
    obtain ⟨node, hnode, htree⟩ := ht.stmtTree_node
    have hcode := lowers_stmt_iff.1 hlowers
    rw [htree] at hcode
    rw [visited, hnode]
    exact passes_stmtNode hcode

/-! ### All the way: one piece for each path -/

/-- The pieces that lowering writes for a node, one for each path of a set, in the order in which they stand in the
code of the whole. -/
structure Visits (ns : Nodes) (env : Env) (target : NodeId) (paths : Set (List Nat)) (whole : Piece)
    (visits : List (List Nat × Piece)) : Prop where
  nodup : (visits.map Prod.fst).Nodup
  mem_iff : ∀ path, path ∈ visits.map Prod.fst ↔ path ∈ paths
  holds : whole.Holds (visits.map Prod.snd)
  lowers : ∀ v ∈ visits, ns.Lowers env target v.2

namespace Visits

variable {target : NodeId} {paths paths' : Set (List Nat)} {whole p : Piece} {vs ws : List (List Nat × Piece)}

/-- The node itself. -/
theorem here (h : ns.Lowers env target whole) : ns.Visits env target {[]} whole [([], whole)] where
  nodup := List.nodup_singleton _
  mem_iff _ := List.mem_singleton
  holds := .single h.start_le
  lowers v hv := by
    cases List.mem_singleton.1 hv
    exact h

/-- Paths with one more step at their start. -/
theorem step (n : Nat) (h : ns.Visits env target paths whole vs) :
    ns.Visits env target ((n :: ·) '' paths) whole (vs.map fun v => (n :: v.1, v.2)) := by
  have hfst : (vs.map fun v => (n :: v.1, v.2)).map Prod.fst = (vs.map Prod.fst).map (n :: ·) := by
    rw [List.map_map, List.map_map]
    rfl
  constructor
  · rw [hfst]
    exact h.nodup.map fun _ _ heq => (List.cons.inj heq).2
  · intro path
    rw [hfst, List.mem_map]
    exact exists_congr fun rest => and_congr_left' (h.mem_iff rest)
  · rw [List.map_map]
    exact h.holds
  · intro v hv
    obtain ⟨w, hw, rfl⟩ := List.mem_map.1 hv
    exact h.lowers w hw

theorem append {c c₁ c₂ : Counters} {code code' : List Linear.Instr}
    (h : ns.Visits env target paths ⟨c, code, c₁⟩ vs) (h' : ns.Visits env target paths' ⟨c₁, code', c₂⟩ ws)
    (hdisjoint : ∀ path ∈ paths, path ∉ paths') :
    ns.Visits env target (paths ∪ paths') ⟨c, code ++ code', c₂⟩ (vs ++ ws) := by
  constructor
  · rw [List.map_append, List.nodup_append']
    refine ⟨h.nodup, h'.nodup, fun path hpath hpath' => ?_⟩
    exact hdisjoint path ((h.mem_iff path).1 hpath) ((h'.mem_iff path).1 hpath')
  · intro path
    rw [List.map_append, List.mem_append, h.mem_iff, h'.mem_iff]
    rfl
  · rw [List.map_append]
    exact h.holds.append h'.holds
  · intro v hv
    obtain hv | hv := List.mem_append.1 hv
    · exact h.lowers v hv
    · exact h'.lowers v hv

end Visits

/-- The paths from a list of nodes to a node, of which the first step is counted from `n`. -/
def pathsFrom (ns : Nodes) (env : Env) (target : NodeId) : Nat → List NodeId → Set (List Nat)
  | _, [] => ∅
  | n, k :: ks => (n :: ·) '' { path | ns.find? env k path = some target } ∪ ns.pathsFrom env target (n + 1) ks

theorem mem_pathsFrom {target : NodeId} {n : Nat} {ks : List NodeId} {path : List Nat} :
    path ∈ ns.pathsFrom env target n ks ↔
      ∃ m rest, path = (n + m) :: rest ∧ ks[m]?.bind (fun k => ns.find? env k rest) = some target := by
  induction ks generalizing n with
  | nil => simp [pathsFrom]
  | cons k ks ih =>
    rw [pathsFrom, Set.mem_union, ih]
    constructor
    · rintro (⟨rest, hrest, rfl⟩ | ⟨m, rest, rfl, hrest⟩)
      · exact ⟨0, rest, rfl, hrest⟩
      · exact ⟨m + 1, rest, by rw [Nat.add_assoc, Nat.add_comm 1 m], hrest⟩
    · rintro ⟨m, rest, rfl, hrest⟩
      cases m with
      | zero => exact .inl ⟨rest, hrest, rfl⟩
      | succ m => exact .inr ⟨m, rest, by rw [Nat.add_assoc, Nat.add_comm 1 m], hrest⟩

/-- Through the nodes of a list. -/
theorem exists_visits_of_holds {target : NodeId} {whole : Piece} {ks : List NodeId} {ps : List Piece}
    (hholds : whole.Holds ps) (hlowers : List.Forall₂ (ns.Lowers env) ks ps) (n : Nat)
    (hvisits : ∀ k ∈ ks, ∀ p, ns.Lowers env k p →
      ∃ vs, ns.Visits env target { path | ns.find? env k path = some target } p vs) :
    ∃ vs, ns.Visits env target (ns.pathsFrom env target n ks) whole vs := by
  induction hlowers generalizing whole n with
  | nil =>
    exact ⟨[], List.nodup_nil, fun path => iff_of_false List.not_mem_nil (Set.notMem_empty path), hholds, by simp⟩
  | @cons k p ks ps hk _ ih =>
    cases hholds with
    | cons hstart hstop hrest =>
      obtain ⟨vs, hvs⟩ := hvisits k (List.mem_cons_self ..) p hk
      obtain ⟨ws, hws⟩ := ih hrest (n + 1) fun k hk => hvisits k (List.mem_cons_of_mem _ hk)
      -- paths through `k` and through a later node differ in their first step
      have hdisjoint : ∀ path ∈ (n :: ·) '' { path | ns.find? env k path = some target },
          path ∉ ns.pathsFrom env target (n + 1) ks := by
        rintro _ ⟨rest, -, rfl⟩ hlater
        obtain ⟨m, rest', heq, -⟩ := mem_pathsFrom.1 hlater
        have hn := (List.cons.inj heq).1
        omega
      have hboth := (hvs.step n).append hws hdisjoint
      exact ⟨_, { hboth with holds := hboth.holds.after hstart }⟩

theorem Unfolds.paths_self (h : ns.Unfolds k) : { path | ns.find? env k path = some k } = {[]} := by
  ext path
  exact ⟨h.find?_self path, fun hpath => by cases hpath; rfl⟩

/-- A path to another node has a first step. -/
theorem paths_of_ne {target : NodeId} (h : k ≠ target) :
    { path | ns.find? env k path = some target } = ns.pathsFrom env target 0 (ns.visited env k) := by
  ext path
  rw [mem_pathsFrom]
  show ns.find? env k path = some target ↔ _
  cases path with
  | nil =>
    constructor
    · intro hhere
      exact absurd (Option.some.inj hhere) h
    · rintro ⟨m, rest, hnil, -⟩
      cases hnil
  | cons n path =>
    constructor
    · intro hpath
      exact ⟨n, path, by rw [Nat.zero_add], hpath⟩
    · rintro ⟨m, rest, hcons, hpath⟩
      obtain ⟨rfl, rfl⟩ := List.cons.inj hcons
      rwa [find?, Nat.zero_add]

/-- **All the way.** The code of a node holds one piece for each path to another, and each piece is what lowering
writes for that node. -/
theorem Unfolds.visits (target : NodeId) (h : ns.Unfolds k) : ∀ whole, ns.Lowers env k whole →
    ∃ vs, ns.Visits env target { path | ns.find? env k path = some target } whole vs := by
  refine Unfolds.induct env (P := fun k => ∀ whole, ns.Lowers env k whole →
    ∃ vs, ns.Visits env target { path | ns.find? env k path = some target } whole vs) ?_ h
  intro k hk ih whole hlowers
  by_cases htarget : k = target
  · subst htarget
    rw [hk.paths_self]
    exact ⟨_, .here hlowers⟩
  · rw [paths_of_ne htarget]
    obtain ⟨ps, hholds, hparts⟩ := hk.passes hlowers
    exact exists_visits_of_holds hholds hparts 0 ih

theorem Lowers.fresh {p : Piece} (h : ns.Lowers env k p) : p.Fresh env.owned := by
  cases k with
  | expr i =>
    obtain ⟨r, hcode⟩ := lowers_expr_iff.1 h
    refine ⟨hcode.drawn, [], .none hcode.labels_eq.1, ?_⟩
    rw [hcode.labels_eq.2]
    exact .nil _
  | stmt i =>
    have hcode := lowers_stmt_iff.1 h
    exact ⟨hcode.drawn, hcode.draws.2⟩

/-- The pieces of different paths have no new register and no label in common. -/
theorem Visits.pairwise_apart {target : NodeId} {paths : Set (List Nat)} {whole : Piece}
    {vs : List (List Nat × Piece)} (h : ns.Visits env target paths whole vs) :
    (vs.map Prod.snd).Pairwise (Piece.Apart env.owned) := by
  have hfresh : ∀ p ∈ vs.map Prod.snd, p.Fresh env.owned := by
    intro p hp
    obtain ⟨v, hv, rfl⟩ := List.mem_map.1 hp
    exact (h.lowers v hv).fresh
  exact h.holds.pairwise.imp_of_mem fun hp hq hle => (hfresh _ hp).apart (hfresh _ hq) hle

end Nodes

/-! ### Two arenas -/

namespace Lowering.Env

variable {ns ns' : Nodes} {depth depth' : Nat}

/-- **Expressions of two arenas.** Lowering goes through each arena by the numbers that it finds there. If both walks
unfold the same tree, they ask for the same types and do the same. -/
theorem exprWithin_congr (env : Env) {i i' : ExprId} {t : Expr} (h : ns.ExprUnfolds i t) (h' : ns'.ExprUnfolds i' t)
    (hdepth : ns.exprs.size < depth) (hdepth' : ns'.exprs.size < depth') :
    env.typeWithin ns depth i = env.typeWithin ns' depth' i' ∧
      env.exprWithin ns depth i = env.exprWithin ns' depth' i' := by
  rw [typeWithin_eq, typeWithin_eq, exprWithin_eq, exprWithin_eq, h.within_eq hdepth, h'.within_eq hdepth']
  exact ⟨rfl, rfl⟩

/-- **Statements of two arenas.** -/
theorem stmtWithin_congr (env : Env) {i i' : StmtId} {t : Stmt} (h : ns.StmtUnfolds i t) (h' : ns'.StmtUnfolds i' t)
    (hdepth : ns.stmts.size < depth) (hdepth' : ns'.stmts.size < depth') :
    env.stmtWithin ns depth i = env.stmtWithin ns' depth' i' := by
  rw [stmtWithin_eq, stmtWithin_eq, h.within_eq hdepth, h'.within_eq hdepth']

/-- **Lowering sees trees only.** Lowering follows the numbers of nodes, in the arena where they stand. Nodes of two
arenas that unfold to the same tree have the same type and are lowered alike, whatever their numbers are and however
much they share: with the same code, result and counters, or with the same report. This does not depend on the depth
to which nodes are followed, once it is more than there are nodes. A node that is reached on several paths is lowered
anew on each of them: the code holds one piece for each path, which is the code of the node, and the pieces share no
label, and no register but those of variables. -/
theorem lowering_sees_trees (env : Env) :
    (∀ (ns ns' : Nodes) (i i' : ExprId) (t : Expr), ns.ExprUnfolds i t → ns'.ExprUnfolds i' t →
      ∀ depth > ns.exprs.size, ∀ depth' > ns'.exprs.size,
        env.typeWithin ns depth i = env.typeWithin ns' depth' i' ∧
        ∀ c, (env.exprWithin ns depth i).run c = (env.exprWithin ns' depth' i').run c) ∧
    (∀ (ns ns' : Nodes) (i i' : StmtId) (t : Stmt), ns.StmtUnfolds i t → ns'.StmtUnfolds i' t →
      ∀ depth > ns.stmts.size, ∀ depth' > ns'.stmts.size,
        ∀ c, (env.stmtWithin ns depth i).run c = (env.stmtWithin ns' depth' i').run c) ∧
    ∀ (ns : Nodes) (k target : NodeId) (whole : Piece), ns.Unfolds k → ns.Lowers env k whole →
      ∃ visits, ns.Visits env target { path | ns.find? env k path = some target } whole visits ∧
        (visits.map Prod.snd).Pairwise (Piece.Apart env.owned) := by
  refine ⟨fun ns ns' i i' t h h' depth hdepth depth' hdepth' => ?_,
    fun ns ns' i i' t h h' depth hdepth depth' hdepth' c => ?_, fun ns k target whole h hlowers => ?_⟩
  · obtain ⟨htype, hcode⟩ := env.exprWithin_congr h h' hdepth hdepth'
    exact ⟨htype, fun c => by rw [hcode]⟩
  · rw [env.stmtWithin_congr h h' hdepth hdepth']
  · obtain ⟨visits, hvisits⟩ := h.visits target whole hlowers
    exact ⟨visits, hvisits, hvisits.pairwise_apart⟩

end Lowering.Env

namespace Nodes

/-- A conditional with one statement in both branches and one constant in three places. -/
def sharedBranch : Nodes where
  exprs := ⟨#[.bool true, .chain 0 [(.and, 0)]]⟩
  stmts := ⟨#[.ret (some 1), .cond 0 [0] (some [0])]⟩

/-- The same conditional, with a statement for each branch, and in another order. -/
def plainBranch : Nodes where
  exprs := ⟨#[.bool true, .bool true, .chain 1 [(.and, 0)], .chain 0 [(.and, 0)]]⟩
  stmts := ⟨#[.ret (some 3), .ret (some 2), .cond 1 [1] (some [0])]⟩

/-- What is returned. -/
def returned : Expr := .chain (.bool true) [(.and, .bool true)]

/-- The tree of both. -/
def branch : Stmt := .cond (.bool true) [.ret (some returned)] (some [.ret (some returned)])

/-- The code of the tree: what is returned is computed twice, in other registers. -/
def branchCode : List Linear.Instr :=
  [.mov ⟨0⟩ (.imm 1) .always, .cmp ⟨0⟩ (.imm 1), .branch (.on .ne) (.numbered "else" 0),
    .mov ⟨1⟩ (.imm 1) .always, .mov ⟨2⟩ (.imm 1) .always, .binary .and ⟨3⟩ ⟨1⟩ (.reg ⟨2⟩), .ret (some (.reg ⟨3⟩)),
    .branch .always (.numbered "done" 1), .label (.numbered "else" 0),
    .mov ⟨4⟩ (.imm 1) .always, .mov ⟨5⟩ (.imm 1) .always, .binary .and ⟨6⟩ ⟨4⟩ (.reg ⟨5⟩), .ret (some (.reg ⟨6⟩)),
    .label (.numbered "done" 1)]

theorem unfolds_sharedBranch : sharedBranch.ExprUnfolds 1 returned ∧ sharedBranch.StmtUnfolds 1 branch := by
  have hordered : sharedBranch.Ordered := by decide
  have hexpr : sharedBranch.exprTree 1 = returned := rfl
  have hstmt : sharedBranch.stmtTree 1 = branch := rfl
  rw [← hexpr, ← hstmt]
  exact ⟨exprUnfolds_exprTree hordered.acyclic hordered.closed (by decide),
    stmtUnfolds_stmtTree hordered.acyclic hordered.closed (by decide)⟩

theorem unfolds_plainBranch : plainBranch.ExprUnfolds 2 returned ∧ plainBranch.StmtUnfolds 2 branch := by
  have hordered : plainBranch.Ordered := by decide
  have hexpr : plainBranch.exprTree 2 = returned := rfl
  have hstmt : plainBranch.stmtTree 2 = branch := rfl
  rw [← hexpr, ← hstmt]
  exact ⟨exprUnfolds_exprTree hordered.acyclic hordered.closed (by decide),
    stmtUnfolds_stmtTree hordered.acyclic hordered.closed (by decide)⟩

/-- The statement that both branches share is lowered in each of them, and the code is that of the tree without
sharing. -/
theorem lowering_sees_trees_sharedBranch :
    (sharedBranch.ExprUnfolds 1 returned ∧ sharedBranch.StmtUnfolds 1 branch) ∧
    (plainBranch.ExprUnfolds 2 returned ∧ plainBranch.StmtUnfolds 2 branch) ∧
    ((⟨.initial, SymbolTable.global⟩ : Env).exprAt sharedBranch 1).run ⟨4, 0⟩
      = ((⟨.initial, SymbolTable.global⟩ : Env).exprAt plainBranch 2).run ⟨4, 0⟩ ∧
    ((⟨.initial, SymbolTable.global⟩ : Env).stmtAt sharedBranch 1).run ⟨0, 0⟩
      = ((⟨.initial, SymbolTable.global⟩ : Env).stmtAt plainBranch 2).run ⟨0, 0⟩ ∧
    sharedBranch.Lowers ⟨.initial, SymbolTable.global⟩ (.stmt 1) ⟨⟨0, 0⟩, branchCode, ⟨7, 2⟩⟩ ∧
    ∃ visits : List (List Nat × Piece),
      [1] ∈ visits.map Prod.fst ∧ [2] ∈ visits.map Prod.fst ∧
      (∀ v ∈ visits, sharedBranch.Lowers ⟨.initial, SymbolTable.global⟩ (.stmt 0) v.2) ∧
      (visits.map Prod.snd).Pairwise (Piece.Apart (⟨.initial, SymbolTable.global⟩ : Env).owned) := by
  obtain ⟨hexprs, hstmts, hvisits⟩ := Env.lowering_sees_trees ⟨.initial, SymbolTable.global⟩
  have hlowers : sharedBranch.Lowers ⟨.initial, SymbolTable.global⟩ (.stmt 1) ⟨⟨0, 0⟩, branchCode, ⟨7, 2⟩⟩ := by
    rfl
  obtain ⟨visits, hpieces, hapart⟩ :=
    hvisits sharedBranch (.stmt 1) (.stmt 0) _ ⟨_, unfolds_sharedBranch.2⟩ hlowers
  exact ⟨unfolds_sharedBranch, unfolds_plainBranch,
    (hexprs _ _ _ _ _ unfolds_sharedBranch.1 unfolds_plainBranch.1 _ sharedBranch.size_lt_exprDepth _
      plainBranch.size_lt_exprDepth).2 _,
    hstmts _ _ _ _ _ unfolds_sharedBranch.2 unfolds_plainBranch.2 _ sharedBranch.size_lt_stmtDepth _
      plainBranch.size_lt_stmtDepth _, hlowers,
    visits, (hpieces.mem_iff [1]).2 rfl, (hpieces.mem_iff [2]).2 rfl, hpieces.lowers, hapart⟩

end Nodes

end Spillway
