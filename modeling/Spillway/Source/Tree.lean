import Spillway.Source.Node
import Spillway.Unfolding

/-!
# Expression and statement trees

A node stands for the tree that is found by following its children. Trees are what the meaning of a
program is told with: two nodes that unfold to the same tree mean the same, whatever their numbers are
and however much they share.

`Nodes.exprTree` and `Nodes.stmtTree` unfold a node. A child that does not exist becomes a `missing`
leaf, which holds its number and the size of the arena; it is reported when lowering comes to it.

Lowering that ends comes to no statement twice on one path, and to an expression at most twice: once for
its value and once for its type. This bounds the depth to which nodes are followed.
-/

namespace Spillway

/-- An expression. -/
inductive Expr where
  | int (value : Int64)
  | bool (value : Bool)
  | nil
  | name (name : String)
  | paren (inner : Expr)
  /-- A chain `head op₁ e₁ op₂ e₂ …` of operators of one precedence. -/
  | chain (head : Expr) (links : List (BinOp × Expr))
  | unary (op : UnOp) (operand : Expr)
  | select (base : Expr) (fields : List String)
  | call (callee : String) (arguments : List Expr)
  /-- There is no node with this number; the arena has `size` of them. -/
  | missing (index size : Nat)
  deriving Repr

/-- A statement. -/
inductive Stmt where
  | assign (target : Place) (value : Expr)
  | print (name : String) (newline : Bool)
  | read (name : String)
  | cond (condition : Expr) (thenBlock : List Stmt) (elseBlock : Option (List Stmt))
  | loop (condition : Expr) (body : List Stmt)
  | ret (value : Option Expr)
  | call (callee : String) (arguments : List Expr)
  /-- There is no node with this number; the arena has `size` of them. -/
  | missing (index size : Nat)
  deriving Repr

/-! ### Expressions -/

namespace ExprNode

/-- The expressions that an expression is made from. -/
def children : ExprNode → List ExprId
  | .int _ | .bool _ | .nil | .name _ => []
  | .paren inner => [inner]
  | .chain head links => head :: links.map (·.2)
  | .unary _ operand => [operand]
  | .select base _ => [base]
  | .call _ arguments => arguments

/-- The tree of a node, given those of its children. -/
def tree (f : ExprId → Expr) : ExprNode → Expr
  | .int value => .int value
  | .bool value => .bool value
  | .nil => .nil
  | .name x => .name x
  | .paren inner => .paren (f inner)
  | .chain head links => .chain (f head) (links.map fun l => (l.1, f l.2))
  | .unary op operand => .unary op (f operand)
  | .select base fields => .select (f base) fields
  | .call callee arguments => .call callee (arguments.map f)

theorem tree_congr {f g : ExprId → Expr} (n : ExprNode) (h : ∀ c ∈ n.children, f c = g c) :
    n.tree f = n.tree g := by
  cases n with
  | chain head links =>
    have hhead : f head = g head := h head (by simp [children])
    have hlinks : ∀ l ∈ links, (l.1, f l.2) = (l.1, g l.2) := fun l hl => by
      rw [h l.2 (List.mem_cons_of_mem _ (List.mem_map_of_mem hl))]
    simp only [tree, hhead, List.map_congr_left hlinks]
  | _ => simp_all [children, tree]

end ExprNode

/-- How expression nodes are unfolded. -/
def Nodes.exprUnfolding (ns : Nodes) : Unfolding Expr where
  cut i := .missing i ns.exprs.size
  children i := (ns.exprs.get? i).elim [] ExprNode.children
  build f i := (ns.exprs.get? i).elim (.missing i ns.exprs.size) (ExprNode.tree f)

/-- The depth to which expression nodes are followed. -/
def Nodes.exprDepth (ns : Nodes) : Nat := 2 * ns.exprs.size + 1

/-- The tree of an expression node. -/
def Nodes.exprTree (ns : Nodes) (i : ExprId) : Expr := ns.exprUnfolding.within ns.exprDepth i

/-! ### Statements -/

namespace StmtNode

/-- The statements in the blocks of a statement. -/
def children : StmtNode → List StmtId
  | .cond _ thenBlock elseBlock => thenBlock ++ elseBlock.getD []
  | .loop _ body => body
  | .assign .. | .print .. | .read _ | .ret _ | .call .. => []

/-- The tree of a node, given those of its expressions and of the statements in its blocks. -/
def tree (e : ExprId → Expr) (f : StmtId → Stmt) : StmtNode → Stmt
  | .assign target value => .assign target (e value)
  | .print name newline => .print name newline
  | .read name => .read name
  | .cond condition thenBlock elseBlock =>
    .cond (e condition) (thenBlock.map f) (elseBlock.map fun block => block.map f)
  | .loop condition body => .loop (e condition) (body.map f)
  | .ret value => .ret (value.map e)
  | .call callee arguments => .call callee (arguments.map e)

theorem tree_congr {e : ExprId → Expr} {f g : StmtId → Stmt} (n : StmtNode)
    (h : ∀ c ∈ n.children, f c = g c) : n.tree e f = n.tree e g := by
  cases n with
  | cond condition thenBlock elseBlock =>
    cases elseBlock <;> simp_all [children, tree]
  | loop condition body => simp_all [children, tree]
  | _ => rfl

end StmtNode

/-- How statement nodes are unfolded. -/
def Nodes.stmtUnfolding (ns : Nodes) : Unfolding Stmt where
  cut i := .missing i ns.stmts.size
  children i := (ns.stmts.get? i).elim [] StmtNode.children
  build f i := (ns.stmts.get? i).elim (.missing i ns.stmts.size) (StmtNode.tree ns.exprTree f)

/-- The depth to which statement nodes are followed. -/
def Nodes.stmtDepth (ns : Nodes) : Nat := ns.stmts.size + 1

/-- The tree of a statement node. -/
def Nodes.stmtTree (ns : Nodes) (i : StmtId) : Stmt := ns.stmtUnfolding.within ns.stmtDepth i

end Spillway
