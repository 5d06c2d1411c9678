import Spillway.Arena
import Spillway.Source.Operator

/-!
# Statement and expression nodes

The statements and expressions of a program live in two arenas. A node names its children by their
numbers, so nodes may be shared, and a child may be stored after the node that names it.
-/

namespace Spillway

/-- The number of an expression node. -/
abbrev ExprId := Nat

/-- The number of a statement node. -/
abbrev StmtId := Nat

/-- What an assignment assigns to: a variable, or a field reached from it. -/
structure Place where
  base : String
  fields : List String := []
  deriving DecidableEq, Repr

/-- How a place is written. -/
def Place.text (p : Place) : String := ".".intercalate (p.base :: p.fields)

/-- An expression whose children are numbers of other nodes. -/
inductive ExprNode where
  | int (value : Int64)
  | bool (value : Bool)
  | nil
  | name (name : String)
  | paren (inner : ExprId)
  /-- A chain `head op₁ e₁ op₂ e₂ …` of operators of one precedence. -/
  | chain (head : ExprId) (links : List (BinOp × ExprId))
  | unary (op : UnOp) (operand : ExprId)
  | select (base : ExprId) (fields : List String)
  | call (callee : String) (arguments : List ExprId)
  deriving DecidableEq, Repr

/-- A statement whose children are numbers of other nodes. -/
inductive StmtNode where
  | assign (target : Place) (value : ExprId)
  | print (name : String) (newline : Bool)
  | read (name : String)
  | cond (condition : ExprId) (thenBlock : List StmtId) (elseBlock : Option (List StmtId))
  | loop (condition : ExprId) (body : List StmtId)
  | ret (value : Option ExprId)
  | call (callee : String) (arguments : List ExprId)
  deriving DecidableEq, Repr

/-- The nodes of one program. -/
structure Nodes where
  exprs : Arena ExprNode := {}
  stmts : Arena StmtNode := {}

namespace Nodes

/-- Stores an expression node and returns its number. -/
def addExpr (ns : Nodes) (node : ExprNode) : ExprId × Nodes :=
  ((ns.exprs.push node).1, { ns with exprs := (ns.exprs.push node).2 })

/-- Stores a statement node and returns its number. -/
def addStmt (ns : Nodes) (node : StmtNode) : StmtId × Nodes :=
  ((ns.stmts.push node).1, { ns with stmts := (ns.stmts.push node).2 })

/-- The expression node with this number. -/
def expr (ns : Nodes) (i : ExprId) : Except Defect ExprNode := ns.exprs.fetch i

/-- The statement node with this number. -/
def stmt (ns : Nodes) (i : StmtId) : Except Defect StmtNode := ns.stmts.fetch i

end Nodes

end Spillway
