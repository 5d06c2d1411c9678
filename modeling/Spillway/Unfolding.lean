/-!
# Unfolding shared nodes

A numbered node stands for the tree that is found by following its children. Nodes may be shared, and a
node that is its own descendant has no finite tree, so that a tree is only followed down to a depth.
-/

namespace Spillway

/-- How nodes are unfolded to trees `α`. -/
structure Unfolding (α : Type) where
  /-- What stands for a node that is not followed any further. -/
  cut : Nat → α
  /-- The nodes that the tree of a node is made from. -/
  children : Nat → List Nat
  /-- The tree of a node, given those of its children. -/
  build : (Nat → α) → Nat → α

namespace Unfolding

variable {α : Type}

/-- The tree of a node down to the given depth. -/
def within (u : Unfolding α) : (depth : Nat) → Nat → α
  | 0 => u.cut
  | depth + 1 => u.build (u.within depth)

end Unfolding

end Spillway
