/-
Parse forests.  A forest is an array of trees that refer to each other by index,
so subtrees are shared and a tree can be repacked under all who refer to it.

* `Forest.leaf`, `Forest.apply` — a new tree;
* `Forest.pack` — one more derivation for a tree that is in use.
-/
import ScannerlessLR.Table.Basic

namespace ScannerlessLR

/-- The place of a tree in its forest, counted from 0 in order of creation. -/
abbrev TreeId := Nat

/-- A tree of a forest. -/
inductive Tree where
  /-- A consumed point of the input. -/
  | leaf (point : UInt32)
  /-- A production applied to its children, from left to right. -/
  | apply (label : LabelId) (children : List TreeId)
  /-- Alternative derivations of the same span. -/
  | amb (alternatives : List TreeId)
  deriving DecidableEq, Repr

/-- Trees that share subtrees. -/
structure Forest where
  trees : Array Tree := #[]
  deriving DecidableEq, Repr

namespace Forest

/-- The number of trees. -/
def size (f : Forest) : Nat :=
  f.trees.size

/-- The tree at a place. -/
def get? (f : Forest) (id : TreeId) : Option Tree :=
  f.trees[id]?

/-- A new tree and its place. -/
def add (f : Forest) (t : Tree) : TreeId × Forest :=
  (f.trees.size, ⟨f.trees.push t⟩)

/-- A new leaf. -/
def leaf (f : Forest) (point : UInt32) : TreeId × Forest :=
  f.add (.leaf point)

/-- A new application of a production. -/
def apply (f : Forest) (label : LabelId) (children : List TreeId) : TreeId × Forest :=
  f.add (.apply label children)

/-- Packs the tree `new` into the tree `existing`, in place, so that trees above `existing` see the
new derivation.  A tree that is not an ambiguity yet moves to a new place and becomes the first
alternative. -/
def pack (f : Forest) (existing new : TreeId) : Forest :=
  match f.get? existing with
  | none => f
  | some (.amb alternatives) => ⟨f.trees.setIfInBounds existing (.amb (alternatives ++ [new]))⟩
  | some t =>
    let (moved, f) := f.add t
    ⟨f.trees.setIfInBounds existing (.amb [moved, new])⟩

end Forest

end ScannerlessLR
