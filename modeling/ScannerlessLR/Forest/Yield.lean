/-
The points and the text that a tree spans.

The text is read off by a loop as well, which keeps the trees that are still to be read.
In place of a tree come its children or its first alternative, so the loop needs no stack
as deep as the tree.  If these lead back to a tree that has been read, it has no end.

* `Forest.leaves`, `Forest.text` — the points of a tree, and its text;
* `Forest.spell` — so many rounds of the loop.
-/
import ScannerlessLR.Forest.Basic

namespace ScannerlessLR

/-- The character of a point, if the point is a Unicode scalar value. -/
def charOfPoint? (p : UInt32) : Option Char :=
  if h : p.isValidChar then some ⟨p, h⟩ else none

namespace Forest

/-- The leaves of a tree down to a depth, the first alternative standing for an ambiguity. -/
def leavesWithin (f : Forest) : Nat → TreeId → List UInt32
  | 0, _ => []
  | depth + 1, id =>
    match f.get? id with
    | none => []
    | some (.leaf p) => [p]
    | some (.apply _ children) => children.flatMap (leavesWithin f depth)
    | some (.amb []) => []
    | some (.amb (first :: _)) => leavesWithin f depth first

/-- The leaves of a tree, the first alternative standing for an ambiguity.  Along first alternatives
no tree contains itself, so no branch is longer than the forest is large. -/
def leaves (f : Forest) (id : TreeId) : List UInt32 :=
  f.leavesWithin f.size id

/-- The characters of a tree.  Points that are no characters are left out. -/
def text (f : Forest) (id : TreeId) : String :=
  String.ofList ((f.leaves id).filterMap charOfPoint?)

/-- The characters that the loop ends with, given the trees that are still to be read, the next one
first, and what has been read.  There are none if the rounds do not suffice, or if it comes to a
place where there is no tree. -/
def spell (f : Forest) : Nat → List TreeId → List Char → Option (List Char)
  | 0, _, _ => none
  | _ + 1, [], out => some out
  | rounds + 1, id :: due, out =>
    match f.get? id with
    | none => none
    | some (.leaf point) => spell f rounds due (out ++ (charOfPoint? point).toList)
    | some (.apply _ children) => spell f rounds (children ++ due) out
    | some (.amb alternatives) => spell f rounds (alternatives.head?.toList ++ due) out

end Forest

end ScannerlessLR
