/-
Trees written as `apply(production, [...])`, `amb([...])` and quoted characters.

A forest may be cyclic, and then what is to be written has no end.

* `Forest.layout` — one tree, its children left open;
* `Forest.render` — a tree whose branches end;
* `Forest.renderFirst` — the first so many characters of any tree.
-/
import ScannerlessLR.Forest.Yield
import ScannerlessLR.Table.WellFormed
import ScannerlessLR.Text

namespace ScannerlessLR

/-- A part of what is written for a tree. -/
inductive Piece where
  | char (c : Char)
  | tree (id : TreeId)
  deriving DecidableEq, Repr

namespace Piece

/-- Characters as pieces. -/
def ofChars (cs : List Char) : List Piece :=
  cs.map .char

/-- Trees in square brackets, separated by a comma and a space. -/
def bracketed (ids : List TreeId) : List Piece :=
  .char '[' :: (ofChars [',', ' ']).intercalate (ids.map fun id => [.tree id]) ++ [.char ']']

end Piece

/-- A leaf: a quoted character, or the number of a point that is none. -/
def leafChars (p : UInt32) : List Char :=
  match charOfPoint? p with
  | some c => quotedChar c
  | none => decimal p.toNat

/-- A label: its production, or its number if the table does not know it. -/
def Table.labelChars (table : Table) (label : LabelId) : List Char :=
  match table.label? label with
  | some l => l.production.chars
  | none => decimal label.toNat

/-- What is written for a tree, with its subtrees left open.  It starts with a character. -/
def Tree.layout (table : Table) : Tree → List Piece
  | .leaf p => Piece.ofChars (leafChars p)
  | .apply label children =>
    Piece.ofChars ("apply(".toList ++ table.labelChars label ++ [',', ' '])
      ++ Piece.bracketed children ++ [.char ')']
  | .amb alternatives =>
    Piece.ofChars "amb(".toList ++ Piece.bracketed alternatives ++ [.char ')']

namespace Forest

/-- What is written for the tree at a place, with its subtrees left open. -/
def layout (f : Forest) (table : Table) (id : TreeId) : List Piece :=
  match f.get? id with
  | none => []
  | some t => t.layout table

/-- The characters of a tree down to a depth. -/
def renderWithin (f : Forest) (table : Table) : Nat → TreeId → List Char
  | 0, _ => []
  | depth + 1, id => (f.layout table id).flatMap fun
    | .char c => [c]
    | .tree child => renderWithin f table depth child

/-- The characters of a tree that does not contain itself. -/
def render (f : Forest) (table : Table) (id : TreeId) : List Char :=
  f.renderWithin table f.size id

/-- The characters that `steps` steps write, where a step writes a character or opens a tree. -/
def write (f : Forest) (table : Table) : Nat → List Piece → List Char
  | 0, _ => []
  | _ + 1, [] => []
  | steps + 1, .char c :: rest => c :: write f table steps rest
  | steps + 1, .tree id :: rest => write f table steps (f.layout table id ++ rest)

/-- The first `count` characters of a tree.  What opening a tree brings starts with a character, so
at most every second step opens one. -/
def renderFirst (f : Forest) (table : Table) (count : Nat) (id : TreeId) : List Char :=
  (f.write table (2 * count + 1) [.tree id]).take count

end Forest

end ScannerlessLR
