/-
A cursor over the points of an input.  It can step back, so a look ahead is a
read followed by as many steps back.

* `Cursor.read?`, `Cursor.unread` — one step forward, some steps back;
* `Cursor.checkFollow` — the follow restrictions of a reduction.
-/
import ScannerlessLR.RangeSet

namespace ScannerlessLR

/-- A position in a sequence of points. -/
structure Cursor where
  points : Array UInt32
  position : Nat := 0
  deriving DecidableEq, Repr

namespace Cursor

/-- The point at the cursor, and the cursor behind it.  At the end there is none. -/
def read? (c : Cursor) : Option (UInt32 × Cursor) :=
  c.points[c.position]?.map fun p => (p, { c with position := c.position + 1 })

/-- The cursor `count` points earlier, but not before the start. -/
def unread (c : Cursor) (count : Nat) : Cursor :=
  { c with position := c.position - count }

/-- What a look at the points ahead has found. -/
structure FollowCheck where
  cursor : Cursor
  /-- The number of points looked at. -/
  read : Nat
  permitted : Bool
  deriving DecidableEq, Repr

/-- Reads on, one point for each forbidden set, up to the first point that is forbidden.  The end
of the input violates nothing. -/
def lookAhead (c : Cursor) : List RangeSet → FollowCheck
  | [] => ⟨c, 0, true⟩
  | forbidden :: rest =>
    match c.read? with
    | none => ⟨c, 0, true⟩
    | some (p, c') =>
      if p ∈ forbidden then ⟨c', 1, false⟩
      else
        let check := lookAhead c' rest
        { check with read := check.read + 1 }

/-- Checks the points ahead of the cursor against forbidden sets, and returns to where it was. -/
def checkFollow (c : Cursor) (forbidden : List RangeSet) : FollowCheck :=
  let check := c.lookAhead forbidden
  { check with cursor := check.cursor.unread check.read }

end Cursor

end ScannerlessLR
