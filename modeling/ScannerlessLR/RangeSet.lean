/-
Sets of 32-bit points given by inclusive ranges.  The same sets classify
characters, when an action is chosen, and production labels, when a goto is.
-/
import ScannerlessLR.Text

namespace ScannerlessLR

/-- One entry of a range set.  A span whose bounds are inverted is empty. -/
inductive Range where
  | single (point : UInt32)
  | span (low high : UInt32)
  deriving DecidableEq, Repr

/-- The points of a range. -/
def Range.Contains : Range → UInt32 → Prop
  | .single p, q => q = p
  | .span low high, q => low ≤ q ∧ q ≤ high

instance : Membership UInt32 Range := ⟨Range.Contains⟩

instance (p : UInt32) (r : Range) : Decidable (p ∈ r) :=
  match r with
  | .single q => inferInstanceAs (Decidable (p = q))
  | .span low high => inferInstanceAs (Decidable (low ≤ p ∧ p ≤ high))

/-- A union of ranges, in the order in which they were given. -/
structure RangeSet where
  ranges : List Range := []
  deriving DecidableEq, Repr

namespace RangeSet

instance : Membership UInt32 RangeSet := ⟨fun s p => ∃ r ∈ s.ranges, p ∈ r⟩

instance (p : UInt32) (s : RangeSet) : Decidable (p ∈ s) :=
  inferInstanceAs (Decidable (∃ r ∈ s.ranges, p ∈ r))

/-- Whether no range is given.  A set of empty spans is not empty in this sense. -/
def isEmpty (s : RangeSet) : Bool :=
  s.ranges.isEmpty

/-- The set of one point. -/
def single (p : UInt32) : RangeSet := ⟨[.single p]⟩

/-- The points from `low` to `high`. -/
def span (low high : UInt32) : RangeSet := ⟨[.span low high]⟩

end RangeSet

/-- The written form of a range. -/
def Range.chars : Range → List Char
  | .single p => decimal p.toNat
  | .span low high =>
    "range(".toList ++ decimal low.toNat ++ ", ".toList ++ decimal high.toNat ++ [')']

/-- The written form of a range set, such as `[256, range(0, 9)]`. -/
def RangeSet.chars (s : RangeSet) : List Char :=
  '[' :: [',', ' '].intercalate (s.ranges.map Range.chars) ++ [']']

/-- The written form of a range set, as a string. -/
def RangeSet.text (s : RangeSet) : String :=
  String.ofList s.chars

end ScannerlessLR
