/-
A look ahead comes back to where it started, and finds what there is to find.

* `Cursor.cursor_checkFollow` — checking follow restrictions moves nothing;
* `Cursor.permitted_checkFollow_iff` — it fails exactly on a forbidden point;
* `Cursor.read_lookAhead_le` — it looks at no more points than there are sets, and points.
-/
import Mathlib.Data.Nat.Notation
import ScannerlessLR.Cursor

namespace ScannerlessLR

/-- One of the points from `position` on is in the set that forbids it. -/
def Violates (points : Array UInt32) (position : ℕ) (forbidden : List RangeSet) : Prop :=
  ∃ k, ∃ _ : k < min forbidden.length (points.size - position),
    points[position + k] ∈ forbidden[k]

namespace Cursor

variable {c : Cursor} {forbidden : List RangeSet}

theorem read?_eq_some_iff {p : UInt32} {c' : Cursor} :
    c.read? = some (p, c') ↔ c.points[c.position]? = some p ∧
      c' = ⟨c.points, c.position + 1⟩ := by
  rw [read?, Option.map_eq_some_iff]
  constructor
  · rintro ⟨q, hq, he⟩
    obtain ⟨rfl, rfl⟩ := Prod.mk.inj he
    exact ⟨hq, rfl⟩
  · rintro ⟨hp, rfl⟩
    exact ⟨p, hp, rfl⟩

theorem read?_eq_none_iff : c.read? = none ↔ c.points.size ≤ c.position := by
  rw [read?, Option.map_eq_none_iff, Array.getElem?_eq_none_iff]

/-- A look ahead ends as far ahead as it has read. -/
theorem cursor_lookAhead (c : Cursor) (forbidden : List RangeSet) :
    (c.lookAhead forbidden).cursor =
      ⟨c.points, c.position + (c.lookAhead forbidden).read⟩ := by
  induction forbidden generalizing c with
  | nil => rfl
  | cons s rest ih =>
    rw [lookAhead]
    cases hr : c.read? with
    | none => rfl
    | some pc =>
      obtain ⟨p, c'⟩ := pc
      obtain ⟨-, rfl⟩ := read?_eq_some_iff.mp hr
      by_cases hp : p ∈ s
      · simp only [hp, if_true]
      · simp only [hp, if_false, ih, Cursor.mk.injEq, true_and]
        omega

/-- Checking follow restrictions leaves the cursor where it is. -/
@[simp] theorem cursor_checkFollow (c : Cursor) (forbidden : List RangeSet) :
    (c.checkFollow forbidden).cursor = c := by
  simp only [checkFollow, cursor_lookAhead, unread, Nat.add_sub_cancel]

/-- A look ahead permits unless a point ahead falls into its forbidden set. -/
theorem permitted_lookAhead_iff :
    (c.lookAhead forbidden).permitted = true ↔ ∀ k s p, forbidden[k]? = some s →
      c.points[c.position + k]? = some p → p ∉ s := by
  induction forbidden generalizing c with
  | nil => simp [lookAhead]
  | cons s rest ih =>
    rw [lookAhead]
    cases hr : c.read? with
    | none =>
      rw [read?_eq_none_iff] at hr
      simp only [true_iff]
      intro k s' p _ hp
      rw [Array.getElem?_eq_none (by omega)] at hp
      exact absurd hp (by simp)
    | some pc =>
      obtain ⟨p, c'⟩ := pc
      obtain ⟨hp, rfl⟩ := read?_eq_some_iff.mp hr
      by_cases hps : p ∈ s
      · simp only [hps, if_true, Bool.false_eq_true, false_iff]
        exact fun h => h 0 s p rfl hp hps
      · -- the rest of the restrictions is checked from the next point on
        simp only [hps, if_false, ih]
        constructor
        · intro h k s' q hs hq
          rcases k with _ | k
          · obtain rfl : s = s' := by simpa using hs
            obtain rfl : p = q := Option.some.inj (hp.symm.trans hq)
            exact hps
          · refine h k s' q hs ?_
            rw [show c.position + 1 + k = c.position + (k + 1) by omega]
            exact hq
        · intro h k s' q hs hq
          refine h (k + 1) s' q hs ?_
          rw [show c.position + (k + 1) = c.position + 1 + k by omega]
          exact hq

theorem permitted_checkFollow_iff :
    (c.checkFollow forbidden).permitted = true ↔ ∀ k s p, forbidden[k]? = some s →
      c.points[c.position + k]? = some p → p ∉ s :=
  permitted_lookAhead_iff

/-- A look ahead reads at most one point for each set, and none past the end. -/
theorem read_lookAhead_le (c : Cursor) (forbidden : List RangeSet) :
    (c.lookAhead forbidden).read ≤ min forbidden.length (c.points.size - c.position) := by
  induction forbidden generalizing c with
  | nil => exact Nat.zero_le _
  | cons s rest ih =>
    rw [lookAhead]
    cases hr : c.read? with
    | none => exact Nat.zero_le _
    | some pc =>
      obtain ⟨p, c'⟩ := pc
      obtain ⟨hp, rfl⟩ := read?_eq_some_iff.mp hr
      obtain ⟨hlt, -⟩ := Array.getElem?_eq_some_iff.mp hp
      rw [List.length_cons]
      -- a point that is refused is the last one that is read
      by_cases hps : p ∈ s
      · simp only [hps, if_true]
        omega
      · have hrest : _ ≤ min rest.length (c.points.size - (c.position + 1)) :=
          ih ⟨c.points, c.position + 1⟩
        simp only [hps, if_false]
        omega

/-- Checking follow restrictions fails exactly if they are violated. -/
theorem permitted_checkFollow_eq_false_iff :
    (c.checkFollow forbidden).permitted = false ↔ Violates c.points c.position forbidden := by
  rw [← Bool.not_eq_true, permitted_checkFollow_iff]
  refine (not_congr ?_).trans Classical.not_not
  constructor
  · rintro h ⟨k, hk, hmem⟩
    exact h k _ _ (List.getElem?_eq_getElem (by omega)) (Array.getElem?_eq_getElem (by omega)) hmem
  · intro h k s p hs hp hmem
    obtain ⟨hk, rfl⟩ := List.getElem?_eq_some_iff.mp hs
    obtain ⟨hlt, rfl⟩ := Array.getElem?_eq_some_iff.mp hp
    exact h ⟨k, by omega, hmem⟩

end Cursor

end ScannerlessLR
