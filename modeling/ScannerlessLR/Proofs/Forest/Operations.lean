/-
Forests put together by operations.

Every operation returns the place of a tree: of the new tree, or of the one that has been
packed into.  It may be about any trees that are there, so a tree can be packed into
itself, or into a part of itself, and the forest becomes cyclic.

* `Forest.Operation`, `Forest.run` — the operations, and what they return;
* `Forest.Built` — forests put together from nothing;
* `Forest.Built.closed` — their trees refer to trees that are there;
* `Forest.tower` — a leaf with two applications on top of each other.
-/
import ScannerlessLR.Proofs.Forest.Packing

namespace ScannerlessLR

namespace Forest

/-- An operation on a forest. -/
inductive Operation where
  | leaf (point : UInt32)
  | apply (label : LabelId) (children : List TreeId)
  | pack (existing new : TreeId)
  deriving DecidableEq, Repr

/-- The trees that an operation is about. -/
def Operation.operands : Operation → List TreeId
  | .leaf _ => []
  | .apply _ children => children
  | .pack existing new => [existing, new]

/-- The trees that an operation is about are there. -/
def Operation.Fits (op : Operation) (f : Forest) : Prop :=
  ∀ id ∈ op.operands, id < f.size

instance (op : Operation) (f : Forest) : Decidable (op.Fits f) :=
  inferInstanceAs (Decidable (∀ id ∈ op.operands, id < f.size))

/-- What an operation returns, and the forest behind it. -/
def run (f : Forest) : Operation → TreeId × Forest
  | .leaf point => f.leaf point
  | .apply label children => f.apply label children
  | .pack existing new => (existing, f.pack existing new)

/-- A forest that operations have put together from nothing. -/
inductive Built : Forest → Prop
  | empty : Built {}
  | run {f : Forest} {op : Operation} (h : Built f) (hop : op.Fits f) : Built (f.run op).2

variable {f : Forest} {existing new id : TreeId} {t : Tree} {op : Operation}

theorem fits_pack_iff :
    (Operation.pack existing new).Fits f ↔ existing < f.size ∧ new < f.size := by
  simp [Operation.Fits, Operation.operands]

theorem Built.pack (h : f.Built) (he : existing < f.size) (hn : new < f.size) :
    (f.pack existing new).Built :=
  h.run (fits_pack_iff.mpr ⟨he, hn⟩)

/-- An operation packs, or adds a tree that is no ambiguity. -/
theorem run_cases (hop : op.Fits f) :
    (∃ t, f.run op = f.add t ∧ (∀ part ∈ t.parts, part < f.size) ∧
      ∀ alternatives, t ≠ .amb alternatives) ∨
    ∃ existing new, op = .pack existing new ∧ existing < f.size ∧ new < f.size := by
  cases op with
  | leaf point => exact .inl ⟨.leaf point, rfl, hop, by simp⟩
  | apply label children => exact .inl ⟨.apply label children, rfl, hop, by simp⟩
  | pack existing new => exact .inr ⟨existing, new, rfl, fits_pack_iff.mp hop⟩

theorem Built.closed (h : f.Built) : f.Closed := by
  induction h with
  | empty => exact fun id t ht => absurd (lt_of_get? ht) (Nat.not_lt_zero id)
  | run _ hop ih =>
    rcases run_cases hop with ⟨t, hrun, hparts, -⟩ | ⟨existing, new, rfl, he, hn⟩
    · rw [hrun]
      exact ih.add hparts
    · exact ih.pack he hn

/-- The leaf of an `x`, an application over it, and an application over that. -/
def tower : Forest :=
  ((((({} : Forest).run (.leaf 0x78)).2.run (.apply 257 [0])).2).run (.apply 258 [1])).2

theorem built_tower : tower.Built :=
  .run (.run (.run .empty (by decide)) (by decide)) (by decide)

end Forest

end ScannerlessLR
