/-
Forests that stand for the same derivation trees.

A forest may be cyclic, so its trees cannot be compared by going down both at once.  But
a derivation tree is finite: it is followed down one forest, alternative by alternative,
and what it takes there is looked for in the other.

* `Tree.UnfoldsTo` — the derivation trees of one alternative;
* `Forest.Unfolds.exists_holds`, `Forest.Unfolds.of_holds` — a tree stands for those of its
  alternatives;
* `Forest.Mirrors` — what trees of one forest hold, their counterparts in another hold too;
* `Forest.Mirrors.unfolds` — so the counterparts stand for the same derivation trees.
-/
import Mathlib.Data.List.Forall2
import ScannerlessLR.Proofs.Forest.Alternatives
import ScannerlessLR.Proofs.Forest.Derivation

namespace ScannerlessLR

/-- The derivation trees that a tree stands for which is no ambiguity. -/
inductive Tree.UnfoldsTo (f : Forest) : Tree → DerivationTree → Prop
  | leaf (point : UInt32) : UnfoldsTo f (.leaf point) (.leaf point)
  | apply (label : LabelId) {children : List TreeId} {us : List DerivationTree}
      (h : f.Unfolds children us) : UnfoldsTo f (.apply label children) (.node label us)

namespace Forest

variable {f f' : Forest} {t t' id : TreeId} {ids ids' : List TreeId} {c : Tree}
  {d : DerivationTree} {ds : List DerivationTree} {R : TreeId → TreeId → Prop}

theorem Unfolds.of_get? (hget : f.get? id = some c) (hd : c.UnfoldsTo f d)
    (h : f.Unfolds ids ds) : f.Unfolds (id :: ids) (d :: ds) := by
  cases hd with
  | leaf point => exact .leaf hget h
  | apply label hus => exact .apply hget hus h

/-- A tree stands for what its alternatives stand for. -/
theorem Unfolds.of_holds (hc : f.Holds t c) (hd : c.UnfoldsTo f d) (h : f.Unfolds ids ds) :
    f.Unfolds (t :: ids) (d :: ds) := by
  obtain ⟨id, hid, hget⟩ := hc
  have hunfolds := Unfolds.of_get? hget hd h
  by_cases hamb : ∃ alternatives, f.get? t = some (.amb alternatives)
  · obtain ⟨alternatives, ht⟩ := hamb
    rw [alternatives_of_amb ht] at hid
    exact .amb ht hid hunfolds
  · rw [alternatives_of_not_amb fun ids hids => hamb ⟨ids, hids⟩] at hid
    rwa [List.mem_singleton.mp hid] at hunfolds

/-- A tree stands for no more than its alternatives do, if none of these is an ambiguity. -/
theorem Unfolds.exists_holds (hflat : ∀ id ∈ f.alternatives t, ∀ ids, f.get? id ≠ some (.amb ids))
    (h : f.Unfolds (t :: ids) ds) : ∃ c d ds', f.Holds t c ∧ c.UnfoldsTo f d ∧
      f.Unfolds ids ds' ∧ ds = d :: ds' := by
  cases h with
  | leaf hget hts =>
    exact ⟨_, _, _, (holds_of_plain hget trivial).mpr rfl, .leaf _, hts, rfl⟩
  | apply hget hus hts =>
    exact ⟨_, _, _, (holds_of_plain hget trivial).mpr rfl, .apply _ hus, hts, rfl⟩
  | @amb _ alternative _ alternatives _ hget ha h =>
    rw [← alternatives_of_amb hget] at ha
    cases h with
    | leaf hget' hts => exact ⟨_, _, _, ⟨alternative, ha, hget'⟩, .leaf _, hts, rfl⟩
    | apply hget' hus hts => exact ⟨_, _, _, ⟨alternative, ha, hget'⟩, .apply _ hus, hts, rfl⟩
    | amb hget' => exact absurd hget' (hflat alternative ha _)

/-- What a tree of `f` holds, its counterparts in `f'` hold too, over counterparts of its
children. -/
structure Mirrors (f f' : Forest) (R : TreeId → TreeId → Prop) : Prop where
  flat : ∀ {t t'}, R t t' → ∀ id ∈ f.alternatives t, ∀ ids, f.get? id ≠ some (.amb ids)
  leaf : ∀ {t t' point}, R t t' → f.Holds t (.leaf point) → f'.Holds t' (.leaf point)
  apply : ∀ {t t' label ids}, R t t' → f.Holds t (.apply label ids) →
    ∃ ids', List.Forall₂ R ids ids' ∧ f'.Holds t' (.apply label ids')

/-- Counterparts stand for all derivation trees of the trees whose counterparts they are. -/
theorem Mirrors.unfolds (h : Mirrors f f' R) {ids ids' : List TreeId} {ds : List DerivationTree}
    (hR : List.Forall₂ R ids ids') (hu : f.Unfolds ids ds) : f'.Unfolds ids' ds := by
  -- down the derivation trees, which are smaller than what they are part of
  cases hR with
  | nil =>
    cases hu
    exact .nil
  | cons ht hR =>
    obtain ⟨c, d, ds', hc, hd, hu', rfl⟩ := hu.exists_holds (h.flat ht)
    have hrest := h.unfolds hR hu'
    cases hd with
    | leaf point => exact .of_holds (h.leaf ht hc) (.leaf point) hrest
    | apply label hus =>
      obtain ⟨children', hchildren, hc'⟩ := h.apply ht hc
      exact .of_holds hc' (.apply label (h.unfolds hchildren hus)) hrest
termination_by sizeOf ds

end Forest

end ScannerlessLR
