/-
The leaves of a tree along first alternatives.

Packing can put a tree above itself, but never along first alternatives: the tree
that was there first stays first.  A rank that falls along first alternatives and
children shows it, and bounds how deep the leaves lie.

* `Forest.Ranked` — a rank that falls;
* `Forest.Ranked.pack` — packing has one as well;
* `Forest.leaves_eq` — the leaves that are read off a tree are the points of its span;
* `Forest.toList_join_text` — and so trees next to each other have the text that they span.
-/
import Mathlib.Data.Finset.Card
import Mathlib.Data.Finset.Lattice.Fold
import Mathlib.Data.Finset.Range
import ScannerlessLR.Forest.Yield
import ScannerlessLR.Proofs.Forest.Derivation

namespace ScannerlessLR

/-- The children of a tree and its first alternative have ranks below `r`.  An ambiguity has a first
alternative. -/
def Tree.RanksBelow (rank : TreeId → ℕ) (r : ℕ) : Tree → Prop
  | .leaf _ => True
  | .apply _ children => ∀ id ∈ children, rank id < r
  | .amb alternatives => ∃ first, alternatives.head? = some first ∧ rank first < r

theorem Tree.RanksBelow.imp {rank rank' : TreeId → ℕ} {r r' : ℕ} {t : Tree}
    (h : ∀ part ∈ t.parts, rank part < r → rank' part < r') (ht : t.RanksBelow rank r) :
    t.RanksBelow rank' r' := by
  cases t with
  | leaf point => trivial
  | apply label children => exact fun id hid => h id hid (ht id hid)
  | amb alternatives =>
    obtain ⟨first, hfirst, hlt⟩ := ht
    exact ⟨first, hfirst, h first (List.mem_of_mem_head? hfirst) hlt⟩

namespace Forest

/-- Ranks fall from every tree to its children or to its first alternative. -/
def Ranked (rank : TreeId → ℕ) (f : Forest) : Prop :=
  ∀ id t, f.get? id = some t → t.RanksBelow rank (rank id)

variable {f : Forest} {rank : TreeId → ℕ} {points : Array UInt32} {span : TreeId → ℕ × ℕ}
  {id existing new : TreeId}

/-- A new tree ranks above all others. -/
theorem Ranked.add (hr : f.Ranked rank) (hf : f.Closed) {t : Tree}
    (hparts : ∀ part ∈ t.parts, part < f.size) (ht : ∀ alternatives, t ≠ .amb alternatives) :
    ∃ rank', (f.add t).2.Ranked rank' := by
  set top := (Finset.range f.size).sup rank + 1
  have hold : ∀ id, id < f.size → Function.update rank f.size top id = rank id :=
    fun id hid => Function.update_of_ne (Nat.ne_of_lt hid) ..
  have htop : ∀ id, id < f.size → rank id < top :=
    fun id hid => Nat.lt_succ_of_le (Finset.le_sup (Finset.mem_range.mpr hid))
  refine ⟨Function.update rank f.size top, ?_⟩
  intro id u hu
  rw [get?_add] at hu
  split at hu
  -- the new tree ranks above all of its parts
  · rename_i hid
    obtain rfl := Option.some.inj hu
    rw [hid, Function.update_self]
    cases t with
    | leaf point => trivial
    | apply label children =>
      intro part hpart
      rw [hold part (hparts part hpart)]
      exact htop part (hparts part hpart)
    | amb alternatives => exact absurd rfl (ht alternatives)
  -- the parts of an old tree are old, and rank as before
  · rw [hold id (lt_of_get? hu)]
    refine (hr id u hu).imp fun part hpart h => ?_
    rw [hold part (hf id u hu part hpart)]
    exact h

/-- Packing keeps the first alternative of an ambiguity.  Any other tree moves to a rank just below
the one that it had. -/
theorem Ranked.pack (hr : f.Ranked rank) (hf : f.Closed) (he : existing < f.size) (new : TreeId) :
    ∃ rank', (f.pack existing new).Ranked rank' := by
  obtain ⟨t, ht⟩ := exists_get? he
  rcases pack_cases ht new with ⟨alternatives, rfl, -, hget⟩ | ⟨-, -, hget⟩
  · refine ⟨rank, ?_⟩
    intro id u hu
    rw [hget] at hu
    split at hu
    · rename_i hid
      obtain rfl := Option.some.inj hu
      obtain ⟨first, hfirst, hlt⟩ := hr existing _ ht
      rw [hid]
      exact ⟨first, by rw [List.head?_append, hfirst, Option.some_or], hlt⟩
    · exact hr id u hu
  -- all ranks are doubled, to make room for the tree that moves
  · set rank' := fun id => if id = f.size then 2 * rank existing else 2 * rank id + 1
    have hold : ∀ id, id < f.size → rank' id = 2 * rank id + 1 :=
      fun id hid => if_neg (Nat.ne_of_lt hid)
    have hmoved : rank' f.size = 2 * rank existing := if_pos rfl
    refine ⟨rank', ?_⟩
    intro id u hu
    rw [hget] at hu
    split at hu
    · rename_i hid
      obtain rfl := Option.some.inj hu
      refine ⟨f.size, rfl, ?_⟩
      rw [hid, hmoved, hold existing he]
      exact Nat.lt_succ_self _
    · split at hu
      · rename_i hid
        obtain rfl := Option.some.inj hu
        rw [hid, hmoved]
        refine (hr existing t ht).imp fun part hpart h => ?_
        rw [hold part (hf existing t ht part hpart)]
        omega
      · rw [hold id (lt_of_get? hu)]
        refine (hr id u hu).imp fun part hpart h => ?_
        rw [hold part (hf id u hu part hpart)]
        omega

/-- There are ranks that are smaller than the forest is large: count the trees below. -/
theorem Ranked.exists_lt_size (hr : f.Ranked rank) (hf : f.Closed) :
    ∃ rank', f.Ranked rank' ∧ ∀ id < f.size, rank' id < f.size := by
  set below := fun id => (Finset.range f.size).filter fun j => rank j < rank id
  refine ⟨fun id => (below id).card, ?_, ?_⟩
  -- what is below a part is below the tree as well, and so is the part itself
  · intro id t ht
    refine (hr id t ht).imp fun part hpart h => Finset.card_lt_card ?_
    rw [Finset.ssubset_iff_of_subset]
    · refine ⟨part, ?_, ?_⟩
      · exact Finset.mem_filter.mpr ⟨Finset.mem_range.mpr (hf id t ht part hpart), h⟩
      · intro hmem
        exact Nat.lt_irrefl _ (Finset.mem_filter.mp hmem).2
    · intro j hj
      obtain ⟨hj, hlt⟩ := Finset.mem_filter.mp hj
      exact Finset.mem_filter.mpr ⟨hj, Nat.lt_trans hlt h⟩
  · intro id hid
    have hss : below id ⊂ Finset.range f.size := by
      rw [Finset.ssubset_iff_of_subset (Finset.filter_subset ..)]
      refine ⟨id, Finset.mem_range.mpr hid, ?_⟩
      intro hmem
      exact Nat.lt_irrefl _ (Finset.mem_filter.mp hmem).2
    have hcard := Finset.card_lt_card hss
    rwa [Finset.card_range] at hcard

/-- The leaves down to a depth are the points of the span, if the depth is above the rank. -/
theorem leavesWithin_eq (hs : f.Spanned points span) (hr : f.Ranked rank) {depth : ℕ}
    (hid : id < f.size) (hd : rank id < depth) : (span id).1 ≤ (span id).2 ∧
      f.leavesWithin depth id = slice points (span id).1 (span id).2 := by
  induction depth generalizing id with
  | zero => exact absurd hd (Nat.not_lt_zero _)
  | succ depth ih =>
    obtain ⟨t, ht⟩ := exists_get? hid
    have hspan := hs.hasSpan id t ht
    have hrank := hr id t ht
    have hparts := hs.part_lt id t ht
    rw [leavesWithin, ht]
    cases t with
    | leaf point =>
      obtain ⟨hp, hsucc⟩ := hspan
      rw [hsucc]
      exact ⟨Nat.le_succ _, (slice_succ hp).symm⟩
    | apply label children =>
      -- the spans of the children follow each other, and so do their leaves
      exact Chained.flatMap_eq hspan fun part hpart =>
        ih (hparts part hpart) (Nat.lt_of_lt_of_le (hrank part hpart) (Nat.le_of_lt_succ hd))
    | amb alternatives =>
      -- the first alternative, which is read, spans what the ambiguity spans
      obtain ⟨first, hfirst, hlt⟩ := hrank
      obtain ⟨rest, rfl⟩ := List.head?_eq_some_iff.mp hfirst
      have hmem : first ∈ first :: rest := List.mem_cons_self
      rw [← hspan first hmem]
      exact ih (hparts first hmem) (Nat.lt_of_lt_of_le hlt (Nat.le_of_lt_succ hd))

/-- The leaves of a tree are the points of its span. -/
theorem leaves_eq (hs : f.Spanned points span) (hr : f.Ranked rank) (hid : id < f.size) :
    (span id).1 ≤ (span id).2 ∧ f.leaves id = slice points (span id).1 (span id).2 := by
  obtain ⟨rank', hr', hlt⟩ := hr.exists_lt_size hs.part_lt
  exact leavesWithin_eq hs hr' hid (hlt id hid)

/-- The texts of trees next to each other make up the text that they span. -/
theorem toList_join_text (hs : f.Spanned points span) (hr : f.Ranked rank) {ids : List TreeId}
    {low high : ℕ} (hc : Chained span low ids high) (hids : ∀ id ∈ ids, id < f.size) :
    (String.join (ids.map f.text)).toList = (slice points low high).filterMap charOfPoint? := by
  have hleaves := (hc.flatMap_eq fun id hid => leaves_eq hs hr (hids id hid)).2
  rw [String.toList_join, List.flatMap_map, ← hleaves, List.filterMap_flatMap]
  refine congrArg (List.flatMap · ids) (funext fun id => ?_)
  rw [text, String.toList_ofList]

end Forest

theorem charOfPoint?_val (c : Char) : charOfPoint? c.val = some c :=
  dif_pos c.valid

end ScannerlessLR
