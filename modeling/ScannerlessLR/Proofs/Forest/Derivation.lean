/-
The derivation trees of a forest, and the points that they span.

A forest can be cyclic, so a tree of it stands for any number of finite derivation
trees.  What they span is kept apart from them: each tree of the forest gets a span,
and the spans fit together locally.  Then all derivation trees of one tree have the
same leaves.

* `Forest.Unfolds` — the derivation trees that trees of a forest stand for;
* `Forest.Spanned` — spans that fit together;
* `Forest.Spanned.leaves_of_unfolds` — the leaves of a derivation tree are the points
  of the span.
-/
import Mathlib.Logic.Function.Basic
import ScannerlessLR.Proofs.Forest.Packing

namespace ScannerlessLR

/-- A derivation tree: no sharing, no alternatives. -/
inductive DerivationTree where
  | leaf (point : UInt32)
  | node (label : LabelId) (children : List DerivationTree)

mutual

/-- The leaves of a derivation tree, from left to right. -/
def DerivationTree.leaves : DerivationTree → List UInt32
  | .leaf point => [point]
  | .node _ children => DerivationTree.leavesList children

/-- The leaves of derivation trees next to each other. -/
def DerivationTree.leavesList : List DerivationTree → List UInt32
  | [] => []
  | t :: ts => t.leaves ++ DerivationTree.leavesList ts

end

theorem DerivationTree.leavesList_singleton (t : DerivationTree) :
    DerivationTree.leavesList [t] = t.leaves := by
  rw [leavesList, leavesList, List.append_nil]

/-- The points from one position to another. -/
def slice (points : Array UInt32) (low high : ℕ) : List UInt32 :=
  (points.extract low high).toList

theorem slice_self (points : Array UInt32) (n : ℕ) : slice points n n = [] := by
  rw [slice, Array.extract_eq_empty_of_le (Nat.min_le_left ..)]

theorem slice_append (points : Array UInt32) {low mid high : ℕ} (h : low ≤ mid) (h' : mid ≤ high) :
    slice points low mid ++ slice points mid high = slice points low high := by
  rw [slice, slice, slice, ← Array.toList_append, Array.extract_append_extract,
    Nat.min_eq_left h, Nat.max_eq_right h']

theorem slice_succ {points : Array UInt32} {n : ℕ} {point : UInt32} (h : points[n]? = some point) :
    slice points n (n + 1) = [point] := by
  rw [slice, Array.toList_extract, List.extract_eq_take_drop, Nat.add_sub_cancel_left]
  rw [← Array.getElem?_toList] at h
  rw [List.take_one, List.head?_drop, h]
  rfl

namespace Forest

/-- Trees next to each other stand for derivation trees: an ambiguity for those of any of its
alternatives. -/
inductive Unfolds (f : Forest) : List TreeId → List DerivationTree → Prop
  | nil : Unfolds f [] []
  | leaf {id : TreeId} {ids : List TreeId} {point : UInt32} {ts : List DerivationTree}
      (h : f.get? id = some (.leaf point)) (hts : Unfolds f ids ts) :
      Unfolds f (id :: ids) (.leaf point :: ts)
  | apply {id : TreeId} {ids children : List TreeId} {label : LabelId}
      {us ts : List DerivationTree} (h : f.get? id = some (.apply label children))
      (hus : Unfolds f children us) (hts : Unfolds f ids ts) :
      Unfolds f (id :: ids) (.node label us :: ts)
  | amb {id alternative : TreeId} {ids alternatives : List TreeId} {ts : List DerivationTree}
      (h : f.get? id = some (.amb alternatives)) (ha : alternative ∈ alternatives)
      (hts : Unfolds f (alternative :: ids) ts) : Unfolds f (id :: ids) ts

end Forest

/-! ### Spans -/

/-- The spans of trees next to each other lead from one position to another. -/
def Chained (span : TreeId → ℕ × ℕ) : ℕ → List TreeId → ℕ → Prop
  | low, [], high => low = high
  | low, id :: ids, high => (span id).1 = low ∧ Chained span (span id).2 ids high

/-- A tree has a span if its parts have theirs. -/
def Tree.HasSpan (points : Array UInt32) (span : TreeId → ℕ × ℕ) (s : ℕ × ℕ) : Tree → Prop
  | .leaf point => points[s.1]? = some point ∧ s.2 = s.1 + 1
  | .apply _ children => Chained span s.1 children s.2
  | .amb alternatives => ∀ id ∈ alternatives, span id = s

/-- The trees of a forest have spans that fit together. -/
structure Forest.Spanned (points : Array UInt32) (span : TreeId → ℕ × ℕ) (f : Forest) : Prop where
  part_lt : ∀ id t, f.get? id = some t → ∀ part ∈ t.parts, part < f.size
  hasSpan : ∀ id t, f.get? id = some t → t.HasSpan points span (span id)

variable {points : Array UInt32} {span span' : TreeId → ℕ × ℕ} {f : Forest} {low mid high : ℕ}
  {ids ids' : List TreeId} {id : TreeId}

theorem Chained.congr (h : ∀ id ∈ ids, span' id = span id) (hc : Chained span low ids high) :
    Chained span' low ids high := by
  induction ids generalizing low with
  | nil => exact hc
  | cons id ids ih =>
    rw [Chained, h id List.mem_cons_self]
    exact ⟨hc.1, ih (fun id hid => h id (List.mem_cons_of_mem _ hid)) hc.2⟩

theorem Chained.append (h : Chained span low ids mid) (h' : Chained span mid ids' high) :
    Chained span low (ids ++ ids') high := by
  induction ids generalizing low with
  | nil =>
    obtain rfl : low = mid := h
    exact h'
  | cons id ids ih => exact ⟨h.1, ih h.2⟩

theorem chained_singleton {s : ℕ × ℕ} (h : span id = s) : Chained span s.1 [id] s.2 := by
  subst h
  exact ⟨rfl, rfl⟩

theorem Tree.HasSpan.congr {t : Tree} {s : ℕ × ℕ} (h : ∀ part ∈ t.parts, span' part = span part)
    (ht : t.HasSpan points span s) : t.HasSpan points span' s := by
  cases t with
  | leaf point => exact ht
  | apply label children => exact Chained.congr h ht
  | amb alternatives =>
    intro id hid
    rw [h id hid]
    exact ht id hid

/-- If each of the trees next to each other has the points of its span, they all have the points of
the whole. -/
theorem Chained.flatMap_eq {leaves : TreeId → List UInt32} (hc : Chained span low ids high)
    (h : ∀ id ∈ ids, (span id).1 ≤ (span id).2 ∧
      leaves id = slice points (span id).1 (span id).2) :
    low ≤ high ∧ ids.flatMap leaves = slice points low high := by
  induction ids generalizing low with
  | nil =>
    obtain rfl : low = high := hc
    exact ⟨Nat.le_refl _, (slice_self points low).symm⟩
  | cons id ids ih =>
    obtain ⟨rfl, hc⟩ := hc
    obtain ⟨hle, heq⟩ := h id List.mem_cons_self
    obtain ⟨hle', heq'⟩ := ih hc fun id hid => h id (List.mem_cons_of_mem _ hid)
    refine ⟨Nat.le_trans hle hle', ?_⟩
    rw [List.flatMap_cons, heq, heq', slice_append points hle hle']

namespace Forest.Spanned

/-- The leaves of derivation trees next to each other are the points that their trees span,
whichever alternatives have been taken. -/
theorem leavesList_of_unfolds (hs : f.Spanned points span) {ts : List DerivationTree}
    (h : f.Unfolds ids ts) (hc : Chained span low ids high) :
    low ≤ high ∧ DerivationTree.leavesList ts = slice points low high := by
  -- by induction on the unfolding, which may go round a cycle of the forest
  induction h generalizing low high with
  | nil =>
    obtain rfl : low = high := hc
    exact ⟨Nat.le_refl _, (slice_self points low).symm⟩
  | @leaf id ids point ts h hts ih =>
    obtain ⟨rfl, hc⟩ := hc
    obtain ⟨hp, hsucc⟩ := hs.hasSpan id _ h
    obtain ⟨hle, heq⟩ := ih hc
    rw [hsucc] at hle heq
    refine ⟨Nat.le_of_succ_le hle, ?_⟩
    rw [DerivationTree.leavesList, DerivationTree.leaves, heq, ← slice_succ hp,
      slice_append points (Nat.le_succ _) hle]
  | @apply id ids children label us ts h hus hts ihus ihts =>
    obtain ⟨rfl, hc⟩ := hc
    obtain ⟨hle, heq⟩ := ihus (hs.hasSpan id _ h)
    obtain ⟨hle', heq'⟩ := ihts hc
    refine ⟨Nat.le_trans hle hle', ?_⟩
    rw [DerivationTree.leavesList, DerivationTree.leaves, heq, heq', slice_append points hle hle']
  | @amb id alternative ids alternatives ts h ha hts ih =>
    -- every alternative has the span of the ambiguity, so any may be taken
    refine ih ?_
    rw [Chained, hs.hasSpan id _ h alternative ha]
    exact hc

/-- The leaves of a derivation tree are the points of the span of its tree. -/
theorem leaves_of_unfolds (hs : f.Spanned points span) {t : DerivationTree}
    (h : f.Unfolds [id] [t]) :
    (span id).1 ≤ (span id).2 ∧ t.leaves = slice points (span id).1 (span id).2 := by
  rw [← DerivationTree.leavesList_singleton]
  exact hs.leavesList_of_unfolds h (chained_singleton rfl)

/-! ### The operations on a forest keep spans -/

/-- A new tree with a span gets it, and all others keep theirs. -/
theorem add (hs : f.Spanned points span) {t : Tree} {s : ℕ × ℕ}
    (hparts : ∀ part ∈ t.parts, part < f.size) (ht : t.HasSpan points span s) :
    (f.add t).2.Spanned points (Function.update span f.size s) := by
  have hold : ∀ id, id < f.size → Function.update span f.size s id = span id :=
    fun id hid => Function.update_of_ne (Nat.ne_of_lt hid) ..
  constructor
  · exact Forest.Closed.add hs.part_lt hparts
  · intro id u hu
    rw [Forest.get?_add] at hu
    split at hu
    · rename_i hid
      obtain rfl := Option.some.inj hu
      rw [hid, Function.update_self]
      exact ht.congr fun part hpart => hold part (hparts part hpart)
    -- the old trees have old parts, which keep their spans
    · rw [hold id (Forest.lt_of_get? hu)]
      exact (hs.hasSpan id u hu).congr fun part hpart => hold part (hs.part_lt id u hu part hpart)

/-- A tree may become an ambiguity of trees of its span. -/
theorem replace {f' : Forest} (hs : f.Spanned points span) {existing : TreeId}
    (hsize : f'.size = f.size)
    (hget : ∀ id, f'.get? id = if id = existing then some (.amb ids) else f.get? id)
    (hids : ∀ part ∈ ids, part < f.size ∧ span part = span existing) :
    f'.Spanned points span := by
  constructor
  · exact Forest.Closed.replace hs.part_lt hsize hget fun part hpart => (hids part hpart).1
  · intro id t ht
    rw [hget] at ht
    split at ht
    · rename_i hid
      obtain rfl := Option.some.inj ht
      rw [hid]
      exact fun part hpart => (hids part hpart).2
    · exact hs.hasSpan id t ht

/-- Packing a tree into one of the same span keeps all spans. -/
theorem pack (hs : f.Spanned points span) {existing new : TreeId} (he : existing < f.size)
    (hn : new < f.size) (hspan : span new = span existing) :
    ∃ span', (f.pack existing new).Spanned points span' ∧ ∀ id < f.size, span' id = span id := by
  obtain ⟨t, ht⟩ := Forest.exists_get? he
  rcases Forest.pack_cases ht new with ⟨alternatives, rfl, hsize, hget⟩ | ⟨-, hsize, hget⟩
  · refine ⟨span, hs.replace hsize hget ?_, fun _ _ => rfl⟩
    intro part hpart
    rcases List.mem_append.mp hpart with hpart | hpart
    · exact ⟨hs.part_lt existing _ ht part hpart, hs.hasSpan existing _ ht part hpart⟩
    · rw [List.mem_singleton.mp hpart]
      exact ⟨hn, hspan⟩
  -- the tree that was there is added once more, with its span
  · have hold : ∀ id < f.size, Function.update span f.size (span existing) id = span id :=
      fun id hid => Function.update_of_ne (Nat.ne_of_lt hid) ..
    have hadd := hs.add (hs.part_lt existing t ht) (hs.hasSpan existing t ht)
    simp only [← Forest.get?_add] at hget
    refine ⟨_, hadd.replace (hsize.trans (Forest.size_add f t).symm) hget ?_, hold⟩
    intro part hpart
    rw [Forest.size_add, hold existing he]
    rcases List.mem_cons.mp hpart with rfl | hpart
    · exact ⟨Nat.lt_succ_self _, Function.update_self ..⟩
    · rw [List.mem_singleton.mp hpart, hold new hn]
      exact ⟨Nat.lt_succ_of_lt hn, hspan⟩

end Forest.Spanned

end ScannerlessLR
