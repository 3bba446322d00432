/-
The texts of forests put together by operations.

Reading a tree goes on with its children, or with its first alternative.  However a forest
has been put together, this never leads back to the tree: what operations preserve is that
there are ranks which fall.  So the texts of the trees are the only solution of equations
that follow the trees, and the loop that reads them off comes to an end.

* `Tree.heads` — the trees that reading a tree goes on with;
* `Forest.Built.induction` — induction along these;
* `Forest.Built.leaves_unique` — the leaves that are read are determined by equations;
* `Forest.Built.leaves_run` — which hold whatever is done to the forest;
* `Forest.Built.exists_spell` — the loop reads the text in the end;
* `text_of_built` — all of this about the texts.
-/
import ScannerlessLR.Forest.Yield
import ScannerlessLR.Proofs.Forest.Operations
import ScannerlessLR.Proofs.Forest.Yield

namespace ScannerlessLR

namespace Tree

/-- The trees that reading a tree goes on with. -/
def heads : Tree → List TreeId
  | .leaf _ => []
  | .apply _ children => children
  | .amb alternatives => alternatives.head?.toList

/-- The point that a leaf has. -/
def points : Tree → List UInt32
  | .leaf point => [point]
  | _ => []

variable {t : Tree} {head : TreeId} {rank : TreeId → ℕ} {r : ℕ}

/-- A leaf has the character of its point, if that is one. -/
theorem filterMap_points_leaf (point : UInt32) :
    (leaf point).points.filterMap charOfPoint? = (charOfPoint? point).toList := by
  cases hp : charOfPoint? point <;> simp [points, hp]

theorem mem_parts_of_mem_heads (h : head ∈ t.heads) : head ∈ t.parts := by
  cases t with
  | leaf point => exact h
  | apply label children => exact h
  | amb alternatives => exact List.mem_of_mem_head? (Option.mem_toList.mp h)

theorem RanksBelow.head_lt (ht : t.RanksBelow rank r) (h : head ∈ t.heads) : rank head < r := by
  cases t with
  | leaf point => exact absurd h List.not_mem_nil
  | apply label children => exact ht head h
  | amb alternatives =>
    obtain ⟨first, hfirst, hlt⟩ := ht
    obtain rfl := Option.some.inj (hfirst.symm.trans (Option.mem_toList.mp h))
    exact hlt

end Tree

namespace Forest

variable {f : Forest} {rank : TreeId → ℕ} {id e n : TreeId} {t : Tree} {op : Operation}

/-! ### Ranks -/

theorem Built.exists_ranked (h : f.Built) : ∃ rank, f.Ranked rank := by
  induction h with
  | empty => exact ⟨fun _ => 0, fun id t ht => absurd (lt_of_get? ht) (Nat.not_lt_zero id)⟩
  | run hbuilt hop ih =>
    obtain ⟨rank, hr⟩ := ih
    rcases run_cases hop with ⟨t, hrun, hparts, hamb⟩ | ⟨e, n, rfl, he, -⟩
    · rw [hrun]
      exact hr.add hbuilt.closed hparts hamb
    · exact hr.pack hbuilt.closed he n

/-- There is always something to read of an ambiguity. -/
theorem Built.exists_first (h : f.Built) {alternatives : List TreeId}
    (ht : f.get? id = some (.amb alternatives)) : ∃ first, alternatives.head? = some first := by
  obtain ⟨rank, hr⟩ := h.exists_ranked
  obtain ⟨first, hfirst, -⟩ := hr id _ ht
  exact ⟨first, hfirst⟩

/-- What holds of a tree if it holds of those that reading it goes on with holds of all. -/
theorem Built.induction {P : TreeId → Prop} (h : f.Built)
    (step : ∀ id t, f.get? id = some t → (∀ head ∈ t.heads, P head) → P id) :
    ∀ id < f.size, P id := by
  obtain ⟨rank, hr⟩ := h.exists_ranked
  suffices ∀ r id, id < f.size → rank id = r → P id from fun id hid => this _ id hid rfl
  intro r
  induction r using Nat.strong_induction_on with
  | _ r ih =>
    rintro id hid rfl
    obtain ⟨t, ht⟩ := exists_get? hid
    refine step id t ht fun head hhead => ih _ ((hr id t ht).head_lt hhead) head ?_ rfl
    exact h.closed id t ht head (Tree.mem_parts_of_mem_heads hhead)

/-! ### Leaves -/

theorem leavesWithin_succ (ht : f.get? id = some t) (depth : ℕ) :
    f.leavesWithin (depth + 1) id = t.points ++ t.heads.flatMap (f.leavesWithin depth) := by
  rw [leavesWithin, ht]
  cases t with
  | leaf point => rfl
  | apply label children => rfl
  | amb alternatives =>
    cases alternatives with
    | nil => rfl
    | cons first rest => simp [Tree.points, Tree.heads]

/-- Above the rank of a tree, its leaves do not depend on the depth. -/
theorem leavesWithin_eq_leavesWithin (hf : f.Closed) (hr : f.Ranked rank) {depth depth' : ℕ}
    (hid : id < f.size) (hd : rank id < depth) (hd' : rank id < depth') :
    f.leavesWithin depth id = f.leavesWithin depth' id := by
  induction depth generalizing id depth' with
  | zero => exact absurd hd (Nat.not_lt_zero _)
  | succ depth ih =>
    obtain ⟨depth', rfl⟩ := Nat.exists_eq_add_one_of_ne_zero (Nat.ne_zero_of_lt hd')
    obtain ⟨t, ht⟩ := exists_get? hid
    rw [leavesWithin_succ ht, leavesWithin_succ ht]
    -- what reading goes on with ranks lower, so what is left of either depth is enough for it
    refine congrArg (t.points ++ ·) (List.flatMap_congr fun head hhead => ?_)
    have hlt := (hr id t ht).head_lt hhead
    exact ih (hf id t ht head (Tree.mem_parts_of_mem_heads hhead))
      (Nat.lt_of_lt_of_le hlt (Nat.le_of_lt_succ hd))
      (Nat.lt_of_lt_of_le hlt (Nat.le_of_lt_succ hd'))

/-- The leaves of a tree are its own point and the leaves of the trees that reading goes on with. -/
theorem Built.leaves_eq (h : f.Built) (ht : f.get? id = some t) :
    f.leaves id = t.points ++ t.heads.flatMap f.leaves := by
  obtain ⟨rank, hr⟩ := h.exists_ranked
  obtain ⟨rank, hr, hlt⟩ := hr.exists_lt_size h.closed
  have hid := lt_of_get? ht
  rw [leaves, leavesWithin_eq_leavesWithin h.closed hr hid (hlt id hid)
    (Nat.lt_succ_of_lt (hlt id hid)), leavesWithin_succ ht]
  rfl

/-- No other sequences solve these equations. -/
theorem Built.leaves_unique (h : f.Built) {L : TreeId → List UInt32}
    (hL : ∀ id t, f.get? id = some t → L id = t.points ++ t.heads.flatMap L) :
    ∀ id < f.size, L id = f.leaves id := by
  refine h.induction fun id t ht ih => ?_
  rw [hL id t ht, h.leaves_eq ht, List.flatMap_congr ih]

/-- Packing keeps the equations: what a tree had been before it was packed into is read first. -/
theorem Built.leaves_pack_eq (h : f.Built) (he : e < f.size) (hn : n < f.size)
    (ht : f.get? id = some t) :
    (f.pack e n).leaves id = t.points ++ t.heads.flatMap (f.pack e n).leaves := by
  have hbuilt := h.pack he hn
  obtain ⟨u, hu⟩ := exists_get? he
  by_cases hid : id = e
  · subst hid
    obtain rfl := Option.some.inj (ht.symm.trans hu)
    rcases pack_cases ht n with ⟨alternatives, rfl, -, hget⟩ | ⟨-, -, hget⟩
    -- an ambiguity keeps its first alternative, and that is what is read
    · obtain ⟨first, hfirst⟩ := h.exists_first ht
      rw [hbuilt.leaves_eq (by rw [hget, if_pos rfl])]
      simp [Tree.points, Tree.heads, List.head?_append, hfirst]
    -- any other tree has moved, and is the first alternative now
    · have hmoved : (f.pack id n).get? f.size = some t := by
        rw [hget, if_neg (Nat.ne_of_gt he), if_pos rfl]
      rw [hbuilt.leaves_eq (by rw [hget, if_pos rfl]), ← hbuilt.leaves_eq hmoved]
      simp [Tree.points, Tree.heads]
  · exact hbuilt.leaves_eq ((f.get?_pack_of_ne e n hid (lt_of_get? ht)).trans ht)

/-- An operation changes the leaves of no tree that is there. -/
theorem Built.leaves_run (h : f.Built) (hop : op.Fits f) (hid : id < f.size) :
    (f.run op).2.leaves id = f.leaves id := by
  refine h.leaves_unique (fun id t ht => ?_) id hid
  rcases run_cases hop with ⟨u, hrun, -, -⟩ | ⟨e, n, rfl, he, hn⟩
  · refine (Built.run h hop).leaves_eq ?_
    rw [hrun, get?_add_of_lt (lt_of_get? ht), ht]
  · exact h.leaves_pack_eq he hn ht

/-! ### Texts -/

/-- The characters of a tree are its own and those of the trees that reading goes on with. -/
theorem Built.toList_text (h : f.Built) (ht : f.get? id = some t) : (f.text id).toList =
    t.points.filterMap charOfPoint? ++ t.heads.flatMap fun head => (f.text head).toList := by
  simp only [text, String.toList_ofList]
  rw [h.leaves_eq ht, List.filterMap_append, List.filterMap_flatMap]

/-- A round of the loop puts the trees that reading goes on with in the place of a tree. -/
theorem spell_cons (ht : f.get? id = some t) (rounds : ℕ) (due : List TreeId) (out : List Char) :
    f.spell (rounds + 1) (id :: due) out =
      f.spell rounds (t.heads ++ due) (out ++ t.points.filterMap charOfPoint?) := by
  rw [spell, ht]
  cases t with
  | leaf point => rw [Tree.filterMap_points_leaf, Tree.heads, List.nil_append]
  | apply label children => simp [Tree.points, Tree.heads]
  | amb alternatives => simp [Tree.points, Tree.heads]

/-- The loop gets done with trees next to each other if it gets done with each. -/
theorem exists_spell_append {ids : List TreeId} (h : ∀ id ∈ ids, ∃ rounds, ∀ more due out,
      f.spell (more + rounds) (id :: due) out = f.spell more due (out ++ (f.text id).toList)) :
    ∃ rounds, ∀ more due out, f.spell (more + rounds) (ids ++ due) out =
      f.spell more due (out ++ ids.flatMap fun id => (f.text id).toList) := by
  induction ids with
  | nil => exact ⟨0, fun more due out => by simp⟩
  | cons id ids ih =>
    obtain ⟨rounds, hid⟩ := h id List.mem_cons_self
    obtain ⟨rounds', hids⟩ := ih fun id hid => h id (List.mem_cons_of_mem _ hid)
    refine ⟨rounds' + rounds, fun more due out => ?_⟩
    rw [← Nat.add_assoc, List.cons_append, hid, hids, List.append_assoc, List.flatMap_cons]

/-- The loop gets done with a tree, having read its text. -/
theorem Built.exists_spell (h : f.Built) : ∀ id < f.size, ∃ rounds, ∀ more due out,
    f.spell (more + rounds) (id :: due) out = f.spell more due (out ++ (f.text id).toList) := by
  refine h.induction fun id t ht ih => ?_
  obtain ⟨rounds, hheads⟩ := exists_spell_append ih
  refine ⟨rounds + 1, fun more due out => ?_⟩
  rw [← Nat.add_assoc, spell_cons ht, hheads, List.append_assoc, h.toList_text ht]

end Forest

/-- However a forest has been put together, the loop that reads off a text comes to an end at every
tree.  The text of a leaf is its character, if it has one, that of an application the texts of its
children in order, and that of an ambiguity the text of its first alternative.  Whatever is done
next, the trees that are there keep their texts. -/
theorem text_of_built {f : Forest} (h : f.Built) :
    (∀ id < f.size, ∃ rounds, ∀ more,
      f.spell (more + rounds) [id] [] = some (f.text id).toList) ∧
    (∀ id point, f.get? id = some (.leaf point) →
      f.text id = String.ofList (charOfPoint? point).toList) ∧
    (∀ id label children, f.get? id = some (.apply label children) →
      f.text id = String.join (children.map f.text)) ∧
    (∀ id alternatives, f.get? id = some (.amb alternatives) → ∃ first,
      alternatives.head? = some first ∧ f.text id = f.text first) ∧
    ∀ op : Forest.Operation, op.Fits f → ∀ id < f.size, (f.run op).2.text id = f.text id := by
  refine ⟨fun id hid => ?_, fun id point ht => ?_, fun id label children ht => ?_,
    fun id alternatives ht => ?_, fun op hop id hid => ?_⟩
  -- one more round finds that there is nothing left to read
  · obtain ⟨rounds, hrounds⟩ := h.exists_spell id hid
    refine ⟨1 + rounds, fun more => ?_⟩
    rw [← Nat.add_assoc, hrounds, List.nil_append, Forest.spell]
  -- the equations of the texts are those of the leaves, one for each kind of tree
  · refine String.ext ?_
    rw [h.toList_text ht, Tree.filterMap_points_leaf, String.toList_ofList]
    exact List.append_nil _
  · refine String.ext ?_
    rw [h.toList_text ht, String.toList_join, List.flatMap_map]
    rfl
  · obtain ⟨first, hfirst⟩ := h.exists_first ht
    refine ⟨first, hfirst, String.ext ?_⟩
    rw [h.toList_text ht]
    simp [Tree.points, Tree.heads, hfirst]
  · rw [Forest.text, Forest.text, h.leaves_run hop hid]

/-- A tower whose top has been packed into its middle: the two contain each other. -/
def Forest.knot : Forest :=
  (tower.run (.pack 1 2)).2

theorem Forest.built_knot : knot.Built :=
  built_tower.run (by decide)

/-- Their text is the one of the leaf below, also when one is packed into itself. -/
theorem text_of_built_knot : Forest.knot.Built ∧ Forest.knot.get? 1 = some (.amb [3, 2]) ∧
    Forest.knot.get? 2 = some (.apply 258 [1]) ∧
    (∃ rounds, ∀ more, Forest.knot.spell (more + rounds) [2] [] = some ['x']) ∧
    (Forest.knot.run (.pack 2 2)).2.text 2 = "x" := by
  have htext : Forest.knot.text 2 = "x" := by decide +kernel
  obtain ⟨hloop, -, -, -, hrun⟩ := text_of_built Forest.built_knot
  refine ⟨Forest.built_knot, by decide, by decide, ?_, ?_⟩
  · have h := hloop 2 (by decide)
    rwa [htext] at h
  · rw [hrun (.pack 2 2) (by decide) 2 (by decide), htext]

end ScannerlessLR
