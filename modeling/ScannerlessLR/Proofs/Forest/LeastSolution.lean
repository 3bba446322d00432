/-
What packing adds to the derivation trees of a forest.

Each tree of a forest has an equation: it says which derivation trees the tree stands for,
given what its parts stand for.  Forests may be cyclic, so the equations can have many
solutions; what the trees stand for is the least one.  Packing one tree into another adds
to the equation of the other whatever the first stands for, and changes nothing else.

* `Forest.unfold` — the right-hand sides of the equations;
* `Forest.isLeast_derivations` — the derivation trees are the least solution;
* `Forest.unfoldWith` — the equations, one of them with a further term;
* `Forest.derivations_pack_eq`, `Forest.derivations_pack_subset` — packing solves these, and
  no solution has less;
* `derivations_pack` — what packing does, all in all.
-/
import Mathlib.Data.List.Forall2
import Mathlib.Order.Bounds.Basic
import ScannerlessLR.Proofs.Forest.Derivation
import ScannerlessLR.Proofs.Forest.Operations

namespace ScannerlessLR

/-- The derivation trees that a tree stands for, given those that its parts stand for. -/
def Tree.derivations (D : TreeId → Set DerivationTree) : Tree → Set DerivationTree
  | .leaf point => {.leaf point}
  | .apply label children =>
    {d | ∃ ds, List.Forall₂ (fun id d => d ∈ D id) children ds ∧ d = .node label ds}
  | .amb alternatives => {d | ∃ id ∈ alternatives, d ∈ D id}

variable {D D' : TreeId → Set DerivationTree} {t : Tree}

/-- The more the parts stand for, the more does the tree. -/
theorem Tree.derivations_subset (h : ∀ part ∈ t.parts, D part ⊆ D' part) :
    t.derivations D ⊆ t.derivations D' := by
  cases t with
  | leaf point => exact fun d hd => hd
  | apply label children =>
    rintro d ⟨ds, hds, rfl⟩
    have hboth := (List.forall₂_and_left ..).mpr ⟨h, hds⟩
    exact ⟨ds, hboth.imp fun id d hd => hd.1 hd.2, rfl⟩
  | amb alternatives =>
    rintro d ⟨id, hid, hd⟩
    exact ⟨id, hid, h id hid hd⟩

theorem Tree.derivations_congr (h : ∀ part ∈ t.parts, D part = D' part) :
    t.derivations D = t.derivations D' :=
  Set.Subset.antisymm (derivations_subset fun part hpart => (h part hpart).subset)
    (derivations_subset fun part hpart => (h part hpart).superset)

namespace Forest

variable {f : Forest} {id e n : TreeId} {ids ids' : List TreeId} {ds ds' : List DerivationTree}

/-- The right-hand sides of the equations: what the trees stand for, given what their parts do.
Where there is no tree there is nothing. -/
def unfold (f : Forest) (D : TreeId → Set DerivationTree) (id : TreeId) : Set DerivationTree :=
  (f.get? id).elim ∅ (Tree.derivations D)

/-- The derivation trees that a tree stands for. -/
def derivations (f : Forest) (id : TreeId) : Set DerivationTree :=
  {d | f.Unfolds [id] [d]}

theorem unfold_of_get? (h : f.get? id = some t) : f.unfold D id = t.derivations D := by
  rw [unfold, h, Option.elim_some]

theorem unfold_of_le (h : f.size ≤ id) : f.unfold D id = ∅ := by
  rw [unfold, get?, Array.getElem?_eq_none h, Option.elim_none]

/-! ### The least solution -/

theorem Unfolds.append (h : f.Unfolds ids ds) (h' : f.Unfolds ids' ds') :
    f.Unfolds (ids ++ ids') (ds ++ ds') := by
  induction h with
  | nil => exact h'
  | leaf hget _ ih => exact .leaf hget ih
  | apply hget hus _ _ ih => exact .apply hget hus ih
  | amb hget ha _ ih => exact .amb hget ha ih

/-- Trees next to each other stand for one derivation tree each. -/
theorem unfolds_iff_forall₂ :
    f.Unfolds ids ds ↔ List.Forall₂ (fun id d => d ∈ f.derivations id) ids ds := by
  constructor
  · intro h
    induction h with
    | nil => exact .nil
    | leaf hget _ ih => exact .cons (.leaf hget .nil) ih
    | apply hget hus _ _ ih => exact .cons (.apply hget hus .nil) ih
    | amb hget ha _ ih =>
      cases ih with
      | cons hd hds => exact .cons (.amb hget ha hd) hds
  · intro h
    induction h with
    | nil => exact .nil
    | cons hd _ ih => exact Unfolds.append hd ih

/-- The derivation trees of a forest solve its equations. -/
theorem unfold_derivations (f : Forest) : f.unfold f.derivations = f.derivations := by
  funext id
  by_cases hid : id < f.size
  · obtain ⟨t, ht⟩ := exists_get? hid
    rw [unfold_of_get? ht]
    ext d
    constructor
    -- what the equation takes together is a derivation, whatever kind of tree this is
    · intro hd
      cases t with
      | leaf point =>
        obtain rfl : d = .leaf point := hd
        exact .leaf ht .nil
      | apply label children =>
        obtain ⟨ds, hds, rfl⟩ := hd
        exact .apply ht (unfolds_iff_forall₂.mpr hds) .nil
      | amb alternatives =>
        obtain ⟨alternative, ha, hd⟩ := hd
        exact .amb ht ha hd
    -- the first step of a derivation tells which tree it unfolds
    · intro hd
      cases hd with
      | leaf hget _ =>
        obtain rfl := Option.some.inj (ht.symm.trans hget)
        rfl
      | apply hget hus _ =>
        obtain rfl := Option.some.inj (ht.symm.trans hget)
        exact ⟨_, unfolds_iff_forall₂.mp hus, rfl⟩
      | amb hget ha hd =>
        obtain rfl := Option.some.inj (ht.symm.trans hget)
        exact ⟨_, ha, hd⟩
  -- at a place that is not taken there is nothing to derive
  · rw [unfold_of_le (Nat.le_of_not_lt hid)]
    refine (Set.eq_empty_of_forall_notMem fun d hd => ?_).symm
    cases hd with
    | leaf hget | apply hget | amb hget => exact hid (lt_of_get? hget)

/-- Whatever has the derivation trees that the equations call for has those of the forest. -/
theorem derivations_le (h : f.unfold D ≤ D) : f.derivations ≤ D := by
  have hall : ∀ {ids ds}, f.Unfolds ids ds → List.Forall₂ (fun id d => d ∈ D id) ids ds := by
    intro ids ds hu
    -- a derivation tree is finite, so it is put together in the end from leaves
    induction hu with
    | nil => exact .nil
    | @leaf id _ point _ hget _ ih =>
      refine .cons (h id ?_) ih
      rw [unfold_of_get? hget]
      rfl
    | @apply id _ _ label us _ hget _ _ ihus ih =>
      refine .cons (h id ?_) ih
      rw [unfold_of_get? hget]
      exact ⟨us, ihus, rfl⟩
    | @amb id alternative _ _ _ hget ha _ ih =>
      cases ih with
      | cons hd hds =>
        refine .cons (h id ?_) hds
        rw [unfold_of_get? hget]
        exact ⟨alternative, ha, hd⟩
  intro id d hd
  cases hall hd with
  | cons hd _ => exact hd

/-- The derivation trees of a forest are the least solution of its equations. -/
theorem isLeast_derivations (f : Forest) : IsLeast {D | D = f.unfold D} f.derivations :=
  ⟨f.unfold_derivations.symm, fun _ hD => derivations_le (le_of_eq (Eq.symm hD))⟩

/-! ### Packing -/

/-- The right-hand sides of the equations, where the tree `e` stands for what the tree `n` does
besides. -/
def unfoldWith (f : Forest) (e n : TreeId) (D : TreeId → Set DerivationTree) (id : TreeId) :
    Set DerivationTree :=
  f.unfold D id ∪ {d | id = e ∧ d ∈ D n}

theorem unfoldWith_self : f.unfoldWith e n D e = f.unfold D e ∪ D n := by
  simp [unfoldWith]

theorem unfoldWith_of_ne (h : id ≠ e) : f.unfoldWith e n D id = f.unfold D id := by
  simp [unfoldWith, h]

section Pack

variable (he : e < f.size)
include he

/-- Behind a packing, the trees that were there solve the equations with the new term. -/
theorem derivations_pack_eq (hid : id < f.size) :
    (f.pack e n).derivations id = f.unfoldWith e n (f.pack e n).derivations id := by
  obtain ⟨t, ht⟩ := exists_get? he
  have hsolves := congrFun (f.pack e n).unfold_derivations id
  by_cases hne : id = e
  · subst hne
    rw [unfoldWith_self, unfold_of_get? ht, ← hsolves]
    rcases pack_cases ht n with ⟨alternatives, rfl, -, hget⟩ | ⟨-, -, hget⟩
    · rw [unfold_of_get? (by rw [hget, if_pos rfl])]
      ext d
      simp [Tree.derivations, or_and_right, exists_or]
    -- what the tree stood for is found at its new place
    · have hmoved : (f.pack id n).derivations f.size =
          t.derivations (f.pack id n).derivations := by
        rw [← congrFun (f.pack id n).unfold_derivations f.size]
        exact unfold_of_get? (by rw [hget, if_neg (Nat.ne_of_gt he), if_pos rfl])
      rw [unfold_of_get? (by rw [hget, if_pos rfl]), ← hmoved]
      ext d
      simp [Tree.derivations]
  · rw [unfoldWith_of_ne hne, ← hsolves, unfold, get?_pack_of_ne f e n hne hid]
    rfl

/-- Behind a packing, the trees that were there stand for no more than the equations with the new
term call for. -/
theorem derivations_pack_subset (hf : f.Closed) (hn : n < f.size)
    (hD : ∀ id, f.unfoldWith e n D id ⊆ D id) (hid : id < f.size) :
    (f.pack e n).derivations id ⊆ D id := by
  obtain ⟨t, ht⟩ := exists_get? he
  have hold : ∀ id, f.unfold D id ⊆ D id := fun id => Set.subset_union_left.trans (hD id)
  have hnew : D n ⊆ D e := by
    have h := hD e
    rw [unfoldWith_self] at h
    exact Set.subset_union_right.trans h
  rcases pack_cases ht n with ⟨alternatives, rfl, -, hget⟩ | ⟨-, -, hget⟩
  · refine derivations_le (fun id => ?_) id
    by_cases hne : id = e
    · subst hne
      rw [unfold_of_get? (by rw [hget, if_pos rfl])]
      rintro d ⟨alternative, ha, hd⟩
      rcases List.mem_append.mp ha with ha | ha
      · refine hold id ?_
        rw [unfold_of_get? ht]
        exact ⟨alternative, ha, hd⟩
      · rw [List.mem_singleton.mp ha] at hd
        exact hnew hd
    · rw [unfold, hget, if_neg hne]
      exact hold id
  -- the new place of the tree stands for what the tree stands for
  · set D' := Function.update D f.size (t.derivations D) with hD'
    have hsame : ∀ id < f.size, D' id = D id :=
      fun id hid => Function.update_of_ne (Nat.ne_of_lt hid) ..
    have hparts : ∀ id t, f.get? id = some t → t.derivations D' = t.derivations D :=
      fun id t ht => Tree.derivations_congr fun part hpart => hsame part (hf id t ht part hpart)
    rw [← hsame id hid]
    refine derivations_le (fun id => ?_) id
    by_cases hne : id = e
    · subst hne
      rw [unfold_of_get? (by rw [hget, if_pos rfl]), hsame id he]
      rintro d ⟨alternative, ha, hd⟩
      rcases List.mem_cons.mp ha with rfl | ha
      · refine hold id ?_
        rw [hD', Function.update_self] at hd
        rwa [unfold_of_get? ht]
      · rw [List.mem_singleton.mp ha, hsame n hn] at hd
        exact hnew hd
    · rw [unfold, hget, if_neg hne]
      by_cases hmoved : id = f.size
      · rw [if_pos hmoved, hmoved, hD', Function.update_self, ← hD']
        exact (hparts e t ht).subset
      · rw [if_neg hmoved]
        cases hu : f.get? id with
        | none => exact Set.empty_subset _
        | some u =>
          rw [Option.elim_some, hparts id u hu, hsame id (lt_of_get? hu), ← unfold_of_get? hu]
          exact hold id

end Pack

/-- What the trees of `f` stand for in another forest. -/
def derivationsIn (f f' : Forest) (id : TreeId) : Set DerivationTree :=
  {d | id < f.size ∧ d ∈ f'.derivations id}

theorem derivationsIn_of_lt {f' : Forest} (h : id < f.size) :
    f.derivationsIn f' id = f'.derivations id := by
  simp [derivationsIn, h]

section Law

variable (hf : f.Closed) (he : e < f.size) (hn : n < f.size)
include hf he hn

/-- What the trees stand for behind a packing is the least solution of the equations with the new
term. -/
theorem isLeast_derivations_pack :
    IsLeast {D | D = f.unfoldWith e n D} (f.derivationsIn (f.pack e n)) := by
  constructor
  · funext id
    have hnew : f.derivationsIn (f.pack e n) n = (f.pack e n).derivations n :=
      derivationsIn_of_lt hn
    by_cases hid : id < f.size
    · obtain ⟨t, ht⟩ := exists_get? hid
      have hparts : t.derivations (f.derivationsIn (f.pack e n)) =
          t.derivations (f.pack e n).derivations :=
        Tree.derivations_congr fun part hpart => derivationsIn_of_lt (hf id t ht part hpart)
      rw [derivationsIn_of_lt hid, derivations_pack_eq he hid, unfoldWith, unfoldWith, hnew,
        unfold_of_get? ht, unfold_of_get? ht, hparts]
    · have hne : id ≠ e := fun heq => hid (heq ▸ he)
      rw [unfoldWith_of_ne hne, unfold_of_le (Nat.le_of_not_lt hid)]
      exact Set.eq_empty_of_forall_notMem fun d hd => hid hd.1
  · rintro D hD id d ⟨hid, hd⟩
    exact derivations_pack_subset he hf hn (fun id => (congrFun hD id).superset) hid hd

/-- Packing takes no derivation trees away. -/
theorem derivations_subset_pack : f.derivations id ⊆ (f.pack e n).derivations id := by
  have hsolves := (isLeast_derivations_pack hf he hn).1
  have hle : f.derivations ≤ f.derivationsIn (f.pack e n) := by
    refine derivations_le fun id => ?_
    rw [congrFun hsolves id]
    exact Set.subset_union_left
  exact (hle id).trans fun d hd => hd.2

/-- Packing leaves alone what the trees stand for from which the tree packed into is not reached. -/
theorem derivations_pack_of_not_within (hid : id < f.size) (h : ¬ f.Within [id] e) :
    (f.pack e n).derivations id = f.derivations id := by
  refine Set.Subset.antisymm ?_ (derivations_subset_pack hf he hn)
  -- all derivation trees there are, for the trees from which it is reached
  set D : TreeId → Set DerivationTree := fun id => {d | f.Within [id] e ∨ d ∈ f.derivations id}
  have hD : ∀ id, f.unfoldWith e n D id ⊆ D id := by
    intro id d hd
    by_cases hw : f.Within [id] e
    · exact .inl hw
    have hne : id ≠ e := fun heq => hw (.root (heq ▸ List.mem_singleton_self id))
    rw [unfoldWith_of_ne hne] at hd
    cases ht : f.get? id with
    | none => exact absurd hd (by simp [unfold, ht])
    | some t =>
      have hparts : t.derivations D = t.derivations f.derivations := by
        refine Tree.derivations_congr fun part hpart => ?_
        have hw' : ¬ f.Within [part] e := fun hw' =>
          hw (.trans (.part (.root (List.mem_singleton_self id)) ht hpart) hw')
        simp [D, hw']
      rw [unfold_of_get? ht, hparts, ← unfold_of_get? ht, f.unfold_derivations] at hd
      exact .inr hd
  exact fun d hd => (derivations_pack_subset he hf hn hD hid hd).resolve_left h

end Law

end Forest

/-- Packing the tree `n` into the tree `e` returns `e`, changes no other tree that was there, and
makes `e` an ambiguity with `n` as its last alternative.  What the trees stand for afterwards is the
least solution of the equations that they had, but that `e` stands for what `n` does besides.  So no
tree stands for less than before, a tree above others gets what they get, and where `e` is not
reached nothing changes. -/
theorem derivations_pack {f : Forest} (hf : f.Closed) {e n : TreeId} (he : e < f.size)
    (hn : n < f.size) : ∃ f', f.run (.pack e n) = (e, f') ∧
      (∀ id < f.size, id ≠ e → f'.get? id = f.get? id) ∧
      (∃ alternatives, f'.get? e = some (.amb (alternatives ++ [n]))) ∧
      IsLeast {D | D = f.unfold D} f.derivations ∧
      IsLeast {D | D = f.unfoldWith e n D} (f.derivationsIn f') ∧
      (∀ id < f.size, f.derivations id ⊆ f'.derivations id) ∧
      (∀ id t, f.get? id = some t → t.derivations f'.derivations ⊆ f'.derivations id) ∧
      ∀ id < f.size, ¬ f.Within [id] e → f'.derivations id = f.derivations id := by
  refine ⟨f.pack e n, rfl, fun id hid hne => f.get?_pack_of_ne e n hne hid, ?_,
    f.isLeast_derivations, Forest.isLeast_derivations_pack hf he hn,
    fun id _ => Forest.derivations_subset_pack hf he hn, ?_,
    fun id hid h => Forest.derivations_pack_of_not_within hf he hn hid h⟩
  -- `n` becomes the last alternative, whether `e` has been an ambiguity or not
  · obtain ⟨t, ht⟩ := Forest.exists_get? he
    rcases Forest.pack_cases ht n with ⟨alternatives, -, -, hget⟩ | ⟨-, -, hget⟩
    · exact ⟨alternatives, by rw [hget, if_pos rfl]⟩
    · exact ⟨[f.size], by rw [hget, if_pos rfl]; rfl⟩
  -- the equation of a tree may get another term, and keeps those that it had
  · intro id t ht
    rw [Forest.derivations_pack_eq he (Forest.lt_of_get? ht), Forest.unfoldWith,
      Forest.unfold_of_get? ht]
    exact Set.subset_union_left

/-- A tree above another is packed into it.  What the lower one has stood for stays, and what the
upper one makes of it, it stands for as well. -/
theorem derivations_pack_tower : Forest.tower.Closed ∧ 1 < Forest.tower.size ∧
    2 < Forest.tower.size ∧ ∃ f', Forest.tower.run (.pack 1 2) = (1, f') ∧
      .node 257 [.leaf 0x78] ∈ f'.derivations 1 ∧
      ∀ d ∈ f'.derivations 1, .node 258 [d] ∈ f'.derivations 1 := by
  have hclosed := Forest.built_tower.closed
  obtain ⟨f', hrun, -, -, hleast, hleast', hmono, hover, -⟩ :=
    derivations_pack hclosed (show 1 < Forest.tower.size by decide)
      (show 2 < Forest.tower.size by decide)
  refine ⟨hclosed, by decide, by decide, f', hrun, ?_, fun d hd => ?_⟩
  · have hleaf : Forest.tower.Unfolds [0] [.leaf 0x78] := .leaf rfl .nil
    exact hmono 1 (by decide) (.apply rfl hleaf .nil)
  -- what the upper tree makes of it, packing has put into the lower one
  · have habove : .node 258 [d] ∈ f'.derivations 2 :=
      hover 2 (.apply 258 [1]) rfl ⟨[d], by simpa, rfl⟩
    have hsolves := congrFun hleast'.1 1
    rw [Forest.derivationsIn_of_lt (by decide), Forest.unfoldWith_self,
      Forest.derivationsIn_of_lt (by decide)] at hsolves
    rw [hsolves]
    exact .inr habove

end ScannerlessLR
