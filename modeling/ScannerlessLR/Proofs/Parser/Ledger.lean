/-
The derivations that are packed into a link.

A link that a reduction has made has a tree of its own: no other link carries it, nor
one of its alternatives.  So packing into the tree of another link leaves these
alternatives alone, and each derivation that is packed into the link itself becomes
one more of them.

* `Derives` — a tree of the production of a reduction, over the trees along its path;
* `Ledger` — the reductions that the alternatives of a link stand for, one by one;
* `Ledger.keep` — what leaves a ledger as it is;
* `Ledger.pack` — what adds an item to it.
-/
import Mathlib.Data.List.Forall2
import Mathlib.Data.List.Nodup
import ScannerlessLR.Proofs.Forest.Packing
import ScannerlessLR.Proofs.Parser.Growth

namespace ScannerlessLR

/-- A tree is what a reduction along a path builds: its production, applied to the trees along the
path, bottom first. -/
def Derives (g : StackGraph) (f : Forest) (id : TreeId) (a : Application) : Prop :=
  ∃ children, f.get? id = some (.apply a.reduction.label children) ∧
    children.map some = a.links.reverse.map g.tree?

/-- The alternatives of the tree `t` of the link `l` are different trees, and are what the
reductions `as` build, in this order. -/
structure Ledger (g : StackGraph) (f : Forest) (l : LinkId) (t : TreeId) (as : List Application) :
    Prop where
  tree : g.tree? l = some t
  /-- No other link carries the tree or one of its alternatives. -/
  own : ∀ id ∈ t :: f.alternatives t, ∀ l', g.tree? l' = some id → l' = l
  nodup : (f.alternatives t).Nodup
  derived : List.Forall₂ (Derives g f) (f.alternatives t) as

variable {g g' : StackGraph} {f f' : Forest} {id new t t' : TreeId} {l l' : LinkId}
  {a : Application} {as : List Application}

theorem Derives.lt (h : Derives g f id a) : id < f.size := by
  obtain ⟨children, hget, -⟩ := h
  exact Forest.lt_of_get? hget

theorem Derives.label_eq (h : Derives g f id a) {label : LabelId} {children : List TreeId}
    (hget : f.get? id = some (.apply label children)) : a.reduction.label = label := by
  obtain ⟨children', hget', -⟩ := h
  exact (Tree.apply.inj (Option.some.inj (hget'.symm.trans hget))).1

theorem Derives.mono (hg : g.Extends g') (hf : f'.get? id = f.get? id) (h : Derives g f id a) :
    Derives g' f' id a := by
  obtain ⟨children, hget, hc⟩ := h
  refine ⟨children, hf.trans hget, hc.trans (List.map_congr_left fun l hl => ?_)⟩
  have hmem : g.tree? l ∈ children.map some := by
    rw [hc]
    exact List.mem_map_of_mem hl
  obtain ⟨child, -, hchild⟩ := List.mem_map.mp hmem
  rw [← hchild, hg.tree hchild.symm]

namespace Ledger

theorem alternative_lt (h : Ledger g f l t as) : ∀ id ∈ f.alternatives t, id < f.size :=
  ((List.forall₂_and_left _ _).mp (h.derived.imp fun _ _ hd => ⟨hd.lt, hd⟩)).1

/-- The tree and its alternatives are trees of the forest. -/
theorem lt (h : Ledger g f l t as) : ∀ id ∈ t :: f.alternatives t, id < f.size := by
  refine List.forall_mem_cons.mpr ⟨?_, h.alternative_lt⟩
  cases ht : f.get? t with
  | some tree => exact Forest.lt_of_get? ht
  | none =>
    have hself : f.alternatives t = [t] := Forest.alternatives_of_not_amb (by simp [ht])
    exact h.alternative_lt t (by rw [hself]; exact List.mem_singleton_self t)

/-- A ledger is kept when the graph grows by links that carry other trees, and the forest changes
at other trees. -/
theorem keep (h : Ledger g f l t as) (hg : g.Extends g')
    (hf : ∀ id ∈ t :: f.alternatives t, f'.get? id = f.get? id)
    (hnew : ∀ l' id, g'.tree? l' = some id →
      g.tree? l' = some id ∨ id ∉ t :: f.alternatives t) : Ledger g' f' l t as := by
  have ha : f'.alternatives t = f.alternatives t :=
    Forest.alternatives_congr (hf t List.mem_cons_self)
  constructor
  · exact hg.tree h.tree
  · rw [ha]
    intro id hid l' hl'
    rcases hnew l' id hl' with hl' | hid'
    · exact h.own id hid l' hl'
    · exact absurd hid hid'
  · rw [ha]
    exact h.nodup
  · rw [ha]
    refine ((List.forall₂_and_left _ _).mpr ⟨fun _ => List.mem_cons_of_mem t, h.derived⟩).imp ?_
    rintro id a ⟨hid, hd⟩
    exact hd.mono hg (hf id hid)

/-- New trees are in no ledger. -/
theorem add (h : Ledger g f l t as) (tree : Tree) : Ledger g (f.add tree).2 l t as :=
  h.keep (.refl g) (fun id hid => Forest.get?_add_of_lt (h.lt id hid) tree) fun _ _ => .inl

/-- The place of a new tree is neither that of the tree nor of one of its alternatives. -/
theorem size_notMem (h : Ledger g f l t as) (tree : Tree) :
    f.size ∉ t :: (f.add tree).2.alternatives t := by
  rw [Forest.alternatives_add_of_lt (h.lt t List.mem_cons_self)]
  exact fun hmem => Nat.lt_irrefl _ (h.lt _ hmem)

/-- Packing into the tree of another link. -/
theorem pack_other (h : Ledger g f l t as) (ht' : g.tree? l' = some t') (hne : l' ≠ l)
    (new : TreeId) : Ledger g (f.pack t' new) l t as := by
  refine h.keep (.refl g) (fun id hid => ?_) fun _ _ => .inl
  refine Forest.get?_pack_of_ne f t' new ?_ (h.lt id hid)
  rintro rfl
  exact hne (h.own id hid l' ht')

/-- Packing one more derivation into the tree of the link. -/
theorem pack (h : Ledger g f l t as) (hnew : new ∉ t :: f.alternatives t) (hd : Derives g f new a)
    (hlinks : ∀ l' id, g.tree? l' = some id → id < f.size ∧ id ≠ new) :
    Ledger g (f.pack t new) l t (as ++ [a]) := by
  have hnewt : new ≠ t := fun heq => hnew (heq ▸ List.mem_cons_self)
  have hget_new : (f.pack t new).get? new = f.get? new := Forest.get?_pack_of_ne f t new hnewt hd.lt
  have hlast : List.Forall₂ (Derives g (f.pack t new)) [new] [a] :=
    .cons (hd.mono (.refl g) hget_new) .nil
  obtain ⟨tree, ht⟩ := Forest.exists_get? (h.lt t List.mem_cons_self)
  rcases Forest.pack_cases ht new with ⟨ids, rfl, -, hget⟩ | ⟨hamb, -, hget⟩
  -- the tree is an ambiguity already
  · have hold : f.alternatives t = ids := Forest.alternatives_of_amb ht
    have hids : (f.pack t new).alternatives t = ids ++ [new] :=
      Forest.alternatives_of_amb (by rw [hget, if_pos rfl])
    rw [hold] at hnew
    refine ⟨h.tree, ?_, ?_, ?_⟩ <;> rw [hids]
    · intro id hid l' hl'
      rw [← List.cons_append, List.mem_append, List.mem_singleton] at hid
      rcases hid with hid | rfl
      · exact h.own id (by rw [hold]; exact hid) l' hl'
      · exact absurd rfl (hlinks l' id hl').2
    · have hnodup := h.nodup
      rw [hold] at hnodup
      rw [← List.concat_eq_append]
      exact hnodup.concat (List.not_mem_of_not_mem_cons hnew)
    · have hderived := h.derived
      rw [hold] at hderived
      refine List.rel_append (hderived.imp fun id a hd => ?_) hlast
      -- the ambiguity is none of its own alternatives
      refine hd.mono (.refl g) ?_
      rw [hget, if_neg]
      rintro rfl
      obtain ⟨children, happly, -⟩ := hd
      exact absurd (ht.symm.trans happly) (by simp)
  -- the tree becomes one, with what was there as its first alternative
  · have hold : f.alternatives t = [t] := Forest.alternatives_of_not_amb fun ids hids =>
      hamb ids (Option.some.inj (ht.symm.trans hids))
    have hids : (f.pack t new).alternatives t = [f.size, new] :=
      Forest.alternatives_of_amb (by rw [hget, if_pos rfl])
    have hsize : f.size ≠ t := Nat.ne_of_gt (Forest.lt_of_get? ht)
    refine ⟨h.tree, ?_, ?_, ?_⟩ <;> rw [hids]
    · intro id hid l' hl'
      simp only [List.mem_cons, List.not_mem_nil, or_false] at hid
      rcases hid with rfl | rfl | rfl
      · exact h.own id List.mem_cons_self l' hl'
      · exact absurd (hlinks l' _ hl').1 (Nat.lt_irrefl _)
      · exact absurd rfl (hlinks l' id hl').2
    · simpa using Nat.ne_of_gt hd.lt
    · have hderived := h.derived
      rw [hold] at hderived
      obtain ⟨a₀, as', hd₀, hnil, rfl⟩ := List.forall₂_cons_left_iff.mp hderived
      obtain rfl := List.forall₂_nil_left_iff.mp hnil
      -- the tree that was there stands at a new place now
      obtain ⟨children, happly, hc⟩ := hd₀
      refine .cons ⟨children, ?_, hc⟩ hlast
      rw [hget, if_neg hsize, if_pos rfl]
      exact ht.symm.trans happly

end Ledger

namespace Ledger

variable {table : Table} {m : Machine} {target : StateId} {bottom : NodeId} {tree : TreeId}

/-- A new link that carries a tree from outside the ledger. -/
theorem attach (h : Ledger m.graph f l t as)
    (hR : Roster table m.graph m.generation.level m.generation.active)
    (htree : tree ∉ t :: f.alternatives t) :
    Ledger (m.attach target bottom tree).graph f l t as := by
  refine h.keep (Machine.extends_attach hR) (fun _ _ => rfl) fun l' id hl' => ?_
  rw [Machine.tree?_attach] at hl'
  split at hl'
  · obtain rfl := Option.some.inj hl'
    exact .inr htree
  · exact .inl hl'

end Ledger

end ScannerlessLR
