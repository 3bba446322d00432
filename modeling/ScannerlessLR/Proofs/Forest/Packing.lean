/-
What the operations on a forest do to its trees.

* `Forest.get?_add` — a new tree, and all others as before;
* `Forest.pack_cases` — a tree with one more alternative, and all others as before;
* `Forest.alternatives` — the alternative derivations that a tree stands for;
* `Forest.Within` — what is reached from trees;
* `Forest.Closed` — the trees of a forest refer to trees of the forest.
-/
import Mathlib.Data.Nat.Notation
import ScannerlessLR.Forest.Basic

namespace ScannerlessLR

/-- The trees that a tree refers to. -/
def Tree.parts : Tree → List TreeId
  | .leaf _ => []
  | .apply _ children => children
  | .amb alternatives => alternatives

namespace Forest

/-- The alternative derivations of a tree: those of an ambiguity, and any other tree itself. -/
def alternatives (f : Forest) (id : TreeId) : List TreeId :=
  match f.get? id with
  | some (.amb alternatives) => alternatives
  | _ => [id]

/-- The trees that are reached from some trees through children and alternatives. -/
inductive Within (f : Forest) (ids : List TreeId) : TreeId → Prop
  | root {id : TreeId} (h : id ∈ ids) : Within f ids id
  | part {id part : TreeId} {c : Tree} (h : Within f ids id) (hget : f.get? id = some c)
      (hpart : part ∈ c.parts) : Within f ids part

/-- The trees refer to trees of the forest, not to places that are still to be taken. -/
def Closed (f : Forest) : Prop :=
  ∀ id t, f.get? id = some t → ∀ part ∈ t.parts, part < f.size

variable {f : Forest} {id existing new : TreeId} {t : Tree}

theorem lt_of_get? (h : f.get? id = some t) : id < f.size :=
  (Array.getElem?_eq_some_iff.mp h).1

theorem exists_get? (h : id < f.size) : ∃ t, f.get? id = some t :=
  ⟨f.trees[id], Array.getElem?_eq_getElem h⟩

theorem get?_add (f : Forest) (t : Tree) (id : TreeId) :
    (f.add t).2.get? id = if id = f.size then some t else f.get? id := by
  show (f.trees.push t)[id]? = _
  rw [Array.getElem?_push]
  rfl

@[simp] theorem size_add (f : Forest) (t : Tree) : (f.add t).2.size = f.size + 1 := by
  simp [add, size]

theorem get?_add_of_lt (h : id < f.size) (t : Tree) : (f.add t).2.get? id = f.get? id := by
  rw [get?_add, if_neg (Nat.ne_of_lt h)]

/-- What packing does: an ambiguity gets one more alternative, and any other tree moves to a new
place to be the first of two. -/
theorem pack_cases (h : f.get? existing = some t) (new : TreeId) :
    (∃ alternatives, t = .amb alternatives ∧ (f.pack existing new).size = f.size ∧
      ∀ id, (f.pack existing new).get? id =
        if id = existing then some (.amb (alternatives ++ [new])) else f.get? id) ∨
    ((∀ alternatives, t ≠ .amb alternatives) ∧ (f.pack existing new).size = f.size + 1 ∧
      ∀ id, (f.pack existing new).get? id =
        if id = existing then some (.amb [f.size, new])
        else if id = f.size then some t else f.get? id) := by
  have hlt := lt_of_get? h
  -- all cases end in setting the tree that is in use
  have hset : ∀ (g : Forest) (t' : Tree) (id : TreeId), existing < g.size →
      (Forest.mk (g.trees.setIfInBounds existing t')).get? id =
        if id = existing then some t' else g.get? id := by
    intro g t' id hg
    rw [get?, Array.getElem?_setIfInBounds]
    by_cases hid : id = existing
    · subst hid
      rw [if_pos rfl, if_pos rfl]
      exact if_pos hg
    · rw [if_neg (Ne.symm hid), if_neg hid]
      rfl
  rw [pack, h]
  cases t with
  | amb alternatives =>
    refine .inl ⟨alternatives, rfl, ?_, fun id => hset f _ id hlt⟩
    simp [size]
  | leaf point =>
    refine .inr ⟨by simp, by simp [size, add], fun id => ?_⟩
    rw [← get?_add]
    exact hset (f.add _).2 _ id (by rw [size_add]; exact Nat.lt_succ_of_lt hlt)
  | apply label children =>
    refine .inr ⟨by simp, by simp [size, add], fun id => ?_⟩
    rw [← get?_add]
    exact hset (f.add _).2 _ id (by rw [size_add]; exact Nat.lt_succ_of_lt hlt)

/-- Packing changes no other tree. -/
theorem get?_pack_of_ne (f : Forest) (existing new : TreeId) (h : id ≠ existing)
    (hlt : id < f.size) : (f.pack existing new).get? id = f.get? id := by
  cases he : f.get? existing with
  | none => rw [pack, he]
  | some t =>
    rcases pack_cases he new with ⟨_, -, -, hget⟩ | ⟨-, -, hget⟩
    · rw [hget, if_neg h]
    · rw [hget, if_neg h, if_neg (Nat.ne_of_lt hlt)]

theorem size_le_pack (f : Forest) (existing new : TreeId) :
    f.size ≤ (f.pack existing new).size := by
  cases he : f.get? existing with
  | none => simp [pack, he]
  | some t =>
    rcases pack_cases he new with ⟨_, -, hsize, -⟩ | ⟨-, hsize, -⟩
    · exact Nat.le_of_eq hsize.symm
    · rw [hsize]
      exact Nat.le_succ _

/-- What is reached from what is reached from some trees is reached from these as well. -/
theorem Within.trans {ids : List TreeId} {part : TreeId} (h : f.Within ids id)
    (h' : f.Within [id] part) : f.Within ids part := by
  induction h' with
  | root hid => rwa [List.mem_singleton.mp hid]
  | part _ hget hpart ih => exact .part ih hget hpart

/-! ### References -/

theorem Closed.add (hf : f.Closed) (hparts : ∀ part ∈ t.parts, part < f.size) :
    (f.add t).2.Closed := by
  intro id u hu part hpart
  rw [size_add]
  rw [get?_add] at hu
  split at hu
  · obtain rfl := Option.some.inj hu
    exact Nat.lt_succ_of_lt (hparts part hpart)
  · exact Nat.lt_succ_of_lt (hf id u hu part hpart)

/-- A tree may become an ambiguity of trees that are there. -/
theorem Closed.replace {f' : Forest} {ids : List TreeId} (hf : f.Closed) (hsize : f'.size = f.size)
    (hget : ∀ id, f'.get? id = if id = existing then some (.amb ids) else f.get? id)
    (hids : ∀ part ∈ ids, part < f.size) : f'.Closed := by
  intro id t ht part hpart
  rw [hsize]
  rw [hget] at ht
  split at ht
  · obtain rfl := Option.some.inj ht
    exact hids part hpart
  · exact hf id t ht part hpart

theorem Closed.pack (hf : f.Closed) (he : existing < f.size) (hn : new < f.size) :
    (f.pack existing new).Closed := by
  obtain ⟨t, ht⟩ := exists_get? he
  rcases pack_cases ht new with ⟨alternatives, rfl, hsize, hget⟩ | ⟨-, hsize, hget⟩
  · refine hf.replace hsize hget fun part hpart => ?_
    rcases List.mem_append.mp hpart with hpart | hpart
    · exact hf existing _ ht part hpart
    · exact List.mem_singleton.mp hpart ▸ hn
  -- the tree that was there is added once more
  · simp only [← get?_add] at hget
    refine (hf.add (hf existing t ht)).replace (hsize.trans (size_add f t).symm) hget ?_
    intro part hpart
    rw [size_add]
    rcases List.mem_cons.mp hpart with rfl | hpart
    · exact Nat.lt_succ_self _
    · exact List.mem_singleton.mp hpart ▸ Nat.lt_succ_of_lt hn

/-! ### Alternatives -/

theorem alternatives_of_amb {ids : List TreeId} (h : f.get? id = some (.amb ids)) :
    f.alternatives id = ids := by
  rw [alternatives, h]

theorem alternatives_of_not_amb (h : ∀ ids, f.get? id ≠ some (.amb ids)) :
    f.alternatives id = [id] := by
  rw [alternatives]
  split
  · rename_i ids hget
    exact absurd hget (h ids)
  · rfl

theorem alternatives_congr {f' : Forest} (h : f'.get? id = f.get? id) :
    f'.alternatives id = f.alternatives id := by
  rw [alternatives, alternatives, h]

theorem alternatives_add_of_lt (h : id < f.size) (t : Tree) :
    (f.add t).2.alternatives id = f.alternatives id :=
  alternatives_congr (get?_add_of_lt h t)

end Forest

end ScannerlessLR
