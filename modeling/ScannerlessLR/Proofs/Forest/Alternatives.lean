/-
What the trees in use hold, as a forest grows.

A forest only ever grows in two ways: it gets a new tree, or a new tree is packed into
one that is in use.  Either may move trees to other places, so what an alternative is
counts here, and not where it stands.

* `Forest.Holds` — the tree has such an alternative;
* `Forest.first?` — what its first alternative is;
* `Forest.Tidy` — the trees in use take up places of their own;
* `Forest.holds_packNew` — packing adds one alternative to one tree in use.
-/
import ScannerlessLR.Proofs.Forest.Packing

namespace ScannerlessLR

/-- The tree is no ambiguity. -/
def Tree.Plain : Tree → Prop
  | .amb _ => False
  | .leaf _ | .apply _ _ => True

theorem Tree.Plain.ne_amb {c : Tree} (hc : c.Plain) (ids : List TreeId) : c ≠ .amb ids := by
  rintro rfl
  exact hc

namespace Forest

/-- The places that a tree takes up: its own, and those of its alternatives. -/
def family (f : Forest) (t : TreeId) : List TreeId :=
  t :: f.alternatives t

/-- The tree `t` has an alternative that is `c`. -/
def Holds (f : Forest) (t : TreeId) (c : Tree) : Prop :=
  ∃ id ∈ f.alternatives t, f.get? id = some c

/-- What the first alternative of a tree is. -/
def first? (f : Forest) (t : TreeId) : Option Tree :=
  (f.alternatives t).head?.bind f.get?

/-- The forest with a new tree packed into the tree `t`. -/
def packNew (f : Forest) (t : TreeId) (c : Tree) : Forest :=
  (f.add c).2.pack t f.size

/-- The trees in use take up places of their own, and have alternatives, none of them an
ambiguity. -/
structure Tidy (f : Forest) (uses : TreeId → Prop) : Prop where
  lt : ∀ {t}, uses t → ∀ id ∈ f.family t, id < f.size
  eq : ∀ {t t' id}, uses t → uses t' → id ∈ f.family t → id ∈ f.family t' → t = t'
  nonempty : ∀ {t}, uses t → f.alternatives t ≠ []
  flat : ∀ {t}, uses t → ∀ id ∈ f.alternatives t, ∀ ids, f.get? id ≠ some (.amb ids)

variable {f : Forest} {uses uses' : TreeId → Prop} {t t' id : TreeId} {c c' : Tree}

theorem mem_family_self (f : Forest) (t : TreeId) : t ∈ f.family t :=
  List.mem_cons_self

theorem mem_family_of_mem_alternatives (h : id ∈ f.alternatives t) : id ∈ f.family t :=
  List.mem_cons_of_mem _ h

theorem alternatives_of_plain (h : f.get? t = some c) (hc : c.Plain) : f.alternatives t = [t] :=
  alternatives_of_not_amb fun ids hids => hc.ne_amb ids (Option.some.inj (h.symm.trans hids))

theorem holds_of_plain (h : f.get? t = some c) (hc : c.Plain) : f.Holds t c' ↔ c' = c := by
  rw [Holds, alternatives_of_plain h hc]
  constructor
  · rintro ⟨id, hid, hget⟩
    rw [List.mem_singleton.mp hid, h] at hget
    exact (Option.some.inj hget).symm
  · rintro rfl
    exact ⟨t, List.mem_singleton_self t, h⟩

theorem first?_of_plain (h : f.get? t = some c) (hc : c.Plain) : f.first? t = some c := by
  rw [first?, alternatives_of_plain h hc, List.head?_cons, Option.bind_some, h]

theorem holds_of_first? (h : f.first? t = some c) : f.Holds t c := by
  obtain ⟨id, hid, hget⟩ := Option.bind_eq_some_iff.mp h
  exact ⟨id, List.mem_of_mem_head? hid, hget⟩

namespace Tidy

theorem lt_size (h : f.Tidy uses) (ht : uses t) : t < f.size :=
  h.lt ht t (f.mem_family_self t)

theorem alternative_lt (h : f.Tidy uses) (ht : uses t) (hid : id ∈ f.alternatives t) :
    id < f.size :=
  h.lt ht id (mem_family_of_mem_alternatives hid)

theorem mono (h : f.Tidy uses) (hsub : ∀ t, uses' t → uses t) : f.Tidy uses' where
  lt := fun ht => h.lt (hsub _ ht)
  eq := fun ht ht' => h.eq (hsub _ ht) (hsub _ ht')
  nonempty := fun ht => h.nonempty (hsub _ ht)
  flat := fun ht => h.flat (hsub _ ht)

theorem exists_holds (h : f.Tidy uses) (ht : uses t) (hid : id ∈ f.alternatives t) :
    ∃ c, f.get? id = some c ∧ c.Plain ∧ f.Holds t c := by
  obtain ⟨c, hc⟩ := exists_get? (h.alternative_lt ht hid)
  refine ⟨c, hc, ?_, id, hid, hc⟩
  cases c with
  | amb ids => exact absurd hc (h.flat ht id hid ids)
  | leaf | apply => trivial

/-- An alternative of a tree in use is no other tree in use. -/
theorem eq_of_mem (h : f.Tidy uses) (ht : uses t) (ht' : uses t')
    (hmem : t ∈ f.alternatives t') : t = t' :=
  h.eq ht ht' (f.mem_family_self t) (mem_family_of_mem_alternatives hmem)

end Tidy

/-! ### A new tree -/

section Add

theorem get?_add_self (f : Forest) (c : Tree) : (f.add c).2.get? f.size = some c := by
  rw [get?_add, if_pos rfl]

variable (h : f.Tidy uses) (ht : uses t)
include h ht

theorem alternatives_add : (f.add c).2.alternatives t = f.alternatives t :=
  alternatives_add_of_lt (h.lt_size ht) c

theorem holds_add : (f.add c).2.Holds t c' ↔ f.Holds t c' := by
  rw [Holds, alternatives_add h ht]
  refine exists_congr fun id => and_congr_right fun hid => ?_
  rw [get?_add_of_lt (h.alternative_lt ht hid)]

theorem first?_add : (f.add c).2.first? t = f.first? t := by
  rw [first?, first?, alternatives_add h ht]
  refine Option.bind_congr fun id hid => ?_
  rw [get?_add_of_lt (h.alternative_lt ht (List.mem_of_mem_head? hid))]

end Add

/-- A new tree takes up a place of its own. -/
theorem Tidy.add (h : f.Tidy uses) (hc : c.Plain) :
    (f.add c).2.Tidy fun t => t = f.size ∨ uses t := by
  -- the family of the new tree is its own place, and the old ones stay below that
  have hself : (f.add c).2.alternatives f.size = [f.size] :=
    alternatives_of_plain (f.get?_add_self c) hc
  have hnew : ∀ id, id ∈ (f.add c).2.family f.size → id = f.size := by
    intro id hid
    rw [family, hself] at hid
    simpa using hid
  have hold : ∀ t, uses t → ∀ id ∈ (f.add c).2.family t, id < f.size := by
    intro t ht id hid
    rw [family, alternatives_add h ht] at hid
    exact h.lt ht id hid
  refine { lt := ?_, eq := ?_, nonempty := ?_, flat := ?_ }
  · rintro t (rfl | ht) id hid <;> rw [size_add]
    · rw [hnew id hid]
      exact Nat.lt_succ_self _
    · exact Nat.lt_succ_of_lt (hold t ht id hid)
  · rintro t t' id (rfl | ht) (rfl | ht') hid hid'
    · rfl
    · exact absurd (hnew id hid) (Nat.ne_of_lt (hold t' ht' id hid'))
    · exact absurd (hnew id hid') (Nat.ne_of_lt (hold t ht id hid))
    · rw [family, alternatives_add h ht] at hid
      rw [family, alternatives_add h ht'] at hid'
      exact h.eq ht ht' hid hid'
  · rintro t (rfl | ht)
    · simp [hself]
    · rw [alternatives_add h ht]
      exact h.nonempty ht
  · rintro t (rfl | ht) id hid ids
    · rw [hself, List.mem_singleton] at hid
      rw [hid, get?_add_self]
      simpa using hc.ne_amb ids
    · rw [alternatives_add h ht] at hid
      rw [get?_add_of_lt (h.alternative_lt ht hid)]
      exact h.flat ht id hid ids

/-! ### Packing a new tree -/

/-- What packing a new tree does: an ambiguity gets it as its last alternative, and any other tree
moves to a place behind the new tree, to be the first of two. -/
theorem packNew_cases (h : f.get? t = some c') (c : Tree) :
    (∃ ids, c' = .amb ids ∧ (f.packNew t c).size = f.size + 1 ∧ ∀ id, (f.packNew t c).get? id =
      if id = t then some (.amb (ids ++ [f.size]))
      else if id = f.size then some c else f.get? id) ∨
    c'.Plain ∧ (f.packNew t c).size = f.size + 2 ∧ ∀ id, (f.packNew t c).get? id =
      if id = t then some (.amb [f.size + 1, f.size])
      else if id = f.size + 1 then some c' else if id = f.size then some c else f.get? id := by
  have hadd : (f.add c).2.get? t = some c' := by rw [get?_add_of_lt (lt_of_get? h), h]
  rcases pack_cases hadd f.size with ⟨ids, rfl, hsize, hget⟩ | ⟨hplain, hsize, hget⟩ <;>
    simp only [get?_add, size_add] at hsize hget
  · exact .inl ⟨ids, rfl, hsize, hget⟩
  · refine .inr ⟨?_, hsize, hget⟩
    cases c' with
    | amb ids => exact absurd rfl (hplain ids)
    | leaf | apply => trivial

section PackNew

variable (h : f.Tidy uses) (ht : uses t)
include h ht

theorem get?_packNew_of_ne (hne : id ≠ t) (hid : id < f.size) :
    (f.packNew t c).get? id = f.get? id := by
  obtain ⟨c', hget⟩ := exists_get? (h.lt_size ht)
  rcases packNew_cases hget c with ⟨ids, -, -, hnew⟩ | ⟨-, -, hnew⟩
  · rw [hnew, if_neg hne, if_neg (Nat.ne_of_lt hid)]
  · rw [hnew, if_neg hne, if_neg (Nat.ne_of_lt (Nat.lt_succ_of_lt hid)), if_neg (Nat.ne_of_lt hid)]

theorem alternatives_packNew_of_ne (ht' : uses t') (hne : t' ≠ t) :
    (f.packNew t c).alternatives t' = f.alternatives t' :=
  alternatives_congr (get?_packNew_of_ne h ht hne (h.lt_size ht'))

/-- What the alternatives of the tree are after packing: those that it had, then the new one. -/
theorem alternatives_packNew_self : ∃ ids, ids ≠ [] ∧
    (f.packNew t c).alternatives t = ids ++ [f.size] ∧
    ids.map (f.packNew t c).get? = (f.alternatives t).map f.get? ∧
    (f.packNew t c).get? f.size = some c ∧
    ∀ id ∈ ids, id < (f.packNew t c).size ∧ (id < f.size → id ∈ f.alternatives t) ∧
      id ≠ f.size := by
  obtain ⟨c', hget⟩ := exists_get? (h.lt_size ht)
  have hsize : f.size ≠ t := Nat.ne_of_gt (h.lt_size ht)
  rcases packNew_cases hget c with ⟨ids, rfl, hnsize, hnew⟩ | ⟨hc', hnsize, hnew⟩
  · have halts : f.alternatives t = ids := alternatives_of_amb hget
    refine ⟨ids, halts ▸ h.nonempty ht, alternatives_of_amb (by rw [hnew, if_pos rfl]), ?_, ?_, ?_⟩
    · rw [halts]
      refine List.map_congr_left fun id hid => ?_
      -- the ambiguity is none of its own alternatives, for these are plain
      have hid' : id ∈ f.alternatives t := halts ▸ hid
      have hne : id ≠ t := fun heq => h.flat ht id hid' ids (heq ▸ hget)
      rw [hnew, if_neg hne, if_neg (Nat.ne_of_lt (h.alternative_lt ht hid'))]
    · rw [hnew, if_neg hsize, if_pos rfl]
    · intro id hid
      have hlt := h.alternative_lt ht (halts ▸ hid)
      rw [hnsize, halts]
      exact ⟨Nat.lt_succ_of_lt hlt, fun _ => hid, Nat.ne_of_lt hlt⟩
  · have halts : f.alternatives t = [t] := alternatives_of_plain hget hc'
    have hnext : f.size + 1 ≠ t := Nat.ne_of_gt (Nat.lt_succ_of_lt (h.lt_size ht))
    refine ⟨[f.size + 1], by simp, alternatives_of_amb (by rw [hnew, if_pos rfl]; rfl), ?_, ?_, ?_⟩
    · rw [halts, List.map_singleton, List.map_singleton, hnew, if_neg hnext, if_pos rfl, hget]
    · rw [hnew, if_neg hsize, if_neg (Nat.ne_of_lt (Nat.lt_succ_self _)), if_pos rfl]
    · intro id hid
      obtain rfl := List.mem_singleton.mp hid
      rw [hnsize]
      exact ⟨Nat.lt_succ_self _, fun hlt => absurd hlt (Nat.not_lt.mpr (Nat.le_succ _)),
        Nat.succ_ne_self _⟩

theorem size_lt_packNew : f.size < (f.packNew t c).size := by
  obtain ⟨c', hget⟩ := exists_get? (h.lt_size ht)
  rcases packNew_cases hget c with ⟨-, -, hsize, -⟩ | ⟨-, hsize, -⟩ <;> omega

/-- Packing adds the new tree to the alternatives of one tree in use, and leaves all others what
they were. -/
theorem holds_packNew (ht' : uses t') :
    (f.packNew t c).Holds t' c' ↔ f.Holds t' c' ∨ t' = t ∧ c' = c := by
  by_cases hne : t' = t
  · subst hne
    obtain ⟨ids, -, halts, hmap, hget, -⟩ := alternatives_packNew_self (c := c) h ht
    have hholds : ∀ {g : Forest} {is : List TreeId},
        (∃ id ∈ is, g.get? id = some c') ↔ some c' ∈ is.map g.get? := by
      intro g is
      rw [List.mem_map]
    rw [Holds, Holds, halts, hholds, hholds, List.map_append, hmap, List.mem_append,
      List.map_singleton, hget, List.mem_singleton, Option.some.injEq]
    simp only [true_and]
  · rw [Holds, Holds, alternatives_packNew_of_ne h ht ht' hne]
    simp only [hne, false_and, or_false]
    refine exists_congr fun id => and_congr_right fun hid => ?_
    have hid' : id ≠ t := fun heq => hne (h.eq_of_mem ht ht' (heq ▸ hid)).symm
    rw [get?_packNew_of_ne h ht hid' (h.alternative_lt ht' hid)]

/-- Packing leaves the first alternatives what they were. -/
theorem first?_packNew (ht' : uses t') :
    (f.packNew t c).first? t' = f.first? t' := by
  by_cases hne : t' = t
  · subst hne
    obtain ⟨ids, hids, halts, hmap, -, -⟩ := alternatives_packNew_self (c := c) h ht
    have hhead : ∀ {g : Forest} {is : List TreeId},
        is.head?.bind g.get? = (is.map g.get?).head?.join := by
      intro g is
      cases is <;> rfl
    obtain ⟨id, ids, rfl⟩ := List.exists_cons_of_ne_nil hids
    rw [first?, first?, halts, hhead, hhead, ← hmap]
    rfl
  · rw [first?, first?, alternatives_packNew_of_ne h ht ht' hne]
    refine Option.bind_congr fun id hid => ?_
    have hid := List.mem_of_mem_head? hid
    have hid' : id ≠ t := fun heq => hne (h.eq_of_mem ht ht' (heq ▸ hid)).symm
    rw [get?_packNew_of_ne h ht hid' (h.alternative_lt ht' hid)]

/-- Packing a new tree keeps the trees in use at places of their own. -/
theorem Tidy.packNew (hc : c.Plain) : (f.packNew t c).Tidy uses := by
  obtain ⟨ids, hids, halts, hmap, hget, hplaces⟩ := alternatives_packNew_self (c := c) h ht
  have hgrow := size_lt_packNew (c := c) h ht
  -- other families are the old ones, below the places that are new
  have hother : ∀ t', uses t' → t' ≠ t → (f.packNew t c).family t' = f.family t' := by
    intro t' ht' hne
    rw [family, family, alternatives_packNew_of_ne h ht ht' hne]
  have hself : ∀ id ∈ (f.packNew t c).family t, id < (f.packNew t c).size ∧
      (id < f.size → id ∈ f.family t) := by
    intro id hid
    rw [family, halts, List.mem_cons, List.mem_append, List.mem_singleton] at hid
    rcases hid with rfl | hid | rfl
    · exact ⟨Nat.lt_trans (h.lt_size ht) hgrow, fun _ => f.mem_family_self id⟩
    · obtain ⟨hlt, hold, -⟩ := hplaces id hid
      exact ⟨hlt, fun hid => mem_family_of_mem_alternatives (hold hid)⟩
    · exact ⟨hgrow, fun hlt => absurd hlt (Nat.lt_irrefl _)⟩
  refine { lt := ?_, eq := ?_, nonempty := ?_, flat := ?_ }
  · intro t' ht' id hid
    by_cases hne : t' = t
    · exact (hself id (hne ▸ hid)).1
    · rw [hother t' ht' hne] at hid
      exact Nat.lt_trans (h.lt ht' id hid) hgrow
  · intro t₁ t₂ id ht₁ ht₂ hid₁ hid₂
    by_cases h₁ : t₁ = t <;> by_cases h₂ : t₂ = t
    · rw [h₁, h₂]
    · subst h₁
      rw [hother t₂ ht₂ h₂] at hid₂
      exact h.eq ht₁ ht₂ ((hself id hid₁).2 (h.lt ht₂ id hid₂)) hid₂
    · subst h₂
      rw [hother t₁ ht₁ h₁] at hid₁
      exact h.eq ht₁ ht₂ hid₁ ((hself id hid₂).2 (h.lt ht₁ id hid₁))
    · rw [hother t₁ ht₁ h₁] at hid₁
      rw [hother t₂ ht₂ h₂] at hid₂
      exact h.eq ht₁ ht₂ hid₁ hid₂
  · intro t' ht'
    by_cases hne : t' = t
    · rw [hne, halts]
      simp
    · rw [alternatives_packNew_of_ne h ht ht' hne]
      exact h.nonempty ht'
  · intro t' ht' id hid is hamb
    -- what an alternative is now it was before, or it is the new tree
    rcases (holds_packNew h ht ht').mp ⟨id, hid, hamb⟩ with ⟨id', hid', hamb'⟩ | ⟨-, rfl⟩
    · exact h.flat ht' id' hid' is hamb'
    · exact hc

end PackNew

end Forest

end ScannerlessLR
