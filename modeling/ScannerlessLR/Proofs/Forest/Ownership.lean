/-
Forests that rest on some of their trees.

Whoever holds a tree of a forest sees all that is packed into it.  If only trees that are
held become ambiguities, and new trees are put on top of such trees alone, then the
alternatives of an ambiguity are held by nobody.  So nothing is ever packed into them, and
they stay what they are.

* `Tree.RestsOn`, `Forest.RestsOn` — ambiguities and the children of applications are held;
* `Forest.RestsOn.add`, `Forest.RestsOn.packNew` — new trees, and packing into a tree that
  is held;
* `Forest.Tidy.not_of_mem_amb` — alternatives are not held;
* `Forest.Keeps` — an ambiguity has kept its alternatives;
* `Forest.Tidy.keeps_packNew` — it does whatever is packed into trees that are held.
-/
import Mathlib.Data.List.Nodup
import ScannerlessLR.Proofs.Forest.Alternatives

namespace ScannerlessLR

/-- A tree at the place `id` rests on trees that are held: an application is put on top of them, and
an ambiguity, which has at least two alternatives, all at different places, is one of them. -/
def Tree.RestsOn (held : TreeId → Prop) (id : TreeId) : Tree → Prop
  | .leaf _ => True
  | .apply _ children => ∀ child ∈ children, held child
  | .amb alternatives => held id ∧ alternatives.Nodup ∧ 2 ≤ alternatives.length

variable {f f' f'' : Forest} {held held' : TreeId → Prop} {s t id : TreeId} {c : Tree}
  {ids : List TreeId}

theorem Tree.RestsOn.imp (hsub : ∀ t, held t → held' t) (h : c.RestsOn held id) :
    c.RestsOn held' id := by
  cases c with
  | leaf point => trivial
  | apply label children => exact fun child hchild => hsub child (h child hchild)
  | amb alternatives => exact ⟨hsub id h.1, h.2⟩

/-- Of a tree that is no ambiguity, the place does not matter. -/
theorem Tree.Plain.restsOn_iff (hc : c.Plain) :
    c.RestsOn held id ↔ ∀ part ∈ c.parts, held part := by
  cases c with
  | leaf point => exact ⟨fun _ part hpart => absurd hpart List.not_mem_nil, fun _ => trivial⟩
  | apply label children => exact Iff.rfl
  | amb alternatives => exact hc.elim

namespace Forest

/-- All trees of a forest rest on trees that are held. -/
def RestsOn (f : Forest) (held : TreeId → Prop) : Prop :=
  ∀ id c, f.get? id = some c → c.RestsOn held id

/-- The ambiguity `t` has kept its alternatives `ids`, at their places and in front of all others,
and these are the trees that they were. -/
structure Keeps (f f' : Forest) (t : TreeId) (ids : List TreeId) : Prop where
  amb : ∃ more, f'.get? t = some (.amb (ids ++ more))
  get?_eq : ∀ id ∈ ids, f'.get? id = f.get? id

namespace RestsOn

theorem mono (h : f.RestsOn held) (hsub : ∀ t, held t → held' t) : f.RestsOn held' :=
  fun id c hget => (h id c hget).imp hsub

/-- A new tree is put on top of trees that are held. -/
theorem add (h : f.RestsOn held) (hc : c.Plain) (hparts : ∀ part ∈ c.parts, held part) :
    (f.add c).2.RestsOn held := by
  intro id u hu
  rw [get?_add] at hu
  split at hu
  · obtain rfl := Option.some.inj hu
    exact hc.restsOn_iff.mpr hparts
  · exact h id u hu

/-- A new tree on top of trees that are held is packed into one of them. -/
theorem packNew (h : f.RestsOn held) (htidy : f.Tidy held) (ht : held t) (hc : c.Plain)
    (hparts : ∀ part ∈ c.parts, held part) : (f.packNew t c).RestsOn held := by
  obtain ⟨c', hget⟩ := exists_get? (htidy.lt_size ht)
  intro id u hu
  rcases packNew_cases hget c with ⟨ids, rfl, -, hnew⟩ | ⟨hc', -, hnew⟩ <;> rw [hnew] at hu
  -- an ambiguity gets an alternative at a place that is new
  · split at hu
    · rename_i hid
      obtain rfl := Option.some.inj hu
      obtain ⟨-, hnodup, htwo⟩ := h t _ hget
      refine ⟨hid ▸ ht, ?_, ?_⟩
      · rw [← List.concat_eq_append]
        refine hnodup.concat fun hmem => Nat.lt_irrefl f.size ?_
        exact htidy.alternative_lt ht (by rwa [alternatives_of_amb hget])
      · rw [List.length_append]
        exact Nat.le_add_right_of_le htwo
    · split at hu
      · obtain rfl := Option.some.inj hu
        exact hc.restsOn_iff.mpr hparts
      · exact h id u hu
  -- any other tree rests on the same trees at the place that it moves to
  · split at hu
    · rename_i hid
      obtain rfl := Option.some.inj hu
      exact ⟨hid ▸ ht, by simp, Nat.le_refl 2⟩
    · split at hu
      · obtain rfl := Option.some.inj hu
        exact hc'.restsOn_iff.mpr (hc'.restsOn_iff.mp (h t _ hget))
      · split at hu
        · obtain rfl := Option.some.inj hu
          exact hc.restsOn_iff.mpr hparts
        · exact h id u hu

end RestsOn

/-! ### Alternatives stay what they are -/

namespace Keeps

theorem refl (h : f.get? t = some (.amb ids)) : f.Keeps f t ids :=
  ⟨⟨[], by rw [List.append_nil, h]⟩, fun _ _ => rfl⟩

/-- What is kept, with whatever has been packed since, and kept again, has been kept. -/
theorem trans (h : f.Keeps f' t ids)
    (h' : ∀ more, f'.get? t = some (.amb (ids ++ more)) → f'.Keeps f'' t (ids ++ more)) :
    f.Keeps f'' t ids := by
  obtain ⟨more, hamb⟩ := h.amb
  obtain ⟨⟨most, hamb'⟩, hget⟩ := h' more hamb
  refine ⟨⟨more ++ most, by rw [hamb', List.append_assoc]⟩, fun id hid => ?_⟩
  exact (hget id (List.mem_append_left more hid)).trans (h.get?_eq id hid)

end Keeps

namespace Tidy

variable (h : f.Tidy held) (ht : held t) (hget : f.get? t = some (.amb ids))
include h ht hget

theorem lt_of_mem_amb (hid : id ∈ ids) : id < f.size :=
  h.alternative_lt ht (by rwa [alternatives_of_amb hget])

/-- The alternatives of an ambiguity are leaves and applications. -/
theorem exists_plain (hid : id ∈ ids) : ∃ c, f.get? id = some c ∧ c.Plain := by
  obtain ⟨c, hc, hplain, -⟩ := h.exists_holds ht (by rwa [alternatives_of_amb hget])
  exact ⟨c, hc, hplain⟩

/-- The alternatives of an ambiguity are not held. -/
theorem not_of_mem_amb (hid : id ∈ ids) : ¬ held id := by
  intro hheld
  have hmem : id ∈ f.alternatives t := by rwa [alternatives_of_amb hget]
  obtain rfl := h.eq_of_mem hheld ht hmem
  exact h.flat ht id hmem ids hget

/-- A new tree leaves an ambiguity alone. -/
theorem keeps_add (c : Tree) : f.Keeps (f.add c).2 t ids where
  amb := ⟨[], by rw [List.append_nil, get?_add_of_lt (h.lt_size ht), hget]⟩
  get?_eq := fun _ hid => get?_add_of_lt (h.lt_of_mem_amb ht hget hid) c

/-- An ambiguity keeps its alternatives, whichever tree that is held a new one is packed into. -/
theorem keeps_packNew (hs : held s) : f.Keeps (f.packNew s c) t ids where
  amb := by
    by_cases heq : t = s
    · subst heq
      rcases packNew_cases hget c with ⟨ids', hids, -, hnew⟩ | ⟨hplain, -⟩
      · obtain rfl := Tree.amb.inj hids
        exact ⟨[f.size], by rw [hnew, if_pos rfl]⟩
      · exact hplain.elim
    · exact ⟨[], by rw [List.append_nil, get?_packNew_of_ne h hs heq (h.lt_size ht), hget]⟩
  get?_eq := by
    intro id hid
    refine get?_packNew_of_ne h hs ?_ (h.lt_of_mem_amb ht hget hid)
    rintro rfl
    exact h.not_of_mem_amb ht hget hid hs

end Tidy

end Forest

end ScannerlessLR
