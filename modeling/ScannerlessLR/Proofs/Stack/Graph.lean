/-
What the changes to a graph-structured stack do to what can be seen of it: the
entries of its nodes, the links that leave them, the trees and the rejections.

* `StackGraph.entryAt?` — what a node puts on a stack;
* `StackGraph.Extends` — the order in which a stack grows;
* `StackGraph.WellFormed` — links go down, and each is the only one between its ends.
-/
import Mathlib.Tactic.ByContra
import ScannerlessLR.Proofs.Automaton
import ScannerlessLR.Stack.Graph

namespace ScannerlessLR

namespace StackGraph

/-- The state and the level of a node, as an entry of a stack. -/
def entryAt? (g : StackGraph) (n : NodeId) : Option Entry :=
  g.nodes[n]?.map fun node => ⟨node.state, node.level⟩

variable {g g' g'' : StackGraph} {n w v source target : NodeId} {l l' : LinkId} {e : Entry}

theorem state?_eq_entryAt? : g.state? n = (g.entryAt? n).map Entry.state := by
  rw [state?, entryAt?, Option.map_map]
  rfl

theorem state?_of_entryAt? (h : g.entryAt? n = some e) : g.state? n = some e.state := by
  rw [state?_eq_entryAt?, h, Option.map_some]

theorem entryAt?_isSome_iff : (g.entryAt? n).isSome ↔ n < g.nodes.size := by
  rw [entryAt?, Option.isSome_map]
  simp

theorem lt_of_entryAt? (h : g.entryAt? n = some e) : n < g.nodes.size :=
  entryAt?_isSome_iff.mp (Option.isSome_of_eq_some h)

theorem exists_entryAt? (h : n < g.nodes.size) : ∃ e, g.entryAt? n = some e :=
  Option.isSome_iff_exists.mp (entryAt?_isSome_iff.mpr h)

theorem lt_of_mem_linksFrom (h : (l, v) ∈ g.linksFrom w) : w < g.nodes.size := by
  by_contra hw
  rw [linksFrom, Array.getElem?_eq_none (Nat.le_of_not_lt hw)] at h
  exact List.not_mem_nil h

theorem lt_of_tree? {t : TreeId} (h : g.tree? l = some t) : l < g.links.size := by
  rw [tree?, Option.map_eq_some_iff] at h
  obtain ⟨link, hl, -⟩ := h
  exact (Array.getElem?_eq_some_iff.mp hl).1

theorem exists_tree? (h : l < g.links.size) : ∃ t, g.tree? l = some t :=
  ⟨g.links[l].tree, by rw [tree?, Array.getElem?_eq_getElem h, Option.map_some]⟩

theorem findLink?_eq_none_iff : g.findLink? w v = none ↔ ∀ l, (l, v) ∉ g.linksFrom w := by
  rw [findLink?, Option.map_eq_none_iff, List.find?_eq_none]
  constructor
  · intro h l hl
    exact h (l, v) hl (decide_eq_true rfl)
  · rintro h ⟨l, x⟩ hl hx
    obtain rfl : x = v := of_decide_eq_true hx
    exact h l hl

theorem mem_of_findLink? (h : g.findLink? w v = some l) : (l, v) ∈ g.linksFrom w := by
  rw [findLink?, Option.map_eq_some_iff] at h
  obtain ⟨⟨l', x⟩, hf, rfl⟩ := h
  obtain rfl : x = v := by simpa using List.find?_some hf
  exact List.mem_of_find?_eq_some hf

theorem allRejected_iff : g.allRejected n = true ↔
    g.linksFrom n ≠ [] ∧ ∀ l v, (l, v) ∈ g.linksFrom n → g.isRejected l = true := by
  simp only [allRejected, Bool.and_eq_true, Bool.not_eq_true', List.isEmpty_eq_false_iff,
    List.all_eq_true, Prod.forall]

theorem allRejected_eq_false (h : ∀ l v, (l, v) ∈ g.linksFrom n → g.isRejected l = false) :
    g.allRejected n = false := by
  by_contra hr
  rw [Bool.not_eq_false, allRejected_iff] at hr
  obtain ⟨⟨l, v⟩, hl⟩ := List.exists_mem_of_ne_nil _ hr.1
  have := hr.2 l v hl
  rw [h l v hl] at this
  exact absurd this (by simp)

/-! ### A new node -/

section AddNode

variable (g) (state : StateId) (level : ℕ)

@[simp] theorem size_nodes_addNode :
    (g.addNode state level).2.nodes.size = g.nodes.size + 1 := by
  simp [addNode]

theorem entryAt?_addNode (n : NodeId) : (g.addNode state level).2.entryAt? n =
    if n = g.nodes.size then some ⟨state, level⟩ else g.entryAt? n := by
  simp only [addNode, entryAt?, Array.getElem?_push]
  split <;> rfl

@[simp] theorem linksFrom_addNode (n : NodeId) :
    (g.addNode state level).2.linksFrom n = g.linksFrom n := by
  simp only [addNode, linksFrom, Array.getElem?_push]
  split
  · subst n
    rw [Array.getElem?_eq_none (Nat.le_refl _)]
    rfl
  · rfl

end AddNode

/-! ### A new link -/

section AddLink

variable (g) (source target : NodeId) (tree : TreeId)

@[simp] theorem size_nodes_addLink :
    (g.addLink source target tree).2.nodes.size = g.nodes.size := by
  simp [addLink]

@[simp] theorem size_links_addLink :
    (g.addLink source target tree).2.links.size = g.links.size + 1 := by
  simp [addLink]

@[simp] theorem entryAt?_addLink (n : NodeId) :
    (g.addLink source target tree).2.entryAt? n = g.entryAt? n := by
  simp only [addLink, entryAt?, Array.getElem?_modify]
  split
  · cases g.nodes[n]? <;> rfl
  · rfl

theorem tree?_addLink (l : LinkId) : (g.addLink source target tree).2.tree? l =
    if l = g.links.size then some tree else g.tree? l := by
  simp only [addLink, tree?, Array.getElem?_push]
  split <;> rfl

@[simp] theorem isRejected_addLink (l : LinkId) :
    (g.addLink source target tree).2.isRejected l = g.isRejected l := by
  simp only [addLink, isRejected, Array.getElem?_push]
  split
  · subst l
    rw [Array.getElem?_eq_none (Nat.le_refl _)]
    rfl
  · rfl

variable {source}

theorem linksFrom_addLink_self (h : source < g.nodes.size) :
    (g.addLink source target tree).2.linksFrom source =
      (g.links.size, target) :: g.linksFrom source := by
  simp only [addLink, linksFrom, Array.getElem?_modify, if_true]
  rw [Array.getElem?_eq_getElem h]
  rfl

theorem linksFrom_addLink_of_ne {n : NodeId} (h : n ≠ source) :
    (g.addLink source target tree).2.linksFrom n = g.linksFrom n := by
  simp only [addLink, linksFrom, Array.getElem?_modify, if_neg (Ne.symm h)]

variable {g target tree}

/-- The links after one has been added: the new one and the old ones. -/
theorem mem_linksFrom_addLink {n v : NodeId} {l : LinkId} (h : source < g.nodes.size) :
    (l, v) ∈ (g.addLink source target tree).2.linksFrom n ↔
      n = source ∧ l = g.links.size ∧ v = target ∨ (l, v) ∈ g.linksFrom n := by
  by_cases hn : n = source
  · subst hn
    rw [linksFrom_addLink_self g target tree h, List.mem_cons, Prod.mk.injEq]
    simp only [true_and]
  · rw [linksFrom_addLink_of_ne g target tree hn]
    simp only [hn, false_and, false_or]

end AddLink

/-! ### A rejection -/

section Reject

variable (g) (l : LinkId)

@[simp] theorem size_links_reject : (g.reject l).links.size = g.links.size := by
  simp [reject]

@[simp] theorem tree?_reject (l' : LinkId) : (g.reject l).tree? l' = g.tree? l' := by
  simp only [reject, tree?, Array.getElem?_modify]
  split
  · cases g.links[l']? <;> rfl
  · rfl

theorem isRejected_reject {l' : LinkId} (h : g.isRejected l' = true) :
    (g.reject l).isRejected l' = true := by
  simp only [reject, isRejected, Array.getElem?_modify] at h ⊢
  split
  · rw [Option.any_map]
    cases hl : g.links[l']? with
    | none => rw [hl] at h; exact h
    | some link => rfl
  · exact h

end Reject

/-! ### Growth -/

/-- Whatever is in `g` is in `g'` as well, and what `g` rejects stays rejected. -/
structure Extends (g g' : StackGraph) : Prop where
  entry : ∀ {n e}, g.entryAt? n = some e → g'.entryAt? n = some e
  mem : ∀ {w l v}, (l, v) ∈ g.linksFrom w → (l, v) ∈ g'.linksFrom w
  tree : ∀ {l t}, g.tree? l = some t → g'.tree? l = some t
  rejected : ∀ {l}, g.isRejected l = true → g'.isRejected l = true

theorem Extends.refl (g : StackGraph) : g.Extends g :=
  ⟨id, id, id, id⟩

theorem Extends.trans (h : g.Extends g') (h' : g'.Extends g'') : g.Extends g'' :=
  ⟨h'.entry ∘ h.entry, h'.mem ∘ h.mem, h'.tree ∘ h.tree, h'.rejected ∘ h.rejected⟩

/-- Graphs only get more links. -/
theorem Extends.size_links_le (h : g.Extends g') : g.links.size ≤ g'.links.size := by
  by_contra hlt
  obtain ⟨t, ht⟩ := exists_tree? (Nat.lt_of_not_le hlt)
  exact Nat.lt_irrefl _ (lt_of_tree? (h.tree ht))

/-- Old nodes keep their entries. -/
theorem Extends.entry_of_lt (h : g.Extends g') (hn : n < g.nodes.size)
    (he : g'.entryAt? n = some e) : g.entryAt? n = some e := by
  obtain ⟨d, hd⟩ := exists_entryAt? hn
  rw [hd, ← h.entry hd, he]

theorem extends_addNode (g : StackGraph) (state : StateId) (level : ℕ) :
    g.Extends (g.addNode state level).2 where
  entry := by
    intro n e h
    rw [entryAt?_addNode, if_neg (Nat.ne_of_lt (lt_of_entryAt? h)), h]
  mem := by
    intro w l v h
    rwa [linksFrom_addNode]
  tree := id
  rejected := id

theorem extends_addLink (hs : source < g.nodes.size) (target : NodeId) (tree : TreeId) :
    g.Extends (g.addLink source target tree).2 where
  entry := by
    intro n e h
    rwa [entryAt?_addLink]
  mem := fun h => (mem_linksFrom_addLink hs).mpr (.inr h)
  tree := by
    intro l t h
    rw [tree?_addLink, if_neg (Nat.ne_of_lt (lt_of_tree? h)), h]
  rejected := by
    intro l h
    rwa [isRejected_addLink]

theorem extends_reject (g : StackGraph) (l : LinkId) : g.Extends (g.reject l) where
  entry := id
  mem := id
  tree := by
    intro l' t h
    rwa [tree?_reject]
  rejected := isRejected_reject g l

/-! ### Well-formed graphs -/

/-- Links have numbers of their own and lead to nodes no higher than those they leave, and no two
of them join the same two nodes. -/
structure WellFormed (g : StackGraph) : Prop where
  link_lt : ∀ {w l v}, (l, v) ∈ g.linksFrom w → l < g.links.size
  target_lt : ∀ {w l v}, (l, v) ∈ g.linksFrom w → v < g.nodes.size
  ends_unique : ∀ {w w' l v v'}, (l, v) ∈ g.linksFrom w → (l, v') ∈ g.linksFrom w' →
    w = w' ∧ v = v'
  link_unique : ∀ {w l l' v}, (l, v) ∈ g.linksFrom w → (l', v) ∈ g.linksFrom w → l = l'
  level_le : ∀ {w l v e f}, (l, v) ∈ g.linksFrom w → g.entryAt? w = some e → g.entryAt? v = some f →
    f.position ≤ e.position
  exists_ends : ∀ {l}, l < g.links.size → ∃ w v, (l, v) ∈ g.linksFrom w

theorem WellFormed.findLink? (hg : g.WellFormed) (h : (l, v) ∈ g.linksFrom w) :
    g.findLink? w v = some l := by
  cases hf : g.findLink? w v with
  | none => exact absurd h (findLink?_eq_none_iff.mp hf l)
  | some l' => rw [hg.link_unique (mem_of_findLink? hf) h]

theorem WellFormed.addNode (hg : g.WellFormed) (state : StateId) (level : ℕ) :
    (g.addNode state level).2.WellFormed where
  link_lt := by
    intro w l v h
    rw [linksFrom_addNode] at h
    exact hg.link_lt h
  target_lt := by
    intro w l v h
    rw [linksFrom_addNode] at h
    rw [size_nodes_addNode]
    exact Nat.lt_succ_of_lt (hg.target_lt h)
  ends_unique := by
    intro w w' l v v' h h'
    rw [linksFrom_addNode] at h h'
    exact hg.ends_unique h h'
  link_unique := by
    intro w l l' v h h'
    rw [linksFrom_addNode] at h h'
    exact hg.link_unique h h'
  level_le := by
    intro w l v e f h he hf
    -- a node that is joined is an old one, so it is not the one that is added
    rw [linksFrom_addNode] at h
    rw [entryAt?_addNode, if_neg (Nat.ne_of_lt (lt_of_mem_linksFrom h))] at he
    rw [entryAt?_addNode, if_neg (Nat.ne_of_lt (hg.target_lt h))] at hf
    exact hg.level_le h he hf
  exists_ends := by
    intro l h
    obtain ⟨w, v, hl⟩ := hg.exists_ends h
    exact ⟨w, v, by rwa [linksFrom_addNode]⟩

theorem WellFormed.addLink (hg : g.WellFormed) (hs : source < g.nodes.size)
    (ht : target < g.nodes.size) (hnew : g.findLink? source target = none)
    (hle : ∀ e f, g.entryAt? source = some e → g.entryAt? target = some f → f.position ≤ e.position)
    (tree : TreeId) : (g.addLink source target tree).2.WellFormed where
  link_lt := by
    intro w l v h
    rw [size_links_addLink]
    rcases (mem_linksFrom_addLink hs).mp h with ⟨-, rfl, -⟩ | h
    · exact Nat.lt_succ_self _
    · exact Nat.lt_succ_of_lt (hg.link_lt h)
  target_lt := by
    intro w l v h
    rw [size_nodes_addLink]
    rcases (mem_linksFrom_addLink hs).mp h with ⟨-, -, rfl⟩ | h
    · exact ht
    · exact hg.target_lt h
  -- the number of the new link is that of no old one
  ends_unique := by
    intro w w' l v v' h h'
    rcases (mem_linksFrom_addLink hs).mp h with ⟨rfl, rfl, rfl⟩ | hl
    · rcases (mem_linksFrom_addLink hs).mp h' with ⟨rfl, -, rfl⟩ | hl'
      · exact ⟨rfl, rfl⟩
      · exact absurd (hg.link_lt hl') (Nat.lt_irrefl _)
    · rcases (mem_linksFrom_addLink hs).mp h' with ⟨rfl, rfl, rfl⟩ | hl'
      · exact absurd (hg.link_lt hl) (Nat.lt_irrefl _)
      · exact hg.ends_unique hl hl'
  -- and its ends have not been joined before
  link_unique := by
    intro w l l' v h h'
    rcases (mem_linksFrom_addLink hs).mp h with ⟨rfl, rfl, rfl⟩ | hl
    · rcases (mem_linksFrom_addLink hs).mp h' with ⟨-, rfl, -⟩ | hl'
      · rfl
      · exact absurd hl' (findLink?_eq_none_iff.mp hnew l')
    · rcases (mem_linksFrom_addLink hs).mp h' with ⟨rfl, rfl, rfl⟩ | hl'
      · exact absurd hl (findLink?_eq_none_iff.mp hnew l)
      · exact hg.link_unique hl hl'
  level_le := by
    intro w l v e f h he hf
    rw [entryAt?_addLink] at he hf
    rcases (mem_linksFrom_addLink hs).mp h with ⟨rfl, -, rfl⟩ | h
    · exact hle e f he hf
    · exact hg.level_le h he hf
  exists_ends := by
    intro l h
    rw [size_links_addLink] at h
    rcases Nat.lt_succ_iff_lt_or_eq.mp h with h | rfl
    · obtain ⟨w, v, hl⟩ := hg.exists_ends h
      exact ⟨w, v, (mem_linksFrom_addLink hs).mpr (.inr hl)⟩
    · exact ⟨source, target, (mem_linksFrom_addLink hs).mpr (.inl ⟨rfl, rfl, rfl⟩)⟩

theorem WellFormed.reject (hg : g.WellFormed) (l : LinkId) : (g.reject l).WellFormed where
  link_lt := by
    intro w l' v h
    rw [size_links_reject]
    exact hg.link_lt h
  target_lt := hg.target_lt
  ends_unique := hg.ends_unique
  link_unique := hg.link_unique
  level_le := hg.level_le
  exists_ends := by
    intro l' h
    rw [size_links_reject] at h
    exact hg.exists_ends h

end StackGraph

end ScannerlessLR
