/-
Walks down a graph-structured stack, and the stacks that they spell.

* `StackGraph.Walk` — a list of links that can be followed one after the other;
* `StackGraph.mem_paths_iff` — `paths` finds the walks of a length, all of them;
* `StackGraph.Spells` — the stack that a walk down to the root stands for.
-/
import ScannerlessLR.Proofs.Stack.Graph
import ScannerlessLR.Stack.Path

namespace ScannerlessLR

namespace StackGraph

/-- Following `ls`, topmost link first, leads from one node down to another. -/
inductive Walk (g : StackGraph) : NodeId → List LinkId → NodeId → Prop
  | nil (n : NodeId) : Walk g n [] n
  | cons {n below v : NodeId} {l : LinkId} {ls : List LinkId} (h : (l, below) ∈ g.linksFrom n)
      (hw : Walk g below ls v) : Walk g n (l :: ls) v

variable {g g' : StackGraph} {n u v v' w root : NodeId} {l : LinkId} {ls ls' : List LinkId}
  {σ : List Entry}

@[simp] theorem walk_nil_iff : g.Walk u [] v ↔ u = v := by
  constructor
  · intro h
    cases h
    rfl
  · rintro rfl
    exact .nil u

theorem walk_cons_iff :
    g.Walk u (l :: ls) v ↔ ∃ below, (l, below) ∈ g.linksFrom u ∧ g.Walk below ls v := by
  constructor
  · intro h
    cases h with
    | cons hl hw => exact ⟨_, hl, hw⟩
  · rintro ⟨below, hl, hw⟩
    exact .cons hl hw

theorem Walk.append (h : g.Walk u ls v) (h' : g.Walk v ls' w) : g.Walk u (ls ++ ls') w := by
  induction h with
  | nil n => exact h'
  | cons hl _ ih => exact .cons hl (ih h')

theorem Walk.mono (hg : g.Extends g') (h : g.Walk u ls v) : g'.Walk u ls v := by
  induction h with
  | nil n => exact .nil n
  | cons hl _ ih => exact .cons (hg.mem hl) ih

/-- A node and links determine where the walk ends. -/
theorem Walk.unique (hg : g.WellFormed) (h : g.Walk u ls v) (h' : g.Walk u ls v') : v = v' := by
  induction h with
  | nil n =>
    cases h'
    rfl
  | cons hl _ ih =>
    cases h' with
    | cons hl' hw' =>
      obtain ⟨-, rfl⟩ := hg.ends_unique hl hl'
      exact ih hw'

theorem Walk.link_lt (hg : g.WellFormed) (h : g.Walk u ls v) (hl : l ∈ ls) : l < g.links.size := by
  induction h with
  | nil n => exact absurd hl List.not_mem_nil
  | cons hl' _ ih =>
    rcases List.mem_cons.mp hl with rfl | hl
    · exact hg.link_lt hl'
    · exact ih hl

theorem Walk.lt_size (hg : g.WellFormed) (h : g.Walk u ls v) (hu : u < g.nodes.size) :
    v < g.nodes.size := by
  induction h with
  | nil n => exact hu
  | cons hl _ ih => exact ih (hg.target_lt hl)

theorem Walk.level_le (hg : g.WellFormed) (h : g.Walk u ls v) {e f : Entry}
    (he : g.entryAt? u = some e) (hf : g.entryAt? v = some f) : f.position ≤ e.position := by
  induction h generalizing e with
  | nil n =>
    obtain rfl : e = f := Option.some.inj (he.symm.trans hf)
    exact Nat.le_refl _
  | cons hl _ ih =>
    obtain ⟨d, hd⟩ := exists_entryAt? (hg.target_lt hl)
    exact Nat.le_trans (ih hd hf) (hg.level_le hl he hd)

/-- A walk over a new graph that does not take the one new link is an old walk. -/
theorem Walk.of_addLink {source target : NodeId} {tree : TreeId} (hs : source < g.nodes.size)
    (h : (g.addLink source target tree).2.Walk u ls v) (hl : g.links.size ∉ ls) :
    g.Walk u ls v := by
  induction h with
  | nil n => exact .nil n
  | cons h _ ih =>
    rw [List.mem_cons, not_or] at hl
    rcases (mem_linksFrom_addLink hs).mp h with ⟨-, rfl, -⟩ | h
    · exact absurd rfl hl.1
    · exact .cons h (ih hl.2)

@[simp] theorem walk_addNode_iff {state : StateId} {level : ℕ} :
    (g.addNode state level).2.Walk u ls v ↔ g.Walk u ls v := by
  constructor
  · intro h
    induction h with
    | nil n => exact .nil n
    | cons hl _ ih =>
      rw [linksFrom_addNode] at hl
      exact .cons hl ih
  · exact Walk.mono (extends_addNode g state level)

@[simp] theorem walk_reject_iff : (g.reject l).Walk u ls v ↔ g.Walk u ls v := by
  constructor
  · intro h
    induction h with
    | nil n => exact .nil n
    | cons hl _ ih => exact .cons hl ih
  · exact Walk.mono (extends_reject g l)

/-! ### The paths of a length -/

theorem mem_descend_iff {length : ℕ} {ds : List Descent} {d : Descent} :
    d ∈ g.descend length ds ↔ ∃ d₀ ∈ ds, ∃ ls, g.Walk d₀.bottom ls d.bottom ∧
      ls.length = length ∧ d.taken = ls.reverse ++ d₀.taken := by
  -- the descents take one more link at each length, in front of those taken before
  induction length generalizing ds with
  | zero =>
    constructor
    · intro h
      exact ⟨d, h, [], .nil _, rfl, rfl⟩
    · rintro ⟨d₀, h, ls, hw, hlen, ht⟩
      obtain rfl := List.length_eq_zero_iff.mp hlen
      obtain rfl : d₀ = d := by
        have hb : d₀.bottom = d.bottom := walk_nil_iff.mp hw
        have ht : d.taken = d₀.taken := ht
        cases d₀
        cases d
        simp_all
      exact h
  | succ length ih =>
    cases ds with
    | nil => simp [descend]
    | cons d₁ ds =>
      rw [descend, ih]
      constructor
      · rintro ⟨d', hd', ls, hw, rfl, ht⟩
        obtain ⟨d₀, h₀, hx⟩ := List.mem_flatMap.mp hd'
        obtain ⟨⟨l, below⟩, hl, rfl⟩ := List.mem_map.mp hx
        exact ⟨d₀, h₀, l :: ls, .cons hl hw, rfl, by rw [ht]; simp⟩
      · rintro ⟨d₀, h₀, ls, hw, hlen, ht⟩
        rcases ls with _ | ⟨l, ls⟩
        · simp at hlen
        · obtain ⟨below, hl, hw⟩ := walk_cons_iff.mp hw
          refine ⟨⟨l :: d₀.taken, below⟩, ?_, ls, hw, by simpa using hlen, by rw [ht]; simp⟩
          exact List.mem_flatMap.mpr ⟨d₀, h₀, List.mem_map.mpr ⟨(l, below), hl, rfl⟩⟩

/-- The paths of a length are the walks of that length. -/
theorem mem_paths_iff {length : ℕ} {p : Path} :
    p ∈ g.paths n length ↔ g.Walk n p.links p.bottom ∧ p.links.length = length := by
  rw [paths, List.mem_map]
  constructor
  · rintro ⟨d, hd, rfl⟩
    obtain ⟨d₀, h₀, ls, hw, hlen, ht⟩ := mem_descend_iff.mp hd
    rw [List.mem_singleton] at h₀
    subst h₀
    have hp : d.path.links = ls := by
      rw [Descent.path, ht, List.append_nil, List.reverse_reverse]
    rw [hp]
    exact ⟨hw, hlen⟩
  · rintro ⟨hw, hlen⟩
    refine ⟨⟨p.links.reverse, p.bottom⟩, mem_descend_iff.mpr ?_, ?_⟩
    · exact ⟨_, List.mem_singleton_self _, p.links, hw, hlen, by simp⟩
    · rw [Descent.path, List.reverse_reverse]

/-! ### The stack of a walk -/

/-- The entries of the nodes on a walk from `n` down to `root`, topmost first. -/
inductive Spells (g : StackGraph) (root : NodeId) : NodeId → List LinkId → List Entry → Prop
  | root {e : Entry} (he : g.entryAt? root = some e) : Spells g root root [] [e]
  | link {n below : NodeId} {l : LinkId} {ls : List LinkId} {e : Entry} {σ : List Entry}
      (he : g.entryAt? n = some e) (hl : (l, below) ∈ g.linksFrom n)
      (hσ : Spells g root below ls σ) : Spells g root n (l :: ls) (e :: σ)

theorem Spells.walk (h : g.Spells root n ls σ) : g.Walk n ls root := by
  induction h with
  | root he => exact .nil root
  | link he hl _ ih => exact .cons hl ih

theorem Spells.mono (hg : g.Extends g') (h : g.Spells root n ls σ) : g'.Spells root n ls σ := by
  induction h with
  | root he => exact .root (hg.entry he)
  | link he hl _ ih => exact .link (hg.entry he) (hg.mem hl) ih

theorem Spells.head? (h : g.Spells root n ls σ) : σ.head? = g.entryAt? n := by
  cases h with
  | root he => exact he.symm
  | link he hl _ => exact he.symm

theorem Spells.lt_size (h : g.Spells root n ls σ) : n < g.nodes.size := by
  cases h with
  | root he => exact lt_of_entryAt? he
  | link he hl _ => exact lt_of_entryAt? he

theorem Spells.length_eq (h : g.Spells root n ls σ) : σ.length = ls.length + 1 := by
  induction h with
  | root he => rfl
  | link he hl _ ih => rw [List.length_cons, List.length_cons, ih]

/-- Every walk down to the root spells a stack. -/
theorem Walk.exists_spells (hr : root < g.nodes.size)
    (h : g.Walk n ls root) : ∃ σ, g.Spells root n ls σ := by
  induction h with
  | nil n =>
    obtain ⟨e, he⟩ := exists_entryAt? hr
    exact ⟨[e], .root he⟩
  | cons hl hw ih =>
    obtain ⟨e, he⟩ := exists_entryAt? (lt_of_mem_linksFrom hl)
    obtain ⟨σ, hσ⟩ := ih hr
    exact ⟨e :: σ, .link he hl hσ⟩

/-- A walk on top of a spelled stack: so many more entries, the old ones underneath. -/
theorem Walk.spells_append (hg : g.WellFormed) (hw : g.Walk u ls v)
    (h : g.Spells root v ls' σ) (hu : u < g.nodes.size) :
    ∃ τ, g.Spells root u (ls ++ ls') (τ ++ σ) ∧ τ.length = ls.length := by
  induction hw with
  | nil n => exact ⟨[], h, rfl⟩
  | cons hl hw ih =>
    obtain ⟨e, he⟩ := exists_entryAt? hu
    obtain ⟨τ, hτ, hlen⟩ := ih h (hg.target_lt hl)
    exact ⟨e :: τ, .link he hl hτ, by rw [List.length_cons, List.length_cons, hlen]⟩

/-- A spelled stack can be cut at any height: a walk of so many links leads to what spells the
rest. -/
theorem Spells.drop (h : g.Spells root n ls σ) {k : ℕ} (hk : k < σ.length) :
    ∃ v, g.Walk n (ls.take k) v ∧ g.Spells root v (ls.drop k) (σ.drop k) ∧
      (ls.take k).length = k := by
  induction h generalizing k with
  | root he =>
    obtain rfl : k = 0 := by simpa using hk
    exact ⟨root, .nil root, .root he, rfl⟩
  | @link n below l ls e σ he hl hσ ih =>
    cases k with
    | zero => exact ⟨n, .nil n, .link he hl hσ, rfl⟩
    | succ k =>
      obtain ⟨v, hw, hs, hlen⟩ := ih (Nat.lt_of_succ_lt_succ hk)
      refine ⟨v, .cons hl hw, hs, ?_⟩
      rw [List.take_succ_cons, List.length_cons, hlen]

end StackGraph

end ScannerlessLR
