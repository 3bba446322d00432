/-
A graph-structured stack without its trees.

Nothing that is looked up on the way of a parse depends on the trees that links carry,
so a graph can be compared with another up to them.

* `StackGraph.bare` — the graph with one and the same tree on all links;
* `StackGraph.paths_bare`, `StackGraph.livePath?_bare` — what is found in it is the same;
* `StackGraph.bare_addLink`, `StackGraph.bare_reject` — it grows with the graph.
-/
import ScannerlessLR.Proofs.Stack.Walk
import ScannerlessLR.Stack.Path

namespace ScannerlessLR

namespace StackGraph

/-- The graph with the same tree on all links. -/
def bare (g : StackGraph) : StackGraph :=
  { g with links := g.links.map fun link => { link with tree := 0 } }

variable (g : StackGraph) (n v source target goal : NodeId) (l : LinkId)

/-! ### What is looked up -/

@[simp] theorem nodes_bare : g.bare.nodes = g.nodes := rfl

@[simp] theorem size_links_bare : g.bare.links.size = g.links.size :=
  Array.size_map

@[simp] theorem linksFrom_bare : g.bare.linksFrom n = g.linksFrom n := rfl

@[simp] theorem state?_bare : g.bare.state? n = g.state? n := rfl

@[simp] theorem findLink?_bare : g.bare.findLink? source target = g.findLink? source target := rfl

@[simp] theorem endpoints?_bare : g.bare.endpoints? l = g.endpoints? l := rfl

@[simp] theorem isRejected_bare : g.bare.isRejected l = g.isRejected l := by
  rw [isRejected, isRejected, bare, Array.getElem?_map, Option.any_map]

@[simp] theorem allRejected_bare : g.bare.allRejected n = g.allRejected n := by
  simp only [allRejected, linksFrom_bare, isRejected_bare]

@[simp] theorem liveLinks_bare : g.bare.liveLinks n = g.liveLinks n := by
  simp only [liveLinks, linksFrom_bare, isRejected_bare]

theorem descend_bare (length : ℕ) (ds : List Descent) :
    g.bare.descend length ds = g.descend length ds := by
  induction length generalizing ds with
  | zero => rfl
  | succ length ih =>
    cases ds with
    | nil => rfl
    | cons d ds =>
      rw [descend, descend, ih]
      rfl

@[simp] theorem paths_bare (length : ℕ) : g.bare.paths n length = g.paths n length := by
  rw [paths, paths, descend_bare]

theorem searchBelow_bare (depth : ℕ) :
    g.bare.searchBelow goal depth = g.searchBelow goal depth := by
  induction depth with
  | zero => rfl
  | succ depth ih =>
    funext entered n
    rw [searchBelow, searchBelow, ih, liveLinks_bare]

@[simp] theorem livePath?_bare : g.bare.livePath? n goal = g.livePath? n goal := by
  rw [livePath?, livePath?, searchBelow_bare, nodes_bare]

/-! ### Graphs that differ in their trees alone -/

section Eq

variable {g} {g' : StackGraph} (h : g.bare = g'.bare)
include h

theorem nodes_eq_of_bare : g.nodes = g'.nodes := (congrArg nodes h :)

theorem linksFrom_eq_of_bare : g.linksFrom n = g'.linksFrom n := by
  rw [linksFrom, linksFrom, nodes_eq_of_bare h]

theorem state?_eq_of_bare : g.state? n = g'.state? n := by
  rw [state?, state?, nodes_eq_of_bare h]

theorem entryAt?_eq_of_bare : g.entryAt? n = g'.entryAt? n := by
  rw [entryAt?, entryAt?, nodes_eq_of_bare h]

theorem size_links_eq_of_bare : g.links.size = g'.links.size := by
  rw [← size_links_bare, h, size_links_bare]

theorem isRejected_eq_of_bare : g.isRejected l = g'.isRejected l := by
  rw [← isRejected_bare, h, isRejected_bare]

theorem walk_of_bare {ls : List LinkId} (hw : g.Walk n ls v) : g'.Walk n ls v := by
  induction hw with
  | nil n => exact .nil n
  | cons hl _ ih => exact .cons (linksFrom_eq_of_bare _ h ▸ hl) ih

end Eq

/-! ### How the graph grows -/

theorem bare_bare : g.bare.bare = g.bare := by
  rw [bare, bare, Array.map_map]
  rfl

theorem bare_addNode (state : StateId) (level : ℕ) :
    (g.addNode state level).2.bare = (g.bare.addNode state level).2 := rfl

theorem bare_addLink (tree : TreeId) :
    (g.addLink source target tree).2.bare = (g.bare.addLink source target 0).2 := by
  simp only [addLink, bare, Array.map_push, Array.size_map]

theorem bare_reject : (g.reject l).bare = g.bare.reject l := by
  refine congrArg (StackGraph.mk g.nodes) (Array.ext (by simp [reject, bare]) fun i hi hi' => ?_)
  simp only [reject, bare, Array.getElem_map, Array.getElem_modify]
  split <;> rfl

/-- Rejecting a link once more changes nothing. -/
theorem reject_of_isRejected (h : g.isRejected l = true) : g.reject l = g := by
  refine congrArg (StackGraph.mk g.nodes) (Array.ext (Array.size_modify ..) fun i hi hi' => ?_)
  rw [Array.getElem_modify]
  split
  · subst i
    rw [isRejected, Array.getElem?_eq_getElem hi', Option.any_some] at h
    exact congrArg (Link.mk g.links[l].tree) h.symm
  · rfl

end StackGraph

end ScannerlessLR
