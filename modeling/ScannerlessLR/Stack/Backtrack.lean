/-
The search for a path of links that are not rejected, as a loop.

The loop keeps the links that it has taken, and the links that are still to be tried of
each node on its way down.  A round tries the next link of the deepest node, and goes
back when that node has none left.  Nodes that have been visited once are passed over,
so the loop ends on every graph: a round visits another node, or leaves less to try.

* `Backtrack.round` — one round of the loop;
* `Backtrack.run` — all its rounds;
* `StackGraph.backtrack?` — the path that the loop finds.
-/
import ScannerlessLR.Stack.Graph

namespace ScannerlessLR

/-- Where the loop stands. -/
structure Backtrack where
  /-- The links still to be tried of the nodes on the way down, the deepest node first. -/
  untried : List (List (LinkId × NodeId))
  /-- The links taken, the last one first. -/
  taken : List LinkId
  visited : List NodeId
  deriving DecidableEq, Repr

namespace StackGraph

/-- The number of nodes that have not been visited. -/
def unvisited (g : StackGraph) (visited : List NodeId) : Nat :=
  ((List.range g.nodes.size).filter (· ∉ visited)).length

variable {g : StackGraph} {n : NodeId} {visited visited' : List NodeId}

theorem unvisited_le (h : visited ⊆ visited') : g.unvisited visited' ≤ g.unvisited visited := by
  rw [unvisited, unvisited, ← List.countP_eq_length_filter, ← List.countP_eq_length_filter]
  refine List.countP_mono_left fun x _ hx => ?_
  simp only [decide_eq_true_eq] at hx ⊢
  exact fun hmem => hx (h hmem)

theorem unvisited_lt (hn : n < g.nodes.size) (h : n ∉ visited) :
    g.unvisited (n :: visited) < g.unvisited visited := by
  have hfilter : (List.range g.nodes.size).filter (· ∉ n :: visited) =
      ((List.range g.nodes.size).filter (· ∉ visited)).filter (· ≠ n) := by
    rw [List.filter_filter]
    exact List.filter_congr fun x _ => by simp [not_or]
  rw [unvisited, hfilter]
  exact List.length_filter_lt_length_iff_exists.mpr
    ⟨n, List.mem_filter.mpr ⟨List.mem_range.mpr hn, by simpa using h⟩, by simp⟩

/-- No links leave what is no node. -/
theorem liveLinks_of_le (hn : g.nodes.size ≤ n) : g.liveLinks n = [] := by
  rw [liveLinks, linksFrom, Array.getElem?_eq_none hn]
  rfl

end StackGraph

namespace Backtrack

/-- What has come of a round. -/
inductive Round where
  /-- A path has been found, or there was nothing left to try. -/
  | ended (found : Option (List LinkId))
  | going (state : Backtrack)
  deriving DecidableEq, Repr

variable (g : StackGraph) (goal : NodeId)

/-- One round of the loop. -/
def round : Backtrack → Round
  | ⟨[], _, _⟩ => .ended none
  | ⟨[] :: untried, taken, visited⟩ => .going ⟨untried, taken.tail, visited⟩
  | ⟨((l, below) :: links) :: untried, taken, visited⟩ =>
    if below = goal then .ended (some (l :: taken).reverse)
    else if below ∈ visited then .going ⟨links :: untried, taken, visited⟩
    else .going ⟨g.liveLinks below :: links :: untried, l :: taken, below :: visited⟩

/-- How much there is left to try. -/
def weight (b : Backtrack) : Nat :=
  b.untried.foldr (fun links weight => weight + 2 * links.length + 1) 0

variable {g goal}

/-- After a round that does not end the loop there are fewer nodes to visit, or less to try. -/
theorem lex_round {b b' : Backtrack} (h : b.round g goal = .going b') :
    Prod.Lex (· < ·) (· < ·) (g.unvisited b'.visited, b'.weight) (g.unvisited b.visited, b.weight)
    := by
  obtain ⟨untried, taken, visited⟩ := b
  match untried with
  | [] => exact absurd h (by simp [round])
  | [] :: untried =>
    obtain rfl := Round.going.inj h
    exact .right _ (by simp [weight])
  | ((l, below) :: links) :: untried =>
    rw [round] at h
    split at h
    · exact absurd h (by simp)
    split at h
    · obtain rfl := Round.going.inj h
      exact .right _ (by simp [weight])
    · obtain rfl := Round.going.inj h
      by_cases hb : below < g.nodes.size
      · exact .left _ _ (StackGraph.unvisited_lt hb ‹_›)
      -- a link to nowhere leads to no further links
      · refine .right' _ (StackGraph.unvisited_le (List.subset_cons_self _ _)) ?_
        simp only [weight, List.foldr_cons, List.length_cons,
          StackGraph.liveLinks_of_le (Nat.le_of_not_lt hb), List.length_nil]
        omega

variable (g goal)

/-- Goes on round by round until the loop ends. -/
def run (b : Backtrack) : Option (List LinkId) :=
  match h : b.round g goal with
  | .ended found => found
  | .going b' =>
    have := lex_round h
    run b'
termination_by (g.unvisited b.visited, b.weight)
decreasing_by assumption

variable {g goal} {b b' : Backtrack} {found : Option (List LinkId)}

theorem run_of_ended (h : b.round g goal = .ended found) : b.run g goal = found := by
  rw [run]
  split <;> rename_i heq
  · exact (Round.ended.inj (h.symm.trans heq)).symm
  · exact absurd (h.symm.trans heq) (by simp)

theorem run_of_going (h : b.round g goal = .going b') : b.run g goal = b'.run g goal := by
  rw [run]
  split <;> rename_i heq
  · exact absurd (h.symm.trans heq) (by simp)
  · rw [Round.going.inj (h.symm.trans heq)]

end Backtrack

namespace StackGraph

/-- A path from `n` to `goal` of links that are not rejected, topmost first. -/
def backtrack? (g : StackGraph) (n goal : NodeId) : Option (List LinkId) :=
  if n = goal then some [] else Backtrack.run g goal ⟨[g.liveLinks n], [], [n]⟩

end StackGraph

end ScannerlessLR
