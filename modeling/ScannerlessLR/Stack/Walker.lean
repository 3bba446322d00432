/-
The paths of a given length that go down from a node, handed out one by one.

A walker keeps the nodes on its way down, each with the link that has led to it and the
links that it has not followed yet.  A round follows the next link of the deepest node,
or leaves the node.  A node that lies as deep as the path is long is left at once, and
the path to it is handed out.

* `Walker.round` — one round;
* `Walker.next` — the next path;
* `Walker.all` — all paths that are still to come;
* `StackGraph.walker` — the walker that starts from a node.
-/
import ScannerlessLR.Stack.Path

namespace ScannerlessLR

/-- A node on the way down. -/
structure Stop where
  /-- The link that has led to the node.  None has led to the first. -/
  link : Option LinkId
  node : NodeId
  /-- The links that have not been followed yet, with the nodes they lead to. -/
  ahead : List (LinkId × NodeId)
  deriving DecidableEq, Repr

/-- The paths of a length that are still to come. -/
structure Walker where
  length : Nat
  /-- The nodes on the way down, the deepest first. -/
  stops : List Stop
  deriving DecidableEq, Repr

namespace Walker

/-- What has come of a round. -/
inductive Round where
  | ended
  /-- The walker has more rounds to go, and may have found a path. -/
  | went (found : Option Path) (walker : Walker)
  deriving DecidableEq, Repr

/-- One round of a walker. -/
def round (g : StackGraph) : Walker → Round
  | ⟨_, []⟩ => .ended
  | ⟨length, stop :: stops⟩ =>
    if length < stops.length + 1 then
      -- no link has led to the first node
      let links := (stops.reverse.drop 1).filterMap Stop.link ++ stop.link.toList
      .went (some ⟨links, stop.node⟩) ⟨length, stops⟩
    else
      match stop.ahead with
      | [] => .went none ⟨length, stops⟩
      | (l, below) :: ahead =>
        .went none ⟨length, ⟨some l, below, g.linksFrom below⟩ :: { stop with ahead } :: stops⟩

/-- The rounds at a node, and below it, when there are so many links to go. -/
def rounds (g : StackGraph) : (links : Nat) → (ahead : List (LinkId × NodeId)) → Nat
  | 0, _ => 1
  | links + 1, ahead =>
    ahead.foldr (fun (_, below) count => count + 1 + rounds g links (g.linksFrom below)) 1

/-- The rounds at the nodes on the way down. -/
def stopRounds (g : StackGraph) (length : Nat) : List Stop → Nat
  | [] => 0
  | stop :: stops => rounds g (length - stops.length) stop.ahead + stopRounds g length stops

/-- The rounds that a walker has to go. -/
def weight (g : StackGraph) (w : Walker) : Nat :=
  stopRounds g w.length w.stops

variable {g : StackGraph} {w w' : Walker} {found : Option Path} {p : Path}

/-- Unless a node is as deep as the paths are long, there are links to go, one less from below. -/
theorem exists_links {length depth : Nat} (h : ¬ length < depth + 1) :
    ∃ links, length - depth = links + 1 ∧ length - (depth + 1) = links :=
  ⟨length - depth - 1, by omega, by omega⟩

/-- There is one round less to go after a round. -/
theorem weight_round (h : w.round g = .went found w') : w.weight g = w'.weight g + 1 := by
  obtain ⟨length, stops⟩ := w
  match stops with
  | [] => exact absurd h (by simp [round])
  | stop :: stops =>
    rw [round] at h
    split at h
    -- a path has been found, which was the one round at this node
    · obtain ⟨-, rfl⟩ := Round.went.inj h
      have hzero : length - stops.length = 0 := by omega
      rw [weight, stopRounds, hzero, rounds, Nat.add_comm]
      rfl
    · obtain ⟨links, hlinks, hless⟩ := exists_links ‹_›
      split at h
      · rename_i hahead
        obtain ⟨-, rfl⟩ := Round.went.inj h
        rw [weight, stopRounds, hlinks, hahead, rounds, Nat.add_comm]
        rfl
      -- of the rounds at the node, those over the link are counted below it now
      · rename_i l below ahead hahead
        obtain ⟨-, rfl⟩ := Round.went.inj h
        simp only [weight, stopRounds, List.length_cons, hlinks, hless, hahead, rounds,
          List.foldr_cons]
        omega

/-- The next path, and the walker that has handed it out. -/
def next (g : StackGraph) (w : Walker) : Option (Path × Walker) :=
  match h : w.round g with
  | .ended => none
  | .went (some p) w' => some (p, w')
  | .went none w' =>
    have := weight_round h
    w'.next g
termination_by w.weight g

theorem next_of_ended (h : w.round g = .ended) : w.next g = none := by
  rw [next]
  split <;> rename_i heq
  · rfl
  · exact absurd (h.symm.trans heq) (by simp)
  · exact absurd (h.symm.trans heq) (by simp)

theorem next_of_found (h : w.round g = .went (some p) w') : w.next g = some (p, w') := by
  rw [next]
  split <;> rename_i heq
  · exact absurd (h.symm.trans heq) (by simp)
  · obtain ⟨hp, rfl⟩ := Round.went.inj (h.symm.trans heq)
    rw [Option.some.inj hp]
  · exact absurd (h.symm.trans heq) (by simp)

theorem next_of_went (h : w.round g = .went none w') : w.next g = w'.next g := by
  rw [next]
  split <;> rename_i heq
  · exact absurd (h.symm.trans heq) (by simp)
  · exact absurd (h.symm.trans heq) (by simp)
  · obtain ⟨-, rfl⟩ := Round.went.inj (h.symm.trans heq)
    rfl

theorem weight_next (h : w.next g = some (p, w')) : w'.weight g < w.weight g := by
  induction w using next.induct g with
  | case1 w hround => exact absurd (next_of_ended hround ▸ h) (by simp)
  | case2 w p₁ w₁ hround =>
    rw [next_of_found hround] at h
    obtain ⟨-, rfl⟩ := Prod.mk.inj (Option.some.inj h)
    rw [weight_round hround]
    exact Nat.lt_succ_self _
  | case3 w w₁ hround _ ih =>
    rw [next_of_went hround] at h
    rw [weight_round hround]
    exact Nat.lt_succ_of_lt (ih h)

/-- All paths that are still to come: one after the other, until there is none. -/
def all (g : StackGraph) (w : Walker) : List Path :=
  match h : w.next g with
  | none => []
  | some (p, w') =>
    have := weight_next h
    p :: w'.all g
termination_by w.weight g

theorem all_of_none (h : w.next g = none) : w.all g = [] := by
  rw [all]
  split <;> rename_i heq
  · rfl
  · exact absurd (h.symm.trans heq) (by simp)

theorem all_of_some (h : w.next g = some (p, w')) : w.all g = p :: w'.all g := by
  rw [all]
  split <;> rename_i heq
  · exact absurd (h.symm.trans heq) (by simp)
  · obtain ⟨rfl, rfl⟩ := Prod.mk.inj (Option.some.inj (h.symm.trans heq))
    rfl

end Walker

/-- The walker that hands out all paths of exactly `length` links from `n`. -/
def StackGraph.walker (g : StackGraph) (n : NodeId) (length : Nat) : Walker :=
  ⟨length, [⟨none, n, g.linksFrom n⟩]⟩

end ScannerlessLR
