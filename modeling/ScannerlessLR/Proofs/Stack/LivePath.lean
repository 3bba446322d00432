/-
The search for a live path finds one exactly if there is one.

The search is looked at as a loop.  The nodes on its way down, the links between them and
the links left to try stay in step.  A live link of a node that has been visited leads to
a visited node too, unless it is left to try.  So when nothing is left to try, no live
walk leads out of the visited nodes, and the goal is none of them.

* `StackGraph.LiveWalk` — a walk over links that are not rejected;
* `StackGraph.Trail` — a walk with the nodes on it;
* `StackGraph.livePath?_eq_backtrack?` — the search and the loop find the same path;
* `StackGraph.Underway` — what holds of the loop, round by round;
* `finds_live_path` — what is found.
-/
import Mathlib.Data.List.Nodup
import ScannerlessLR.Proofs.Stack.Walk
import ScannerlessLR.Stack.Backtrack
import ScannerlessLR.Stack.Path

namespace ScannerlessLR

namespace StackGraph

/-- A walk over links that are not rejected. -/
def LiveWalk (g : StackGraph) (n : NodeId) (ls : List LinkId) (v : NodeId) : Prop :=
  g.Walk n ls v ∧ ∀ l ∈ ls, g.isRejected l = false

/-- A walk and the nodes on it, both ends included. -/
inductive Trail (g : StackGraph) : NodeId → List LinkId → NodeId → List NodeId → Prop
  | nil (n : NodeId) : Trail g n [] n [n]
  | cons {n below v : NodeId} {l : LinkId} {ls : List LinkId} {ns : List NodeId}
      (hl : (l, below) ∈ g.linksFrom n) (h : Trail g below ls v ns) :
      Trail g n (l :: ls) v (n :: ns)

variable {g : StackGraph} {n v goal : NodeId} {l : LinkId} {ls : List LinkId}

theorem mem_liveLinks_iff :
    (l, v) ∈ g.liveLinks n ↔ (l, v) ∈ g.linksFrom n ∧ g.isRejected l = false := by
  simp [liveLinks]

theorem LiveWalk.nil (g : StackGraph) (n : NodeId) : g.LiveWalk n [] n :=
  ⟨.nil n, fun _ h => absurd h List.not_mem_nil⟩

theorem Trail.walk {ns : List NodeId} (h : g.Trail n ls v ns) : g.Walk n ls v := by
  induction h with
  | nil n => exact .nil n
  | cons hl _ ih => exact .cons hl ih

theorem Trail.snoc {below : NodeId} {ns : List NodeId} (h : g.Trail n ls v ns)
    (hl : (l, below) ∈ g.linksFrom v) : g.Trail n (ls ++ [l]) below (ns ++ [below]) := by
  induction h with
  | nil n => exact .cons hl (.nil below)
  | cons hl' _ ih => exact .cons hl' (ih hl)

/-- No live walk leads out of nodes whose live links do not. -/
theorem LiveWalk.mem_of_closed {visited : List NodeId} (h : g.LiveWalk n ls v)
    (hclosed : ∀ x ∈ visited, ∀ l v, (l, v) ∈ g.liveLinks x → v ∈ visited) (hn : n ∈ visited) :
    v ∈ visited := by
  obtain ⟨hw, hlive⟩ := h
  induction hw with
  | nil n => exact hn
  | cons hl _ ih =>
    have hl := mem_liveLinks_iff.mpr ⟨hl, hlive _ List.mem_cons_self⟩
    exact ih (hclosed _ hn _ _ hl) fun l hl => hlive l (List.mem_cons_of_mem _ hl)

/-! ### The search as a loop -/

section Loop

open Backtrack

variable {untried : List (List (LinkId × NodeId))} {links : List (LinkId × NodeId)}
  {taken : List LinkId} {visited : List NodeId} {below : NodeId} {depth : ℕ}

theorem subset_searchLinks {enter : List NodeId → NodeId → Search}
    (h : ∀ visited n, visited ⊆ (enter visited n).entered) :
    visited ⊆ (searchLinks enter goal links visited).entered := by
  induction links generalizing visited with
  | nil => exact fun _ => id
  | cons link links ih =>
    obtain ⟨l, below⟩ := link
    rw [searchLinks]
    have henter : visited ⊆ (enter (below :: visited) below).entered :=
      fun x hx => h _ _ (List.mem_cons_of_mem _ hx)
    split
    · exact fun _ => id
    · split
      · exact ih
      -- the search below the node has ended, with a path or without one
      · split <;> rename_i heq <;> rw [heq] at henter
        · exact henter
        · exact fun x hx => ih (henter hx)

theorem subset_searchBelow (visited : List NodeId) (n : NodeId) :
    visited ⊆ (g.searchBelow goal depth visited n).entered := by
  induction depth generalizing visited n with
  | zero => exact fun _ => id
  | succ depth ih => exact subset_searchLinks ih

/-- How the loop ends after the search below the node that it has come to: with a path on from
there, or back at the node before. -/
def resume (g : StackGraph) (goal : NodeId) (untried : List (List (LinkId × NodeId)))
    (taken : List LinkId) : Search → Option (List LinkId)
  | ⟨_, some ls⟩ => some (taken.reverse ++ ls)
  | ⟨entered, none⟩ => run g goal ⟨untried, taken.tail, entered⟩

theorem run_nil : run g goal ⟨[], taken, visited⟩ = none :=
  run_of_ended rfl

theorem run_back :
    run g goal ⟨[] :: untried, taken, visited⟩ = run g goal ⟨untried, taken.tail, visited⟩ :=
  run_of_going rfl

theorem run_goal (hb : below = goal) : run g goal ⟨((l, below) :: links) :: untried, taken, visited⟩
    = some (taken.reverse ++ [l]) :=
  List.reverse_cons ▸ run_of_ended (if_pos hb)

theorem run_pass (hb : below ≠ goal) (h : below ∈ visited) :
    run g goal ⟨((l, below) :: links) :: untried, taken, visited⟩ =
      run g goal ⟨links :: untried, taken, visited⟩ :=
  run_of_going ((if_neg hb).trans (if_pos h))

theorem run_enter (hb : below ≠ goal) (h : below ∉ visited) :
    run g goal ⟨((l, below) :: links) :: untried, taken, visited⟩ =
      run g goal ⟨g.liveLinks below :: links :: untried, l :: taken, below :: visited⟩ :=
  run_of_going ((if_neg hb).trans (if_neg h))

/-- The loop tries links as the search does, as long as this is so below their nodes. -/
theorem run_eq_searchLinks (henter : ∀ untried taken visited n,
      (n < g.nodes.size → g.unvisited visited < depth) →
      run g goal ⟨g.liveLinks n :: untried, taken, visited⟩ =
        g.resume goal untried taken (g.searchBelow goal depth visited n))
    (hd : g.unvisited visited ≤ depth) : run g goal ⟨links :: untried, taken, visited⟩ =
      g.resume goal untried taken (searchLinks (g.searchBelow goal depth) goal links visited) := by
  induction links generalizing visited with
  | nil => exact run_back
  | cons link links ih =>
    obtain ⟨l, below⟩ := link
    -- the link leads to the goal, to a node visited before, or to one that is visited now
    rw [searchLinks]
    by_cases hb : below = goal
    · rw [run_goal hb, if_pos hb]
      rfl
    rw [if_neg hb]
    by_cases hmem : below ∈ visited
    · rw [run_pass hb hmem, if_pos hmem]
      exact ih hd
    rw [run_enter hb hmem, if_neg hmem]
    refine (henter _ _ _ below fun hlt => Nat.lt_of_lt_of_le (unvisited_lt hlt hmem) hd).trans ?_
    have hsub : below :: visited ⊆ (g.searchBelow goal depth (below :: visited) below).entered :=
      subset_searchBelow _ _
    split <;> rename_i heq <;> rw [heq] at hsub ⊢
    · rw [resume, resume, List.reverse_cons, List.append_assoc]
      rfl
    -- what has been visited stays visited, so the depth suffices for the other links too
    · refine ih (Nat.le_trans (unvisited_le fun x hx => ?_) hd)
      exact hsub (List.mem_cons_of_mem _ hx)

/-- A search that may go deeper than there are nodes left to visit goes as the loop does. -/
theorem run_eq_searchBelow (hd : n < g.nodes.size → g.unvisited visited < depth) :
    run g goal ⟨g.liveLinks n :: untried, taken, visited⟩ =
      g.resume goal untried taken (g.searchBelow goal depth visited n) := by
  induction depth generalizing untried taken visited n with
  | zero =>
    rw [liveLinks_of_le (Nat.le_of_not_lt fun hn => Nat.not_lt_zero _ (hd hn))]
    exact run_back
  | succ depth ih =>
    rw [searchBelow]
    by_cases hn : n < g.nodes.size
    · exact run_eq_searchLinks (fun _ _ _ _ => ih) (Nat.le_of_lt_succ (hd hn))
    · rw [liveLinks_of_le (Nat.le_of_not_lt hn)]
      exact run_back

/-- The search finds what the loop finds. -/
theorem livePath?_eq_backtrack? (g : StackGraph) (n goal : NodeId) :
    g.livePath? n goal = g.backtrack? n goal := by
  have hd : n < g.nodes.size → g.unvisited [n] < g.nodes.size := by
    intro hn
    refine Nat.lt_of_lt_of_le (unvisited_lt hn List.not_mem_nil) ?_
    exact Nat.le_trans (List.length_filter_le _ _) (Nat.le_of_eq List.length_range)
  rw [livePath?, backtrack?, run_eq_searchBelow hd]
  cases g.searchBelow goal g.nodes.size [n] n with
  | mk entered found =>
    cases found with
    | none => rw [resume, run_nil]
    | some ls => rfl

end Loop

/-! ### The rounds of the loop -/

/-- The nodes on the way down from `n`, the deepest first, with the links left to try of each and
the links taken between them. -/
inductive Route (g : StackGraph) (n : NodeId) :
    List (List (LinkId × NodeId)) → List LinkId → List NodeId → Prop
  | left : Route g n [] [] []
  | start {links : List (LinkId × NodeId)} (hlinks : links ⊆ g.liveLinks n) :
      Route g n [links] [] [n]
  | down {links links' : List (LinkId × NodeId)} {untried : List (List (LinkId × NodeId))}
      {taken : List LinkId} {ns : List NodeId} {x y : NodeId} {l : LinkId}
      (h : Route g n (links' :: untried) taken (x :: ns)) (hl : (l, y) ∈ g.liveLinks x)
      (hlinks : links ⊆ g.liveLinks y) : Route g n (links :: links' :: untried) (l :: taken)
        (y :: x :: ns)

namespace Route

variable {untried : List (List (LinkId × NodeId))} {links : List (LinkId × NodeId)}
  {taken : List LinkId} {ns : List NodeId} {below : NodeId}

theorem pass (h : g.Route n (((l, below) :: links) :: untried) taken ns) :
    g.Route n (links :: untried) taken ns := by
  cases h with
  | start hlinks => exact .start (List.cons_subset.mp hlinks).2
  | down h hl hlinks => exact .down h hl (List.cons_subset.mp hlinks).2

theorem back (h : g.Route n ([] :: untried) taken ns) : g.Route n untried taken.tail ns.tail := by
  cases h with
  | start => exact .left
  | down h => exact h

/-- The deepest node, and the walk that has led there. -/
theorem exists_deepest (h : g.Route n (links :: untried) taken ns) :
    ∃ x ns', ns = x :: ns' ∧ links ⊆ g.liveLinks x ∧ g.Trail n taken.reverse x ns.reverse ∧
      ∀ l ∈ taken, g.isRejected l = false := by
  generalize huntried : links :: untried = frames at h
  induction h generalizing links untried with
  | left => exact absurd huntried (by simp)
  | start hlinks =>
    obtain ⟨rfl, rfl⟩ := List.cons.inj huntried
    exact ⟨n, [], rfl, hlinks, .nil n, fun _ h => absurd h List.not_mem_nil⟩
  | @down links₀ links' untried' taken ns x y l h hl hlinks ih =>
    obtain ⟨rfl, rfl⟩ := List.cons.inj huntried
    obtain ⟨x', ns', hns, -, ht, hlive⟩ := ih rfl
    obtain ⟨rfl, rfl⟩ := List.cons.inj hns
    obtain ⟨hl, hr⟩ := mem_liveLinks_iff.mp hl
    refine ⟨y, x :: ns, rfl, hlinks, ?_, ?_⟩
    · rw [List.reverse_cons, List.reverse_cons]
      exact ht.snoc hl
    · intro l' hl'
      rcases List.mem_cons.mp hl' with rfl | hl'
      · exact hr
      · exact hlive l' hl'

end Route

/-- A link is left to try of one of the nodes `ns` on the way down. -/
def LeftToTry (untried : List (List (LinkId × NodeId))) (ns : List NodeId) (x : NodeId) (l : LinkId)
    (v : NodeId) : Prop :=
  ∃ links, (links, x) ∈ untried.zip ns ∧ (l, v) ∈ links

namespace LeftToTry

variable {untried : List (List (LinkId × NodeId))} {links : List (LinkId × NodeId)}
  {ns : List NodeId} {l' : LinkId} {x y below : NodeId}

theorem down (h : LeftToTry untried ns x l v) : LeftToTry (links :: untried) (y :: ns) x l v := by
  obtain ⟨links', hmem, hl⟩ := h
  exact ⟨links', List.mem_cons_of_mem _ hmem, hl⟩

/-- What is left to try is left of the deepest node, or of those above. -/
theorem cases_cons (h : LeftToTry (links :: untried) ns x l v) :
    ns.head? = some x ∧ (l, v) ∈ links ∨ LeftToTry untried ns.tail x l v := by
  obtain ⟨links', hmem, hl⟩ := h
  cases ns with
  | nil => exact absurd hmem List.not_mem_nil
  | cons y ns =>
    rcases List.mem_cons.mp hmem with heq | hmem
    · obtain ⟨rfl, rfl⟩ := Prod.mk.inj heq
      exact .inl ⟨rfl, hl⟩
    · exact .inr ⟨links', hmem, hl⟩

/-- When a link has been tried, the others are left. -/
theorem pass (h : LeftToTry (((l', below) :: links) :: untried) ns x l v) :
    v = below ∨ LeftToTry (links :: untried) ns x l v := by
  cases ns with
  | nil => exact absurd h.choose_spec.1 List.not_mem_nil
  | cons y ns =>
    rcases h.cases_cons with ⟨hx, hl⟩ | h
    · obtain rfl := Option.some.inj hx
      rcases List.mem_cons.mp hl with heq | hl
      · exact .inl (Prod.mk.inj heq).2
      · exact .inr ⟨links, List.mem_cons_self, hl⟩
    · exact .inr h.down

end LeftToTry

/-- What holds of the loop with the nodes `ns` on its way down from `n`. -/
structure Underway (g : StackGraph) (n goal : NodeId) (b : Backtrack) (ns : List NodeId) :
    Prop where
  route : g.Route n b.untried b.taken ns
  nodup : ns.Nodup
  subset : ns ⊆ b.visited
  start : n ∈ b.visited
  goal : goal ∉ b.visited
  /-- A live link of a visited node leads to a visited one, or is left to try. -/
  tried : ∀ x ∈ b.visited, ∀ l v, (l, v) ∈ g.liveLinks x →
    v ∈ b.visited ∨ LeftToTry b.untried ns x l v

/-- What the loop finds: a live walk that visits no node twice, or else there is no live walk. -/
def Answers (g : StackGraph) (n goal : NodeId) : Option (List LinkId) → Prop
  | none => ∀ ls, ¬ g.LiveWalk n ls goal
  | some ls => ls ≠ [] ∧ g.LiveWalk n ls goal ∧ ∃ ns, g.Trail n ls goal ns ∧ ns.Nodup

namespace Underway

variable {b : Backtrack} {ns : List NodeId} {untried : List (List (LinkId × NodeId))}
  {links : List (LinkId × NodeId)} {taken : List LinkId} {visited : List NodeId} {below : NodeId}

/-- With nothing left to try, the goal is out of reach. -/
theorem answers_none (h : g.Underway n goal ⟨[], taken, visited⟩ ns) : g.Answers n goal none := by
  intro ls hw
  refine h.goal (hw.mem_of_closed (fun x hx l v hl => ?_) h.start)
  rcases h.tried x hx l v hl with hv | ⟨links, hmem, -⟩
  · exact hv
  · exact absurd hmem List.not_mem_nil

/-- A live link to the goal completes the walk. -/
theorem answers_some (h : g.Underway n goal ⟨((l, goal) :: links) :: untried, taken, visited⟩ ns) :
    g.Answers n goal (some (l :: taken).reverse) := by
  obtain ⟨x, ns', rfl, hlinks, ht, hlive⟩ := h.route.exists_deepest
  obtain ⟨hl, hr⟩ := mem_liveLinks_iff.mp (hlinks List.mem_cons_self)
  have ht := ht.snoc hl
  rw [← List.reverse_cons] at ht
  refine ⟨by simp, ⟨ht.walk, ?_⟩, _, ht, ?_⟩
  · intro l' hl'
    rcases List.mem_cons.mp (List.mem_reverse.mp hl') with rfl | hl'
    · exact hr
    · exact hlive l' hl'
  -- the goal has not been visited, unlike the nodes above it
  · rw [← List.reverse_cons, List.nodup_reverse]
    exact List.nodup_cons.mpr ⟨fun hmem => h.goal (h.subset hmem), h.nodup⟩

/-- With no link left to try of the deepest node, the loop goes back. -/
theorem back (h : g.Underway n goal ⟨[] :: untried, taken, visited⟩ ns) :
    g.Underway n goal ⟨untried, taken.tail, visited⟩ ns.tail where
  route := h.route.back
  nodup := h.nodup.tail
  subset := fun _ hx => h.subset (List.mem_of_mem_tail hx)
  start := h.start
  goal := h.goal
  tried := by
    intro x hx l v hl
    refine (h.tried x hx l v hl).imp_right fun hleft => ?_
    rcases hleft.cases_cons with ⟨-, hl⟩ | hleft
    · exact absurd hl List.not_mem_nil
    · exact hleft

/-- A link to a visited node is passed over. -/
theorem pass (h : g.Underway n goal ⟨((l, below) :: links) :: untried, taken, visited⟩ ns)
    (hmem : below ∈ visited) : g.Underway n goal ⟨links :: untried, taken, visited⟩ ns where
  route := h.route.pass
  nodup := h.nodup
  subset := h.subset
  start := h.start
  goal := h.goal
  tried := by
    intro x hx l' v hl
    -- only links to the node that is passed over are gone, and that has been visited
    rcases h.tried x hx l' v hl with hv | hleft
    · exact .inl hv
    rcases hleft.pass with rfl | hleft
    · exact .inl hmem
    · exact .inr hleft

/-- A link to another node is followed. -/
theorem enter (h : g.Underway n goal ⟨((l, below) :: links) :: untried, taken, visited⟩ ns)
    (hgoal : below ≠ goal) (hmem : below ∉ visited) :
    g.Underway n goal ⟨g.liveLinks below :: links :: untried, l :: taken, below :: visited⟩
      (below :: ns) := by
  obtain ⟨y, ns', rfl, hlinks, -⟩ := h.route.exists_deepest
  refine {
    route := h.route.pass.down (hlinks List.mem_cons_self) (List.Subset.refl _)
    nodup := List.nodup_cons.mpr ⟨fun hx => hmem (h.subset hx), h.nodup⟩
    subset := List.cons_subset_cons _ h.subset
    start := List.mem_cons_of_mem _ h.start
    goal := ?_
    tried := ?_ }
  · exact fun hg => (List.mem_cons.mp hg).elim (fun heq => hgoal heq.symm) h.goal
  · intro x hx l' v hl
    -- all links of the node that is visited now are left to try
    rcases List.mem_cons.mp hx with rfl | hx
    · exact .inr ⟨_, List.mem_cons_self, hl⟩
    rcases h.tried x hx l' v hl with hv | hleft
    · exact .inl (List.mem_cons_of_mem _ hv)
    -- the link that is followed is not left to try, but leads to a visited node now
    rcases hleft.pass with rfl | hleft
    · exact .inl List.mem_cons_self
    · exact .inr hleft.down

/-- A round of the loop gives the answer, or keeps what holds of the loop. -/
theorem round (h : g.Underway n goal b ns) : match b.round g goal with
    | .ended found => g.Answers n goal found
    | .going b' => ∃ ns', g.Underway n goal b' ns' := by
  obtain ⟨untried, taken, visited⟩ := b
  match untried with
  | [] => exact h.answers_none
  | [] :: untried => exact ⟨_, h.back⟩
  | ((l, below) :: links) :: untried =>
    rw [Backtrack.round]
    by_cases hb : below = goal
    · subst hb
      rw [if_pos rfl]
      exact h.answers_some
    rw [if_neg hb]
    by_cases hmem : below ∈ visited
    · rw [if_pos hmem]
      exact ⟨_, h.pass hmem⟩
    · rw [if_neg hmem]
      exact ⟨_, h.enter hb hmem⟩

/-- The loop comes to an answer. -/
theorem answers (h : g.Underway n goal b ns) : g.Answers n goal (b.run g goal) := by
  induction b using Backtrack.run.induct g goal generalizing ns with
  | case1 b found hround =>
    have hr := h.round
    rw [hround] at hr
    rw [Backtrack.run_of_ended hround]
    exact hr
  | case2 b b' hround _ ih =>
    have hr := h.round
    rw [hround] at hr
    obtain ⟨ns', h'⟩ := hr
    rw [Backtrack.run_of_going hround]
    exact ih h'

/-- The loop starts with the links of one node left to try. -/
theorem of_start (hn : n ≠ goal) : g.Underway n goal ⟨[g.liveLinks n], [], [n]⟩ [n] where
  route := .start (List.Subset.refl _)
  nodup := List.nodup_singleton n
  subset := List.Subset.refl _
  start := List.mem_singleton_self n
  goal := fun hg => hn (List.mem_singleton.mp hg).symm
  tried := by
    intro x hx l v hl
    obtain rfl := List.mem_singleton.mp hx
    exact .inr ⟨_, List.mem_singleton_self _, hl⟩

end Underway

/-! ### What is found -/

theorem livePath?_self : g.livePath? n n = some [] :=
  if_pos rfl

theorem answers_livePath? (hn : n ≠ goal) : g.Answers n goal (g.livePath? n goal) := by
  rw [livePath?_eq_backtrack?, backtrack?, if_neg hn]
  exact (Underway.of_start hn).answers

/-- A path that is found is a live walk to the goal. -/
theorem liveWalk_of_livePath? (h : g.livePath? n goal = some ls) : g.LiveWalk n ls goal := by
  by_cases hn : n = goal
  · subst hn
    obtain rfl := Option.some.inj (livePath?_self.symm.trans h)
    exact .nil g n
  · have ha := answers_livePath? (g := g) hn
    rw [h] at ha
    exact ha.2.1

/-- If no path is found, there is no live walk to the goal. -/
theorem not_liveWalk_of_livePath? (h : g.livePath? n goal = none) : ¬ g.LiveWalk n ls goal := by
  by_cases hn : n = goal
  · subst hn
    exact absurd (livePath?_self.symm.trans h) (by simp)
  · have ha := answers_livePath? (g := g) hn
    rw [h] at ha
    exact ha ls

end StackGraph

/-- On every graph, the search comes to the same as a loop that ends, and it finds a path exactly
if it starts at the goal or a live walk leads there.  What it finds is such a walk, over links that
are not rejected, which visits no node twice and is empty only if the search starts at the goal. -/
theorem finds_live_path (g : StackGraph) (n goal : NodeId) :
    g.livePath? n goal = g.backtrack? n goal ∧
    ((g.livePath? n goal).isSome ↔ n = goal ∨ ∃ ls, g.LiveWalk n ls goal) ∧
    ∀ ls, g.livePath? n goal = some ls → g.LiveWalk n ls goal ∧
      (∃ ns, g.Trail n ls goal ns ∧ ns.Nodup) ∧ (ls = [] ↔ n = goal) := by
  refine ⟨g.livePath?_eq_backtrack? n goal, ?_,
    fun ls h => ⟨StackGraph.liveWalk_of_livePath? h, ?_⟩⟩
  · cases h : g.livePath? n goal with
    | none =>
      simp only [Option.isSome_none, Bool.false_eq_true, false_iff, not_or, not_exists]
      refine ⟨?_, fun ls => StackGraph.not_liveWalk_of_livePath? h⟩
      rintro rfl
      exact absurd (StackGraph.livePath?_self.symm.trans h) (by simp)
    | some ls =>
      simp only [Option.isSome_some, true_iff]
      exact .inr ⟨ls, StackGraph.liveWalk_of_livePath? h⟩
  · by_cases hn : n = goal
    · subst hn
      obtain rfl := Option.some.inj (StackGraph.livePath?_self.symm.trans h)
      exact ⟨⟨[n], .nil n, List.nodup_singleton n⟩, by simp⟩
    · have ha := StackGraph.answers_livePath? (g := g) hn
      rw [h] at ha
      exact ⟨ha.2.2, iff_of_false ha.1 hn⟩

/-- A graph with a cycle, a link from a node to itself, a rejected link and a node out of reach. -/
def StackGraph.tangled : StackGraph where
  nodes := #[⟨0, 0, []⟩, ⟨1, 0, [(3, 1), (2, 2), (0, 0)]⟩, ⟨2, 0, [(4, 0), (1, 1)]⟩,
    ⟨3, 0, [(5, 1)]⟩]
  links := #[⟨0, true⟩, ⟨0, false⟩, ⟨0, false⟩, ⟨0, false⟩, ⟨0, false⟩, ⟨0, false⟩]

/-- There a search goes round the rejected link, and another finds nothing. -/
theorem finds_live_path_tangled :
    StackGraph.tangled.backtrack? 1 0 = some [2, 4] ∧ StackGraph.tangled.LiveWalk 1 [2, 4] 0 ∧
      (∃ ns, StackGraph.tangled.Trail 1 [2, 4] 0 ns ∧ ns.Nodup) ∧
      ∀ ls, ¬ StackGraph.tangled.LiveWalk 0 ls 3 := by
  have hfound : StackGraph.tangled.livePath? 1 0 = some [2, 4] := by decide
  obtain ⟨heq, -, hpath⟩ := finds_live_path StackGraph.tangled 1 0
  obtain ⟨hlive, htrail, -⟩ := hpath _ hfound
  refine ⟨heq.symm.trans hfound, hlive, htrail, fun ls hw => ?_⟩
  have hnone := (finds_live_path StackGraph.tangled 0 3).2.1.mpr (.inr ⟨ls, hw⟩)
  exact absurd hnone (by decide)

end ScannerlessLR
