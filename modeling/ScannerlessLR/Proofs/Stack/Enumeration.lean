/-
The paths that a walker hands out.

What a walker still has to hand out can be read off its stops: below each of them, the
paths over the links that have not been followed yet.  No round changes this, but for the
path that is handed out.  So a walker hands out the paths of a length in the order of
their links, newest first, each path once.

* `StackGraph.pathsBelow` — the paths of a length, by recursion on the length;
* `StackGraph.paths_eq_pathsBelow` — they come in the same order when all of them grow at once;
* `Walker.remaining` — what a walker still has to hand out;
* `Walker.Rooted.all_eq_remaining` — it hands out just this;
* `StackGraph.Built` — graphs made of nodes and links;
* `walker_enumerates` — the paths from a node.
-/
import Mathlib.Data.List.Nodup
import ScannerlessLR.Proofs.Stack.Walk
import ScannerlessLR.Stack.Walker

namespace ScannerlessLR

/-- A path with further links on top. -/
def Path.prepend (ls : List LinkId) (p : Path) : Path :=
  ⟨ls ++ p.links, p.bottom⟩

theorem Path.prepend_prepend (ls ls' : List LinkId) (p : Path) :
    (p.prepend ls').prepend ls = p.prepend (ls ++ ls') := by
  rw [prepend, prepend, prepend, List.append_assoc]

/-! ### The paths of a length -/

namespace StackGraph

/-- The paths of exactly `length` links from a node: those over its newest link come first. -/
def pathsBelow (g : StackGraph) : (length : ℕ) → NodeId → List Path
  | 0, n => [⟨[], n⟩]
  | length + 1, n => (g.linksFrom n).flatMap fun (l, below) =>
      (g.pathsBelow length below).map (Path.prepend [l])

variable {g : StackGraph} {n : NodeId} {length : ℕ}

theorem descend_nil : g.descend length [] = [] := by
  cases length <;> rfl

theorem descend_succ (ds : List Descent) :
    g.descend (length + 1) ds = g.descend length (ds.flatMap (·.extend g)) := by
  cases ds with
  | nil => rw [List.flatMap_nil, descend_nil, descend_nil]
  | cons d ds => rfl

/-- Descents that grow together stay in the order in which they would be found one by one. -/
theorem map_path_descend (ds : List Descent) : (g.descend length ds).map Descent.path =
    ds.flatMap fun d => (g.pathsBelow length d.bottom).map (Path.prepend d.taken.reverse) := by
  induction length generalizing ds with
  | zero =>
    rw [← List.flatMap_pure_eq_map]
    refine List.flatMap_congr fun d _ => ?_
    rw [pathsBelow, List.map_singleton, Path.prepend, List.append_nil]
    rfl
  | succ length ih =>
    -- a descent of one link more is one down that link first, and the order is that of the links
    rw [descend_succ, ih, List.flatMap_assoc]
    refine List.flatMap_congr fun d _ => ?_
    rw [Descent.extend, List.flatMap_map, pathsBelow, List.map_flatMap]
    refine List.flatMap_congr fun ⟨l, below⟩ _ => ?_
    rw [List.map_map]
    refine List.map_congr_left fun p _ => ?_
    rw [Function.comp_apply, Path.prepend_prepend, List.reverse_cons]

theorem paths_eq_pathsBelow (g : StackGraph) (n : NodeId) (length : ℕ) :
    g.paths n length = g.pathsBelow length n := by
  rw [paths, map_path_descend, List.flatMap_singleton]
  exact List.map_id _

/-- Links that leave the same node are told apart by their numbers, so paths are by their links. -/
theorem nodup_links_pathsBelow (h : ∀ n, ((g.linksFrom n).map Prod.fst).Nodup) :
    ((g.pathsBelow length n).map Path.links).Nodup := by
  induction length generalizing n with
  | zero => exact List.nodup_singleton _
  | succ length ih =>
    rw [pathsBelow, List.map_flatMap, List.nodup_flatMap]
    constructor
    · rintro ⟨l, below⟩ -
      rw [List.map_map]
      have heq : Path.links ∘ Path.prepend [l] = List.cons l ∘ Path.links := rfl
      rw [heq, ← List.map_map]
      exact ih.map List.cons_injective
    -- paths over different links differ in their first link already
    · refine (List.pairwise_map.mp (h n)).imp ?_
      rintro ⟨l, below⟩ ⟨l', below'⟩ hne ls hls hls'
      obtain ⟨q, hq, rfl⟩ := List.mem_map.mp hls
      obtain ⟨q', hq', heq⟩ := List.mem_map.mp hls'
      obtain ⟨p, -, rfl⟩ := List.mem_map.mp hq
      obtain ⟨p', -, rfl⟩ := List.mem_map.mp hq'
      exact hne (List.cons.inj heq).1.symm

end StackGraph

/-! ### What is still to come -/

/-- The paths over the links of a stop that have not been followed yet. -/
def Stop.paths (g : StackGraph) (stop : Stop) : (length : ℕ) → List Path
  | 0 => [⟨[], stop.node⟩]
  | length + 1 => stop.ahead.flatMap fun (l, below) =>
      (g.pathsBelow length below).map (Path.prepend [l])

theorem Stop.paths_linksFrom (g : StackGraph) (link : Option LinkId) (n : NodeId) (length : ℕ) :
    Stop.paths g ⟨link, n, g.linksFrom n⟩ length = g.pathsBelow length n := by
  cases length <;> rfl

namespace Walker

/-- The links on the way down to the first of some stops, topmost first. -/
def trail (stops : List Stop) : List LinkId :=
  (stops.reverse.drop 1).filterMap Stop.link

/-- What there is to come of the stops on the way down. -/
def stopPaths (g : StackGraph) (length : ℕ) : List Stop → List Path
  | [] => []
  | stop :: stops => (stop.paths g (length - stops.length)).map
      (Path.prepend (trail (stop :: stops))) ++ stopPaths g length stops

/-- The paths that a walker still has to hand out. -/
def remaining (g : StackGraph) (w : Walker) : List Path :=
  stopPaths g w.length w.stops

/-- No link has led to the first node of a walker. -/
def Rooted (w : Walker) : Prop :=
  ∀ stop, w.stops.getLast? = some stop → stop.link = none

variable {g : StackGraph} {w : Walker} {stop stop' : Stop} {stops : List Stop} {length : ℕ}
  {l : LinkId} {below : NodeId} {ahead : List (LinkId × NodeId)}

theorem trail_cons_cons :
    trail (stop :: stop' :: stops) = trail (stop' :: stops) ++ stop.link.toList := by
  rw [trail, trail, List.reverse_cons, List.drop_append_of_le_length (by simp),
    List.filterMap_append]
  cases hl : stop.link <;> simp [hl]

/-- Only the links that have led to the stops count. -/
theorem trail_congr (h : stop.link = stop'.link) :
    trail (stop :: stops) = trail (stop' :: stops) := by
  cases stops with
  | nil => rfl
  | cons => rw [trail_cons_cons, trail_cons_cons, h]

/-- A node as deep as the paths are long is the end of one path. -/
theorem stopPaths_of_lt (h : length < stops.length + 1) : stopPaths g length (stop :: stops) =
    ⟨trail (stop :: stops), stop.node⟩ :: stopPaths g length stops := by
  have hzero : length - stops.length = 0 := by omega
  rw [stopPaths, hzero, Stop.paths, List.map_singleton, Path.prepend, List.append_nil]
  rfl

/-- When all links have been followed, nothing is to come of a node that is not as deep. -/
theorem stopPaths_nil (h : ¬ length < stops.length + 1) (hahead : stop.ahead = []) :
    stopPaths g length (stop :: stops) = stopPaths g length stops := by
  obtain ⟨k, hk, -⟩ := exists_links h
  rw [stopPaths, hk, Stop.paths, hahead]
  rfl

/-- The paths over a link are those below the node that it leads to. -/
theorem stopPaths_cons (h : ¬ length < stops.length + 1)
    (hahead : stop.ahead = (l, below) :: ahead) : stopPaths g length (stop :: stops) =
      stopPaths g length (⟨some l, below, g.linksFrom below⟩ :: { stop with ahead } :: stops) := by
  obtain ⟨k, hk, hless⟩ := exists_links h
  have htrail : trail ({ stop with ahead } :: stops) = trail (stop :: stops) := trail_congr rfl
  rw [stopPaths, hk, Stop.paths, hahead, List.flatMap_cons, List.map_append, List.append_assoc,
    List.map_map, stopPaths, stopPaths, List.length_cons, hless, Stop.paths_linksFrom, hk,
    Stop.paths, trail_cons_cons, htrail]
  refine congrArg (· ++ _) (List.map_congr_left fun p _ => ?_)
  rw [Function.comp_apply, Path.prepend_prepend]
  rfl

/-- The links of a path that is handed out. -/
theorem Rooted.links_eq (h : Rooted ⟨length, stop :: stops⟩) :
    (stops.reverse.drop 1).filterMap Stop.link ++ stop.link.toList = trail (stop :: stops) := by
  cases stops with
  | nil =>
    rw [h stop rfl]
    rfl
  | cons => rw [trail_cons_cons, trail]

theorem Rooted.tail (h : Rooted ⟨length, stop :: stops⟩) : Rooted ⟨length, stops⟩ := by
  intro stop₀ h₀
  refine h stop₀ ?_
  cases stops with
  | nil => exact absurd h₀ (by simp)
  | cons => exact h₀

/-- Links may be followed. -/
theorem Rooted.follow (h : Rooted ⟨length, stop :: stops⟩) (ahead : List (LinkId × NodeId)) :
    Rooted ⟨length, stop' :: { stop with ahead } :: stops⟩ := by
  intro stop₀ h₀
  cases stops with
  | nil =>
    obtain rfl : { stop with ahead } = stop₀ := by simpa using h₀
    exact h stop rfl
  | cons => exact h stop₀ (by simpa using h₀)

/-- A round changes nothing about what is still to come, but for the path that it finds. -/
theorem Rooted.round (h : Rooted w) : match w.round g with
    | .ended => w.remaining g = []
    | .went found w' => w.remaining g = found.toList ++ w'.remaining g ∧ Rooted w' := by
  obtain ⟨length, stops⟩ := w
  match stops with
  | [] => rfl
  | stop :: stops =>
    rw [Walker.round]
    by_cases hd : length < stops.length + 1
    · rw [if_pos hd, h.links_eq]
      exact ⟨stopPaths_of_lt hd, h.tail⟩
    · rw [if_neg hd]
      cases hahead : stop.ahead with
      | nil => exact ⟨stopPaths_nil hd hahead, h.tail⟩
      -- the links below the node are still to come, in front of those next to it
      | cons link ahead => exact ⟨stopPaths_cons hd hahead, h.follow ahead⟩

/-- The next path is the first of those that are still to come. -/
theorem Rooted.next (h : Rooted w) : match w.next g with
    | none => w.remaining g = []
    | some (p, w') => w.remaining g = p :: w'.remaining g ∧ Rooted w' := by
  induction w using Walker.next.induct g with
  | case1 w hround =>
    have hr := h.round (g := g)
    rw [hround] at hr
    rw [next_of_ended hround]
    exact hr
  | case2 w p w' hround =>
    have hr := h.round (g := g)
    rw [hround] at hr
    rw [next_of_found hround]
    exact hr
  | case3 w w' hround _ ih =>
    have hr := h.round (g := g)
    rw [hround] at hr
    rw [next_of_went hround, hr.1]
    exact ih hr.2

/-- A walker hands out what is still to come, and then no more. -/
theorem Rooted.all_eq_remaining (h : Rooted w) : w.all g = w.remaining g := by
  induction w using Walker.all.induct g with
  | case1 w hnext =>
    have hn := h.next (g := g)
    rw [hnext] at hn
    rw [all_of_none hnext, hn]
  | case2 w p w' hnext _ ih =>
    have hn := h.next (g := g)
    rw [hnext] at hn
    rw [all_of_some hnext, hn.1, ih hn.2]

end Walker

/-! ### The paths from a node -/

namespace StackGraph

/-- A graph to which nodes have been added, and links between them. -/
inductive Built : StackGraph → Prop
  | empty : Built {}
  | addNode {g : StackGraph} (h : Built g) (state : StateId) (level : ℕ) :
      Built (g.addNode state level).2
  | addLink {g : StackGraph} (h : Built g) {source target : NodeId} (hs : source < g.nodes.size)
      (ht : target < g.nodes.size) (tree : TreeId) : Built (g.addLink source target tree).2

variable {g : StackGraph} {n v : NodeId} {l : LinkId}

theorem Built.link_lt (h : g.Built) (hl : (l, v) ∈ g.linksFrom n) : l < g.links.size := by
  induction h with
  | empty => exact absurd hl (by simp [linksFrom])
  | addNode _ state level ih =>
    rw [linksFrom_addNode] at hl
    exact ih hl
  | addLink _ hs ht tree ih =>
    rw [size_links_addLink]
    rcases (mem_linksFrom_addLink hs).mp hl with ⟨-, rfl, -⟩ | hl
    · exact Nat.lt_succ_self _
    · exact Nat.lt_succ_of_lt (ih hl)

/-- The links that leave a node are listed newest first. -/
theorem Built.newest_first (h : g.Built) (n : NodeId) :
    (g.linksFrom n).Pairwise fun link older => older.1 < link.1 := by
  induction h with
  | empty => exact .nil
  | addNode _ state level ih =>
    rw [linksFrom_addNode]
    exact ih
  | @addLink g h source target hs ht tree ih =>
    -- the new link has the highest number, and it is in front
    by_cases hn : n = source
    · subst hn
      rw [linksFrom_addLink_self g target tree hs]
      exact List.pairwise_cons.mpr ⟨fun older hmem => h.link_lt hmem, ih⟩
    · rw [linksFrom_addLink_of_ne g target tree hn]
      exact ih

end StackGraph

/-- A walker hands out the paths of a length one by one and comes to an end: it hands out the paths
that the recursion on the length lists, in this order, and these are the paths that are found when
all of them grow at once.  They are the walks of that length, each listed once. -/
theorem walker_enumerates {g : StackGraph} (hg : g.Built) (n : NodeId) (length : ℕ) :
    (g.walker n length).all g = g.pathsBelow length n ∧
    g.paths n length = g.pathsBelow length n ∧
    ((g.pathsBelow length n).map Path.links).Nodup ∧
    (∀ p, p ∈ g.pathsBelow length n ↔ g.Walk n p.links p.bottom ∧ p.links.length = length) ∧
    ∀ x, (g.linksFrom x).Pairwise fun link older => older.1 < link.1 := by
  have hrooted : (g.walker n length).Rooted := by
    intro stop hstop
    obtain rfl := Option.some.inj hstop
    rfl
  have hpaths := g.paths_eq_pathsBelow n length
  refine ⟨?_, hpaths, StackGraph.nodup_links_pathsBelow fun x => ?_, fun p => ?_, hg.newest_first⟩
  · rw [hrooted.all_eq_remaining, Walker.remaining, StackGraph.walker, Walker.stopPaths,
      Stop.paths_linksFrom, Walker.stopPaths, List.append_nil]
    exact List.map_id _
  · exact List.pairwise_map.mpr ((hg.newest_first x).imp fun hlt => Nat.ne_of_gt hlt)
  · rw [← hpaths]
    exact StackGraph.mem_paths_iff

/-- A graph with a node that is linked to itself, to the bottom, and to and from a third node. -/
def StackGraph.looped : StackGraph :=
  let nodes := ((({} : StackGraph).addNode 0).2.addNode 1).2.addNode 2
  let links := ((nodes.2.addLink 1 0 0).2.addLink 2 1 0).2.addLink 1 2 0
  (links.2.addLink 1 1 0).2

theorem StackGraph.built_looped : StackGraph.looped.Built :=
  .addLink (.addLink (.addLink (.addLink (.addNode (.addNode (.addNode .empty _ _) _ _) _ _)
    (by decide) (by decide) _) (by decide) (by decide) _) (by decide) (by decide) _)
    (by decide) (by decide) _

/-- The paths of two links from the node that is linked to itself. -/
theorem walker_enumerates_looped : StackGraph.looped.Built ∧
    (StackGraph.looped.walker 1 2).all StackGraph.looped =
      [⟨[3, 3], 1⟩, ⟨[3, 2], 2⟩, ⟨[3, 0], 0⟩, ⟨[2, 1], 1⟩] :=
  ⟨StackGraph.built_looped, (walker_enumerates StackGraph.built_looped 1 2).1⟩

end ScannerlessLR
