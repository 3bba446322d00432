/-
The links of the reductions along live paths.

When nothing is left to do at a point, the active nodes are closed under the reductions
along paths without rejected links: each has its link, and what it builds is an
alternative of the link's tree.  This is so even of a node that was passed over because
all its links were rejected when it had its turn.  A link that makes a path live comes
later then, and all nodes that have had their turn are revisited for it.

* `Application.Held` — the tree of the link of a reduction holds what it builds;
* `Reached.held` — this is so of all reductions that have been applied at the point;
* `joined_over_live_path` — the links of the reductions along live paths.
-/
import ScannerlessLR.Proofs.Parser.Contents

namespace ScannerlessLR

/-- A reduction has its link, and the tree of the link holds what the reduction builds. -/
def Application.Held (table : Table) (points : Array UInt32) (m : Machine) (a : Application) :
    Prop :=
  ∃ w v l t, (l, v) ∈ m.graph.linksFrom w ∧ a.Builds table points m.graph w v ∧
    m.graph.tree? l = some t ∧ m.forest.Holds t (a.tree m.graph)

open Machine

variable {table : Table} {config : Config} {points : Array UInt32} {m m' : Machine}
  {a : Application}

/-- A step keeps what the links of reductions hold. -/
theorem Application.Held.moves (h : a.Held table points m)
    (hx : Reached table config points ⟨.working, m⟩) (hm : Moves table config m m') :
    a.Held table points m' := by
  obtain ⟨w, v, l, t, hl, hb, ht, hc⟩ := h
  have hext : m.graph.Extends m'.graph := hx.working.extends_of_moves hm
  refine ⟨w, v, l, t, hext.mem hl, hb.mono hext, hext.tree ht, ?_⟩
  rw [hb.enabled.tree_eq hx.working.roster.wf hext]
  exact (hx.ordered.restocks (.work hm)).holds hx.tidy (Moment.uses_of_tree? ht) hc

/-- Whenever a machine is at work, the links of all reductions that it has applied hold what these
have built. -/
theorem Reached.held (hx : Reached table config points ⟨.working, m⟩)
    (ha : a ∈ m.generation.applied) : a.Held table points m := by
  refine hx.working_induction
    (motive := fun m => a ∈ m.generation.applied → a.Held table points m)
    (fun m token cursor hm ha => ?_) (fun m m' hm hmoves ih ha => ?_) ha
  · have happ : (m.read token cursor).generation.applied = [] := hm.between.applied
    exact absurd ha (by simp [happ])
  · cases hm.working.changes hmoves with
    | still _ _ happ | reject _ _ _ _ happ => exact (ih (happ ▸ ha)).moves hm hmoves
    | pack _ _ _ _ _ _ _ _ _ _ happ | link _ _ _ _ _ _ _ happ =>
      rcases List.mem_cons.mp (happ ▸ ha) with rfl | ha
      · exact hm.holds_of_moves hmoves happ
      · exact (ih ha).moves hm hmoves

/-- When nothing is left to do at a point, an active node is linked down for every path without
rejected links from an active node, and every reduction of so many links that the actions of its
state call for.  The tree of the link is what the reduction has built of the trees of the path, or
has it among its alternatives. -/
theorem joined_over_live_path (hx : Reached table config points ⟨.working, m⟩)
    (hi : m.work table config = .idle m) {u v : NodeId} {id : StateId} {r : Reduction}
    {ls : List LinkId} (hu : ∃ s, m.generation.node? s = some u)
    (hs : m.graph.state? u = some id) (hr : table.Reduces points id m.generation.level r)
    (harity : 1 ≤ r.arity) (hw : m.graph.Walk u ls v) (hlen : ls.length = r.arity)
    (hlive : ∀ l ∈ ls, m.graph.isRejected l = false) :
    ∃ bottom target w l t tree, m.graph.state? v = some bottom ∧
      table.gotoFrom? bottom r.label = some target ∧ m.generation.node? target = some w ∧
      (l, v) ∈ m.graph.linksFrom w ∧ m.graph.tree? l = some t ∧
      tree ∈ m.forest.alternatives t ∧ Derives m.graph m.forest tree ⟨ls, u, r⟩ := by
  have hroster := hx.working.roster
  obtain ⟨s, hu⟩ := hu
  have hentry := hroster.lookup_iff.mp hu
  obtain rfl : s = id := Option.some.inj ((StackGraph.state?_of_entryAt? hentry).symm.trans hs)
  have ha : (Application.mk ls u r).Enabled table points m.graph v :=
    ⟨⟨_, hentry, hr.2⟩, hr.1, hw, hlen⟩
  -- a path with a link does without the condition on the node at its top
  have hne : ls ≠ [] := List.ne_nil_of_length_pos (hlen ▸ harity)
  have hl : (Application.mk ls u r).Live m.graph := ⟨hlive, fun hnil => absurd hnil hne⟩
  have happ := hx.working.mem_applied_of_live hx.thorough hi hentry ha hl
  -- the link has been made for the node in which the path ends, at the same point
  obtain ⟨w, v', l, t, hmem, ⟨ha', d, ⟨target, position⟩, f, hd, hw', hf, hpos, hgoto⟩, ht,
    tree, htree, hget⟩ := hx.held happ
  obtain rfl := hw.unique hroster.wf ha'.walk
  obtain rfl := Option.some.inj (hentry.symm.trans hd)
  obtain rfl : m.generation.level = position := hpos
  exact ⟨f.state, target, w, l, t, tree, StackGraph.state?_of_entryAt? hf, hgoto,
    hroster.lookup_iff.mpr hw', hmem, ht, htree, ha.derives hroster.wf hget⟩

/-- A table with a node that has its turn while its only link is rejected, and gets another link
afterwards, over which it is reduced. -/
def Table.revived : Table where
  start := 0
  states := [
    { id := 0, gotos := [⟨.single 257, 1⟩, ⟨.single 258, 2⟩, ⟨.single 259, 3⟩],
      actions := [⟨.single 256, [.reduce ⟨0, 257, .normal⟩, .reduce ⟨0, 258, .normal⟩]⟩] },
    { id := 1, actions := [⟨.single 256, [.reduce ⟨1, 259, .normal⟩]⟩] },
    { id := 2, gotos := [⟨.single 258, 1⟩, ⟨.single 259, 3⟩],
      actions := [⟨.single 256, [.reduce ⟨0, 258, .normal⟩]⟩] },
    { id := 3, actions := [⟨.single 256, [.accept]⟩] }]
  labels := [⟨257, .application "early" [], [.reject]⟩, ⟨258, .application "late" [], []⟩,
    ⟨259, .application "whole" [], []⟩]
  states_nodup := by decide
  labels_nodup := by decide
  resolves := by decide

/-- The machine when everything has been done for the empty text. -/
theorem reached_revived : ∃ m, Reached Table.revived {} (inputPoints {} "".toList) ⟨.working, m⟩ ∧
    m.work Table.revived {} = .idle m ∧ m.generation.level = 0 ∧
    m.generation.active = [(3, 3), (2, 2), (1, 1), (0, 0)] ∧
    m.graph = ⟨#[⟨0, 0, []⟩, ⟨1, 0, [(2, 2), (0, 0)]⟩, ⟨2, 0, [(1, 0)]⟩, ⟨3, 0, [(3, 2)]⟩],
      #[⟨0, true⟩, ⟨1, false⟩, ⟨2, false⟩, ⟨3, false⟩]⟩ := by
  let m₀ := (Machine.initial Table.revived {} (inputPoints {} "".toList)).read 256
    ⟨inputPoints {} "".toList, 1⟩
  obtain ⟨m, hm, hdata⟩ := exists_ok_of_toOption_map
    (r := m₀.drain Table.revived {} (m₀.room Table.revived))
    (f := fun m => (m.generation.level, m.generation.active, m.graph))
    (b := (0, [(3, 3), (2, 2), (1, 1), (0, 0)],
      ⟨#[⟨0, 0, []⟩, ⟨1, 0, [(2, 2), (0, 0)]⟩, ⟨2, 0, [(1, 0)]⟩, ⟨3, 0, [(3, 2)]⟩],
        #[⟨0, true⟩, ⟨1, false⟩, ⟨2, false⟩, ⟨3, false⟩]⟩)) (by decide +kernel)
  obtain ⟨hlevel, hactive, hgraph⟩ : _ ∧ _ ∧ _ := by simpa only [Prod.mk.injEq] using hdata
  obtain ⟨hr, hi⟩ := drain_ok hm
  have h₀ : Reached Table.revived {} (inputPoints {} "".toList) ⟨.working, m₀⟩ :=
    .single (.read (by decide) (by decide))
  exact ⟨m, h₀.trans (nexts_of_runs hr), hi, hlevel, hactive, hgraph⟩

/-- In that machine the node 1 is reduced over its live link, down to the node 2. -/
theorem joined_over_live_path_revived :
    ∃ m, Reached Table.revived {} (inputPoints {} "".toList) ⟨.working, m⟩ ∧
      m.work Table.revived {} = .idle m ∧ m.generation.node? 1 = some 1 ∧
      m.graph.isRejected 0 = true ∧ m.graph.isRejected 2 = false ∧ m.graph.Walk 1 [2] 2 ∧
      ∃ bottom target w l t tree, m.graph.state? 2 = some bottom ∧
        Table.revived.gotoFrom? bottom 259 = some target ∧
        m.generation.node? target = some w ∧ (l, 2) ∈ m.graph.linksFrom w ∧
        m.graph.tree? l = some t ∧ tree ∈ m.forest.alternatives t ∧
        Derives m.graph m.forest tree ⟨[2], 1, ⟨1, 259, .normal⟩⟩ := by
  obtain ⟨m, hx, hi, hlevel, hactive, hg⟩ := reached_revived
  have hu : m.generation.node? 1 = some 1 := by
    rw [Generation.node?, hactive]
    rfl
  have hw : m.graph.Walk 1 [2] 2 := by
    rw [hg]
    exact .cons (by decide) (.nil 2)
  have hlive : ∀ l ∈ [2], m.graph.isRejected l = false := by
    rw [hg]
    decide
  have hr : Table.revived.Reduces (inputPoints {} "".toList) 1 m.generation.level
      ⟨1, 259, .normal⟩ := by
    rw [hlevel]
    exact ⟨⟨_, rfl, rfl⟩, _, ⟨256, rfl, List.mem_singleton_self _⟩, rfl⟩
  refine ⟨m, hx, hi, hu, by rw [hg]; rfl, hlive 2 (List.mem_singleton_self 2), hw, ?_⟩
  exact joined_over_live_path hx hi ⟨1, hu⟩ (by rw [hg]; rfl) hr (Nat.le_refl 1) hw rfl hlive

end ScannerlessLR
