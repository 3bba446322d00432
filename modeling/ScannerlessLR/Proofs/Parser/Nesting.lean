/-
How the work at a point is nested.

A new link has the reductions of all processed nodes taken again, over the link and
in front of everything else.  These may make new links in turn, so there is work over
one link within the work over another, as deep as links are made.  Each of them has
been made at the current point, down from an active node to a node that it had not
been joined to, and of such links there are not many.

* `Task.through?` — the link over which a task is taken;
* `Nests`, `Working.nests_moves` — what a step puts on the agenda is taken over the link
  of the task that it replaces, or over the link that the step makes;
* `Reached.made` — the links over which tasks are taken have been made at the point;
* `Reached.nested`, `Reached.card_through_le` — how they are nested, and how deep;
* `Reached.fromActive_of_reject` — the links to be rejected leave active nodes as well.
-/
import ScannerlessLR.Proofs.Parser.Representation

namespace ScannerlessLR

/-- The link over which the reductions of a task are taken, if it is one of those that follow on
a new link. -/
def Task.through? : Task → Option LinkId
  | .revisit _ l => some l
  | .check _ _ _ through | .reduce _ _ through => through
  | .accept .. | .shift .. | .apply .. | .reject .. => none

/-- A link leaves a node of the current level. -/
def Machine.FromActive (m : Machine) (l : LinkId) : Prop :=
  ∃ w v s, (l, v) ∈ m.graph.linksFrom w ∧ m.graph.entryAt? w = some ⟨s, m.generation.level⟩

/-- A link has been made by a step at the current point, from an active node to a node that had
been there, when there was no link between the two. -/
def Made (table : Table) (config : Config) (points : Array UInt32) (m : Machine) (l : LinkId) :
    Prop :=
  ∃ m₁ m₂, Reached table config points ⟨.working, m₁⟩ ∧ m₁.Moves table config m₂ ∧
    Machine.Runs table config m₂ m ∧ l = m₁.graph.links.size ∧ ∃ w v s,
      (l, v) ∈ m₂.graph.linksFrom w ∧ m₂.graph.entryAt? w = some ⟨s, m₁.generation.level⟩ ∧
      v < m₁.graph.nodes.size ∧ m₁.graph.findLink? w v = none

/-- What a step puts on the agenda, in front of `rest`, is taken over the link `through`, or over a
link that the step makes.  What it has rejected are links of active nodes. -/
def Nests (m m' : Machine) (through : Option LinkId) (rest : List Task) : Prop :=
  ∃ new, m'.agenda = new ++ rest ∧
    ((∀ t ∈ new, ∀ l, t.through? = some l → through = some l) ∨
      m'.graph.links.size = m.graph.links.size + 1 ∧
        ∀ t ∈ new, ∀ l, t.through? = some l → l = m.graph.links.size) ∧
    ∀ l source target, .reject l source target ∈ new → m'.FromActive l

open Machine

variable {table : Table} {config : Config} {points : Array UInt32} {m m' : Machine}
  {through : Option LinkId} {rest : List Task} {l : LinkId} {n : NodeId} {t : Task}

/-! ### What a step puts on the agenda -/

theorem nests_nil (h : m'.agenda = rest) : Nests m m' through rest :=
  ⟨[], h, .inl fun _ h => absurd h List.not_mem_nil, fun _ _ _ h => absurd h List.not_mem_nil⟩

/-- A step that has nothing rejected goes on over the same link. -/
theorem nests_of_through {new : List Task} (h : m'.agenda = new ++ rest)
    (hnew : ∀ t ∈ new, (∀ l, t.through? = some l → through = some l) ∧
      ∀ l source target, t ≠ .reject l source target) : Nests m m' through rest :=
  ⟨new, h, .inl fun t ht => (hnew t ht).1, fun l source target ht =>
    absurd rfl ((hnew _ ht).2 l source target)⟩

theorem eq_of_mem_rejection {rejecting : Bool} {source target : StateId}
    (ht : t ∈ if rejecting then [Task.reject l source target] else []) :
    t = .reject l source target := by
  split at ht
  · exact List.mem_singleton.mp ht
  · exact absurd ht List.not_mem_nil

theorem nests_rejection {rejecting : Bool} {source target : StateId}
    (h : m'.agenda = (if rejecting then [Task.reject l source target] else []) ++ rest)
    (hl : m'.FromActive l) : Nests m m' through rest := by
  refine ⟨_, h, .inl fun t ht l' hl' => ?_, fun l' source' target' ht => ?_⟩
  · rw [eq_of_mem_rejection ht] at hl'
    exact absurd hl' (by simp [Task.through?])
  · obtain ⟨rfl, -, -⟩ := Task.reject.inj (eq_of_mem_rejection ht)
    exact hl

/-- What follows on a new link is taken over it, apart from its rejection. -/
theorem nests_followUps {rejecting : Bool} {source target : StateId}
    (h : m'.agenda = m.followUps m.graph.links.size source target rejecting ++ rest)
    (hsize : m'.graph.links.size = m.graph.links.size + 1)
    (hl : m'.FromActive m.graph.links.size) : Nests m m' through rest := by
  refine ⟨_, h, .inr ⟨hsize, fun t ht l hl => ?_⟩, fun l source' target' ht => ?_⟩
  · rcases List.mem_append.mp ht with ht | ht
    · obtain ⟨x, -, rfl⟩ := List.mem_map.mp ht
      exact (Option.some.inj hl).symm
    · rw [eq_of_mem_rejection ht] at hl
      exact absurd hl (by simp [Task.through?])
  · rcases List.mem_append.mp ht with ht | ht
    · obtain ⟨x, -, hx⟩ := List.mem_map.mp ht
      exact absurd hx (by simp)
    · obtain ⟨rfl, -, -⟩ := Task.reject.inj (eq_of_mem_rejection ht)
      exact hl

namespace Working

theorem fromActive_of_findLink? (h : Working table points m) {target : StateId} {v : NodeId}
    (hf : m.graph.findLink? (m.holder target) v = some l) : m.FromActive l :=
  ⟨m.holder target, v, target, StackGraph.mem_of_findLink? hf,
    h.roster.lookup_iff.mp (node?_of_findLink? hf)⟩

/-- A link that has been made leaves the active node of a state. -/
theorem fromActive_attach (h : Working table points m) {target : StateId} {v : NodeId}
    {tree : TreeId} : (m.attach target v tree).FromActive m.graph.links.size := by
  refine ⟨m.holder target, v, target, ?_, ?_⟩
  · exact (mem_linksFrom_attach h.roster).mpr (.inl ⟨rfl, rfl, rfl⟩)
  · rw [level_attach]
    exact entryAt?_holder h.roster

theorem nests_performs (h : Working table points m) {p : Progress}
    (hp : Performs table config m t p) (hm : p.next? = some m') :
    Nests m m' t.through? m.agenda := by
  cases hp with
  | accept | shift | skip | repeated | lost | stop | reject =>
    -- these tasks lead to no others
    obtain rfl := Option.some.inj hm
    exact nests_nil rfl
  | check n r forbidden through =>
    obtain rfl := Option.some.inj hm
    refine nests_of_through rfl fun t ht => ?_
    split at ht
    · obtain rfl := List.mem_singleton.mp ht
      exact ⟨fun l => id, by simp⟩
    · exact absurd ht List.not_mem_nil
  | reduce n r through label hl hu =>
    obtain rfl := Option.some.inj hm
    refine nests_of_through rfl fun t ht => ?_
    obtain ⟨p, -, rfl⟩ := List.mem_map.mp ht
    exact ⟨fun l hl => absurd hl (by simp [Task.through?]), by simp⟩
  | revisit n l hr =>
    obtain rfl := Option.some.inj hm
    refine nests_of_through rfl fun t ht => ?_
    obtain ⟨item, -, hitem⟩ := List.mem_filterMap.mp ht
    rcases ActionItem.reductionTask?_cases hitem with ⟨r, -, rfl⟩ | ⟨r, forbidden, -, rfl⟩ <;>
      exact ⟨fun l => id, by simp⟩
  | pack n r rejecting p id target l hd hb hg hf =>
    obtain rfl := Option.some.inj hm
    exact nests_rejection rfl (h.fromActive_of_findLink? hf)
  | link n r rejecting p id target hd hb hg hf =>
    obtain rfl := Option.some.inj hm
    have hagenda := agenda_attach (m.reducing n r p id target) target p.bottom m.forest.size
    exact nests_followUps
      (congrArg (m.followUps m.graph.links.size target id rejecting ++ ·) hagenda)
      (size_links_attach (m := m.reducing n r p id target))
      (h.reducing n r p id target).fromActive_attach
  | unknownLabel | unknownBottom | gap | unknownState => exact absurd hm (by simp [Progress.next?])

/-- A step goes on over the link of the next task, or over the link that it makes.  The actions of
a node whose turn it is are not taken over any link. -/
theorem nests_moves (h : Working table points m) (hm : Moves table config m m') :
    Nests m m' (m.agenda.head?.bind Task.through?) m.agenda.tail := by
  obtain ⟨p, hp, hnext⟩ := hm.works
  cases hp with
  | @task t agenda _ ha hp =>
    rw [ha]
    exact (h.tail ha).2.nests_performs hp hnext
  | @dispatch n queue _ ha hq hp =>
    rw [ha]
    cases hp with
    | nothing hi =>
      obtain rfl := Option.some.inj hnext
      exact nests_nil ha
    | items id hs =>
      obtain rfl := Option.some.inj hnext
      refine nests_of_through (congrArg (_ ++ ·) ha) fun t ht => ?_
      obtain ⟨item, -, rfl⟩ := List.mem_map.mp ht
      -- items that are taken for the first time are taken over no link
      cases item <;> exact ⟨fun l hl => absurd hl (by simp [ActionItem.task, Task.through?]),
        by simp [ActionItem.task]⟩
    | unknownState => exact absurd hnext (by simp [Progress.next?])
  | idle ha hq => exact absurd hnext (by simp [Progress.next?])

end Working

/-! ### The links over which tasks are taken -/

theorem Machine.FromActive.mono (h : m.FromActive l) (hg : m.graph.Extends m'.graph)
    (hlevel : m'.generation.level = m.generation.level) : m'.FromActive l := by
  obtain ⟨w, v, s, hl, hw⟩ := h
  exact ⟨w, v, s, hg.mem hl, by rw [hlevel]; exact hg.entry hw⟩

/-- Every task that follows on a link is taken over one that has been made at the current point. -/
theorem Reached.made (hx : Reached table config points ⟨.working, m⟩) (ht : t ∈ m.agenda)
    (hl : t.through? = some l) : Made table config points m l := by
  refine hx.working_induction (motive := fun m => ∀ t ∈ m.agenda, ∀ l, t.through? = some l →
    Made table config points m l) (fun m token cursor hm t ht => ?_)
    (fun m m' hm hmoves ih => ?_) t ht l hl
  -- at a new point nothing is on the agenda
  · rw [hm.agenda_read] at ht
    exact absurd ht List.not_mem_nil
  · have hold : ∀ t ∈ m.agenda, ∀ l, t.through? = some l → Made table config points m' l := by
      intro t ht l hl
      obtain ⟨m₁, m₂, h₁, hm₁, hr, hmade⟩ := ih t ht l hl
      exact ⟨m₁, m₂, h₁, hm₁, hr.tail hmoves, hmade⟩
    obtain ⟨new, hagenda, hnew, -⟩ := hm.working.nests_moves hmoves
    intro t ht l hl
    rw [hagenda] at ht
    rcases List.mem_append.mp ht with ht | ht
    · rcases hnew with hnew | ⟨hsize, hnew⟩
      -- the task comes from one that is taken over the same link
      · obtain ⟨t', ht', hl'⟩ := Option.bind_eq_some_iff.mp (hnew t ht l hl)
        exact hold t' (List.mem_of_mem_head? ht') l hl'
      -- the task follows on the link that the step makes
      · obtain rfl := hnew t ht l hl
        cases Moment.Ordered.joins (Reached.ordered hm) (.work hmoves) with
        | keep hs => exact absurd (hs.symm.trans hsize) (Nat.ne_of_lt (Nat.lt_succ_self _))
        | make w v s hw hv hfind hl hs =>
          exact ⟨m, m', hm, hmoves, .refl, rfl, w, v, s, hl, hw, hv, hfind⟩
    · exact hold t (List.mem_of_mem_tail ht) l hl

theorem Made.fromActive (h : Made table config points m l) : m.FromActive l := by
  obtain ⟨m₁, m₂, h₁, hm, hr, -, w, v, s, hl, hw, -, -⟩ := h
  have h₂ : m₂.FromActive l := ⟨w, v, s, hl, by rw [hm.frame.1]; exact hw⟩
  exact h₂.mono ((h₁.working.moves hm).extends_of_runs hr) (level_of_runs hr)

/-- The links of nested work lie in the order in which they have been made, the latest in front. -/
theorem Reached.nested (hx : Reached table config points ⟨.working, m⟩) :
    (m.agenda.filterMap Task.through?).Pairwise (· ≥ ·) := by
  refine hx.working_induction
    (motive := fun m => (m.agenda.filterMap Task.through?).Pairwise (· ≥ ·))
    (fun m token cursor hm => ?_) (fun m m' hm hmoves ih => ?_)
  · rw [hm.agenda_read]
    exact .nil
  · obtain ⟨new, hagenda, hnew, -⟩ := hm.working.nests_moves hmoves
    rw [hagenda, List.filterMap_append, List.pairwise_append]
    have hrest : (m.agenda.tail.filterMap Task.through?).Pairwise (· ≥ ·) :=
      ih.sublist ((List.tail_sublist _).filterMap _)
    -- the new tasks are all taken over one link, and it is no older than those behind
    have hlink : ∀ l ∈ new.filterMap Task.through?,
        (∀ k ∈ m.agenda.tail.filterMap Task.through?, k ≤ l) ∧
          ∀ k ∈ new.filterMap Task.through?, k = l := by
      intro l hl
      obtain ⟨t, ht, hl⟩ := List.mem_filterMap.mp hl
      rcases hnew with hnew | ⟨-, hnew⟩
      -- all come from the task that was next, and are taken over its link
      · obtain ⟨t', ht', hl'⟩ := Option.bind_eq_some_iff.mp (hnew t ht l hl)
        obtain ⟨agenda, ha⟩ := List.head?_eq_some_iff.mp ht'
        rw [ha, List.filterMap_cons_some hl', List.pairwise_cons] at ih
        refine ⟨fun k hk => ih.1 k (by rwa [ha, List.tail_cons] at hk), fun k hk => ?_⟩
        obtain ⟨u, hu, hk⟩ := List.mem_filterMap.mp hk
        exact Option.some.inj ((hnew u hu k hk).symm.trans (hnew t ht l hl))
      -- all follow on the new link, and there is none later
      · obtain rfl := hnew t ht l hl
        refine ⟨fun k hk => ?_, fun k hk => ?_⟩
        · obtain ⟨u, hu, hk⟩ := List.mem_filterMap.mp hk
          obtain ⟨w, v, s, hmem, -⟩ := (hm.made (List.mem_of_mem_tail hu) hk).fromActive
          exact Nat.le_of_lt (hm.working.roster.wf.link_lt hmem)
        · obtain ⟨u, hu, hk⟩ := List.mem_filterMap.mp hk
          exact hnew u hu k hk
    refine ⟨List.pairwise_of_forall_mem_list fun l hl k hk => ?_, hrest, fun l hl k hk => ?_⟩
    · exact Nat.le_of_eq ((hlink l hl).2 k hk)
    · exact (hlink l hl).1 k hk

/-- Work is nested no deeper than there are pairs of an active node and a node. -/
theorem Reached.card_through_le (hx : Reached table config points ⟨.working, m⟩) :
    (m.agenda.filterMap Task.through?).toFinset.card ≤
      table.states.length * m.graph.nodes.size := by
  refine hx.working.roster.card_links_le _ fun l hl => ?_
  obtain ⟨t, ht, hl⟩ := List.mem_filterMap.mp (List.mem_toFinset.mp hl)
  exact (hx.made ht hl).fromActive

/-- The links that are to be rejected leave active nodes. -/
theorem Reached.fromActive_of_reject (hx : Reached table config points ⟨.working, m⟩)
    {source target : StateId} (ht : .reject l source target ∈ m.agenda) : m.FromActive l := by
  refine hx.working_induction (motive := fun m => ∀ l source target,
    .reject l source target ∈ m.agenda → m.FromActive l) (fun m token cursor hm l _ _ ht => ?_)
    (fun m m' hm hmoves ih l source target ht => ?_) l source target ht
  · rw [hm.agenda_read] at ht
    exact absurd ht List.not_mem_nil
  · obtain ⟨new, hagenda, -, hnew⟩ := hm.working.nests_moves hmoves
    rw [hagenda] at ht
    rcases List.mem_append.mp ht with ht | ht
    · exact hnew l source target ht
    · exact (ih l source target (List.mem_of_mem_tail ht)).mono
        (hm.working.extends_of_moves hmoves) hmoves.frame.1

end ScannerlessLR
