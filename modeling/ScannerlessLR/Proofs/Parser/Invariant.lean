/-
What holds of a machine while it works on a point of the input.

* `Application.Enabled` — a reduction along a path that the actions of its node call for;
* `Task.Sound` — a task is about processed nodes, and their actions call for it;
* `Working`, `Between` — the invariants of a machine at work and in front of a point;
* `Working.moves` — every step keeps a machine at work in order;
* `Changes`, `Working.changes` — what a step does to the graph and the forest.
-/
import Mathlib.Tactic.Set
import ScannerlessLR.Proofs.Parser.Step

namespace ScannerlessLR

namespace StackGraph

variable (table : Table) (points : Array UInt32) (g : StackGraph) (n : NodeId)

/-- The state of a node has an action item for the point at the node's level. -/
def Offers (item : ActionItem) : Prop :=
  ∃ e, g.entryAt? n = some e ∧ table.Offers points e.state e.position item

/-- The state of a node calls for a reduction at the node's level. -/
def Calls (r : Reduction) : Prop :=
  ∃ e, g.entryAt? n = some e ∧ table.Calls points e.state e.position r

variable {table points g n} {g' : StackGraph}

theorem Offers.mono (hg : g.Extends g') {item : ActionItem} (h : g.Offers table points n item) :
    g'.Offers table points n item := by
  obtain ⟨e, he, ho⟩ := h
  exact ⟨e, hg.entry he, ho⟩

theorem Calls.mono (hg : g.Extends g') {r : Reduction} (h : g.Calls table points n r) :
    g'.Calls table points n r := by
  obtain ⟨e, he, hc⟩ := h
  exact ⟨e, hg.entry he, hc⟩

end StackGraph

/-- A reduction along a path is enabled: its node calls for it, and the path is a walk of the
right length. -/
structure Application.Enabled (table : Table) (points : Array UInt32) (g : StackGraph)
    (a : Application) (v : NodeId) : Prop where
  calls : g.Calls table points a.node a.reduction
  parses : table.Parses a.reduction.label
  walk : g.Walk a.node a.links v
  length_eq : a.links.length = a.reduction.arity

theorem Application.Enabled.mono {table : Table} {points : Array UInt32} {g g' : StackGraph}
    {a : Application} {v : NodeId} (hg : g.Extends g') (h : a.Enabled table points g v) :
    a.Enabled table points g' v where
  calls := h.calls.mono hg
  parses := h.parses
  walk := h.walk.mono hg
  length_eq := h.length_eq

/-- A task is about processed nodes, and their actions call for it. -/
def Task.Sound (table : Table) (points : Array UInt32) (g : StackGraph) (processed : List NodeId) :
    Task → Prop
  | .accept n _ => n ∈ processed ∧ g.Offers table points n .accept
  | .shift n target => n ∈ processed ∧ g.Offers table points n (.shift target)
  | .check n r forbidden _ => n ∈ processed ∧ g.Offers table points n (.reduceUnless r forbidden)
  | .reduce n r _ => n ∈ processed ∧ g.Calls table points n r
  | .apply n r rejecting p => n ∈ processed ∧ g.Calls table points n r ∧ table.Parses r.label ∧
      (rejecting = true → table.Rejects r) ∧ g.Walk n p.links p.bottom ∧
      p.links.length = r.arity
  | .revisit n _ => n ∈ processed
  | .reject _ _ _ => ∃ n r, g.Calls table points n r ∧ table.Rejects r

theorem Task.Sound.mono {table : Table} {points : Array UInt32} {g g' : StackGraph}
    {processed processed' : List NodeId} {t : Task} (hg : g.Extends g')
    (hp : ∀ n ∈ processed, n ∈ processed') (h : t.Sound table points g processed) :
    t.Sound table points g' processed' := by
  cases t with
  | accept n id => exact ⟨hp n h.1, h.2.mono hg⟩
  | shift n target => exact ⟨hp n h.1, h.2.mono hg⟩
  | check n r forbidden through => exact ⟨hp n h.1, h.2.mono hg⟩
  | reduce n r through => exact ⟨hp n h.1, h.2.mono hg⟩
  | apply n r rejecting p =>
    obtain ⟨hn, hc, hl, hr, hw, hlen⟩ := h
    exact ⟨hp n hn, hc.mono hg, hl, hr, hw.mono hg, hlen⟩
  | revisit n l => exact hp n h
  | reject l source target =>
    obtain ⟨n, r, hc, hr⟩ := h
    exact ⟨n, r, hc.mono hg, hr⟩

/-- What holds of a machine at any time. -/
structure Steady (table : Table) (points : Array UInt32) (m : Machine) : Prop where
  roster : Roster table m.graph m.generation.level m.generation.active
  /-- The active nodes are those that have been processed and those in the queue. -/
  staff : ∀ n, n ∈ m.generation.processed ∨ n ∈ m.generation.queue ↔
    ∃ s, m.graph.entryAt? n = some ⟨s, m.generation.level⟩
  tasks : ∀ t ∈ m.agenda, t.Sound table points m.graph m.generation.processed
  shifts : ∀ s ∈ m.generation.shifts, s.source ∈ m.generation.processed ∧
    m.graph.Offers table points s.source (.shift s.target)
  accepting : ∀ n, m.accepting = some n → m.graph.Offers table points n .accept

/-- What holds of a machine while it works on the point at its level. -/
structure Working (table : Table) (points : Array UInt32) (m : Machine) : Prop
    extends Steady table points m where
  cursor : m.cursor = ⟨points, m.generation.level + 1⟩
  token : points[m.generation.level]? = some m.token

/-- What holds of a machine in front of the point at its level. -/
structure Between (table : Table) (points : Array UInt32) (m : Machine) : Prop
    extends Steady table points m where
  cursor : m.cursor = ⟨points, m.generation.level⟩
  agenda : m.agenda = []
  processed : m.generation.processed = []
  due : m.generation.shifts = []
  applied : m.generation.applied = []

open Machine

variable {table : Table} {points : Array UInt32} {config : Config} {m m' : Machine} {n : NodeId}

/-- Making a link keeps a machine in order. -/
theorem Steady.attach (h : Steady table points m) {target : StateId} {bottom : NodeId}
    (hb : bottom < m.graph.nodes.size) (ht : ∃ s, table.state? target = some s)
    (hnew : m.graph.findLink? (m.holder target) bottom = none) (tree : TreeId) :
    Steady table points (m.attach target bottom tree) where
  roster := by
    rw [level_attach]
    exact roster_attach h.roster hb ht hnew
  -- a node that is new is put in the queue
  staff := by
    intro x
    rw [processed_attach, mem_queue_attach, level_attach, ← or_assoc, h.staff]
    constructor
    · rintro (⟨s, hs⟩ | ⟨rfl, -⟩)
      · exact ⟨s, (extends_attach h.roster).entry hs⟩
      · exact ⟨target, entryAt?_holder h.roster⟩
    · rintro ⟨s, hs⟩
      rw [entryAt?_attach h.roster] at hs
      split at hs
      · rename_i hx
        cases hn : m.generation.node? target with
        | none => exact .inr ⟨hx, rfl⟩
        | some y =>
          rw [holder_of_some hn] at hx
          subst hx
          exact .inl ⟨target, h.roster.lookup_iff.mp hn⟩
      · exact .inl ⟨s, hs⟩
  tasks := by
    intro t ht
    rw [agenda_attach] at ht
    rw [processed_attach]
    exact (h.tasks t ht).mono (extends_attach h.roster) fun _ => id
  shifts := by
    intro s hs
    rw [shifts_attach] at hs
    rw [processed_attach]
    exact ⟨(h.shifts s hs).1, (h.shifts s hs).2.mono (extends_attach h.roster)⟩
  accepting := by
    intro x hx
    rw [accepting_attach] at hx
    exact (h.accepting x hx).mono (extends_attach h.roster)

theorem Between.attach (h : Between table points m) {target : StateId} {bottom : NodeId}
    (hb : bottom < m.graph.nodes.size) (ht : ∃ s, table.state? target = some s)
    (hnew : m.graph.findLink? (m.holder target) bottom = none) (tree : TreeId) :
    Between table points (m.attach target bottom tree) where
  toSteady := h.toSteady.attach hb ht hnew tree
  cursor := by
    rw [cursor_attach, level_attach]
    exact h.cursor
  agenda := by
    rw [agenda_attach]
    exact h.agenda
  processed := by
    rw [processed_attach]
    exact h.processed
  due := by
    rw [shifts_attach]
    exact h.due
  applied := by
    rw [applied_attach]
    exact h.applied

namespace Working

theorem entry_of_processed (h : Working table points m) (hn : n ∈ m.generation.processed) :
    ∃ s, m.graph.entryAt? n = some ⟨s, m.generation.level⟩ :=
  (h.staff n).mp (.inl hn)

/-- The items of a node of the current level are what its state offers. -/
theorem offers_iff (h : Working table points m) (hn : n ∈ m.generation.processed)
    {item : ActionItem} : m.graph.Offers table points n item ↔
      item ∈ itemsOf table m.token m.graph n := by
  obtain ⟨s, he⟩ := h.entry_of_processed hn
  rw [itemsOf_eq he]
  constructor
  · rintro ⟨e, he', point, hp, hi⟩
    obtain rfl := Option.some.inj (he.symm.trans he')
    obtain rfl := Option.some.inj (h.token.symm.trans hp)
    exact hi
  · intro hi
    exact ⟨_, he, m.token, h.token, hi⟩

/-- The follow restrictions of an item are checked behind the current point. -/
theorem permitted_iff (h : Working table points m) {forbidden : List RangeSet} :
    (m.cursor.checkFollow forbidden).permitted = true ↔
      FollowPermits points m.generation.level forbidden := by
  rw [Cursor.permitted_checkFollow_iff, h.cursor]
  rfl

theorem push (h : Working table points m) {ts : List Task}
    (hts : ∀ t ∈ ts, t.Sound table points m.graph m.generation.processed) :
    Working table points (m.push ts) :=
  { h with
    tasks := by
      intro t ht
      rcases List.mem_append.mp ht with ht | ht
      · exact hts t ht
      · exact h.tasks t ht }

theorem record (h : Working table points m) (e : Event) : Working table points (m.record e) :=
  { h with }

/-- The next task is sound, and without it the machine is still in order. -/
theorem tail (h : Working table points m) {t : Task} {agenda : List Task}
    (ha : m.agenda = t :: agenda) : t.Sound table points m.graph m.generation.processed ∧
      Working table points { m with agenda } := by
  refine ⟨h.tasks t (by rw [ha]; exact List.mem_cons_self), { h with tasks := ?_ }⟩
  intro t' ht'
  exact h.tasks t' (by rw [ha]; exact List.mem_cons_of_mem _ ht')

/-- Making a link keeps the invariant. -/
theorem attach (h : Working table points m) {target : StateId} {bottom : NodeId}
    (hb : bottom < m.graph.nodes.size) (ht : ∃ s, table.state? target = some s)
    (hnew : m.graph.findLink? (m.holder target) bottom = none) (tree : TreeId) :
    Working table points (m.attach target bottom tree) where
  toSteady := h.toSteady.attach hb ht hnew tree
  cursor := by
    rw [cursor_attach, level_attach]
    exact h.cursor
  token := by
    rw [token_attach, level_attach]
    exact h.token

theorem sound_reductionTask (h : Working table points m) (hn : n ∈ m.generation.processed)
    {item : ActionItem} (hi : item ∈ itemsOf table m.token m.graph n) {through : Option LinkId}
    {t : Task} (ht : item.reductionTask? n through = some t) :
    t.Sound table points m.graph m.generation.processed := by
  obtain ⟨e, he, ho⟩ := (h.offers_iff hn).mpr hi
  rcases ActionItem.reductionTask?_cases ht with ⟨r, rfl, rfl⟩ | ⟨r, forbidden, rfl, rfl⟩
  · exact ⟨hn, e, he, .reduce r, ho, rfl⟩
  · exact ⟨hn, e, he, ho⟩

theorem sound_task (h : Working table points m) (hn : n ∈ m.generation.processed)
    {item : ActionItem} (hi : item ∈ itemsOf table m.token m.graph n) (id : StateId) :
    (item.task n id).Sound table points m.graph m.generation.processed := by
  obtain ⟨e, he, ho⟩ := (h.offers_iff hn).mpr hi
  cases item with
  | accept => exact ⟨hn, e, he, ho⟩
  | shift target => exact ⟨hn, e, he, ho⟩
  | reduce | reduceUnless => exact h.sound_reductionTask hn hi rfl

/-- A follow restriction that holds lets its reduction through. -/
theorem check (h : Working table points m) {r : Reduction} {forbidden : List RangeSet}
    {through : Option LinkId}
    (ht : (Task.check n r forbidden through).Sound table points m.graph m.generation.processed) :
    Working table points (m.check n r forbidden through) := by
  refine push (m := Machine.record { m with cursor := _ } _) ?_ ?_
  · exact { h with cursor := (Cursor.cursor_checkFollow m.cursor forbidden).trans h.cursor }
  · intro t hmem
    split at hmem
    · rename_i hp
      obtain rfl := List.mem_singleton.mp hmem
      obtain ⟨hn, e, he, ho⟩ := ht
      obtain ⟨s, hs⟩ := h.entry_of_processed hn
      obtain rfl := Option.some.inj (hs.symm.trans he)
      exact ⟨hn, _, he, _, ho, rfl, h.permitted_iff.mp hp⟩
    · exact absurd hmem List.not_mem_nil

/-- The paths of a reduction are walks that it can be applied along. -/
theorem sound_applications {r : Reduction} {through : Option LinkId}
    (ht : (Task.reduce n r through).Sound table points m.graph m.generation.processed)
    {l : Label} (hl : table.label? r.label = some l) (hu : l.isUnsupported = false) :
    ∀ t ∈ m.applications n r (rejects r l) through,
      t.Sound table points m.graph m.generation.processed := by
  intro t hmem
  obtain ⟨p, hp, rfl⟩ := List.mem_map.mp hmem
  obtain ⟨hw, hlen⟩ := StackGraph.mem_paths_iff.mp (List.mem_filter.mp hp).1
  refine ⟨ht.1, ht.2, ⟨l, hl, hu⟩, fun hrej => ⟨l, hl, ?_⟩, hw, hlen⟩
  simpa [rejects] using hrej

/-- The rejection of the link of a reduction is one that the table asks for. -/
theorem sound_rejection {r : Reduction} {rejecting : Bool} {g : StackGraph}
    (hg : m.graph.Extends g) (hc : m.graph.Calls table points n r)
    (hrej : rejecting = true → table.Rejects r) {l : LinkId} {target id : StateId} :
    ∀ t ∈ (if rejecting then [Task.reject l target id] else []),
      t.Sound table points g m.generation.processed := by
  intro t ht
  split at ht
  · rename_i hr
    obtain rfl := List.mem_singleton.mp ht
    exact ⟨n, r, hc.mono hg, hrej hr⟩
  · exact absurd ht List.not_mem_nil

/-- The walk of a reduction ends in a node of the graph. -/
theorem bottom_lt (h : Working table points m) {r : Reduction} {rejecting : Bool} {p : Path}
    (ht : (Task.apply n r rejecting p).Sound table points m.graph m.generation.processed) :
    p.bottom < m.graph.nodes.size := by
  obtain ⟨hn, -, -, -, hw, -⟩ := ht
  obtain ⟨s, hs⟩ := h.entry_of_processed hn
  exact hw.lt_size h.roster.wf (StackGraph.lt_of_entryAt? hs)

/-- No path of a reduction is lost, as it ends in a node that is there. -/
theorem state?_bottom_ne_none (h : Working table points m) {r : Reduction} {rejecting : Bool}
    {p : Path} (ht : (Task.apply n r rejecting p).Sound table points m.graph m.generation.processed) :
    m.graph.state? p.bottom ≠ none := by
  obtain ⟨e, he⟩ := StackGraph.exists_entryAt? (h.bottom_lt ht)
  rw [StackGraph.state?_of_entryAt? he]
  exact Option.some_ne_none _

/-- A machine with the tree of a reduction is in order if the machine was. -/
theorem reducing (h : Working table points m) (n : NodeId) (r : Reduction) (p : Path)
    (id target : StateId) : Working table points (m.reducing n r p id target) :=
  { h with }

/-- Rejecting a link keeps the invariant: it leaves all nodes and walks alone. -/
theorem reject (h : Working table points m) (l : LinkId) :
    Working table points { m with graph := m.graph.reject l } := by
  have hg := StackGraph.extends_reject m.graph l
  exact {
    roster := { h.roster with
      wf := h.roster.wf.reject l
      rooted := by
        intro x hx
        obtain ⟨ls, hw⟩ := h.roster.rooted hx
        exact ⟨ls, hw.mono hg⟩ }
    cursor := h.cursor
    token := h.token
    staff := h.staff
    tasks := fun t ht => (h.tasks t ht).mono hg fun _ => id
    shifts := h.shifts
    accepting := h.accepting }

/-- Every task keeps the invariant. -/
theorem performs (h : Working table points m) {t : Task} {p : Progress}
    (ht : t.Sound table points m.graph m.generation.processed)
    (hp : Performs table config m t p) (hm : p.next? = some m') : Working table points m' := by
  cases hp with
  | accept n id =>
    obtain rfl := Option.some.inj hm
    refine { h with accepting := ?_ }
    intro x hx
    obtain rfl := Option.some.inj hx
    exact ht.2
  | shift n target =>
    obtain rfl := Option.some.inj hm
    refine { h with shifts := ?_ }
    intro s hs
    -- the node of the shift has been processed, and offers it
    rcases List.mem_append.mp hs with hs | hs
    · exact h.shifts s hs
    · obtain rfl := List.mem_singleton.mp hs
      exact ht
  | check n r forbidden through =>
    obtain rfl := Option.some.inj hm
    exact h.check ht
  | skip n r through l hl hu =>
    obtain rfl := Option.some.inj hm
    exact h.record _
  | reduce n r through l hl hu =>
    obtain rfl := Option.some.inj hm
    exact h.push (sound_applications ht hl hu)
  | repeated n r rejecting p hd ha =>
    obtain rfl := Option.some.inj hm
    exact h
  | lost n r rejecting p hb =>
    obtain rfl := Option.some.inj hm
    exact { h with }
  | pack n r rejecting p id target l hd hb hg hf =>
    obtain rfl := Option.some.inj hm
    -- besides the reduction, only the forest changes and perhaps the agenda
    have h' := h.reducing n r p id target
    exact push (m := Machine.record { m.reducing n r p id target with forest := _ } _) { h' with }
      (sound_rejection (.refl _) ht.2.1 ht.2.2.2.1)
  | link n r rejecting p id target hd hb hg hf =>
    obtain rfl := Option.some.inj hm
    have h' := h.reducing n r p id target
    have hf' := holder_reducing m n r p id target target ▸ hf
    -- the follow-ups are about processed nodes, and about the reduction itself
    refine (h'.attach (h.bottom_lt ht) (Table.exists_state?_of_goto hg) hf' _).push ?_
    intro t hmem
    rw [processed_attach]
    rcases List.mem_append.mp hmem with hmem | hmem
    · obtain ⟨x, hx, rfl⟩ := List.mem_map.mp hmem
      exact hx
    · exact sound_rejection (m := m.reducing n r p id target) (extends_attach h'.roster) ht.2.1
        ht.2.2.2.1 t hmem
  | stop n l hr =>
    obtain rfl := Option.some.inj hm
    exact h
  | revisit n l hr =>
    obtain rfl := Option.some.inj hm
    -- the reductions of a node that has been processed are taken again
    refine h.push ?_
    intro t hmem
    obtain ⟨item, hi, hti⟩ := List.mem_filterMap.mp hmem
    exact h.sound_reductionTask ht hi hti
  | reject l source target =>
    obtain rfl := Option.some.inj hm
    exact (h.reject l).record _
  | unknownLabel | unknownBottom | gap | unknownState => exact absurd hm (by simp [Progress.next?])

/-- Taking a node off the queue keeps the invariant. -/
theorem taking (h : Working table points m) {queue : List NodeId} (ha : m.agenda = [])
    (hq : m.generation.queue = n :: queue) : Working table points (m.taking n queue) :=
  { h with
    staff := by
      intro x
      refine Iff.trans ?_ (h.staff x)
      rw [hq]
      simp only [Machine.taking, List.mem_append, List.mem_cons, List.not_mem_nil, or_false,
        or_assoc]
    tasks := by
      intro t ht
      rw [show (m.taking n queue).agenda = [] from ha] at ht
      exact absurd ht List.not_mem_nil
    shifts := by
      intro s hs
      exact ⟨List.mem_append_left _ (h.shifts s hs).1, (h.shifts s hs).2⟩ }

/-- Dispatching a node keeps the invariant. -/
theorem dispatches (h : Working table points m) {queue : List NodeId} {p : Progress}
    (ha : m.agenda = []) (hq : m.generation.queue = n :: queue)
    (hp : Dispatches table (m.taking n queue) n p) (hm : p.next? = some m') :
    Working table points m' := by
  have h' := h.taking ha hq
  cases hp with
  | nothing hi =>
    obtain rfl := Option.some.inj hm
    exact h'
  | items id hs =>
    obtain rfl := Option.some.inj hm
    refine (h'.record _).push ?_
    intro t ht
    obtain ⟨item, hi, rfl⟩ := List.mem_map.mp ht
    exact h'.sound_task (mem_processed_taking m n queue) (mem_itemsOf_of_mem_dueItems hi) id
  | unknownState => exact absurd hm (by simp [Progress.next?])

/-- Every step keeps the invariant. -/
theorem moves (h : Working table points m) (hm : Moves table config m m') :
    Working table points m' := by
  obtain ⟨p, hp, hm⟩ := hm.works
  cases hp with
  | task ha hp =>
    obtain ⟨ht, h'⟩ := h.tail ha
    exact h'.performs ht hp hm
  | dispatch ha hq hp => exact h.dispatches ha hq hp hm
  | idle ha hq => exact absurd hm (by simp [Progress.next?])

end Working

/-! ### What a step changes -/

/-- The reductions that a step applies: they are enabled and have their goto, and they are new if
none is to be applied twice. -/
structure Reducible (table : Table) (config : Config) (points : Array UInt32) (m : Machine)
    (a : Application) (v : NodeId) (target : StateId) : Prop where
  processed : a.node ∈ m.generation.processed
  enabled : a.Enabled table points m.graph v
  goto : ∃ f, m.graph.entryAt? v = some f ∧ table.gotoFrom? f.state a.reduction.label = some target
  fresh : config.deduplicate = true → a ∉ m.generation.applied

/-- What a step does to the graph, to the forest and to the reductions applied. -/
inductive Changes (table : Table) (config : Config) (points : Array UInt32) (m m' : Machine) : Prop
  | still (hg : m'.graph = m.graph) (hf : m'.forest = m.forest)
      (ha : m'.generation.applied = m.generation.applied)
  | reject (l : LinkId) (hr : ∃ n r, m.graph.Calls table points n r ∧ table.Rejects r)
      (hg : m'.graph = m.graph.reject l) (hf : m'.forest = m.forest)
      (ha : m'.generation.applied = m.generation.applied)
  | pack (a : Application) (v : NodeId) (target : StateId) (l : LinkId) (t : TreeId)
      (hr : Reducible table config points m a v target)
      (hl : m.graph.findLink? (m.holder target) v = some l) (ht : m.graph.tree? l = some t)
      (hg : m'.graph = m.graph) (hf : m'.forest = (m.build a).2.forest.pack t m.forest.size)
      (ha : m'.generation.applied = a :: m.generation.applied)
  | link (a : Application) (v : NodeId) (target : StateId)
      (hr : Reducible table config points m a v target)
      (hl : m.graph.findLink? (m.holder target) v = none)
      (hg : m'.graph = (m.attach target v m.forest.size).graph)
      (hf : m'.forest = (m.build a).2.forest)
      (ha : m'.generation.applied = a :: m.generation.applied)

namespace Working

/-- The reductions of sound tasks are enabled. -/
theorem reducible {r : Reduction} {rejecting : Bool} {p : Path} {id target : StateId}
    (ht : (Task.apply n r rejecting p).Sound table points m.graph m.generation.processed)
    (hb : m.graph.state? p.bottom = some id) (hg : table.gotoFrom? id r.label = some target)
    (hd : config.deduplicate = true → ⟨p.links, n, r⟩ ∉ m.generation.applied) :
    Reducible table config points m ⟨p.links, n, r⟩ p.bottom target := by
  obtain ⟨hn, hc, hl, -, hw, hlen⟩ := ht
  rw [StackGraph.state?_eq_entryAt?, Option.map_eq_some_iff] at hb
  obtain ⟨f, hb, rfl⟩ := hb
  exact ⟨hn, ⟨hc, hl, hw, hlen⟩, ⟨f, hb, hg⟩, hd⟩

theorem performs_changes (h : Working table points m) {t : Task} {p : Progress}
    (ht : t.Sound table points m.graph m.generation.processed)
    (hp : Performs table config m t p) (hm : p.next? = some m') :
    Changes table config points m m' := by
  cases hp with
  | accept | shift | check | skip | reduce | repeated | stop | revisit =>
    -- neither the graph nor the forest has to do with these tasks
    obtain rfl := Option.some.inj hm
    exact .still rfl rfl rfl
  | lost n r rejecting p hb => exact absurd hb (h.state?_bottom_ne_none ht)
  | reject l source target =>
    obtain rfl := Option.some.inj hm
    exact .reject l ht rfl rfl rfl
  | unknownLabel | unknownBottom | gap | unknownState => exact absurd hm (by simp [Progress.next?])
  | pack n r rejecting p id target l hd hb hg hf =>
    obtain rfl := Option.some.inj hm
    -- the link that is packed into has a tree
    obtain ⟨tree, htree⟩ := StackGraph.exists_tree?
      (h.roster.wf.link_lt (StackGraph.mem_of_findLink? hf))
    exact .pack ⟨p.links, n, r⟩ p.bottom target l tree (reducible ht hb hg hd) hf htree rfl
      (forest_pack (m := m.reducing n r p id target) htree) rfl
  | link n r rejecting p id target hd hb hg hf =>
    obtain rfl := Option.some.inj hm
    exact .link ⟨p.links, n, r⟩ p.bottom target (reducible ht hb hg hd) hf
      (graph_attach_congr target p.bottom _ (m.reducing n r p id target) rfl rfl rfl)
      (forest_attach _ target p.bottom m.forest.size)
      (applied_attach _ target p.bottom m.forest.size)

/-- A step leaves the graph as it is, rejects a link, or applies a reduction. -/
theorem changes (h : Working table points m) (hm : Moves table config m m') :
    Changes table config points m m' := by
  obtain ⟨p, hp, hm⟩ := hm.works
  cases hp with
  | @task t agenda _ ha hp =>
    obtain ⟨ht, h'⟩ := h.tail ha
    -- the task has been taken off the agenda, on which no link depends
    have hold : ∀ target, Machine.holder { m with agenda } target = m.holder target :=
      fun target => holder_congr target { m with agenda } rfl rfl
    cases h'.performs_changes ht hp hm with
    | still hg hf happ => exact .still hg hf happ
    | reject l hr hg hf happ => exact .reject l hr hg hf happ
    | pack a v target l t hr hl ht hg hf happ =>
      exact .pack a v target l t { hr with } (hold target ▸ hl) ht hg hf happ
    | link a v target hr hl hg hf happ =>
      refine .link a v target { hr with } (hold target ▸ hl) (hg.trans ?_) hf happ
      exact graph_attach_congr target v _ { m with agenda } rfl rfl rfl
  | dispatch ha hq hp =>
    cases hp with
    | nothing | items =>
      obtain rfl := Option.some.inj hm
      exact .still rfl rfl rfl
    | unknownState => exact absurd hm (by simp [Progress.next?])
  | idle ha hq => exact absurd hm (by simp [Progress.next?])

/-- A step only adds to the graph. -/
theorem extends_of_changes (h : Working table points m)
    (hc : Changes table config points m m') : m.graph.Extends m'.graph := by
  cases hc with
  | still hg => rw [hg]; exact .refl _
  | reject l hr hg => rw [hg]; exact StackGraph.extends_reject ..
  | pack a v target l t hr hl ht hg => rw [hg]; exact .refl _
  | link a v target hr hl hg => rw [hg]; exact extends_attach h.roster

theorem extends_of_moves (h : Working table points m) (hm : Moves table config m m') :
    m.graph.Extends m'.graph :=
  h.extends_of_changes (h.changes hm)

end Working

end ScannerlessLR
