/-
How the stack of a machine grows.

Reductions and shifts change the stack in one way only: the active node of a
state, added if there is none yet, gets a link down to a node.

* `Machine.attach` — that change;
* `Machine.join_eq`, `Machine.shiftNode_cases` — reductions and shifts come down to it;
* `Roster` — the nodes of a machine are in order, and the active ones are those of its level.
-/
import ScannerlessLR.Parser.Parse
import ScannerlessLR.Proofs.Stack.Walk

namespace ScannerlessLR

namespace Machine

/-- The active node of a state, or else the node that would become it. -/
def holder (m : Machine) (target : StateId) : NodeId :=
  (m.ensureActive target).1

/-- Links the active node of a state down to `bottom`, adding the active node if there is none. -/
def attach (m : Machine) (target : StateId) (bottom : NodeId) (tree : TreeId) : Machine :=
  { (m.ensureActive target).2 with
    graph := ((m.ensureActive target).2.graph.addLink (m.holder target) bottom tree).2 }

/-- What follows on a new link: the reductions of all processed nodes, over the link, and then its
rejection. -/
def followUps (m : Machine) (l : LinkId) (source target : StateId) (rejecting : Bool) : List Task :=
  m.generation.processed.map (Task.revisit · l) ++
    if rejecting then [Task.reject l source target] else []

variable {m : Machine} {target : StateId} {bottom n : NodeId} {tree : TreeId}

theorem ensureActive_of_some (h : m.generation.node? target = some n) :
    m.ensureActive target = (n, m) := by
  rw [ensureActive, h]

theorem ensureActive_of_none (h : m.generation.node? target = none) :
    m.ensureActive target = m.addActive target := by
  rw [ensureActive, h]

theorem holder_of_some (h : m.generation.node? target = some n) : m.holder target = n := by
  rw [holder, ensureActive_of_some h]

theorem holder_of_none (h : m.generation.node? target = none) :
    m.holder target = m.graph.nodes.size := by
  rw [holder, ensureActive_of_none h]
  rfl

theorem attach_of_some (h : m.generation.node? target = some n) :
    m.attach target bottom tree = { m with graph := (m.graph.addLink n bottom tree).2 } := by
  rw [attach, holder_of_some h, ensureActive_of_some h]

theorem attach_of_none (h : m.generation.node? target = none) :
    m.attach target bottom tree = { m with
      graph := ((m.graph.addNode target m.generation.level).2.addLink m.graph.nodes.size bottom
        tree).2
      generation := m.generation.activate target m.graph.nodes.size } := by
  rw [attach, holder_of_none h, ensureActive_of_none h]
  rfl

/-! ### What a new link leaves alone -/

section Frame

variable (m target bottom tree)

/-- Adding an active node changes nothing but the graph, the active nodes and the queue. -/
theorem ensureActive_frame : ∃ graph active queue, (m.ensureActive target).2 = { m with
    graph, generation := { m.generation with active, queue } } := by
  cases h : m.generation.node? target with
  | some n => exact ⟨_, _, _, congrArg Prod.snd (ensureActive_of_some h)⟩
  | none => exact ⟨_, _, _, congrArg Prod.snd (ensureActive_of_none h)⟩

theorem attach_frame : ∃ graph active queue, m.attach target bottom tree = { m with
    graph, generation := { m.generation with active, queue } } := by
  obtain ⟨graph, active, queue, h⟩ := m.ensureActive_frame target
  rw [attach, h]
  exact ⟨_, active, queue, rfl⟩

@[simp] theorem cursor_attach : (m.attach target bottom tree).cursor = m.cursor := by
  obtain ⟨_, _, _, h⟩ := m.attach_frame target bottom tree
  rw [h]

@[simp] theorem token_attach : (m.attach target bottom tree).token = m.token := by
  obtain ⟨_, _, _, h⟩ := m.attach_frame target bottom tree
  rw [h]

@[simp] theorem forest_attach : (m.attach target bottom tree).forest = m.forest := by
  obtain ⟨_, _, _, h⟩ := m.attach_frame target bottom tree
  rw [h]

@[simp] theorem agenda_attach : (m.attach target bottom tree).agenda = m.agenda := by
  obtain ⟨_, _, _, h⟩ := m.attach_frame target bottom tree
  rw [h]

@[simp] theorem accepting_attach : (m.attach target bottom tree).accepting = m.accepting := by
  obtain ⟨_, _, _, h⟩ := m.attach_frame target bottom tree
  rw [h]

@[simp] theorem events_attach : (m.attach target bottom tree).events = m.events := by
  obtain ⟨_, _, _, h⟩ := m.attach_frame target bottom tree
  rw [h]

@[simp] theorem level_attach :
    (m.attach target bottom tree).generation.level = m.generation.level := by
  obtain ⟨_, _, _, h⟩ := m.attach_frame target bottom tree
  rw [h]

@[simp] theorem processed_attach :
    (m.attach target bottom tree).generation.processed = m.generation.processed := by
  obtain ⟨_, _, _, h⟩ := m.attach_frame target bottom tree
  rw [h]

@[simp] theorem shifts_attach :
    (m.attach target bottom tree).generation.shifts = m.generation.shifts := by
  obtain ⟨_, _, _, h⟩ := m.attach_frame target bottom tree
  rw [h]

@[simp] theorem applied_attach :
    (m.attach target bottom tree).generation.applied = m.generation.applied := by
  obtain ⟨_, _, _, h⟩ := m.attach_frame target bottom tree
  rw [h]

variable {m}

/-- The link that is made depends on nothing but the graph, the active nodes and the level. -/
theorem holder_congr (m' : Machine) (ha : m'.generation.active = m.generation.active)
    (hg : m'.graph = m.graph) : m'.holder target = m.holder target := by
  have hn' : m'.generation.node? target = m.generation.node? target := by
    rw [Generation.node?, ha, Generation.node?]
  cases hn : m.generation.node? target with
  | some n => rw [holder_of_some hn, holder_of_some (hn'.trans hn)]
  | none => rw [holder_of_none hn, holder_of_none (hn'.trans hn), hg]

theorem graph_attach_congr (m' : Machine) (ha : m'.generation.active = m.generation.active)
    (hl : m'.generation.level = m.generation.level) (hg : m'.graph = m.graph) :
    (m'.attach target bottom tree).graph = (m.attach target bottom tree).graph := by
  have hn' : m'.generation.node? target = m.generation.node? target := by
    rw [Generation.node?, ha, Generation.node?]
  rw [attach, attach, holder_congr target m' ha hg]
  cases hn : m.generation.node? target with
  | some n => rw [ensureActive_of_some hn, ensureActive_of_some (hn'.trans hn), hg]
  | none =>
    rw [ensureActive_of_none hn, ensureActive_of_none (hn'.trans hn), addActive, addActive, hg, hl]

end Frame

/-! ### Reductions and shifts -/

/-- A node that is yet to come has no links. -/
theorem findLink?_size (g : StackGraph) (v : NodeId) : g.findLink? g.nodes.size v = none :=
  StackGraph.findLink?_eq_none_iff.mpr fun _ h =>
    absurd (StackGraph.lt_of_mem_linksFrom h) (Nat.lt_irrefl _)

theorem node?_of_findLink? {l : LinkId} (h : m.graph.findLink? (m.holder target) bottom = some l) :
    m.generation.node? target = some (m.holder target) := by
  cases hn : m.generation.node? target with
  | some n => rw [holder_of_some hn]
  | none =>
    rw [holder_of_none hn, findLink?_size] at h
    exact absurd h (by simp)

/-- A reduction along a path packs its tree into a link that is there, or else makes a new link. -/
theorem join_eq (m : Machine) (p : Path) (id target : StateId) (tree : TreeId)
    (rejecting : Bool) : m.join p id target tree rejecting =
      match m.graph.findLink? (m.holder target) p.bottom with
      | some l => .moved (m.pack l target id tree rejecting)
      | none => .linked ((m.attach target p.bottom tree).push
          (m.followUps m.graph.links.size target id rejecting)) := by
  rw [join]
  cases hn : m.generation.node? target with
  | none =>
    -- a new node has no links yet, so the link that is looked for is not there
    rw [holder_of_none hn, findLink?_size, attach, holder, ensureActive_of_none hn]
    rfl
  | some n =>
    rw [holder_of_some hn]
    simp only
    cases m.graph.findLink? n p.bottom with
    | none =>
      rw [attach, holder, ensureActive_of_some hn]
      rfl
    | some l => rfl

/-- A shift makes a new link, unless its source is rejected or the link is there. -/
theorem shiftNode_eq (leaf : TreeId) (m : Machine) (s : Shift) : shiftNode leaf m s =
    if m.graph.allRejected s.source then m
    else
      match m.graph.findLink? (m.holder s.target) s.source with
      | some _ => m
      | none => m.attach s.target s.source leaf := by
  rw [shiftNode]
  split
  · rfl
  · cases hn : m.generation.node? s.target with
    | none =>
      -- the link is looked for at the node that has just been added
      have hnew : (m.addActive s.target).2.graph.findLink? m.graph.nodes.size s.source = none := by
        rw [StackGraph.findLink?_eq_none_iff]
        intro l h
        rw [addActive, StackGraph.linksFrom_addNode] at h
        exact absurd (StackGraph.lt_of_mem_linksFrom h) (Nat.lt_irrefl _)
      rw [holder_of_none hn, findLink?_size, attach, holder, ensureActive_of_none hn]
      simp only
      rw [show (m.addActive s.target).1 = m.graph.nodes.size from rfl, hnew]
    | some n =>
      cases hf : m.graph.findLink? n s.source with
      | some l => simp only [holder_of_some hn, ensureActive_of_some hn, hf]
      | none => simp only [attach, holder, ensureActive_of_some hn, hf]

/-- A shift does nothing, or makes a link that is not there. -/
theorem shiftNode_cases (leaf : TreeId) (m : Machine) (s : Shift) : m.shiftNode leaf s = m ∨
    m.graph.findLink? (m.holder s.target) s.source = none ∧
      m.shiftNode leaf s = m.attach s.target s.source leaf := by
  rw [shiftNode_eq]
  split
  · exact .inl rfl
  · cases hf : m.graph.findLink? (m.holder s.target) s.source with
    | some l => exact .inl rfl
    | none => exact .inr ⟨rfl, rfl⟩

@[simp] theorem forest_shiftNode (leaf : TreeId) (m : Machine) (s : Shift) :
    (m.shiftNode leaf s).forest = m.forest := by
  rcases m.shiftNode_cases leaf s with heq | ⟨-, heq⟩ <;> rw [heq]
  exact forest_attach ..

@[simp] theorem accepting_shiftNode (leaf : TreeId) (m : Machine) (s : Shift) :
    (m.shiftNode leaf s).accepting = m.accepting := by
  rcases m.shiftNode_cases leaf s with heq | ⟨-, heq⟩ <;> rw [heq]
  exact accepting_attach ..

@[simp] theorem token_shiftNode (leaf : TreeId) (m : Machine) (s : Shift) :
    (m.shiftNode leaf s).token = m.token := by
  rcases m.shiftNode_cases leaf s with heq | ⟨-, heq⟩ <;> rw [heq]
  exact token_attach ..

@[simp] theorem events_shiftNode (leaf : TreeId) (m : Machine) (s : Shift) :
    (m.shiftNode leaf s).events = m.events := by
  rcases m.shiftNode_cases leaf s with heq | ⟨-, heq⟩ <;> rw [heq]
  exact events_attach ..

@[simp] theorem level_shiftNode (leaf : TreeId) (m : Machine) (s : Shift) :
    (m.shiftNode leaf s).generation.level = m.generation.level := by
  rcases m.shiftNode_cases leaf s with heq | ⟨-, heq⟩ <;> rw [heq]
  exact level_attach ..

end Machine

/-! ### The nodes of a machine -/

/-- The nodes of a machine are in order: each is of a state of the table and no higher than the
current level, and stands on the root, and the active ones are those of the current level. -/
structure Roster (table : Table) (g : StackGraph) (level : ℕ) (active : List (StateId × NodeId)) :
    Prop where
  wf : g.WellFormed
  root : g.entryAt? rootNode = some ⟨table.start, 0⟩
  rooted : ∀ {n}, n < g.nodes.size → ∃ ls, g.Walk n ls rootNode
  known : ∀ {n e}, g.entryAt? n = some e → ∃ s, table.state? e.state = some s
  level_le : ∀ {n e}, g.entryAt? n = some e → e.position ≤ level
  lookup_iff : ∀ {s n}, active.lookup s = some n ↔ g.entryAt? n = some ⟨s, level⟩

namespace Machine

variable {table : Table} {m : Machine} {target : StateId} {bottom n w v : NodeId} {l : LinkId}
  {tree : TreeId}

theorem extends_ensureActive (m : Machine) (target : StateId) :
    m.graph.Extends (m.ensureActive target).2.graph := by
  cases hn : m.generation.node? target with
  | some n =>
    rw [ensureActive_of_some hn]
    exact .refl _
  | none =>
    rw [ensureActive_of_none hn]
    exact StackGraph.extends_addNode ..

theorem linksFrom_ensureActive (m : Machine) (target : StateId) (w : NodeId) :
    (m.ensureActive target).2.graph.linksFrom w = m.graph.linksFrom w := by
  cases hn : m.generation.node? target with
  | some n => rw [ensureActive_of_some hn]
  | none =>
    rw [ensureActive_of_none hn]
    exact StackGraph.linksFrom_addNode ..

theorem links_ensureActive (m : Machine) (target : StateId) :
    (m.ensureActive target).2.graph.links = m.graph.links := by
  cases hn : m.generation.node? target with
  | some n => rw [ensureActive_of_some hn]
  | none =>
    rw [ensureActive_of_none hn]
    rfl

section Roster

variable (hR : Roster table m.graph m.generation.level m.generation.active)
include hR

theorem entryAt?_ensureActive (x : NodeId) : (m.ensureActive target).2.graph.entryAt? x =
    if x = m.holder target then some ⟨target, m.generation.level⟩ else m.graph.entryAt? x := by
  cases hn : m.generation.node? target with
  | some n =>
    -- an active node is in the graph already
    rw [ensureActive_of_some hn, holder_of_some hn]
    split
    · subst x
      exact hR.lookup_iff.mp hn
    · rfl
  | none =>
    rw [ensureActive_of_none hn, holder_of_none hn]
    exact StackGraph.entryAt?_addNode ..

theorem holder_lt : m.holder target < (m.ensureActive target).2.graph.nodes.size := by
  apply StackGraph.lt_of_entryAt? (e := ⟨target, m.generation.level⟩)
  rw [entryAt?_ensureActive hR, if_pos rfl]

theorem wf_ensureActive : (m.ensureActive target).2.graph.WellFormed := by
  cases hn : m.generation.node? target with
  | some n =>
    rw [ensureActive_of_some hn]
    exact hR.wf
  | none =>
    rw [ensureActive_of_none hn]
    exact hR.wf.addNode ..

theorem extends_attach : m.graph.Extends (m.attach target bottom tree).graph :=
  (extends_ensureActive m target).trans (StackGraph.extends_addLink (holder_lt hR) bottom tree)

/-- The nodes after a link has been made: the old ones and the one that the link leaves. -/
theorem entryAt?_attach (x : NodeId) : (m.attach target bottom tree).graph.entryAt? x =
    if x = m.holder target then some ⟨target, m.generation.level⟩ else m.graph.entryAt? x := by
  rw [← entryAt?_ensureActive hR]
  exact StackGraph.entryAt?_addLink ..

theorem entryAt?_holder : (m.attach target bottom tree).graph.entryAt? (m.holder target) =
    some ⟨target, m.generation.level⟩ := by
  rw [entryAt?_attach hR, if_pos rfl]

/-- The links after one has been made: the new one and the old ones. -/
theorem mem_linksFrom_attach : (l, v) ∈ (m.attach target bottom tree).graph.linksFrom w ↔
    w = m.holder target ∧ l = m.graph.links.size ∧ v = bottom ∨ (l, v) ∈ m.graph.linksFrom w := by
  rw [← linksFrom_ensureActive m target w, ← links_ensureActive m target]
  exact StackGraph.mem_linksFrom_addLink (holder_lt hR)

omit hR in
@[simp] theorem size_links_attach : (m.attach target bottom tree).graph.links.size =
    m.graph.links.size + 1 := by
  rw [← links_ensureActive m target]
  exact StackGraph.size_links_addLink ..

omit hR in
theorem tree?_attach (l : LinkId) : (m.attach target bottom tree).graph.tree? l =
    if l = m.graph.links.size then some tree else m.graph.tree? l := by
  have hl : (m.ensureActive target).2.graph.tree? l = m.graph.tree? l := by
    rw [StackGraph.tree?, links_ensureActive]
    rfl
  rw [← links_ensureActive m target, ← hl]
  exact StackGraph.tree?_addLink ..

omit hR in
/-- The trees of the links after one has been made: that of the new link and the old ones. -/
theorem tree?_attach_eq_some {t : TreeId}
    (h : (m.attach target bottom tree).graph.tree? l = some t) :
    l = m.graph.links.size ∧ t = tree ∨ m.graph.tree? l = some t := by
  rw [tree?_attach] at h
  split at h
  · exact .inl ⟨‹_›, (Option.some.inj h).symm⟩
  · exact .inr h

omit hR in
theorem isRejected_attach (l : LinkId) :
    (m.attach target bottom tree).graph.isRejected l = m.graph.isRejected l := by
  have hl : (m.ensureActive target).2.graph.isRejected l = m.graph.isRejected l := by
    rw [StackGraph.isRejected, links_ensureActive]
    rfl
  rw [← hl]
  exact StackGraph.isRejected_addLink ..

/-- The node that a new link leaves is of the current level. -/
theorem ne_holder_of_lt {x : NodeId} {e : Entry} (he : m.graph.entryAt? x = some e)
    (hlt : e.position < m.generation.level) : x ≠ m.holder target := by
  rintro rfl
  have he' := (extends_ensureActive m target).entry he
  -- an old node that is the holder has the current level
  rw [entryAt?_ensureActive hR, if_pos rfl] at he'
  exact absurd hlt (by rw [← Option.some.inj he']; exact Nat.lt_irrefl _)

omit hR in
theorem linksFrom_attach_of_ne {x : NodeId} (hx : x ≠ m.holder target) :
    (m.attach target bottom tree).graph.linksFrom x = m.graph.linksFrom x := by
  rw [attach, StackGraph.linksFrom_addLink_of_ne _ _ _ hx, linksFrom_ensureActive]

/-- A walk that does not take the new link is an old walk. -/
theorem walk_of_attach {u : NodeId} {ls : List LinkId}
    (h : (m.attach target bottom tree).graph.Walk u ls v) (hl : m.graph.links.size ∉ ls) :
    m.graph.Walk u ls v := by
  rw [← links_ensureActive m target] at hl
  have hw := StackGraph.Walk.of_addLink (holder_lt hR) h hl
  cases hn : m.generation.node? target with
  | some n => rwa [ensureActive_of_some hn] at hw
  | none =>
    rw [ensureActive_of_none hn] at hw
    exact StackGraph.walk_addNode_iff.mp hw

omit hR in
theorem lookup_attach (s : StateId) : (m.attach target bottom tree).generation.active.lookup s =
    if s = target then some (m.holder target) else m.generation.active.lookup s := by
  show (m.ensureActive target).2.generation.active.lookup s = _
  cases hn : m.generation.node? target with
  | some n =>
    rw [ensureActive_of_some hn, holder_of_some hn]
    split
    · subst s
      exact hn
    · rfl
  | none =>
    rw [ensureActive_of_none hn, holder_of_none hn]
    show List.lookup s ((target, m.graph.nodes.size) :: m.generation.active) = _
    by_cases hs : s = target
    · rw [if_pos hs, hs, List.lookup_cons_self]
    · rw [if_neg hs, List.lookup_cons, beq_false_of_ne hs]

omit hR in
theorem mem_queue_attach (x : NodeId) : x ∈ (m.attach target bottom tree).generation.queue ↔
    x ∈ m.generation.queue ∨ x = m.holder target ∧ m.generation.node? target = none := by
  show x ∈ (m.ensureActive target).2.generation.queue ↔ _
  cases hn : m.generation.node? target with
  | some n =>
    rw [ensureActive_of_some hn]
    simp
  | none =>
    rw [ensureActive_of_none hn, holder_of_none hn]
    simp [addActive, Generation.activate, StackGraph.addNode]

/-- The active nodes after a link has been made. -/
theorem lookup_attach_iff {s : StateId} {x : NodeId} :
    (m.attach target bottom tree).generation.active.lookup s = some x ↔
      (m.attach target bottom tree).graph.entryAt? x = some ⟨s, m.generation.level⟩ := by
  rw [lookup_attach, entryAt?_attach hR]
  by_cases hs : s = target
  · subst hs
    rw [if_pos rfl, Option.some.injEq]
    by_cases hx : x = m.holder s
    · simp [hx]
    · rw [if_neg hx]
      refine ⟨fun h => absurd h.symm hx, fun h => ?_⟩
      rw [← holder_of_some (hR.lookup_iff.mpr h)]
  · rw [if_neg hs, hR.lookup_iff]
    by_cases hx : x = m.holder target
    -- the holder is of the state `target`, before and after
    · rw [if_pos hx]
      constructor
      · intro h
        have h' := (extends_ensureActive m target).entry h
        rw [entryAt?_ensureActive hR, if_pos hx] at h'
        exact h'
      · intro h
        have := congrArg Entry.state (Option.some.inj h)
        exact absurd this.symm hs
    · rw [if_neg hx]

/-- Making a link adds no second node of a state and a level. -/
theorem entry_unique_attach (h : ∀ n n' e, m.graph.entryAt? n = some e →
    m.graph.entryAt? n' = some e → n = n') {x y : NodeId} {e : Entry}
    (hx : (m.attach target bottom tree).graph.entryAt? x = some e)
    (hy : (m.attach target bottom tree).graph.entryAt? y = some e) : x = y := by
  have hold : ∀ {z}, m.graph.entryAt? z = some ⟨target, m.generation.level⟩ → m.holder target = z :=
    fun hz => holder_of_some (hR.lookup_iff.mpr hz)
  rw [entryAt?_attach hR] at hx hy
  split at hx <;> split at hy
  · rename_i hxh hyh
    rw [hxh, hyh]
  -- an old node of the state and the level is the holder itself
  · rename_i hxh _
    obtain rfl := Option.some.inj hx
    rw [hxh, hold hy]
  · rename_i _ hyh
    obtain rfl := Option.some.inj hy
    rw [hyh, hold hx]
  · exact h x y e hx hy

/-- Making a link keeps the nodes in order. -/
theorem roster_attach (hb : bottom < m.graph.nodes.size)
    (ht : ∃ s, table.state? target = some s)
    (hnew : m.graph.findLink? (m.holder target) bottom = none) :
    Roster table (m.attach target bottom tree).graph m.generation.level
      (m.attach target bottom tree).generation.active where
  wf := by
    refine (wf_ensureActive hR).addLink (holder_lt hR) ?_ ?_ ?_ tree
    · obtain ⟨e, he⟩ := StackGraph.exists_entryAt? hb
      exact StackGraph.lt_of_entryAt? ((extends_ensureActive m target).entry he)
    · rw [StackGraph.findLink?, linksFrom_ensureActive]
      exact hnew
    -- the holder is of the current level, and no node is above that
    · intro e f he hf
      rw [entryAt?_ensureActive hR, if_pos rfl, Option.some.injEq] at he
      obtain ⟨d, hd⟩ := StackGraph.exists_entryAt? hb
      rw [(extends_ensureActive m target).entry hd, Option.some.injEq] at hf
      subst he hf
      exact hR.level_le hd
  root := (extends_attach hR).entry hR.root
  rooted := by
    intro x hx
    obtain ⟨e, he⟩ := StackGraph.exists_entryAt? hx
    rw [entryAt?_attach hR] at he
    -- a new node stands on what the node stands on that its link leads to
    by_cases hxn : x = m.holder target
    · subst hxn
      obtain ⟨ls, hw⟩ := hR.rooted hb
      refine ⟨m.graph.links.size :: ls, .cons ?_ (hw.mono (extends_attach hR))⟩
      exact (mem_linksFrom_attach hR).mpr (.inl ⟨rfl, rfl, rfl⟩)
    · rw [if_neg hxn] at he
      obtain ⟨ls, hw⟩ := hR.rooted (StackGraph.lt_of_entryAt? he)
      exact ⟨ls, hw.mono (extends_attach hR)⟩
  known := by
    intro x e he
    rw [entryAt?_attach hR] at he
    split at he
    · obtain rfl := Option.some.inj he
      exact ht
    · exact hR.known he
  level_le := by
    intro x e he
    rw [entryAt?_attach hR] at he
    split at he
    · obtain rfl := Option.some.inj he
      exact Nat.le_refl _
    · exact hR.level_le he
  lookup_iff := lookup_attach_iff hR

end Roster

end Machine

end ScannerlessLR
