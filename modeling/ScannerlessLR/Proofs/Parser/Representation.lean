/-
How a machine represents the stacks of a parse.

A node gets active when it is made, and waits in the queue for its turn.  No node waits
twice, and none comes back, so every node has one turn.  The active nodes are at any
time those that wait and those that have had their turn, one for each state, and so
there are no more nodes than states at each level.

* `LeadsTo` — the machines that a parse comes to, between its steps and within them;
* `Staffs`, `Next.staffs` — what a step does to the nodes and to the queue;
* `Reached.nodup` — no node is in the queue twice, or again;
* `Reached.takes_unique`, `Reached.existsUnique_takes` — every node has one turn;
* `Moment.Ordered.joins` — a link joins nodes that have not been joined;
* `represented_throughout` — the representation is in order whatever a parse comes to.
-/
import ScannerlessLR.Proofs.Parser.Contents

namespace ScannerlessLR

/-- The machines that a parse comes to from a moment on: those of the moments that follow, those
whose next node has been taken off the queue, and the one at which a step has failed. -/
inductive LeadsTo (table : Table) (config : Config) (x : Moment) : Machine → Prop
  | moment {y : Moment} (hr : Relation.ReflTransGen (Next table config) x y) :
      LeadsTo table config x y.machine
  | turn {m : Machine} {n : NodeId} {queue : List NodeId}
      (hr : Relation.ReflTransGen (Next table config) x ⟨.working, m⟩) (ha : m.agenda = [])
      (hq : m.generation.queue = n :: queue) : LeadsTo table config x (m.taking n queue)
  | failure {m f : Machine} {e : ParseError}
      (hr : Relation.ReflTransGen (Next table config) x ⟨.working, m⟩)
      (hf : m.work table config = .failed e f) : LeadsTo table config x f

/-- It is the turn of a node: it is the first in the queue, and nothing else is left to do. -/
def Moment.Takes (x : Moment) (n : NodeId) : Prop :=
  x.phase = .working ∧ x.machine.agenda = [] ∧ x.machine.generation.queue.head? = some n

/-- The nodes are those of before, or one more, which goes to the end of the queue. -/
inductive Hires (m m' : Machine) : Prop
  | none (hq : m'.generation.queue = m.generation.queue)
      (hs : m'.graph.nodes.size = m.graph.nodes.size)
  | one (hq : m'.generation.queue = m.generation.queue ++ [m.graph.nodes.size])
      (hs : m'.graph.nodes.size = m.graph.nodes.size + 1)

/-- What a step does to the nodes and to the queue: a node may be added, or the first of the queue
has its turn, or the queue, which is empty, is that of a new level. -/
inductive Staffs (x y : Moment) : Prop
  | hire (hx : ∀ n, ¬ x.Takes n)
      (hp : y.machine.generation.processed = x.machine.generation.processed)
      (hh : Hires x.machine y.machine)
  | take (n : NodeId) (ht : x.Takes n)
      (hq : x.machine.generation.queue = n :: y.machine.generation.queue)
      (hp : y.machine.generation.processed = x.machine.generation.processed ++ [n])
      (hs : y.machine.graph.nodes.size = x.machine.graph.nodes.size)
  | turn (hq : x.machine.generation.queue = []) (hq' : y.machine.generation.queue = [])
      (hp : y.machine.generation.processed = [])
      (hs : y.machine.graph.nodes.size = x.machine.graph.nodes.size)

/-- What a step does to the links: they are those of before, or one more, which leads from an active
node to a node that is there already, and those two have not been joined. -/
inductive Joins (x y : Moment) : Prop
  | keep (hs : y.machine.graph.links.size = x.machine.graph.links.size)
  | make (w v : NodeId) (s : StateId)
      (hw : y.machine.graph.entryAt? w = some ⟨s, x.machine.generation.level⟩)
      (hv : v < x.machine.graph.nodes.size) (hnew : x.machine.graph.findLink? w v = none)
      (hl : (x.machine.graph.links.size, v) ∈ y.machine.graph.linksFrom w)
      (hs : y.machine.graph.links.size = x.machine.graph.links.size + 1)

open Machine

variable {table : Table} {config : Config} {points : Array UInt32} {m m' : Machine} {x y : Moment}
  {n : NodeId}

/-! ### What a step does to the queue -/

theorem hires_attach (m : Machine) (target : StateId) (bottom : NodeId) (tree : TreeId) :
    Hires m (m.attach target bottom tree) := by
  cases hn : m.generation.node? target with
  | some n =>
    rw [attach_of_some hn]
    exact .none rfl (StackGraph.size_nodes_addLink ..)
  | none =>
    rw [attach_of_none hn]
    refine .one rfl ?_
    rw [StackGraph.size_nodes_addLink, StackGraph.size_nodes_addNode]

/-- A task may add a node, and that one waits. -/
theorem performs_hires {t : Task} {p : Progress} (hp : Performs table config m t p)
    (hm : p.next? = some m') :
    m'.generation.processed = m.generation.processed ∧ Hires m m' := by
  cases hp with
  | link n r rejecting p id target hd hb hg hf =>
    obtain rfl := Option.some.inj hm
    refine ⟨processed_attach _ target p.bottom m.forest.size, ?_⟩
    cases hires_attach (m.reducing n r p id target) target p.bottom m.forest.size with
    | none hq hs => exact .none hq hs
    | one hq hs => exact .one hq hs
  | unknownLabel | unknownBottom | gap | unknownState => exact absurd hm (by simp [Progress.next?])
  | _ =>
    obtain rfl := Option.some.inj hm
    exact ⟨rfl, .none rfl rfl⟩

theorem Moves.staffs (hm : Moves table config m m') :
    Staffs ⟨.working, m⟩ ⟨.working, m'⟩ := by
  obtain ⟨p, hp, hm⟩ := hm.works
  cases hp with
  | task ha hp =>
    obtain ⟨hproc, hh⟩ := performs_hires hp hm
    refine .hire (fun n hn => ?_) hproc ?_
    -- it is the turn of no node while there is a task
    · exact absurd (hn.2.1.symm.trans ha) (by simp)
    · cases hh with
      | none hq hs => exact .none hq hs
      | one hq hs => exact .one hq hs
  | @dispatch n queue _ ha hq hp =>
    have ht : Moment.Takes ⟨.working, m⟩ n := ⟨rfl, ha, by rw [hq, List.head?_cons]⟩
    cases hp with
    | nothing | items =>
      obtain rfl := Option.some.inj hm
      exact .take n ht hq rfl rfl
    | unknownState => exact absurd hm (by simp [Progress.next?])
  | idle ha hq => exact absurd hm (by simp [Progress.next?])

/-- A step hires a node, lets one have its turn, or goes on to the next level. -/
theorem Next.staffs (hn : Next table config x y) : Staffs x y := by
  have hphase : ∀ {phase : Phase} {m : Machine}, phase ≠ .working →
      ∀ n, ¬ Moment.Takes ⟨phase, m⟩ n := fun hne n ht => hne ht.1
  cases hn with
  | read | shifted | strand => exact .hire (hphase (by simp)) rfl (.none rfl rfl)
  | work hm => exact Moves.staffs hm
  | turn hi | leaf hi => exact .turn (work_eq_idle hi).2.2 rfl rfl rfl
  | @shift leaf s due m =>
    rcases m.shiftNode_cases leaf s with heq | ⟨-, heq⟩ <;> rw [heq]
    · exact .hire (hphase (by simp)) rfl (.none rfl rfl)
    · exact .hire (hphase (by simp)) (processed_attach ..) (hires_attach ..)

/-! ### No node waits twice -/

/-- The nodes and the queue of a machine are in order, wherever it stands. -/
theorem Moment.Ordered.steady (h : x.Ordered table points) : Steady table points x.machine := by
  obtain ⟨phase, m⟩ := x
  cases phase with
  | between | stranded => exact Between.toSteady h
  | working => exact Working.toSteady h
  | shifting leaf due => exact h.1.toSteady

/-- The nodes that wait or have been processed are nodes of the graph. -/
theorem Steady.lt_of_mem (h : Steady table points m)
    (hn : n ∈ m.generation.processed ++ m.generation.queue) : n < m.graph.nodes.size := by
  obtain ⟨s, hs⟩ := (h.staff n).mp (List.mem_append.mp hn)
  exact StackGraph.lt_of_entryAt? hs

/-- No node is in the queue twice, or again after its turn. -/
theorem Reached.nodup (h : Reached table config points x) :
    (x.machine.generation.processed ++ x.machine.generation.queue).Nodup := by
  induction h with
  | refl => exact List.nodup_singleton _
  | @tail x y hx hn ih =>
    cases hn.staffs with
    | hire hfree hp hh =>
      rw [hp]
      cases hh with
      | none hq hs => rwa [hq]
      | one hq hs =>
        -- the node that is added is none of those that there are
        rw [hq, ← List.append_assoc]
        refine ih.append (List.nodup_singleton _) fun n hn hnew => ?_
        rw [List.mem_singleton.mp hnew] at hn
        exact absurd ((Reached.ordered hx).steady.lt_of_mem hn) (Nat.lt_irrefl _)
    | take n ht hq hp hs =>
      -- the node goes over from the queue to those that have been processed
      rw [hp, List.append_assoc, List.singleton_append, ← hq]
      exact ih
    | turn hq hq' hp hs =>
      rw [hp, hq']
      exact List.nodup_nil

/-! ### Every node has one turn -/

/-- A node that does not wait will not wait again. -/
theorem Staffs.not_mem_queue (h : Staffs x y) (hn : n < x.machine.graph.nodes.size)
    (hq : n ∉ x.machine.generation.queue) :
    n < y.machine.graph.nodes.size ∧ n ∉ y.machine.generation.queue := by
  cases h with
  | hire hfree hp hh =>
    cases hh with
    | none hq' hs =>
      rw [hq', hs]
      exact ⟨hn, hq⟩
    | one hq' hs =>
      rw [hq', hs, List.mem_append, List.mem_singleton, not_or]
      exact ⟨Nat.lt_succ_of_lt hn, hq, Nat.ne_of_lt hn⟩
  | take n' ht hq' hp hs =>
    rw [hq', List.mem_cons, not_or] at hq
    rw [hs]
    exact ⟨hn, hq.2⟩
  | turn hq' hq'' hp hs =>
    rw [hs, hq'']
    exact ⟨hn, List.not_mem_nil⟩

/-- A node whose turn it has been does not wait afterwards. -/
theorem Reached.not_mem_queue_of_takes (hx : Reached table config points x) (ht : x.Takes n)
    (hr : Relation.TransGen (Next table config) x y) :
    n < y.machine.graph.nodes.size ∧ n ∉ y.machine.generation.queue := by
  have hmem : n ∈ x.machine.generation.processed ++ x.machine.generation.queue :=
    List.mem_append_right _ (List.mem_of_mem_head? ht.2.2)
  induction hr with
  | single hn =>
    cases hn.staffs with
    | hire hfree => exact absurd ht (hfree n)
    | take n' ht' hq hp hs =>
      obtain rfl : n = n' := Option.some.inj (ht.2.2.symm.trans ht'.2.2)
      refine ⟨hs ▸ hx.ordered.steady.lt_of_mem hmem, fun hmem' => ?_⟩
      have hnodup := hx.nodup
      rw [hq] at hnodup
      exact (List.nodup_cons.mp (List.Nodup.of_append_right hnodup)).1 hmem'
    | turn hq =>
      have hhead := ht.2.2
      rw [hq] at hhead
      exact absurd hhead (by simp)
  | tail _ hn ih => exact hn.staffs.not_mem_queue ih.1 ih.2

/-- A node that does not wait has had its turn. -/
theorem Reached.exists_takes (hx : Reached table config points x)
    (hn : n < x.machine.graph.nodes.size) (hq : n ∉ x.machine.generation.queue) :
    ∃ y, Reached table config points y ∧ y.Takes n ∧
      Relation.TransGen (Next table config) y x := by
  induction hx with
  | refl =>
    obtain rfl : n = 0 := Nat.lt_one_iff.mp hn
    exact absurd (List.mem_singleton_self 0) hq
  | @tail x y hx hnext ih =>
    have hold : n < x.machine.graph.nodes.size → n ∉ x.machine.generation.queue → ∃ z,
        Reached table config points z ∧ z.Takes n ∧ Relation.TransGen (Next table config) z y := by
      intro hn hq
      obtain ⟨z, hz, ht, hr⟩ := ih hn hq
      exact ⟨z, hz, ht, hr.tail hnext⟩
    cases hnext.staffs with
    | hire hfree hp hh =>
      cases hh with
      | none hq' hs =>
        rw [hs] at hn
        rw [hq'] at hq
        exact hold hn hq
      | one hq' hs =>
        rw [hq', List.mem_append, List.mem_singleton, not_or] at hq
        -- the node that has just been added waits, so it is not the one in question
        rw [hs] at hn
        exact hold (Nat.lt_of_le_of_ne (Nat.le_of_lt_succ hn) hq.2) hq.1
    | take n' ht hq' hp hs =>
      by_cases hnn : n = n'
      -- either this is its turn, or it has had it before
      · subst hnn
        exact ⟨x, hx, ht, .single hnext⟩
      · refine hold (hs ▸ hn) ?_
        rw [hq', List.mem_cons, not_or]
        exact ⟨hnn, hq⟩
    | turn hq' hq'' hp hs => exact hold (hs ▸ hn) (hq' ▸ List.not_mem_nil)

/-- A node has one turn at most. -/
theorem Reached.takes_unique (hx : Reached table config points x)
    (hy : Reached table config points y) (ht : x.Takes n) (ht' : y.Takes n) : x = y := by
  -- of two moments one comes after the other, and then the node does not wait any more
  have hlater : ∀ {u v : Moment}, Reached table config points u → u.Takes n → v.Takes n →
      Relation.ReflTransGen (Next table config) u v → v = u := by
    intro u v hu htu htv huv
    rcases Relation.reflTransGen_iff_eq_or_transGen.mp huv with heq | huv
    · exact heq
    · exact absurd (List.mem_of_mem_head? htv.2.2) (hu.not_mem_queue_of_takes htu huv).2
  rcases Relation.ReflTransGen.total_of_right_unique next_rightUnique hx hy with h | h
  · exact (hlater hx ht ht' h).symm
  · exact hlater hy ht' ht h

/-- Every node that does not wait has had its turn, once. -/
theorem Reached.existsUnique_takes (hx : Reached table config points x)
    (hn : n < x.machine.graph.nodes.size) (hq : n ∉ x.machine.generation.queue) :
    ∃! y, Reached table config points y ∧ y.Takes n ∧
      Relation.TransGen (Next table config) y x := by
  obtain ⟨y, hy, ht, hr⟩ := hx.exists_takes hn hq
  exact ⟨y, ⟨hy, ht, hr⟩, fun z ⟨hz, ht', _⟩ => hz.takes_unique hy ht' ht⟩

/-! ### No two nodes are joined twice -/

/-- A step makes one link at most, between nodes that have not been joined. -/
theorem Moment.Ordered.joins (h : x.Ordered table points) (hn : Next table config x y) :
    Joins x y := by
  cases hn with
  | read | turn | leaf | shifted | strand => exact .keep rfl
  | @work m m' hm =>
    have h : Working table points m := h
    cases h.changes hm with
    | still hg | pack _ _ _ _ _ _ _ _ hg => exact .keep (congrArg (·.links.size) hg)
    | reject l hr hg => exact .keep (by rw [hg, StackGraph.size_links_reject])
    | link a v target hr hf hg =>
      -- the link has been looked for, and it leaves an active node
      obtain ⟨f, hv, -⟩ := hr.goto
      refine .make (m.holder target) v target ?_ (StackGraph.lt_of_entryAt? hv) hf ?_ ?_
      · rw [hg]
        exact entryAt?_holder h.roster
      · rw [hg]
        exact (mem_linksFrom_attach h.roster).mpr (.inl ⟨rfl, rfl, rfl⟩)
      · rw [hg, size_links_attach]
  | @shift leaf s due m =>
    obtain ⟨hb, hdue⟩ := h
    obtain ⟨e, hv, -⟩ := hdue s List.mem_cons_self
    rcases m.shiftNode_cases leaf s with heq | ⟨hf, heq⟩ <;> rw [heq]
    · exact .keep rfl
    · exact .make (m.holder s.target) s.source s.target (entryAt?_holder hb.roster)
        (StackGraph.lt_of_entryAt? hv) hf
        ((mem_linksFrom_attach hb.roster).mpr (.inl ⟨rfl, rfl, rfl⟩)) size_links_attach

/-! ### The number of nodes -/

theorem Working.level_lt (h : Working table points m) : m.generation.level < points.size :=
  (Array.getElem?_eq_some_iff.mp h.token).1

/-- A parse does not get beyond the points. -/
theorem Reached.level_le (hx : Reached table config points x) :
    x.machine.generation.level ≤ points.size := by
  induction hx with
  | refl => exact Nat.zero_le _
  | @tail x y hx hn ih =>
    cases hn with
    | read | shifted | strand => exact ih
    | work hm => exact hm.frame.1 ▸ ih
    | turn | leaf => exact (Reached.working hx).level_lt
    | shift =>
      rw [level_shiftNode]
      exact ih

/-- There are no more nodes than states at each level. -/
theorem Roster.size_nodes_le {g : StackGraph} {level : ℕ} {active : List (StateId × NodeId)}
    (h : Roster table g level active)
    (hu : ∀ {n n' e}, g.entryAt? n = some e → g.entryAt? n' = some e → n = n') :
    g.nodes.size ≤ table.states.length * (level + 1) := by
  have hcard : (Finset.range g.nodes.size).card ≤
      ((table.states.map State.id).toFinset ×ˢ Finset.range (level + 1)).card := by
    -- every node has its state and level to itself
    refine Finset.card_le_card_of_forall_subsingleton
      (fun n e => g.entryAt? n = some ⟨e.1, e.2⟩) ?_ ?_
    · intro n hn
      obtain ⟨e, he⟩ := StackGraph.exists_entryAt? (Finset.mem_range.mp hn)
      refine ⟨(e.state, e.position), ?_, he⟩
      rw [Finset.mem_product, List.mem_toFinset, Finset.mem_range]
      exact ⟨h.state_mem he, Nat.lt_succ_of_le (h.level_le he)⟩
    · rintro e - n ⟨-, hn⟩ n' ⟨-, hn'⟩
      exact hu hn hn'
  have hle := List.toFinset_card_le (table.states.map State.id)
  rw [List.length_map] at hle
  rw [Finset.card_range, Finset.card_product, Finset.card_range] at hcard
  exact Nat.le_trans hcard (Nat.mul_le_mul_right _ hle)

/-! ### The representation -/

/-- The nodes and the links of a machine represent the stacks at its level, in an input of so many
characters. -/
structure Representation (table : Table) (characters : ℕ) (m : Machine) : Prop where
  /-- The active node of a state is of that state, and of the current level. -/
  active : ∀ s n, m.generation.node? s = some n →
    m.graph.entryAt? n = some ⟨s, m.generation.level⟩
  active_injective : ∀ s s' n, m.generation.node? s = some n → m.generation.node? s' = some n →
    s = s'
  processed_nodup : m.generation.processed.Nodup
  queue_nodup : m.generation.queue.Nodup
  disjoint : m.generation.processed.Disjoint m.generation.queue
  /-- The active nodes are those that have had their turn and those that wait for it. -/
  staff : ∀ n, n ∈ m.generation.processed ∨ n ∈ m.generation.queue ↔
    ∃ s, m.generation.node? s = some n
  /-- No two links join the same two nodes. -/
  link_unique : ∀ w v l l', (l, v) ∈ m.graph.linksFrom w → (l', v) ∈ m.graph.linksFrom w → l = l'
  exists_ends : ∀ l < m.graph.links.size, ∃ w v, (l, v) ∈ m.graph.linksFrom w
  /-- The ends of a link are nodes, and it leads to no later level. -/
  ends : ∀ w v l, (l, v) ∈ m.graph.linksFrom w → l < m.graph.links.size ∧
    ∃ e f, m.graph.entryAt? w = some e ∧ m.graph.entryAt? v = some f ∧ f.position ≤ e.position
  rooted : ∀ n < m.graph.nodes.size, ∃ ls, m.graph.Walk n ls rootNode
  size_nodes_le : m.graph.nodes.size ≤ table.states.length * (characters + 2)

/-- A machine that fails does so while it applies a reduction. -/
theorem Working.failed_eq (h : Working table points m) {e : ParseError} {f : Machine}
    (hf : m.work table config = .failed e f) :
    ∃ agenda a, f = (Machine.build { m with agenda } a).2 := by
  obtain ⟨agenda, n, r, rejecting, p, id, ha, -, -, -⟩ := h.work_failed hf
  have hw := works_work table config m
  rw [hf] at hw
  cases hw with
  | @task t agenda' _ ha' hp =>
    obtain ⟨rfl, rfl⟩ := List.cons.inj (ha.symm.trans ha')
    cases hp with
    | unknownBottom | gap => exact ⟨agenda, _, rfl⟩
  | dispatch ha' hq hp => exact absurd (ha.symm.trans ha') (by simp)

theorem Representation.of_steady {characters : ℕ} (h : Steady table points m)
    (hnodup : (m.generation.processed ++ m.generation.queue).Nodup)
    (hsize : m.graph.nodes.size ≤ table.states.length * (characters + 2)) :
    Representation table characters m where
  active := fun s n hn => h.roster.lookup_iff.mp hn
  active_injective := by
    intro s s' n hn hn'
    have he := (h.roster.lookup_iff.mp hn).symm.trans (h.roster.lookup_iff.mp hn')
    exact congrArg Entry.state (Option.some.inj he)
  processed_nodup := List.Nodup.of_append_left hnodup
  queue_nodup := List.Nodup.of_append_right hnodup
  disjoint := List.disjoint_of_nodup_append hnodup
  staff := by
    intro n
    rw [h.staff]
    exact exists_congr fun s => h.roster.lookup_iff.symm
  link_unique := fun w v l l' => h.roster.wf.link_unique
  exists_ends := fun l => h.roster.wf.exists_ends
  ends := by
    intro w v l hl
    obtain ⟨e, he⟩ := StackGraph.exists_entryAt? (StackGraph.lt_of_mem_linksFrom hl)
    obtain ⟨f, hf⟩ := StackGraph.exists_entryAt? (h.roster.wf.target_lt hl)
    exact ⟨h.roster.wf.link_lt hl, e, f, he, hf, h.roster.wf.level_le hl he hf⟩
  rooted := fun n => h.roster.rooted
  size_nodes_le := hsize

/-- A machine represents the stacks of its level at every moment. -/
theorem Reached.representation {input : List Char}
    (hx : Reached table config (inputPoints config input) x) :
    Representation table input.length x.machine := by
  refine .of_steady hx.ordered.steady hx.nodup ?_
  have hlevel := hx.level_le
  rw [size_inputPoints] at hlevel
  exact Nat.le_trans (hx.ordered.roster.size_nodes_le hx.entry_unique)
    (Nat.mul_le_mul_left _ (Nat.succ_le_succ hlevel))

/-- So it does when a node has been taken off the queue, and when the parse fails. -/
theorem LeadsTo.representation {input : List Char}
    (h : LeadsTo table config ⟨.between, initial table config (inputPoints config input)⟩ m) :
    Representation table input.length m := by
  cases h with
  | moment hx => exact Reached.representation hx
  | @turn m n queue hx ha hq =>
    have hnodup := Reached.nodup hx
    rw [hq] at hnodup
    refine .of_steady ((Reached.working hx).taking ha hq).toSteady ?_
      (Reached.representation hx).size_nodes_le
    rwa [Machine.taking, List.append_assoc, List.singleton_append]
  | failure hx hf =>
    -- building the tree of a reduction touches neither the nodes nor the links
    obtain ⟨agenda, a, rfl⟩ := (Reached.working hx).failed_eq hf
    exact { Reached.representation hx with }

/-- Whatever a parse comes to, its machine represents the stacks: there is one active node for a
state, and the active nodes are those that wait or have had their turn, one turn each.  No step
joins two nodes that have been joined before. -/
theorem represented_throughout (table : Table) (config : Config) (input : String) :
    (∀ m, LeadsTo table config
        ⟨.between, Machine.initial table config (inputPoints config input.toList)⟩ m →
      Representation table input.toList.length m) ∧
    ∀ x, Reached table config (inputPoints config input.toList) x →
      (∀ y, Next table config x y → Joins x y) ∧
      ∀ n < x.machine.graph.nodes.size,
        (n ∉ x.machine.generation.queue →
          ∃! y, Reached table config (inputPoints config input.toList) y ∧ y.Takes n ∧
            Relation.TransGen (Next table config) y x) ∧
        (n ∈ x.machine.generation.queue →
          ¬ ∃ y, Reached table config (inputPoints config input.toList) y ∧ y.Takes n ∧
            Relation.TransGen (Next table config) y x) := by
  refine ⟨fun m hm => hm.representation, fun x hx => ⟨fun y hn => hx.ordered.joins hn, ?_⟩⟩
  intro n hn
  refine ⟨hx.existsUnique_takes hn, ?_⟩
  rintro hq ⟨y, hy, ht, hr⟩
  exact (hy.not_mem_queue_of_takes ht hr).2 hq

end ScannerlessLR
