/-
What a step of a machine can do.

Every step either takes the first task off the agenda or dispatches the first
node of the queue.  All that is proved about runs rests on these inversions,
none of it on the definitions behind them.

* `Machine.Performs` — the outcomes of one task;
* `Machine.Dispatches` — the outcomes of dispatching a node;
* `Machine.Works` — the outcomes of a step.
-/
import ScannerlessLR.Proofs.Cursor
import ScannerlessLR.Proofs.Parser.Growth

namespace ScannerlessLR

/-- The machine after a step, if there has been one. -/
def Progress.next? : Progress → Option Machine
  | .moved m | .linked m => some m
  | .idle _ | .failed _ _ => none

namespace ActionItem

variable {item : ActionItem} {n : NodeId} {through : Option LinkId} {t : Task}

/-- Only a reduction has a task over a link: to reduce, or to check first whether it may. -/
theorem reductionTask?_cases (h : item.reductionTask? n through = some t) :
    (∃ r, item = .reduce r ∧ t = .reduce n r through) ∨
      ∃ r forbidden, item = .reduceUnless r forbidden ∧ t = .check n r forbidden through := by
  cases item with
  | reduce r => exact .inl ⟨r, rfl, (Option.some.inj h).symm⟩
  | reduceUnless r forbidden => exact .inr ⟨r, forbidden, rfl, (Option.some.inj h).symm⟩
  | shift | accept => exact absurd h (by simp [reductionTask?])

theorem task_of_reductionTask? (h : item.reductionTask? n none = some t) (id : StateId) :
    item.task n id = t := by
  rcases reductionTask?_cases h with ⟨r, rfl, rfl⟩ | ⟨r, forbidden, rfl, rfl⟩ <;> rfl

end ActionItem

namespace Machine

variable {table : Table} {config : Config} {m m' : Machine}

/-- The action items of a node for the current point. -/
theorem itemsOf_eq {n : NodeId} {e : Entry} {token : UInt32} {g : StackGraph}
    (he : g.entryAt? n = some e) : itemsOf table token g n = table.itemsAt e.state token := by
  rw [itemsOf, StackGraph.state?_of_entryAt? he]
  rfl

theorem items?_eq_ok_none {n : NodeId} (h : m.items? table n = .ok none) :
    itemsOf table m.token m.graph n = [] := by
  rw [items?] at h
  cases hs : m.graph.state? n with
  | none => rw [itemsOf, hs]; rfl
  | some id =>
    rw [hs] at h
    cases ht : table.state? id with
    | none => simp [ht] at h
    | some s =>
      rw [itemsOf, hs, Option.bind_some, ht, Option.bind_some]
      cases ha : s.actions? m.token with
      | none => rfl
      | some items => simp [ht, ha] at h

theorem state?_of_items? {n : NodeId} {id : StateId} {items : List ActionItem}
    (h : m.items? table n = .ok (some (id, items))) : m.graph.state? n = some id := by
  rw [items?] at h
  cases hs : m.graph.state? n with
  | none => simp [hs] at h
  | some id' =>
    rw [hs] at h
    cases ht : table.state? id' with
    | none => simp [ht] at h
    | some s =>
      cases ha : s.actions? m.token with
      | none => simp [ht, ha] at h
      | some is =>
        simp only [ht, ha, Option.map_some, Except.ok.injEq, Option.some.injEq,
          Prod.mk.injEq] at h
        rw [h.1]

/-- Only a state that the table does not know keeps the items of a node from being looked up. -/
theorem items?_eq_error {n : NodeId} {e : ParseError} (h : m.items? table n = .error e) :
    ∃ id, m.graph.state? n = some id ∧ table.state? id = none ∧ e = .unknownState id := by
  rw [items?] at h
  cases hs : m.graph.state? n with
  | none => simp [hs] at h
  | some id =>
    rw [hs] at h
    cases ht : table.state? id with
    | none => exact ⟨id, rfl, ht, by simpa [ht] using h.symm⟩
    | some s => simp [ht] at h

/-- The tasks of a reduction along the paths found for it. -/
def applications (m : Machine) (n : NodeId) (r : Reduction) (rejecting : Bool)
    (through : Option LinkId) : List Task :=
  ((m.graph.paths n r.arity).filter fun p => through.all (· ∈ p.links)).map
    (.apply n r rejecting ·)

/-- Whether a reduction to the production `l` rejects what it builds. -/
def rejects (r : Reduction) (l : Label) : Bool :=
  r.status = .reject || l.has .reject

/-- The machine with the tree of a reduction along a path, and the reduction recorded. -/
def reducing (m : Machine) (n : NodeId) (r : Reduction) (p : Path) (id target : StateId) :
    Machine :=
  (m.build ⟨p.links, n, r⟩).2.record (.reduced r.label r.arity id target)

theorem holder_reducing (m : Machine) (n : NodeId) (r : Reduction) (p : Path)
    (id target state : StateId) : (m.reducing n r p id target).holder state = m.holder state :=
  holder_congr state _ rfl rfl

theorem forest_pack {l : LinkId} {source target : StateId} {tree t : TreeId} {rejecting : Bool}
    (h : m.graph.tree? l = some t) :
    (m.pack l source target tree rejecting).forest = m.forest.pack t tree := by
  rw [pack, h]
  rfl

/-- The outcomes of one task. -/
inductive Performs (table : Table) (config : Config) (m : Machine) : Task → Progress → Prop
  | accept (n : NodeId) (id : StateId) :
      Performs table config m (.accept n id)
        (.moved { m.record (.accepted id) with accepting := some n })
  | shift (n : NodeId) (target : StateId) :
      Performs table config m (.shift n target) (.moved { m with
        generation := { m.generation with shifts := m.generation.shifts ++ [⟨n, target⟩] } })
  | check (n : NodeId) (r : Reduction) (forbidden : List RangeSet) (through : Option LinkId) :
      Performs table config m (.check n r forbidden through)
        (.moved (m.check n r forbidden through))
  | unknownLabel (n : NodeId) (r : Reduction) (through : Option LinkId)
      (hl : table.label? r.label = none) :
      Performs table config m (.reduce n r through) (.failed (.unknownLabel r.label) m)
  | skip (n : NodeId) (r : Reduction) (through : Option LinkId) (l : Label)
      (hl : table.label? r.label = some l) (hu : l.isUnsupported = true) :
      Performs table config m (.reduce n r through) (.moved (m.record (.skipped r.label)))
  | reduce (n : NodeId) (r : Reduction) (through : Option LinkId) (l : Label)
      (hl : table.label? r.label = some l) (hu : l.isUnsupported = false) :
      Performs table config m (.reduce n r through)
        (.moved (m.push (m.applications n r (rejects r l) through)))
  | repeated (n : NodeId) (r : Reduction) (rejecting : Bool) (p : Path)
      (hd : config.deduplicate = true) (ha : ⟨p.links, n, r⟩ ∈ m.generation.applied) :
      Performs table config m (.apply n r rejecting p) (.moved m)
  | lost (n : NodeId) (r : Reduction) (rejecting : Bool) (p : Path)
      (hb : m.graph.state? p.bottom = none) :
      Performs table config m (.apply n r rejecting p) (.moved (m.build ⟨p.links, n, r⟩).2)
  | unknownBottom (n : NodeId) (r : Reduction) (rejecting : Bool) (p : Path) (id : StateId)
      (hb : m.graph.state? p.bottom = some id) (hs : table.state? id = none) :
      Performs table config m (.apply n r rejecting p)
        (.failed (.unknownState id) (m.build ⟨p.links, n, r⟩).2)
  | gap (n : NodeId) (r : Reduction) (rejecting : Bool) (p : Path) (id : StateId)
      (hb : m.graph.state? p.bottom = some id) (hg : table.gotoFrom? id r.label = none) :
      Performs table config m (.apply n r rejecting p)
        (.failed (.missingGoto id r.label) (m.build ⟨p.links, n, r⟩).2)
  | pack (n : NodeId) (r : Reduction) (rejecting : Bool) (p : Path) (id target : StateId)
      (l : LinkId) (hd : config.deduplicate = true → ⟨p.links, n, r⟩ ∉ m.generation.applied)
      (hb : m.graph.state? p.bottom = some id) (hg : table.gotoFrom? id r.label = some target)
      (hf : m.graph.findLink? (m.holder target) p.bottom = some l) :
      Performs table config m (.apply n r rejecting p)
        (.moved ((m.reducing n r p id target).pack l target id m.forest.size rejecting))
  | link (n : NodeId) (r : Reduction) (rejecting : Bool) (p : Path) (id target : StateId)
      (hd : config.deduplicate = true → ⟨p.links, n, r⟩ ∉ m.generation.applied)
      (hb : m.graph.state? p.bottom = some id) (hg : table.gotoFrom? id r.label = some target)
      (hf : m.graph.findLink? (m.holder target) p.bottom = none) :
      Performs table config m (.apply n r rejecting p)
        (.linked (((m.reducing n r p id target).attach target p.bottom m.forest.size).push
          (m.followUps m.graph.links.size target id rejecting)))
  | unknownState (n : NodeId) (l : LinkId) (id : StateId)
      (hn : m.graph.state? n = some id) (hs : table.state? id = none) :
      Performs table config m (.revisit n l) (.failed (.unknownState id) m)
  | stop (n : NodeId) (l : LinkId) (hr : m.graph.allRejected n = true) :
      Performs table config m (.revisit n l) (.moved m)
  | revisit (n : NodeId) (l : LinkId) (hr : m.graph.allRejected n = false) :
      Performs table config m (.revisit n l) (.moved (m.push
        ((itemsOf table m.token m.graph n).filterMap (·.reductionTask? n (some l)))))
  | reject (l : LinkId) (source target : StateId) :
      Performs table config m (.reject l source target)
        (.moved { m.record (.rejected source target) with graph := m.graph.reject l })

theorem performs_reduce (n : NodeId) (r : Reduction) (through : Option LinkId) :
    Performs table config m (.reduce n r through) (m.reduce table n r through) := by
  rw [Machine.reduce]
  cases hl : table.label? r.label with
  | none => exact .unknownLabel n r through hl
  | some l =>
    cases hu : l.isUnsupported with
    | true =>
      simp only [hu]
      exact .skip n r through l hl hu
    | false =>
      simp only [hu]
      exact .reduce n r through l hl hu

theorem performs_apply (n : NodeId) (r : Reduction) (rejecting : Bool) (p : Path) :
    Performs table config m (.apply n r rejecting p) (m.apply table config n r rejecting p) := by
  rw [Machine.apply]
  -- with deduplication, a reduction that has been applied comes to nothing
  by_cases hd : config.deduplicate = true ∧ ⟨p.links, n, r⟩ ∈ m.generation.applied
  · simpa only [hd, and_self, if_true] using Performs.repeated n r rejecting p hd.1 hd.2
  · rw [if_neg hd]
    rw [not_and] at hd
    -- building the tree leaves the graph alone, so the bottom is looked up in the old one
    have hgraph : (m.build ⟨p.links, n, r⟩).2.graph = m.graph := rfl
    simp only [hgraph]
    cases hb : m.graph.state? p.bottom with
    | none => exact .lost n r rejecting p hb
    | some id =>
      simp only
      cases hs : table.state? id with
      | none => exact .unknownBottom n r rejecting p id hb hs
      | some s =>
        simp only
        cases hg : s.goto? r.label with
        | none => exact .gap n r rejecting p id hb (by rw [Table.gotoFrom?, hs]; exact hg)
        | some target =>
          have hg : table.gotoFrom? id r.label = some target := by
            rw [Table.gotoFrom?, hs]
            exact hg
          have hj := join_eq (m.reducing n r p id target) p id target m.forest.size rejecting
          rw [holder_reducing] at hj
          cases hf : m.graph.findLink? (m.holder target) p.bottom with
          | some l =>
            rw [show (m.reducing n r p id target).graph = m.graph from rfl, hf] at hj
            refine Eq.subst (motive := Performs table config m _) hj.symm ?_
            exact .pack n r rejecting p id target l hd hb hg hf
          | none =>
            rw [show (m.reducing n r p id target).graph = m.graph from rfl, hf] at hj
            refine Eq.subst (motive := Performs table config m _) hj.symm ?_
            exact .link n r rejecting p id target hd hb hg hf

theorem performs_revisit (n : NodeId) (l : LinkId) :
    Performs table config m (.revisit n l) (m.revisit table n l) := by
  rw [Machine.revisit]
  cases hr : m.graph.allRejected n with
  | true => exact .stop n l hr
  | false =>
    have hrevisit : Performs table config m (.revisit n l) _ := .revisit n l hr
    cases hi : m.items? table n with
    | error e =>
      obtain ⟨id, hn, hs, rfl⟩ := items?_eq_error hi
      exact .unknownState n l id hn hs
    | ok items =>
      cases items with
      | none =>
        rw [items?_eq_ok_none hi] at hrevisit
        exact hrevisit
      | some items =>
        rw [items?_eq_ok hi] at hrevisit
        exact hrevisit

/-- What a task comes to is one of the outcomes listed. -/
theorem performs_perform (m : Machine) (t : Task) :
    Performs table config m t (m.perform table config t) := by
  cases t with
  | accept n id => exact .accept n id
  | shift n target => exact .shift n target
  | check n r forbidden through => exact .check n r forbidden through
  | reduce n r through => exact performs_reduce n r through
  | apply n r rejecting p => exact performs_apply n r rejecting p
  | revisit n l => exact performs_revisit n l
  | reject l source target => exact .reject l source target

/-! ### Dispatching a node, and the next step -/

/-- The action items of a node that are to be done: if it is rejected, to accept and no more. -/
def dueItems (table : Table) (m : Machine) (n : NodeId) : List ActionItem :=
  if m.graph.allRejected n then (itemsOf table m.token m.graph n).filter (· = .accept)
  else itemsOf table m.token m.graph n

theorem mem_itemsOf_of_mem_dueItems {n : NodeId} {item : ActionItem} (h : item ∈ m.dueItems table n) :
    item ∈ itemsOf table m.token m.graph n := by
  rw [dueItems] at h
  split at h
  · exact (List.mem_filter.mp h).1
  · exact h

/-- All items of a node that is not rejected are due. -/
theorem dueItems_eq {n : NodeId} (h : m.graph.allRejected n = false) :
    m.dueItems table n = itemsOf table m.token m.graph n := by
  rw [dueItems, h]
  rfl

/-- Accepting is due even at a node that is rejected. -/
theorem accept_mem_dueItems {n : NodeId} (h : .accept ∈ itemsOf table m.token m.graph n) :
    .accept ∈ m.dueItems table n := by
  rw [dueItems]
  split
  · exact List.mem_filter.mpr ⟨h, rfl⟩
  · exact h

/-- The outcomes of dispatching a node. -/
inductive Dispatches (table : Table) (m : Machine) (n : NodeId) : Progress → Prop
  | unknownState (id : StateId) (hn : m.graph.state? n = some id) (hs : table.state? id = none) :
      Dispatches table m n (.failed (.unknownState id) m)
  | nothing (hi : itemsOf table m.token m.graph n = []) : Dispatches table m n (.moved m)
  | items (id : StateId) (hn : m.graph.state? n = some id) :
      Dispatches table m n (.moved
        ((m.record (.processing id (m.graph.allRejected n))).push
          ((m.dueItems table n).map (·.task n id))))

theorem dispatches_dispatch (m : Machine) (n : NodeId) :
    Dispatches table m n (m.dispatch table n) := by
  rw [dispatch]
  cases hi : m.items? table n with
  | error e =>
    obtain ⟨id, hn, hs, rfl⟩ := items?_eq_error hi
    exact .unknownState id hn hs
  | ok items =>
    cases items with
    | none => exact .nothing (items?_eq_ok_none hi)
    | some pair =>
      obtain ⟨id, items⟩ := pair
      have h : Dispatches table m n _ := .items id (state?_of_items? hi)
      rw [dueItems, items?_eq_ok hi] at h
      exact h

/-- Dispatching a node puts all of its items that are due on the agenda, and changes nothing else but
the events. -/
theorem Dispatches.exists_agenda {p : Progress} (h : Dispatches table m n p)
    (hnext : p.next? = some m') : ∃ id agenda events, m' = { m with agenda, events } ∧
      ∀ item ∈ m.dueItems table n, item.task n id ∈ agenda := by
  cases h with
  | nothing hi =>
    -- where there are no items, none are due, whatever the state
    obtain rfl := Option.some.inj hnext
    refine ⟨0, m.agenda, m.events, rfl, fun item hmem => ?_⟩
    rw [dueItems, hi] at hmem
    simp at hmem
  | items id hn =>
    obtain rfl := Option.some.inj hnext
    refine ⟨id, _, _, rfl, fun item hmem => ?_⟩
    exact List.mem_append_left _ (List.mem_map.mpr ⟨item, hmem, rfl⟩)
  | unknownState => exact absurd hnext (by simp [Progress.next?])

/-- The machine that is about to dispatch `n`, with `queue` left in its queue. -/
def taking (m : Machine) (n : NodeId) (queue : List NodeId) : Machine :=
  { m with generation := {
    m.generation with queue, processed := m.generation.processed ++ [n] } }

theorem mem_processed_taking (m : Machine) (n : NodeId) (queue : List NodeId) :
    n ∈ (m.taking n queue).generation.processed :=
  List.mem_append_right _ (List.mem_singleton_self n)

/-- The outcomes of a step. -/
inductive Works (table : Table) (config : Config) (m : Machine) : Progress → Prop
  | task {t : Task} {agenda : List Task} {p : Progress} (ha : m.agenda = t :: agenda)
      (hp : Performs table config { m with agenda } t p) : Works table config m p
  | dispatch {n : NodeId} {queue : List NodeId} {p : Progress} (ha : m.agenda = [])
      (hq : m.generation.queue = n :: queue)
      (hp : Dispatches table (m.taking n queue) n p) : Works table config m p
  | idle (ha : m.agenda = []) (hq : m.generation.queue = []) : Works table config m (.idle m)

/-- What a step comes to is one of the outcomes listed. -/
theorem works_work (table : Table) (config : Config) (m : Machine) :
    Works table config m (m.work table config) := by
  unfold work
  split
  · rename_i t agenda ha
    exact .task ha (performs_perform _ t)
  · rename_i n queue ha hq
    exact .dispatch ha hq (dispatches_dispatch _ n)
  · rename_i ha hq
    exact .idle ha hq

/-- One step takes a machine to another. -/
def Moves (table : Table) (config : Config) (m m' : Machine) : Prop :=
  (m.work table config).next? = some m'

theorem Moves.works (h : Moves table config m m') :
    ∃ p, Works table config m p ∧ p.next? = some m' :=
  ⟨_, works_work table config m, h⟩

/-- When a node has its turn, the step puts all of its items that are due on the agenda. -/
theorem Moves.exists_agenda {n : NodeId} {queue : List NodeId} (h : Moves table config m m')
    (ha : m.agenda = []) (hq : m.generation.queue = n :: queue) :
    ∃ id agenda events, m' = { m.taking n queue with agenda, events } ∧
      ∀ item ∈ (m.taking n queue).dueItems table n, item.task n id ∈ agenda := by
  obtain ⟨p, hp, hnext⟩ := h.works
  cases hp with
  | task ha' => exact absurd (ha.symm.trans ha') (by simp)
  | dispatch ha' hq' hp =>
    obtain ⟨rfl, rfl⟩ := List.cons.inj (hq.symm.trans hq')
    exact hp.exists_agenda hnext
  | idle ha' hq' => exact absurd (hq.symm.trans hq') (by simp)

theorem not_performs_idle {t : Task} : ¬ Performs table config m t (.idle m') := by
  intro h
  cases h

/-- Only a machine that has nothing left to do is idle. -/
theorem work_eq_idle (h : m.work table config = .idle m') :
    m' = m ∧ m.agenda = [] ∧ m.generation.queue = [] := by
  have hw := works_work table config m
  rw [h] at hw
  cases hw with
  | task ha hp => exact absurd hp not_performs_idle
  | dispatch ha hq hp => cases hp
  | idle ha hq => exact ⟨rfl, ha, hq⟩

end Machine

end ScannerlessLR
