/-
Nothing is left undone at a point.

While a machine works on a point, every enabled reduction along a path without
rejected links has been applied, or a task on the agenda will come to it.  This
holds through all that may happen in between: a link may complete a path while the
node on top of it is being dispatched, has been dispatched before, or is just being
revisited for another link.

* `Task.Covers` — the reductions that a task will come to;
* `Application.JoinedTo` — the link that a reduction is there for;
* `Thorough` — the invariant;
* `Thorough.moves` — every step keeps it;
* `Reached.thorough` — it holds whenever a machine is at work.
-/
import ScannerlessLR.Proofs.Parser.Moment

namespace ScannerlessLR

/-! ### Reductions and the tasks that come to them -/

namespace Application

/-- A reduction along a path without rejected links.  The empty path stands for all the links of its
node. -/
def Live (g : StackGraph) (a : Application) : Prop :=
  (∀ l ∈ a.links, g.isRejected l = false) ∧
    (a.links = [] → ∀ l v, (l, v) ∈ g.linksFrom a.node → g.isRejected l = false)

/-- The active node of the state to which a reduction goes is linked down to `v`. -/
def JoinedTo (table : Table) (g : StackGraph) (level : ℕ) (a : Application) (v : NodeId) : Prop :=
  ∃ f target w l, g.entryAt? v = some f ∧
    table.gotoFrom? f.state a.reduction.label = some target ∧
    g.entryAt? w = some ⟨target, level⟩ ∧ (l, v) ∈ g.linksFrom w

variable {table : Table} {points : Array UInt32} {g g' : StackGraph} {a : Application} {v : NodeId}
  {level : ℕ}

/-- What is not rejected has not been before. -/
theorem Live.antitone (hg : g.Extends g') (h : a.Live g') : a.Live g := by
  have hlive : ∀ l, g'.isRejected l = false → g.isRejected l = false := by
    intro l hl
    cases hr : g.isRejected l with
    | false => rfl
    | true => rw [hg.rejected hr] at hl; exact absurd hl (by simp)
  exact ⟨fun l hl => hlive l (h.1 l hl), fun he l v hl => hlive l (h.2 he l v (hg.mem hl))⟩

theorem JoinedTo.mono (hg : g.Extends g') (h : a.JoinedTo table g level v) :
    a.JoinedTo table g' level v := by
  obtain ⟨f, target, w, l, hf, hgoto, hw, hl⟩ := h
  exact ⟨f, target, w, l, hg.entry hf, hgoto, hg.entry hw, hg.mem hl⟩

/-- A node with a live path has a link that is not rejected, or no rejected link. -/
theorem Live.not_allRejected (hl : a.Live g) (hw : g.Walk a.node a.links v) :
    g.allRejected a.node = false := by
  rcases hlinks : a.links with _ | ⟨l, ls⟩
  · exact StackGraph.allRejected_eq_false (hl.2 hlinks)
  · by_contra h
    rw [Bool.not_eq_false, StackGraph.allRejected_iff] at h
    rw [hlinks] at hw
    obtain ⟨x, hmem, -⟩ := StackGraph.walk_cons_iff.mp hw
    have := hl.1 l (by rw [hlinks]; exact List.mem_cons_self)
    rw [h.2 l x hmem] at this
    exact absurd this (by simp)

end Application

/-- The reductions along paths that a task will come to. -/
def Task.Covers (points : Array UInt32) (level : ℕ) (a : Application) : Task → Prop
  | .apply n r _ p => a = ⟨p.links, n, r⟩
  | .reduce n r through => a.node = n ∧ a.reduction = r ∧ through.all (· ∈ a.links) = true
  | .check n r forbidden through => a.node = n ∧ a.reduction = r ∧
      through.all (· ∈ a.links) = true ∧ FollowPermits points level forbidden
  | .revisit n l => a.node = n ∧ l ∈ a.links
  | .accept .. | .shift .. | .reject .. => False

/-- The task of an item that calls for a reduction comes to the reduction. -/
theorem ActionItem.Calls.exists_covers {points : Array UInt32} {level : ℕ} {a : Application}
    {item : ActionItem} (h : item.Calls points level a.reduction) {through : Option LinkId}
    (hthrough : through.all (· ∈ a.links) = true) :
    ∃ t, item.reductionTask? a.node through = some t ∧ t.Covers points level a := by
  cases item with
  | reduce r => exact ⟨_, rfl, rfl, Eq.symm h, hthrough⟩
  | reduceUnless r forbidden => exact ⟨_, rfl, rfl, h.1.symm, hthrough, h.2⟩
  | shift target => exact h.elim
  | accept => exact h.elim

theorem ActionItem.Calls.covers_task {points : Array UInt32} {level : ℕ} {a : Application}
    {item : ActionItem} (h : item.Calls points level a.reduction) (id : StateId) :
    (item.task a.node id).Covers points level a := by
  have hthrough : (none : Option LinkId).all (· ∈ a.links) = true := rfl
  obtain ⟨t, ht, hcovers⟩ := h.exists_covers hthrough
  rwa [ActionItem.task_of_reductionTask? ht]

/-- No enabled reduction is forgotten while `tasks` are still to be done, nor a shift, nor an
acceptance, and every reduction applied has its link. -/
structure Thorough (table : Table) (points : Array UInt32) (tasks : List Task) (m : Machine) :
    Prop where
  covered : ∀ a v, a.node ∈ m.generation.processed → a.Enabled table points m.graph v →
    a.Live m.graph → a ∈ m.generation.applied ∨
      ∃ t ∈ tasks, t.Covers points m.generation.level a
  joined : ∀ a ∈ m.generation.applied, a.node ∈ m.generation.processed ∧
    ∃ v, a.Enabled table points m.graph v ∧ a.JoinedTo table m.graph m.generation.level v
  shifted : ∀ n target, n ∈ m.generation.processed → m.graph.Offers table points n (.shift target) →
    (∀ l v, (l, v) ∈ m.graph.linksFrom n → m.graph.isRejected l = false) →
    ⟨n, target⟩ ∈ m.generation.shifts ∨ .shift n target ∈ tasks
  accepted : ∀ n, n ∈ m.generation.processed → m.graph.Offers table points n .accept →
    m.accepting ≠ none ∨ ∃ id, .accept n id ∈ tasks

open Machine

variable {table : Table} {points : Array UInt32} {config : Config} {m m' : Machine} {n : NodeId}

/-- What doing a task keeps, and what it does about the task itself. -/
structure Handles (table : Table) (points : Array UInt32) (m : Machine) (t : Task) (m' : Machine) :
    Prop where
  level : m'.generation.level = m.generation.level := by rfl
  processed : m'.generation.processed = m.generation.processed := by rfl
  graph : m.graph.Extends m'.graph := by exact .refl _
  tasks : ∀ t' ∈ m.agenda, t' ∈ m'.agenda := by exact fun _ h => h
  shifts : ∀ s ∈ m.generation.shifts, s ∈ m'.generation.shifts := by exact fun _ h => h
  accepting : m.accepting ≠ none → m'.accepting ≠ none := by exact fun h => h
  applied : ∀ a ∈ m.generation.applied, a ∈ m'.generation.applied := by exact fun _ h => h
  joined : ∀ a ∈ m'.generation.applied, a ∈ m.generation.applied ∨
    a.node ∈ m.generation.processed ∧ ∃ v, a.Enabled table points m'.graph v ∧
      a.JoinedTo table m'.graph m.generation.level v := by exact fun _ => .inl
  enabled : ∀ a v, a.node ∈ m.generation.processed → a.Enabled table points m'.graph v →
    a.Enabled table points m.graph v ∨
      ∃ t' ∈ m'.agenda, t'.Covers points m.generation.level a := by exact fun _ _ _ => .inl
  covers : ∀ a v, a.Enabled table points m.graph v → (∀ l ∈ a.links, m.graph.isRejected l = false) →
    t.Covers points m.generation.level a →
    a ∈ m'.generation.applied ∨ ∃ t' ∈ m'.agenda, t'.Covers points m.generation.level a
  shift : ∀ n target, t = .shift n target → ⟨n, target⟩ ∈ m'.generation.shifts := by simp
  accept : ∀ n id, t = .accept n id → m'.accepting ≠ none := by simp

namespace Working

/-- What a processed node offers is nothing that the graph has only got. -/
theorem offers_of_extends (h : Working table points m) {g : StackGraph} (hg : m.graph.Extends g)
    (hn : n ∈ m.generation.processed) {item : ActionItem} (ho : g.Offers table points n item) :
    m.graph.Offers table points n item := by
  obtain ⟨e, he, ho⟩ := ho
  obtain ⟨s, hs⟩ := h.entry_of_processed hn
  exact ⟨e, hg.entry_of_lt (StackGraph.lt_of_entryAt? hs) he, ho⟩

/-- The calls of a processed node are none that the graph has only got. -/
theorem calls_of_extends (h : Working table points m) {g : StackGraph} (hg : m.graph.Extends g)
    (hn : n ∈ m.generation.processed) {r : Reduction} (hc : g.Calls table points n r) :
    m.graph.Calls table points n r := by
  obtain ⟨e, he, item, ho, hc⟩ := hc
  obtain ⟨e', he', ho'⟩ := h.offers_of_extends hg hn ⟨e, he, ho⟩
  obtain rfl := Option.some.inj (he.symm.trans (hg.entry he'))
  exact ⟨e, he', item, ho', hc⟩

end Working

/-- Doing a task in this way leaves nothing undone. -/
theorem Thorough.handles {t : Task} (h : Thorough table points (t :: m.agenda) m)
    (hm : Working table points m) (hh : Handles table points m t m') :
    Thorough table points m'.agenda m' := by
  refine { covered := ?_, joined := ?_, shifted := ?_, accepted := ?_ }
  · intro a v hn he hl
    rw [hh.processed] at hn
    rw [hh.level]
    have hl := hl.antitone hh.graph
    -- what is enabled only now has been put on the agenda, and the rest was covered before
    rcases hh.enabled a v hn he with he | hc
    · rcases h.covered a v hn he hl with ha | ⟨t', ht', hc⟩
      · exact .inl (hh.applied a ha)
      · rcases List.mem_cons.mp ht' with rfl | ht'
        · exact hh.covers a v he hl.1 hc
        · exact .inr ⟨t', hh.tasks t' ht', hc⟩
    · exact .inr hc
  · intro a ha
    rw [hh.processed, hh.level]
    rcases hh.joined a ha with ha | ha
    · obtain ⟨hn, v, he, hj⟩ := h.joined a ha
      exact ⟨hn, v, he.mono hh.graph, hj.mono hh.graph⟩
    · exact ha
  · intro n target hn ho hl
    rw [hh.processed] at hn
    -- rejections are never taken back, so the node has been live before
    have hlive : ∀ l v, (l, v) ∈ m.graph.linksFrom n → m.graph.isRejected l = false := by
      intro l v hmem
      cases hr : m.graph.isRejected l with
      | false => rfl
      | true =>
        have := hl l v (hh.graph.mem hmem)
        rw [hh.graph.rejected hr] at this
        exact absurd this (by simp)
    rcases h.shifted n target hn (hm.offers_of_extends hh.graph hn ho) hlive with hs | ht
    · exact .inl (hh.shifts _ hs)
    · rcases List.mem_cons.mp ht with ht | ht
      · exact .inl (hh.shift n target ht.symm)
      · exact .inr (hh.tasks _ ht)
  · intro n hn ho
    rw [hh.processed] at hn
    rcases h.accepted n hn (hm.offers_of_extends hh.graph hn ho) with ha | ⟨id, ht⟩
    · exact .inl (hh.accepting ha)
    · rcases List.mem_cons.mp ht with ht | ht
      · exact .inl (hh.accept n id ht.symm)
      · exact .inr ⟨id, hh.tasks _ ht⟩

/-! ### Every task is done in this way -/

namespace Working

theorem handles_reduce {r : Reduction} {through : Option LinkId} {l : Label} :
    Handles table points m (.reduce n r through)
      (m.push (m.applications n r (rejects r l) through)) where
  tasks := fun t ht => List.mem_append_right _ ht
  -- the reductions along paths become one task each
  covers := by
    rintro a v he - ⟨rfl, rfl, hthrough⟩
    refine .inr ⟨.apply a.node a.reduction (rejects a.reduction l) ⟨a.links, v⟩, ?_, rfl⟩
    refine List.mem_append_left _ (List.mem_map.mpr ⟨⟨a.links, v⟩, ?_, rfl⟩)
    exact List.mem_filter.mpr ⟨StackGraph.mem_paths_iff.mpr ⟨he.walk, he.length_eq⟩, hthrough⟩

theorem handles_check (h : Working table points m) {r : Reduction} {forbidden : List RangeSet}
    {through : Option LinkId} : Handles table points m (.check n r forbidden through)
      (m.check n r forbidden through) where
  tasks := fun t ht => List.mem_append_right _ ht
  covers := by
    rintro a v he - ⟨hn, hr, hthrough, hpermits⟩
    refine .inr ⟨.reduce n r through, List.mem_append_left _ ?_, hn, hr, hthrough⟩
    rw [if_pos (h.permitted_iff.mpr hpermits)]
    exact List.mem_singleton_self _

/-- A node that calls for a reduction has an item whose task comes to it. -/
theorem exists_item (h : Working table points m) {a : Application} {v : NodeId}
    (hn : a.node ∈ m.generation.processed) (he : a.Enabled table points m.graph v) :
    ∃ item ∈ itemsOf table m.token m.graph a.node,
      item.Calls points m.generation.level a.reduction := by
  obtain ⟨e, hentry, item, ho, hc⟩ := he.calls
  obtain ⟨s, hs⟩ := h.entry_of_processed hn
  obtain rfl := Option.some.inj (hs.symm.trans hentry)
  exact ⟨item, (h.offers_iff hn).mp ⟨_, hs, ho⟩, hc⟩

theorem handles_revisit (h : Working table points m) (hn : n ∈ m.generation.processed)
    {l : LinkId} : Handles table points m (.revisit n l) (m.push
      ((itemsOf table m.token m.graph n).filterMap (·.reductionTask? n (some l)))) where
  tasks := fun t ht => List.mem_append_right _ ht
  covers := by
    rintro a v he - ⟨rfl, hl⟩
    -- the item that calls for the reduction is taken again
    obtain ⟨item, hi, hc⟩ := h.exists_item hn he
    have hthrough : (some l).all (· ∈ a.links) = true := by simpa using hl
    obtain ⟨t, ht, hcovers⟩ := hc.exists_covers hthrough
    exact .inr ⟨t, List.mem_append_left _ (List.mem_filterMap.mpr ⟨item, hi, ht⟩), hcovers⟩

theorem handles_pack {r : Reduction} {rejecting : Bool} {p : Path}
    {target : StateId} {f : Entry} {l : LinkId} (h : Working table points m)
    (ht : (Task.apply n r rejecting p).Sound table points m.graph m.generation.processed)
    (hb : m.graph.entryAt? p.bottom = some f) (hg : table.gotoFrom? f.state r.label = some target)
    (hf : m.graph.findLink? (m.holder target) p.bottom = some l) :
    Handles table points m (.apply n r rejecting p)
      ((m.reducing n r p f.state target).pack l target f.state m.forest.size rejecting) where
  tasks := fun t ht => List.mem_append_right _ ht
  applied := fun a ha => List.mem_cons_of_mem _ ha
  joined := by
    -- the reduction is joined by the link that it is packed into
    obtain ⟨hn, hc, hl, -, hw, hlen⟩ := ht
    intro a ha
    rcases List.mem_cons.mp ha with rfl | ha
    · refine .inr ⟨hn, p.bottom, ⟨hc, hl, hw, hlen⟩, f, target, m.holder target, l, hb, hg, ?_,
        StackGraph.mem_of_findLink? hf⟩
      exact h.roster.lookup_iff.mp (node?_of_findLink? hf)
    · exact .inl ha
  covers := fun a v _ _ hc => .inl (by rw [hc]; exact List.mem_cons_self)

theorem handles_link {r : Reduction} {rejecting : Bool} {p : Path}
    {target : StateId} {f : Entry} (h : Working table points m)
    (ht : (Task.apply n r rejecting p).Sound table points m.graph m.generation.processed)
    (hb : m.graph.entryAt? p.bottom = some f) (hg : table.gotoFrom? f.state r.label = some target) :
    Handles table points m (.apply n r rejecting p)
      (((m.reducing n r p f.state target).attach target p.bottom m.forest.size).push
        (m.followUps m.graph.links.size target f.state rejecting)) := by
  set m₁ := m.reducing n r p f.state target
  have hR : Roster table m₁.graph m₁.generation.level m₁.generation.active := h.roster
  have hext : m.graph.Extends (m₁.attach target p.bottom m.forest.size).graph := extends_attach hR
  refine {
    level := level_attach m₁ target p.bottom m.forest.size
    processed := processed_attach m₁ target p.bottom m.forest.size
    graph := hext
    tasks := ?_
    shifts := ?_
    accepting := ?_
    applied := ?_
    joined := ?_
    enabled := ?_
    covers := ?_ }
  -- making a link leaves alone what is still to be done, and what has been done
  · intro t ht
    refine List.mem_append_right _ ?_
    rw [agenda_attach]
    exact ht
  · intro s hs
    show s ∈ (m₁.attach target p.bottom m.forest.size).generation.shifts
    rw [shifts_attach]
    exact hs
  · intro ha
    show (m₁.attach target p.bottom m.forest.size).accepting ≠ none
    rw [accepting_attach]
    exact ha
  · intro a ha
    show a ∈ (m₁.attach target p.bottom m.forest.size).generation.applied
    rw [applied_attach]
    exact List.mem_cons_of_mem _ ha
  -- this reduction is joined by the new link, and the others are joined already
  · obtain ⟨hn, hc, hl, -, hw, hlen⟩ := ht
    intro a ha
    have ha : a ∈ (m₁.attach target p.bottom m.forest.size).generation.applied := ha
    rw [applied_attach] at ha
    rcases List.mem_cons.mp ha with rfl | ha
    · have he : (Application.mk p.links n r).Enabled table points m.graph p.bottom :=
        ⟨hc, hl, hw, hlen⟩
      refine .inr ⟨hn, p.bottom, he.mono hext, f, target, m₁.holder target, m.graph.links.size,
        hext.entry hb, hg, entryAt?_holder hR, ?_⟩
      exact (mem_linksFrom_attach hR).mpr (.inl ⟨rfl, rfl, rfl⟩)
    · exact .inl ha
  -- a path that was not there before goes through the new link, over which all are revisited
  · intro a v hn he
    by_cases hl : m.graph.links.size ∈ a.links
    · refine .inr ⟨.revisit a.node m.graph.links.size, List.mem_append_left _ ?_, rfl, hl⟩
      exact List.mem_append_left _ (List.mem_map.mpr ⟨a.node, hn, rfl⟩)
    · exact .inl {
        calls := h.calls_of_extends hext hn he.calls
        parses := he.parses
        walk := walk_of_attach hR he.walk hl
        length_eq := he.length_eq }
  · intro a v _ _ hc
    refine .inl ?_
    show a ∈ (m₁.attach target p.bottom m.forest.size).generation.applied
    rw [applied_attach, hc]
    exact List.mem_cons_self

/-- Every task is done in this way. -/
theorem handles_performs (h : Working table points m) {t : Task} {p : Progress}
    (ht : t.Sound table points m.graph m.generation.processed)
    (hp : Performs table config m t p) (hm : p.next? = some m') : Handles table points m t m' := by
  cases hp with
  | accept n id =>
    obtain rfl := Option.some.inj hm
    exact { accepting := by simp, accept := by simp, covers := fun _ _ _ _ hc => hc.elim }
  | shift n target =>
    obtain rfl := Option.some.inj hm
    refine {
      shifts := fun s hs => List.mem_append_left _ hs
      covers := fun _ _ _ _ hc => hc.elim
      shift := ?_ }
    intro n' target' ht
    obtain ⟨rfl, rfl⟩ := Task.shift.inj ht
    exact List.mem_append_right _ (List.mem_singleton_self _)
  | check n r forbidden through =>
    obtain rfl := Option.some.inj hm
    exact h.handles_check
  -- what is skipped is not parsed with
  | skip n r through l hl hu =>
    obtain rfl := Option.some.inj hm
    refine { covers := ?_ }
    rintro a v he - ⟨-, rfl, -⟩
    obtain ⟨l', hl', hu'⟩ := he.parses
    obtain rfl := Option.some.inj (hl.symm.trans hl')
    exact absurd hu (by simp [hu'])
  | reduce n r through l hl hu =>
    obtain rfl := Option.some.inj hm
    exact handles_reduce
  | repeated n r rejecting p hd ha =>
    -- what is repeated has been applied before
    obtain rfl := Option.some.inj hm
    exact { covers := fun a v _ _ hc => .inl (by rw [hc]; exact ha) }
  | lost n r rejecting p hb => exact absurd hb (h.state?_bottom_ne_none ht)
  | pack n r rejecting p id target l hd hb hg hf =>
    obtain rfl := Option.some.inj hm
    rw [StackGraph.state?_eq_entryAt?, Option.map_eq_some_iff] at hb
    obtain ⟨f, hb, rfl⟩ := hb
    exact h.handles_pack ht hb hg hf
  | link n r rejecting p id target hd hb hg hf =>
    obtain rfl := Option.some.inj hm
    rw [StackGraph.state?_eq_entryAt?, Option.map_eq_some_iff] at hb
    obtain ⟨f, hb, rfl⟩ := hb
    exact h.handles_link ht hb hg
  -- no live path starts from a node that is rejected altogether
  | stop n l hr =>
    obtain rfl := Option.some.inj hm
    refine { covers := ?_ }
    rintro a v he hlinks ⟨rfl, hl⟩
    have hlive : a.Live m.graph := ⟨hlinks, fun hnil => absurd hl (by simp [hnil])⟩
    rw [hlive.not_allRejected he.walk] at hr
    exact absurd hr (by simp)
  | revisit n l hr =>
    obtain rfl := Option.some.inj hm
    exact h.handles_revisit ht
  | reject l source target =>
    obtain rfl := Option.some.inj hm
    refine {
      graph := StackGraph.extends_reject ..
      joined := ?_
      enabled := ?_
      covers := fun _ _ _ _ hc => hc.elim }
    · exact fun _ => .inl
    · intro a v _ he
      exact .inl ⟨he.calls, he.parses, StackGraph.walk_reject_iff.mp he.walk, he.length_eq⟩
  | unknownLabel | unknownBottom | gap | unknownState => exact absurd hm (by simp [Progress.next?])

end Working

/-! ### Dispatching a node -/

/-- Dispatching a node leaves nothing undone, as long as all of its items that are due become
tasks. -/
theorem Thorough.taking (h : Thorough table points [] m) {queue : List NodeId}
    (hm : Working table points (m.taking n queue)) (id : StateId) (tasks : List Task)
    (htasks : ∀ item ∈ (m.taking n queue).dueItems table n, item.task n id ∈ tasks) :
    Thorough table points tasks (m.taking n queue) := by
  have hn := mem_processed_taking m n queue
  have hcases : ∀ x ∈ (m.taking n queue).generation.processed, x ∈ m.generation.processed ∨ x = n :=
    fun x hx => (List.mem_append.mp hx).imp_right List.mem_singleton.mp
  have hdue : (m.taking n queue).graph.allRejected n = false →
      ∀ item ∈ itemsOf table m.token m.graph n, item.task n id ∈ tasks :=
    fun hr item hi => htasks item (dueItems_eq hr ▸ hi)
  refine { covered := ?_, joined := ?_, shifted := ?_, accepted := ?_ }
  · intro a v ha he hl
    rcases hcases _ ha with ha' | rfl
    · rcases h.covered a v ha' he hl with happ | ⟨t, ht, -⟩
      · exact .inl happ
      · exact absurd ht List.not_mem_nil
    -- the node that is taken has all its items that are due on the agenda
    · obtain ⟨item, hi, hc⟩ := hm.exists_item ha he
      exact .inr ⟨_, hdue (hl.not_allRejected he.walk) item hi, hc.covers_task id⟩
  · intro a ha
    obtain ⟨ha, hv⟩ := h.joined a ha
    exact ⟨List.mem_append_left _ ha, hv⟩
  · intro x target hx ho hl
    rcases hcases x hx with hx' | rfl
    · rcases h.shifted x target hx' ho hl with hs | ht
      · exact .inl hs
      · exact absurd ht List.not_mem_nil
    · refine .inr (hdue (StackGraph.allRejected_eq_false hl) (.shift target) ?_)
      exact (hm.offers_iff hx).mp ho
  · intro x hx ho
    rcases hcases x hx with hx' | rfl
    · rcases h.accepted x hx' ho with ha | ⟨_, ht⟩
      · exact .inl ha
      · exact absurd ht List.not_mem_nil
    · exact .inr ⟨id, htasks .accept (accept_mem_dueItems ((hm.offers_iff hx).mp ho))⟩

/-- Every step leaves nothing undone. -/
theorem Thorough.moves (h : Thorough table points m.agenda m) (hm : Working table points m)
    (hmoves : Moves table config m m') : Thorough table points m'.agenda m' := by
  obtain ⟨p, hp, hnext⟩ := hmoves.works
  cases hp with
  | @task t agenda _ ha hp =>
    obtain ⟨ht, hm'⟩ := hm.tail ha
    rw [ha] at h
    have h' : Thorough table points (t :: agenda) { m with agenda } := { h with }
    exact h'.handles hm' (hm'.handles_performs ht hp hnext)
  | @dispatch n queue _ ha hq hp =>
    have hm' := hm.taking ha hq
    rw [ha] at h
    obtain ⟨id, agenda, events, rfl, htasks⟩ := hp.exists_agenda hnext
    exact { h.taking hm' id agenda htasks with }
  | idle ha hq => exact absurd hnext (by simp [Progress.next?])

/-- Whenever a machine is at work, nothing is left undone. -/
theorem Reached.thorough (h : Reached table config points ⟨.working, m⟩) :
    Thorough table points m.agenda m := by
  refine h.working_induction (motive := fun m => Thorough table points m.agenda m)
    (fun m token cursor hm => ?_) fun m m' hm hmoves ih => ih.moves hm.working hmoves
  have hb := hm.between
  have hp : (m.read token cursor).generation.processed = [] := hb.processed
  have happ : (m.read token cursor).generation.applied = [] := hb.applied
  exact {
    covered := fun a v hn => absurd hn (by simp [hp])
    joined := fun a ha => absurd ha (by simp [happ])
    shifted := fun n target hn => absurd hn (by simp [hp])
    accepted := fun n hn => absurd hn (by simp [hp]) }

/-- A machine that is idle has applied all reductions of its level along paths without rejected
links. -/
theorem Working.mem_applied_of_live (h : Working table points m)
    (ht : Thorough table points m.agenda m) (hi : m.work table config = .idle m)
    {a : Application} {v : NodeId} {s : StateId}
    (he : m.graph.entryAt? a.node = some ⟨s, m.generation.level⟩)
    (ha : a.Enabled table points m.graph v) (hl : a.Live m.graph) : a ∈ m.generation.applied := by
  have hn := h.processed_of_idle hi he
  rcases ht.covered a v hn ha hl with happ | ⟨t, ht, -⟩
  · exact happ
  · rw [(work_eq_idle hi).2.1] at ht
    exact absurd ht List.not_mem_nil

end ScannerlessLR
