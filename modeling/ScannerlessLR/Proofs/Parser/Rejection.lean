/-
How rejections are enforced.

A rejecting reduction rejects the link that it builds, though not at once: all that the
new link makes possible is reduced first.  Until then its rejection is on the agenda,
and nothing in front of it comes to the same reduction again.  So whenever a reduction
is met a second time, its rejection has been carried out.

A rejected link stays in the graph, and paths go on leading over it.  What a rejecting
reduction has built is kept from the accepting path as an alternative, but not from
below.

* `Awaited` — the rejection of a link is on the agenda;
* `Enforced` — the rejections of all reductions applied are carried out or awaited;
* `Reached.enforced` — they are whenever a machine is at work;
* `rejected_apart` — what rejecting reductions have built is found on rejected links.
-/
import ScannerlessLR.Proofs.Parser.Origin

namespace ScannerlessLR

/-- A task to reduce along a path rejects if its reduction does. -/
def Task.Marked (table : Table) : Task → Prop
  | .apply _ r rejecting _ => table.Rejects r → rejecting = true
  | .accept .. | .shift .. | .check .. | .reduce .. | .revisit .. | .reject .. => True

/-- The link `l` is to be rejected, and no task in front of that comes to the reduction `a`. -/
def Awaited (points : Array UInt32) (level : ℕ) (tasks : List Task) (a : Application) (l : LinkId) :
    Prop :=
  ∃ before source target after, tasks = before ++ .reject l source target :: after ∧
    ∀ t ∈ before, ¬ t.Covers points level a

/-- The rejections of all reductions applied have been carried out, or are still to be while `tasks`
are done. -/
structure Enforced (table : Table) (points : Array UInt32) (tasks : List Task) (m : Machine) :
    Prop where
  marked : ∀ t ∈ tasks, t.Marked table
  rejected : ∀ a ∈ m.generation.applied, table.Rejects a.reduction → ∃ w v l,
    (l, v) ∈ m.graph.linksFrom w ∧ a.Builds table points m.graph w v ∧
      (m.graph.isRejected l = true ∨ Awaited points m.generation.level tasks a l)

open Machine

variable {table : Table} {config : Config} {points : Array UInt32} {m m' : Machine}
  {g : StackGraph} {a : Application} {n w v w' v' : NodeId} {l l' : LinkId} {t id : TreeId}
  {x y : Moment}

theorem StackGraph.isRejected_reject_self (h : l < g.links.size) :
    (g.reject l).isRejected l = true := by
  simp [reject, isRejected, Array.getElem?_modify, Array.getElem?_eq_getElem h]

theorem not_awaited_nil {level : ℕ} : ¬ Awaited points level [] a l := by
  rintro ⟨before, source, target, after, h, -⟩
  exact absurd h.symm (by simp)

/-- What is awaited stays awaited behind tasks that do not come to the reduction. -/
theorem Awaited.append {level : ℕ} {tasks : List Task} (h : Awaited points level tasks a l)
    {new : List Task} (hnew : ∀ t ∈ new, ¬ t.Covers points level a) :
    Awaited points level (new ++ tasks) a l := by
  obtain ⟨before, source, target, after, rfl, hbefore⟩ := h
  refine ⟨new ++ before, source, target, after, by rw [List.append_assoc], fun t ht => ?_⟩
  rcases List.mem_append.mp ht with ht | ht
  · exact hnew t ht
  · exact hbefore t ht

/-- Either the rejection is the next task, or the next task does not come to the reduction. -/
theorem Awaited.cases_cons {level : ℕ} {t : Task} {tasks : List Task}
    (h : Awaited points level (t :: tasks) a l) :
    (∃ source target, t = .reject l source target) ∨
      ¬ t.Covers points level a ∧ Awaited points level tasks a l := by
  obtain ⟨before, source, target, after, heq, hbefore⟩ := h
  cases before with
  | nil => exact .inl ⟨source, target, (List.cons.inj heq).1⟩
  | cons t' before =>
    obtain ⟨rfl, rfl⟩ := List.cons.inj heq
    exact .inr ⟨hbefore t List.mem_cons_self, before, source, target, after, rfl,
      fun t' ht' => hbefore t' (List.mem_cons_of_mem _ ht')⟩

/-! ### What a task puts on the agenda -/

/-- The tasks `new`, which replace the task `t`, come to no reduction that `t` has not come to. -/
structure Spawns (table : Table) (points : Array UInt32) (m : Machine) (t : Task)
    (new : List Task) : Prop where
  marked : ∀ t' ∈ new, t'.Marked table
  covers : ∀ t' ∈ new, ∀ a v, a.Enabled table points m.graph v →
    t'.Covers points m.generation.level a → t.Covers points m.generation.level a

namespace Spawns

theorem nil {t : Task} : Spawns table points m t [] :=
  ⟨fun _ h => absurd h List.not_mem_nil, fun _ h => absurd h List.not_mem_nil⟩

/-- A rejection comes to nothing. -/
theorem rejection {t : Task} {rejecting : Bool} {source target : StateId} :
    Spawns table points m t (if rejecting then [Task.reject l source target] else []) := by
  split
  · constructor
    · intro t' ht'
      obtain rfl := List.mem_singleton.mp ht'
      trivial
    · intro t' ht' a v _ hc
      obtain rfl := List.mem_singleton.mp ht'
      exact hc.elim
  · exact nil

theorem append {t : Task} {new new' : List Task} (h : Spawns table points m t new)
    (h' : Spawns table points m t new') : Spawns table points m t (new ++ new') where
  marked := fun t' ht' => (List.mem_append.mp ht').elim (h.marked t') (h'.marked t')
  covers := fun t' ht' => (List.mem_append.mp ht').elim (h.covers t') (h'.covers t')

end Spawns

namespace Working

theorem spawns_check (h : Working table points m) {r : Reduction} {forbidden : List RangeSet}
    {through : Option LinkId} : Spawns table points m (.check n r forbidden through)
      (if (m.cursor.checkFollow forbidden).permitted then [Task.reduce n r through] else []) := by
  split
  · rename_i hp
    constructor
    · intro t' ht'
      obtain rfl := List.mem_singleton.mp ht'
      trivial
    · intro t' ht' a v _ hc
      obtain rfl := List.mem_singleton.mp ht'
      obtain ⟨hn, hr, hthrough⟩ := hc
      exact ⟨hn, hr, hthrough, h.permitted_iff.mp hp⟩
  · exact .nil

theorem spawns_reduce {r : Reduction} {through : Option LinkId} {label : Label}
    (hl : table.label? r.label = some label) : Spawns table points m (.reduce n r through)
      (m.applications n r (rejects r label) through) := by
  constructor
  · intro t' ht'
    obtain ⟨p, -, rfl⟩ := List.mem_map.mp ht'
    rintro ⟨label', hl', hr⟩
    obtain rfl := Option.some.inj (hl.symm.trans hl')
    simpa [rejects] using hr
  · intro t' ht' a v _ hc
    obtain ⟨p, hp, rfl⟩ := List.mem_map.mp ht'
    obtain rfl := hc
    exact ⟨rfl, rfl, (List.mem_filter.mp hp).2⟩

theorem spawns_revisit : Spawns table points m (.revisit n l)
    ((itemsOf table m.token m.graph n).filterMap (·.reductionTask? n (some l))) := by
  constructor
  · intro t' ht'
    obtain ⟨item, -, hitem⟩ := List.mem_filterMap.mp ht'
    rcases ActionItem.reductionTask?_cases hitem with ⟨r, -, rfl⟩ | ⟨r, forbidden, -, rfl⟩ <;>
      trivial
  · intro t' ht' a v _ hc
    obtain ⟨item, -, hitem⟩ := List.mem_filterMap.mp ht'
    rcases ActionItem.reductionTask?_cases hitem with ⟨r, -, rfl⟩ | ⟨r, forbidden, -, rfl⟩
    · exact ⟨hc.1, by simpa using hc.2.2⟩
    · exact ⟨hc.1, by simpa using hc.2.2.1⟩

/-- No reduction that is enabled already leads over a link that is only made now. -/
theorem spawns_followUps (h : Working table points m) {t : Task} {source target : StateId}
    {rejecting : Bool} : Spawns table points m t
      (m.followUps m.graph.links.size source target rejecting) := by
  refine Spawns.append ⟨?_, ?_⟩ .rejection
  · intro t' ht'
    obtain ⟨x, -, rfl⟩ := List.mem_map.mp ht'
    trivial
  · intro t' ht' a v ha hc
    obtain ⟨x, -, rfl⟩ := List.mem_map.mp ht'
    exact absurd (ha.walk.link_lt h.roster.wf hc.2) (Nat.lt_irrefl _)

/-- A task puts others on the agenda that come to nothing new. -/
theorem performs_spawns (h : Working table points m) {t : Task} {p : Progress}
    (hp : Performs table config m t p) (hm : p.next? = some m') :
    ∃ new, m'.agenda = new ++ m.agenda ∧ Spawns table points m t new := by
  cases hp with
  | accept | shift | skip | repeated | lost | stop | reject =>
    obtain rfl := Option.some.inj hm
    exact ⟨[], rfl, .nil⟩
  | check =>
    obtain rfl := Option.some.inj hm
    exact ⟨_, rfl, h.spawns_check⟩
  | reduce n r through label hl =>
    obtain rfl := Option.some.inj hm
    exact ⟨_, rfl, spawns_reduce hl⟩
  | pack =>
    obtain rfl := Option.some.inj hm
    exact ⟨_, rfl, .rejection⟩
  | link n r rejecting p id target =>
    obtain rfl := Option.some.inj hm
    refine ⟨m.followUps m.graph.links.size target id rejecting, ?_, h.spawns_followUps⟩
    show _ ++ ((m.reducing n r p id target).attach target p.bottom m.forest.size).agenda = _
    rw [agenda_attach]
    rfl
  | revisit =>
    obtain rfl := Option.some.inj hm
    exact ⟨_, rfl, spawns_revisit⟩
  | unknownLabel | unknownBottom | gap | unknownState => exact absurd hm (by simp [Progress.next?])

/-- A reduction that is applied has its link, and if it rejects, the rejection is awaited. -/
theorem performs_applied (h : Working table points m) {t : Task} {p : Progress}
    (ht : t.Sound table points m.graph m.generation.processed) (hmark : t.Marked table)
    (hp : Performs table config m t p) (hm : p.next? = some m') :
    m'.generation.applied = m.generation.applied ∨ ∃ a w v l,
      m'.generation.applied = a :: m.generation.applied ∧ (l, v) ∈ m'.graph.linksFrom w ∧
      a.Builds table points m'.graph w v ∧
      (table.Rejects a.reduction → Awaited points m.generation.level m'.agenda a l) := by
  cases hp with
  | accept | shift | check | skip | reduce | repeated | stop | revisit | reject =>
    obtain rfl := Option.some.inj hm
    exact .inl rfl
  | lost n r rejecting p hb => exact absurd hb (h.state?_bottom_ne_none ht)
  | pack n r rejecting p id target l hd hb hg hf =>
    obtain rfl := Option.some.inj hm
    have hmem := StackGraph.mem_of_findLink? hf
    refine .inr ⟨_, _, _, l, rfl, hmem, (h.builds_iff (reducible ht hb hg hd) hmem).mpr hf, ?_⟩
    -- the rejection becomes the next task
    intro hrej
    obtain rfl := hmark hrej
    exact ⟨[], _, _, _, rfl, fun _ h => absurd h List.not_mem_nil⟩
  | link n r rejecting p id target hd hb hg hf =>
    obtain rfl := Option.some.inj hm
    have hr := reducible ht hb hg hd
    have hgraph : ((m.reducing n r p id target).attach target p.bottom m.forest.size).graph =
        (m.attach target p.bottom m.forest.size).graph :=
      graph_attach_congr target p.bottom _ (m.reducing n r p id target) rfl rfl rfl
    refine .inr ⟨⟨p.links, n, r⟩, m.holder target, p.bottom, m.graph.links.size,
      applied_attach _ target p.bottom m.forest.size, ?_, ?_, fun hrej => ?_⟩
    · show _ ∈ ((m.reducing n r p id target).attach target p.bottom m.forest.size).graph.linksFrom _
      rw [hgraph]
      exact (mem_linksFrom_attach h.roster).mpr (.inl ⟨rfl, rfl, rfl⟩)
    · show Application.Builds table points
        ((m.reducing n r p id target).attach target p.bottom m.forest.size).graph _ _ _
      rw [hgraph]
      exact h.builds_attach hr _
    obtain rfl := hmark hrej
    refine ⟨m.generation.processed.map (Task.revisit · m.graph.links.size), target, id, _,
      List.append_assoc .., ?_⟩
    -- the path of the reduction is older than the link
    intro t ht hc
    obtain ⟨y, -, rfl⟩ := List.mem_map.mp ht
    exact absurd (hr.enabled.walk.link_lt h.roster.wf hc.2) (Nat.lt_irrefl _)
  | unknownLabel | unknownBottom | gap | unknownState => exact absurd hm (by simp [Progress.next?])

end Working

/-! ### Every step enforces rejections -/

/-- Doing a task enforces the rejections. -/
theorem Enforced.performs {t : Task} {p : Progress} (h : Enforced table points (t :: m.agenda) m)
    (hw : Working table points m) (ht : t.Sound table points m.graph m.generation.processed)
    (hp : Performs table config m t p) (hm : p.next? = some m') :
    Enforced table points m'.agenda m' := by
  have hext := hw.extends_of_changes (hw.performs_changes ht hp hm)
  have hlevel := (performs_frame hp hm).1
  obtain ⟨new, hagenda, hnew⟩ := hw.performs_spawns hp hm
  have hold : ∀ a ∈ m.generation.applied, table.Rejects a.reduction → ∃ w v l,
      (l, v) ∈ m'.graph.linksFrom w ∧ a.Builds table points m'.graph w v ∧
        (m'.graph.isRejected l = true ∨ Awaited points m.generation.level m'.agenda a l) := by
    intro a ha hrej
    obtain ⟨w, v, l, hmem, hb, hl⟩ := h.rejected a ha hrej
    refine ⟨w, v, l, hext.mem hmem, hb.mono hext, ?_⟩
    rcases hl with hl | hl
    · exact .inl (hext.rejected hl)
    · rcases hl.cases_cons with ⟨source, target, rfl⟩ | ⟨hcovers, hl⟩
      -- the rejection is carried out in this step
      · cases hp with
        | reject =>
          obtain rfl := Option.some.inj hm
          exact .inl (StackGraph.isRejected_reject_self (hw.roster.wf.link_lt hmem))
      · rw [hagenda]
        exact .inr (hl.append fun t' ht' hc => hcovers (hnew.covers t' ht' a v hb.enabled hc))
  constructor
  · intro t' ht'
    rw [hagenda] at ht'
    rcases List.mem_append.mp ht' with ht' | ht'
    · exact hnew.marked t' ht'
    · exact h.marked t' (List.mem_cons_of_mem _ ht')
  · rw [hlevel]
    rcases hw.performs_applied ht (h.marked t List.mem_cons_self) hp hm with
      heq | ⟨a, w, v, l, heq, hmem, hb, hl⟩
    · rw [heq]
      exact hold
    · rw [heq]
      intro b hmemb hrej
      rcases List.mem_cons.mp hmemb with rfl | hmemb
      · exact ⟨w, v, l, hmem, hb, .inr (hl hrej)⟩
      · exact hold b hmemb hrej

/-- Every step enforces the rejections. -/
theorem Enforced.moves (h : Enforced table points m.agenda m) (hw : Working table points m)
    (hmoves : Moves table config m m') : Enforced table points m'.agenda m' := by
  obtain ⟨p, hp, hm⟩ := hmoves.works
  cases hp with
  | @task t agenda _ ha hp =>
    obtain ⟨ht, hw'⟩ := hw.tail ha
    rw [ha] at h
    have h' : Enforced table points (t :: agenda) { m with agenda } := { h with }
    exact h'.performs hw' ht hp hm
  | @dispatch n queue _ ha hq hp =>
    -- the agenda is empty, so all rejections have been carried out
    have hdone : ∀ a ∈ m.generation.applied, table.Rejects a.reduction → ∃ w v l,
        (l, v) ∈ m.graph.linksFrom w ∧ a.Builds table points m.graph w v ∧
          m.graph.isRejected l = true := by
      intro a happ hrej
      obtain ⟨w, v, l, hmem, hb, hl⟩ := h.rejected a happ hrej
      rw [ha] at hl
      exact ⟨w, v, l, hmem, hb, hl.resolve_right not_awaited_nil⟩
    have hrejected : ∀ {tasks : List Task}, ∀ a ∈ m.generation.applied,
        table.Rejects a.reduction → ∃ w v l, (l, v) ∈ m.graph.linksFrom w ∧
          a.Builds table points m.graph w v ∧ (m.graph.isRejected l = true ∨
            Awaited points m.generation.level tasks a l) := by
      intro tasks a happ hrej
      obtain ⟨w, v, l, hmem, hb, hl⟩ := hdone a happ hrej
      exact ⟨w, v, l, hmem, hb, .inl hl⟩
    cases hp with
    | nothing hi =>
      obtain rfl := Option.some.inj hm
      exact ⟨fun t ht => h.marked t ht, hrejected⟩
    | items id hn =>
      obtain rfl := Option.some.inj hm
      refine ⟨fun t ht => ?_, hrejected⟩
      rcases List.mem_append.mp ht with ht | ht
      · obtain ⟨item, -, rfl⟩ := List.mem_map.mp ht
        -- only applying a reduction has a mark to be right
        cases item <;> trivial
      · exact h.marked t ht
    | unknownState => exact absurd hm (by simp [Progress.next?])
  | idle ha hq => exact absurd hm (by simp [Progress.next?])

/-- Whenever a machine is at work, rejections are enforced. -/
theorem Reached.enforced (h : Reached table config points ⟨.working, m⟩) :
    Enforced table points m.agenda m := by
  refine h.working_induction (motive := fun m => Enforced table points m.agenda m)
    (fun m token cursor hm => ?_) fun m m' hm hmoves ih => ih.moves hm.working hmoves
  have happ : (m.read token cursor).generation.applied = [] := hm.between.applied
  exact ⟨fun t ht => absurd ht (by simp [hm.agenda_read]), fun a ha => absurd ha (by simp [happ])⟩

/-! ### At the end of a parse -/

/-- A reduction builds one link only. -/
theorem Application.Builds.ends_unique (h : a.Builds table points g w v)
    (h' : a.Builds table points g w' v') (hwf : g.WellFormed)
    (hunique : ∀ n n' e, g.entryAt? n = some e → g.entryAt? n' = some e → n = n') :
    w = w' ∧ v = v' := by
  obtain ⟨ha, d, ⟨s, k⟩, f, hd, he, hf, hpos, hgoto⟩ := h
  obtain ⟨ha', d', ⟨s', k'⟩, f', hd', he', hf', hpos', hgoto'⟩ := h'
  obtain rfl := ha.walk.unique hwf ha'.walk
  obtain rfl := Option.some.inj (hd.symm.trans hd')
  obtain rfl := Option.some.inj (hf.symm.trans hf')
  obtain rfl : s = s' := Option.some.inj (hgoto.symm.trans hgoto')
  obtain rfl : k = k' := hpos.symm.trans hpos'
  exact ⟨hunique _ _ _ he he', rfl⟩

/-- Once a machine has done its work at a point, the links of all rejecting reductions are
rejected. -/
theorem Reached.rejected_reaches (hx : Reached table config points ⟨.working, m⟩)
    (ha : a ∈ m.generation.applied) (hrej : table.Rejects a.reduction)
    (hr : Relation.ReflTransGen (Next table config) ⟨.working, m⟩ y) :
    y.phase = .working ∧ a ∈ y.machine.generation.applied ∨ ∃ w v l,
      (l, v) ∈ y.machine.graph.linksFrom w ∧ a.Builds table points y.machine.graph w v ∧
        y.machine.graph.isRejected l = true := by
  induction hr with
  | refl => exact .inl ⟨rfl, ha⟩
  | @tail y z hr hn ih =>
    have hy := hx.reaches hr
    rcases ih with ⟨hphase, hmem⟩ | ⟨w, v, l, hmem, hb, hl⟩
    -- with nothing on the agenda no rejection is awaited any more
    · have hidle : ∀ m₁, y = ⟨.working, m₁⟩ → m₁.work table config = .idle m₁ → ∃ w v l,
          (l, v) ∈ m₁.graph.linksFrom w ∧ a.Builds table points m₁.graph w v ∧
            m₁.graph.isRejected l = true := by
        rintro m₁ rfl hi
        obtain ⟨w, v, l, hl, hb, hdone⟩ := hy.enforced.rejected a hmem hrej
        rw [(work_eq_idle hi).2.1] at hdone
        exact ⟨w, v, l, hl, hb, hdone.resolve_right not_awaited_nil⟩
      cases hn with
      | @work m₁ m₂ hm =>
        refine .inl ⟨rfl, ?_⟩
        cases hy.working.changes hm with
        | still hg hf happ | reject l hr hg hf happ => exact happ ▸ hmem
        | pack b v target l t hr hl ht hg hf happ => exact happ ▸ List.mem_cons_of_mem _ hmem
        | link b v target hr hl hg hf happ => exact happ ▸ List.mem_cons_of_mem _ hmem
      | turn hi | leaf hi =>
        have hdone := hidle _ rfl hi
        exact .inr hdone
      | read | shift | shifted | strand => exact absurd hphase (by simp)
    -- rejections are never taken back
    · have hext := hy.ordered.extends_next hn
      exact .inr ⟨w, v, l, hext.mem hmem, hb.mono hext, hext.rejected hl⟩

/-- In the end the links that rejecting reductions have built are rejected. -/
theorem Ended.isRejected (h : Ended table config points m) (ha : Performed table config points a)
    (hrej : table.Rejects a.reduction) (hl : (l, v) ∈ m.graph.linksFrom w)
    (hb : a.Builds table points m.graph w v) : m.graph.isRejected l = true := by
  obtain ⟨m₀, m₁, h₀, hm, happ⟩ := ha
  have h₁ := h₀.next (.work hm)
  obtain ⟨phase, hphase, hr⟩ := h.reaches h₁
  have hmem : a ∈ m₁.generation.applied := happ ▸ List.mem_cons_self
  have hy := h₁.reaches hr
  rcases h₁.rejected_reaches hmem hrej hr with ⟨hworking, -⟩ | ⟨w', v', l', hl', hb', hdone⟩
  · rcases hphase with rfl | rfl <;> exact absurd hworking (by simp)
  · have hwf := hy.ordered.roster.wf
    obtain ⟨rfl, rfl⟩ := hb.ends_unique hb' hwf fun _ _ _ => hy.entry_unique
    rwa [hwf.link_unique hl hl']

/-- The tree at `id` is an alternative of the link `l`, and what the reduction `a`, which has been
applied, builds for the link. -/
structure BuiltBy (table : Table) (config : Config) (points : Array UInt32) (g : StackGraph)
    (f : Forest) (l : LinkId) (id : TreeId) (a : Application) : Prop where
  performed : Performed table config points a
  builds : ∃ w v, (l, v) ∈ g.linksFrom w ∧ a.Builds table points g w v
  alternative : ∃ t, g.tree? l = some t ∧ id ∈ f.alternatives t
  derives : Derives g f id a

namespace Reached

/-- An application among the alternatives of a tree in use is built for a link that carries the
tree. -/
theorem exists_builtBy (hx : Reached table config points x) (hu : x.Uses t)
    (hid : id ∈ x.machine.forest.alternatives t) {label : LabelId} {children : List TreeId}
    (hget : x.machine.forest.get? id = some (.apply label children)) :
    ∃ l a, BuiltBy table config points x.machine.graph x.machine.forest l id a ∧
      x.machine.graph.tree? l = some t := by
  obtain ⟨a, l, w, v, hp, ht, hl, hb, hc⟩ :=
    (hx.stocked.origin t _ hu ⟨id, hid, hget⟩).exists_reduction rfl
  refine ⟨l, a, ⟨hp, ⟨w, v, hl, hb⟩, ⟨t, ht, hid⟩, ?_⟩, ht⟩
  exact hb.enabled.derives hx.ordered.roster.wf (hget.trans (congrArg some hc))

/-- From trees in use, no others are reached than trees in use and their alternatives. -/
theorem within (hx : Reached table config points x) {ids : List TreeId}
    (hroots : ∀ id ∈ ids, x.Uses id) (h : x.machine.forest.Within ids id) :
    ∃ t, x.Uses t ∧ id ∈ x.machine.forest.family t := by
  induction h with
  | @root id h => exact ⟨id, hroots id h, Forest.mem_family_self _ _⟩
  | @part id part c _ hget hpart ih =>
    obtain ⟨t, hu, hid⟩ := ih
    cases c with
    | leaf point => exact absurd hpart List.not_mem_nil
    | amb alternatives =>
      -- an ambiguity is a tree in use, for the alternatives of such trees are none
      rcases List.mem_cons.mp hid with rfl | hid
      · refine ⟨id, hu, Forest.mem_family_of_mem_alternatives ?_⟩
        rwa [Forest.alternatives_of_amb hget]
      · exact absurd hget (hx.tidy.flat hu id hid alternatives)
    | apply label children =>
      have hid : id ∈ x.machine.forest.alternatives t := by
        rcases List.mem_cons.mp hid with rfl | hid
        · rw [Forest.alternatives_of_plain hget trivial]
          exact List.mem_singleton_self _
        · exact hid
      obtain ⟨a, l, w, v, -, -, -, -, hc⟩ :=
        (hx.stocked.origin t _ hu ⟨id, hid, hget⟩).exists_reduction rfl
      obtain ⟨-, rfl⟩ := Tree.apply.inj hc
      obtain ⟨l', -, hl'⟩ := List.mem_filterMap.mp hpart
      exact ⟨part, .inl ⟨l', hl'⟩, Forest.mem_family_self _ _⟩

end Reached

/-- An application that is reached from the trees of links is built for a link. -/
theorem Ended.exists_builtBy (h : Ended table config points m) {ids : List TreeId}
    (hroots : ∀ id ∈ ids, ∃ l, m.graph.tree? l = some id) (hid : m.forest.Within ids id)
    {label : LabelId} {children : List TreeId}
    (hget : m.forest.get? id = some (.apply label children)) :
    ∃ l a, BuiltBy table config points m.graph m.forest l id a := by
  obtain ⟨phase, -, hx⟩ := h.exists_reached
  obtain ⟨t, hu, hfamily⟩ := hx.within (fun id hid => .inl (hroots id hid)) hid
  have hid : id ∈ m.forest.alternatives t := by
    rcases List.mem_cons.mp hfamily with rfl | hid
    · rw [Forest.alternatives_of_plain hget trivial]
      exact List.mem_singleton_self _
    · exact hid
  obtain ⟨l, a, hbuilt, -⟩ := hx.exists_builtBy hu hid hget
  exact ⟨l, a, hbuilt⟩

theorem Ended.isRejected_of_builtBy (h : Ended table config points m)
    (hb : BuiltBy table config points m.graph m.forest l id a)
    (hrej : table.Rejects a.reduction) : m.graph.isRejected l = true := by
  obtain ⟨w, v, hl, hbuilds⟩ := hb.builds
  exact h.isRejected hb.performed hrej hl hbuilds

/-- The trees of the links of a path. -/
theorem Parse.exists_link (p : Parse) : ∀ id ∈ p.trees, ∃ l, p.graph.tree? l = some id := by
  intro id h
  obtain ⟨l, -, hl⟩ := List.mem_filterMap.mp h
  exact ⟨l, hl⟩

/-- A parse that succeeds takes a path over links that are not rejected.  If a reduction has made
such a link, none of the alternatives of its tree is what a rejecting reduction has built.  What
else is reached from the trees of the parse has been built for links too, and these are rejected if
a rejecting reduction has built it. -/
theorem rejected_apart {input : String} {p : Parse}
    (hp : (parse table input config).result = .ok p) :
    (∀ l ∈ p.path, p.graph.isRejected l = false) ∧
    (∀ l t id, LinkedByReduction table config (inputPoints config input.toList) l →
      p.graph.isRejected l = false → p.graph.tree? l = some t → id ∈ p.forest.alternatives t →
      (∃ a, BuiltBy table config (inputPoints config input.toList) p.graph p.forest l id a) ∧
      ∀ a, BuiltBy table config (inputPoints config input.toList) p.graph p.forest l id a →
        ¬ table.Rejects a.reduction) ∧
    ∀ id label children, p.forest.Within p.trees id →
      p.forest.get? id = some (.apply label children) →
      (∃ l a, BuiltBy table config (inputPoints config input.toList) p.graph p.forest l id a) ∧
      ∀ l a, BuiltBy table config (inputPoints config input.toList) p.graph p.forest l id a →
        table.Rejects a.reduction → p.graph.isRejected l = true := by
  have hroots := p.exists_link
  obtain ⟨m, n, hm, -, -, hlive, hg, hf⟩ := parse_ok hp
  rw [hg] at hroots
  rw [hg, hf]
  obtain ⟨phase, -, hx⟩ := hm.exists_reached
  refine ⟨(StackGraph.liveWalk_of_livePath? hlive).2, ?_, ?_⟩
  · intro l t id hmade hnot ht hid
    refine ⟨?_, fun a hb hrej => ?_⟩
    · have hu : Moment.Uses ⟨phase, m⟩ t := .inl ⟨l, ht⟩
      obtain ⟨c, hget, -, hc⟩ := hx.tidy.exists_holds hu hid
      cases hx.stocked.origin t c hu hc with
      -- a leaf comes first, and first comes what has been built when the link was made
      | shift point h =>
        exact absurd hmade (hx.not_linked_of_leaf ht (hx.stocked.leaves t point hu hc))
      | reduction a l' w v hperf ht' hl hb =>
        obtain rfl := hx.eq_of_linked hmade ht ht'
        exact ⟨a, hperf, ⟨w, v, hl, hb⟩, ⟨t, ht, hid⟩, hb.enabled.derives hx.ordered.roster.wf hget⟩
    · rw [hm.isRejected_of_builtBy hb hrej] at hnot
      exact absurd hnot (by simp)
  · intro id label children hid hget
    exact ⟨hm.exists_builtBy hroots hid hget, fun l a hb hrej => hm.isRejected_of_builtBy hb hrej⟩

/-- A table with a rejecting reduction, and with one that leads over the link that it rejects. -/
def Table.blend : Table where
  start := 0
  states := [
    { id := 0, gotos := [⟨.single 257, 1⟩, ⟨.single 258, 2⟩, ⟨.single 259, 3⟩],
      actions := [⟨.single 256, [.reduce ⟨0, 258, .normal⟩, .reduce ⟨0, 257, .normal⟩]⟩] },
    { id := 1, actions := [⟨.single 256, [.reduce ⟨1, 259, .normal⟩]⟩] },
    { id := 2, gotos := [⟨.single 258, 1⟩, ⟨.single 259, 3⟩],
      actions := [⟨.single 256, [.reduce ⟨0, 258, .normal⟩]⟩] },
    { id := 3, actions := [⟨.single 256, [.accept]⟩] }]
  labels := [⟨257, .application "rejected" [], [.reject]⟩, ⟨258, .application "kept" [], []⟩,
    ⟨259, .application "whole" [], []⟩]
  states_nodup := by decide
  labels_nodup := by decide
  resolves := by decide

theorem Table.rejects_blend {r : Reduction} (h : r.label = 257) : Table.blend.Rejects r :=
  ⟨⟨257, .application "rejected" [], [.reject]⟩, by rw [h]; rfl, .inr (by decide)⟩

/-- The parse of the empty text: its tree has been built over a link of the rejected production. -/
theorem parse_blend : ∃ p, (parse Table.blend "").result = .ok p ∧ p.forest.Within p.trees 1 ∧
    p.forest.get? 1 = some (.apply 257 []) := by
  obtain ⟨p, hp, hdata⟩ := exists_ok_of_toOption_map (r := (parse Table.blend "").result)
    (f := fun p => (p.trees, p.forest.get? 4, p.forest.get? 1))
    (b := ([4], some (.apply 259 [1]), some (.apply 257 []))) (by decide +kernel)
  obtain ⟨htrees, htop, hget⟩ : p.trees = [4] ∧ p.forest.get? 4 = some (.apply 259 [1]) ∧
      p.forest.get? 1 = some (.apply 257 []) := by simpa using hdata
  refine ⟨p, hp, .part (.root ?_) htop (List.mem_singleton_self 1), hget⟩
  rw [htrees]
  exact List.mem_singleton_self 4

/-- What a rejecting reduction has built may be reached from the trees of a parse, below what has
been built over the rejected link. -/
theorem rejected_within_blend : ¬ ∀ p, (parse Table.blend "").result = .ok p →
    ∀ id label children l a, p.forest.Within p.trees id →
      p.forest.get? id = some (.apply label children) →
      BuiltBy Table.blend {} (inputPoints {} "".toList) p.graph p.forest l id a →
      ¬ Table.blend.Rejects a.reduction := by
  intro hall
  obtain ⟨p, hp, hwithin, hget⟩ := parse_blend
  have hroots := p.exists_link
  obtain ⟨m, n, hm, -, -, -, hg, hf⟩ := parse_ok hp
  rw [hg] at hroots
  obtain ⟨l, a, hb⟩ := hm.exists_builtBy hroots (hf ▸ hwithin) (hf ▸ hget)
  rw [← hg, ← hf] at hb
  exact hall p hp 1 257 [] l a hwithin hget hb (Table.rejects_blend (hb.derives.label_eq hget))

/-- The path of the parse is not rejected, but the link is for which the rejected production has
been built. -/
theorem rejected_apart_blend : ∃ p, (parse Table.blend "").result = .ok p ∧
    (∀ l ∈ p.path, p.graph.isRejected l = false) ∧
    (∀ l t id, LinkedByReduction Table.blend {} (inputPoints {} "".toList) l →
      p.graph.isRejected l = false → p.graph.tree? l = some t → id ∈ p.forest.alternatives t →
      (∃ a, BuiltBy Table.blend {} (inputPoints {} "".toList) p.graph p.forest l id a) ∧
      ∀ a, BuiltBy Table.blend {} (inputPoints {} "".toList) p.graph p.forest l id a →
        ¬ Table.blend.Rejects a.reduction) ∧
    ∃ l a, BuiltBy Table.blend {} (inputPoints {} "".toList) p.graph p.forest l 1 a ∧
      p.graph.isRejected l = true := by
  obtain ⟨p, hp, hwithin, hget⟩ := parse_blend
  obtain ⟨hpath, hlive, hreached⟩ := rejected_apart hp
  obtain ⟨⟨l, a, hb⟩, hrejected⟩ := hreached 1 257 [] hwithin hget
  exact ⟨p, hp, hpath, hlive, l, a, hb,
    hrejected l a hb (Table.rejects_blend (hb.derives.label_eq hget))⟩

end ScannerlessLR
