/-
Parses that pass over repeated reductions, and parses that do not.

A reduction that is met again along the same path would be packed into its link once
more, and the link rejected once more if the reduction rejects.  By then the link is
rejected, so nothing has changed but the tree, and the two parses go on alike.

* `Machine.Repeats` — the next task is a reduction that has been applied;
* `Abreast` — both parses are at the same place, but for a rejection that changes nothing;
* `Reached.exists_abreast`, `Reached.exists_even` — each parse follows the other;
* `performed_iff`, `linkedByReduction_iff` — they apply the same reductions, for the same
  links.
-/
import ScannerlessLR.Proofs.Parser.Rejection
import ScannerlessLR.Proofs.Parser.Skeleton

namespace ScannerlessLR

/-- The next task is a reduction along a path that has been applied. -/
def Machine.Repeats (m : Machine) : Prop :=
  ∃ n r rejecting p agenda, m.agenda = .apply n r rejecting p :: agenda ∧
    ⟨p.links, n, r⟩ ∈ m.generation.applied

/-- A parse that passes over repeated reductions stands at `x` and one that does not at `y`: at the
same place, or the latter is about to reject a link that is rejected. -/
inductive Abreast (x y : Moment) : Prop
  | even (h : x.skeleton = y.skeleton)
  | ahead {m m' : Machine} {l : LinkId} {source target : StateId} (hx : x = ⟨.working, m⟩)
      (hy : y = ⟨.working, m'⟩) (ha : m'.agenda = .reject l source target :: m.agenda)
      (hr : m'.graph.isRejected l = true)
      (h : m.skeleton = Machine.skeleton { m' with agenda := m.agenda })

open Machine

variable {table : Table} {config config' : Config} {points : Array UInt32} {m m' m₁ m₁' : Machine}
  {a : Application} {n w v : NodeId} {l : LinkId} {x x' y y' : Moment}

/-! ### The next task -/

/-- It makes no difference whether repeated reductions are passed over, as long as none is met. -/
theorem Machine.work_eq_of_not_repeats (hd' : config'.deduplicate = false) (h : ¬ m.Repeats) :
    m.work table config = m.work table config' := by
  rw [work, work]
  cases ha : m.agenda with
  | nil => cases m.generation.queue <;> rfl
  | cons t agenda =>
    cases t with
    | apply n r rejecting p =>
      have hnew : ⟨p.links, n, r⟩ ∉ m.generation.applied :=
        fun happ => h ⟨n, r, rejecting, p, agenda, ha, happ⟩
      simp only [perform, Machine.apply, hnew, hd', and_false, if_false]
    | _ => rfl

/-- A repeated reduction is passed over. -/
theorem Machine.work_repeated (hd : config.deduplicate = true) {r : Reduction} {rejecting : Bool}
    {p : Path} {agenda : List Task} (ha : m.agenda = .apply n r rejecting p :: agenda)
    (happ : ⟨p.links, n, r⟩ ∈ m.generation.applied) :
    m.work table config = .moved { m with agenda } := by
  rw [work, ha]
  simp only [perform, Machine.apply, hd, happ, and_self, if_true]

/-- A reduction that has been applied has its link. -/
theorem Reached.exists_link_of_applied (hx : Reached table config points ⟨.working, m⟩)
    (ha : a ∈ m.generation.applied) : ∃ w v l f, (l, v) ∈ m.graph.linksFrom w ∧
      a.Builds table points m.graph w v ∧ m.graph.entryAt? v = some f ∧ ∃ target,
        table.gotoFrom? f.state a.reduction.label = some target ∧
        m.graph.entryAt? w = some ⟨target, m.generation.level⟩ := by
  obtain ⟨hn, v, henabled, f, target, w, l, hf, hgoto, hw, hl⟩ := hx.thorough.joined a ha
  obtain ⟨s, hs⟩ := hx.working.entry_of_processed hn
  exact ⟨w, v, l, f, hl, ⟨henabled, _, _, f, hs, hw, hf, rfl, hgoto⟩, hf, target, hgoto, hw⟩

/-- When a rejecting reduction is met again, its link has been rejected. -/
theorem Reached.isRejected_of_repeats (hx : Reached table config points ⟨.working, m⟩)
    {r : Reduction} {rejecting : Bool} {p : Path} {agenda : List Task}
    (ha : m.agenda = .apply n r rejecting p :: agenda)
    (happ : ⟨p.links, n, r⟩ ∈ m.generation.applied) (hrej : table.Rejects r)
    (hl : (l, v) ∈ m.graph.linksFrom w)
    (hb : Application.Builds table points m.graph w v ⟨p.links, n, r⟩) :
    m.graph.isRejected l = true := by
  have hwf := hx.working.roster.wf
  obtain ⟨w', v', l', hl', hb', hrejected⟩ := hx.enforced.rejected _ happ hrej
  obtain ⟨rfl, rfl⟩ := hb.ends_unique hb' hwf fun _ _ _ => hx.entry_unique
  obtain rfl := hwf.link_unique hl hl'
  refine hrejected.resolve_right fun hawaited => ?_
  -- nothing that comes to the reduction is in front of the rejection
  rw [ha] at hawaited
  rcases hawaited.cases_cons with ⟨source, target, h⟩ | ⟨hcovers, -⟩
  · exact absurd h (by simp)
  · exact hcovers rfl

/-- A reduction whose link is there is packed into it. -/
theorem Machine.apply_eq_pack (hd' : config'.deduplicate = false) {r : Reduction} {rejecting : Bool}
    {p : Path} {id target : StateId} (hb : m.graph.state? p.bottom = some id)
    (hg : table.gotoFrom? id r.label = some target)
    (hf : m.graph.findLink? (m.holder target) p.bottom = some l) :
    m.apply table config' n r rejecting p =
      .moved ((m.reducing n r p id target).pack l target id m.forest.size rejecting) := by
  have hp : Performs table config' m (.apply n r rejecting p)
      (m.apply table config' n r rejecting p) := performs_apply n r rejecting p
  generalize m.apply table config' n r rejecting p = progress at hp ⊢
  -- the link is there and nothing is passed over, so only packing is left
  cases hp with
  | repeated _ _ _ _ hd => exact absurd hd (by simp [hd'])
  | lost _ _ _ _ hb' => exact absurd (hb.symm.trans hb') (by simp)
  | unknownBottom _ _ _ _ _ hb' hs =>
    obtain rfl := Option.some.inj (hb.symm.trans hb')
    exact absurd hg (by simp [Table.gotoFrom?, hs])
  | gap _ _ _ _ _ hb' hg' =>
    obtain rfl := Option.some.inj (hb.symm.trans hb')
    exact absurd (hg.symm.trans hg') (by simp)
  | pack _ _ _ _ _ _ _ _ hb' hg' hf' =>
    obtain rfl := Option.some.inj (hb.symm.trans hb')
    obtain rfl := Option.some.inj (hg.symm.trans hg')
    rw [Option.some.inj (hf.symm.trans hf')]
  | link _ _ _ _ _ _ _ hb' hg' hf' =>
    obtain rfl := Option.some.inj (hb.symm.trans hb')
    obtain rfl := Option.some.inj (hg.symm.trans hg')
    exact absurd (hf.symm.trans hf') (by simp)

theorem Machine.work_task {t : Task} {agenda : List Task} (ha : m.agenda = t :: agenda) :
    m.work table config = perform table config { m with agenda } t := by
  rw [work, ha]

/-- When a reduction is met again, both parses take a step, and then they are abreast. -/
theorem Reached.abreast_of_repeats (hd : config.deduplicate = true)
    (hd' : config'.deduplicate = false) (hx : Reached table config points ⟨.working, m⟩)
    (hx' : Reached table config' points ⟨.working, m'⟩) (hs : m.skeleton = m'.skeleton)
    (hrep : m.Repeats) : ∃ m₁ m₁', Moves table config m m₁ ∧ Moves table config' m' m₁' ∧
      m₁'.graph = m'.graph ∧ Abreast ⟨.working, m₁⟩ ⟨.working, m₁'⟩ := by
  obtain ⟨n, r, rejecting, p, agenda, ha, happ⟩ := hrep
  have ha' : m'.agenda = .apply n r rejecting p :: agenda :=
    (agenda_eq_of_skeleton hs).symm.trans ha
  have hbare := bare_eq_of_skeleton hs
  obtain ⟨⟨-, -, -, hrejects, hwalk, -⟩, -⟩ := hx.working.tail ha
  obtain ⟨w, v, l, f, hl, hb, hf, target, hgoto, hw⟩ := hx.exists_link_of_applied happ
  obtain rfl := hb.enabled.walk.unique hx.working.roster.wf hwalk
  -- the link is there in the other parse too
  have hstate : m'.graph.state? p.bottom = some f.state := by
    rw [← StackGraph.state?_eq_of_bare _ hbare, StackGraph.state?_of_entryAt? hf]
  have hholder : Machine.holder { m' with agenda } target = w := by
    refine holder_of_some (hx'.working.roster.lookup_iff.mpr ?_)
    rw [← StackGraph.entryAt?_eq_of_bare _ hbare, ← level_eq_of_skeleton hs, hw]
  have hfind : m'.graph.findLink? (Machine.holder { m' with agenda } target) p.bottom = some l := by
    rw [hholder]
    refine hx'.working.roster.wf.findLink? ?_
    rwa [← StackGraph.linksFrom_eq_of_bare _ hbare]
  have hmove : Moves table config m { m with agenda } := by
    rw [Moves, work_repeated hd ha happ, Progress.next?]
  have hmove' : m'.work table config' = .moved _ :=
    (work_task ha').trans (apply_eq_pack (m := { m' with agenda }) hd' hstate hgoto hfind)
  have hnext' : Moves table config' m' _ := congrArg Progress.next? hmove'
  have hrest : Machine.skeleton { m with agenda } = Machine.skeleton { m' with agenda } :=
    congrArg (fun s : Machine => { s with agenda }) hs
  refine ⟨_, _, hmove, hnext', rfl, ?_⟩
  cases rejecting with
  | false => exact .even (congrArg (Moment.mk .working) hrest)
  | true =>
    -- the parse that has packed again has still to reject the link again
    refine .ahead rfl rfl rfl ?_ hrest
    have hrejected := hx.isRejected_of_repeats ha happ (hrejects rfl) hl hb
    exact (StackGraph.isRejected_eq_of_bare _ hbare).symm.trans hrejected

/-! ### Each parse follows the other -/

/-- As long as no reduction is met again, the same comes of both steps. -/
theorem Machine.skeleton_work_eq (hd' : config'.deduplicate = false)
    (hs : m.skeleton = m'.skeleton) (hrep : ¬ m.Repeats) :
    (m.work table config).skeleton = (m'.work table config').skeleton := by
  rw [work_eq_of_not_repeats hd' hrep, skeleton_work table config' m hd', hs,
    ← skeleton_work table config' m' hd']

theorem Moment.exists_working_of_skeleton (h : Moment.skeleton ⟨.working, m⟩ = y.skeleton) :
    ∃ m', y = ⟨.working, m'⟩ ∧ m.skeleton = m'.skeleton := by
  obtain ⟨phase, m'⟩ := y
  obtain ⟨hphase, hmachine⟩ := Moment.mk.inj h
  obtain rfl := Phase.bare_eq_working.mp hphase.symm
  exact ⟨m', rfl, hmachine⟩

/-- Rejecting a link that is rejected leaves the machine at the same place. -/
theorem Abreast.next_ahead (table : Table) (config : Config) {source target : StateId}
    {agenda : List Task} (ha : m.agenda = .reject l source target :: agenda)
    (hr : m.graph.isRejected l = true) :
    ∃ m₁, Moves table config m m₁ ∧ m₁.skeleton = Machine.skeleton { m with agenda } := by
  refine ⟨_, congrArg Progress.next? (work_task ha), ?_⟩
  exact congrArg (fun g => Machine.skeleton { m with agenda, graph := g })
    (m.graph.reject_of_isRejected l hr)

section Follow

variable (hd : config.deduplicate = true) (hd' : config'.deduplicate = false)
include hd hd'

/-- A step of the parse that passes over nothing is followed by the other one. -/
theorem Abreast.next_right (hx : Reached table config points x)
    (hy : Reached table config' points y) (h : Abreast x y) (hn : Next table config' y y') :
    Abreast x y' ∨ ∃ x', Next table config x x' ∧ Abreast x' y' := by
  cases h with
  | even h =>
    refine .inr ?_
    by_cases hrep : ∃ m, x = ⟨.working, m⟩ ∧ m.Repeats
    -- one parse packs what the other one passes over
    · obtain ⟨m, rfl, hrep⟩ := hrep
      obtain ⟨m', rfl, hs⟩ := Moment.exists_working_of_skeleton h
      obtain ⟨m₁, m₁', hm, hm', -, habreast⟩ := hx.abreast_of_repeats hd hd' hy hs hrep
      obtain rfl := next_rightUnique hn (.work hm')
      exact ⟨_, .work hm, habreast⟩
    -- any other step is the same in both
    · obtain ⟨x', hn', h'⟩ : ∃ x', Next table config x x' ∧ y'.skeleton = x'.skeleton := by
        refine hn.of_skeleton h.symm fun m' m hm' hm => ?_
        subst hm hm'
        exact (skeleton_work_eq hd' (congrArg Moment.machine h) fun hr => hrep ⟨m, rfl, hr⟩).symm
      exact ⟨x', hn', .even h'.symm⟩
  | ahead hx hy ha hr h =>
    -- this step is the rejection that the other parse does not have to make
    subst hx hy
    obtain ⟨m₁, hm, hs⟩ := Abreast.next_ahead table config' ha hr
    obtain rfl := next_rightUnique hn (.work hm)
    exact .inl (.even (congrArg (Moment.mk .working) (h.trans hs.symm)))

/-- A step of the parse that passes over repeated reductions is followed by the other one. -/
theorem Next.exists_even (hx : Reached table config points x)
    (hy : Reached table config' points y) (h : x.skeleton = y.skeleton)
    (hn : Next table config x x') : ∃ y', Relation.ReflTransGen (Next table config') y y' ∧
      x'.skeleton = y'.skeleton := by
  by_cases hrep : ∃ m, x = ⟨.working, m⟩ ∧ m.Repeats
  · obtain ⟨m, rfl, hrep⟩ := hrep
    obtain ⟨m', rfl, hs⟩ := Moment.exists_working_of_skeleton h
    obtain ⟨m₁, m₁', hm, hm', -, habreast⟩ := hx.abreast_of_repeats hd hd' hy hs hrep
    obtain rfl := next_rightUnique hn (.work hm)
    cases habreast with
    | even h => exact ⟨_, .single (.work hm'), h⟩
    | ahead hx hy ha hr h =>
      -- packing again leads to a rejection, and that is made as well
      obtain rfl := congrArg Moment.machine hx
      obtain rfl := congrArg Moment.machine hy
      obtain ⟨m₂, hm₂, hs₂⟩ := Abreast.next_ahead table config' ha hr
      exact ⟨_, .tail (.single (.work hm')) (.work hm₂),
        congrArg (Moment.mk .working) (h.trans hs₂.symm)⟩
  -- any other step is the same in both
  · obtain ⟨y', hn', h'⟩ : ∃ y', Next table config' y y' ∧ x'.skeleton = y'.skeleton := by
      refine hn.of_skeleton h fun m m' hm hm' => ?_
      subst hm hm'
      exact skeleton_work_eq hd' (congrArg Moment.machine h) fun hr => hrep ⟨m, rfl, hr⟩
    exact ⟨y', .single hn', h'⟩

variable (hend : config.endOfInput = config'.endOfInput)
include hend

/-- At every moment of the parse that passes over nothing, the other one is abreast at some
moment. -/
theorem Reached.exists_abreast (hy : Reached table config' points y) :
    ∃ x, Reached table config points x ∧ Abreast x y := by
  induction hy with
  | refl =>
    have hs := skeleton_initial table config points hend
    exact ⟨_, .refl, .even (congrArg (Moment.mk .between) hs)⟩
  | tail hy hn ih =>
    obtain ⟨x, hx, h⟩ := ih
    rcases h.next_right hd hd' hx hy hn with h | ⟨x', hn', h⟩
    · exact ⟨x, hx, h⟩
    · exact ⟨x', hx.next hn', h⟩

/-- At every moment of the parse that passes over repeated reductions, the other one is at the same
place at some moment. -/
theorem Reached.exists_even (hx : Reached table config points x) :
    ∃ y, Reached table config' points y ∧ x.skeleton = y.skeleton := by
  induction hx with
  | refl =>
    have hs := skeleton_initial table config points hend
    exact ⟨_, .refl, congrArg (Moment.mk .between) hs⟩
  | tail hx hn ih =>
    obtain ⟨y, hy, h⟩ := ih
    obtain ⟨y', hr, h'⟩ := hn.exists_even hd hd' hx hy h
    exact ⟨y', hy.reaches hr, h'⟩

/-- Unless the step of the parse that passes over repeated reductions does so, the other one takes
the same step. -/
theorem Reached.exists_moves (hx : Reached table config points ⟨.working, m⟩)
    (hm : Moves table config m m₁) (hrep : ¬ m.Repeats) : ∃ m' m₁',
      Reached table config' points ⟨.working, m'⟩ ∧ Moves table config' m' m₁' ∧
        m.skeleton = m'.skeleton ∧ m₁.skeleton = m₁'.skeleton := by
  obtain ⟨y, hy, h⟩ := hx.exists_even hd hd' hend
  obtain ⟨m', rfl, hs⟩ := Moment.exists_working_of_skeleton h
  obtain ⟨m₁', hm', hs'⟩ := hm.of_skeleton (skeleton_work_eq hd' hs hrep)
  exact ⟨m', m₁', hy, hm', hs, hs'⟩

/-- Unless the step of the parse that passes over nothing is a rejection, the other one meets a
reduction again, or takes the same step. -/
theorem Reached.exists_moves_back (hy : Reached table config' points ⟨.working, m'⟩)
    (hm' : Moves table config' m' m₁')
    (ha : ∀ l source target agenda, m'.agenda ≠ .reject l source target :: agenda) :
    ∃ m, Reached table config points ⟨.working, m⟩ ∧ m.skeleton = m'.skeleton ∧
      (m.Repeats ∧ m₁'.graph = m'.graph ∨
        ¬ m.Repeats ∧ ∃ m₁, Moves table config m m₁ ∧ m₁.skeleton = m₁'.skeleton) := by
  obtain ⟨x, hx, h⟩ := hy.exists_abreast hd hd' hend
  cases h with
  | even h =>
    obtain ⟨m, rfl, hs⟩ := Moment.exists_working_of_skeleton h.symm
    refine ⟨m, hx, hs.symm, ?_⟩
    by_cases hrep : m.Repeats
    · obtain ⟨_, _, -, hmove, hg, -⟩ := hx.abreast_of_repeats hd hd' hy hs.symm hrep
      obtain rfl := Option.some.inj (hm'.symm.trans hmove)
      exact .inl ⟨hrep, hg⟩
    · obtain ⟨m₁, hm, hs'⟩ := hm'.of_skeleton (skeleton_work_eq hd' hs.symm hrep).symm
      exact .inr ⟨hrep, m₁, hm, hs'.symm⟩
  | ahead hx hy' ha' =>
    -- in between there is a rejection to make, and this step is none
    obtain rfl := congrArg Moment.machine hy'
    exact absurd ha' (ha _ _ _ _)

end Follow

/-! ### What has been applied -/

theorem Machine.graph_of_repeats (hd : config.deduplicate = true) (hrep : m.Repeats)
    (hm : Moves table config m m₁) :
    m₁.graph = m.graph ∧ m₁.generation.applied = m.generation.applied := by
  obtain ⟨n, r, rejecting, p, agenda, ha, happ⟩ := hrep
  rw [Moves, work_repeated hd ha happ] at hm
  obtain rfl := Option.some.inj hm
  exact ⟨rfl, rfl⟩

/-- A step that applies a reduction has a task to do so. -/
theorem Machine.Moves.exists_task (hm : Moves table config m m₁)
    (happ : m₁.generation.applied = a :: m.generation.applied) :
    ∃ n r rejecting p agenda, m.agenda = .apply n r rejecting p :: agenda ∧
      a = ⟨p.links, n, r⟩ := by
  have hne : m.generation.applied ≠ a :: m.generation.applied := by simp
  obtain ⟨p, hp, hnext⟩ := hm.works
  cases hp with
  | @task t agenda _ ha hp =>
    cases hp with
    | lost n r rejecting p | pack n r rejecting p =>
      obtain rfl := Option.some.inj hnext
      exact ⟨n, r, rejecting, p, agenda, ha, (List.cons.inj happ).1.symm⟩
    | link n r rejecting p id target =>
      obtain rfl := Option.some.inj hnext
      refine ⟨n, r, rejecting, p, agenda, ha, ?_⟩
      exact (List.cons.inj (happ.symm.trans (applied_attach _ target p.bottom m.forest.size))).1
    | accept | shift | check | skip | reduce | repeated | stop | revisit | reject =>
      -- no other task applies a reduction
      obtain rfl := Option.some.inj hnext
      exact absurd happ hne
    | unknownLabel | unknownBottom | gap | unknownState =>
      exact absurd hnext (by simp [Progress.next?])
  | dispatch ha hq hp =>
    cases hp with
    | nothing | items =>
      obtain rfl := Option.some.inj hnext
      exact absurd happ hne
    | unknownState => exact absurd hnext (by simp [Progress.next?])
  | idle ha hq => exact absurd hnext (by simp [Progress.next?])

/-- A step that has a task to apply a reduction does so, unless the reduction is passed over. -/
theorem Machine.Moves.applied_eq (hm : Moves table config m m₁) {r : Reduction} {rejecting : Bool}
    {p : Path} {agenda : List Task} (ha : m.agenda = .apply n r rejecting p :: agenda)
    (hnew : config.deduplicate = true → ⟨p.links, n, r⟩ ∉ m.generation.applied) :
    m₁.generation.applied = ⟨p.links, n, r⟩ :: m.generation.applied := by
  obtain ⟨q, hp, hnext⟩ := hm.works
  cases hp with
  | task ha' hp =>
    obtain ⟨rfl, rfl⟩ := List.cons.inj (ha.symm.trans ha')
    cases hp with
    | repeated _ _ _ _ hd happ => exact absurd happ (hnew hd)
    | lost | pack =>
      obtain rfl := Option.some.inj hnext
      rfl
    | link _ _ _ _ id target =>
      obtain rfl := Option.some.inj hnext
      exact applied_attach _ target p.bottom m.forest.size
    | unknownBottom | gap => exact absurd hnext (by simp [Progress.next?])
  | dispatch ha' => exact absurd (ha.symm.trans ha') (by simp)
  | idle ha' => exact absurd (ha.symm.trans ha') (by simp)

/-- What has been applied at a point has been applied in a step of the parse. -/
theorem Reached.performed_of_mem (h : Reached table config points ⟨.working, m⟩)
    (ha : a ∈ m.generation.applied) : Performed table config points a := by
  refine h.working_induction
    (motive := fun m => a ∈ m.generation.applied → Performed table config points a)
    (fun m token cursor hm ha => ?_) (fun m m' hx hm ih ha => ?_) ha
  · have happ : (m.read token cursor).generation.applied = [] := hm.between.applied
    exact absurd ha (by simp [happ])
  · cases hx.working.changes hm with
    | still hg hf happ | reject _ hr hg hf happ => exact ih (happ ▸ ha)
    | pack b _ _ _ _ hr hl ht hg hf happ | link b _ _ hr hl hg hf happ =>
      rw [happ] at ha
      rcases List.mem_cons.mp ha with rfl | ha
      · exact ⟨m, m', hx, hm, happ⟩
      · exact ih ha

section Same

variable (hd : config.deduplicate = true) (hd' : config'.deduplicate = false)
  (hend : config.endOfInput = config'.endOfInput)
include hd hd' hend

/-- Both parses apply the same reductions. -/
theorem performed_iff :
    Performed table config points a ↔ Performed table config' points a := by
  constructor
  · rintro ⟨m, m₁, hx, hm, happ⟩
    -- passing over a reduction applies none
    have hrep : ¬ m.Repeats := fun hrep => by
      rw [(graph_of_repeats hd hrep hm).2] at happ
      exact absurd happ (by simp)
    obtain ⟨m', m₁', hy, hm', hs, -⟩ := hx.exists_moves hd hd' hend hm hrep
    obtain ⟨n, r, rejecting, p, agenda, ha, rfl⟩ := hm.exists_task happ
    rw [agenda_eq_of_skeleton hs] at ha
    exact ⟨m', m₁', hy, hm', hm'.applied_eq ha (by simp [hd'])⟩
  · rintro ⟨m', m₁', hy, hm', happ⟩
    obtain ⟨n, r, rejecting, p, agenda, ha, rfl⟩ := hm'.exists_task happ
    obtain ⟨m, hx, hs, hm⟩ := hy.exists_moves_back hd hd' hend hm' (by simp [ha])
    rw [← agenda_eq_of_skeleton hs] at ha
    rcases hm with ⟨⟨n', r', rejecting', p', agenda', ha', happ'⟩, -⟩ | ⟨hrep, m₁, hm, -⟩
    -- what is packed again here has been applied there before
    · obtain ⟨⟨rfl, rfl, rfl, rfl⟩, rfl⟩ : (n' = n ∧ r' = r ∧ rejecting' = rejecting ∧ p' = p) ∧
          agenda' = agenda := by simpa using ha'.symm.trans ha
      exact hx.performed_of_mem happ'
    · exact ⟨m, m₁, hx, hm, hm.applied_eq ha fun _ happ =>
        hrep ⟨n, r, rejecting, p, agenda, ha, happ⟩⟩

/-- In both parses the same links are made by reductions. -/
theorem linkedByReduction_iff :
    LinkedByReduction table config points l ↔ LinkedByReduction table config' points l := by
  constructor
  · rintro ⟨m, m₁, hx, hm, hl, hl'⟩
    -- no link is made by passing over a reduction
    have hrep : ¬ m.Repeats := fun hrep => by
      rw [(graph_of_repeats hd hrep hm).1] at hl'
      omega
    obtain ⟨m', m₁', hy, hm', hs, hs'⟩ := hx.exists_moves hd hd' hend hm hrep
    rw [StackGraph.size_links_eq_of_bare (bare_eq_of_skeleton hs)] at hl
    rw [StackGraph.size_links_eq_of_bare (bare_eq_of_skeleton hs')] at hl'
    exact ⟨m', m₁', hy, hm', hl, hl'⟩
  · rintro ⟨m', m₁', hy, hm', hl, hl'⟩
    -- nor by rejecting a link
    have ha : ∀ l source target agenda, m'.agenda ≠ .reject l source target :: agenda := by
      intro l source target agenda ha
      rw [Moves, work_task ha] at hm'
      obtain rfl := Option.some.inj hm'
      have hsize : (m'.graph.reject l).links.size = m'.graph.links.size := by simp
      have hl' : (m'.graph.reject l).links.size = _ := hl'
      omega
    obtain ⟨m, hx, hs, ⟨-, hg⟩ | ⟨-, m₁, hm, hs'⟩⟩ := hy.exists_moves_back hd hd' hend hm' ha
    -- nor by packing a reduction again
    · rw [hg] at hl'
      omega
    · rw [← StackGraph.size_links_eq_of_bare (bare_eq_of_skeleton hs)] at hl
      rw [← StackGraph.size_links_eq_of_bare (bare_eq_of_skeleton hs')] at hl'
      exact ⟨m, m₁, hx, hm, hl, hl'⟩

end Same

end ScannerlessLR
