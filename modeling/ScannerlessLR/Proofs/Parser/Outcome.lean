/-
What decides the outcome of a parse.

Every node whose state accepts at its level does accept, even if it is rejected, and
the machine remembers the last one that has.  At the end a live path is looked for from
this node alone.  So a parse in which several nodes accept fails if the last of them is
rejected, though there may be a live path from another.

* `Moment.Accepts` — a node accepts;
* `AcceptedLast` — a node has accepted, and none has after it;
* `Ended.accepting_eq_some_iff` — the accepting node is the one that has accepted last;
* `Ended.accepted_iff` — all nodes accept that the table lets accept;
* `outcome_of_acceptances` — the outcome of a parse, by what has been accepted.
-/
import ScannerlessLR.Proofs.Parser.Nesting
import ScannerlessLR.Proofs.Parser.Ending

namespace ScannerlessLR

/-- A node accepts: that is the next task. -/
def Moment.Accepts (x : Moment) (n : NodeId) : Prop :=
  x.phase = .working ∧ ∃ id, x.machine.agenda.head? = some (.accept n id)

/-- A node accepts at some moment of a parse. -/
def Accepted (table : Table) (config : Config) (points : Array UInt32) (n : NodeId) : Prop :=
  ∃ x, Reached table config points x ∧ x.Accepts n

/-- A node accepts at some moment of a parse, and no node does so afterwards. -/
def AcceptedLast (table : Table) (config : Config) (points : Array UInt32) (n : NodeId) : Prop :=
  ∃ x, Reached table config points x ∧ x.Accepts n ∧
    ∀ y n', Relation.TransGen (Next table config) x y → ¬ y.Accepts n'

/-- A step by which no node accepts. -/
def Quiet (table : Table) (config : Config) (x y : Moment) : Prop :=
  Next table config x y ∧ ∀ n, ¬ x.Accepts n

open Machine

variable {table : Table} {config : Config} {points : Array UInt32} {m m' : Machine} {x y z : Moment}
  {n n' : NodeId}

/-! ### The accepting node -/

theorem Moment.Accepts.unique (h : x.Accepts n) (h' : x.Accepts n') : n = n' := by
  obtain ⟨-, id, hid⟩ := h
  obtain ⟨-, id', hid'⟩ := h'
  exact (Task.accept.inj (Option.some.inj (hid.symm.trans hid'))).1

/-- The accepting node changes when a node accepts, and at no other time. -/
theorem Next.accepting_cases (hn : Next table config x y) :
    (∃ n, x.Accepts n ∧ y.machine.accepting = some n) ∨
      (∀ n, ¬ x.Accepts n) ∧ y.machine.accepting = x.machine.accepting := by
  have hphase : ∀ {phase : Phase} {m : Machine}, phase ≠ .working →
      ∀ n, ¬ Moment.Accepts ⟨phase, m⟩ n := fun hne n h => hne h.1
  have hidle : ∀ {m : Machine}, m.work table config = .idle m →
      ∀ n, ¬ Moment.Accepts ⟨.working, m⟩ n := by
    rintro m hi n ⟨-, id, hid⟩
    exact absurd ((congrArg List.head? (work_eq_idle hi).2.1).symm.trans hid) (by simp)
  cases hn with
  | read | shifted | strand => exact .inr ⟨hphase (by simp), rfl⟩
  | turn hi | leaf hi => exact .inr ⟨hidle hi, rfl⟩
  | @shift leaf s due m => exact .inr ⟨hphase (by simp), accepting_shiftNode ..⟩
  | @work m m' hm =>
    obtain ⟨p, hp, hnext⟩ := hm.works
    cases hp with
    | @task t agenda _ ha hp =>
      cases t with
      | accept n id =>
        cases hp with
        | accept =>
          obtain rfl := Option.some.inj hnext
          exact .inl ⟨n, ⟨rfl, id, by rw [ha, List.head?_cons]⟩, rfl⟩
      | _ =>
        refine .inr ⟨?_, ?_⟩
        · rintro n ⟨-, id, hid⟩
          exact absurd ((congrArg List.head? ha).symm.trans hid) (by simp)
        · rcases (performs_accepts hp hnext).2 with ⟨hacc, -⟩ | ⟨_, _, ht, -⟩
          · exact hacc
          · exact absurd ht (by simp)
    | @dispatch n queue _ ha hq hp =>
      have hquiet : ∀ n, ¬ Moment.Accepts ⟨.working, m⟩ n := by
        rintro n ⟨-, id, hid⟩
        exact absurd ((congrArg List.head? ha).symm.trans hid) (by simp)
      cases hp with
      | nothing | items =>
        obtain rfl := Option.some.inj hnext
        exact .inr ⟨hquiet, rfl⟩
      | unknownState => exact absurd hnext (by simp [Progress.next?])
    | idle ha hq => exact absurd hnext (by simp [Progress.next?])

/-- The accepting node has accepted at some moment, and all has been quiet since then. -/
theorem Reached.exists_accepts (hx : Reached table config points x)
    (ha : x.machine.accepting = some n) : ∃ y y', Reached table config points y ∧ y.Accepts n ∧
      Next table config y y' ∧ Relation.ReflTransGen (Quiet table config) y' x := by
  induction hx with
  | refl => exact absurd ha (by simp [initial])
  | @tail x x' hx hn ih =>
    -- either the last step is one of accepting, or it is quiet
    rcases hn.accepting_cases with ⟨n', hacc, ha'⟩ | ⟨hquiet, ha'⟩
    · obtain rfl := Option.some.inj (ha.symm.trans ha')
      exact ⟨x, x', hx, hacc, hn, .refl⟩
    · obtain ⟨y, y', hy, hacc, hn', hr⟩ := ih (ha'.symm.trans ha)
      exact ⟨y, y', hy, hacc, hn', hr.tail ⟨hn, hquiet⟩⟩

/-- Once a node has accepted there is an accepting node. -/
theorem accepting_ne_none (hr : Relation.ReflTransGen (Next table config) x y)
    (ha : x.machine.accepting ≠ none) : y.machine.accepting ≠ none := by
  induction hr with
  | refl => exact ha
  | tail _ hn ih =>
    rcases hn.accepting_cases with ⟨n, -, ha'⟩ | ⟨-, ha'⟩
    · rw [ha']
      simp
    · rwa [ha']

/-- What comes after a moment from which all is quiet up to another is quiet as well, or comes
after the other. -/
theorem quiet_or_reaches (hr : Relation.ReflTransGen (Quiet table config) x y)
    (hz : Relation.ReflTransGen (Next table config) x z) :
    (∀ n, ¬ z.Accepts n) ∨ Relation.ReflTransGen (Next table config) y z := by
  induction hr using Relation.ReflTransGen.head_induction_on with
  | refl => exact .inr hz
  | @head x x' hq _ ih =>
    rcases Relation.ReflTransGen.cases_head hz with rfl | ⟨w, hn, hz⟩
    · exact .inl hq.2
    · obtain rfl := next_rightUnique hq.1 hn
      exact ih hz

/-- At the end of a parse nothing accepts any more. -/
theorem Moment.Over.not_accepts (h : x.Over points) (hx : Reached table config points x)
    (hr : Relation.ReflTransGen (Next table config) x y) : ¬ y.Accepts n := by
  rintro ⟨hphase, -⟩
  rcases h.reaches_cases hx hr with rfl | rfl
  · rcases h with h | ⟨h, -⟩ <;> exact absurd (hphase.symm.trans h) (by simp)
  · exact absurd hphase (by simp)

/-- Only one node accepts last. -/
theorem AcceptedLast.unique (h : AcceptedLast table config points n)
    (h' : AcceptedLast table config points n') : n = n' := by
  obtain ⟨x, hx, hacc, hlast⟩ := h
  obtain ⟨y, hy, hacc', hlast'⟩ := h'
  -- whichever of the two comes first, the other one accepts after it
  rcases Relation.ReflTransGen.total_of_right_unique next_rightUnique hx hy with hr | hr
  · rcases Relation.reflTransGen_iff_eq_or_transGen.mp hr with rfl | hr
    · exact hacc.unique hacc'
    · exact absurd hacc' (hlast y n' hr)
  · rcases Relation.reflTransGen_iff_eq_or_transGen.mp hr with rfl | hr
    · exact hacc.unique hacc'
    · exact absurd hacc (hlast' x n hr)

/-- If a node has accepted, there is an accepting node at the end of the parse. -/
theorem Ended.accepting_ne_none (h : Ended table config points m)
    (hn : Accepted table config points n) : m.accepting ≠ none := by
  obtain ⟨⟨phase, m₁⟩, hx, hacc⟩ := hn
  obtain rfl : phase = .working := hacc.1
  obtain ⟨phase, hphase, hr⟩ := h.reaches hx
  rcases Relation.ReflTransGen.cases_head hr with heq | ⟨y, hnext, hr⟩
  · obtain ⟨rfl, -⟩ := Moment.mk.inj heq
    exact absurd hphase (by simp)
  -- the step at which the node accepts leaves an accepting node behind
  · rcases hnext.accepting_cases with ⟨n', -, ha⟩ | ⟨hquiet, -⟩
    · exact ScannerlessLR.accepting_ne_none hr (by rw [ha]; simp)
    · exact absurd hacc (hquiet n)

/-- At the end of a parse the accepting node is the one that has accepted last. -/
theorem Ended.accepting_eq_some_iff (h : Ended table config points m) :
    m.accepting = some n ↔ AcceptedLast table config points n := by
  obtain ⟨phase, hover, hx⟩ := ended_iff.mp h
  have hlast : ∀ n, m.accepting = some n → AcceptedLast table config points n := by
    intro n ha
    obtain ⟨y, y', hy, hacc, hn, hr⟩ := hx.exists_accepts ha
    refine ⟨y, hy, hacc, fun z n' hz => ?_⟩
    obtain ⟨w, hn', hz⟩ := Relation.TransGen.head'_iff.mp hz
    obtain rfl := next_rightUnique hn hn'
    rcases quiet_or_reaches hr hz with hquiet | hz
    · exact hquiet n'
    · exact hover.not_accepts hx hz
  refine ⟨hlast n, fun hn => ?_⟩
  -- some node is the accepting one, and it has accepted last
  obtain ⟨y, hy, hacc, -⟩ := id hn
  obtain ⟨n', ha⟩ := Option.ne_none_iff_exists'.mp (h.accepting_ne_none ⟨y, hy, hacc⟩)
  rw [hn.unique (hlast n' ha)]
  exact ha

/-! ### Which nodes accept -/

/-- A task that is to be done comes to be the next one before the point has been done with. -/
theorem Reached.exists_head (hx : Reached table config points ⟨.working, m⟩) {t : Task}
    (ht : t ∈ m.agenda) (hr : Relation.ReflTransGen (Next table config) ⟨.working, m⟩ y)
    (hy : y.phase ≠ .working) :
    ∃ m', Reached table config points ⟨.working, m'⟩ ∧ m'.agenda.head? = some t := by
  generalize hz : Moment.mk .working m = x at hr
  induction hr using Relation.ReflTransGen.head_induction_on generalizing m with
  | refl => exact absurd (congrArg Moment.phase hz).symm hy
  | @head x x' hn _ ih =>
    subst hz
    by_cases hhead : m.agenda.head? = some t
    · exact ⟨m, hx, hhead⟩
    cases hn with
    | @work _ m' hm =>
      refine ih (hx.next (.work hm)) ?_ rfl
      -- what is behind the next task stays on the agenda
      obtain ⟨new, hagenda, -⟩ := hx.working.nests_moves hm
      obtain ⟨t', agenda, ha⟩ := List.exists_cons_of_ne_nil (List.ne_nil_of_mem ht)
      rw [ha, List.mem_cons] at ht
      rw [ha, List.head?_cons, Option.some.injEq] at hhead
      rw [hagenda, ha, List.tail_cons]
      exact List.mem_append_right _ (ht.resolve_left fun heq => hhead heq.symm)
    | turn hi | leaf hi =>
      rw [(work_eq_idle hi).2.1] at ht
      exact absurd ht List.not_mem_nil

/-- When a node has its turn, accepting is put on the agenda if its state accepts. -/
theorem Working.mem_agenda_of_offers (h : Working table points m)
    (ht : Moment.Takes ⟨.working, m⟩ n) (ho : m.graph.Offers table points n .accept)
    (hm : Moves table config m m') : ∃ id, .accept n id ∈ m'.agenda := by
  obtain ⟨-, ha, hhead⟩ := ht
  have ha : m.agenda = [] := ha
  obtain ⟨queue, hq⟩ := List.head?_eq_some_iff.mp hhead
  have hq : m.generation.queue = n :: queue := hq
  have hi : ActionItem.accept ∈ itemsOf table m.token m.graph n :=
    ((h.taking ha hq).offers_iff (mem_processed_taking m n queue)).mp ho
  obtain ⟨id, agenda, events, rfl, htasks⟩ := hm.exists_agenda ha hq
  exact ⟨id, htasks .accept (accept_mem_dueItems hi)⟩

/-- At the end of a parse no node waits that has actions for its point. -/
theorem Ended.not_mem_queue (h : Ended table config points m) {item : ActionItem}
    (ho : m.graph.Offers table points n item) : n ∉ m.generation.queue := by
  intro hn
  obtain ⟨s, hs⟩ := (h.between.staff n).mp (.inr hn)
  obtain ⟨e, he, point, hpoint, -⟩ := ho
  obtain rfl := Option.some.inj (hs.symm.trans he)
  have hlt : m.generation.level < points.size := (Array.getElem?_eq_some_iff.mp hpoint).1
  rcases h.exhausted with hle | hactive
  · exact absurd hlt (Nat.not_lt.mpr hle)
  -- a node that waits is active
  · have hlookup := h.between.roster.lookup_iff.mpr hs
    rw [hactive] at hlookup
    exact absurd hlookup (by simp)

/-- The nodes that accept are those that the table lets accept at the point of their level. -/
theorem Ended.accepted_iff (h : Ended table config points m) :
    Accepted table config points n ↔ m.graph.Offers table points n .accept := by
  constructor
  · rintro ⟨⟨phase, m₁⟩, hx, rfl, id, hhead⟩
    obtain ⟨phase, -, hr⟩ := h.reaches hx
    -- tasks are sound, so the node offers what is on the agenda for it
    have hsound := (Reached.working hx).tasks _ (List.mem_of_mem_head? hhead)
    exact hsound.2.mono (Reached.extends_reaches hx hr)
  · intro ho
    -- the node has had its turn, and what it offers has come to be the next task
    obtain ⟨phase, hphase, hx⟩ := h.exists_reached
    obtain ⟨e, he, hoffers⟩ := ho
    obtain ⟨⟨phase', m₁⟩, hx₁, ht, hr⟩ := Reached.exists_takes hx (StackGraph.lt_of_entryAt? he)
      (h.not_mem_queue ⟨e, he, hoffers⟩)
    obtain rfl : phase' = .working := ht.1
    obtain ⟨y, hn, hr⟩ := Relation.TransGen.head'_iff.mp hr
    have hqueue : n ∈ m₁.generation.queue := List.mem_of_mem_head? ht.2.2
    have hlt : n < m₁.graph.nodes.size :=
      (Reached.ordered hx₁).steady.lt_of_mem (List.mem_append_right _ hqueue)
    -- it has offered this already when it had its turn
    have ho₁ : m₁.graph.Offers table points n .accept :=
      ⟨e, (Reached.extends_reaches hx₁ (hr.head hn)).entry_of_lt hlt he, hoffers⟩
    cases hn with
    | @work _ m₂ hm =>
      obtain ⟨id, hmem⟩ := (Reached.working hx₁).mem_agenda_of_offers ht ho₁ hm
      obtain ⟨m₃, hx₃, hhead⟩ := (Reached.next hx₁ (.work hm)).exists_head hmem hr
        (by rcases hphase with rfl | rfl <;> simp)
      exact ⟨⟨.working, m₃⟩, hx₃, rfl, id, hhead⟩
    | turn hi | leaf hi =>
      rw [(work_eq_idle hi).2.2] at hqueue
      exact absurd hqueue List.not_mem_nil

/-! ### The outcome -/

/-- What a parse comes to, by what it has accepted and whether that can be traced back. -/
theorem Ended.outcome_cases (h : Ended table config points m) :
    (∀ n, ¬ Accepted table config points n) ∧
        (parsePoints table config points).result = .error .noAcceptingDerivation ∨
      ∃ n, AcceptedLast table config points n ∧
        ((∀ ls, ¬ m.graph.LiveWalk n ls rootNode) ∧
            (parsePoints table config points).result = .error .allPathsRejected ∨
          (∃ ls, m.graph.LiveWalk n ls rootNode) ∧
            ∃ p, (parsePoints table config points).result = .ok p) := by
  rw [h.result_eq, conclude]
  cases ha : m.accepting with
  | none => exact .inl ⟨fun n hn => h.accepting_ne_none hn ha, rfl⟩
  | some n =>
    refine .inr ⟨n, h.accepting_eq_some_iff.mp ha, ?_⟩
    cases hl : m.graph.livePath? n rootNode with
    | none =>
      simp only [hl]
      exact .inl ⟨fun ls => StackGraph.not_liveWalk_of_livePath? hl, trivial⟩
    | some path =>
      simp only [hl]
      exact .inr ⟨⟨path, StackGraph.liveWalk_of_livePath? hl⟩, _, rfl⟩

/-- Unless a goto is missing, the outcome of a parse depends on what it has accepted, and on the
node that has accepted last: whether a live path leads from there to the root. -/
theorem outcome_of_acceptances {input : String}
    (hinput : ∀ c ∈ input.toList, c.val ≠ config.endOfInput)
    (hgoto : ∀ id label, (parse table input config).result ≠ .error (.missingGoto id label)) :
    let points := inputPoints config input.toList
    let result := (parse table input config).result
    (∃ m, Ended table config points m) ∧ ∀ m, Ended table config points m →
      (result = .error .noAcceptingDerivation ↔ ∀ n, ¬ Accepted table config points n) ∧
      (result = .error .allPathsRejected ↔ ∃ n, AcceptedLast table config points n ∧
        ∀ ls, ¬ m.graph.LiveWalk n ls rootNode) ∧
      ((∃ p, result = .ok p) ↔ ∃ n, AcceptedLast table config points n ∧
        ∃ ls, m.graph.LiveWalk n ls rootNode) ∧
      ((∃ n, Accepted table config points n) → ∃! n, AcceptedLast table config points n) ∧
      ∀ n, Accepted table config points n ↔ m.graph.Offers table points n .accept := by
  intro points result
  have hresult : result = (parsePoints table config points).result := by
    rw [← parse_eq table hinput]
  refine ⟨?_, fun m h => ?_⟩
  · rcases parsePoints_cases table config points with ⟨m, h, -⟩ | ⟨m, id, label, f, -, -, heq⟩
    · exact ⟨m, h⟩
    · exact absurd (hresult.trans (congrArg Report.result heq)) (hgoto id label)
  have hlast : ∀ n, AcceptedLast table config points n → Accepted table config points n :=
    fun n ⟨x, hx, hacc, _⟩ => ⟨x, hx, hacc⟩
  have hunique : ∀ {P : NodeId → Prop} {n}, AcceptedLast table config points n →
      ((∃ n, AcceptedLast table config points n ∧ P n) ↔ P n) := by
    intro P n hn
    refine ⟨?_, fun h => ⟨n, hn, h⟩⟩
    rintro ⟨n', hn', h⟩
    rwa [hn.unique hn']
  rw [hresult]
  rcases h.outcome_cases with ⟨hnone, hr⟩ | ⟨n, hn, ⟨hdead, hr⟩ | ⟨hlive, p, hr⟩⟩
  -- nothing has accepted
  · rw [hr]
    have hno : ∀ n, ¬ AcceptedLast table config points n := fun n hn => hnone n (hlast n hn)
    exact ⟨⟨fun _ => hnone, fun _ => rfl⟩, ⟨by simp, fun ⟨n, hn, _⟩ => absurd hn (hno n)⟩,
      ⟨by simp, fun ⟨n, hn, _⟩ => absurd hn (hno n)⟩,
      fun ⟨n, hn⟩ => absurd hn (hnone n), fun n => h.accepted_iff⟩
  -- no live path leads from the node that has accepted last
  · rw [hr, hunique hn, hunique hn]
    exact ⟨⟨by simp, fun hno => absurd (hlast n hn) (hno n)⟩, ⟨fun _ => hdead, fun _ => rfl⟩,
      ⟨by simp, fun ⟨ls, hls⟩ => absurd hls (hdead ls)⟩,
      fun _ => ⟨n, hn, fun n' hn' => hn'.unique hn⟩, fun n => h.accepted_iff⟩
  -- a live path leads from there to the root
  · rw [hr, hunique hn, hunique hn]
    exact ⟨⟨by simp, fun hno => absurd (hlast n hn) (hno n)⟩,
      ⟨by simp, fun hdead => absurd hlive (not_exists.mpr hdead)⟩,
      ⟨fun _ => hlive, fun _ => ⟨p, rfl⟩⟩,
      fun _ => ⟨n, hn, fun n' hn' => hn'.unique hn⟩, fun n => h.accepted_iff⟩

/-- A table with two nodes that accept, of which the one that does so last is rejected. -/
def Table.contested : Table where
  start := 0
  states := [
    { id := 0, gotos := [⟨.single 257, 1⟩, ⟨.single 258, 2⟩],
      actions := [⟨.single 256, [.reduce ⟨0, 257, .normal⟩, .reduce ⟨0, 258, .reject⟩]⟩] },
    { id := 1, actions := [⟨.single 256, [.accept]⟩] },
    { id := 2, actions := [⟨.single 256, [.accept]⟩] }]
  labels := [⟨257, .application "kept" [], []⟩, ⟨258, .application "rejected" [], []⟩]
  states_nodup := by decide
  labels_nodup := by decide
  resolves := by decide

/-- At the end of the parse of nothing, the node 1 has a link that is not rejected, and the node 2
has one that is. -/
theorem ended_contested : ∃ m, Ended Table.contested {} (inputPoints {} "".toList) m ∧
    m.graph = ⟨#[⟨0, 0, []⟩, ⟨1, 0, [(0, 0)]⟩, ⟨2, 0, [(1, 0)]⟩], #[⟨0, false⟩, ⟨1, true⟩]⟩ := by
  have hstart : Reached Table.contested {} (inputPoints {} "".toList)
      ⟨.between, Machine.initial Table.contested {} (inputPoints {} "".toList)⟩ := .refl
  obtain ⟨m, hm, hg⟩ := exists_ok_of_toOption_map
    (r := (Machine.initial Table.contested {} (inputPoints {} "".toList)).scan Table.contested {} 1)
    (f := Machine.graph) (b := ⟨#[⟨0, 0, []⟩, ⟨1, 0, [(0, 0)]⟩, ⟨2, 0, [(1, 0)]⟩],
      #[⟨0, false⟩, ⟨1, true⟩]⟩) (by decide +kernel)
  have hsize : (inputPoints {} "".toList).size ≤ (Machine.initial Table.contested {}
      (inputPoints {} "".toList)).generation.level + 1 := by decide
  rcases scan_cases hstart (by decide) hsize with ⟨m', hm', h⟩ | ⟨m', failure, hm', -⟩
  · obtain rfl := Except.ok.inj (hm.symm.trans hm')
    exact ⟨m, h, hg⟩
  · exact absurd (hm.symm.trans hm') (by simp)

/-- The parse of nothing fails though there is a live path from the node 1, which has accepted. -/
theorem not_all_rejected_contested :
    ¬ ∀ m, Ended Table.contested {} (inputPoints {} "".toList) m →
      ((parse Table.contested "").result = .error .allPathsRejected ↔
        (∃ n, Accepted Table.contested {} (inputPoints {} "".toList) n) ∧
          ∀ n, Accepted Table.contested {} (inputPoints {} "".toList) n →
            ∀ ls, ¬ m.graph.LiveWalk n ls rootNode) := by
  intro hall
  obtain ⟨m, h, hg⟩ := ended_contested
  have hresult : (parse Table.contested "").result = .error .allPathsRejected := by decide +kernel
  obtain ⟨-, hdead⟩ := (hall m h).mp hresult
  have ho : m.graph.Offers Table.contested (inputPoints {} "".toList) 1 .accept :=
    ⟨⟨1, 0⟩, by rw [hg]; rfl, 256, rfl, List.mem_singleton_self _⟩
  refine hdead 1 (h.accepted_iff.mpr ho) [0] ⟨?_, fun l hl => ?_⟩
  · rw [hg]
    exact .cons (List.mem_singleton_self _) (.nil 0)
  · rw [List.mem_singleton.mp hl, hg]
    rfl

/-- The node that has accepted last, from which no live path leads to the root. -/
theorem outcome_of_acceptances_contested :
    (∀ c ∈ "".toList, c.val ≠ (256 : UInt32)) ∧
    (∀ id label, (parse Table.contested "").result ≠ .error (.missingGoto id label)) ∧
    (parse Table.contested "").result = .error .allPathsRejected ∧
    ∃ m n, Ended Table.contested {} (inputPoints {} "".toList) m ∧
      AcceptedLast Table.contested {} (inputPoints {} "".toList) n ∧
      ∀ ls, ¬ m.graph.LiveWalk n ls rootNode := by
  have hresult : (parse Table.contested "").result = .error .allPathsRejected := by decide +kernel
  have hinput : ∀ c ∈ "".toList, c.val ≠ ({} : Config).endOfInput := by simp
  have hgoto : ∀ id label,
      (parse Table.contested "").result ≠ .error (.missingGoto id label) := by
    intro id label
    rw [hresult]
    simp
  obtain ⟨⟨m, h⟩, hall⟩ := outcome_of_acceptances hinput hgoto
  obtain ⟨-, hrejected, -⟩ := hall m h
  obtain ⟨n, hn, hdead⟩ := hrejected.mp hresult
  exact ⟨hinput, hgoto, hresult, m, n, h, hn, hdead⟩

end ScannerlessLR
