/-
What a parse does for nodes that are not rejected.

The actions of a node are taken once, and not at all if all of its links are rejected
then, though it may get a link later that is not.  A node that is live when its turn
comes has all its actions taken, for what is rejected later does not stop them, and its
shifts are made if it is still live when everything else is done.

* `Attended` — nothing is left undone for a node, reductions along no links included;
* `Reached.dispatched` — every active node has its turn;
* `Between.linked_of_due` — a shift that is due is made, unless its source is rejected;
* `attended_if_live` — the shifts and the empty reductions of a node.
-/
import Mathlib.Tactic.IntervalCases
import ScannerlessLR.Proofs.Parser.Representation

namespace ScannerlessLR

/-- Nothing is forgotten of what is to be done for a node without going down from it, while `tasks`
are still to be done. -/
structure Attended (table : Table) (points : Array UInt32) (n : NodeId) (tasks : List Task)
    (m : Machine) : Prop where
  processed : n ∈ m.generation.processed
  reduced : ∀ r, m.graph.Calls table points n r → table.Parses r.label → r.arity = 0 →
    ⟨[], n, r⟩ ∈ m.generation.applied ∨ ∃ t ∈ tasks, t.Covers points m.generation.level ⟨[], n, r⟩
  shifted : ∀ target, m.graph.Offers table points n (.shift target) →
    ⟨n, target⟩ ∈ m.generation.shifts ∨ .shift n target ∈ tasks

open Machine

variable {table : Table} {points : Array UInt32} {config : Config} {m m' : Machine} {n : NodeId}
  {leaf : TreeId} {s : Shift} {due : List Shift}

/-- A reduction along no links is enabled if its node calls for it. -/
theorem Application.enabled_nil {g : StackGraph} {r : Reduction} (hc : g.Calls table points n r)
    (hp : table.Parses r.label) (ha : r.arity = 0) :
    (Application.mk [] n r).Enabled table points g n where
  calls := hc
  parses := hp
  walk := .nil n
  length_eq := ha.symm

namespace Attended

/-- Doing a task forgets nothing. -/
theorem handles {t : Task} (h : Attended table points n (t :: m.agenda) m)
    (hm : Working table points m) (hh : Handles table points m t m') :
    Attended table points n m'.agenda m' where
  processed := hh.processed ▸ h.processed
  reduced := by
    intro r hc hp ha
    have hc := hm.calls_of_extends hh.graph h.processed hc
    rw [hh.level]
    -- what the task was to cover has been applied, or is covered by what it leads to
    rcases h.reduced r hc hp ha with happ | ⟨t', ht', hcovers⟩
    · exact .inl (hh.applied _ happ)
    · rcases List.mem_cons.mp ht' with rfl | ht'
      · exact hh.covers _ n (Application.enabled_nil hc hp ha)
          (fun l hl => absurd hl List.not_mem_nil) hcovers
      · exact .inr ⟨t', hh.tasks t' ht', hcovers⟩
  shifted := by
    intro target ho
    rcases h.shifted target (hm.offers_of_extends hh.graph h.processed ho) with hs | ht
    · exact .inl (hh.shifts _ hs)
    · rcases List.mem_cons.mp ht with ht | ht
      · exact .inl (hh.shift n target ht.symm)
      · exact .inr (hh.tasks _ ht)

/-- Every step forgets nothing. -/
theorem moves (h : Attended table points n m.agenda m) (hm : Working table points m)
    (hmoves : Moves table config m m') : Attended table points n m'.agenda m' := by
  obtain ⟨p, hp, hnext⟩ := hmoves.works
  cases hp with
  | @task t agenda _ ha hp =>
    obtain ⟨ht, hm'⟩ := hm.tail ha
    rw [ha] at h
    have h' : Attended table points n (t :: agenda) { m with agenda } := { h with }
    exact h'.handles hm' (hm'.handles_performs ht hp hnext)
  | @dispatch x queue _ ha hq hp =>
    rw [ha] at h
    -- with nothing on the agenda all has been done
    have h' : ∀ tasks, Attended table points n tasks (m.taking x queue) := fun tasks => {
      processed := List.mem_append_left _ h.processed
      reduced := fun r hc hp ha => .inl ((h.reduced r hc hp ha).resolve_right (by simp))
      shifted := fun target ho => .inl ((h.shifted target ho).resolve_right (by simp)) }
    cases hp with
    | nothing hi =>
      obtain rfl := Option.some.inj hnext
      exact h' _
    | items id hs =>
      obtain rfl := Option.some.inj hnext
      exact { h' _ with }
    | unknownState => exact absurd hnext (by simp [Progress.next?])
  | idle ha hq => exact absurd hnext (by simp [Progress.next?])

theorem runs (h : Attended table points n m.agenda m) (hm : Working table points m)
    (hr : Runs table config m m') : Attended table points n m'.agenda m' := by
  induction hr with
  | refl => exact h
  | tail hr hmoves ih => exact ih.moves (hm.runs hr) hmoves

end Attended

/-- When it is the turn of a node that is not rejected, all its actions are put on the agenda. -/
theorem Working.attended (h : Working table points m) {queue : List NodeId} (ha : m.agenda = [])
    (hq : m.generation.queue = n :: queue) (hlive : m.graph.allRejected n = false)
    (hm : Moves table config m m') : Attended table points n m'.agenda m' := by
  obtain ⟨id, agenda, events, rfl, htasks⟩ := hm.exists_agenda ha hq
  have hw := h.taking ha hq
  have hn := mem_processed_taking m n queue
  have hdue : (m.taking n queue).dueItems table n = itemsOf table m.token m.graph n :=
    dueItems_eq hlive
  refine { processed := hn, reduced := ?_, shifted := ?_ }
  · intro r hc hp harity
    obtain ⟨item, hi, hcalls⟩ := hw.exists_item hn (Application.enabled_nil hc hp harity)
    exact .inr ⟨_, htasks item (hdue ▸ hi), hcalls.covers_task id⟩
  · intro target ho
    exact .inr (htasks (.shift target) (hdue ▸ (hw.offers_iff hn).mp ho))

/-- Every node that has been processed has had its turn. -/
theorem Reached.dispatched (h : Reached table config points ⟨.working, m⟩)
    (hn : n ∈ m.generation.processed) : ∃ m₀ queue, Reached table config points ⟨.working, m₀⟩ ∧
      m₀.agenda = [] ∧ m₀.generation.queue = n :: queue ∧ Runs table config m₀ m := by
  refine h.working_induction (motive := fun m => n ∈ m.generation.processed → ∃ m₀ queue,
    Reached table config points ⟨.working, m₀⟩ ∧ m₀.agenda = [] ∧
      m₀.generation.queue = n :: queue ∧ Runs table config m₀ m)
    (fun m token cursor hm hn => ?_) (fun m₁ m hm₁ hm ih hn => ?_) hn
  -- at a new point no node has been processed
  · have hp : (m.read token cursor).generation.processed = [] := hm.between.processed
    exact absurd hn (by simp [hp])
  · have hw := hm₁.working
    have hold : n ∈ m₁.generation.processed → ∃ m₀ queue,
        Reached table config points ⟨.working, m₀⟩ ∧ m₀.agenda = [] ∧
          m₀.generation.queue = n :: queue ∧ Runs table config m₀ m := by
      intro hn
      obtain ⟨m₀, queue, h₀, ha, hq, hr⟩ := ih hn
      exact ⟨m₀, queue, h₀, ha, hq, hr.tail hm⟩
    obtain ⟨p, hp, hmoved⟩ := hm.works
    cases hp with
    | task ha hp =>
      -- a task processes no node
      obtain ⟨ht, hw'⟩ := hw.tail ha
      rw [(hw'.handles_performs ht hp hmoved).processed] at hn
      exact hold hn
    | @dispatch n' queue _ ha hq hp =>
      have hcases : n ∈ m₁.generation.processed ∨ n = n' := by
        cases hp with
        | nothing | items =>
          obtain rfl := Option.some.inj hmoved
          exact (List.mem_append.mp hn).imp_right List.mem_singleton.mp
        | unknownState => exact absurd hmoved (by simp [Progress.next?])
      rcases hcases with hn | rfl
      · exact hold hn
      · exact ⟨m₁, queue, hm₁, ha, hq, .single hm⟩
    | idle ha hq => exact absurd hmoved (by simp [Progress.next?])

/-! ### Shifts -/

/-- A shift leaves the links of nodes below the current level alone. -/
theorem Between.allRejected_shiftNode (h : Between table points m) (leaf : TreeId) (s : Shift)
    {x : NodeId} {e : Entry} (he : m.graph.entryAt? x = some e)
    (hlt : e.position < m.generation.level) :
    (m.shiftNode leaf s).graph.allRejected x = m.graph.allRejected x := by
  rcases m.shiftNode_cases leaf s with heq | ⟨-, heq⟩ <;> rw [heq]
  have hlinks : (m.attach s.target s.source leaf).graph.linksFrom x = m.graph.linksFrom x :=
    linksFrom_attach_of_ne (ne_holder_of_lt h.roster he hlt)
  simp only [StackGraph.allRejected, hlinks, isRejected_attach]

/-- A shift whose source is not rejected has its link when it has been made. -/
theorem Between.linked_shiftNode (h : Between table points m) (leaf : TreeId)
    (hlive : m.graph.allRejected s.source = false) : ∃ w l,
      (m.shiftNode leaf s).graph.entryAt? w = some ⟨s.target, m.generation.level⟩ ∧
        (l, s.source) ∈ (m.shiftNode leaf s).graph.linksFrom w := by
  rw [shiftNode_eq, hlive, if_neg Bool.false_ne_true]
  cases hf : m.graph.findLink? (m.holder s.target) s.source with
  | some l =>
    exact ⟨_, l, h.roster.lookup_iff.mp (node?_of_findLink? hf), StackGraph.mem_of_findLink? hf⟩
  | none =>
    exact ⟨_, _, entryAt?_holder h.roster, (mem_linksFrom_attach h.roster).mpr
      (.inl ⟨rfl, rfl, rfl⟩)⟩

/-- A shift that is due is made, unless its source is rejected. -/
theorem Between.linked_of_due (h : Between table points m) (leaf : TreeId)
    (hdue : ∀ s ∈ due, s.Due table points m) (hs : s ∈ due)
    (hlive : m.graph.allRejected s.source = false) : ∃ w l,
      (due.foldl (Machine.shiftNode leaf) m).graph.entryAt? w =
          some ⟨s.target, m.generation.level⟩ ∧
        (l, s.source) ∈ (due.foldl (Machine.shiftNode leaf) m).graph.linksFrom w := by
  have hfold : ∀ (due : List Shift) (m : Machine), Between table points m →
      (∀ s ∈ due, s.Due table points m) →
      m.graph.Extends (due.foldl (Machine.shiftNode leaf) m).graph := by
    intro due
    induction due with
    | nil => exact fun _ _ _ => .refl _
    | cons s due ih =>
      intro m h hdue
      obtain ⟨h', hdue'⟩ := h.shiftNode leaf (hdue s List.mem_cons_self)
      exact (h.extends_shiftNode leaf s).trans
        (ih _ h' fun s' hs' => hdue' s' (hdue s' (List.mem_cons_of_mem _ hs')))
  induction due generalizing m with
  | nil => exact absurd hs List.not_mem_nil
  | cons s' due ih =>
    obtain ⟨h', hdue'⟩ := h.shiftNode leaf (hdue s' List.mem_cons_self)
    have hrest : ∀ s ∈ due, s.Due table points (m.shiftNode leaf s') :=
      fun s hs => hdue' s (hdue s (List.mem_cons_of_mem _ hs))
    rcases List.mem_cons.mp hs with rfl | hs
    · obtain ⟨w, l, hw, hl⟩ := h.linked_shiftNode leaf hlive
      have hext := hfold due _ h' hrest
      exact ⟨w, l, hext.entry hw, hext.mem hl⟩
    -- the shifts made in between leave the source as it is
    · obtain ⟨e, he, hlevel, -⟩ := hdue s (List.mem_cons_of_mem _ hs)
      rw [← h.allRejected_shiftNode leaf s' he (by omega)] at hlive
      have hlinked := ih h' hrest hs hlive
      rw [level_shiftNode] at hlinked
      exact hlinked

/-- The machine goes on with a shift that is due, unless its source is rejected. -/
theorem Working.linked_shift (h : Working table points m) (hi : m.work table config = .idle m)
    (hs : s ∈ m.generation.shifts) (hlive : m.graph.allRejected s.source = false) : ∃ w l,
      m.shift.graph.entryAt? w = some ⟨s.target, m.generation.level + 1⟩ ∧
        (l, s.source) ∈ m.shift.graph.linksFrom w := by
  have hne : m.generation.shifts ≠ [] := List.ne_nil_of_mem hs
  have hn : Next table config ⟨.working, m⟩
      ⟨.shifting m.forest.size m.generation.shifts, m.turnWithLeaf⟩ := .leaf hi hne
  have hord : Moment.Ordered table points ⟨.working, m⟩ := h
  obtain ⟨hb, hdue⟩ := hord.next hn
  have hlinked := hb.linked_of_due m.forest.size hdue hs hlive
  rw [shift, if_neg (by simpa using hne)]
  exact hlinked

/-! ### The actions of a node -/

/-- Every active node has its turn.  If it is not rejected then, nor when the shifts are made, all
its shifts are made, and all its reductions along no links have their links. -/
theorem attended_if_live (hx : Reached table config points ⟨.working, m⟩)
    (hi : m.work table config = .idle m) {id : StateId}
    (hn : m.graph.entryAt? n = some ⟨id, m.generation.level⟩) :
    ∃ m₀ queue, Reached table config points ⟨.working, m₀⟩ ∧ m₀.agenda = [] ∧
      m₀.generation.queue = n :: queue ∧ Runs table config m₀ m ∧
      (m₀.graph.allRejected n = false → m.graph.allRejected n = false →
        (∀ target, table.Offers points id m.generation.level (.shift target) → ∃ w l,
          m.shift.graph.entryAt? w = some ⟨target, m.generation.level + 1⟩ ∧
            (l, n) ∈ m.shift.graph.linksFrom w) ∧
        ∀ r, table.Reduces points id m.generation.level r → r.arity = 0 → ∃ target w l,
          table.gotoFrom? id r.label = some target ∧
            m.graph.entryAt? w = some ⟨target, m.generation.level⟩ ∧
            (l, n) ∈ m.graph.linksFrom w) := by
  have hw := hx.working
  obtain ⟨-, hagenda, hqueue⟩ := work_eq_idle hi
  obtain ⟨m₀, queue, h₀, ha, hq, hr⟩ := hx.dispatched (hw.processed_of_idle hi hn)
  refine ⟨m₀, queue, h₀, ha, hq, hr, fun hlive₀ hlive => ?_⟩
  have hattended : Attended table points n [] m := by
    -- nothing is in the queue any more, so there has been a step
    rcases Relation.ReflTransGen.cases_head hr with rfl | ⟨m₁, hm, hr⟩
    · exact absurd (hq.symm.trans hqueue) (by simp)
    · rw [← hagenda]
      exact (h₀.working.attended ha hq hlive₀ hm).runs (h₀.working.moves hm) hr
  constructor
  · intro target ho
    have hs := (hattended.shifted target ⟨_, hn, ho⟩).resolve_right List.not_mem_nil
    exact hw.linked_shift hi hs hlive
  · rintro r ⟨hparses, hcalls⟩ harity
    have happ := (hattended.reduced r ⟨_, hn, hcalls⟩ hparses harity).resolve_right (by simp)
    obtain ⟨-, v, henabled, f, target, w, l, hf, hgoto, hw', hl⟩ := hx.thorough.joined _ happ
    -- a walk along no links ends where it starts
    obtain rfl : n = v := by simpa using henabled.walk
    obtain rfl := Option.some.inj (hn.symm.trans hf)
    exact ⟨target, w, l, hgoto, hw', hl⟩

/-- A table with a node that has its turn while its only link is rejected, and gets another link
afterwards. -/
def Table.late : Table where
  start := 0
  states := [
    { id := 0, gotos := [⟨.single 257, 1⟩, ⟨.single 258, 2⟩],
      actions := [⟨.single 97, [.reduce ⟨0, 257, .normal⟩, .reduce ⟨0, 258, .normal⟩]⟩] },
    { id := 1, actions := [⟨.single 97, [.shift 3]⟩] },
    { id := 2, gotos := [⟨.single 258, 1⟩],
      actions := [⟨.single 97, [.reduce ⟨0, 258, .normal⟩]⟩] },
    { id := 3, actions := [⟨.single 256, [.accept]⟩] }]
  labels := [⟨257, .application "rejected" [], [.reject]⟩, ⟨258, .application "kept" [], []⟩]
  states_nodup := by decide
  labels_nodup := by decide
  resolves := by decide

/-- The machine when everything has been done for the letter `a`, and when it has gone on: the node
1 is not rejected, but it has not been shifted. -/
theorem reached_late : ∃ m, Reached Table.late {} (inputPoints {} "a".toList) ⟨.working, m⟩ ∧
    m.work Table.late {} = .idle m ∧ m.generation.level = 0 ∧
    m.graph = ⟨#[⟨0, 0, []⟩, ⟨1, 0, [(2, 2), (0, 0)]⟩, ⟨2, 0, [(1, 0)]⟩],
      #[⟨0, true⟩, ⟨1, false⟩, ⟨2, false⟩]⟩ ∧
    m.shift.graph = m.graph := by
  let m₀ := (Machine.initial Table.late {} (inputPoints {} "a".toList)).read 97
    ⟨inputPoints {} "a".toList, 1⟩
  obtain ⟨m, hm, hdata⟩ := exists_ok_of_toOption_map
    (r := m₀.drain Table.late {} (m₀.room Table.late))
    (f := fun m => (m.graph, m.shift.graph, m.generation.level)) (b := (
      ⟨#[⟨0, 0, []⟩, ⟨1, 0, [(2, 2), (0, 0)]⟩, ⟨2, 0, [(1, 0)]⟩],
        #[⟨0, true⟩, ⟨1, false⟩, ⟨2, false⟩]⟩,
      ⟨#[⟨0, 0, []⟩, ⟨1, 0, [(2, 2), (0, 0)]⟩, ⟨2, 0, [(1, 0)]⟩],
        #[⟨0, true⟩, ⟨1, false⟩, ⟨2, false⟩]⟩, 0)) (by decide +kernel)
  obtain ⟨hgraph, hshift, hlevel⟩ : _ ∧ _ ∧ _ := by simpa only [Prod.mk.injEq] using hdata
  obtain ⟨hr, hi⟩ := drain_ok hm
  have h₀ : Reached Table.late {} (inputPoints {} "a".toList) ⟨.working, m₀⟩ :=
    .single (.read (by decide) (by decide))
  exact ⟨m, h₀.trans (nexts_of_runs hr), hi, hlevel, hgraph, by rw [hshift, hgraph]⟩

/-- The node 1 of that machine is not rejected, and its shift is not made. -/
theorem not_attended_late :
    ¬ ∀ m, Reached Table.late {} (inputPoints {} "a".toList) ⟨.working, m⟩ →
      m.work Table.late {} = .idle m → ∀ n id,
        m.graph.entryAt? n = some ⟨id, m.generation.level⟩ → m.graph.allRejected n = false →
        ∀ target, Table.late.Offers (inputPoints {} "a".toList) id m.generation.level
          (.shift target) → ∃ w l,
            m.shift.graph.entryAt? w = some ⟨target, m.generation.level + 1⟩ ∧
              (l, n) ∈ m.shift.graph.linksFrom w := by
  intro hall
  obtain ⟨m, hx, hi, hlevel, hg, hshift⟩ := reached_late
  obtain ⟨w, l, hw, -⟩ := hall m hx hi 1 1 (by rw [hg, hlevel]; rfl) (by rw [hg]; rfl) 3
    (by rw [hlevel]; exact ⟨97, rfl, List.mem_singleton_self _⟩)
  -- nothing has been added behind the letter
  rw [hshift, hlevel, hg] at hw
  have hlt : w < 3 := StackGraph.lt_of_entryAt? hw
  interval_cases w <;> exact absurd hw (by decide)

/-- A table with a node whose first link is rejected, but which has another link when its turn
comes.  It has a shift and a reduction along no links. -/
def Table.spared : Table where
  start := 0
  states := [
    { id := 0, gotos := [⟨.single 257, 1⟩, ⟨.single 258, 2⟩],
      actions := [⟨.single 97, [.reduce ⟨0, 258, .normal⟩, .reduce ⟨0, 257, .normal⟩]⟩] },
    { id := 1, gotos := [⟨.single 259, 4⟩],
      actions := [⟨.single 97, [.shift 3, .reduce ⟨0, 259, .normal⟩]⟩] },
    { id := 2, gotos := [⟨.single 258, 1⟩],
      actions := [⟨.single 97, [.reduce ⟨0, 258, .normal⟩]⟩] },
    { id := 3, actions := [⟨.single 256, [.accept]⟩] },
    { id := 4 }]
  labels := [⟨257, .application "rejected" [], [.reject]⟩, ⟨258, .application "kept" [], []⟩,
    ⟨259, .application "empty" [], []⟩]
  states_nodup := by decide
  labels_nodup := by decide
  resolves := by decide

/-- The machine when it is the turn of the node 2, and when everything has been done for the letter
`a`. -/
theorem reached_spared : ∃ m₀ m,
    Reached Table.spared {} (inputPoints {} "a".toList) ⟨.working, m₀⟩ ∧ m₀.agenda = [] ∧
      m₀.generation.queue = [2] ∧ m₀.graph =
        ⟨#[⟨0, 0, []⟩, ⟨2, 0, [(0, 0)]⟩, ⟨1, 0, [(2, 1), (1, 0)]⟩],
          #[⟨0, false⟩, ⟨1, true⟩, ⟨2, false⟩]⟩ ∧
      Runs Table.spared {} m₀ m ∧ m.work Table.spared {} = .idle m ∧ m.generation.level = 0 ∧
      m.graph = ⟨#[⟨0, 0, []⟩, ⟨2, 0, [(0, 0)]⟩, ⟨1, 0, [(2, 1), (1, 0)]⟩, ⟨4, 0, [(3, 2)]⟩],
        #[⟨0, false⟩, ⟨1, true⟩, ⟨2, false⟩, ⟨3, false⟩]⟩ := by
  let start := (Machine.initial Table.spared {} (inputPoints {} "a".toList)).read 97
    ⟨inputPoints {} "a".toList, 1⟩
  -- the nodes 0 and 1 have their turns in the first twenty steps
  obtain ⟨m₀, hr₀, hdata₀⟩ : ∃ m₀, Runs Table.spared {} start m₀ ∧
      (m₀.agenda.isEmpty, m₀.generation.queue, m₀.graph,
        (m₀.drain Table.spared {} (m₀.room Table.spared)).toOption.map
          fun m => (m.generation.level, m.graph)) = (true, [2],
        ⟨#[⟨0, 0, []⟩, ⟨2, 0, [(0, 0)]⟩, ⟨1, 0, [(2, 1), (1, 0)]⟩],
          #[⟨0, false⟩, ⟨1, true⟩, ⟨2, false⟩]⟩,
        some (0,
          ⟨#[⟨0, 0, []⟩, ⟨2, 0, [(0, 0)]⟩, ⟨1, 0, [(2, 1), (1, 0)]⟩, ⟨4, 0, [(3, 2)]⟩],
            #[⟨0, false⟩, ⟨1, true⟩, ⟨2, false⟩, ⟨3, false⟩]⟩)) :=
    exists_runs_of_iterate_map 20 (by decide +kernel)
  obtain ⟨hagenda, hqueue, hgraph₀, hdrain⟩ : _ ∧ _ ∧ _ ∧ _ := by
    simpa only [Prod.mk.injEq] using hdata₀
  obtain ⟨m, hm, hdata⟩ := exists_ok_of_toOption_map hdrain
  obtain ⟨hlevel, hgraph⟩ : _ ∧ _ := by simpa only [Prod.mk.injEq] using hdata
  obtain ⟨hr, hi⟩ := drain_ok hm
  have hstart : Reached Table.spared {} (inputPoints {} "a".toList) ⟨.working, start⟩ :=
    .single (.read (by decide) (by decide))
  exact ⟨m₀, m, hstart.trans (nexts_of_runs hr₀), List.isEmpty_iff.mp hagenda, hqueue, hgraph₀,
    hr, hi, hlevel, hgraph⟩

/-- The node 2 of that machine has its turn while one of its links is rejected and the other one is
not.  Its shift is made, and so is its reduction along no links. -/
theorem attended_if_live_spared : ∃ m m₀ queue,
    Reached Table.spared {} (inputPoints {} "a".toList) ⟨.working, m⟩ ∧
      m.work Table.spared {} = .idle m ∧ m.graph.entryAt? 2 = some ⟨1, m.generation.level⟩ ∧
      Reached Table.spared {} (inputPoints {} "a".toList) ⟨.working, m₀⟩ ∧ m₀.agenda = [] ∧
      m₀.generation.queue = 2 :: queue ∧ Runs Table.spared {} m₀ m ∧
      m₀.graph.linksFrom 2 = [(2, 1), (1, 0)] ∧ m₀.graph.isRejected 1 = true ∧
      m₀.graph.allRejected 2 = false ∧ m.graph.allRejected 2 = false ∧
      (Table.spared.Offers (inputPoints {} "a".toList) 1 m.generation.level (.shift 3) ∧
        ∃ w l, m.shift.graph.entryAt? w = some ⟨3, m.generation.level + 1⟩ ∧
          (l, 2) ∈ m.shift.graph.linksFrom w) ∧
      Table.spared.Reduces (inputPoints {} "a".toList) 1 m.generation.level ⟨0, 259, .normal⟩ ∧
        ∃ target w l, Table.spared.gotoFrom? 1 259 = some target ∧
          m.graph.entryAt? w = some ⟨target, m.generation.level⟩ ∧
          (l, 2) ∈ m.graph.linksFrom w := by
  obtain ⟨m₀, m, h₀, ha, hq, hg₀, hr, hi, hlevel, hg⟩ := reached_spared
  have hx : Reached Table.spared {} (inputPoints {} "a".toList) ⟨.working, m⟩ :=
    h₀.trans (nexts_of_runs hr)
  have hn : m.graph.entryAt? 2 = some ⟨1, m.generation.level⟩ := by
    rw [hg, hlevel]
    rfl
  have hlive₀ : m₀.graph.allRejected 2 = false := by
    rw [hg₀]
    rfl
  have hlive : m.graph.allRejected 2 = false := by
    rw [hg]
    rfl
  have hshift : Table.spared.Offers (inputPoints {} "a".toList) 1 m.generation.level
      (.shift 3) := by
    rw [hlevel]
    exact ⟨97, rfl, List.mem_cons_self⟩
  have hreduce : Table.spared.Reduces (inputPoints {} "a".toList) 1 m.generation.level
      ⟨0, 259, .normal⟩ := by
    rw [hlevel]
    exact ⟨⟨_, rfl, rfl⟩, _, ⟨97, rfl, List.mem_cons_of_mem _ List.mem_cons_self⟩, rfl⟩
  obtain ⟨m₁, queue, h₁, ha₁, hq₁, hr₁, hattended⟩ := attended_if_live hx hi hn
  -- a node has one turn only, so this is the one at which the node is live
  obtain rfl : m₁ = m₀ := congrArg Moment.machine
    (h₁.takes_unique h₀ ⟨rfl, ha₁, congrArg List.head? hq₁⟩ ⟨rfl, ha, congrArg List.head? hq⟩)
  obtain ⟨hshifted, hreduced⟩ := hattended hlive₀ hlive
  exact ⟨m, m₁, queue, hx, hi, hn, h₁, ha₁, hq₁, hr₁, by rw [hg₀]; rfl, by rw [hg₀]; rfl, hlive₀,
    hlive, ⟨hshift, hshifted 3 hshift⟩, hreduce, hreduced _ hreduce rfl⟩

end ScannerlessLR
