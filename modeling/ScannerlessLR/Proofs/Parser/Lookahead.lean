/-
What a parse reads, and what it only looks at.

The cursor is shared between the loop over the points and the checks of follow
restrictions, which happen in the middle of reductions and of reductions taken again.  A
check comes back to where it was.  So whatever a parse does at a point, the cursor stays
behind it, and the points become the current one in order, each of them once.

* `readings` — the points that become the current one, as events tell;
* `Machine.Stays` — nothing is read between two machines;
* `Machine.works_stays` — no step reads anything;
* `Reached.readings_eq` — what has been read lies in front of the cursor;
* `lookahead_moves_nothing` — so looking ahead does not disturb a parse.
-/
import ScannerlessLR.Proofs.Parser.Run

namespace ScannerlessLR

/-- The point that becomes the current one with an event, and its position. -/
def Event.reading? : Event → Option (UInt32 × ℕ)
  | .reading token position => some (token, position)
  | _ => none

/-- The points that become the current one, and their positions, in the order of the events. -/
def readings (events : List Event) : List (UInt32 × ℕ) :=
  events.filterMap Event.reading?

theorem readings_reverse (events : List Event) :
    readings events.reverse = (readings events).reverse :=
  List.filterMap_reverse

/-- The machine that a step comes to, also if it fails. -/
def Progress.machine : Progress → Machine
  | .idle m | .moved m | .linked m | .failed _ m => m

theorem Progress.machine_of_next? {p : Progress} {m : Machine} (h : p.next? = some m) :
    p.machine = m := by
  cases p with
  | moved | linked => exact Option.some.inj h
  | idle | failed => exact absurd h (by simp [next?])

open Machine

variable {table : Table} {config : Config} {points : Array UInt32} {m m' : Machine}
  {x y : Moment}

/-! ### Steps -/

/-- From one machine to another the cursor stays where it is, and no point becomes the current
one. -/
structure Machine.Stays (m m' : Machine) : Prop where
  cursor : m'.cursor = m.cursor
  readings : readings m'.events = readings m.events

namespace Machine

/-- Whatever a task does, it reads nothing. -/
theorem performs_stays {t : Task} {p : Progress} (hp : Performs table config m t p) :
    m.Stays p.machine := by
  cases hp with
  -- the cursor is put back to where it has been
  | check n r forbidden through => exact ⟨m.cursor.cursor_checkFollow forbidden, rfl⟩
  | link n r rejecting p id target hd hb hg hf =>
    refine ⟨cursor_attach _ target p.bottom m.forest.size, ?_⟩
    have hevents := events_attach (m.reducing n r p id target) target p.bottom m.forest.size
    exact (congrArg readings hevents).trans rfl
  | _ => exact ⟨rfl, rfl⟩

/-- Nor does a step. -/
theorem works_stays {p : Progress} (hp : Works table config m p) : m.Stays p.machine := by
  cases hp with
  | task ha hp =>
    have h := performs_stays hp
    exact ⟨h.cursor, h.readings⟩
  | dispatch ha hq hp =>
    cases hp with
    | unknownState | nothing | items => exact ⟨rfl, rfl⟩
  | idle ha hq => exact ⟨rfl, rfl⟩

theorem stays_shiftNode (leaf : TreeId) (m : Machine) (s : Shift) :
    m.Stays (m.shiftNode leaf s) := by
  rcases m.shiftNode_cases leaf s with heq | ⟨-, heq⟩ <;> rw [heq]
  · exact ⟨rfl, rfl⟩
  · exact ⟨cursor_attach .., congrArg _ (events_attach ..)⟩

/-- A check that is next tells what it has found, and does nothing else but to go on with the
reduction, or not. -/
theorem moves_check {n : NodeId} {r : Reduction} {forbidden : List RangeSet}
    {through : Option LinkId} {agenda : List Task}
    (ha : m.agenda = .check n r forbidden through :: agenda) :
    Moves table config m (({ m with agenda } : Machine).check n r forbidden through) := by
  rw [Moves, work, ha]
  rfl

end Machine

/-! ### Moments -/

/-- Only in front of a point something is read: the point at the cursor. -/
theorem Next.reads (hn : Next table config x y) : x.machine.Stays y.machine ∨
    x.phase = .between ∧ ∃ token cursor, x.machine.cursor.read? = some (token, cursor) ∧
      y.machine = x.machine.read token cursor := by
  cases hn with
  | read ha hr => exact .inr ⟨rfl, _, _, hr, rfl⟩
  | work hm =>
    obtain ⟨p, hp, hnext⟩ := hm.works
    have h := works_stays hp
    rw [Progress.machine_of_next? hnext] at h
    exact .inl h
  | turn | leaf | shifted | strand => exact .inl ⟨rfl, rfl⟩
  | shift => exact .inl (stays_shiftNode ..)

/-- What has been read are the points in front of the cursor, one after the other. -/
theorem Reached.readings_eq (h : Reached table config points x) :
    readings x.machine.events.reverse =
      points.toList.zipIdx.take x.machine.cursor.position := by
  rw [readings_reverse]
  induction h with
  | refl => rfl
  | @tail x y hx hn ih =>
    rcases hn.reads with hs | ⟨hphase, token, cursor, hr, hy⟩
    -- a step that reads nothing leaves the cursor where it is
    · rw [hs.cursor, hs.readings, ih]
    · obtain ⟨phase, m⟩ := x
      obtain rfl : phase = .between := hphase
      have hcursor := (Reached.between hx).cursor
      obtain ⟨hp, rfl⟩ := Cursor.read?_eq_some_iff.mp hr
      rw [hcursor] at hp
      -- the point at the cursor comes next
      have hlast : points.toList.zipIdx[m.generation.level]? =
          some (token, m.generation.level) := by
        simp [List.getElem?_zipIdx, hp]
      rw [hy]
      show ((token, m.cursor.position) :: readings m.events).reverse =
        points.toList.zipIdx.take (m.cursor.position + 1)
      rw [hcursor] at ih ⊢
      rw [List.reverse_cons, ih, List.take_add_one, hlast, Option.toList_some]

/-- At work on a point, the point is the last that has been read. -/
theorem Reached.readings_working (h : Reached table config points ⟨.working, m⟩) :
    readings m.events.reverse = points.toList.zipIdx.take (m.generation.level + 1) := by
  have hread := h.readings_eq
  rwa [h.working.cursor] at hread

/-! ### Parses -/

theorem readings_conclude (m : Machine) :
    readings m.conclude.events = readings m.events.reverse := by
  rw [conclude]
  cases m.accepting with
  | none => rfl
  | some n =>
    cases hl : m.graph.livePath? n rootNode with
    | none => simp only [hl]
    | some path =>
      simp only [hl]
      rw [readings_reverse, readings_reverse]
      rfl

/-- However a parse ends, it has read points from the first on, each of them once. -/
theorem readings_parsePoints (table : Table) (config : Config) (points : Array UInt32) :
    ∃ k, readings (parsePoints table config points).events = points.toList.zipIdx.take k := by
  rcases parsePoints_cases table config points with
    ⟨m, he, hp⟩ | ⟨m, id, label, f, hr, hw, hp⟩
  · rw [hp, readings_conclude]
    rcases he with h | ⟨h, -⟩ <;> exact ⟨_, h.readings_eq⟩
  -- nothing is read in the step that fails
  · have hstays := works_stays (works_work table config m)
    rw [hw] at hstays
    rw [hp]
    refine ⟨_, Eq.trans ?_ hr.readings_eq⟩
    rw [readings_reverse, readings_reverse]
    exact congrArg _ hstays.readings

theorem readings_parse (table : Table) (config : Config) (input : String) :
    ∃ k, readings (parse table input config).events =
      (inputPoints config input.toList).toList.zipIdx.take k := by
  rw [parse]
  split
  · exact ⟨0, rfl⟩
  · exact readings_parsePoints table config _

/-- Looking ahead does not disturb a parse.  A check of follow restrictions leaves the cursor where
it is, reads at most one point for each set and none past the end, and forbids exactly if a point
that it may read is in its set.  So at every moment of a parse, `k + 1` points have been read, in
order, the point at `k` is the current one, and a check looks at the points behind it; and in the
end, the points that have been read are the first ones of the input. -/
theorem lookahead_moves_nothing :
    (∀ (c : Cursor) (forbidden : List RangeSet),
      (c.lookAhead forbidden).cursor = ⟨c.points, c.position + (c.checkFollow forbidden).read⟩ ∧
      (c.checkFollow forbidden).cursor = c ∧
      (c.checkFollow forbidden).read ≤ min forbidden.length (c.points.size - c.position) ∧
      ((c.checkFollow forbidden).permitted = false ↔ Violates c.points c.position forbidden)) ∧
    (∀ (table : Table) (config : Config) (points : Array UInt32) (m : Machine),
      Reached table config points ⟨.working, m⟩ → ∃ k,
        readings m.events.reverse = points.toList.zipIdx.take (k + 1) ∧
        points[k]? = some m.token ∧ m.cursor = ⟨points, k + 1⟩ ∧
        ∀ n r forbidden through agenda, m.agenda = .check n r forbidden through :: agenda →
          ∃ m' read permitted, Moves table config m m' ∧
            m'.cursor = m.cursor ∧ m'.token = m.token ∧
            m'.events = .followChecked read permitted :: m.events ∧
            m'.agenda = (if permitted then [.reduce n r through] else []) ++ agenda ∧
            read ≤ min forbidden.length (points.size - (k + 1)) ∧
            (permitted = false ↔ Violates points (k + 1) forbidden)) ∧
    ∀ (table : Table) (config : Config) (input : String), ∃ k,
      readings (parse table input config).events =
        (inputPoints config input.toList).toList.zipIdx.take k := by
  refine ⟨fun c forbidden => ?_, fun table config points m h => ?_, readings_parse⟩
  · exact ⟨c.cursor_lookAhead forbidden, c.cursor_checkFollow forbidden,
      c.read_lookAhead_le forbidden, Cursor.permitted_checkFollow_eq_false_iff⟩
  · have hcursor := h.working.cursor
    refine ⟨m.generation.level, h.readings_working, h.working.token, hcursor, ?_⟩
    intro n r forbidden through agenda ha
    refine ⟨_, (m.cursor.checkFollow forbidden).read, (m.cursor.checkFollow forbidden).permitted,
      moves_check ha, m.cursor.cursor_checkFollow forbidden, rfl, rfl, rfl, ?_, ?_⟩
    -- the cursor is behind the current point
    · have hle := m.cursor.read_lookAhead_le forbidden
      rw [hcursor] at hle ⊢
      exact hle
    · rw [Cursor.permitted_checkFollow_eq_false_iff, hcursor]

/-- A table that checks the points ahead of an `a`, and of the `b` behind it. -/
def Table.guarded : Table where
  start := 0
  states := [
    { id := 0, gotos := [⟨.single 257, 2⟩],
      actions := [⟨.single 97, [.reduceUnless ⟨0, 257, .normal⟩ [.single 99]]⟩] },
    { id := 1,
      actions := [⟨.single 98, [.reduceUnless ⟨1, 258, .normal⟩ [.single 98, .single 256]]⟩] },
    { id := 2, gotos := [⟨.single 258, 2⟩], actions := [⟨.single 97, [.shift 1]⟩] }]
  labels := [⟨257, .application "nothing" [], []⟩, ⟨258, .application "letter" [], []⟩]
  states_nodup := by decide
  labels_nodup := by decide
  resolves := by decide

/-- The moment of the parse of `abc` at which the second check is next. -/
theorem reached_guarded : ∃ m,
    Reached Table.guarded {} (inputPoints {} "abc".toList) ⟨.working, m⟩ ∧
    m.agenda = [.check 2 ⟨1, 258, .normal⟩ [.single 98, .single 256] none] ∧
    m.cursor = ⟨inputPoints {} "abc".toList, 2⟩ := by
  let points := inputPoints {} "abc".toList
  let m₀ := (Machine.initial Table.guarded {} points).read 97 ⟨points, 1⟩
  obtain ⟨m₁, hdrain, hdata⟩ := exists_ok_of_toOption_map
    (r := m₀.drain Table.guarded {} (m₀.room Table.guarded))
    (f := fun m => (m.shift.generation.active, m.shift.cursor,
      ((m.shift.read 98 ⟨points, 2⟩).work Table.guarded {}).next?.map
        fun m => (m.agenda, m.cursor)))
    (b := ([(1, 2)], ⟨points, 1⟩,
      some ([.check 2 ⟨1, 258, .normal⟩ [.single 98, .single 256] none], ⟨points, 2⟩)))
    (by decide +kernel)
  obtain ⟨hactive, hcursor, hwork⟩ : _ ∧ _ ∧ _ := by simpa only [Prod.mk.injEq] using hdata
  obtain ⟨m, hm, hdata⟩ := Option.map_eq_some_iff.mp hwork
  obtain ⟨hagenda, hcursor'⟩ := Prod.mk.inj hdata
  obtain ⟨hr, hi⟩ := drain_ok hdrain
  have h₀ : Reached Table.guarded {} points ⟨.working, m₀⟩ :=
    .single (.read (by decide) (by decide))
  have h₁ : Reached Table.guarded {} points ⟨.between, m₁.shift⟩ :=
    (h₀.trans (nexts_of_runs hr)).trans (nexts_shift hi)
  have hread : m₁.shift.cursor.read? = some (98, ⟨points, 2⟩) := by
    rw [hcursor]
    decide
  exact ⟨m, (h₁.next (.read (by simp [hactive]) hread)).next (.work hm), hagenda, hcursor'⟩

/-- There the check finds the end of the input, which is forbidden, and the cursor comes back from
it. -/
theorem lookahead_moves_nothing_guarded : ∃ m m' read,
    Reached Table.guarded {} (inputPoints {} "abc".toList) ⟨.working, m⟩ ∧
    readings m.events.reverse = [(97, 0), (98, 1)] ∧
    m.agenda = [.check 2 ⟨1, 258, .normal⟩ [.single 98, .single 256] none] ∧
    Moves Table.guarded {} m m' ∧ m'.events = .followChecked read false :: m.events ∧
    read ≤ 2 ∧ m'.agenda = [] ∧ m'.cursor = ⟨inputPoints {} "abc".toList, 2⟩ ∧ m'.token = 98 := by
  obtain ⟨m, hx, ha, hcursor⟩ := reached_guarded
  obtain ⟨-, hmoments, -⟩ := lookahead_moves_nothing
  obtain ⟨k, hread, htoken, hk, hcheck⟩ := hmoments _ _ _ m hx
  obtain rfl : k = 1 := by simpa [hcursor] using hk.symm
  obtain ⟨m', read, permitted, hm, hcursor', htoken', hevents, hagenda, hle, hiff⟩ :=
    hcheck _ _ _ _ _ ha
  obtain rfl : permitted = false := hiff.mpr ⟨1, by decide, by decide⟩
  exact ⟨m, m', read, hx, hread, ha, hm, hevents, hle, hagenda, hcursor'.trans hcursor,
    htoken'.trans (Option.some.inj htoken).symm⟩

end ScannerlessLR
