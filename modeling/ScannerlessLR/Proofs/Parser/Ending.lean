/-
The end of a parse.

A parse that has gone through the points goes no further, and neither does one that
fails.  It goes one way only, so it comes to one of these moments at most, and that
moment decides the result.

* `Moment.Over` — the moments behind the points;
* `Moment.Over.reaches_cases` — all that can come then;
* `Ended.reaches` — the end comes after all work at the points;
* `Ended.result_eq`, `Reached.result_eq_of_failed` — the result of the parse.
-/
import ScannerlessLR.Proofs.Parser.Run

namespace ScannerlessLR

/-- A parse is over: it is stranded, or behind the last point. -/
def Moment.Over (points : Array UInt32) (x : Moment) : Prop :=
  x.phase = .stranded ∨ x.phase = .between ∧ points.size ≤ x.machine.generation.level

open Machine

variable {table : Table} {config : Config} {points : Array UInt32} {m m' : Machine}
  {x y : Moment} {e : ParseError}

/-! ### Parses that are over -/

/-- All that can still come when a parse is over is that it strands. -/
theorem Moment.Over.reaches_cases (h : x.Over points) (hx : Reached table config points x)
    (hr : Relation.ReflTransGen (Next table config) x y) : y = x ∨
      y = ⟨.stranded, x.machine.record (.stranded x.machine.cursor.position)⟩ := by
  rcases Relation.ReflTransGen.cases_head hr with rfl | ⟨z, hn, hr⟩
  · exact .inl rfl
  cases hn with
  | @read m _ _ ha hread =>
    obtain ⟨-, hlevel⟩ := h.resolve_left (by simp)
    have hnone : Cursor.read? ⟨points, m.generation.level⟩ = none :=
      Cursor.read?_eq_none_iff.mpr hlevel
    rw [hx.between.cursor] at hread
    exact absurd (hread.symm.trans hnone) (by simp)
  | strand ha =>
    rcases Relation.ReflTransGen.cases_head hr with rfl | ⟨z, hn, -⟩
    · exact .inr rfl
    · cases hn
  | work | turn | leaf | shift | shifted => exact absurd h (by simp [Moment.Over])

theorem ended_iff : Ended table config points m ↔
    ∃ phase, Moment.Over points ⟨phase, m⟩ ∧ Reached table config points ⟨phase, m⟩ := by
  constructor
  · rintro (h | ⟨h, hlevel⟩)
    · exact ⟨_, .inl rfl, h⟩
    · exact ⟨_, .inr ⟨rfl, hlevel⟩, h⟩
  · rintro ⟨phase, rfl | ⟨rfl, hlevel⟩, h⟩
    · exact .inl h
    · exact .inr ⟨h, hlevel⟩

theorem Ended.exists_reached (h : Ended table config points m) :
    ∃ phase, (phase = .stranded ∨ phase = .between) ∧ Reached table config points ⟨phase, m⟩ := by
  obtain ⟨phase, hover, hx⟩ := ended_iff.mp h
  exact ⟨phase, hover.imp_right And.left, hx⟩

/-- The end of a parse comes after all work at its points. -/
theorem Ended.reaches (h : Ended table config points m)
    (hw : Reached table config points ⟨.working, m'⟩) :
    ∃ phase, (phase = .stranded ∨ phase = .between) ∧
      Relation.ReflTransGen (Next table config) ⟨.working, m'⟩ ⟨phase, m⟩ := by
  obtain ⟨phase, hover, hx⟩ := ended_iff.mp h
  have hphase : phase = .stranded ∨ phase = .between := hover.imp_right And.left
  rcases Relation.ReflTransGen.total_of_right_unique next_rightUnique hw hx with hr | hr
  · exact ⟨phase, hphase, hr⟩
  · rcases hover.reaches_cases hx hr with heq | heq
    · obtain ⟨rfl, -⟩ := Moment.mk.inj heq
      exact absurd hphase (by simp)
    · exact absurd heq (by simp)

/-! ### Parses that fail -/

/-- A parse goes no further than where it fails. -/
theorem Machine.eq_of_reaches_of_failed {f : Machine} (hf : m.work table config = .failed e f)
    (hr : Relation.ReflTransGen (Next table config) ⟨.working, m⟩ y) : y = ⟨.working, m⟩ := by
  rcases Relation.ReflTransGen.cases_head hr with heq | ⟨z, hn, -⟩
  · exact heq.symm
  cases hn with
  | work hm =>
    rw [Moves, hf] at hm
    exact absurd hm (by simp [Progress.next?])
  | turn hi | leaf hi => exact absurd (hi.symm.trans hf) (by simp)

/-- A parse that ends has not failed. -/
theorem Ended.not_failed (h : Ended table config points m)
    (hx : Reached table config points ⟨.working, m'⟩) {f : Machine} :
    m'.work table config ≠ .failed e f := by
  intro hf
  obtain ⟨phase, hphase, hr⟩ := h.reaches hx
  obtain ⟨rfl, -⟩ := Moment.mk.inj (eq_of_reaches_of_failed hf hr)
  exact absurd hphase (by simp)

/-! ### Results -/

theorem Machine.result_conclude_record (m : Machine) (event : Event) :
    (m.record event).conclude.result = m.conclude.result := by
  have ha : (m.record event).accepting = m.accepting := rfl
  have hg : (m.record event).graph = m.graph := rfl
  rw [conclude, conclude, ha, hg]
  cases m.accepting with
  | none => rfl
  | some n =>
    simp only
    cases m.graph.livePath? n rootNode <;> rfl

theorem Moment.Over.result_eq (h : x.Over points) (hx : Reached table config points x)
    (hr : Relation.ReflTransGen (Next table config) x y) :
    y.machine.conclude.result = x.machine.conclude.result := by
  rcases h.reaches_cases hx hr with rfl | rfl
  · rfl
  · exact x.machine.result_conclude_record _

/-- A machine at the end of a parse has the result of the parse. -/
theorem Ended.result_eq (h : Ended table config points m) :
    (parsePoints table config points).result = m.conclude.result := by
  rcases parsePoints_cases table config points with ⟨m', h', heq⟩ | ⟨m', id, label, f, hx, hf, -⟩
  · rw [heq]
    obtain ⟨phase, hover, hx⟩ := ended_iff.mp h
    obtain ⟨phase', hover', hx'⟩ := ended_iff.mp h'
    rcases Relation.ReflTransGen.total_of_right_unique next_rightUnique hx hx' with hr | hr
    · exact hover.result_eq hx hr
    · exact (hover'.result_eq hx' hr).symm
  · exact absurd hf (h.not_failed hx)

/-- A machine that fails has the error of the parse. -/
theorem Reached.result_eq_of_failed (hx : Reached table config points ⟨.working, m⟩) {f : Machine}
    (hf : m.work table config = .failed e f) :
    (parsePoints table config points).result = .error e := by
  rcases parsePoints_cases table config points with ⟨m', h', -⟩ | ⟨m', id, label, f', hx', hf', heq⟩
  · exact absurd hf (h'.not_failed hx)
  · have hm : m' = m := by
      rcases Relation.ReflTransGen.total_of_right_unique next_rightUnique hx hx' with hr | hr
      · exact congrArg Moment.machine (eq_of_reaches_of_failed hf hr)
      · exact (congrArg Moment.machine (eq_of_reaches_of_failed hf' hr)).symm
    rw [hm, hf] at hf'
    rw [heq, (Progress.failed.inj hf').1]

end ScannerlessLR
