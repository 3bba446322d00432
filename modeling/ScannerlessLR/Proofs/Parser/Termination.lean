/-
Every parse comes to an end.

What remains of a parse is counted in four numbers, of which the first that changes
gets smaller with every step: the points ahead, what is still to come at the point
besides work, the links that may still be made, and the weight of the work to be done
if none is made.  A node is joined once to another at most, and the nodes are not more
than the states at each level, so there is a bound on the links.

* `Moment.remaining`, `Lighter` — what remains of a parse, in lexicographic order;
* `Reached.lighter_of_next` — every step leaves less;
* `Reached.acc` — so no parse goes on forever;
* `Reached.last_cases` — at its last moment a parse is over, or a goto is missing;
* `parse_terminates` — parsing ends, and nested work with it.
-/
import ScannerlessLR.Proofs.Parser.Nesting

namespace ScannerlessLR

/-- What is still to come at a point besides work: the shifts, one by one, and to read the point. -/
def Phase.stage : Phase → ℕ
  | .shifting _ due => due.length + 3
  | .between => 2
  | .working => 1
  | .stranded => 0

/-- The links that may still be made, if any two nodes of the levels so far can be joined. -/
def Machine.spare (table : Table) (m : Machine) : ℕ :=
  (table.states.length * (m.generation.level + 1)) ^ 2 - m.graph.links.size

/-- What remains of a parse: the points ahead, what is still to come at the point, the links that
may still be made, and the weight of the work until one is made. -/
def Moment.remaining (table : Table) (points : Array UInt32) (x : Moment) : ℕ × ℕ × ℕ × ℕ :=
  (points.size - x.machine.generation.level, x.phase.stage, x.machine.spare table,
    x.machine.weight table)

/-- Four numbers are less than others if the first of them that differs is. -/
def Lighter : ℕ × ℕ × ℕ × ℕ → ℕ × ℕ × ℕ × ℕ → Prop :=
  Prod.Lex (· < ·) (Prod.Lex (· < ·) (Prod.Lex (· < ·) (· < ·)))

open Machine

variable {table : Table} {config : Config} {points : Array UInt32} {m m' : Machine}
  {x y : Moment}

theorem wellFounded_lighter : WellFounded Lighter :=
  wellFounded_lt.prod_lex (wellFounded_lt.prod_lex (wellFounded_lt.prod_lex wellFounded_lt))

theorem lighter_iff {a b : ℕ × ℕ × ℕ × ℕ} : Lighter a b ↔ a.1 < b.1 ∨ a.1 = b.1 ∧
    (a.2.1 < b.2.1 ∨ a.2.1 = b.2.1 ∧
      (a.2.2.1 < b.2.2.1 ∨ a.2.2.1 = b.2.2.1 ∧ a.2.2.2 < b.2.2.2)) := by
  simp only [Lighter, Prod.lex_def]

/-! ### Every step leaves less -/

/-- There is at most one link from each node to each node. -/
theorem StackGraph.WellFormed.size_links_le {g : StackGraph} (h : g.WellFormed) :
    g.links.size ≤ g.nodes.size ^ 2 := by
  have hcard : (Finset.range g.links.size).card ≤
      (Finset.range g.nodes.size ×ˢ Finset.range g.nodes.size).card := by
    refine Finset.card_le_card_of_forall_subsingleton
      (fun l ends => (l, ends.2) ∈ g.linksFrom ends.1) ?_ ?_
    · intro l hl
      obtain ⟨w, v, hmem⟩ := h.exists_ends (Finset.mem_range.mp hl)
      refine ⟨(w, v), ?_, hmem⟩
      rw [Finset.mem_product, Finset.mem_range, Finset.mem_range]
      exact ⟨StackGraph.lt_of_mem_linksFrom hmem, h.target_lt hmem⟩
    -- two links between the same nodes are one
    · rintro ends - l ⟨-, hl⟩ l' ⟨-, hl'⟩
      exact h.link_unique hl hl'
  rw [Finset.card_range, Finset.card_product, Finset.card_range] at hcard
  rwa [pow_two]

theorem Reached.size_links_le (hx : Reached table config points x) :
    x.machine.graph.links.size ≤
      (table.states.length * (x.machine.generation.level + 1)) ^ 2 :=
  Nat.le_trans hx.ordered.roster.wf.size_links_le
    (Nat.pow_le_pow_left (hx.ordered.roster.size_nodes_le hx.entry_unique) 2)

/-- A step that makes no link leaves the links as many as they are. -/
theorem Machine.size_links_of_moved (h : m.work table config = .moved m') :
    m'.graph.links.size = m.graph.links.size := by
  have hw := works_work table config m
  rw [h] at hw
  cases hw with
  | task ha hp =>
    cases hp with
    | reject => exact StackGraph.size_links_reject ..
    | _ => rfl
  | dispatch ha hq hp => cases hp <;> rfl

/-- A step at a point makes a link, or it leaves less to be done without one. -/
theorem Reached.spare_or_weight_lt (hx : Reached table config points ⟨.working, m⟩)
    (hm : Moves table config m m') : m'.spare table < m.spare table ∨
      m'.spare table = m.spare table ∧ m'.weight table < m.weight table := by
  have hlevel := hm.frame.1
  cases hw : m.work table config with
  | linked m₁ =>
    -- the next moment has its links within the bound, too, so the new one was to spare
    obtain rfl : m₁ = m' := by simpa [Moves, hw, Progress.next?] using hm
    have hle : m₁.graph.links.size ≤ (table.states.length * (m₁.generation.level + 1)) ^ 2 :=
      (hx.next (.work hm)).size_links_le
    have hsize := size_links_of_linked hw
    rw [spare, spare]
    rw [hlevel] at hle ⊢
    omega
  | moved m₁ =>
    obtain rfl : m₁ = m' := by simpa [Moves, hw, Progress.next?] using hm
    refine .inr ⟨?_, weight_lt_of_work_moved hw⟩
    rw [spare, spare, hlevel, size_links_of_moved hw]
  | idle m₁ | failed e m₁ => exact absurd hm (by simp [Moves, hw, Progress.next?])

/-- Every step of a parse leaves less of it. -/
theorem Reached.lighter_of_next (hx : Reached table config points x)
    (hn : Next table config x y) :
    Lighter (y.remaining table points) (x.remaining table points) := by
  rw [lighter_iff]
  cases hn with
  | read => exact .inr ⟨rfl, .inl (Nat.lt_succ_self _)⟩
  | strand => exact .inr ⟨rfl, .inl Nat.zero_lt_two⟩
  | work hm =>
    refine .inr ⟨?_, .inr ⟨rfl, hx.spare_or_weight_lt hm⟩⟩
    show points.size - _ = points.size - _
    rw [hm.frame.1]
  | @turn m | @leaf m =>
    -- the point at the level has been read, so there is one less ahead
    have hlt := hx.working.level_lt
    exact .inl (Nat.sub_lt_sub_left hlt (Nat.lt_succ_self _))
  | @shift leaf s due m =>
    refine .inr ⟨?_, .inl (Nat.lt_succ_self _)⟩
    show points.size - _ = points.size - _
    rw [level_shiftNode]
  | shifted => exact .inr ⟨rfl, .inl (Nat.lt_succ_self _)⟩

/-- No parse goes on forever. -/
theorem Reached.acc (hx : Reached table config points x) :
    Acc (fun z y => Next table config y z) x := by
  generalize hr : x.remaining table points = r
  induction r using wellFounded_lighter.induction generalizing x with
  | _ r ih =>
    refine ⟨x, fun y hn => ih _ ?_ (hx.next hn) rfl⟩
    rw [← hr]
    exact hx.lighter_of_next hn

/-! ### The last moment -/

/-- A parse goes on to a last moment. -/
theorem Reached.exists_last (hx : Reached table config points x) :
    ∃ y, Relation.ReflTransGen (Next table config) x y ∧ ∀ z, ¬ Next table config y z := by
  induction hx.acc with
  | intro x _ ih =>
    by_cases hlast : ∃ y, Next table config x y
    · obtain ⟨y, hn⟩ := hlast
      obtain ⟨z, hr, hz⟩ := ih y hn (hx.next hn)
      exact ⟨z, hr.head hn, hz⟩
    · exact ⟨x, .refl, not_exists.mp hlast⟩

/-- At its last moment a parse is over, or it fails. -/
theorem Reached.last_cases (hx : Reached table config points x)
    (hlast : ∀ y, ¬ Next table config x y) : x.Over points ∨
      ∃ m e f, x = ⟨.working, m⟩ ∧ m.work table config = .failed e f := by
  obtain ⟨phase, m⟩ := x
  -- in every other phase, or with work left, the parse goes on
  cases phase with
  | stranded => exact .inl (.inl rfl)
  | shifting leaf due =>
    cases due with
    | nil => exact absurd .shifted (hlast _)
    | cons s due => exact absurd .shift (hlast _)
  | between =>
    by_cases ha : m.generation.active = []
    · exact absurd (.strand ha) (hlast _)
    cases hr : m.cursor.read? with
    | none =>
      rw [hx.between.cursor] at hr
      exact .inl (.inr ⟨rfl, Cursor.read?_eq_none_iff.mp hr⟩)
    | some pc => exact absurd (.read ha hr) (hlast _)
  | working =>
    cases hw : m.work table config with
    | idle m' =>
      obtain ⟨rfl, -⟩ := work_eq_idle hw
      by_cases hs : m'.generation.shifts = []
      · exact absurd (.turn hw hs) (hlast _)
      · exact absurd (.leaf hw hs) (hlast _)
    | moved m' | linked m' => exact absurd (.work (by rw [Moves, hw]; rfl)) (hlast ⟨.working, m'⟩)
    | failed e f => exact .inr ⟨m, e, f, rfl, hw⟩

/-- No two nodes of the queue, past or present, are of the same state. -/
theorem Reached.length_le (hx : Reached table config points x) :
    (x.machine.generation.processed ++ x.machine.generation.queue).length ≤
      table.states.length := by
  have hsteady := hx.ordered.steady
  have hcard : (x.machine.generation.processed ++ x.machine.generation.queue).toFinset.card ≤
      (table.states.map State.id).toFinset.card := by
    -- active nodes of one state at one level are one
    refine Finset.card_le_card_of_forall_subsingleton
      (fun n s => x.machine.graph.entryAt? n = some ⟨s, x.machine.generation.level⟩) ?_ ?_
    · intro n hn
      obtain ⟨s, hs⟩ := (hsteady.staff n).mp (List.mem_append.mp (List.mem_toFinset.mp hn))
      exact ⟨s, List.mem_toFinset.mpr (hsteady.roster.state_mem hs), hs⟩
    · rintro s - n ⟨-, hn⟩ n' ⟨-, hn'⟩
      exact hx.entry_unique hn hn'
  have hle := List.toFinset_card_le (table.states.map State.id)
  rw [List.length_map] at hle
  rw [List.toFinset_card_of_nodup hx.nodup] at hcard
  exact Nat.le_trans hcard hle

/-- Whatever the table, the input and the configuration, parsing takes finitely many steps, and the
last of them decides the result.  Nested work is done over links that have been made at the point,
down from active nodes to nodes that they had not been joined to, and only so many can be made;
and no more nodes than states come to the queue at a point. -/
theorem parse_terminates (table : Table) (config : Config) (input : String) :
    Acc (fun y x => Next table config x y)
      ⟨.between, Machine.initial table config (inputPoints config input.toList)⟩ ∧
    ((∃ position, input.toList.findIdx? (·.val = config.endOfInput) = some position ∧
        (parse table input config).result = .error (.reservedCharacter position)) ∨
      ∃ x, Reached table config (inputPoints config input.toList) x ∧
        (∀ y, ¬ Next table config x y) ∧
        (x.phase ≠ .working ∧ (parse table input config).result = x.machine.conclude.result ∨
          x.phase = .working ∧ ∃ id label f,
            x.machine.work table config = .failed (.missingGoto id label) f ∧
              (parse table input config).result = .error (.missingGoto id label))) ∧
    (∀ m, Reached table config (inputPoints config input.toList) ⟨.working, m⟩ →
      (∀ t ∈ m.agenda, ∀ l, t.through? = some l →
        Made table config (inputPoints config input.toList) m l) ∧
      (m.agenda.filterMap Task.through?).Pairwise (· ≥ ·) ∧
      (m.agenda.filterMap Task.through?).toFinset.card ≤
        table.states.length * m.graph.nodes.size ∧
      ∀ m', Runs table config m m' → m'.graph.links.size ≤ m.graph.links.size +
        table.states.length * (m.graph.nodes.size + table.states.length)) ∧
    ∀ x, Reached table config (inputPoints config input.toList) x →
      (x.machine.generation.processed ++ x.machine.generation.queue).Nodup ∧
      (x.machine.generation.processed ++ x.machine.generation.queue).length ≤
        table.states.length := by
  have hstart : Reached table config (inputPoints config input.toList)
      ⟨.between, Machine.initial table config (inputPoints config input.toList)⟩ := .refl
  refine ⟨hstart.acc, ?_, fun m hm => ⟨fun t ht l => hm.made ht, hm.nested, hm.card_through_le,
    fun m' hr => (Since.runs hm.working hr).size_links_le (hm.working.runs hr)⟩,
    fun x hx => ⟨hx.nodup, hx.length_le⟩⟩
  cases hf : input.toList.findIdx? (·.val = config.endOfInput) with
  | some position => exact .inl ⟨position, rfl, by rw [parse, hf]⟩
  | none =>
    have hparse : parse table input config =
        parsePoints table config (inputPoints config input.toList) := by rw [parse, hf]
    obtain ⟨x, hx, hlast⟩ := hstart.exists_last
    refine .inr ⟨x, hx, hlast, ?_⟩
    rw [hparse]
    rcases Reached.last_cases hx hlast with hover | ⟨m, e, f, rfl, hfailed⟩
    · have hended : Ended table config (inputPoints config input.toList) x.machine :=
        ended_iff.mpr ⟨x.phase, hover, hx⟩
      refine .inl ⟨fun hphase => ?_, hended.result_eq⟩
      exact absurd hover (by simp [Moment.Over, hphase])
    · obtain ⟨-, -, r, -, -, id, -, -, -, rfl⟩ := (Reached.working hx).work_failed hfailed
      exact .inr ⟨rfl, id, r.label, f, hfailed, Reached.result_eq_of_failed hx hfailed⟩

end ScannerlessLR
