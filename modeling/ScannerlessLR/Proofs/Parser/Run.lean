/-
How a run ends.

Draining a machine takes steps until it is idle, and scanning the points takes
the machine from moment to moment.  The bounds on both suffice: a link that is
made leaves an active node, and no two links join the same nodes, so there is
room for all of them.

* `Machine.drain_ok`, `Machine.drain_error` — draining takes steps;
* `Working.work_failed` — all that can go wrong is that a goto is missing;
* `parsePoints_cases` — a parse ends at a moment, where it fails or is concluded.
-/
import Mathlib.Combinatorics.Enumerative.DoubleCounting
import Mathlib.Order.Interval.Finset.Nat
import ScannerlessLR.Proofs.Parser.Moment

namespace ScannerlessLR

namespace Machine

variable {table : Table} {config : Config} {m m' : Machine}

/-- A step leaves the level and the current point as they are. -/
theorem performs_frame {t : Task} {p : Progress} (hp : Performs table config m t p)
    (hm : p.next? = some m') : m'.generation.level = m.generation.level ∧ m'.token = m.token := by
  cases hp with
  | link n r rejecting p id target hd hb hg hf =>
    obtain rfl := Option.some.inj hm
    exact ⟨level_attach _ _ p.bottom m.forest.size, token_attach _ _ p.bottom m.forest.size⟩
  | unknownLabel | unknownBottom | gap | unknownState => exact absurd hm (by simp [Progress.next?])
  | _ =>
    obtain rfl := Option.some.inj hm
    exact ⟨rfl, rfl⟩

theorem Moves.frame (h : Moves table config m m') :
    m'.generation.level = m.generation.level ∧ m'.token = m.token := by
  obtain ⟨p, hp, hm⟩ := h.works
  cases hp with
  | task ha hp =>
    have hf := performs_frame hp hm
    exact hf
  | dispatch ha hq hp =>
    cases hp with
    | unknownState => exact absurd hm (by simp [Progress.next?])
    | nothing | items =>
      obtain rfl := Option.some.inj hm
      exact ⟨rfl, rfl⟩
  | idle ha hq => exact absurd hm (by simp [Progress.next?])

/-- Each link is made in a step of its own. -/
theorem size_links_of_linked (h : m.work table config = .linked m') :
    m'.graph.links.size = m.graph.links.size + 1 := by
  have hw := works_work table config m
  rw [h] at hw
  cases hw with
  | task ha hp =>
    cases hp with
    | link => exact size_links_attach
  | dispatch ha hq hp => cases hp

/-! ### Draining -/

/-- The steps of a machine up to another. -/
abbrev Runs (table : Table) (config : Config) : Machine → Machine → Prop :=
  Relation.ReflTransGen (Moves table config)

/-- What an advance comes to: it has taken steps, and then the machine is idle or fails, or the
last step has made a link. -/
theorem advance_cases (table : Table) (config : Config) (m : Machine) :
    (∃ m', m.advance table config = .drained m' ∧ Runs table config m m' ∧
      m'.work table config = .idle m') ∨
    (∃ m₁ m', m.advance table config = .linked m' ∧ Runs table config m m₁ ∧
      m₁.work table config = .linked m') ∨
    (∃ m' e f, m.advance table config = .failed e f ∧ Runs table config m m' ∧
      m'.work table config = .failed e f) := by
  fun_induction advance table config m with
  | case1 m m' h =>
    obtain ⟨rfl, -⟩ := work_eq_idle h
    exact .inl ⟨m', rfl, .refl, h⟩
  | case2 m m' h _ ih =>
    have hm : Moves table config m m' := by rw [Moves, h, Progress.next?]
    rcases ih with ⟨m'', ha, hr, hi⟩ | ⟨m₁, m'', ha, hr, hl⟩ | ⟨m'', e, f, ha, hr, hf⟩
    · exact .inl ⟨m'', ha, hr.head hm, hi⟩
    · exact .inr (.inl ⟨m₁, m'', ha, hr.head hm, hl⟩)
    · exact .inr (.inr ⟨m'', e, f, ha, hr.head hm, hf⟩)
  | case3 m m' h => exact .inr (.inl ⟨m, m', rfl, .refl, h⟩)
  | case4 m e f h => exact .inr (.inr ⟨m, e, f, rfl, .refl, h⟩)

/-- A machine that is drained has taken steps until it was idle. -/
theorem drain_ok {room : ℕ} (h : m.drain table config room = .ok m') :
    Runs table config m m' ∧ m'.work table config = .idle m' := by
  induction room generalizing m with
  | zero => simp [drain] at h
  | succ room ih =>
    rw [drain] at h
    rcases advance_cases table config m with ⟨m₁, ha, hr, hi⟩ | ⟨m₀, m₁, ha, hr, hl⟩ |
      ⟨m₁, e, f, ha, hr, hf⟩ <;> simp only [ha] at h
    · obtain rfl := Except.ok.inj h
      exact ⟨hr, hi⟩
    -- a link is made, and the rest is drained with one less of the room
    · obtain ⟨hr', hi⟩ := ih h
      have hm : Moves table config m₀ m₁ := by rw [Moves, hl, Progress.next?]
      exact ⟨(hr.tail hm).trans hr', hi⟩
    · exact absurd h (by simp)

end Machine

open Machine

variable {table : Table} {config : Config} {points : Array UInt32} {m m' m₀ : Machine}

namespace Working

/-- No step takes links away. -/
theorem size_links_le (h : Working table points m) (hm : Moves table config m m') :
    m.graph.links.size ≤ m'.graph.links.size := by
  cases h.changes hm with
  | still hg | pack _ _ _ _ _ _ _ _ hg => rw [hg]
  | reject l hr hg => rw [hg, StackGraph.size_links_reject]
  | link a v target hr hl hg =>
    rw [hg, size_links_attach]
    exact Nat.le_succ _

theorem runs (h : Working table points m) (hm : Runs table config m m') :
    Working table points m' := by
  induction hm with
  | refl => exact h
  | tail _ hm ih => exact ih.moves hm

/-- Steps only add to the graph. -/
theorem extends_of_runs (h : Working table points m) (hm : Runs table config m m') :
    m.graph.Extends m'.graph := by
  induction hm with
  | refl => exact .refl _
  | tail hm hm' ih => exact ih.trans ((h.runs hm).extends_of_moves hm')

theorem size_links_le_of_runs (h : Working table points m) (hm : Runs table config m m') :
    m.graph.links.size ≤ m'.graph.links.size := by
  induction hm with
  | refl => exact Nat.le_refl _
  | tail hm hm' ih => exact Nat.le_trans ih ((h.runs hm).size_links_le hm')

/-- A machine that cannot be drained fails at some step, or makes as many links as there is room
for. -/
theorem drain_error (h : Working table points m) {room : ℕ} {failure : Failure}
    (hd : m.drain table config room = .error failure) : ∃ m', Runs table config m m' ∧
      (m'.work table config = .failed failure.error failure.machine ∨
        m.graph.links.size + room ≤ m'.graph.links.size) := by
  induction room generalizing m with
  | zero => exact ⟨m, .refl, .inr (Nat.le_refl _)⟩
  | succ room ih =>
    rw [drain] at hd
    rcases advance_cases table config m with ⟨m₁, ha, hr, hi⟩ | ⟨m₀, m₁, ha, hr, hl⟩ |
      ⟨m₁, e, f, ha, hr, hf⟩ <;> simp only [ha] at hd
    · exact absurd hd (by simp)
    · have hm : Moves table config m₀ m₁ := by rw [Moves, hl, Progress.next?]
      -- of the room, one place has gone to the link that has been made
      obtain ⟨m', hr', hf | hle⟩ := ih (h.runs (hr.tail hm)) hd
      · exact ⟨m', (hr.tail hm).trans hr', .inl hf⟩
      · refine ⟨m', (hr.tail hm).trans hr', .inr ?_⟩
        have hle' := h.size_links_le_of_runs hr
        rw [size_links_of_linked hl] at hle
        omega
    · obtain rfl := Except.error.inj hd
      exact ⟨m₁, hr, .inl hf⟩

end Working

/-! ### There is room for all links -/

/-- Whatever has been added since `m₀` is of the current level: nodes, and the nodes that links
leave. -/
structure Since (m₀ m : Machine) : Prop where
  nodes : ∀ n e, m₀.graph.nodes.size ≤ n → m.graph.entryAt? n = some e →
    e.position = m.generation.level
  links : ∀ w l v e, m₀.graph.links.size ≤ l → (l, v) ∈ m.graph.linksFrom w →
    m.graph.entryAt? w = some e → e.position = m.generation.level

theorem Since.refl (h : Working table points m) : Since m m where
  nodes := by
    intro n e hn he
    exact absurd (StackGraph.lt_of_entryAt? he) (Nat.not_lt.mpr hn)
  links := by
    intro w l v e hl hmem _
    exact absurd (h.roster.wf.link_lt hmem) (Nat.not_lt.mpr hl)

theorem Since.moves (hs : Since m₀ m) (h : Working table points m)
    (hm : Moves table config m m') : Since m₀ m' := by
  have hlevel := hm.frame.1
  cases h.changes hm with
  | still hg | pack _ _ _ _ _ _ _ _ hg | reject _ _ hg =>
    constructor <;> rw [hg, hlevel]
    · exact hs.nodes
    · exact hs.links
  | link a bottom target hr hl hg =>
    constructor <;> rw [hg, hlevel]
    -- the new nodes are at the current level, and so are those that the new links leave
    · intro x e hx he
      rw [entryAt?_attach h.roster] at he
      split at he
      · rw [← Option.some.inj he]
      · exact hs.nodes x e hx he
    · intro w l v e hl hmem he
      rw [entryAt?_attach h.roster] at he
      split at he
      · rw [← Option.some.inj he]
      · rename_i hw
        rcases (mem_linksFrom_attach h.roster).mp hmem with ⟨rfl, -⟩ | hmem
        · exact absurd rfl hw
        · exact hs.links w l v e hl hmem he

theorem Since.runs (h : Working table points m) (hm : Runs table config m m') : Since m m' := by
  induction hm with
  | refl => exact .refl h
  | tail hm hm' ih => exact ih.moves (h.runs hm) hm'

/-- The states of the nodes are states of the table. -/
theorem Roster.state_mem {g : StackGraph} {level : ℕ} {active : List (StateId × NodeId)}
    (h : Roster table g level active) {n : NodeId} {e : Entry} (he : g.entryAt? n = some e) :
    e.state ∈ table.states.map State.id := by
  obtain ⟨s, hs⟩ := h.known he
  exact List.mem_map.mpr ⟨s, List.mem_of_find?_eq_some hs, by simpa using List.find?_some hs⟩

/-- At one point there is at most one new node for each state. -/
theorem Since.size_nodes_le (hs : Since m₀ m) (h : Working table points m) :
    m.graph.nodes.size ≤ m₀.graph.nodes.size + table.states.length := by
  -- no two of the new nodes are of the same state, as they are of the same level
  have hcard : (Finset.Ico m₀.graph.nodes.size m.graph.nodes.size).card ≤
      (table.states.map State.id).toFinset.card := by
    refine Finset.card_le_card_of_forall_subsingleton
      (fun n s => m.graph.entryAt? n = some ⟨s, m.generation.level⟩) ?_ ?_
    · intro n hn
      obtain ⟨hle, hlt⟩ := Finset.mem_Ico.mp hn
      obtain ⟨⟨s, position⟩, he⟩ := StackGraph.exists_entryAt? hlt
      obtain rfl : position = m.generation.level := hs.nodes n _ hle he
      exact ⟨s, List.mem_toFinset.mpr (h.roster.state_mem he), he⟩
    · rintro s - n ⟨-, hn⟩ n' ⟨-, hn'⟩
      have hl := h.roster.lookup_iff.mpr hn
      rw [h.roster.lookup_iff.mpr hn'] at hl
      exact (Option.some.inj hl).symm
  have hle := List.toFinset_card_le (table.states.map State.id)
  rw [List.length_map] at hle
  rw [Nat.card_Ico] at hcard
  omega

/-- There is at most one link from the active node of each state to each node. -/
theorem Roster.card_links_le {g : StackGraph} {level : ℕ} {active : List (StateId × NodeId)}
    (h : Roster table g level active) (ls : Finset LinkId)
    (hls : ∀ l ∈ ls, ∃ w v s, (l, v) ∈ g.linksFrom w ∧ g.entryAt? w = some ⟨s, level⟩) :
    ls.card ≤ table.states.length * g.nodes.size := by
  -- no two of the links join the same nodes
  have hcard : ls.card ≤
      ((table.states.map State.id).toFinset ×ˢ Finset.range g.nodes.size).card := by
    refine Finset.card_le_card_of_forall_subsingleton (fun l x => ∃ w,
      g.entryAt? w = some ⟨x.1, level⟩ ∧ (l, x.2) ∈ g.linksFrom w) ?_ ?_
    · intro l hl
      obtain ⟨w, v, s, hmem, he⟩ := hls l hl
      refine ⟨(s, v), ?_, w, he, hmem⟩
      rw [Finset.mem_product, List.mem_toFinset, Finset.mem_range]
      exact ⟨h.state_mem he, h.wf.target_lt hmem⟩
    · rintro ⟨s, v⟩ - l ⟨-, w, hw, hmem⟩ l' ⟨-, w', hw', hmem'⟩
      have hl := h.lookup_iff.mpr hw
      rw [h.lookup_iff.mpr hw'] at hl
      obtain rfl := Option.some.inj hl
      exact h.wf.link_unique hmem hmem'
  have hle := List.toFinset_card_le (table.states.map State.id)
  rw [List.length_map] at hle
  rw [Finset.card_product, Finset.card_range] at hcard
  exact Nat.le_trans hcard (Nat.mul_le_mul_right _ hle)

/-- At one point there is at most one new link from the node of each state to each node. -/
theorem Since.size_links_le (hs : Since m₀ m) (h : Working table points m) :
    m.graph.links.size ≤ m₀.graph.links.size +
      table.states.length * (m₀.graph.nodes.size + table.states.length) := by
  have hcard := h.roster.card_links_le (Finset.Ico m₀.graph.links.size m.graph.links.size) ?_
  · rw [Nat.card_Ico] at hcard
    have hmul := Nat.mul_le_mul_left table.states.length (hs.size_nodes_le h)
    omega
  · intro l hl
    obtain ⟨hle, hlt⟩ := Finset.mem_Ico.mp hl
    obtain ⟨w, v, hmem⟩ := h.roster.wf.exists_ends hlt
    obtain ⟨⟨s, position⟩, he⟩ := StackGraph.exists_entryAt? (StackGraph.lt_of_mem_linksFrom hmem)
    obtain rfl : position = m.generation.level := hs.links w l v _ hle hmem he
    exact ⟨w, v, s, hmem, he⟩

/-- A machine that cannot be drained in the room that it is given fails at some step. -/
theorem Working.drain_room_error (h : Working table points m) {failure : Failure}
    (hd : m.drain table config (m.room table) = .error failure) :
    ∃ m', Runs table config m m' ∧
      m'.work table config = .failed failure.error failure.machine := by
  obtain ⟨m', hr, hf | hle⟩ := h.drain_error hd
  · exact ⟨m', hr, hf⟩
  · have hle' := (Since.runs h hr).size_links_le (h.runs hr)
    rw [room] at hle
    omega

/-- All that can go wrong in a step is that a goto is missing. -/
theorem Working.work_failed (h : Working table points m) {e : ParseError} {f : Machine}
    (hw : m.work table config = .failed e f) : ∃ agenda n r rejecting p id,
      m.agenda = .apply n r rejecting p :: agenda ∧ m.graph.state? p.bottom = some id ∧
      table.gotoFrom? id r.label = none ∧ e = .missingGoto id r.label := by
  have hknown : ∀ n id, m.graph.state? n = some id → table.state? id ≠ none := by
    intro n id hn
    rw [StackGraph.state?_eq_entryAt?, Option.map_eq_some_iff] at hn
    obtain ⟨d, hd, rfl⟩ := hn
    obtain ⟨s, hs⟩ := h.roster.known hd
    simp [hs]
  have hworks := works_work table config m
  rw [hw] at hworks
  cases hworks with
  | @task t agenda _ ha hp =>
    obtain ⟨ht, -⟩ := h.tail ha
    cases hp with
    | unknownLabel n r through hl =>
      obtain ⟨-, d, -, hc⟩ := ht
      obtain ⟨l, hl'⟩ := Table.exists_label?_of_calls hc
      exact absurd hl (by simp [hl'])
    | unknownBottom n r rejecting p id hb hs => exact absurd hs (hknown _ _ hb)
    | gap n r rejecting p id hb hg => exact ⟨agenda, n, r, rejecting, p, id, ha, hb, hg, rfl⟩
    | unknownState n l id hn hs => exact absurd hs (hknown _ _ hn)
  | dispatch ha hq hp =>
    cases hp with
    | unknownState id hn hs => exact absurd hs (hknown _ _ hn)

/-! ### From point to point -/

theorem nexts_of_runs (h : Runs table config m m') :
    Relation.ReflTransGen (Next table config) ⟨.working, m⟩ ⟨.working, m'⟩ :=
  h.lift (Moment.mk .working) fun _ _ hm => .work hm

theorem level_of_runs (h : Runs table config m m') :
    m'.generation.level = m.generation.level := by
  induction h with
  | refl => rfl
  | tail _ hm ih => rw [hm.frame.1, ih]

theorem level_shift (m : Machine) : m.shift.generation.level = m.generation.level + 1 := by
  have hfold : ∀ (leaf : TreeId) (due : List Shift) (m : Machine),
      (due.foldl (shiftNode leaf) m).generation.level = m.generation.level := by
    intro leaf due
    induction due with
    | nil => exact fun _ => rfl
    | cons s due ih =>
      intro m
      rw [List.foldl_cons, ih, level_shiftNode]
  rw [shift]
  split
  · rfl
  · exact hfold _ _ _

theorem nexts_shifting (leaf : TreeId) (due : List Shift) (m : Machine) :
    Relation.ReflTransGen (Next table config) ⟨.shifting leaf due, m⟩
      ⟨.between, (due.foldl (shiftNode leaf) m).record
        (.shifted m.token (due.foldl (shiftNode leaf) m).generation.active.length)⟩ := by
  induction due generalizing m with
  | nil => exact .single .shifted
  | cons s due ih =>
    have h := ih (m.shiftNode leaf s)
    rw [token_shiftNode] at h
    exact h.head .shift

/-- An idle machine goes on to the next point, shift by shift. -/
theorem nexts_shift (hi : m.work table config = .idle m) :
    Relation.ReflTransGen (Next table config) ⟨.working, m⟩ ⟨.between, m.shift⟩ := by
  by_cases hs : m.generation.shifts = []
  · have hshift : m.shift = m.turn := by
      rw [shift, turn, hs]
      rfl
    rw [hshift]
    exact .single (.turn hi hs)
  · have hshift : m.shift = (m.generation.shifts.foldl (shiftNode m.forest.size)
        m.turnWithLeaf).record (.shifted m.token (m.generation.shifts.foldl
          (shiftNode m.forest.size) m.turnWithLeaf).generation.active.length) := by
      rw [shift, if_neg (by simpa using hs)]
      rfl
    rw [hshift]
    exact (nexts_shifting m.forest.size m.generation.shifts m.turnWithLeaf).head (.leaf hi hs)

/-- The machines that have gone through the points: behind the last of them, or with no node left
to go on from. -/
def Ended (table : Table) (config : Config) (points : Array UInt32) (m : Machine) : Prop :=
  Reached table config points ⟨.stranded, m⟩ ∨
    Reached table config points ⟨.between, m⟩ ∧ points.size ≤ m.generation.level

/-- Scanning the points goes from moment to moment, until the machine has ended or fails. -/
theorem scan_cases {count : ℕ} (h : Reached table config points ⟨.between, m⟩)
    (ha : m.generation.active ≠ []) (hc : points.size ≤ m.generation.level + count) :
    (∃ m', m.scan table config count = .ok m' ∧ Ended table config points m') ∨
    (∃ m' failure, m.scan table config count = .error failure ∧
      Reached table config points ⟨.working, m'⟩ ∧
      m'.work table config = .failed failure.error failure.machine) := by
  -- by induction on the points that may still come
  induction count generalizing m with
  | zero => exact .inl ⟨m, rfl, .inr ⟨h, hc⟩⟩
  | succ count ih =>
    rw [scan]
    cases hr : m.cursor.read? with
    | none =>
      rw [Cursor.read?_eq_none_iff, h.between.cursor] at hr
      exact .inl ⟨m, rfl, .inr ⟨h, hr⟩⟩
    | some pc =>
      obtain ⟨token, cursor⟩ := pc
      have hread := h.next (.read ha hr)
      simp only
      cases hd : (m.read token cursor).drain table config (m.room table) with
      | error failure =>
        obtain ⟨m', hruns, hf⟩ := hread.working.drain_room_error hd
        exact .inr ⟨m', failure, rfl, hread.trans (nexts_of_runs hruns), hf⟩
      | ok m₁ =>
        obtain ⟨hruns, hi⟩ := drain_ok hd
        have h₁ := hread.trans (nexts_of_runs hruns)
        have hshift : Reached table config points ⟨.between, m₁.shift⟩ :=
          h₁.trans (nexts_shift hi)
        simp only
        by_cases he : m₁.shift.generation.active = []
        · rw [if_pos (by simpa using he)]
          exact .inl ⟨_, rfl, .inl (hshift.next (.strand he))⟩
        · rw [if_neg (by simpa using he)]
          refine ih hshift he ?_
          rw [level_shift, level_of_runs hruns, show (m.read token cursor).generation.level =
            m.generation.level from rfl]
          omega

/-- A parse ends at a moment of it: it fails there, for want of a goto, or is concluded. -/
theorem parsePoints_cases (table : Table) (config : Config) (points : Array UInt32) :
    (∃ m, Ended table config points m ∧ parsePoints table config points = m.conclude) ∨
    (∃ m id label f, Reached table config points ⟨.working, m⟩ ∧
      m.work table config = .failed (.missingGoto id label) f ∧
      parsePoints table config points = ⟨f.events.reverse, .error (.missingGoto id label)⟩) := by
  have hstart : Reached table config points ⟨.between, initial table config points⟩ := .refl
  have hsize : points.size ≤ (initial table config points).generation.level + points.size :=
    Nat.le_add_left ..
  rw [parsePoints]
  rcases scan_cases hstart (by simp [initial, Generation.activate]) hsize with
    ⟨m, hs, he⟩ | ⟨m, failure, hs, hr, hf⟩
  · rw [hs]
    exact .inl ⟨m, he, rfl⟩
  · rw [hs]
    obtain ⟨-, -, r, -, -, id, -, -, -, he⟩ := hr.working.work_failed hf
    rw [he] at hf
    refine .inr ⟨m, id, r.label, failure.machine, hr, hf, ?_⟩
    simp only [he]

/-! ### Parses of texts -/

/-- A text without the end-of-input marker is parsed point by point. -/
theorem parse_eq (table : Table) {input : String}
    (h : ∀ c ∈ input.toList, c.val ≠ config.endOfInput) :
    parse table input config = parsePoints table config (inputPoints config input.toList) := by
  have hnone : input.toList.findIdx? (·.val = config.endOfInput) = none := by
    rw [List.findIdx?_eq_none_iff]
    intro c hc
    exact decide_eq_false (h c hc)
  rw [parse, hnone]

/-- A text with the end-of-input marker has no parse. -/
theorem free_of_parse_ok {input : String} {p : Parse}
    (h : (parse table input config).result = .ok p) :
    ∀ c ∈ input.toList, c.val ≠ config.endOfInput := by
  intro c hc he
  cases hf : input.toList.findIdx? (·.val = config.endOfInput) with
  | none =>
    rw [List.findIdx?_eq_none_iff] at hf
    exact absurd he (of_decide_eq_false (hf c hc))
  | some position =>
    rw [parse, hf] at h
    exact absurd h (by simp)

theorem conclude_ok {p : Parse} (h : m.conclude.result = .ok p) :
    ∃ n, m.accepting = some n ∧ m.graph.livePath? n rootNode = some p.path ∧
      p.graph = m.graph ∧ p.forest = m.forest := by
  rw [conclude] at h
  cases ha : m.accepting with
  | none => simp [ha] at h
  | some n =>
    cases hl : m.graph.livePath? n rootNode with
    | none => simp [ha, hl] at h
    | some path =>
      simp only [ha, hl, Except.ok.injEq] at h
      subst h
      exact ⟨n, rfl, hl, rfl, rfl⟩

/-- A parse that succeeds has ended at an accepting node, and its path leads from there to the
root over links that are not rejected. -/
theorem parse_ok {input : String} {p : Parse} (h : (parse table input config).result = .ok p) :
    ∃ m n, Ended table config (inputPoints config input.toList) m ∧
      parse table input config = m.conclude ∧ m.accepting = some n ∧
      m.graph.livePath? n rootNode = some p.path ∧ p.graph = m.graph ∧ p.forest = m.forest := by
  have heq := parse_eq table (free_of_parse_ok h)
  rw [heq] at h ⊢
  rcases parsePoints_cases table config (inputPoints config input.toList) with
    ⟨m, he, hp⟩ | ⟨m, id, label, f, -, -, hp⟩
  · rw [hp] at h
    obtain ⟨n, hn⟩ := conclude_ok h
    exact ⟨m, n, he, hp, hn⟩
  · rw [hp] at h
    exact absurd h (by simp)

/-- A result can be read off its value, as far as that is computed. -/
theorem exists_ok_of_toOption_map {ε α β : Type} {r : Except ε α} {f : α → β} {b : β}
    (h : r.toOption.map f = some b) : ∃ a, r = .ok a ∧ f a = b := by
  cases r with
  | error e => exact absurd h (by simp [Except.toOption])
  | ok a => exact ⟨a, rfl, Option.some.inj h⟩

/-- So can a number of steps, if there are so many. -/
theorem exists_runs_of_iterate_map {α : Type} {f : Machine → α} {a : α} (k : ℕ)
    (h : ((Option.bind · fun m => (m.work table config).next?)^[k] (some m)).map f = some a) :
    ∃ m', Runs table config m m' ∧ f m' = a := by
  induction k generalizing m with
  | zero => exact ⟨m, .refl, Option.some.inj h⟩
  | succ k ih =>
    rw [Function.iterate_succ_apply] at h
    cases hm : (m.work table config).next? with
    | none =>
      -- a machine that makes no step does not come to make one
      rw [Option.bind_some, hm, Function.iterate_fixed rfl] at h
      exact absurd h (by simp)
    | some m₁ =>
      rw [Option.bind_some, hm] at h
      obtain ⟨m', hr, ha⟩ := ih h
      exact ⟨m', hr.head hm, ha⟩

/-- Machines that have gone through the points are in order. -/
theorem Ended.between (h : Ended table config points m) : Between table points m := by
  rcases h with h | ⟨h, -⟩
  · exact h.ordered
  · exact h.between

end ScannerlessLR
