/-
A parser recognizes what the automaton of its table recognizes.

For a table that rejects no reductions, a parse stops at a missing goto if the
automaton can run into one, succeeds if the automaton cannot, but can accept, and
otherwise ends without an accepting derivation.  If it succeeds, the stacks that the
graph spells are the stacks that the automaton can reach.

* `Reached.gap` — a goto that a parse misses is missed by the automaton;
* `Ended.not_gap`, `Ended.accepting_iff` — what the end of a parse tells;
* `parse_recognizes` — the outcomes of a parse.
-/
import ScannerlessLR.Proofs.Parser.Completeness
import ScannerlessLR.Proofs.Parser.Soundness

namespace ScannerlessLR

open Machine

variable {table : Table} {points : Array UInt32} {config : Config} {m m' : Machine}

/-- A goto that a machine misses is missed by the automaton, on a stack that the graph spells. -/
theorem Reached.gap (h : Reached table config points ⟨.working, m⟩) {id : StateId} {label : LabelId}
    {f : Machine} (hf : m.work table config = .failed (.missingGoto id label) f) :
    Automaton.Gap table points id label := by
  have hm := h.working
  obtain ⟨agenda, n, r, rejecting, p, id', ha, hb, hgoto, he⟩ := hm.work_failed hf
  obtain ⟨rfl, rfl⟩ := ParseError.missingGoto.inj he
  obtain ⟨hn, ⟨e, hentry, hc⟩, hparses, -, hw, hlen⟩ := (hm.tail ha).1
  have hlt := StackGraph.lt_of_entryAt? hentry
  -- the walk of the reduction is taken down to the root, to spell a whole stack
  obtain ⟨ls, hroot⟩ := hm.roster.rooted (hw.lt_size hm.roster.wf hlt)
  obtain ⟨σ, hσ⟩ := hroot.exists_spells (StackGraph.lt_of_entryAt? hm.roster.root)
  obtain ⟨τ, hτ, hτlen⟩ := hw.spells_append hm.roster.wf hσ hlt
  rw [StackGraph.state?_eq_entryAt?, Option.map_eq_some_iff] at hb
  obtain ⟨d, hd, rfl⟩ := hb
  obtain ⟨rest, rfl⟩ := List.head?_eq_some_iff.mp (hσ.head?.trans hd)
  rw [hlen] at hτlen
  refine ⟨⟨τ ++ d :: rest, e.position⟩, r, d, h.spells_reachable hτ hentry,
    ⟨⟨e, hτ.head?.trans hentry, hparses, hc⟩, ?_⟩, ?_, rfl, rfl, hgoto⟩
  · show r.arity < (τ ++ d :: rest).length
    rw [List.length_append, List.length_cons, hτlen]
    omega
  · show (τ ++ d :: rest)[r.arity]? = some d
    rw [← hτlen, List.getElem?_append_right (Nat.le_refl _), Nat.sub_self]
    rfl

/-! ### The end of a parse -/

theorem Reached.active_of_stranded (h : Reached table config points ⟨.stranded, m⟩) :
    m.generation.active = [] := by
  rcases Relation.ReflTransGen.cases_tail h with heq | ⟨y, -, hn⟩
  · exact absurd heq (by simp)
  · cases hn with
    | strand ha => exact ha

/-- Behind the end of a parse there are no points, or no nodes. -/
theorem Ended.exhausted (h : Ended table config points m) :
    points.size ≤ m.generation.level ∨ m.generation.active = [] := by
  rcases h with h | ⟨-, h⟩
  · exact .inr h.active_of_stranded
  · exact .inl h

theorem Ended.settled (hfree : table.RejectFree) (h : Ended table config points m) :
    ∀ k < m.generation.level, Settled table points [] m k := by
  rcases h with h | ⟨h, -⟩ <;> exact h.settled hfree

theorem Ended.noneRejected (hfree : table.RejectFree) (h : Ended table config points m) :
    m.graph.NoneRejected := by
  rcases h with h | ⟨h, -⟩ <;> exact h.noneRejected hfree

theorem Ended.spells_reachable (h : Ended table config points m) {n : NodeId} {e : Entry}
    {ls : List LinkId} {σ : List Entry} (hσ : m.graph.Spells rootNode n ls σ)
    (he : m.graph.entryAt? n = some e) : Automaton.Reachable table points ⟨σ, e.position⟩ := by
  rcases h with h | ⟨h, -⟩ <;> exact h.spells_reachable hσ he

/-- At the end of a parse the graph spells the stacks that the automaton can reach. -/
theorem Ended.reachable_iff (hfree : table.RejectFree) (h : Ended table config points m)
    {c : Configuration} : Automaton.Reachable table points c ↔
      ∃ n e ls, m.graph.entryAt? n = some e ∧ e.position = c.position ∧
        m.graph.Spells rootNode n ls c.stack := by
  constructor
  · exact spelled_of_reachable h.between.roster (h.settled hfree) h.exhausted
  · rintro ⟨n, e, ls, he, hpos, hσ⟩
    have hr := h.spells_reachable hσ he
    rw [hpos] at hr
    exact hr

/-- A parse that comes to its end misses no goto. -/
theorem Ended.not_gap (hfree : table.RejectFree) (h : Ended table config points m) {id : StateId}
    {label : LabelId} : ¬ Automaton.Gap table points id label := by
  rintro ⟨c, r, bottom, hc, henables, hb, rfl, rfl, hgoto⟩
  obtain ⟨n, e, ls, he, hpos, hσ⟩ := (h.reachable_iff hfree).mp hc
  obtain ⟨⟨top, htop, -, item, ho, -⟩, -⟩ := id henables
  obtain rfl : e = top := Option.some.inj ((hσ.head?.trans he).symm.trans htop)
  have hlt := h.between.roster.lt_of_offers h.exhausted he (hpos ▸ ho)
  rw [hpos] at hlt
  -- the level of the stack is settled, so the goto is there
  obtain ⟨v, target, w, l, -, hgoto', -, -⟩ :=
    (h.settled hfree _ hlt).joined he hpos hσ henables hb
  rw [hgoto] at hgoto'
  exact absurd hgoto' (by simp)

/-- A node has accepted by the end of a parse if the automaton can accept. -/
theorem Ended.accepting_iff (hfree : table.RejectFree) (h : Ended table config points m) :
    m.accepting ≠ none ↔ Automaton.Recognizes table points := by
  constructor
  · intro ha
    obtain ⟨n, hn⟩ := Option.ne_none_iff_exists'.mp ha
    obtain ⟨e, he, ho⟩ := h.between.accepting n hn
    obtain ⟨ls, hw⟩ := h.between.roster.rooted (StackGraph.lt_of_entryAt? he)
    obtain ⟨σ, hσ⟩ := hw.exists_spells (StackGraph.lt_of_entryAt? h.between.roster.root)
    exact ⟨_, h.spells_reachable hσ he, e, hσ.head?.trans he, ho⟩
  · rintro ⟨c, hc, top, htop, ho⟩
    obtain ⟨n, e, ls, he, hpos, hσ⟩ := (h.reachable_iff hfree).mp hc
    obtain rfl : e = top := Option.some.inj ((hσ.head?.trans he).symm.trans htop)
    rw [← hpos] at ho
    have hlt := h.between.roster.lt_of_offers h.exhausted he ho
    exact (h.settled hfree _ hlt).accepted n e he rfl ho

/-- Without rejections, a parse that has come to its end succeeds if a node has accepted. -/
theorem Ended.conclude_result (hfree : table.RejectFree) (h : Ended table config points m) :
    m.accepting = none ∧ m.conclude.result = .error .noAcceptingDerivation ∨
      m.accepting ≠ none ∧ ∃ p, m.conclude.result = .ok p ∧ p.graph = m.graph := by
  rw [conclude]
  cases ha : m.accepting with
  | none => exact .inl ⟨rfl, rfl⟩
  | some n =>
    obtain ⟨e, he, -⟩ := h.between.accepting n ha
    have hlt := StackGraph.lt_of_entryAt? he
    obtain ⟨ls, hw⟩ := h.between.roster.rooted hlt
    -- nothing is rejected, so every way to the root is live
    have hlive : m.graph.LiveWalk n ls rootNode := ⟨hw, fun l _ => h.noneRejected hfree l⟩
    refine .inr ⟨by simp, ?_⟩
    cases hl : m.graph.livePath? n rootNode with
    | none => exact absurd hlive (StackGraph.not_liveWalk_of_livePath? hl)
    | some path =>
      refine ⟨⟨m.graph, m.forest, path⟩, ?_, rfl⟩
      simp only [hl]
      rfl

/-! ### The outcomes of a parse -/

/-- What a parse comes to, by what the automaton can come to. -/
theorem parsePoints_outcome (hfree : table.RejectFree) (config : Config) (points : Array UInt32) :
    (∃ id label, (parsePoints table config points).result = .error (.missingGoto id label) ∧
      Automaton.Gap table points id label) ∨
    (∀ id label, ¬ Automaton.Gap table points id label) ∧
      (¬ Automaton.Recognizes table points ∧
        (parsePoints table config points).result = .error .noAcceptingDerivation ∨
      Automaton.Recognizes table points ∧
        ∃ p, (parsePoints table config points).result = .ok p ∧ ∀ c,
          Automaton.Reachable table points c ↔ ∃ n e ls, p.graph.entryAt? n = some e ∧
            e.position = c.position ∧ p.graph.Spells rootNode n ls c.stack) := by
  rcases parsePoints_cases table config points with ⟨m, h, heq⟩ | ⟨m, id, label, f, h, hf, heq⟩
  · rw [heq]
    refine .inr ⟨fun id label => h.not_gap hfree, ?_⟩
    rw [← h.accepting_iff hfree]
    rcases h.conclude_result hfree with ⟨ha, hr⟩ | ⟨ha, p, hr, hg⟩
    · exact .inl ⟨fun hne => hne ha, hr⟩
    · refine .inr ⟨ha, p, hr, ?_⟩
      rw [hg]
      exact fun c => h.reachable_iff hfree
  · rw [heq]
    exact .inl ⟨id, label, rfl, h.gap hf⟩

/-- A parse recognizes what the automaton recognizes: it stops at a missing goto exactly if the
automaton can run into one, and otherwise succeeds exactly if the automaton can accept, with a graph
that spells the stacks of the automaton. -/
theorem parse_recognizes (hfree : table.RejectFree) (config : Config) {input : String}
    (hinput : ∀ c ∈ input.toList, c.val ≠ config.endOfInput) :
    let points := inputPoints config input.toList
    let result := (parse table input config).result
    ((∃ id label, result = .error (.missingGoto id label)) ↔
      ∃ id label, Automaton.Gap table points id label) ∧
    (∀ id label, result = .error (.missingGoto id label) →
      Automaton.Gap table points id label) ∧
    ((∃ p, result = .ok p) ↔
      (∀ id label, ¬ Automaton.Gap table points id label) ∧ Automaton.Recognizes table points) ∧
    (result = .error .noAcceptingDerivation ↔
      (∀ id label, ¬ Automaton.Gap table points id label) ∧ ¬ Automaton.Recognizes table points) ∧
    ∀ p, result = .ok p → ∀ c, Automaton.Reachable table points c ↔
      ∃ n e ls, p.graph.entryAt? n = some e ∧ e.position = c.position ∧
        p.graph.Spells rootNode n ls c.stack := by
  intro points result
  have hresult : result = (parsePoints table config points).result := by
    rw [← parse_eq table hinput]
  rw [hresult]
  clear_value points
  rcases parsePoints_outcome hfree config points with
    ⟨id, label, hr, hgap⟩ | ⟨hgap, ⟨hrec, hr⟩ | ⟨hrec, p, hr, hspells⟩⟩
  -- the automaton can run into a missing goto
  · rw [hr]
    refine ⟨⟨fun _ => ⟨id, label, hgap⟩, fun _ => ⟨id, label, rfl⟩⟩, ?_, ?_, ?_, by simp⟩
    · intro id' label' heq
      obtain ⟨rfl, rfl⟩ : id = id' ∧ label = label' := by simpa using heq
      exact hgap
    · exact ⟨by simp, fun h => absurd hgap (h.1 id label)⟩
    · exact ⟨by simp, fun h => absurd hgap (h.1 id label)⟩
  -- it cannot, and it cannot accept either
  · rw [hr]
    refine ⟨⟨by simp, fun ⟨id, label, h⟩ => absurd h (hgap id label)⟩, by simp, ?_, ?_, by simp⟩
    · exact ⟨by simp, fun h => absurd h.2 hrec⟩
    · exact ⟨fun _ => ⟨hgap, hrec⟩, fun _ => rfl⟩
  -- it cannot, but it can accept
  · rw [hr]
    refine ⟨⟨by simp, fun ⟨id, label, h⟩ => absurd h (hgap id label)⟩, by simp, ?_, ?_, ?_⟩
    · exact ⟨fun _ => ⟨hgap, hrec⟩, fun _ => ⟨p, rfl⟩⟩
    · exact ⟨by simp, fun h => absurd hrec h.2⟩
    · intro p' hp'
      obtain rfl : p = p' := by simpa using hp'
      exact hspells

/-- Two letters are recognized as a pair. -/
theorem parse_recognizes_pairs : Table.pairs.RejectFree ∧
    (∀ c ∈ "aa".toList, c.val ≠ (256 : UInt32)) ∧
    (∃ p, (parse Table.pairs "aa").result = .ok p) ∧
    Automaton.Recognizes Table.pairs (inputPoints {} "aa".toList) := by
  have hinput : ∀ c ∈ "aa".toList, c.val ≠ ({} : Config).endOfInput := by simp
  obtain ⟨p, hp, -⟩ := exists_ok_of_toOption_map (r := (parse Table.pairs "aa").result)
    (f := fun p => p.path.length) (b := 1) (by decide +kernel)
  obtain ⟨-, -, hok, -, -⟩ := parse_recognizes Table.rejectFree_pairs {} hinput
  exact ⟨Table.rejectFree_pairs, hinput, ⟨p, hp⟩, (hok.mp ⟨p, hp⟩).2⟩

end ScannerlessLR
