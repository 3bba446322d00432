/-
What is checked of a table is what a parse relies on.

The records of a table make a table exactly if no id is given twice and every id that is
referred to is given.  A parse then never meets an id that the table does not know: the
start state is known, a shift or a goto leads from a known state to a known one, and the
reductions that a known state calls for have known labels.

* `Coherent` — ids are unique, and the start state, the targets of gotos and shifts and the
  labels of reductions are among them;
* `exists_build_iff` — the records of which a table can be built;
* `not_unknown_of_build` — both together: the records that can be built are the coherent ones,
  and no parse with the table fails for want of a state or a label.
-/
import ScannerlessLR.Proofs.Parser.Run

namespace ScannerlessLR

/-- The ids are unique, and whatever is referred to is there. -/
structure Coherent (start : StateId) (states : List State) (labels : List Label) : Prop where
  states_nodup : (states.map State.id).Nodup
  labels_nodup : (labels.map Label.id).Nodup
  start_mem : start ∈ states.map State.id
  goto_mem : ∀ s ∈ states, ∀ g ∈ s.gotos, g.target ∈ states.map State.id
  shift_mem : ∀ s ∈ states, ∀ a ∈ s.actions, ∀ target, .shift target ∈ a.items →
    target ∈ states.map State.id
  reduce_mem : ∀ s ∈ states, ∀ a ∈ s.actions, ∀ r, .reduce r ∈ a.items →
    r.label ∈ labels.map Label.id
  reduceUnless_mem : ∀ s ∈ states, ∀ a ∈ s.actions, ∀ r forbidden,
    .reduceUnless r forbidden ∈ a.items → r.label ∈ labels.map Label.id

variable {start : StateId} {states : List State} {labels : List Label}

theorem Reference.resolves_state_iff {id : StateId} :
    (state id).Resolves states labels ↔ id ∈ states.map State.id := by
  rw [List.mem_map]
  rfl

theorem Reference.resolves_label_iff {id : LabelId} :
    (label id).Resolves states labels ↔ id ∈ labels.map Label.id := by
  rw [List.mem_map]
  rfl

/-- The references of a table are its start state and those of its states. -/
theorem mem_references_iff {r : Reference} : r ∈ references start states ↔
    r = .state start ∨
      (∃ s ∈ states, ∃ g ∈ s.gotos, r = .state g.target) ∨
      ∃ s ∈ states, ∃ a ∈ s.actions, ∃ item ∈ a.items, item.reference? = some r := by
  simp only [references, State.references, List.mem_cons, List.mem_flatMap, List.mem_append,
    List.mem_map, List.mem_filterMap]
  constructor
  · rintro (h | ⟨s, hs, ⟨g, hg, rfl⟩ | ⟨a, ha, item, hitem, h⟩⟩)
    · exact .inl h
    · exact .inr (.inl ⟨s, hs, g, hg, rfl⟩)
    · exact .inr (.inr ⟨s, hs, a, ha, item, hitem, h⟩)
  · rintro (h | ⟨s, hs, g, hg, rfl⟩ | ⟨s, hs, a, ha, item, hitem, h⟩)
    · exact .inl h
    · exact .inr ⟨s, hs, .inl ⟨g, hg, rfl⟩⟩
    · exact .inr ⟨s, hs, .inr ⟨a, ha, item, hitem, h⟩⟩

theorem coherent_iff : Coherent start states labels ↔
    (states.map State.id).Nodup ∧ (labels.map Label.id).Nodup ∧
      ∀ r ∈ references start states, r.Resolves states labels := by
  constructor
  · intro h
    refine ⟨h.states_nodup, h.labels_nodup, fun r hr => ?_⟩
    rcases mem_references_iff.mp hr with
      rfl | ⟨s, hs, g, hg, rfl⟩ | ⟨s, hs, a, ha, item, hitem, href⟩
    · exact Reference.resolves_state_iff.mpr h.start_mem
    · exact Reference.resolves_state_iff.mpr (h.goto_mem s hs g hg)
    -- accepting is the one item that refers to nothing
    · cases item with
      | shift target =>
        obtain rfl := Option.some.inj href
        exact Reference.resolves_state_iff.mpr (h.shift_mem s hs a ha target hitem)
      | reduce r' =>
        obtain rfl := Option.some.inj href
        exact Reference.resolves_label_iff.mpr (h.reduce_mem s hs a ha r' hitem)
      | reduceUnless r' forbidden =>
        obtain rfl := Option.some.inj href
        exact Reference.resolves_label_iff.mpr (h.reduceUnless_mem s hs a ha r' forbidden hitem)
      | accept => exact absurd href (by simp [ActionItem.reference?])
  · rintro ⟨hstates, hlabels, hall⟩
    -- what items refer to is shared by the three kinds of them
    have hitem : ∀ s ∈ states, ∀ a ∈ s.actions, ∀ item ∈ a.items, ∀ r,
        item.reference? = some r → r.Resolves states labels :=
      fun s hs a ha item hitem r href =>
        hall r (mem_references_iff.mpr (.inr (.inr ⟨s, hs, a, ha, item, hitem, href⟩)))
    exact {
      states_nodup := hstates
      labels_nodup := hlabels
      start_mem := Reference.resolves_state_iff.mp (hall _ (mem_references_iff.mpr (.inl rfl)))
      goto_mem := fun s hs g hg => Reference.resolves_state_iff.mp
        (hall _ (mem_references_iff.mpr (.inr (.inl ⟨s, hs, g, hg, rfl⟩))))
      shift_mem := fun s hs a ha target h =>
        Reference.resolves_state_iff.mp (hitem s hs a ha _ h _ rfl)
      reduce_mem := fun s hs a ha r h =>
        Reference.resolves_label_iff.mp (hitem s hs a ha _ h _ rfl)
      reduceUnless_mem := fun s hs a ha r forbidden h =>
        Reference.resolves_label_iff.mp (hitem s hs a ha _ h _ rfl) }

instance : Decidable (Coherent start states labels) :=
  decidable_of_iff _ coherent_iff.symm

/-- A table is built of the records that are given. -/
theorem Table.eq_of_build {t : Table} (h : build start states labels = .ok t) :
    t.start = start ∧ t.states = states ∧ t.labels = labels := by
  unfold build at h
  split at h
  · exact absurd h (by simp)
  split at h
  · exact absurd h (by simp)
  split at h
  · exact absurd h (by simp)
  · obtain rfl := Except.ok.inj h
    exact ⟨rfl, rfl, rfl⟩

/-- A table can be built of coherent records, and of no others. -/
theorem Table.exists_build_iff :
    (∃ t, build start states labels = .ok t) ↔ Coherent start states labels := by
  rw [coherent_iff]
  constructor
  · rintro ⟨t, h⟩
    obtain ⟨rfl, rfl, rfl⟩ := eq_of_build h
    exact ⟨t.states_nodup, t.labels_nodup, t.resolves⟩
  · rintro ⟨hstates, hlabels, hall⟩
    have hs : firstRepeat? [] (states.map State.id) = none :=
      firstRepeat?_eq_none_iff.mpr ⟨hstates, by simp⟩
    have hl : firstRepeat? [] (labels.map Label.id) = none :=
      firstRepeat?_eq_none_iff.mpr ⟨hlabels, by simp⟩
    have hr : (references start states).find? (¬ ·.Resolves states labels) = none :=
      List.find?_eq_none.mpr fun r hr => by simpa using hall r hr
    unfold build
    split
    · exact absurd (hs.symm.trans ‹_›) (by simp)
    split
    · exact absurd (hl.symm.trans ‹_›) (by simp)
    split
    · exact absurd (hr.symm.trans ‹_›) (by simp)
    · exact ⟨_, rfl⟩

/-- No parse meets a state or a label that its table does not know. -/
theorem parse_ne_unknown (table : Table) (input : String) (config : Config) :
    (∀ id, (parse table input config).result ≠ .error (.unknownState id)) ∧
      ∀ id, (parse table input config).result ≠ .error (.unknownLabel id) := by
  by_cases hinput : ∀ c ∈ input.toList, c.val ≠ config.endOfInput
  · rw [parse_eq table hinput]
    rcases parsePoints_cases table config (inputPoints config input.toList) with
      ⟨m, -, heq⟩ | ⟨m, id, label, f, -, -, heq⟩
    · rw [heq, Machine.conclude]
      split
      · simp
      · split <;> simp
    · simp [heq]
  · -- the end-of-input marker is found before anything is parsed
    rw [parse]
    split
    · simp
    · rename_i hnone
      refine absurd (fun c hc => ?_) hinput
      simpa using List.findIdx?_eq_none_iff.mp hnone c hc

/-- The records of which a table can be built are the coherent ones.  The table then holds these
records, and no parse with it fails for want of a state or a label. -/
theorem not_unknown_of_build (start : StateId) (states : List State) (labels : List Label) :
    ((∃ t, Table.build start states labels = .ok t) ↔ Coherent start states labels) ∧
      ∀ t, Table.build start states labels = .ok t →
        (t.start = start ∧ t.states = states ∧ t.labels = labels) ∧
        ∀ (input : String) (config : Config),
          (∀ id, (parse t input config).result ≠ .error (.unknownState id)) ∧
          ∀ id, (parse t input config).result ≠ .error (.unknownLabel id) :=
  ⟨Table.exists_build_iff, fun t h =>
    ⟨Table.eq_of_build h, fun input config => parse_ne_unknown t input config⟩⟩

/-- Records with references of every kind. -/
theorem not_unknown_of_build_letters :
    let states : List State := [
      { id := 0, gotos := [⟨.span 257 258, 1⟩],
        actions := [⟨.single 97, [.shift 2]⟩,
          ⟨.single 256, [.reduceUnless ⟨0, 257, .normal⟩ [.single 98]]⟩] },
      { id := 1, actions := [⟨.single 256, [.accept]⟩] },
      { id := 2, actions := [⟨.single 256, [.reduce ⟨1, 258, .normal⟩]⟩] }]
    let labels : List Label := [⟨257, .constant "none", []⟩, ⟨258, .constant "letter", []⟩]
    Coherent 0 states labels ∧ ∃ t, Table.build 0 states labels = .ok t ∧
      ∀ (input : String) (config : Config),
        (∀ id, (parse t input config).result ≠ .error (.unknownState id)) ∧
        ∀ id, (parse t input config).result ≠ .error (.unknownLabel id) := by
  intro states labels
  obtain ⟨hbuild, hparse⟩ := not_unknown_of_build 0 states labels
  have hcoherent : Coherent 0 states labels := by decide
  obtain ⟨t, ht⟩ := hbuild.mpr hcoherent
  exact ⟨hcoherent, t, ht, (hparse t ht).2⟩

end ScannerlessLR
