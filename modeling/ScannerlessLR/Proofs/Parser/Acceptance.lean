/-
Where a parse accepts, as its events tell.

* `acceptedAt` — the position at which the last acceptance happened;
* `Ended.acceptedAt_events` — it is the level of the accepting node.
-/
import ScannerlessLR.Proofs.Parser.Run

namespace ScannerlessLR

/-- The position that is being read, of events in reverse: the newest first. -/
def readingAt : List Event → Option ℕ
  | [] => none
  | .reading _ position :: _ => some position
  | _ :: events => readingAt events

/-- The position at which the last acceptance happened, of events in reverse. -/
def acceptedAt : List Event → Option ℕ
  | [] => none
  | .accepted _ :: events => readingAt events
  | _ :: events => acceptedAt events

open Machine

variable {table : Table} {config : Config} {points : Array UInt32} {m m' : Machine}

/-- A step reads nothing.  It tells of an acceptance exactly if it makes a node the accepting
one. -/
theorem Machine.performs_accepts {t : Task} {p : Progress} (hp : Performs table config m t p)
    (hm : p.next? = some m') : readingAt m'.events = readingAt m.events ∧
      (m'.accepting = m.accepting ∧ acceptedAt m'.events = acceptedAt m.events ∨
        ∃ n id, t = .accept n id ∧ m'.accepting = some n ∧
          acceptedAt m'.events = readingAt m.events) := by
  cases hp with
  | accept n id =>
    obtain rfl := Option.some.inj hm
    exact ⟨rfl, .inr ⟨n, id, rfl, rfl, rfl⟩⟩
  | link n r rejecting p id target hd hb hg hf =>
    obtain rfl := Option.some.inj hm
    have hevents := events_attach (m.reducing n r p id target) target p.bottom m.forest.size
    have hacc := accepting_attach (m.reducing n r p id target) target p.bottom m.forest.size
    simp only [Machine.push, hevents, hacc]
    exact ⟨rfl, .inl ⟨rfl, rfl⟩⟩
  | unknownLabel | unknownBottom | gap | unknownState => exact absurd hm (by simp [Progress.next?])
  | _ =>
    obtain rfl := Option.some.inj hm
    exact ⟨rfl, .inl ⟨rfl, rfl⟩⟩

/-- The events tell which point is being read, and where the accepting node has accepted. -/
structure Telling (x : Moment) : Prop where
  reading : x.phase = .working → readingAt x.machine.events = some x.machine.generation.level
  accepted : ∀ n, x.machine.accepting = some n → ∃ e, x.machine.graph.entryAt? n = some e ∧
    acceptedAt x.machine.events = some e.position

theorem Working.telling_moves (h : Working table points m) (hm : Moves table config m m')
    (hx : Telling ⟨.working, m⟩) : Telling ⟨.working, m'⟩ := by
  have hext := h.extends_of_moves hm
  have hlevel := hm.frame.1
  have hreading : readingAt m.events = some m.generation.level := hx.reading rfl
  have hkeep : ∀ n, m.accepting = some n → ∃ e, m'.graph.entryAt? n = some e ∧
      acceptedAt m.events = some e.position := by
    intro n hn
    obtain ⟨e, he, hacc⟩ := hx.accepted n hn
    exact ⟨e, hext.entry he, hacc⟩
  obtain ⟨p, hp, hnext⟩ := hm.works
  cases hp with
  | task ha hp =>
    obtain ⟨ht, -⟩ := h.tail ha
    obtain ⟨hr, ⟨hacc, hevents⟩ | ⟨n, id, rfl, hacc, hevents⟩⟩ := performs_accepts hp hnext
    · refine ⟨fun _ => hr.trans (hlevel ▸ hreading), ?_⟩
      intro x hx
      obtain ⟨e, he, hpos⟩ := hkeep x (hacc ▸ hx)
      exact ⟨e, he, hevents.trans hpos⟩
    -- the node that accepts is of the current level
    · refine ⟨fun _ => hr.trans (hlevel ▸ hreading), ?_⟩
      intro x hx
      obtain rfl := Option.some.inj (hacc.symm.trans hx)
      obtain ⟨s, hs⟩ := h.entry_of_processed ht.1
      exact ⟨_, hext.entry hs, hevents.trans hreading⟩
  | dispatch ha hq hp =>
    cases hp with
    | unknownState => exact absurd hnext (by simp [Progress.next?])
    | nothing | items =>
      obtain rfl := Option.some.inj hnext
      exact ⟨fun _ => hreading, hkeep⟩
  | idle => exact absurd hnext (by simp [Progress.next?])

theorem Telling.next {x y : Moment} (hx : Telling x) (hord : x.Ordered table points)
    (hn : Next table config x y) : Telling y := by
  cases hn with
  | @read m token cursor ha hr =>
    have h : Between table points m := hord
    refine ⟨fun _ => ?_, hx.accepted⟩
    show some m.cursor.position = some m.generation.level
    rw [h.cursor]
  | work hm => exact Working.telling_moves hord hm hx
  | turn | leaf | shifted | strand => exact ⟨by simp, hx.accepted⟩
  | @shift leaf s due m =>
    refine ⟨by simp, fun n hn => ?_⟩
    obtain ⟨e, he, hacc⟩ := hx.accepted n ((accepting_shiftNode leaf m s).symm.trans hn)
    refine ⟨e, (Between.extends_shiftNode hord.1 leaf s).entry he, ?_⟩
    show acceptedAt (m.shiftNode leaf s).events = _
    rw [events_shiftNode]
    exact hacc

/-- At every moment of a parse the events tell where the accepting node has accepted. -/
theorem Reached.telling {x : Moment} (h : Reached table config points x) : Telling x := by
  induction h with
  | refl => exact ⟨by simp, by simp [initial]⟩
  | tail hx hn ih => exact ih.next (Reached.ordered hx) hn

/-- A parse that succeeds has accepted last at the level of its accepting node. -/
theorem Ended.acceptedAt_events (h : Ended table config points m) {n : NodeId} {p : Parse}
    (ha : m.accepting = some n) (hp : m.conclude.result = .ok p) :
    ∃ e, m.graph.entryAt? n = some e ∧ acceptedAt m.conclude.events.reverse = some e.position := by
  have htelling : ∃ e, m.graph.entryAt? n = some e ∧
      acceptedAt m.events = some e.position := by
    rcases h with h | ⟨h, -⟩ <;> exact h.telling.accepted n ha
  rw [conclude] at hp ⊢
  cases hl : m.graph.livePath? n rootNode with
  | none => simp [ha, hl] at hp
  | some path =>
    simp only [ha, hl, List.reverse_reverse]
    exact htelling

end ScannerlessLR
