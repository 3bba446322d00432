/-
The moments of a parse.

A parse goes through machines one after the other: in front of a point, at work
on it, step by step, and on to the next point, shift by shift.

* `Next` — the next moment, if there is one;
* `Reached` — the moments of the parse of given points;
* `Reached.ordered` — machines are in order at every moment.
-/
import Mathlib.Logic.Relator
import ScannerlessLR.Proofs.Parser.Invariant

namespace ScannerlessLR

/-- Where a parse stands. -/
inductive Phase where
  /-- In front of a point. -/
  | between
  /-- At work on a point. -/
  | working
  /-- On the way to the next point: so many shifts are still due, of one leaf. -/
  | shifting (leaf : TreeId) (due : List Shift)
  /-- In front of a point, with no node left to go on from. -/
  | stranded
  deriving DecidableEq, Repr

/-- A machine and where it stands. -/
structure Moment where
  phase : Phase
  machine : Machine

namespace Machine

/-- The machine at the next point, without any nodes there. -/
def turn (m : Machine) : Machine :=
  { m with generation := { level := m.generation.level + 1 } }

/-- The machine at the next point, with the leaf that its shifts share. -/
def turnWithLeaf (m : Machine) : Machine :=
  { m.turn with forest := (m.forest.leaf m.token).2 }

end Machine

/-- One moment of a parse follows another. -/
inductive Next (table : Table) (config : Config) : Moment → Moment → Prop
  | read {m : Machine} {token : UInt32} {cursor : Cursor} (ha : m.generation.active ≠ [])
      (hr : m.cursor.read? = some (token, cursor)) :
      Next table config ⟨.between, m⟩ ⟨.working, m.read token cursor⟩
  | work {m m' : Machine} (hm : m.Moves table config m') :
      Next table config ⟨.working, m⟩ ⟨.working, m'⟩
  | turn {m : Machine} (hi : m.work table config = .idle m) (hs : m.generation.shifts = []) :
      Next table config ⟨.working, m⟩ ⟨.between, m.turn⟩
  | leaf {m : Machine} (hi : m.work table config = .idle m) (hs : m.generation.shifts ≠ []) :
      Next table config ⟨.working, m⟩
        ⟨.shifting m.forest.size m.generation.shifts, m.turnWithLeaf⟩
  | shift {leaf : TreeId} {s : Shift} {due : List Shift} {m : Machine} :
      Next table config ⟨.shifting leaf (s :: due), m⟩
        ⟨.shifting leaf due, m.shiftNode leaf s⟩
  | shifted {leaf : TreeId} {m : Machine} :
      Next table config ⟨.shifting leaf [], m⟩
        ⟨.between, m.record (.shifted m.token m.generation.active.length)⟩
  | strand {m : Machine} (ha : m.generation.active = []) :
      Next table config ⟨.between, m⟩ ⟨.stranded, m.record (.stranded m.cursor.position)⟩

/-- The moments of the parse of `points`. -/
def Reached (table : Table) (config : Config) (points : Array UInt32) (x : Moment) : Prop :=
  Relation.ReflTransGen (Next table config) ⟨.between, Machine.initial table config points⟩ x

open Machine

variable {table : Table} {config : Config} {points : Array UInt32} {m m' : Machine}
  {x y : Moment}

/-- A parse goes one way only. -/
theorem next_rightUnique : Relator.RightUnique (Next table config) := by
  intro x y z hy hz
  -- one case for each step from `x`, and the steps that can compete with it
  cases hy with
  | read ha hr =>
    cases hz with
    | read _ hr' =>
      obtain ⟨rfl, rfl⟩ := Prod.mk.inj (Option.some.inj (hr.symm.trans hr'))
      rfl
    | strand ha' => exact absurd ha' ha
  | work hm =>
    cases hz with
    | work hm' => rw [Option.some.inj (hm.symm.trans hm')]
    | turn hi _ | leaf hi _ => exact absurd hm (by rw [Moves, hi]; simp [Progress.next?])
  | turn hi hs =>
    cases hz with
    | work hm => exact absurd hm (by rw [Moves, hi]; simp [Progress.next?])
    | turn _ _ => rfl
    | leaf _ hs' => exact absurd hs hs'
  | leaf hi hs =>
    cases hz with
    | work hm => exact absurd hm (by rw [Moves, hi]; simp [Progress.next?])
    | turn _ hs' => exact absurd hs' hs
    | leaf _ _ => rfl
  | shift =>
    cases hz with
    | shift => rfl
  | shifted =>
    cases hz with
    | shifted => rfl
  | strand ha =>
    cases hz with
    | read ha' _ => exact absurd ha ha'
    | strand _ => rfl

/-! ### Machines are in order at every moment -/

/-- A shift that is due behind the point where its source offers it. -/
def Shift.Due (table : Table) (points : Array UInt32) (m : Machine) (s : Shift) : Prop :=
  ∃ e, m.graph.entryAt? s.source = some e ∧ e.position + 1 = m.generation.level ∧
    table.Offers points e.state e.position (.shift s.target)

/-- What holds of a machine, by where it stands. -/
def Moment.Ordered (table : Table) (points : Array UInt32) : Moment → Prop
  | ⟨.working, m⟩ => Working table points m
  | ⟨.shifting _ due, m⟩ => Between table points m ∧ ∀ s ∈ due, s.Due table points m
  | ⟨.between, m⟩ | ⟨.stranded, m⟩ => Between table points m

theorem linksFrom_initial (table : Table) (config : Config) (points : Array UInt32) (n : NodeId) :
    (initial table config points).graph.linksFrom n = [] := by
  rcases n with _ | n <;> rfl

theorem initial_roster (table : Table) (config : Config) (points : Array UInt32) :
    Roster table (initial table config points).graph 0
      (initial table config points).generation.active := by
  -- the root is the only node, and no link leaves it
  have hentry : ∀ n, (initial table config points).graph.entryAt? n =
      if n = 0 then some ⟨table.start, 0⟩ else none := by
    intro n
    rcases n with _ | n <;> rfl
  have hlinks := linksFrom_initial table config points
  refine {
    wf := {
      link_lt := fun h => absurd h (by simp [hlinks])
      target_lt := fun h => absurd h (by simp [hlinks])
      ends_unique := fun h => absurd h (by simp [hlinks])
      link_unique := fun h => absurd h (by simp [hlinks])
      level_le := fun h => absurd h (by simp [hlinks])
      exists_ends := fun h => absurd h (Nat.not_lt_zero _) }
    root := rfl
    rooted := ?_
    known := ?_
    level_le := ?_
    lookup_iff := ?_ }
  · intro n hn
    obtain rfl : n = rootNode := Nat.lt_one_iff.mp hn
    exact ⟨[], .nil _⟩
  · intro n e he
    rw [hentry] at he
    split at he
    · obtain rfl := Option.some.inj he
      exact Table.exists_state?_start table
    · exact absurd he (by simp)
  · intro n e he
    rw [hentry] at he
    split at he
    · obtain rfl := Option.some.inj he
      exact Nat.le_refl _
    · exact absurd he (by simp)
  · intro s n
    rw [hentry]
    show List.lookup s [(table.start, 0)] = some n ↔ _
    by_cases hs : s = table.start
    · subst hs
      rw [List.lookup_cons_self]
      split
      · subst n
        simp
      · rename_i hn
        simpa using Ne.symm hn
    · rw [List.lookup_cons, beq_false_of_ne hs]
      simp [Ne.symm hs]

theorem initial_between (table : Table) (config : Config) (points : Array UInt32) :
    Between table points (initial table config points) where
  roster := initial_roster table config points
  staff := by
    intro n
    constructor
    · rintro (hn | hn)
      · exact absurd hn List.not_mem_nil
      · obtain rfl := List.mem_singleton.mp hn
        exact ⟨table.start, rfl⟩
    · rintro ⟨s, hs⟩
      obtain rfl : n = 0 := Nat.lt_one_iff.mp (StackGraph.lt_of_entryAt? hs)
      exact .inr (List.mem_singleton_self 0)
  tasks := fun t ht => absurd ht List.not_mem_nil
  shifts := fun s hs => absurd hs List.not_mem_nil
  accepting := fun n hn => absurd hn (by simp [initial])
  cursor := rfl
  agenda := rfl
  processed := rfl
  due := rfl
  applied := rfl

theorem Between.read (h : Between table points m) {token : UInt32} {cursor : Cursor}
    (hr : m.cursor.read? = some (token, cursor)) : Working table points (m.read token cursor) := by
  rw [h.cursor] at hr
  obtain ⟨htoken, rfl⟩ := Cursor.read?_eq_some_iff.mp hr
  exact { toSteady := { h.toSteady with }, cursor := rfl, token := htoken }

/-- With nothing left to do, all active nodes have been processed. -/
theorem Working.processed_of_idle (h : Working table points m)
    (hi : m.work table config = .idle m) {n : NodeId} {s : StateId}
    (hn : m.graph.entryAt? n = some ⟨s, m.generation.level⟩) : n ∈ m.generation.processed := by
  obtain ⟨-, -, hq⟩ := work_eq_idle hi
  rcases (h.staff n).mpr ⟨s, hn⟩ with hn | hn
  · exact hn
  · rw [hq] at hn
    exact absurd hn List.not_mem_nil

theorem Working.turn (h : Working table points m) (hi : m.work table config = .idle m) :
    Between table points m.turn where
  roster := { h.roster with
    level_le := fun he => Nat.le_succ_of_le (h.roster.level_le he)
    lookup_iff := by
      -- no node is as high as the new level
      intro s n
      refine ⟨fun he => absurd he (by simp [Machine.turn]), fun he => ?_⟩
      exact absurd (h.roster.level_le he) (Nat.not_succ_le_self _) }
  staff := by
    intro n
    refine ⟨fun hn => absurd hn (by simp [Machine.turn]), ?_⟩
    rintro ⟨s, hs⟩
    exact absurd (h.roster.level_le hs) (Nat.not_succ_le_self _)
  tasks := by
    intro t ht
    rw [show m.turn.agenda = [] from (work_eq_idle hi).2.1] at ht
    exact absurd ht List.not_mem_nil
  shifts := fun s hs => absurd hs List.not_mem_nil
  accepting := h.accepting
  cursor := h.cursor
  agenda := (work_eq_idle hi).2.1
  processed := rfl
  due := rfl
  applied := rfl

/-- A shift keeps a machine in order. -/
theorem Between.shiftNode (h : Between table points m) (leaf : TreeId) {s : Shift}
    (hs : s.Due table points m) : Between table points (m.shiftNode leaf s) ∧
      ∀ s' : Shift, s'.Due table points m → s'.Due table points (m.shiftNode leaf s) := by
  rcases m.shiftNode_cases leaf s with heq | ⟨hf, heq⟩ <;> rw [heq]
  · exact ⟨h, fun _ => id⟩
  · obtain ⟨e, he, -, ho⟩ := hs
    refine ⟨h.attach (StackGraph.lt_of_entryAt? he) (Table.exists_state?_of_shift ho) hf leaf, ?_⟩
    -- the shifts that are still due keep their sources
    rintro s' ⟨e', he', hl, ho'⟩
    refine ⟨e', (extends_attach h.roster).entry he', ?_, ho'⟩
    rw [level_attach]
    exact hl

theorem Moment.Ordered.next (h : x.Ordered table points) (hn : Next table config x y) :
    y.Ordered table points := by
  cases hn with
  | read ha hr => exact Between.read h hr
  | work hm => exact Working.moves h hm
  | turn hi hs => exact Working.turn h hi
  | @leaf m hi hs =>
    have h : Working table points m := h
    refine ⟨{ h.turn hi with }, ?_⟩
    -- the shifts come from nodes of the level that is left now
    intro s hs
    obtain ⟨hp, e, he, ho⟩ := h.shifts s hs
    obtain ⟨st, he'⟩ := h.entry_of_processed hp
    obtain rfl := Option.some.inj (he.symm.trans he')
    exact ⟨_, he, rfl, ho⟩
  | @shift leaf s due m =>
    obtain ⟨hb, hdue⟩ := h
    obtain ⟨hb', hdue'⟩ := hb.shiftNode leaf (hdue s List.mem_cons_self)
    exact ⟨hb', fun s' hs' => hdue' s' (hdue s' (List.mem_cons_of_mem _ hs'))⟩
  | @shifted leaf m =>
    have h : Between table points m := h.1
    exact { h with }
  | @strand m ha =>
    have h : Between table points m := h
    exact { h with }

/-- At every moment of a parse the machine is in order. -/
theorem Reached.ordered (h : Reached table config points x) : x.Ordered table points := by
  induction h with
  | refl => exact initial_between table config points
  | tail _ hn ih => exact ih.next hn

/-- The nodes of a machine are in order, wherever it stands. -/
theorem Moment.Ordered.roster {x : Moment} (h : x.Ordered table points) :
    Roster table x.machine.graph x.machine.generation.level x.machine.generation.active := by
  obtain ⟨phase, m⟩ := x
  cases phase with
  | between | stranded => exact Between.toSteady h |>.roster
  | working => exact Working.toSteady h |>.roster
  | shifting leaf due => exact h.1.roster

/-- A shift only adds to the graph. -/
theorem Between.extends_shiftNode (h : Between table points m) (leaf : TreeId) (s : Shift) :
    m.graph.Extends (m.shiftNode leaf s).graph := by
  rcases m.shiftNode_cases leaf s with heq | ⟨-, heq⟩ <;> rw [heq]
  · exact .refl _
  · exact extends_attach h.roster

/-- Going on only adds to the graph. -/
theorem Moment.Ordered.extends_next (h : x.Ordered table points) (hn : Next table config x y) :
    x.machine.graph.Extends y.machine.graph := by
  cases hn with
  | read | turn | leaf | shifted | strand => exact .refl _
  | work hm => exact Working.extends_of_moves h hm
  | shift => exact Between.extends_shiftNode h.1 ..

theorem Reached.next (h : Reached table config points x) (hn : Next table config x y) :
    Reached table config points y :=
  Relation.ReflTransGen.tail h hn

theorem Reached.working (h : Reached table config points ⟨.working, m⟩) :
    Working table points m :=
  h.ordered

theorem Reached.between (h : Reached table config points ⟨.between, m⟩) :
    Between table points m :=
  h.ordered

/-- When a point has just been read, nothing is on the agenda. -/
theorem Reached.agenda_read {token : UInt32} {cursor : Cursor}
    (h : Reached table config points ⟨.between, m⟩) : (m.read token cursor).agenda = [] :=
  h.between.agenda

/-- What holds whenever a point has been read, and is kept by every step, holds of all machines at
work. -/
theorem Reached.working_induction {motive : Machine → Prop}
    (hread : ∀ m token cursor, Reached table config points ⟨.between, m⟩ →
      motive (m.read token cursor))
    (hwork : ∀ m m', Reached table config points ⟨.working, m⟩ → m.Moves table config m' →
      motive m → motive m')
    (h : Reached table config points ⟨.working, m⟩) : motive m := by
  generalize hx : Moment.mk .working m = x at h
  induction h generalizing m with
  | refl => exact absurd hx (by simp)
  | @tail y z hy hn ih =>
    cases hn with
    | @read m₀ token cursor ha hr =>
      obtain rfl : m = m₀.read token cursor := by simpa using hx
      exact hread m₀ token cursor hy
    | @work m₀ m₁ hm =>
      obtain rfl : m = m₁ := by simpa using hx
      exact hwork m₀ m hy hm (ih rfl)
    | turn | leaf | shift | shifted | strand => exact absurd hx (by simp)

/-- At no moment of a parse there are two nodes of the same state and level. -/
theorem Reached.entry_unique (h : Reached table config points x) {n n' : NodeId} {e : Entry}
    (hn : x.machine.graph.entryAt? n = some e) (hn' : x.machine.graph.entryAt? n' = some e) :
    n = n' := by
  induction h generalizing n n' e with
  | refl =>
    -- in the beginning there is only the root
    have hlt := StackGraph.lt_of_entryAt? hn
    have hlt' := StackGraph.lt_of_entryAt? hn'
    rw [Nat.lt_one_iff.mp hlt, Nat.lt_one_iff.mp hlt']
  | @tail y z hy hnext ih =>
    cases hnext with
    | read | turn | leaf | shifted | strand => exact ih hn hn'
    | @work m m' hm =>
      have h : Working table points m := Reached.working hy
      change m'.graph.entryAt? n = some e at hn
      change m'.graph.entryAt? n' = some e at hn'
      cases h.changes hm with
      | still hg | pack _ _ _ _ _ _ _ _ hg | reject _ _ hg =>
        rw [hg] at hn hn'
        exact ih hn hn'
      | link a v target hr hl hg =>
        rw [hg] at hn hn'
        exact entry_unique_attach h.roster (fun _ _ _ => ih) hn hn'
    | @shift leaf s due m =>
      have h : Between table points m := (Reached.ordered hy).1
      change (m.shiftNode leaf s).graph.entryAt? n = some e at hn
      change (m.shiftNode leaf s).graph.entryAt? n' = some e at hn'
      rcases m.shiftNode_cases leaf s with heq | ⟨-, heq⟩ <;> rw [heq] at hn hn'
      · exact ih hn hn'
      · exact entry_unique_attach h.roster (fun _ _ _ => ih) hn hn'

end ScannerlessLR
