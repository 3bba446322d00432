/-
The plain nondeterministic automaton of a table.

A configuration is one stack and the position of the next point.  A step either
shifts that point or reduces the top of the stack, whatever else the table
offers: nothing is merged, no derivation is rejected, nothing is remembered.
The graph-structured stack is measured against it.

* `Automaton.Step` — one shift or one reduction;
* `Automaton.Reachable` — what the automaton can come to;
* `Automaton.Gap` — a reduction it can make that leads nowhere, for want of a goto;
* `Automaton.Recognizes` — it can come to accept.
-/
import Mathlib.Data.Nat.Notation
import Mathlib.Logic.Relation
import ScannerlessLR.Table.WellFormed

namespace ScannerlessLR

/-- A state on a stack, with the position at which it was pushed. -/
structure Entry where
  state : StateId
  position : ℕ
  deriving DecidableEq, Repr

/-- A stack, topmost entry first, and the position of the next point. -/
structure Configuration where
  stack : List Entry
  position : ℕ
  deriving DecidableEq, Repr

/-- None of the points behind the one at `position` falls into its forbidden set.  Points past the
end of the input are not there to be forbidden. -/
def FollowPermits (points : Array UInt32) (position : ℕ) (forbidden : List RangeSet) : Prop :=
  ∀ k s point, forbidden[k]? = some s → points[position + 1 + k]? = some point → point ∉ s

/-- The item asks for the reduction `r` at `position`, as far as its follow restrictions go. -/
def ActionItem.Calls (points : Array UInt32) (position : ℕ) (r : Reduction) : ActionItem → Prop
  | .reduce r' => r' = r
  | .reduceUnless r' forbidden => r' = r ∧ FollowPermits points position forbidden
  | .shift _ | .accept => False

theorem ActionItem.reduction?_of_calls {points : Array UInt32} {position : ℕ} {r : Reduction}
    {item : ActionItem} (h : item.Calls points position r) : item.reduction? = some r := by
  cases item with
  | reduce r' => exact congrArg some h
  | reduceUnless r' forbidden => exact congrArg some h.1
  | shift target => exact h.elim
  | accept => exact h.elim

namespace Table

variable (t : Table) (points : Array UInt32)

/-- The action items of a state for a point. -/
def itemsAt (id : StateId) (point : UInt32) : List ActionItem :=
  ((t.state? id).bind (·.actions? point)).getD []

/-- The target of a state's goto for a label. -/
def gotoFrom? (id : StateId) (label : LabelId) : Option StateId :=
  (t.state? id).bind (·.goto? label)

/-- The table knows the production and parses with it. -/
def Parses (label : LabelId) : Prop :=
  ∃ l, t.label? label = some l ∧ l.isUnsupported = false

/-- A state has an action item for the point at `position`. -/
def Offers (id : StateId) (position : ℕ) (item : ActionItem) : Prop :=
  ∃ point, points[position]? = some point ∧ item ∈ t.itemsAt id point

/-- A state calls for a reduction at `position`. -/
def Calls (id : StateId) (position : ℕ) (r : Reduction) : Prop :=
  ∃ item, t.Offers points id position item ∧ item.Calls points position r

/-- A state calls for a reduction at `position`, to a production that is parsed with. -/
def Reduces (id : StateId) (position : ℕ) (r : Reduction) : Prop :=
  t.Parses r.label ∧ t.Calls points id position r

/-- A reduction rejects what it builds. -/
def Rejects (r : Reduction) : Prop :=
  ∃ l, t.label? r.label = some l ∧ (r.status = .reject ∨ l.has .reject = true)

/-- No reduction of the table rejects what it builds. -/
def RejectFree : Prop :=
  (∀ s ∈ t.states, ∀ a ∈ s.actions, ∀ item ∈ a.items, ∀ r,
    item.reduction? = some r → r.status ≠ .reject) ∧
  ∀ l ∈ t.labels, l.has .reject = false

variable {t points}

/-- The item of a state for a point is one of its table. -/
theorem exists_of_mem_itemsAt {id : StateId} {point : UInt32} {item : ActionItem}
    (h : item ∈ t.itemsAt id point) : ∃ s ∈ t.states, s.id = id ∧
      ∃ a ∈ s.actions, item ∈ a.items := by
  rw [itemsAt] at h
  cases hs : t.state? id with
  | none => simp [hs] at h
  | some s =>
    cases ha : s.actions? point with
    | none => simp [hs, ha] at h
    | some items =>
      simp only [hs, ha, Option.bind_some, Option.getD_some] at h
      obtain ⟨a, hf, rfl⟩ := Option.map_eq_some_iff.mp ha
      refine ⟨s, List.mem_of_find?_eq_some hs, ?_, a, List.mem_of_find?_eq_some hf, h⟩
      simpa using List.find?_some hs

theorem exists_state?_of_mem {id : StateId} (h : .state id ∈ references t.start t.states) :
    ∃ s, t.state? id = some s := by
  obtain ⟨s, hs, hid⟩ := t.resolves _ h
  exact Option.isSome_iff_exists.mp (List.find?_isSome.mpr ⟨s, hs, decide_eq_true hid⟩)

theorem exists_state?_start (t : Table) : ∃ s, t.state? t.start = some s :=
  exists_state?_of_mem List.mem_cons_self

/-- The target of a goto is a state of the table. -/
theorem exists_state?_of_goto {id target : StateId} {label : LabelId}
    (h : t.gotoFrom? id label = some target) : ∃ s, t.state? target = some s := by
  obtain ⟨s, hs, hg⟩ := Option.bind_eq_some_iff.mp h
  obtain ⟨g, hf, rfl⟩ := Option.map_eq_some_iff.mp hg
  refine exists_state?_of_mem (List.mem_cons_of_mem _ (List.mem_flatMap.mpr ?_))
  refine ⟨s, List.mem_of_find?_eq_some hs, List.mem_append_left _ ?_⟩
  exact List.mem_map.mpr ⟨g, List.mem_of_find?_eq_some hf, rfl⟩

/-- What an action item refers to is in the table. -/
theorem resolves_of_offers {id : StateId} {position : ℕ} {item : ActionItem} {r : Reference}
    (h : t.Offers points id position item) (hr : item.reference? = some r) :
    r ∈ references t.start t.states := by
  obtain ⟨point, -, hi⟩ := h
  obtain ⟨s, hs, -, a, ha, hi⟩ := exists_of_mem_itemsAt hi
  refine List.mem_cons_of_mem _ (List.mem_flatMap.mpr ⟨s, hs, List.mem_append_right _ ?_⟩)
  exact List.mem_flatMap.mpr ⟨a, ha, List.mem_filterMap.mpr ⟨item, hi, hr⟩⟩

/-- The target of a shift is a state of the table. -/
theorem exists_state?_of_shift {id target : StateId} {position : ℕ}
    (h : t.Offers points id position (.shift target)) : ∃ s, t.state? target = some s :=
  exists_state?_of_mem (resolves_of_offers h rfl)

/-- The production of a reduction is one of the table. -/
theorem exists_label?_of_calls {id : StateId} {position : ℕ} {r : Reduction}
    (h : t.Calls points id position r) : ∃ l, t.label? r.label = some l := by
  obtain ⟨item, ho, hc⟩ := h
  -- only a reduction is asked for, with restrictions or without
  have hr : item.reference? = some (.label r.label) := by
    cases item with
    | reduce r' => rw [ActionItem.reference?, show r' = r from hc]
    | reduceUnless r' forbidden => rw [ActionItem.reference?, show r' = r from hc.1]
    | shift target => exact hc.elim
    | accept => exact hc.elim
  obtain ⟨l, hl, hid⟩ := t.resolves _ (resolves_of_offers ho hr)
  exact Option.isSome_iff_exists.mp (List.find?_isSome.mpr ⟨l, hl, decide_eq_true hid⟩)

theorem RejectFree.not_rejects (h : t.RejectFree) {id : StateId} {position : ℕ} {r : Reduction}
    (hr : t.Calls points id position r) : ¬ t.Rejects r := by
  rintro ⟨l, hl, hrej⟩
  obtain ⟨item, ⟨point, -, hi⟩, hc⟩ := hr
  obtain ⟨s, hs, -, a, ha, hi⟩ := exists_of_mem_itemsAt hi
  rcases hrej with hst | hrej
  · exact h.1 s hs a ha item hi r (ActionItem.reduction?_of_calls hc) hst
  · rw [h.2 l (List.mem_of_find?_eq_some hl)] at hrej
    exact absurd hrej (by simp)

/-- A table for runs of the letter `a`, which it groups in pairs in every way. -/
def pairs : Table where
  start := 0
  states := [
    { id := 0, gotos := [⟨.span 257 258, 2⟩], actions := [⟨.single 97, [.shift 1]⟩] },
    { id := 1, actions := [⟨⟨[.single 97, .single 256]⟩, [.reduce ⟨1, 257, .normal⟩]⟩] },
    { id := 2, gotos := [⟨.span 257 258, 3⟩],
      actions := [⟨.single 97, [.shift 1]⟩, ⟨.single 256, [.accept]⟩] },
    { id := 3, gotos := [⟨.span 257 258, 3⟩],
      actions := [⟨.single 97, [.shift 1, .reduce ⟨2, 258, .normal⟩]⟩,
        ⟨.single 256, [.reduce ⟨2, 258, .normal⟩]⟩] }]
  labels := [⟨257, .application "letter" [], []⟩, ⟨258, .application "pair" [], []⟩]
  states_nodup := by decide
  labels_nodup := by decide
  resolves := by decide

theorem rejectFree_pairs : pairs.RejectFree := by
  constructor
  · simp [pairs, ActionItem.reduction?]
  · decide

end Table

namespace Automaton

variable (t : Table) (points : Array UInt32)

/-- The start state alone, in front of the first point. -/
def initial : Configuration :=
  ⟨[⟨t.start, 0⟩], 0⟩

/-- The topmost state of a configuration has an action item for its next point. -/
def Offers (c : Configuration) (item : ActionItem) : Prop :=
  ∃ top ∈ c.stack.head?, t.Offers points top.state c.position item

/-- The topmost state of a configuration calls for a reduction, and the stack is high enough
for it. -/
def Enables (c : Configuration) (r : Reduction) : Prop :=
  (∃ top ∈ c.stack.head?, t.Reduces points top.state c.position r) ∧ r.arity < c.stack.length

/-- One step: a shift of the next point, or a reduction in front of it. -/
inductive Step : Configuration → Configuration → Prop
  | shift {c : Configuration} {target : StateId} (h : Offers t points c (.shift target)) :
      Step c ⟨⟨target, c.position + 1⟩ :: c.stack, c.position + 1⟩
  | reduce {c : Configuration} {r : Reduction} {bottom : Entry} {target : StateId}
      (h : Enables t points c r) (hb : c.stack[r.arity]? = some bottom)
      (hg : t.gotoFrom? bottom.state r.label = some target) :
      Step c ⟨⟨target, c.position⟩ :: c.stack.drop r.arity, c.position⟩

/-- The configurations that the automaton can come to. -/
def Reachable (c : Configuration) : Prop :=
  Relation.ReflTransGen (Step t points) (initial t) c

/-- The automaton can come to make a reduction to `label` above the state `id`, which has no goto
for it. -/
def Gap (id : StateId) (label : LabelId) : Prop :=
  ∃ c r bottom, Reachable t points c ∧ Enables t points c r ∧
    c.stack[r.arity]? = some bottom ∧ bottom.state = id ∧ r.label = label ∧
    t.gotoFrom? id label = none

/-- The automaton can come to accept. -/
def Recognizes : Prop :=
  ∃ c, Reachable t points c ∧ Offers t points c .accept

variable {t points}

theorem Reachable.step {c c' : Configuration} (hc : Reachable t points c)
    (h : Step t points c c') : Reachable t points c' :=
  Relation.ReflTransGen.tail hc h

end Automaton

end ScannerlessLR
