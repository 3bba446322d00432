/-
Parse tables.  A table is closed: ids are unique, and whatever a record refers
to exists.

* `TableError` — why a table cannot be built;
* `Table` — a start state, states and labels, with the proof that they fit;
* `Table.build` — the table of given records, or the first thing wrong with them;
* `Table.state?`, `Table.label?` — lookup by id.
-/
import ScannerlessLR.Table.Basic
import ScannerlessLR.Term.Printer
import ScannerlessLR.Term.Reader

namespace ScannerlessLR

/-! ### Why a table cannot be built -/

/-- The reasons why a parse table cannot be built. -/
inductive TableError where
  /-- The text is not a term. -/
  | term (fault : TermError)
  | unsupportedVersion (found : UInt32)
  /-- A term of another shape was expected. -/
  | malformed (expected : String) (found : Term)
  | unsupportedAttribute (found : Term)
  | unsupportedActionItem (found : Term)
  | unsupportedReduceStatus (found : UInt32)
  | unsupportedLookahead (found : Term)
  | duplicateState (id : StateId)
  | duplicateLabel (id : LabelId)
  | unknownState (id : StateId)
  | unknownLabel (id : LabelId)
  deriving DecidableEq, Repr

/-- The only version of the table format that is understood. -/
def supportedVersion : UInt32 := 6

/-- The wording of a reason. -/
def TableError.message : TableError → String
  | .term fault => fault.message
  | .unsupportedVersion found =>
    s!"can only parse tables of version {supportedVersion}, not version {found}"
  | .malformed expected found => s!"malformed table: expected {expected}, found {found}"
  | .unsupportedAttribute found => s!"unsupported attribute: {found}"
  | .unsupportedActionItem found => s!"unsupported action item: {found}"
  | .unsupportedReduceStatus found => s!"unsupported reduce status {found}"
  | .unsupportedLookahead found => s!"unsupported lookahead term: {found}"
  | .duplicateState id => s!"state {id} is defined twice"
  | .duplicateLabel id => s!"label {id} is defined twice"
  | .unknownState id => s!"reference to unknown state {id}"
  | .unknownLabel id => s!"reference to unknown label {id}"

instance : ToString TableError := ⟨TableError.message⟩

/-! ### Closed tables -/

/-- What a record of a table refers to. -/
inductive Reference where
  | state (id : StateId)
  | label (id : LabelId)
  deriving DecidableEq, Repr

namespace Reference

/-- The thing referred to is among the given records. -/
def Resolves (states : List State) (labels : List Label) : Reference → Prop
  | .state id => ∃ s ∈ states, s.id = id
  | .label id => ∃ l ∈ labels, l.id = id

instance (states : List State) (labels : List Label) :
    DecidablePred (Resolves states labels) := fun
  | .state id => inferInstanceAs (Decidable (∃ s ∈ states, s.id = id))
  | .label id => inferInstanceAs (Decidable (∃ l ∈ labels, l.id = id))

/-- The fault of a reference to nothing. -/
def unresolved : Reference → TableError
  | .state id => .unknownState id
  | .label id => .unknownLabel id

end Reference

/-- What an action item refers to. -/
def ActionItem.reference? : ActionItem → Option Reference
  | .shift target => some (.state target)
  | .reduce r | .reduceUnless r _ => some (.label r.label)
  | .accept => none

/-- What a state refers to: the targets of its gotos, then what its actions name. -/
def State.references (s : State) : List Reference :=
  s.gotos.map (.state ·.target) ++ s.actions.flatMap fun a => a.items.filterMap (·.reference?)

/-- All that a table refers to. -/
def references (start : StateId) (states : List State) : List Reference :=
  .state start :: states.flatMap State.references

/-- A parse table. -/
structure Table where
  start : StateId
  states : List State
  labels : List Label
  states_nodup : (states.map State.id).Nodup
  labels_nodup : (labels.map Label.id).Nodup
  /-- Whatever the table refers to is in it. -/
  resolves : ∀ r ∈ references start states, r.Resolves states labels

/-- The first entry that has occurred before. -/
def firstRepeat? {α : Type} [DecidableEq α] (seen : List α) : List α → Option α
  | [] => none
  | a :: as => if a ∈ seen then some a else firstRepeat? (a :: seen) as

theorem firstRepeat?_eq_none_iff {α : Type} [DecidableEq α] {seen as : List α} :
    firstRepeat? seen as = none ↔ as.Nodup ∧ ∀ a ∈ as, a ∉ seen := by
  induction as generalizing seen with
  | nil => simp [firstRepeat?]
  | cons a as ih =>
    by_cases h : a ∈ seen
    · simp [firstRepeat?, h]
    · simp only [firstRepeat?, h, if_false, ih, List.nodup_cons, List.mem_cons, not_or]
      constructor
      · rintro ⟨nodup, fresh⟩
        refine ⟨⟨fun mem => (fresh a mem).1 rfl, nodup⟩, ?_⟩
        rintro b (rfl | mem)
        · exact h
        · exact (fresh b mem).2
      · rintro ⟨⟨new, nodup⟩, fresh⟩
        exact ⟨nodup, fun b mem => ⟨fun e => new (e ▸ mem), fresh b (.inr mem)⟩⟩

namespace Table

/-- The table of the given records.  A state that is defined twice is reported first, then such a
label, then the first reference to nothing. -/
def build (start : StateId) (states : List State) (labels : List Label) :
    Except TableError Table :=
  match hs : firstRepeat? [] (states.map State.id) with
  | some id => .error (.duplicateState id)
  | none =>
    match hl : firstRepeat? [] (labels.map Label.id) with
    | some id => .error (.duplicateLabel id)
    | none =>
      match hr : (references start states).find? (¬ ·.Resolves states labels) with
      | some r => .error r.unresolved
      | none => .ok {
          start, states, labels
          states_nodup := (firstRepeat?_eq_none_iff.1 hs).1
          labels_nodup := (firstRepeat?_eq_none_iff.1 hl).1
          resolves := fun r mem => by simpa using List.find?_eq_none.1 hr r mem }

/-- The state with a given id. -/
def state? (t : Table) (id : StateId) : Option State :=
  t.states.find? fun s => s.id = id

/-- The label with a given id. -/
def label? (t : Table) (id : LabelId) : Option Label :=
  t.labels.find? fun l => l.id = id

end Table

end ScannerlessLR
