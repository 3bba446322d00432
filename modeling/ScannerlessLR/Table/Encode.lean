/-
The serialization of parse tables as terms.  The right-hand sides of productions
and the priorities, which a table does not keep, are written as empty lists.
-/
import ScannerlessLR.Table.WellFormed

namespace ScannerlessLR

/-- A range: an integer or `range(low, high)`. -/
def Range.toTerm : Range → Term
  | .single p => .int p
  | .span low high => .application "range" [.int low, .int high]

/-- A list of ranges. -/
def RangeSet.toTerm (s : RangeSet) : Term :=
  .list (s.ranges.map Range.toTerm)

/-- The name of a side. -/
def Associativity.name : Associativity → String
  | .left => "left"
  | .right => "right"

/-- An attribute of a production. -/
def Attribute.toTerm : Attribute → Term
  | .cons name => .application "term" [.application "cons" [.str name]]
  | .assoc side => .application "assoc" [.constant side.name]
  | .bracket => .constant "bracket"
  | .recover => .application "term" [.constant "recover"]
  | .reject => .constant "reject"
  | .prefer => .constant "prefer"
  | .avoid => .constant "avoid"
  | .placeholder => .application "term" [.constant "placeholder"]

/-- A label: `label(prod([], production, attrs([attribute, ...])), id)`. -/
def Label.toTerm (l : Label) : Term :=
  .application "label" [
    .application "prod" [
      .list [],
      l.production,
      .application "attrs" [.list (l.attributes.map Attribute.toTerm)]],
    .int l.id]

/-- The number of a status. -/
def ReduceStatus.code : ReduceStatus → UInt32
  | .normal => 0
  | .reject => 1
  | .prefer => 2
  | .avoid => 4

/-- Arity, label and status of a reduction. -/
def Reduction.toTerms (r : Reduction) : List Term :=
  [.int (.ofNat r.arity), .int r.label, .int r.status.code]

/-- One point of a follow restriction: `follow-restriction([char-class(ranges)])`. -/
def followToTerm (s : RangeSet) : Term :=
  .application "follow-restriction" [.list [.application "char-class" [s.toTerm]]]

/-- An action item. -/
def ActionItem.toTerm : ActionItem → Term
  | .shift target => .application "shift" [.int target]
  | .reduce r => .application "reduce" r.toTerms
  | .reduceUnless r forbidden =>
    .application "reduce" (r.toTerms ++ [.list (forbidden.map followToTerm)])
  | .accept => .constant "accept"

/-- A goto: `goto(ranges, target)`. -/
def Goto.toTerm (g : Goto) : Term :=
  .application "goto" [g.labels.toTerm, .int g.target]

/-- An action: `action(ranges, [item, ...])`. -/
def Action.toTerm (a : Action) : Term :=
  .application "action" [a.points.toTerm, .list (a.items.map ActionItem.toTerm)]

/-- A state: `state-rec(id, [goto, ...], [action, ...])`. -/
def State.toTerm (s : State) : Term :=
  .application "state-rec" [
    .int s.id,
    .list (s.gotos.map Goto.toTerm),
    .list (s.actions.map Action.toTerm)]

/-- A table: `parse-table(6, start, [label, ...], states([state, ...]), priorities([]))`. -/
def Table.toTerm (t : Table) : Term :=
  .application "parse-table" [
    .int supportedVersion,
    .int t.start,
    .list (t.labels.map Label.toTerm),
    .application "states" [.list (t.states.map State.toTerm)],
    .application "priorities" [.list []]]

end ScannerlessLR
