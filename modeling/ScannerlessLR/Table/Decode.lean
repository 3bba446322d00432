/-
Parse tables from their serialization

  `parse-table(version, start, [label, ...], states([state, ...]), priorities)`.

Priorities are not interpreted, and most applications may carry further
arguments, which are ignored.  The parts of a record are looked at in a fixed
order, and the first thing wrong is reported.

* `Table.ofTerm` — from a term;
* `Table.parse` — from a text.
-/
import ScannerlessLR.Table.WellFormed

namespace ScannerlessLR

namespace Term

/-- The integer that a term has to be. -/
def asInt (expected : String) : Term → Except TableError UInt32
  | .int n => .ok n
  | t => .error (.malformed expected t)

/-- The items of the list that a term has to be. -/
def asList (expected : String) : Term → Except TableError (List Term)
  | .list ts => .ok ts
  | t => .error (.malformed expected t)

end Term

/-- A range: an integer or `range(low, high)`. -/
def Range.ofTerm : Term → Except TableError Range
  | .int n => .ok (.single n)
  | .application "range" (low :: high :: _) => do
    let low ← low.asInt "range start"
    let high ← high.asInt "range end"
    return .span low high
  | t => .error (.malformed "range" t)

/-- A list of ranges. -/
def RangeSet.ofTerm (t : Term) : Except TableError RangeSet := do
  let ts ← t.asList "list of ranges"
  return ⟨← ts.mapM Range.ofTerm⟩

/-- An attribute of a production.  The associativity `assoc` means the left one. -/
def Attribute.ofTerm (t : Term) : Except TableError Attribute :=
  match t with
  | .application "bracket" [] => .ok .bracket
  | .application "reject" [] => .ok .reject
  | .application "prefer" [] => .ok .prefer
  | .application "avoid" [] => .ok .avoid
  | .application "assoc" [.application "left" _] => .ok (.assoc .left)
  | .application "assoc" [.application "assoc" _] => .ok (.assoc .left)
  | .application "assoc" [.application "right" _] => .ok (.assoc .right)
  | .application "term" [.application "cons" [.str name]] => .ok (.cons name)
  | .application "term" [.application "recover" []] => .ok .recover
  | .application "term" [.application "placeholder" []] => .ok .placeholder
  | _ => .error (.unsupportedAttribute t)

/-- The attributes of a production: `no-attrs` or `attrs([attribute, ...])`. -/
def attributesOfTerm : Term → Except TableError (List Attribute)
  | .application "no-attrs" [] => .ok []
  | .application "attrs" (ts :: _) => do
    let ts ← ts.asList "list of attributes"
    ts.mapM Attribute.ofTerm
  | t => .error (.malformed "attrs" t)

/-- The symbol that a production derives, and the term of its attributes, in
`prod(symbols, symbol, attributes)`. -/
def productionOfTerm : Term → Except TableError (Term × Term)
  | .application "prod" (_ :: production :: attributes :: _) => .ok (production, attributes)
  | t => .error (.malformed "prod" t)

/-- A label: `label(production, id)`. -/
def Label.ofTerm : Term → Except TableError Label
  | .application "label" (production :: id :: _) => do
    let (production, attributes) ← productionOfTerm production
    let id ← id.asInt "label id"
    let attributes ← attributesOfTerm attributes
    return { id, production, attributes }
  | t => .error (.malformed "label" t)

/-- The status of a reduction, by its number. -/
def ReduceStatus.ofTerm (t : Term) : Except TableError ReduceStatus := do
  match ← t.asInt "reduce status" with
  | 0 => return .normal
  | 1 => return .reject
  | 2 => return .prefer
  | 4 => return .avoid
  | n => throw (.unsupportedReduceStatus n)

/-- One point of a follow restriction: the first class of
`follow-restriction([char-class(ranges), ...])`. -/
def followOfTerm (t : Term) : Except TableError RangeSet :=
  match t with
  | .application "follow-restriction" (classes :: _) => do
    match ← classes.asList "list of character classes" with
    | [] => throw (.unsupportedLookahead t)
    | .application "char-class" (ranges :: _) :: _ => RangeSet.ofTerm ranges
    | other :: _ => throw (.malformed "char-class" other)
  | _ => .error (.unsupportedLookahead t)

/-- A reduction from its arity, its label and its status. -/
def Reduction.ofTerms (arity label status : Term) : Except TableError Reduction := do
  let arity ← arity.asInt "reduce arity"
  let label ← label.asInt "reduce label"
  let status ← ReduceStatus.ofTerm status
  return { arity := arity.toNat, label, status }

/-- An action item.  Here the number of arguments counts. -/
def ActionItem.ofTerm (t : Term) : Except TableError ActionItem :=
  match t with
  | .application "shift" [target] => do
    return .shift (← target.asInt "shift target")
  | .application "accept" [] => .ok .accept
  | .application "reduce" [arity, label, status] => do
    return .reduce (← Reduction.ofTerms arity label status)
  | .application "reduce" [arity, label, status, forbidden] => do
    let reduction ← Reduction.ofTerms arity label status
    let ts ← forbidden.asList "list of follow restrictions"
    return .reduceUnless reduction (← ts.mapM followOfTerm)
  | _ => .error (.unsupportedActionItem t)

/-- A goto: `goto(ranges, target)`. -/
def Goto.ofTerm : Term → Except TableError Goto
  | .application "goto" (labels :: target :: _) => do
    let labels ← RangeSet.ofTerm labels
    let target ← target.asInt "goto target"
    return { labels, target }
  | t => .error (.malformed "goto" t)

/-- An action: `action(ranges, [item, ...])`.  The items are looked at before the ranges. -/
def Action.ofTerm : Term → Except TableError Action
  | .application "action" (points :: items :: _) => do
    let items ← items.asList "list of action items"
    let items ← items.mapM ActionItem.ofTerm
    let points ← RangeSet.ofTerm points
    return { points, items }
  | t => .error (.malformed "action" t)

/-- A state: `state-rec(id, [goto, ...], [action, ...])`. -/
def State.ofTerm : Term → Except TableError State
  | .application "state-rec" (id :: gotos :: actions :: _) => do
    let id ← id.asInt "state id"
    let gotos ← gotos.asList "list of gotos"
    let gotos ← gotos.mapM Goto.ofTerm
    let actions ← actions.asList "list of actions"
    let actions ← actions.mapM Action.ofTerm
    return { id, gotos, actions }
  | t => .error (.malformed "state-rec" t)

/-- The terms of the states: `states([state, ...])`. -/
def statesOfTerm : Term → Except TableError (List State)
  | .application "states" (ts :: _) => do
    let ts ← ts.asList "list of states"
    ts.mapM State.ofTerm
  | t => .error (.malformed "states" t)

namespace Table

/-- The table that a term serializes.  The version is checked before anything behind it. -/
def ofTerm : Term → Except TableError Table
  | .application "parse-table" (version :: start :: labels :: states :: _) => do
    let version ← version.asInt "table version"
    if version ≠ supportedVersion then
      throw (.unsupportedVersion version)
    let start ← start.asInt "start state"
    let labels ← labels.asList "list of labels"
    let labels ← labels.mapM Label.ofTerm
    let states ← statesOfTerm states
    build start states labels
  | t => .error (.malformed "parse-table" t)

/-- The table that a text serializes. -/
def parse (text : String) : Except TableError Table :=
  match Term.parse text with
  | .ok t => ofTerm t
  | .error fault => .error (.term fault)

end Table

end ScannerlessLR
