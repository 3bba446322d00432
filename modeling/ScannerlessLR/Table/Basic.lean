/-
The records of a parse table.

A state lists its gotos and its actions; in both lists the first entry that
applies counts.  A label names a production and says how its reductions are to
be treated.

* `State.actions?` — what to do at a point;
* `State.goto?` — where to go on after a reduction.
-/
import ScannerlessLR.RangeSet
import ScannerlessLR.Term.Basic

namespace ScannerlessLR

/-- The number of a state. -/
abbrev StateId := UInt32

/-- The number of a production.  The points of characters and the numbers of labels share the
ranges of gotos and actions. -/
abbrev LabelId := UInt32

/-- The side to which an operator groups. -/
inductive Associativity where
  | left
  | right
  deriving DecidableEq, Repr

/-- What a grammar says about a production. -/
inductive Attribute where
  | cons (name : String)
  | assoc (side : Associativity)
  | bracket
  | recover
  | reject
  | prefer
  | avoid
  | placeholder
  deriving DecidableEq, Repr

/-- A production of the grammar. -/
structure Label where
  id : LabelId
  production : Term
  attributes : List Attribute := []
  deriving DecidableEq, Repr

namespace Label

/-- Whether the production carries an attribute. -/
def has (l : Label) (a : Attribute) : Bool :=
  decide (a ∈ l.attributes)

/-- Productions for error recovery and for completion are not parsed with. -/
def isUnsupported (l : Label) : Bool :=
  l.has .recover || l.has .placeholder

end Label

/-- How a derivation by a reduction ranks among others. -/
inductive ReduceStatus where
  | normal
  | reject
  | prefer
  | avoid
  deriving DecidableEq, Repr

/-- The reduction of the topmost `arity` links of a stack to the production `label`. -/
structure Reduction where
  arity : Nat
  label : LabelId
  status : ReduceStatus := .normal
  deriving DecidableEq, Repr

/-- One entry of a list of actions. -/
inductive ActionItem where
  | shift (target : StateId)
  | reduce (reduction : Reduction)
  /-- A reduction unless the points behind the current one fall, one by one, into the forbidden
  sets. -/
  | reduceUnless (reduction : Reduction) (forbidden : List RangeSet)
  | accept
  deriving DecidableEq, Repr

/-- The reduction of an action item. -/
def ActionItem.reduction? : ActionItem → Option Reduction
  | .reduce r | .reduceUnless r _ => some r
  | .shift _ | .accept => none

/-- The state to go on in after a reduction to one of `labels`. -/
structure Goto where
  labels : RangeSet
  target : StateId
  deriving DecidableEq, Repr

/-- What to do at one of `points`. -/
structure Action where
  points : RangeSet
  items : List ActionItem
  deriving DecidableEq, Repr

/-- A state of the automaton. -/
structure State where
  id : StateId
  gotos : List Goto := []
  actions : List Action := []
  deriving DecidableEq, Repr

namespace State

/-- The items of the first action for `point`. -/
def actions? (s : State) (point : UInt32) : Option (List ActionItem) :=
  (s.actions.find? fun a => point ∈ a.points).map Action.items

/-- The target of the first goto for `label`. -/
def goto? (s : State) (label : LabelId) : Option StateId :=
  (s.gotos.find? fun g => label ∈ g.labels).map Goto.target

end State

end ScannerlessLR
