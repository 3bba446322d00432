/-
What a parse reports: its events, as a trace shows them, and why a text has no parse.
-/
import ScannerlessLR.Table.Basic

namespace ScannerlessLR

/-- Something that happens in the course of a parse. -/
inductive Event where
  /-- A point of the input becomes the current one. -/
  | reading (token : UInt32) (position : Nat)
  /-- The actions of a node are about to be taken. -/
  | processing (state : StateId) (rejected : Bool)
  | accepted (state : StateId)
  /-- So many points ahead have been looked at for a follow restriction. -/
  | followChecked (read : Nat) (permitted : Bool)
  /-- A reduction to a production that is not parsed with. -/
  | skipped (label : LabelId)
  | reduced (label : LabelId) (arity : Nat) (bottom target : StateId)
  /-- A further derivation for the link between nodes of two states. -/
  | ambiguous (source target : StateId)
  /-- The link between nodes of two states is rejected. -/
  | rejected (source target : StateId)
  /-- The current point has been shifted; so many nodes are active behind it. -/
  | shifted (token : UInt32) (nodes : Nat)
  /-- No node is active behind the current point. -/
  | stranded (position : Nat)
  | succeeded (nodes links trees : Nat)
  deriving DecidableEq, Repr

/-- The line of a trace that shows an event. -/
def Event.text : Event → String
  | .reading token position => s!"TRACE parsing character token={token} position={position}"
  | .processing state dead => s!"TRACE processing node state={state} rejected={dead}"
  | .accepted state => s!"DEBUG accept state={state}"
  | .followChecked read permitted =>
    s!"TRACE checked follow restrictions read={read} permitted={permitted}"
  | .skipped label => s!"DEBUG skipping recovery reduction label={label}"
  | .reduced label arity bottom target =>
    s!"DEBUG reduce label={label} arity={arity} from={bottom} to={target}"
  | .ambiguous source target => s!"DEBUG ambiguity from={source} to={target}"
  | .rejected source target => s!"DEBUG reject from={source} to={target}"
  | .shifted token nodes => s!"DEBUG shifted token={token} nodes={nodes}"
  | .stranded position => s!"DEBUG no stacks left position={position}"
  | .succeeded nodes links trees =>
    s!"DEBUG parse succeeded nodes={nodes} links={links} trees={trees}"

instance : ToString Event := ⟨Event.text⟩

/-- The reasons why a text has no parse. -/
inductive ParseError where
  /-- A state reached by a reduction has no goto for its label: the table is at fault. -/
  | missingGoto (state : StateId) (label : LabelId)
  /-- The table does not know a state.  A table that is closed gives no rise to this. -/
  | unknownState (id : StateId)
  /-- The table does not know a label.  A table that is closed gives no rise to this. -/
  | unknownLabel (id : LabelId)
  /-- More links than there are pairs of nodes.  No parse gives rise to this. -/
  | linksExhausted
  | noAcceptingDerivation
  | allPathsRejected
  /-- The input contains the end-of-input marker, at a position counted in characters. -/
  | reservedCharacter (position : Nat)
  deriving DecidableEq, Repr

/-- The wording of a reason. -/
def ParseError.message : ParseError → String
  | .missingGoto state label => s!"there is no goto for label {label} in state {state}"
  | .unknownState id => s!"reference to unknown state {id}"
  | .unknownLabel id => s!"reference to unknown label {id}"
  | .linksExhausted => "there are more links than pairs of nodes"
  | .noAcceptingDerivation => "parsing did not end in an accepting stack"
  | .allPathsRejected => "all accepting paths were rejected"
  | .reservedCharacter position =>
    s!"character at position {position} collides with the end-of-input marker"

instance : ToString ParseError := ⟨ParseError.message⟩

end ScannerlessLR
