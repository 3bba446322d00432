/-
The state of a parse.

At each point of the input there is a generation of active nodes, one for each
state.  A node waits in the queue until its actions are taken; what is still to
be done for them is on the agenda, the next task first.  A new link may complete
paths from nodes whose actions have been taken, so it puts their reductions on
the agenda again, in front of everything else, limited to paths through the link.
Shifts are kept until nothing else is left to do.

* `Generation` — the nodes at the current point;
* `Task` — a step that is still to be taken;
* `Machine` — the state of a parse between two tasks.
-/
import ScannerlessLR.Cursor
import ScannerlessLR.Parser.Report
import ScannerlessLR.Stack.Path
import ScannerlessLR.Table.WellFormed

namespace ScannerlessLR

/-- How to parse. -/
structure Config where
  /-- The point behind the last character.  It must not occur in the input. -/
  endOfInput : UInt32 := 256
  /-- Apply a reduction along a path at most once. -/
  deduplicate : Bool := true
  deriving DecidableEq, Repr

/-- A shift that is due: from a node to a node of the state `target` at the next point. -/
structure Shift where
  source : NodeId
  target : StateId
  deriving DecidableEq, Repr

/-- A reduction along a path, which the links determine. -/
structure Application where
  links : List LinkId
  node : NodeId
  reduction : Reduction
  deriving DecidableEq, Repr

/-- The stacks at one point of the input. -/
structure Generation where
  /-- The number of points in front of the current one. -/
  level : Nat := 0
  /-- The nodes, by state. -/
  active : List (StateId × NodeId) := []
  /-- The nodes whose actions have been taken or are being taken, oldest first. -/
  processed : List NodeId := []
  /-- The nodes whose actions are still to be taken. -/
  queue : List NodeId := []
  /-- The shifts that are due, oldest first. -/
  shifts : List Shift := []
  /-- The reductions that have been applied. -/
  applied : List Application := []
  deriving DecidableEq, Repr

namespace Generation

/-- The active node of a state. -/
def node? (g : Generation) (state : StateId) : Option NodeId :=
  g.active.lookup state

/-- Makes a node the active one of its state. -/
def activate (g : Generation) (state : StateId) (n : NodeId) : Generation :=
  { g with active := (state, n) :: g.active, queue := g.queue ++ [n] }

end Generation

/-- A step that is still to be taken. -/
inductive Task where
  | accept (node : NodeId) (state : StateId)
  | shift (node : NodeId) (target : StateId)
  /-- Check the points ahead, and reduce unless they are forbidden. -/
  | check (node : NodeId) (reduction : Reduction) (forbidden : List RangeSet)
      (through : Option LinkId)
  /-- Find the paths to reduce along, all or those through a link. -/
  | reduce (node : NodeId) (reduction : Reduction) (through : Option LinkId)
  /-- Reduce along one path. -/
  | apply (node : NodeId) (reduction : Reduction) (rejecting : Bool) (path : Path)
  /-- Take the reductions of a node again, along paths through a new link. -/
  | revisit (node : NodeId) (link : LinkId)
  /-- Reject a link between nodes of two states. -/
  | reject (link : LinkId) (source target : StateId)
  deriving DecidableEq, Repr

namespace ActionItem

/-- The task of an action item, if it is a reduction. -/
def reductionTask? (node : NodeId) (through : Option LinkId) : ActionItem → Option Task
  | .reduce r => some (.reduce node r through)
  | .reduceUnless r forbidden => some (.check node r forbidden through)
  | .shift _ | .accept => none

/-- The task of an action item at a node. -/
def task (node : NodeId) (state : StateId) : ActionItem → Task
  | .reduce r => .reduce node r none
  | .reduceUnless r forbidden => .check node r forbidden none
  | .shift target => .shift node target
  | .accept => .accept node state

end ActionItem

/-- The state of a parse. -/
structure Machine where
  /-- The input; the cursor is behind the current point. -/
  cursor : Cursor
  /-- The current point. -/
  token : UInt32
  graph : StackGraph := {}
  forest : Forest := {}
  generation : Generation := {}
  /-- What is to be done before the next node of the queue, the next task first. -/
  agenda : List Task := []
  /-- The node that has accepted last. -/
  accepting : Option NodeId := none
  /-- What has happened, the newest event first. -/
  events : List Event := []
  deriving DecidableEq, Repr

namespace Machine

/-- The machine in front of the first point: one active node, of the start state. -/
def initial (table : Table) (config : Config) (points : Array UInt32) : Machine :=
  let (root, graph) := StackGraph.addNode {} table.start
  { cursor := { points }
    token := config.endOfInput
    graph
    generation := Generation.activate {} table.start root }

/-- Records an event. -/
def record (m : Machine) (e : Event) : Machine :=
  { m with events := e :: m.events }

/-- Puts tasks in front of the agenda. -/
def push (m : Machine) (tasks : List Task) : Machine :=
  { m with agenda := tasks ++ m.agenda }

/-- The state of a node and its action items for the current point, if there are any. -/
def items? (table : Table) (m : Machine) (n : NodeId) :
    Except ParseError (Option (StateId × List ActionItem)) :=
  match m.graph.state? n with
  | none => .ok none
  | some id =>
    match table.state? id with
    | none => .error (.unknownState id)
    | some s => .ok ((s.actions? m.token).map fun items => (id, items))

end Machine

end ScannerlessLR
