/-
Running a machine over the points of an input.

* `Machine.advance` — up to the next new link;
* `Machine.drain` — all that is to be done at one point;
* `Machine.shift` — on to the next point;
* `Machine.scan` — the points of the input, one by one.
-/
import ScannerlessLR.Parser.Weight

namespace ScannerlessLR

/-- Where a machine comes to rest. -/
inductive Rest where
  /-- Nothing is left to do at the current point. -/
  | drained (machine : Machine)
  /-- A link has been added. -/
  | linked (machine : Machine)
  | failed (error : ParseError) (machine : Machine)

/-- A parse that cannot go on, and the machine as it was then. -/
structure Failure where
  error : ParseError
  machine : Machine

namespace Machine

/-- Takes steps up to a new link, or until nothing is left to do. -/
def advance (table : Table) (config : Config) (m : Machine) : Rest :=
  match h : m.work table config with
  | .idle m' => .drained m'
  | .moved m' =>
    have := weight_lt_of_work_moved h
    m'.advance table config
  | .linked m' => .linked m'
  | .failed e m' => .failed e m'
termination_by m.weight table

/-- Takes steps until nothing is left to do, adding fewer than `room` links. -/
def drain (table : Table) (config : Config) : (room : Nat) → Machine → Except Failure Machine
  | 0, m => .error ⟨.linksExhausted, m⟩
  | room + 1, m =>
    match m.advance table config with
    | .drained m => .ok m
    | .linked m => drain table config room m
    | .failed e m => .error ⟨e, m⟩

/-- More than the links that can be added at one point: at most one leads from the node of each
state to each node, and there is at most one more node for each state. -/
def room (table : Table) (m : Machine) : Nat :=
  table.states.length * (m.graph.nodes.size + table.states.length) + 1

/-- Makes a point the current one. -/
def read (m : Machine) (token : UInt32) (cursor : Cursor) : Machine :=
  { m with token, cursor }.record (.reading token m.cursor.position)

/-- The active node of a state, added if there is none. -/
def ensureActive (m : Machine) (state : StateId) : NodeId × Machine :=
  match m.generation.node? state with
  | some n => (n, m)
  | none => m.addActive state

/-- One shift to the next point.  A node all of whose links are rejected is not shifted, for no
accepting path can lead through it. -/
def shiftNode (leaf : TreeId) (m : Machine) (s : Shift) : Machine :=
  if m.graph.allRejected s.source then m
  else
    let (n, m) := m.ensureActive s.target
    match m.graph.findLink? n s.source with
    | some _ => m
    | none => { m with graph := (m.graph.addLink n s.source leaf).2 }

/-- Starts the next generation with the shifts that are due.  All new links share one leaf. -/
def shift (m : Machine) : Machine :=
  let token := m.token
  let shifts := m.generation.shifts
  let m := { m with generation := { level := m.generation.level + 1 } }
  if shifts.isEmpty then m
  else
    -- the leaf is there even if every shift turns out to be rejected
    let (leaf, forest) := m.forest.leaf token
    let m := shifts.foldl (shiftNode leaf) { m with forest }
    m.record (.shifted token m.generation.active.length)

/-- Goes through the next `count` points of the input, as long as a node is active. -/
def scan (table : Table) (config : Config) : (count : Nat) → Machine → Except Failure Machine
  | 0, m => .ok m
  | count + 1, m =>
    match m.cursor.read? with
    | none => .ok m
    | some (token, cursor) =>
      match (m.read token cursor).drain table config (m.room table) with
      | .error failure => .error failure
      | .ok m =>
        let m := m.shift
        if m.generation.active.isEmpty then .ok (m.record (.stranded m.cursor.position))
        else m.scan table config count

end Machine

end ScannerlessLR
