/-
The steps of a parse at one point of the input.

* `Machine.apply` — a reduction along one path;
* `Machine.perform` — one task;
* `Machine.dispatch` — the actions of one node, put on the agenda;
* `Machine.work` — the next step.
-/
import ScannerlessLR.Parser.Machine

namespace ScannerlessLR

/-- What has come of a step. -/
inductive Progress where
  /-- There was nothing left to do. -/
  | idle (machine : Machine)
  /-- A step without a new link. -/
  | moved (machine : Machine)
  /-- A step with a new link. -/
  | linked (machine : Machine)
  | failed (error : ParseError) (machine : Machine)

namespace Machine

/-- Links an active node down to the end of a path.  The reductions of all nodes whose actions
have been taken are taken again over the link, before it may be rejected. -/
def link (m : Machine) (source : NodeId) (sourceState : StateId) (target : NodeId)
    (targetState : StateId) (tree : TreeId) (rejecting : Bool) : Machine :=
  let (l, graph) := m.graph.addLink source target tree
  let revisits := m.generation.processed.map (Task.revisit · l)
  let rejection := if rejecting then [Task.reject l sourceState targetState] else []
  { m with graph }.push (revisits ++ rejection)

/-- Adds an active node of a state at the current point. -/
def addActive (m : Machine) (state : StateId) : NodeId × Machine :=
  let (n, graph) := m.graph.addNode state m.generation.level
  (n, { m with graph, generation := m.generation.activate state n })

/-- Packs a further derivation into the tree of a link. -/
def pack (m : Machine) (l : LinkId) (sourceState targetState : StateId) (tree : TreeId)
    (rejecting : Bool) : Machine :=
  let rejection := if rejecting then [Task.reject l sourceState targetState] else []
  let forest :=
    match m.graph.tree? l with
    | none => m.forest
    | some existing => m.forest.pack existing tree
  ({ m with forest }.record (.ambiguous sourceState targetState)).push rejection

/-- Takes the tree of a reduction along `path` to the active node of the state `target`. -/
def join (m : Machine) (path : Path) (bottom target : StateId) (tree : TreeId)
    (rejecting : Bool) : Progress :=
  match m.generation.node? target with
  | none =>
    -- a new node has no links yet
    let (n, m) := m.addActive target
    .linked (m.link n target path.bottom bottom tree rejecting)
  | some n =>
    match m.graph.findLink? n path.bottom with
    | none => .linked (m.link n target path.bottom bottom tree rejecting)
    | some l => .moved (m.pack l target bottom tree rejecting)

/-- Records a reduction along a path and builds its tree. -/
def build (m : Machine) (a : Application) : TreeId × Machine :=
  let children := a.links.reverse.filterMap m.graph.tree?
  let (tree, forest) := m.forest.apply a.reduction.label children
  (tree, { m with
    forest
    generation := { m.generation with applied := a :: m.generation.applied } })

/-- Reduces along one path. -/
def apply (table : Table) (config : Config) (m : Machine) (node : NodeId) (r : Reduction)
    (rejecting : Bool) (path : Path) : Progress :=
  let a : Application := ⟨path.links, node, r⟩
  if config.deduplicate ∧ a ∈ m.generation.applied then .moved m
  else
    let (tree, m) := m.build a
    match m.graph.state? path.bottom with
    | none => .moved m -- only if the path leads nowhere
    | some bottom =>
      match table.state? bottom with
      | none => .failed (.unknownState bottom) m
      | some s =>
        match s.goto? r.label with
        | none => .failed (.missingGoto bottom r.label) m
        | some target =>
          (m.record (.reduced r.label r.arity bottom target)).join path bottom target tree
            rejecting

/-- Finds the paths of a reduction. -/
def reduce (table : Table) (m : Machine) (node : NodeId) (r : Reduction)
    (through : Option LinkId) : Progress :=
  match table.label? r.label with
  | none => .failed (.unknownLabel r.label) m
  | some label =>
    if label.isUnsupported then .moved (m.record (.skipped r.label))
    else
      let paths := (m.graph.paths node r.arity).filter fun p => through.all (· ∈ p.links)
      let rejecting := r.status = .reject || label.has .reject
      .moved (m.push (paths.map (.apply node r rejecting ·)))

/-- Checks the points ahead of the current one. -/
def check (m : Machine) (node : NodeId) (r : Reduction) (forbidden : List RangeSet)
    (through : Option LinkId) : Machine :=
  let found := m.cursor.checkFollow forbidden
  let reductions := if found.permitted then [Task.reduce node r through] else []
  ({ m with cursor := found.cursor }.record (.followChecked found.read found.permitted)).push
    reductions

/-- Takes the reductions of a node again, over a new link, unless all its links are rejected. -/
def revisit (table : Table) (m : Machine) (node : NodeId) (l : LinkId) : Progress :=
  if m.graph.allRejected node then .moved m
  else
    match m.items? table node with
    | .error e => .failed e m
    | .ok none => .moved m
    | .ok (some (_, items)) => .moved (m.push (items.filterMap (·.reductionTask? node (some l))))

/-- One task. -/
def perform (table : Table) (config : Config) (m : Machine) : Task → Progress
  | .accept node state => .moved { m.record (.accepted state) with accepting := some node }
  | .shift node target =>
    .moved { m with
      generation := { m.generation with shifts := m.generation.shifts ++ [⟨node, target⟩] } }
  | .check node r forbidden through => .moved (m.check node r forbidden through)
  | .reduce node r through => m.reduce table node r through
  | .apply node r rejecting path => m.apply table config node r rejecting path
  | .revisit node l => m.revisit table node l
  | .reject l source target =>
    .moved { m.record (.rejected source target) with graph := m.graph.reject l }

/-- Puts the actions of a node on the agenda.  A node all of whose links are rejected may still
accept, so that a rejected parse can be told from none, but does nothing else. -/
def dispatch (table : Table) (m : Machine) (node : NodeId) : Progress :=
  match m.items? table node with
  | .error e => .failed e m
  | .ok none => .moved m
  | .ok (some (state, items)) =>
    -- what is rejected later, while the tasks are done, does not stop them
    let rejected := m.graph.allRejected node
    let items := if rejected then items.filter (· = .accept) else items
    .moved ((m.record (.processing state rejected)).push (items.map (·.task node state)))

/-- The next step: the first task, or else the actions of the first node of the queue. -/
def work (table : Table) (config : Config) (m : Machine) : Progress :=
  match m.agenda, m.generation.queue with
  | t :: agenda, _ => { m with agenda }.perform table config t
  | [], n :: queue =>
    { m with generation := {
        m.generation with queue, processed := m.generation.processed ++ [n] } }.dispatch table n
  | [], [] => .idle m

end Machine

end ScannerlessLR
