/-
The graph-structured stack.  A node is a state of the automaton at a position of
the input; a link leads from a node to one below it on the stack and carries the
tree recognized in between.  A link can be rejected, for good.

* `StackGraph.linksFrom` — the links that leave a node, newest first;
* `StackGraph.addNode`, `StackGraph.addLink`, `StackGraph.reject` — the changes;
* `StackGraph.allRejected` — a node that every derivation to which is rejected.
-/
import ScannerlessLR.Forest.Basic

namespace ScannerlessLR

/-- The number of a node, from 0 in order of creation. -/
abbrev NodeId := Nat

/-- The number of a link, from 0 in order of creation. -/
abbrev LinkId := Nat

/-- A state at a position of the input. -/
structure Node where
  state : StateId
  /-- The number of points in front of the position. -/
  level : Nat := 0
  /-- The links that leave the node, newest first, with the nodes they lead to. -/
  below : List (LinkId × NodeId) := []
  deriving DecidableEq, Repr

/-- What a link carries. -/
structure Link where
  /-- What was recognized between the two nodes. -/
  tree : TreeId
  rejected : Bool := false
  deriving DecidableEq, Repr

/-- All stacks of a parse, merged where they agree. -/
structure StackGraph where
  nodes : Array Node := #[]
  links : Array Link := #[]
  deriving DecidableEq, Repr

namespace StackGraph

/-- The state of a node. -/
def state? (g : StackGraph) (n : NodeId) : Option StateId :=
  g.nodes[n]?.map Node.state

/-- The tree on a link. -/
def tree? (g : StackGraph) (l : LinkId) : Option TreeId :=
  g.links[l]?.map Link.tree

/-- Whether a link is rejected. -/
def isRejected (g : StackGraph) (l : LinkId) : Bool :=
  g.links[l]?.any Link.rejected

/-- The links that leave `n`, newest first, with the nodes they lead to. -/
def linksFrom (g : StackGraph) (n : NodeId) : List (LinkId × NodeId) :=
  g.nodes[n]?.elim [] Node.below

/-- The links that leave `n` and are not rejected, newest first. -/
def liveLinks (g : StackGraph) (n : NodeId) : List (LinkId × NodeId) :=
  (g.linksFrom n).filter fun (l, _) => !g.isRejected l

/-- The link from one node to another. -/
def findLink? (g : StackGraph) (source target : NodeId) : Option LinkId :=
  ((g.linksFrom source).find? fun (_, below) => below = target).map Prod.fst

/-- The nodes that a link leaves and leads to. -/
def endpoints? (g : StackGraph) (l : LinkId) : Option (NodeId × NodeId) :=
  (List.range g.nodes.size).findSome? fun source =>
    ((g.linksFrom source).lookup l).map fun target => (source, target)

/-- Whether a node has links and all of them are rejected.  A node without links is none such. -/
def allRejected (g : StackGraph) (n : NodeId) : Bool :=
  let links := g.linksFrom n
  !links.isEmpty && links.all fun (l, _) => g.isRejected l

/-- A new node and its number. -/
def addNode (g : StackGraph) (state : StateId) (level : Nat := 0) : NodeId × StackGraph :=
  (g.nodes.size, { g with nodes := g.nodes.push { state, level } })

/-- A new link and its number. -/
def addLink (g : StackGraph) (source target : NodeId) (tree : TreeId) : LinkId × StackGraph :=
  let l := g.links.size
  (l, {
    nodes := g.nodes.modify source fun node => { node with below := (l, target) :: node.below }
    links := g.links.push { tree } })

/-- A new link, unless one of its ends does not exist or the two are linked already. -/
def addLink? (g : StackGraph) (source target : NodeId) (tree : TreeId) :
    Option (LinkId × StackGraph) :=
  if source < g.nodes.size ∧ target < g.nodes.size ∧ g.findLink? source target = none then
    some (g.addLink source target tree)
  else none

/-- Rejects a link. -/
def reject (g : StackGraph) (l : LinkId) : StackGraph :=
  { g with links := g.links.modify l fun link => { link with rejected := true } }

/-- Puts another tree on a link. -/
def setTree (g : StackGraph) (l : LinkId) (tree : TreeId) : StackGraph :=
  { g with links := g.links.modify l fun link => { link with tree } }

end StackGraph

end ScannerlessLR
