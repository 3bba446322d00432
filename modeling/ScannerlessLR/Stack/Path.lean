/-
Paths down the stack.

All paths of one length are kept while they grow link by link at the bottom, so they come
in the order of their topmost links, then of the next, newest links first.  The search for
a path of links that are not rejected goes depth first, newest links first too, and enters
no node twice, so it ends on cyclic graphs.

* `StackGraph.paths` — the paths of a given length from a node;
* `StackGraph.livePath?` — a path to a node along links that are not rejected.
-/
import ScannerlessLR.Stack.Graph

namespace ScannerlessLR

/-! ### Paths of one length -/

/-- A path down the stack: its links, topmost first, and the node in which it ends. -/
structure Path where
  links : List LinkId
  bottom : NodeId
  deriving DecidableEq, Repr

/-- A path that is still growing, its links lowest first. -/
structure Descent where
  taken : List LinkId
  bottom : NodeId
  deriving DecidableEq, Repr

namespace Descent

/-- The descents one link longer. -/
def extend (g : StackGraph) (d : Descent) : List Descent :=
  (g.linksFrom d.bottom).map fun (l, below) => ⟨l :: d.taken, below⟩

/-- The path of a descent. -/
def path (d : Descent) : Path :=
  ⟨d.taken.reverse, d.bottom⟩

end Descent

namespace StackGraph

/-- The descents `length` links longer than the given ones. -/
def descend (g : StackGraph) : (length : Nat) → List Descent → List Descent
  | 0, ds => ds
  | _ + 1, [] => []
  | length + 1, d :: ds => descend g length ((d :: ds).flatMap (·.extend g))

/-- All paths of exactly `length` links from `n`. -/
def paths (g : StackGraph) (n : NodeId) (length : Nat) : List Path :=
  (g.descend length [⟨[], n⟩]).map Descent.path

end StackGraph

/-! ### Paths without rejected links -/

/-- What a search has come to: the nodes it has entered, and the links it has found, topmost
first. -/
structure Search where
  entered : List NodeId
  found : Option (List LinkId)
  deriving DecidableEq, Repr

namespace StackGraph

/-- Searches for `goal` behind each of the given links in turn; `enter` searches below a node. -/
def searchLinks (enter : List NodeId → NodeId → Search) (goal : NodeId) :
    List (LinkId × NodeId) → List NodeId → Search
  | [], entered => ⟨entered, none⟩
  | (l, below) :: rest, entered =>
    if below = goal then ⟨entered, some [l]⟩
    else if below ∈ entered then searchLinks enter goal rest entered
    else
      match enter (below :: entered) below with
      | ⟨entered, some links⟩ => ⟨entered, some (l :: links)⟩
      | ⟨entered, none⟩ => searchLinks enter goal rest entered

/-- Searches for `goal` below `n`, entering nodes no deeper than `depth`. -/
def searchBelow (g : StackGraph) (goal : NodeId) : (depth : Nat) → List NodeId → NodeId → Search
  | 0, entered, _ => ⟨entered, none⟩
  | depth + 1, entered, n => searchLinks (searchBelow g goal depth) goal (g.liveLinks n) entered

/-- A path from `n` to `goal` of links that are not rejected, topmost first.  No node is entered
twice, so none lies deeper than there are nodes. -/
def livePath? (g : StackGraph) (n goal : NodeId) : Option (List LinkId) :=
  if n = goal then some [] else (g.searchBelow goal g.nodes.size [n] n).found

end StackGraph

end ScannerlessLR
