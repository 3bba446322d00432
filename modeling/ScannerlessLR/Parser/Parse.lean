/-
Parsing a text with a table.

* `parse` — the parse of a text, or why there is none, with the events;
* `Parse.tree?`, `Parse.trees` — what has been recognized.
-/
import ScannerlessLR.Parser.Run
import ScannerlessLR.Stack.Path

namespace ScannerlessLR

/-- A successful parse. -/
structure Parse where
  graph : StackGraph
  forest : Forest
  /-- Links that are not rejected, from the accepting node down to the root. -/
  path : List LinkId
  deriving DecidableEq, Repr

namespace Parse

/-- The tree on the topmost link of the path.  There is none if the start state accepts. -/
def tree? (p : Parse) : Option TreeId :=
  p.path.head?.bind p.graph.tree?

/-- The trees along the path, bottom first. -/
def trees (p : Parse) : List TreeId :=
  p.path.reverse.filterMap p.graph.tree?

end Parse

/-- What has come of parsing a text. -/
structure Report where
  /-- The events, oldest first. -/
  events : List Event
  result : Except ParseError Parse

/-- The node of the start state in front of the first point. -/
def rootNode : NodeId := 0

namespace Machine

/-- The outcome of a machine that has gone through the input. -/
def conclude (m : Machine) : Report :=
  match m.accepting with
  | none => ⟨m.events.reverse, .error .noAcceptingDerivation⟩
  | some n =>
    match m.graph.livePath? n rootNode with
    | none => ⟨m.events.reverse, .error .allPathsRejected⟩
    | some path =>
      let m := m.record (.succeeded m.graph.nodes.size m.graph.links.size m.forest.size)
      ⟨m.events.reverse, .ok ⟨m.graph, m.forest, path⟩⟩

end Machine

/-- Parses a sequence of points, of which the last is the end-of-input marker. -/
def parsePoints (table : Table) (config : Config) (points : Array UInt32) : Report :=
  match (Machine.initial table config points).scan table config points.size with
  | .error failure => ⟨failure.machine.events.reverse, .error failure.error⟩
  | .ok m => m.conclude

/-- The points of a text and the end-of-input marker behind them. -/
def inputPoints (config : Config) (input : List Char) : Array UInt32 :=
  (input.map Char.val ++ [config.endOfInput]).toArray

/-- Parses a text.  The end-of-input marker must not occur in it. -/
def parse (table : Table) (input : String) (config : Config := {}) : Report :=
  match input.toList.findIdx? (·.val = config.endOfInput) with
  | some position => ⟨[], .error (.reservedCharacter position)⟩
  | none => parsePoints table config (inputPoints config input.toList)

end ScannerlessLR
