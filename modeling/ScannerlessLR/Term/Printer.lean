/-
The written form of a term: arguments and items separated by a comma and a
space, strings in double quotes, and no parentheses on an application without
arguments.

* `Term.chars` — the characters of the written form;
* `Term.text` — the same as a string.
-/
import ScannerlessLR.Term.Basic
import ScannerlessLR.Text

namespace ScannerlessLR

namespace Term

/-- A character as it stands inside a quoted string. -/
def escape (c : Char) : List Char :=
  match c with
  | '\n' => ['\\', 'n']
  | '\r' => ['\\', 'r']
  | '\t' => ['\\', 't']
  | '"' => ['\\', '"']
  | '\\' => ['\\', '\\']
  | c => [c]

mutual

/-- The written form of a term. -/
def chars : Term → List Char
  | .str s => '"' :: s.toList.flatMap escape ++ ['"']
  | .int n => decimal n.toNat
  | .list ts => '[' :: charsOfList ts ++ [']']
  | .application f [] => f.toList
  | .application f (t :: ts) => f.toList ++ '(' :: charsOfList (t :: ts) ++ [')']

/-- The written forms of several terms, separated by a comma and a space. -/
def charsOfList : List Term → List Char
  | [] => []
  | [t] => t.chars
  | t :: u :: ts => t.chars ++ ',' :: ' ' :: charsOfList (u :: ts)

end

/-- The written form of a term, as a string. -/
def text (t : Term) : String :=
  String.ofList t.chars

instance : ToString Term := ⟨text⟩

end Term

end ScannerlessLR
