/-
Reading a term from its written form, one character at a time.

The reader is a pushdown automaton: `mode` says what it is in the middle of, and
`frames` holds the lists and applications that are still open, innermost first.
A character either leads to a next reader or is refused for good, so a fault is
reported at the first character after which no continuation could be a term.

* `Reader.feed` — one character;
* `Reader.finish` — the end of the text;
* `Term.parse` — a whole text, blanks allowed on both sides.
-/
import ScannerlessLR.Term.Basic
import ScannerlessLR.Text

namespace ScannerlessLR

/-- Why a text is not a term.  Offsets count bytes of the text's UTF-8 form. -/
inductive TermError where
  | unexpectedEnd
  | unexpectedChar (found : Char) (offset : Nat)
  /-- An integer of 2³² or more, by the offset of its first digit. -/
  | integerOverflow (offset : Nat)
  /-- A term followed by something that is not blank. -/
  | trailingInput (offset : Nat)
  deriving DecidableEq, Repr

/-- The wording of a fault. -/
def TermError.message : TermError → String
  | .unexpectedEnd => "unexpected end of input"
  | .unexpectedChar found offset =>
    "unexpected character " ++ String.ofList (quotedChar found) ++ s!" at offset {offset}"
  | .integerOverflow offset => s!"integer out of range at offset {offset}"
  | .trailingInput offset => s!"trailing input at offset {offset}"

instance : ToString TermError := ⟨TermError.message⟩

/-- A list or an application that is still open, with its items so far, newest first. -/
inductive Frame where
  | list (items : List Term)
  | application (name : String) (arguments : List Term)
  deriving Repr

namespace Frame

/-- The bracket that ends the frame. -/
def closer : Frame → Char
  | .list _ => ']'
  | .application .. => ')'

/-- The frame with one more item. -/
def add (t : Term) : Frame → Frame
  | .list ts => .list (t :: ts)
  | .application f ts => .application f (t :: ts)

/-- The term that the frame becomes when it is closed. -/
def close : Frame → Term
  | .list ts => .list ts.reverse
  | .application f ts => .application f ts.reverse

end Frame

/-- What the reader is in the middle of.  Characters read so far are kept newest first. -/
inductive Mode where
  /-- An element has to come: at the start of the text and after a comma. -/
  | element
  /-- Behind an opening bracket: an element or the closing bracket. -/
  | first
  | string (read : List Char)
  /-- In a string, behind a backslash. -/
  | escape (read : List Char)
  | name (read : List Char)
  /-- An integer and the offset of its first digit. -/
  | number (value : Nat) (offset : Nat)
  | complete (term : Term)
  deriving Repr

/-- The state of reading between two characters. -/
structure Reader where
  mode : Mode := .element
  /-- The open lists and applications, innermost first. -/
  frames : List Frame := []
  /-- The number of bytes read. -/
  offset : Nat := 0
  deriving Repr

namespace Reader

/-- What a backslash and `c` stand for, newest character first.  A backslash before any other
character stands for itself. -/
def unescape (c : Char) : List Char :=
  match c with
  | 'n' => ['\n']
  | 'r' => ['\r']
  | 't' => ['\t']
  | '"' => ['"']
  | '\\' => ['\\']
  | c => [c, '\\']

/-- The string whose characters have been read, newest first. -/
def spelled (read : List Char) : String :=
  String.ofList read.reverse

/-- The reader behind `c`, in a new mode. -/
def next (r : Reader) (c : Char) (mode : Mode) (frames : List Frame := r.frames) : Reader :=
  ⟨mode, frames, r.offset + c.utf8Size⟩

/-- The first character of an element. -/
def openElement (r : Reader) (c : Char) : Except TermError Reader :=
  if c = '"' then .ok (r.next c (.string []))
  else if c = '[' then .ok (r.next c .first (.list [] :: r.frames))
  else if isNameStart c then .ok (r.next c (.name [c]))
  else if c.isDigit then .ok (r.next c (.number (digitValue c) r.offset))
  else .error (.unexpectedChar c r.offset)

/-- A character behind the element `t`. -/
def follow (r : Reader) (t : Term) (c : Char) : Except TermError Reader :=
  if isBlank c then .ok (r.next c (.complete t))
  else
    match r.frames with
    | [] => .error (.trailingInput r.offset)
    | f :: fs =>
      if c = ',' then .ok (r.next c .element (f.add t :: fs))
      else if c = f.closer then .ok (r.next c (.complete (f.add t).close) fs)
      else .error (.unexpectedChar c r.offset)

/-- One character. -/
def feed (r : Reader) (c : Char) : Except TermError Reader :=
  match r.mode with
  | .element => if isBlank c then .ok (r.next c .element) else r.openElement c
  | .first =>
    if isBlank c then .ok (r.next c .first)
    else
      match r.frames with
      | [] => r.openElement c
      | f :: fs => if c = f.closer then .ok (r.next c (.complete f.close) fs) else r.openElement c
  | .string read =>
    if c = '"' then .ok (r.next c (.complete (.str (spelled read))))
    else if c = '\\' then .ok (r.next c (.escape read))
    else .ok (r.next c (.string (c :: read)))
  | .escape read => .ok (r.next c (.string (unescape c ++ read)))
  | .name read =>
    if isNameChar c then .ok (r.next c (.name (c :: read)))
    else if c = '(' then .ok (r.next c .first (.application (spelled read) [] :: r.frames))
    else r.follow (.constant (spelled read)) c
  | .number value start =>
    if c.isDigit then .ok (r.next c (.number (10 * value + digitValue c) start))
    -- an integer out of range is a fault whatever comes behind it
    else if value < UInt32.size then r.follow (.int (.ofNat value)) c
    else .error (.integerOverflow start)
  | .complete t => r.follow t c

/-- The end of the text behind the element `t`. -/
def finishElement (r : Reader) (t : Term) : Except TermError Term :=
  if r.frames.isEmpty then .ok t else .error .unexpectedEnd

/-- The end of the text.  A name and an integer end with it. -/
def finish (r : Reader) : Except TermError Term :=
  match r.mode with
  | .complete t => r.finishElement t
  | .name read => r.finishElement (.constant (spelled read))
  | .number value start =>
    if value < UInt32.size then r.finishElement (.int (.ofNat value))
    else .error (.integerOverflow start)
  | .element | .first | .string _ | .escape _ => .error .unexpectedEnd

end Reader

/-- The term written in a list of characters. -/
def Term.parseChars (cs : List Char) : Except TermError Term :=
  cs.foldlM Reader.feed {} >>= Reader.finish

/-- The term written in a text. -/
def Term.parse (text : String) : Except TermError Term :=
  parseChars text.toList

end ScannerlessLR
