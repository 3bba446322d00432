/-
Generic term trees, the notation in which parse tables are serialized.

A term is a string, an unsigned 32-bit integer, a list, or a named application
such as `shift(3)` or `accept`.
-/
namespace ScannerlessLR

/-- A term tree. -/
inductive Term where
  | str (value : String)
  | int (value : UInt32)
  | list (items : List Term)
  | application (name : String) (arguments : List Term)
  deriving Inhabited, Repr

namespace Term

mutual

/-- Equality of terms is decided node by node. -/
def decEq : (t u : Term) → Decidable (t = u)
  | .str s, .str s' =>
    if h : s = s' then isTrue (h ▸ rfl) else isFalse fun e => h (str.inj e)
  | .int n, .int n' =>
    if h : n = n' then isTrue (h ▸ rfl) else isFalse fun e => h (int.inj e)
  | .list ts, .list us =>
    match decEqList ts us with
    | isTrue h => isTrue (h ▸ rfl)
    | isFalse h => isFalse fun e => h (list.inj e)
  | .application f ts, .application g us =>
    if hf : f = g then
      match decEqList ts us with
      | isTrue h => isTrue (hf ▸ h ▸ rfl)
      | isFalse h => isFalse fun e => h (application.inj e).2
    else isFalse fun e => hf (application.inj e).1
  | .str _, .int _ | .str _, .list _ | .str _, .application _ _ => isFalse nofun
  | .int _, .str _ | .int _, .list _ | .int _, .application _ _ => isFalse nofun
  | .list _, .str _ | .list _, .int _ | .list _, .application _ _ => isFalse nofun
  | .application _ _, .str _ | .application _ _, .int _ | .application _ _, .list _ =>
    isFalse nofun

/-- Equality of lists of terms. -/
def decEqList : (ts us : List Term) → Decidable (ts = us)
  | [], [] => isTrue rfl
  | [], _ :: _ | _ :: _, [] => isFalse nofun
  | t :: ts, u :: us =>
    match decEq t u with
    | isTrue h =>
      match decEqList ts us with
      | isTrue h' => isTrue (h ▸ h' ▸ rfl)
      | isFalse h' => isFalse fun e => h' (List.cons.inj e).2
    | isFalse h => isFalse fun e => h (List.cons.inj e).1

end

instance : DecidableEq Term := decEq

/-- An application without arguments. -/
def constant (name : String) : Term :=
  .application name []

end Term

/-- A name starts with an ASCII letter. -/
def isNameStart (c : Char) : Bool :=
  c.isAlpha

/-- A name goes on with ASCII letters, digits and the marks `_ - * $ +`. -/
def isNameChar (c : Char) : Bool :=
  c.isAlphanum || c = '_' || c = '-' || c = '*' || c = '$' || c = '+'

/-- The characters that may stand between the parts of a term. -/
def isBlank (c : Char) : Bool :=
  c = ' ' || c = '\t' || c = '\r' || c = '\n'

end ScannerlessLR
