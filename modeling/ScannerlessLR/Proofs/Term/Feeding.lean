/-
What a character does to the reader of a term.

All that reading can do is said once, in `Feeds`: which readers a character leads on
from, where to, and which it is a fault for.  What is true of the reader behind a text
then follows by induction on the text.

* `Feeds` — the outcome of one character, case by case;
* `Reads` — the reader behind a text;
* `element?` — the element that may end where the reader is;
* `parseChars_eq_ok_iff`, `parseChars_eq_error_cases` — parsing in terms of the reader behind a
  text.
-/
import Mathlib.Data.String.Basic
import ScannerlessLR.Term.Reader

namespace ScannerlessLR

namespace Reader

/-- An element may come. -/
def Awaits (r : Reader) : Prop :=
  r.mode = .element ∨ r.mode = .first

/-- The element that may end here. -/
def element? (r : Reader) : Option Term :=
  match r.mode with
  | .complete t => some t
  | .name read => some (.constant (spelled read))
  | .number value _ => if value < UInt32.size then some (.int (.ofNat value)) else none
  | .element | .first | .string _ | .escape _ => none

/-- The character goes on with the name or the integer that is being read, or opens the arguments
of the name. -/
def Continues (r : Reader) (c : Char) : Prop :=
  match r.mode with
  | .name _ => isNameChar c = true ∨ c = '('
  | .number _ _ => c.isDigit = true
  | _ => False

/-- An integer out of range is being read. -/
def Overflows (r : Reader) : Prop :=
  ∃ value start, r.mode = .number value start ∧ UInt32.size ≤ value

/-- The outcome of one character. -/
inductive Feeds (r : Reader) (c : Char) : Except TermError Reader → Prop
  | blank : r.Awaits → isBlank c = true → Feeds r c (.ok (r.next c r.mode))
  | quote : r.Awaits → c = '"' → Feeds r c (.ok (r.next c (.string [])))
  | bracket : r.Awaits → c = '[' → Feeds r c (.ok (r.next c .first (.list [] :: r.frames)))
  | letter : r.Awaits → isNameStart c = true → Feeds r c (.ok (r.next c (.name [c])))
  | digit : r.Awaits → c.isDigit = true →
    Feeds r c (.ok (r.next c (.number (digitValue c) r.offset)))
  | empty (f : Frame) (fs : List Frame) : r.mode = .first → r.frames = f :: fs → c = f.closer →
    Feeds r c (.ok (r.next c (.complete f.close) fs))
  | noElement : r.Awaits → Feeds r c (.error (.unexpectedChar c r.offset))
  | endString (read : List Char) : r.mode = .string read → c = '"' →
    Feeds r c (.ok (r.next c (.complete (.str (spelled read)))))
  | backslash (read : List Char) : r.mode = .string read → c = '\\' →
    Feeds r c (.ok (r.next c (.escape read)))
  | plain (read : List Char) : r.mode = .string read → c ≠ '"' → c ≠ '\\' →
    Feeds r c (.ok (r.next c (.string (c :: read))))
  | escaped (read : List Char) : r.mode = .escape read →
    Feeds r c (.ok (r.next c (.string (unescape c ++ read))))
  | nameChar (read : List Char) : r.mode = .name read → isNameChar c = true →
    Feeds r c (.ok (r.next c (.name (c :: read))))
  | parenthesis (read : List Char) : r.mode = .name read → c = '(' →
    Feeds r c (.ok (r.next c .first (.application (spelled read) [] :: r.frames)))
  | moreDigits (value start : ℕ) : r.mode = .number value start → c.isDigit = true →
    Feeds r c (.ok (r.next c (.number (10 * value + digitValue c) start)))
  | overflow (value start : ℕ) : r.mode = .number value start → UInt32.size ≤ value →
    c.isDigit = false → Feeds r c (.error (.integerOverflow start))
  | after (t : Term) : r.element? = some t → isBlank c = true →
    Feeds r c (.ok (r.next c (.complete t)))
  | comma (t : Term) (f : Frame) (fs : List Frame) : r.element? = some t → r.frames = f :: fs →
    c = ',' → Feeds r c (.ok (r.next c .element (f.add t :: fs)))
  | close (t : Term) (f : Frame) (fs : List Frame) : r.element? = some t → r.frames = f :: fs →
    c = f.closer → Feeds r c (.ok (r.next c (.complete (f.add t).close) fs))
  | trailing (t : Term) : r.element? = some t → r.frames = [] →
    Feeds r c (.error (.trailingInput r.offset))
  | noFollow (t : Term) : r.element? = some t → r.frames ≠ [] →
    Feeds r c (.error (.unexpectedChar c r.offset))

variable {r r' r'' : Reader} {c : Char} {cs ds : List Char} {t : Term} {e : TermError}

theorem feeds_openElement (h : r.Awaits) : Feeds r c (r.openElement c) := by
  rw [openElement]
  split
  · exact .quote h ‹_›
  split
  · exact .bracket h ‹_›
  split
  · exact .letter h ‹_›
  split
  · exact .digit h ‹_›
  · exact .noElement h

theorem feeds_follow (h : r.element? = some t) : Feeds r c (r.follow t c) := by
  rw [follow]
  split
  · exact .after t h ‹_›
  split
  · exact .trailing t h ‹_›
  · rename_i f fs hf
    split
    · exact .comma t f fs h hf ‹_›
    split
    · exact .close t f fs h hf ‹_›
    · exact .noFollow t h (by simp [hf])

theorem feeds_feed (r : Reader) (c : Char) : Feeds r c (r.feed c) := by
  rw [feed]
  -- an element is awaited, and blanks may come first
  split
  · rename_i hm
    split
    · rw [← hm]
      exact .blank (.inl hm) ‹_›
    · exact feeds_openElement (.inl hm)
  -- it is awaited right behind an opening bracket, so that the closing one may come, too
  · rename_i hm
    split
    · rw [← hm]
      exact .blank (.inr hm) ‹_›
    split
    · exact feeds_openElement (.inr hm)
    · split
      · exact .empty _ _ hm ‹_› ‹_›
      · exact feeds_openElement (.inr hm)
  · split
    · exact .endString _ ‹_› ‹_›
    split
    · exact .backslash _ ‹_› ‹_›
    · exact .plain _ ‹_› ‹_› ‹_›
  · exact .escaped _ ‹_›
  -- what is no part of a name or of an integer ends it, and comes behind the element
  · split
    · exact .nameChar _ ‹_› ‹_›
    split
    · exact .parenthesis _ ‹_› ‹_›
    · exact feeds_follow (by simp [element?, *])
  · split
    · exact .moreDigits _ _ ‹_› ‹_›
    split
    · exact feeds_follow (by simp [element?, *])
    · exact .overflow _ _ ‹_› (Nat.not_lt.mp ‹_›) (by simpa using ‹¬c.isDigit = true›)
  · exact feeds_follow (by simp [element?, *])

/-! ### What a character leads to -/

theorem feed_blank (h : r.Awaits) (hc : isBlank c = true) : r.feed c = .ok (r.next c r.mode) := by
  rcases h with hm | hm <;> simp [feed, hm, hc]

/-- A character that is neither blank nor a closing bracket has to open an element. -/
theorem feed_opening (h : r.Awaits) (hc : isBlank c = false) (hlist : c ≠ ']')
    (happlication : c ≠ ')') : r.feed c = r.openElement c := by
  have hcloser : ∀ f : Frame, c ≠ f.closer := by
    intro f
    cases f with
    | list => exact hlist
    | application => exact happlication
  rcases h with hm | hm
  · simp [feed, hm, hc]
  · cases hf : r.frames with
    | nil => simp [feed, hm, hf, hc]
    | cons f fs => simp [feed, hm, hf, hc, hcloser f]

/-- The characters of a class open elements, or none does, if the class holds no blank and no
closing bracket. -/
theorem feed_of_class (p : Char → Bool) (hp : [' ', '\t', '\r', '\n', ']', ')'].any p = false)
    (h : r.Awaits) (hc : p c = true) : r.feed c = r.openElement c := by
  have hne : ∀ d, p d = false → c ≠ d := by
    rintro d hd rfl
    exact absurd (hc.symm.trans hd) (by simp)
  simp only [List.any_cons, List.any_nil, Bool.or_eq_false_iff] at hp
  obtain ⟨hspace, htab, hreturn, hline, hlist, happlication, -⟩ := hp
  refine feed_opening h ?_ (hne _ hlist) (hne _ happlication)
  simp only [isBlank, Bool.or_eq_false_iff, decide_eq_false_iff_not]
  exact ⟨⟨⟨hne _ hspace, hne _ htab⟩, hne _ hreturn⟩, hne _ hline⟩

theorem feed_quote (h : r.Awaits) : r.feed '"' = .ok (r.next '"' (.string [])) :=
  feed_of_class (· = '"') (by decide) h rfl

theorem feed_bracket (h : r.Awaits) :
    r.feed '[' = .ok (r.next '[' .first (.list [] :: r.frames)) :=
  feed_of_class (· = '[') (by decide) h rfl

theorem feed_letter (h : r.Awaits) (hc : isNameStart c = true) :
    r.feed c = .ok (r.next c (.name [c])) := by
  have hquote : c ≠ '"' := by
    rintro rfl
    exact absurd hc (by decide)
  have hbracket : c ≠ '[' := by
    rintro rfl
    exact absurd hc (by decide)
  rw [feed_of_class isNameStart (by decide) h hc, openElement, if_neg hquote, if_neg hbracket,
    if_pos hc]

/-- The digits come before the letters. -/
theorem isNameStart_of_isDigit (hc : c.isDigit = true) : isNameStart c = false := by
  have hdigit : c.val ≤ '9'.val := of_decide_eq_true (Bool.and_eq_true_iff.mp hc).2
  refine Bool.eq_false_iff.mpr fun h => ?_
  have hletter : 'A'.val ≤ c.val := by
    rcases Bool.or_eq_true_iff.mp h with hupper | hlower
    · exact (of_decide_eq_true hupper).1
    · have ha : 'a'.val ≤ c.val := of_decide_eq_true (Bool.and_eq_true_iff.mp hlower).1
      exact UInt32.le_trans (by decide) ha
  exact absurd (UInt32.le_trans hletter hdigit) (by decide)

theorem feed_digit (h : r.Awaits) (hc : c.isDigit = true) :
    r.feed c = .ok (r.next c (.number (digitValue c) r.offset)) := by
  have hquote : c ≠ '"' := by
    rintro rfl
    exact absurd hc (by decide)
  have hbracket : c ≠ '[' := by
    rintro rfl
    exact absurd hc (by decide)
  rw [feed_of_class Char.isDigit (by decide) h hc, openElement, if_neg hquote, if_neg hbracket,
    if_neg (by simp [isNameStart_of_isDigit hc]), if_pos hc]

theorem feed_follow (h : r.element? = some t) (hc : ¬ r.Continues c) :
    r.feed c = r.follow t c := by
  cases hm : r.mode with
  | element | first | string | escape => simp [element?, hm] at h
  | name read =>
    simp only [Continues, hm, not_or] at hc
    simp only [element?, hm, Option.some.injEq] at h
    simp [feed, hm, hc, h]
  | number value start =>
    simp only [Continues, hm] at hc
    simp only [element?, hm, Option.ite_none_right_eq_some, Option.some.injEq] at h
    simp [feed, hm, hc, h]
  | complete t' =>
    simp only [element?, hm, Option.some.injEq] at h
    simp [feed, hm, h]

/-- What comes behind an element goes on with none. -/
theorem not_continues (h : isNameChar c = false) (hc : c ≠ '(') : ¬ r.Continues c := by
  have hdigit : c.isDigit = false := by
    simp only [isNameChar, Char.isAlphanum, Bool.or_eq_false_iff] at h
    exact h.1.1.1.1.1.2
  rw [Continues]
  split <;> simp [h, hc, hdigit]

theorem not_continues_of_isBlank (h : isBlank c = true) (r : Reader) : ¬ r.Continues c := by
  simp only [isBlank, Bool.or_eq_true, decide_eq_true_eq] at h
  rcases h with ((rfl | rfl) | rfl) | rfl <;> exact not_continues (by decide) (by decide)

theorem offset_of_feed (h : r.feed c = .ok r') : r'.offset = r.offset + c.utf8Size := by
  have hf := feeds_feed r c
  rw [h] at hf
  cases hf <;> rfl

/-! ### The reader behind a text -/

/-- Reading a text leads from one reader to another. -/
def Reads (r : Reader) (cs : List Char) (r' : Reader) : Prop :=
  cs.foldlM feed r = .ok r'

@[simp] theorem reads_nil_iff : r.Reads [] r' ↔ r = r' := by
  rw [Reads, List.foldlM_nil]
  exact Except.ok.injEq r r' ▸ Iff.rfl

theorem reads_cons_iff : r.Reads (c :: cs) r'' ↔ ∃ r', r.feed c = .ok r' ∧ r'.Reads cs r'' := by
  rw [Reads, List.foldlM_cons]
  cases h : r.feed c with
  | error e => simp [bind, Except.bind]
  | ok r' => simp [bind, Except.bind, Reads]

theorem reads_append_iff :
    r.Reads (cs ++ ds) r'' ↔ ∃ r', r.Reads cs r' ∧ r'.Reads ds r'' := by
  induction cs generalizing r with
  | nil => simp
  | cons c cs ih =>
    simp only [List.cons_append, reads_cons_iff, ih]
    constructor
    · rintro ⟨r₁, h₁, r₂, h₂, h₃⟩
      exact ⟨r₂, ⟨r₁, h₁, h₂⟩, h₃⟩
    · rintro ⟨r₂, ⟨r₁, h₁, h₂⟩, h₃⟩
      exact ⟨r₁, h₁, r₂, h₂, h₃⟩

theorem reads_concat_iff :
    r.Reads (cs ++ [c]) r'' ↔ ∃ r', r.Reads cs r' ∧ r'.feed c = .ok r'' := by
  simp [reads_append_iff, reads_cons_iff]

theorem Reads.append (h : r.Reads cs r') (h' : r'.Reads ds r'') : r.Reads (cs ++ ds) r'' :=
  reads_append_iff.mpr ⟨r', h, h'⟩

theorem Reads.cons (h : r.feed c = .ok r') (h' : r'.Reads cs r'') : r.Reads (c :: cs) r'' :=
  reads_cons_iff.mpr ⟨r', h, h'⟩

theorem Reads.concat (h : r.Reads cs r') (h' : r'.feed c = .ok r'') : r.Reads (cs ++ [c]) r'' :=
  reads_concat_iff.mpr ⟨r', h, h'⟩

theorem Reads.unique (h : r.Reads cs r') (h' : r.Reads cs r'') : r' = r'' :=
  Except.ok.inj (h.symm.trans h')

theorem Reads.offset (h : r.Reads cs r') : r'.offset = r.offset + String.utf8Len cs := by
  induction cs generalizing r with
  | nil =>
    obtain rfl := reads_nil_iff.mp h
    rfl
  | cons c cs ih =>
    obtain ⟨r₁, h₁, h₂⟩ := reads_cons_iff.mp h
    rw [ih h₂, offset_of_feed h₁, String.utf8Len_cons]
    omega

/-- What cannot be read has a first character that cannot. -/
theorem exists_reads_of_foldlM_eq_error (h : cs.foldlM feed r = .error e) :
    ∃ before c after r', cs = before ++ c :: after ∧ r.Reads before r' ∧
      r'.feed c = .error e := by
  induction cs generalizing r with
  | nil => exact absurd h (by simp [pure, Except.pure])
  | cons c cs ih =>
    rw [List.foldlM_cons] at h
    cases hc : r.feed c with
    | error e' =>
      rw [hc] at h
      obtain rfl := Except.error.inj h
      exact ⟨[], c, cs, r, rfl, reads_nil_iff.mpr rfl, hc⟩
    | ok r₁ =>
      rw [hc] at h
      obtain ⟨before, d, after, r', rfl, hr, hd⟩ := ih h
      exact ⟨c :: before, d, after, r', rfl, hr.cons hc, hd⟩

/-! ### The end of a text -/

theorem finish_eq_ok_iff : r.finish = .ok t ↔ r.element? = some t ∧ r.frames = [] := by
  have helement : ∀ u, r.finishElement u = .ok t ↔ some u = some t ∧ r.frames = [] := by
    intro u
    rw [finishElement]
    cases hf : r.frames <;> simp
  cases hm : r.mode with
  | element | first | string | escape => simp [finish, element?, hm]
  | name read => simp only [finish, element?, hm, helement]
  | complete u => simp only [finish, element?, hm, helement]
  | number value start =>
    by_cases hlt : value < UInt32.size
    · simp only [finish, element?, hm, hlt, if_true, helement]
    · simp [finish, element?, hm, hlt]

/-- If the text may not end here, then it ends too early, or with an integer out of range. -/
theorem finish_eq_error_cases (h : r.finish = .error e) :
    e = .unexpectedEnd ∧ ¬ r.Overflows ∨
      ∃ value start, r.mode = .number value start ∧ UInt32.size ≤ value ∧
        e = .integerOverflow start := by
  have helement : ∀ u, r.finishElement u = .error e → e = .unexpectedEnd := by
    intro u hu
    rw [finishElement] at hu
    split at hu
    · exact absurd hu (by simp)
    · exact (Except.error.inj hu).symm
  cases hm : r.mode with
  | element | first | string | escape =>
    simp only [finish, hm, Except.error.injEq] at h
    exact .inl ⟨h.symm, by simp [Overflows, hm]⟩
  | name read =>
    simp only [finish, hm] at h
    exact .inl ⟨helement _ h, by simp [Overflows, hm]⟩
  | complete u =>
    simp only [finish, hm] at h
    exact .inl ⟨helement _ h, by simp [Overflows, hm]⟩
  | number value start =>
    -- the range is checked first, so an overflow is reported before an open bracket
    by_cases hlt : value < UInt32.size
    · simp only [finish, hm, hlt, if_true] at h
      refine .inl ⟨helement _ h, ?_⟩
      rintro ⟨value', start', hm', hle⟩
      obtain ⟨rfl, -⟩ := Mode.number.inj (hm.symm.trans hm')
      exact absurd hlt (Nat.not_lt.mpr hle)
    · simp only [finish, hm, hlt, if_false, Except.error.injEq] at h
      exact .inr ⟨value, start, rfl, Nat.not_lt.mp hlt, h.symm⟩

end Reader

open Reader

variable {cs ds : List Char} {t : Term} {e : TermError}

/-- A text is a term if an element may end behind it that is in no list and no application. -/
theorem Term.parseChars_eq_ok_iff : parseChars cs = .ok t ↔
    ∃ r, Reads {} cs r ∧ r.element? = some t ∧ r.frames = [] := by
  simp only [← finish_eq_ok_iff]
  rw [parseChars]
  cases h : cs.foldlM feed {} with
  | error e => simp [Reads, h, bind, Except.bind]
  | ok r => simp [Reads, h, bind, Except.bind]

/-- A fault is one of a character, behind a text that can be read, or one of the end. -/
theorem Term.parseChars_eq_error_cases (h : parseChars cs = .error e) :
    (∃ before c after r, cs = before ++ c :: after ∧ Reads {} before r ∧ r.feed c = .error e) ∨
      ∃ r, Reads {} cs r ∧ r.finish = .error e := by
  rw [parseChars] at h
  cases hcs : cs.foldlM feed {} with
  | error e' =>
    rw [hcs] at h
    obtain rfl := Except.error.inj h
    exact .inl (exists_reads_of_foldlM_eq_error hcs)
  | ok r =>
    rw [hcs] at h
    exact .inr ⟨r, hcs, h⟩

end ScannerlessLR
