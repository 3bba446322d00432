/-
The written form of a term is read as that term.

What can go wrong is the names alone: a term keeps any string as a name, but not every
string is read as one.  Strings, integers and the nesting of terms are of no concern, as
the escapes undo what the reader makes of a backslash and numerals stay below 2³².

* `Term.Readable` — all names in a term are read as names;
* `Term.element_chars` — the written form of a readable term is an element of the grammar;
* `Grammar.Element.readable` — an element denotes a readable term;
* `parse_text` — reading undoes writing, and what has been read can be written and read again.
-/
import Mathlib.Data.String.Basic
import ScannerlessLR.Proofs.Term.Tracing
import ScannerlessLR.Term.Printer

namespace ScannerlessLR

open Grammar

namespace Term

mutual

/-- The names of the applications in a term. -/
def names : Term → List String
  | .str _ | .int _ => []
  | .list ts => namesOfList ts
  | .application f ts => f :: namesOfList ts

/-- The names of the applications in several terms. -/
def namesOfList : List Term → List String
  | [] => []
  | t :: ts => t.names ++ namesOfList ts

end

/-- All names in the term are read as names. -/
def Readable (t : Term) : Prop :=
  ∀ f ∈ t.names, Name f.toList

instance : DecidablePred Readable := fun t =>
  inferInstanceAs (Decidable (∀ f ∈ t.names, Name f.toList))

variable {t : Term} {ts : List Term} {f : String}

theorem mem_namesOfList : f ∈ namesOfList ts ↔ ∃ t ∈ ts, f ∈ t.names := by
  induction ts with
  | nil => simp [namesOfList]
  | cons t ts ih => simp [namesOfList, ih]

@[simp] theorem readable_str (s : String) : (str s).Readable := by
  simp [Readable, names]

@[simp] theorem readable_int (n : UInt32) : (int n).Readable := by
  simp [Readable, names]

@[simp] theorem readable_list : (list ts).Readable ↔ ∀ t ∈ ts, t.Readable := by
  simp only [Readable, names, mem_namesOfList]
  exact ⟨fun h t ht f hf => h f ⟨t, ht, hf⟩, fun h f ⟨t, ht, hf⟩ => h t ht f hf⟩

@[simp] theorem readable_application :
    (application f ts).Readable ↔ Name f.toList ∧ ∀ t ∈ ts, t.Readable := by
  rw [← readable_list]
  simp only [Readable, names, List.mem_cons, forall_eq_or_imp]

@[simp] theorem readable_constant : (constant f).Readable ↔ Name f.toList := by
  simp [constant]

/-! ### What is written -/

theorem body_escape (s : List Char) : Body (s.flatMap escape) s := by
  have hchar : ∀ c, Body (escape c) [c] := by
    intro c
    unfold escape
    split
    · exact .escape (by decide) .nil
    · exact .escape (by decide) .nil
    · exact .escape (by decide) .nil
    · exact .escape (by decide) .nil
    · exact .escape (by decide) .nil
    · exact .plain ‹_› ‹_› .nil
  induction s with
  | nil => exact .nil
  | cons c s ih => exact (hchar c).append ih

theorem ofDigitChars_decimal (n : ℕ) : Nat.ofDigitChars 10 (decimal n) 0 = n :=
  Nat.ofDigitChars_toDigits (by decide) (by decide)

theorem numeral_decimal (n : UInt32) : Numeral (decimal n.toNat) where
  ne_nil := Nat.toDigits_ne_nil
  digits _ := Nat.isDigit_of_mem_toDigits (by decide) (by decide)
  lt_size := by
    rw [ofDigitChars_decimal]
    exact n.toNat_lt

mutual

/-- The written form of a readable term is an element that denotes it. -/
theorem element_chars : ∀ t : Term, t.Readable → Element t.chars t
  | .str s, _ => by
    have h := Element.string (body_escape s.toList)
    rwa [String.ofList_toList] at h
  | .int n, _ => by
    have h := Element.numeral (numeral_decimal n)
    rwa [ofDigitChars_decimal, UInt32.ofNat_toNat] at h
  | .list ts, h => .list (sequence_charsOfList ts (readable_list.mp h))
  | .application f [], h => by
    have h' := Element.constant (readable_application.mp h).1
    rwa [String.ofList_toList] at h'
  | .application f (t :: ts), h => by
    obtain ⟨hf, hts⟩ := readable_application.mp h
    have h' := Element.application hf (sequence_charsOfList (t :: ts) hts)
    rwa [String.ofList_toList] at h'

theorem sequence_charsOfList : ∀ ts : List Term, (∀ t ∈ ts, t.Readable) →
    Sequence (charsOfList ts) ts
  | [], _ => .blanks blanks_nil
  | [t], h => .items (.one (.of_element (element_chars t (List.forall_mem_singleton.mp h))))
  | t :: u :: ts, h => by
    obtain ⟨ht, hts⟩ := List.forall_mem_cons.mp h
    -- the blank comes behind the comma, so it belongs to the next item
    have hblank : Blanks [' '] := by
      simp [isBlank]
    cases sequence_charsOfList (u :: ts) hts with
    | items hitems =>
      exact .items (.cons (.of_element (element_chars t ht)) (.blanks_append hblank hitems))

end

end Term

/-! ### What is read -/

mutual

theorem Grammar.Element.readable {cs : List Char} {t : Term} : Element cs t → t.Readable
  | .string _ => Term.readable_str _
  | .numeral _ => Term.readable_int _
  | .list h => Term.readable_list.mpr h.readable
  | .constant h => Term.readable_constant.mpr (by rwa [String.toList_ofList])
  | .application h hs =>
    Term.readable_application.mpr ⟨by rwa [String.toList_ofList], hs.readable⟩

theorem Grammar.Item.readable {cs : List Char} {t : Term} : Item cs t → t.Readable
  | .mk _ h _ => h.readable

theorem Grammar.Items.readable {cs : List Char} {ts : List Term} :
    Items cs ts → ∀ t ∈ ts, t.Readable
  | .one h => by simpa using h.readable
  | .more h hi => by
    simp only [List.mem_append, List.mem_singleton, or_imp, forall_and, forall_eq]
    exact ⟨h.readable, hi.readable⟩

theorem Grammar.Sequence.readable {cs : List Char} {ts : List Term} :
    Sequence cs ts → ∀ t ∈ ts, t.Readable
  | .blanks _ => by simp
  | .items h => h.readable

end

/-! ### Writing and reading -/

/-- The written form of a readable term is read as the term. -/
theorem Term.Readable.parse_eq {t : Term} (h : t.Readable) : Term.parse t.text = .ok t := by
  rw [Term.parse, Term.text, String.toList_ofList]
  exact (Item.of_element (t.element_chars h)).parseChars_eq

/-- Reading undoes writing for the readable terms and for no others, and what has been read is
readable. -/
theorem parse_text : (∀ t : Term, Term.parse t.text = .ok t ↔ t.Readable) ∧
    ∀ (text : String) (t : Term), Term.parse text = .ok t →
      t.Readable ∧ Term.parse t.text = .ok t := by
  have hreadable : ∀ {text t}, Term.parse text = .ok t → t.Readable :=
    fun h => (item_of_parseChars h).readable
  exact ⟨fun t => ⟨hreadable, Term.Readable.parse_eq⟩,
    fun text t h => ⟨hreadable h, (hreadable h).parse_eq⟩⟩

/-- A line break and a backslash in front of a letter, the greatest integer and empty parentheses. -/
theorem parse_text_escapes :
    let t : Term :=
      .list [.application "f-1" [.str "a\n\\n", .int 4294967295], .application "g" []]
    Term.parse "[ f-1(\"a\\n\\\\n\",4294967295) , g( ) ]" = .ok t ∧
      t.text = "[f-1(\"a\\n\\\\n\", 4294967295), g]" ∧ t.Readable ∧ Term.parse t.text = .ok t := by
  intro t
  have h : Term.parse "[ f-1(\"a\\n\\\\n\",4294967295) , g( ) ]" = .ok t := by rfl
  exact ⟨h, by rfl, parse_text.2 _ t h⟩

end ScannerlessLR
