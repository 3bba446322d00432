/-
A fault of a text is found at the first character that leaves no hope for it.

A text is viable if something can be written behind it so that it becomes a term.  These
are the texts that the reader goes through, except where it is in the middle of an integer
that is out of range already: it goes on to the end of the integer before it gives up, and
reports where the integer starts.  Everything else is reported at the character that makes
a viable text one that is not.

* `Viable`, `IsTerm` — a text can become a term, or is one;
* `viable_iff` — the viable texts, by the reader behind them;
* `TermError.Locates` — what a fault says of a text;
* `parse_eq_error` — what a fault says is true, and only a viable text ends too early.
-/
import Mathlib.Data.List.Induction
import ScannerlessLR.Proofs.Term.Reading

namespace ScannerlessLR

open Reader

/-- The text is a term. -/
def IsTerm (text : String) : Prop :=
  ∃ t, Term.parse text = .ok t

/-- The text is the beginning of a term. -/
def Viable (text : String) : Prop :=
  ∃ more, IsTerm (text ++ more)

/-- The character `c` of the text, at a byte offset, is the first one that leaves no hope: the text
in front of it is viable, and is not with the character. -/
structure FailsAt (text : String) (offset : ℕ) (before : String) (c : Char) : Prop where
  split : ∃ after, text = before.push c ++ after
  offset_eq : offset = before.utf8ByteSize
  viable : Viable before
  not_viable : ¬ Viable (before.push c)

/-- What a fault says of a text. -/
def TermError.Locates (text : String) : TermError → Prop
  | .unexpectedEnd => Viable text
  | .unexpectedChar found offset =>
    ∃ before, FailsAt text offset before found ∧ ¬ IsTerm before
  | .trailingInput offset => ∃ before c, FailsAt text offset before c ∧ IsTerm before
  | .integerOverflow offset => ∃ before rest, text = before ++ rest ∧
    offset = before.utf8ByteSize ∧ Viable before ∧
    UInt32.size ≤ Nat.ofDigitChars 10 (rest.toList.takeWhile Char.isDigit) 0

variable {r r' : Reader} {c : Char} {cs : List Char} {t : Term} {value start : ℕ}

/-! ### Integers out of range -/

theorem Reader.Overflows.element?_eq (h : r.Overflows) : r.element? = none := by
  obtain ⟨value, start, hm, hle⟩ := h
  simp [element?, hm, hle]

theorem Reader.Overflows.feed (h : r.Overflows) (hc : r.feed c = .ok r') : r'.Overflows := by
  obtain ⟨value, start, hm, hle⟩ := h
  by_cases hd : c.isDigit
  · simp only [Reader.feed, hm, hd, if_true, Except.ok.injEq] at hc
    exact ⟨10 * value + digitValue c, start, by rw [← hc]; rfl, by omega⟩
  · simp [Reader.feed, hm, hd, Nat.not_lt.mpr hle] at hc

/-- Nothing that comes behind it mends an integer out of range. -/
theorem Reader.Overflows.reads (h : r.Overflows) (hr : r.Reads cs r') : r'.Overflows := by
  induction cs generalizing r with
  | nil =>
    obtain rfl := reads_nil_iff.mp hr
    exact h
  | cons c cs ih =>
    obtain ⟨r₁, h₁, h₂⟩ := reads_cons_iff.mp hr
    exact ih (h.feed h₁) h₂

/-- An integer that is being read has started where an element was awaited. -/
theorem Reader.Reads.number (h : Reads {} cs r) (hm : r.mode = .number value start) :
    ∃ before digits r₀, cs = before ++ digits ∧ Reads {} before r₀ ∧ r₀.Awaits ∧
      start = r₀.offset ∧ (∀ c ∈ digits, c.isDigit = true) ∧
      value = Nat.ofDigitChars 10 digits 0 := by
  induction cs using List.reverseRecOn generalizing r value with
  | nil =>
    obtain rfl := reads_nil_iff.mp h
    exact absurd hm (by simp)
  | append_singleton cs c ih =>
    obtain ⟨r', hr', hc⟩ := reads_concat_iff.mp h
    have hfeeds := feeds_feed r' c
    rw [hc] at hfeeds
    cases hfeeds with
    | digit hr hd =>
      -- the first digit comes where the reader awaits an element
      obtain ⟨rfl, rfl⟩ := Mode.number.inj hm
      exact ⟨cs, [c], r', rfl, hr', hr, rfl, by simpa using hd,
        by simp [Nat.ofDigitChars_cons, digitValue]⟩
    | moreDigits value' start' hm' hd =>
      obtain ⟨rfl, rfl⟩ := Mode.number.inj hm
      obtain ⟨before, digits, r₀, rfl, hbefore, hr₀, hstart, hdigits, rfl⟩ := ih hr' hm'
      refine ⟨before, digits ++ [c], r₀, by simp, hbefore, hr₀, hstart, ?_, ?_⟩
      · simpa [or_imp, forall_and] using ⟨hdigits, hd⟩
      · simp [Nat.ofDigitChars_append, Nat.ofDigitChars_cons, digitValue]
    | blank hr => rcases hr with hm' | hm' <;> exact absurd (hm'.symm.trans hm) (by simp)
    -- no other character leaves the reader within an integer
    | _ => exact absurd hm (by simp [next])

theorem not_overflows_of_element? (h : r.element? = some t) : ¬ r.Overflows :=
  fun ho => absurd (ho.element?_eq.symm.trans h) (by simp)

/-! ### Viable texts -/

theorem Reader.Awaits.element?_eq (h : r.Awaits) : r.element? = none := by
  rcases h with hm | hm <;> simp [element?, hm]

theorem Reader.Awaits.not_overflows (h : r.Awaits) : ¬ r.Overflows := by
  rintro ⟨value, start, hm, -⟩
  rcases h with hm' | hm' <;> exact absurd (hm'.symm.trans hm) (by simp)

/-- The element that is being read can be ended. -/
theorem exists_reads_element (h : ¬ r.Overflows) :
    ∃ cs r' t, r.Reads cs r' ∧ r'.element? = some t := by
  -- where an element is awaited, any will do, and a digit is one
  have hawaits : r.Awaits → ∃ cs r' t, r.Reads cs r' ∧ r'.element? = some t := by
    intro hr
    refine ⟨['0'], _, .int 0, .cons (feed_digit hr (by decide)) (reads_nil_iff.mpr rfl), ?_⟩
    simp [element?, next, digitValue]
  cases hm : r.mode with
  | element => exact hawaits (.inl hm)
  | first => exact hawaits (.inr hm)
  | string read =>
    have hend : r.feed '"' = .ok (r.next '"' (.complete (.str (spelled read)))) := by
      simp [feed, hm]
    exact ⟨['"'], _, _, .cons hend (reads_nil_iff.mpr rfl), rfl⟩
  | escape read =>
    have hn : r.feed 'n' = .ok (r.next 'n' (.string ('\n' :: read))) := by
      simp [feed, hm, unescape]
    exact ⟨['n', '"'], _, _, .cons hn (.cons rfl (reads_nil_iff.mpr rfl)), rfl⟩
  | name read => exact ⟨[], r, .constant (spelled read), reads_nil_iff.mpr rfl, by
      simp [element?, hm]⟩
  | complete t => exact ⟨[], r, t, reads_nil_iff.mpr rfl, by simp [element?, hm]⟩
  | number value start =>
    -- an integer may end only as long as it is in range
    have hlt : value < UInt32.size := Nat.not_le.mp fun hle => h ⟨value, start, hm, hle⟩
    exact ⟨[], r, .int (.ofNat value), reads_nil_iff.mpr rfl, by simp [element?, hm, hlt]⟩

/-- All that is open can be closed behind an element. -/
theorem exists_reads_closers (h : r.element? = some t) :
    ∃ cs r' u, r.Reads cs r' ∧ r'.element? = some u ∧ r'.frames = [] := by
  generalize hf : r.frames = fs
  induction fs generalizing r t with
  | nil => exact ⟨[], r, t, reads_nil_iff.mpr rfl, h, hf⟩
  | cons f fs ih =>
    obtain ⟨cs, r', u, hr', hu, hf'⟩ :=
      ih (r := r.next f.closer (.complete (f.add t).close) fs) rfl rfl
    exact ⟨f.closer :: cs, r', u, .cons (reads_closer h hf) hr', hu, hf'⟩

theorem isTerm_iff {text : String} : IsTerm text ↔
    ∃ r t, Reads {} text.toList r ∧ r.element? = some t ∧ r.frames = [] := by
  simp only [IsTerm, Term.parse, Term.parseChars_eq_ok_iff]
  exact exists_comm

/-- A text is viable if the reader goes through it and is not within an integer out of range. -/
theorem viable_iff {text : String} :
    Viable text ↔ ∃ r, Reads {} text.toList r ∧ ¬ r.Overflows := by
  constructor
  -- an integer out of range would still be there at the end of the term
  · rintro ⟨more, hterm⟩
    obtain ⟨r', t, hr', ht, -⟩ := isTerm_iff.mp hterm
    rw [String.toList_append] at hr'
    obtain ⟨r, hr, hmore⟩ := reads_append_iff.mp hr'
    refine ⟨r, hr, fun ho => ?_⟩
    rw [(ho.reads hmore).element?_eq] at ht
    exact absurd ht (by simp)
  · rintro ⟨r, hr, ho⟩
    obtain ⟨cs₁, r₁, t, h₁, ht⟩ := exists_reads_element ho
    obtain ⟨cs₂, r₂, u, h₂, hu, hf⟩ := exists_reads_closers ht
    refine ⟨String.ofList (cs₁ ++ cs₂), isTerm_iff.mpr ⟨r₂, u, ?_, hu, hf⟩⟩
    rw [String.toList_append, String.toList_ofList]
    exact hr.append (h₁.append h₂)

/-! ### What a fault says -/

theorem offset_eq_utf8ByteSize (h : Reads {} cs r) :
    r.offset = (String.ofList cs).utf8ByteSize := by
  rw [h.offset, String.utf8ByteSize_ofList]
  exact Nat.zero_add _

theorem isTerm_ofList_iff (h : Reads {} cs r) :
    IsTerm (String.ofList cs) ↔ r.element? ≠ none ∧ r.frames = [] := by
  rw [isTerm_iff, String.toList_ofList]
  constructor
  · rintro ⟨r', t, hr', ht, hf⟩
    obtain rfl := h.unique hr'
    exact ⟨by simp [ht], hf⟩
  · rintro ⟨ht, hf⟩
    obtain ⟨t, ht⟩ := Option.ne_none_iff_exists'.mp ht
    exact ⟨r, t, h, ht, hf⟩

/-- A character that is a fault leaves no hope. -/
theorem not_viable_of_feed {text : String} {before after : List Char} {e : TermError}
    (htext : text.toList = before ++ c :: after) (hr : Reads {} before r)
    (hc : r.feed c = .error e) : ¬ Viable text := by
  intro hviable
  obtain ⟨r', hr', -⟩ := viable_iff.mp hviable
  rw [htext] at hr'
  obtain ⟨r₁, hr₁, hafter⟩ := reads_append_iff.mp hr'
  obtain rfl := hr.unique hr₁
  obtain ⟨r₂, hc', -⟩ := reads_cons_iff.mp hafter
  exact absurd (hc.symm.trans hc') (by simp)

theorem failsAt_of_feed {text : String} {before after : List Char} {e : TermError}
    (htext : text.toList = before ++ c :: after) (hr : Reads {} before r)
    (ho : ¬ r.Overflows) (hc : r.feed c = .error e) :
    FailsAt text r.offset (String.ofList before) c where
  split := ⟨String.ofList after, by
    rw [← String.toList_inj, htext]
    simp⟩
  offset_eq := offset_eq_utf8ByteSize hr
  viable := viable_iff.mpr ⟨r, by rwa [String.toList_ofList], ho⟩
  not_viable := by
    have hpush : ((String.ofList before).push c).toList = before ++ [c] := by
      rw [String.toList_push, String.toList_ofList]
    exact not_viable_of_feed hpush hr hc

/-- An integer out of range is reported where it starts, once all its digits have been read. -/
theorem locates_integerOverflow {text : String} {after : List Char}
    (htext : text.toList = cs ++ after) (hr : Reads {} cs r)
    (hm : r.mode = .number value start) (hle : UInt32.size ≤ value)
    (hafter : ∀ c ∈ after.head?, c.isDigit = false) :
    (TermError.integerOverflow start).Locates text := by
  obtain ⟨before, digits, r₀, rfl, hr₀, hawaits, rfl, hdigits, rfl⟩ := hr.number hm
  refine ⟨String.ofList before, String.ofList (digits ++ after), ?_, offset_eq_utf8ByteSize hr₀,
    viable_iff.mpr ⟨r₀, by rwa [String.toList_ofList], hawaits.not_overflows⟩, ?_⟩
  · rw [← String.toList_inj, htext]
    simp
  -- the digits have been read, so the run of them goes no further than this
  · have hstop : after.takeWhile Char.isDigit = [] := by
      cases after with
      | nil => rfl
      | cons c after => simp [hafter c (by simp)]
    rwa [String.toList_ofList, List.takeWhile_append_of_pos hdigits, hstop, List.append_nil]

/-- What the fault of a character says is true. -/
theorem locates_of_feed {text : String} {before after : List Char} {e : TermError}
    (htext : text.toList = before ++ c :: after) (hr : Reads {} before r)
    (hc : r.feed c = .error e) : e ≠ .unexpectedEnd ∧ e.Locates text := by
  have hterm := isTerm_ofList_iff hr
  have hfeeds := feeds_feed r c
  rw [hc] at hfeeds
  cases hfeeds with
  | noElement hawaits =>
    -- an element is awaited, so the text so far is no term
    refine ⟨by simp, String.ofList before, failsAt_of_feed htext hr hawaits.not_overflows hc, ?_⟩
    rw [hterm]
    exact fun h => h.1 hawaits.element?_eq
  | noFollow t ht hf =>
    -- a bracket is open, so it is none here either
    refine ⟨by simp, String.ofList before,
      failsAt_of_feed htext hr (not_overflows_of_element? ht) hc, ?_⟩
    rw [hterm]
    exact fun h => hf h.2
  | trailing t ht hf =>
    exact ⟨by simp, String.ofList before, c,
      failsAt_of_feed htext hr (not_overflows_of_element? ht) hc,
      hterm.mpr ⟨by simp [ht], hf⟩⟩
  | overflow value start hm hle hd =>
    exact ⟨by simp, locates_integerOverflow htext hr hm hle (by simpa using hd)⟩

/-- A text that is no term has the fault that is reported, where it is reported: the text ends too
early if it is viable and only then, an unexpected character and trailing input are the first
character that leaves no hope, the latter behind a term and the former not, and an integer out of
range stands where an element may. -/
theorem parse_eq_error {text : String} {e : TermError} (h : Term.parse text = .error e) :
    (e = .unexpectedEnd ↔ Viable text) ∧ e.Locates text := by
  rcases Term.parseChars_eq_error_cases h with ⟨before, c, after, r, htext, hr, hc⟩ | ⟨r, hr, he⟩
  · have hviable := not_viable_of_feed htext hr hc
    obtain ⟨hne, hlocates⟩ := locates_of_feed htext hr hc
    exact ⟨by simp [hne, hviable], hlocates⟩
  · have hiff : Viable text ↔ ¬ r.Overflows := by
      rw [viable_iff]
      exact ⟨fun ⟨r', hr', ho⟩ => hr.unique hr' ▸ ho, fun ho => ⟨r, hr, ho⟩⟩
    rcases finish_eq_error_cases he with ⟨rfl, ho⟩ | ⟨value, start, hm, hle, rfl⟩
    · have hviable := hiff.mpr ho
      exact ⟨⟨fun _ => hviable, fun _ => rfl⟩, hviable⟩
    · have hviable : ¬ Viable text := fun hv => hiff.mp hv ⟨value, start, hm, hle⟩
      have htext : text.toList = text.toList ++ [] := (List.append_nil _).symm
      exact ⟨by simp [hviable], locates_integerOverflow htext hr hm hle (by simp)⟩

/-- A comma is missing behind a character of two bytes. -/
theorem parse_eq_error_accent : Term.parse "[\"é\" 2]" = .error (.unexpectedChar '2' 6) ∧
    ¬ Viable "[\"é\" 2]" ∧
    ∃ before, FailsAt "[\"é\" 2]" 6 before '2' ∧ ¬ IsTerm before := by
  have h : Term.parse "[\"é\" 2]" = .error (.unexpectedChar '2' 6) := by rfl
  obtain ⟨hend, hlocates⟩ := parse_eq_error h
  exact ⟨h, fun hviable => absurd (hend.mpr hviable) (by simp), hlocates⟩

end ScannerlessLR
