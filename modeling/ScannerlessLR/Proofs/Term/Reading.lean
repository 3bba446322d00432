/-
Reading a term is reading it by the grammar.

Where an element may come, the characters of an element lead the reader to where that
element may end, and leave the open lists and applications as they are.

* `Grammar.Element.reads` — the reader goes through every element;
* `Grammar.Sequence.reads` — the reader goes through what stands between brackets, and the
  closing bracket makes a term of the frame;
* `Grammar.Item.parseChars_eq` — reading the written form of a term gives the term.
-/
import ScannerlessLR.Proofs.Term.Feeding
import ScannerlessLR.Proofs.Term.Grammar

namespace ScannerlessLR

open Reader Grammar

variable {r r' : Reader} {c : Char} {cs ds s : List Char} {t : Term} {ts : List Term} {f : Frame}
  {fs : List Frame}

namespace Frame

/-- The frame with more items, oldest first. -/
def addAll : Frame → List Term → Frame
  | .list us, ts => .list (ts.reverse ++ us)
  | .application f us, ts => .application f (ts.reverse ++ us)

@[simp] theorem addAll_nil (f : Frame) : f.addAll [] = f := by
  cases f <;> rfl

@[simp] theorem add_addAll (f : Frame) (ts : List Term) (t : Term) :
    (f.addAll ts).add t = f.addAll (ts ++ [t]) := by
  cases f <;> simp [addAll, add]

@[simp] theorem closer_addAll (f : Frame) (ts : List Term) : (f.addAll ts).closer = f.closer := by
  cases f <;> rfl

theorem isBlank_closer (f : Frame) : isBlank f.closer = false := by
  cases f <;> rfl

theorem closer_ne_comma (f : Frame) : f.closer ≠ ',' := by
  cases f <;> simp [closer]

theorem not_continues_closer (f : Frame) (r : Reader) : ¬ r.Continues f.closer := by
  cases f <;> exact not_continues rfl (by simp [closer])

end Frame

/-! ### Characters of an element -/

theorem unescape_of_mem {d : Char} (h : (c, d) ∈ escapes) : unescape c = [d] := by
  simp only [escapes, List.mem_cons, Prod.mk.injEq, List.not_mem_nil, or_false] at h
  rcases h with ⟨rfl, rfl⟩ | ⟨rfl, rfl⟩ | ⟨rfl, rfl⟩ | ⟨rfl, rfl⟩ | ⟨rfl, rfl⟩ <;> rfl

theorem unescape_of_notMem (h : c ∉ escapes.map Prod.fst) : unescape c = [c, '\\'] := by
  have hne : ∀ d ∈ escapes.map Prod.fst, c ≠ d := by
    rintro d hd rfl
    exact h hd
  rw [unescape]
  · exact hne 'n' (by decide)
  · exact hne 'r' (by decide)
  · exact hne 't' (by decide)
  · exact hne '"' (by decide)
  · exact hne '\\' (by decide)

/-! ### The reader goes through the grammar -/

theorem reads_blanks (h : Blanks cs) (hr : r.Awaits) :
    ∃ r', r.Reads cs r' ∧ r'.mode = r.mode ∧ r'.frames = r.frames := by
  induction cs generalizing r with
  | nil => exact ⟨r, reads_nil_iff.mpr rfl, rfl, rfl⟩
  | cons c cs ih =>
    rw [blanks_cons_iff] at h
    obtain ⟨r', hr', hmode, hframes⟩ := ih (r := r.next c r.mode) h.2 hr
    exact ⟨r', .cons (feed_blank hr h.1) hr', hmode, hframes⟩

theorem reads_blanks_after (h : Blanks cs) (hr : r.element? = some t) :
    ∃ r', r.Reads cs r' ∧ r'.element? = some t ∧ r'.frames = r.frames := by
  induction cs generalizing r with
  | nil => exact ⟨r, reads_nil_iff.mpr rfl, hr, rfl⟩
  | cons c cs ih =>
    rw [blanks_cons_iff] at h
    have hfeed : r.feed c = .ok (r.next c (.complete t)) := by
      rw [feed_follow hr (not_continues_of_isBlank h.1 r), follow, if_pos h.1]
    obtain ⟨r', hr', helement, hframes⟩ := ih (r := r.next c (.complete t)) h.2 rfl
    exact ⟨r', .cons hfeed hr', helement, hframes⟩

/-- A backslash is read together with the character behind it. -/
theorem reads_backslash {read : List Char} (hr : r.mode = .string read) (c : Char) :
    ∃ r', r.Reads ['\\', c] r' ∧ r'.mode = .string (unescape c ++ read) ∧
      r'.frames = r.frames := by
  have h : r.feed '\\' = .ok (r.next '\\' (.escape read)) := by
    simp [feed, hr]
  exact ⟨_, .cons h (.cons rfl (reads_nil_iff.mpr rfl)), rfl, rfl⟩

theorem reads_body (h : Body cs s) {read : List Char} (hr : r.mode = .string read) :
    ∃ r', r.Reads cs r' ∧ r'.mode = .string (s.reverse ++ read) ∧ r'.frames = r.frames := by
  induction h generalizing r read with
  | nil => exact ⟨r, reads_nil_iff.mpr rfl, hr, rfl⟩
  | @plain c cs s hquote hbackslash _ ih =>
    have hfeed : r.feed c = .ok (r.next c (.string (c :: read))) := by
      simp [feed, hr, hquote, hbackslash]
    obtain ⟨r', hr', hmode, hframes⟩ := ih (r := r.next c (.string (c :: read))) rfl
    exact ⟨r', .cons hfeed hr', by simpa using hmode, hframes⟩
  | @escape c d cs s hmem _ ih =>
    obtain ⟨r₁, h₁, hmode₁, hframes₁⟩ := reads_backslash hr c
    obtain ⟨r', hr', hmode, hframes⟩ := ih hmode₁
    refine ⟨r', h₁.append hr', ?_, hframes.trans hframes₁⟩
    simpa [unescape_of_mem hmem] using hmode
  | @backslash c cs s hc _ ih =>
    obtain ⟨r₁, h₁, hmode₁, hframes₁⟩ := reads_backslash hr c
    obtain ⟨r', hr', hmode, hframes⟩ := ih hmode₁
    refine ⟨r', h₁.append hr', ?_, hframes.trans hframes₁⟩
    simpa [unescape_of_notMem hc] using hmode

theorem reads_nameChars (h : ∀ c ∈ cs, isNameChar c = true) {read : List Char}
    (hr : r.mode = .name read) :
    ∃ r', r.Reads cs r' ∧ r'.mode = .name (cs.reverse ++ read) ∧ r'.frames = r.frames := by
  induction cs generalizing r read with
  | nil => exact ⟨r, reads_nil_iff.mpr rfl, hr, rfl⟩
  | cons c cs ih =>
    rw [List.forall_mem_cons] at h
    have hfeed : r.feed c = .ok (r.next c (.name (c :: read))) := by
      simp [feed, hr, h.1]
    obtain ⟨r', hr', hmode, hframes⟩ := ih (r := r.next c (.name (c :: read))) h.2 rfl
    exact ⟨r', .cons hfeed hr', by simpa using hmode, hframes⟩

theorem reads_name (h : Name cs) (hr : r.Awaits) :
    ∃ r', r.Reads cs r' ∧ r'.mode = .name cs.reverse ∧ r'.frames = r.frames := by
  cases cs with
  | nil => exact h.elim
  | cons c cs =>
    obtain ⟨r', hr', hmode, hframes⟩ := reads_nameChars (r := r.next c (.name [c])) h.2 rfl
    exact ⟨r', .cons (feed_letter hr h.1) hr', by simpa using hmode, hframes⟩

theorem reads_digits (h : ∀ c ∈ cs, c.isDigit = true) {value start : ℕ}
    (hr : r.mode = .number value start) : ∃ r', r.Reads cs r' ∧
      r'.mode = .number (Nat.ofDigitChars 10 cs value) start ∧ r'.frames = r.frames := by
  induction cs generalizing r value with
  | nil => exact ⟨r, reads_nil_iff.mpr rfl, hr, rfl⟩
  | cons c cs ih =>
    rw [List.forall_mem_cons] at h
    have hfeed : r.feed c = .ok (r.next c (.number (10 * value + digitValue c) start)) := by
      simp [feed, hr, h.1]
    obtain ⟨r', hr', hmode, hframes⟩ :=
      ih (r := r.next c (.number (10 * value + digitValue c) start)) h.2 rfl
    exact ⟨r', .cons hfeed hr', hmode, hframes⟩

theorem reads_numeral (h : Numeral cs) (hr : r.Awaits) : ∃ r', r.Reads cs r' ∧
    r'.element? = some (.int (.ofNat (Nat.ofDigitChars 10 cs 0))) ∧ r'.frames = r.frames := by
  obtain ⟨c, cs, rfl⟩ := List.exists_cons_of_ne_nil h.ne_nil
  obtain ⟨hc, hcs⟩ := List.forall_mem_cons.mp h.digits
  obtain ⟨r', hr', hmode, hframes⟩ :=
    reads_digits (r := r.next c (.number (digitValue c) r.offset)) hcs rfl
  have hvalue : Nat.ofDigitChars 10 (c :: cs) 0 = Nat.ofDigitChars 10 cs (digitValue c) := by
    rw [Nat.ofDigitChars_cons, Nat.mul_zero, Nat.zero_add, digitValue]
  refine ⟨r', .cons (feed_digit hr hc) hr', ?_, hframes⟩
  have hlt := h.lt_size
  rw [hvalue] at hlt ⊢
  simp only [element?, hmode, hlt, if_true]

/-- The bracket that ends a frame closes it, behind an element as well. -/
theorem reads_closer (h : r.element? = some t) (hf : r.frames = f :: fs) :
    r.feed f.closer = .ok (r.next f.closer (.complete (f.add t).close) fs) := by
  rw [feed_follow h (f.not_continues_closer r), follow, f.isBlank_closer, hf]
  simp [f.closer_ne_comma]

mutual

/-- Where an element may come, the reader goes through each to where it may end. -/
theorem Grammar.Element.reads {cs : List Char} {t : Term} {r : Reader} :
    Element cs t → r.Awaits →
      ∃ r', r.Reads cs r' ∧ r'.element? = some t ∧ r'.frames = r.frames
  | @Element.string cs s h, hr => by
    obtain ⟨r₁, h₁, hmode₁, hframes₁⟩ := reads_body (r := r.next '"' (.string [])) h rfl
    have h₂ : r₁.feed '"' = .ok (r₁.next '"' (.complete (.str (String.ofList s)))) := by
      simp [feed, hmode₁, spelled]
    exact ⟨_, (Reads.cons (feed_quote hr) h₁).concat h₂, rfl, hframes₁⟩
  | .numeral h, hr => reads_numeral h hr
  | .list h, hr => by
    obtain ⟨r', h₁, helement, hframes⟩ :=
      Sequence.reads (r := r.next '[' .first (.list [] :: r.frames)) h rfl rfl
    refine ⟨r', .cons (feed_bracket hr) h₁, ?_, hframes⟩
    rw [helement]
    simp [Frame.addAll, Frame.close]
  | .constant h, hr => by
    obtain ⟨r', h₁, hmode, hframes⟩ := reads_name h hr
    exact ⟨r', h₁, by simp [element?, hmode, spelled], hframes⟩
  | @Element.application f cs ts h hs, hr => by
    obtain ⟨r₁, h₁, hmode₁, hframes₁⟩ := reads_name h hr
    have h₂ : r₁.feed '(' =
        .ok (r₁.next '(' .first (.application (String.ofList f) [] :: r.frames)) := by
      simp [feed, hmode₁, spelled, hframes₁, isNameChar]
    obtain ⟨r', h₃, helement, hframes⟩ := Sequence.reads
      (r := r₁.next '(' .first (.application (String.ofList f) [] :: r.frames)) hs rfl rfl
    refine ⟨r', ?_, ?_, hframes⟩
    -- the name and its parenthesis come before the arguments
    · rw [List.append_assoc]
      exact h₁.append (.cons h₂ h₃)
    · rw [helement]
      simp [Frame.addAll, Frame.close]

theorem Grammar.Item.reads {cs : List Char} {t : Term} {r : Reader} :
    Item cs t → r.Awaits →
      ∃ r', r.Reads cs r' ∧ r'.element? = some t ∧ r'.frames = r.frames
  | .mk hbefore h hafter, hr => by
    obtain ⟨r₁, h₁, hmode₁, hframes₁⟩ := reads_blanks hbefore hr
    have hr₁ : r₁.Awaits := by
      rw [Awaits, hmode₁]
      exact hr
    obtain ⟨r₂, h₂, helement₂, hframes₂⟩ := Element.reads h hr₁
    obtain ⟨r₃, h₃, helement₃, hframes₃⟩ := reads_blanks_after hafter helement₂
    exact ⟨r₃, (h₁.append h₂).append h₃, helement₃, hframes₃.trans (hframes₂.trans hframes₁)⟩

/-- Behind items, the last of them may end, and the frame holds those in front of it. -/
theorem Grammar.Items.reads {cs : List Char} {ts : List Term} {r : Reader} {f : Frame}
    {fs : List Frame} : Items cs ts → r.mode = .first → r.frames = f :: fs →
      ∃ r' us t, ts = us ++ [t] ∧ r.Reads cs r' ∧ r'.element? = some t ∧
        r'.frames = f.addAll us :: fs
  | @Items.one cs t h, hr, hf => by
    obtain ⟨r', h', helement, hframes⟩ := Item.reads h (.inr hr)
    exact ⟨r', [], t, rfl, h', helement, by rw [hframes, hf, Frame.addAll_nil]⟩
  | @Items.more cs ds ts t h hi, hr, hf => by
    obtain ⟨r₁, us, u, hts, h₁, helement₁, hframes₁⟩ := Items.reads h hr hf
    have hcomma : r₁.feed ',' = .ok (r₁.next ',' .element (f.addAll ts :: fs)) := by
      rw [feed_follow helement₁ (not_continues (by decide) (by decide)), follow, hframes₁]
      simp [isBlank, hts]
    obtain ⟨r', h', helement, hframes⟩ :=
      Item.reads (r := r₁.next ',' .element (f.addAll ts :: fs)) hi (.inl rfl)
    exact ⟨r', ts, t, rfl, h₁.append (.cons hcomma h'), helement, hframes⟩

/-- What stands between brackets, and the closing bracket. -/
theorem Grammar.Sequence.reads {cs : List Char} {ts : List Term} {r : Reader} {f : Frame}
    {fs : List Frame} : Sequence cs ts → r.mode = .first → r.frames = f :: fs →
      ∃ r', r.Reads (cs ++ [f.closer]) r' ∧ r'.element? = some (f.addAll ts).close ∧
        r'.frames = fs
  | .blanks h, hr, hf => by
    obtain ⟨r₁, h₁, hmode₁, hframes₁⟩ := reads_blanks h (.inr hr)
    have h₂ : r₁.feed f.closer = .ok (r₁.next f.closer (.complete f.close) fs) := by
      simp [feed, hmode₁, hr, hframes₁, hf, f.isBlank_closer]
    exact ⟨_, h₁.concat h₂, by simp [element?, next], rfl⟩
  | .items h, hr, hf => by
    obtain ⟨r₁, us, t, hts, h₁, helement₁, hframes₁⟩ := Items.reads h hr hf
    have h₂ := reads_closer helement₁ hframes₁
    rw [Frame.closer_addAll, Frame.add_addAll, ← hts] at h₂
    exact ⟨_, h₁.concat h₂, rfl, rfl⟩

end

/-- Reading the written form of a term gives the term. -/
theorem Grammar.Item.parseChars_eq (h : Item cs t) : Term.parseChars cs = .ok t := by
  obtain ⟨r, hr, helement, hframes⟩ := h.reads (r := {}) (.inl rfl)
  exact Term.parseChars_eq_ok_iff.mpr ⟨r, hr, helement, hframes⟩

end ScannerlessLR
