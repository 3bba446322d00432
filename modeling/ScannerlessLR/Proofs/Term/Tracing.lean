/-
What the reader of a term has gone through.

The open frames and the mode of a reader say how the text behind it has been built up: by
the openings of the frames, each with the items that are already complete, and by a part
of one more element.  So where a term may end, the text is a written form of that term.

* `Reader.Traces` — the text behind a reader, as the reader describes it;
* `Reader.Reads.traces` — every reader traces the text that it has read;
* `parse_eq_ok_iff` — the texts that are read as a term are the written forms of it.
-/
import Mathlib.Data.List.Induction
import ScannerlessLR.Proofs.Term.Reading

namespace ScannerlessLR

open Reader Grammar

variable {r r' : Reader} {c : Char} {cs ds s : List Char} {t : Term} {ts : List Term} {f : Frame}
  {fs : List Frame}

namespace Frame

/-- The items of a frame, newest first. -/
def items : Frame → List Term
  | .list ts => ts
  | .application _ ts => ts

/-- The characters that open a frame. -/
inductive Opens : Frame → List Char → Prop
  | list : Opens (.list []) ['[']
  | application {f : List Char} : Name f → Opens (.application (String.ofList f) []) (f ++ ['('])

@[simp] theorem items_addAll (f : Frame) (ts : List Term) :
    (f.addAll ts).items = ts.reverse ++ f.items := by
  cases f <;> rfl

/-- A frame that is opened, filled and closed is an element. -/
theorem Opens.element (h : f.Opens cs) (hs : Sequence ds ts) :
    Element (cs ++ ds ++ [f.closer]) (f.addAll ts).close := by
  cases h with
  | list =>
    simp only [addAll, close, List.append_nil, List.reverse_reverse]
    exact .list hs
  | application hf =>
    simp only [addAll, close, List.append_nil, List.reverse_reverse]
    rw [show ∀ g : List Char, g ++ ['('] ++ ds = g ++ '(' :: ds by simp]
    exact .application hf hs

end Frame

/-- The complete items of an open frame, each with the comma behind it. -/
inductive Earlier : List Char → List Term → Prop
  | none : Earlier [] []
  | items {cs : List Char} {ts : List Term} : Items cs ts → Earlier (cs ++ [',']) ts

/-- The characters that have opened the frames, innermost first, with their complete items. -/
inductive Opened : List Frame → List Char → Prop
  | nil : Opened [] []
  | cons {f : Frame} {fs : List Frame} {cs before opening earlier : List Char} {ts : List Term} :
    Opened fs cs → Blanks before → f.Opens opening → Earlier earlier ts →
    Opened (f.addAll ts :: fs) (cs ++ before ++ opening ++ earlier)

/-- The characters behind the last opening or comma. -/
def Mode.Spells : Mode → List Char → Prop
  | .element, cs | .first, cs => Blanks cs
  | .string read, cs => ∃ before body, cs = before ++ '"' :: body ∧ Blanks before ∧
    Body body read.reverse
  | .escape read, cs => ∃ before body, cs = before ++ '"' :: body ++ ['\\'] ∧ Blanks before ∧
    Body body read.reverse
  | .name read, cs => ∃ before, cs = before ++ read.reverse ∧ Blanks before ∧ Name read.reverse
  | .number value _, cs => ∃ before digits, cs = before ++ digits ∧ Blanks before ∧ digits ≠ [] ∧
    (∀ c ∈ digits, c.isDigit = true) ∧ value = Nat.ofDigitChars 10 digits 0
  | .complete t, cs => Item cs t

/-- A text has been gone through as the reader has it. -/
structure Reader.Traces (r : Reader) (cs : List Char) : Prop where
  split : ∃ outer inner, cs = outer ++ inner ∧ Opened r.frames outer ∧ r.mode.Spells inner
  /-- Behind an opening bracket the frame is empty. -/
  first : r.mode = .first → ∃ f fs, r.frames = f :: fs ∧ f.items = []

theorem Earlier.eq_nil (h : Earlier cs []) : cs = [] := by
  cases h with
  | none => rfl
  | items h =>
    generalize hts : ([] : List Term) = ts at h
    cases h <;> simp at hts

/-- One more item behind the complete ones. -/
theorem Earlier.item (h : Earlier cs ts) (hi : Item ds t) : Items (cs ++ ds) (ts ++ [t]) := by
  cases h with
  | none => exact .one hi
  | items h =>
    rw [List.append_assoc]
    exact .more h hi

/-- A backslash and the character behind it are a body by themselves. -/
theorem body_unescape (c : Char) : Body ['\\', c] (unescape c).reverse := by
  by_cases h : c ∈ escapes.map Prod.fst
  · obtain ⟨⟨c', d⟩, hmem, rfl⟩ := List.mem_map.mp h
    rw [unescape_of_mem hmem]
    exact .escape hmem .nil
  · rw [unescape_of_notMem h]
    exact .backslash h .nil

/-- An element that may end behind the reader is an item. -/
theorem item_of_element? (h : r.element? = some t) (hs : r.mode.Spells cs) : Item cs t := by
  have hitem : ∀ {before es : List Char} {u : Term}, Blanks before → Element es u →
      Item (before ++ es) u := fun hb he => .blanks_append hb (.of_element he)
  cases hm : r.mode with
  | element | first | string | escape => simp [element?, hm] at h
  | complete u =>
    -- the mode says which text the element has, and what is blank in front of it
    simp only [element?, hm, Option.some.injEq] at h
    rw [hm] at hs
    exact h ▸ hs
  | name read =>
    simp only [element?, hm, Option.some.injEq] at h
    rw [hm] at hs
    obtain ⟨before, rfl, hbefore, hname⟩ := hs
    exact h ▸ hitem hbefore (.constant hname)
  | number value start =>
    simp only [element?, hm, Option.ite_none_right_eq_some, Option.some.injEq] at h
    rw [hm] at hs
    obtain ⟨before, digits, rfl, hbefore, hne, hdigits, rfl⟩ := hs
    obtain ⟨hlt, rfl⟩ := h
    exact hitem hbefore (.numeral ⟨hne, hdigits, hlt⟩)

theorem Opened.opening (h : Opened fs cs) (hb : Blanks ds) (ho : f.Opens s) :
    Opened (f :: fs) (cs ++ (ds ++ s)) := by
  have hcons := Opened.cons h hb ho .none
  rwa [Frame.addAll_nil, List.append_nil, List.append_assoc] at hcons

/-- One more item of the innermost frame, with the comma behind it. -/
theorem Opened.comma (h : Opened (f :: fs) cs) (hi : Item ds t) :
    Opened (f.add t :: fs) (cs ++ (ds ++ [','])) := by
  cases h with
  | @cons g _ cs before opening earlier ts h hb hg he =>
    have hcons := Opened.cons h hb hg (.items (he.item hi))
    rw [← Frame.add_addAll] at hcons
    simpa only [List.append_assoc] using hcons

/-- Behind its last item, the innermost frame is closed to an item of the one around it. -/
theorem Opened.close (h : Opened (f :: fs) cs) (hi : Item ds t) : ∃ outer inner,
    cs ++ (ds ++ [f.closer]) = outer ++ inner ∧ Opened fs outer ∧ Item inner (f.add t).close := by
  cases h with
  | @cons g _ cs before opening earlier ts h hb hg he =>
    have helement := hg.element (.items (he.item hi))
    rw [← Frame.add_addAll] at helement
    exact ⟨cs, _, by simp only [Frame.closer_addAll, List.append_assoc], h,
      .blanks_append hb (.of_element helement)⟩

/-- So is a frame without items. -/
theorem Opened.close_empty (h : Opened (f :: fs) cs) (hf : f.items = []) (hds : Blanks ds) :
    ∃ outer inner,
      cs ++ (ds ++ [f.closer]) = outer ++ inner ∧ Opened fs outer ∧ Item inner f.close := by
  cases h with
  | @cons g _ cs before opening earlier ts h hb hg he =>
    rw [Frame.items_addAll, List.append_eq_nil_iff, List.reverse_eq_nil_iff] at hf
    obtain ⟨rfl, -⟩ := hf
    obtain rfl := he.eq_nil
    have helement := hg.element (.blanks hds)
    exact ⟨cs, _, by simp only [Frame.closer_addAll, List.append_assoc, List.nil_append], h,
      .blanks_append hb (.of_element helement)⟩

/-- Unless the reader is right behind an opening bracket, its frames and its mode are all there is
to what it traces. -/
theorem traces_of_spells {outer inner : List Char} (ho : Opened r.frames outer)
    (hs : r.mode.Spells inner) (hfirst : r.mode ≠ .first) : r.Traces (outer ++ inner) :=
  ⟨⟨outer, inner, rfl, ho, hs⟩, fun hm => absurd hm hfirst⟩

theorem spells_blanks (h : r.Awaits) (hs : r.mode.Spells cs) : Blanks cs := by
  rcases h with hm | hm <;> exact (congrArg (Mode.Spells · cs) hm).mp hs

/-- A character that is read is one more of the text that is traced. -/
theorem Reader.Traces.feed (h : r.Traces cs) (hc : r.feed c = .ok r') : r'.Traces (cs ++ [c]) := by
  obtain ⟨⟨outer, inner, rfl, ho, hs⟩, hfirst⟩ := h
  have hfeeds := feeds_feed r c
  rw [hc] at hfeeds
  rw [List.append_assoc]
  cases hfeeds with
  | blank hr hb =>
    -- blanks in front of an element change nothing about what is awaited
    refine ⟨⟨outer, _, rfl, ho, ?_⟩, hfirst⟩
    have hblanks : Blanks (inner ++ [c]) := by
      simp [spells_blanks hr hs, hb]
    rcases hr with hm | hm <;> exact (congrArg (Mode.Spells · _) hm).mpr hblanks
  | quote hr hq =>
    -- the first character of an element, which is spelled from here on
    subst hq
    exact traces_of_spells ho ⟨inner, [], rfl, spells_blanks hr hs, .nil⟩ (by simp [next])
  | bracket hr hq =>
    subst hq
    refine ⟨⟨_, [], ?_, ho.opening (spells_blanks hr hs) .list, blanks_nil⟩,
      fun _ => ⟨_, _, rfl, rfl⟩⟩
    rw [List.append_nil]
  | letter hr hl =>
    exact traces_of_spells ho ⟨inner, rfl, spells_blanks hr hs, hl, by simp⟩ (by simp [next])
  | digit hr hd =>
    exact traces_of_spells ho ⟨inner, [c], rfl, spells_blanks hr hs, by simp, by simpa using hd,
      by simp [Nat.ofDigitChars_cons, digitValue]⟩ (by simp [next])
  | empty f fs hm hf hq =>
    -- a bracket that closes right behind the one that opens
    subst hq
    obtain ⟨f', fs', hf', hitems⟩ := hfirst hm
    obtain ⟨rfl, rfl⟩ := List.cons.inj (hf.symm.trans hf')
    rw [hf] at ho
    obtain ⟨outer', inner', heq, ho', hi⟩ := ho.close_empty hitems (spells_blanks (.inr hm) hs)
    rw [heq]
    exact traces_of_spells ho' hi (by simp [next])
  | endString read hm hq =>
    -- the quote that ends a string makes it an element
    subst hq
    rw [hm] at hs
    obtain ⟨before, body, rfl, hb, hbody⟩ := hs
    refine traces_of_spells ho ?_ (by simp [next])
    rw [List.append_assoc]
    exact .blanks_append hb (.of_element (.string hbody))
  | backslash read hm hq =>
    -- one more character of the element, spelled like those before it
    subst hq
    rw [hm] at hs
    obtain ⟨before, body, rfl, hb, hbody⟩ := hs
    exact traces_of_spells ho ⟨before, body, rfl, hb, hbody⟩ (by simp [next])
  | plain read hm hquote hbackslash =>
    rw [hm] at hs
    obtain ⟨before, body, rfl, hb, hbody⟩ := hs
    refine traces_of_spells ho ⟨before, body ++ [c], by simp, hb, ?_⟩ (by simp [next])
    rw [List.reverse_cons]
    exact hbody.append (.plain hquote hbackslash .nil)
  | escaped read hm =>
    rw [hm] at hs
    obtain ⟨before, body, rfl, hb, hbody⟩ := hs
    refine traces_of_spells ho ⟨before, body ++ ['\\', c], by simp, hb, ?_⟩ (by simp [next])
    rw [List.reverse_append]
    exact hbody.append (body_unescape c)
  | nameChar read hm hn =>
    rw [hm] at hs
    obtain ⟨before, rfl, hb, hname⟩ := hs
    refine traces_of_spells ho ⟨before, by simp, hb, ?_⟩ (by simp [next])
    rw [List.reverse_cons]
    exact hname.append (by simpa using hn)
  | parenthesis read hm hq =>
    -- the name opens a frame, and is no element of its own
    subst hq
    rw [hm] at hs
    obtain ⟨before, rfl, hb, hname⟩ := hs
    refine ⟨⟨_, [], ?_, ho.opening hb (.application hname), blanks_nil⟩,
      fun _ => ⟨_, _, rfl, rfl⟩⟩
    simp
  | moreDigits value start hm hd =>
    rw [hm] at hs
    obtain ⟨before, digits, rfl, hb, -, hdigits, rfl⟩ := hs
    refine traces_of_spells ho ⟨before, digits ++ [c], by simp, hb, by simp, ?_, ?_⟩
      (by simp [next])
    · simpa [or_imp, forall_and] using ⟨hdigits, hd⟩
    · simp [Nat.ofDigitChars_append, Nat.ofDigitChars_cons, digitValue]
  | after t ht hb =>
    -- an element has come to its end, and what has been spelled is an item
    exact traces_of_spells ho ((item_of_element? ht hs).append_blanks (by simpa using hb))
      (by simp [next])
  | comma t f fs ht hf hq =>
    subst hq
    rw [hf] at ho
    refine ⟨⟨_, [], ?_, ho.comma (item_of_element? ht hs), blanks_nil⟩, by simp [next]⟩
    rw [List.append_nil]
  | close t f fs ht hf hq =>
    subst hq
    rw [hf] at ho
    obtain ⟨outer', inner', heq, ho', hi⟩ := ho.close (item_of_element? ht hs)
    rw [heq]
    exact traces_of_spells ho' hi (by simp [next])

/-- Every reader traces the text that it has read. -/
theorem Reader.Reads.traces (h : Reads {} cs r) : r.Traces cs := by
  induction cs using List.reverseRecOn generalizing r with
  | nil =>
    obtain rfl := reads_nil_iff.mp h
    exact ⟨⟨[], [], rfl, .nil, blanks_nil⟩, by simp⟩
  | append_singleton cs c ih =>
    obtain ⟨r', hr', hc⟩ := reads_concat_iff.mp h
    exact (ih hr').feed hc

/-! ### The texts of a term -/

/-- What is read as a term is a written form of it. -/
theorem item_of_parseChars (h : Term.parseChars cs = .ok t) : Item cs t := by
  obtain ⟨r, hr, helement, hframes⟩ := Term.parseChars_eq_ok_iff.mp h
  obtain ⟨⟨outer, inner, rfl, ho, hs⟩, -⟩ := hr.traces
  rw [hframes] at ho
  cases ho with
  | nil => exact item_of_element? helement hs

/-- A text is read as a term if and only if it is a written form of the term: an element of the
grammar that denotes it, between blanks. -/
theorem parse_eq_ok_iff (text : String) (t : Term) :
    Term.parse text = .ok t ↔ Item text.toList t :=
  ⟨item_of_parseChars, Item.parseChars_eq⟩

example : Term.parse " f( [ ] ,\t\"\\q\" )\r\n" = .ok (.application "f" [.list [], .str "\\q"]) := by
  rfl

end ScannerlessLR
