/-
The serialized form of a table is loaded as that table, and that of a range set as the range set.

What is written for a record is read as that record, part by part, so that no part can
be taken for another.  Two things only are not in the hands of the records: the numbers
of a term stay below 2³², and the names in a production have to be names.  A range set is
printed on its own as well, with no term in between: what is printed is the written form
of its term.  Inverted spans and the empty set are printed like all others.

* `mapM_map_eq_ok` — reading what has been written, for the items of a list;
* `Table.ofTerm_toTerm` — a table is read from its term, record by record;
* `Table.readable_toTerm` — the term can be written as a text;
* `parse_text_toTerm` — both together: loading undoes writing;
* `RangeSet.text_toTerm` — a range set is printed as its term is written;
* `load_text` — so it is loaded again, range by range.
-/
import ScannerlessLR.Proofs.Table.Validation
import ScannerlessLR.Proofs.Term.Printing
import ScannerlessLR.Table.Decode
import ScannerlessLR.Table.Encode

namespace ScannerlessLR

/-- Items that are read as what has been written are so in a list. -/
theorem mapM_map_eq_ok {α ε : Type} {write : α → Term} {read : Term → Except ε α} {as : List α}
    (h : ∀ a ∈ as, read (write a) = .ok a) : (as.map write).mapM read = .ok as := by
  induction as with
  | nil => rfl
  | cons a as ih =>
    obtain ⟨ha, has⟩ := List.forall_mem_cons.mp h
    rw [List.map_cons, List.mapM_cons, ha, ih has]
    rfl

/-! ### Reading the terms of records -/

theorem Range.ofTerm_toTerm (r : Range) : ofTerm r.toTerm = .ok r := by
  cases r <;> rfl

theorem RangeSet.ofTerm_toTerm (s : RangeSet) : ofTerm s.toTerm = .ok s := by
  show (do return ⟨← (s.ranges.map Range.toTerm).mapM Range.ofTerm⟩) = Except.ok s
  rw [mapM_map_eq_ok fun r _ => r.ofTerm_toTerm]
  rfl

theorem Attribute.ofTerm_toTerm (a : Attribute) : ofTerm a.toTerm = .ok a := by
  cases a with
  | assoc side => cases side <;> rfl
  | cons | bracket | recover | reject | prefer | avoid | placeholder => rfl

theorem Label.ofTerm_toTerm (l : Label) : ofTerm l.toTerm = .ok l := by
  show (do
    let attributes ← (l.attributes.map Attribute.toTerm).mapM Attribute.ofTerm
    return { l with attributes }) = Except.ok l
  rw [mapM_map_eq_ok fun a _ => a.ofTerm_toTerm]
  rfl

theorem ReduceStatus.ofTerm_code (s : ReduceStatus) : ofTerm (.int s.code) = .ok s := by
  cases s <;> rfl

/-- A reduction is read from its terms, unless its arity is too great to be written. -/
theorem Reduction.ofTerms_eq_ok {r : Reduction} (h : r.arity < UInt32.size) :
    ofTerms (.int (.ofNat r.arity)) (.int r.label) (.int r.status.code) = .ok r := by
  have harity : (UInt32.ofNat r.arity).toNat = r.arity := UInt32.toNat_ofNat_of_lt' h
  show (do
    let status ← ReduceStatus.ofTerm (.int r.status.code)
    return { arity := (UInt32.ofNat r.arity).toNat, label := r.label, status }) = Except.ok r
  rw [ReduceStatus.ofTerm_code, harity]
  rfl

theorem followOfTerm_followToTerm (s : RangeSet) : followOfTerm (followToTerm s) = .ok s :=
  s.ofTerm_toTerm

theorem ActionItem.ofTerm_toTerm {item : ActionItem}
    (h : ∀ r, item.reduction? = some r → r.arity < UInt32.size) :
    ofTerm item.toTerm = .ok item := by
  cases item with
  | shift target => rfl
  | accept => rfl
  | reduce r =>
    show (do return .reduce (← Reduction.ofTerms (.int (.ofNat r.arity)) (.int r.label)
      (.int r.status.code))) = Except.ok (reduce r)
    rw [Reduction.ofTerms_eq_ok (h r rfl)]
    rfl
  | reduceUnless r forbidden =>
    show (do
      let reduction ← Reduction.ofTerms (.int (.ofNat r.arity)) (.int r.label) (.int r.status.code)
      return .reduceUnless reduction (← (forbidden.map followToTerm).mapM followOfTerm)) =
        Except.ok (reduceUnless r forbidden)
    rw [Reduction.ofTerms_eq_ok (h r rfl), mapM_map_eq_ok fun s _ => followOfTerm_followToTerm s]
    rfl

example : (ActionItem.reduceUnless ⟨1, 257, .prefer⟩ [⟨[.span 9 0, .single 98]⟩]).toTerm.text =
    "reduce(1, 257, 2, [follow-restriction([char-class([range(9, 0), 98])])])" := rfl

theorem Goto.ofTerm_toTerm (g : Goto) : ofTerm g.toTerm = .ok g := by
  show (do return { labels := ← RangeSet.ofTerm g.labels.toTerm, target := g.target }) = Except.ok g
  rw [RangeSet.ofTerm_toTerm]
  rfl

theorem Action.ofTerm_toTerm {a : Action}
    (h : ∀ item ∈ a.items, ∀ r, item.reduction? = some r → r.arity < UInt32.size) :
    ofTerm a.toTerm = .ok a := by
  show (do
    let items ← (a.items.map ActionItem.toTerm).mapM ActionItem.ofTerm
    return { points := ← RangeSet.ofTerm a.points.toTerm, items }) = Except.ok a
  rw [mapM_map_eq_ok fun item hitem => ActionItem.ofTerm_toTerm (h item hitem),
    RangeSet.ofTerm_toTerm]
  rfl

theorem State.ofTerm_toTerm {s : State}
    (h : ∀ a ∈ s.actions, ∀ item ∈ a.items, ∀ r, item.reduction? = some r →
      r.arity < UInt32.size) : ofTerm s.toTerm = .ok s := by
  show (do
    let gotos ← (s.gotos.map Goto.toTerm).mapM Goto.ofTerm
    return { s with gotos, actions := ← (s.actions.map Action.toTerm).mapM Action.ofTerm }) =
      Except.ok s
  rw [mapM_map_eq_ok fun g _ => g.ofTerm_toTerm,
    mapM_map_eq_ok fun a ha => Action.ofTerm_toTerm (h a ha)]
  rfl

namespace Table

variable {t : Table}

/-- What is read from the term of a table are its records, of which the table is built again. -/
theorem ofTerm_toTerm (h : ∀ s ∈ t.states, ∀ a ∈ s.actions, ∀ item ∈ a.items, ∀ r,
      item.reduction? = some r → r.arity < UInt32.size) :
    ofTerm t.toTerm = build t.start t.states t.labels := by
  show (do
    let labels ← (t.labels.map Label.toTerm).mapM Label.ofTerm
    let states ← (t.states.map State.toTerm).mapM State.ofTerm
    build t.start states labels) = build t.start t.states t.labels
  rw [mapM_map_eq_ok fun l _ => l.ofTerm_toTerm,
    mapM_map_eq_ok fun s hs => State.ofTerm_toTerm (h s hs)]
  rfl

end Table

/-! ### Writing the terms of records -/

theorem Range.readable_toTerm (r : Range) : r.toTerm.Readable := by
  cases r <;> simp +decide [toTerm]

theorem RangeSet.readable_toTerm (s : RangeSet) : s.toTerm.Readable :=
  Term.readable_list.mpr (List.forall_mem_map.mpr fun r _ => r.readable_toTerm)

theorem Attribute.readable_toTerm (a : Attribute) : a.toTerm.Readable := by
  cases a with
  | cons name => simp +decide [toTerm]
  | assoc side => cases side <;> decide
  | bracket | recover | reject | prefer | avoid | placeholder => decide

theorem Label.readable_toTerm {l : Label} (h : l.production.Readable) : l.toTerm.Readable := by
  simp +decide [toTerm, h, Attribute.readable_toTerm]

theorem readable_followToTerm (s : RangeSet) : (followToTerm s).Readable := by
  simp +decide [followToTerm, s.readable_toTerm]

theorem ActionItem.readable_toTerm (item : ActionItem) : item.toTerm.Readable := by
  cases item with
  | shift target => simp +decide [toTerm]
  | accept => decide
  | reduce r => simp +decide [toTerm, Reduction.toTerms]
  | reduceUnless r forbidden =>
    simp +decide [toTerm, Reduction.toTerms, readable_followToTerm]

theorem Goto.readable_toTerm (g : Goto) : g.toTerm.Readable := by
  simp +decide [toTerm, g.labels.readable_toTerm]

theorem Action.readable_toTerm (a : Action) : a.toTerm.Readable := by
  simp +decide [toTerm, a.points.readable_toTerm, ActionItem.readable_toTerm]

theorem State.readable_toTerm (s : State) : s.toTerm.Readable := by
  simp +decide [toTerm, Goto.readable_toTerm, Action.readable_toTerm]

/-- The serialized form of a table can be written, as far as its productions can. -/
theorem Table.readable_toTerm {t : Table} (h : ∀ l ∈ t.labels, l.production.Readable) :
    t.toTerm.Readable := by
  have hlabels : ∀ l ∈ t.labels, l.toTerm.Readable := fun l hl => Label.readable_toTerm (h l hl)
  simpa +decide [toTerm, State.readable_toTerm] using hlabels

/-! ### Loading what has been written -/

/-- Where no two entries have the same key, the entries are those that are found by their keys. -/
theorem find?_key_eq_some_iff {α β : Type} [DecidableEq β] {key : α → β} {as : List α}
    (h : (as.map key).Nodup) {b : β} {a : α} :
    as.find? (key · = b) = some a ↔ a ∈ as ∧ key a = b := by
  constructor
  · intro hf
    exact ⟨List.mem_of_find?_eq_some hf, by simpa using List.find?_some hf⟩
  · rintro ⟨ha, rfl⟩
    cases hf : as.find? (key · = key a) with
    | none => exact absurd (List.find?_eq_none.mp hf a ha) (by simp)
    | some a' =>
      have hkey : key a' = key a := by simpa using List.find?_some hf
      rw [List.inj_on_of_nodup_map h (List.mem_of_find?_eq_some hf) ha hkey]

/-- Loading undoes writing: the text of a table's serialized form is loaded as that table, with the
states and the labels of which it has been built, in their order and under their ids.  The arities
have to be numbers that can be written, and the names in the productions names that can be read. -/
theorem parse_text_toTerm {start : StateId} {states : List State} {labels : List Label} {t : Table}
    (hbuild : Table.build start states labels = .ok t)
    (harity : ∀ s ∈ states, ∀ a ∈ s.actions, ∀ item ∈ a.items, ∀ r, item.reduction? = some r →
      r.arity < UInt32.size)
    (hnames : ∀ l ∈ labels, l.production.Readable) :
    Table.parse t.toTerm.text = .ok t ∧
      t.start = start ∧ t.states = states ∧ t.labels = labels ∧
      (∀ id s, t.state? id = some s ↔ s ∈ states ∧ s.id = id) ∧
      ∀ id l, t.label? id = some l ↔ l ∈ labels ∧ l.id = id := by
  obtain ⟨rfl, rfl, rfl⟩ := Table.eq_of_build hbuild
  refine ⟨?_, rfl, rfl, rfl, ?_, ?_⟩
  · have hread : Term.parse t.toTerm.text = .ok t.toTerm :=
      (Table.readable_toTerm hnames).parse_eq
    calc
      Table.parse t.toTerm.text = Table.ofTerm t.toTerm := by rw [Table.parse, hread]
      _ = Table.build t.start t.states t.labels := Table.ofTerm_toTerm harity
      _ = .ok t := hbuild
  · exact fun id s => find?_key_eq_some_iff t.states_nodup
  · exact fun id l => find?_key_eq_some_iff t.labels_nodup

/-- Records of every kind, with an inverted range, a list of follow restrictions that is empty, and
the greatest arity that can be written. -/
theorem parse_text_toTerm_sorts :
    let states : List State := [
      { id := 0, gotos := [⟨.single 257, 2⟩, ⟨⟨[.single 258, .span 9 0]⟩, 1⟩],
        actions := [⟨.span 97 122, [.shift 1, .reduceUnless ⟨0, 257, .avoid⟩ []]⟩] },
      { id := 1, actions := [⟨.single 256, [
        .reduceUnless ⟨1, 257, .prefer⟩ [.single 98, ⟨[]⟩], .reduce ⟨4294967295, 258, .reject⟩]⟩] },
      { id := 2, actions := [⟨.single 256, [.accept]⟩] }]
    let labels : List Label := [
      ⟨257, .application "sort" [.str "A\n"],
        [.cons "\"", .assoc .left, .assoc .right, .recover, .placeholder]⟩,
      ⟨258, .constant "empty", [.bracket, .reject, .prefer, .avoid]⟩]
    ∃ t, Table.build 0 states labels = .ok t ∧
      (∀ s ∈ states, ∀ a ∈ s.actions, ∀ item ∈ a.items, ∀ r, item.reduction? = some r →
        r.arity < UInt32.size) ∧
      (∀ l ∈ labels, l.production.Readable) ∧
      Table.parse t.toTerm.text = .ok t ∧
      t.state? 2 = some { id := 2, actions := [⟨.single 256, [.accept]⟩] } := by
  intro states labels
  have hcoherent : Coherent 0 states labels := by decide
  obtain ⟨t, ht⟩ := Table.exists_build_iff.mpr hcoherent
  have harity : ∀ s ∈ states, ∀ a ∈ s.actions, ∀ item ∈ a.items, ∀ r,
      item.reduction? = some r → r.arity < UInt32.size := by
    simp [states, ActionItem.reduction?, UInt32.size]
  have hnames : ∀ l ∈ labels, l.production.Readable := by decide
  obtain ⟨hparse, -, -, -, hstate, -⟩ := parse_text_toTerm ht harity hnames
  exact ⟨t, ht, harity, hnames, hparse, (hstate 2 _).mpr (by simp [states])⟩

/-! ### Range sets on their own -/

theorem Term.charsOfList_eq (ts : List Term) :
    charsOfList ts = [',', ' '].intercalate (ts.map Term.chars) := by
  induction ts with
  | nil => rfl
  | cons t ts ih =>
    cases ts with
    | nil => simp [charsOfList]
    | cons u ts =>
      rw [charsOfList, ih, List.map_cons, List.map_cons, List.map_cons,
        List.intercalate_cons_cons, List.append_assoc]
      rfl

/-- A range is printed as its term is written. -/
theorem Range.chars_toTerm (r : Range) : r.toTerm.chars = r.chars := by
  cases r with
  | single p => rfl
  | span low high =>
    show "range".toList ++ '(' :: (decimal low.toNat ++ ',' :: ' ' :: decimal high.toNat) ++ [')'] =
      "range".toList ++ ['('] ++ decimal low.toNat ++ [',', ' '] ++ decimal high.toNat ++ [')']
    simp only [List.append_assoc, List.cons_append, List.nil_append]

/-- A range set is printed as its term is written. -/
theorem RangeSet.text_toTerm (s : RangeSet) : s.toTerm.text = s.text := by
  have hchars : (s.ranges.map Range.toTerm).map Term.chars = s.ranges.map Range.chars := by
    rw [List.map_map]
    exact List.map_congr_left fun r _ => r.chars_toTerm
  rw [Term.text, toTerm, Term.chars, Term.charsOfList_eq, hchars, text, chars]

/-- What is printed for a range set can be read, and the term that it is read as is loaded as the
range set itself: the same ranges in the same order, with the same bounds. -/
theorem load_text (s : RangeSet) :
    ∃ t, Term.parse s.text = .ok t ∧ RangeSet.ofTerm t = .ok s := by
  refine ⟨s.toTerm, ?_, s.ofTerm_toTerm⟩
  rw [← s.text_toTerm]
  exact s.readable_toTerm.parse_eq

example : (RangeSet.mk [.span 9 0, .single 4294967295]).text = "[range(9, 0), 4294967295]" := rfl

end ScannerlessLR
