/-
The grammar of written terms.

It says which characters make up a term, and which term that is, with no regard to how
they are read: an item of a list is an element with blanks on both sides, items are
separated by commas, and only a name without arguments does without parentheses.

* `Grammar.Element` — a string, an integer, a list, a name or an application;
* `Grammar.Item` — an element between blanks, which is what a whole text has to be;
* `Grammar.Sequence` — what stands between brackets;
* `Grammar.Items.cons` — items may be taken from the front as well as from the back.
-/
import Mathlib.Data.Nat.Notation
import ScannerlessLR.Term.Basic

namespace ScannerlessLR

namespace Grammar

/-- A run of blanks. -/
def Blanks (cs : List Char) : Prop :=
  ∀ c ∈ cs, isBlank c = true

/-- A letter, and behind it letters, digits and marks. -/
def Name : List Char → Prop
  | [] => False
  | c :: cs => isNameStart c = true ∧ ∀ d ∈ cs, isNameChar d = true

instance : DecidablePred Name := fun
  | [] => inferInstanceAs (Decidable False)
  | c :: cs =>
    -- not by going through all characters there are
    haveI := cs.decidableBAll (isNameChar · = true)
    inferInstanceAs (Decidable (isNameStart c = true ∧ ∀ d ∈ cs, isNameChar d = true))

/-- At least one digit, and all of them together less than 2³². -/
structure Numeral (cs : List Char) : Prop where
  ne_nil : cs ≠ []
  digits : ∀ c ∈ cs, c.isDigit = true
  lt_size : Nat.ofDigitChars 10 cs 0 < UInt32.size

/-- The characters that have a meaning of their own behind a backslash, and this meaning. -/
def escapes : List (Char × Char) :=
  [('n', '\n'), ('r', '\r'), ('t', '\t'), ('"', '"'), ('\\', '\\')]

/-- Between double quotes, the first characters stand for the second. -/
inductive Body : List Char → List Char → Prop
  | nil : Body [] []
  | plain {c : Char} {cs s : List Char} : c ≠ '"' → c ≠ '\\' → Body cs s → Body (c :: cs) (c :: s)
  | escape {c d : Char} {cs s : List Char} :
    (c, d) ∈ escapes → Body cs s → Body ('\\' :: c :: cs) (d :: s)
  /-- In front of any other character a backslash stands for itself. -/
  | backslash {c : Char} {cs s : List Char} :
    c ∉ escapes.map Prod.fst → Body cs s → Body ('\\' :: c :: cs) ('\\' :: c :: s)

mutual

/-- The characters of an element, and the term that it denotes. -/
inductive Element : List Char → Term → Prop
  | string {cs s : List Char} : Body cs s → Element ('"' :: cs ++ ['"']) (.str (String.ofList s))
  | numeral {cs : List Char} : Numeral cs → Element cs (.int (.ofNat (Nat.ofDigitChars 10 cs 0)))
  | list {cs : List Char} {ts : List Term} : Sequence cs ts → Element ('[' :: cs ++ [']']) (.list ts)
  | constant {f : List Char} : Name f → Element f (.constant (String.ofList f))
  | application {f cs : List Char} {ts : List Term} : Name f → Sequence cs ts →
    Element (f ++ '(' :: cs ++ [')']) (.application (String.ofList f) ts)

/-- An element between blanks. -/
inductive Item : List Char → Term → Prop
  | mk {before cs after : List Char} {t : Term} : Blanks before → Element cs t → Blanks after →
    Item (before ++ cs ++ after) t

/-- At least one item, each but the first behind a comma. -/
inductive Items : List Char → List Term → Prop
  | one {cs : List Char} {t : Term} : Item cs t → Items cs [t]
  | more {cs ds : List Char} {ts : List Term} {t : Term} : Items cs ts → Item ds t →
    Items (cs ++ ',' :: ds) (ts ++ [t])

/-- What stands between brackets: blanks or items. -/
inductive Sequence : List Char → List Term → Prop
  | blanks {cs : List Char} : Blanks cs → Sequence cs []
  | items {cs : List Char} {ts : List Term} : Items cs ts → Sequence cs ts

end

variable {cs ds s s' f : List Char} {t : Term} {ts : List Term}

@[simp] theorem blanks_nil : Blanks [] := by
  simp [Blanks]

@[simp] theorem blanks_append_iff : Blanks (cs ++ ds) ↔ Blanks cs ∧ Blanks ds := by
  simp only [Blanks, List.mem_append, or_imp, forall_and]

@[simp] theorem blanks_cons_iff {c : Char} : Blanks (c :: cs) ↔ isBlank c = true ∧ Blanks cs := by
  simp only [Blanks, List.mem_cons, forall_eq_or_imp]

theorem Name.append (hf : Name f) (hcs : ∀ c ∈ cs, isNameChar c = true) : Name (f ++ cs) := by
  cases f with
  | nil => exact hf.elim
  | cons c f =>
    refine ⟨hf.1, fun d hd => ?_⟩
    rcases List.mem_append.mp hd with hd | hd
    · exact hf.2 d hd
    · exact hcs d hd

theorem Body.append (h : Body cs s) (h' : Body ds s') : Body (cs ++ ds) (s ++ s') := by
  induction h with
  | nil => exact h'
  | plain hq hb _ ih => exact .plain hq hb ih
  | escape he _ ih => exact .escape he ih
  | backslash hc _ ih => exact .backslash hc ih

theorem Item.of_element (h : Element cs t) : Item cs t := by
  have hi := Item.mk blanks_nil h blanks_nil
  rwa [List.nil_append, List.append_nil] at hi

theorem Item.blanks_append (hb : Blanks cs) (h : Item ds t) : Item (cs ++ ds) t := by
  cases h with
  | @mk before es after _ hbefore he hafter =>
    rw [show cs ++ (before ++ es ++ after) = cs ++ before ++ es ++ after by
      simp only [List.append_assoc]]
    exact .mk (blanks_append_iff.mpr ⟨hb, hbefore⟩) he hafter

theorem Item.append_blanks (h : Item cs t) (hb : Blanks ds) : Item (cs ++ ds) t := by
  cases h with
  | @mk before es after _ hbefore he hafter =>
    rw [List.append_assoc]
    exact .mk hbefore he (blanks_append_iff.mpr ⟨hafter, hb⟩)

theorem Items.blanks_append (hb : Blanks cs) : ∀ {ds ts}, Items ds ts → Items (cs ++ ds) ts
  | _, _, .one h => .one (h.blanks_append hb)
  | _, _, .more h hi => by
    rw [← List.append_assoc]
    exact .more (Items.blanks_append hb h) hi

theorem Items.cons (h : Item cs t) : ∀ {ds ts}, Items ds ts → Items (cs ++ ',' :: ds) (t :: ts)
  | _, _, .one h' => .more (.one h) h'
  | _, _, @Items.more ds es ts u h' hi => by
    have hmore := Items.more (Items.cons h h') hi
    rwa [List.append_assoc, List.cons_append] at hmore

end Grammar

end ScannerlessLR
