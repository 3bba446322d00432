/-
What the trees of links hold when a parse has ended.

The tree of a link holds what all reductions have built that were applied for the link,
and the leaf if a shift has made the link.  Links share a tree only if shifts have made
them at the same point, and all such links do.

* `Ended.holds_of_performed` — what has been built for a link is held by its tree;
* `Reached.new_link` — a new link is made by a reduction or by a shift;
* `ShiftsShare` — the links that the shifts at a point have made carry the same leaf;
* `Reached.position_eq` — no other links carry it.
-/
import ScannerlessLR.Proofs.Parser.Rejection

namespace ScannerlessLR

open Machine

variable {table : Table} {config : Config} {points : Array UInt32} {m m' : Machine}
  {a : Application} {w w' v v' : NodeId} {l l' : LinkId} {t : TreeId} {c : Tree} {x y : Moment}

/-! ### What reductions have built -/

/-- A reduction that is applied has its link, and the tree of the link holds what it builds. -/
theorem Reached.holds_of_moves (hx : Reached table config points ⟨.working, m⟩)
    (hm : Moves table config m m') (happ : m'.generation.applied = a :: m.generation.applied) :
    ∃ w v l t, (l, v) ∈ m'.graph.linksFrom w ∧ a.Builds table points m'.graph w v ∧
      m'.graph.tree? l = some t ∧ m'.forest.Holds t (a.tree m'.graph) := by
  have hw := hx.working
  have hne : m.generation.applied ≠ a :: m.generation.applied := by simp
  cases hw.changes hm with
  | still hg hf happ' | reject l hr hg hf happ' => exact absurd (happ'.symm.trans happ) hne
  | pack b v target l t hr hl ht hg hf happ' =>
    -- the tree is packed into that of the link
    obtain rfl := (List.cons.inj (happ'.symm.trans happ)).1
    have hmem := StackGraph.mem_of_findLink? hl
    have hforest : m'.forest = m.forest.packNew t (b.tree m.graph) := hf
    have hu : Moment.Uses ⟨.working, m⟩ t := .inl ⟨l, ht⟩
    rw [hg, hforest]
    exact ⟨_, v, l, t, hmem, (hw.builds_iff hr hmem).mpr hl, ht,
      (Forest.holds_packNew hx.tidy hu hu).mpr (.inr ⟨rfl, rfl⟩)⟩
  | link b v target hr hl hg hf happ' =>
    -- the tree is that of the new link
    obtain rfl := (List.cons.inj (happ'.symm.trans happ)).1
    have hext : m.graph.Extends m'.graph := hw.extends_of_moves hm
    have hforest : m'.forest = (m.forest.add (b.tree m.graph)).2 := hf
    have hget : m'.forest.get? m.forest.size = some (b.tree m.graph) := by
      rw [hforest, Forest.get?_add_self]
    refine ⟨m.holder target, v, m.graph.links.size, m.forest.size, ?_, ?_, ?_, ?_⟩
    · rw [hg]
      exact (mem_linksFrom_attach hw.roster).mpr (.inl ⟨rfl, rfl, rfl⟩)
    · rw [hg]
      exact hw.builds_attach hr _
    · rw [hg, tree?_attach, if_pos rfl]
    · exact (Forest.holds_of_plain hget trivial).mpr (hr.enabled.tree_eq hw.roster.wf hext)

/-- The tree of a link keeps what it holds. -/
theorem Reached.holds_reaches (hx : Reached table config points x)
    (hr : Relation.ReflTransGen (Next table config) x y) (ht : x.machine.graph.tree? l = some t)
    (hc : x.machine.forest.Holds t c) : y.machine.forest.Holds t c := by
  induction hr with
  | refl => exact hc
  | tail hr hn ih =>
    have hy := hx.reaches hr
    have huse := Moment.uses_of_tree? ((hx.extends_reaches hr).tree ht)
    exact (hy.ordered.restocks hn).holds hy.tidy huse ih

/-- In the end the tree of a link holds what all reductions have built that have been applied for
it. -/
theorem Ended.holds_of_performed (h : Ended table config points m)
    (ha : Performed table config points a) (hl : (l, v) ∈ m.graph.linksFrom w)
    (hb : a.Builds table points m.graph w v) (ht : m.graph.tree? l = some t) :
    m.forest.Holds t (a.tree m.graph) := by
  obtain ⟨m₀, m₁, h₀, hm, happ⟩ := ha
  have h₁ := h₀.next (.work hm)
  obtain ⟨w', v', l', t', hl', hb', ht', hc⟩ := h₀.holds_of_moves hm happ
  obtain ⟨phase, -, hr⟩ := h.reaches h₁
  have hx := h₁.reaches hr
  have hwf := hx.ordered.roster.wf
  have hext := h₁.extends_reaches hr
  -- there is one link only that the reduction builds
  obtain ⟨rfl, rfl⟩ := hb.ends_unique (hb'.mono hext) hwf fun _ _ _ => hx.entry_unique
  obtain rfl := hwf.link_unique hl (hext.mem hl')
  obtain rfl := Option.some.inj (ht.symm.trans (hext.tree ht'))
  have htree : a.tree m.graph = a.tree m₁.graph :=
    hb'.enabled.tree_eq h₁.ordered.roster.wf hext
  rw [htree]
  exact h₁.holds_reaches hr ht' hc

/-! ### What shifts have made -/

/-- A new link is made by a reduction or by a shift. -/
theorem Reached.new_link (hx : Reached table config points x) (hn : Next table config x y)
    (hl : x.machine.graph.links.size ≤ l) (hlt : l < y.machine.graph.links.size) :
    x.phase = .working ∧ LinkedByReduction table config points l ∨
      ∃ leaf s due m, x = ⟨.shifting leaf (s :: due), m⟩ ∧
        y = ⟨.shifting leaf due, m.attach s.target s.source leaf⟩ ∧ l = m.graph.links.size := by
  cases hn with
  | read | turn | leaf | shifted | strand => exact absurd hlt (Nat.not_lt.mpr hl)
  | @work m m' hm =>
    change m.graph.links.size ≤ l at hl
    change l < m'.graph.links.size at hlt
    cases hx.working.changes hm with
    | still hg | pack _ _ _ _ _ _ _ _ hg =>
      -- these steps make no link
      rw [hg] at hlt
      exact absurd hlt (Nat.not_lt.mpr hl)
    | reject l' hr hg =>
      rw [hg, StackGraph.size_links_reject] at hlt
      exact absurd hlt (Nat.not_lt.mpr hl)
    | link a v target hr hf hg =>
      rw [hg, size_links_attach] at hlt
      obtain rfl : l = m.graph.links.size := Nat.le_antisymm (Nat.le_of_lt_succ hlt) hl
      exact .inl ⟨rfl, m, m', hx, hm, rfl, by rw [hg, size_links_attach]⟩
  | @shift leaf s due m =>
    rcases m.shiftNode_cases leaf s with heq | ⟨-, heq⟩ <;> rw [heq] at hlt ⊢
    · exact absurd hlt (Nat.not_lt.mpr hl)
    -- the link that is attached is the last one
    · have hlt : l < (m.attach s.target s.source leaf).graph.links.size := hlt
      rw [size_links_attach] at hlt
      exact .inr ⟨leaf, s, due, m, rfl, rfl, Nat.le_antisymm (Nat.le_of_lt_succ hlt) hl⟩

/-- An old link has the ends, the level and the tree that it had. -/
theorem Reached.old_link (hx : Reached table config points x) (hn : Next table config x y)
    {e : Entry} (hlt : l < x.machine.graph.links.size) (hl : (l, v) ∈ y.machine.graph.linksFrom w)
    (he : y.machine.graph.entryAt? w = some e) : (l, v) ∈ x.machine.graph.linksFrom w ∧
      x.machine.graph.entryAt? w = some e ∧ y.machine.graph.tree? l = x.machine.graph.tree? l := by
  have hext := hx.ordered.extends_next hn
  have hl := hext.mem_of_lt hx.ordered.roster.wf (hx.next hn).ordered.roster.wf hlt hl
  obtain ⟨t, ht⟩ := StackGraph.exists_tree? hlt
  exact ⟨hl, hext.entry_of_lt (StackGraph.lt_of_mem_linksFrom hl) he, by rw [ht, hext.tree ht]⟩

/-- A new link that no reduction makes carries the leaf of the shifts that are due. -/
theorem Reached.new_leaf (hx : Reached table config points x) (hn : Next table config x y)
    (hmade : x.phase = .working → ¬ LinkedByReduction table config points l) {e : Entry}
    (hle : ¬ l < x.machine.graph.links.size) (hl : (l, v) ∈ y.machine.graph.linksFrom w)
    (he : y.machine.graph.entryAt? w = some e) : ∃ leaf due point, x.phase = .shifting leaf due ∧
      l = x.machine.graph.links.size ∧ e.position = x.machine.generation.level ∧
      y.machine.graph.tree? l = some leaf ∧ y.machine.forest.first? leaf = some (.leaf point) := by
  have hlt := (hx.next hn).ordered.roster.wf.link_lt hl
  obtain ⟨hphase, hlinked⟩ | ⟨leaf, s, due, m, rfl, rfl, rfl⟩ :=
    hx.new_link hn (Nat.le_of_not_lt hle) hlt
  · exact absurd hlinked (hmade hphase)
  · obtain ⟨k, point, -, -, hleaf⟩ := hx.stocked.leaf
    have hroster := hx.ordered.roster
    refine ⟨leaf, s :: due, point, rfl, rfl, ?_, (tree?_attach _).trans (if_pos rfl), ?_⟩
    · rcases (mem_linksFrom_attach hroster).mp hl with ⟨rfl, -⟩ | hl
      · rw [← Option.some.inj ((entryAt?_holder hroster).symm.trans he)]
      · exact absurd (hroster.wf.link_lt hl) hle
    · rw [forest_attach]
      exact Forest.first?_of_plain hleaf trivial

/-- The links that no reduction has made carry leaves, and those that leave nodes of the same level
the same leaf.  While shifts are made, this is the leaf of the shifts. -/
structure ShiftsShare (table : Table) (config : Config) (points : Array UInt32) (x : Moment) :
    Prop where
  leaf : ∀ l t, ¬ LinkedByReduction table config points l → x.machine.graph.tree? l = some t →
    ∃ point, x.machine.forest.first? t = some (.leaf point)
  same : ∀ l l' w w' v v' e e', ¬ LinkedByReduction table config points l →
    ¬ LinkedByReduction table config points l' → (l, v) ∈ x.machine.graph.linksFrom w →
    (l', v') ∈ x.machine.graph.linksFrom w' → x.machine.graph.entryAt? w = some e →
    x.machine.graph.entryAt? w' = some e' → e.position = e'.position →
    x.machine.graph.tree? l = x.machine.graph.tree? l'
  due : ∀ leaf due, x.phase = .shifting leaf due → ∀ l w v e,
    (l, v) ∈ x.machine.graph.linksFrom w → x.machine.graph.entryAt? w = some e →
    e.position = x.machine.generation.level → x.machine.graph.tree? l = some leaf

namespace ShiftsShare

/-- Going on keeps the leaves of shifts apart from each other, point by point. -/
theorem next (hx : Reached table config points x) (h : ShiftsShare table config points x)
    (hn : Next table config x y) : ShiftsShare table config points y where
  leaf := by
    intro l t hmade ht
    obtain ⟨w, v, hl⟩ := (hx.next hn).ordered.roster.wf.exists_ends (StackGraph.lt_of_tree? ht)
    obtain ⟨e, he⟩ := StackGraph.exists_entryAt? (StackGraph.lt_of_mem_linksFrom hl)
    by_cases hlt : l < x.machine.graph.links.size
    · rw [(hx.old_link hn hlt hl he).2.2] at ht
      obtain ⟨point, hfirst⟩ := h.leaf l t hmade ht
      have heq := (hx.ordered.restocks hn).first?_eq hx.tidy (Moment.uses_of_tree? ht)
      exact ⟨point, heq.trans hfirst⟩
    · obtain ⟨leaf, -, point, -, -, -, ht', hfirst⟩ := hx.new_leaf hn (fun _ => hmade) hlt hl he
      obtain rfl := Option.some.inj (ht'.symm.trans ht)
      exact ⟨point, hfirst⟩
  same := by
    intro l l' w w' v v' e e' hmade hmade' hl hl' he he' hlevel
    by_cases hlt : l < x.machine.graph.links.size <;>
      by_cases hlt' : l' < x.machine.graph.links.size
    · obtain ⟨hl, he, ht⟩ := hx.old_link hn hlt hl he
      obtain ⟨hl', he', ht'⟩ := hx.old_link hn hlt' hl' he'
      rw [ht, ht']
      exact h.same l l' w w' v v' e e' hmade hmade' hl hl' he he' hlevel
    · obtain ⟨leaf, due, -, hphase, -, hpos, ht', -⟩ :=
        hx.new_leaf hn (fun _ => hmade') hlt' hl' he'
      obtain ⟨hl, he, ht⟩ := hx.old_link hn hlt hl he
      rw [ht, ht', h.due leaf due hphase l w v e hl he (hlevel.trans hpos)]
    · obtain ⟨leaf, due, -, hphase, -, hpos, ht, -⟩ := hx.new_leaf hn (fun _ => hmade) hlt hl he
      obtain ⟨hl', he', ht'⟩ := hx.old_link hn hlt' hl' he'
      rw [ht, ht', h.due leaf due hphase l' w' v' e' hl' he' (hlevel.symm.trans hpos)]
    -- no step makes two links
    · obtain ⟨-, -, -, -, rfl, -⟩ := hx.new_leaf hn (fun _ => hmade) hlt hl he
      obtain ⟨-, -, -, -, rfl, -⟩ := hx.new_leaf hn (fun _ => hmade') hlt' hl' he'
      rfl
  due := by
    intro leaf due hphase l w v e hl he hlevel
    cases hn with
    | read | work | turn | shifted | strand => exact absurd hphase (by simp)
    -- no link leaves the new level yet
    | @leaf m hi hs =>
      have hle := hx.ordered.roster.level_le he
      exact absurd hlevel (Nat.ne_of_lt (Nat.lt_succ_of_le hle))
    | @shift leaf' s due' m =>
      obtain ⟨rfl, rfl⟩ := Phase.shifting.inj hphase
      by_cases hlt : l < m.graph.links.size
      · obtain ⟨hl, he, ht⟩ := hx.old_link .shift hlt hl he
        rw [ht]
        exact h.due leaf' _ rfl l w v e hl he (hlevel.trans (level_shiftNode leaf' m s))
      · obtain ⟨leaf, _, -, hphase, -, -, ht, -⟩ := hx.new_leaf .shift (by simp) hlt hl he
        rw [ht, (Phase.shifting.inj hphase).1]

end ShiftsShare

/-- At every moment of a parse, the shifts at a point share their leaf, and no other links do. -/
theorem Reached.shiftsShare (h : Reached table config points x) :
    ShiftsShare table config points x := by
  induction h with
  | refl =>
    constructor
    · exact fun l t _ ht => absurd ht (by simp [tree?_initial])
    · intro l l' w w' v v' e e' _ _ hl
      exact absurd hl (by simp [linksFrom_initial])
    · exact fun leaf due hphase => absurd hphase (by simp)
  | tail hx hn ih => exact ih.next hx hn

/-- Links that carry the same tree leave nodes of the same level. -/
theorem Reached.position_eq (hx : Reached table config points x)
    (ht : x.machine.graph.tree? l = some t) (ht' : x.machine.graph.tree? l' = some t)
    (hl : (l, v) ∈ x.machine.graph.linksFrom w) (hl' : (l', v') ∈ x.machine.graph.linksFrom w')
    {e e' : Entry} (he : x.machine.graph.entryAt? w = some e)
    (he' : x.machine.graph.entryAt? w' = some e') : e.position = e'.position := by
  have hwf := hx.ordered.roster.wf
  obtain ⟨span, rank, hfit⟩ := hx.fitting
  obtain ⟨f, hf⟩ := StackGraph.exists_entryAt? (hwf.target_lt hl)
  obtain ⟨f', hf'⟩ := StackGraph.exists_entryAt? (hwf.target_lt hl')
  obtain ⟨t₁, ht₁, -, hspan⟩ := hfit.links w l v e f hl he hf
  obtain ⟨t₂, ht₂, -, hspan'⟩ := hfit.links w' l' v' e' f' hl' he' hf'
  obtain rfl := Option.some.inj (ht.symm.trans ht₁)
  obtain rfl := Option.some.inj (ht'.symm.trans ht₂)
  exact (Prod.mk.inj (hspan.symm.trans hspan')).2

/-- The leaves that are read off the tree of a link are the points between the levels of its
nodes. -/
theorem Reached.leaves_eq (hx : Reached table config points x)
    (hl : (l, v) ∈ x.machine.graph.linksFrom w) {e f : Entry}
    (he : x.machine.graph.entryAt? w = some e) (hf : x.machine.graph.entryAt? v = some f)
    (ht : x.machine.graph.tree? l = some t) :
    x.machine.forest.leaves t = slice points f.position e.position := by
  obtain ⟨span, rank, hfit⟩ := hx.fitting
  obtain ⟨t', ht', hlt, hspan⟩ := hfit.links w l v e f hl he hf
  obtain rfl := Option.some.inj (ht.symm.trans ht')
  rw [(Forest.leaves_eq hfit.spanned hfit.ranked hlt).2, hspan]

end ScannerlessLR
