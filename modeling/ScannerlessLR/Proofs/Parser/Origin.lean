/-
Where the alternatives of the trees come from.

A tree is in use while a link carries it, or the shifts that are due are about to.  It
changes only when a reduction is packed into it, so each of its alternatives is the leaf
of a shift or what a reduction has built.  The reduction has then been applied for a
link that carries the tree.  This need not be the link at which the alternative is seen:
the links of all shifts at a point carry the same leaf, and what is packed into one of
them shows in all.

* `Restocks` — what going on does to the forest;
* `Reached.tidy` — the trees in use take up places of their own;
* `Origin` — where an alternative comes from;
* `Reached.stocked` — every alternative of a tree in use has an origin;
* `alternatives_derive` — the alternatives of a link's tree.
-/
import ScannerlessLR.Proofs.Forest.Alternatives
import ScannerlessLR.Proofs.Parser.Packing

namespace ScannerlessLR

/-- A tree is in use at a moment: a link carries it, or the links of the shifts that are due
will. -/
def Moment.Uses (x : Moment) (t : TreeId) : Prop :=
  (∃ l, x.machine.graph.tree? l = some t) ∨ ∃ due, x.phase = .shifting t due

/-- What going on does to the forest: it is left alone, or gets a new tree that may come into use,
or a new tree is packed into one that is in use. -/
inductive Restocks (x y : Moment) : Prop
  | keep (hf : y.machine.forest = x.machine.forest) (hu : ∀ t, y.Uses t → x.Uses t)
  | add (c : Tree) (hc : c.Plain) (hf : y.machine.forest = (x.machine.forest.add c).2)
      (hu : ∀ t, y.Uses t → t = x.machine.forest.size ∨ x.Uses t)
  | pack (t : TreeId) (c : Tree) (hc : c.Plain) (ht : x.Uses t)
      (hf : y.machine.forest = x.machine.forest.packNew t c) (hu : ∀ t, y.Uses t → x.Uses t)

open Machine

variable {table : Table} {config : Config} {points : Array UInt32} {m m' : Machine}
  {g g' : StackGraph} {a : Application} {w v : NodeId} {l l' : LinkId} {t : TreeId} {c : Tree}
  {x y : Moment}

/-- What a reduction builds stays the same as the graph grows. -/
theorem Application.Enabled.tree_eq (h : a.Enabled table points g v) (hwf : g.WellFormed)
    (hg : g.Extends g') : a.tree g' = a.tree g := by
  rw [tree, tree, List.filterMap_congr]
  intro l hl
  obtain ⟨t, ht⟩ := StackGraph.exists_tree? (h.walk.link_lt hwf (List.mem_reverse.mp hl))
  rw [ht, hg.tree ht]

namespace Moment

theorem uses_of_tree? (h : x.machine.graph.tree? l = some t) : x.Uses t :=
  .inl ⟨l, h⟩

/-- Unless shifts are due, a tree is in use if a link carries it. -/
theorem Uses.exists_link (h : x.Uses t) (hx : ∀ leaf due, x.phase ≠ .shifting leaf due) :
    ∃ l, x.machine.graph.tree? l = some t :=
  h.resolve_right fun ⟨due, hdue⟩ => hx t due hdue

end Moment

/-! ### The forest changes tree by tree -/

theorem Working.restocks_moves (h : Working table points m) (hm : Moves table config m m') :
    Restocks ⟨.working, m⟩ ⟨.working, m'⟩ := by
  have hlink : ∀ t, Moment.Uses ⟨.working, m'⟩ t → ∃ l, m'.graph.tree? l = some t :=
    fun t ht => ht.exists_link (by simp)
  cases h.changes hm with
  | still hg hf =>
    refine .keep hf fun t ht => .inl ?_
    rw [← hg]
    exact hlink t ht
  | reject l hr hg hf =>
    refine .keep hf fun t ht => .inl ?_
    obtain ⟨l', hl'⟩ := hlink t ht
    rw [hg, StackGraph.tree?_reject] at hl'
    exact ⟨l', hl'⟩
  | pack a v target l t hr hl ht hg hf =>
    refine .pack t (a.tree m.graph) trivial (.inl ⟨l, ht⟩) hf fun t ht => .inl ?_
    rw [← hg]
    exact hlink t ht
  | link a v target hr hl hg hf =>
    refine .add (a.tree m.graph) trivial hf fun t ht => ?_
    -- the new link carries the new tree
    obtain ⟨l', hl'⟩ := hlink t ht
    rw [hg] at hl'
    exact (tree?_attach_eq_some hl').imp And.right fun hl' => .inl ⟨l', hl'⟩

/-- Going on changes the forest in one of the ways listed. -/
theorem Moment.Ordered.restocks (h : x.Ordered table points) (hn : Next table config x y) :
    Restocks x y := by
  cases hn with
  | read | turn | strand =>
    exact .keep rfl fun t ht => .inl (ht.exists_link (by simp))
  | work hm => exact Working.restocks_moves h hm
  | @leaf m hi hs =>
    refine .add (.leaf m.token) trivial rfl fun t ht => ?_
    -- the leaf is in use from now on, though no link carries it yet
    rcases ht with hl | ⟨due, hdue⟩
    · exact .inr (.inl hl)
    · exact .inl (Phase.shifting.inj hdue).1.symm
  | @shift leaf s due m =>
    have hleaf : ∀ t, (∃ due', Phase.shifting leaf due = .shifting t due') →
        Moment.Uses ⟨.shifting leaf (s :: due), m⟩ t := by
      rintro t ⟨due', hdue⟩
      obtain ⟨rfl, -⟩ := Phase.shifting.inj hdue
      exact .inr ⟨s :: due, rfl⟩
    refine .keep (forest_shiftNode ..) fun t ht => ht.elim ?_ (hleaf t)
    rcases m.shiftNode_cases leaf s with heq | ⟨-, heq⟩ <;> rw [heq]
    · exact .inl
    · rintro ⟨l, hl⟩
      -- the link that is made carries the leaf, which is in use already
      rcases tree?_attach_eq_some hl with ⟨-, rfl⟩ | hl
      · exact .inr ⟨s :: due, rfl⟩
      · exact .inl ⟨l, hl⟩
  | shifted => exact .keep rfl fun t ht => .inl (ht.exists_link (by simp))

namespace Restocks

theorem tidy (h : Restocks x y) (ht : x.machine.forest.Tidy x.Uses) :
    y.machine.forest.Tidy y.Uses := by
  cases h with
  | keep hf hu =>
    rw [hf]
    exact ht.mono hu
  | add c hc hf hu =>
    rw [hf]
    exact (ht.add hc).mono hu
  | pack t c hc htu hf hu =>
    rw [hf]
    exact (Forest.Tidy.packNew ht htu hc).mono hu

/-- What is the first alternative of a tree in use stays it. -/
theorem first?_eq (h : Restocks x y) (ht : x.machine.forest.Tidy x.Uses) (hu : x.Uses t) :
    y.machine.forest.first? t = x.machine.forest.first? t := by
  cases h with
  | keep hf => rw [hf]
  | add c hc hf => rw [hf, Forest.first?_add ht hu]
  | pack t' c hc ht' hf => rw [hf, Forest.first?_packNew ht ht' hu]

/-- A tree in use keeps the alternatives that it has. -/
theorem holds (h : Restocks x y) (ht : x.machine.forest.Tidy x.Uses) (hu : x.Uses t)
    (hc : x.machine.forest.Holds t c) : y.machine.forest.Holds t c := by
  cases h with
  | keep hf => rwa [hf]
  | add c' hc' hf => rwa [hf, Forest.holds_add ht hu]
  | pack t' c' hc' ht' hf =>
    rw [hf, Forest.holds_packNew ht ht' hu]
    exact .inl hc

end Restocks

theorem tree?_initial (table : Table) (config : Config) (points : Array UInt32) (l : LinkId) :
    (initial table config points).graph.tree? l = none :=
  rfl

/-- At every moment of a parse the trees in use take up places of their own. -/
theorem Reached.tidy (h : Reached table config points x) : x.machine.forest.Tidy x.Uses := by
  induction h with
  | refl =>
    have hnone : ∀ t, ¬ Moment.Uses ⟨.between, initial table config points⟩ t := by
      intro t ht
      obtain ⟨l, hl⟩ := ht.exists_link (by simp)
      exact absurd hl (by simp [tree?_initial])
    exact {
      lt := fun ht => absurd ht (hnone _)
      eq := fun ht => absurd ht (hnone _)
      nonempty := fun ht => absurd ht (hnone _)
      flat := fun ht => absurd ht (hnone _) }
  | tail hx hn ih => exact ((Reached.ordered hx).restocks hn).tidy ih

/-! ### Origins -/

/-- A reduction has been applied in a step of the parse. -/
def Performed (table : Table) (config : Config) (points : Array UInt32) (a : Application) : Prop :=
  ∃ m m', Reached table config points ⟨.working, m⟩ ∧ m.Moves table config m' ∧
    m'.generation.applied = a :: m.generation.applied

/-- The node `w` is where a shift of `point` leads from the node `v`. -/
def StackGraph.Shifts (table : Table) (points : Array UInt32) (g : StackGraph) (w v : NodeId)
    (point : UInt32) : Prop :=
  ∃ e f, g.entryAt? w = some e ∧ g.entryAt? v = some f ∧ e.position = f.position + 1 ∧
    points[f.position]? = some point ∧ table.Offers points f.state f.position (.shift e.state)

/-- Where an alternative of the tree `t` comes from: it is the leaf of the shifts whose links carry
the tree, or a reduction has built it for a link that carries the tree. -/
inductive Origin (table : Table) (config : Config) (points : Array UInt32) (g : StackGraph)
    (t : TreeId) : Tree → Prop
  | shift (point : UInt32)
      (h : ∀ l w v, g.tree? l = some t → (l, v) ∈ g.linksFrom w → g.Shifts table points w v point) :
      Origin table config points g t (.leaf point)
  | reduction (a : Application) (l : LinkId) (w v : NodeId) (hp : Performed table config points a)
      (ht : g.tree? l = some t) (hl : (l, v) ∈ g.linksFrom w) (hb : a.Builds table points g w v) :
      Origin table config points g t (a.tree g)

/-- The leaf that the shifts at a moment share is that of the point behind which they are due. -/
def Phase.LeafHolds (points : Array UInt32) (f : Forest) (level : ℕ) : Phase → Prop
  | .shifting leaf _ => ∃ k point, k + 1 = level ∧ points[k]? = some point ∧
      f.get? leaf = some (.leaf point)
  | .between | .working | .stranded => True

/-- The alternatives of the trees in use have origins, and only leaves are shared.  What has been
packed into a leaf comes behind it. -/
structure Stocked (table : Table) (config : Config) (points : Array UInt32) (x : Moment) :
    Prop where
  origin : ∀ t c, x.Uses t → x.machine.forest.Holds t c →
    Origin table config points x.machine.graph t c
  leaves : ∀ t point, x.Uses t → x.machine.forest.Holds t (.leaf point) →
    x.machine.forest.first? t = some (.leaf point)
  shared : ∀ l l' t, x.machine.graph.tree? l = some t → x.machine.graph.tree? l' = some t →
    l = l' ∨ ∃ point, x.machine.forest.first? t = some (.leaf point)
  leaf : x.phase.LeafHolds points x.machine.forest x.machine.generation.level

theorem StackGraph.Shifts.mono (hg : g.Extends g') {point : UInt32}
    (h : g.Shifts table points w v point) : g'.Shifts table points w v point := by
  obtain ⟨e, f, he, hf, h⟩ := h
  exact ⟨e, f, hg.entry he, hg.entry hf, h⟩

/-- The ends of an old link are where they were. -/
theorem StackGraph.Extends.mem_of_lt (hg : g.Extends g') (hwf : g.WellFormed) (hwf' : g'.WellFormed)
    (hlt : l < g.links.size) (hl : (l, v) ∈ g'.linksFrom w) : (l, v) ∈ g.linksFrom w := by
  obtain ⟨w', v', hl'⟩ := hwf.exists_ends hlt
  obtain ⟨rfl, rfl⟩ := hwf'.ends_unique (hg.mem hl') hl
  exact hl'

/-- An alternative keeps its origin as long as no new link carries its tree. -/
theorem Origin.mono (h : Origin table config points g t c) (hg : g.Extends g')
    (hwf : g.WellFormed) (hwf' : g'.WellFormed)
    (hnew : ∀ l, g'.tree? l = some t → g.tree? l = some t) :
    Origin table config points g' t c := by
  cases h with
  | shift point h =>
    refine .shift point fun l w v ht hl => ?_
    have ht := hnew l ht
    exact (h l w v ht (hg.mem_of_lt hwf hwf' (StackGraph.lt_of_tree? ht) hl)).mono hg
  | reduction a l w v hp ht hl hb =>
    rw [← hb.enabled.tree_eq hwf hg]
    exact .reduction a l w v hp (hg.tree ht) (hg.mem hl) (hb.mono hg)

/-- A leaf in the tree of a link is the point that is shifted along the link. -/
theorem Origin.shifts {point : UInt32} (h : Origin table config points g t c)
    (hc : c = .leaf point) (ht : g.tree? l = some t) (hl : (l, v) ∈ g.linksFrom w) :
    g.Shifts table points w v point := by
  cases h with
  | shift point' h =>
    obtain rfl := Tree.leaf.inj hc
    exact h l w v ht hl
  | reduction a => exact absurd hc (by simp [Application.tree])

theorem Origin.exists_reduction {label : LabelId} {children : List TreeId}
    (h : Origin table config points g t c) (hc : c = .apply label children) :
    ∃ a l w v, Performed table config points a ∧ g.tree? l = some t ∧ (l, v) ∈ g.linksFrom w ∧
      a.Builds table points g w v ∧ c = a.tree g := by
  cases h with
  | shift point h => exact absurd hc (by simp)
  | reduction a l w v hp ht hl hb => exact ⟨a, l, w, v, hp, ht, hl, hb, rfl⟩

/-! ### Alternatives keep their origins -/

namespace Stocked

/-- A moment with the same forest, and no new links. -/
theorem keep (h : Stocked table config points x) (hf : y.machine.forest = x.machine.forest)
    (hg : x.machine.graph.Extends y.machine.graph)
    (htree : y.machine.graph.tree? = x.machine.graph.tree?)
    (hwf : x.machine.graph.WellFormed) (hwf' : y.machine.graph.WellFormed)
    (hu : ∀ t, y.Uses t → x.Uses t)
    (hleaf : y.phase.LeafHolds points y.machine.forest y.machine.generation.level) :
    Stocked table config points y where
  origin := by
    rw [hf]
    intro t c ht hc
    refine (h.origin t c (hu t ht) hc).mono hg hwf hwf' fun l hl => ?_
    rwa [htree] at hl
  leaves := by
    rw [hf]
    exact fun t point ht => h.leaves t point (hu t ht)
  shared := by
    rw [hf, htree]
    exact h.shared
  leaf := hleaf

/-- A reduction that makes a link. -/
theorem link (hx : Reached table config points ⟨.working, m⟩)
    (h : Stocked table config points ⟨.working, m⟩) (hm : Moves table config m m')
    {target : StateId} (hr : Reducible table config points m a v target)
    (hg : m'.graph = (m.attach target v m.forest.size).graph)
    (hf : m'.forest = (m.build a).2.forest)
    (ha : m'.generation.applied = a :: m.generation.applied) :
    Stocked table config points ⟨.working, m'⟩ := by
  have hw := hx.working
  have ht := hx.tidy
  have hext : m.graph.Extends m'.graph := hw.extends_of_moves hm
  have hwf' : m'.graph.WellFormed := (hw.moves hm).roster.wf
  have htree : ∀ {l t}, m'.graph.tree? l = some t →
      l = m.graph.links.size ∧ t = m.forest.size ∨ m.graph.tree? l = some t := by
    intro l t hl
    rw [hg] at hl
    exact tree?_attach_eq_some hl
  -- the place of the new tree is not in use yet
  have hold : ∀ {l t}, m.graph.tree? l = some t → t ≠ m.forest.size := by
    rintro l t hl rfl
    exact Nat.lt_irrefl _ (hx.tree_lt hl)
  have hforest : m'.forest = (m.forest.add (a.tree m.graph)).2 := hf
  have hself : m'.forest.get? m.forest.size = some (a.tree m.graph) := by
    rw [hforest, Forest.get?_add_self]
  refine { origin := ?_, leaves := ?_, shared := ?_, leaf := trivial }
  · intro t c htu hc
    change m'.forest.Holds t c at hc
    obtain ⟨l, hl⟩ := htu.exists_link (by simp)
    rcases htree hl with ⟨rfl, rfl⟩ | hlt
    · obtain rfl := (Forest.holds_of_plain hself trivial).mp hc
      have hmem : (m.graph.links.size, v) ∈ m'.graph.linksFrom (m.holder target) := by
        rw [hg]
        exact (mem_linksFrom_attach hw.roster).mpr (.inl ⟨rfl, rfl, rfl⟩)
      have hb : a.Builds table points m'.graph (m.holder target) v := hg ▸ hw.builds_attach hr _
      rw [← hr.enabled.tree_eq hw.roster.wf hext]
      exact .reduction a m.graph.links.size (m.holder target) v ⟨m, m', hx, hm, ha⟩ hl hmem hb
    · have hu : Moment.Uses ⟨.working, m⟩ t := .inl ⟨l, hlt⟩
      rw [hforest, Forest.holds_add ht hu] at hc
      refine (h.origin t c hu hc).mono hext hw.roster.wf hwf' fun l' hl' => ?_
      exact (htree hl').resolve_left fun hnew => hold hlt hnew.2
  · intro t point htu hc
    change m'.forest.Holds t (.leaf point) at hc
    obtain ⟨l, hl⟩ := htu.exists_link (by simp)
    rcases htree hl with ⟨rfl, rfl⟩ | hlt
    · exact absurd ((Forest.holds_of_plain hself trivial).mp hc) (by simp [Application.tree])
    · have hu : Moment.Uses ⟨.working, m⟩ t := .inl ⟨l, hlt⟩
      rw [hforest, Forest.holds_add ht hu] at hc
      rw [show (Moment.mk .working m').machine.forest = _ from hforest, Forest.first?_add ht hu]
      exact h.leaves t point hu hc
  · intro l l' t hl hl'
    rcases htree hl with ⟨hnew, rfl⟩ | hlt
    · rcases htree hl' with ⟨hnew', -⟩ | hlt'
      · exact .inl (hnew.trans hnew'.symm)
      · exact absurd rfl (hold hlt')
    · rcases htree hl' with ⟨-, rfl⟩ | hlt'
      · exact absurd rfl (hold hlt)
      · rw [show (Moment.mk .working m').machine.forest = _ from hforest,
          Forest.first?_add ht (Moment.uses_of_tree? hlt)]
        exact h.shared l l' t hlt hlt'

/-- A reduction that is packed into the tree of a link. -/
theorem pack (hx : Reached table config points ⟨.working, m⟩)
    (h : Stocked table config points ⟨.working, m⟩) (hm : Moves table config m m')
    {target : StateId} (hr : Reducible table config points m a v target)
    (hl : m.graph.findLink? (m.holder target) v = some l) (ht : m.graph.tree? l = some t)
    (hg : m'.graph = m.graph) (hf : m'.forest = (m.build a).2.forest.pack t m.forest.size)
    (ha : m'.generation.applied = a :: m.generation.applied) :
    Stocked table config points ⟨.working, m'⟩ := by
  have hw := hx.working
  have htidy := hx.tidy
  have hforest : m'.forest = m.forest.packNew t (a.tree m.graph) := hf
  have hu : Moment.Uses ⟨.working, m⟩ t := .inl ⟨l, ht⟩
  have hmem := StackGraph.mem_of_findLink? hl
  have huse : ∀ t', Moment.Uses ⟨.working, m'⟩ t' → Moment.Uses ⟨.working, m⟩ t' := by
    intro t' htu
    obtain ⟨l', hl'⟩ := htu.exists_link (by simp)
    exact .inl ⟨l', hg ▸ hl'⟩
  refine { origin := ?_, leaves := ?_, shared := ?_, leaf := trivial } <;> simp only [hg, hforest]
  -- the tree holds one thing more, and it comes from the reduction
  · intro t' c htu hc
    have hu' := huse t' htu
    rcases (Forest.holds_packNew htidy hu hu').mp hc with hc | ⟨rfl, rfl⟩
    · exact h.origin t' c hu' hc
    · exact .reduction a l (m.holder target) v ⟨m, m', hx, hm, ha⟩ ht hmem
        ((hw.builds_iff hr hmem).mpr hl)
  -- what is packed is no leaf
  · intro t' point htu hc
    have hu' := huse t' htu
    rw [Forest.first?_packNew htidy hu hu']
    rcases (Forest.holds_packNew htidy hu hu').mp hc with hc | ⟨-, hc⟩
    · exact h.leaves t' point hu' hc
    · exact absurd hc (by simp [Application.tree])
  · intro l₁ l₂ t' h₁ h₂
    rw [Forest.first?_packNew htidy hu (Moment.uses_of_tree? h₁)]
    exact h.shared l₁ l₂ t' h₁ h₂

/-- A point that is to be shifted gets its leaf. -/
theorem turnWithLeaf (hx : Reached table config points ⟨.working, m⟩)
    (h : Stocked table config points ⟨.working, m⟩) : Stocked table config points
      ⟨.shifting m.forest.size m.generation.shifts, m.turnWithLeaf⟩ := by
  have htidy := hx.tidy
  -- the leaf is new, so no link carries it
  have hnone : ∀ l, m.graph.tree? l ≠ some m.forest.size := by
    intro l hl
    exact Nat.lt_irrefl _ (hx.tree_lt hl)
  refine { origin := ?_, leaves := ?_, shared := ?_, leaf := ?_ }
  · intro t c ht hc
    have hc : (m.forest.add (.leaf m.token)).2.Holds t c := hc
    rcases ht with ⟨l, hl⟩ | ⟨due, hdue⟩
    · have hu : Moment.Uses ⟨.working, m⟩ t := .inl ⟨l, hl⟩
      rw [Forest.holds_add htidy hu] at hc
      exact h.origin t c hu hc
    -- no link carries the leaf yet
    · obtain rfl := (Phase.shifting.inj hdue).1
      obtain rfl := (Forest.holds_of_plain (m.forest.get?_add_self (.leaf m.token)) trivial).mp hc
      exact .shift m.token fun l w v hl => absurd hl (hnone l)
  · intro t point ht hc
    change (m.forest.add (.leaf m.token)).2.Holds t (.leaf point) at hc
    show (m.forest.add (.leaf m.token)).2.first? t = some (.leaf point)
    rcases ht with ⟨l, hl⟩ | ⟨due, hdue⟩
    · have hu : Moment.Uses ⟨.working, m⟩ t := .inl ⟨l, hl⟩
      rw [Forest.holds_add htidy hu] at hc
      rw [Forest.first?_add htidy hu]
      exact h.leaves t point hu hc
    · obtain rfl := (Phase.shifting.inj hdue).1
      have hself := m.forest.get?_add_self (.leaf m.token)
      rw [(Forest.holds_of_plain hself trivial).mp hc]
      exact Forest.first?_of_plain hself trivial
  · intro l l' t hl hl'
    refine (h.shared l l' t hl hl').imp_right fun hfirst => ?_
    show ∃ point, (m.forest.add (.leaf m.token)).2.first? t = some (.leaf point)
    rw [Forest.first?_add htidy (Moment.uses_of_tree? hl)]
    exact hfirst
  · exact ⟨m.generation.level, m.token, rfl, hx.working.token, m.forest.get?_add_self _⟩

/-- A shift that makes a link. -/
theorem shift {leaf : TreeId} {s : Shift} {due : List Shift}
    (hord : Moment.Ordered table points ⟨.shifting leaf (s :: due), m⟩)
    (h : Stocked table config points ⟨.shifting leaf (s :: due), m⟩)
    (hwf' : (m.attach s.target s.source leaf).graph.WellFormed) :
    Stocked table config points ⟨.shifting leaf due, m.attach s.target s.source leaf⟩ := by
  obtain ⟨hb, hdue⟩ := hord
  obtain ⟨k, point, hk, hpoint, hleaf⟩ := h.leaf
  change k + 1 = m.generation.level at hk
  change m.forest.get? leaf = some (.leaf point) at hleaf
  have hext : m.graph.Extends (m.attach s.target s.source leaf).graph := extends_attach hb.roster
  have huse : ∀ t, Moment.Uses ⟨.shifting leaf due, m.attach s.target s.source leaf⟩ t →
      Moment.Uses ⟨.shifting leaf (s :: due), m⟩ t := by
    rintro t (⟨l, hl⟩ | ⟨due', hdue'⟩)
    · rcases tree?_attach_eq_some hl with ⟨-, rfl⟩ | hl
      · exact .inr ⟨s :: due, rfl⟩
      · exact .inl ⟨l, hl⟩
    · obtain ⟨rfl, -⟩ := Phase.shifting.inj hdue'
      exact .inr ⟨s :: due, rfl⟩
  have hfirst : m.forest.first? leaf = some (.leaf point) := Forest.first?_of_plain hleaf trivial
  constructor <;> simp only [forest_attach, level_attach]
  · intro t c ht hc
    have hu := huse t ht
    have horigin := h.origin t c hu hc
    by_cases htl : t = leaf
    -- the new link is one more that carries the leaf
    · subst htl
      obtain rfl := (Forest.holds_of_plain hleaf trivial).mp hc
      obtain ⟨f, hf, hlevel, ho⟩ := hdue s List.mem_cons_self
      obtain rfl : k = f.position := by omega
      cases horigin with
      | shift _ hold =>
        refine .shift point fun l w v hl hmem => ?_
        rcases (mem_linksFrom_attach hb.roster).mp hmem with ⟨rfl, rfl, rfl⟩ | hmem
        · exact ⟨_, f, entryAt?_holder hb.roster, hext.entry hf, hlevel.symm, hpoint, ho⟩
        · rcases tree?_attach_eq_some hl with ⟨rfl, -⟩ | hl
          · exact absurd (hb.roster.wf.link_lt hmem) (Nat.lt_irrefl _)
          · exact (hold l w v hl hmem).mono hext
    · refine horigin.mono hext hb.roster.wf hwf' fun l hl => ?_
      exact (tree?_attach_eq_some hl).resolve_left fun hnew => htl hnew.2
  · exact fun t point ht => h.leaves t point (huse t ht)
  · intro l l' t hl hl'
    rcases tree?_attach_eq_some hl with ⟨-, rfl⟩ | hl
    · exact .inr ⟨point, hfirst⟩
    · rcases tree?_attach_eq_some hl' with ⟨-, rfl⟩ | hl'
      · exact .inr ⟨point, hfirst⟩
      · exact h.shared l l' t hl hl'
  · exact ⟨k, point, hk, hpoint, hleaf⟩

/-- Going on keeps the origins of alternatives. -/
theorem next (hx : Reached table config points x) (h : Stocked table config points x)
    (hn : Next table config x y) : Stocked table config points y := by
  have hwf := hx.ordered.roster.wf
  have hwf' := (hx.next hn).ordered.roster.wf
  -- while links keep their trees, no other tree comes to be in use
  have hlinks : (∀ leaf due, y.phase ≠ .shifting leaf due) →
      y.machine.graph.tree? = x.machine.graph.tree? → ∀ t, y.Uses t → x.Uses t := by
    intro hy htree t ht
    obtain ⟨l, hl⟩ := ht.exists_link hy
    exact .inl ⟨l, htree ▸ hl⟩
  cases hn with
  | read | turn | shifted | strand =>
    exact h.keep rfl (.refl _) rfl hwf hwf' (hlinks (by simp) rfl) trivial
  | @work m m' hm =>
    cases hx.working.changes hm with
    | still hg hf =>
      refine h.keep hf ?_ (congrArg _ hg) hwf hwf' (hlinks (by simp) (congrArg _ hg)) trivial
      show m.graph.Extends m'.graph
      rw [hg]
      exact .refl _
    | reject l hr hg hf =>
      have htree : m'.graph.tree? = m.graph.tree? := by
        funext l'
        rw [hg, StackGraph.tree?_reject]
      refine h.keep hf ?_ htree hwf hwf' (hlinks (by simp) htree) trivial
      show m.graph.Extends m'.graph
      rw [hg]
      exact StackGraph.extends_reject ..
    | pack a v target l t hr hl ht hg hf ha => exact h.pack hx hm hr hl ht hg hf ha
    | link a v target hr hl hg hf ha => exact h.link hx hm hr hg hf ha
  | leaf => exact h.turnWithLeaf hx
  | @shift leaf s due m =>
    -- without a new link, there is one shift less that is due, and nothing else
    have hkeep : Stocked table config points ⟨.shifting leaf due, m⟩ := by
      refine h.keep rfl (.refl _) rfl hwf hwf ?_ h.leaf
      rintro t (hl | ⟨due', hdue⟩)
      · exact .inl hl
      · obtain ⟨rfl, -⟩ := Phase.shifting.inj hdue
        exact .inr ⟨s :: due, rfl⟩
    rcases m.shiftNode_cases leaf s with heq | ⟨-, heq⟩ <;> rw [heq] at hwf' ⊢
    · exact hkeep
    · exact h.shift hx.ordered hwf'

end Stocked

/-- At every moment of a parse, every alternative of a tree in use has an origin. -/
theorem Reached.stocked (h : Reached table config points x) : Stocked table config points x := by
  induction h with
  | refl =>
    refine { origin := ?_, leaves := ?_, shared := ?_, leaf := trivial }
    · intro t c ht
      obtain ⟨l, hl⟩ := ht.exists_link (by simp)
      exact absurd hl (by simp [tree?_initial])
    · intro t point ht
      obtain ⟨l, hl⟩ := ht.exists_link (by simp)
      exact absurd hl (by simp [tree?_initial])
    · intro l l' t hl
      exact absurd hl (by simp [tree?_initial])
  | tail hx hn ih => exact ih.next hx hn

/-! ### The alternatives of a link -/

theorem Reached.reaches (hx : Reached table config points x)
    (hr : Relation.ReflTransGen (Next table config) x y) : Reached table config points y :=
  Relation.ReflTransGen.trans hx hr

theorem Reached.extends_reaches (hx : Reached table config points x)
    (hr : Relation.ReflTransGen (Next table config) x y) :
    x.machine.graph.Extends y.machine.graph := by
  induction hr with
  | refl => exact .refl _
  | tail hr hn ih => exact ih.trans ((hx.reaches hr).ordered.extends_next hn)

/-- What is the first alternative of a link's tree stays it. -/
theorem Reached.first?_reaches (hx : Reached table config points x)
    (hr : Relation.ReflTransGen (Next table config) x y) (ht : x.machine.graph.tree? l = some t) :
    y.machine.forest.first? t = x.machine.forest.first? t := by
  induction hr with
  | refl => rfl
  | tail hr hn ih =>
    have hy := hx.reaches hr
    have huse := Moment.uses_of_tree? ((hx.extends_reaches hr).tree ht)
    rw [(hy.ordered.restocks hn).first?_eq hy.tidy huse, ih]

/-- The first alternative of a link that a reduction has made is what the reduction has built. -/
theorem Reached.first?_of_linked (hx : Reached table config points x)
    (hmade : LinkedByReduction table config points l) (ht : x.machine.graph.tree? l = some t) :
    ∃ a g, x.machine.forest.first? t = some (Application.tree g a) := by
  obtain ⟨m, m', h₀, hm, rfl, hsize⟩ := hmade
  have hlt := StackGraph.lt_of_tree? ht
  -- the link is there, so the moment is no earlier than the one at which it has been made
  have hr : Relation.ReflTransGen (Next table config) ⟨.working, m'⟩ x := by
    rcases Relation.ReflTransGen.total_of_right_unique next_rightUnique hx h₀ with hr | hr
    · exact absurd hlt (Nat.not_lt.mpr (hx.extends_reaches hr).size_links_le)
    · rcases Relation.ReflTransGen.cases_head hr with rfl | ⟨z, hn, hr⟩
      · exact absurd hlt (Nat.lt_irrefl _)
      · rwa [next_rightUnique hn (.work hm)] at hr
  have h₁ := h₀.next (.work hm)
  cases h₀.working.changes hm with
  | still hg | pack _ _ _ _ _ _ _ _ hg =>
    rw [hg] at hsize
    omega
  | reject l hr hg =>
    rw [hg, StackGraph.size_links_reject] at hsize
    omega
  | link a v target hr' hl hg hf =>
    have htree : m'.graph.tree? m.graph.links.size = some m.forest.size := by
      rw [hg, tree?_attach, if_pos rfl]
    have hforest : m'.forest = (m.forest.add (a.tree m.graph)).2 := hf
    have hget : m'.forest.get? m.forest.size = some (a.tree m.graph) := by
      rw [hforest, Forest.get?_add_self]
    obtain rfl := Option.some.inj (ht.symm.trans ((h₁.extends_reaches hr).tree htree))
    refine ⟨a, m.graph, ?_⟩
    rw [h₁.first?_reaches hr htree]
    exact Forest.first?_of_plain hget trivial

/-- No reduction has made a link that carries a leaf. -/
theorem Reached.not_linked_of_leaf (hx : Reached table config points x)
    (ht : x.machine.graph.tree? l = some t) {point : UInt32}
    (hleaf : x.machine.forest.first? t = some (.leaf point)) :
    ¬ LinkedByReduction table config points l := by
  intro hmade
  obtain ⟨a, g, hfirst⟩ := hx.first?_of_linked hmade ht
  exact absurd (hleaf.symm.trans hfirst) (by simp [Application.tree])

/-- No other link carries the tree of a link that a reduction has made. -/
theorem Reached.eq_of_linked (hx : Reached table config points x)
    (hmade : LinkedByReduction table config points l) (ht : x.machine.graph.tree? l = some t)
    (ht' : x.machine.graph.tree? l' = some t) : l' = l := by
  rcases hx.stocked.shared l' l t ht' ht with heq | ⟨point, hleaf⟩
  · exact heq
  · exact absurd hmade (hx.not_linked_of_leaf ht hleaf)

/-- A tree stands for the transition from the node `v` up to the node `w`: it is the leaf of a shift
that leads there, or what a reduction builds that does. -/
inductive StandsFor (table : Table) (points : Array UInt32) (g : StackGraph) (f : Forest)
    (w v : NodeId) (id : TreeId) : Prop
  | shift (point : UInt32) (hget : f.get? id = some (.leaf point))
      (hs : g.Shifts table points w v point)
  | reduction (a : Application) (hb : a.Builds table points g w v) (hd : Derives g f id a)

/-- At every moment of a parse, each alternative of a link's tree stands for the transition of the
link.  The one exception are alternatives that stand for the transition of another link with the
same tree; then shifts have made both links. -/
theorem alternatives_derive (hx : Reached table config points x)
    (hl : (l, v) ∈ x.machine.graph.linksFrom w) : ∃ t, x.machine.graph.tree? l = some t ∧
      x.machine.forest.alternatives t ≠ [] ∧ ∀ id ∈ x.machine.forest.alternatives t,
        StandsFor table points x.machine.graph x.machine.forest w v id ∨
        ∃ l' w' v', l' ≠ l ∧ x.machine.graph.tree? l' = some t ∧
          (l', v') ∈ x.machine.graph.linksFrom w' ∧
          ¬ LinkedByReduction table config points l ∧ ¬ LinkedByReduction table config points l' ∧
          StandsFor table points x.machine.graph x.machine.forest w' v' id := by
  have hwf := hx.ordered.roster.wf
  obtain ⟨t, ht⟩ := StackGraph.exists_tree? (hwf.link_lt hl)
  have huse := Moment.uses_of_tree? ht
  refine ⟨t, ht, hx.tidy.nonempty huse, fun id hid => ?_⟩
  obtain ⟨c, hget, -, hc⟩ := hx.tidy.exists_holds huse hid
  cases hx.stocked.origin t c huse hc with
  | shift point h => exact .inl (.shift point hget (h l w v ht hl))
  | reduction a l' w' v' hp ht' hl' hb =>
    have hstands : StandsFor table points x.machine.graph x.machine.forest w' v' id :=
      .reduction a hb (hb.enabled.derives hwf hget)
    by_cases heq : l' = l
    · subst heq
      obtain ⟨rfl, rfl⟩ := hwf.ends_unique hl' hl
      exact .inl hstands
    -- two links with the same tree are none that reductions have made
    · refine .inr ⟨l', w', v', heq, ht', hl', fun hmade => ?_, fun hmade => ?_, hstands⟩
      · exact heq (hx.eq_of_linked hmade ht ht')
      · exact heq (hx.eq_of_linked hmade ht' ht).symm

/-- A table with two shifts of one letter, and a reduction of the letter that leads where the first
of the shifts does. -/
def Table.shared : Table where
  start := 0
  states := [
    { id := 0, gotos := [⟨.single 257, 1⟩],
      actions := [⟨.single 97, [.shift 1, .shift 2]⟩] },
    { id := 1, actions := [⟨.single 256, [.reduce ⟨1, 257, .normal⟩]⟩] },
    { id := 2, actions := [⟨.single 256, [.accept]⟩] }]
  labels := [⟨257, .application "unit" [], []⟩]
  states_nodup := by decide
  labels_nodup := by decide
  resolves := by decide

/-- The end of the parse of a letter: the links of both shifts carry the tree 0, into which the
reduction has been packed. -/
theorem reached_shared : ∃ x, Reached Table.shared {} (inputPoints {} "a".toList) x ∧
    x.machine.graph = ⟨#[⟨0, 0, []⟩, ⟨1, 1, [(0, 0)]⟩, ⟨2, 1, [(1, 0)]⟩],
      #[⟨0, false⟩, ⟨0, false⟩]⟩ ∧
    x.machine.forest = ⟨#[.amb [2, 1], .apply 257 [0], .leaf 97]⟩ := by
  obtain ⟨p, hp, hdata⟩ := exists_ok_of_toOption_map (r := (parse Table.shared "a").result)
    (f := fun p => (p.graph, p.forest)) (b := (⟨#[⟨0, 0, []⟩, ⟨1, 1, [(0, 0)]⟩, ⟨2, 1, [(1, 0)]⟩],
      #[⟨0, false⟩, ⟨0, false⟩]⟩, ⟨#[.amb [2, 1], .apply 257 [0], .leaf 97]⟩)) (by decide +kernel)
  obtain ⟨m, n, hm, -, -, -, hg, hf⟩ := parse_ok hp
  obtain ⟨hgraph, hforest⟩ := Prod.mk.inj hdata
  rw [hg] at hgraph
  rw [hf] at hforest
  rcases hm with hm | ⟨hm, -⟩ <;> exact ⟨_, hm, hgraph, hforest⟩

/-- The reduction of the letter shows on the link of the second shift, though it does not lead
there. -/
theorem not_standsFor_shared : ¬ ∀ x, Reached Table.shared {} (inputPoints {} "a".toList) x →
    ∀ w l v t, (l, v) ∈ x.machine.graph.linksFrom w → x.machine.graph.tree? l = some t →
      ∀ id ∈ x.machine.forest.alternatives t,
        StandsFor Table.shared (inputPoints {} "a".toList) x.machine.graph x.machine.forest w v
          id := by
  intro hall
  obtain ⟨x, hx, hg, hf⟩ := reached_shared
  have hstands := hall x hx 2 1 0 0 (by rw [hg]; decide) (by rw [hg]; rfl) 1 (by rw [hf]; decide)
  rw [hg, hf] at hstands
  cases hstands with
  | shift point hleaf => exact absurd hleaf (by simp [Forest.get?])
  | reduction a hb hd =>
    obtain ⟨-, d, e, f, -, he, hf, -, hgoto⟩ := hb
    -- the reduction leads from the state 0 to the state 1, and the second shift to the state 2
    obtain rfl : (⟨2, 1⟩ : Entry) = e := Option.some.inj he
    obtain rfl : (⟨0, 0⟩ : Entry) = f := Option.some.inj hf
    rw [hd.label_eq rfl] at hgoto
    exact absurd hgoto (by decide)

/-- What stands on the link of the second shift. -/
theorem alternatives_derive_shared :
    ∃ x, Reached Table.shared {} (inputPoints {} "a".toList) x ∧
      (1, 0) ∈ x.machine.graph.linksFrom 2 ∧ ∃ t, x.machine.graph.tree? 1 = some t ∧
      x.machine.forest.alternatives t ≠ [] ∧ ∀ id ∈ x.machine.forest.alternatives t,
        StandsFor Table.shared (inputPoints {} "a".toList) x.machine.graph x.machine.forest 2 0
          id ∨
        ∃ l' w' v', l' ≠ 1 ∧ x.machine.graph.tree? l' = some t ∧
          (l', v') ∈ x.machine.graph.linksFrom w' ∧
          ¬ LinkedByReduction Table.shared {} (inputPoints {} "a".toList) 1 ∧
          ¬ LinkedByReduction Table.shared {} (inputPoints {} "a".toList) l' ∧
          StandsFor Table.shared (inputPoints {} "a".toList) x.machine.graph x.machine.forest w' v'
            id := by
  obtain ⟨x, hx, hg, -⟩ := reached_shared
  have hmem : (1, 0) ∈ x.machine.graph.linksFrom 2 := by
    rw [hg]
    decide
  exact ⟨x, hx, hmem, alternatives_derive hx hmem⟩

end ScannerlessLR
