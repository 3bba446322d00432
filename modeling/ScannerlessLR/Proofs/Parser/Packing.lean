/-
Every derivation is packed exactly once.

A link that a reduction has made keeps a ledger of the reductions that have been packed
into it.  At the current level these are the reductions applied that build the link; on
a level that has been left behind they are all reductions that build it, for nothing
is left undone there and no link that is made later can complete another.

* `Application.Builds` — the reductions that build a link;
* `Listed` — the reductions that should have been packed by now, each of them once;
* `Booked` — a link with its ledger, and a list of what should be in it;
* `Booked.next` — going on keeps the ledger in order;
* `packed_once` — the alternatives of a link after a parse.
-/
import ScannerlessLR.Proofs.Parser.Ending
import ScannerlessLR.Proofs.Parser.Ledger
import ScannerlessLR.Proofs.Parser.Recognition
import ScannerlessLR.Proofs.Parser.Yield

namespace ScannerlessLR

/-- A reduction has made the link `l`, in one step of the parse. -/
def LinkedByReduction (table : Table) (config : Config) (points : Array UInt32) (l : LinkId) :
    Prop :=
  ∃ m m', Reached table config points ⟨.working, m⟩ ∧ m.Moves table config m' ∧
    m.graph.links.size = l ∧ m'.graph.links.size = l + 1

namespace Application

/-- What a reduction along a path builds: its production, applied to the trees along the path,
bottom first. -/
def tree (g : StackGraph) (a : Application) : Tree :=
  .apply a.reduction.label (a.links.reverse.filterMap g.tree?)

/-- A reduction along a path builds the link from `w` down to `v`: it is enabled at the level of
`w`, its path ends in `v`, and the goto there is the state of `w`. -/
structure Builds (table : Table) (points : Array UInt32) (g : StackGraph) (w v : NodeId)
    (a : Application) : Prop where
  enabled : a.Enabled table points g v
  goto : ∃ d e f, g.entryAt? a.node = some d ∧ g.entryAt? w = some e ∧ g.entryAt? v = some f ∧
    d.position = e.position ∧ table.gotoFrom? f.state a.reduction.label = some e.state

/-- A reduction has been applied, or its level has been left behind. -/
def Done (g : StackGraph) (level : ℕ) (applied : List Application) (a : Application) : Prop :=
  a ∈ applied ∨ ∃ d, g.entryAt? a.node = some d ∧ d.position < level

end Application

/-- The reductions `as`, each listed once, are those that build the link from `w` down to `v` and
should have been packed into it by now. -/
structure Listed (table : Table) (points : Array UInt32) (g : StackGraph) (level : ℕ)
    (applied : List Application) (w v : NodeId) (as : List Application) : Prop where
  nodup : as.Nodup
  mem_iff : ∀ a, a ∈ as ↔ a.Builds table points g w v ∧ a.Done g level applied

/-- The leaf that the shifts at a moment share is none of the given trees. -/
def Phase.LeafApart (ids : List TreeId) : Phase → Prop
  | .shifting leaf _ => leaf ∉ ids
  | .between | .working | .stranded => True

/-- The ledger of the link `l` from `w` down to `v` lists the reductions `as`, and these are the
right ones. -/
structure Booked (table : Table) (points : Array UInt32) (w v : NodeId) (l : LinkId) (t : TreeId)
    (as : List Application) (x : Moment) : Prop where
  mem : (l, v) ∈ x.machine.graph.linksFrom w
  ledger : Ledger x.machine.graph x.machine.forest l t as
  listed : Listed table points x.machine.graph x.machine.generation.level
    x.machine.generation.applied w v as
  leaf : x.phase.LeafApart (t :: x.machine.forest.alternatives t)

open Machine

variable {table : Table} {config : Config} {points : Array UInt32} {m m' : Machine}
  {g g' : StackGraph} {level : ℕ} {applied as : List Application} {a : Application}
  {w v v' : NodeId} {l : LinkId} {t : TreeId} {x y : Moment}

/-! ### What a reduction builds -/

theorem Application.done_cons {b : Application} :
    b.Done g level (a :: applied) ↔ b = a ∨ b.Done g level applied := by
  rw [Done, Done, List.mem_cons, or_assoc]

theorem Application.Builds.mono (hg : g.Extends g') (h : a.Builds table points g w v) :
    a.Builds table points g' w v := by
  obtain ⟨henabled, d, e, f, hd, he, hf, hpos, hgoto⟩ := h
  exact ⟨henabled.mono hg, d, e, f, hg.entry hd, hg.entry he, hg.entry hf, hpos, hgoto⟩

/-- What builds an old link along an old path has built it before. -/
theorem Application.Builds.of_extends (hg : g.Extends g') (hwf : g.WellFormed)
    (hwf' : g'.WellFormed) (hl : (l, v) ∈ g.linksFrom w) (ha : a.Enabled table points g v')
    (h : a.Builds table points g' w v) : a.Builds table points g w v := by
  obtain ⟨henabled, d, e, f, hd, he, hf, hpos, hgoto⟩ := h
  obtain rfl := (ha.walk.mono hg).unique hwf' henabled.walk
  obtain ⟨d', hd', -⟩ := ha.calls
  exact ⟨ha, d, e, f, hg.entry_of_lt (StackGraph.lt_of_entryAt? hd') hd,
    hg.entry_of_lt (StackGraph.lt_of_mem_linksFrom hl) he, hg.entry_of_lt (hwf.target_lt hl) hf,
    hpos, hgoto⟩

/-- A reduction that is applied builds a link just if it comes to pack into it. -/
theorem Working.builds_iff (h : Working table points m) {target : StateId}
    (hr : Reducible table config points m a v' target) (hl : (l, v) ∈ m.graph.linksFrom w) :
    a.Builds table points m.graph w v ↔ m.graph.findLink? (m.holder target) v' = some l := by
  obtain ⟨s, hs⟩ := h.entry_of_processed hr.processed
  obtain ⟨f, hf, hgoto⟩ := hr.goto
  constructor
  -- a path ends in one node, and there is one active node of the state that its goto leads to
  · rintro ⟨henabled, d, e, f', hd, he, hf', hpos, hgoto'⟩
    obtain rfl := hr.enabled.walk.unique h.roster.wf henabled.walk
    obtain rfl := Option.some.inj (hs.symm.trans hd)
    obtain rfl := Option.some.inj (hf.symm.trans hf')
    obtain rfl := Option.some.inj (hgoto.symm.trans hgoto')
    obtain ⟨state, position⟩ := e
    obtain rfl : m.generation.level = position := hpos
    rw [holder_of_some (h.roster.lookup_iff.mpr he)]
    exact h.roster.wf.findLink? hl
  · intro hfind
    obtain ⟨rfl, rfl⟩ := h.roster.wf.ends_unique hl (StackGraph.mem_of_findLink? hfind)
    exact ⟨hr.enabled, _, _, f, hs, h.roster.lookup_iff.mp (node?_of_findLink? hfind), hf, rfl,
      hgoto⟩

/-- A reduction builds the link that is made for it. -/
theorem Working.builds_attach (h : Working table points m) {target : StateId}
    (hr : Reducible table config points m a v target) (tree : TreeId) :
    a.Builds table points (m.attach target v tree).graph (m.holder target) v := by
  have hext : m.graph.Extends (m.attach target v tree).graph := extends_attach h.roster
  obtain ⟨s, hs⟩ := h.entry_of_processed hr.processed
  obtain ⟨f, hf, hgoto⟩ := hr.goto
  exact ⟨hr.enabled.mono hext, _, _, f, hext.entry hs, entryAt?_holder h.roster, hext.entry hf, rfl,
    hgoto⟩

/-- What a reduction builds derives it. -/
theorem Application.Enabled.derives {f : Forest} {id : TreeId} (h : a.Enabled table points g v)
    (hwf : g.WellFormed) (hget : f.get? id = some (a.tree g)) : Derives g f id a := by
  refine ⟨a.links.reverse.filterMap g.tree?, hget, ?_⟩
  rw [List.map_filterMap_some_eq_filter_map_isSome, List.filter_eq_self]
  intro tree? htree
  obtain ⟨l, hl, rfl⟩ := List.mem_map.mp htree
  have hlt := h.walk.link_lt hwf (List.mem_reverse.mp hl)
  exact Option.isSome_iff_exists.mpr (StackGraph.exists_tree? hlt)

/-- The tree of a reduction derives it. -/
theorem Working.derives_build (h : Working table points m) (ha : a.Enabled table points m.graph v) :
    Derives m.graph (m.build a).2.forest m.forest.size a := by
  refine ha.derives h.roster.wf ?_
  show (m.forest.add _).2.get? m.forest.size = _
  rw [Forest.get?_add, if_pos rfl]
  rfl

/-! ### The list grows -/

namespace Listed

/-- A reduction that does not build the link is not listed. -/
theorem cons_of_not_builds (h : Listed table points g level applied w v as)
    (hb : ¬ a.Builds table points g w v) : Listed table points g level (a :: applied) w v as where
  nodup := h.nodup
  mem_iff := by
    intro b
    rw [h.mem_iff, Application.done_cons]
    constructor
    · rintro ⟨hbuilds, hdone⟩
      exact ⟨hbuilds, .inr hdone⟩
    · rintro ⟨hbuilds, rfl | hdone⟩
      · exact absurd hbuilds hb
      · exact ⟨hbuilds, hdone⟩

/-- A reduction that builds the link is listed when it is applied. -/
theorem cons_of_builds (h : Listed table points g level applied w v as)
    (hb : a.Builds table points g w v) (hnew : ¬ a.Done g level applied) :
    Listed table points g level (a :: applied) w v (as ++ [a]) where
  nodup := by
    rw [← List.concat_eq_append]
    exact h.nodup.concat fun ha => hnew ((h.mem_iff a).mp ha).2
  mem_iff := by
    intro b
    rw [List.mem_append, List.mem_singleton, h.mem_iff, Application.done_cons]
    constructor
    · rintro (⟨hbuilds, hdone⟩ | rfl)
      · exact ⟨hbuilds, .inr hdone⟩
      · exact ⟨hb, .inl rfl⟩
    · rintro ⟨hbuilds, rfl | hdone⟩
      · exact .inr rfl
      · exact .inl ⟨hbuilds, hdone⟩

/-- A new link completes no reduction that should have been packed. -/
theorem attach (h : Listed table points m.graph m.generation.level applied w v as)
    (hR : Roster table m.graph m.generation.level m.generation.active)
    (hl : (l, v) ∈ m.graph.linksFrom w) {target : StateId} {bottom : NodeId} {tree : TreeId}
    (hwf : (m.attach target bottom tree).graph.WellFormed)
    (happ : ∀ a ∈ applied, ∃ v', a.Enabled table points m.graph v') :
    Listed table points (m.attach target bottom tree).graph m.generation.level applied w v as where
  nodup := h.nodup
  mem_iff := by
    have hext : m.graph.Extends (m.attach target bottom tree).graph := extends_attach hR
    intro a
    rw [h.mem_iff]
    constructor
    · rintro ⟨hb, hdone⟩
      exact ⟨hb.mono hext, hdone.imp_right fun ⟨d, hd, hlt⟩ => ⟨d, hext.entry hd, hlt⟩⟩
    -- what has been applied was enabled before, and what is below the current level is old
    · rintro ⟨hb, ha | ⟨d, hd, hlt⟩⟩
      · obtain ⟨v', henabled⟩ := happ a ha
        exact ⟨hb.of_extends hext hR.wf hwf hl henabled, .inl ha⟩
      · have henabled := hb.enabled.of_attach_of_lt hR hd hlt
        exact ⟨hb.of_extends hext hR.wf hwf hl henabled,
          .inr ⟨d, entryAt?_of_attach_of_lt hR hd hlt, hlt⟩⟩

/-- What builds the link has all been applied when its level is left. -/
theorem turn (h : Listed table points g level applied w v as)
    (hle : ∀ {n e}, g.entryAt? n = some e → e.position ≤ level)
    (happ : ∀ a v d, g.entryAt? a.node = some d → d.position = level →
      a.Enabled table points g v → a ∈ applied) :
    Listed table points g (level + 1) [] w v as where
  nodup := h.nodup
  mem_iff := by
    intro a
    rw [h.mem_iff]
    constructor
    · rintro ⟨hb, -⟩
      obtain ⟨d, hd, -⟩ := hb.enabled.calls
      exact ⟨hb, .inr ⟨d, hd, Nat.lt_succ_of_le (hle hd)⟩⟩
    · rintro ⟨hb, ha | ⟨d, hd, hlt⟩⟩
      · exact absurd ha List.not_mem_nil
      · rcases Nat.lt_succ_iff_lt_or_eq.mp hlt with hlt | heq
        · exact ⟨hb, .inr ⟨d, hd, hlt⟩⟩
        · exact ⟨hb, .inl (happ a v d hd heq hb.enabled)⟩

end Listed

/-! ### The ledger stays in order -/

/-- The trees of links are trees of the forest. -/
theorem Reached.tree_lt (h : Reached table config points x)
    (hl : x.machine.graph.tree? l = some t) : t < x.machine.forest.size := by
  obtain ⟨span, rank, hfit⟩ := h.fitting
  have hwf := h.ordered.roster.wf
  obtain ⟨w, v, hmem⟩ := hwf.exists_ends (StackGraph.lt_of_tree? hl)
  obtain ⟨e, he⟩ := StackGraph.exists_entryAt? (StackGraph.lt_of_mem_linksFrom hmem)
  obtain ⟨f, hf⟩ := StackGraph.exists_entryAt? (hwf.target_lt hmem)
  obtain ⟨t', ht', hlt, -⟩ := hfit.links w l v e f hmem he hf
  obtain rfl := Option.some.inj (hl.symm.trans ht')
  exact hlt

/-- A reduction that is applied is new to the ledgers. -/
theorem Working.not_done (h : Working table points m) {target : StateId}
    (hr : Reducible table config points m a v target) (hd : config.deduplicate = true) :
    ¬ a.Done m.graph m.generation.level m.generation.applied := by
  obtain ⟨s, hs⟩ := h.entry_of_processed hr.processed
  rintro (ha | ⟨d, hd', hlt⟩)
  · exact hr.fresh hd ha
  · obtain rfl := Option.some.inj (hs.symm.trans hd')
    exact Nat.lt_irrefl _ hlt

theorem size_build (m : Machine) (a : Application) :
    (m.build a).2.forest.size = m.forest.size + 1 :=
  Forest.size_add ..

namespace Booked

/-- A step at a point keeps the ledger in order. -/
theorem moves (hx : Reached table config points ⟨.working, m⟩) (hfree : table.RejectFree)
    (hd : config.deduplicate = true) (hm : Moves table config m m')
    (h : Booked table points w v l t as ⟨.working, m⟩) :
    ∃ as', Booked table points w v l t as' ⟨.working, m'⟩ := by
  have hw := hx.working
  have hlevel := hm.frame.1
  obtain ⟨hmem, hledger, hlisted, -⟩ := h
  cases hw.changes hm with
  | still hg hf ha =>
    refine ⟨as, ?_, ?_, ?_, trivial⟩ <;> simp only [hg, hf, ha, hlevel]
    · exact hmem
    · exact hledger
    · exact hlisted
  | reject l' hr =>
    obtain ⟨n, r, ⟨e, -, hc⟩, hrej⟩ := hr
    exact absurd hrej (hfree.not_rejects hc)
  | pack a v' target l' t' hr hl' ht' hg hf ha =>
    have hbuild : Ledger m.graph (m.build a).2.forest l t as := hledger.add _
    have hnew : m.forest.size ∉ t :: (m.build a).2.forest.alternatives t := hledger.size_notMem _
    have hbuilds := hw.builds_iff hr hmem
    -- the reduction packs into this link, or into another that it builds instead
    by_cases hll : l' = l
    · subst hll
      obtain rfl := Option.some.inj (ht'.symm.trans hledger.tree)
      refine ⟨as ++ [a], ?_, ?_, ?_, trivial⟩ <;> simp only [hg, hf, ha, hlevel]
      · exact hmem
      · refine hbuild.pack hnew (hw.derives_build hr.enabled) fun l id hl => ?_
        have hlt : id < m.forest.size := hx.tree_lt hl
        rw [size_build]
        exact ⟨Nat.lt_succ_of_lt hlt, Nat.ne_of_lt hlt⟩
      · exact hlisted.cons_of_builds (hbuilds.mpr hl') (hw.not_done hr hd)
    · refine ⟨as, ?_, ?_, ?_, trivial⟩ <;> simp only [hg, hf, ha, hlevel]
      · exact hmem
      · exact hbuild.pack_other ht' hll m.forest.size
      · refine hlisted.cons_of_not_builds fun hb => hll ?_
        exact Option.some.inj (hl'.symm.trans (hbuilds.mp hb))
  | link a v' target hr hl' hg hf ha =>
    -- the link that is made is another one, and this one is not built by the reduction
    have hbuild : Ledger m.graph (m.build a).2.forest l t as := hledger.add _
    have hnew : m.forest.size ∉ t :: (m.build a).2.forest.alternatives t := hledger.size_notMem _
    have hbuilds := hw.builds_iff hr hmem
    have hwf := (hw.moves hm).roster.wf
    rw [hg] at hwf
    refine ⟨as, ?_, ?_, ?_, trivial⟩ <;> simp only [hg, hf, ha, hlevel]
    · exact (extends_attach hw.roster).mem hmem
    · exact hbuild.attach hw.roster hnew
    · refine (hlisted.cons_of_not_builds fun hb => ?_).attach hw.roster hmem hwf ?_
      · rw [hbuilds, hl'] at hb
        exact absurd hb (by simp)
      · intro b hb
        rcases List.mem_cons.mp hb with rfl | hb
        · exact ⟨v', hr.enabled⟩
        · obtain ⟨-, v'', henabled, -⟩ := hx.thorough.joined b hb
          exact ⟨v'', henabled⟩

/-- Going on keeps the ledger in order. -/
theorem next (hx : Reached table config points x) (hfree : table.RejectFree)
    (hd : config.deduplicate = true) (hn : Next table config x y)
    (h : Booked table points w v l t as x) : ∃ as', Booked table points w v l t as' y := by
  have hord := hx.ordered
  have hg := hx.noneRejected hfree
  -- a level is left when all of its reductions have been applied
  have hturn : ∀ m, x = ⟨.working, m⟩ → m.work table config = .idle m →
      Listed table points m.graph (m.generation.level + 1) [] w v as := by
    rintro m rfl hi
    refine h.listed.turn hord.roster.level_le ?_
    rintro a v ⟨s, _⟩ hs rfl ha
    exact hx.working.mem_applied_of_idle hx.thorough hi hg hs ha
  cases hn with
  | read | shifted | strand => exact ⟨as, h.mem, h.ledger, h.listed, trivial⟩
  | work hm => exact h.moves hx hfree hd hm
  | @turn m hi hs => exact ⟨as, h.mem, h.ledger, hturn m rfl hi, trivial⟩
  | leaf hi hs =>
    exact ⟨as, h.mem, h.ledger.add _, hturn _ rfl hi, h.ledger.size_notMem _⟩
  | @shift leaf s due m =>
    have hleaf : leaf ∉ t :: m.forest.alternatives t := h.leaf
    have happ : m.generation.applied = [] := hord.1.applied
    have hR := hord.1.roster
    have hwf := (hx.next .shift).ordered.roster.wf
    refine ⟨as, ?_⟩
    rcases shiftNode_of_noneRejected hg leaf s with ⟨l', -, heq⟩ | ⟨-, heq⟩ <;> rw [heq] at hwf ⊢
    · exact ⟨h.mem, h.ledger, h.listed, hleaf⟩
    -- the new link carries the leaf, and the ledger is about another tree
    · constructor <;> simp only [forest_attach, level_attach, applied_attach]
      · exact (extends_attach hR).mem h.mem
      · exact h.ledger.attach hR hleaf
      · refine h.listed.attach hR h.mem hwf fun a ha => ?_
        rw [happ] at ha
        exact absurd ha List.not_mem_nil
      · exact hleaf

theorem reaches (hx : Reached table config points x) (hfree : table.RejectFree)
    (hd : config.deduplicate = true) (hr : Relation.ReflTransGen (Next table config) x y)
    (h : Booked table points w v l t as x) : ∃ as', Booked table points w v l t as' y := by
  induction hr with
  | refl => exact ⟨as, h⟩
  | tail hy hn ih =>
    obtain ⟨as, h⟩ := ih
    exact h.next (hx.trans hy) hfree hd hn

end Booked

/-! ### A ledger is opened -/

section Open

variable {target : StateId} (hx : Reached table config points ⟨.working, m⟩)
  (hr : Reducible table config points m a v target)
  (hl : m.graph.findLink? (m.holder target) v = none)
include hx hr

/-- The tree of a new link is what the reduction builds. -/
theorem Reached.ledger_attach : Ledger (m.attach target v m.forest.size).graph
    (m.build a).2.forest m.graph.links.size m.forest.size [a] := by
  have hw := hx.working
  have hderives : Derives (m.attach target v m.forest.size).graph (m.build a).2.forest
      m.forest.size a := (hw.derives_build hr.enabled).mono (extends_attach hw.roster) rfl
  have hself : (m.build a).2.forest.alternatives m.forest.size = [m.forest.size] := by
    obtain ⟨children, hget, -⟩ := hderives
    exact Forest.alternatives_of_not_amb fun ids => by simp [hget]
  constructor
  · rw [tree?_attach, if_pos rfl]
  -- no other link carries the tree, for it is new
  · rw [hself]
    intro id hid l hl
    obtain rfl : id = m.forest.size := by simpa using hid
    rw [tree?_attach] at hl
    split at hl
    · assumption
    · exact absurd (hx.tree_lt hl) (Nat.lt_irrefl _)
  · rw [hself]
    exact List.nodup_singleton _
  · rw [hself]
    exact .cons hderives .nil

include hl

/-- The only reduction that should have been packed into a new link is the one that makes it. -/
theorem Reached.listed_attach (hwf : (m.attach target v m.forest.size).graph.WellFormed) :
    Listed table points (m.attach target v m.forest.size).graph m.generation.level
      (a :: m.generation.applied) (m.holder target) v [a] where
  nodup := List.nodup_singleton a
  mem_iff := by
    have hw := hx.working
    have hext : m.graph.Extends (m.attach target v m.forest.size).graph := extends_attach hw.roster
    have hholder : (m.attach target v m.forest.size).graph.entryAt? (m.holder target) =
        some ⟨target, m.generation.level⟩ := entryAt?_holder hw.roster
    intro b
    rw [List.mem_singleton, Application.done_cons]
    constructor
    · rintro rfl
      exact ⟨hw.builds_attach hr _, .inl rfl⟩
    · rintro ⟨⟨henabled, d, e, f', hd, he, hf', hpos, hgoto'⟩, heq | happ | ⟨d', hd', hlt⟩⟩
      · exact heq
      -- a reduction that has been applied has its link, and this one is not there yet
      · obtain ⟨-, v', henabled', f₀, target₀, w', l', hf₀, hgoto₀, hw', hl'⟩ :=
          hx.thorough.joined b happ
        obtain rfl := (henabled'.walk.mono hext).unique hwf henabled.walk
        obtain rfl := Option.some.inj (hholder.symm.trans he)
        obtain rfl := Option.some.inj ((hext.entry hf₀).symm.trans hf')
        obtain rfl := Option.some.inj (hgoto₀.symm.trans hgoto')
        rw [holder_of_some (hw.roster.lookup_iff.mpr hw')] at hl
        exact absurd hl' (StackGraph.findLink?_eq_none_iff.mp hl l')
      -- nor has it been applied before, for its node is of the current level
      · obtain rfl := Option.some.inj (hholder.symm.trans he)
        obtain rfl := Option.some.inj (hd.symm.trans hd')
        exact absurd hpos (Nat.ne_of_lt hlt)

end Open

/-- A link that a reduction makes starts a ledger, with this reduction alone. -/
theorem Reached.booked (hx : Reached table config points ⟨.working, m⟩)
    (hm : Moves table config m m') (hsize : m'.graph.links.size = m.graph.links.size + 1) :
    ∃ w v a, Booked table points w v m.graph.links.size m.forest.size [a] ⟨.working, m'⟩ := by
  have hw := hx.working
  cases hw.changes hm with
  | still hg | pack _ _ _ _ _ _ _ _ hg =>
    -- other steps make no link
    rw [hg] at hsize
    omega
  | reject l hr hg =>
    rw [hg, StackGraph.size_links_reject] at hsize
    omega
  | link a v target hr hl hg hf ha =>
    have hwf := (hw.moves hm).roster.wf
    rw [hg] at hwf
    refine ⟨m.holder target, v, a, ?_⟩
    constructor <;> simp only [hg, hf, ha, hm.frame.1]
    · exact (mem_linksFrom_attach hw.roster).mpr (.inl ⟨rfl, rfl, rfl⟩)
    · exact hx.ledger_attach hr
    · exact hx.listed_attach hr hl hwf
    · trivial

/-! ### The end of a parse -/

/-- For a table that rejects no reductions, a link that a reduction has made carries each of its
derivations exactly once: the alternatives of its tree are, one for one, what the reductions build
that build the link, over the trees along their paths. -/
theorem packed_once (hfree : table.RejectFree) (hd : config.deduplicate = true) {input : String}
    {p : Parse} (hp : (parse table input config).result = .ok p)
    (hl : (l, v) ∈ p.graph.linksFrom w)
    (hmade : LinkedByReduction table config (inputPoints config input.toList) l) :
    ∃ t as, p.graph.tree? l = some t ∧ (p.forest.alternatives t).Nodup ∧ as.Nodup ∧
      (∀ a, a ∈ as ↔ a.Builds table (inputPoints config input.toList) p.graph w v) ∧
      List.Forall₂ (Derives p.graph p.forest) (p.forest.alternatives t) as := by
  obtain ⟨m, n, hm, -, -, -, hg, hf⟩ := parse_ok hp
  rw [hg] at hl
  rw [hg, hf]
  obtain ⟨m₀, m₁, h₀, hmoves, rfl, hsize⟩ := hmade
  have h₁ := h₀.next (.work hmoves)
  obtain ⟨w', v', a, hbooked⟩ := h₀.booked hmoves hsize
  obtain ⟨phase, -, hr⟩ := hm.reaches h₁
  obtain ⟨as, hmem, hledger, hlisted, -⟩ := hbooked.reaches h₁ hfree hd hr
  have hR := hm.between.roster
  obtain ⟨rfl, rfl⟩ := hR.wf.ends_unique hmem hl
  refine ⟨m₀.forest.size, as, hledger.tree, hledger.nodup, hlisted.nodup, fun a => ?_,
    hledger.derived⟩
  refine (hlisted.mem_iff a).trans (and_iff_left_of_imp fun hb => ?_)
  -- what is enabled lies below the end of the parse
  obtain ⟨d, hd, item, ho, -⟩ := hb.enabled.calls
  exact .inr ⟨d, hd, hR.lt_of_offers hm.exhausted hd ho⟩

/-- A table that derives the empty text in two ways. -/
def Table.twins : Table where
  start := 0
  states := [
    { id := 0, gotos := [⟨.span 257 258, 1⟩],
      actions := [⟨.single 256, [.reduce ⟨0, 257, .normal⟩, .reduce ⟨0, 258, .normal⟩]⟩] },
    { id := 1, actions := [⟨.single 256, [.accept]⟩] }]
  labels := [⟨257, .application "left" [], []⟩, ⟨258, .application "right" [], []⟩]
  states_nodup := by decide
  labels_nodup := by decide
  resolves := by decide

theorem Table.rejectFree_twins : Table.twins.RejectFree := by
  constructor
  · simp [twins, ActionItem.reduction?]
  · decide

theorem linkedByReduction_twins :
    LinkedByReduction Table.twins {} (inputPoints {} "".toList) 0 := by
  have hstart : Reached Table.twins {} (inputPoints {} "".toList)
      ⟨.between, initial Table.twins {} (inputPoints {} "".toList)⟩ := .refl
  have hread := hstart.next (.read (by decide) rfl)
  have hdispatch := hread.next (.work rfl)
  have hreduce := hdispatch.next (.work rfl)
  exact ⟨_, _, hreduce, rfl, by decide +kernel, by decide +kernel⟩

/-- Both derivations of the empty text are packed, each once. -/
theorem packed_once_twins : ∃ p, (parse Table.twins "").result = .ok p ∧ ∃ t as,
    p.graph.tree? 0 = some t ∧ (p.forest.alternatives t).length = 2 ∧ as.Nodup ∧
      (∀ a, a ∈ as ↔ a.Builds Table.twins (inputPoints {} "".toList) p.graph 1 0) ∧
      List.Forall₂ (Derives p.graph p.forest) (p.forest.alternatives t) as := by
  obtain ⟨p, hp, hdata⟩ := exists_ok_of_toOption_map (r := (parse Table.twins "").result)
    (f := fun p => (p.graph.linksFrom 1, p.graph.tree? 0, (p.forest.alternatives 0).length))
    (b := ([(0, 0)], some 0, 2)) (by decide +kernel)
  obtain ⟨hlinks, htree, hlength⟩ : p.graph.linksFrom 1 = [(0, 0)] ∧ p.graph.tree? 0 = some 0 ∧
      (p.forest.alternatives 0).length = 2 := by simpa using hdata
  obtain ⟨t, as, ht, -, hnodup, hbuilds, hderives⟩ :=
    packed_once Table.rejectFree_twins rfl hp (w := 1) (v := 0) (l := 0)
      (by rw [hlinks]; exact List.mem_singleton_self _) linkedByReduction_twins
  obtain rfl := Option.some.inj (htree.symm.trans ht)
  exact ⟨p, hp, 0, as, htree, hlength, hnodup, hbuilds, hderives⟩

end ScannerlessLR
