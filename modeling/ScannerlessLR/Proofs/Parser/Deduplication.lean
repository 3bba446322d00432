/-
Parses agree, whether repeated reductions are passed over or not.

Two parses of the same points, one of which passes over reductions that have been
applied along the same path, end at the same place or fail alike.  What is left to
compare are the trees.  Either parse packs into the tree of a link what the reductions
build that are applied for it, and these are the same, so the trees of a link stand for
the same derivation trees, however often and in whichever order they are packed.

* `Parse.Agrees` — two parses differ in their forests alone, and these stand for the same;
* `Twinned` — parses that have ended alike, after the same reductions;
* `Twinned.mirrors` — the trees of either hold what those of the other do;
* `deduplication_agrees` — the parses of a text.
-/
import ScannerlessLR.Proofs.Forest.Unfolding
import ScannerlessLR.Proofs.Parser.Contents
import ScannerlessLR.Proofs.Parser.Lockstep

namespace ScannerlessLR

/-- Two parses have the same nodes, links and path, and the trees of each link stand for the same
derivation trees. -/
structure Parse.Agrees (p p' : Parse) : Prop where
  nodes : p.graph.nodes = p'.graph.nodes
  size_links : p.graph.links.size = p'.graph.links.size
  endpoints : ∀ l, p.graph.endpoints? l = p'.graph.endpoints? l
  rejected : ∀ l, p.graph.isRejected l = p'.graph.isRejected l
  path : p.path = p'.path
  unfolds : ∀ l < p.graph.links.size, ∃ t t', p.graph.tree? l = some t ∧
    p'.graph.tree? l = some t' ∧ ∀ d, p.forest.Unfolds [t] [d] ↔ p'.forest.Unfolds [t'] [d]
  text : p.trees.map p.forest.text = p'.trees.map p'.forest.text

/-- One link carries the tree `t` in one graph and the tree `t'` in the other. -/
def StackGraph.Carry (g g' : StackGraph) (t t' : TreeId) : Prop :=
  ∃ l, g.tree? l = some t ∧ g'.tree? l = some t'

/-- Two parses of the same points have ended at the same place, after the same reductions. -/
structure Twinned (table : Table) (config config' : Config) (points : Array UInt32)
    (m m' : Machine) : Prop where
  left : Ended table config points m
  right : Ended table config' points m'
  accepting : m.accepting = m'.accepting
  bare : m.graph.bare = m'.graph.bare
  performed : ∀ a, Performed table config points a ↔ Performed table config' points a
  linked : ∀ l, LinkedByReduction table config points l ↔ LinkedByReduction table config' points l

open Machine

variable {table : Table} {config config' : Config} {points : Array UInt32} {m m' : Machine}
  {g g' : StackGraph} {a : Application} {w v : NodeId} {l l' : LinkId} {t t' : TreeId}
  {x y : Moment} {e : ParseError}

/-! ### Parses that have ended alike -/

/-- Which links a reduction builds does not depend on the trees. -/
theorem Application.Builds.of_bare (h : a.Builds table points g w v) (hbare : g.bare = g'.bare) :
    a.Builds table points g' w v := by
  have hentry : ∀ n, g.entryAt? n = g'.entryAt? n := fun n => StackGraph.entryAt?_eq_of_bare n hbare
  obtain ⟨⟨⟨c, hc, hcalls⟩, hparses, hwalk, hlength⟩, d, e, f, hd, he, hf, hpos, hgoto⟩ := h
  rw [hentry] at hc hd he hf
  exact ⟨⟨⟨c, hc, hcalls⟩, hparses, StackGraph.walk_of_bare _ _ hbare hwalk, hlength⟩,
    d, e, f, hd, he, hf, hpos, hgoto⟩

namespace Twinned

theorem symm (h : Twinned table config config' points m m') :
    Twinned table config' config points m' m where
  left := h.right
  right := h.left
  accepting := h.accepting.symm
  bare := h.bare.symm
  performed := fun a => (h.performed a).symm
  linked := fun l => (h.linked l).symm

variable (h : Twinned table config config' points m m')
include h

/-- Links that share their tree in one parse share it in the other. -/
theorem tree?_eq (ht : m.graph.tree? l = some t) (ht' : m.graph.tree? l' = some t) :
    m'.graph.tree? l = m'.graph.tree? l' := by
  obtain ⟨phase, -, hx⟩ := h.left.exists_reached
  obtain ⟨phase', -, hx'⟩ := h.right.exists_reached
  rcases hx.stocked.shared l l' t ht ht' with rfl | ⟨point, hleaf⟩
  · rfl
  -- only links that shifts have made share trees, all that leave the same level
  have hmade : ∀ l, m.graph.tree? l = some t → ¬ LinkedByReduction table config' points l :=
    fun l ht hmade => hx.not_linked_of_leaf ht hleaf ((h.linked l).mpr hmade)
  have hwf := hx.ordered.roster.wf
  obtain ⟨w, v, hl⟩ := hwf.exists_ends (StackGraph.lt_of_tree? ht)
  obtain ⟨w', v', hl'⟩ := hwf.exists_ends (StackGraph.lt_of_tree? ht')
  obtain ⟨e, he⟩ := StackGraph.exists_entryAt? (StackGraph.lt_of_mem_linksFrom hl)
  obtain ⟨e', he'⟩ := StackGraph.exists_entryAt? (StackGraph.lt_of_mem_linksFrom hl')
  have hpos := hx.position_eq ht ht' hl hl' he he'
  have hlinks := fun n => StackGraph.linksFrom_eq_of_bare n h.bare
  have hentry := fun n => StackGraph.entryAt?_eq_of_bare n h.bare
  exact hx'.shiftsShare.same l l' w w' v v' e e' (hmade l ht) (hmade l' ht') (hlinks w ▸ hl)
    (hlinks w' ▸ hl') (hentry w ▸ he) (hentry w' ▸ he') hpos

/-- A leaf that the tree of a link holds, it holds in both parses. -/
theorem holds_leaf {point : UInt32} (ht : m.graph.tree? l = some t)
    (ht' : m'.graph.tree? l = some t') (hc : m.forest.Holds t (.leaf point)) :
    m'.forest.Holds t' (.leaf point) := by
  obtain ⟨phase, -, hx⟩ := h.left.exists_reached
  obtain ⟨phase', -, hx'⟩ := h.right.exists_reached
  have hu : Moment.Uses ⟨phase, m⟩ t := Moment.uses_of_tree? ht
  have hleaf := hx.stocked.leaves t point hu hc
  have hmade : ¬ LinkedByReduction table config' points l :=
    fun hmade => hx.not_linked_of_leaf ht hleaf ((h.linked l).mpr hmade)
  obtain ⟨point', hfirst⟩ := hx'.shiftsShare.leaf l t' hmade ht'
  have hc' : m'.forest.Holds t' (.leaf point') := Forest.holds_of_first? hfirst
  -- both leaves are of the point at the level of the node below
  obtain ⟨w, v, hl⟩ := hx.ordered.roster.wf.exists_ends (StackGraph.lt_of_tree? ht)
  have hl' : (l, v) ∈ m'.graph.linksFrom w := StackGraph.linksFrom_eq_of_bare w h.bare ▸ hl
  obtain ⟨-, f, -, hf, -, hpoint, -⟩ := (hx.stocked.origin t _ hu hc).shifts rfl ht hl
  obtain ⟨-, f', -, hf', -, hpoint', -⟩ :=
    (hx'.stocked.origin t' _ (Moment.uses_of_tree? ht') hc').shifts rfl ht' hl'
  rw [StackGraph.entryAt?_eq_of_bare v h.bare] at hf
  obtain rfl := Option.some.inj (hf.symm.trans hf')
  obtain rfl := Option.some.inj (hpoint.symm.trans hpoint')
  exact hc'

/-- The trees of some links in one parse, and those of the same links in the other. -/
theorem forall₂_trees (ls : List LinkId) (hls : ∀ l ∈ ls, l < m.graph.links.size) :
    List.Forall₂ (m.graph.Carry m'.graph) (ls.filterMap m.graph.tree?)
      (ls.filterMap m'.graph.tree?) := by
  induction ls with
  | nil => exact .nil
  | cons l ls ih =>
    have hlt := hls l List.mem_cons_self
    obtain ⟨t, ht⟩ := StackGraph.exists_tree? hlt
    obtain ⟨t', ht'⟩ := StackGraph.exists_tree? (StackGraph.size_links_eq_of_bare h.bare ▸ hlt)
    rw [List.filterMap_cons_some ht, List.filterMap_cons_some ht']
    exact .cons ⟨l, ht, ht'⟩ (ih fun l hl => hls l (List.mem_cons_of_mem _ hl))

/-- What a reduction has built for a link in one parse, it has built in the other. -/
theorem holds_apply {label : LabelId} {ids : List TreeId} (ht : m.graph.tree? l = some t)
    (ht' : m'.graph.tree? l = some t') (hc : m.forest.Holds t (.apply label ids)) :
    ∃ ids', List.Forall₂ (m.graph.Carry m'.graph) ids ids' ∧
      m'.forest.Holds t' (.apply label ids') := by
  obtain ⟨phase, -, hx⟩ := h.left.exists_reached
  have hu : Moment.Uses ⟨phase, m⟩ t := Moment.uses_of_tree? ht
  obtain ⟨a, l₁, w, v, ha, ht₁, hl, hb, htree⟩ :=
    (hx.stocked.origin t _ hu hc).exists_reduction rfl
  obtain ⟨rfl, rfl⟩ := Tree.apply.inj htree
  -- the link that the reduction builds may be another one with the same tree
  have ht₁' : m'.graph.tree? l₁ = some t' := (h.tree?_eq ht₁ ht).trans ht'
  refine ⟨a.links.reverse.filterMap m'.graph.tree?, h.forall₂_trees _ fun l hl => ?_, ?_⟩
  · exact hb.enabled.walk.link_lt hx.ordered.roster.wf (List.mem_reverse.mp hl)
  · exact h.right.holds_of_performed ((h.performed a).mp ha)
      (StackGraph.linksFrom_eq_of_bare w h.bare ▸ hl) (hb.of_bare h.bare) ht₁'

/-- The trees of one parse hold what those of the other do. -/
theorem mirrors : m.forest.Mirrors m'.forest (m.graph.Carry m'.graph) where
  flat := by
    rintro t t' ⟨l, ht, -⟩
    obtain ⟨phase, -, hx⟩ := h.left.exists_reached
    exact hx.tidy.flat (Moment.uses_of_tree? ht)
  leaf := fun ⟨l, ht, ht'⟩ => h.holds_leaf ht ht'
  apply := fun ⟨l, ht, ht'⟩ => h.holds_apply ht ht'

/-- The trees of a link stand for the same derivation trees. -/
theorem unfolds_iff (ht : m.graph.tree? l = some t) (ht' : m'.graph.tree? l = some t')
    (d : DerivationTree) : m.forest.Unfolds [t] [d] ↔ m'.forest.Unfolds [t'] [d] :=
  ⟨h.mirrors.unfolds (.cons ⟨l, ht, ht'⟩ .nil), h.symm.mirrors.unfolds (.cons ⟨l, ht', ht⟩ .nil)⟩

/-- The trees of a link have the same text. -/
theorem text_eq (hc : m.graph.Carry m'.graph t t') : m.forest.text t = m'.forest.text t' := by
  obtain ⟨l, ht, ht'⟩ := hc
  obtain ⟨phase, -, hx⟩ := h.left.exists_reached
  obtain ⟨phase', -, hx'⟩ := h.right.exists_reached
  have hwf := hx.ordered.roster.wf
  obtain ⟨w, v, hl⟩ := hwf.exists_ends (StackGraph.lt_of_tree? ht)
  obtain ⟨e, he⟩ := StackGraph.exists_entryAt? (StackGraph.lt_of_mem_linksFrom hl)
  obtain ⟨f, hf⟩ := StackGraph.exists_entryAt? (hwf.target_lt hl)
  have hleaves : m.forest.leaves t = slice points f.position e.position :=
    hx.leaves_eq hl he hf ht
  have hleaves' : m'.forest.leaves t' = slice points f.position e.position := by
    refine hx'.leaves_eq (w := w) (v := v) ?_ ?_ ?_ ht'
    · exact StackGraph.linksFrom_eq_of_bare w h.bare ▸ hl
    · exact StackGraph.entryAt?_eq_of_bare w h.bare ▸ he
    · exact StackGraph.entryAt?_eq_of_bare v h.bare ▸ hf
  rw [Forest.text, Forest.text, hleaves, hleaves']

/-- Parses that have ended alike agree, if they take the same path. -/
theorem agrees {path : List LinkId} {n : NodeId}
    (hpath : m.graph.livePath? n rootNode = some path) :
    Parse.Agrees ⟨m.graph, m.forest, path⟩ ⟨m'.graph, m'.forest, path⟩ where
  nodes := StackGraph.nodes_eq_of_bare h.bare
  size_links := StackGraph.size_links_eq_of_bare h.bare
  endpoints := fun l => by
    rw [← StackGraph.endpoints?_bare, h.bare, StackGraph.endpoints?_bare]
  rejected := fun l => StackGraph.isRejected_eq_of_bare l h.bare
  path := rfl
  unfolds := fun l hl => by
    obtain ⟨t, ht⟩ := StackGraph.exists_tree? hl
    obtain ⟨t', ht'⟩ := StackGraph.exists_tree? (StackGraph.size_links_eq_of_bare h.bare ▸ hl)
    exact ⟨t, t', ht, ht', h.unfolds_iff ht ht'⟩
  text := by
    obtain ⟨phase, -, hx⟩ := h.left.exists_reached
    have hwalk := (StackGraph.liveWalk_of_livePath? hpath).1
    -- the trees of a path come from its end
    have htrees := h.forall₂_trees path.reverse fun l hl =>
      hwalk.link_lt hx.ordered.roster.wf (List.mem_reverse.mp hl)
    rw [← List.forall₂_eq_eq_eq, List.forall₂_map_left_iff, List.forall₂_map_right_iff]
    exact htrees.imp fun t t' => h.text_eq

/-- Parses that have ended alike fail alike or agree. -/
theorem conclude : (∃ e, m.conclude.result = .error e ∧ m'.conclude.result = .error e) ∨
    ∃ p p', m.conclude.result = .ok p ∧ m'.conclude.result = .ok p' ∧ p.Agrees p' := by
  have hlive : ∀ n, m.graph.livePath? n rootNode = m'.graph.livePath? n rootNode := fun n => by
    rw [← StackGraph.livePath?_bare, h.bare, StackGraph.livePath?_bare]
  rw [Machine.conclude, Machine.conclude, ← h.accepting]
  cases ha : m.accepting with
  | none => exact .inl ⟨_, rfl, rfl⟩
  | some n =>
    simp only [← hlive]
    cases hl : m.graph.livePath? n rootNode with
    | none => exact .inl ⟨_, rfl, rfl⟩
    | some path => exact .inr ⟨_, _, rfl, rfl, h.agrees hl⟩

end Twinned

/-! ### Both parses of a text -/

theorem Moment.Over.of_skeleton (h : x.Over points) (hs : x.skeleton = y.skeleton) :
    y.Over points := by
  obtain ⟨hphase, hmachine⟩ := Moment.mk.inj hs
  rcases h with h | ⟨h, hlevel⟩
  · rw [h] at hphase
    exact .inl (Phase.bare_eq_stranded.mp hphase.symm)
  · rw [h] at hphase
    exact .inr ⟨Phase.bare_eq_between.mp hphase.symm, level_eq_of_skeleton hmachine ▸ hlevel⟩

section Same

variable (hd : config.deduplicate = true) (hd' : config'.deduplicate = false)
  (hend : config.endOfInput = config'.endOfInput)
include hd hd' hend

/-- Where one parse ends, the other one does. -/
theorem Ended.exists_twinned (h : Ended table config points m) :
    ∃ m', Twinned table config config' points m m' := by
  obtain ⟨phase, hover, hx⟩ := ended_iff.mp h
  obtain ⟨⟨phase', m'⟩, hy, hs⟩ := hx.exists_even hd hd' hend
  have hmachine : m.skeleton = m'.skeleton := congrArg Moment.machine hs
  exact ⟨m', h, ended_iff.mpr ⟨phase', hover.of_skeleton hs, hy⟩, accepting_eq_of_skeleton hmachine,
    bare_eq_of_skeleton hmachine, fun _ => performed_iff hd hd' hend,
    fun _ => linkedByReduction_iff hd hd' hend⟩

/-- Where one parse fails, the other one does. -/
theorem Reached.exists_failed (hx : Reached table config points ⟨.working, m⟩) {f : Machine}
    (hf : m.work table config = .failed e f) : ∃ m' f',
      Reached table config' points ⟨.working, m'⟩ ∧ m'.work table config' = .failed e f' := by
  obtain ⟨y, hy, h⟩ := hx.exists_even hd hd' hend
  obtain ⟨m', rfl, hs⟩ := Moment.exists_working_of_skeleton h
  -- what is repeated is passed over, and does not fail
  have hrep : ¬ m.Repeats := by
    rintro ⟨n, r, rejecting, p, agenda, ha, happ⟩
    exact absurd ((work_repeated hd ha happ).symm.trans hf) (by simp)
  have hwork : (m.work table config).skeleton = (m'.work table config').skeleton :=
    skeleton_work_eq hd' hs hrep
  rw [hf] at hwork
  cases hw : m'.work table config' with
  | failed e' f' =>
    rw [hw] at hwork
    obtain ⟨rfl, -⟩ := Progress.failed.inj hwork
    exact ⟨m', f', hy, hw⟩
  | idle | moved | linked => exact absurd hwork (by simp [hw])

theorem parsePoints_agrees (points : Array UInt32) :
    (∃ e, (parsePoints table config points).result = .error e ∧
      (parsePoints table config' points).result = .error e) ∨
    ∃ p p', (parsePoints table config points).result = .ok p ∧
      (parsePoints table config' points).result = .ok p' ∧ p.Agrees p' := by
  rcases parsePoints_cases table config points with ⟨m, h, -⟩ | ⟨m, id, label, f, hx, hf, -⟩
  · obtain ⟨m', htwin⟩ := h.exists_twinned hd hd' hend
    rw [htwin.left.result_eq, htwin.right.result_eq]
    exact htwin.conclude
  · obtain ⟨m', f', hx', hf'⟩ := hx.exists_failed hd hd' hend hf
    exact .inl ⟨_, hx.result_eq_of_failed hf, hx'.result_eq_of_failed hf'⟩

end Same

/-- Passing over reductions that have been applied along the same path changes nothing but how
alternatives are packed: with it and without it, a text has the same error or parses that agree. -/
theorem deduplication_agrees (table : Table) (endOfInput : UInt32) (input : String) :
    (∃ e, (parse table input ⟨endOfInput, true⟩).result = .error e ∧
      (parse table input ⟨endOfInput, false⟩).result = .error e) ∨
    ∃ p p', (parse table input ⟨endOfInput, true⟩).result = .ok p ∧
      (parse table input ⟨endOfInput, false⟩).result = .ok p' ∧ p.Agrees p' := by
  have hd : (Config.mk endOfInput true).deduplicate = true := rfl
  have hd' : (Config.mk endOfInput false).deduplicate = false := rfl
  rw [parse, parse]
  cases input.toList.findIdx? (·.val = endOfInput) with
  | some position => exact .inl ⟨_, rfl, rfl⟩
  | none => exact parsePoints_agrees hd hd' rfl _

end ScannerlessLR
