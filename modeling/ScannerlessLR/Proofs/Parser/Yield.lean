/-
The trees of a parse span what has been read.

A link from a node of one level down to a node of another carries a tree of the
points in between.  This survives all packing, for a tree is only packed into the
tree of a link between nodes of the same levels, and the span of a tree that is in
use elsewhere does not change.

* `Fitting` — the trees of the links span the points between the levels of the nodes;
* `Fitting.next` — going on keeps them so;
* `Reached.fitting` — they do at every moment of a parse;
* `yields` — the leaves of the derivation trees of a link, and the text of a parse.
-/
import ScannerlessLR.Proofs.Forest.Yield
import ScannerlessLR.Proofs.Parser.Acceptance
import ScannerlessLR.Proofs.Stack.LivePath

namespace ScannerlessLR

/-- The links of a graph carry trees of a forest of the given size, which span the points between
the levels of the nodes. -/
def LinksFit (span : TreeId → ℕ × ℕ) (size : ℕ) (g : StackGraph) : Prop :=
  ∀ w l v e f, (l, v) ∈ g.linksFrom w → g.entryAt? w = some e → g.entryAt? v = some f →
    ∃ t, g.tree? l = some t ∧ t < size ∧ span t = (f.position, e.position)

/-- The shifts that are due share a leaf of the forest, which spans the point behind which they
are. -/
def Phase.LeafFits (span : TreeId → ℕ × ℕ) (size level : ℕ) : Phase → Prop
  | .shifting leaf _ => leaf < size ∧ ∃ k, k + 1 = level ∧ span leaf = (k, k + 1)
  | .between | .working | .stranded => True

/-- The trees of a machine have spans, and these fit its links. -/
structure Fitting (points : Array UInt32) (span : TreeId → ℕ × ℕ) (rank : TreeId → ℕ) (x : Moment) :
    Prop where
  spanned : x.machine.forest.Spanned points span
  ranked : x.machine.forest.Ranked rank
  links : LinksFit span x.machine.forest.size x.machine.graph
  leaf : x.phase.LeafFits span x.machine.forest.size x.machine.generation.level

open Machine

variable {table : Table} {config : Config} {points : Array UInt32} {m m' : Machine}
  {span span' : TreeId → ℕ × ℕ} {rank : TreeId → ℕ} {g : StackGraph} {size size' : ℕ}

/-! ### The trees along a walk -/

/-- The trees along a walk, bottom first, span the points between its ends. -/
theorem LinksFit.walk (hg : LinksFit span size g) (hwf : g.WellFormed) {u v : NodeId}
    {ls : List LinkId} {e f : Entry} (hw : g.Walk u ls v) (he : g.entryAt? u = some e)
    (hf : g.entryAt? v = some f) :
    Chained span f.position (ls.reverse.filterMap g.tree?) e.position ∧
      ∀ t ∈ ls.reverse.filterMap g.tree?, t < size := by
  induction hw generalizing e with
  | nil n =>
    obtain rfl := Option.some.inj (he.symm.trans hf)
    exact ⟨rfl, fun t ht => absurd ht List.not_mem_nil⟩
  | @cons n below v l ls hl hw ih =>
    obtain ⟨d, hd⟩ := StackGraph.exists_entryAt? (hwf.target_lt hl)
    obtain ⟨t, ht, hlt, hspan⟩ := hg n l below e d hl he hd
    obtain ⟨hc, hsize⟩ := ih hd hf
    -- the walk starts at the top, so the tree of its first link comes last
    have htrees : (l :: ls).reverse.filterMap g.tree? = ls.reverse.filterMap g.tree? ++ [t] := by
      rw [List.reverse_cons, List.filterMap_append, List.filterMap_cons, ht]
      rfl
    rw [htrees]
    refine ⟨hc.append (chained_singleton hspan), ?_⟩
    intro t' ht'
    rcases List.mem_append.mp ht' with ht' | ht'
    · exact hsize t' ht'
    · rw [List.mem_singleton.mp ht']
      exact hlt

/-- Links fit a forest that has grown. -/
theorem LinksFit.mono (hg : LinksFit span size g) (hle : size ≤ size')
    (hspan : ∀ t < size, span' t = span t) : LinksFit span' size' g := by
  intro w l v e f hl he hf
  obtain ⟨t, ht, hlt, hs⟩ := hg w l v e f hl he hf
  exact ⟨t, ht, Nat.lt_of_lt_of_le hlt hle, (hspan t hlt).trans hs⟩

/-- A new link fits if its tree spans the points up to the current level. -/
theorem LinksFit.attach (hg : LinksFit span size m.graph)
    (hR : Roster table m.graph m.generation.level m.generation.active) {target : StateId}
    {bottom : NodeId} {tree : TreeId} {f : Entry} (hf : m.graph.entryAt? bottom = some f)
    (hlt : tree < size) (hspan : span tree = (f.position, m.generation.level)) :
    LinksFit span size (m.attach target bottom tree).graph := by
  have hext : m.graph.Extends (m.attach target bottom tree).graph := extends_attach hR
  intro w l v e d hl he hd
  rcases (mem_linksFrom_attach hR).mp hl with ⟨rfl, rfl, rfl⟩ | hl
  · rw [entryAt?_holder hR] at he
    rw [hext.entry hf] at hd
    obtain rfl := Option.some.inj he
    obtain rfl := Option.some.inj hd
    refine ⟨tree, ?_, hlt, hspan⟩
    rw [tree?_attach, if_pos rfl]
  -- links that have been there before join nodes that have been there before
  · have he' := hext.entry_of_lt (StackGraph.lt_of_mem_linksFrom hl) he
    have hd' := hext.entry_of_lt (hR.wf.target_lt hl) hd
    obtain ⟨t, ht, hlt, hs⟩ := hg w l v e d hl he' hd'
    exact ⟨t, hext.tree ht, hlt, hs⟩

/-! ### Going on -/

/-- The forest with the tree of a reduction has spans that fit, and the tree spans the points up to
the current level. -/
theorem Working.fitting_build (h : Working table points m) (hs : m.forest.Spanned points span)
    (hrank : m.forest.Ranked rank) (hg : LinksFit span m.forest.size m.graph) {a : Application}
    {v : NodeId} {target : StateId} {f : Entry} (hr : Reducible table config points m a v target)
    (hf : m.graph.entryAt? v = some f) : ∃ span' rank', (m.build a).2.forest.Spanned points span' ∧
      (m.build a).2.forest.Ranked rank' ∧ (m.build a).2.forest.size = m.forest.size + 1 ∧
      LinksFit span' (m.forest.size + 1) m.graph ∧
      span' m.forest.size = (f.position, m.generation.level) := by
  obtain ⟨s, he⟩ := h.entry_of_processed hr.processed
  -- the trees of the parts span what is between the node and the bottom of the path
  obtain ⟨hc, hlt⟩ := hg.walk h.roster.wf hr.enabled.walk he hf
  obtain ⟨rank', hrank'⟩ := hrank.add hs.part_lt (t := .apply a.reduction.label
    (a.links.reverse.filterMap m.graph.tree?)) hlt (by simp)
  refine ⟨Function.update span m.forest.size (f.position, m.generation.level), rank',
    hs.add hlt hc, hrank', Forest.size_add .., ?_, Function.update_self ..⟩
  exact hg.mono (Nat.le_succ _) fun t ht => Function.update_of_ne (Nat.ne_of_lt ht) ..

/-- A step at a point keeps spans that fit. -/
theorem Working.fitting_moves (h : Working table points m) (hm : Moves table config m m')
    (hx : Fitting points span rank ⟨.working, m⟩) :
    ∃ span' rank', Fitting points span' rank' ⟨.working, m'⟩ := by
  cases h.changes hm with
  | still hg hf =>
    refine ⟨span, rank, ?_, ?_, ?_, trivial⟩ <;> simp only [hf, hg]
    · exact hx.spanned
    · exact hx.ranked
    · exact hx.links
  | reject l hr hg hf =>
    refine ⟨span, rank, ?_, ?_, ?_, trivial⟩ <;> simp only [hf, hg]
    · exact hx.spanned
    · exact hx.ranked
    · intro w l' v e f hl he hf
      rw [StackGraph.tree?_reject]
      exact hx.links w l' v e f hl he hf
  | pack a v target l t hr hl ht hg hf =>
    obtain ⟨f, hfv, -⟩ := hr.goto
    obtain ⟨span₁, rank₁, hs₁, hr₁, hsize, hg₁, hspan₁⟩ :=
      h.fitting_build hx.spanned hx.ranked hx.links hr hfv
    -- the link that is packed into joins nodes of the same levels as the reduction
    have hholder := h.roster.lookup_iff.mp (node?_of_findLink? hl)
    obtain ⟨t', ht', hlt, hspan⟩ := hg₁ _ l v _ f (StackGraph.mem_of_findLink? hl) hholder hfv
    obtain rfl := Option.some.inj (ht.symm.trans ht')
    have hlt' : t < (m.build a).2.forest.size := hsize ▸ hlt
    have hnew : m.forest.size < (m.build a).2.forest.size := by
      rw [hsize]
      exact Nat.lt_succ_self _
    obtain ⟨rank₂, hr₂⟩ := hr₁.pack hs₁.part_lt hlt' m.forest.size
    obtain ⟨span₂, hs₂, hold⟩ := hs₁.pack hlt' hnew (hspan₁.trans hspan.symm)
    refine ⟨span₂, rank₂, ?_, ?_, ?_, trivial⟩ <;> simp only [hf, hg]
    · exact hs₂
    · exact hr₂
    · rw [hsize] at hold
      exact hg₁.mono (hsize ▸ Forest.size_le_pack ..) hold
  | link a v target hr hl hg hf =>
    obtain ⟨f, hfv, -⟩ := hr.goto
    obtain ⟨span₁, rank₁, hs₁, hr₁, hsize, hg₁, hspan₁⟩ :=
      h.fitting_build hx.spanned hx.ranked hx.links hr hfv
    -- the new link joins the same levels as the path that has been reduced
    refine ⟨span₁, rank₁, ?_, ?_, ?_, trivial⟩ <;> simp only [hf, hg]
    · exact hs₁
    · exact hr₁
    · rw [hsize]
      exact hg₁.attach h.roster hfv (Nat.lt_succ_self _) hspan₁

/-- Going on keeps spans that fit. -/
theorem Fitting.next {x y : Moment} (hx : Fitting points span rank x)
    (hord : x.Ordered table points) (hn : Next table config x y) :
    ∃ span' rank', Fitting points span' rank' y := by
  cases hn with
  | read | turn | shifted | strand =>
    exact ⟨span, rank, hx.spanned, hx.ranked, hx.links, trivial⟩
  | work hm => exact Working.fitting_moves hord hm hx
  | @leaf m hi hs =>
    have h : Working table points m := hord
    have hspan : (Tree.leaf m.token).HasSpan points span
        (m.generation.level, m.generation.level + 1) := ⟨h.token, rfl⟩
    obtain ⟨rank', hrank'⟩ := hx.ranked.add hx.spanned.part_lt (t := .leaf m.token)
      (fun part hpart => absurd hpart List.not_mem_nil) (by simp)
    refine ⟨Function.update span m.forest.size (m.generation.level, m.generation.level + 1), rank',
      hx.spanned.add (fun part hpart => absurd hpart List.not_mem_nil) hspan, hrank', ?_, ?_⟩
    · show LinksFit _ (m.forest.add _).2.size m.graph
      rw [Forest.size_add]
      exact hx.links.mono (Nat.le_succ _) fun t ht => Function.update_of_ne (Nat.ne_of_lt ht) ..
    · refine ⟨?_, m.generation.level, rfl, Function.update_self ..⟩
      show m.forest.size < (m.forest.add _).2.size
      rw [Forest.size_add]
      exact Nat.lt_succ_self _
  | @shift leaf s due m =>
    obtain ⟨hb, hdue⟩ := hord
    obtain ⟨f, hf, hlevel, -⟩ := hdue s List.mem_cons_self
    -- the leaf spans the point between the source of the shift and the current level
    obtain ⟨hlt, k, hk, hspan⟩ := hx.leaf
    have hk : k + 1 = m.generation.level := hk
    obtain rfl : k = f.position := by omega
    rw [hk] at hspan
    refine ⟨span, rank, ?_⟩
    rcases m.shiftNode_cases leaf s with heq | ⟨-, heq⟩ <;> rw [heq]
    · exact ⟨hx.spanned, hx.ranked, hx.links, hx.leaf⟩
    · refine ⟨?_, ?_, ?_, ?_⟩
      · show (m.attach s.target s.source leaf).forest.Spanned points span
        rw [forest_attach]
        exact hx.spanned
      · show (m.attach s.target s.source leaf).forest.Ranked rank
        rw [forest_attach]
        exact hx.ranked
      · show LinksFit span (m.attach s.target s.source leaf).forest.size _
        rw [forest_attach]
        exact hx.links.attach hb.roster hf hlt hspan
      · show Phase.LeafFits span (m.attach s.target s.source leaf).forest.size
          (m.attach s.target s.source leaf).generation.level _
        rw [forest_attach, level_attach]
        exact hx.leaf

/-- At every moment of a parse there are spans that fit. -/
theorem Reached.fitting {x : Moment} (h : Reached table config points x) :
    ∃ span rank, Fitting points span rank x := by
  induction h with
  | refl =>
    refine ⟨fun _ => (0, 0), fun _ => 0, ⟨?_, ?_⟩, ?_, ?_, trivial⟩
    · intro id t ht
      exact absurd (Forest.lt_of_get? ht) (Nat.not_lt_zero _)
    · intro id t ht
      exact absurd (Forest.lt_of_get? ht) (Nat.not_lt_zero _)
    · intro id t ht
      exact absurd (Forest.lt_of_get? ht) (Nat.not_lt_zero _)
    · intro w l v e f hl
      rw [linksFrom_initial] at hl
      exact absurd hl List.not_mem_nil
  | tail hx hn ih =>
    obtain ⟨span, rank, hfit⟩ := ih
    exact hfit.next (Reached.ordered hx) hn

/-! ### The text of a parse -/

theorem size_inputPoints (config : Config) (input : List Char) :
    (inputPoints config input).size = input.length + 1 := by
  simp [inputPoints]

/-- The points in front of a position in a text are its first characters. -/
theorem filterMap_slice_inputPoints (config : Config) {input : List Char} {n : ℕ}
    (hn : n ≤ input.length) :
    (slice (inputPoints config input) 0 n).filterMap charOfPoint? = input.take n := by
  have hslice : slice (inputPoints config input) 0 n = (input.take n).map Char.val := by
    rw [slice, inputPoints, Array.toList_extract, List.extract_eq_take_drop, List.drop_zero,
      Nat.sub_zero, List.toList_toArray, List.take_append_of_le_length (by simpa using hn),
      List.map_take]
  rw [hslice, List.filterMap_map]
  have hchar : charOfPoint? ∘ Char.val = some := funext charOfPoint?_val
  -- every character of the text is one of Unicode, so it comes back from its point
  rw [hchar, List.filterMap_some]

/-- The point at the end of a text is the end-of-input marker. -/
theorem eq_length_of_inputPoints {input : List Char}
    (hfree : ∀ c ∈ input, c.val ≠ config.endOfInput) {n : ℕ}
    (hn : (inputPoints config input)[n]? = some config.endOfInput) : n = input.length := by
  have hlt := (Array.getElem?_eq_some_iff.mp hn).1
  rw [size_inputPoints] at hlt
  by_contra hne
  have hn' : n < input.length := by omega
  have hpoint : (inputPoints config input)[n]? = some input[n].val := by
    rw [inputPoints, List.getElem?_toArray, List.getElem?_append_left (by simpa using hn'),
      List.getElem?_map, List.getElem?_eq_getElem hn', Option.map_some]
  exact hfree _ (List.getElem_mem hn') (Option.some.inj (hpoint.symm.trans hn))

/-- At the end of a parse, the trees on a walk down to the root have the text in front of the
position of the node on top. -/
theorem Ended.join_text {input : List Char} (h : Ended table config (inputPoints config input) m)
    {n : NodeId} {e : Entry} {ls : List LinkId} (he : m.graph.entryAt? n = some e)
    (hw : m.graph.Walk n ls rootNode) (hle : e.position ≤ input.length) :
    String.join ((ls.reverse.filterMap m.graph.tree?).map m.forest.text) =
      String.ofList (input.take e.position) := by
  have hfit : ∃ span rank, m.forest.Spanned (inputPoints config input) span ∧
      m.forest.Ranked rank ∧ LinksFit span m.forest.size m.graph := by
    rcases h with h | ⟨h, -⟩ <;> obtain ⟨span, rank, hfit⟩ := h.fitting <;>
      exact ⟨span, rank, hfit.spanned, hfit.ranked, hfit.links⟩
  obtain ⟨span, rank, hs, hr, hlinks⟩ := hfit
  obtain ⟨hc, hsize⟩ := hlinks.walk h.between.roster.wf hw he h.between.roster.root
  have hjoin := Forest.toList_join_text hs hr hc hsize
  rw [filterMap_slice_inputPoints config hle] at hjoin
  rw [← hjoin, String.ofList_toList]

/-- At every moment of a parse, all derivation trees of a link from one node down to another have
the points between the levels of the nodes as leaves.  A parse that succeeds has the text in front
of the position at which it accepted last. -/
theorem yields (table : Table) (config : Config) (input : String) :
    (∀ x, Reached table config (inputPoints config input.toList) x → ∀ w l v e f,
      (l, v) ∈ x.machine.graph.linksFrom w → x.machine.graph.entryAt? w = some e →
      x.machine.graph.entryAt? v = some f → f.position ≤ e.position ∧
        ∃ t, x.machine.graph.tree? l = some t ∧ ∀ d, x.machine.forest.Unfolds [t] [d] →
          d.leaves = slice (inputPoints config input.toList) f.position e.position) ∧
    ∀ p, (parse table input config).result = .ok p → ∃ q,
      acceptedAt (parse table input config).events.reverse = some q ∧ q ≤ input.toList.length ∧
      String.join (p.trees.map p.forest.text) = String.ofList (input.toList.take q) ∧
      ((inputPoints config input.toList)[q]? = some config.endOfInput →
        String.join (p.trees.map p.forest.text) = input) := by
  refine ⟨?_, ?_⟩
  · intro x hx w l v e f hl he hf
    obtain ⟨span, rank, hfit⟩ := hx.fitting
    obtain ⟨t, ht, -, hspan⟩ := hfit.links w l v e f hl he hf
    refine ⟨hx.ordered.roster.wf.level_le hl he hf, t, ht, ?_⟩
    intro d hd
    have hleaves := (hfit.spanned.leaves_of_unfolds hd).2
    rwa [hspan] at hleaves
  · intro p hp
    have hparse := hp
    obtain ⟨m, n, hm, heq, ha, hl, hg, hforest⟩ := parse_ok hp
    rw [heq] at hp ⊢
    obtain ⟨e, he, hacc⟩ := hm.acceptedAt_events ha hp
    -- what has been accepted is offered for a point, so the position is not behind them all
    obtain ⟨d, hd, point, hpoint, -⟩ := hm.between.accepting n ha
    obtain rfl := Option.some.inj (he.symm.trans hd)
    have hlt := (Array.getElem?_eq_some_iff.mp hpoint).1
    rw [size_inputPoints] at hlt
    have hle : e.position ≤ input.toList.length := Nat.le_of_lt_succ hlt
    have htext : String.join (p.trees.map p.forest.text) =
        String.ofList (input.toList.take e.position) := by
      rw [Parse.trees, hg, hforest]
      exact hm.join_text he (StackGraph.liveWalk_of_livePath? hl).1 hle
    refine ⟨e.position, hacc, hle, htext, ?_⟩
    -- only the last point is the marker, so there the text is the whole input
    intro hend
    rw [htext, eq_length_of_inputPoints (free_of_parse_ok hparse) hend, List.take_length,
      String.ofList_toList]

/-- The link of the first letter of two, and the text of their parse. -/
theorem yields_pairs : ∃ p, (parse Table.pairs "aa").result = .ok p ∧
    String.join (p.trees.map p.forest.text) = "aa" ∧ ∃ t, p.graph.tree? 0 = some t ∧
      ∀ d, p.forest.Unfolds [t] [d] → d.leaves = slice (inputPoints {} "aa".toList) 0 1 := by
  obtain ⟨hall, hok⟩ := yields Table.pairs {} "aa"
  obtain ⟨p, hp, hdata⟩ := exists_ok_of_toOption_map (r := (parse Table.pairs "aa").result)
    (f := fun p => (p.graph.linksFrom 1, p.graph.entryAt? 1, p.graph.entryAt? 0))
    (b := ([(0, 0)], some ⟨1, 1⟩, some ⟨0, 0⟩)) (by decide +kernel)
  obtain ⟨q, hq, -, -, htext⟩ := hok p hp
  obtain ⟨hlinks, he, hf⟩ : p.graph.linksFrom 1 = [(0, 0)] ∧ p.graph.entryAt? 1 = some ⟨1, 1⟩ ∧
      p.graph.entryAt? 0 = some ⟨0, 0⟩ := by simpa using hdata
  have hlast : acceptedAt (parse Table.pairs "aa").events.reverse = some 2 := by decide +kernel
  obtain rfl := Option.some.inj (hq.symm.trans hlast)
  refine ⟨p, hp, htext (by decide +kernel), ?_⟩
  obtain ⟨m, n, hm, -, -, -, hg, hforest⟩ := parse_ok hp
  rw [hg] at hlinks he hf ⊢
  rw [hforest]
  have hmem : (0, 0) ∈ m.graph.linksFrom 1 := by rw [hlinks]; exact List.mem_singleton_self _
  rcases hm with hm | ⟨hm, -⟩ <;> exact (hall _ hm 1 0 0 _ _ hmem he hf).2

end ScannerlessLR
