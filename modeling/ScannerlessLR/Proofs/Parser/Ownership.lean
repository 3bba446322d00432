/-
Who holds the trees of a parse.

The links of the graph hold the trees of the forest.  A reduction builds its tree over
trees of links, and packs into the tree of a link, so whatever becomes an ambiguity is the
tree of a link, and its alternatives are not.  They are never changed again.  Two links
have the same tree only if they have been made at the same time: by one round of shifts,
whose links share a leaf that is new.

* `StackGraph.Carries` — the trees of links;
* `Reached.restsOn` — the forest rests on these, at every moment;
* `Reached.keeps_reaches` — ambiguities keep their alternatives;
* `ShiftedTogether` — one round of shifts has made two links;
* `Reached.shiftedTogether` — links with the same tree are made together;
* `owned_throughout` — all of this, whatever a parse comes to.
-/
import ScannerlessLR.Proofs.Forest.Ownership
import ScannerlessLR.Proofs.Parser.Freezing

namespace ScannerlessLR

/-- A link of the graph carries the tree `t`. -/
def StackGraph.Carries (g : StackGraph) (t : TreeId) : Prop :=
  ∃ l, g.tree? l = some t

/-- The shifts that are due at a machine make the link `l`: it is there when they have been made, and
was not before. -/
def Machine.MakesByShift (m : Machine) (l : LinkId) : Prop :=
  m.graph.links.size ≤ l ∧ l < m.shift.graph.links.size

/-- One round of shifts makes both links, from a point at which there was nothing left to do. -/
def ShiftedTogether (table : Table) (config : Config) (points : Array UInt32) (l l' : LinkId) :
    Prop :=
  ∃ m, Reached table config points ⟨.working, m⟩ ∧ m.work table config = .idle m ∧
    m.MakesByShift l ∧ m.MakesByShift l'

/-- The machine `m` is in the middle of a round of shifts: of those that were due at `m₀`, the shifts
`due` of the leaf `leaf` are left. -/
structure MidShift (table : Table) (config : Config) (points : Array UInt32) (m₀ : Machine)
    (leaf : TreeId) (due : List Shift) (m : Machine) : Prop where
  reached : Reached table config points ⟨.working, m₀⟩
  idle : m₀.work table config = .idle m₀
  leaf_eq : leaf = m₀.forest.size
  grown : m₀.graph.Extends m.graph
  graph_shift : m₀.shift.graph = (due.foldl (Machine.shiftNode leaf) m).graph

/-- Who holds the trees of a machine: links do, each its own unless they have been shifted together.
Alternatives are no trees of links, but there are at least two, all at different places, and each of
them is a leaf or an application.  Applications are over trees of links. -/
structure Ownership (table : Table) (config : Config) (points : Array UInt32) (m : Machine) :
    Prop where
  shared : ∀ l l' t, l ≠ l' → m.graph.tree? l = some t → m.graph.tree? l' = some t →
    ShiftedTogether table config points l l'
  free : ∀ id ids, m.forest.get? id = some (.amb ids) → ∀ alternative ∈ ids,
    ∀ l, m.graph.tree? l ≠ some alternative
  several : ∀ id ids, m.forest.get? id = some (.amb ids) → ids.Nodup ∧ 2 ≤ ids.length
  plain : ∀ id ids, m.forest.get? id = some (.amb ids) → ∀ alternative ∈ ids,
    (∃ point, m.forest.get? alternative = some (.leaf point)) ∨
      ∃ label children, m.forest.get? alternative = some (.apply label children)
  carried : ∀ id label children, m.forest.get? id = some (.apply label children) →
    ∀ child ∈ children, ∃ l, m.graph.tree? l = some child

open Machine

variable {table : Table} {config : Config} {points : Array UInt32} {m m' m₀ : Machine}
  {g g' : StackGraph} {a : Application} {l l' : LinkId} {t id : TreeId} {ids : List TreeId}
  {leaf : TreeId} {due : List Shift} {x y : Moment}

theorem StackGraph.Carries.mono (hg : g.Extends g') (h : g.Carries t) : g'.Carries t := by
  obtain ⟨l, hl⟩ := h
  exact ⟨l, hg.tree hl⟩

/-- What a reduction builds is over the trees of the links along its path. -/
theorem Application.carries_of_mem_parts (h : t ∈ (a.tree g).parts) : g.Carries t := by
  obtain ⟨l, -, hl⟩ := List.mem_filterMap.mp h
  exact ⟨l, hl⟩

/-! ### Links hold the trees -/

theorem Reached.tidy_carries (hx : Reached table config points x) :
    x.machine.forest.Tidy x.machine.graph.Carries :=
  hx.tidy.mono fun _ => .inl

/-- A step of a machine at work keeps its forest resting on the trees of links. -/
theorem Reached.restsOn_moves (hx : Reached table config points ⟨.working, m⟩)
    (hm : Moves table config m m') (h : m.forest.RestsOn m.graph.Carries) :
    m'.forest.RestsOn m'.graph.Carries := by
  have h' : m.forest.RestsOn m'.graph.Carries :=
    h.mono fun _ => StackGraph.Carries.mono (hx.working.extends_of_moves hm)
  cases hx.working.changes hm with
  | still hg hf | reject l hr hg hf =>
    rw [hf]
    exact h'
  | pack a v target l t hr hl ht hg hf =>
    rw [hg, hf]
    exact h.packNew hx.tidy_carries ⟨l, ht⟩ trivial fun _ => Application.carries_of_mem_parts
  | link a v target hr hl hg hf =>
    have hforest : m'.forest = (m.forest.add (a.tree m.graph)).2 := hf
    rw [hforest]
    refine h'.add trivial fun part hpart => ?_
    exact (Application.carries_of_mem_parts hpart).mono (hx.working.extends_of_moves hm)

/-- At every moment of a parse the forest rests on the trees of links. -/
theorem Reached.restsOn (hx : Reached table config points x) :
    x.machine.forest.RestsOn x.machine.graph.Carries := by
  induction hx with
  | refl => exact fun id c hget => absurd (Forest.lt_of_get? hget) (Nat.not_lt_zero id)
  | @tail x y hx hn ih =>
    cases hn with
    | read | turn | shifted | strand => exact ih
    | work hm => exact Reached.restsOn_moves hx hm ih
    | leaf => exact ih.add trivial fun part hpart => absurd hpart List.not_mem_nil
    | @shift leaf s due m =>
      have hext := Between.extends_shiftNode (Reached.ordered hx).1 leaf s
      show (m.shiftNode leaf s).forest.RestsOn _
      rw [forest_shiftNode]
      exact ih.mono fun _ => StackGraph.Carries.mono hext

/-- An ambiguity is the tree of a link. -/
theorem Reached.carries_of_amb (hx : Reached table config points x)
    (hget : x.machine.forest.get? id = some (.amb ids)) : x.machine.graph.Carries id :=
  (hx.restsOn id _ hget).1

/-! ### Ambiguities keep their alternatives -/

/-- Going on, an ambiguity keeps its alternatives. -/
theorem Restocks.keeps (h : Restocks x y) (ht : x.machine.forest.Tidy x.Uses) (hu : x.Uses t)
    (hget : x.machine.forest.get? t = some (.amb ids)) :
    x.machine.forest.Keeps y.machine.forest t ids := by
  cases h with
  | keep hf =>
    rw [hf]
    exact .refl hget
  | add c hc hf =>
    rw [hf]
    exact ht.keeps_add hu hget c
  | pack s c hc hs hf =>
    rw [hf]
    exact ht.keeps_packNew hu hget hs

/-- Whatever comes after a moment, the ambiguities of the moment keep their alternatives. -/
theorem Reached.keeps_reaches (hx : Reached table config points x)
    (hr : Relation.ReflTransGen (Next table config) x y)
    (hget : x.machine.forest.get? id = some (.amb ids)) :
    x.machine.forest.Keeps y.machine.forest id ids := by
  induction hr with
  | refl => exact .refl hget
  | tail hr hn ih =>
    have hy := hx.reaches hr
    refine ih.trans fun more hamb => ?_
    exact (hy.ordered.restocks hn).keeps hy.tidy (.inl (hy.carries_of_amb hamb)) hamb

/-- So they do when a node has been taken off the queue, and when the parse fails. -/
theorem LeadsTo.keeps (hm : LeadsTo table config x m) (hx : Reached table config points x)
    (hget : x.machine.forest.get? id = some (.amb ids)) :
    x.machine.forest.Keeps m.forest id ids := by
  cases hm with
  | moment hr => exact hx.keeps_reaches hr hget
  | turn hr => exact hx.keeps_reaches hr hget
  | failure hr hf =>
    have hy := hx.reaches hr
    obtain ⟨agenda, a, rfl⟩ := hy.working.failed_eq hf
    -- the tree that has still been built is packed into nothing
    refine (hx.keeps_reaches hr hget).trans fun more hamb => ?_
    exact hy.tidy_carries.keeps_add (hy.carries_of_amb hamb) hamb _

/-! ### Links with the same tree -/

theorem ShiftedTogether.symm (h : ShiftedTogether table config points l l') :
    ShiftedTogether table config points l' l := by
  obtain ⟨m, hm, hi, hl, hl'⟩ := h
  exact ⟨m, hm, hi, hl', hl⟩

/-- While shifts are due, they are part of a round of shifts. -/
theorem Reached.exists_midShift (hx : Reached table config points x)
    (hphase : x.phase = .shifting leaf due) :
    ∃ m₀, MidShift table config points m₀ leaf due x.machine := by
  induction hx generalizing leaf due with
  | refl => exact absurd hphase (by simp)
  | @tail x y hx hn ih =>
    cases hn with
    | read | work | turn | shifted | strand => exact absurd hphase (by simp)
    | @leaf m hi hs =>
      obtain ⟨rfl, rfl⟩ := Phase.shifting.inj hphase
      refine ⟨m, hx, hi, rfl, .refl _, ?_⟩
      rw [shift, if_neg (by simpa using hs)]
      rfl
    | @shift leaf s due m =>
      obtain ⟨rfl, rfl⟩ := Phase.shifting.inj hphase
      obtain ⟨m₀, h⟩ := ih rfl
      have hext := Between.extends_shiftNode (Reached.ordered hx).1 leaf s
      exact ⟨m₀, h.reached, h.idle, h.leaf_eq, h.grown.trans hext, h.graph_shift⟩

/-- In the middle of a round of shifts, the links that carry their leaf are made by this round. -/
theorem MidShift.makesByShift (h : MidShift table config points m₀ leaf due m)
    (hx : Reached table config points ⟨.shifting leaf due, m⟩)
    (hl : m.graph.tree? l = some leaf) : m₀.MakesByShift l := by
  constructor
  -- the trees of older links are older than the leaf
  · refine Nat.le_of_not_lt fun hlt => ?_
    obtain ⟨t, ht⟩ := StackGraph.exists_tree? hlt
    obtain rfl := Option.some.inj ((h.grown.tree ht).symm.trans hl)
    exact absurd (h.reached.tree_lt ht) (by rw [h.leaf_eq]; exact Nat.lt_irrefl _)
  · rw [h.graph_shift]
    have hext := hx.extends_reaches (nexts_shifting leaf due m)
    exact Nat.lt_of_lt_of_le (StackGraph.lt_of_tree? hl) hext.size_links_le

/-- A link that comes with the tree of another link is made together with it. -/
theorem Reached.shiftedTogether_of_new (hx : Reached table config points x)
    (hn : Next table config x y) (hnew : x.machine.graph.links.size ≤ l) (hne : l ≠ l')
    (hl : y.machine.graph.tree? l = some t) (hl' : y.machine.graph.tree? l' = some t) :
    ShiftedTogether table config points l l' := by
  have hy := hx.next hn
  rcases hx.new_link hn hnew (StackGraph.lt_of_tree? hl) with
    ⟨-, hmade⟩ | ⟨leaf, s, due, m, rfl, rfl, rfl⟩
  · exact absurd (hy.eq_of_linked hmade hl hl').symm hne
  · rcases tree?_attach_eq_some hl with ⟨-, rfl⟩ | hold
    · obtain ⟨m₀, hmid⟩ := hy.exists_midShift rfl
      exact ⟨m₀, hmid.reached, hmid.idle, hmid.makesByShift hy hl, hmid.makesByShift hy hl'⟩
    · exact absurd (StackGraph.lt_of_tree? hold) (Nat.lt_irrefl _)

/-- Links that carry the same tree are made together. -/
theorem Reached.shiftedTogether (hx : Reached table config points x) (hne : l ≠ l')
    (hl : x.machine.graph.tree? l = some t) (hl' : x.machine.graph.tree? l' = some t) :
    ShiftedTogether table config points l l' := by
  induction hx generalizing t with
  | refl => exact absurd hl (by simp [tree?_initial])
  | @tail x y hx hn ih =>
    have hext := (Reached.ordered hx).extends_next hn
    have hold : ∀ {l t}, l < x.machine.graph.links.size → y.machine.graph.tree? l = some t →
        x.machine.graph.tree? l = some t := by
      intro l t hlt hl
      obtain ⟨t', ht'⟩ := StackGraph.exists_tree? hlt
      rw [ht', ← hext.tree ht', hl]
    by_cases hlt : l < x.machine.graph.links.size
    · by_cases hlt' : l' < x.machine.graph.links.size
      · exact ih (hold hlt hl) (hold hlt' hl')
      · exact (Reached.shiftedTogether_of_new hx hn (Nat.le_of_not_lt hlt') hne.symm hl' hl).symm
    · exact Reached.shiftedTogether_of_new hx hn (Nat.le_of_not_lt hlt) hne hl hl'

/-! ### Ownership -/

/-- The trees of a forest belong to links if it rests on these. -/
theorem Ownership.of_restsOn (hf : m.forest.RestsOn m.graph.Carries)
    (ht : m.forest.Tidy m.graph.Carries)
    (hshared : ∀ l l' t, l ≠ l' → m.graph.tree? l = some t → m.graph.tree? l' = some t →
      ShiftedTogether table config points l l') : Ownership table config points m where
  shared := hshared
  free := fun id ids hget alternative halt l hl =>
    ht.not_of_mem_amb (hf id _ hget).1 hget halt ⟨l, hl⟩
  several := fun id ids hget => (hf id _ hget).2
  plain := by
    intro id ids hget alternative halt
    obtain ⟨c, hc, hplain⟩ := ht.exists_plain (hf id _ hget).1 hget halt
    cases c with
    | leaf point => exact .inl ⟨point, hc⟩
    | apply label children => exact .inr ⟨label, children, hc⟩
    | amb alternatives => exact hplain.elim
  carried := fun id label children hget => hf id _ hget

/-- At every moment of a parse its trees belong to links. -/
theorem Reached.ownership (hx : Reached table config points x) :
    Ownership table config points x.machine :=
  .of_restsOn hx.restsOn hx.tidy_carries fun _ _ _ hne hl hl' => hx.shiftedTogether hne hl hl'

/-- So they do when a node has been taken off the queue, and when the parse fails. -/
theorem LeadsTo.ownership (hm : LeadsTo table config x m) (hx : Reached table config points x) :
    Ownership table config points m := by
  cases hm with
  | moment hr => exact (hx.reaches hr).ownership
  | turn hr => exact { (hx.reaches hr).ownership with }
  | @failure m f e hr hf =>
    have hy := hx.reaches hr
    obtain ⟨agenda, a, rfl⟩ := hy.working.failed_eq hf
    have hplain : (a.tree m.graph).Plain := trivial
    refine .of_restsOn ?_ ?_ hy.ownership.shared
    · exact hy.restsOn.add hplain fun _ => Application.carries_of_mem_parts
    · exact (hy.tidy_carries.add hplain).mono fun _ => .inr

/-- Whatever a parse comes to, its trees belong to links: two links have the same tree only if one
round of shifts has made them, and no link has an alternative of an ambiguity.  So ambiguities are
flat, and applications are over trees of links.  And whatever it comes to from there, the
alternatives of an ambiguity stay what they are. -/
theorem owned_throughout {input : String}
    (hx : Reached table config (inputPoints config input.toList) x)
    (hm : LeadsTo table config x m) :
    Ownership table config (inputPoints config input.toList) m ∧
      ∀ id ids, x.machine.forest.get? id = some (.amb ids) →
        x.machine.forest.Keeps m.forest id ids :=
  ⟨hm.ownership hx, fun _ _ hget => hm.keeps hx hget⟩

/-- A table with two shifts of one letter, and two reductions of the letter that lead where the first
of the shifts does. -/
def Table.renamed : Table where
  start := 0
  states := [
    { id := 0, gotos := [⟨.span 257 258, 1⟩],
      actions := [⟨.single 97, [.shift 1, .shift 2]⟩] },
    { id := 1, actions := [⟨.single 256, [.reduce ⟨1, 257, .normal⟩, .reduce ⟨1, 258, .normal⟩]⟩] },
    { id := 2, actions := [⟨.single 256, [.accept]⟩] }]
  labels := [⟨257, .application "first" [], []⟩, ⟨258, .application "second" [], []⟩]
  states_nodup := by decide
  labels_nodup := by decide
  resolves := by decide

/-- Both links of the letter carry its leaf, for they have been shifted together.  When the second
reduction is packed into it, the alternatives that it has by then stay what they are. -/
theorem owned_throughout_renamed : ∃ x m,
    Reached Table.renamed {} (inputPoints {} "a".toList) x ∧ LeadsTo Table.renamed {} x m ∧
      x.machine.forest = ⟨#[.amb [2, 1], .apply 257 [0], .leaf 97]⟩ ∧
      m.forest = ⟨#[.amb [2, 1, 3], .apply 257 [0], .leaf 97, .apply 258 [0]]⟩ ∧
      m.graph.tree? 0 = some 0 ∧ m.graph.tree? 1 = some 0 ∧
      Ownership Table.renamed {} (inputPoints {} "a".toList) m ∧
      ShiftedTogether Table.renamed {} (inputPoints {} "a".toList) 0 1 ∧
      x.machine.forest.Keeps m.forest 0 [2, 1] := by
  let points := inputPoints {} "a".toList
  let drained := fun m : Machine => m.drain Table.renamed {} (m.room Table.renamed)
  let stepped := fun m : Machine => (m.work Table.renamed {}).next?
  let m₀ := Machine.initial Table.renamed {} points
  let m₁ := (drained (m₀.read 97 ⟨points, 1⟩)).toOption.get (by decide +kernel)
  let m₂ := m₁.shift.read 256 ⟨points, 2⟩
  -- the node of the first shift has its turn, and its first reduction is found and packed
  let m₃ := (stepped m₂).get (by decide +kernel)
  let m₄ := (stepped m₃).get (by decide +kernel)
  let m₅ := (stepped m₄).get (by decide +kernel)
  let m₆ := (drained m₅).toOption.get (by decide +kernel)
  obtain ⟨h₁, hi₁⟩ := nexts_drain (m := m₀) (by decide) (by decide)
    (eq_ok_get _ : drained (m₀.read 97 ⟨points, 1⟩) = .ok m₁)
  have hread : Next Table.renamed {} ⟨.between, m₁.shift⟩ ⟨.working, m₂⟩ :=
    .read (by decide +kernel) (by decide +kernel)
  have hsteps : Runs Table.renamed {} m₂ m₅ :=
    .tail (.tail (.single (Option.some_get _).symm) (Option.some_get _).symm)
      (Option.some_get _).symm
  have hrest : Runs Table.renamed {} m₅ m₆ :=
    (drain_ok (eq_ok_get _ : drained m₅ = .ok m₆)).1
  have hx : Reached Table.renamed {} points ⟨.working, m₅⟩ :=
    ((h₁.trans (nexts_shift hi₁)).tail hread).trans (nexts_of_runs hsteps)
  have hm : LeadsTo Table.renamed {} ⟨.working, m₅⟩ m₆ := .moment (nexts_of_runs hrest)
  have hforest : m₅.forest = ⟨#[.amb [2, 1], .apply 257 [0], .leaf 97]⟩ := by decide +kernel
  have hl : m₆.graph.tree? 0 = some 0 := by decide +kernel
  have hl' : m₆.graph.tree? 1 = some 0 := by decide +kernel
  obtain ⟨howned, hkeeps⟩ := owned_throughout hx hm
  refine ⟨⟨.working, m₅⟩, m₆, hx, hm, hforest, by decide +kernel, hl, hl', howned,
    howned.shared 0 1 0 Nat.zero_ne_one hl hl', hkeeps 0 [2, 1] ?_⟩
  exact (congrArg (Forest.get? · 0) hforest).trans rfl

end ScannerlessLR
