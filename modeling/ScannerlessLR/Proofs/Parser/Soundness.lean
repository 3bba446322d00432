/-
The graph-structured stack spells nothing but stacks of the automaton.

A new link makes many new paths at once, through all that has been stacked on
its upper end, so paths are not followed one by one.  Each link is faithful
instead: whatever stack the automaton can reach with the lower end of the link on
top, it can also reach with the upper end pushed.

* `Faithful` — all links of a graph are faithful;
* `Faithful.attach` — making a link for a shift or a reduction keeps them so;
* `Reached.spells_reachable` — every path down to the root spells a stack that the
  automaton can reach.
-/
import ScannerlessLR.Proofs.Parser.Run
import ScannerlessLR.Proofs.Stack.LivePath

namespace ScannerlessLR

open Machine

variable {table : Table} {config : Config} {points : Array UInt32} {m m' : Machine}
  {n : NodeId} {e : Entry}

/-- Whatever stack the automaton can reach with the lower end of a link on top, it can reach with
the upper end pushed. -/
def Faithful (table : Table) (points : Array UInt32) (g : StackGraph) : Prop :=
  ∀ w l v e f rest, (l, v) ∈ g.linksFrom w → g.entryAt? w = some e → g.entryAt? v = some f →
    Automaton.Reachable table points ⟨f :: rest, f.position⟩ →
    Automaton.Reachable table points ⟨e :: f :: rest, e.position⟩

/-- Above a stack that can be reached, a walk stands for one that can be reached too. -/
theorem Faithful.walk {g : StackGraph} {u v : NodeId} {ls : List LinkId} {e f : Entry}
    {rest : List Entry} (hg : Faithful table points g) (hwf : g.WellFormed) (hw : g.Walk u ls v)
    (he : g.entryAt? u = some e) (hf : g.entryAt? v = some f)
    (hr : Automaton.Reachable table points ⟨f :: rest, f.position⟩) :
    ∃ τ, τ.length = ls.length ∧ (τ ++ f :: rest).head? = some e ∧
      Automaton.Reachable table points ⟨τ ++ f :: rest, e.position⟩ := by
  induction hw generalizing e with
  | nil n =>
    obtain rfl := Option.some.inj (he.symm.trans hf)
    exact ⟨[], rfl, rfl, hr⟩
  | @cons n below v l ls hl hw ih =>
    obtain ⟨d, hd⟩ := StackGraph.exists_entryAt? (hwf.target_lt hl)
    obtain ⟨τ, hlen, hhead, hτ⟩ := ih hd hf
    obtain ⟨rest', hrest'⟩ := List.head?_eq_some_iff.mp hhead
    rw [hrest'] at hτ
    refine ⟨e :: τ, by rw [List.length_cons, List.length_cons, hlen], rfl, ?_⟩
    rw [List.cons_append, hrest']
    exact hg n l below e d rest' hl he hd hτ

/-- A new link keeps the links faithful if it is faithful itself. -/
theorem Faithful.attach (hg : Faithful table points m.graph)
    (hR : Roster table m.graph m.generation.level m.generation.active) {target : StateId}
    {bottom : NodeId} {f : Entry} (hf : m.graph.entryAt? bottom = some f)
    (hnew : ∀ rest, Automaton.Reachable table points ⟨f :: rest, f.position⟩ →
      Automaton.Reachable table points
        ⟨⟨target, m.generation.level⟩ :: f :: rest, m.generation.level⟩) (tree : TreeId) :
    Faithful table points (m.attach target bottom tree).graph := by
  intro w l v e d rest hl he hd hr
  rcases (mem_linksFrom_attach hR).mp hl with ⟨rfl, -, rfl⟩ | hl
  · rw [(extends_attach hR).entry hf] at hd
    rw [entryAt?_holder hR] at he
    obtain rfl := Option.some.inj he
    obtain rfl := Option.some.inj hd
    exact hnew rest hr
  · have he' := (extends_attach hR).entry_of_lt (StackGraph.lt_of_mem_linksFrom hl) he
    have hd' := (extends_attach hR).entry_of_lt (hR.wf.target_lt hl) hd
    exact hg w l v e d rest hl he' hd' hr

/-- The link of a reduction is faithful: the automaton climbs the walk and reduces it. -/
theorem Working.faithful_reducible (h : Working table points m)
    (hg : Faithful table points m.graph) {a : Application} {v : NodeId} {target : StateId}
    (hr : Reducible table config points m a v target) (tree : TreeId) :
    Faithful table points (m.attach target v tree).graph := by
  obtain ⟨f, hf, hgoto⟩ := hr.goto
  refine hg.attach h.roster hf ?_ tree
  intro rest hrest
  obtain ⟨s, hs⟩ := h.entry_of_processed hr.processed
  obtain ⟨τ, hlen, hhead, hτ⟩ := hg.walk h.roster.wf hr.enabled.walk hs hf hrest
  rw [hr.enabled.length_eq] at hlen
  obtain ⟨e, he, hc⟩ := hr.enabled.calls
  obtain rfl := Option.some.inj (hs.symm.trans he)
  have henables : Automaton.Enables table points ⟨τ ++ f :: rest, m.generation.level⟩
      a.reduction := by
    refine ⟨⟨_, hhead, hr.enabled.parses, hc⟩, ?_⟩
    show a.reduction.arity < (τ ++ f :: rest).length
    rw [List.length_append, List.length_cons, hlen]
    omega
  -- the walk is as long as the arity, so its end is what the goto is taken from
  have hbottom : (τ ++ f :: rest)[a.reduction.arity]? = some f := by
    rw [← hlen, List.getElem?_append_right (Nat.le_refl _), Nat.sub_self]
    rfl
  have hstep := Automaton.Step.reduce henables hbottom hgoto
  rw [← hlen, List.drop_left] at hstep
  exact hτ.step hstep

/-- The link of a shift is faithful. -/
theorem Between.faithful_shift (h : Between table points m) (hg : Faithful table points m.graph)
    {s : Shift} (hs : s.Due table points m) (leaf : TreeId) :
    Faithful table points (m.shiftNode leaf s).graph := by
  rcases m.shiftNode_cases leaf s with heq | ⟨-, heq⟩ <;> rw [heq]
  · exact hg
  · obtain ⟨f, hf, hlevel, ho⟩ := hs
    refine hg.attach h.roster hf ?_ leaf
    intro rest hrest
    rw [← hlevel]
    exact hrest.step (.shift ⟨f, rfl, ho⟩)

/-- Going on keeps the links faithful. -/
theorem Faithful.next {x y : Moment} (hg : Faithful table points x.machine.graph)
    (hx : x.Ordered table points) (hn : Next table config x y) :
    Faithful table points y.machine.graph := by
  cases hn with
  | read | turn | leaf | shifted | strand => exact hg
  | @work m m' hm =>
    have h : Working table points m := hx
    show Faithful table points m'.graph
    cases h.changes hm with
    | still hg' | pack _ _ _ _ _ _ _ _ hg' | reject _ _ hg' =>
      rw [hg']
      exact hg
    | link a v target hr hl hg' => rw [hg']; exact h.faithful_reducible hg hr _
  | shift => exact hx.1.faithful_shift hg (hx.2 _ List.mem_cons_self) _

/-- At every moment of a parse the links are faithful. -/
theorem Reached.faithful {x : Moment} (h : Reached table config points x) :
    Faithful table points x.machine.graph := by
  induction h with
  | refl =>
    intro w l v e f rest hl
    rw [linksFrom_initial] at hl
    exact absurd hl List.not_mem_nil
  | tail hx hn ih => exact ih.next (Reached.ordered hx) hn

/-- Every path down to the root spells a stack that the automaton can reach. -/
theorem Reached.spells_reachable {x : Moment} (h : Reached table config points x)
    {ls : List LinkId} {σ : List Entry} (hσ : x.machine.graph.Spells rootNode n ls σ)
    (he : x.machine.graph.entryAt? n = some e) :
    Automaton.Reachable table points ⟨σ, e.position⟩ := by
  have hR := h.ordered.roster
  -- by induction on the path, from the root up
  induction hσ generalizing e with
  | root he' =>
    rw [hR.root] at he he'
    obtain rfl := Option.some.inj he
    obtain rfl := Option.some.inj he'
    exact .refl
  | @link n below l ls e' σ he' hl hσ ih =>
    obtain rfl := Option.some.inj (he'.symm.trans he)
    obtain ⟨f, hf⟩ := StackGraph.exists_entryAt? hσ.lt_size
    obtain ⟨rest, rfl⟩ := List.head?_eq_some_iff.mp (hσ.head?.trans hf)
    exact h.faithful n l below e' f rest hl he' hf (ih hf)

/-- At every moment of a parse of a text, the stacks that the graph spells are stacks of the
automaton, and the path of a parse that succeeds spells one that accepts. -/
theorem stacks_reachable (table : Table) (config : Config) (input : String) :
    (∀ x, Reached table config (inputPoints config input.toList) x → ∀ n e ls σ,
      x.machine.graph.entryAt? n = some e → x.machine.graph.Spells rootNode n ls σ →
      Automaton.Reachable table (inputPoints config input.toList) ⟨σ, e.position⟩) ∧
    ∀ p, (parse table input config).result = .ok p → ∃ n e rest,
      p.graph.Spells rootNode n p.path (e :: rest) ∧
      Automaton.Reachable table (inputPoints config input.toList) ⟨e :: rest, e.position⟩ ∧
      table.Offers (inputPoints config input.toList) e.state e.position .accept := by
  refine ⟨fun x hx n e ls σ he hσ => hx.spells_reachable hσ he, ?_⟩
  intro p hp
  obtain ⟨m, n, hm, -, ha, hl, hg, -⟩ := parse_ok hp
  obtain ⟨e, he, ho⟩ := hm.between.accepting n ha
  obtain ⟨hw, -⟩ := StackGraph.liveWalk_of_livePath? hl
  obtain ⟨σ, hσ⟩ := hw.exists_spells (StackGraph.lt_of_entryAt? hm.between.roster.root)
  obtain ⟨rest, rfl⟩ := List.head?_eq_some_iff.mp (hσ.head?.trans he)
  refine ⟨n, e, rest, hg ▸ hσ, ?_, ho⟩
  rcases hm with hm | ⟨hm, -⟩ <;> exact hm.spells_reachable hσ he

/-- The stack in front of the first point, and the stack on which a pair of letters is accepted. -/
theorem stacks_reachable_pairs :
    Automaton.Reachable Table.pairs (inputPoints {} "aa".toList) ⟨[⟨0, 0⟩], 0⟩ ∧
    ∃ p, (parse Table.pairs "aa").result = .ok p ∧ ∃ n e rest,
      p.graph.Spells rootNode n p.path (e :: rest) ∧
      Automaton.Reachable Table.pairs (inputPoints {} "aa".toList) ⟨e :: rest, e.position⟩ ∧
      Table.pairs.Offers (inputPoints {} "aa".toList) e.state e.position .accept := by
  obtain ⟨hall, hok⟩ := stacks_reachable Table.pairs {} "aa"
  obtain ⟨p, hp, -⟩ := exists_ok_of_toOption_map (r := (parse Table.pairs "aa").result)
    (f := fun p => p.path.length) (b := 1) (by decide +kernel)
  exact ⟨hall _ .refl rootNode ⟨0, 0⟩ [] [⟨0, 0⟩] rfl (.root rfl), p, hp, hok p hp⟩

end ScannerlessLR
