/-
The graph-structured stack spells every stack of the automaton, unless the table
rejects reductions.

A level that a parse has left behind is settled: every reduction enabled there has
its link, and every shift offered there has been made.  It stays so, for all new
links leave nodes above it.  So the automaton cannot leave the stacks that the graph
spells.

* `Settled` — nothing is left to do at a level;
* `Reached.settled` — a parse leaves no level behind that is not settled;
* `spelled_of_reachable` — settled levels spell every stack that the automaton can
  reach.
-/
import ScannerlessLR.Proofs.Parser.Closure
import ScannerlessLR.Proofs.Parser.Run

namespace ScannerlessLR

/-- No link is rejected. -/
def StackGraph.NoneRejected (g : StackGraph) : Prop :=
  ∀ l, g.isRejected l = false

/-- The shifts that are still due at a moment. -/
def Phase.due : Phase → List Shift
  | .shifting _ due => due
  | .between | .working | .stranded => []

/-- Nothing is left to do at the level `k`, but for the shifts that are due. -/
structure Settled (table : Table) (points : Array UInt32) (due : List Shift) (m : Machine) (k : ℕ) :
    Prop where
  reduced : ∀ (a : Application) (v : NodeId) (e : Entry), m.graph.entryAt? a.node = some e →
    e.position = k → a.Enabled table points m.graph v → a.JoinedTo table m.graph k v
  shifted : ∀ n e target, m.graph.entryAt? n = some e → e.position = k →
    table.Offers points e.state k (.shift target) → ⟨n, target⟩ ∈ due ∨
      ∃ w l, m.graph.entryAt? w = some ⟨target, k + 1⟩ ∧ (l, n) ∈ m.graph.linksFrom w
  accepted : ∀ n e, m.graph.entryAt? n = some e → e.position = k →
    table.Offers points e.state k .accept → m.accepting ≠ none

open Machine

variable {table : Table} {points : Array UInt32} {config : Config} {m m' : Machine}
  {due due' : List Shift} {k : ℕ} {x y : Moment}

/-! ### A table that rejects nothing -/

/-- Without rejecting reductions no link is ever rejected. -/
theorem Reached.noneRejected (hfree : table.RejectFree) (h : Reached table config points x) :
    x.machine.graph.NoneRejected := by
  induction h with
  | refl => exact fun l => rfl
  | @tail y z hy hn ih =>
    cases hn with
    | read | turn | leaf | shifted | strand => exact ih
    | @work m m' hm =>
      have h : Working table points m := Reached.working hy
      show m'.graph.NoneRejected
      cases h.changes hm with
      | still hg | pack _ _ _ _ _ _ _ _ hg =>
        rw [hg]
        exact ih
      | reject l hr =>
        -- no node calls for a rejection, for no label rejects
        obtain ⟨n, r, ⟨e, -, hc⟩, hr⟩ := hr
        exact absurd hr (hfree.not_rejects hc)
      | link a v target hr hl hg =>
        -- a new link is not rejected, and the others are as before
        intro l
        rw [hg, isRejected_attach]
        exact ih l
    | @shift leaf s due m =>
      intro l
      show (m.shiftNode leaf s).graph.isRejected l = false
      rcases m.shiftNode_cases leaf s with heq | ⟨-, heq⟩ <;> rw [heq]
      · exact ih l
      · rw [isRejected_attach]
        exact ih l

/-- A shift, when nothing is rejected: the link is there, or is made. -/
theorem shiftNode_of_noneRejected (hg : m.graph.NoneRejected) (leaf : TreeId) (s : Shift) :
    (∃ l, m.graph.findLink? (m.holder s.target) s.source = some l ∧ m.shiftNode leaf s = m) ∨
      m.graph.findLink? (m.holder s.target) s.source = none ∧
        m.shiftNode leaf s = m.attach s.target s.source leaf := by
  have hr : m.graph.allRejected s.source = false :=
    StackGraph.allRejected_eq_false fun l v _ => hg l
  rw [shiftNode_eq, hr, if_neg Bool.false_ne_true]
  cases hf : m.graph.findLink? (m.holder s.target) s.source with
  | some l => exact .inl ⟨l, rfl, rfl⟩
  | none => exact .inr ⟨rfl, rfl⟩

/-! ### Settled levels -/

/-- What settles a level is the graph and the accepting node. -/
theorem Settled.congr (h : Settled table points due m k) (hg : m'.graph = m.graph)
    (ha : m.accepting ≠ none → m'.accepting ≠ none) (hd : ∀ s ∈ due, s ∈ due') :
    Settled table points due' m' k where
  reduced := by
    rw [hg]
    exact h.reduced
  shifted := by
    rw [hg]
    intro n e target he hk ho
    exact (h.shifted n e target he hk ho).imp_left (hd _)
  accepted := fun n e he hk ho => ha (h.accepted n e (hg ▸ he) hk ho)

/-- A walk from below the current level is as old as its first node. -/
theorem Machine.walk_of_attach_of_lt
    (hR : Roster table m.graph m.generation.level m.generation.active) {target : StateId}
    {bottom u v : NodeId} {tree : TreeId} {ls : List LinkId} {e : Entry}
    (hw : (m.attach target bottom tree).graph.Walk u ls v) (he : m.graph.entryAt? u = some e)
    (hk : e.position < m.generation.level) : m.graph.Walk u ls v := by
  induction hw generalizing e with
  | nil n => exact .nil n
  | @cons n below v l ls hl hw ih =>
    -- the new link leaves a node of the current level, and walks only go down
    have hl : (l, below) ∈ m.graph.linksFrom n := by
      rcases (mem_linksFrom_attach hR).mp hl with ⟨rfl, -⟩ | hl
      · have hext : m.graph.Extends (m.attach target bottom tree).graph := extends_attach hR
        have he' := hext.entry he
        rw [entryAt?_holder hR] at he'
        obtain rfl := Option.some.inj he'
        exact absurd hk (Nat.lt_irrefl _)
      · exact hl
    obtain ⟨d, hd⟩ := StackGraph.exists_entryAt? (hR.wf.target_lt hl)
    exact .cons hl (ih hd (Nat.lt_of_le_of_lt (hR.wf.level_le hl he hd) hk))

/-- A node below the current level is an old one. -/
theorem Machine.entryAt?_of_attach_of_lt
    (hR : Roster table m.graph m.generation.level m.generation.active) {target : StateId}
    {bottom n : NodeId} {tree : TreeId} {e : Entry}
    (he : (m.attach target bottom tree).graph.entryAt? n = some e)
    (hk : e.position < m.generation.level) : m.graph.entryAt? n = some e := by
  rw [entryAt?_attach hR] at he
  split at he
  · obtain rfl := Option.some.inj he
    exact absurd hk (Nat.lt_irrefl _)
  · exact he

/-- A reduction below the current level is an old one. -/
theorem Application.Enabled.of_attach_of_lt
    (hR : Roster table m.graph m.generation.level m.generation.active) {target : StateId}
    {bottom v : NodeId} {tree : TreeId} {a : Application} {e : Entry}
    (ha : a.Enabled table points (m.attach target bottom tree).graph v)
    (he : (m.attach target bottom tree).graph.entryAt? a.node = some e)
    (hk : e.position < m.generation.level) : a.Enabled table points m.graph v := by
  have he' := entryAt?_of_attach_of_lt hR he hk
  obtain ⟨d, hd, hc⟩ := ha.calls
  obtain rfl := Option.some.inj (he.symm.trans hd)
  exact ⟨⟨e, he', hc⟩, ha.parses, walk_of_attach_of_lt hR ha.walk he' hk, ha.length_eq⟩

/-- A level below the current one stays settled when a link is made. -/
theorem Settled.attach (h : Settled table points due m k)
    (hR : Roster table m.graph m.generation.level m.generation.active)
    (hk : k < m.generation.level) (target : StateId) (bottom : NodeId) (tree : TreeId) :
    Settled table points due (m.attach target bottom tree) k := by
  have hext : m.graph.Extends (m.attach target bottom tree).graph := extends_attach hR
  constructor
  · rintro a v e he rfl ha
    have he' := entryAt?_of_attach_of_lt hR he hk
    exact (h.reduced a v e he' rfl (ha.of_attach_of_lt hR he hk)).mono hext
  · rintro n e s he rfl ho
    rcases h.shifted n e s (entryAt?_of_attach_of_lt hR he hk) rfl ho with hd | ⟨w, l, hw, hl⟩
    · exact .inl hd
    · exact .inr ⟨w, l, hext.entry hw, hext.mem hl⟩
  · rintro n e he rfl ho
    rw [accepting_attach]
    exact h.accepted n e (entryAt?_of_attach_of_lt hR he hk) rfl ho

/-- No step forgets that a node has accepted. -/
theorem Machine.Moves.accepting (h : Moves table config m m') (ha : m.accepting ≠ none) :
    m'.accepting ≠ none := by
  obtain ⟨p, hp, hm⟩ := h.works
  cases hp with
  | task _ hp =>
    cases hp with
    | accept =>
      obtain rfl := Option.some.inj hm
      simp
    | link n r rejecting p id target hd hb hg hf =>
      obtain rfl := Option.some.inj hm
      rw [Machine.push, accepting_attach]
      exact ha
    | unknownLabel | unknownBottom | gap | unknownState =>
      exact absurd hm (by simp [Progress.next?])
    | _ =>
      -- other tasks do not touch what has been accepted
      obtain rfl := Option.some.inj hm
      exact ha
  | dispatch _ _ hp =>
    cases hp with
    | unknownState => exact absurd hm (by simp [Progress.next?])
    | nothing | items =>
      obtain rfl := Option.some.inj hm
      exact ha
  | idle => exact absurd hm (by simp [Progress.next?])

/-- A step at a point leaves the levels below it settled. -/
theorem Settled.moves (h : Settled table points due m k) (hm : Working table points m)
    (hk : k < m.generation.level) (hmoves : Moves table config m m') :
    Settled table points due m' k := by
  cases hm.changes hmoves with
  | still hg | pack _ _ _ _ _ _ _ _ hg => exact h.congr hg hmoves.accepting fun _ hs => hs
  | reject l hr hg =>
    -- a rejection changes no walk
    constructor <;> rw [hg]
    · intro a v e he hpos ha
      exact h.reduced a v e he hpos
        ⟨ha.calls, ha.parses, StackGraph.walk_reject_iff.mp ha.walk, ha.length_eq⟩
    · exact h.shifted
    · exact fun n e he hpos ho => hmoves.accepting (h.accepted n e he hpos ho)
  | link a v target hr hl hg =>
    refine (h.attach hm.roster hk target v m.forest.size).congr hg ?_ fun _ hs => hs
    rw [accepting_attach]
    exact hmoves.accepting

/-- A machine that is idle has applied all reductions of its level. -/
theorem Working.mem_applied_of_idle (h : Working table points m)
    (ht : Thorough table points m.agenda m) (hi : m.work table config = .idle m)
    (hg : m.graph.NoneRejected) {a : Application} {v : NodeId} {s : StateId}
    (he : m.graph.entryAt? a.node = some ⟨s, m.generation.level⟩)
    (ha : a.Enabled table points m.graph v) : a ∈ m.generation.applied :=
  h.mem_applied_of_live ht hi he ha ⟨fun l _ => hg l, fun _ l _ _ => hg l⟩

/-- A machine that is idle has settled the level of its point, but for its shifts. -/
theorem Working.settled_of_idle (h : Working table points m) (ht : Thorough table points m.agenda m)
    (hi : m.work table config = .idle m) (hg : m.graph.NoneRejected) :
    Settled table points m.generation.shifts m m.generation.level := by
  have hagenda : m.agenda = [] := (work_eq_idle hi).2.1
  constructor
  -- what has been applied is joined, and no other walk goes along its links
  · rintro a v ⟨s, position⟩ he rfl ha
    obtain ⟨-, v', ha', hj⟩ := ht.joined a (h.mem_applied_of_idle ht hi hg he ha)
    rwa [ha.walk.unique h.roster.wf ha'.walk]
  -- nothing is left on the agenda, so the shift is among those that are due
  · rintro n ⟨s, position⟩ target he rfl ho
    have hn := h.processed_of_idle hi he
    rcases ht.shifted n target hn ⟨_, he, ho⟩ fun l _ _ => hg l with hs | ht
    · exact .inl hs
    · rw [hagenda] at ht
      exact absurd ht List.not_mem_nil
  · rintro n ⟨s, position⟩ he rfl ho
    have hn := h.processed_of_idle hi he
    rcases ht.accepted n hn ⟨_, he, ho⟩ with ha | ⟨_, ht⟩
    · exact ha
    · rw [hagenda] at ht
      exact absurd ht List.not_mem_nil

/-- A shift settles what was due of it. -/
theorem Between.settled_shiftNode (h : Between table points m) {s : Shift} (leaf : TreeId)
    (hs : s.Due table points m) (hg : m.graph.NoneRejected)
    (hsettled : Settled table points (s :: due) m k) (hk : k < m.generation.level) :
    Settled table points due (m.shiftNode leaf s) k := by
  obtain ⟨e₀, he₀, hlevel, -⟩ := hs
  -- the source of the shift is just below the current level
  have hlink : ∀ n e target, m.graph.entryAt? n = some e → e.position = k →
      (⟨n, target⟩ : Shift) = s → k + 1 = m.generation.level := by
    rintro n e target he hk rfl
    obtain rfl := Option.some.inj (he.symm.trans he₀)
    rw [← hk, hlevel]
  rcases shiftNode_of_noneRejected hg leaf s with ⟨l, hf, heq⟩ | ⟨hf, heq⟩
  -- the link of the shift is there
  · rw [heq]
    refine { hsettled with shifted := ?_ }
    intro n e target he hpos ho
    rcases hsettled.shifted n e target he hpos ho with hd | hd
    · rcases List.mem_cons.mp hd with hd | hd
      · have hlevel := hlink n e target he hpos hd
        subst hd
        refine .inr ⟨m.holder target, l, ?_, StackGraph.mem_of_findLink? hf⟩
        rw [hlevel]
        exact h.roster.lookup_iff.mp (node?_of_findLink? hf)
      · exact .inl hd
    · exact .inr hd
  -- the link of the shift is made
  · rw [heq]
    have hattach := hsettled.attach h.roster hk s.target s.source leaf
    refine { hattach with shifted := ?_ }
    intro n e target he hpos ho
    rcases hattach.shifted n e target he hpos ho with hd | hd
    · rcases List.mem_cons.mp hd with hd | hd
      · have he := entryAt?_of_attach_of_lt h.roster he (by rw [hpos]; exact hk)
        have hlevel := hlink n e target he hpos hd
        subst hd
        refine .inr ⟨m.holder target, m.graph.links.size, ?_, ?_⟩
        · rw [hlevel]
          exact entryAt?_holder h.roster
        · exact (mem_linksFrom_attach h.roster).mpr (.inl ⟨rfl, rfl, rfl⟩)
      · exact .inl hd
    · exact .inr hd

/-- A parse leaves no level behind that is not settled, but for the shifts that are due. -/
theorem Reached.settled (hfree : table.RejectFree) (h : Reached table config points x) :
    ∀ k < x.machine.generation.level, Settled table points x.phase.due x.machine k := by
  induction h with
  | refl => exact fun k hk => absurd hk (Nat.not_lt_zero k)
  | @tail y z hy hn ih =>
    have hg := Reached.noneRejected hfree hy
    cases hn with
    | read | shifted | strand =>
      exact fun k hk => (ih k hk).congr rfl (fun ha => ha) fun _ hs => hs
    | @work m m' hm =>
      intro k hk
      have hk : k < m.generation.level := hm.frame.1 ▸ hk
      exact (ih k hk).moves (Reached.working hy) hk hm
    -- a turn leaves one more level behind, which the idle machine has settled
    | @turn m hi hs =>
      intro k hk
      rcases Nat.lt_succ_iff_lt_or_eq.mp hk with hk | rfl
      · exact (ih k hk).congr rfl (fun ha => ha) fun _ hs => hs
      · have hidle := (Reached.working hy).settled_of_idle (Reached.thorough hy) hi hg
        rw [hs] at hidle
        exact hidle.congr rfl (fun ha => ha) fun _ hs => hs
    | @leaf m hi hs =>
      intro k hk
      rcases Nat.lt_succ_iff_lt_or_eq.mp hk with hk | rfl
      · exact (ih k hk).congr rfl (fun ha => ha) fun _ hs => absurd hs List.not_mem_nil
      · exact ((Reached.working hy).settled_of_idle (Reached.thorough hy) hi hg).congr rfl
          (fun ha => ha) fun _ hs => hs
    | @shift leaf s due m =>
      intro k hk
      have hk : k < m.generation.level := level_shiftNode leaf m s ▸ hk
      have hord : Moment.Ordered table points ⟨.shifting leaf (s :: due), m⟩ := Reached.ordered hy
      exact hord.1.settled_shiftNode leaf (hord.2 s List.mem_cons_self) hg (ih k hk) hk

/-! ### Every stack is spelled -/

/-- What offers an action for a point lies below a level at which the points end, or at which there
are no nodes. -/
theorem Roster.lt_of_offers {g : StackGraph} {level : ℕ} {active : List (StateId × NodeId)}
    (hR : Roster table g level active) (hend : points.size ≤ level ∨ active = []) {n : NodeId}
    {e : Entry} (he : g.entryAt? n = some e) {item : ActionItem}
    (ho : table.Offers points e.state e.position item) : e.position < level := by
  rcases hend with hend | hend
  · obtain ⟨point, hpoint, -⟩ := ho
    exact Nat.lt_of_lt_of_le (Array.getElem?_eq_some_iff.mp hpoint).1 hend
  · refine Nat.lt_of_le_of_ne (hR.level_le he) fun heq => ?_
    have hl := hR.lookup_iff.mpr (he.trans (by rw [← heq]))
    rw [hend] at hl
    exact absurd hl (by simp)

/-- At a settled level, a reduction of a stack that is spelled has its goto, and its link. -/
theorem Settled.joined {c : Configuration} (h : Settled table points [] m c.position)
    {n : NodeId} {e : Entry} {ls : List LinkId} (he : m.graph.entryAt? n = some e)
    (hpos : e.position = c.position) (hσ : m.graph.Spells rootNode n ls c.stack) {r : Reduction}
    {bottom : Entry} (henables : Automaton.Enables table points c r)
    (hb : c.stack[r.arity]? = some bottom) :
    ∃ v target w l, m.graph.Spells rootNode v (ls.drop r.arity) (c.stack.drop r.arity) ∧
      table.gotoFrom? bottom.state r.label = some target ∧
      m.graph.entryAt? w = some ⟨target, c.position⟩ ∧ (l, v) ∈ m.graph.linksFrom w := by
  obtain ⟨⟨top, htop, hparses, hcalls⟩, hheight⟩ := henables
  obtain rfl : e = top := Option.some.inj ((hσ.head?.trans he).symm.trans htop)
  obtain ⟨v, hw, hv, hlen⟩ := hσ.drop hheight
  have ha : (Application.mk (ls.take r.arity) n r).Enabled table points m.graph v :=
    ⟨⟨e, he, hpos ▸ hcalls⟩, hparses, hw, hlen⟩
  obtain ⟨f, target, w, l, hf, hgoto, hw', hl⟩ := h.reduced _ v e he hpos ha
  have hbottom : (c.stack.drop r.arity).head? = some bottom := by rw [List.head?_drop, hb]
  rw [hv.head?, hf, Option.some.injEq] at hbottom
  subst hbottom
  exact ⟨v, target, w, l, hv, hgoto, hw', hl⟩

/-- Settled levels spell every stack that the automaton can reach without leaving them. -/
theorem spelled_of_reachable
    (hR : Roster table m.graph m.generation.level m.generation.active)
    (hsettled : ∀ k < m.generation.level, Settled table points [] m k)
    (hend : points.size ≤ m.generation.level ∨ m.generation.active = []) {c : Configuration}
    (hc : Automaton.Reachable table points c) : ∃ n e ls, m.graph.entryAt? n = some e ∧
      e.position = c.position ∧ m.graph.Spells rootNode n ls c.stack := by
  -- by induction on the run of the automaton: each step follows a link that is there
  induction hc with
  | refl => exact ⟨rootNode, ⟨table.start, 0⟩, [], hR.root, rfl, .root hR.root⟩
  | @tail c c' hc hstep ih =>
    obtain ⟨n, e, ls, he, hpos, hσ⟩ := ih
    have hhead := hσ.head?.trans he
    cases hstep with
    | @shift target h =>
      obtain ⟨top, htop, ho⟩ := h
      obtain rfl : e = top := Option.some.inj (hhead.symm.trans htop)
      rw [← hpos] at ho ⊢
      have hlt := hR.lt_of_offers hend he ho
      rcases (hsettled _ hlt).shifted n e target he rfl ho with hd | ⟨w, l, hw, hl⟩
      · exact absurd hd List.not_mem_nil
      · exact ⟨w, _, l :: ls, hw, rfl, .link hw hl hσ⟩
    | @reduce r bottom target h hb hgoto =>
      obtain ⟨⟨top, htop, -, item, ho, -⟩, -⟩ := id h
      obtain rfl : e = top := Option.some.inj (hhead.symm.trans htop)
      have hlt := hR.lt_of_offers hend he (hpos ▸ ho)
      rw [hpos] at hlt
      obtain ⟨v, target', w, l, hv, hgoto', hw, hl⟩ := (hsettled _ hlt).joined he hpos hσ h hb
      obtain rfl := Option.some.inj (hgoto'.symm.trans hgoto)
      exact ⟨w, _, l :: ls.drop r.arity, hw, rfl, .link hw hl hv⟩

end ScannerlessLR
