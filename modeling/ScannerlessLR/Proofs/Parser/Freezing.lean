/-
What a parse does not change any more.

All links that are made at a point leave nodes of its level, and these are the links
that are packed into or rejected there.  So nodes of earlier levels keep their links,
and the links their trees and whether they are rejected.  Packing changes a tree in
place, but the tree of a link of the current level spans points up to that level, and
no such tree is reached from the links of earlier levels.

* `StackGraph.SameUpTo`, `Frozen` — two machines agree on all that belongs to a level or
  to earlier ones;
* `Reached.sameUpTo_next` — a step leaves the graph alone below the current level;
* `Forest.Spanned.of_within` — what is reached from a tree ends no later than the tree;
* `Reached.get?_next` — a step leaves alone what is reached from the links of earlier levels;
* `generations_frozen` — earlier levels are never changed again.
-/
import ScannerlessLR.Proofs.Parser.Nesting

namespace ScannerlessLR

namespace StackGraph

/-- A link leaves a node of the level `k` or of an earlier one. -/
def LeavesUpTo (g : StackGraph) (k : ℕ) (l : LinkId) : Prop :=
  ∃ w v e, (l, v) ∈ g.linksFrom w ∧ g.entryAt? w = some e ∧ e.position ≤ k

/-- Two graphs have the same nodes up to the level `k`, and the same links leave these. -/
structure SameUpTo (k : ℕ) (g g' : StackGraph) : Prop where
  entry_iff : ∀ n e, e.position ≤ k → (g'.entryAt? n = some e ↔ g.entryAt? n = some e)
  linksFrom_eq : ∀ n e, g.entryAt? n = some e → e.position ≤ k → g'.linksFrom n = g.linksFrom n
  tree?_eq : ∀ l, g.LeavesUpTo k l → g'.tree? l = g.tree? l
  isRejected_eq : ∀ l, g.LeavesUpTo k l → g'.isRejected l = g.isRejected l

end StackGraph

/-- Two machines agree up to the level `k`: on the nodes, on the links that leave them, and on all
that is reached from the trees of these links. -/
structure Frozen (k : ℕ) (m m' : Machine) : Prop where
  graph : m.graph.SameUpTo k m'.graph
  get?_eq : ∀ l t id, m.graph.LeavesUpTo k l → m.graph.tree? l = some t →
    m.forest.Within [t] id → m'.forest.get? id = m.forest.get? id

open Machine

variable {table : Table} {config : Config} {points : Array UInt32} {m m' m'' : Machine}
  {x y : Moment} {g g' g'' : StackGraph} {k : ℕ} {l : LinkId} {t id : TreeId}

/-! ### The graph below the current level -/

namespace StackGraph

theorem isRejected_reject_of_ne (g : StackGraph) {l l' : LinkId} (h : l' ≠ l) :
    (g.reject l).isRejected l' = g.isRejected l' := by
  simp only [reject, isRejected, Array.getElem?_modify, if_neg (Ne.symm h)]

namespace SameUpTo

theorem refl (k : ℕ) (g : StackGraph) : g.SameUpTo k g :=
  ⟨fun _ _ _ => .rfl, fun _ _ _ _ => rfl, fun _ _ => rfl, fun _ _ => rfl⟩

theorem leavesUpTo (h : g.SameUpTo k g') (hl : g.LeavesUpTo k l) : g'.LeavesUpTo k l := by
  obtain ⟨w, v, e, hmem, he, hk⟩ := hl
  exact ⟨w, v, e, by rw [h.linksFrom_eq w e he hk]; exact hmem, (h.entry_iff w e hk).mpr he, hk⟩

theorem trans (h : g.SameUpTo k g') (h' : g'.SameUpTo k g'') : g.SameUpTo k g'' where
  entry_iff := fun n e hk => (h'.entry_iff n e hk).trans (h.entry_iff n e hk)
  linksFrom_eq := fun n e he hk =>
    (h'.linksFrom_eq n e ((h.entry_iff n e hk).mpr he) hk).trans (h.linksFrom_eq n e he hk)
  tree?_eq := fun l hl => (h'.tree?_eq l (h.leavesUpTo hl)).trans (h.tree?_eq l hl)
  isRejected_eq := fun l hl =>
    (h'.isRejected_eq l (h.leavesUpTo hl)).trans (h.isRejected_eq l hl)

/-- Rejecting a link leaves the nodes alone that it does not leave. -/
theorem reject (hl : ¬ g.LeavesUpTo k l) : g.SameUpTo k (g.reject l) where
  entry_iff := fun _ _ _ => .rfl
  linksFrom_eq := fun _ _ _ _ => rfl
  tree?_eq := fun l' _ => tree?_reject g l l'
  isRejected_eq := by
    intro l' hl'
    refine g.isRejected_reject_of_ne ?_
    rintro rfl
    exact hl hl'

end SameUpTo

end StackGraph

/-- Making a link leaves alone what is below the current level. -/
theorem Roster.sameUpTo_attach
    (h : Roster table m.graph m.generation.level m.generation.active)
    (hk : k < m.generation.level) (target : StateId) (bottom : NodeId) (tree : TreeId) :
    m.graph.SameUpTo k (m.attach target bottom tree).graph where
  entry_iff := by
    intro n e he
    have hext : m.graph.Extends (m.attach target bottom tree).graph := extends_attach h
    refine ⟨fun hn => ?_, hext.entry⟩
    rw [entryAt?_attach h] at hn
    split at hn
    -- the node that the link leaves is one of the current level
    · obtain rfl := Option.some.inj hn
      exact absurd hk (Nat.not_lt.mpr he)
    · exact hn
  linksFrom_eq := fun n e hn he =>
    linksFrom_attach_of_ne (ne_holder_of_lt h hn (Nat.lt_of_le_of_lt he hk))
  tree?_eq := by
    rintro l ⟨w, v, e, hl, -, -⟩
    rw [tree?_attach, if_neg (Nat.ne_of_lt (h.wf.link_lt hl))]
  isRejected_eq := fun l _ => isRejected_attach l

/-- A link of an active node leaves no node below the current level. -/
theorem Machine.FromActive.not_leavesUpTo (h : m.FromActive l) (hwf : m.graph.WellFormed)
    (hk : k < m.generation.level) : ¬ m.graph.LeavesUpTo k l := by
  obtain ⟨w, v, s, hl, hw⟩ := h
  rintro ⟨w', v', e, hl', hw', hle⟩
  obtain ⟨rfl, -⟩ := hwf.ends_unique hl hl'
  obtain rfl := Option.some.inj (hw.symm.trans hw')
  exact absurd hk (Nat.not_lt.mpr hle)

/-- What a step at a point does to the graph: nothing, or it rejects a link that is to be rejected,
or it makes a link. -/
theorem Machine.Moves.graph_cases (hm : Moves table config m m') : m'.graph = m.graph ∨
    (∃ l source target, .reject l source target ∈ m.agenda ∧ m'.graph = m.graph.reject l) ∨
    ∃ target v tree, m'.graph = (m.attach target v tree).graph := by
  obtain ⟨p, hp, hnext⟩ := hm.works
  cases hp with
  | @task t agenda _ ha hp =>
    cases hp with
    | reject l source target =>
      obtain rfl := Option.some.inj hnext
      exact .inr (.inl ⟨l, source, target, by rw [ha]; exact List.mem_cons_self, rfl⟩)
    | link n r rejecting p id target =>
      obtain rfl := Option.some.inj hnext
      exact .inr (.inr ⟨target, p.bottom, m.forest.size,
        graph_attach_congr target p.bottom _ (Machine.reducing { m with agenda } n r p id target)
          rfl rfl rfl⟩)
    | unknownLabel | unknownBottom | gap | unknownState =>
      exact absurd hnext (by simp [Progress.next?])
    | _ =>
      -- no other task has anything to do with the graph
      obtain rfl := Option.some.inj hnext
      exact .inl rfl
  | dispatch ha hq hp =>
    cases hp with
    | nothing | items =>
      obtain rfl := Option.some.inj hnext
      exact .inl rfl
    | unknownState => exact absurd hnext (by simp [Progress.next?])
  | idle ha hq => exact absurd hnext (by simp [Progress.next?])

/-- A step leaves the graph alone below the current level. -/
theorem Reached.sameUpTo_next (hx : Reached table config points x) (hn : Next table config x y)
    (hk : k < x.machine.generation.level) : x.machine.graph.SameUpTo k y.machine.graph := by
  cases hn with
  | read | turn | leaf | shifted | strand => exact .refl k _
  | work hm =>
    rcases hm.graph_cases with hg | ⟨l, source, target, ht, hg⟩ | ⟨target, v, tree, hg⟩
    · rw [hg]
      exact .refl k _
    -- the links that are rejected leave nodes of the current level
    · rw [hg]
      exact .reject ((hx.fromActive_of_reject ht).not_leavesUpTo hx.working.roster.wf hk)
    · rw [hg]
      exact hx.working.roster.sameUpTo_attach hk target v tree
  | @shift leaf s due m =>
    rcases m.shiftNode_cases leaf s with heq | ⟨-, heq⟩ <;> rw [heq]
    · exact .refl k _
    · exact hx.ordered.roster.sameUpTo_attach hk s.target s.source leaf

/-! ### What is reached from a tree -/

/-- Trees next to each other end no later than the last of them. -/
theorem Chained.snd_le {span : TreeId → ℕ × ℕ} {low high : ℕ} {ids : List TreeId}
    (hc : Chained span low ids high) (h : ∀ id ∈ ids, (span id).1 ≤ (span id).2) :
    low ≤ high ∧ ∀ id ∈ ids, (span id).2 ≤ high := by
  induction ids generalizing low with
  | nil =>
    obtain rfl : low = high := hc
    exact ⟨Nat.le_refl _, fun _ hid => absurd hid List.not_mem_nil⟩
  | cons id ids ih =>
    obtain ⟨rfl, hc⟩ := hc
    obtain ⟨hle, hids⟩ := ih hc fun id hid => h id (List.mem_cons_of_mem _ hid)
    refine ⟨Nat.le_trans (h id List.mem_cons_self) hle, fun id' hid => ?_⟩
    rcases List.mem_cons.mp hid with rfl | hid
    · exact hle
    · exact hids id' hid

/-- What is reached from a tree ends no later than the tree. -/
theorem Forest.Spanned.of_within {f : Forest} {span : TreeId → ℕ × ℕ} {rank : TreeId → ℕ}
    (hs : f.Spanned points span) (hr : f.Ranked rank) (ht : t < f.size)
    (h : f.Within [t] id) : id < f.size ∧ (span id).2 ≤ (span t).2 := by
  induction h with
  | root hid =>
    rw [List.mem_singleton.mp hid]
    exact ⟨ht, Nat.le_refl _⟩
  | @part id part c _ hget hpart ih =>
    have hlt := hs.part_lt id c hget part hpart
    have hspan := hs.hasSpan id c hget
    refine ⟨hlt, Nat.le_trans ?_ ih.2⟩
    cases c with
    | leaf point => exact absurd hpart List.not_mem_nil
    | amb alternatives => exact Nat.le_of_eq (congrArg Prod.snd (hspan part hpart))
    | apply label children =>
      refine (Chained.snd_le hspan fun child hchild => ?_).2 part hpart
      exact (Forest.leaves_eq hs hr (hs.part_lt id _ hget child hchild)).1

/-- What is reached from some trees is reached as well in a forest that agrees on all of it. -/
theorem Forest.Within.congr {f f' : Forest} {ids : List TreeId} (h : f.Within ids id)
    (heq : ∀ id, f.Within ids id → f'.get? id = f.get? id) : f'.Within ids id := by
  induction h with
  | root hid => exact .root hid
  | part h hget hpart ih => exact .part ih ((heq _ h).trans hget) hpart

/-- What is reached from the link of a node ends no later than at the level of the node. -/
theorem Reached.exists_span_le (hx : Reached table config points x)
    (hl : x.machine.graph.LeavesUpTo k l) (ht : x.machine.graph.tree? l = some t)
    (hid : x.machine.forest.Within [t] id) : ∃ span rank, Fitting points span rank x ∧
      id < x.machine.forest.size ∧ (span id).2 ≤ k := by
  obtain ⟨span, rank, hfit⟩ := hx.fitting
  obtain ⟨w, v, e, hmem, he, hle⟩ := hl
  obtain ⟨f, hf⟩ := StackGraph.exists_entryAt? (hx.ordered.roster.wf.target_lt hmem)
  obtain ⟨t', ht', hlt, hspan⟩ := hfit.links w l v e f hmem he hf
  obtain rfl := Option.some.inj (ht.symm.trans ht')
  obtain ⟨hid, hend⟩ := hfit.spanned.of_within hfit.ranked hlt hid
  rw [hspan] at hend
  exact ⟨span, rank, hfit, hid, Nat.le_trans hend hle⟩

/-- A step leaves alone what is reached from the links below the current level. -/
theorem Reached.get?_next (hx : Reached table config points x) (hn : Next table config x y)
    (hk : k < x.machine.generation.level) (hl : x.machine.graph.LeavesUpTo k l)
    (ht : x.machine.graph.tree? l = some t) (hid : x.machine.forest.Within [t] id) :
    y.machine.forest.get? id = x.machine.forest.get? id := by
  obtain ⟨span, rank, hfit, hlt, hend⟩ := hx.exists_span_le hl ht hid
  cases hn with
  | read | turn | shifted | strand => rfl
  | leaf => exact Forest.get?_add_of_lt hlt _
  | @shift leaf s due m => exact congrArg (Forest.get? · id) (forest_shiftNode leaf m s)
  | @work m m' hm =>
    have h : Working table points m := hx.working
    change m'.forest.get? id = m.forest.get? id
    cases h.changes hm with
    | still hg hf | reject l' hr hg hf => rw [hf]
    | link a v target hr hf hg hforest =>
      -- a new tree takes up a place of its own
      rw [hforest]
      exact Forest.get?_add_of_lt hlt _
    | pack a v target l' t' hr hf ht' hg hforest =>
      -- the tree that is packed into ends at the current level
      obtain ⟨f, hv, -⟩ := hr.goto
      have hw := h.roster.lookup_iff.mp (node?_of_findLink? hf)
      obtain ⟨t'', ht'', -, hspan⟩ :=
        hfit.links _ l' v _ f (StackGraph.mem_of_findLink? hf) hw hv
      obtain rfl := Option.some.inj (ht'.symm.trans ht'')
      have hne : id ≠ t' := by
        rintro rfl
        rw [hspan] at hend
        exact absurd hk (Nat.not_lt.mpr hend)
      rw [hforest, Forest.get?_pack_of_ne _ _ _ hne]
      · exact Forest.get?_add_of_lt hlt _
      · exact Nat.lt_of_lt_of_eq (Nat.lt_succ_of_lt hlt) (size_build m a).symm

/-! ### Earlier levels are frozen -/

namespace Frozen

theorem refl (k : ℕ) (m : Machine) : Frozen k m m :=
  ⟨.refl k _, fun _ _ _ _ _ _ => rfl⟩

theorem trans (h : Frozen k m m') (h' : Frozen k m' m'') : Frozen k m m'' where
  graph := h.graph.trans h'.graph
  get?_eq := by
    intro l t id hl ht hid
    -- what is reached from the link is the same in the second machine
    have hid' : m'.forest.Within [t] id := hid.congr fun id hid => h.get?_eq l t id hl ht hid
    have ht' : m'.graph.tree? l = some t := (h.graph.tree?_eq l hl).trans ht
    exact (h'.get?_eq l t id (h.graph.leavesUpTo hl) ht' hid').trans (h.get?_eq l t id hl ht hid)

end Frozen

/-- No step goes back to an earlier level. -/
theorem Next.level_le (hn : Next table config x y) :
    x.machine.generation.level ≤ y.machine.generation.level := by
  cases hn with
  | read | shifted | strand => exact Nat.le_refl _
  | work hm => exact Nat.le_of_eq hm.frame.1.symm
  | turn | leaf => exact Nat.le_succ _
  | shift => exact Nat.le_of_eq (level_shiftNode ..).symm

/-- Whatever comes after a moment, the levels before the one of the moment stay as they are. -/
theorem Reached.frozen_reaches (hx : Reached table config points x)
    (hr : Relation.ReflTransGen (Next table config) x y) (hk : k < x.machine.generation.level) :
    Frozen k x.machine y.machine := by
  -- the level stays below the current one, as the induction needs
  have hall : Frozen k x.machine y.machine ∧ k < y.machine.generation.level := by
    induction hr with
    | refl => exact ⟨.refl k _, hk⟩
    | tail hr hn ih =>
      have hy := hx.reaches hr
      refine ⟨ih.1.trans ⟨hy.sameUpTo_next hn ih.2, ?_⟩, Nat.lt_of_lt_of_le ih.2 hn.level_le⟩
      exact fun l t id hl ht hid => hy.get?_next hn ih.2 hl ht hid
  exact hall.1

/-- Once the shifts from a level have been made, nothing of it changes any more: neither its nodes
nor the links that leave them, nor the trees of these links and what is reached from them.  And at
all times links keep their trees, and rejected links are rejected. -/
theorem generations_frozen {input : String}
    (hx : Reached table config (inputPoints config input.toList) x)
    (hm : LeadsTo table config x m) :
    (∀ k < x.machine.generation.level, Frozen k x.machine m) ∧
      (∀ l t, x.machine.graph.tree? l = some t → m.graph.tree? l = some t) ∧
      ∀ l, x.machine.graph.isRejected l = true → m.graph.isRejected l = true := by
  have hext : x.machine.graph.Extends m.graph := by
    cases hm with
    | moment hr => exact hx.extends_reaches hr
    | turn hr ha hq => exact hx.extends_reaches hr
    | failure hr hf =>
      obtain ⟨agenda, a, rfl⟩ := (hx.reaches hr).working.failed_eq hf
      exact hx.extends_reaches hr
  refine ⟨fun k hk => ?_, fun l t => hext.tree, fun l => hext.rejected⟩
  cases hm with
  | moment hr => exact hx.frozen_reaches hr hk
  | turn hr ha hq => exact { hx.frozen_reaches hr hk with }
  | @failure m f e hr hf =>
    have hy := hx.reaches hr
    obtain ⟨agenda, a, rfl⟩ := hy.working.failed_eq hf
    have h := hx.frozen_reaches hr hk
    refine h.trans ⟨.refl k _, fun l t id hl ht hid => ?_⟩
    -- the tree that has still been built is a new one
    obtain ⟨-, -, -, hlt, -⟩ := hy.exists_span_le hl ht hid
    exact Forest.get?_add_of_lt hlt _

theorem eq_ok_get {ε α : Type} {r : Except ε α} (h : r.toOption.isSome = true) :
    r = .ok (r.toOption.get h) := by
  cases r with
  | error e => exact absurd h (by simp [Except.toOption])
  | ok a => rfl

/-- A point that is read and drained has all its work done. -/
theorem nexts_drain {room : ℕ} {token : UInt32} {cursor : Cursor} (ha : m.generation.active ≠ [])
    (hr : m.cursor.read? = some (token, cursor))
    (hd : (m.read token cursor).drain table config room = .ok m') :
    Relation.ReflTransGen (Next table config) ⟨.between, m⟩ ⟨.working, m'⟩ ∧
      m'.work table config = .idle m' :=
  ⟨(nexts_of_runs (drain_ok hd).1).head (.read ha hr), (drain_ok hd).2⟩

/-- The node of the first letter and its link stay as they are while the two letters are paired. -/
theorem generations_frozen_pairs : ∃ x m,
    Reached Table.pairs {} (inputPoints {} "aa".toList) x ∧ LeadsTo Table.pairs {} x m ∧
      x.machine.generation.level = 2 ∧ x.machine.graph.nodes.size < m.graph.nodes.size ∧
      x.machine.graph.entryAt? 2 = some ⟨2, 1⟩ ∧ (1, 0) ∈ x.machine.graph.linksFrom 2 ∧
      Frozen 1 x.machine m := by
  let points := inputPoints {} "aa".toList
  let drained := fun m : Machine => m.drain Table.pairs {} (m.room Table.pairs)
  let m₀ := Machine.initial Table.pairs {} points
  let m₁ := (drained (m₀.read 97 ⟨points, 1⟩)).toOption.get (by decide +kernel)
  let m₂ := (drained (m₁.shift.read 97 ⟨points, 2⟩)).toOption.get (by decide +kernel)
  let m₃ := (drained (m₂.shift.read 256 ⟨points, 3⟩)).toOption.get (by decide +kernel)
  obtain ⟨h₁, hi₁⟩ := nexts_drain (m := m₀) (by decide) (by decide)
    (eq_ok_get _ : drained (m₀.read 97 ⟨points, 1⟩) = .ok m₁)
  obtain ⟨h₂, hi₂⟩ := nexts_drain (m := m₁.shift) (by decide +kernel) (by decide +kernel)
    (eq_ok_get _ : drained (m₁.shift.read 97 ⟨points, 2⟩) = .ok m₂)
  obtain ⟨h₃, -⟩ := nexts_drain (m := m₂.shift) (by decide +kernel) (by decide +kernel)
    (eq_ok_get _ : drained (m₂.shift.read 256 ⟨points, 3⟩) = .ok m₃)
  have hx : Reached Table.pairs {} points ⟨.between, m₂.shift⟩ :=
    (h₁.trans (nexts_shift hi₁)).trans (h₂.trans (nexts_shift hi₂))
  have hlevel : m₂.shift.generation.level = 2 := by decide +kernel
  refine ⟨_, m₃, hx, .moment h₃, hlevel, by decide +kernel, by decide +kernel,
    by decide +kernel, ?_⟩
  exact (generations_frozen hx (.moment h₃)).1 1 (by rw [hlevel]; exact Nat.one_lt_two)

end ScannerlessLR
