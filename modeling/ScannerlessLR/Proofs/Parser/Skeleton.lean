/-
What decides how a parse goes on.

Trees are built and packed on the way, and the reductions that have been applied and the
events are kept, but as long as no reduction is passed over, none of this has a say in
what is done next.  What remains of a machine without it is its skeleton.

* `Machine.skeleton` — the machine without trees, reductions applied and events;
* `Machine.skeleton_work` — the step of the skeleton is the skeleton of the step;
* `Moment.skeleton` — where the skeleton stands;
* `Next.of_skeleton` — moments with the same skeleton go on alike.
-/
import ScannerlessLR.Proofs.Parser.Moment
import ScannerlessLR.Proofs.Stack.Bare

namespace ScannerlessLR

namespace Machine

/-- What of a machine decides how it goes on. -/
def skeleton (m : Machine) : Machine :=
  { m with
    graph := m.graph.bare
    forest := {}
    generation := { m.generation with applied := [] }
    events := [] }

end Machine

/-- What of the outcome of a step decides how its machine goes on. -/
def Progress.skeleton : Progress → Progress
  | .idle m => .idle m.skeleton
  | .moved m => .moved m.skeleton
  | .linked m => .linked m.skeleton
  | .failed e m => .failed e m.skeleton

namespace Progress

variable (m : Machine)

@[simp] theorem skeleton_idle : (idle m).skeleton = idle m.skeleton := rfl

@[simp] theorem skeleton_moved : (moved m).skeleton = moved m.skeleton := rfl

@[simp] theorem skeleton_linked : (linked m).skeleton = linked m.skeleton := rfl

@[simp] theorem skeleton_failed (e : ParseError) :
    (failed e m).skeleton = failed e m.skeleton := rfl

end Progress

theorem Progress.next?_skeleton (p : Progress) :
    p.skeleton.next? = p.next?.map Machine.skeleton := by
  cases p <;> rfl

namespace Machine

variable (table : Table) (config : Config) (m : Machine) (n : NodeId)

@[simp] theorem skeleton_skeleton : m.skeleton.skeleton = m.skeleton := by
  simp only [skeleton, StackGraph.bare_bare]

@[simp] theorem graph_skeleton : m.skeleton.graph = m.graph.bare := rfl

@[simp] theorem skeleton_record (e : Event) : (m.record e).skeleton = m.skeleton := rfl

@[simp] theorem skeleton_push (ts : List Task) : (m.push ts).skeleton = m.skeleton.push ts := rfl

@[simp] theorem skeleton_build (a : Application) : (m.build a).2.skeleton = m.skeleton := rfl

/-! ### What the skeleton keeps -/

section Keep

variable {m m' : Machine} (h : m.skeleton = m'.skeleton)
include h

theorem cursor_eq_of_skeleton : m.cursor = m'.cursor := (congrArg Machine.cursor h :)

theorem bare_eq_of_skeleton : m.graph.bare = m'.graph.bare := (congrArg Machine.graph h :)

theorem agenda_eq_of_skeleton : m.agenda = m'.agenda := (congrArg Machine.agenda h :)

theorem accepting_eq_of_skeleton : m.accepting = m'.accepting := (congrArg Machine.accepting h :)

theorem level_eq_of_skeleton : m.generation.level = m'.generation.level :=
  (congrArg (fun s : Machine => s.generation.level) h :)

theorem active_eq_of_skeleton : m.generation.active = m'.generation.active :=
  (congrArg (fun s : Machine => s.generation.active) h :)

theorem shifts_eq_of_skeleton : m.generation.shifts = m'.generation.shifts :=
  (congrArg (fun s : Machine => s.generation.shifts) h :)

end Keep

/-! ### Links -/

theorem node?_skeleton (target : StateId) :
    m.skeleton.generation.node? target = m.generation.node? target := rfl

@[simp] theorem holder_skeleton (target : StateId) :
    m.skeleton.holder target = m.holder target := by
  cases h : m.generation.node? target with
  | some n => rw [holder_of_some h, holder_of_some ((m.node?_skeleton target).trans h)]
  | none => rw [holder_of_none h, holder_of_none ((m.node?_skeleton target).trans h)]; rfl

/-- Whichever tree the new link carries, its skeleton is the same. -/
theorem skeleton_attach (target : StateId) (bottom : NodeId) (tree tree' : TreeId) :
    (m.attach target bottom tree).skeleton = (m.skeleton.attach target bottom tree').skeleton := by
  -- only a node that is added sees the tree, and on the bare graph it is the same node
  cases h : m.generation.node? target with
  | some n =>
    rw [attach_of_some h, attach_of_some ((m.node?_skeleton target).trans h)]
    simp only [skeleton, StackGraph.bare_addLink, StackGraph.bare_bare]
  | none =>
    rw [attach_of_none h, attach_of_none ((m.node?_skeleton target).trans h)]
    simp only [skeleton, StackGraph.bare_addLink, StackGraph.bare_addNode, StackGraph.bare_bare,
      StackGraph.nodes_bare, Generation.activate]

theorem skeleton_pack (l : LinkId) (source target : StateId) (tree : TreeId) (rejecting : Bool) :
    (m.pack l source target tree rejecting).skeleton =
      m.skeleton.push (if rejecting then [Task.reject l source target] else []) := rfl

theorem followUps_skeleton (l : LinkId) (source target : StateId) (rejecting : Bool) :
    m.skeleton.followUps l source target rejecting = m.followUps l source target rejecting := rfl

theorem skeleton_join (p : Path) (id target : StateId) (tree tree' : TreeId) (rejecting : Bool) :
    (m.join p id target tree rejecting).skeleton =
      (m.skeleton.join p id target tree' rejecting).skeleton := by
  rw [join_eq, join_eq, holder_skeleton, graph_skeleton, StackGraph.findLink?_bare]
  cases m.graph.findLink? (m.holder target) p.bottom with
  | some l => simp only [Progress.skeleton, skeleton_pack, skeleton_skeleton]
  | none =>
    simp only [Progress.skeleton_linked, skeleton_push, followUps_skeleton,
      StackGraph.size_links_bare]
    rw [skeleton_attach]

/-! ### Tasks -/

/-- As long as no reduction is passed over, how it goes on depends on the skeleton alone. -/
theorem skeleton_apply (hd : config.deduplicate = false) (r : Reduction) (rejecting : Bool)
    (p : Path) : (m.apply table config n r rejecting p).skeleton =
      (m.skeleton.apply table config n r rejecting p).skeleton := by
  -- the tree of the reduction goes to the forest, which the skeleton leaves out
  have hgraph : ∀ (m : Machine) (a : Application), (m.build a).2.graph = m.graph := fun _ _ => rfl
  simp only [apply, hd, Bool.false_eq_true, false_and, if_false, hgraph, graph_skeleton,
    StackGraph.state?_bare]
  cases m.graph.state? p.bottom with
  | none => simp
  | some bottom =>
    simp only
    cases table.state? bottom with
    | none => simp
    | some s =>
      simp only
      cases s.goto? r.label with
      | none => simp
      | some target =>
        simp only
        -- both trees come down to one, whichever that is
        rw [skeleton_join _ _ _ _ _ 0, eq_comm, skeleton_join _ _ _ _ _ 0]
        simp

theorem skeleton_reduce (r : Reduction) (through : Option LinkId) :
    (m.reduce table n r through).skeleton = (m.skeleton.reduce table n r through).skeleton := by
  rw [reduce, reduce]
  cases table.label? r.label with
  | none => simp
  | some label =>
    cases hu : label.isUnsupported <;> simp [hu]

theorem items?_skeleton : m.skeleton.items? table n = m.items? table n := rfl

theorem skeleton_revisit (l : LinkId) :
    (m.revisit table n l).skeleton = (m.skeleton.revisit table n l).skeleton := by
  rw [revisit, revisit, graph_skeleton, StackGraph.allRejected_bare, items?_skeleton]
  split
  · simp
  · cases m.items? table n with
    | error e => simp
    | ok items =>
      cases items <;> simp

theorem skeleton_perform (hd : config.deduplicate = false) (t : Task) :
    (m.perform table config t).skeleton = (m.skeleton.perform table config t).skeleton := by
  have hs := m.skeleton_skeleton.symm
  cases t with
  | accept n id =>
    exact congrArg (fun m : Machine => Progress.moved { m with accepting := some n }) hs
  | shift n target =>
    exact congrArg (fun m : Machine => Progress.moved { m with
      generation := { m.generation with shifts := m.generation.shifts ++ [⟨n, target⟩] } }) hs
  | check n r forbidden through =>
    exact congrArg (fun m' : Machine => Progress.moved
      (Machine.push { m' with cursor := (m.cursor.checkFollow forbidden).cursor }
        (if (m.cursor.checkFollow forbidden).permitted then [.reduce n r through] else []))) hs
  | reduce n r through => exact m.skeleton_reduce table n r through
  | apply n r rejecting p => exact m.skeleton_apply table config n hd r rejecting p
  | revisit n l => exact m.skeleton_revisit table n l
  | reject l source target =>
    have hg : (m.graph.reject l).bare = (m.graph.bare.reject l).bare := by
      rw [StackGraph.bare_reject, StackGraph.bare_reject, StackGraph.bare_bare]
    exact congrArg (fun g => Progress.moved { m.skeleton with graph := g }) hg

theorem skeleton_dispatch : (m.dispatch table n).skeleton =
    (m.skeleton.dispatch table n).skeleton := by
  rw [dispatch, dispatch, items?_skeleton]
  cases m.items? table n with
  | error e => simp
  | ok items =>
    cases items <;> simp

/-- As long as no reduction is passed over, the step of the skeleton is the skeleton of the step. -/
theorem skeleton_work (hd : config.deduplicate = false) :
    (m.work table config).skeleton = (m.skeleton.work table config).skeleton := by
  have hagenda : m.skeleton.agenda = m.agenda := rfl
  have hqueue : m.skeleton.generation.queue = m.generation.queue := rfl
  rw [work, work, hagenda, hqueue]
  cases m.agenda with
  | cons t agenda => exact skeleton_perform table config { m with agenda } hd t
  | nil =>
    cases m.generation.queue with
    | cons n queue => exact skeleton_dispatch table { m.taking n queue with agenda := [] } n
    | nil => simp

/-! ### From point to point -/

theorem skeleton_shiftNode (leaf leaf' : TreeId) (s : Shift) :
    (m.shiftNode leaf s).skeleton = (m.skeleton.shiftNode leaf' s).skeleton := by
  rw [shiftNode_eq, shiftNode_eq, holder_skeleton, graph_skeleton, StackGraph.allRejected_bare,
    StackGraph.findLink?_bare]
  split
  · rw [skeleton_skeleton]
  · cases m.graph.findLink? (m.holder s.target) s.source with
    | some l => simp
    | none => exact m.skeleton_attach ..

theorem skeleton_initial (points : Array UInt32) {config' : Config}
    (h : config.endOfInput = config'.endOfInput) :
    (initial table config points).skeleton = (initial table config' points).skeleton := by
  rw [initial, initial, h]

end Machine

/-- Where a parse stands, whichever leaf it shifts. -/
def Phase.bare : Phase → Phase
  | .shifting _ due => .shifting 0 due
  | .between => .between
  | .working => .working
  | .stranded => .stranded

namespace Phase

variable {phase : Phase}

theorem bare_eq_between : phase.bare = .between ↔ phase = .between := by
  cases phase <;> simp [bare]

theorem bare_eq_working : phase.bare = .working ↔ phase = .working := by
  cases phase <;> simp [bare]

theorem bare_eq_stranded : phase.bare = .stranded ↔ phase = .stranded := by
  cases phase <;> simp [bare]

theorem bare_eq_shifting {due : List Shift} :
    phase.bare = .shifting 0 due ↔ ∃ leaf, phase = .shifting leaf due := by
  cases phase <;> simp [bare]

end Phase

/-- What of a moment decides how the parse goes on. -/
def Moment.skeleton (x : Moment) : Moment :=
  ⟨x.phase.bare, x.machine.skeleton⟩

open Machine

variable {table : Table} {config config' : Config} {x x' y : Moment} {m m' m₁ : Machine}

/-- A machine is idle if the same comes of its step as of the step of a machine that is idle. -/
theorem Machine.work_eq_idle_of_skeleton (hi : m.work table config = .idle m)
    (h : (m.work table config).skeleton = (m'.work table config').skeleton) :
    m'.work table config' = .idle m' := by
  rw [hi] at h
  cases hw : m'.work table config' with
  | idle m'' => rw [(work_eq_idle hw).1]
  | moved | linked | failed => exact absurd h (by simp [hw])

/-- A machine takes a step if the same comes of it as of the step of another. -/
theorem Machine.Moves.of_skeleton (hm : Moves table config m m₁)
    (h : (m.work table config).skeleton = (m'.work table config').skeleton) :
    ∃ m₁', Moves table config' m' m₁' ∧ m₁.skeleton = m₁'.skeleton := by
  -- the two steps come to something together, or to nothing
  have hnext : (m'.work table config').next?.map skeleton = some m₁.skeleton := by
    rw [← Progress.next?_skeleton, ← h, Progress.next?_skeleton,
      show (m.work table config).next? = some m₁ from hm, Option.map_some]
  obtain ⟨m₁', hm', hskeleton⟩ := Option.map_eq_some_iff.mp hnext
  exact ⟨m₁', hm', hskeleton.symm⟩

/-- Moments with the same skeleton go on alike, if the same comes of their steps at a point. -/
theorem Next.of_skeleton (hs : x.skeleton = x'.skeleton)
    (hwork : ∀ m m', x = ⟨.working, m⟩ → x' = ⟨.working, m'⟩ →
      (m.work table config).skeleton = (m'.work table config').skeleton)
    (hn : Next table config x y) : ∃ y', Next table config' x' y' ∧ y.skeleton = y'.skeleton := by
  obtain ⟨phase', m'⟩ := x'
  obtain ⟨hphase, hmachine⟩ := Moment.mk.inj hs
  change x.machine.skeleton = m'.skeleton at hmachine
  -- the rule for the first moment applies to the second, as it asks for nothing but the skeleton
  cases hn with
  | @read m token cursor ha hr =>
    obtain rfl := Phase.bare_eq_between.mp hphase.symm
    refine ⟨_, .read (active_eq_of_skeleton hmachine ▸ ha)
      (cursor_eq_of_skeleton hmachine ▸ hr), ?_⟩
    exact congrArg (fun s : Machine => Moment.mk .working { s with token, cursor }) hmachine
  | @work m m₁ hm =>
    obtain rfl := Phase.bare_eq_working.mp hphase.symm
    obtain ⟨m₁', hm', hskeleton⟩ := hm.of_skeleton (hwork m m' rfl rfl)
    exact ⟨_, .work hm', congrArg (Moment.mk .working) hskeleton⟩
  | @turn m hi hshifts =>
    obtain rfl := Phase.bare_eq_working.mp hphase.symm
    refine ⟨_, .turn (work_eq_idle_of_skeleton hi (hwork m m' rfl rfl))
      (shifts_eq_of_skeleton hmachine ▸ hshifts), ?_⟩
    exact congrArg (fun s : Machine => Moment.mk .between s.turn) hmachine
  | @leaf m hi hshifts =>
    obtain rfl := Phase.bare_eq_working.mp hphase.symm
    refine ⟨_, .leaf (work_eq_idle_of_skeleton hi (hwork m m' rfl rfl))
      (shifts_eq_of_skeleton hmachine ▸ hshifts), ?_⟩
    exact congrArg (fun s : Machine => Moment.mk (.shifting 0 s.generation.shifts) s.turn) hmachine
  | @shift leaf s due m =>
    obtain ⟨leaf', rfl⟩ := Phase.bare_eq_shifting.mp hphase.symm
    -- the leaves of the two may differ, and so may the trees of the links
    have hshift : (m.shiftNode leaf s).skeleton = (m'.shiftNode leaf' s).skeleton := by
      rw [skeleton_shiftNode _ _ 0, skeleton_shiftNode m' _ 0, ← hmachine]
    exact ⟨_, .shift, congrArg (Moment.mk (.shifting 0 due)) hshift⟩
  | @shifted leaf m =>
    obtain ⟨leaf', rfl⟩ := Phase.bare_eq_shifting.mp hphase.symm
    exact ⟨_, .shifted, congrArg (Moment.mk .between) hmachine⟩
  | @strand m ha =>
    obtain rfl := Phase.bare_eq_between.mp hphase.symm
    exact ⟨_, .strand (active_eq_of_skeleton hmachine ▸ ha),
      congrArg (Moment.mk .stranded) hmachine⟩

end ScannerlessLR
