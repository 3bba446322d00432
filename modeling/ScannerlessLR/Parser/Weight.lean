/-
Steps that add no link come to an end.

A machine weighs as much as there is left to do if no link were added: each task
counts more than the tasks it is replaced by.  Rejecting links changes no path,
so it does not count.

* `Machine.weight_lt_of_work_moved` — a step without a new link makes a machine
  lighter.
-/
import ScannerlessLR.Parser.Work

namespace ScannerlessLR

namespace StackGraph

theorem descend_reject (g : StackGraph) (l : LinkId) (length : Nat) (ds : List Descent) :
    (g.reject l).descend length ds = g.descend length ds := by
  induction length generalizing ds with
  | zero => rfl
  | succ length ih =>
    cases ds with
    | nil => rfl
    | cons d ds => exact ih _

@[simp]
theorem paths_reject (g : StackGraph) (l : LinkId) (n : NodeId) (length : Nat) :
    (g.reject l).paths n length = g.paths n length := by
  simp [paths, descend_reject]

@[simp]
theorem state?_reject (g : StackGraph) (l : LinkId) (n : NodeId) :
    (g.reject l).state? n = g.state? n := rfl

end StackGraph

namespace Machine

/-- The sum of the values of `f` over a list. -/
def total {α : Type} (f : α → Nat) : List α → Nat
  | [] => 0
  | a :: as => f a + total f as

theorem total_append {α : Type} (f : α → Nat) (as bs : List α) :
    total f (as ++ bs) = total f as + total f bs := by
  induction as with
  | nil => simp only [List.nil_append, total, Nat.zero_add]
  | cons a as ih => simp only [List.cons_append, total, ih, Nat.add_assoc]

theorem total_map {α β : Type} (f : β → Nat) (g : α → β) (as : List α) :
    total f (as.map g) = total (fun a => f (g a)) as := by
  induction as with
  | nil => rfl
  | cons a as ih => simp only [List.map_cons, total, ih]

theorem total_filter_le {α : Type} (f : α → Nat) (p : α → Bool) (as : List α) :
    total f (as.filter p) ≤ total f as := by
  induction as with
  | nil => exact Nat.le_refl _
  | cons a as ih =>
    rw [List.filter_cons]
    split
    · simp only [total]
      omega
    · simp only [total]
      omega

/-- The weight of finding the paths of a reduction: more than that of the paths. -/
def reduceWeight (g : StackGraph) (n : NodeId) (r : Reduction) : Nat :=
  1 + 2 * (g.paths n r.arity).length

/-- The weight of an action item at a node. -/
def itemWeight (g : StackGraph) (n : NodeId) : ActionItem → Nat
  | .reduce r => reduceWeight g n r
  | .reduceUnless r _ => 1 + reduceWeight g n r
  | .shift _ | .accept => 1

/-- The action items of a node at a point, if there are any. -/
def itemsOf (table : Table) (token : UInt32) (g : StackGraph) (n : NodeId) : List ActionItem :=
  (((g.state? n).bind table.state?).bind (·.actions? token)).getD []

/-- The weight of the actions of a node. -/
def nodeWeight (table : Table) (token : UInt32) (g : StackGraph) (n : NodeId) : Nat :=
  1 + total (itemWeight g n) (itemsOf table token g n)

/-- The weight of a task. -/
def taskWeight (table : Table) (token : UInt32) (g : StackGraph) : Task → Nat
  | .accept .. | .shift .. | .reject .. => 1
  | .check n r .. => 1 + reduceWeight g n r
  | .reduce n r _ => reduceWeight g n r
  | .apply .. => 2
  | .revisit n _ => nodeWeight table token g n

/-- The weight of a machine: of its tasks and of the nodes in its queue. -/
def weight (table : Table) (m : Machine) : Nat :=
  total (taskWeight table m.token m.graph) m.agenda
    + total (nodeWeight table m.token m.graph) m.generation.queue

theorem items?_eq_ok {table : Table} {m : Machine} {n : NodeId} {id : StateId}
    {items : List ActionItem} (h : m.items? table n = .ok (some (id, items))) :
    itemsOf table m.token m.graph n = items := by
  unfold items? at h
  split at h
  · simp at h
  · rename_i id' hid
    split at h
    · simp at h
    · rename_i s hs
      cases hitems : s.actions? m.token with
      | none => simp [hitems] at h
      | some is =>
        simp only [hitems, Option.map_some, Except.ok.injEq, Option.some.injEq,
          Prod.mk.injEq] at h
        simp [itemsOf, hid, hs, hitems, h.2]

theorem total_taskWeight_task (table : Table) (token : UInt32) (g : StackGraph) (n : NodeId)
    (id : StateId) (items : List ActionItem) :
    total (taskWeight table token g) (items.map (·.task n id)) = total (itemWeight g n) items := by
  rw [total_map]
  congr 1
  funext item
  cases item <;> rfl

theorem total_taskWeight_reductionTask_le (table : Table) (token : UInt32) (g : StackGraph)
    (n : NodeId) (through : Option LinkId) (items : List ActionItem) :
    total (taskWeight table token g) (items.filterMap (·.reductionTask? n through))
      ≤ total (itemWeight g n) items := by
  induction items with
  | nil => exact Nat.le_refl _
  | cons item items ih =>
    rw [List.filterMap_cons]
    -- a reduction weighs the same as its task, and other items have none
    cases item <;>
      simp only [ActionItem.reductionTask?, total, taskWeight, itemWeight] at ih ⊢ <;> omega

theorem total_taskWeight_apply_lt (table : Table) (token : UInt32) (g : StackGraph) (n : NodeId)
    (r : Reduction) (rejecting : Bool) (p : Path → Bool) :
    total (taskWeight table token g)
        (((g.paths n r.arity).filter p).map (Task.apply n r rejecting ·))
      < reduceWeight g n r := by
  have length_le := List.length_filter_le p (g.paths n r.arity)
  have total_eq (ps : List Path) :
      total (taskWeight table token g) (ps.map (Task.apply n r rejecting ·)) = 2 * ps.length := by
    induction ps with
    | nil => rfl
    | cons p ps ih =>
      simp only [List.map_cons, total, taskWeight, ih, List.length_cons]
      omega
  rw [total_eq]
  simp only [reduceWeight]
  omega

theorem reduceWeight_reject (g : StackGraph) (l : LinkId) :
    reduceWeight (g.reject l) = reduceWeight g := by
  funext n r
  simp [reduceWeight]

theorem nodeWeight_reject (table : Table) (token : UInt32) (g : StackGraph) (l : LinkId) :
    nodeWeight table token (g.reject l) = nodeWeight table token g := by
  have itemWeight_eq (n : NodeId) : itemWeight (g.reject l) n = itemWeight g n := by
    funext item
    cases item <;> simp [itemWeight, reduceWeight_reject]
  funext n
  simp [nodeWeight, itemsOf, itemWeight_eq]

theorem taskWeight_reject (table : Table) (token : UInt32) (g : StackGraph) (l : LinkId) :
    taskWeight table token (g.reject l) = taskWeight table token g := by
  funext t
  cases t <;> simp [taskWeight, reduceWeight_reject, nodeWeight_reject]

theorem weight_push (table : Table) (m : Machine) (tasks : List Task) :
    (m.push tasks).weight table
      = total (taskWeight table m.token m.graph) tasks + m.weight table := by
  simp only [weight, push, total_append, Nat.add_assoc]

@[simp]
theorem weight_record (table : Table) (m : Machine) (e : Event) :
    (m.record e).weight table = m.weight table := rfl

theorem weight_check_lt (table : Table) (m : Machine) (n : NodeId) (r : Reduction)
    (forbidden : List RangeSet) (through : Option LinkId) :
    (m.check n r forbidden through).weight table
      < taskWeight table m.token m.graph (.check n r forbidden through) + m.weight table := by
  simp only [check, weight, push]
  split
  · simp only [record, List.cons_append, List.nil_append, total, taskWeight]
    omega
  · simp only [record, List.nil_append, taskWeight]
    omega

theorem weight_lt_of_reduce {table : Table} {m m' : Machine} {n : NodeId} {r : Reduction}
    {through : Option LinkId} (h : m.reduce table n r through = .moved m') :
    m'.weight table < taskWeight table m.token m.graph (.reduce n r through) + m.weight table := by
  unfold reduce at h
  split at h
  · simp at h
  · split at h
    · cases h
      simp only [weight_record, taskWeight, reduceWeight]
      omega
    · cases h
      rw [weight_push]
      have := total_taskWeight_apply_lt table m.token m.graph n r
      simp only [taskWeight]
      exact Nat.add_lt_add_right (this ..) _

theorem weight_lt_of_join {table : Table} {m m' : Machine} {path : Path}
    {bottom target : StateId} {tree : TreeId} {rejecting : Bool}
    (h : m.join path bottom target tree rejecting = .moved m') :
    m'.weight table < 2 + m.weight table := by
  unfold join at h
  split at h
  · simp at h
  · split at h
    · simp at h
    · cases h
      simp only [pack, weight, push]
      -- a path that rejects leaves one more task, for the event
      cases rejecting
      · simp only [record, Bool.false_eq_true, if_false, List.nil_append]
        omega
      · simp only [record, if_true, List.cons_append, List.nil_append, total,
          taskWeight]
        omega

theorem weight_build (table : Table) (m : Machine) (a : Application) :
    (m.build a).2.weight table = m.weight table := rfl

theorem weight_lt_of_apply {table : Table} {config : Config} {m m' : Machine} {n : NodeId}
    {r : Reduction} {rejecting : Bool} {path : Path}
    (h : m.apply table config n r rejecting path = .moved m') :
    m'.weight table < 2 + m.weight table := by
  unfold apply at h
  simp only at h
  split at h
  -- a path that has been seen before is passed over
  · cases h
    omega
  · rw [← weight_build table m ⟨path.links, n, r⟩]
    split at h
    · cases h
      omega
    · split at h
      · simp at h
      · split at h
        · simp at h
        · have join_lt : m'.weight table < 2 + _ := weight_lt_of_join h
          simpa using join_lt

theorem weight_lt_of_revisit {table : Table} {m m' : Machine} {n : NodeId} {l : LinkId}
    (h : m.revisit table n l = .moved m') :
    m'.weight table < taskWeight table m.token m.graph (.revisit n l) + m.weight table := by
  unfold revisit at h
  simp only [taskWeight, nodeWeight]
  split at h
  · cases h
    omega
  · split at h
    · simp at h
    · cases h
      omega
    · rename_i items hitems
      cases h
      -- what comes to be checked again weighs less than a visit to the node
      rw [weight_push, items?_eq_ok hitems]
      have := total_taskWeight_reductionTask_le table m.token m.graph n (some l) items
      omega

theorem weight_lt_of_dispatch {table : Table} {m m' : Machine} {n : NodeId}
    (h : m.dispatch table n = .moved m') :
    m'.weight table < nodeWeight table m.token m.graph n + m.weight table := by
  unfold dispatch at h
  simp only [nodeWeight]
  split at h
  · simp at h
  · cases h
    omega
  · rename_i id items hitems
    cases h
    rw [weight_push, weight_record, items?_eq_ok hitems, total_taskWeight_task]
    have := total_filter_le (itemWeight m.graph n) (· = .accept) items
    simp only [record]
    split <;> omega

theorem weight_lt_of_perform {table : Table} {config : Config} {m m' : Machine} {t : Task}
    (h : m.perform table config t = .moved m') :
    m'.weight table < taskWeight table m.token m.graph t + m.weight table := by
  cases t with
  | accept n id =>
    cases h
    simp [weight, taskWeight, record]
  | shift n target =>
    cases h
    simp [weight, taskWeight]
  | check n r forbidden through =>
    cases h
    exact weight_check_lt ..
  | reduce n r through => exact weight_lt_of_reduce h
  | apply n r rejecting path => exact weight_lt_of_apply h
  | revisit n l => exact weight_lt_of_revisit h
  | reject l source target =>
    -- a rejected link counts like any other
    cases h
    simp only [weight, record, taskWeight_reject, nodeWeight_reject]
    simp [taskWeight]

/-- A step without a new link makes a machine lighter. -/
theorem weight_lt_of_work_moved {table : Table} {config : Config} {m m' : Machine}
    (h : m.work table config = .moved m') : m'.weight table < m.weight table := by
  unfold work at h
  split at h
  · rename_i _ _ t agenda hagenda
    have := weight_lt_of_perform h
    simp only [weight, hagenda, total] at this ⊢
    omega
  · rename_i _ _ n queue hagenda hqueue
    have := weight_lt_of_dispatch h
    simp only [weight, hagenda, hqueue, total] at this ⊢
    omega
  · simp at h

end Machine

end ScannerlessLR
