import SsmRuntime.ActRuns
import SsmRuntime.Forest

/-!
Forks and departures. In every run of forks into free parts and departures the
priorities are nested as the records are.
-/
namespace SsmRuntime
open Nesting

section Refines
variable {s t : State}

/-- Trigger lists stay in order where the heap stays and their owners live on. -/
theorem TriggersOk.relive (tr : TriggersOk s) (heap : SameHeap s t)
    (live : ∀ x v u, s.sv? x = some v → u ∈ triggersOf s x → s.actOf u ∈ t.acts.dom) :
    TriggersOk t := by
  have lists : ∀ x, triggersOf t x = triggersOf s x := fun x =>
    triggersOf_congr heap.triggers (by simp only [State.svAt, heap.objs])
  refine ⟨fun x v hv => ?_, fun x v u hv hu => ?_⟩
  · rw [heap.sv?] at hv
    rw [lists]
    exact (tr.chain x v hv).same heap.triggers
  · rw [heap.sv?] at hv
    rw [lists] at hu
    rw [actOf_congr heap.triggers]
    exact live x v u hv hu

theorem WellFormed.relive {sizes : QueueSizes} (wf : WellFormed sizes s) (heap : SameHeap s t)
    (acts : ActQueueOk sizes t)
    (live : ∀ x v u, s.sv? x = some v → u ∈ triggersOf s x → s.actOf u ∈ t.acts.dom) :
    WellFormed sizes t where
  queue := heap.ok wf.queue
  order := heap.ordered wf.order
  fits := heap.eventQueueLen ▸ wf.fits
  packed := fun x v hv => wf.packed x v (heap.sv? x ▸ hv)
  acts := acts
  triggers := wf.triggers.relive heap live

theorem enter_refines {sizes : QueueSizes} {child parent : ActPtr} (step priority depth : Nat)
    (frame : List Value) (wf : WellFormed sizes s) (fresh : child ∉ s.acts.dom)
    (live : parent ∈ s.acts.dom) :
    ∃ t, ssmEnterInt child step parent priority depth frame s = .ok t ∧ WellFormed sizes t ∧
      t.view = s.view.enter child step parent priority depth frame := by
  obtain ⟨t, run, view, dom⟩ := ssmEnterInt_view step priority depth frame fresh live
  refine ⟨t, run, wf.relive (ssmEnterInt_sameHeap run) (ssmEnterInt_ok fresh wf.acts run) ?_, view⟩
  intro x v u hv hu
  rw [dom]
  exact Finset.mem_insert_of_mem (wf.triggers.act x v u hv hu)

theorem leave_refines {sizes : QueueSizes} {act : ActPtr} (wf : WellFormed sizes s)
    (live : act ∈ s.acts.dom) (parent : s.view.caller act ∈ s.acts.dom)
    (other : s.view.caller act ≠ act) (idle : ¬ s.Scheduled act)
    (deaf : ∀ x v u, s.sv? x = some v → u ∈ triggersOf s x → s.actOf u ≠ act) :
    ∃ t, leaveFree act s = .ok (s.view.resumes act, t) ∧ WellFormed sizes t ∧
      t.view = s.view.leave act := by
  obtain ⟨t, run, view, dom, heap⟩ := leaveFree_view live parent other
  refine ⟨t, run, wf.relive heap (leaveFree_ok idle wf.acts run) fun x v u hv hu => ?_, view⟩
  rw [dom]
  exact Finset.mem_erase.mpr ⟨deaf x v u hv hu, wf.triggers.act x v u hv hu⟩

end Refines

/-- The priority of part `i` of `2 ^ k` of a record's, as the forks compute it:
`priority + i * (1 << (depth - k))` in 32 bits. -/
def forkPriority (priority depth k i : Nat) : Nat := (priority + i * 2 ^ (depth - k)) % 2 ^ 32

inductive ForkCall where
  | fork (child step parent k i : Nat) (frame : List Value)
  | leave (act : ActPtr)

namespace ForkCall

def exec : ForkCall → State → Res
  | fork child step parent k i frame, s =>
      ssmEnterInt child step parent (forkPriority (s.view.lowest parent) (s.view.depth parent) k i)
        (s.view.depth parent - k) frame s
  | leave act, s => do
      let (_, s) ← leaveFree act s
      .ok s

/-- Records are forked into free parts of the priorities of live records, not too
many below each, and leave when they have no children. -/
def Legal (V : View) : ForkCall → Prop
  | fork child _ parent k i _ => child ∉ V.records ∧ parent ∈ V.records ∧
      (V.childrenOf parent).card + 1 < 2 ^ 16 ∧ V.FreePart parent k i
  | leave act => act ∈ V.processes ∧ V.childrenOf act = ∅

instance (V : View) : (c : ForkCall) → Decidable (c.Legal V)
  | fork _ _ _ _ _ _ => inferInstanceAs (Decidable (_ ∧ _ ∧ _ ∧ _))
  | leave _ => inferInstanceAs (Decidable (_ ∧ _))

end ForkCall

/-- Runs of forks and departures. What else is done writes neither the tree nor
a priority. -/
inductive ForkRun : State → Prop
  | start : ForkRun boot
  | own {s t : State} (before : ForkRun s) (same : s.view.SameTree t.view) : ForkRun t
  | call {s t : State} (c : ForkCall) (before : ForkRun s) (legal : c.Legal s.view)
      (done : c.exec s = .ok t) : ForkRun t

section Runs
variable {s : State}

theorem boot_forest : boot.view.Forest := by
  have none : boot.view.processes = ∅ := by decide
  refine ⟨boot_tree, fun a ha => absurd (none ▸ ha) (Finset.notMem_empty a), ?_⟩
  rw [none]
  exact nested_empty _ _ _ _

theorem View.Forest.beyond_le {V : View} {a : ActPtr} (ok : V.Forest) (ha : a ∈ V.records) :
    V.beyond a ≤ 2 ^ 32 := by
  have root : V.beyond ssmTopParent = 2 ^ 32 := by
    simp [View.beyond, View.lowest, View.depth, ssmRootPriority, ssmRootDepth]
  by_cases h : a = ssmTopParent
  · rw [h, root]
  · rw [← root]
    exact (ok.nested.inside_of_above (ok.nested.rooted a (View.mem_processes.mpr ⟨h, ha⟩))).2

/-- A part of the priorities of a record is told in 32 bits. -/
theorem View.Forest.forkPriority_eq {V : View} {parent k i : Nat} (ok : V.Forest)
    (live : parent ∈ V.records) (deep : k ≤ V.depth parent) (hi : i < 2 ^ k) :
    forkPriority (V.lowest parent) (V.depth parent) k i = V.part parent k i := by
  have parts : 2 ^ k * 2 ^ (V.depth parent - k) = 2 ^ V.depth parent := by
    rw [← Nat.pow_add, Nat.add_sub_cancel' deep]
  have part : i * 2 ^ (V.depth parent - k) < 2 ^ V.depth parent :=
    parts ▸ Nat.mul_lt_mul_of_pos_right hi (Nat.two_pow_pos _)
  refine Nat.mod_eq_of_lt (Nat.lt_of_lt_of_le (Nat.add_lt_add_left part _) ?_)
  exact ok.beyond_le live

theorem ForkRun.forest (run : ForkRun s) : s.view.Forest := by
  induction run with
  | start => exact boot_forest
  | own before same ih => exact ih.congr same
  | @call s t c before legal done ih =>
      cases c with
      | fork child step parent k i frame =>
          obtain ⟨fresh, live, room, free⟩ := legal
          obtain ⟨u, run, view, -⟩ := ssmEnterInt_view step
            (forkPriority (s.view.lowest parent) (s.view.depth parent) k i)
            (s.view.depth parent - k) frame fresh live
          cases done.symm.trans run
          rw [view, ih.forkPriority_eq live free.deep free.some]
          exact ih.enter fresh live room free
      | leave act =>
          obtain ⟨live, childless⟩ := legal
          have other : s.view.caller act ≠ act := View.leaf_of_childless childless act live
          obtain ⟨u, run, view, -⟩ :=
            leaveFree_view (View.mem_processes.mp live).2 (ih.caller act live) other
          obtain ⟨⟨resumed, v⟩, left, done⟩ := bind_eq_ok.mp done
          cases done
          cases left.symm.trans run
          rw [view]
          exact ih.leave live childless

/-- Priorities in every state of every run: those of a record are nested in those
of its caller, two records are on one path of the tree or have none in common,
and the records that can run have different ones, in the order of the forks. -/
theorem priorities_nested (run : ForkRun s) :
    (∀ a ∈ s.view.processes, s.view.beyond a ≤ 2 ^ 32 ∧
      s.view.lowest (s.view.caller a) ≤ s.view.lowest a ∧
      s.view.beyond a ≤ s.view.beyond (s.view.caller a)) ∧
    (∀ a ∈ s.view.processes, ∀ b ∈ s.view.processes,
      Above s.view.processes s.view.caller a b ∨ Above s.view.processes s.view.caller b a ∨
      s.view.beyond a ≤ s.view.lowest b ∨ s.view.beyond b ≤ s.view.lowest a) ∧
    (∀ a ∈ s.view.processes, ∀ b ∈ s.view.processes, s.view.childrenOf a = ∅ →
      s.view.childrenOf b = ∅ → a ≠ b → s.priorityAt a ≠ s.priorityAt b) ∧
    (∀ x ∈ s.view.processes, ∀ y ∈ s.view.processes, s.view.caller x = s.view.caller y →
      s.priorityAt x < s.priorityAt y → ∀ a b, Above s.view.processes s.view.caller x a →
      Above s.view.processes s.view.caller y b → s.priorityAt a < s.priorityAt b) ∧
    ∀ parent ∈ s.view.records, ∀ k i, k ≤ s.view.depth parent → i < 2 ^ k →
      forkPriority (s.view.lowest parent) (s.view.depth parent) k i = s.view.part parent k i := by
  have ok := run.forest
  have shown : ∀ a ∈ s.view.processes, s.priorityAt a = s.view.lowest a := by
    intro a ha
    obtain ⟨other, mem⟩ := View.mem_processes.mp ha
    rw [View.lowest, if_neg other, View.field_of_record _ (Table.get?_of_mem mem)]
    rfl
  refine ⟨fun a ha => ⟨ok.beyond_le (View.mem_processes.mp ha).2, ok.nested.inside a ha⟩,
    fun a ha b hb => ok.nested.path_or_apart ha hb, fun a ha b hb leafA leafB differ same => ?_,
    fun x hx y hy sibling less a b below below' => ?_,
    fun parent live k i deep hi => ok.forkPriority_eq live deep hi⟩
  · rw [shown a ha, shown b hb] at same
    have first := ok.nested.before_of_lo_le ha hb (View.leaf_of_childless leafA)
      (View.leaf_of_childless leafB) differ (Nat.le_of_eq same)
    exact absurd (ok.nested.some a ha)
      (Nat.not_lt.mpr (Nat.le_trans first (Nat.le_of_eq same.symm)))
  · have differ : x ≠ y := fun h => Nat.lt_irrefl _ (h ▸ less)
    have ha : a ∈ s.view.processes := by
      by_cases h : x = a
      · exact h ▸ hx
      · exact below.mem h
    have hb : b ∈ s.view.processes := by
      by_cases h : y = b
      · exact h ▸ hy
      · exact below'.mem h
    rw [shown x hx, shown y hy] at less
    rw [shown a ha, shown b hb]
    rcases ok.nested.apart x hx y hy differ sibling with h | h
    · exact Nat.lt_of_lt_of_le (ok.nested.some a ha) (ok.nested.before_below h below below')
    · exact absurd (ok.nested.some y hy)
        (Nat.not_lt.mpr (Nat.le_trans h (Nat.le_of_lt less)))

end Runs

/-- Play a list of calls as long as each is legal and succeeds. -/
def playForks : List ForkCall → State → Option State
  | [], s => some s
  | c :: cs, s => if c.Legal s.view then (c.exec s).toOption.bind (playForks cs) else none

theorem ForkRun.of_play {cs : List ForkCall} {s t : State} (run : ForkRun s)
    (play : playForks cs s = some t) : ForkRun t := by
  induction cs generalizing s with
  | nil =>
      cases play
      exact run
  | cons c cs ih =>
      simp only [playForks] at play
      split at play
      · rename_i legal
        obtain ⟨u, done, rest⟩ := Option.bind_eq_some_iff.mp play
        exact ih (run.call c legal (ok_of_toOption done)) rest
      · cases play

/-- Two children of a record, one of which has forked three and seen one leave. -/
def forkTwice : List ForkCall :=
  [.fork 10 1 1 0 0 [], .fork 11 1 10 1 0 [], .fork 12 1 10 1 1 [], .fork 13 1 12 2 0 [],
    .fork 14 1 12 2 1 [], .fork 15 1 12 2 3 [], .leave 14]

theorem priorities_nested_forkTwice : ∃ s, playForks forkTwice boot = some s ∧
    s.priorityAt 15 = 2 ^ 31 + 3 * 2 ^ 29 ∧ s.priorityAt 11 ≠ s.priorityAt 13 := by
  have runs : (playForks forkTwice boot).any (fun s =>
      s.priorityAt 15 = 2 ^ 31 + 3 * 2 ^ 29 ∧ 11 ∈ s.view.processes ∧ 13 ∈ s.view.processes ∧
      s.view.childrenOf 11 = ∅ ∧ s.view.childrenOf 13 = ∅) = true := by decide +kernel
  obtain ⟨s, play, shown⟩ := (Option.any_eq_true _ _).mp runs
  obtain ⟨priority, first, second, leaf, leaf'⟩ := of_decide_eq_true shown
  refine ⟨s, play, priority, ?_⟩
  exact (priorities_nested (ForkRun.start.of_play play)).2.2.1 11 first 13 second leaf leaf'
    (by decide)

end SsmRuntime
