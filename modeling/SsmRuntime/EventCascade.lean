import SsmRuntime.ActRuns
import SsmRuntime.Refinement

/-!
The first loop of the tick over a heap on which the old value of a variable may
be the last thing that holds other scheduled variables. The drops of an update
take these from the queue while the variable itself is still at its root.
-/
namespace SsmRuntime

open BinaryHeap

/-- What the loop starts from, and keeps: no event is late. -/
structure PhaseOk (sizes : QueueSizes) (s : State) (H : Addr → Nat) : Prop where
  heap : HeapOk s H
  acyclic : Acyclic s
  early : ∀ a, s.Pending a → s.now ≤ s.laterTimeAt a
  acts : ActQueueOk sizes s
  triggers : TriggersOk s

/-- The states in which the loop tests its condition. -/
inductive Iterates (sizes : QueueSizes) (s : State) : State → Prop
  | start : Iterates sizes s s
  | next {t u : State} (before : Iterates sizes s t) (due : updateDue t)
      (run : tickUpdate sizes t = .ok u) : Iterates sizes s u

/-- After the update the variable is at the root still, and what is done next
removes it and nothing else. -/
structure RootRemoved (s t u : State) : Prop where
  first : t.eventQueue 1 = s.eventQueue 1
  run : tickRemoveTop t = .ok u
  queued : t.queued = s.eventQueue 1 ::ₘ u.queued
  objs : u.objs = t.objs
  queue : EventQueueOk u
  order : EventOrdered u

/-- The variables of `t` with an event later than now are those of `s` that are
still there, with the same times. -/
structure LaterKept (s t : State) : Prop where
  now : t.now = s.now
  dom : t.objs.dom ⊆ s.objs.dom
  acts : t.acts.dom = s.acts.dom
  old : ∀ a, t.Pending a → s.Pending a ∧ t.laterTimeAt a = s.laterTimeAt a
  kept : ∀ a, s.Pending a → s.now < s.laterTimeAt a → a ∈ t.objs.dom → t.Pending a

theorem LaterKept.refl (s : State) : LaterKept s s :=
  ⟨rfl, Finset.Subset.refl _, rfl, fun _ h => ⟨h, rfl⟩, fun _ h _ _ => h⟩

theorem LaterKept.trans {s t u : State} (h : LaterKept s t) (k : LaterKept t u) :
    LaterKept s u where
  now := k.now.trans h.now
  dom := k.dom.trans h.dom
  acts := k.acts.trans h.acts
  old := fun a pend => by
    obtain ⟨mid, time⟩ := k.old a pend
    obtain ⟨first, time'⟩ := h.old a mid
    exact ⟨first, time.trans time'⟩
  kept := fun a pend late live => by
    have mid := h.kept a pend late (k.dom live)
    refine k.kept a mid ?_ live
    rw [h.now, (h.old a mid).2]
    exact late

section Iteration
variable {sizes : SafeSizes} {s t u : State} {H L : Addr → Nat} {var : Addr} {v : Sv}

/-- A variable that is there after the drop was there before, as it is. -/
theorem Dropped.sv?_before {R : Holds} {S : Addr → Nat} (d : Dropped R s t ∅ S L) {a : Addr}
    {w : Sv} (hw : t.sv? a = some w) : s.sv? a = some w := by
  have here := (State.sv?_eq_some.mp hw).1
  rw [← sv?_of_body (d.dom here) here (d.body a here), hw]

theorem RootDropped.triggersOk (r : RootDropped s t H L var v) (tr : TriggersOk s) :
    TriggersOk t :=
  tr.congr r.dropped.rest.triggers (fun _ w hw => ⟨w, r.dropped.sv?_before hw, rfl⟩)
    (congrArg Table.dom r.dropped.rest.acts)

theorem RootDropped.acyclic (r : RootDropped s t H L var v) (acyclic : Acyclic s) {n : Nat} :
    Acyclic (t.setSv var (v.updated n)) := by
  refine acyclic.mono r.dropped.dom fun b hb x hx => ?_
  by_cases hbv : b = var
  · subst hbv
    rw [(State.sv?_eq_some.mp r.before).2]
    simp only [State.setSv, State.setObj, Table.write_val_self, Body.refs] at hx ⊢
    rw [Sv.refs_eq, Sv.pendingRefs_idle rfl] at hx
    rw [Sv.refs_eq, Sv.pendingRefs_of_ne r.pend]
    exact List.mem_cons_of_mem _ hx
  · simp only [State.setSv, State.setObj, Table.write_val_of_ne _ _ hbv] at hx
    exact r.dropped.body b hb ▸ hx

/-- What an iteration leaves of the events. -/
theorem RootDropped.laterKept (r : RootDropped s t H L var v)
    (same : SameHeap (t.setSv var (v.updated t.now)) u) (acts : u.acts.dom = s.acts.dom)
    (q : Nat → Addr) (n : Nat) : LaterKept s (u.withQueue q n) where
  now := same.now.trans r.dropped.rest.now
  dom := by
    show u.objs.dom ⊆ s.objs.dom
    rw [same.objs]
    exact r.dropped.dom
  acts := acts
  old := fun a pend => by
    rw [pending_withQueue, same.pending, pending_setSv r.here] at pend
    rw [State.withQueue_laterTimeAt, same.laterTimeAt]
    by_cases hav : a = var
    · rw [if_pos hav] at pend
      exact absurd rfl pend
    · rw [if_neg hav] at pend
      obtain ⟨w, hw, hne⟩ := pend
      have old := r.dropped.sv?_before hw
      refine ⟨⟨w, old, hne⟩, ?_⟩
      rw [State.laterTimeAt_setSv_of_ne t _ hav, State.laterTimeAt_of_sv? hw,
        State.laterTimeAt_of_sv? old]
  kept := fun a pend late live => by
    have live' : a ∈ t.objs.dom := by
      have : a ∈ u.objs.dom := live
      rwa [same.objs] at this
    have hav : a ≠ var := by
      rintro rfl
      rw [State.laterTimeAt_of_sv? r.before, r.due] at late
      exact absurd late (Nat.lt_irrefl _)
    rw [pending_withQueue, same.pending, pending_setSv r.here, if_neg hav]
    exact (pending_of_body (r.dropped.dom live') live' (r.dropped.body a live')).mpr pend

theorem Dropped.queueLen_le {R : Holds} {S : Addr → Nat} (d : Dropped R s t ∅ S L)
    (ok : EventQueueOk s) : t.eventQueueLen ≤ s.eventQueueLen := by
  have sub : t.queued ≤ s.queued := (Multiset.le_iff_subset d.queue.nodup).mpr fun a ha => by
    obtain ⟨w, hw, hne⟩ := (d.queue.mem a).mp ha
    exact (ok.mem a).mpr ⟨w, d.sv?_before hw, hne⟩
  simpa [State.queued] using Multiset.card_le_card sub

/-- Enough room for all records is enough. -/
theorem card_woken_le (tr : TriggersOk s) (hv : s.sv? var = some v) (wakes : Nat → Bool) :
    (scheduledSet s ∪ listeners s var wakes).card ≤ s.acts.dom.card := by
  refine Finset.card_le_card (Finset.union_subset (Finset.filter_subset _ _) fun a ha => ?_)
  obtain ⟨⟨trig, mem, rfl⟩, -⟩ := mem_listeners.mp ha
  exact tr.act var v trig hv mem

/-- One iteration: the root is removed and the loop may go on, or the update
throws for want of room in the activation queue. -/
theorem PhaseOk.iteration (ok : PhaseOk sizes s H) (due : updateDue s) :
    (∃ t u, ∃ L : Addr → Nat, ssmUpdate sizes (s.eventQueue 1) s = .ok t ∧ RootRemoved s t u ∧
      PhaseOk sizes u (fun a => H a + L a) ∧ LaterKept s u ∧
      u.eventQueueLen < s.eventQueueLen) ∨
    ((∃ t, ssmUpdate sizes (s.eventQueue 1) s = .error ⟨.thrown .exhaustedActQueue, t⟩) ∧
      sizes.act < s.acts.dom.card) := by
  obtain ⟨v, t, L, r⟩ := ok.heap.dropRoot ok.acyclic due
  generalize hvar : s.eventQueue 1 = var at *
  have here : (t.setSv var (v.updated t.now)).sv? var = some (v.updated t.now) :=
    State.sv?_setSv_self r.here
  have triggers : TriggersOk (t.setSv var (v.updated t.now)) :=
    (r.triggersOk ok.triggers).setSv r.here rfl
  have rest := r.dropped.rest
  have acts : ActQueueOk sizes (t.setSv var (v.updated t.now)) :=
    ok.acts.of_acts rest.acts rest.actQueue rest.actQueueLen
  rw [r.update_eq]
  have spec := wake_spec (fun _ => true) triggers acts here
  split at spec
  · obtain ⟨u, run, acts', woken⟩ := spec
    obtain ⟨first, q, n, removed, queued, heap⟩ := r.remove ok.heap woken.heap
    have later := r.laterKept woken.heap (woken.dom.trans (congrArg Table.dom rest.acts)) q n
    refine Or.inl ⟨u, _, L, run, ⟨hvar ▸ first, removed, hvar ▸ queued, rfl, heap.queue,
      heap.order⟩, ⟨heap, ?_, fun a pend => ?_, acts'.of_acts rfl rfl rfl, ?_⟩, later, ?_⟩
    · obtain ⟨rank, down⟩ := r.acyclic ok.acyclic (n := t.now)
      refine ⟨rank, ?_⟩
      show Ranked rank u
      rw [Ranked, woken.heap.objs]
      exact down
    · obtain ⟨old, time⟩ := later.old a pend
      rw [later.now, time]
      exact ok.early a old
    · exact (triggers.congr woken.heap.triggers
        (fun y w hw => ⟨w, (woken.heap.sv? y).symm.trans hw, rfl⟩) woken.dom).congr rfl
        (fun _ w hw => ⟨w, hw, rfl⟩) rfl
    · have len := congrArg Multiset.card queued
      rw [State.queued, woken.heap.eventQueueLen, Multiset.card_cons, card_contents,
        card_contents] at len
      have := r.dropped.queueLen_le ok.heap.queue
      show n < s.eventQueueLen
      have : t.eventQueueLen = n + 1 := len
      omega
  · rename_i full
    refine Or.inr ⟨spec, ?_⟩
    have few := card_woken_le triggers here fun _ => true
    rw [show (t.setSv var (v.updated t.now)).acts = s.acts from rest.acts] at few
    omega

end Iteration

/-- What the loop leaves: a well-formed queue with the events later than now. -/
structure PhaseDone (s t : State) : Prop where
  queue : EventQueueOk t
  order : EventOrdered t
  now : t.now = s.now
  dom : t.objs.dom ⊆ s.objs.dom
  mem : ∀ a, a ∈ t.queued ↔
    (s.Pending a ∧ s.now < s.laterTimeAt a) ∧ a ∈ t.objs.dom
  time : ∀ a ∈ t.queued, t.laterTimeAt a = s.laterTimeAt a

section Phase
variable {sizes : SafeSizes} {s t : State} {H : Addr → Nat}

/-- While no event is late, a loop that stops has no event for now left. -/
theorem PhaseOk.done (ok : PhaseOk sizes t H) (later : LaterKept s t) (idle : ¬ updateDue t) :
    PhaseDone s t where
  queue := ok.heap.queue
  order := ok.heap.order
  now := later.now
  dom := later.dom
  mem := fun a => by
    rw [ok.heap.queue.mem]
    constructor
    · intro pend
      obtain ⟨old, time⟩ := later.old a pend
      have least := ssmNextEventTime_le ok.heap.queue ok.heap.order pend
      obtain ⟨i, h1, hn, -⟩ := ok.heap.queue.pos_of_pending pend
      rw [ssmNextEventTime, if_neg (by omega)] at least
      have early := ok.early _ (ok.heap.queue.pending_at (Nat.le_refl 1) (by omega))
      have notNow : t.laterTimeAt (t.eventQueue 1) ≠ t.now := fun h => idle ⟨by omega, h⟩
      rw [← time, ← later.now]
      exact ⟨⟨old, by omega⟩, pend.mem⟩
    · rintro ⟨⟨pend, late⟩, live⟩
      exact later.kept a pend late live
  time := fun a ha => (later.old a ((ok.heap.queue.mem a).mp ha)).2

theorem PhaseOk.iterates (ok : PhaseOk sizes s H) (run : Iterates sizes s t) :
    ∃ K, PhaseOk sizes t K ∧ LaterKept s t := by
  induction run with
  | start => exact ⟨H, ok, LaterKept.refl s⟩
  | @next t u _ due run ih =>
      obtain ⟨K, ok', later⟩ := ih
      obtain ⟨u₁, u₂, L, updated, removed, ok'', later', -⟩ | ⟨⟨u', thrown⟩, -⟩ :=
        ok'.iteration due
      · rw [tickUpdate, updated, ok_bind, removed.run] at run
        exact Except.ok.inj run ▸ ⟨_, ok'', later.trans later'⟩
      · rw [tickUpdate, thrown] at run
        cases run

/-- Each iteration shortens the queue, so as many as it is long are enough. -/
theorem PhaseOk.loop (n : Nat) (ok : PhaseOk sizes t H) (reached : Iterates sizes s t)
    (enough : t.eventQueueLen ≤ n) :
    (∃ u, tickUpdates sizes n t = .ok u ∧ Iterates sizes s u ∧ ¬ updateDue u) ∨
    ((∃ u, tickUpdates sizes n t = .error ⟨.thrown .exhaustedActQueue, u⟩) ∧
      sizes.act < t.acts.dom.card) := by
  induction n generalizing t H with
  | zero =>
      have idle : ¬ updateDue t := fun due => by
        have := due.1
        omega
      exact Or.inl ⟨t, by rw [tickUpdates, if_neg idle], reached, idle⟩
  | succ n ih =>
      by_cases due : updateDue t
      · rw [tickUpdates, if_pos due]
        obtain ⟨u, w, L, updated, removed, ok', later, shorter⟩ | ⟨⟨u, thrown⟩, full⟩ :=
          ok.iteration due
        · have step : tickUpdate sizes t = .ok w := by
            rw [tickUpdate, updated, ok_bind, removed.run]
          rw [step, ok_bind, ← later.acts]
          exact ih ok' (reached.next due step) (by omega)
        · exact Or.inr ⟨⟨u, by rw [tickUpdate, thrown, error_bind, error_bind]⟩, full⟩
      · exact Or.inl ⟨t, by rw [tickUpdates, if_neg due], reached, due⟩

/-- The event phase of the tick: in every iteration the variable updated is at the
root when it is to be removed, the loop ends, and the events later than now are
left, but for those of variables that have been freed. Only a lack of room in the
activation queue can stop it before. -/
theorem eventPhase_exact (ok : PhaseOk sizes s H) :
    (∀ t, Iterates sizes s t → updateDue t →
      (∃ u w, ssmUpdate sizes (t.eventQueue 1) t = .ok u ∧ RootRemoved t u w) ∨
      ((∃ u, ssmUpdate sizes (t.eventQueue 1) t = .error ⟨.thrown .exhaustedActQueue, u⟩) ∧
        sizes.act < s.acts.dom.card)) ∧
    ((∃ t, tickUpdates sizes s.eventQueueLen s = .ok t ∧ PhaseDone s t) ∨
      ((∃ t, tickUpdates sizes s.eventQueueLen s = .error ⟨.thrown .exhaustedActQueue, t⟩) ∧
        sizes.act < s.acts.dom.card)) := by
  constructor
  · intro t reached due
    obtain ⟨K, ok', later⟩ := ok.iterates reached
    rw [← later.acts]
    rcases ok'.iteration due with ⟨u, w, -, updated, removed, -⟩ | full
    · exact Or.inl ⟨u, w, updated, removed⟩
    · exact Or.inr full
  · rcases ok.loop _ .start (Nat.le_refl _) with ⟨t, run, reached, idle⟩ | full
    · obtain ⟨K, ok', later⟩ := ok.iterates reached
      exact Or.inl ⟨t, run, ok'.done later idle⟩
    · exact Or.inr full

/-- In a state without triggers there is none to be out of order. -/
theorem triggersOk_of_none (none : ∀ x v, s.sv? x = some v → v.triggers = none) :
    TriggersOk s := by
  have empty : ∀ x v, s.sv? x = some v → triggersOf s x = [] := by
    intro x v hv
    rw [triggersOf, State.svAt_of_sv? hv, none x v hv]
    cases s.triggers.dom.card <;> rfl
  constructor
  · intro x v hv
    rw [empty x v hv, none x v hv]
    exact .nil _
  · intro x v t hv mem
    rw [empty x v hv] at mem
    exact absurd mem List.not_mem_nil

/-- No variable is rescheduled. -/
def schedulesOnce (w : World) : Call → Bool
  | .later var _ _ => w.state.laterTimeAt var == ssmNever
  | _ => true

theorem inPlace_of_schedulesOnce {w : World} {c : Call} (h : schedulesOnce w c = true) :
    InPlace w c := by
  cases c with
  | later var when val =>
      intro v hv pend
      rw [schedulesOnce, State.laterTimeAt_of_sv? hv] at h
      exact absurd (eq_of_beq h) pend
  | _ => trivial

/-- The variable 2 is all that holds 3, which is all that holds 5; all three and
4 are scheduled, the first two at the same time. -/
def heldInTurn : List Call :=
  [.newSv 5 (.packed 0), .dup (.heap 5), .newSv 3 (.heap 5), .dup (.heap 3), .newSv 2 (.heap 3),
    .newSv 4 (.packed 0), .later 2 5 (.packed 1), .later 3 5 (.packed 2), .later 5 9 (.packed 3),
    .later 4 8 (.packed 4), .drop (.heap 5), .drop (.heap 3), .setNow 5]

def heldRank (a : Addr) : Nat := if a = 2 then 2 else if a = 3 then 1 else 0

theorem eventPhase_exact_heldInTurn : ∃ s H t, PhaseOk defaultSafeSizes s H ∧
    s.eventQueueLen = 4 ∧ tickUpdates defaultSafeSizes s.eventQueueLen s = .ok t ∧
    t.objs.dom = {2, 4} ∧ PhaseDone s t := by
  have ends : (runCalls defaultSafeSizes heldRank schedulesOnce heldInTurn World.blank).any
      (fun w => (w.state.eventQueueLen = 4 ∧ Ranked heldRank w.state ∧ w.state.actQueueLen = 0 ∧
        (∀ a ∈ w.state.acts.dom, (w.state.acts.val a).scheduled = false) ∧
        (∀ a ∈ w.state.objs.dom, (w.state.svAt a).triggers = none ∧
          w.state.now ≤ w.state.laterTimeAt a)) ∧
        (tickUpdates defaultSafeSizes w.state.eventQueueLen w.state).toOption.any
          fun t => t.objs.dom = {2, 4}) = true := by
    decide +kernel
  obtain ⟨w, last, facts⟩ := (Option.any_eq_true _ _).mp ends
  obtain ⟨⟨len, ranked, noneQueued, idle, each⟩, done⟩ := of_decide_eq_true facts
  obtain ⟨t, run, dom⟩ := (Option.any_eq_true _ _).mp done
  obtain ⟨L, heap, -⟩ := Run.heapOk start_blank
    (Run.of_runCalls (fun _ _ => inPlace_of_schedulesOnce) .refl last) fun _ _ => id
  have ok : PhaseOk defaultSafeSizes w.state fun a => w.held a + L a := by
    refine ⟨heap, ⟨_, ranked⟩, fun a pend => (each a pend.mem).2,
      actQueueOk_of_empty noneQueued fun a sched => ?_, triggersOk_of_none fun x v hv => ?_⟩
    · exact Bool.false_ne_true ((idle a sched.1).symm.trans sched.2)
    · rw [← State.svAt_of_sv? hv]
      exact (each x (State.sv?_eq_some.mp hv).1).1
  have ran := ok_of_toOption run
  rcases (eventPhase_exact ok).2 with ⟨u, run', phase⟩ | ⟨⟨u, thrown⟩, -⟩
  · obtain rfl := Except.ok.inj (ran.symm.trans run')
    exact ⟨w.state, _, t, ok, len, ran, of_decide_eq_true dom, phase⟩
  · rw [ran] at thrown
    cases thrown

end Phase

end SsmRuntime
