import SsmRuntime.View

/-!
Each operation on a well-formed state leaves a well-formed state and computes
the operation of the same name on what the state shows. Where a queue is full
the operation throws, and whether it is full is decided by the view as well.
-/
namespace SsmRuntime

open BinaryHeap

section Frames
variable {sizes : QueueSizes} {s t : State} {x : Addr} {v w : Sv}

theorem triggersOf_congr (same : t.triggers = s.triggers) {y : Addr}
    (head : (t.svAt y).triggers = (s.svAt y).triggers) : triggersOf t y = triggersOf s y := by
  rw [triggersOf, triggersOf, same, head]

theorem Chain.same {l : Link} {h : Option TriggerPtr} {ts : List TriggerPtr} (c : Chain s l h ts)
    (same : t.triggers = s.triggers) : Chain t l h ts :=
  c.congr fun u hu => by
    rw [same]
    exact ⟨c.live hu, rfl⟩

theorem actOf_congr (same : t.triggers = s.triggers) : t.actOf = s.actOf := by
  funext u
  rw [State.actOf, same, State.actOf]

/-- Trigger lists stay in order where only other fields of variables change. -/
theorem TriggersOk.congr (tr : TriggersOk s) (same : t.triggers = s.triggers)
    (head : ∀ y u, t.sv? y = some u → ∃ u', s.sv? y = some u' ∧ u.triggers = u'.triggers)
    (acts : t.acts.dom = s.acts.dom) : TriggersOk t := by
  have lists : ∀ y u, t.sv? y = some u → triggersOf t y = triggersOf s y := by
    intro y u hu
    obtain ⟨u', hu', eq⟩ := head y u hu
    exact triggersOf_congr same (by rw [State.svAt_of_sv? hu, State.svAt_of_sv? hu', eq])
  constructor
  · intro y u hu
    obtain ⟨u', hu', eq⟩ := head y u hu
    rw [lists y u hu, eq]
    exact (tr.chain y u' hu').same same
  · intro y u trig hu mem
    obtain ⟨u', hu', -⟩ := head y u hu
    rw [lists y u hu] at mem
    rw [acts, actOf_congr same]
    exact tr.act y u' trig hu' mem

theorem TriggersOk.setSv (tr : TriggersOk s) (hv : s.sv? x = some v)
    (head : w.triggers = v.triggers) : TriggersOk (s.setSv x w) := by
  refine tr.congr rfl (fun y u hu => ?_) rfl
  by_cases hy : y = x
  · subst hy
    rw [State.sv?_setSv_self hv] at hu
    exact ⟨v, hv, by rw [← Option.some.inj hu, head]⟩
  · rw [State.sv?_setSv_of_ne w hy] at hu
    exact ⟨u, hu, rfl⟩

/-- Writing a variable changes one entry of the view. -/
theorem view_setSv (hv : s.sv? x = some v) (head : w.triggers = v.triggers) (f : Sv → Sv)
    (seen : f v.seen = w.seen) : (s.setSv x w).view = s.view.mapVar x f := by
  have some' : ∀ y, ((s.setSv x w).sv? y).isSome = (s.sv? y).isSome := by
    intro y
    by_cases hy : y = x
    · subst hy
      rw [State.sv?_setSv_self hv, hv]
      rfl
    · rw [State.sv?_setSv_of_ne w hy]
  refine View.ext' rfl ?_ (fun y => ?_) rfl (fun _ => rfl) (fun _ => rfl) fun y => ?_
  · simp only [State.view, View.mapVar, State.setSv_dom, some']
  · simp only [State.view, View.mapVar]
    split
    · rename_i hy
      subst hy
      rw [State.seen?, State.sv?_setSv_self hv, seen?_of_sv? hv, Option.map_some, Option.map_some,
        seen]
    · rename_i hy
      rw [State.seen?, State.sv?_setSv_of_ne w hy, State.seen?]
  · simp only [State.view, View.mapVar, some']
    split
    · refine congrArg List.toFinset (triggersOf_congr (s := s) (t := s.setSv x w) rfl ?_)
      by_cases hy : y = x
      · subst hy
        rw [State.svAt_setSv_self, State.svAt_of_sv? hv, head]
      · rw [State.svAt_setSv_of_ne s w hy]
    · rfl

theorem view_withQueue (s : State) (q : Nat → Addr) (n : Nat) : (s.withQueue q n).view = s.view :=
  rfl

/-- What `WellFormed` says of the values of variables. -/
def PackedSv (v : Sv) : Prop :=
  ssmOnHeap v.value = false ∧ (v.laterTime ≠ ssmNever → ssmOnHeap v.laterValue = false)

theorem packed_setSv (packed : ∀ y u, s.sv? y = some u → PackedSv u) (hv : s.sv? x = some v)
    (new : PackedSv w) (y : Addr) (u : Sv) (hu : (s.setSv x w).sv? y = some u) : PackedSv u := by
  by_cases hy : y = x
  · subst hy
    rw [State.sv?_setSv_self hv] at hu
    rwa [← Option.some.inj hu]
  · rw [State.sv?_setSv_of_ne w hy] at hu
    exact packed y u hu

/-- A well-formed state whose queue and one variable have been rewritten. -/
theorem WellFormed.setSv_withQueue {q : Nat → Addr} {n : Nat} (wf : WellFormed sizes s)
    (hv : s.sv? x = some v) (head : w.triggers = v.triggers) (new : PackedSv w)
    (fits : n ≤ sizes.event) (ok : EventQueueOk ((s.setSv x w).withQueue q n))
    (ho : Ordered (s.setSv x w).laterTimeAt q n) :
    WellFormed sizes ((s.setSv x w).withQueue q n) where
  queue := ok
  order := ho
  fits := fits
  packed := packed_setSv wf.packed hv new
  acts := wf.acts.of_acts rfl rfl rfl
  triggers := (wf.triggers.setSv hv head).congr rfl (fun _ u hu => ⟨u, hu, rfl⟩) rfl

theorem WellFormed.setSv_same (wf : WellFormed sizes s) (hv : s.sv? x = some v)
    (head : w.triggers = v.triggers) (new : PackedSv w) (time : w.laterTime = v.laterTime) :
    WellFormed sizes (s.setSv x w) where
  queue := wf.queue.setSv_same hv time
  order := wf.order.setSv_same hv time
  fits := wf.fits
  packed := packed_setSv wf.packed hv new
  acts := wf.acts.of_acts rfl rfl rfl
  triggers := wf.triggers.setSv hv head

theorem ssmDrop_of_packed {val : Value} (packed : ssmOnHeap val = false) (s : State) :
    ssmDrop val s = .ok s := by
  cases val with
  | packed n => rfl
  | heap a => simp [ssmOnHeap] at packed

end Frames

/-- Scheduling an event: the entry of the variable is written, whether it had
one or not. -/
theorem later_refines {sizes : SafeSizes} {s : State} {x : Addr} {v : Sv} {when : Nat}
    {val : Value} (wf : WellFormed sizes s) (hv : s.sv? x = some v) (early : s.now ≤ when)
    (soon : when ≠ ssmNever) (packed : ssmOnHeap val = false) :
    if v.laterTime = ssmNever ∧ sizes.event ≤ s.eventQueueLen then
      ∃ u, ssmSvLaterUnsafe sizes x when val s = .error ⟨.thrown .exhaustedEventQueue, u⟩
    else ∃ t, ssmSvLaterUnsafe sizes x when val s = .ok t ∧ WellFormed sizes t ∧
      t.view = s.view.later x when val := by
  have small := wf.fits
  have safe := sizes.event_lt
  have new : PackedSv { v with laterTime := when, laterValue := val } :=
    ⟨(wf.packed x v hv).1, fun _ => packed⟩
  have shown : ∀ q n, ((s.setSv x { v with laterTime := when, laterValue := val }).withQueue
      q n).view = s.view.later x when val := fun q n => by
    rw [view_withQueue]
    exact view_setSv (w := { v with laterTime := when, laterValue := val }) hv rfl
      (fun u => { u with laterTime := when, laterValue := val }) rfl
  by_cases idle : v.laterTime = ssmNever
  · by_cases full : sizes.event ≤ s.eventQueueLen
    · rw [if_pos ⟨idle, full⟩]
      unfold ssmSvLaterUnsafe
      rw [if_neg (by omega), State.loadSv_of_sv? hv, ok_bind, if_pos idle]
      simp only [State.setSv_eventQueueLen,
        qIdx_of_lt (show s.eventQueueLen + 1 < 2 ^ 16 by omega)]
      rw [if_pos (by omega)]
      exact ⟨_, rfl⟩
    · rw [if_neg fun h => full h.2]
      obtain ⟨q, run, cont, order⟩ :=
        ssmSvLaterUnsafe_insert val safe hv idle early (by omega)
      have fresh : x ∉ s.queued := fun member => by
        obtain ⟨u, hu, hne⟩ := (wf.queue.mem x).mp member
        rw [hv] at hu
        exact hne (Option.some.inj hu ▸ idle)
      refine ⟨_, run, ?_, shown _ _⟩
      exact wf.setSv_withQueue hv rfl new (by omega)
        (wf.queue.add hv idle soon (by omega) cont) (order wf.order fresh)
  · rw [if_neg fun h => idle h.1]
    generalize hw : { v with laterTime := when } = w
    have wTime : w.laterTime = when := by rw [← hw]
    have hv₁ : (s.setSv x w).sv? x = some w := State.sv?_setSv_self hv
    have queue₁ : EventQueueOk (s.setSv x w) :=
      wf.queue.rekey (q := s.eventQueue) hv idle (by rwa [wTime]) rfl
    obtain ⟨q, placed, cont, order⟩ := reposition_spec (s := s.setSv x w) x when
      queue₁.len_lt ((queue₁.mem x).mpr ⟨w, hv₁, by rwa [wTime]⟩)
      (by rw [State.laterTimeAt_of_sv? hv₁, wTime]) soon
    obtain ⟨hole, found, put⟩ := bind_eq_ok.mp placed
    have sorted := order fun i h1 hn hi => wf.order.hole_of_rekey wf.queue h1 hn hi
    have merge : ((s.setSv x w).withQueue q s.eventQueueLen).setSv x { w with laterValue := val } =
        (s.setSv x { v with laterTime := when, laterValue := val }).withQueue q
          s.eventQueueLen := by
      rw [State.withQueue_setSv, State.setSv_setSv, ← hw]
    refine ⟨_, ?_, ?_, shown q s.eventQueueLen⟩
    · unfold ssmSvLaterUnsafe
      rw [if_neg (by omega), State.loadSv_of_sv? hv, ok_bind, if_neg idle, hw,
        ssmDrop_of_packed ((wf.packed x v hv).2 idle), ok_bind, found, ok_bind, put, ok_bind,
        State.loadSv_of_sv? (s := (s.setSv x w).withQueue q (s.setSv x w).eventQueueLen) hv₁,
        ok_bind, ← merge]
      rfl
    · refine wf.setSv_withQueue hv rfl new small (wf.queue.rekey hv idle soon cont) ?_
      have keys : (s.setSv x { v with laterTime := when, laterValue := val }).laterTimeAt =
          (s.setSv x w).laterTimeAt := by
        have := laterTimeAt_setSv_same (w := { w with laterValue := val }) hv₁ rfl
        rw [State.setSv_setSv] at this
        rw [← this, ← hw]
      rw [keys]
      exact sorted

theorem unschedule_refines {sizes : QueueSizes} {s : State} {x : Addr} {v : Sv}
    (wf : WellFormed sizes s) (hv : s.sv? x = some v) :
    ∃ t, ssmUnschedule x s = .ok t ∧ WellFormed sizes t ∧ t.view = s.view.unschedule x := by
  have new : PackedSv { v with laterTime := ssmNever } :=
    ⟨(wf.packed x v hv).1, fun h => absurd rfl h⟩
  by_cases idle : v.laterTime = ssmNever
  · refine ⟨s, ?_, wf, ?_⟩
    · rw [ssmUnschedule, State.loadSv_of_sv? hv, ok_bind, if_pos idle]
    · refine View.ext' rfl rfl (fun y => ?_) rfl (fun _ => rfl) (fun _ => rfl) fun _ => rfl
      simp only [View.unschedule, View.mapVar]
      split
      · rename_i hy
        subst hy
        simp only [State.view, seen?_of_sv? hv, Option.map_some]
        rw [← idle]
        rfl
      · rfl
  · obtain ⟨q, n, run, len, cont, order⟩ := ssmUnschedule_spec wf.queue hv idle
    have small := wf.fits
    exact ⟨_, run, wf.setSv_withQueue hv rfl new (by omega)
      (wf.queue.remove hv rfl len cont) (order wf.order).1,
      (view_withQueue _ q n).trans (view_setSv (w := { v with laterTime := ssmNever }) hv rfl
        (fun u => { u with laterTime := ssmNever }) rfl)⟩

/-- Waking records changes their flags only. -/
theorem WellFormed.woken {sizes : QueueSizes} {s t : State} {A : Finset ActPtr}
    (wf : WellFormed sizes s) (ok : ActQueueOk sizes t) (k : Woken s t (· ∈ A)) :
    WellFormed sizes t ∧ t.view = s.view.wake A := by
  have svs : ∀ y, t.sv? y = s.sv? y := k.heap.sv?
  refine ⟨⟨k.heap.ok wf.queue, k.heap.ordered wf.order, ?_, fun y u hu => ?_, ok, ?_⟩, ?_⟩
  · rw [k.heap.eventQueueLen]
    exact wf.fits
  · rw [svs] at hu
    exact wf.packed y u hu
  · exact wf.triggers.congr k.heap.triggers (fun y u hu => ⟨u, by rwa [← svs], rfl⟩) k.dom
  · refine View.ext' k.heap.now ?_ (fun y => ?_) k.dom (fun a => ?_) (fun u => ?_) fun y => ?_
    · simp only [State.view, View.wake, svs, k.heap.objs]
    · simp only [State.view, View.wake, State.seen?, svs]
    · simp only [State.view, View.wake, Table.get?, k.dom]
      split
      · have flag : (t.acts.val a).scheduled = ((s.acts.val a).scheduled || decide (a ∈ A)) := by
          rw [Bool.eq_iff_iff, k.scheduled]
          simp
        rw [Option.map_some, k.record a, flag]
      · rfl
    · simp only [State.view, View.wake, k.heap.triggers]
    · simp only [State.view, View.wake, svs]
      split
      · rw [triggersOf_congr k.heap.triggers]
        simp [State.svAt, k.heap.objs]
      · rfl

/-- Writing a variable and then waking those that listen to it. -/
theorem wake_refines {sizes : SafeSizes} {s : State} {x : Addr} {v : Sv} (wakes : Nat → Bool)
    (wf : WellFormed sizes s) (hv : s.sv? x = some v) :
    if (s.view.scheduledSet ∪ s.view.listeners x wakes).card ≤ sizes.act then
      ∃ t, wake sizes wakes s.triggers.dom.card v.triggers s = .ok t ∧ WellFormed sizes t ∧
        t.view = s.view.wake (s.view.listeners x wakes) ∧ SameHeap s t
    else ∃ u, wake sizes wakes s.triggers.dom.card v.triggers s =
      .error ⟨.thrown .exhaustedActQueue, u⟩ := by
  rw [view_scheduledSet, view_listeners wakes wf.triggers hv]
  have spec := wake_spec wakes wf.triggers wf.acts hv
  split at spec
  · rename_i room
    obtain ⟨t, run, ok, k⟩ := spec
    obtain ⟨wf', shown⟩ := wf.woken ok k
    rw [if_pos room]
    exact ⟨t, run, wf', shown, k.heap⟩
  · rename_i full
    rw [if_neg full]
    exact spec

theorem listeners_mapVar (V : View) (x y : Addr) (f : Sv → Sv) (wakes : Nat → Bool) :
    (V.mapVar x f).listeners y wakes = V.listeners y wakes := rfl

theorem scheduledSet_mapVar (V : View) (x : Addr) (f : Sv → Sv) :
    (V.mapVar x f).scheduledSet = V.scheduledSet := rfl

theorem assign_refines {sizes : SafeSizes} {s : State} {x : Addr} {v : Sv} (prio : Nat)
    {val : Value} (wf : WellFormed sizes s) (hv : s.sv? x = some v)
    (packed : ssmOnHeap val = false) :
    if (s.view.scheduledSet ∪ s.view.listeners x fun p => prio < p).card ≤ sizes.act then
      ∃ t, ssmSvAssignUnsafe sizes x prio val s = .ok t ∧ WellFormed sizes t ∧
        t.view = s.view.assign x prio val
    else ∃ u, ssmSvAssignUnsafe sizes x prio val s = .error ⟨.thrown .exhaustedActQueue, u⟩ := by
  have new : PackedSv { v with value := val, lastUpdated := s.now } :=
    ⟨packed, (wf.packed x v hv).2⟩
  have wf₁ := wf.setSv_same (w := { v with value := val, lastUpdated := s.now }) hv rfl new rfl
  have hv₁ : (s.setSv x { v with value := val, lastUpdated := s.now }).sv? x =
      some { v with value := val, lastUpdated := s.now } := State.sv?_setSv_self hv
  have shown : (s.setSv x { v with value := val, lastUpdated := s.now }).view =
      s.view.mapVar x fun u => { u with value := val, lastUpdated := s.now } :=
    view_setSv (w := { v with value := val, lastUpdated := s.now }) hv rfl
      (fun u => { u with value := val, lastUpdated := s.now }) rfl
  have spec := wake_refines (fun p => prio < p) wf₁ hv₁
  rw [shown, listeners_mapVar, scheduledSet_mapVar] at spec
  unfold ssmSvAssignUnsafe
  rw [State.loadSv_of_sv? hv, ok_bind]
  split at spec
  · rename_i room
    obtain ⟨t, run, wf₂, shown₂, -⟩ := spec
    rw [if_pos room]
    exact ⟨t, run, wf₂, shown₂⟩
  · rename_i full
    rw [if_neg full]
    exact spec

/-- One update of the tick: the variable at the root takes its pending value. -/
theorem update_refines {sizes : SafeSizes} {s : State} (wf : WellFormed sizes s)
    (due : updateDue s) :
    if (s.view.scheduledSet ∪ s.view.listeners (s.eventQueue 1) fun _ => true).card ≤ sizes.act then
      ∃ t, tickUpdate sizes s = .ok t ∧ WellFormed sizes t ∧
        t.view = s.view.update (s.eventQueue 1) ∧ s.eventQueueLen = t.eventQueueLen + 1
    else ∃ u, tickUpdate sizes s = .error ⟨.thrown .exhaustedActQueue, u⟩ := by
  obtain ⟨pos, now⟩ := due
  generalize hx : s.eventQueue 1 = x at *
  obtain ⟨v, hv, hne⟩ : s.Pending x := hx ▸ wf.queue.pending_at (Nat.le_refl 1) pos
  obtain ⟨packedVal, packedLater⟩ := wf.packed x v hv
  generalize hw : { v with value := v.laterValue, lastUpdated := s.now, laterTime := ssmNever } = w
  have wIdle : w.laterTime = ssmNever := by rw [← hw]
  have head : w.triggers = v.triggers := by rw [← hw]
  have new : PackedSv w := by
    rw [← hw]
    exact ⟨packedLater hne, fun h => absurd rfl h⟩
  have shown : (s.setSv x w).view = s.view.mapVar x (View.deliver s.now) :=
    view_setSv hv head _ (by rw [← hw]; rfl)
  have hv₁ : (s.setSv x w).sv? x = some w := State.sv?_setSv_self hv
  -- The queue still holds the variable while its listeners are woken.
  have spec := wake_spec (s := s.setSv x w) (fun _ => true) (wf.triggers.setSv hv head)
    (show ActQueueOk sizes (s.setSv x w) from wf.acts.of_acts rfl rfl rfl) hv₁
  have sched : scheduledSet (s.setSv x w) = s.view.scheduledSet := (view_scheduledSet s).symm
  have heard : listeners (s.setSv x w) x (fun _ => true) = s.view.listeners x fun _ => true := by
    rw [← view_listeners _ (wf.triggers.setSv hv head) hv₁, shown, listeners_mapVar]
  have never : ¬ s.now ≠ v.laterTime := by
    rw [not_not, ← now, State.laterTimeAt_of_sv? hv]
  have start : ∀ r, wake sizes (fun _ => true) (s.setSv x w).triggers.dom.card w.triggers
      (s.setSv x w) = r → ssmUpdate sizes x s = r := by
    intro r run
    unfold ssmUpdate
    rw [State.loadSv_of_sv? hv, ok_bind, if_neg never, ssmDrop_of_packed packedVal, ok_bind,
      State.loadSv_of_sv? hv, ok_bind, hw, ← head]
    exact run
  rw [sched, heard] at spec
  unfold tickUpdate
  rw [hx]
  split at spec
  · rename_i room
    obtain ⟨t, run, acts, k⟩ := spec
    rw [if_pos room]
    obtain ⟨q, n, removed, len, cont, order⟩ := tickRemoveTop_spec wf.queue hv hne hx k.heap
    have small := wf.fits
    have wf₁ : WellFormed sizes ((s.setSv x w).withQueue q n) :=
      wf.setSv_withQueue hv head new (by omega) (wf.queue.remove hv wIdle len cont)
        (order wf.order)
    have k' : Woken ((s.setSv x w).withQueue q n) (t.withQueue q n)
        (· ∈ s.view.listeners x fun _ => true) :=
      ⟨k.dom, k.record, k.scheduled,
        ⟨k.heap.objs, rfl, rfl, k.heap.now, k.heap.triggers⟩, k.numProcesses⟩
    obtain ⟨wf₂, shown₂⟩ := wf₁.woken (t := t.withQueue q n) (acts.of_acts rfl rfl rfl) k'
    refine ⟨t.withQueue q n, ?_, wf₂, ?_, len⟩
    · rw [start _ run, ok_bind, removed]
    · rw [shown₂, view_withQueue, shown]
      rfl
  · rename_i full
    obtain ⟨u, run⟩ := spec
    rw [if_neg full]
    exact ⟨u, by rw [start _ run, error_bind]⟩

theorem Sv.seen_fields {v w : Sv} (same : v.seen = w.seen) :
    v.laterTime = w.laterTime ∧ v.value = w.value ∧ v.laterValue = w.laterValue := by
  simp only [Sv.seen, Sv.mk.injEq] at same
  exact ⟨same.1, same.2.2.2.1, same.2.2.2.2⟩

/-- A state whose trigger lists alone have changed. -/
theorem WellFormed.relisted {sizes : QueueSizes} {s t : State} {L : Addr → List TriggerPtr}
    (wf : WellFormed sizes s) (r : Relisted s t L)
    (old : ∀ x v, s.sv? x = some v → ∀ u, u ∈ L x → s.actOf u ∈ s.acts.dom) :
    WellFormed sizes t := by
  have svs : ∀ y u, t.sv? y = some u → ∃ w, s.sv? y = some w ∧ w.seen = u.seen := fun y u hu =>
    r.sv? hu
  have pend : ∀ y, t.Pending y ↔ s.Pending y := by
    intro y
    rw [← view_pending, ← view_pending, View.Pending, View.Pending]
    simp only [State.view, r.seen]
  refine ⟨wf.queue.congr r.eventQueue r.eventQueueLen pend, ?_, ?_, fun y u hu => ?_,
    wf.acts.of_acts r.acts r.actQueue r.actQueueLen, fun y u hu => ?_, fun y u trig hu mem => ?_⟩
  · unfold EventOrdered
    rw [r.eventQueue, r.eventQueueLen]
    refine Ordered.congr wf.order fun i h1 hn => ?_
    obtain ⟨v, hv, hne⟩ := wf.queue.pending_at h1 hn
    obtain ⟨u, hu, -⟩ := (pend _).mpr ⟨v, hv, hne⟩
    obtain ⟨v', hv', same⟩ := svs _ u hu
    rw [State.laterTimeAt_of_sv? hu, State.laterTimeAt_of_sv? hv']
    exact (Sv.seen_fields same).1.symm
  · rw [r.eventQueueLen]
    exact wf.fits
  · obtain ⟨w, hw, same⟩ := svs y u hu
    have := wf.packed y w hw
    obtain ⟨time, value, later⟩ := Sv.seen_fields same
    rw [← time, ← value, ← later]
    exact this
  · rw [r.triggersOf hu]
    exact r.chain y u hu
  · obtain ⟨w, hw, -⟩ := svs y u hu
    rw [r.triggersOf hu] at mem
    rw [r.act, r.acts]
    exact old y w hw trig mem

theorem view_relisted {s t : State} {L : Addr → List TriggerPtr} (r : Relisted s t L) {V : View}
    (rest : V = { s.view with triggers := V.triggers })
    (lists : ∀ x v, s.sv? x = some v → V.triggers x = (L x).toFinset)
    (dead : ∀ x, s.sv? x = none → V.triggers x = ∅) : t.view = V := by
  have some' : ∀ y, (t.sv? y).isSome = (s.sv? y).isSome := by
    intro y
    have := congrArg Option.isSome (r.seen y)
    simpa [State.seen?] using this
  rw [rest]
  refine View.ext' r.now ?_ r.seen ?_ (fun a => ?_) (fun u => ?_) fun y => ?_
  · simp only [State.view, r.objs, some']
  · simp only [State.view, r.acts]
  · simp only [State.view, r.acts]
  · simp only [State.view, Table.get?, r.dom]
    split
    · exact congrArg some (congrFun r.act u)
    · rfl
  · simp only [State.view, some']
    cases hs : s.sv? y with
    | none => simp [dead y hs]
    | some v =>
        have : (t.sv? y).isSome := by rw [some', hs]; rfl
        obtain ⟨u, hu⟩ := Option.isSome_iff_exists.mp this
        simp [r.triggersOf hu, lists y v hs]

theorem sensitize_refines {sizes : QueueSizes} {s : State} {x : Addr} {v : Sv} {trig : TriggerPtr}
    (wf : WellFormed sizes s) (hv : s.sv? x = some v) (live : trig ∈ s.triggers.dom)
    (act : s.actOf trig ∈ s.acts.dom)
    (idle : ∀ y w, s.sv? y = some w → trig ∉ triggersOf s y) :
    ∃ t, ssmSvSensitize x trig s = .ok t ∧ WellFormed sizes t ∧
      t.view = s.view.sensitize x trig := by
  obtain ⟨t, run, r⟩ := ssmSvSensitize_spec wf.triggers.chain hv live idle
  refine ⟨t, run, wf.relisted r fun y w hw u hu => ?_, view_relisted r rfl (fun y w hw => ?_)
    fun y hy => ?_⟩
  · unfold sensitized at hu
    split at hu
    · rcases List.mem_cons.mp hu with rfl | hu
      · exact act
      · exact wf.triggers.act x v u hv hu
    · exact wf.triggers.act y w u hw hu
  · simp only [View.sensitize, sensitized]
    split
    · rename_i hyx
      subst hyx
      rw [view_triggers hv, List.toFinset_cons]
    · exact view_triggers hw
  · have : y ≠ x := by
      rintro rfl
      rw [hv] at hy
      cases hy
    simp [View.sensitize, this, State.view, hy]

theorem desensitize_refines {sizes : QueueSizes} {s : State} {x : Addr} {v : Sv}
    {trig : TriggerPtr} (wf : WellFormed sizes s) (hv : s.sv? x = some v)
    (listed : trig ∈ triggersOf s x) :
    ∃ t, ssmSvDesensitize trig s = .ok t ∧ WellFormed sizes t ∧
      t.view = s.view.desensitize trig := by
  obtain ⟨t, run, r⟩ := ssmSvDesensitize_spec wf.triggers.chain hv listed
  refine ⟨t, run, wf.relisted r fun y w hw u hu => ?_, view_relisted r rfl (fun y w hw => ?_)
    fun y hy => ?_⟩
  · unfold desensitized at hu
    split at hu
    · exact wf.triggers.act x v u hv (List.mem_of_mem_erase hu)
    · exact wf.triggers.act y w u hw hu
  · simp only [View.desensitize, desensitized]
    split
    · rename_i hyx
      subst hyx
      rw [view_triggers hv]
      ext u
      rw [Finset.mem_erase, List.mem_toFinset, List.mem_toFinset,
        (wf.triggers.chain y v hv).nodup.mem_erase_iff]
    · rename_i hyx
      rw [view_triggers hw, Finset.erase_eq_of_notMem]
      intro mem
      exact hyx ((wf.triggers.chain y w hw).disjoint (wf.triggers.chain x v hv)
        (List.mem_toFinset.mp mem) listed)
  · simp [View.desensitize, State.view, hy]

/-- A record with other fields; its priority and flag stay. -/
theorem WellFormed.setAct {sizes : QueueSizes} {s : State} {a : ActPtr} {r : Act}
    (wf : WellFormed sizes s) (live : a ∈ s.acts.dom)
    (priority : r.priority = (s.acts.val a).priority)
    (scheduled : r.scheduled = (s.acts.val a).scheduled) :
    WellFormed sizes (s.setAct a r) ∧ (s.setAct a r).view = s.view.mapRecord a fun _ => r := by
  have prios : (s.setAct a r).priorityAt = s.priorityAt := by
    funext b
    by_cases hb : b = a
    · subst hb
      simp [State.priorityAt, State.setAct, priority]
    · simp [State.priorityAt, State.setAct, Table.write_val_of_ne _ _ hb]
  have flags : ∀ b, (s.setAct a r).Scheduled b ↔ s.Scheduled b := by
    intro b
    by_cases hb : b = a
    · subst hb
      simp [State.Scheduled, State.setAct, scheduled]
    · simp [State.Scheduled, State.setAct, Table.write_val_of_ne _ _ hb]
  refine ⟨⟨wf.queue.congr rfl rfl fun _ => Iff.rfl, wf.order, wf.fits, wf.packed,
    ⟨wf.acts.len_le, wf.acts.nodup, fun b => ?_, ?_⟩,
    wf.triggers.congr rfl (fun _ u hu => ⟨u, hu, rfl⟩) rfl⟩, ?_⟩
  · rw [flags]
    exact wf.acts.mem b
  · rw [prios]
    exact wf.acts.ordered
  · refine View.ext' rfl rfl (fun _ => rfl) rfl (fun b => ?_) (fun _ => rfl) fun _ => rfl
    simp only [State.view, View.mapRecord]
    by_cases hb : b = a
    · subst hb
      simp [Table.get?, State.setAct, live]
    · simp [Table.get?, State.setAct, Table.write_val_of_ne _ _ hb, hb]

/-- Taking the next record from the activation queue. -/
theorem pop_refines {sizes : SafeSizes} {s : State} (wf : WellFormed sizes s)
    (busy : s.actQueueLen ≠ 0) :
    ∃ a t, tickPop s = .ok (a, t) ∧ s.Scheduled a ∧ WellFormed sizes t ∧
      t.view = s.view.pop a ∧ ∀ b, s.Scheduled b → s.priorityAt a ≤ s.priorityAt b := by
  obtain ⟨a, t, run, sched, acts, p, least⟩ := tickPop_spec wf.acts busy
  have svs : ∀ y, t.sv? y = s.sv? y := p.heap.sv?
  refine ⟨a, t, run, sched, ⟨p.heap.ok wf.queue, p.heap.ordered wf.order, ?_, fun y u hu => ?_,
    acts, ?_⟩, ?_, least⟩
  · rw [p.heap.eventQueueLen]
    exact wf.fits
  · rw [svs] at hu
    exact wf.packed y u hu
  · exact wf.triggers.congr p.heap.triggers (fun y u hu => ⟨u, by rwa [← svs], rfl⟩) p.dom
  · refine View.ext' p.heap.now ?_ (fun y => ?_) p.dom (fun b => ?_) (fun u => ?_) fun y => ?_
    · simp only [State.view, View.pop, View.mapRecord, svs, p.heap.objs]
    · simp only [State.view, View.pop, View.mapRecord, State.seen?, svs]
    · simp only [State.view, View.pop, View.mapRecord, Table.get?, p.dom]
      by_cases hb : b = a
      · subst hb
        simp [p.here, sched.1]
      · simp [p.other b hb, hb]
    · simp only [State.view, View.pop, View.mapRecord, p.heap.triggers]
    · simp only [State.view, View.pop, View.mapRecord, svs]
      split
      · rw [triggersOf_congr p.heap.triggers]
        simp [State.svAt, p.heap.objs]
      · rfl

end SsmRuntime
