import Mathlib.Data.Finset.Union
import SsmRuntime.Refinement

/-!
The first loop of the tick. One iteration updates the variable at the root;
the whole loop updates every variable that is due now, in an order that only
the layout of the heap decides, and its effect does not depend on that order.
-/
namespace SsmRuntime

namespace View

/-- The variables whose pending event is for now. -/
def due (V : View) : Finset Addr :=
  V.vars.filter fun x => ∃ v ∈ V.var x, v.laterTime = V.now ∧ v.laterTime ≠ ssmNever

/-- The records that listen to a variable that is due. -/
def heard (V : View) : Finset ActPtr := V.due.biUnion fun x => V.listeners x fun _ => true

/-- Every variable that is due takes its pending value. -/
def deliverDue (V : View) : View :=
  { V with var := fun x => if x ∈ V.due then (V.var x).map (deliver V.now) else V.var x }

/-- All updates that are due, at once. -/
def updates (V : View) : View := V.deliverDue.wake V.heard

/-- No pending event lies in the past. -/
def NotLate (V : View) : Prop :=
  ∀ x, ∀ v ∈ V.var x, v.laterTime ≠ ssmNever → V.now ≤ v.laterTime

/-- The live variables are those that can be read. -/
def Live (V : View) : Prop := ∀ x, x ∈ V.vars ↔ (V.var x).isSome

/-- The records told are those that can be read. -/
def Recorded (V : View) : Prop := ∀ a, a ∈ V.records ↔ (V.record a).isSome

theorem wake_empty (V : View) : V.wake ∅ = V := by
  refine ext' rfl rfl (fun _ => rfl) rfl (fun a => ?_) (fun _ => rfl) fun _ => rfl
  cases h : V.record a with
  | none => simp [wake, h]
  | some r => simp [wake, h]

theorem wake_wake (V : View) (A B : Finset ActPtr) : (V.wake A).wake B = V.wake (A ∪ B) := by
  refine ext' rfl rfl (fun _ => rfl) rfl (fun a => ?_) (fun _ => rfl) fun _ => rfl
  cases h : V.record a with
  | none => simp [wake, h]
  | some r => simp [wake, h, Bool.or_assoc]

theorem mem_scheduledSet {V : View} {a : ActPtr} :
    a ∈ V.scheduledSet ↔ a ∈ V.records ∧ ∃ r, V.record a = some r ∧ r.scheduled = true := by
  rw [scheduledSet, Finset.mem_filter]
  rfl

theorem mem_listeners {V : View} {x : Addr} {wakes : Nat → Bool} {a : ActPtr} :
    a ∈ V.listeners x wakes ↔ a ∈ V.records ∧ (∃ t ∈ V.triggers x, V.trigger t = some a) ∧
      ∃ r, V.record a = some r ∧ wakes r.priority = true := by
  rw [listeners, Finset.mem_filter]
  rfl

theorem wake_record {V : View} {A : Finset ActPtr} {a : ActPtr} {r : Act} :
    (V.wake A).record a = some r ↔
      ∃ r', V.record a = some r' ∧ { r' with scheduled := r'.scheduled || decide (a ∈ A) } = r :=
  Option.map_eq_some_iff

theorem listeners_wake (V : View) (A : Finset ActPtr) (x : Addr) (wakes : Nat → Bool) :
    (V.wake A).listeners x wakes = V.listeners x wakes := by
  ext a
  rw [mem_listeners, mem_listeners]
  refine and_congr_right fun _ => and_congr_right fun _ => ⟨?_, ?_⟩
  · rintro ⟨r, hr, up⟩
    obtain ⟨r', hr', rfl⟩ := wake_record.mp hr
    exact ⟨r', hr', up⟩
  · rintro ⟨r, hr, up⟩
    exact ⟨_, wake_record.mpr ⟨r, hr, rfl⟩, up⟩

theorem listeners_subset (V : View) (x : Addr) (wakes : Nat → Bool) :
    V.listeners x wakes ⊆ V.records := Finset.filter_subset _ _

theorem heard_subset (V : View) : V.heard ⊆ V.records :=
  Finset.biUnion_subset.mpr fun x _ => V.listeners_subset x _

theorem scheduledSet_wake {V : View} (recorded : V.Recorded) {A : Finset ActPtr}
    (known : A ⊆ V.records) : (V.wake A).scheduledSet = V.scheduledSet ∪ A := by
  ext a
  rw [Finset.mem_union, mem_scheduledSet, mem_scheduledSet]
  constructor
  · rintro ⟨ha, r, hr, up⟩
    obtain ⟨r', hr', rfl⟩ := wake_record.mp hr
    rcases (Bool.or_eq_true _ _).mp up with up | up
    · exact Or.inl ⟨ha, r', hr', up⟩
    · exact Or.inr (of_decide_eq_true up)
  · rintro (⟨ha, r, hr, up⟩ | ha)
    · exact ⟨ha, _, wake_record.mpr ⟨r, hr, rfl⟩, by simp [up]⟩
    · obtain ⟨r, hr⟩ := Option.isSome_iff_exists.mp ((recorded a).mp (known ha))
      exact ⟨known ha, _, wake_record.mpr ⟨r, hr, rfl⟩, by simp [ha]⟩

theorem mem_due {V : View} (live : V.Live) {x : Addr} :
    x ∈ V.due ↔ ∃ v, V.var x = some v ∧ v.laterTime = V.now ∧ v.laterTime ≠ ssmNever := by
  rw [due, Finset.mem_filter, live]
  constructor
  · rintro ⟨-, v, hv, h⟩
    exact ⟨v, hv, h⟩
  · rintro ⟨v, hv, h⟩
    exact ⟨by simp [hv], v, hv, h⟩

theorem update_var (V : View) (x y : Addr) :
    (V.update x).var y = if y = x then (V.var y).map (deliver V.now) else V.var y := rfl

theorem Live.update {V : View} (live : V.Live) (x : Addr) : (V.update x).Live := by
  intro y
  rw [update_var]
  refine (live y).trans ?_
  split
  · simp
  · rfl

theorem due_update {V : View} (live : V.Live) (x : Addr) : (V.update x).due = V.due.erase x := by
  ext y
  rw [mem_due (live.update x), Finset.mem_erase, mem_due live, update_var]
  by_cases hy : y = x
  · subst hy
    simp only [if_true, ne_eq, not_true, false_and, iff_false]
    rintro ⟨v, hv, -, hne⟩
    obtain ⟨u, -, rfl⟩ := Option.map_eq_some_iff.mp hv
    exact hne rfl
  · simp only [ne_eq, hy, not_false_eq_true, true_and]
    rfl

/-- Those heard are the listeners of one due variable and those heard after its update. -/
theorem heard_eq {V : View} (live : V.Live) {x : Addr} (hx : x ∈ V.due) :
    V.heard = V.listeners x (fun _ => true) ∪ (V.update x).heard := by
  have rest : (V.update x).heard =
      (V.due.erase x).biUnion fun y => V.listeners y fun _ => true := by
    rw [heard, due_update live]
    refine Finset.biUnion_congr rfl fun y _ => ?_
    rw [View.update, listeners_wake, listeners_mapVar]
  rw [rest, heard]
  conv_lhs => rw [← Finset.insert_erase hx]
  exact Finset.biUnion_insert

theorem deliverDue_update {V : View} (live : V.Live) {x : Addr} (hx : x ∈ V.due) :
    (V.update x).deliverDue = V.deliverDue.wake (V.listeners x fun _ => true) := by
  refine ext' rfl rfl (fun y => ?_) rfl (fun _ => rfl) (fun _ => rfl) fun _ => rfl
  simp only [deliverDue, due_update live, Finset.mem_erase, update_var, wake]
  by_cases hy : y = x
  · subst hy
    simp [hx]
  · simp [hy, View.update, wake, mapVar]

/-- Updating a due variable first makes no difference to what all updates do. -/
theorem updates_update {V : View} (live : V.Live) {x : Addr} (hx : x ∈ V.due) :
    (V.update x).updates = V.updates := by
  rw [updates, updates, deliverDue_update live hx, wake_wake, ← heard_eq live hx]

theorem NotLate.update {V : View} (h : V.NotLate) (x : Addr) : (V.update x).NotLate := by
  intro y v hv hne
  rw [update_var] at hv
  split at hv
  · obtain ⟨u, -, rfl⟩ := Option.map_eq_some_iff.mp hv
    exact absurd rfl hne
  · exact h y v hv hne

theorem updates_of_none {V : View} (none : V.due = ∅) : V.updates = V := by
  have heard' : V.heard = ∅ := by rw [heard, none, Finset.biUnion_empty]
  rw [updates, heard', wake_empty]
  exact ext' rfl rfl (fun x => by simp [deliverDue, none]) rfl (fun _ => rfl) (fun _ => rfl)
    fun _ => rfl

end View

theorem view_live (s : State) : s.view.Live := by
  intro x
  simp only [State.view, State.seen?, Finset.mem_filter, Option.isSome_map]
  refine ⟨And.right, fun h => ⟨?_, h⟩⟩
  obtain ⟨v, hv⟩ := Option.isSome_iff_exists.mp h
  exact (State.sv?_eq_some.mp hv).1

theorem view_recorded (s : State) : s.view.Recorded := by
  intro a
  simp only [State.view, Table.get?]
  split
  · rename_i h
    simp [h]
  · rename_i h
    simp [h]

theorem view_var_of_sv? {s : State} {x : Addr} {v : Sv} (h : s.sv? x = some v) :
    s.view.var x = some v.seen := seen?_of_sv? h

theorem view_notLate {s : State} :
    s.view.NotLate ↔ ∀ x, s.Pending x → s.now ≤ s.laterTimeAt x := by
  constructor
  · rintro h x ⟨v, hv, hne⟩
    rw [State.laterTimeAt_of_sv? hv]
    exact h x v.seen (view_var_of_sv? hv) hne
  · intro h x w hw hne
    obtain ⟨v, hv, rfl⟩ := State.seen?_eq_some.mp hw
    have := h x ⟨v, hv, hne⟩
    rwa [State.laterTimeAt_of_sv? hv] at this

/-- While no event is late, the root is due as soon as any variable is. -/
theorem WellFormed.due_empty {sizes : QueueSizes} {s : State} (wf : WellFormed sizes s)
    (notLate : s.view.NotLate) (h : ¬ updateDue s) : s.view.due = ∅ := by
  rw [Finset.eq_empty_iff_forall_notMem]
  intro x hx
  obtain ⟨w, hw, now, hne⟩ := (View.mem_due (view_live s)).mp hx
  obtain ⟨v, hv, rfl⟩ := State.seen?_eq_some.mp hw
  have pend : s.Pending x := ⟨v, hv, hne⟩
  obtain ⟨i, h1, hn, -⟩ := wf.queue.pos_of_pending pend
  have root := ssmNextEventTime_le wf.queue wf.order pend
  rw [ssmNextEventTime, if_neg (by omega), State.laterTimeAt_of_sv? hv] at root
  have early := view_notLate.mp notLate _ (wf.queue.pending_at (Nat.le_refl 1) (by omega))
  have time : v.laterTime = s.now := now
  exact h ⟨by omega, by omega⟩

theorem WellFormed.root_due {sizes : QueueSizes} {s : State} (wf : WellFormed sizes s)
    (h : updateDue s) : s.eventQueue 1 ∈ s.view.due := by
  obtain ⟨pos, now⟩ := h
  obtain ⟨v, hv, hne⟩ := wf.queue.pending_at (Nat.le_refl 1) pos
  rw [State.laterTimeAt_of_sv? hv] at now
  exact (View.mem_due (view_live s)).mpr ⟨v.seen, view_var_of_sv? hv, now, hne⟩

theorem tickUpdates_idle {sizes : SafeSizes} (n : Nat) {s : State} (wf : WellFormed sizes s)
    (notLate : s.view.NotLate) (notDue : ¬ updateDue s) :
    tickUpdates sizes n s = .ok s ∧ s.view.updates = s.view ∧
      s.view.scheduledSet ∪ s.view.heard = s.view.scheduledSet := by
  have none := wf.due_empty notLate notDue
  refine ⟨?_, View.updates_of_none none, ?_⟩
  · cases n with
    | zero => rw [tickUpdates, if_neg notDue]
    | succ n => rw [tickUpdates, if_neg notDue]
  · rw [View.heard, none, Finset.biUnion_empty, Finset.union_empty]

theorem WellFormed.card_scheduledSet {sizes : QueueSizes} {s : State} (wf : WellFormed sizes s) :
    s.view.scheduledSet.card = s.actQueueLen := by
  rw [view_scheduledSet, wf.acts.card]

theorem scheduledSet_update (s : State) (x : Addr) :
    (s.view.update x).scheduledSet =
      s.view.scheduledSet ∪ s.view.listeners x fun _ => true :=
  View.scheduledSet_wake (V := s.view.mapVar x (View.deliver s.view.now)) (view_recorded s)
    (View.listeners_subset s.view x _)

/-- The first loop of the tick: it ends, and does all updates that are due. -/
theorem tickUpdates_refines {sizes : SafeSizes} (n : Nat) {s : State} (wf : WellFormed sizes s)
    (notLate : s.view.NotLate) (enough : s.eventQueueLen ≤ n) :
    if (s.view.scheduledSet ∪ s.view.heard).card ≤ sizes.act then
      ∃ t, tickUpdates sizes n s = .ok t ∧ WellFormed sizes t ∧ t.view = s.view.updates
    else ∃ u, tickUpdates sizes n s = .error ⟨.thrown .exhaustedActQueue, u⟩ := by
  induction n generalizing s with
  | zero =>
      have notDue : ¬ updateDue s := fun h => by
        have := h.1
        omega
      obtain ⟨run, shown, none⟩ := tickUpdates_idle 0 wf notLate notDue
      rw [none, wf.card_scheduledSet, if_pos wf.acts.len_le]
      exact ⟨s, run, wf, shown.symm⟩
  | succ n ih =>
      by_cases due : updateDue s
      · have first := wf.root_due due
        generalize hx : s.eventQueue 1 = x at first
        have step := update_refines wf due
        rw [hx] at step
        rw [tickUpdates, if_pos due, View.heard_eq (view_live s) first, ← Finset.union_assoc]
        split at step
        · obtain ⟨t, run, wf', shown, len⟩ := step
          have rest := ih wf' (by rw [shown]; exact notLate.update x) (by omega)
          rw [shown, scheduledSet_update, View.updates_update (view_live s) first] at rest
          rw [run, ok_bind]
          exact rest
        · rename_i full
          obtain ⟨u, run⟩ := step
          rw [if_neg fun room => full (Nat.le_trans (Finset.card_le_card
            Finset.subset_union_left) room)]
          exact ⟨u, by rw [run, error_bind]⟩
      · obtain ⟨run, shown, none⟩ := tickUpdates_idle (n + 1) wf notLate due
        rw [none, wf.card_scheduledSet, if_pos wf.acts.len_le]
        exact ⟨s, run, wf, shown.symm⟩

/-- A tick can be entered: no event is late, and if no record is scheduled the
events lie ahead. -/
def View.Ready (V : View) : Prop :=
  V.NotLate ∧ (V.scheduledSet = ∅ →
    ∀ x, ∀ v ∈ V.var x, v.laterTime ≠ ssmNever → V.now < v.laterTime)

theorem ssmNextEventTime_ne {sizes : QueueSizes} {s : State} (wf : WellFormed sizes s)
    (h : s.eventQueueLen ≠ 0) : ssmNextEventTime s ≠ ssmNever := by
  obtain ⟨x, pend, next⟩ := ssmNextEventTime_attained wf.queue h
  rw [next]
  exact pend.laterTimeAt_ne

/-- With records to run the time stays; there is nothing it could have missed. -/
theorem tickEnter_busy {sizes : QueueSizes} {s : State} (wf : WellFormed sizes s)
    (notLate : s.view.NotLate) (busy : s.actQueueLen ≠ 0) : tickEnter s = .ok s := by
  have fine : ¬ (s.actQueueLen ≠ 0 ∧ ssmNextEventTime s ≠ ssmNever ∧
      ssmNextEventTime s < s.now) := by
    rintro ⟨-, never, late⟩
    have some' : s.eventQueueLen ≠ 0 := fun h => never (by rw [ssmNextEventTime, if_pos h])
    obtain ⟨x, pend, next⟩ := ssmNextEventTime_attained wf.queue some'
    have := view_notLate.mp notLate x pend
    omega
  rw [tickEnter, if_neg fine, if_neg fun h => busy h.1]

theorem ssmSetNow_ok {s : State} {next : Nat} (late : s.now < next)
    (first : s.eventQueueLen ≠ 0 → next ≤ ssmNextEventTime s) :
    ssmSetNow next s = .ok { s with now := next } := by
  have fine : ¬ (s.eventQueueLen ≠ 0 ∧ s.laterTimeAt (s.eventQueue 1) < next) := by
    rintro ⟨some', early⟩
    have := first some'
    rw [ssmNextEventTime, if_neg some'] at this
    omega
  rw [ssmSetNow, if_neg (by omega), if_neg fine]

/-- With no record to run the time moves on to the next event. -/
theorem tickEnter_idle {s : State} (idle : s.actQueueLen = 0) (some' : s.eventQueueLen ≠ 0)
    (late : s.now < ssmNextEventTime s) :
    tickEnter s = .ok { s with now := ssmNextEventTime s } := by
  rw [tickEnter, if_neg fun h => h.1 idle, if_pos ⟨idle, Nat.pos_of_ne_zero some'⟩]
  exact ssmSetNow_ok late fun _ => Nat.le_refl _

theorem tickEnter_quiet {s : State} (idle : s.actQueueLen = 0) (none : s.eventQueueLen = 0) :
    tickEnter s = .ok s := by
  rw [tickEnter, if_neg fun h => h.1 idle, if_neg fun h => by omega]

theorem WellFormed.setNow {sizes : QueueSizes} {s : State} (wf : WellFormed sizes s) (now : Nat) :
    WellFormed sizes { s with now := now } :=
  ⟨wf.queue.congr rfl rfl fun _ => Iff.rfl, wf.order, wf.fits, wf.packed,
    wf.acts.of_acts rfl rfl rfl, wf.triggers.congr rfl (fun _ u hu => ⟨u, hu, rfl⟩) rfl⟩

theorem view_setNow (s : State) (now : Nat) :
    State.view { s with now := now } = s.view.setNow now := rfl

theorem WellFormed.notLate_setNow {sizes : QueueSizes} {s : State} (wf : WellFormed sizes s)
    {now : Nat} (h : now ≤ ssmNextEventTime s) : (s.view.setNow now).NotLate := by
  rw [← view_setNow]
  refine view_notLate.mpr fun x pend => ?_
  have := ssmNextEventTime_le wf.queue wf.order (a := x) pend
  exact Nat.le_trans h this

/-- The time at which the next instant takes place. -/
def tickTime (s : State) : Nat :=
  if s.actQueueLen = 0 ∧ s.eventQueueLen ≠ 0 then ssmNextEventTime s else s.now

theorem tickEnter_ready {sizes : QueueSizes} {s : State} (wf : WellFormed sizes s)
    (ready : s.view.Ready) :
    tickEnter s = .ok { s with now := tickTime s } ∧ (s.view.setNow (tickTime s)).NotLate := by
  unfold tickTime
  by_cases idle : s.actQueueLen = 0
  · by_cases none : s.eventQueueLen = 0
    · rw [if_neg fun h => h.2 none]
      exact ⟨tickEnter_quiet idle none, ready.1⟩
    · rw [if_pos ⟨idle, none⟩]
      refine ⟨tickEnter_idle idle none ?_, wf.notLate_setNow (Nat.le_refl _)⟩
      have empty : s.view.scheduledSet = ∅ := by
        rw [← Finset.card_eq_zero, wf.card_scheduledSet, idle]
      obtain ⟨x, ⟨v, hv, hne⟩, next⟩ := ssmNextEventTime_attained wf.queue none
      rw [next, State.laterTimeAt_of_sv? hv]
      exact ready.2 empty x v.seen (view_var_of_sv? hv) hne
  · rw [if_neg fun h => idle h.1]
    exact ⟨tickEnter_busy wf ready.1 idle, ready.1⟩

end SsmRuntime
