import SsmRuntime.Actions
import SsmRuntime.Library.Agenda

/-!
The event queue as a map from variables to one pending entry each. Every
operation on the queue does to the map what it says, and the history of a run
accounts for every entry: scheduled, cancelled, overwritten or delivered.
-/
namespace SsmRuntime

open Agenda (Event)

/-- The map the event queue stands for: the entries of the variables in it. -/
def State.agenda (s : State) : Agenda Addr Value where
  now := s.now
  entry x := if x ∈ s.queued then some (s.laterTimeAt x, (s.svAt x).laterValue) else none

def Sv.entry (v : Sv) : Option (Nat × Value) :=
  if v.laterTime = ssmNever then none else some (v.laterTime, v.laterValue)

namespace View

/-- The same map, read from the variables. -/
def agenda (V : View) : Agenda Addr Value where
  now := V.now
  entry x := (V.var x).bind Sv.entry

theorem agenda_entry {V : View} {x : Addr} {t : Nat} {val : Value} :
    V.agenda.entry x = some (t, val) ↔
      ∃ v, V.var x = some v ∧ v.laterTime ≠ ssmNever ∧ v.laterTime = t ∧ v.laterValue = val := by
  rw [agenda, Option.bind_eq_some_iff]
  refine exists_congr fun v => and_congr_right fun _ => ?_
  unfold Sv.entry
  split
  · rename_i never
    simp [never]
  · rename_i some'
    simp [some']

theorem agenda_entry_of_var {V : View} {x : Addr} {v : Sv} (hv : V.var x = some v) :
    V.agenda.entry x = v.entry := by
  simp [agenda, hv]

theorem agenda_mapVar {V : View} {x : Addr} {f : Sv → Sv} {e : Option (Nat × Value)}
    (live : (V.var x).isSome) (new : ∀ v, V.var x = some v → (f v).entry = e) :
    (V.mapVar x f).agenda = V.agenda.set x e := by
  obtain ⟨v, hv⟩ := Option.isSome_iff_exists.mp live
  refine congrArg (Agenda.mk V.now) (funext fun y => ?_)
  by_cases same : y = x
  · subst same
    simp [mapVar, hv, agenda, new v hv]
  · simp [mapVar, agenda, same]

theorem agenda_mapVar_same (V : View) (x : Addr) {f : Sv → Sv}
    (same : ∀ v, (f v).entry = v.entry) : (V.mapVar x f).agenda = V.agenda := by
  refine congrArg (Agenda.mk V.now) (funext fun y => ?_)
  simp only [mapVar]
  split
  · rw [Option.bind_map]
    exact congrArg (Option.bind (V.var y)) (funext same)
  · rfl

theorem noneBefore_iff {V : View} : V.agenda.NoneBefore V.now ↔ V.NotLate := by
  constructor
  · intro h x v hv hne
    exact h x v.laterTime v.laterValue (agenda_entry.mpr ⟨v, hv, hne, rfl, rfl⟩)
  · intro h x t val entry
    obtain ⟨v, hv, hne, rfl, -⟩ := agenda_entry.mp entry
    exact h x v hv hne

end View

theorem view_agenda {s : State} (ok : EventQueueOk s) : s.view.agenda = s.agenda := by
  refine congrArg (Agenda.mk s.now) (funext fun x => ?_)
  by_cases queued : x ∈ s.queued
  · obtain ⟨v, hv, hne⟩ := (ok.mem x).mp queued
    rw [if_pos queued, view_var_of_sv? hv, State.laterTimeAt_of_sv? hv, State.svAt_of_sv? hv]
    exact if_neg hne
  · rw [if_neg queued]
    cases hs : s.sv? x with
    | none => simp [State.view, State.seen?, hs]
    | some v =>
        have never : v.laterTime = ssmNever := by
          by_contra hne
          exact queued ((ok.mem x).mpr ⟨v, hs, hne⟩)
        rw [view_var_of_sv? hs]
        exact if_pos never

theorem noneBefore_next {s : State} {sizes : QueueSizes} (wf : WellFormed sizes s) {t : Nat}
    (h : t ≤ ssmNextEventTime s) : s.view.agenda.NoneBefore t := by
  intro x time val entry
  obtain ⟨w, hw, hne, rfl, -⟩ := View.agenda_entry.mp entry
  obtain ⟨v, hv, rfl⟩ := State.seen?_eq_some.mp hw
  have := ssmNextEventTime_le wf.queue wf.order ⟨v, hv, hne⟩
  rw [State.laterTimeAt_of_sv? hv] at this
  exact Nat.le_trans h this

namespace Action

def events : Action → List (Event Addr Value)
  | later x when val => [.scheduled x when val]
  | unschedule x => [.cancelled x]
  | _ => []

/-- What an action does to the map. -/
theorem agenda_run {V : View} (c : Action) (ok : c.Admissible V) (timely : c.Timely V) :
    Agenda.Run V.agenda c.events (c.apply V).agenda := by
  cases c with
  | assign x prio val =>
      have same : (V.assign x prio val).agenda = V.agenda :=
        V.agenda_mapVar_same (f := fun v => { v with value := val, lastUpdated := V.now }) x
          fun _ => rfl
      rw [apply, same]
      exact .nil
  | later x when val =>
      have entry : (V.later x when val).agenda = V.agenda.set x (some (when, val)) :=
        View.agenda_mapVar ok.1 fun v _ => if_neg (Nat.ne_of_lt ok.2.2.2)
      rw [apply, entry]
      exact .cons .nil (.schedule x val timely)
  | unschedule x =>
      have entry : (V.unschedule x).agenda = V.agenda.set x none :=
        View.agenda_mapVar ok fun v _ => if_pos rfl
      rw [apply, entry]
      exact .cons .nil (.cancel x)
  | sensitize | desensitize | store => exact .nil

end Action

theorem agenda_update {V : View} {x : Addr} (live : (V.var x).isSome) :
    (V.update x).agenda = V.agenda.set x none :=
  View.agenda_mapVar live fun _ _ => if_pos rfl

inductive Moment where
  | call (c : Action)
  | setNow (next : Nat)
  | tickEnter
  | tickUpdate
  | tickPop

namespace Moment

def exec (sizes : QueueSizes) : Moment → State → Res
  | call c, s => c.exec sizes s
  | setNow next, s => ssmSetNow next s
  | tickEnter, s => SsmRuntime.tickEnter s
  | tickUpdate, s => SsmRuntime.tickUpdate sizes s
  | tickPop, s => do
      let (_, s) ← SsmRuntime.tickPop s
      .ok s

def Legal (s : State) : Moment → Prop
  | call c => c.Admissible s.view ∧ c.Timely s.view
  | setNow next => next ≤ ssmNever
  | tickEnter => True
  | tickUpdate => updateDue s
  | tickPop => s.actQueueLen ≠ 0

instance (s : State) : (m : Moment) → Decidable (m.Legal s)
  | call _ => inferInstanceAs (Decidable (_ ∧ _))
  | setNow next => inferInstanceAs (Decidable (next ≤ ssmNever))
  | tickEnter => inferInstanceAs (Decidable True)
  | tickUpdate => inferInstanceAs (Decidable (updateDue s))
  | tickPop => inferInstanceAs (Decidable (s.actQueueLen ≠ 0))

/-- What a moment that leads from a state to another adds to the history. -/
def events (s t : State) : Moment → List (Event Addr Value)
  | call c => c.events
  | setNow _ | tickEnter => [.advanced t.now]
  | tickUpdate => [.delivered (s.eventQueue 1) s.now (s.svAt (s.eventQueue 1)).laterValue]
  | tickPop => []

end Moment

/-- A run on packed values and its history, the latest event first. A tick
appears as its entry, its updates and its pops, with the calls of the step
functions between. -/
inductive Timeline (sizes : QueueSizes) (s₀ : State) : List (Event Addr Value) → State → Prop where
  | start : Timeline sizes s₀ [] s₀
  | step {h : List (Event Addr Value)} {s t : State} {m : Moment} : Timeline sizes s₀ h s →
      m.Legal s → m.exec sizes s = .ok t → Timeline sizes s₀ (m.events s t ++ h) t

section Timeline
variable {sizes : SafeSizes} {s₀ s t : State} {h : List (Event Addr Value)}

theorem noEntry_of_empty (wf : WellFormed sizes s) (empty : s.eventQueueLen = 0) (x : Addr) :
    s.view.agenda.entry x = none := by
  rw [view_agenda wf.queue]
  exact if_neg fun queued => wf.queue.empty_iff.mp empty x ((wf.queue.mem x).mp queued)

theorem noneBefore_of_empty (wf : WellFormed sizes s) (empty : s.eventQueueLen = 0) (t : Nat) :
    s.view.agenda.NoneBefore t := by
  intro x time val entry
  rw [noEntry_of_empty wf empty x] at entry
  cases entry

/-- Moving the clock on, to the next event at most. -/
theorem WellFormed.advance {next : Nat} (wf : WellFormed sizes s)
    (run : ssmSetNow next s = .ok t) :
    WellFormed sizes t ∧ Agenda.Run s.view.agenda [.advanced t.now] t.view.agenda := by
  obtain ⟨late, first, rfl⟩ := ssmSetNow_eq_ok run
  refine ⟨wf.setNow next, .cons .nil (.advance (Nat.le_of_lt late) ?_)⟩
  by_cases none : s.eventQueueLen = 0
  · exact noneBefore_of_empty wf none next
  · exact noneBefore_next wf (first none)

theorem Moment.agenda_run {m : Moment} (wf : WellFormed sizes s) (notLate : s.view.NotLate)
    (legal : m.Legal s) (run : m.exec sizes s = .ok t) :
    WellFormed sizes t ∧ Agenda.Run s.view.agenda (m.events s t) t.view.agenda := by
  cases m with
  | call c =>
      have spec := c.exec_computes wf legal.1
      unfold View.act at spec
      split at spec
      · obtain ⟨u, run', wf', shown⟩ := spec
        obtain rfl : u = t := Except.ok.inj (run'.symm.trans run)
        exact ⟨wf', shown ▸ c.agenda_run legal.1 legal.2⟩
      · obtain ⟨u, run'⟩ := spec
        exact absurd (run'.symm.trans run) (by simp)
  | setNow next => exact wf.advance run
  | tickEnter =>
      rcases tickEnter_eq_ok run with rfl | run
      · exact ⟨wf, .cons .nil (.advance (Nat.le_refl _) (View.noneBefore_iff.mpr notLate))⟩
      · exact wf.advance run
  | tickUpdate =>
      obtain ⟨v, hv, hne⟩ := wf.queue.pending_at (Nat.le_refl 1) legal.1
      have now : v.laterTime = s.now := State.laterTimeAt_of_sv? hv ▸ legal.2
      have spec := update_refines wf legal
      split at spec
      · obtain ⟨u, run', wf', shown, -⟩ := spec
        obtain rfl : u = t := Except.ok.inj (run'.symm.trans run)
        refine ⟨wf', ?_⟩
        rw [shown, agenda_update (view_var_isSome.mpr ⟨v, hv⟩), Moment.events,
          State.svAt_of_sv? hv]
        exact .cons .nil (.deliver (View.agenda_entry.mpr
          ⟨v.seen, view_var_of_sv? hv, hne, now, rfl⟩))
      · obtain ⟨u, run'⟩ := spec
        exact absurd (run'.symm.trans run) (by simp)
  | tickPop =>
      obtain ⟨a, u, run', -, wf', shown, -⟩ := pop_refines wf legal
      obtain ⟨⟨b, v⟩, popped, last⟩ := bind_eq_ok.mp run
      rw [run'] at popped
      cases popped
      cases last
      exact ⟨wf', by rw [shown]; exact .nil⟩

/-- A run from an empty queue is a run of the map it stands for. -/
theorem Timeline.agenda (run : Timeline sizes s₀ h s) (start : WellFormed sizes s₀)
    (empty : s₀.eventQueueLen = 0) :
    WellFormed sizes s ∧ s.view.NotLate ∧ Agenda.Run s₀.view.agenda h s.view.agenda := by
  have before := noneBefore_of_empty start empty s₀.now
  induction run with
  | start => exact ⟨start, View.noneBefore_iff.mp before, .nil⟩
  | step run legal done ih =>
      obtain ⟨wf, notLate, sofar⟩ := ih
      obtain ⟨wf', more⟩ := Moment.agenda_run wf notLate legal done
      have all := sofar.append more
      exact ⟨wf', View.noneBefore_iff.mp (all.noneBefore before).2, all⟩

theorem noneBefore_tickTime (wf : WellFormed sizes s) {x : Addr} {t : Nat} {val : Value}
    (entry : s.agenda.entry x = some (t, val)) : ssmNextEventTime s ≤ t :=
  noneBefore_next wf (Nat.le_refl _) x t val (by rwa [view_agenda wf.queue])

/-- A tick moves the time to that of the next event, delivers exactly the
entries with that time before any step function runs, and touches no other
variable; only a full activation queue stops it. -/
def TickDelivers (sizes : QueueSizes) (s : State) : Prop :=
  let now := ssmNextEventTime s
  (∃ t, (∀ steps fuel, ssmTick sizes steps fuel s = tickSteps steps fuel t) ∧ t.now = now ∧
    (∀ x val, s.agenda.entry x = some (now, val) → t.agenda.entry x = none ∧
      ∃ v, t.sv? x = some v ∧ v.value = val ∧ v.lastUpdated = now) ∧
    ∀ x, (∀ val, s.agenda.entry x ≠ some (now, val)) →
      t.agenda.entry x = s.agenda.entry x ∧ t.view.var x = s.view.var x) ∨
  sizes.act < (s.view.setNow now).heard.card ∧
    ∀ steps fuel, ∃ u, ssmTick sizes steps fuel s = .error ⟨.thrown .exhaustedActQueue, u⟩

theorem heard_of_idle (wf : WellFormed sizes s) (idle : s.actQueueLen = 0) (now : Nat) :
    (s.view.setNow now).scheduledSet ∪ (s.view.setNow now).heard = (s.view.setNow now).heard := by
  have none : (s.view.setNow now).scheduledSet = ∅ := by
    rw [← Finset.card_eq_zero]
    exact wf.card_scheduledSet.trans idle
  rw [none, Finset.empty_union]

theorem updates_var (V : View) (x : Addr) :
    V.updates.var x = if x ∈ V.due then (V.var x).map (View.deliver V.now) else V.var x := rfl

theorem updates_agenda {V : View} (live : V.Live) (x : Addr) :
    V.updates.agenda.entry x = if x ∈ V.due then none else V.agenda.entry x := by
  change (V.updates.var x).bind Sv.entry = _
  rw [updates_var]
  split
  · rename_i due
    obtain ⟨v, hv, -⟩ := (View.mem_due live).mp due
    rw [hv]
    show (View.deliver V.now v).entry = none
    exact if_pos rfl
  · rfl

theorem mem_due_setNow {now : Nat} {x : Addr} :
    x ∈ (s.view.setNow now).due ↔ ∃ val, s.view.agenda.entry x = some (now, val) := by
  rw [View.mem_due (V := s.view.setNow now) (view_live s)]
  constructor
  · rintro ⟨v, hv, time, hne⟩
    exact ⟨v.laterValue, View.agenda_entry.mpr ⟨v, hv, hne, time, rfl⟩⟩
  · rintro ⟨val, entry⟩
    obtain ⟨v, hv, hne, time, -⟩ := View.agenda_entry.mp entry
    exact ⟨v, hv, time, hne⟩

theorem tickDelivers_of_ahead (wf : WellFormed sizes s) (idle : s.actQueueLen = 0)
    (some' : s.eventQueueLen ≠ 0) (ahead : s.now < ssmNextEventTime s) :
    TickDelivers sizes s := by
  unfold TickDelivers
  generalize hnow : ssmNextEventTime s = now at *
  have enter : tickEnter s = .ok { s with now := now } :=
    hnow ▸ tickEnter_idle idle some' (hnow ▸ ahead)
  have spec := tickUpdates_refines s.eventQueueLen (wf.setNow now)
    (wf.notLate_setNow (Nat.le_of_eq hnow.symm)) (Nat.le_refl _)
  rw [view_setNow, heard_of_idle wf idle now] at spec
  split at spec
  · obtain ⟨t, run, wf', shown⟩ := spec
    have entries : ∀ x, t.agenda.entry x =
        if x ∈ (s.view.setNow now).due then none else s.agenda.entry x := by
      intro x
      rw [← view_agenda wf'.queue, shown, updates_agenda (V := s.view.setNow now) (view_live s),
        ← view_agenda wf.queue]
      rfl
    have vars : ∀ x, t.view.var x = if x ∈ (s.view.setNow now).due then
        (s.view.var x).map (View.deliver now) else s.view.var x := by
      intro x
      rw [shown]
      rfl
    refine Or.inl ⟨t, fun steps fuel => ?_, congrArg View.now shown, fun x val entry => ?_,
      fun x none => ?_⟩
    · rw [ssmTick, enter, ok_bind, run, ok_bind]
    · rw [← view_agenda wf.queue] at entry
      have due := mem_due_setNow.mpr ⟨val, entry⟩
      obtain ⟨w, hw, -, -, later⟩ := View.agenda_entry.mp entry
      have seen := vars x
      rw [if_pos due, hw, Option.map_some] at seen
      obtain ⟨v, hv, same⟩ := State.seen?_eq_some.mp seen
      have value := congrArg Sv.value same
      have updated := congrArg Sv.lastUpdated same
      exact ⟨by rw [entries, if_pos due], v, hv, value.trans later, updated⟩
    · have other : x ∉ (s.view.setNow now).due := fun due => by
        obtain ⟨val, entry⟩ := mem_due_setNow.mp due
        exact none val (view_agenda wf.queue ▸ entry)
      exact ⟨by rw [entries, if_neg other], by rw [vars, if_neg other]⟩
  · rename_i full
    obtain ⟨u, run⟩ := spec
    refine Or.inr ⟨Nat.lt_of_not_le full, fun steps fuel => ⟨u, ?_⟩⟩
    rw [ssmTick, enter, ok_bind, run, error_bind]

/-- The event queue is the map: each operation does to it what it says, and the
history accounts for every entry. -/
structure RefinesMap (sizes : QueueSizes) (h : List (Event Addr Value)) (s : State) : Prop where
  map : ∀ x, s.agenda.entry x = Agenda.outstanding x h
  later : ∀ x when val, (s.sv? x).isSome → ssmOnHeap val = false → s.now < when →
    when < ssmNever → (s.agenda.entry x = none → s.eventQueueLen < sizes.event) →
    ∃ t, ssmSvLaterUnsafe sizes x when val s = .ok t ∧ t.agenda = s.agenda.set x (some (when, val))
  unschedule : ∀ x, (s.sv? x).isSome → ∃ t, ssmUnschedule x s = .ok t ∧
    t.agenda = s.agenda.set x none ∧ (s.agenda.entry x = none → t = s)
  next : (∀ x t val, s.agenda.entry x = some (t, val) → ssmNextEventTime s ≤ t) ∧
    ((∃ x val, s.agenda.entry x = some (ssmNextEventTime s, val)) ∨
      (∀ x, s.agenda.entry x = none) ∧ ssmNextEventTime s = ssmNever)
  setNow : ∀ t, t ≤ ssmNever → ((∃ u, ssmSetNow t s = .ok u) ↔ s.now < t ∧ t ≤ ssmNextEventTime s)
  tick : s.actQueueLen = 0 → s.eventQueueLen ≠ 0 → s.now < ssmNextEventTime s →
    TickDelivers sizes s
  delivered : ∀ after before x t val, h = after ++ .delivered x t val :: before →
    Agenda.outstanding x before = some (t, val)
  once : ∀ x t val, h.count (.delivered x t val) ≤ h.count (.scheduled x t val)
  inOrder : (Agenda.deliveries h).Pairwise (· ≥ ·)
  kept : ∀ after before x t val, h = after ++ .scheduled x t val :: before →
    (∀ e ∈ after, ¬ Agenda.Ends x e) → s.agenda.entry x = some (t, val) ∧ s.now ≤ t

theorem ssmUnschedule_of_idle {x : Addr} (wf : WellFormed sizes s) (live : (s.sv? x).isSome)
    (none : s.agenda.entry x = none) : ssmUnschedule x s = .ok s := by
  obtain ⟨v, hv⟩ := Option.isSome_iff_exists.mp live
  have never : v.laterTime = ssmNever := by
    by_contra hne
    have entry : s.agenda.entry x = some (v.laterTime, v.laterValue) := by
      rw [← view_agenda wf.queue]
      exact View.agenda_entry.mpr ⟨v.seen, view_var_of_sv? hv, hne, rfl, rfl⟩
    rw [none] at entry
    cases entry
  rw [ssmUnschedule, State.loadSv_of_sv? hv, ok_bind, if_pos never]

theorem later_agenda {x : Addr} {when : Nat} {val : Value} (wf : WellFormed sizes s)
    (live : (s.sv? x).isSome) (packed : ssmOnHeap val = false) (late : s.now < when)
    (soon : when < ssmNever) (room : s.agenda.entry x = none → s.eventQueueLen < sizes.event) :
    ∃ t, ssmSvLaterUnsafe sizes x when val s = .ok t ∧
      t.agenda = s.agenda.set x (some (when, val)) := by
  obtain ⟨v, hv⟩ := Option.isSome_iff_exists.mp live
  have var : (s.view.var x).isSome := view_var_isSome.mpr ⟨v, hv⟩
  have spec := later_refines wf hv (Nat.le_of_lt late) (Nat.ne_of_lt soon) packed
  split at spec
  · rename_i full
    have none : s.agenda.entry x = none := by
      rw [← view_agenda wf.queue, View.agenda_entry_of_var (view_var_of_sv? hv)]
      exact if_pos full.1
    have := room none
    omega
  · obtain ⟨t, run, wf', shown⟩ := spec
    refine ⟨t, run, ?_⟩
    rw [← view_agenda wf'.queue, ← view_agenda wf.queue, shown]
    exact View.agenda_mapVar var fun v _ => if_neg (Nat.ne_of_lt soon)

theorem unschedule_agenda {x : Addr} (wf : WellFormed sizes s) (live : (s.sv? x).isSome) :
    ∃ t, ssmUnschedule x s = .ok t ∧ t.agenda = s.agenda.set x none := by
  obtain ⟨v, hv⟩ := Option.isSome_iff_exists.mp live
  obtain ⟨t, run, wf', shown⟩ := unschedule_refines wf hv
  refine ⟨t, run, ?_⟩
  rw [← view_agenda wf'.queue, ← view_agenda wf.queue, shown]
  exact View.agenda_mapVar (view_var_isSome.mpr ⟨v, hv⟩) fun _ _ => if_pos rfl

theorem next_attained (wf : WellFormed sizes s) :
    (∃ x val, s.agenda.entry x = some (ssmNextEventTime s, val)) ∨
      (∀ x, s.agenda.entry x = none) ∧ ssmNextEventTime s = ssmNever := by
  by_cases none : s.eventQueueLen = 0
  · refine Or.inr ⟨fun x => if_neg fun queued => ?_, by rw [ssmNextEventTime, if_pos none]⟩
    exact wf.queue.empty_iff.mp none x ((wf.queue.mem x).mp queued)
  · obtain ⟨x, pend, next⟩ := ssmNextEventTime_attained wf.queue none
    exact Or.inl ⟨x, _, by rw [next]; exact if_pos ((wf.queue.mem x).mpr pend)⟩

theorem ssmSetNow_iff {t : Nat} (soon : t ≤ ssmNever) :
    (∃ u, ssmSetNow t s = .ok u) ↔ s.now < t ∧ t ≤ ssmNextEventTime s := by
  constructor
  · rintro ⟨u, run⟩
    obtain ⟨late, before, -⟩ := ssmSetNow_eq_ok run
    refine ⟨late, ?_⟩
    by_cases none : s.eventQueueLen = 0
    · rwa [ssmNextEventTime, if_pos none]
    · exact before none
  · rintro ⟨late, before⟩
    exact ⟨_, ssmSetNow_ok late fun _ => before⟩

/-- In every run from an empty queue the event queue is the map. -/
theorem eventQueue_refines_map (start : WellFormed sizes s₀) (empty : s₀.eventQueueLen = 0)
    (run : Timeline sizes s₀ h s) : RefinesMap sizes h s := by
  obtain ⟨wf, notLate, sofar⟩ := run.agenda start empty
  have shown := view_agenda wf.queue
  have before := noneBefore_of_empty start empty s₀.now
  have none := noEntry_of_empty start empty
  refine
    { map := fun x => shown ▸ sofar.outstanding none x
      later := fun x when val live packed late soon room =>
        later_agenda wf live packed late soon room
      unschedule := fun x live => ?_
      next := ⟨fun x t val entry => noneBefore_tickTime wf entry, next_attained wf⟩
      setNow := fun t soon => ssmSetNow_iff soon
      tick := fun idle some' ahead => tickDelivers_of_ahead wf idle some' ahead
      delivered := ?_
      once := fun x t val => ?_
      inOrder := sofar.deliveries_sorted before
      kept := ?_ }
  · obtain ⟨t, done, entry⟩ := unschedule_agenda wf live
    refine ⟨t, done, entry, fun idle => ?_⟩
    exact Except.ok.inj (done.symm.trans (ssmUnschedule_of_idle wf live idle))
  · rintro after earlier x t val rfl
    exact sofar.delivered none
  · have := sofar.count_delivered none x t val
    omega
  · rintro after earlier x t val rfl ends
    have entry := sofar.outstanding none x
    rw [Agenda.outstanding_of_kept after earlier ends] at entry
    refine ⟨shown ▸ entry, ?_⟩
    exact View.noneBefore_iff.mpr notLate x t val entry

end Timeline

/-- Play a list of moments as long as each is legal and throws nothing. -/
def playMoments (sizes : QueueSizes) :
    List Moment → List (Event Addr Value) → State → Option (List (Event Addr Value) × State)
  | [], h, s => some (h, s)
  | m :: ms, h, s =>
      if m.Legal s then
        match m.exec sizes s with
        | .ok t => playMoments sizes ms (m.events s t ++ h) t
        | .error _ => none
      else none

theorem Timeline.of_play {sizes : QueueSizes} {s₀ s t : State} {ms : List Moment}
    {h k : List (Event Addr Value)} (run : Timeline sizes s₀ h s)
    (play : playMoments sizes ms h s = some (k, t)) : Timeline sizes s₀ k t := by
  induction ms generalizing h s with
  | nil =>
      cases play
      exact run
  | cons m ms ih =>
      rw [playMoments] at play
      split at play
      · rename_i legal
        split at play
        · rename_i u done
          exact ih (run.step legal done) play
        · cases play
      · cases play

/-- Three idle variables and one record. -/
def threeVars : State :=
  State.idle {1, 2, 3} {0} (fun _ => ⟨0, 0, 0, 0, 1, 0, false, []⟩) ∅ fun _ => 0

/-- Events that are rescheduled, unscheduled and delivered at equal times. -/
def reschedulesAndDelivers : List Moment :=
  [.call (.later 1 30 (.packed 7)), .call (.later 2 10 (.packed 8)),
    .call (.later 3 10 (.packed 9)), .call (.later 1 10 (.packed 5)), .call (.unschedule 3),
    .tickEnter, .tickUpdate, .tickUpdate, .call (.later 2 40 (.packed 1))]

theorem eventQueue_refines_map_delivers :
    ∃ h s, playMoments defaultSafeSizes reschedulesAndDelivers [] threeVars = some (h, s) ∧
      Agenda.deliveries h = [10, 10] ∧ RefinesMap defaultSafeSizes h s := by
  have ends : (playMoments defaultSafeSizes reschedulesAndDelivers [] threeVars).any
      (fun r => Agenda.deliveries r.1 = [10, 10]) = true := by decide +kernel
  obtain ⟨⟨h, s⟩, last, times⟩ := (Option.any_eq_true _ _).mp ends
  refine ⟨h, s, last, of_decide_eq_true times, ?_⟩
  exact eventQueue_refines_map (State.idle_wellFormed _ _ _ _ _ _) rfl (.of_play .start last)

/-- Setting the time to that of the next event leaves a state in which a tick
without records to run cannot advance. -/
theorem not_tickDelivers : ¬ ∀ s₀ h s, WellFormed defaultSafeSizes s₀ → s₀.eventQueueLen = 0 →
    Timeline defaultSafeSizes s₀ h s → s.actQueueLen = 0 → s.eventQueueLen ≠ 0 →
      TickDelivers defaultSafeSizes s := by
  intro all
  have ends : (playMoments defaultSafeSizes [.call (.later 1 10 (.packed 7)), .setNow 10] []
      threeVars).any (fun r => r.2.actQueueLen = 0 ∧ r.2.eventQueueLen ≠ 0 ∧
        ssmNextEventTime r.2 ≤ r.2.now) = true := by decide +kernel
  obtain ⟨⟨h, s⟩, last, late⟩ := (Option.any_eq_true _ _).mp ends
  obtain ⟨idle, some', late⟩ := of_decide_eq_true late
  have stuck : tickEnter s = .error ⟨.thrown .invalidTime, s⟩ := by
    rw [tickEnter, if_neg fun h => h.1 idle, if_pos ⟨idle, Nat.pos_of_ne_zero some'⟩, ssmSetNow,
      if_pos late]
    rfl
  have throws : ∀ steps fuel, ssmTick defaultSafeSizes steps fuel s =
      .error ⟨.thrown .invalidTime, s⟩ := fun steps fuel => by rw [ssmTick, stuck, error_bind]
  rcases all threeVars h s (State.idle_wellFormed _ _ _ _ _ _) rfl (.of_play .start last) idle
    some' with ⟨t, run, -⟩ | ⟨-, full⟩
  · have := run (fun _ _ u => .ok u) 0
    rw [throws, tickSteps] at this
    split at this
    · cases this
    · cases this
  · obtain ⟨u, run⟩ := full (fun _ _ u => .ok u) 0
    rw [throws] at run
    cases run

end SsmRuntime
