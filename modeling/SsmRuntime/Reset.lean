import SsmRuntime.TickLoop

/-!
`ssm_reset`. It empties both queues and leaves alone the fields by which the
variables and records tell that they are queued. So it gives a new scheduler
exactly if nothing was queued; otherwise the fields point at entries that are
no longer there.
-/
namespace SsmRuntime

open Agenda (Event)

/-- Neither queue has an entry. -/
def State.Quiet (s : State) : Prop := s.eventQueueLen = 0 ∧ s.actQueueLen = 0

def Obj.idle : Obj → Obj
  | ⟨n, .sv v⟩ => ⟨n, .sv { v with laterTime := ssmNever }⟩
  | o => o

/-- A newly started scheduler on the variables and records that are alive. -/
def State.restarted (s : State) : State :=
  { s with
    objs := ⟨s.objs.dom, fun x => if x ∈ s.objs.dom then (s.objs.val x).idle else s.objs.val x⟩
    acts := ⟨s.acts.dom, fun a =>
      if a ∈ s.acts.dom then { s.acts.val a with scheduled := false } else s.acts.val a⟩
    now := 0
    eventQueueLen := 0
    actQueueLen := 0 }

inductive SchedCall where
  | later (var : Addr) (when : Nat) (val : Value)
  | unschedule (var : Addr)
  | activate (act : ActPtr)
  | tick (fuel : Nat)

namespace SchedCall

def exec (sizes : QueueSizes) (steps : Steps) : SchedCall → State → Res
  | later var when val, s => ssmLater sizes var when val s
  | unschedule var, s => ssmUnschedule var s
  | activate act, s => ssmActivate sizes act s
  | tick fuel, s => ssmTick sizes steps fuel s

/-- Live arguments and events strictly ahead, also in the step functions of a tick. -/
def Legal (sizes : QueueSizes) (prog : Program) (s : State) : SchedCall → Prop
  | later var when val => Punctual s.view (.later var when val)
  | unschedule var => Punctual s.view (.unschedule var)
  | activate act => act ∈ s.acts.dom
  | tick fuel => Heeds Punctual prog (ssmTickCalls sizes (prog.steps sizes) fuel s)

/-- What a call adds to the history, the latest first. -/
def events (sizes : QueueSizes) (prog : Program) (s : State) : SchedCall → List (Event Addr Value)
  | later var when val => [.scheduled var when val]
  | unschedule var => [.cancelled var]
  | activate _ => []
  | tick fuel => tickEvents sizes prog fuel s

/-- The records activated since the last tick, after a call. -/
def awake (as : List ActPtr) : SchedCall → List ActPtr
  | later _ _ _ | unschedule _ => as
  | activate act => act :: as
  | tick _ => []

end SchedCall

def playCalls (sizes : QueueSizes) (steps : Steps) : List SchedCall → State → Res
  | [], s => .ok s
  | c :: cs, s => do
      let s ← c.exec sizes steps s
      playCalls sizes steps cs s

/-- The runs of a scheduler with resets between them, each with the history and
the activations since the last reset. What is asked of a reset is a parameter. -/
inductive Session (sizes : QueueSizes) (prog : Program) (R : State → Prop) (s₀ : State) :
    List (Event Addr Value) → List ActPtr → State → Prop where
  | start : Session sizes prog R s₀ [] [] s₀
  | call {h : List (Event Addr Value)} {as : List ActPtr} {s t : State} {c : SchedCall} :
      Session sizes prog R s₀ h as s → c.Legal sizes prog s →
      c.exec sizes (prog.steps sizes) s = .ok t →
      Session sizes prog R s₀ (c.events sizes prog s ++ h) (c.awake as) t
  | reset {h : List (Event Addr Value)} {as : List ActPtr} {s : State} :
      Session sizes prog R s₀ h as s → R s → Session sizes prog R s₀ [] [] (ssmReset s)

/-- The invariants of a scheduler at time 0 with nothing to do. -/
structure Cleared (sizes : QueueSizes) (s : State) : Prop where
  events : EventQueueOk s
  order : EventOrdered s
  acts : ActQueueOk sizes s
  now : s.now = 0
  quiet : s.Quiet
  idle : ∀ x, ¬ s.Pending x
  unscheduled : ∀ a, ¬ s.Scheduled a

/-- What the program may rely on: no call fails an assertion, a record that was
activated runs in the next tick, the clock moves on while an event is pending,
and each event is delivered at its time unless it is overwritten or unscheduled. -/
structure Serves (sizes : QueueSizes) (prog : Program) (h : List (Event Addr Value))
    (as : List ActPtr) (s : State) : Prop where
  noAssertion : ∀ c : SchedCall, c.Legal sizes prog s →
    ∀ e u, c.exec sizes (prog.steps sizes) s = .error ⟨.thrown e, u⟩ → Exhausted e
  runs : ∀ a ∈ as, ∀ n t, Heeds Punctual prog (ssmTickCalls sizes (prog.steps sizes) n s) →
    ssmTick sizes (prog.steps sizes) n s = .ok t →
    a ∈ (ssmTickCalls sizes (prog.steps sizes) n s).map Prod.fst
  moves : s.actQueueLen = 0 → s.eventQueueLen ≠ 0 → ∀ n t,
    Heeds Punctual prog (ssmTickCalls sizes (prog.steps sizes) n s) →
    ssmTick sizes (prog.steps sizes) n s = .ok t → s.now < t.now
  delivered : ∀ after earlier x t val, h = after ++ .delivered x t val :: earlier →
    Agenda.outstanding x earlier = some (t, val)
  pending : ∀ after earlier x t val, h = after ++ .scheduled x t val :: earlier →
    (∀ e ∈ after, ¬ Agenda.Ends x e) → s.agenda.entry x = some (t, val) ∧ s.now < t
  settled : ∀ after earlier x t val, h = after ++ .scheduled x t val :: earlier →
    t + 1 < (Agenda.advances after).toFinset.card →
    ∃ later e sooner, after = later ++ e :: sooner ∧ (∀ e' ∈ sooner, ¬ Agenda.Ends x e') ∧
      (e = .delivered x t val ∨ e = .cancelled x ∨ ∃ t' val', e = .scheduled x t' val')

/-- Every run from a state serves the program, also after further resets of quiet states. -/
def ServesFrom (sizes : QueueSizes) (prog : Program) (s₀ : State) : Prop :=
  ∀ h as s, Session sizes prog State.Quiet s₀ h as s → Serves sizes prog h as s

section New
variable {sizes : QueueSizes} {s : State}

theorem State.quiet_of_idle (events : EventQueueOk s) (acts : ActQueueOk sizes s)
    (idle : ∀ x, ¬ s.Pending x) (unscheduled : ∀ a, ¬ s.Scheduled a) : s.Quiet := by
  refine ⟨events.empty_iff.mpr idle, ?_⟩
  rw [← acts.card, Finset.card_eq_zero]
  exact Finset.eq_empty_of_forall_notMem fun a mem => unscheduled a (mem_scheduledSet.mp mem)

theorem State.Quiet.unscheduled (quiet : s.Quiet) (acts : ActQueueOk sizes s) (a : ActPtr) :
    ¬ s.Scheduled a := by
  intro sched
  have empty := acts.card
  rw [quiet.2, Finset.card_eq_zero] at empty
  exact Finset.notMem_empty a (empty ▸ mem_scheduledSet.mpr sched)

/-- The invariants hold after a reset exactly if nothing was queued. -/
theorem cleared_iff (events : EventQueueOk s) (acts : ActQueueOk sizes s) :
    Cleared sizes (ssmReset s) ↔ s.Quiet := by
  constructor
  · exact fun clear => State.quiet_of_idle events acts clear.idle clear.unscheduled
  · intro quiet
    have len : (ssmReset s).eventQueueLen = s.eventQueueLen := quiet.1.symm
    have actLen : (ssmReset s).actQueueLen = s.actQueueLen := quiet.2.symm
    exact
      { events := events.congr rfl len fun _ => Iff.rfl
        order := fun i h2 hn => absurd (Nat.le_trans h2 hn) (Nat.not_succ_le_zero 1)
        acts := acts.of_acts rfl rfl actLen
        now := rfl
        quiet := ⟨rfl, rfl⟩
        idle := fun x => events.empty_iff.mp quiet.1 x
        unscheduled := fun a => quiet.unscheduled acts a }

theorem Obj.idle_of_quiet {o : Obj} (never : ∀ v, o.body = .sv v → v.laterTime = ssmNever) :
    o.idle = o := by
  obtain ⟨n, body⟩ := o
  cases body with
  | sv v =>
      have none := never v rfl
      rw [Obj.idle, ← none]
  | time _ | adt _ _ | closure _ _ _ _ | array _ | blob _ => rfl

theorem State.Quiet.restarted (quiet : s.Quiet) (events : EventQueueOk s)
    (acts : ActQueueOk sizes s) : s.restarted = ssmReset s := by
  have objs : s.restarted.objs = s.objs := Table.ext_val rfl fun x => by
    simp only [State.restarted]
    split
    · rename_i live
      refine Obj.idle_of_quiet fun v hv => ?_
      by_contra hne
      exact events.empty_iff.mp quiet.1 x ⟨v, State.sv?_eq_some.mpr ⟨live, hv⟩, hne⟩
    · rfl
  have records : s.restarted.acts = s.acts := Table.ext_val rfl fun a => by
    simp only [State.restarted]
    split
    · rename_i live
      have flag : (s.acts.val a).scheduled = false := by
        by_contra up
        exact quiet.unscheduled acts a ⟨live, by simpa using up⟩
      rw [← flag]
    · rfl
  change { s with
    objs := s.restarted.objs, acts := s.restarted.acts, now := 0, eventQueueLen := 0,
    actQueueLen := 0 } = ssmReset s
  rw [objs, records]
  rfl

/-- In an emptied queue the search for a variable that calls itself queued fails. -/
theorem findQueuedEvent_reset {x : Addr} (pending : s.Pending x) :
    findQueuedEvent x (ssmReset s) = .error ⟨.thrown .internalError, ssmReset s⟩ := by
  have keyed : (ssmReset s).laterTimeAt x ≠ ssmNever := pending.laterTimeAt_ne
  unfold findQueuedEvent
  rw [ssmAssert_of (by simpa using keyed), ok_bind]
  rfl

theorem ssmUnschedule_reset {x : Addr} (pending : s.Pending x) :
    ssmUnschedule x (ssmReset s) = .error ⟨.thrown .internalError, ssmReset s⟩ := by
  obtain ⟨v, hv, hne⟩ := id pending
  have here : (ssmReset s).sv? x = some v := hv
  rw [ssmUnschedule, State.loadSv_of_sv? here, ok_bind, if_neg hne,
    findQueuedEvent_reset pending, error_bind]

/-- A record that calls itself scheduled is not put into the emptied queue. -/
theorem ssmActivate_reset {a : ActPtr} (sched : s.Scheduled a) :
    ssmActivate sizes a (ssmReset s) = .ok (ssmReset s) := by
  have here : (ssmReset s).loadAct a = .ok (s.acts.val a) :=
    State.loadAct_of_mem (s := ssmReset s) sched.1
  rw [ssmActivate, here, ok_bind, if_pos sched.2]

end New

/-- Whatever is called after a reset, and whatever the step functions do, it is
as if the scheduler had been started anew. -/
def SameAsNew (sizes : QueueSizes) (s : State) : Prop :=
  ∀ steps calls, playCalls sizes steps calls (ssmReset s) = playCalls sizes steps calls s.restarted

section New
variable {sizes : QueueSizes} {s : State}

theorem State.restarted_sv? {x : Addr} {v : Sv} (hv : s.sv? x = some v) :
    s.restarted.sv? x = some { v with laterTime := ssmNever } := by
  obtain ⟨live, body⟩ := State.sv?_eq_some.mp hv
  refine State.sv?_eq_some.mpr ⟨live, ?_⟩
  simp only [State.restarted, if_pos live]
  revert body
  cases s.objs.val x with
  | mk n b =>
      rintro rfl
      rfl

theorem playCalls_singleton (steps : Steps) (c : SchedCall) (t : State) :
    playCalls sizes steps [c] t = c.exec sizes steps t := by
  rw [playCalls]
  cases c.exec sizes steps t <;> rfl

/-- An activation that adds a record to an empty queue is seen in its length. -/
theorem ssmActivate_len {a : ActPtr} {r : Act} {t : State} (load : s.loadAct a = .ok r)
    (idle : r.scheduled = false) (h : ssmActivate sizes a s = .ok t) :
    t.actQueueLen = qIdx (s.actQueueLen + 1) := by
  rw [ssmActivate, load, ok_bind, if_neg (by simp [idle])] at h
  simp only at h
  split at h
  · cases h
  · obtain ⟨u, asserted, h⟩ := bind_eq_ok.mp h
    rw [ssmAssert_eq_ok asserted] at h
    obtain ⟨b, -, h⟩ := bind_eq_ok.mp h
    cases h
    rfl

theorem sameAsNew_iff (events : EventQueueOk s) (acts : ActQueueOk sizes s) :
    SameAsNew sizes s ↔ s.Quiet := by
  constructor
  · intro same
    refine State.quiet_of_idle events acts (fun x pending => ?_) fun a sched => ?_
    · have runs := same (fun _ _ u => .ok u) [.unschedule x]
      obtain ⟨v, hv, -⟩ := id pending
      rw [playCalls_singleton, playCalls_singleton, SchedCall.exec, SchedCall.exec,
        ssmUnschedule_reset pending, ssmUnschedule,
        State.loadSv_of_sv? (State.restarted_sv? hv), ok_bind, if_pos rfl] at runs
      cases runs
    · have runs := same (fun _ _ u => .ok u) [.activate a]
      rw [playCalls_singleton, playCalls_singleton, SchedCall.exec, SchedCall.exec,
        ssmActivate_reset sched] at runs
      have load : s.restarted.loadAct a = .ok { s.acts.val a with scheduled := false } := by
        rw [State.loadAct_of_mem (s := s.restarted) sched.1]
        simp only [State.restarted, if_pos sched.1]
      have longer : (0 : Nat) = qIdx (0 + 1) := ssmActivate_len load rfl runs.symm
      exact absurd longer (by decide)
  · intro quiet steps calls
    rw [quiet.restarted events acts]

end New

theorem ssmLater_of_packed {sizes : QueueSizes} {x : Addr} {when : Nat} {val : Value} {s : State}
    (packed : ssmOnHeap val = false) :
    ssmLater sizes x when val s = ssmSvLaterUnsafe sizes x when val s := by
  cases val with
  | packed n => rfl
  | heap a => cases packed

section Tick
variable {sizes : SafeSizes} {prog : Program} {s t : State} {a : ActPtr}

theorem scheduled_applyAll (cs : List Action) {V : View} (recorded : V.Recorded) :
    V.scheduledSet ⊆ (applyAll cs V).scheduledSet := by
  induction cs generalizing V with
  | nil => exact Finset.Subset.refl _
  | cons c cs ih =>
      refine Finset.Subset.trans ?_ (ih (c.apply_recorded recorded))
      rw [c.apply_scheduledSet recorded]
      exact Finset.subset_union_left

/-- A record leaves the queue only by being called. -/
theorem tickSteps_calls (n : Nat) (wf : WellFormed sizes s)
    (heeds : Heeds Punctual prog (tickCalls (prog.steps sizes) n s))
    (run : tickSteps (prog.steps sizes) n s = .ok t) (sched : a ∈ s.view.scheduledSet) :
    a ∈ (tickCalls (prog.steps sizes) n s).map Prod.fst := by
  have busy : s.actQueueLen ≠ 0 := by
    rw [← wf.card_scheduledSet]
    exact Finset.card_ne_zero_of_mem sched
  induction n generalizing s with
  | zero =>
      rw [tickSteps, if_neg busy] at run
      cases run
  | succ n ih =>
      obtain ⟨b, u, -, -, wf', shown, -, round, calls⟩ := tickSteps_round prog n wf busy
      rw [round] at run
      rw [calls] at heeds ⊢
      obtain ⟨v, acted, rest⟩ := bind_eq_ok.mp run
      rw [List.map_cons, List.mem_cons]
      by_cases same : a = b
      · exact Or.inl same
      · rw [acted] at heeds ⊢
        have mine := heeds (b, u) List.mem_cons_self
        obtain ⟨wf'', seen⟩ := runActions_ok wf' (mine.imp fun _ _ h => h.1) acted
        have still : a ∈ v.view.scheduledSet := by
          rw [seen]
          refine scheduled_applyAll _ (view_recorded u) ?_
          rw [shown, View.scheduledSet_pop]
          exact Finset.mem_erase.mpr ⟨same, sched⟩
        refine Or.inr (ih wf'' (fun c hc => heeds c (List.mem_cons_of_mem _ hc)) rest still ?_)
        rw [← wf''.card_scheduledSet]
        exact Finset.card_ne_zero_of_mem still

/-- A tick that ends has called every record that was scheduled before. -/
theorem ssmTick_calls (n : Nat) (wf : WellFormed sizes s) (ready : s.view.Ready)
    (heeds : Heeds Punctual prog (ssmTickCalls sizes (prog.steps sizes) n s))
    (run : ssmTick sizes (prog.steps sizes) n s = .ok t) (sched : s.Scheduled a) :
    a ∈ (ssmTickCalls sizes (prog.steps sizes) n s).map Prod.fst := by
  rw [ssmTick_eq] at run
  unfold ssmTickCalls at heeds ⊢
  rcases tickUpdates_ready wf ready with ⟨u, full⟩ | ⟨u, first, wf', shown, -⟩
  · rw [full, error_bind] at run
    cases run
  · rw [first] at run heeds ⊢
    refine tickSteps_calls n wf' heeds run ?_
    rw [shown, scheduledSet_updates (s.view.setNow (tickTime s)) (view_recorded s)]
    exact Finset.mem_union_left _ (mem_view_scheduledSet.mpr sched)

end Tick

/-- What holds between two calls of a session. -/
structure SessionOk (sizes : QueueSizes) (h : List (Event Addr Value)) (as : List ActPtr)
    (s : State) : Prop where
  wellFormed : WellFormed sizes s
  ahead : s.view.Ahead
  agenda : ∃ b : Agenda Addr Value, (∀ x, b.entry x = none) ∧ Agenda.Run b h s.view.agenda
  awake : ∀ a ∈ as, s.Scheduled a

namespace SessionOk
variable {sizes : SafeSizes} {prog : Program} {s t : State} {h : List (Event Addr Value)}
  {as : List ActPtr}

/-- A state at rest starts a session. -/
theorem rest (wf : WellFormed sizes s) (quiet : s.Quiet) : SessionOk sizes [] [] s where
  wellFormed := wf
  ahead := fun x w hw hne => by
    obtain ⟨v, hv, rfl⟩ := State.seen?_eq_some.mp hw
    exact absurd ⟨v, hv, hne⟩ (wf.queue.empty_iff.mp quiet.1 x)
  agenda := ⟨s.view.agenda, noEntry_of_empty wf quiet.1, .nil⟩
  awake := fun _ ha => absurd ha List.not_mem_nil

theorem action (ok : SessionOk sizes h as s) (c : Action) (punctual : Punctual s.view c)
    (run : c.exec sizes s = .ok t) : SessionOk sizes (c.events ++ h) as t := by
  have one : runActions sizes [c] s = .ok t := by
    rw [runActions, run]
    rfl
  have admissible : InTurn (fun V c => c.Admissible V) [c] s.view := ⟨punctual.1, trivial⟩
  obtain ⟨wf', shown⟩ : WellFormed sizes t ∧ t.view = c.apply s.view :=
    runActions_ok ok.wellFormed admissible one
  obtain ⟨b, empty, sofar⟩ := ok.agenda
  refine ⟨wf', ?_, ⟨b, empty, ?_⟩, fun a ha => ?_⟩
  · rw [shown]
    exact c.apply_ahead punctual.2 ok.ahead
  · rw [shown]
    exact sofar.append (c.agenda_run punctual.1 punctual.2)
  · rw [← mem_view_scheduledSet, shown, c.apply_scheduledSet (view_recorded s)]
    exact Finset.mem_union_left _ (mem_view_scheduledSet.mpr (ok.awake a ha))

theorem activate {a : ActPtr} (ok : SessionOk sizes h as s) (live : a ∈ s.acts.dom)
    (run : ssmActivate sizes a s = .ok t) : SessionOk sizes h (a :: as) t := by
  have spec := ssmActivate_spec ok.wellFormed.acts live
  rw [run] at spec
  split at spec
  · obtain ⟨u, same, acts, woken⟩ := spec
    obtain rfl := Except.ok.inj same
    obtain ⟨wf', shown⟩ := ok.wellFormed.woken (A := {a}) acts
      (woken.iff fun b => Finset.mem_singleton)
    refine ⟨wf', shown ▸ ok.ahead, shown ▸ ok.agenda, fun b hb => ⟨?_, ?_⟩⟩
    · rw [woken.dom]
      rcases List.mem_cons.mp hb with rfl | hb
      · exact live
      · exact (ok.awake b hb).1
    · rw [woken.scheduled]
      rcases List.mem_cons.mp hb with rfl | hb
      · exact Or.inr rfl
      · exact Or.inl (ok.awake b hb).2
  · obtain ⟨u, stop⟩ := spec
    cases stop

theorem tick {n : Nat} (ok : SessionOk sizes h as s)
    (heeds : Heeds Punctual prog (ssmTickCalls sizes (prog.steps sizes) n s))
    (run : ssmTick sizes (prog.steps sizes) n s = .ok t) :
    SessionOk sizes (tickEvents sizes prog n s ++ h) [] t := by
  obtain ⟨b, empty, sofar⟩ := ok.agenda
  obtain ⟨wf', ahead, -, -, more⟩ := (ssmTick_agenda n ok.wellFormed ok.ahead.ready heeds).2 t run
  exact ⟨wf', ahead, ⟨b, empty, sofar.append more⟩, fun _ ha => absurd ha List.not_mem_nil⟩

theorem call {c : SchedCall} (ok : SessionOk sizes h as s) (legal : c.Legal sizes prog s)
    (run : c.exec sizes (prog.steps sizes) s = .ok t) :
    SessionOk sizes (c.events sizes prog s ++ h) (c.awake as) t := by
  cases c with
  | later x when val =>
      refine ok.action (.later x when val) legal ?_
      rwa [SchedCall.exec, ssmLater_of_packed legal.1.2.1] at run
  | unschedule x => exact ok.action (.unschedule x) legal run
  | activate a => exact ok.activate legal run
  | tick n => exact ok.tick legal run

theorem noAssertion (ok : SessionOk sizes h as s) (c : SchedCall)
    (legal : c.Legal sizes prog s) {e : SsmError} {u : State}
    (stop : c.exec sizes (prog.steps sizes) s = .error ⟨.thrown e, u⟩) : Exhausted e := by
  have queue : ∀ c : Action, Punctual s.view c → c.exec sizes s = .error ⟨.thrown e, u⟩ →
      Exhausted e := by
    intro c punctual stop
    have spec := c.exec_computes ok.wellFormed punctual.1
    rw [stop] at spec
    cases acts : s.view.act sizes c with
    | ok V =>
        rw [acts] at spec
        obtain ⟨t, done, -⟩ := spec
        cases done
    | error e' =>
        rw [acts] at spec
        obtain ⟨v, same⟩ := spec
        cases same
        have one : View.acts sizes [c] s.view = .error e := by rw [View.acts, acts, error_bind]
        exact View.acts_error one
  cases c with
  | later x when val =>
      rw [SchedCall.exec, ssmLater_of_packed legal.1.2.1] at stop
      exact queue (.later x when val) legal stop
  | unschedule x => exact queue (.unschedule x) legal stop
  | activate a =>
      have spec := ssmActivate_spec ok.wellFormed.acts (a := a) legal
      rw [show ssmActivate sizes a s = _ from stop] at spec
      split at spec
      · obtain ⟨t, done, -⟩ := spec
        cases done
      · obtain ⟨v, same⟩ := spec
        cases same
        exact Or.inl rfl
  | tick n => exact (ssmTick_agenda n ok.wellFormed ok.ahead.ready legal).1 e u stop

theorem serves (ok : SessionOk sizes h as s) : Serves sizes prog h as s := by
  obtain ⟨b, empty, sofar⟩ := ok.agenda
  have shown : s.view.agenda = s.agenda := view_agenda ok.wellFormed.queue
  refine ⟨fun c legal e u => ok.noAssertion c legal, fun a ha n t heeds run => ?_,
    fun idle some' n t heeds run => ?_, ?_, ?_, ?_⟩
  · exact ssmTick_calls n ok.wellFormed ok.ahead.ready heeds run (ok.awake a ha)
  · obtain ⟨-, -, -, now, -⟩ := (ssmTick_agenda n ok.wellFormed ok.ahead.ready heeds).2 t run
    rw [now]
    exact now_lt_tickTime ok.wellFormed ok.ahead idle some'
  · rintro after earlier x t val rfl
    exact sofar.delivered empty
  · rintro after earlier x t val rfl kept
    have entry := sofar.outstanding empty x
    rw [Agenda.outstanding_of_kept after earlier kept] at entry
    obtain ⟨v, hv, hne, rfl, -⟩ := View.agenda_entry.mp entry
    exact ⟨shown ▸ entry, ok.ahead x v hv hne⟩
  · rintro after earlier x t val rfl long
    exact sofar.settled empty long

end SessionOk

section Session
variable {sizes : SafeSizes} {prog : Program} {s₀ s : State} {h : List (Event Addr Value)}
  {as : List ActPtr}

theorem Cleared.wellFormed (clear : Cleared sizes (ssmReset s)) (wf : WellFormed sizes s) :
    WellFormed sizes (ssmReset s) where
  queue := clear.events
  order := clear.order
  fits := Nat.zero_le _
  packed := wf.packed
  acts := clear.acts
  triggers := wf.triggers.congr rfl (fun _ v hv => ⟨v, hv, rfl⟩) rfl

theorem SessionOk.reset (wf : WellFormed sizes s) (quiet : s.Quiet) :
    SessionOk sizes [] [] (ssmReset s) :=
  .rest (((cleared_iff wf.queue wf.acts).mpr quiet).wellFormed wf) ⟨rfl, rfl⟩

theorem Session.ok (start : WellFormed sizes s₀) (quiet : s₀.Quiet)
    (run : Session sizes prog State.Quiet s₀ h as s) : SessionOk sizes h as s := by
  induction run with
  | start => exact .rest start quiet
  | call run legal done ih => exact ih.call legal done
  | reset run quiet ih => exact .reset ih.wellFormed quiet

theorem servesFrom_of_quiet (start : WellFormed sizes s₀) (quiet : s₀.Quiet) :
    ServesFrom sizes prog s₀ :=
  fun _ _ _ run => (run.ok start quiet).serves

theorem ssmTick_of_quiet (quiet : s.Quiet) (steps : Steps) :
    ssmTick sizes steps 0 s = .ok s ∧ ssmTickCalls sizes steps 0 s = [] := by
  have enter := tickEnter_quiet quiet.2 quiet.1
  have updates : tickUpdates sizes s.eventQueueLen s = .ok s := by
    rw [quiet.1, tickUpdates, if_neg fun due => absurd due.1 (by rw [quiet.1]; decide)]
  refine ⟨?_, ?_⟩
  · rw [ssmTick, enter, ok_bind, updates, ok_bind, tickSteps, if_pos quiet.2]
  · rw [ssmTickCalls, enter, ok_bind, updates]
    rfl

/-- After a reset the runs serve the program exactly if nothing was queued. -/
theorem servesFrom_iff (wf : WellFormed sizes s) :
    ServesFrom sizes prog (ssmReset s) ↔ s.Quiet := by
  constructor
  · intro serves
    refine State.quiet_of_idle wf.queue wf.acts (fun x pending => ?_) fun a sched => ?_
    · obtain ⟨v, hv, -⟩ := id pending
      have live : ((ssmReset s).view.var x).isSome := view_var_isSome.mpr ⟨v, hv⟩
      have assertion := (serves [] [] _ .start).noAssertion (.unschedule x) ⟨live, trivial⟩ _ _
        (ssmUnschedule_reset pending)
      rcases assertion with full | full
      · cases full
      · cases full
    · have quiet : (ssmReset s).Quiet := ⟨rfl, rfl⟩
      obtain ⟨run, none⟩ := ssmTick_of_quiet quiet (prog.steps sizes)
      have awake : Session sizes prog State.Quiet (ssmReset s) [] [a] (ssmReset s) :=
        .call (c := .activate a) .start sched.1 (ssmActivate_reset sched)
      have called := (serves _ _ _ awake).runs a List.mem_cons_self 0 _
        (fun c hc => absurd (none ▸ hc) List.not_mem_nil) run
      rw [none] at called
      exact absurd called List.not_mem_nil
  · intro quiet
    exact servesFrom_of_quiet (((cleared_iff wf.queue wf.acts).mpr quiet).wellFormed wf) ⟨rfl, rfl⟩

/-- `ssm_reset` gives a new scheduler exactly if both queues are empty: the
invariants hold again and every continuation goes as on a new scheduler. In a
run whose resets all find the queues empty every state serves the program. -/
theorem ssmReset_exact (events : EventQueueOk s) (acts : ActQueueOk sizes s) :
    (Cleared sizes (ssmReset s) ↔ s.Quiet) ∧ (SameAsNew sizes s ↔ s.Quiet) ∧
      ∀ prog s₀ h as, WellFormed sizes s₀ → s₀.Quiet →
        Session sizes prog State.Quiet s₀ h as s →
        Serves sizes prog h as s ∧ (ServesFrom sizes prog (ssmReset s) ↔ s.Quiet) := by
  refine ⟨cleared_iff events acts, sameAsNew_iff events acts,
    fun prog s₀ h as start quiet run => ?_⟩
  have ok := run.ok start quiet
  exact ⟨ok.serves, servesFrom_iff ok.wellFormed⟩

end Session

instance (sizes : QueueSizes) (prog : Program) (s : State) :
    (c : SchedCall) → Decidable (c.Legal sizes prog s)
  | .later _ _ _ | .unschedule _ => inferInstanceAs (Decidable (Punctual _ _))
  | .activate act => inferInstanceAs (Decidable (act ∈ s.acts.dom))
  | .tick _ => inferInstanceAs (Decidable (Heeds _ _ _))

/-- Play a list of calls as long as each is legal and throws nothing. -/
def playSession (sizes : QueueSizes) (prog : Program) : List SchedCall →
    List (Event Addr Value) → List ActPtr → State →
    Option (List (Event Addr Value) × List ActPtr × State)
  | [], h, as, s => some (h, as, s)
  | c :: cs, h, as, s =>
      if c.Legal sizes prog s then
        match c.exec sizes (prog.steps sizes) s with
        | .ok t => playSession sizes prog cs (c.events sizes prog s ++ h) (c.awake as) t
        | .error _ => none
      else none

theorem Session.of_play {sizes : QueueSizes} {prog : Program} {R : State → Prop} {s₀ s t : State}
    {cs : List SchedCall} {h k : List (Event Addr Value)} {as bs : List ActPtr}
    (run : Session sizes prog R s₀ h as s)
    (play : playSession sizes prog cs h as s = some (k, bs, t)) :
    Session sizes prog R s₀ k bs t := by
  induction cs generalizing h as s with
  | nil =>
      cases play
      exact run
  | cons c cs ih =>
      rw [playSession] at play
      split at play
      · rename_i legal
        split at play
        · rename_i u done
          exact ih (run.call legal done) play
        · cases play
      · cases play

/-- A variable set again by a record that is activated and runs. -/
def setsThird : Program := fun _ _ _ => [.assign 3 1 (.packed 4)]

def delivers : List SchedCall :=
  [.later 1 10 (.packed 7), .later 2 10 (.packed 8), .unschedule 2, .activate 0, .tick 1, .tick 1]

theorem ssmReset_exact_delivers : ∃ h as s,
    playSession defaultSafeSizes setsThird delivers [] [] threeVars = some (h, as, s) ∧
    s.now = 10 ∧ Cleared defaultSafeSizes (ssmReset s) ∧ SameAsNew defaultSafeSizes s ∧
    Serves defaultSafeSizes setsThird h as s ∧
    ServesFrom defaultSafeSizes setsThird (ssmReset s) := by
  have ends : (playSession defaultSafeSizes setsThird delivers [] [] threeVars).any
      (fun r => r.2.2.now = 10 ∧ r.2.2.eventQueueLen = 0 ∧ r.2.2.actQueueLen = 0) = true := by
    decide +kernel
  obtain ⟨⟨h, as, s⟩, last, facts⟩ := (Option.any_eq_true _ _).mp ends
  obtain ⟨now, quiet⟩ := of_decide_eq_true facts
  have start : WellFormed defaultSafeSizes threeVars := State.idle_wellFormed _ _ _ _ _ _
  have run : Session defaultSafeSizes setsThird State.Quiet threeVars h as s :=
    .of_play .start last
  have wf := (run.ok start ⟨rfl, rfl⟩).wellFormed
  obtain ⟨cleared, same, runs⟩ := ssmReset_exact wf.queue wf.acts
  obtain ⟨serves, again⟩ := runs setsThird threeVars h as start ⟨rfl, rfl⟩ run
  exact ⟨h, as, s, last, now, cleared.mpr quiet, same.mpr quiet, serves, again.mpr quiet⟩

/-- With an event pending a reset leaves a variable that calls itself queued. -/
theorem not_ssmReset_fresh : ¬ ∀ h as s,
    Session defaultSafeSizes setsThird (fun _ => True) threeVars h as s →
      Cleared defaultSafeSizes (ssmReset s) ∨ SameAsNew defaultSafeSizes s ∨
        ServesFrom defaultSafeSizes setsThird (ssmReset s) := by
  intro all
  have ends : (playSession defaultSafeSizes setsThird [.later 1 10 (.packed 7)] [] []
      threeVars).any (fun r => r.2.2.eventQueueLen = 1) = true := by decide +kernel
  obtain ⟨⟨h, as, s⟩, last, one⟩ := (Option.any_eq_true _ _).mp ends
  have one : s.eventQueueLen = 1 := of_decide_eq_true one
  have busy : ¬ s.Quiet := fun quiet => by
    have := quiet.1
    omega
  have run : Session defaultSafeSizes setsThird State.Quiet threeVars h as s :=
    .of_play .start last
  have wf := (run.ok (State.idle_wellFormed _ _ _ _ _ _) ⟨rfl, rfl⟩).wellFormed
  rcases all h as s (.of_play .start last) with clear | same | serves
  · exact busy ((cleared_iff wf.queue wf.acts).mp clear)
  · exact busy ((sameAsNew_iff wf.queue wf.acts).mp same)
  · exact busy ((servesFrom_iff wf).mp serves)

end SsmRuntime
