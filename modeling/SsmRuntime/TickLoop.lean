import SsmRuntime.InputQueue
import SsmRuntime.Instant
import SsmRuntime.PendingMap

/-!
The tick loop: one tick, and then ticks for as long as an event is pending,
with input packets consumed between them. While each delayed assignment lies
strictly ahead, no tick is refused and each event is delivered at its time.
-/
namespace SsmRuntime

open Agenda (Event)

/-- The calls of a tick meet a condition, each of their actions in its turn. -/
def Heeds (P : View → Action → Prop) (prog : Program) (calls : List (ActPtr × State)) : Prop :=
  ∀ c ∈ calls, InTurn P (prog.actions c) c.2.view

instance (P : View → Action → Prop) [∀ V c, Decidable (P V c)] (prog : Program)
    (calls : List (ActPtr × State)) : Decidable (Heeds P prog calls) :=
  inferInstanceAs (Decidable (∀ c ∈ calls, InTurn P (prog.actions c) c.2.view))

/-- What `ssm_sv_later_unsafe` accepts, among other calls. -/
def Accepted (V : View) (c : Action) : Prop := c.Admissible V

instance (V : View) (c : Action) : Decidable (Accepted V c) :=
  inferInstanceAs (Decidable (c.Admissible V))

/-- Calls as accepted, with each delayed assignment strictly ahead. -/
def Punctual (V : View) (c : Action) : Prop := c.Admissible V ∧ c.Timely V

instance (V : View) (c : Action) : Decidable (Punctual V c) :=
  inferInstanceAs (Decidable (_ ∧ _))

/-- What a list of calls adds to the history, the latest first. -/
def callEvents (cs : List Action) : List (Event Addr Value) := (cs.flatMap Action.events).reverse

/-- What the first loop of a tick adds. -/
def updateEvents (sizes : QueueSizes) : Nat → State → List (Event Addr Value)
  | 0, _ => []
  | fuel + 1, s =>
      if updateDue s then
        match tickUpdate sizes s with
        | .ok t => updateEvents sizes fuel t ++ Moment.tickUpdate.events s t
        | .error _ => []
      else []

/-- What a whole tick adds. -/
def tickEvents (sizes : QueueSizes) (prog : Program) (fuel : Nat) (s : State) :
    List (Event Addr Value) :=
  match tickEnter s with
  | .error _ => []
  | .ok u =>
      match tickUpdates sizes u.eventQueueLen u with
      | .error _ => []
      | .ok v => callEvents ((tickCalls (prog.steps sizes) fuel v).flatMap prog.actions) ++
          (updateEvents sizes u.eventQueueLen u ++ [.advanced u.now])

/-- The runs of the loop and their histories, the latest event first. -/
inductive TickLoop (p : Platform) (sizes : QueueSizes) (P : View → Action → Prop)
    (prog : Program) (s₀ : State) : List (Event Addr Value) → State → Prop where
  | first {n : Nat} {t : State} :
      Heeds P prog (ssmTickCalls sizes (prog.steps sizes) n s₀) →
      ssmTick sizes (prog.steps sizes) n s₀ = .ok t →
      TickLoop p sizes P prog s₀ (tickEvents sizes prog n s₀) t
  | input {h : List (Event Addr Value)} {s t : State} {rb : Nat → SsmInput} {r w r' : Nat} :
      TickLoop p sizes P prog s₀ h s → InTurn P (p.inputCalls rb r w s) s.view →
      p.ssmInputConsume sizes rb r w s = .ok (r', t) →
      TickLoop p sizes P prog s₀ (callEvents (p.inputCalls rb r w s) ++ h) t
  | tick {n : Nat} {h : List (Event Addr Value)} {s t : State} :
      TickLoop p sizes P prog s₀ h s → ssmNextEventTime s ≠ ssmNever →
      Heeds P prog (ssmTickCalls sizes (prog.steps sizes) n s) →
      ssmTick sizes (prog.steps sizes) n s = .ok t →
      TickLoop p sizes P prog s₀ (tickEvents sizes prog n s ++ h) t

/-- The clock is never wedged: no tick is refused, and each event scheduled is
delivered at its time, unless it is overwritten or unscheduled first. -/
structure NeverWedged (sizes : QueueSizes) (P : View → Action → Prop) (prog : Program)
    (h : List (Event Addr Value)) (s : State) : Prop where
  notRefused : ∀ n, Heeds P prog (ssmTickCalls sizes (prog.steps sizes) n s) →
    ∀ e u, ssmTick sizes (prog.steps sizes) n s = .error ⟨.thrown e, u⟩ →
      e ≠ .invalidTime ∧ e ≠ .notReady
  goesOn : ∀ x, s.agenda.entry x ≠ none → ssmNextEventTime s ≠ ssmNever
  delivered : ∀ after earlier x t val, h = after ++ .delivered x t val :: earlier →
    Agenda.outstanding x earlier = some (t, val)
  pending : ∀ after earlier x t val, h = after ++ .scheduled x t val :: earlier →
    (∀ e ∈ after, ¬ Agenda.Ends x e) → s.agenda.entry x = some (t, val) ∧ s.now < t
  settled : ∀ after earlier x t val, h = after ++ .scheduled x t val :: earlier →
    t + 1 < (Agenda.advances after).length →
    ∃ later e sooner, after = later ++ e :: sooner ∧ (∀ e' ∈ sooner, ¬ Agenda.Ends x e') ∧
      (e = .delivered x t val ∨ e = .cancelled x ∨ ∃ t' val', e = .scheduled x t' val')

section Events

theorem callEvents_cons (c : Action) (cs : List Action) :
    callEvents (c :: cs) = callEvents cs ++ c.events := by
  have same : c.events.reverse = c.events := by cases c <;> rfl
  rw [callEvents, List.flatMap_cons, List.reverse_append, same, callEvents]

theorem callEvents_append (cs ds : List Action) :
    callEvents (cs ++ ds) = callEvents ds ++ callEvents cs := by
  rw [callEvents, List.flatMap_append, List.reverse_append, callEvents, callEvents]

theorem advances_callEvents (cs : List Action) : Agenda.advances (callEvents cs) = [] := by
  induction cs with
  | nil => rfl
  | cons c cs ih =>
      rw [callEvents_cons, Agenda.advances_append, ih]
      cases c <;> rfl

theorem advances_updateEvents (sizes : QueueSizes) (n : Nat) (s : State) :
    Agenda.advances (updateEvents sizes n s) = [] := by
  induction n generalizing s with
  | zero => rfl
  | succ n ih =>
      rw [updateEvents]
      split
      · split
        · rw [Agenda.advances_append, ih]
          rfl
        · rfl
      · rfl

theorem applyAll_now (cs : List Action) (V : View) : (applyAll cs V).now = V.now := by
  induction cs generalizing V with
  | nil => rfl
  | cons c cs ih => exact (ih _).trans c.apply_now

theorem applyAll_agenda_run (cs : List Action) {V : View} (ok : InTurn Punctual cs V) :
    Agenda.Run V.agenda (callEvents cs) (applyAll cs V).agenda := by
  induction cs generalizing V with
  | nil => exact .nil
  | cons c cs ih =>
      rw [callEvents_cons]
      exact (c.agenda_run ok.1.1 ok.1.2).append (ih ok.2)

end Events

section Tick
variable {sizes : SafeSizes} {prog : Program} {s t : State}

theorem tickUpdates_agenda (n : Nat) (wf : WellFormed sizes s) (notLate : s.view.NotLate)
    (run : tickUpdates sizes n s = .ok t) :
    Agenda.Run s.view.agenda (updateEvents sizes n s) t.view.agenda := by
  induction n generalizing s with
  | zero =>
      rw [tickUpdates] at run
      split at run
      · cases run
      · cases run
        exact .nil
  | succ n ih =>
      rw [tickUpdates] at run
      rw [updateEvents]
      split at run
      · rename_i due
        obtain ⟨u, first, rest⟩ := bind_eq_ok.mp run
        obtain ⟨wf', step⟩ := Moment.agenda_run (m := .tickUpdate) wf notLate due first
        have late := View.noneBefore_iff.mp (step.noneBefore (View.noneBefore_iff.mpr notLate)).2
        rw [if_pos due, first]
        exact step.append (ih wf' late rest)
      · rename_i notDue
        cases run
        rw [if_neg notDue]
        exact .nil

/-- The second loop of a tick only schedules and cancels, and only a full queue
makes it throw. -/
theorem tickSteps_agenda (n : Nat) (wf : WellFormed sizes s) (ahead : s.view.Ahead)
    (heeds : Heeds Punctual prog (tickCalls (prog.steps sizes) n s)) :
    (∀ e u, tickSteps (prog.steps sizes) n s = .error ⟨.thrown e, u⟩ → Exhausted e) ∧
    ∀ t, tickSteps (prog.steps sizes) n s = .ok t →
      WellFormed sizes t ∧ t.view.Ahead ∧ t.actQueueLen = 0 ∧ t.now = s.now ∧
      Agenda.Run s.view.agenda
        (callEvents ((tickCalls (prog.steps sizes) n s).flatMap prog.actions)) t.view.agenda := by
  induction n generalizing s with
  | zero =>
      rw [tickSteps]
      split
      · rename_i idle
        refine ⟨fun e u h => (by cases h), fun t h => ?_⟩
        cases h
        exact ⟨wf, ahead, idle, rfl, .nil⟩
      · exact ⟨fun e u h => (by cases h), fun t h => (by cases h)⟩
  | succ n ih =>
      by_cases idle : s.actQueueLen = 0
      · rw [tickSteps, if_pos idle, tickCalls, if_pos idle]
        refine ⟨fun e u h => (by cases h), fun t h => ?_⟩
        cases h
        exact ⟨wf, ahead, idle, rfl, .nil⟩
      · obtain ⟨a, u, -, -, wf', shown, -, run, calls⟩ := tickSteps_round prog n wf idle
        rw [run, calls]
        rw [calls] at heeds
        have mine := heeds (a, u) List.mem_cons_self
        have ahead' : u.view.Ahead := by
          rw [shown]
          exact ahead
        have same : u.view.agenda = s.view.agenda := by
          rw [shown]
          rfl
        have spec := runActions_computes wf' (prog.actions (a, u)) (mine.imp fun _ _ h => h.1)
        cases acts : View.acts sizes (prog.actions (a, u)) u.view with
        | error e =>
            rw [acts] at spec
            obtain ⟨v, stop⟩ := spec
            rw [stop, error_bind]
            refine ⟨fun e' u' h => ?_, fun t h => (by cases h)⟩
            cases h
            exact View.acts_error acts
        | ok V =>
            rw [acts] at spec
            obtain ⟨v, done, wf'', seen⟩ := spec
            rw [View.acts_eq_ok acts] at seen
            rw [done] at heeds ⊢
            rw [ok_bind]
            obtain ⟨full, rest⟩ := ih wf''
              (by rw [seen]; exact applyAll_ahead _ ahead' (mine.imp fun _ _ h => h.2))
              fun c hc => heeds c (List.mem_cons_of_mem _ hc)
            refine ⟨full, fun t h => ?_⟩
            obtain ⟨wfT, aheadT, idleT, nowT, more⟩ := rest t h
            refine ⟨wfT, aheadT, idleT, ?_, ?_⟩
            · have first : v.now = u.now :=
                (congrArg View.now seen).trans (applyAll_now _ u.view)
              exact nowT.trans (first.trans (congrArg View.now shown))
            · rw [List.flatMap_cons, callEvents_append, ← same]
              have first : Agenda.Run u.view.agenda _ v.view.agenda :=
                seen ▸ applyAll_agenda_run _ mine
              exact first.append more

/-- With an event ahead and no record to run, the next instant is later. -/
theorem now_lt_tickTime (wf : WellFormed sizes s) (ahead : s.view.Ahead)
    (idle : s.actQueueLen = 0) (some' : s.eventQueueLen ≠ 0) : s.now < tickTime s := by
  obtain ⟨x, ⟨v, hv, hne⟩, next⟩ := ssmNextEventTime_attained wf.queue some'
  rw [tickTime, if_pos ⟨idle, some'⟩, next, State.laterTimeAt_of_sv? hv]
  exact ahead x v.seen (view_var_of_sv? hv) hne

/-- A tick of a ready state: only a full queue makes it throw. -/
theorem ssmTick_agenda (n : Nat) (wf : WellFormed sizes s) (ready : s.view.Ready)
    (heeds : Heeds Punctual prog (ssmTickCalls sizes (prog.steps sizes) n s)) :
    (∀ e u, ssmTick sizes (prog.steps sizes) n s = .error ⟨.thrown e, u⟩ → Exhausted e) ∧
    ∀ t, ssmTick sizes (prog.steps sizes) n s = .ok t →
      WellFormed sizes t ∧ t.view.Ahead ∧ t.actQueueLen = 0 ∧ t.now = tickTime s ∧
      Agenda.Run s.view.agenda (tickEvents sizes prog n s) t.view.agenda := by
  obtain ⟨enter, notLate⟩ := tickEnter_ready wf ready
  rw [ssmTick_eq]
  unfold tickEvents
  unfold ssmTickCalls at heeds
  rcases tickUpdates_ready wf ready with ⟨u, full⟩ | ⟨u, run, wf', shown, ahead⟩
  · rw [full, error_bind]
    refine ⟨fun e u h => ?_, fun t h => (by cases h)⟩
    cases h
    exact Or.inl rfl
  · rw [run] at heeds ⊢
    rw [enter, ok_bind] at run
    rw [ok_bind, enter]
    obtain ⟨full, rest⟩ := tickSteps_agenda n wf' ahead heeds
    refine ⟨full, fun t h => ?_⟩
    obtain ⟨wfT, aheadT, idleT, nowT, more⟩ := rest t h
    refine ⟨wfT, aheadT, idleT, nowT.trans (congrArg View.now shown), ?_⟩
    have forward : Agenda.Run s.view.agenda [.advanced (tickTime s)]
        (s.view.setNow (tickTime s)).agenda := by
      rcases tickEnter_eq_ok enter with same | moved
      · have now : tickTime s = s.now := congrArg State.now same
        rw [now]
        exact .cons .nil (.advance (Nat.le_refl _) (View.noneBefore_iff.mpr ready.1))
      · exact (wf.advance moved).2
    have updates := tickUpdates_agenda _ (wf.setNow (tickTime s)) notLate run
    simp only [run]
    exact (forward.append updates).append more

end Tick

section Loop
variable {p : Platform} {sizes : SafeSizes} {prog : Program} {s₀ s t : State}
  {h : List (Event Addr Value)}

/-- What holds between two ticks of the loop. -/
structure LoopOk (sizes : QueueSizes) (s₀ : State) (h : List (Event Addr Value)) (s : State) :
    Prop where
  wellFormed : WellFormed sizes s
  ahead : s.view.Ahead
  idle : s.actQueueLen = 0
  agenda : Agenda.Run s₀.view.agenda h s.view.agenda
  forward : (Agenda.advances h).Pairwise (· > ·)

theorem advances_tickEvents (n : Nat) {u v : State} (enter : tickEnter s = .ok u)
    (updates : tickUpdates sizes u.eventQueueLen u = .ok v) :
    Agenda.advances (tickEvents sizes prog n s) = [u.now] := by
  unfold tickEvents
  simp only [enter, updates]
  rw [Agenda.advances_append, Agenda.advances_append, advances_callEvents, advances_updateEvents]
  rfl

theorem advances_tick (n : Nat) (wf : WellFormed sizes s) (ready : s.view.Ready)
    (run : ssmTick sizes (prog.steps sizes) n s = .ok t) :
    Agenda.advances (tickEvents sizes prog n s) = [tickTime s] := by
  obtain ⟨enter, -⟩ := tickEnter_ready wf ready
  rw [ssmTick, enter, ok_bind] at run
  obtain ⟨v, updates, -⟩ := bind_eq_ok.mp run
  exact advances_tickEvents n enter updates

/-- With an event pending and no record to run, a tick moves the clock. -/
theorem LoopOk.now_lt_tickTime (ok : LoopOk sizes s₀ h s)
    (more : ssmNextEventTime s ≠ ssmNever) : s.now < tickTime s := by
  have some' : s.eventQueueLen ≠ 0 := fun none => more (by rw [ssmNextEventTime, if_pos none])
  exact SsmRuntime.now_lt_tickTime ok.wellFormed ok.ahead ok.idle some'

/-- Consuming packets wakes no record. -/
theorem scheduledSet_packetCalls (rb : Nat → SsmInput) (time : Nat) (is : List Nat) (V : View) :
    (applyAll (is.map (p.packetCall rb time)) V).scheduledSet = V.scheduledSet := by
  induction is generalizing V with
  | nil => rfl
  | cons i is ih => exact ih _

theorem LoopOk.input {rb : Nat → SsmInput} {r w r' : Nat} (ok : LoopOk sizes s₀ h s)
    (punctual : InTurn Punctual (p.inputCalls rb r w s) s.view)
    (run : p.ssmInputConsume sizes rb r w s = .ok (r', t)) :
    LoopOk sizes s₀ (callEvents (p.inputCalls rb r w s) ++ h) t := by
  rw [p.ssmInputConsume_eq] at run
  obtain ⟨u, calls, last⟩ := bind_eq_ok.mp run
  cases last
  obtain ⟨wf', shown⟩ := runActions_ok ok.wellFormed (punctual.imp fun _ _ h => h.1) calls
  refine ⟨wf', ?_, ?_, ?_, ?_⟩
  · rw [shown]
    exact applyAll_ahead _ ok.ahead (punctual.imp fun _ _ h => h.2)
  · rw [← wf'.card_scheduledSet, shown, Platform.inputCalls, scheduledSet_packetCalls,
      ok.wellFormed.card_scheduledSet]
    exact ok.idle
  · rw [shown]
    exact ok.agenda.append (applyAll_agenda_run _ punctual)
  · rw [Agenda.advances_append, advances_callEvents]
    exact ok.forward

theorem TickLoop.ok (start : WellFormed sizes s₀) (empty : s₀.eventQueueLen = 0)
    (run : TickLoop p sizes Punctual prog s₀ h s) : LoopOk sizes s₀ h s := by
  have before := noneBefore_of_empty start empty s₀.now
  induction run with
  | @first n t heeds run =>
      have none : s₀.view.Ahead := by
        intro x w hw hne
        obtain ⟨v, hv, rfl⟩ := State.seen?_eq_some.mp hw
        exact absurd ⟨v, hv, hne⟩ (start.queue.empty_iff.mp empty x)
      obtain ⟨wf, ahead, idle, -, agenda⟩ := (ssmTick_agenda n start none.ready heeds).2 t run
      refine ⟨wf, ahead, idle, agenda, ?_⟩
      rw [advances_tick n start none.ready run]
      exact List.pairwise_singleton _ _
  | input run punctual done ih => exact ih.input punctual done
  | @tick n h s t run more heeds done ih =>
      have ready := ih.ahead.ready
      obtain ⟨wf, ahead, idle, now, agenda⟩ := (ssmTick_agenda n ih.wellFormed ready heeds).2 t done
      refine ⟨wf, ahead, idle, ih.agenda.append agenda, ?_⟩
      rw [Agenda.advances_append, advances_tick n ih.wellFormed ready done]
      refine List.pairwise_cons.mpr ⟨fun u hu => ?_, ih.forward⟩
      exact Nat.lt_of_le_of_lt (ih.agenda.advances_le before u hu) (ih.now_lt_tickTime more)

/-- While each delayed assignment lies strictly ahead, the clock is never wedged. -/
theorem tickLoop_neverWedged (start : WellFormed sizes s₀) (empty : s₀.eventQueueLen = 0)
    (run : TickLoop p sizes Punctual prog s₀ h s) : NeverWedged sizes Punctual prog h s := by
  have ok := run.ok start empty
  have none := noEntry_of_empty start empty
  have shown : s.view.agenda = s.agenda := view_agenda ok.wellFormed.queue
  refine ⟨fun n heeds e u stop => ?_, fun x entry never => ?_, ?_, ?_, ?_⟩
  · rcases (ssmTick_agenda n ok.wellFormed ok.ahead.ready heeds).1 e u stop with rfl | rfl
    · exact ⟨SsmError.noConfusion, SsmError.noConfusion⟩
    · exact ⟨SsmError.noConfusion, SsmError.noConfusion⟩
  · refine ssmNextEventTime_ne ok.wellFormed (fun empty => entry ?_) never
    rw [← shown]
    exact noEntry_of_empty ok.wellFormed empty x
  · rintro after earlier x t val rfl
    exact ok.agenda.delivered none
  · rintro after earlier x t val rfl kept
    have entry := ok.agenda.outstanding none x
    rw [Agenda.outstanding_of_kept after earlier kept] at entry
    obtain ⟨v, hv, hne, rfl, -⟩ := View.agenda_entry.mp entry
    exact ⟨shown ▸ entry, ok.ahead x v hv hne⟩
  · rintro after earlier x t val rfl long
    have moves := ok.forward
    rw [Agenda.advances_append] at moves
    have distinct := (List.pairwise_append.mp moves).1.imp Nat.ne_of_gt
    rw [← List.toFinset_card_of_nodup distinct] at long
    exact ok.agenda.settled none long

end Loop

/-- One variable and one record that listens to it and has been woken. -/
def oneVar : State := State.idle {1} {10} (fun _ => ⟨0, 0, 0, 0, 1, 0, false, []⟩) {20} fun _ => 10

def wakeUp : List Action := [.sensitize 1 20, .assign 1 0 (.packed 1)]

/-- Asked early, the record schedules the variable again. -/
def again (delay : Nat) : Program := fun _ _ s =>
  if s.now < 10 then [.later 1 (s.now + delay) (.packed 5)] else []

/-- A packet with a time, in every slot. -/
def packetsAt (time : Nat) : Nat → SsmInput :=
  fun _ => ⟨1, .packed 6, (PlatformTime.mk 0 0 0).setSsmTime time⟩

theorem wakeUp_wellFormed {s : State} (run : runActions defaultSafeSizes wakeUp oneVar = .ok s) :
    WellFormed defaultSafeSizes s :=
  (wellFormed_of_runActions (State.idle_wellFormed _ _ _ _ _ _)
    (State.idle_ahead _ _ _ _ _) (by decide +kernel) run).1

theorem tickLoop_neverWedged_again : ∃ s₀ h s,
    runActions defaultSafeSizes wakeUp oneVar = .ok s₀ ∧ Agenda.deliveries h = [13, 3] ∧
    NeverWedged defaultSafeSizes Punctual (again 10) h s := by
  have ends : ((runActions defaultSafeSizes wakeUp oneVar).toOption.any fun s₀ =>
      (ssmTick defaultSafeSizes ((again 10).steps defaultSafeSizes) 1 s₀).toOption.any fun s₁ =>
      (posix.ssmInputConsume defaultSafeSizes (packetsAt 3) 0 1 s₁).toOption.any fun s₂ =>
      (ssmTick defaultSafeSizes ((again 10).steps defaultSafeSizes) 1 s₂.2).toOption.any fun s₃ =>
      (ssmTick defaultSafeSizes ((again 10).steps defaultSafeSizes) 1 s₃).toOption.any fun _ =>
        s₀.eventQueueLen = 0 ∧ ssmNextEventTime s₂.2 ≠ ssmNever ∧ ssmNextEventTime s₃ ≠ ssmNever ∧
        Heeds Punctual (again 10) (ssmTickCalls defaultSafeSizes
          ((again 10).steps defaultSafeSizes) 1 s₀) ∧
        InTurn Punctual (posix.inputCalls (packetsAt 3) 0 1 s₁) s₁.view ∧
        Heeds Punctual (again 10) (ssmTickCalls defaultSafeSizes
          ((again 10).steps defaultSafeSizes) 1 s₂.2) ∧
        Heeds Punctual (again 10) (ssmTickCalls defaultSafeSizes
          ((again 10).steps defaultSafeSizes) 1 s₃) ∧
        Agenda.deliveries (tickEvents defaultSafeSizes (again 10) 1 s₃ ++
          (tickEvents defaultSafeSizes (again 10) 1 s₂.2 ++
            (callEvents (posix.inputCalls (packetsAt 3) 0 1 s₁) ++
              tickEvents defaultSafeSizes (again 10) 1 s₀))) = [13, 3]) = true := by
    decide +kernel
  simp only [Option.any_eq_true] at ends
  obtain ⟨s₀, run₀, s₁, run₁, ⟨r, s₂⟩, run₂, s₃, run₃, s₄, run₄, facts⟩ := ends
  obtain ⟨empty, more₂, more₃, heeds₀, heeds₁, heeds₂, heeds₃, times⟩ := of_decide_eq_true facts
  have start := ok_of_toOption run₀
  have first := TickLoop.first (p := posix) heeds₀ (ok_of_toOption run₁)
  have input := first.input heeds₁ (ok_of_toOption run₂)
  have last := (input.tick more₂ heeds₂ (ok_of_toOption run₃)).tick more₃ heeds₃
    (ok_of_toOption run₄)
  exact ⟨s₀, _, s₄, start, times, tickLoop_neverWedged (wakeUp_wellFormed start) empty last⟩

/-- A delayed assignment for now is accepted, and the next tick is refused. -/
theorem not_neverWedged : ¬ ∀ prog s₀ h s, WellFormed defaultSafeSizes s₀ →
    s₀.eventQueueLen = 0 → TickLoop posix defaultSafeSizes Accepted prog s₀ h s →
      NeverWedged defaultSafeSizes Accepted prog h s := by
  intro all
  have ends : ((runActions defaultSafeSizes wakeUp oneVar).toOption.any fun s₀ =>
      (ssmTick defaultSafeSizes ((again 0).steps defaultSafeSizes) 1 s₀).toOption.any fun s₁ =>
        s₀.eventQueueLen = 0 ∧ s₁.actQueueLen = 0 ∧ 0 < s₁.eventQueueLen ∧
        ssmNextEventTime s₁ ≤ s₁.now ∧
        Heeds Accepted (again 0) (ssmTickCalls defaultSafeSizes
          ((again 0).steps defaultSafeSizes) 1 s₀)) = true := by
    decide +kernel
  simp only [Option.any_eq_true] at ends
  obtain ⟨s₀, run₀, s₁, run₁, facts⟩ := ends
  obtain ⟨empty, idle, some', late, heeds⟩ := of_decide_eq_true facts
  have refused : tickEnter s₁ = .error ⟨.thrown .invalidTime, s₁⟩ := by
    rw [tickEnter, if_neg fun h => h.1 idle, if_pos ⟨idle, some'⟩, ssmSetNow, if_pos late]
    rfl
  have loop := TickLoop.first (p := posix) heeds (ok_of_toOption run₁)
  have wedged := all (again 0) s₀ _ s₁ (wakeUp_wellFormed (ok_of_toOption run₀)) empty loop
  refine (wedged.notRefused 0 (fun c hc => ?_) .invalidTime s₁ ?_).1 rfl
  · rw [ssmTickCalls, refused, error_bind] at hc
    exact absurd hc List.not_mem_nil
  · rw [ssmTick, refused, error_bind]

end SsmRuntime
