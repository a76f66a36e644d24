import SsmRuntime.WrapRuns

/-!
How the main loop sleeps: a binary semaphore, which inputs and the alarm give,
and the alarm with its callback. The loop is blocked between the choice to sleep
and a give; interrupts fall anywhere between its steps.
-/
namespace SsmRuntime

/-- Where the loop stands while it does not run its rounds. `failed` is the end
of a loop whose alarm was refused or whose callback was NULL. -/
inductive Sleep where
  | awake
  | asleep (next : Nat)
  | arming (next : Nat)
  | waiting (next : Nat)
  | woken
  | canceled
  | cleared
  | failed
  deriving DecidableEq, Repr

/-- The loop with its semaphore and its alarm; `timerCb` tells whether `timer_cb`
is set, and `alarm` holds the ticks of a pending alarm. -/
structure SleepState where
  loop : LoopState
  sem : Bool
  timerCb : Bool
  alarm : Option Nat
  sleep : Sleep

def SleepState.init (rb : Nat → SsmInput) (s : State) (clock : Nat) : SleepState :=
  ⟨.init rb s clock, false, false, none, .awake⟩

/-- `counter_alarm_callback`: the callback is taken from `timer_cb` and called. -/
def SleepState.expire (s : SleepState) : SleepState :=
  { s with
    alarm := none
    timerCb := false
    sem := s.sem || s.timerCb
    sleep := if s.timerCb then s.sleep else .failed }

def ssmTimer32Top : Nat := 2 ^ 32 - 1

def ssmTimer32Guard : Nat := ssmTimer32Top / 2

/-- `COUNTER_GUARD_PERIOD_LATE_TO_SET`: the counter has passed the ticks of an
absolute alarm by no more than the guard period. -/
def LateToSet (ticks counter : Nat) : Prop :=
  (counter + 2 ^ 32 - ticks) % 2 ^ 32 ≤ ssmTimer32Guard

instance (ticks counter : Nat) : Decidable (LateToSet ticks counter) :=
  inferInstanceAs (Decidable (_ ≤ _))

inductive SleepOp where
  | loop (op : LoopOp)
  | alarm
  | sleep
  | arm
  | take
  | cancel
  | clear
  | reset
  deriving DecidableEq

namespace Platform
variable (p : Platform)

/-- A handler that has stored its packet gives the semaphore. -/
def posts (op : LoopOp) (s : LoopState) : Bool :=
  match op with
  | .arrive _ => decide (p.writeReady s.ring.rbR s.ring.rbW)
  | _ => false

/-- Whether a step is one of the clock or of a handler. -/
def interrupts : LoopOp → Bool
  | .clock _ | .arrive _ => true
  | _ => false

/-- Where the loop goes on after a step: a choice that leads back to the head of
the loop is the choice to sleep. -/
def sleepsAfter (op : LoopOp) (s t : LoopState) : Sleep :=
  match op, s.phase, t.phase with
  | .branch, .polling _ next, .head => .asleep next
  | _, _, _ => .awake

/-- One step of the loop, awake or not, of a handler or of the alarm. -/
def sleepStep (sizes : QueueSizes) (prog : Program) (op : SleepOp) (s : SleepState) :
    Option SleepState :=
  match op, s.sleep with
  | .loop op, sleep =>
      if interrupts op then
        (p.loopStep sizes prog op s.loop).map fun t =>
          { s with loop := t, sem := s.sem || p.posts op s.loop }
      else if sleep = .awake then
        (p.loopStep sizes prog op s.loop).map fun t =>
          { s with loop := t, sleep := sleepsAfter op s.loop t }
      else none
  | .alarm, _ => if s.alarm.isSome then some s.expire else none
  | .sleep, .asleep next =>
      if next = ssmNever then some { s with sleep := .waiting next }
      else if s.timerCb then some { s with sleep := .failed }
      else some { s with timerCb := true, sleep := .arming next }
  | .arm, .arming next =>
      if s.alarm.isSome then some { s with sleep := .failed }
      else
        let set := { s with alarm := some (next % 2 ^ 32), sleep := .waiting next }
        -- `COUNTER_ALARM_CFG_EXPIRE_WHEN_LATE`
        if LateToSet (next % 2 ^ 32) (s.loop.clock % 2 ^ 32) then some set.expire else some set
  | .take, .waiting next =>
      if s.sem then
        some { s with sem := false, sleep := if next = ssmNever then .awake else .woken }
      else none
  | .cancel, .woken => some { s with alarm := none, sleep := .canceled }
  | .clear, .canceled => some { s with timerCb := false, sleep := .cleared }
  | .reset, .cleared => some { s with sem := false, sleep := .awake }
  | _, _ => none

/-- A poll that conversion can keep up with. -/
def Tame (op : SleepOp) (s : SleepState) : Prop :=
  op = .loop .pollW → Convertible p .pollW s.loop.ring

/-- The loop steps on what it is granted. -/
def SleepLegal (sizes : QueueSizes) (prog : Program) (op : SleepOp) (s : SleepState) : Prop :=
  match op with
  | .loop op => p.LoopLegal sizes prog op s.loop
  | _ => True

end Platform

/-- The states that interleavings of steps lead to, each step on a condition. -/
inductive SleepRun (p : Platform) (sizes : QueueSizes) (prog : Program)
    (cond : SleepOp → SleepState → Prop) (s₀ : SleepState) : SleepState → Prop where
  | refl : SleepRun p sizes prog cond s₀ s₀
  | step (op : SleepOp) {s t : SleepState} : SleepRun p sizes prog cond s₀ s → cond op s →
      p.sleepStep sizes prog op s = some t → SleepRun p sizes prog cond s₀ t

/-- No wake-up is lost: a blocked loop has no input to take and its alarm is
pending, the alarm is never set twice and never finds its callback NULL. -/
structure NoLostWakeUp (p : Platform) (s : SleepState) : Prop where
  input : ∀ next, s.sleep = .waiting next → s.sem = false →
    ¬ p.readReady s.loop.ring.rbR s.loop.ring.rbW ∨
    ∃ pkt, s.loop.ring.accepted[s.loop.ring.consumed.length]? = some pkt ∧
      ssmNextEventTime s.loop.sched < p.stamp pkt
  alarm : ∀ next, s.sleep = .waiting next → s.sem = false →
    ssmNextEventTime s.loop.sched = ssmNever ∨
    s.alarm = some (ssmNextEventTime s.loop.sched % 2 ^ 32)
  unset : ∀ next, s.sleep = .asleep next → s.timerCb = false
  notFailed : s.sleep ≠ .failed
  callback : s.alarm.isSome → s.timerCb = true

/-- The time of the next event while the loop goes to sleep, from the choice to
the wake-up. -/
def Sleep.next? : Sleep → Option Nat
  | .asleep next | .arming next | .waiting next => some next
  | _ => none

/-- The last poll has read `rb_w`, and the loop has not woken up since. -/
def SleepState.Polled (s : SleepState) : Prop :=
  s.sleep.next?.isSome ∨
    ∃ r w, s.loop.ring.consumer = .scaling r w ∨ s.loop.ring.consumer = .consuming r w

/-- Where the main loop stands in its round. -/
def SleepState.RoundOk (s : SleepState) : Prop :=
  match s.sleep, s.loop.phase with
  | .awake, .polling _ next => next = ssmNextEventTime s.loop.sched
  | .awake, _ => s.loop.ring.consumer = .idle
  | _, phase => phase = .head ∧ s.loop.ring.consumer = .idle

/-- What `timer_cb` and the alarm are in each place. An alarm that has gone off
during the wait has given the semaphore. -/
def SleepState.TimerOk (s : SleepState) : Prop :=
  match s.sleep with
  | .awake | .asleep _ | .cleared => s.timerCb = false ∧ s.alarm = none
  | .arming next => next ≠ ssmNever ∧ s.timerCb = true ∧ s.alarm = none
  | .waiting next =>
      if next = ssmNever then s.timerCb = false ∧ s.alarm = none
      else (s.timerCb = true ∧ s.alarm = some (next % 2 ^ 32)) ∨
        (s.timerCb = false ∧ s.alarm = none ∧ s.sem = true)
  | .woken => s.alarm.isSome → s.timerCb = true
  | .canceled => s.alarm = none
  | .failed => False

/-- The packets a poll found are all taken, or the first left is later than a time. -/
def Platform.Behind (p : Platform) (seen next : Nat) (s : Ring) : Prop :=
  s.consumed.length = seen ∨
    ∃ pkt, s.accepted[s.consumed.length]? = some pkt ∧ next < p.stamp pkt

/-- The invariant; a packet that the last poll has not found has given the
semaphore, and the semaphore is cleared only before the next poll. -/
structure SleepInv (p : Platform) (P seen : Nat) (s : SleepState) : Prop where
  ring : RingInv p True P seen s.loop.ring
  handler : s.loop.ring.producer = .idle
  posted : s.Polled → s.sem = false → seen = s.loop.ring.accepted.length
  round : s.RoundOk
  behind : ∀ next ∈ s.sleep.next?, next = ssmNextEventTime s.loop.sched ∧
    p.Behind seen next s.loop.ring
  timer : s.TimerOk

section Steps
variable {p : Platform} {sizes : QueueSizes} {prog : Program} {P seen : Nat} {s t : SleepState}

theorem SleepState.not_polled (idle : s.loop.ring.consumer = .idle)
    (none : s.sleep.next? = none) : ¬ s.Polled := by
  rintro (h | ⟨r, w, h | h⟩)
  · rw [none] at h
    cases h
  · rw [idle] at h
    cases h
  · rw [idle] at h
    cases h

theorem SleepInv.init (p : Platform) (rb : Nat → SsmInput) (u : State) (clock : Nat) :
    SleepInv p 0 0 (.init rb u clock) where
  ring := .init p True rb
  handler := rfl
  posted := fun _ _ => rfl
  round := rfl
  behind := fun next h => by cases h
  timer := ⟨rfl, rfl⟩

/-- A packet that arrives is behind those that wait. -/
theorem Platform.Behind.insertInput {next : Nat} {r : Ring} (behind : p.Behind seen next r)
    (pkt : SsmInput) : p.Behind seen next (p.ssmInsertInput pkt r) := by
  unfold Platform.ssmInsertInput
  split
  · rcases behind with none | ⟨q, hq, later⟩
    · exact Or.inl none
    · refine Or.inr ⟨q, ?_, later⟩
      rw [← hq]
      exact List.getElem?_append_left (List.getElem?_eq_some_iff.mp hq).1
  · exact behind

theorem ssmInsertInput_consumer (pkt : SsmInput) (r : Ring) :
    (p.ssmInsertInput pkt r).consumer = r.consumer ∧
      (p.ssmInsertInput pkt r).producer = r.producer := by
  unfold Platform.ssmInsertInput
  split
  · exact ⟨rfl, rfl⟩
  · exact ⟨rfl, rfl⟩

/-- Giving the semaphore once more harms nothing. -/
theorem SleepState.TimerOk.post (timer : s.TimerOk) (given : Bool) (loop : LoopState) :
    SleepState.TimerOk { s with loop := loop, sem := s.sem || given } := by
  unfold SleepState.TimerOk at timer ⊢
  cases hs : s.sleep with
  | waiting next =>
      rw [hs] at timer
      simp only at timer ⊢
      split
      · rename_i never
        rwa [if_pos never] at timer
      · rename_i soon
        rw [if_neg soon] at timer
        exact timer.imp id fun fired => ⟨fired.1, fired.2.1, by rw [fired.2.2, Bool.true_or]⟩
  | awake | asleep _ | arming _ | woken | canceled | cleared | failed =>
      rw [hs] at timer
      exact timer

theorem SleepInv.interrupt {op : LoopOp} {u : LoopState} (inv : SleepInv p P seen s)
    (interrupt : Platform.interrupts op = true) (run : p.loopStep sizes prog op s.loop = some u) :
    SleepInv p P seen { s with loop := u, sem := s.sem || p.posts op s.loop } := by
  have round := inv.round
  have posted := inv.posted
  unfold SleepState.RoundOk at round
  unfold SleepState.Polled at posted
  cases op with
  | clock time =>
      cases run
      exact ⟨inv.ring, inv.handler, fun polled sem => posted polled (Bool.or_eq_false_iff.mp sem).1,
        round, inv.behind, inv.timer.post _ _⟩
  | arrive pkt =>
      cases run
      obtain ⟨consumer, producer⟩ := ssmInsertInput_consumer (p := p) pkt s.loop.ring
      refine ⟨inv.ring.insertInput inv.handler pkt, producer.trans inv.handler,
        fun polled sem => ?_, ?_, fun next hnext => ?_, inv.timer.post _ _⟩
      · obtain ⟨sem, full⟩ := Bool.or_eq_false_iff.mp sem
        have same : p.ssmInsertInput pkt s.loop.ring = s.loop.ring :=
          if_neg (of_decide_eq_false full)
        simp only [same]
        refine posted ?_ sem
        simpa only [SleepState.Polled, same] using polled
      · unfold SleepState.RoundOk
        simp only [consumer]
        exact round
      · obtain ⟨rfl, behind⟩ := inv.behind next hnext
        exact ⟨rfl, behind.insertInput pkt⟩
  | readWall | readNext | pollR | pollW | scale | branch | tick _ => cases interrupt

/-- What the loop takes from the ring, it takes in order. -/
theorem RingInv.inputConsume {tame : Prop} {ring : Ring} {r w r' : Nat} {u v : State}
    (inv : RingInv p tame P seen ring) (at' : ring.consumer = .consuming r w)
    (done : p.ssmInputConsume sizes ring.rb r w u = .ok (r', v)) :
    ∃ P', RingInv p tame P' seen (p.take (p.inputBatch ring.rb r w u) r' ring) := by
  rw [p.ssmInputConsume_eq] at done
  obtain ⟨u', -, last⟩ := bind_eq_ok.mp done
  cases last
  unfold Platform.inputBatch
  split
  · rename_i ready
    exact inv.take _ _ at' ready.1
  · have published := inv.publish at'
    refine ⟨ring.consumed.length, ?_⟩
    simp only [Platform.take, List.map_nil, List.append_nil]
    exact published

/-- A loop that takes nothing has found nothing, or a packet that is later. -/
theorem RingInv.behind {ring : Ring} {r w next : Nat} (inv : RingInv p True P seen ring)
    (at' : ring.consumer = .consuming r w)
    (left : ¬ (p.readReady r w ∧ (p.inputGet ring.rb r).time.ssmTime ≤ next)) :
    p.Behind seen next ring := by
  by_cases ready : p.readReady r w
  · obtain ⟨pkt, hpkt, time⟩ := inv.first at' ready
    refine Or.inr ⟨pkt, hpkt, ?_⟩
    rw [← time]
    exact Nat.lt_of_not_le fun le => left ⟨ready, le⟩
  · have known := inv.consumer
    rw [at'] at known
    obtain ⟨-, rfl, rfl⟩ := known
    have near := inv.near
    have seen_le := inv.seen_le
    have slots := not_not.mp ready
    rw [p.inputIdx_word, p.inputIdx_word] at slots
    exact Or.inl ((RingIndex.slot_eq_iff inv.consumed_le (by omega)).mp slots)

/-- A round of the loop; the choice to sleep is its last step. -/
theorem SleepInv.awakeStep {op : LoopOp} {u : LoopState} (inv : SleepInv p P seen s)
    (awake : s.sleep = .awake) (own : Platform.interrupts op = false)
    (tame : op = .pollW → Convertible p .pollW s.loop.ring)
    (run : p.loopStep sizes prog op s.loop = some u) :
    ∃ P' seen', SleepInv p P' seen'
      { s with loop := u, sleep := Platform.sleepsAfter op s.loop u } := by
  have round := inv.round
  have timer := inv.timer
  have posted := inv.posted
  unfold SleepState.RoundOk at round
  unfold SleepState.TimerOk at timer
  rw [awake] at round timer
  unfold Platform.loopStep at run
  split at run
  · cases own
  · cases own
  · rename_i at'
    cases run
    rw [at'] at round
    refine ⟨P, seen, inv.ring, inv.handler, fun polled => ?_, round, fun _ h => (by cases h), timer⟩
    exact posted (polled.imp (fun h => (by cases h)) id)
  · rename_i wall at'
    cases run
    refine ⟨P, seen, inv.ring, inv.handler, fun polled => ?_, rfl, fun _ h => (by cases h), timer⟩
    exact posted (polled.imp (fun h => (by cases h)) id)
  · rename_i wall next at'
    obtain ⟨ring, polledR, rfl⟩ := Option.map_eq_some_iff.mp run
    obtain ⟨idle, rfl⟩ := pollStep_pollR polledR
    rw [at'] at round
    refine ⟨P, seen, inv.ring.pollR idle, inv.handler, fun polled => ?_, ?_,
      fun _ h => (by cases h), timer⟩
    · rcases polled with h | ⟨r, w, h | h⟩
      all_goals cases h
    · unfold SleepState.RoundOk
      simp only [Platform.sleepsAfter, at']
      exact round
  · rename_i wall next at'
    obtain ⟨ring, polledW, rfl⟩ := Option.map_eq_some_iff.mp run
    obtain ⟨r, polledR, rfl⟩ := pollStep_pollW polledW
    rw [at'] at round
    refine ⟨P, _, inv.ring.pollW polledR fun _ => tame rfl, inv.handler, fun _ _ => rfl, ?_,
      fun _ h => (by cases h), timer⟩
    unfold SleepState.RoundOk
    simp only [Platform.sleepsAfter, at']
    exact round
  · rename_i wall next at'
    obtain ⟨ring, scaled, rfl⟩ := Option.map_eq_some_iff.mp run
    obtain ⟨r, w, scaling⟩ := pollStep_scale scaled
    have convertible : True → Convertible p .scale s.loop.ring := fun _ => trivial
    obtain ⟨P', inv'⟩ := inv.ring.pollStep convertible scaled
    rw [at'] at round
    simp only [Platform.pollStep, scaling] at scaled
    have same : ring.producer = s.loop.ring.producer ∧ ring.accepted = s.loop.ring.accepted := by
      split at scaled
      all_goals
        cases scaled
        exact ⟨rfl, rfl⟩
    refine ⟨P', seen, inv', same.1.trans inv.handler, fun _ sem => ?_, ?_,
      fun _ h => (by cases h), timer⟩
    · simp only [same.2]
      exact posted (Or.inr ⟨r, w, Or.inl scaling⟩) sem
    · unfold SleepState.RoundOk
      simp only [Platform.sleepsAfter, at']
      exact round
  · rename_i wall next at'
    rw [at'] at round
    split at run
    · rename_i r w polled
      unfold Platform.branch at run
      split at run
      · obtain ⟨⟨r', sched⟩, done, rfl⟩ := Option.map_eq_some_iff.mp run
        obtain ⟨P', inv'⟩ := inv.ring.inputConsume polled (ok_of_toOption done)
        have stays : Platform.sleepsAfter .branch s.loop { s.loop with
            ring := p.take (p.inputBatch s.loop.ring.rb r w s.loop.sched) r' s.loop.ring
            sched := sched
            phase := .doTick
            applied := s.loop.applied ++ p.inputCalls s.loop.ring.rb r w s.loop.sched } =
            .awake := by simp only [Platform.sleepsAfter, at']
        rw [stays]
        refine ⟨P', seen, inv', inv.handler, fun h => ?_, rfl, fun _ h => (by cases h), timer⟩
        rcases h with h | ⟨r, w, h | h⟩
        all_goals cases h
      · rename_i left
        obtain ⟨ring, leaves, rfl⟩ := Option.map_eq_some_iff.mp run
        have behind := inv.ring.behind polled left
        simp only [Platform.pollStep, polled] at leaves
        split at leaves
        · rename_i same
          cases leaves
          have ring := inv.ring.leave polled same
          by_cases due : next ≤ wall
          · simp only [if_pos due, Platform.sleepsAfter, at']
            refine ⟨P, seen, ring, inv.handler, fun h => ?_, rfl, fun _ h => (by cases h), timer⟩
            rcases h with h | ⟨r, w, h | h⟩
            all_goals cases h
          · simp only [if_neg due, Platform.sleepsAfter, at']
            refine ⟨P, seen, ring, inv.handler, fun _ sem => ?_, ⟨rfl, rfl⟩, fun next' h => ?_,
              timer⟩
            · exact posted (Or.inr ⟨r, w, Or.inr polled⟩) sem
            · cases h
              exact ⟨round, behind⟩
        · cases leaves
    · cases run
  · rename_i fuel at'
    obtain ⟨v, ticked, rfl⟩ := Option.map_eq_some_iff.mp run
    rw [at'] at round
    refine ⟨P, seen, inv.ring, inv.handler, fun polled => ?_, round, fun _ h => (by cases h), timer⟩
    exact posted (polled.imp (fun h => (by cases h)) id)
  · cases run

/-- An alarm goes off while the loop sleeps, and finds its callback. -/
theorem SleepState.TimerOk.alarm (timer : s.TimerOk) (pending : s.alarm.isSome = true) :
    s.timerCb = true ∧
      SleepState.TimerOk { s with alarm := none, timerCb := false, sem := true } := by
  unfold SleepState.TimerOk at timer ⊢
  cases hs : s.sleep with
  | waiting next =>
      rw [hs] at timer
      simp only at timer ⊢
      split at timer
      · rw [timer.2] at pending
        cases pending
      · rename_i soon
        rw [if_neg soon]
        rcases timer with ⟨cb, -⟩ | ⟨-, none, -⟩
        · exact ⟨cb, Or.inr ⟨trivial, trivial, trivial⟩⟩
        · rw [none] at pending
          cases pending
  | woken =>
      rw [hs] at timer
      exact ⟨timer pending, fun h => by cases h⟩
  | arming next =>
      rw [hs] at timer
      rw [timer.2.2] at pending
      cases pending
  | awake | asleep _ | cleared =>
      rw [hs] at timer
      rw [timer.2] at pending
      cases pending
  | canceled =>
      rw [hs] at timer
      rw [show s.alarm = none from timer] at pending
      cases pending
  | failed =>
      rw [hs] at timer
      exact timer.elim

theorem SleepInv.expire (inv : SleepInv p P seen s) (pending : s.alarm.isSome = true) :
    SleepInv p P seen s.expire := by
  obtain ⟨called, timer⟩ := inv.timer.alarm pending
  rw [SleepState.expire, if_pos called, called, Bool.or_true]
  exact ⟨inv.ring, inv.handler, fun _ sem => Bool.noConfusion sem, inv.round, inv.behind, timer⟩

/-- The wait ends with a give, and an alarm that is still pending is set. -/
theorem SleepInv.take {next : Nat} (inv : SleepInv p P seen s) (at' : s.sleep = .waiting next) :
    SleepInv p P seen { s with
      sem := false, sleep := if next = ssmNever then .awake else .woken } := by
  have timer := inv.timer
  have round := inv.round
  unfold SleepState.TimerOk at timer
  unfold SleepState.RoundOk at round
  rw [at'] at timer round
  simp only at timer
  by_cases never : next = ssmNever
  · rw [if_pos never] at timer ⊢
    refine ⟨inv.ring, inv.handler, fun polled => ?_, ?_, fun _ h => (by cases h), timer⟩
    · exact absurd polled (SleepState.not_polled round.2 rfl)
    · unfold SleepState.RoundOk
      simp only [round.1]
      exact round.2
  · rw [if_neg never] at timer ⊢
    refine ⟨inv.ring, inv.handler, fun polled => ?_, round, fun _ h => (by cases h), ?_⟩
    · exact absurd polled (SleepState.not_polled round.2 rfl)
    · intro set
      rcases timer with ⟨cb, -⟩ | ⟨-, gone, -⟩
      · exact cb
      · rw [show s.alarm = none from gone] at set
        cases set

/-- The steps between the choice to sleep and the next round. -/
theorem SleepInv.sleepStep {op : SleepOp} (inv : SleepInv p P seen s) (tame : p.Tame op s)
    (run : p.sleepStep sizes prog op s = some t) : ∃ P' seen', SleepInv p P' seen' t := by
  have timer := inv.timer
  have round := inv.round
  have posted := inv.posted
  unfold SleepState.TimerOk at timer
  unfold SleepState.RoundOk at round
  unfold Platform.sleepStep at run
  split at run
  · rename_i op sleep at'
    split at run
    · rename_i interrupt
      obtain ⟨u, step, rfl⟩ := Option.map_eq_some_iff.mp run
      exact ⟨P, seen, inv.interrupt interrupt step⟩
    · rename_i own
      split at run
      · rename_i awake
        obtain ⟨u, step, rfl⟩ := Option.map_eq_some_iff.mp run
        exact inv.awakeStep awake (Bool.not_eq_true _ ▸ own)
          (fun h => tame (congrArg SleepOp.loop h)) step
      · cases run
  · split at run
    · rename_i pending
      cases run
      exact ⟨P, seen, inv.expire pending⟩
    · cases run
  · rename_i next at'
    rw [at'] at timer round
    have behind := inv.behind next (by rw [at']; rfl)
    have polled : s.Polled := Or.inl (by rw [at']; rfl)
    split at run
    · rename_i never
      cases run
      refine ⟨P, seen, inv.ring, inv.handler, fun _ => posted polled, round, fun next' h => ?_, ?_⟩
      · cases h
        exact behind
      · unfold SleepState.TimerOk
        simp only [if_pos never]
        exact timer
    · split at run
      · rename_i set
        rw [timer.1] at set
        cases set
      · cases run
        rename_i soon _
        refine ⟨P, seen, inv.ring, inv.handler, fun _ => posted polled, round, fun next' h => ?_,
          soon, rfl, timer.2⟩
        cases h
        exact behind
  · rename_i next at'
    rw [at'] at timer round
    have behind := inv.behind next (by rw [at']; rfl)
    have polled : s.Polled := Or.inl (by rw [at']; rfl)
    split at run
    · rename_i set
      rw [timer.2.2] at set
      cases set
    · have armed : SleepInv p P seen
          { s with alarm := some (next % 2 ^ 32), sleep := .waiting next } := by
        refine ⟨inv.ring, inv.handler, fun _ => posted polled, round, fun next' h => ?_, ?_⟩
        · cases h
          exact behind
        · unfold SleepState.TimerOk
          simp only [if_neg timer.1]
          exact Or.inl ⟨timer.2.1, trivial⟩
      split at run
      · cases run
        exact ⟨P, seen, armed.expire rfl⟩
      · cases run
        exact ⟨P, seen, armed⟩
  · rename_i next at'
    split at run
    · cases run
      exact ⟨P, seen, inv.take at'⟩
    · cases run
  · rename_i at'
    rw [at'] at round
    cases run
    exact ⟨P, seen, inv.ring, inv.handler, fun h => absurd h (SleepState.not_polled round.2 rfl),
      round, fun _ h => (by cases h), rfl⟩
  · rename_i at'
    rw [at'] at round timer
    cases run
    exact ⟨P, seen, inv.ring, inv.handler, fun h => absurd h (SleepState.not_polled round.2 rfl),
      round, fun _ h => (by cases h), rfl, timer⟩
  · rename_i at'
    rw [at'] at round timer
    cases run
    refine ⟨P, seen, inv.ring, inv.handler, fun h => absurd h (SleepState.not_polled round.2 rfl),
      ?_, fun _ h => (by cases h), timer⟩
    unfold SleepState.RoundOk
    simp only [round.1]
    exact round.2
  · cases run

theorem SleepRun.inv {rb : Nat → SsmInput} {u : State} {clock : Nat}
    (run : SleepRun p sizes prog p.Tame (.init rb u clock) s) :
    ∃ P seen, SleepInv p P seen s := by
  induction run with
  | refl => exact ⟨0, 0, .init p rb u clock⟩
  | step op run tame done ih =>
      obtain ⟨P, seen, inv⟩ := ih
      exact inv.sleepStep tame done

theorem SleepInv.noLostWakeUp (inv : SleepInv p P seen s) : NoLostWakeUp p s := by
  have timer := inv.timer
  unfold SleepState.TimerOk at timer
  refine ⟨fun next at' blocked => ?_, fun next at' blocked => ?_, fun next at' => ?_, fun at' => ?_,
    fun pending => ?_⟩
  · obtain ⟨rfl, behind⟩ := inv.behind next (by rw [at']; rfl)
    have found := inv.posted (Or.inl (by rw [at']; rfl)) blocked
    refine behind.imp (fun all => ?_) id
    have round := inv.round
    unfold SleepState.RoundOk at round
    rw [at'] at round
    have known := inv.ring.consumer
    rw [round.2] at known
    rw [inv.ring.rbR, inv.ring.rbW, ← known.1, all, found]
    exact not_not.mpr rfl
  · obtain ⟨rfl, -⟩ := inv.behind next (by rw [at']; rfl)
    rw [at'] at timer
    simp only at timer
    split at timer
    · rename_i never
      exact Or.inl never
    · rcases timer with ⟨-, set⟩ | ⟨-, -, given⟩
      · exact Or.inr set
      · rw [blocked] at given
        cases given
  · rw [at'] at timer
    exact timer.1
  · rw [at'] at timer
    exact timer
  · exact (inv.timer.alarm pending).1

/-- In every interleaving whose polls conversion can keep up with, no wake-up is
lost. -/
theorem sleepRun_noLostWakeUp {rb : Nat → SsmInput} {u : State} {clock : Nat}
    (run : SleepRun p sizes prog p.Tame (.init rb u clock) s) : NoLostWakeUp p s := by
  obtain ⟨P, seen, inv⟩ := run.inv
  exact inv.noLostWakeUp

end Steps

instance (p : Platform) (op : SleepOp) (s : SleepState) : Decidable (p.Tame op s) :=
  inferInstanceAs (Decidable (_ → _))

/-- Play a list of steps as long as each is possible and tame. -/
def playSleep (p : Platform) (sizes : QueueSizes) (prog : Program) :
    List SleepOp → SleepState → Option SleepState
  | [], s => some s
  | op :: ops, s =>
      if p.Tame op s then (p.sleepStep sizes prog op s).bind (playSleep p sizes prog ops) else none

theorem SleepRun.of_play {p : Platform} {sizes : QueueSizes} {prog : Program} {ops : List SleepOp}
    {s₀ s t : SleepState} (run : SleepRun p sizes prog p.Tame s₀ s)
    (play : playSleep p sizes prog ops s = some t) : SleepRun p sizes prog p.Tame s₀ t := by
  induction ops generalizing s with
  | nil =>
      cases play
      exact run
  | cons op ops ih =>
      rw [playSleep] at play
      split at play
      · rename_i tame
        obtain ⟨u, step, rest⟩ := Option.bind_eq_some_iff.mp play
        exact ih (run.step op tame step) rest
      · cases play

/-- The loop polls an empty ring, a packet wakes it, and it is blocked again on
an alarm for the event that the tick scheduled. -/
def wokenByPacket : List SleepOp :=
  [.loop (.tick 1), .loop .readWall, .loop .readNext, .loop .pollR, .loop .pollW, .loop .scale,
    .loop .branch, .sleep, .arm, .loop (.clock 3), .loop (.arrive (packetOf 3)), .take, .cancel,
    .clear, .reset, .loop .readWall, .loop .readNext, .loop .pollR, .loop .pollW, .loop .scale,
    .loop .scale, .loop .branch, .loop (.tick 1), .loop .readWall, .loop .readNext, .loop .pollR,
    .loop .pollW, .loop .scale, .loop .branch, .sleep, .arm]

theorem sleepRun_noLostWakeUp_wokenByPacket : ∃ u s,
    runActions defaultSafeSizes wakeUp oneVar = .ok u ∧
    playSleep zephyr defaultSafeSizes (again 10) wokenByPacket
      (.init (fun _ => packetOf 0) u 0) = some s ∧
    s.sleep = .waiting 13 ∧ s.sem = false ∧ s.alarm = some 13 ∧ NoLostWakeUp zephyr s := by
  have ends : ((runActions defaultSafeSizes wakeUp oneVar).toOption.any fun u =>
      (playSleep zephyr defaultSafeSizes (again 10) wokenByPacket
        (.init (fun _ => packetOf 0) u 0)).any fun s =>
        s.sleep = .waiting 13 ∧ s.sem = false ∧ s.alarm = some 13) = true := by
    decide +kernel
  simp only [Option.any_eq_true] at ends
  obtain ⟨u, start, s, play, facts⟩ := ends
  obtain ⟨waits, sem, alarm⟩ := of_decide_eq_true facts
  exact ⟨u, s, ok_of_toOption start, play, waits, sem, alarm,
    sleepRun_noLostWakeUp (.of_play .refl play)⟩

section Lost

/-- One event lies far ahead of all inputs; the record that schedules it listens
to no input. -/
def farAhead : Nat := 2 ^ 60

def alone : State :=
  State.idle {1, 2} {10} (fun _ => ⟨0, 0, 0, 0, 1, 0, false, []⟩) {20} fun _ => 10

def wakeAlone : List Action := [.sensitize 2 20, .assign 2 0 (.packed 1)]

def once : Program := fun _ _ s => if s.now < 1 then [.later 2 farAhead (.packed 5)] else []

/-- The inputs come in with the event still pending. -/
structure Outlying (n : Nat) (u : State) : Prop where
  restful : Restful farAhead n u
  pending : ∃ w, u.view.var 2 = some w ∧ w.laterTime = farAhead

theorem Outlying.next {n : Nat} {u : State} (out : Outlying n u) :
    ssmNextEventTime u = farAhead := by
  have wf := out.restful.wellFormed
  obtain ⟨w, hw, time⟩ := out.pending
  obtain ⟨v, hv, rfl⟩ := State.seen?_eq_some.mp hw
  have pend : v.laterTime ≠ ssmNever := by
    rw [show v.laterTime = farAhead from time]
    decide
  have le := ssmNextEventTime_le wf.queue wf.order ⟨v, hv, pend⟩
  rw [State.laterTimeAt_of_sv? hv] at le
  exact Nat.le_antisymm (le.trans (Nat.le_of_eq time)) (out.restful.far_le (by decide))

theorem outlying_takesInputs : TakesInputs once Outlying := by
  intro n u out small
  have early : n + 1 < farAhead := by
    unfold farAhead
    omega
  obtain ⟨v, t, run, tick, rest, -, -, other⟩ :=
    out.restful.instant early (by decide) (n + 1) once
  refine ⟨out.next ▸ Nat.le_of_lt early, v, t, run, tick, rest, ?_⟩
  rw [other 2 (by decide)]
  exact out.pending

abbrev ZephyrSleep (s₀ : SleepState) (s : SleepState) : Prop :=
  SleepRun zephyr defaultSafeSizes once (zephyr.SleepLegal defaultSafeSizes once) s₀ s

/-- The loop that has not slept so far; interrupts may have given the semaphore. -/
def Sleepless (s₀ : SleepState) (s : LoopState) : Prop :=
  ∃ sem, ZephyrSleep s₀ ⟨s, sem, false, none, .awake⟩

theorem sleepless_goesOn (s₀ : SleepState) : GoesOn once (Sleepless s₀) := by
  rintro op s t ⟨sem, run⟩ legal step ticks
  cases interrupt : Platform.interrupts op with
  | true =>
      refine ⟨sem || zephyr.posts op s, run.step (.loop op) legal ?_⟩
      simp only [Platform.sleepStep, interrupt, step, if_true, Option.map_some]
  | false =>
      have stays : Platform.sleepsAfter op s t = .awake := by
        unfold Platform.sleepsAfter
        split
        · rename_i asleep
          rw [ticks rfl] at asleep
          cases asleep
        · rfl
      refine ⟨sem, run.step (.loop op) legal ?_⟩
      simp only [Platform.sleepStep, interrupt, step, if_true, Bool.false_eq_true, if_false,
        Option.map_some, stays]

/-- The first tick schedules the event far ahead. -/
theorem exists_outlying : ∃ u v, WellFormed defaultSafeSizes u ∧ u.eventQueueLen = 0 ∧
    u.now = 0 ∧ ssmTick defaultSafeSizes (once.steps defaultSafeSizes) 1 u = .ok v ∧
    Heeds Punctual once (ssmTickCalls defaultSafeSizes (once.steps defaultSafeSizes) 1 u) ∧
    Outlying 0 v := by
  have ends : ((runActions defaultSafeSizes wakeAlone alone).toOption.any fun u =>
      (ssmTick defaultSafeSizes (once.steps defaultSafeSizes) 1 u).toOption.any fun v =>
        u.eventQueueLen = 0 ∧ u.now = 0 ∧
        Heeds Punctual once (ssmTickCalls defaultSafeSizes (once.steps defaultSafeSizes) 1 u) ∧
        v.now = 0 ∧ (v.view.var 1).isSome ∧ v.eventQueueLen < 2048 ∧ v.view.scheduledSet = ∅ ∧
        v.view.triggers 1 = ∅ ∧ (∃ w ∈ v.view.var 2, w.laterTime = farAhead) ∧
        ∀ x ∈ v.view.vars, ∀ w ∈ v.view.var x, w.laterTime ≠ ssmNever →
          x ≠ 1 ∧ farAhead ≤ w.laterTime) = true := by
    decide +kernel
  simp only [Option.any_eq_true] at ends
  obtain ⟨u, start, v, tick, facts⟩ := ends
  obtain ⟨empty, now, heeds, nowV, live, room, idle, unheard, ⟨w, hw, time⟩, later⟩ :=
    of_decide_eq_true facts
  obtain ⟨wf, ahead⟩ := wellFormed_of_runActions (State.idle_wellFormed _ _ _ _ _ _)
    (State.idle_ahead _ _ _ _ _) (by decide +kernel) (ok_of_toOption start)
  have ran := ok_of_toOption tick
  obtain ⟨wf', -⟩ := (ssmTick_agenda 1 wf ahead.ready heeds).2 v ran
  refine ⟨u, v, wf, empty, now, ran, heeds, ⟨wf', nowV, live, ?_, room, idle, unheard⟩,
    w, hw, time⟩
  intro x w hw pending
  exact later x ((view_live v x).mpr (Option.isSome_of_mem hw)) w hw pending

/-- A round that finds a packet late goes to sleep on it. -/
theorem ZephyrSleep.round {s₀ : SleepState} {ring : Ring} {sched : State} {clock wall : Nat}
    {applied : List Action} {sem : Bool}
    (run : ZephyrSleep s₀
      ⟨⟨ring, sched, clock, .polling wall farAhead, applied⟩, sem, false, none, .awake⟩)
    (wrapped : ring.rbW = 0) (idle : ring.consumer = .idle) (early : wall < farAhead)
    (inTime : ¬ LateToSet (farAhead % 2 ^ 32) (clock % 2 ^ 32))
    (late : farAhead < (zephyr.inputGet ring.rb ring.rbR).time.ssmTime) :
    ZephyrSleep s₀ ⟨⟨ring, sched, clock, .head, applied⟩, sem, true,
      some (farAhead % 2 ^ 32), .waiting farAhead⟩ := by
  obtain ⟨rb, r, w, scaled, producer, consumer, accepted, consumed⟩ := ring
  simp only at wrapped idle late
  subst wrapped idle
  have polled := (run.step (.loop .pollR) trivial rfl).step (.loop .pollW) trivial rfl
  have ended := polled.step (.loop .scale) trivial (by
    simp only [Platform.sleepStep, Platform.interrupts, Platform.loopStep, Platform.pollStep,
      if_neg (Nat.not_lt_zero scaled)]
    rfl)
  have asleep := ended.step (.loop .branch) trivial (by
    simp only [Platform.sleepStep, Platform.interrupts, Platform.loopStep, Platform.branch,
      if_neg fun h : zephyr.readReady r 0 ∧ _ => Nat.not_lt.mpr h.2 late, Platform.pollStep,
      if_neg (Nat.not_le.mpr early)]
    rfl)
  refine (asleep.step .sleep trivial rfl).step .arm trivial ?_
  simp only [Platform.sleepStep, Option.isSome_none, Bool.false_eq_true, if_false, if_neg inTime]

/-- The packet whose acceptance wraps the word is left behind by a loop that
blocks. Its time is more than the guard period after the low word of the event's,
so that the alarm is not found late. -/
theorem not_noLostWakeUp : ¬ ∀ rb u clock prog s, WellFormed defaultSafeSizes u →
    u.eventQueueLen = 0 → u.now ≤ clock → clock < ssmNever →
    SleepRun zephyr defaultSafeSizes prog (zephyr.SleepLegal defaultSafeSizes prog)
      (.init rb u clock) s → NoLostWakeUp zephyr s := by
  intro all
  obtain ⟨u, v, wf, empty, now, tick, heeds, out⟩ := exists_outlying
  obtain ⟨n, hn⟩ : ∃ n, n = 2 ^ 32 - 1 := ⟨_, rfl⟩
  obtain ⟨pkt, hpkt⟩ : ∃ pkt : SsmInput, pkt = ⟨1, .packed 7, ⟨1, 0x90000000, 1⟩⟩ := ⟨_, rfl⟩
  have first : Sleepless (.init (fun _ => packetOf 0) u 0)
      { LoopState.init (fun _ => packetOf 0) u 0 with sched := v, phase := .head } := by
    refine ⟨false, SleepRun.refl.step (.loop (.tick 1)) heeds ?_⟩
    simp only [Platform.sleepStep, SleepState.init, LoopState.init, Platform.loopStep, tick]
    rfl
  have level : LevelAt Outlying 0
      { LoopState.init (fun _ => packetOf 0) u 0 with sched := v, phase := .head } :=
    ⟨⟨rfl, rfl, rfl, rfl, rfl, rfl, rfl⟩, out, rfl, rfl⟩
  obtain ⟨s, run, level⟩ := level.reach (sleepless_goesOn _) first outlying_takesInputs n (by omega)
  have came := level.arrived (sleepless_goesOn _) run (2 ^ 32 + 0x90000000) pkt
    (by rw [hpkt]; decide) (by rw [hpkt]; rfl) (by omega) (by decide)
  rw [show (n + 1) % 2 ^ 32 = 0 by omega, show n % 32 = 31 by omega, level.sched.next] at came
  obtain ⟨sem, came⟩ := came
  obtain ⟨⟨rb, r, w, scaled, producer, consumer, accepted, consumed⟩, sched, clock, phase, applied⟩
    := s
  obtain ⟨hr, -, -, -, hc, hA, hC⟩ := level.ring
  simp only at hr hc hA hC came
  have slot : zephyr.inputGet (Function.update rb 31 pkt) r = pkt := by
    show Function.update rb 31 _ (r % 32) = _
    rw [hr, show n % 32 = 31 by omega, Function.update_self]
  have late : farAhead < (zephyr.inputGet (Function.update rb 31 pkt) r).time.ssmTime := by
    rw [slot, hpkt]
    decide
  have early : 2 ^ 32 + 0x90000000 < farAhead := by decide
  have inTime : ¬ LateToSet (farAhead % 2 ^ 32) ((2 ^ 32 + 0x90000000) % 2 ^ 32) := by decide
  have blocked := came.round rfl hc early inTime late
  -- A give that is still there is taken, and the next round blocks.
  obtain ⟨wall, waits⟩ : ∃ clock, ZephyrSleep (.init (fun _ => packetOf 0) u 0)
      ⟨⟨⟨Function.update rb 31 pkt, r, 0, scaled, producer, consumer, accepted ++ [pkt], consumed⟩,
        sched, clock, .head, applied⟩, false, true, some (farAhead % 2 ^ 32),
        .waiting farAhead⟩ := by
    cases sem with
    | false => exact ⟨_, blocked⟩
    | true =>
        have woken := ((blocked.step .take trivial rfl).step .cancel trivial rfl).step .clear
          trivial rfl
        have awake := woken.step .reset trivial rfl
        have read := (awake.step (.loop .readWall) trivial rfl).step (.loop .readNext) trivial rfl
        have soon : ssmNextEventTime sched = farAhead := level.sched.next
        simp only [soon] at read
        exact ⟨_, ZephyrSleep.round read rfl hc early inTime late⟩
  have kept := all _ u 0 once _ wf empty (Nat.le_of_eq now) (by decide) waits
  rcases kept.input farAhead rfl rfl with none | ⟨q, hq, later⟩
  · refine none ?_
    show r % 32 ≠ 0 % 32
    omega
  · have at' : (accepted ++ [pkt])[consumed.length]? = some pkt := by
      rw [hC, ← hA, List.getElem?_concat_length]
    have same : q = pkt := Option.some.inj (hq.symm.trans at')
    have soon : ssmNextEventTime sched = farAhead := level.sched.next
    rw [same, hpkt, soon] at later
    revert later
    decide

end Lost

end SsmRuntime
