import SsmRuntime.LoopRounds
import SsmRuntime.Timespec

/-!
The main loop of the POSIX platform with `pselect` and the pipe that the thread
of the input handler writes to. The thread stores a packet and writes a byte, in
two steps; the loop reads one byte for each time it is woken up. The set of
descriptors it watches is never cleared, so another one may wake it.
-/
namespace SsmRuntime

/-- `ssm_active`. -/
def ssmActive (s : State) : Bool := decide (0 < s.actQueueLen)

/-- Where the main loop stands while it does not run its rounds; the wall time is
that of its last round. -/
inductive Pselect where
  | awake
  | asleep (wall next : Nat)
  | indefinite
  | timed (next deadline : Nat)
  | readable
  | exited (wall : Nat)
  deriving DecidableEq, Repr

/-- The loop with the bytes in the pipe and the bytes read so far; `posting` tells
that a packet is stored and its byte not yet written, and `stray` that `in_fds` has
a bit besides the one of the pipe. -/
structure PosixState where
  loop : LoopState
  fdSem : Nat
  posting : Bool
  reads : Nat
  stray : Bool
  pselect : Pselect

def PosixState.init (rb : Nat → SsmInput) (s : State) (clock : Nat) : PosixState :=
  ⟨.init rb s clock, 0, false, 0, false, .awake⟩

inductive PosixOp where
  | loop (op : LoopOp)
  | fdSemWrite
  | sleep (stray : Bool)
  | ready
  | refused
  | timeout
  | fdSemRead
  deriving DecidableEq

/-- Where the loop goes on after a step: a choice that leads back to the head of
the loop is the choice to sleep. -/
def pselectAfter (op : LoopOp) (s t : LoopState) : Pselect :=
  match op, s.phase, t.phase with
  | .branch, .polling wall next, .head => .asleep wall next
  | _, _, _ => .awake

/-- One step of the loop, of the thread of the handler, of the clock or of
`pselect`, with a pipe of a given capacity. -/
def posixStep (sizes : QueueSizes) (prog : Program) (capacity : Nat) (op : PosixOp)
    (s : PosixState) : Option PosixState :=
  match op, s.pselect with
  | .loop op, pselect =>
      if Platform.interrupts op then
        -- The thread takes no character while it is in `fd_sem_write`.
        if s.posting && posix.posts op s.loop then none
        else (posix.loopStep sizes prog op s.loop).map fun t =>
          { s with loop := t, posting := s.posting || posix.posts op s.loop }
      else if pselect = .awake then
        (posix.loopStep sizes prog op s.loop).map fun t =>
          { s with loop := t, pselect := pselectAfter op s.loop t }
      else none
  | .fdSemWrite, _ =>
      if s.posting = true ∧ s.fdSem < capacity then
        some { s with posting := false, fdSem := s.fdSem + 1 }
      else none
  -- `FD_SET` on a set that nothing has cleared: its other bits are as they are.
  | .sleep stray, .asleep wall next =>
      if next = ssmNever then
        some { s with
          stray := stray
          pselect := if ssmActive s.loop.sched then .indefinite else .exited wall }
      else
        (timespecDiff (timespecOf next) (timespecOf wall)).map fun sleepTime =>
          { s with stray := stray, pselect := .timed next (s.loop.clock + sleepTime.total.toNat) }
  | .ready, .indefinite | .ready, .timed _ _ =>
      if 0 < s.fdSem ∨ s.stray = true then some { s with pselect := .readable } else none
  -- `pselect` returns -1 for a bit that names no open descriptor.
  | .refused, .indefinite => if s.stray then some { s with pselect := .readable } else none
  | .refused, .timed _ _ => if s.stray then some { s with pselect := .awake } else none
  | .timeout, .timed _ deadline =>
      if deadline ≤ s.loop.clock ∧ s.fdSem = 0 then some { s with pselect := .awake } else none
  | .fdSemRead, .readable =>
      if 0 < s.fdSem then
        some { s with fdSem := s.fdSem - 1, reads := s.reads + 1, pselect := .awake }
      else none
  | _, _ => none

/-- As for the loop; a packet carries the clock as it is read. -/
def PosixLegal (sizes : QueueSizes) (prog : Program) (op : PosixOp) (s : PosixState) : Prop :=
  match op with
  | .loop (.arrive pkt) => pkt.time.ssmTime = s.loop.clock ∧ ssmOnHeap pkt.payload = false
  | .loop op => posix.LoopLegal sizes prog op s.loop
  | _ => True

/-- The states that interleavings of steps lead to. The clock starts no earlier
than the time of the scheduler. -/
inductive PosixRun (sizes : QueueSizes) (prog : Program) (capacity : Nat) : PosixState → Prop where
  | start {rb : Nat → SsmInput} {s : State} {clock : Nat} : WellFormed sizes s →
      s.eventQueueLen = 0 → s.now ≤ clock → clock < ssmNever →
      PosixRun sizes prog capacity (.init rb s clock)
  | step (op : PosixOp) {s t : PosixState} : PosixRun sizes prog capacity s →
      PosixLegal sizes prog op s → posixStep sizes prog capacity op s = some t →
      PosixRun sizes prog capacity t

/-- The loop is in `pselect`, or in `fd_sem_read` after it. -/
def PosixState.Blocked (s : PosixState) : Prop :=
  (∃ next deadline, s.pselect = .timed next deadline) ∨ s.pselect = .readable

/-- The loop does not sleep through an input or an event, and ends where nothing
is left to do. `input`: a loop that is blocked has no packet that is due by its
next event, or a byte is on its way. `timeout`: it sleeps for the next event, with
a valid timeout that ends no earlier. `notIndefinite`: it never waits for input
alone. `readable`: the read after the sleep does not block, if the set of
descriptors was the pipe's alone. `exited`: it ends with no event and no record to
run, and what is left in the ring came after the last look at the clock. -/
structure PosixSafe (s : PosixState) : Prop where
  input : s.Blocked → s.fdSem = 0 → s.posting = false →
    ¬ posix.readReady s.loop.ring.rbR s.loop.ring.rbW ∨
    ∃ pkt, s.loop.ring.accepted[s.loop.ring.consumed.length]? = some pkt ∧
      ssmNextEventTime s.loop.sched < posix.stamp pkt
  valid : ∀ wall next, s.pselect = .asleep wall next → next ≠ ssmNever →
    ∃ d, timespecDiff (timespecOf next) (timespecOf wall) = some d ∧ d.Normal ∧
      d.total = next - wall
  timeout : ∀ next deadline, s.pselect = .timed next deadline →
    next = ssmNextEventTime s.loop.sched ∧ next < ssmNever ∧ next ≤ deadline
  notIndefinite : s.pselect ≠ .indefinite
  readable : s.pselect = .readable → s.stray = false → 0 < s.fdSem
  wakeUps : s.reads + s.fdSem + s.posting.toNat = s.loop.ring.accepted.length
  exited : ∀ wall, s.pselect = .exited wall →
    ssmNextEventTime s.loop.sched = ssmNever ∧ s.loop.sched.actQueueLen = 0 ∧
    posix.From s.loop.ring.consumed.length wall s.loop.ring.accepted

/-- The poll of this round, or of the round that ended in the sleep, has read `rb_w`. -/
def PosixState.Polled (s : PosixState) : Prop :=
  s.loop.Found ∨ (∃ wall next, s.pselect = .asleep wall next) ∨ s.Blocked

/-- What holds in each place outside the rounds. -/
def PosixState.PlaceOk (seen : Nat) (s : PosixState) : Prop :=
  match s.pselect with
  | .awake => True
  | .asleep wall next => AsleepOk posix seen wall next s.loop
  | .indefinite => False
  | .timed next deadline => s.loop.phase = .head ∧ s.loop.ring.consumer = .idle ∧
      next = ssmNextEventTime s.loop.sched ∧ next ≠ ssmNever ∧ next ≤ deadline ∧
      posix.Behind seen next s.loop.ring
  | .readable => s.loop.phase = .head ∧ s.loop.ring.consumer = .idle ∧
      (s.stray = false → 0 < s.fdSem) ∧
      posix.Behind seen (ssmNextEventTime s.loop.sched) s.loop.ring
  | .exited wall => s.loop.phase = .head ∧ s.loop.ring.consumer = .idle ∧
      ssmNextEventTime s.loop.sched = ssmNever ∧ wall ≤ s.loop.clock ∧
      posix.From s.loop.ring.consumed.length wall s.loop.ring.accepted

/-- The invariant; a packet that the last poll has not found has its byte in the
pipe or about to be written, and bytes are read only before the next poll. -/
structure PosixInv (P seen : Nat) (s : PosixState) : Prop where
  round : RoundInv posix P seen s.loop
  posted : s.Polled → s.fdSem = 0 → s.posting = false → seen = s.loop.ring.accepted.length
  place : s.PlaceOk seen
  wakeUps : s.reads + s.fdSem + s.posting.toNat = s.loop.ring.accepted.length
  words : ∀ pkt ∈ s.loop.ring.accepted, pkt.time.ssmTime < 2 ^ 64

section Steps
variable {sizes : SafeSizes} {prog : Program} {capacity P seen : Nat} {s t : PosixState}

theorem PosixLegal.stamp {pkt : SsmInput} (legal : PosixLegal sizes prog (.loop (.arrive pkt)) s)
    (soon : s.loop.clock < ssmNever) :
    pkt.time.ssmTime < 2 ^ 64 ∧ posix.stamp pkt = s.loop.clock := by
  have word : pkt.time.ssmTime < 2 ^ 64 := by
    rw [legal.1]
    exact soon.trans (by decide)
  exact ⟨word, (posix_convert word).trans legal.1⟩

/-- The loop sleeps where a choice leads back to the head. -/
theorem pselectAfter_cases (op : LoopOp) (l u : LoopState) :
    (∃ wall next, pselectAfter op l u = .asleep wall next ∧ l.phase = .polling wall next ∧
      u.phase = .head) ∨ pselectAfter op l u = .awake := by
  unfold pselectAfter
  split
  · rename_i wall next polling head
    exact Or.inl ⟨wall, next, rfl, polling, head⟩
  · exact Or.inr rfl

theorem PosixInv.init (rb : Nat → SsmInput) (u : State) (clock : Nat) :
    PosixInv 0 0 (.init rb u clock) where
  round := ⟨.init posix True rb, rfl, rfl⟩
  posted := fun _ _ _ => rfl
  place := trivial
  wakeUps := rfl
  words := fun _ h => by cases h

/-- On this platform each poll is one that conversion can keep up with. -/
theorem PosixInv.tame {op : LoopOp} (inv : PosixInv P seen s) (soon : s.loop.clock < ssmNever)
    (legal : PosixLegal sizes prog (.loop op) s) : posix.LoopTame sizes prog op s.loop := by
  refine ⟨?_, fun _ => posix_convertible inv.words⟩
  cases op with
  | arrive pkt => exact ⟨(PosixLegal.stamp legal soon).2, legal.2⟩
  | clock _ | readWall | readNext | pollR | pollW | scale | branch | tick _ => exact legal

theorem PosixInv.clock {time : Nat} (inv : PosixInv P seen s) (forward : s.loop.clock ≤ time) :
    PosixInv P seen { s with loop := { s.loop with clock := time } } where
  round := inv.round.clock forward
  posted := inv.posted
  place := by
    have place := inv.place
    unfold PosixState.PlaceOk at place ⊢
    cases at' : s.pselect with
    | asleep wall next =>
        rw [at'] at place
        exact { place with past := place.past.trans forward }
    | exited wall =>
        rw [at'] at place
        obtain ⟨head, idle, never, past, fresh⟩ := place
        exact ⟨head, idle, never, past.trans forward, fresh⟩
    | awake | indefinite | timed _ _ | readable =>
        rw [at'] at place
        exact place
  wakeUps := inv.wakeUps
  words := inv.words

/-- A packet that is stored has its byte written next. -/
theorem PosixInv.arrive {pkt : SsmInput} (inv : PosixInv P seen s)
    (word : pkt.time.ssmTime < 2 ^ 64) (stamp : posix.stamp pkt = s.loop.clock)
    (one : (s.posting && posix.posts (.arrive pkt) s.loop) = false) :
    PosixInv P seen { s with
      loop := { s.loop with ring := posix.ssmInsertInput pkt s.loop.ring }
      posting := s.posting || posix.posts (.arrive pkt) s.loop } := by
  cases stores : posix.posts (.arrive pkt) s.loop with
  | false =>
      have same : posix.ssmInsertInput pkt s.loop.ring = s.loop.ring :=
        if_neg (of_decide_eq_false stores)
      rw [same, Bool.or_false]
      exact inv
  | true =>
      rw [stores, Bool.and_true] at one
      rw [one, Bool.or_true]
      have accepted : (posix.ssmInsertInput pkt s.loop.ring).accepted =
          s.loop.ring.accepted ++ [pkt] :=
        congrArg Ring.accepted (if_pos (of_decide_eq_true stores))
      obtain ⟨consumer, -⟩ := ssmInsertInput_consumer (p := posix) pkt s.loop.ring
      have consumed : (posix.ssmInsertInput pkt s.loop.ring).consumed = s.loop.ring.consumed := by
        unfold Platform.ssmInsertInput
        split
        · rfl
        · rfl
      refine ⟨inv.round.arrive stamp, fun _ _ h => (by cases h), ?_, ?_, fun q hq => ?_⟩
      · have place := inv.place
        unfold PosixState.PlaceOk at place ⊢
        cases at' : s.pselect with
        | asleep wall next =>
            rw [at'] at place
            exact { place with
              idle := consumer.trans place.idle
              behind := place.behind.insertInput pkt
              fresh := place.fresh.insertInput (place.past.trans (Nat.le_of_eq stamp.symm)) }
        | timed next deadline =>
            rw [at'] at place
            obtain ⟨head, idle, event, soon, ends, behind⟩ := place
            exact ⟨head, consumer.trans idle, event, soon, ends, behind.insertInput pkt⟩
        | exited wall =>
            rw [at'] at place
            obtain ⟨head, idle, never, past, fresh⟩ := place
            refine ⟨head, consumer.trans idle, never, past, ?_⟩
            simp only [consumed]
            exact fresh.insertInput (past.trans (Nat.le_of_eq stamp.symm))
        | readable =>
            rw [at'] at place
            obtain ⟨head, idle, byte, behind⟩ := place
            exact ⟨head, consumer.trans idle, byte, behind.insertInput pkt⟩
        | awake | indefinite =>
            rw [at'] at place
            exact place
      · have wakeUps := inv.wakeUps
        rw [one] at wakeUps
        simp only [accepted, List.length_append, List.length_cons, List.length_nil, Bool.toNat_true,
          Bool.toNat_false] at wakeUps ⊢
        omega
      · simp only [accepted] at hq
        rcases List.mem_append.mp hq with old | new
        · exact inv.words q old
        · rw [List.mem_singleton.mp new]
          exact word

/-- A step of the round; the choice to sleep is its last step. -/
theorem PosixInv.own {op : LoopOp} {u : LoopState} (inv : PosixInv P seen s)
    (own : Platform.interrupts op = false)
    (run : posix.loopStep sizes prog op s.loop = some u) :
    ∃ P' seen', PosixInv P' seen' { s with loop := u, pselect := pselectAfter op s.loop u } := by
  obtain ⟨P', seen', round, adv⟩ :=
    inv.round.step own (fun _ => posix_convertible inv.words) run
  have words : ∀ pkt ∈ u.ring.accepted, pkt.time.ssmTime < 2 ^ 64 := by
    rw [adv.accepted]
    exact inv.words
  have wakeUps : s.reads + s.fdSem + s.posting.toNat = u.ring.accepted.length := by
    rw [adv.accepted]
    exact inv.wakeUps
  have before : s.loop.Found → seen' = seen → s.fdSem = 0 → s.posting = false →
      seen' = u.ring.accepted.length := fun found same none wrote => by
    rw [same, adv.accepted]
    exact inv.posted (Or.inl found) none wrote
  rcases pselectAfter_cases op s.loop u with ⟨wall, next, chosen, polling, head⟩ | goesOn
  · obtain ⟨found, same, asleep⟩ := adv.asleep wall next polling head
    refine ⟨P', seen', round, fun _ => before found same, ?_, wakeUps, words⟩
    unfold PosixState.PlaceOk
    simp only [chosen]
    rw [same]
    exact asleep
  · refine ⟨P', seen', round, fun polled => ?_, ?_, wakeUps, words⟩
    · rcases polled with found | ⟨wall, next, h⟩ | ⟨next, deadline, h⟩ | h
      · rcases adv.found found with now | ⟨earlier, same⟩
        · exact fun _ _ => now
        · exact before earlier same
      · rw [show pselectAfter op s.loop u = .asleep wall next from h] at goesOn
        cases goesOn
      · rw [show pselectAfter op s.loop u = .timed next deadline from h] at goesOn
        cases goesOn
      · rw [show pselectAfter op s.loop u = .readable from h] at goesOn
        cases goesOn
    · unfold PosixState.PlaceOk
      simp only [goesOn]

/-- Where the loop sleeps, the packets that wait are later than the next event. -/
theorem AsleepOk.timeout {wall next : Nat} {l : LoopState} (asleep : AsleepOk posix seen wall next l)
    (fits : next < 2 ^ 64) :
    ∃ d, timespecDiff (timespecOf next) (timespecOf wall) = some d ∧ d.Normal ∧
      d.total = next - wall := by
  have early := asleep.early
  obtain ⟨d, run, normal, total⟩ := timespecDiff_exact (timespecOf_normal next)
    (timespecOf_normal wall) (by rw [timespecOf_total]; omega)
    (by rw [timespecOf_total, timespecOf_total]; omega)
  exact ⟨d, run, normal, by rw [total, timespecOf_total, timespecOf_total]⟩

/-- The choice between the end, and a sleep up to the next event. -/
theorem PosixInv.sleep {stray : Bool} {wall next : Nat} {P' seen' : Nat} (inv : PosixInv P seen s)
    (loop : LoopInv posix sizes P' seen' s.loop) (words : s.loop.sched.view.Soon)
    (at' : s.pselect = .asleep wall next)
    (run : posixStep sizes prog capacity (.sleep stray) s = some t) :
    PosixInv P seen t ∧ t.loop = s.loop := by
  have asleep := inv.place
  unfold PosixState.PlaceOk at asleep
  rw [at'] at asleep
  simp only at asleep
  have polled : s.Polled := Or.inr (Or.inl ⟨wall, next, at'⟩)
  unfold posixStep at run
  simp only [at'] at run
  split at run
  · rename_i never
    cases run
    have idle : s.loop.sched.actQueueLen = 0 := by
      have phase := loop.phase
      unfold Platform.PhaseOk at phase
      rw [asleep.head] at phase
      exact phase.2.1
    have inactive : ssmActive s.loop.sched = false := by
      rw [ssmActive, idle]
      rfl
    refine ⟨⟨inv.round, fun _ => inv.posted polled, ?_, inv.wakeUps, inv.words⟩, rfl⟩
    unfold PosixState.PlaceOk
    simp only [inactive]
    refine ⟨asleep.head, asleep.idle, asleep.event.symm.trans never, asleep.past, ?_⟩
    rcases asleep.behind with all | ⟨pkt, hpkt, later⟩
    · rw [all]
      exact asleep.fresh
    · have := loop.upTo pkt (List.mem_of_getElem? hpkt)
      have := loop.soon
      omega
  · rename_i soon
    obtain ⟨d, diff, rfl⟩ := Option.map_eq_some_iff.mp run
    have le : next ≤ ssmNever := asleep.event ▸ words.nextEventTime loop.wellFormed
    have fits : next < 2 ^ 64 := Nat.lt_of_le_of_lt le (by decide)
    obtain ⟨d', diff', -, total⟩ := asleep.timeout fits
    cases (Option.some.inj (diff.symm.trans diff'))
    refine ⟨⟨inv.round, fun _ => inv.posted polled, ?_, inv.wakeUps, inv.words⟩, rfl⟩
    have past := asleep.past
    refine ⟨asleep.head, asleep.idle, asleep.event, soon, ?_, asleep.behind⟩
    omega

/-- Where the loop is not in a round, nothing has been polled since the last one. -/
theorem PosixInv.wakes (inv : PosixInv P seen s) (idle : s.loop.ring.consumer = .idle)
    (fdSem reads : Nat)
    (wakeUps : reads + fdSem + s.posting.toNat = s.loop.ring.accepted.length) :
    PosixInv P seen { s with fdSem := fdSem, reads := reads, pselect := .awake } where
  round := inv.round
  posted := fun polled => by
    rcases polled with found | ⟨wall, next, h⟩ | ⟨next, deadline, h⟩ | h
    · exact absurd found (LoopState.not_found idle)
    · cases h
    · cases h
    · cases h
  place := trivial
  wakeUps := wakeUps
  words := inv.words

theorem PosixInv.step {op : PosixOp} {P' seen' : Nat} (inv : PosixInv P seen s)
    (loop : LoopInv posix sizes P' seen' s.loop) (words : s.loop.sched.view.Soon)
    (legal : PosixLegal sizes prog op s) (run : posixStep sizes prog capacity op s = some t) :
    (∃ P seen, PosixInv P seen t) ∧
      ((∃ o, posix.LoopTame sizes prog o s.loop ∧
        posix.loopStep sizes prog o s.loop = some t.loop) ∨ t.loop = s.loop) := by
  cases op with
  | loop op =>
      have tame := inv.tame loop.soon legal
      simp only [posixStep] at run
      split at run
      · rename_i interrupt
        split at run
        · cases run
        · rename_i one
          obtain ⟨u, step, rfl⟩ := Option.map_eq_some_iff.mp run
          refine ⟨⟨P, seen, ?_⟩, Or.inl ⟨op, tame, step⟩⟩
          cases op with
          | clock time =>
              cases step
              have same : (s.posting || posix.posts (.clock time) s.loop) = s.posting :=
                Bool.or_false _
              rw [same]
              exact inv.clock legal.1
          | arrive pkt =>
              cases step
              obtain ⟨word, stamp⟩ := PosixLegal.stamp legal loop.soon
              exact inv.arrive word stamp (Bool.not_eq_true _ ▸ one)
          | readWall | readNext | pollR | pollW | scale | branch | tick _ => cases interrupt
      · rename_i own
        split at run
        · obtain ⟨u, step, rfl⟩ := Option.map_eq_some_iff.mp run
          exact ⟨inv.own (Bool.not_eq_true _ ▸ own) step, Or.inl ⟨op, tame, step⟩⟩
        · cases run
  | fdSemWrite =>
      simp only [posixStep] at run
      split at run
      · rename_i can
        cases run
        refine ⟨⟨P, seen, inv.round, fun _ none => absurd none (Nat.succ_ne_zero _), ?_, ?_,
          inv.words⟩, Or.inr rfl⟩
        · have place := inv.place
          unfold PosixState.PlaceOk at place ⊢
          cases at' : s.pselect with
          | readable =>
              rw [at'] at place
              exact ⟨place.1, place.2.1, fun _ => Nat.succ_pos _, place.2.2.2⟩
          | awake | asleep _ _ | indefinite | timed _ _ | exited _ =>
              rw [at'] at place
              exact place
        · have wakeUps := inv.wakeUps
          rw [can.1] at wakeUps
          simp only [Bool.toNat_true, Bool.toNat_false] at wakeUps ⊢
          omega
      · cases run
  | sleep stray =>
      cases at' : s.pselect with
      | asleep wall next =>
          obtain ⟨inv', same⟩ := inv.sleep loop words at' run
          exact ⟨⟨P, seen, inv'⟩, Or.inr same⟩
      | awake | indefinite | timed _ _ | readable | exited _ =>
          simp only [posixStep, at'] at run
          cases run
  | ready =>
      have place := inv.place
      unfold PosixState.PlaceOk at place
      cases at' : s.pselect with
      | timed next deadline =>
          rw [at'] at place
          simp only [posixStep, at'] at run
          split at run
          · rename_i woken
            cases run
            obtain ⟨head, idle, event, -, -, behind⟩ := place
            have polled : s.Polled := Or.inr (Or.inr (Or.inl ⟨_, _, at'⟩))
            have byte : s.stray = false → 0 < s.fdSem := fun alone =>
              woken.resolve_right (by rw [alone]; exact Bool.false_ne_true)
            exact ⟨⟨P, seen, inv.round, fun _ => inv.posted polled,
              ⟨head, idle, byte, event ▸ behind⟩, inv.wakeUps, inv.words⟩, Or.inr rfl⟩
          · cases run
      | indefinite =>
          rw [at'] at place
          exact place.elim
      | awake | asleep _ _ | readable | exited _ =>
          simp only [posixStep, at'] at run
          cases run
  | refused =>
      have place := inv.place
      unfold PosixState.PlaceOk at place
      cases at' : s.pselect with
      | timed next deadline =>
          rw [at'] at place
          simp only [posixStep, at'] at run
          split at run
          · cases run
            exact ⟨⟨P, seen, inv.wakes place.2.1 _ _ inv.wakeUps⟩, Or.inr rfl⟩
          · cases run
      | indefinite =>
          rw [at'] at place
          exact place.elim
      | awake | asleep _ _ | readable | exited _ =>
          simp only [posixStep, at'] at run
          cases run
  | timeout =>
      have place := inv.place
      unfold PosixState.PlaceOk at place
      cases at' : s.pselect with
      | timed next deadline =>
          rw [at'] at place
          simp only [posixStep, at'] at run
          split at run
          · cases run
            exact ⟨⟨P, seen, inv.wakes place.2.1 _ _ inv.wakeUps⟩, Or.inr rfl⟩
          · cases run
      | awake | indefinite | asleep _ _ | readable | exited _ =>
          simp only [posixStep, at'] at run
          cases run
  | fdSemRead =>
      have place := inv.place
      unfold PosixState.PlaceOk at place
      cases at' : s.pselect with
      | readable =>
          rw [at'] at place
          simp only [posixStep, at'] at run
          split at run
          · rename_i some'
            cases run
            have wakeUps := inv.wakeUps
            exact ⟨⟨P, seen, inv.wakes place.2.1 _ _ (by omega)⟩, Or.inr rfl⟩
          · cases run
      | awake | indefinite | asleep _ _ | timed _ _ | exited _ =>
          simp only [posixStep, at'] at run
          cases run

theorem PosixRun.inv (run : PosixRun sizes prog capacity s) :
    (∃ P seen, PosixInv P seen s) ∧
      LoopRun posix sizes prog (posix.LoopTame sizes prog) s.loop ∧ s.loop.sched.view.Soon := by
  induction run with
  | start wf empty le soon =>
      exact ⟨⟨0, 0, .init _ _ _⟩, .start wf empty le soon, View.soon_of_empty wf.queue empty⟩
  | step op run legal done ih =>
      obtain ⟨⟨P, seen, inv⟩, loop, words⟩ := ih
      obtain ⟨P', seen', known⟩ := loop.inv
      obtain ⟨inv', ⟨o, tame, step⟩ | same⟩ := inv.step known words legal done
      · exact ⟨inv', loop.step o tame step, known.soonStep tame step words⟩
      · rw [same]
        exact ⟨inv', loop, words⟩

theorem PosixInv.safe {P' seen' : Nat} (inv : PosixInv P seen s)
    (loop : LoopInv posix sizes P' seen' s.loop) (words : s.loop.sched.view.Soon) :
    PosixSafe s := by
  have place := inv.place
  unfold PosixState.PlaceOk at place
  refine ⟨fun blocked none wrote => ?_, fun wall next at' soon => ?_,
    fun next deadline at' => ?_, fun at' => ?_, fun at' => ?_, inv.wakeUps, fun wall at' => ?_⟩
  · have found := inv.posted (Or.inr (Or.inr blocked)) none wrote
    obtain ⟨idle, behind⟩ : s.loop.ring.consumer = .idle ∧
        posix.Behind seen (ssmNextEventTime s.loop.sched) s.loop.ring := by
      rcases blocked with ⟨next, deadline, at'⟩ | at'
      · rw [at'] at place
        obtain ⟨-, idle, rfl, -, -, behind⟩ := place
        exact ⟨idle, behind⟩
      · rw [at'] at place
        exact ⟨place.2.1, place.2.2.2⟩
    refine behind.imp (fun all => ?_) id
    have known := inv.round.ring.consumer
    rw [idle] at known
    rw [inv.round.ring.rbR, inv.round.ring.rbW, ← known.1, all, found]
    exact not_not.mpr rfl
  · rw [at'] at place
    have asleep : AsleepOk posix seen wall next s.loop := place
    have le : next ≤ ssmNever := asleep.event ▸ words.nextEventTime loop.wellFormed
    exact asleep.timeout (Nat.lt_of_le_of_lt le (by decide))
  · rw [at'] at place
    obtain ⟨-, -, event, soon, ends, -⟩ := place
    have le : next ≤ ssmNever := event ▸ words.nextEventTime loop.wellFormed
    exact ⟨event, Nat.lt_of_le_of_ne le soon, ends⟩
  · rw [at'] at place
    exact place
  · rw [at'] at place
    exact place.2.2.1
  · rw [at'] at place
    obtain ⟨head, -, never, -, fresh⟩ := place
    have phase := loop.phase
    unfold Platform.PhaseOk at phase
    rw [head] at phase
    exact ⟨never, phase.2.1, fresh⟩

/-- In every interleaving. -/
theorem posixRun_safe (run : PosixRun sizes prog capacity s) : PosixSafe s := by
  obtain ⟨⟨P, seen, inv⟩, loop, words⟩ := run.inv
  obtain ⟨P', seen', known⟩ := loop.inv
  exact inv.safe known words

end Steps

instance (sizes : QueueSizes) (prog : Program) (op : PosixOp) (s : PosixState) :
    Decidable (PosixLegal sizes prog op s) := by
  unfold PosixLegal
  split <;> infer_instance

/-- Play a list of steps as long as each is possible and legal. -/
def playPosix (sizes : QueueSizes) (prog : Program) (capacity : Nat) :
    List PosixOp → PosixState → Option PosixState
  | [], s => some s
  | op :: ops, s =>
      if PosixLegal sizes prog op s then
        (posixStep sizes prog capacity op s).bind (playPosix sizes prog capacity ops)
      else none

theorem PosixRun.of_play {sizes : QueueSizes} {prog : Program} {capacity : Nat}
    {ops : List PosixOp} {s t : PosixState} (run : PosixRun sizes prog capacity s)
    (play : playPosix sizes prog capacity ops s = some t) : PosixRun sizes prog capacity t := by
  induction ops generalizing s with
  | nil =>
      cases play
      exact run
  | cons op ops ih =>
      rw [playPosix] at play
      split at play
      · rename_i legal
        obtain ⟨u, step, rest⟩ := Option.bind_eq_some_iff.mp play
        exact ih (run.step op legal step) rest
      · cases play

/-- The steps of a round that finds nothing to convert. -/
def posixRound : List PosixOp :=
  [.loop .readWall, .loop .readNext, .loop .pollR, .loop .pollW, .loop .scale, .loop .branch]

/-- A character wakes the loop, which sleeps again up to the event that the tick
has scheduled, and ends after it. -/
def charThenTimeout : List PosixOp :=
  [.loop (.tick 1)] ++ posixRound ++
  [.sleep false, .loop (.clock 3), .loop (.arrive (packetsAt 3 0)), .fdSemWrite, .ready,
    .fdSemRead, .loop .readWall, .loop .readNext, .loop .pollR, .loop .pollW, .loop .scale, .loop .scale,
    .loop .branch, .loop (.tick 1)] ++ posixRound ++
  [.sleep false, .loop (.clock 13), .timeout] ++ posixRound ++ [.loop (.tick 1)] ++ posixRound ++
  [.sleep false]

theorem posixRun_safe_charThenTimeout : ∃ u s,
    runActions defaultSafeSizes wakeUp oneVar = .ok u ∧
    playPosix defaultSafeSizes (again 10) 1 charThenTimeout (.init (fun _ => packetsAt 0 0) u 0) =
      some s ∧
    s.pselect = .exited 13 ∧ s.reads = 1 ∧ s.loop.sched.now = 13 ∧ PosixSafe s := by
  have ends : ((runActions defaultSafeSizes wakeUp oneVar).toOption.any fun u =>
      (playPosix defaultSafeSizes (again 10) 1 charThenTimeout
        (.init (fun _ => packetsAt 0 0) u 0)).any fun s =>
        s.pselect = .exited 13 ∧ s.reads = 1 ∧ s.loop.sched.now = 13 ∧
          u.eventQueueLen = 0 ∧ u.now = 0) = true := by
    decide +kernel
  simp only [Option.any_eq_true] at ends
  obtain ⟨u, start, s, play, facts⟩ := ends
  obtain ⟨exited, reads, now, empty, zero⟩ := of_decide_eq_true facts
  have wf := wakeUp_wellFormed (ok_of_toOption start)
  exact ⟨u, s, ok_of_toOption start, play, exited, reads, now,
    posixRun_safe (.of_play (.start wf empty (Nat.le_of_eq zero) (by decide)) play)⟩

end SsmRuntime
