import SsmRuntime.InputRing
import SsmRuntime.TickLoop

/-!
The main loop of a platform: it reads the clock, then the time of the next
event, then the ring, and consumes, ticks or sleeps. Packets arrive between any
two of its steps, each with the time of the clock. The two sources of time are
merged without either overtaking the other.
-/
namespace SsmRuntime

/-- Where the loop stands; `polling` ends with the choice of what to do. -/
inductive LoopPhase where
  | head
  | gotWall (wall : Nat)
  | polling (wall next : Nat)
  | doTick
  deriving DecidableEq, Repr

/-- The loop, its ring, the scheduler and the clock; `applied` are the calls
made for packets so far. -/
structure LoopState where
  ring : Ring
  sched : State
  clock : Nat
  phase : LoopPhase
  applied : List Action

/-- The first tick is still to come. -/
def LoopState.init (rb : Nat → SsmInput) (s : State) (clock : Nat) : LoopState :=
  ⟨Ring.init rb, s, clock, .doTick, []⟩

inductive LoopOp where
  | clock (time : Nat)
  | arrive (pkt : SsmInput)
  | readWall
  | readNext
  | pollR
  | pollW
  | scale
  | branch
  | tick (fuel : Nat)
  deriving DecidableEq

namespace Platform
variable (p : Platform)

/-- The time of a packet as it was taken. -/
def stamp (pkt : SsmInput) : Nat := (p.convert pkt.time).ssmTime

/-- `ssm_insert_input` as a whole, as an interrupt runs it. -/
def ssmInsertInput (pkt : SsmInput) (s : Ring) : Ring :=
  if p.writeReady s.rbR s.rbW then
    { s with
      rb := Function.update s.rb (p.inputIdx s.rbW) pkt
      rbW := p.succ s.rbW
      accepted := s.accepted ++ [pkt] }
  else s

/-- The packets of the indices told are taken, and `rb_r` is stored. -/
def take (is : List Nat) (r : Nat) (s : Ring) : Ring :=
  { s with
    rbR := r
    consumer := .idle
    consumed := s.consumed ++ is.map fun i => (p.inputGet s.rb i).read }

/-- What the loop does once it has polled: consume and tick, tick, or sleep. -/
def branch (sizes : QueueSizes) (wall next r w : Nat) (s : LoopState) : Option LoopState :=
  if p.readReady r w ∧ (p.inputGet s.ring.rb r).time.ssmTime ≤ next then
    (p.ssmInputConsume sizes s.ring.rb r w s.sched).toOption.map fun (r', sched) =>
      { s with
        ring := p.take (p.inputBatch s.ring.rb r w s.sched) r' s.ring
        sched := sched
        phase := .doTick
        applied := s.applied ++ p.inputCalls s.ring.rb r w s.sched }
  else
    (p.pollStep .leave s.ring).map fun ring =>
      { s with ring := ring, phase := if next ≤ wall then .doTick else .head }

/-- One step of the loop, of the clock or of the handler. -/
def loopStep (sizes : QueueSizes) (prog : Program) (op : LoopOp) (s : LoopState) :
    Option LoopState :=
  match op, s.phase with
  | .clock time, _ => some { s with clock := time }
  | .arrive pkt, _ => some { s with ring := p.ssmInsertInput pkt s.ring }
  | .readWall, .head => some { s with phase := .gotWall s.clock }
  | .readNext, .gotWall wall => some { s with phase := .polling wall (ssmNextEventTime s.sched) }
  | .pollR, .polling _ _ => (p.pollStep .pollR s.ring).map fun ring => { s with ring := ring }
  | .pollW, .polling _ _ => (p.pollStep .pollW s.ring).map fun ring => { s with ring := ring }
  | .scale, .polling _ _ => (p.pollStep .scale s.ring).map fun ring => { s with ring := ring }
  | .branch, .polling wall next =>
      match s.ring.consumer with
      | .consuming r w => p.branch sizes wall next r w s
      | _ => none
  | .tick fuel, .doTick =>
      (ssmTick sizes (prog.steps sizes) fuel s.sched).toOption.map fun sched =>
        { s with sched := sched, phase := .head }
  | _, _ => none

/-- The clock never goes back, a packet carries the time of the clock and a
packed value, and step functions schedule strictly ahead. -/
def LoopLegal (sizes : QueueSizes) (prog : Program) (op : LoopOp) (s : LoopState) : Prop :=
  match op with
  | .clock time => s.clock ≤ time ∧ time < ssmNever
  | .arrive pkt => p.stamp pkt = s.clock ∧ ssmOnHeap pkt.payload = false
  | .tick fuel => Heeds Punctual prog (ssmTickCalls sizes (prog.steps sizes) fuel s.sched)
  | _ => True

/-- As legal, and each poll is one that conversion can keep up with. -/
def LoopTame (sizes : QueueSizes) (prog : Program) (op : LoopOp) (s : LoopState) : Prop :=
  p.LoopLegal sizes prog op s ∧ (op = .pollW → Convertible p .pollW s.ring)

end Platform

/-- The states that interleavings of steps lead to, each step on a condition.
The clock starts no earlier than the time of the scheduler. -/
inductive LoopRun (p : Platform) (sizes : QueueSizes) (prog : Program)
    (cond : LoopOp → LoopState → Prop) : LoopState → Prop where
  | start {rb : Nat → SsmInput} {s : State} {clock : Nat} : WellFormed sizes s →
      s.eventQueueLen = 0 → s.now ≤ clock → clock < ssmNever →
      LoopRun p sizes prog cond (LoopState.init rb s clock)
  | step (op : LoopOp) {s t : LoopState} : LoopRun p sizes prog cond s → cond op s →
      p.loopStep sizes prog op s = some t → LoopRun p sizes prog cond t

/-- Inputs in time: packets that wait and packets to come are not in the past,
no call for a packet is refused, packets are applied in order, and a tick
overtakes neither a packet nor an event. -/
structure InputsInTime (p : Platform) (sizes : QueueSizes) (prog : Program) (s : LoopState) :
    Prop where
  waiting : ∀ i pkt, s.ring.consumed.length ≤ i → s.ring.accepted[i]? = some pkt →
    s.sched.now ≤ p.stamp pkt
  coming : s.sched.now ≤ s.clock
  notRefused : ∀ wall next r w, s.phase = .polling wall next →
    s.ring.consumer = .consuming r w → ∀ u,
      p.ssmInputConsume sizes s.ring.rb r w s.sched ≠ .error ⟨.thrown .invalidTime, u⟩
  inOrder : s.applied <+:
    s.ring.accepted.map fun pkt => .later pkt.sv (p.stamp pkt) pkt.payload
  notOvertaken : s.phase = .doTick → ∀ fuel t,
    Heeds Punctual prog (ssmTickCalls sizes (prog.steps sizes) fuel s.sched) →
    ssmTick sizes (prog.steps sizes) fuel s.sched = .ok t →
      (∀ i pkt, s.ring.consumed.length ≤ i → s.ring.accepted[i]? = some pkt →
        t.now ≤ p.stamp pkt) ∧
      ∀ x time val, s.sched.agenda.entry x = some (time, val) → t.now ≤ time

section Ring
variable {p : Platform} {tame : Prop} {P seen : Nat} {s : Ring}

theorem RingInv.insertInput (inv : RingInv p tame P seen s) (handler : s.producer = .idle)
    (pkt : SsmInput) : RingInv p tame P seen (p.ssmInsertInput pkt s) := by
  unfold Platform.ssmInsertInput
  split
  · rename_i ready
    rw [inv.rbR, inv.rbW] at ready
    have le : P ≤ s.accepted.length :=
      Nat.le_trans inv.freed (Nat.le_trans inv.consumed_le inv.seen_le)
    have room := writeReady_room inv.room le ready
    have tested : RingInv p tame P seen { s with producer := .ready pkt s.rbW } :=
      { inv with producer := ⟨inv.rbW, room⟩ }
    have last := (tested.fill rfl).insertPublish rfl
    obtain ⟨rb, r, w, scaled, producer, consumer, accepted, consumed⟩ := s
    subst handler
    exact last
  · exact inv

/-- The packets of a batch are consumed one by one. -/
theorem RingInv.batch (n : Nat) {r w : Nat} (time : Nat) (inv : RingInv p tame P seen s)
    (at' : s.consumer = .consuming r w) (ready : p.readReady r w) :
    RingInv p tame P seen { s with
      consumer := .consuming (p.succ^[(p.batch s.rb w time n r).length] r) w
      consumed := s.consumed ++
        (p.batch s.rb w time n r).map fun i => (p.inputGet s.rb i).read } := by
  induction n generalizing s r with
  | zero =>
      obtain ⟨rb, rbR, rbW, scaled, producer, consumer, accepted, consumed⟩ := s
      subst at'
      simpa [Platform.batch] using inv
  | succ n ih =>
      have first := inv.consume at' ready
      rw [Platform.batch]
      split
      · rename_i same
        have rest := ih first rfl same.1
        simpa only [List.length_cons, Function.iterate_succ_apply, List.map_cons,
          List.append_assoc, List.singleton_append] using rest
      · exact first

theorem RingInv.take {r w : Nat} (time n : Nat) (inv : RingInv p tame P seen s)
    (at' : s.consumer = .consuming r w) (ready : p.readReady r w) :
    ∃ P', RingInv p tame P' seen (p.take (p.batch s.rb w time n r)
      (p.succ^[(p.batch s.rb w time n r).length] r) s) :=
  ⟨_, (inv.batch n time at' ready).publish rfl⟩

/-- What the loop finds in the slot it looks at: the first packet that waits. -/
theorem RingInv.first {r w : Nat} (inv : RingInv p True P seen s)
    (at' : s.consumer = .consuming r w) (ready : p.readReady r w) :
    ∃ pkt, s.accepted[s.consumed.length]? = some pkt ∧
      (p.inputGet s.rb r).time.ssmTime = p.stamp pkt := by
  obtain ⟨lt, slot⟩ := inv.waiting at' ready
  have known := inv.consumer
  rw [at'] at known
  obtain ⟨pkt, hpkt⟩ : ∃ pkt, s.accepted[s.consumed.length]? = some pkt :=
    ⟨_, List.getElem?_eq_getElem (Nat.lt_of_lt_of_le lt inv.seen_le)⟩
  have passed : p.edge seen s.scaled = seen := RingIndex.edge_of_le known.1
  have held := inv.slots _ pkt (Nat.le_refl _) hpkt
  rw [passed] at held
  refine ⟨pkt, hpkt, ?_⟩
  have get : p.inputGet s.rb r = p.inputGet s.rb s.consumed.length := congrArg s.rb slot
  rw [get]
  exact held.time lt trivial

theorem mem_batch_time {rb : Nat → SsmInput} {w time : Nat} (n : Nat) {r i : Nat}
    (first : (p.inputGet rb r).time.ssmTime = time) (mem : i ∈ p.batch rb w time n r) :
    (p.inputGet rb i).time.ssmTime = time := by
  induction n generalizing r with
  | zero => exact absurd mem List.not_mem_nil
  | succ n ih =>
      rw [Platform.batch] at mem
      rcases List.mem_cons.mp mem with rfl | mem
      · exact first
      · split at mem
        · rename_i same
          exact ih same.2.symm mem
        · exact absurd mem List.not_mem_nil

theorem batch_ne_nil {rb : Nat → SsmInput} {w time r : Nat} :
    p.batch rb w time p.rbSize r ≠ [] := by
  have pos := p.rbSize_pos
  cases h : p.rbSize with
  | zero => omega
  | succ n => exact List.cons_ne_nil _ _

end Ring

namespace Platform
variable (p : Platform)

/-- From an index on, the packets accepted are no earlier than a time. -/
def From (m time : Nat) (accepted : List SsmInput) : Prop :=
  ∀ i pkt, m ≤ i → accepted[i]? = some pkt → time ≤ p.stamp pkt

/-- What is known between the steps of the loop: packets that a poll has not
seen came after the clock was read, and a tick to come overtakes no packet. -/
def PhaseOk (seen : Nat) (s : LoopState) : Prop :=
  match s.phase with
  | .head => s.sched.view.Ahead ∧ s.sched.actQueueLen = 0 ∧ s.ring.consumer = .idle
  | .gotWall wall => s.sched.view.Ahead ∧ s.sched.actQueueLen = 0 ∧ s.ring.consumer = .idle ∧
      wall ≤ s.clock
  | .polling wall next => s.sched.view.Ahead ∧ s.sched.actQueueLen = 0 ∧
      next = ssmNextEventTime s.sched ∧ wall ≤ s.clock ∧
      match s.ring.consumer with
      | .idle | .polledR _ => True
      | .scaling _ _ | .consuming _ _ => p.From seen wall s.ring.accepted
  | .doTick => s.sched.view.NotLate ∧ (s.sched.actQueueLen = 0 ∨ s.sched.eventQueueLen = 0) ∧
      s.ring.consumer = .idle ∧ tickTime s.sched ≤ s.clock ∧
      p.From s.ring.consumed.length (tickTime s.sched) s.ring.accepted

end Platform

/-- The invariant of the loop; `P` and `seen` are those of its ring. -/
structure LoopInv (p : Platform) (sizes : QueueSizes) (P seen : Nat) (s : LoopState) : Prop where
  ring : RingInv p True P seen s.ring
  handler : s.ring.producer = .idle
  wellFormed : WellFormed sizes s.sched
  nowClock : s.sched.now ≤ s.clock
  soon : s.clock < ssmNever
  sorted : (s.ring.accepted.map p.stamp).Pairwise (· ≤ ·)
  upTo : ∀ pkt ∈ s.ring.accepted, p.stamp pkt ≤ s.clock
  packed : ∀ pkt ∈ s.ring.accepted, ssmOnHeap pkt.payload = false
  waiting : p.From s.ring.consumed.length s.sched.now s.ring.accepted
  applied : s.applied = s.ring.consumed.map fun x => .later x.1 x.2.2 x.2.1
  phase : p.PhaseOk seen s

section Steps
variable {p : Platform} {sizes : SafeSizes} {prog : Program} {P seen : Nat} {s t : LoopState}

theorem Platform.From.append {m time : Nat} {accepted : List SsmInput} {pkt : SsmInput}
    (from' : p.From m time accepted) (late : time ≤ p.stamp pkt) :
    p.From m time (accepted ++ [pkt]) := by
  intro i q hi hq
  rcases Nat.lt_or_ge i accepted.length with lt | ge
  · rw [List.getElem?_append_left lt] at hq
    exact from' i q hi hq
  · rw [List.getElem?_append_right ge] at hq
    obtain rfl := List.mem_singleton.mp (List.mem_of_getElem? hq)
    exact late

theorem Platform.From.mono {m m' time time' : Nat} {accepted : List SsmInput}
    (from' : p.From m time accepted) (le : m ≤ m') (le' : time' ≤ time) :
    p.From m' time' accepted :=
  fun i pkt hi hpkt => Nat.le_trans le' (from' i pkt (Nat.le_trans le hi) hpkt)

/-- All packets after one that waits are no earlier than it. -/
theorem LoopInv.from_first (inv : LoopInv p sizes P seen s) {i : Nat} {pkt : SsmInput}
    (at' : s.ring.accepted[i]? = some pkt) : p.From i (p.stamp pkt) s.ring.accepted := by
  intro j q hj hq
  rcases Nat.eq_or_lt_of_le hj with rfl | lt
  · rw [at'] at hq
    cases hq
    exact Nat.le_refl _
  · obtain ⟨hi, rfl⟩ := List.getElem?_eq_some_iff.mp at'
    obtain ⟨hj', rfl⟩ := List.getElem?_eq_some_iff.mp hq
    have := List.pairwise_iff_getElem.mp inv.sorted i j (by simpa using hi) (by simpa using hj') lt
    simpa using this

theorem LoopInv.clock {time : Nat} (inv : LoopInv p sizes P seen s) (forward : s.clock ≤ time)
    (soon : time < ssmNever) : LoopInv p sizes P seen { s with clock := time } := by
  refine { inv with
    nowClock := Nat.le_trans inv.nowClock forward
    soon := soon
    upTo := fun pkt hpkt => Nat.le_trans (inv.upTo pkt hpkt) forward
    phase := ?_ }
  have known := inv.phase
  unfold Platform.PhaseOk at known ⊢
  cases hs : s.phase with
  | head =>
      rw [hs] at known
      exact known
  | gotWall wall =>
      rw [hs] at known
      exact ⟨known.1, known.2.1, known.2.2.1, Nat.le_trans known.2.2.2 forward⟩
  | polling wall next =>
      rw [hs] at known
      obtain ⟨ahead, idle, hnext, le, rest⟩ := known
      exact ⟨ahead, idle, hnext, Nat.le_trans le forward, rest⟩
  | doTick =>
      rw [hs] at known
      obtain ⟨notLate, idle, none, le, rest⟩ := known
      exact ⟨notLate, idle, none, Nat.le_trans le forward, rest⟩

theorem LoopInv.arrive {pkt : SsmInput} (inv : LoopInv p sizes P seen s)
    (time : p.stamp pkt = s.clock) (packed : ssmOnHeap pkt.payload = false) :
    LoopInv p sizes P seen { s with ring := p.ssmInsertInput pkt s.ring } := by
  have ring := inv.ring.insertInput inv.handler pkt
  by_cases ready : p.writeReady s.ring.rbR s.ring.rbW
  · have same : p.ssmInsertInput pkt s.ring = { s.ring with
        rb := Function.update s.ring.rb (p.inputIdx s.ring.rbW) pkt
        rbW := p.succ s.ring.rbW
        accepted := s.ring.accepted ++ [pkt] } := if_pos ready
    rw [same] at ring ⊢
    refine { inv with
      ring := ring
      sorted := ?_
      upTo := fun q hq => ?_
      packed := fun q hq => ?_
      waiting := inv.waiting.append (time ▸ inv.nowClock)
      phase := ?_ }
    · simp only [List.map_append, List.map_cons, List.map_nil]
      refine List.pairwise_append.mpr ⟨inv.sorted, List.pairwise_singleton _ _, ?_⟩
      intro a ha b hb
      obtain ⟨q, hq, rfl⟩ := List.mem_map.mp ha
      rw [List.mem_singleton.mp hb, time]
      exact inv.upTo q hq
    · rcases List.mem_append.mp hq with hq | hq
      · exact inv.upTo q hq
      · exact Nat.le_of_eq ((List.mem_singleton.mp hq) ▸ time)
    · rcases List.mem_append.mp hq with hq | hq
      · exact inv.packed q hq
      · rw [List.mem_singleton.mp hq]
        exact packed
    · have known := inv.phase
      unfold Platform.PhaseOk at known ⊢
      cases hs : s.phase with
      | head | gotWall =>
          rw [hs] at known
          exact known
      | polling wall next =>
          rw [hs] at known
          obtain ⟨ahead, idle, hnext, le, rest⟩ := known
          refine ⟨ahead, idle, hnext, le, ?_⟩
          cases hc : s.ring.consumer with
          | idle | polledR => trivial
          | scaling | consuming =>
              rw [hc] at rest
              exact rest.append (time ▸ le)
      | doTick =>
          rw [hs] at known
          obtain ⟨notLate, idle, none, le, rest⟩ := known
          exact ⟨notLate, idle, none, le, rest.append (time ▸ le)⟩
  · have same : p.ssmInsertInput pkt s.ring = s.ring := if_neg ready
    rw [same]
    exact inv

theorem LoopInv.pollR {wall next : Nat} (inv : LoopInv p sizes P seen s)
    (at' : s.phase = .polling wall next) (idle : s.ring.consumer = .idle) :
    LoopInv p sizes P seen
      { s with ring := { s.ring with consumer := .polledR s.ring.rbR } } := by
  have known := inv.phase
  unfold Platform.PhaseOk at known
  rw [at'] at known
  obtain ⟨ahead, none, hnext, le, -⟩ := known
  refine { inv with ring := inv.ring.pollR idle, phase := ?_ }
  unfold Platform.PhaseOk
  rw [at']
  exact ⟨ahead, none, hnext, le, trivial⟩

theorem LoopInv.pollW {wall next r : Nat} (inv : LoopInv p sizes P seen s)
    (at' : s.phase = .polling wall next) (polled : s.ring.consumer = .polledR r)
    (tame : Convertible p .pollW s.ring) :
    LoopInv p sizes P s.ring.accepted.length
      { s with ring := { s.ring with consumer := .scaling r s.ring.rbW } } := by
  have known := inv.phase
  unfold Platform.PhaseOk at known
  rw [at'] at known
  obtain ⟨ahead, none, hnext, le, -⟩ := known
  refine { inv with ring := inv.ring.pollW polled fun _ => tame, phase := ?_ }
  unfold Platform.PhaseOk
  rw [at']
  refine ⟨ahead, none, hnext, le, fun i pkt hi hpkt => ?_⟩
  have lt := (List.getElem?_eq_some_iff.mp hpkt).1
  exact absurd lt (Nat.not_lt.mpr hi)

/-- Converting packets changes nothing for the loop. -/
theorem LoopInv.scale {wall next r w : Nat} {ring : Ring} (inv : LoopInv p sizes P seen s)
    (at' : s.phase = .polling wall next) (scaling : s.ring.consumer = .scaling r w)
    (run : p.pollStep .scale s.ring = some ring) :
    LoopInv p sizes P seen { s with ring := ring } := by
  have known := inv.phase
  unfold Platform.PhaseOk at known
  rw [at'] at known
  obtain ⟨ahead, none, hnext, le, rest⟩ := known
  rw [scaling] at rest
  simp only [Platform.pollStep, scaling] at run
  split at run
  · rename_i more
    cases run
    have step := inv.ring.scale scaling more
    rw [scaling] at step
    refine { inv with ring := step, phase := ?_ }
    unfold Platform.PhaseOk
    rw [at']
    exact ⟨ahead, none, hnext, le, rest⟩
  · rename_i last
    cases run
    refine { inv with ring := inv.ring.scaleEnd scaling last, phase := ?_ }
    unfold Platform.PhaseOk
    rw [at']
    exact ⟨ahead, none, hnext, le, rest⟩

/-- A tick that is due overtakes no packet: one that waits lies behind the
event, and one not seen came after the clock was read. -/
theorem LoopInv.from_due {wall next r w : Nat} (inv : LoopInv p sizes P seen s)
    (at' : s.ring.consumer = .consuming r w) (fresh : p.From seen wall s.ring.accepted)
    (behind : ¬ (p.readReady r w ∧ (p.inputGet s.ring.rb r).time.ssmTime ≤ next))
    (due : next ≤ wall) : p.From s.ring.consumed.length next s.ring.accepted := by
  intro i pkt hi hpkt
  rcases Nat.lt_or_ge i seen with lt | ge
  · have known := inv.ring.consumer
    rw [at'] at known
    obtain ⟨-, rfl, rfl⟩ := known
    have near := inv.ring.near
    have le := inv.ring.seen_le
    have ready : p.readReady (s.ring.consumed.length % 2 ^ p.width) (seen % 2 ^ p.width) := by
      show p.inputIdx _ ≠ p.inputIdx _
      rw [p.inputIdx_word, p.inputIdx_word]
      exact RingIndex.slot_ne (Nat.lt_of_le_of_lt hi lt) (by omega)
    obtain ⟨first, hfirst, time⟩ := inv.ring.first at' ready
    have later := inv.from_first hfirst i pkt hi hpkt
    have ahead := Nat.lt_of_not_le fun h => behind ⟨ready, h⟩
    omega
  · exact Nat.le_trans due (fresh i pkt ge hpkt)

theorem LoopInv.leave {wall next r w : Nat} {ring : Ring} (inv : LoopInv p sizes P seen s)
    (at' : s.phase = .polling wall next) (polled : s.ring.consumer = .consuming r w)
    (behind : ¬ (p.readReady r w ∧ (p.inputGet s.ring.rb r).time.ssmTime ≤ next))
    (run : p.pollStep .leave s.ring = some ring) :
    LoopInv p sizes P seen
      { s with ring := ring, phase := if next ≤ wall then .doTick else .head } := by
  have known := inv.phase
  unfold Platform.PhaseOk at known
  rw [at'] at known
  obtain ⟨ahead, none, hnext, le, fresh⟩ := known
  simp only [polled] at fresh
  simp only [Platform.pollStep, polled] at run
  split at run
  · rename_i same
    cases run
    refine { inv with ring := inv.ring.leave polled same, phase := ?_ }
    unfold Platform.PhaseOk
    by_cases due : next ≤ wall
    · simp only [if_pos due]
      have time : tickTime s.sched = next := by
        unfold tickTime
        by_cases empty : s.sched.eventQueueLen = 0
        · have never : next = ssmNever := by rw [hnext, ssmNextEventTime, if_pos empty]
          have := inv.soon
          omega
        · rw [if_pos ⟨none, empty⟩, hnext]
      rw [time]
      exact ⟨ahead.notLate, Or.inl none, trivial, Nat.le_trans due le,
        inv.from_due polled fresh behind due⟩
    · simp only [if_neg due]
      exact ⟨ahead, none, trivial⟩
  · cases run

/-- The call made for what was taken from a slot. -/
def callFor (x : Addr × Value × Nat) : Action := .later x.1 x.2.2 x.2.1

theorem map_packetCall {rb : Nat → SsmInput} {w time r : Nat} (n : Nat)
    (first : (p.inputGet rb r).time.ssmTime = time) :
    (p.batch rb w time n r).map (p.packetCall rb time) =
      ((p.batch rb w time n r).map fun i => (p.inputGet rb i).read).map callFor := by
  rw [List.map_map]
  refine List.map_congr_left fun i hi => ?_
  have same := mem_batch_time n first hi
  simp only [Platform.packetCall, Function.comp_apply, callFor, SsmInput.read, same]

/-- The calls for a batch are delayed assignments for the time of its first packet. -/
theorem LoopInv.laters {r w : Nat} (pkt : SsmInput) (n : Nat) (inv : LoopInv p sizes P seen s)
    (at' : s.ring.consumer = .consuming r w) (ready : p.readReady r w) :
    ∀ c ∈ (p.batch s.ring.rb w (p.stamp pkt) n r).map (p.packetCall s.ring.rb (p.stamp pkt)),
      LaterAt (p.stamp pkt) c := by
  intro c hc
  obtain ⟨i, hi, rfl⟩ := List.mem_map.mp hc
  refine ⟨_, _, rfl, ?_⟩
  have taken := (inv.ring.batch n (p.stamp pkt) at' ready).intact trivial
  have mem : (p.inputGet s.ring.rb i).read ∈ s.ring.consumed ++
      (p.batch s.ring.rb w (p.stamp pkt) n r).map fun i => (p.inputGet s.ring.rb i).read :=
    List.mem_append_right _ (List.mem_map_of_mem hi)
  simp only at taken
  rw [taken] at mem
  obtain ⟨q, hq, same⟩ := List.mem_map.mp mem
  have payload : q.payload = (p.inputGet s.ring.rb i).payload := congrArg (fun x => x.2.1) same
  rw [← payload]
  exact inv.packed q (List.mem_of_mem_take hq)

/-- A packet is never refused for its time. -/
theorem LoopInv.notRefused {r w : Nat} (inv : LoopInv p sizes P seen s)
    (at' : s.ring.consumer = .consuming r w) (u : State) :
    p.ssmInputConsume sizes s.ring.rb r w s.sched ≠ .error ⟨.thrown .invalidTime, u⟩ := by
  rw [p.ssmInputConsume_eq]
  unfold Platform.inputCalls Platform.inputBatch
  split
  · rename_i ready
    obtain ⟨pkt, hpkt, time⟩ := inv.ring.first at' ready.1
    rw [time]
    have soon := Nat.lt_of_le_of_lt (inv.upTo pkt (List.mem_of_getElem? hpkt)) inv.soon
    have fine := (runActions_laters _ inv.wellFormed (inv.waiting _ pkt (Nat.le_refl _) hpkt) soon
      (inv.laters pkt p.rbSize at' ready.1)).1
    intro stop
    cases run : runActions sizes ((p.batch s.ring.rb w (p.stamp pkt) p.rbSize r).map
        (p.packetCall s.ring.rb (p.stamp pkt))) s.sched with
    | ok t =>
        rw [run] at stop
        cases stop
    | error e =>
        rw [run] at stop
        cases stop
        exact fine u run
  · intro stop
    cases stop

theorem tickTime_le_of_eventAt {u : State} {time : Nat} (wf : WellFormed sizes u)
    (idle : u.actQueueLen = 0) (soon : time < ssmNever) (event : u.view.EventAt time) :
    tickTime u ≤ time := by
  obtain ⟨x, v, hv, rfl⟩ := event
  obtain ⟨v', hv', rfl⟩ := State.seen?_eq_some.mp hv
  have pend : u.Pending x := ⟨v', hv', Nat.ne_of_lt soon⟩
  have some' : u.eventQueueLen ≠ 0 := fun none => wf.queue.empty_iff.mp none x pend
  have least := ssmNextEventTime_le wf.queue wf.order pend
  rw [State.laterTimeAt_of_sv? hv'] at least
  rw [tickTime, if_pos ⟨idle, some'⟩]
  exact least

/-- Consuming packets leaves the tick to come at their time. -/
theorem LoopInv.consume {wall next r w r' : Nat} {sched : State} (inv : LoopInv p sizes P seen s)
    (at' : s.phase = .polling wall next) (polled : s.ring.consumer = .consuming r w)
    (ready : p.readReady r w) (before : (p.inputGet s.ring.rb r).time.ssmTime ≤ next)
    (run : p.ssmInputConsume sizes s.ring.rb r w s.sched = .ok (r', sched)) :
    ∃ P', LoopInv p sizes P' seen { s with
      ring := p.take (p.inputBatch s.ring.rb r w s.sched) r' s.ring
      sched := sched
      phase := .doTick
      applied := s.applied ++ p.inputCalls s.ring.rb r w s.sched } := by
  have known := inv.phase
  unfold Platform.PhaseOk at known
  rw [at'] at known
  obtain ⟨ahead, idle, rfl, -, -⟩ := known
  obtain ⟨pkt, hpkt, time⟩ := inv.ring.first polled ready
  have batch : p.inputBatch s.ring.rb r w s.sched =
      p.batch s.ring.rb w (p.stamp pkt) p.rbSize r := by
    rw [Platform.inputBatch, if_pos ⟨ready, before⟩, time]
  have calls : p.inputCalls s.ring.rb r w s.sched =
      (p.batch s.ring.rb w (p.stamp pkt) p.rbSize r).map
        (p.packetCall s.ring.rb (p.stamp pkt)) := by
    rw [Platform.inputCalls, batch, time]
  rw [p.ssmInputConsume_eq, calls, batch] at run
  rw [calls, batch]
  obtain ⟨u, done, last⟩ := bind_eq_ok.mp run
  cases last
  have mem := List.mem_of_getElem? hpkt
  have early := inv.waiting _ pkt (Nat.le_refl _) hpkt
  have soon := Nat.lt_of_le_of_lt (inv.upTo pkt mem) inv.soon
  have all := inv.laters pkt p.rbSize polled ready
  have legal := (runActions_laters _ inv.wellFormed early soon all).2 _ done
  obtain ⟨wf, shown⟩ := runActions_ok inv.wellFormed legal done
  obtain ⟨notLate, now, same, event⟩ :=
    applyAll_laters _ (V := s.sched.view) early all legal ahead.notLate
  rw [← shown] at notLate now same event
  have nonempty : (p.batch s.ring.rb w (p.stamp pkt) p.rbSize r).map
      (p.packetCall s.ring.rb (p.stamp pkt)) ≠ [] :=
        fun h => batch_ne_nil (List.map_eq_nil_iff.mp h)
  have idle' : sched.actQueueLen = 0 := by
    rw [← wf.card_scheduledSet, same, inv.wellFormed.card_scheduledSet, idle]
  have tick := tickTime_le_of_eventAt wf idle' soon (event (Or.inr nonempty))
  obtain ⟨P', ring⟩ := inv.ring.take (p.stamp pkt) p.rbSize polled ready
  have more : s.ring.consumed.length ≤ (s.ring.consumed ++
      (p.batch s.ring.rb w (p.stamp pkt) p.rbSize r).map
        fun i => (p.inputGet s.ring.rb i).read).length := by
    rw [List.length_append]
    exact Nat.le_add_right _ _
  refine ⟨P', { inv with
    ring := ring
    wellFormed := wf
    nowClock := (show sched.now = s.sched.now from now) ▸ inv.nowClock
    waiting := inv.waiting.mono more (Nat.le_of_eq now)
    applied := ?_
    phase := ?_ }⟩
  · rw [map_packetCall p.rbSize time]
    simp only [Platform.take, List.map_append, inv.applied]
    rfl
  · exact ⟨notLate, Or.inl idle', rfl, Nat.le_trans tick (inv.upTo pkt mem),
      (inv.from_first hpkt).mono more tick⟩

/-- A state whose tick is not refused is one that is ready for it. -/
theorem ready_of_ssmTick {n : Nat} {u v : State} (wf : WellFormed sizes u)
    (notLate : u.view.NotLate) (run : ssmTick sizes (prog.steps sizes) n u = .ok v) :
    u.view.Ready := by
  refine ⟨notLate, fun none x w hw hne => ?_⟩
  have idle : u.actQueueLen = 0 := by rw [← wf.card_scheduledSet, none, Finset.card_empty]
  obtain ⟨v', hv', rfl⟩ := State.seen?_eq_some.mp hw
  have pend : u.Pending x := ⟨v', hv', hne⟩
  have some' : u.eventQueueLen ≠ 0 := fun h => wf.queue.empty_iff.mp h x pend
  obtain ⟨_, enter, -⟩ := bind_eq_ok.mp run
  rw [tickEnter, if_neg fun h => h.1 idle, if_pos ⟨idle, Nat.pos_of_ne_zero some'⟩] at enter
  have least := ssmNextEventTime_le wf.queue wf.order pend
  rw [State.laterTimeAt_of_sv? hv'] at least
  exact Nat.lt_of_lt_of_le (ssmSetNow_eq_ok enter).1 least

/-- A tick of the loop moves the time to that of the instant, which overtakes
no event. -/
theorem LoopInv.ticked {n : Nat} {u : State} (inv : LoopInv p sizes P seen s)
    (at' : s.phase = .doTick)
    (heeds : Heeds Punctual prog (ssmTickCalls sizes (prog.steps sizes) n s.sched))
    (run : ssmTick sizes (prog.steps sizes) n s.sched = .ok u) :
    WellFormed sizes u ∧ u.view.Ahead ∧ u.actQueueLen = 0 ∧ u.now = tickTime s.sched ∧
      s.sched.view.agenda.NoneBefore u.now := by
  have known := inv.phase
  unfold Platform.PhaseOk at known
  rw [at'] at known
  have ready := ready_of_ssmTick inv.wellFormed known.1 run
  obtain ⟨wf, ahead, idle, now, -⟩ := (ssmTick_agenda n inv.wellFormed ready heeds).2 u run
  refine ⟨wf, ahead, idle, now, ?_⟩
  have notLate := (tickEnter_ready inv.wellFormed ready).2
  rw [now]
  intro x time val entry
  obtain ⟨v, hv, hne, rfl, -⟩ := View.agenda_entry.mp entry
  exact notLate x v hv hne

theorem LoopInv.tick {n : Nat} {u : State} (inv : LoopInv p sizes P seen s)
    (at' : s.phase = .doTick)
    (heeds : Heeds Punctual prog (ssmTickCalls sizes (prog.steps sizes) n s.sched))
    (run : ssmTick sizes (prog.steps sizes) n s.sched = .ok u) :
    LoopInv p sizes P seen { s with sched := u, phase := .head } := by
  obtain ⟨wf, ahead, idle, now, -⟩ := inv.ticked at' heeds run
  have known := inv.phase
  unfold Platform.PhaseOk at known
  rw [at'] at known
  obtain ⟨-, -, none, le, from'⟩ := known
  exact { inv with
    wellFormed := wf
    nowClock := now ▸ le
    waiting := now ▸ from'
    phase := ⟨ahead, idle, none⟩ }

theorem LoopInv.readWall (inv : LoopInv p sizes P seen s) (at' : s.phase = .head) :
    LoopInv p sizes P seen { s with phase := .gotWall s.clock } := by
  have known := inv.phase
  unfold Platform.PhaseOk at known
  rw [at'] at known
  exact { inv with phase := ⟨known.1, known.2.1, known.2.2, Nat.le_refl _⟩ }

theorem LoopInv.readNext {wall : Nat} (inv : LoopInv p sizes P seen s)
    (at' : s.phase = .gotWall wall) :
    LoopInv p sizes P seen { s with phase := .polling wall (ssmNextEventTime s.sched) } := by
  have known := inv.phase
  unfold Platform.PhaseOk at known
  rw [at'] at known
  obtain ⟨ahead, idle, none, le⟩ := known
  refine { inv with phase := ⟨ahead, idle, rfl, le, ?_⟩ }
  rw [none]
  trivial

theorem pollStep_pollR {u v : Ring} (run : p.pollStep .pollR u = some v) :
    u.consumer = .idle ∧ v = { u with consumer := .polledR u.rbR } := by
  cases hc : u.consumer with
  | idle =>
      simp only [Platform.pollStep, hc] at run
      exact ⟨rfl, (Option.some.inj run).symm⟩
  | polledR | scaling | consuming => simp [Platform.pollStep, hc] at run

theorem pollStep_pollW {u v : Ring} (run : p.pollStep .pollW u = some v) :
    ∃ r, u.consumer = .polledR r ∧ v = { u with consumer := .scaling r u.rbW } := by
  cases hc : u.consumer with
  | polledR r =>
      simp only [Platform.pollStep, hc] at run
      exact ⟨r, rfl, (Option.some.inj run).symm⟩
  | idle | scaling | consuming => simp [Platform.pollStep, hc] at run

theorem pollStep_scale {u v : Ring} (run : p.pollStep .scale u = some v) :
    ∃ r w, u.consumer = .scaling r w := by
  cases hc : u.consumer with
  | scaling r w => exact ⟨r, w, rfl⟩
  | idle | polledR | consuming => simp [Platform.pollStep, hc] at run

theorem LoopInv.step {op : LoopOp} (inv : LoopInv p sizes P seen s)
    (tame : p.LoopTame sizes prog op s) (run : p.loopStep sizes prog op s = some t) :
    ∃ P' seen', LoopInv p sizes P' seen' t := by
  obtain ⟨legal, convertible⟩ := tame
  unfold Platform.loopStep at run
  split at run
  · cases run
    exact ⟨P, seen, inv.clock legal.1 legal.2⟩
  · cases run
    exact ⟨P, seen, inv.arrive legal.1 legal.2⟩
  · rename_i at'
    cases run
    exact ⟨P, seen, inv.readWall at'⟩
  · rename_i wall at'
    cases run
    exact ⟨P, seen, inv.readNext at'⟩
  · rename_i wall next at'
    obtain ⟨ring, polled, rfl⟩ := Option.map_eq_some_iff.mp run
    obtain ⟨idle, rfl⟩ := pollStep_pollR polled
    exact ⟨P, seen, inv.pollR at' idle⟩
  · rename_i wall next at'
    obtain ⟨ring, polled, rfl⟩ := Option.map_eq_some_iff.mp run
    obtain ⟨r, polledR, rfl⟩ := pollStep_pollW polled
    exact ⟨P, _, inv.pollW at' polledR (convertible rfl)⟩
  · rename_i wall next at'
    obtain ⟨ring, polled, rfl⟩ := Option.map_eq_some_iff.mp run
    obtain ⟨r, w, scaling⟩ := pollStep_scale polled
    exact ⟨P, seen, inv.scale at' scaling polled⟩
  · rename_i wall next at'
    split at run
    · rename_i r w polled
      unfold Platform.branch at run
      split at run
      · rename_i first
        obtain ⟨⟨r', sched⟩, done, rfl⟩ := Option.map_eq_some_iff.mp run
        obtain ⟨P', inv'⟩ := inv.consume at' polled first.1 first.2 (ok_of_toOption done)
        exact ⟨P', seen, inv'⟩
      · rename_i behind
        obtain ⟨ring, left, rfl⟩ := Option.map_eq_some_iff.mp run
        exact ⟨P, seen, inv.leave at' polled behind left⟩
    · cases run
  · rename_i fuel at'
    obtain ⟨u, ticked, rfl⟩ := Option.map_eq_some_iff.mp run
    exact ⟨P, seen, inv.tick at' legal (ok_of_toOption ticked)⟩
  · cases run

end Steps

section Runs
variable {p : Platform} {sizes : SafeSizes} {prog : Program} {s : LoopState}

theorem LoopInv.init (p : Platform) {rb : Nat → SsmInput} {u : State} {clock : Nat}
    (wf : WellFormed sizes u) (empty : u.eventQueueLen = 0) (le : u.now ≤ clock)
    (soon : clock < ssmNever) : LoopInv p sizes 0 0 (LoopState.init rb u clock) where
  ring := .init p True rb
  handler := rfl
  wellFormed := wf
  nowClock := le
  soon := soon
  sorted := .nil
  upTo := fun pkt h => absurd h List.not_mem_nil
  packed := fun pkt h => absurd h List.not_mem_nil
  waiting := fun i pkt _ h => by simp [LoopState.init, Ring.init] at h
  applied := rfl
  phase := by
    refine ⟨?_, Or.inr empty, rfl, ?_, fun i pkt _ h => ?_⟩
    · exact View.noneBefore_iff.mp (noneBefore_of_empty wf empty _)
    · rw [tickTime, if_neg fun h => h.2 empty]
      exact le
    · simp [LoopState.init, Ring.init] at h

theorem LoopRun.inv (run : LoopRun p sizes prog (p.LoopTame sizes prog) s) :
    ∃ P seen, LoopInv p sizes P seen s := by
  induction run with
  | start wf empty le soon => exact ⟨0, 0, .init p wf empty le soon⟩
  | step op run tame done ih =>
      obtain ⟨P, seen, inv⟩ := ih
      exact inv.step tame done

/-- In every interleaving whose polls conversion can keep up with, inputs are
in time. -/
theorem loopRun_inTime (run : LoopRun p sizes prog (p.LoopTame sizes prog) s) :
    InputsInTime p sizes prog s := by
  obtain ⟨P, seen, inv⟩ := run.inv
  refine ⟨inv.waiting, inv.nowClock, fun wall next r w at' polled => inv.notRefused polled, ?_,
    fun at' fuel t heeds done => ?_⟩
  · rw [inv.applied, inv.ring.intact trivial, List.map_map]
    exact (List.take_prefix _ _).map _
  · obtain ⟨-, -, -, now, none⟩ := inv.ticked at' heeds done
    have known := inv.phase
    unfold Platform.PhaseOk at known
    rw [at'] at known
    refine ⟨now ▸ known.2.2.2.2, fun x time val entry => none x time val ?_⟩
    rwa [view_agenda inv.wellFormed.queue]

end Runs

namespace Platform
variable (p : Platform)

instance (sizes : QueueSizes) (prog : Program) (op : LoopOp) (s : LoopState) :
    Decidable (p.LoopLegal sizes prog op s) := by
  unfold LoopLegal
  split <;> infer_instance

instance (sizes : QueueSizes) (prog : Program) (op : LoopOp) (s : LoopState) :
    Decidable (p.LoopTame sizes prog op s) := inferInstanceAs (Decidable (_ ∧ (_ → _)))

end Platform

/-- Play a list of steps as long as each is possible and meets the condition. -/
def playLoop (p : Platform) (sizes : QueueSizes) (prog : Program) :
    List LoopOp → LoopState → Option LoopState
  | [], s => some s
  | op :: ops, s =>
      if p.LoopTame sizes prog op s then
        (p.loopStep sizes prog op s).bind (playLoop p sizes prog ops)
      else none

theorem LoopRun.of_play {p : Platform} {sizes : QueueSizes} {prog : Program} {ops : List LoopOp}
    {s t : LoopState} (run : LoopRun p sizes prog (p.LoopTame sizes prog) s)
    (play : playLoop p sizes prog ops s = some t) :
    LoopRun p sizes prog (p.LoopTame sizes prog) t := by
  induction ops generalizing s with
  | nil =>
      cases play
      exact run
  | cons op ops ih =>
      rw [playLoop] at play
      split at play
      · rename_i tame
        obtain ⟨u, step, rest⟩ := Option.bind_eq_some_iff.mp play
        exact ih (run.step op tame step) rest
      · cases play

/-- A second packet arrives during the poll that finds the first, and an event
falls due when the ring is empty. -/
def twoPackets : List LoopOp :=
  [.tick 1, .clock 3, .arrive (packetOf 3), .readWall, .readNext, .pollR, .clock 4,
    .arrive (packetOf 4), .pollW, .scale, .scale, .scale, .branch, .tick 1,
    .readWall, .readNext, .pollR, .pollW, .scale, .branch, .tick 1,
    .clock 20, .readWall, .readNext, .pollR, .pollW, .scale, .branch, .tick 1]

theorem loopRun_inTime_twoPackets : ∃ s₀ s,
    runActions defaultSafeSizes wakeUp oneVar = .ok s₀ ∧
    playLoop zephyr defaultSafeSizes (again 10) twoPackets
      (LoopState.init (fun _ => packetOf 0) s₀ 0) = some s ∧
    s.ring.consumed = [(1, .packed 3, 3), (1, .packed 4, 4)] ∧ s.sched.now = 14 ∧
    InputsInTime zephyr defaultSafeSizes (again 10) s := by
  have ends : ((runActions defaultSafeSizes wakeUp oneVar).toOption.any fun s₀ =>
      (playLoop zephyr defaultSafeSizes (again 10) twoPackets
        (LoopState.init (fun _ => packetOf 0) s₀ 0)).any fun s =>
        s₀.eventQueueLen = 0 ∧ s₀.now = 0 ∧ s.sched.now = 14 ∧
        s.ring.consumed = [(1, Value.packed 3, 3), (1, Value.packed 4, 4)]) = true := by
    decide +kernel
  simp only [Option.any_eq_true] at ends
  obtain ⟨s₀, run₀, s, play, facts⟩ := ends
  obtain ⟨empty, now, last, taken⟩ := of_decide_eq_true facts
  have start := ok_of_toOption run₀
  refine ⟨s₀, s, start, play, taken, last, loopRun_inTime (.of_play ?_ play)⟩
  exact .start (wakeUp_wellFormed start) empty (Nat.le_of_eq now) (by decide)

end SsmRuntime
