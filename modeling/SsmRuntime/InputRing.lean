import SsmRuntime.InputQueue

/-!
The input ring between its one producer, a handler, and its one consumer, the
main loop. Both sides work on copies of the indices that may be stale; every
access to shared data is a step of its own, and the steps interleave freely.
-/
namespace SsmRuntime

/-- Where the handler stands in `ssm_insert_input`. -/
inductive Producer where
  | idle
  | stamped (pkt : SsmInput)
  | readW (pkt : SsmInput) (w : Nat)
  | readR (pkt : SsmInput) (w r : Nat)
  | ready (pkt : SsmInput) (w : Nat)
  | filled (pkt : SsmInput) (w : Nat)
  deriving DecidableEq, Repr

/-- Where the main loop stands: in `poll_input_queue`, or after it. -/
inductive Consumer where
  | idle
  | polledR (r : Nat)
  | scaling (r w : Nat)
  | consuming (r w : Nat)
  deriving DecidableEq, Repr

/-- The shared ring, where both sides stand, and the packets accepted and
consumed so far. -/
structure Ring where
  rb : Nat → SsmInput
  rbR : Nat
  rbW : Nat
  scaled : Nat
  producer : Producer
  consumer : Consumer
  accepted : List SsmInput
  consumed : List (Addr × Value × Nat)

def Ring.init (rb : Nat → SsmInput) : Ring := ⟨rb, 0, 0, 0, .idle, .idle, [], []⟩

inductive RingOp where
  | insert (pkt : SsmInput)
  | insertReadW
  | insertReadR
  | insertTest
  | insertFill
  | insertPublish
  | pollR
  | pollW
  | scale
  | consume
  | publish
  | leave

/-- What the consumer takes from a slot. -/
def SsmInput.read (pkt : SsmInput) : Addr × Value × Nat := (pkt.sv, pkt.payload, pkt.time.ssmTime)

namespace Platform
variable (p : Platform)

def converted (pkt : SsmInput) : SsmInput := { pkt with time := p.convert pkt.time }

/-- The handler's steps. -/
def insertStep (op : RingOp) (s : Ring) : Option Ring :=
  match op, s.producer with
  | .insert pkt, .idle => some { s with producer := .stamped pkt }
  | .insertReadW, .stamped pkt => some { s with producer := .readW pkt s.rbW }
  | .insertReadR, .readW pkt w => some { s with producer := .readR pkt w s.rbR }
  | .insertTest, .readR pkt w r =>
      some { s with producer := if p.writeReady r w then .ready pkt w else .idle }
  | .insertFill, .ready pkt w =>
      some { s with rb := Function.update s.rb (p.inputIdx w) pkt, producer := .filled pkt w }
  | .insertPublish, .filled pkt w =>
      some { s with rbW := p.succ w, producer := .idle, accepted := s.accepted ++ [pkt] }
  | _, _ => none

/-- The main loop's steps: `scale` is one round of the loop that converts, and
`leave` is for a loop that takes nothing and stores nothing. -/
def pollStep (op : RingOp) (s : Ring) : Option Ring :=
  match op, s.consumer with
  | .pollR, .idle => some { s with consumer := .polledR s.rbR }
  | .pollW, .polledR r => some { s with consumer := .scaling r s.rbW }
  | .scale, .scaling r w =>
      if s.scaled < w then
        some { s with
          rb := Function.update s.rb (p.inputIdx s.scaled) (p.converted (p.inputGet s.rb s.scaled))
          scaled := s.scaled + 1 }
      else some { s with consumer := .consuming r w }
  | .consume, .consuming r w =>
      if p.readReady r w then
        some { s with
          consumer := .consuming (p.succ r) w
          consumed := s.consumed ++ [(p.inputGet s.rb r).read] }
      else none
  | .publish, .consuming r _ => some { s with rbR := r, consumer := .idle }
  | .leave, .consuming r _ => if r = s.rbR then some { s with consumer := .idle } else none
  | _, _ => none

def ringStep (op : RingOp) (s : Ring) : Option Ring :=
  match op with
  | .insert _ | .insertReadW | .insertReadR | .insertTest | .insertFill | .insertPublish =>
      p.insertStep op s
  | .pollR | .pollW | .scale | .consume | .publish | .leave => p.pollStep op s

/-- A step is one of the handler or one of the main loop. -/
theorem ringStep_side (op : RingOp) (s : Ring) :
    p.ringStep op s = p.insertStep op s ∨ p.ringStep op s = p.pollStep op s := by
  cases op <;> simp [ringStep]

end Platform

/-- The states that interleavings of steps lead to, each step on a condition. -/
inductive RingRun (p : Platform) (cond : RingOp → Ring → Prop) : Ring → Prop where
  | start (rb : Nat → SsmInput) : RingRun p cond (Ring.init rb)
  | step {op : RingOp} {s t : Ring} :
      RingRun p cond s → cond op s → p.ringStep op s = some t → RingRun p cond t

/-- A poll finds few packets accepted so far, or only such as the conversion
leaves alone. -/
def Convertible (p : Platform) (op : RingOp) (s : Ring) : Prop :=
  match op with
  | .pollW => s.accepted.length < 2 ^ p.width ∨
      ∀ pkt ∈ s.accepted, (p.convert pkt.time).ssmTime = pkt.time.ssmTime
  | _ => True

/-- On POSIX every poll is such a poll: times are 64-bit words. -/
theorem posix_convertible {op : RingOp} {s : Ring}
    (words : ∀ pkt ∈ s.accepted, pkt.time.ssmTime < 2 ^ 64) : Convertible posix op s := by
  cases op with
  | pollW => exact Or.inr fun pkt hpkt => posix_convert (words pkt hpkt)
  | _ => trivial

/-- The ring is a bounded queue: nothing that waits is overwritten, only what
waits is read or converted, and packets come out as they went in. -/
structure RingSafe (p : Platform) (s : Ring) : Prop where
  held : ∀ i pkt, s.consumed.length ≤ i → s.accepted[i]? = some pkt →
    (p.inputGet s.rb i).sv = pkt.sv ∧ (p.inputGet s.rb i).payload = pkt.payload
  writes : ∀ pkt w, s.producer = .ready pkt w → ∀ i, s.consumed.length ≤ i →
    i < s.accepted.length → p.inputIdx w ≠ p.inputIdx i
  reads : ∀ r w, s.consumer = .consuming r w → p.readReady r w →
    s.consumed.length < s.accepted.length ∧ p.inputIdx r = p.inputIdx s.consumed.length
  scales : ∀ r w, s.consumer = .scaling r w → s.scaled < w →
    ∃ i, s.consumed.length ≤ i ∧ i < s.accepted.length ∧ p.inputIdx s.scaled = p.inputIdx i
  inOrder : s.consumed.map (fun x => (x.1, x.2.1)) <+:
    s.accepted.map fun pkt => (pkt.sv, pkt.payload)
  bounded : s.accepted.length ≤ s.consumed.length + (p.rbSize - 1)

/-- And the time of each packet is that of its conversion. -/
structure RingOk (p : Platform) (s : Ring) : Prop extends RingSafe p s where
  intact : s.consumed <+: s.accepted.map fun pkt => (p.converted pkt).read

namespace Platform
variable (p : Platform)

/-- The first packet not passed by the conversions of polls that saw so many. -/
def edge (seen scaled : Nat) : Nat := RingIndex.edge (2 ^ p.width) seen scaled

/-- What a slot holds of a packet before and after the edge has passed it. -/
structure SlotOk (tame passed : Prop) (pkt slot : SsmInput) : Prop where
  sv : slot.sv = pkt.sv
  payload : slot.payload = pkt.payload
  raw : ¬ passed → slot.time = pkt.time
  done : passed → slot.time = pkt.time ∨ slot.time = p.convert pkt.time
  time : passed → tame → slot.time.ssmTime = (p.convert pkt.time).ssmTime

/-- What the handler knows, with `P` packets taken out and `A` accepted. -/
def ProducerOk (P A : Nat) (rb : Nat → SsmInput) : Producer → Prop
  | .idle | .stamped _ => True
  | .readW _ w => w = A % 2 ^ p.width
  | .readR _ w r => w = A % 2 ^ p.width ∧
      ∃ P', P' ≤ P ∧ A < P' + p.rbSize ∧ r = P' % 2 ^ p.width
  | .ready _ w => w = A % 2 ^ p.width ∧ A + 1 < P + p.rbSize
  | .filled pkt w => w = A % 2 ^ p.width ∧ A + 1 < P + p.rbSize ∧ p.inputGet rb A = pkt

/-- What the main loop knows, with `C` packets consumed. -/
def ConsumerOk (P C seen scaled : Nat) : Consumer → Prop
  | .idle => C = P ∧ seen % 2 ^ p.width ≤ scaled
  | .polledR r => C = P ∧ seen % 2 ^ p.width ≤ scaled ∧ r = P % 2 ^ p.width
  | .scaling r w => C = P ∧ r = P % 2 ^ p.width ∧ w = seen % 2 ^ p.width
  | .consuming r w => seen % 2 ^ p.width ≤ scaled ∧ r = C % 2 ^ p.width ∧ w = seen % 2 ^ p.width

end Platform

/-- The invariant, with `P` packets whose slots are free again and `seen`
packets found by the last poll. -/
structure RingInv (p : Platform) (tame : Prop) (P seen : Nat) (s : Ring) : Prop where
  freed : P ≤ s.consumed.length
  room : s.accepted.length < P + p.rbSize
  seen_le : seen ≤ s.accepted.length
  reached : s.consumed.length ≤ p.edge seen s.scaled
  few : seen < 2 ^ p.width → s.scaled ≤ seen
  rbR : s.rbR = P % 2 ^ p.width
  rbW : s.rbW = s.accepted.length % 2 ^ p.width
  slots : ∀ i pkt, s.consumed.length ≤ i → s.accepted[i]? = some pkt →
    p.SlotOk tame (i < p.edge seen s.scaled) pkt (p.inputGet s.rb i)
  producer : p.ProducerOk P s.accepted.length s.rb s.producer
  consumer : p.ConsumerOk P s.consumed.length seen s.scaled s.consumer
  inOrder : s.consumed.map (fun x => (x.1, x.2.1)) =
    (s.accepted.take s.consumed.length).map fun pkt => (pkt.sv, pkt.payload)
  intact : tame → s.consumed =
    (s.accepted.take s.consumed.length).map fun pkt => (p.converted pkt).read

/-- How many packets the last poll found, after a step. -/
def RingOp.found (op : RingOp) (s : Ring) (seen : Nat) : Nat :=
  match op with
  | .pollW => s.accepted.length
  | _ => seen

section Invariant
variable {p : Platform} {tame : Prop} {P seen : Nat} {s t : Ring}

theorem RingInv.init (p : Platform) (tame : Prop) (rb : Nat → SsmInput) :
    RingInv p tame 0 0 (Ring.init rb) where
  freed := Nat.le_refl _
  room := by simpa [Ring.init] using p.rbSize_pos
  seen_le := Nat.le_refl _
  reached := Nat.zero_le _
  few := fun _ => Nat.le_refl _
  rbR := (Nat.zero_mod _).symm
  rbW := (Nat.zero_mod _).symm
  slots := fun i pkt _ h => by simp [Ring.init] at h
  producer := trivial
  consumer := ⟨rfl, Nat.le_of_eq (Nat.zero_mod _)⟩
  inOrder := rfl
  intact := fun _ => rfl

theorem RingInv.consumed_le (inv : RingInv p tame P seen s) :
    s.consumed.length ≤ seen := Nat.le_trans inv.reached (RingIndex.edge_le _ _ _)

theorem RingInv.near (inv : RingInv p tame P seen s) :
    s.accepted.length < s.consumed.length + p.rbSize :=
  Nat.lt_of_lt_of_le inv.room (Nat.add_le_add_right inv.freed _)

/-- The slot of a packet that waits is not the next one to be filled. -/
theorem RingInv.slot_ne (inv : RingInv p tame P seen s) {i : Nat}
    (hi : s.consumed.length ≤ i) (lt : i < s.accepted.length) :
    p.inputIdx i ≠ p.inputIdx s.accepted.length := by
  have := inv.near
  exact RingIndex.slot_ne lt (by omega)

theorem inputGet_update_of_ne {rb : Nat → SsmInput} {i j : Nat} {pkt : SsmInput}
    (h : p.inputIdx j ≠ p.inputIdx i) :
    p.inputGet (Function.update rb (p.inputIdx i) pkt) j = p.inputGet rb j :=
  Function.update_of_ne h _ _

theorem inputGet_update_self (rb : Nat → SsmInput) (i : Nat) (pkt : SsmInput) :
    p.inputGet (Function.update rb (p.inputIdx i) pkt) i = pkt := Function.update_self _ _ _

theorem Platform.ProducerOk.mono {A Q : Nat} {rb : Nat → SsmInput} {q : Producer}
    (ok : p.ProducerOk P A rb q) (le : P ≤ Q) : p.ProducerOk Q A rb q := by
  cases q with
  | idle | stamped => trivial
  | readW pkt w => exact ok
  | readR pkt w r =>
      obtain ⟨hw, P', hP, near, hr⟩ := ok
      exact ⟨hw, P', Nat.le_trans hP le, near, hr⟩
  | ready pkt w => exact ⟨ok.1, Nat.lt_of_lt_of_le ok.2 (Nat.add_le_add_right le _)⟩
  | filled pkt w =>
      exact ⟨ok.1, Nat.lt_of_lt_of_le ok.2.1 (Nat.add_le_add_right le _), ok.2.2⟩

/-- The test of the handler is right about the ring it looked at. -/
theorem writeReady_room {P' A : Nat} (near : A < P' + p.rbSize) (le : P' ≤ A)
    (ready : p.writeReady (P' % 2 ^ p.width) (A % 2 ^ p.width)) : A + 1 < P' + p.rbSize := by
  by_contra full
  refine ready ?_
  rw [p.succ_word, p.inputIdx_word, p.inputIdx_word]
  exact (RingIndex.slot_succ_eq_iff le near).mpr (by omega)

theorem RingInv.fill {pkt : SsmInput} {w : Nat} (inv : RingInv p tame P seen s)
    (at' : s.producer = .ready pkt w) :
    RingInv p tame P seen { s with
      rb := Function.update s.rb (p.inputIdx w) pkt, producer := .filled pkt w } := by
  have known := inv.producer
  rw [at'] at known
  obtain ⟨rfl, room⟩ := known
  have slot : p.inputIdx (s.accepted.length % 2 ^ p.width) = p.inputIdx s.accepted.length :=
    p.inputIdx_word _
  refine { inv with slots := fun i q hi hq => ?_, producer := ⟨rfl, room, ?_⟩ }
  · have lt := (List.getElem?_eq_some_iff.mp hq).1
    rw [slot]
    simp only
    rw [inputGet_update_of_ne (inv.slot_ne hi lt)]
    exact inv.slots i q hi hq
  · rw [slot]
    exact inputGet_update_self _ _ _

theorem RingInv.insertPublish {pkt : SsmInput} {w : Nat} (inv : RingInv p tame P seen s)
    (at' : s.producer = .filled pkt w) :
    RingInv p tame P seen { s with
      rbW := p.succ w, producer := .idle, accepted := s.accepted ++ [pkt] } := by
  have known := inv.producer
  rw [at'] at known
  obtain ⟨rfl, room, held⟩ := known
  have le := inv.consumed_le
  have le' := inv.seen_le
  have kept : (s.accepted ++ [pkt]).take s.consumed.length = s.accepted.take s.consumed.length :=
    List.take_append_of_le_length (by omega)
  refine { inv with
    room := ?_
    seen_le := ?_
    rbW := ?_
    slots := fun i q hi hq => ?_
    producer := trivial
    inOrder := ?_
    intact := fun ok => ?_ }
  · simpa using room
  · rw [List.length_append]
    omega
  · rw [p.succ_word, List.length_append]
    rfl
  · simp only at hq hi ⊢
    rcases Nat.lt_or_ge i s.accepted.length with lt | ge
    · rw [List.getElem?_append_left lt] at hq
      exact inv.slots i q hi hq
    · have last : i = s.accepted.length := by
        have := (List.getElem?_eq_some_iff.mp hq).1
        rw [List.length_append] at this
        simp at this
        omega
      subst last
      rw [List.getElem?_concat_length] at hq
      cases hq
      have ahead : ¬ s.accepted.length < p.edge seen s.scaled := by
        have := RingIndex.edge_le (2 ^ p.width) seen s.scaled
        unfold Platform.edge
        omega
      rw [held]
      exact ⟨rfl, rfl, fun _ => rfl, fun h => absurd h ahead, fun h => absurd h ahead⟩
  · simp only
    rw [kept]
    exact inv.inOrder
  · simp only
    rw [kept]
    exact inv.intact ok

theorem RingInv.pollR (inv : RingInv p tame P seen s) (at' : s.consumer = .idle) :
    RingInv p tame P seen { s with consumer := .polledR s.rbR } := by
  have known := inv.consumer
  rw [at'] at known
  exact { inv with consumer := ⟨known.1, known.2, inv.rbR⟩ }

theorem RingInv.pollW {r : Nat} (inv : RingInv p tame P seen s) (at' : s.consumer = .polledR r)
    (few : tame → s.accepted.length < 2 ^ p.width ∨
      ∀ pkt ∈ s.accepted, (p.convert pkt.time).ssmTime = pkt.time.ssmTime) :
    RingInv p tame P s.accepted.length { s with consumer := .scaling r s.rbW } := by
  have known := inv.consumer
  rw [at'] at known
  obtain ⟨none, reached, rfl⟩ := known
  have passed : p.edge seen s.scaled = seen := RingIndex.edge_of_le reached
  have further : seen ≤ p.edge s.accepted.length s.scaled :=
    RingIndex.le_edge inv.seen_le reached
  refine { inv with
    seen_le := Nat.le_refl _
    reached := Nat.le_trans inv.consumed_le further
    few := fun h => Nat.le_trans (inv.few (Nat.lt_of_le_of_lt inv.seen_le h)) inv.seen_le
    slots := fun i pkt hi hpkt => ?_
    consumer := ⟨none, rfl, inv.rbW⟩ }
  have old := inv.slots i pkt hi hpkt
  rw [passed] at old
  refine ⟨old.sv, old.payload, fun h => old.raw (by simp only at h; omega), fun _ => ?_,
    fun h ok => ?_⟩
  · by_cases before : i < seen
    · exact old.done before
    · exact Or.inl (old.raw before)
  · by_cases before : i < seen
    · exact old.time before ok
    · rcases few ok with small | same
      · -- The counter has not wrapped, so the edge is where it was.
        have level : s.scaled = seen := by
          have small' := Nat.lt_of_le_of_lt inv.seen_le small
          have := inv.few small'
          rw [Nat.mod_eq_of_lt small'] at reached
          omega
        have stays : p.edge s.accepted.length s.scaled = seen := by
          have := inv.seen_le
          unfold Platform.edge RingIndex.edge
          rw [Nat.mod_eq_of_lt small]
          omega
        simp only [stays] at h
        exact absurd h before
      · rw [old.raw before]
        exact (same pkt (List.mem_of_getElem? hpkt)).symm

/-- The slot that one round of `scale` converts is that of the packet at the edge. -/
theorem RingInv.scale_slot {r w : Nat} (inv : RingInv p tame P seen s)
    (at' : s.consumer = .scaling r w) (more : s.scaled < w) :
    p.inputIdx s.scaled = p.inputIdx (p.edge seen s.scaled) ∧
      p.edge seen s.scaled < s.accepted.length ∧
      p.edge seen (s.scaled + 1) = p.edge seen s.scaled + 1 := by
  have known := inv.consumer
  rw [at'] at known
  obtain ⟨-, -, rfl⟩ := known
  obtain ⟨next, lt⟩ := RingIndex.edge_succ more
  exact ⟨(RingIndex.edge_slot p.divides more).symm, Nat.lt_of_lt_of_le lt inv.seen_le, next⟩

theorem RingInv.scale {r w : Nat} (inv : RingInv p tame P seen s)
    (at' : s.consumer = .scaling r w) (more : s.scaled < w) :
    RingInv p tame P seen { s with
      rb := Function.update s.rb (p.inputIdx s.scaled) (p.converted (p.inputGet s.rb s.scaled))
      scaled := s.scaled + 1 } := by
  obtain ⟨slot, lt, next⟩ := inv.scale_slot at' more
  have known := inv.consumer
  rw [at'] at known
  obtain ⟨none, hr, rfl⟩ := known
  have near := inv.near
  have reached := inv.reached
  generalize he : p.edge seen s.scaled = e at *
  have get : p.inputGet s.rb s.scaled = p.inputGet s.rb e := congrArg s.rb slot
  have apart : ∀ i, s.consumed.length ≤ i → i < s.accepted.length → i ≠ e →
      p.inputIdx i ≠ p.inputIdx e := by
    intro i hi hlt ne
    rcases Nat.lt_or_gt_of_ne ne with before | after
    · exact RingIndex.slot_ne before (by omega)
    · exact (RingIndex.slot_ne after (by omega)).symm
  refine { inv with
    reached := ?_
    few := fun h => ?_
    slots := fun i pkt hi hpkt => ?_
    producer := ?_
    consumer := by rw [at']; exact ⟨none, hr, rfl⟩ }
  · simp only
    rw [next]
    omega
  · rw [Nat.mod_eq_of_lt h] at more
    exact more
  · have hlt := (List.getElem?_eq_some_iff.mp hpkt).1
    have old := inv.slots i pkt hi hpkt
    rw [he] at old
    simp only
    rw [next, slot, get]
    by_cases same : i = e
    · subst same
      rw [inputGet_update_self]
      have raw := old.raw (Nat.lt_irrefl i)
      refine ⟨old.sv, old.payload, fun h => absurd (Nat.lt_succ_self i) h, fun _ => Or.inr ?_,
        fun _ _ => ?_⟩
      · exact congrArg p.convert raw
      · exact congrArg (fun t => (p.convert t).ssmTime) raw
    · rw [inputGet_update_of_ne (apart i hi hlt same)]
      refine ⟨old.sv, old.payload, fun h => old.raw (by omega), fun h => old.done (by omega),
        fun h ok => old.time (by omega) ok⟩
  · have known := inv.producer
    simp only
    rw [slot]
    cases hq : s.producer with
    | filled pkt w =>
        rw [hq] at known
        refine ⟨known.1, known.2.1, ?_⟩
        rw [inputGet_update_of_ne (inv.slot_ne reached lt).symm]
        exact known.2.2
    | idle | stamped | readW | readR | ready =>
        rw [hq] at known
        exact known

theorem RingInv.scaleEnd {r w : Nat} (inv : RingInv p tame P seen s)
    (at' : s.consumer = .scaling r w) (last : ¬ s.scaled < w) :
    RingInv p tame P seen { s with consumer := .consuming r w } := by
  have known := inv.consumer
  rw [at'] at known
  obtain ⟨none, hr, rfl⟩ := known
  exact { inv with consumer := ⟨Nat.le_of_not_lt last, by rw [hr, none], rfl⟩ }

/-- A ring that is ready to be read has a packet that waits, in that slot. -/
theorem RingInv.waiting {r w : Nat} (inv : RingInv p tame P seen s)
    (at' : s.consumer = .consuming r w) (ready : p.readReady r w) :
    s.consumed.length < seen ∧ p.inputIdx r = p.inputIdx s.consumed.length := by
  have known := inv.consumer
  rw [at'] at known
  obtain ⟨-, rfl, rfl⟩ := known
  have slot := p.inputIdx_word s.consumed.length
  refine ⟨Nat.lt_of_le_of_ne inv.consumed_le fun same => ready ?_, slot⟩
  rw [same]

theorem RingInv.consume {r w : Nat} (inv : RingInv p tame P seen s)
    (at' : s.consumer = .consuming r w) (ready : p.readReady r w) :
    RingInv p tame P seen { s with
      consumer := .consuming (p.succ r) w
      consumed := s.consumed ++ [(p.inputGet s.rb r).read] } := by
  obtain ⟨lt, slot⟩ := inv.waiting at' ready
  have known := inv.consumer
  rw [at'] at known
  obtain ⟨reached, hr, hw⟩ := known
  have passed : p.edge seen s.scaled = seen := RingIndex.edge_of_le reached
  have lt' := Nat.lt_of_lt_of_le lt inv.seen_le
  have len : (s.consumed ++ [(p.inputGet s.rb r).read]).length = s.consumed.length + 1 := by
    rw [List.length_append, List.length_singleton]
  obtain ⟨pkt, hpkt⟩ : ∃ pkt, s.accepted[s.consumed.length]? = some pkt :=
    ⟨_, List.getElem?_eq_getElem lt'⟩
  have get : p.inputGet s.rb r = p.inputGet s.rb s.consumed.length := congrArg s.rb slot
  have first := inv.slots _ pkt (Nat.le_refl _) hpkt
  rw [passed] at first
  have taken : s.accepted.take (s.consumed.length + 1) =
      s.accepted.take s.consumed.length ++ [pkt] := by
    rw [List.take_add_one, hpkt]
    rfl
  refine { inv with
    freed := ?_
    reached := ?_
    slots := fun i q hi hq => ?_
    consumer := ?_
    inOrder := ?_
    intact := fun ok => ?_ }
  · rw [len]
    exact Nat.le_succ_of_le inv.freed
  · simp only
    rw [len, passed]
    exact lt
  · simp only at hi
    rw [len] at hi
    exact inv.slots i q (Nat.le_of_succ_le hi) hq
  · refine ⟨reached, ?_, hw⟩
    rw [len, hr, p.succ_word]
  · simp only
    rw [len, taken, List.map_append, List.map_append, inv.inOrder, get]
    simp [SsmInput.read, first.sv, first.payload]
  · simp only
    rw [len, taken, List.map_append, ← inv.intact ok, get]
    simp [SsmInput.read, Platform.converted, first.sv, first.payload, first.time lt ok]

theorem RingInv.publish {r w : Nat} (inv : RingInv p tame P seen s)
    (at' : s.consumer = .consuming r w) :
    RingInv p tame s.consumed.length seen { s with rbR := r, consumer := .idle } := by
  have known := inv.consumer
  rw [at'] at known
  obtain ⟨reached, hr, -⟩ := known
  exact { inv with
    freed := Nat.le_refl _
    room := inv.near
    rbR := hr
    producer := inv.producer.mono inv.freed
    consumer := ⟨rfl, reached⟩ }

/-- A loop that holds the index it read has taken nothing. -/
theorem RingInv.leave {r w : Nat} (inv : RingInv p tame P seen s)
    (at' : s.consumer = .consuming r w) (same : r = s.rbR) :
    RingInv p tame P seen { s with consumer := .idle } := by
  have known := inv.consumer
  rw [at'] at known
  obtain ⟨reached, hr, -⟩ := known
  have near : s.consumed.length < P + p.rbSize :=
    Nat.lt_of_le_of_lt (Nat.le_trans inv.consumed_le inv.seen_le) inv.room
  have slots : p.inputIdx s.rbR = p.inputIdx r := congrArg p.inputIdx same.symm
  rw [inv.rbR, hr, p.inputIdx_word, p.inputIdx_word] at slots
  exact { inv with
    consumer := ⟨((RingIndex.slot_eq_iff inv.freed near).mp slots).symm, reached⟩ }

theorem RingInv.insertStep {op : RingOp} (inv : RingInv p tame P seen s)
    (run : p.insertStep op s = some t) : RingInv p tame P seen t := by
  have known := inv.producer
  unfold Platform.insertStep at run
  split at run
  · cases run
    exact { inv with producer := trivial }
  · cases run
    exact { inv with producer := inv.rbW }
  · rename_i pkt w at'
    cases run
    rw [at'] at known
    exact { inv with producer := ⟨known, P, Nat.le_refl _, inv.room, inv.rbR⟩ }
  · rename_i pkt w r at'
    cases run
    rw [at'] at known
    obtain ⟨rfl, P', le, near, rfl⟩ := known
    refine { inv with producer := ?_ }
    simp only
    split
    · rename_i ready
      have room := writeReady_room near (by
        have := inv.consumed_le
        have := inv.seen_le
        have := inv.freed
        omega) ready
      exact ⟨rfl, by omega⟩
    · trivial
  · rename_i pkt w at'
    cases run
    exact inv.fill at'
  · rename_i pkt w at'
    cases run
    exact inv.insertPublish at'
  · cases run

theorem RingInv.pollStep {op : RingOp} (inv : RingInv p tame P seen s)
    (cond : tame → Convertible p op s) (run : p.pollStep op s = some t) :
    ∃ P', RingInv p tame P' (op.found s seen) t := by
  unfold Platform.pollStep at run
  split at run
  · rename_i at'
    cases run
    exact ⟨P, inv.pollR at'⟩
  · rename_i r at'
    cases run
    exact ⟨P, inv.pollW at' cond⟩
  · rename_i r w at'
    split at run
    · rename_i more
      cases run
      exact ⟨P, inv.scale at' more⟩
    · rename_i last
      cases run
      exact ⟨P, inv.scaleEnd at' last⟩
  · rename_i r w at'
    split at run
    · rename_i ready
      cases run
      exact ⟨P, inv.consume at' ready⟩
    · cases run
  · rename_i r w at'
    cases run
    exact ⟨_, inv.publish at'⟩
  · rename_i r w at'
    split at run
    · rename_i same
      cases run
      exact ⟨P, inv.leave at' same⟩
    · cases run
  · cases run

theorem RingInv.step {op : RingOp} (inv : RingInv p tame P seen s)
    (cond : tame → Convertible p op s) (run : p.ringStep op s = some t) :
    ∃ P', RingInv p tame P' (op.found s seen) t := by
  unfold Platform.ringStep at run
  split at run
  all_goals first
    | exact ⟨P, inv.insertStep run⟩
    | exact inv.pollStep cond run

theorem RingInv.safe (inv : RingInv p tame P seen s) : RingSafe p s where
  held i pkt hi hpkt := ⟨(inv.slots i pkt hi hpkt).sv, (inv.slots i pkt hi hpkt).payload⟩
  writes pkt w at' i hi lt := by
    have known := inv.producer
    rw [at'] at known
    rw [known.1]
    exact (p.inputIdx_word s.accepted.length).trans_ne (inv.slot_ne hi lt).symm
  reads r w at' ready := by
    obtain ⟨lt, slot⟩ := inv.waiting at' ready
    exact ⟨Nat.lt_of_lt_of_le lt inv.seen_le, slot⟩
  scales r w at' more := by
    obtain ⟨slot, lt, -⟩ := inv.scale_slot at' more
    exact ⟨_, inv.reached, lt, slot⟩
  inOrder := by
    rw [inv.inOrder]
    exact (List.take_prefix _ _).map _
  bounded := by
    have := inv.near
    omega

theorem RingInv.ok (inv : RingInv p True P seen s) : RingOk p s where
  toRingSafe := inv.safe
  intact := by
    have taken := inv.intact trivial
    rw [taken]
    exact (List.take_prefix _ _).map _

end Invariant

theorem RingRun.inv {p : Platform} {cond : RingOp → Ring → Prop} {s : Ring} (tame : Prop)
    (run : RingRun p cond s) (ok : ∀ op s, cond op s → tame → Convertible p op s) :
    ∃ P seen, RingInv p tame P seen s := by
  induction run with
  | start rb => exact ⟨0, 0, .init p tame rb⟩
  | step run holds done ih =>
      obtain ⟨P, seen, inv⟩ := ih
      obtain ⟨P', inv'⟩ := inv.step (ok _ _ holds) done
      exact ⟨P', _, inv'⟩

/-- The ring is a bounded queue in every interleaving, wrapped or not. -/
theorem ringRun_safe {p : Platform} {cond : RingOp → Ring → Prop} {s : Ring}
    (run : RingRun p cond s) : RingSafe p s := by
  obtain ⟨P, seen, inv⟩ := run.inv False fun _ _ _ no => no.elim
  exact inv.safe

/-- While polls find few packets so far, or time needs no conversion, every
packet comes out with its own time. -/
theorem ringRun_ok {p : Platform} {s : Ring} (run : RingRun p (Convertible p) s) :
    RingOk p s := by
  obtain ⟨P, seen, inv⟩ := run.inv True fun _ _ holds _ => holds
  exact inv.ok

/-- Play a list of steps as long as each is possible and meets the condition. -/
def playRing (p : Platform) (cond : RingOp → Ring → Prop) [∀ op s, Decidable (cond op s)] :
    List RingOp → Ring → Option Ring
  | [], s => some s
  | op :: ops, s => if cond op s then (p.ringStep op s).bind (playRing p cond ops) else none

theorem RingRun.of_play {p : Platform} {cond : RingOp → Ring → Prop}
    [∀ op s, Decidable (cond op s)] {ops : List RingOp} {s t : Ring} (run : RingRun p cond s)
    (play : playRing p cond ops s = some t) : RingRun p cond t := by
  induction ops generalizing s with
  | nil =>
      cases play
      exact run
  | cons op ops ih =>
      rw [playRing] at play
      split at play
      · rename_i holds
        obtain ⟨u, step, rest⟩ := Option.bind_eq_some_iff.mp play
        exact ih (run.step holds step) rest
      · cases play

instance (p : Platform) (op : RingOp) (s : Ring) : Decidable (Convertible p op s) := by
  unfold Convertible
  split <;> infer_instance

/-- All of `ssm_insert_input`. -/
def insertOps (pkt : SsmInput) : List RingOp :=
  [.insert pkt, .insertReadW, .insertReadR, .insertTest, .insertFill, .insertPublish]

/-- A poll that finds one new packet, and what the main loop does with it. -/
def pollOps : List RingOp := [.pollR, .pollW, .scale, .scale, .consume, .publish]

def packetOf (lo : Nat) : SsmInput := ⟨1, .packed lo, ⟨0, lo, 0⟩⟩

/-- A packet arrives while an earlier one waits to be converted. -/
def overlapping : List RingOp :=
  insertOps (packetOf 3) ++ [.insert (packetOf 5), .insertReadW, .pollR, .pollW, .insertReadR,
    .scale, .insertTest, .insertFill, .scale, .consume, .insertPublish, .publish] ++ pollOps

theorem ringRun_ok_overlapping : ∃ s,
    playRing zephyr (Convertible zephyr) overlapping (Ring.init fun _ => packetOf 0) = some s ∧
    s.consumed = [(1, .packed 3, 3), (1, .packed 5, 5)] ∧ RingOk zephyr s := by
  have ends : (playRing zephyr (Convertible zephyr) overlapping
      (Ring.init fun _ => packetOf 0)).any
      (fun s => s.consumed = [(1, .packed 3, 3), (1, .packed 5, 5)]) = true := by decide +kernel
  obtain ⟨s, play, out⟩ := (Option.any_eq_true _ _).mp ends
  exact ⟨s, play, of_decide_eq_true out, ringRun_ok (.of_play (.start _) play)⟩

/-- Both sides idle after so many packets, each of which was consumed. -/
structure Level (n : Nat) (s : Ring) : Prop where
  rbR : s.rbR = n
  rbW : s.rbW = n
  scaled : s.scaled = n
  producer : s.producer = .idle
  consumer : s.consumer = .idle
  accepted : s.accepted.length = n
  consumed : s.consumed.length = n

theorem insertOps_play {cond : RingOp → Ring → Prop} [∀ op s, Decidable (cond op s)]
    (always : ∀ op s, cond op s) {n : Nat} {s : Ring} (level : Level n s) (small : n < 2 ^ 32)
    (pkt : SsmInput) (ops : List RingOp) :
    playRing zephyr cond (insertOps pkt ++ ops) s = playRing zephyr cond ops { s with
      rb := Function.update s.rb (n % 32) pkt
      rbW := (n + 1) % 2 ^ 32
      accepted := s.accepted ++ [pkt] } := by
  have ready : zephyr.writeReady n n := by
    show n % 32 ≠ (n + 1) % 2 ^ 32 % 32
    omega
  obtain ⟨rb, r, w, scaled, producer, consumer, accepted, consumed⟩ := s
  obtain ⟨hr, hw, -, hp, -, -, -⟩ := level
  simp only at hr hw hp
  subst hr hw hp
  simp only [insertOps, List.cons_append, List.nil_append, playRing, always, if_true,
    Platform.ringStep, Platform.insertStep, Option.bind_some, if_pos ready]
  rfl

theorem pollOps_play {cond : RingOp → Ring → Prop} [∀ op s, Decidable (cond op s)]
    (always : ∀ op s, cond op s) {n : Nat} {s : Ring} (hr : s.rbR = n) (hw : s.rbW = n + 1)
    (hs : s.scaled = n) (hc : s.consumer = .idle) (ready : zephyr.readReady n (n + 1)) :
    ∃ rb x, playRing zephyr cond pollOps s = some { s with
      rb := rb
      rbR := zephyr.succ n
      scaled := n + 1
      consumed := s.consumed ++ [x] } := by
  obtain ⟨rb, r, w, scaled, producer, consumer, accepted, consumed⟩ := s
  simp only at hr hw hs hc
  subst hr hw hs hc
  simp only [pollOps, playRing, always, if_true, Platform.ringStep, Platform.pollStep,
    Option.bind_some, if_pos (Nat.lt_succ_self scaled), if_neg (Nat.lt_irrefl (scaled + 1)),
    if_pos ready]
  exact ⟨_, _, rfl⟩

/-- As long as the words have not wrapped, each packet can be consumed at once. -/
theorem exists_level (n : Nat) (small : n < 2 ^ 32) :
    ∃ s, RingRun zephyr (fun _ _ => True) s ∧ Level n s := by
  induction n with
  | zero => exact ⟨_, .start fun _ => packetOf 0, rfl, rfl, rfl, rfl, rfl, rfl, rfl⟩
  | succ n ih =>
      obtain ⟨s, run, level⟩ := ih (by omega)
      have always : ∀ (op : RingOp) (s : Ring), (fun _ _ => True : RingOp → Ring → Prop) op s :=
        fun _ _ => trivial
      have ready : zephyr.readReady n (n + 1) := by
        show n % 32 ≠ (n + 1) % 32
        omega
      have word : (n + 1) % 2 ^ 32 = n + 1 := Nat.mod_eq_of_lt small
      have inserted := insertOps_play always level (by omega) (packetOf n) pollOps
      rw [word] at inserted
      obtain ⟨rb, x, polled⟩ := pollOps_play always (s := { s with
        rb := Function.update s.rb (n % 32) (packetOf n)
        rbW := n + 1
        accepted := s.accepted ++ [packetOf n] }) level.rbR rfl level.scaled level.consumer ready
      refine ⟨_, run.of_play (inserted.trans polled), word, rfl, rfl, level.producer,
        level.consumer, ?_, ?_⟩
      · simp [level.accepted]
      · simp [level.consumed]

/-- A poll that finds the word wrapped converts nothing. -/
theorem wrapped_play {cond : RingOp → Ring → Prop} [∀ op s, Decidable (cond op s)]
    (always : ∀ op s, cond op s) {s : Ring} (hr : s.rbR = 2 ^ 32 - 1) (hw : s.rbW = 0)
    (hc : s.consumer = .idle) :
    playRing zephyr cond [.pollR, .pollW, .scale, .consume] s = some { s with
      consumer := .consuming 0 0
      consumed := s.consumed ++ [(s.rb 31).read] } := by
  have ready : zephyr.readReady (2 ^ 32 - 1) 0 := by decide
  obtain ⟨rb, r, w, scaled, producer, consumer, accepted, consumed⟩ := s
  simp only at hr hw hc
  subst hr hw hc
  simp only [playRing, always, if_true, Platform.ringStep, Platform.pollStep, Option.bind_some,
    if_neg (Nat.not_lt_zero scaled), if_pos ready]
  rfl

/-- The packet whose acceptance wraps the word is consumed unconverted. -/
theorem exists_wrapped : ∃ s, RingRun zephyr (fun _ _ => True) s ∧
    s.consumed.length = s.accepted.length ∧
    s.consumed ≠ s.accepted.map fun pkt => (zephyr.converted pkt).read := by
  obtain ⟨n, hn⟩ : ∃ n, n = 2 ^ 32 - 1 := ⟨_, rfl⟩
  obtain ⟨s, run, level⟩ := exists_level n (by omega)
  have always : ∀ (op : RingOp) (s : Ring), (fun _ _ => True : RingOp → Ring → Prop) op s :=
    fun _ _ => trivial
  have inserted := insertOps_play always level (by omega) (packetOf 5)
    [.pollR, .pollW, .scale, .consume]
  rw [show (n + 1) % 2 ^ 32 = 0 by omega, show n % 32 = 31 by omega] at inserted
  have polled := wrapped_play always (s := { s with
    rb := Function.update s.rb 31 (packetOf 5)
    rbW := 0
    accepted := s.accepted ++ [packetOf 5] }) (level.rbR.trans hn) rfl level.consumer
  refine ⟨_, run.of_play (inserted.trans polled), ?_, fun whole => ?_⟩
  · simp [level.accepted, level.consumed]
  · simp only [List.map_append, List.map_cons, List.map_nil, Function.update_self] at whole
    have last := (List.append_inj' whole rfl).2
    revert last
    decide

/-- The time of a consumed packet is not always that of its conversion. -/
theorem not_ringOk : ¬ ∀ s, RingRun zephyr (fun _ _ => True) s → RingOk zephyr s := by
  intro all
  obtain ⟨s, run, len, wrong⟩ := exists_wrapped
  exact wrong ((all s run).intact.eq_of_length (by rw [List.length_map, len]))

end SsmRuntime
