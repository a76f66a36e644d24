import SsmRuntime.InputRing

/-!
The conversions of the input ring, logged by the numbers of the packets that
they convert. A packet is converted in its slot, once, before the main loop
looks at its time, as long as the count of accepted packets fits the word.
-/
namespace SsmRuntime

namespace Platform
variable (p : Platform)

/-- The number of the packet that stands in a slot. The first slot is that of the
next packet to be consumed. -/
def packetAt (s : Ring) (i : Nat) : Nat :=
  s.consumed.length +
    RingIndex.gap p.rbSize (p.inputIdx s.consumed.length) (p.inputIdx i)

/-- The number of the packet that a step converts. -/
def converts (op : RingOp) (s : Ring) : Option Nat :=
  match op, s.consumer with
  | .scale, .scaling _ w => if s.scaled < w then some (p.packetAt s s.scaled) else none
  | _, _ => none

end Platform

/-- Interleavings of steps, as in `RingRun`, with the log of the conversions. -/
inductive ConvRun (p : Platform) (cond : RingOp → Ring → Prop) : Ring → List Nat → Prop where
  | start (rb : Nat → SsmInput) : ConvRun p cond (Ring.init rb) []
  | step {op : RingOp} {s t : Ring} {log : List Nat} :
      ConvRun p cond s log → cond op s → p.ringStep op s = some t →
      ConvRun p cond t (log ++ (p.converts op s).toList)

/-- A poll finds fewer packets accepted so far than a word can count. -/
def FewAccepted (p : Platform) (op : RingOp) (s : Ring) : Prop :=
  match op with
  | .pollW => s.accepted.length < 2 ^ p.width
  | _ => True

instance (p : Platform) (op : RingOp) (s : Ring) : Decidable (FewAccepted p op s) := by
  unfold FewAccepted
  split <;> infer_instance

/-- Each packet is converted once at most, and before it is looked at. -/
structure ConvertedOnce (p : Platform) (s : Ring) (log : List Nat) : Prop where
  once : log.Nodup
  accepted : ∀ i ∈ log, i < s.accepted.length
  raw : ∀ i pkt, s.consumed.length ≤ i → s.accepted[i]? = some pkt → i ∉ log →
    p.inputGet s.rb i = pkt
  visible : ∀ r w, s.consumer = .consuming r w → ∀ i pkt, s.consumed.length ≤ i →
    i < s.consumed.length + RingIndex.gap p.rbSize (p.inputIdx r) (p.inputIdx w) →
    s.accepted[i]? = some pkt → i ∈ log ∧ p.inputGet s.rb i = p.converted pkt
  compared : ∀ r w, s.consumer = .consuming r w → p.readReady r w →
    ∃ pkt, s.accepted[s.consumed.length]? = some pkt ∧ p.inputGet s.rb r = p.converted pkt
  consumed : s.consumed =
    (s.accepted.take s.consumed.length).map fun pkt => (p.converted pkt).read
  consumedLog : ∀ i, i < s.consumed.length → i ∈ log

/-- While the count fits the word, the log holds the packets before `scaled` in
order, and their slots hold their conversions. -/
structure ConvInv (p : Platform) (s : Ring) (log : List Nat) (P seen : Nat) : Prop where
  ring : RingInv p True P seen s
  fits : seen < 2 ^ p.width
  log : log = List.range s.scaled
  done : ∀ i pkt, s.consumed.length ≤ i → i < s.scaled → s.accepted[i]? = some pkt →
    (p.inputGet s.rb i).time = p.convert pkt.time

section Inv
variable {p : Platform} {s t : Ring} {log : List Nat} {P seen : Nat}

theorem ConvInv.scaled_le (inv : ConvInv p s log P seen) : s.scaled ≤ seen :=
  inv.ring.few inv.fits

theorem ConvInv.edge_eq (inv : ConvInv p s log P seen) : p.edge seen s.scaled = s.scaled := by
  have := inv.scaled_le
  rw [Platform.edge, RingIndex.edge, Nat.mod_eq_of_lt inv.fits]
  omega

theorem ConvInv.consumed_le (inv : ConvInv p s log P seen) : s.consumed.length ≤ s.scaled :=
  inv.edge_eq ▸ inv.ring.reached

theorem ConvInv.slot (inv : ConvInv p s log P seen) {i : Nat} {pkt : SsmInput}
    (hi : s.consumed.length ≤ i) (hpkt : s.accepted[i]? = some pkt) :
    p.inputGet s.rb i = if i < s.scaled then p.converted pkt else pkt := by
  have slot := inv.ring.slots i pkt hi hpkt
  rw [inv.edge_eq] at slot
  have whole : ∀ a b : SsmInput, a.sv = b.sv → a.payload = b.payload → a.time = b.time → a = b := by
    rintro ⟨_, _, _⟩ ⟨_, _, _⟩ rfl rfl rfl
    rfl
  split
  · rename_i passed
    exact whole _ _ slot.sv slot.payload (inv.done i pkt hi passed hpkt)
  · rename_i ahead
    exact whole _ _ slot.sv slot.payload (slot.raw ahead)

/-- All that the poll has found is converted once the loop has ended. -/
theorem ConvInv.scaled_eq (inv : ConvInv p s log P seen) {r w : Nat}
    (at' : s.consumer = .consuming r w) : s.scaled = seen := by
  have known := inv.ring.consumer
  rw [at'] at known
  have := known.1
  rw [Nat.mod_eq_of_lt inv.fits] at this
  exact Nat.le_antisymm inv.scaled_le this

theorem ConvInv.once (inv : ConvInv p s log P seen) : ConvertedOnce p s log := by
  have accepted : s.scaled ≤ s.accepted.length :=
    Nat.le_trans inv.scaled_le inv.ring.seen_le
  have logged : ∀ i, i ∈ log ↔ i < s.scaled := fun i => by rw [inv.log, List.mem_range]
  refine
    { once := inv.log ▸ List.nodup_range
      accepted := fun i hi => Nat.lt_of_lt_of_le ((logged i).mp hi) accepted
      raw := fun i pkt hi hpkt out => ?_
      visible := fun r w at' i pkt hi lt hpkt => ?_
      compared := fun r w at' ready => ?_
      consumed := inv.ring.intact trivial
      consumedLog := fun i hi => (logged i).mpr (Nat.lt_of_lt_of_le hi inv.consumed_le) }
  · rw [inv.slot hi hpkt, if_neg fun h => out ((logged i).mpr h)]
  · have known := inv.ring.consumer
    rw [at'] at known
    obtain ⟨-, rfl, rfl⟩ := known
    have near := inv.ring.near
    have le := inv.ring.consumed_le
    have seen_le := inv.ring.seen_le
    rw [p.inputIdx_word, p.inputIdx_word, RingIndex.gap_slots le (by omega)] at lt
    have passed : i < s.scaled := by
      rw [inv.scaled_eq at']
      omega
    exact ⟨(logged i).mpr passed, by rw [inv.slot hi hpkt, if_pos passed]⟩
  · obtain ⟨lt, slot⟩ := inv.ring.waiting at' ready
    have lt' := Nat.lt_of_lt_of_le lt inv.ring.seen_le
    have get : p.inputGet s.rb r = p.inputGet s.rb s.consumed.length := congrArg s.rb slot
    have hpkt := List.getElem?_eq_getElem lt'
    refine ⟨_, hpkt, ?_⟩
    rw [get, inv.slot (Nat.le_refl _) hpkt, inv.scaled_eq at', if_pos lt]

theorem ConvInv.init (p : Platform) (rb : Nat → SsmInput) : ConvInv p (Ring.init rb) [] 0 0 where
  ring := .init p True rb
  fits := Nat.two_pow_pos p.width
  log := rfl
  done := fun i _ _ lt _ => absurd lt (Nat.not_lt_zero i)

/-- The number of the packet that the converting loop comes to. -/
theorem ConvInv.packetAt (inv : ConvInv p s log P seen) {r w : Nat}
    (at' : s.consumer = .scaling r w) (more : s.scaled < w) :
    p.packetAt s s.scaled = s.scaled ∧ s.scaled < s.accepted.length := by
  obtain ⟨-, lt, -⟩ := inv.ring.scale_slot at' more
  rw [inv.edge_eq] at lt
  have near := inv.ring.near
  have le := inv.consumed_le
  refine ⟨?_, lt⟩
  rw [Platform.packetAt, Platform.inputIdx, Platform.inputIdx,
    RingIndex.gap_slots le (by omega)]
  omega

/-- What a step writes: a conversion, a new packet, or no slot at all. -/
inductive Writes (p : Platform) (op : RingOp) (s : Ring) : Ring → Prop
  | converted {r w : Nat} (scale : op = .scale) (at' : s.consumer = .scaling r w)
      (more : s.scaled < w) : Writes p op s { s with
        rb := Function.update s.rb (p.inputIdx s.scaled) (p.converted (p.inputGet s.rb s.scaled))
        scaled := s.scaled + 1 }
  | filled {pkt : SsmInput} {w : Nat} (fill : op = .insertFill) (at' : s.producer = .ready pkt w) :
      Writes p op s { s with
        rb := Function.update s.rb (p.inputIdx w) pkt
        producer := .filled pkt w }
  | quiet {t : Ring} (none : p.converts op s = none) (rb : t.rb = s.rb)
      (scaled : t.scaled = s.scaled) (accepted : s.accepted <+: t.accepted)
      (consumed : s.consumed.length ≤ t.consumed.length) : Writes p op s t

theorem insertStep_writes {op : RingOp} (run : p.insertStep op s = some t) : Writes p op s t := by
  unfold Platform.insertStep at run
  split at run
  · cases run
    exact .quiet rfl rfl rfl (List.prefix_refl _) (Nat.le_refl _)
  · cases run
    exact .quiet rfl rfl rfl (List.prefix_refl _) (Nat.le_refl _)
  · cases run
    exact .quiet rfl rfl rfl (List.prefix_refl _) (Nat.le_refl _)
  · cases run
    exact .quiet rfl rfl rfl (List.prefix_refl _) (Nat.le_refl _)
  · rename_i at'
    cases run
    exact .filled rfl at'
  · cases run
    exact .quiet rfl rfl rfl (List.prefix_append _ _) (Nat.le_refl _)
  · cases run

theorem pollStep_writes {op : RingOp} (run : p.pollStep op s = some t) : Writes p op s t := by
  unfold Platform.pollStep at run
  split at run
  · cases run
    exact .quiet rfl rfl rfl (List.prefix_refl _) (Nat.le_refl _)
  · cases run
    exact .quiet rfl rfl rfl (List.prefix_refl _) (Nat.le_refl _)
  · rename_i r w at'
    split at run
    · rename_i more
      cases run
      exact .converted rfl at' more
    · rename_i last
      cases run
      refine .quiet ?_ rfl rfl (List.prefix_refl _) (Nat.le_refl _)
      simp only [Platform.converts, at', if_neg last]
  · split at run
    · cases run
      refine .quiet rfl rfl rfl (List.prefix_refl _) ?_
      simp
    · cases run
  · cases run
    exact .quiet rfl rfl rfl (List.prefix_refl _) (Nat.le_refl _)
  · split at run
    · cases run
      exact .quiet rfl rfl rfl (List.prefix_refl _) (Nat.le_refl _)
    · cases run
  · cases run

theorem ringStep_writes {op : RingOp} (run : p.ringStep op s = some t) : Writes p op s t := by
  rcases p.ringStep_side op s with side | side
  · exact insertStep_writes (side ▸ run)
  · exact pollStep_writes (side ▸ run)

theorem ConvInv.step {op : RingOp} (inv : ConvInv p s log P seen) (few : FewAccepted p op s)
    (run : p.ringStep op s = some t) :
    ∃ P', ConvInv p t (log ++ (p.converts op s).toList) P' (op.found s seen) := by
  have tame : Convertible p op s := by
    cases op with
    | pollW => exact Or.inl few
    | _ => trivial
  obtain ⟨P', ring⟩ := inv.ring.step (fun _ => tame) run
  have fits : op.found s seen < 2 ^ p.width := by
    cases op with
    | pollW => exact few
    | _ => exact inv.fits
  have accepted : s.scaled ≤ s.accepted.length :=
    Nat.le_trans inv.scaled_le inv.ring.seen_le
  rcases ringStep_writes run with @⟨r, w, rfl, at', more⟩ | @⟨pkt, w, rfl, at'⟩ |
    ⟨none, rb, scaled, ⟨new, before⟩, consumed⟩
  · obtain ⟨number, lt⟩ := inv.packetAt at' more
    refine ⟨P', ring, fits, ?_, fun i pkt hi hlt hpkt => ?_⟩
    · simp only [Platform.converts, at', if_pos more, number, Option.toList_some]
      rw [inv.log, List.range_succ]
    · simp only at hi hlt hpkt ⊢
      by_cases same : i = s.scaled
      · subst same
        rw [inputGet_update_self, inv.slot hi hpkt, if_neg (Nat.lt_irrefl _)]
        rfl
      · have near := inv.ring.near
        rw [inputGet_update_of_ne (RingIndex.slot_ne (by omega) (by omega))]
        exact inv.done i pkt hi (by omega) hpkt
  · have known := inv.ring.producer
    rw [at'] at known
    refine ⟨P', ring, fits, ?_, fun i q hi hlt hq => ?_⟩
    · simp only [Platform.converts, Option.toList_none, List.append_nil]
      exact inv.log
    · simp only at hi hlt hq ⊢
      have slot : p.inputIdx w = p.inputIdx s.accepted.length := by
        rw [known.1]
        exact p.inputIdx_word _
      rw [slot, inputGet_update_of_ne (inv.ring.slot_ne hi (Nat.lt_of_lt_of_le hlt accepted))]
      exact inv.done i q hi hlt hq
  · refine ⟨P', ring, fits, ?_, fun i q hi hlt hq => ?_⟩
    · rw [none, Option.toList_none, List.append_nil, scaled]
      exact inv.log
    · rw [scaled] at hlt
      rw [Platform.inputGet, rb]
      refine inv.done i q (Nat.le_trans consumed hi) hlt ?_
      rw [← hq, ← before, List.getElem?_append_left (Nat.lt_of_lt_of_le hlt accepted)]

theorem ConvRun.inv (run : ConvRun p (FewAccepted p) s log) : ∃ P seen, ConvInv p s log P seen := by
  induction run with
  | start rb => exact ⟨0, 0, .init p rb⟩
  | step run few done ih =>
      obtain ⟨P, seen, inv⟩ := ih
      obtain ⟨P', inv'⟩ := inv.step few done
      exact ⟨P', _, inv'⟩

/-- Every interleaving has its log. -/
theorem RingRun.logged {cond : RingOp → Ring → Prop} (run : RingRun p cond s) :
    ∃ log, ConvRun p cond s log := by
  induction run with
  | start rb => exact ⟨[], .start rb⟩
  | step run holds done ih =>
      obtain ⟨log, logged⟩ := ih
      exact ⟨_, logged.step holds done⟩

end Inv

/-- While polls find few packets so far, each packet is converted once, and
before its time is compared or taken. -/
theorem convRun_once {p : Platform} {s : Ring} {log : List Nat}
    (run : ConvRun p (FewAccepted p) s log) : ConvertedOnce p s log := by
  obtain ⟨P, seen, inv⟩ := run.inv
  exact inv.once

theorem convRun_once_overlapping : ∃ s log,
    playRing zephyr (FewAccepted zephyr) overlapping (Ring.init fun _ => packetOf 0) = some s ∧
    s.consumed = [(1, .packed 3, 3), (1, .packed 5, 5)] ∧ ConvertedOnce zephyr s log := by
  have ends : (playRing zephyr (FewAccepted zephyr) overlapping
      (Ring.init fun _ => packetOf 0)).any
      (fun s => s.consumed = [(1, .packed 3, 3), (1, .packed 5, 5)]) = true := by decide +kernel
  obtain ⟨s, play, out⟩ := (Option.any_eq_true _ _).mp ends
  obtain ⟨log, run⟩ := (RingRun.of_play (.start _) play).logged
  exact ⟨s, log, play, of_decide_eq_true out, convRun_once run⟩

/-- In longer runs a packet is consumed that was not converted. -/
theorem not_convertedOnce : ¬ ∀ s log, ConvRun zephyr (fun _ _ => True) s log →
    ConvertedOnce zephyr s log := by
  intro all
  obtain ⟨s, run, len, wrong⟩ := exists_wrapped
  obtain ⟨log, logged⟩ := run.logged
  refine wrong ?_
  have consumed := (all s log logged).consumed
  rwa [len, List.take_length] at consumed

end SsmRuntime
