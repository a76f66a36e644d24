import SsmRuntime.Actions
import SsmRuntime.Library.RingIndex

/-!
The input queue of a platform: packets in a ring, each with the time at which
its handler took it. The indices of the ring are machine words; the size of the
ring divides the number of their values.
-/
namespace SsmRuntime

/-- The union `ssm_platform_time_t` as its words: two readings of the high
half of a timer and the low half read between them. -/
structure PlatformTime where
  hi0 : Nat
  lo : Nat
  hi1 : Nat
  deriving DecidableEq, Repr

namespace PlatformTime

/-- The union read as an `ssm_time_t`: its first eight bytes, low word first. -/
def ssmTime (t : PlatformTime) : Nat := t.hi0 + t.lo * 2 ^ 32

def setSsmTime (t : PlatformTime) (time : Nat) : PlatformTime :=
  { t with hi0 := time % 2 ^ 32, lo := time / 2 ^ 32 % 2 ^ 32 }

theorem ssmTime_setSsmTime (t : PlatformTime) {time : Nat} (fits : time < 2 ^ 64) :
    (t.setSsmTime time).ssmTime = time := by
  simp only [ssmTime, setSsmTime]
  omega

end PlatformTime

def ssmTimerCombine (hi lo : Nat) : Nat := hi * 2 ^ 32 + lo

/-- `ssm_timer_calc`: if the timer wrapped between the two readings of its high
half, the top bit of the low half tells which of them belongs to it. -/
def ssmTimerCalc (t : PlatformTime) : Nat :=
  if t.hi0 = t.hi1 then ssmTimerCombine t.hi0 t.lo
  else if t.lo.testBit 31 then ssmTimerCombine t.hi0 t.lo
  else ssmTimerCombine t.hi1 t.lo

/-- `ssm_raw_time64_scale`. -/
def ssmRawTime64Scale (t : PlatformTime) (scale : Nat) : PlatformTime :=
  (PlatformTime.mk 0 0 0).setSsmTime (t.ssmTime * scale % 2 ^ 64)

structure SsmInput where
  sv : Addr
  payload : Value
  time : PlatformTime
  deriving DecidableEq, Repr

/-- What differs between the platforms: the width of `size_t`, the size of the
ring and the conversion that polling applies to the time of a packet. -/
structure Platform where
  width : Nat
  rbSize : Nat
  convert : PlatformTime → PlatformTime
  divides : rbSize ∣ 2 ^ width

def zephyr : Platform where
  width := 32
  rbSize := 32
  convert t := t.setSsmTime (ssmTimerCalc t)
  divides := ⟨2 ^ 27, by decide⟩

def posix : Platform where
  width := 64
  rbSize := 32
  convert t := ssmRawTime64Scale t 1
  divides := ⟨2 ^ 59, by decide⟩

theorem zephyr_convert {t : PlatformTime} (fits : ssmTimerCalc t < 2 ^ 64) :
    (zephyr.convert t).ssmTime = ssmTimerCalc t := t.ssmTime_setSsmTime fits

/-- Scaling by one leaves a time as it is. -/
theorem posix_convert {t : PlatformTime} (fits : t.ssmTime < 2 ^ 64) :
    (posix.convert t).ssmTime = t.ssmTime := by
  have same : t.ssmTime * 1 % 2 ^ 64 = t.ssmTime := by
    rw [Nat.mul_one]
    exact Nat.mod_eq_of_lt fits
  show ((PlatformTime.mk 0 0 0).setSsmTime (t.ssmTime * 1 % 2 ^ 64)).ssmTime = t.ssmTime
  rw [same]
  exact PlatformTime.ssmTime_setSsmTime _ fits

namespace Platform
variable (p : Platform)

/-- A `size_t` plus one. -/
def succ (i : Nat) : Nat := (i + 1) % 2 ^ p.width

def inputIdx (i : Nat) : Nat := i % p.rbSize

def inputGet (rb : Nat → SsmInput) (i : Nat) : SsmInput := rb (p.inputIdx i)

def readReady (r w : Nat) : Prop := p.inputIdx r ≠ p.inputIdx w

instance (r w : Nat) : Decidable (p.readReady r w) := inferInstanceAs (Decidable (_ ≠ _))

def writeReady (r w : Nat) : Prop := p.readReady r (p.succ w)

instance (r w : Nat) : Decidable (p.writeReady r w) :=
  inferInstanceAs (Decidable (p.readReady r (p.succ w)))

/-- The condition of the loop of `ssm_input_consume`. -/
def sameTime (rb : Nat → SsmInput) (w time r : Nat) : Prop :=
  p.readReady r w ∧ time = (p.inputGet rb r).time.ssmTime

instance (rb : Nat → SsmInput) (w time r : Nat) : Decidable (p.sameTime rb w time r) :=
  inferInstanceAs (Decidable (_ ∧ _))

/-- The loop of `ssm_input_consume`. -/
def consumePackets (sizes : QueueSizes) (rb : Nat → SsmInput) (w time : Nat) :
    Nat → Nat → State → Except Stop (Nat × State)
  | 0, _, s => .error ⟨.diverges, s⟩
  | fuel + 1, r, s => do
      let s ← ssmSvLaterUnsafe sizes (p.inputGet rb r).sv time (p.inputGet rb r).payload s
      let r := p.succ r
      if p.sameTime rb w time r then consumePackets sizes rb w time fuel r s else .ok (r, s)

/-- `ssm_input_consume`, which is `consume_input_queue` on Zephyr: schedule the
packets that share the time of the first one, unless an event comes before. -/
def ssmInputConsume (sizes : QueueSizes) (rb : Nat → SsmInput) (r w : Nat) (s : State) :
    Except Stop (Nat × State) :=
  if ¬ p.readReady r w then .ok (r, s)
  else
    let packetTime := (p.inputGet rb r).time.ssmTime
    if ssmNextEventTime s < packetTime then .ok (r, s)
    else p.consumePackets sizes rb w packetTime p.rbSize r s

theorem rbSize_pos : 0 < p.rbSize :=
  Nat.pos_of_dvd_of_pos p.divides (Nat.two_pow_pos p.width)

theorem inputIdx_succ (i : Nat) : p.inputIdx (p.succ i) = (i + 1) % p.rbSize :=
  Nat.mod_mod_of_dvd _ p.divides

theorem inputIdx_word (i : Nat) : p.inputIdx (i % 2 ^ p.width) = i % p.rbSize :=
  Nat.mod_mod_of_dvd _ p.divides

theorem succ_word (i : Nat) : p.succ (i % 2 ^ p.width) = (i + 1) % 2 ^ p.width :=
  Nat.mod_add_mod i _ 1

/-- The indices of the packets that the loop of `ssm_input_consume` schedules. -/
def batch (rb : Nat → SsmInput) (w time : Nat) : Nat → Nat → List Nat
  | 0, _ => []
  | fuel + 1, r =>
      r :: if p.sameTime rb w time (p.succ r) then batch rb w time fuel (p.succ r) else []

def inputBatch (rb : Nat → SsmInput) (r w : Nat) (s : State) : List Nat :=
  if p.readReady r w ∧ (p.inputGet rb r).time.ssmTime ≤ ssmNextEventTime s then
    p.batch rb w (p.inputGet rb r).time.ssmTime p.rbSize r
  else []

def packetCall (rb : Nat → SsmInput) (time i : Nat) : Action :=
  .later (p.inputGet rb i).sv time (p.inputGet rb i).payload

/-- The calls `ssm_input_consume` makes. -/
def inputCalls (rb : Nat → SsmInput) (r w : Nat) (s : State) : List Action :=
  (p.inputBatch rb r w s).map (p.packetCall rb (p.inputGet rb r).time.ssmTime)

/-- The loop ends within one round of the ring. -/
theorem consumePackets_eq (sizes : QueueSizes) (rb : Nat → SsmInput) {r w : Nat} (time n : Nat)
    (s : State) (ready : p.readReady r w)
    (enough : RingIndex.gap p.rbSize (p.inputIdx r) (p.inputIdx w) ≤ n) :
    p.consumePackets sizes rb w time n r s =
      (do let s ← runActions sizes ((p.batch rb w time n r).map (p.packetCall rb time)) s
          .ok (p.succ^[(p.batch rb w time n r).length] r, s)) := by
  have closer := RingIndex.gap_succ ready p.rbSize_pos
  rw [← p.inputIdx_succ] at closer
  induction n generalizing r s with
  | zero =>
      rw [inputIdx, inputIdx, closer] at enough
      exact absurd enough (Nat.not_succ_le_zero _)
  | succ n ih =>
      rw [consumePackets, batch, List.map_cons, runActions]
      simp only [bind_assoc]
      refine congrArg _ (funext fun s => ?_)
      by_cases same : p.sameTime rb w time (p.succ r)
      · rw [if_pos same, if_pos same, List.length_cons, Function.iterate_succ_apply]
        refine ih s same.1 ?_ ?_
        · rw [inputIdx, inputIdx, closer] at enough
          exact Nat.le_of_succ_le_succ enough
        · have := RingIndex.gap_succ same.1 p.rbSize_pos
          rwa [← p.inputIdx_succ] at this
      · rw [if_neg same, if_neg same]
        rfl

theorem ssmInputConsume_eq (sizes : QueueSizes) (rb : Nat → SsmInput) (r w : Nat) (s : State) :
    p.ssmInputConsume sizes rb r w s =
      (do let t ← runActions sizes (p.inputCalls rb r w s) s
          .ok (p.succ^[(p.inputBatch rb r w s).length] r, t)) := by
  unfold ssmInputConsume inputCalls inputBatch
  by_cases ready : p.readReady r w
  · rw [if_neg (not_not.mpr ready)]
    by_cases soon : (p.inputGet rb r).time.ssmTime ≤ ssmNextEventTime s
    · rw [if_neg (Nat.not_lt.mpr soon), if_pos ⟨ready, soon⟩]
      exact p.consumePackets_eq sizes rb _ _ s ready (Nat.le_of_lt (RingIndex.gap_lt
        (Nat.mod_lt r p.rbSize_pos) (Nat.mod_lt w p.rbSize_pos)))
    · rw [if_pos (Nat.lt_of_not_le soon), if_neg fun h => soon h.2]
      rfl
  · rw [if_pos ready, if_neg fun h => ready h.1]
    rfl

/-- A packet that is the only one to be read is consumed alone. -/
theorem ssmInputConsume_one (sizes : QueueSizes) {rb : Nat → SsmInput} {r w : Nat} {s t : State}
    (ready : p.readReady r w) (last : ¬ p.readReady (p.succ r) w)
    (first : (p.inputGet rb r).time.ssmTime ≤ ssmNextEventTime s)
    (run : runActions sizes [p.packetCall rb (p.inputGet rb r).time.ssmTime r] s = .ok t) :
    p.inputBatch rb r w s = [r] ∧ p.ssmInputConsume sizes rb r w s = .ok (p.succ r, t) := by
  have batch : p.inputBatch rb r w s = [r] := by
    rw [inputBatch, if_pos ⟨ready, first⟩]
    have pos := p.rbSize_pos
    cases h : p.rbSize with
    | zero => omega
    | succ n => rw [Platform.batch, if_neg fun same => last same.1]
  refine ⟨batch, ?_⟩
  rw [ssmInputConsume_eq, inputCalls, batch, List.map_singleton, run]
  rfl

/-- A packet from the past is refused. -/
theorem ssmInputConsume_late {sizes : QueueSizes} {rb : Nat → SsmInput} {r w : Nat} {s : State}
    (ready : p.readReady r w) (first : (p.inputGet rb r).time.ssmTime ≤ ssmNextEventTime s)
    (late : (p.inputGet rb r).time.ssmTime < s.now) :
    p.ssmInputConsume sizes rb r w s = .error ⟨.thrown .invalidTime, s⟩ := by
  unfold ssmInputConsume
  rw [if_neg (not_not.mpr ready), if_neg (Nat.not_lt.mpr first)]
  have pos := p.rbSize_pos
  cases h : p.rbSize with
  | zero => omega
  | succ n =>
      rw [consumePackets, ssmSvLaterUnsafe, if_pos late]
      rfl

end Platform

/-- A delayed assignment of a packed value for a time. -/
def LaterAt (time : Nat) (c : Action) : Prop :=
  ∃ x val, c = .later x time val ∧ ssmOnHeap val = false

section Calls
variable {time : Nat} {sizes : SafeSizes}

/-- Delayed assignments for a time that is not past are not refused, and those
accepted are of live variables. -/
theorem runActions_laters {s : State} (cs : List Action) (wf : WellFormed sizes s)
    (early : s.now ≤ time) (soon : time < ssmNever) (all : ∀ c ∈ cs, LaterAt time c) :
    (∀ u, runActions sizes cs s ≠ .error ⟨.thrown .invalidTime, u⟩) ∧
    ∀ t, runActions sizes cs s = .ok t → InTurn (fun V c => c.Admissible V) cs s.view := by
  induction cs generalizing s with
  | nil => exact ⟨fun u h => (by cases h), fun t _ => trivial⟩
  | cons c cs ih =>
      obtain ⟨x, val, rfl, packed⟩ := all c List.mem_cons_self
      have rest : ∀ c ∈ cs, LaterAt time c := fun c hc => all c (List.mem_cons_of_mem _ hc)
      rw [runActions]
      by_cases live : (s.view.var x).isSome
      · have admissible : (Action.later x time val).Admissible s.view := ⟨live, packed, early, soon⟩
        have spec := Action.exec_computes wf (.later x time val) admissible
        unfold View.act at spec
        split at spec
        · obtain ⟨u, run, wf', shown⟩ := spec
          have now : u.now = s.now := congrArg View.now shown
          rw [run, ok_bind]
          obtain ⟨fine, ok⟩ := ih wf' (now ▸ early) rest
          exact ⟨fine, fun t h => ⟨admissible, shown ▸ ok t h⟩⟩
        · obtain ⟨u, run⟩ := spec
          rw [run, error_bind]
          exact ⟨fun u' h => (by cases h), fun t h => (by cases h)⟩
      · have dead : s.sv? x = none := by
          cases h : s.sv? x with
          | none => rfl
          | some v => exact absurd (view_var_isSome.mpr ⟨v, h⟩) live
        have run : (Action.later x time val).exec sizes s = .error ⟨.badPointer, s⟩ := by
          rw [Action.exec, ssmSvLaterUnsafe, if_neg (Nat.not_lt.mpr early), State.loadSv, dead]
          rfl
        rw [run, error_bind]
        exact ⟨fun u' h => (by cases h), fun t h => (by cases h)⟩

theorem View.NotLate.later {V : View} (h : V.NotLate) {x : Addr} {val : Value}
    (early : V.now ≤ time) : (V.later x time val).NotLate := by
  intro y v hv hne
  simp only [View.later, View.mapVar, Option.mem_def] at hv
  split at hv
  · obtain ⟨u, -, rfl⟩ := Option.map_eq_some_iff.mp hv
    exact early
  · exact h y v hv hne

/-- Some variable has its event at a time. -/
def View.EventAt (V : View) (time : Nat) : Prop := ∃ x v, V.var x = some v ∧ v.laterTime = time

theorem View.EventAt.later {V : View} {x : Addr} {val : Value}
    (h : V.EventAt time ∨ (V.var x).isSome) : (V.later x time val).EventAt time := by
  simp only [View.later, View.mapVar, View.EventAt]
  by_cases live : (V.var x).isSome
  · obtain ⟨v, hv⟩ := Option.isSome_iff_exists.mp live
    exact ⟨x, _, by rw [if_pos rfl, hv, Option.map_some], rfl⟩
  · obtain ⟨y, v, hv, at'⟩ := h.resolve_right live
    have other : y ≠ x := fun same => live (by rw [← same, hv]; rfl)
    exact ⟨y, v, by rw [if_neg other, hv], at'⟩

/-- What delayed assignments for one time do: no event is late, no record is
woken, and unless there was none, some event is for that time. -/
theorem applyAll_laters (cs : List Action) {V : View} (early : V.now ≤ time)
    (all : ∀ c ∈ cs, LaterAt time c) (ok : InTurn (fun V c => c.Admissible V) cs V)
    (notLate : V.NotLate) :
    (applyAll cs V).NotLate ∧ (applyAll cs V).now = V.now ∧
      (applyAll cs V).scheduledSet = V.scheduledSet ∧
      (V.EventAt time ∨ cs ≠ [] → (applyAll cs V).EventAt time) := by
  induction cs generalizing V with
  | nil => exact ⟨notLate, rfl, rfl, fun h => h.resolve_right fun no => no rfl⟩
  | cons c cs ih =>
      obtain ⟨x, val, rfl, -⟩ := all c List.mem_cons_self
      obtain ⟨notLate', now, sched, event⟩ := ih (V := V.later x time val) early
        (fun c hc => all c (List.mem_cons_of_mem _ hc)) ok.2 (notLate.later early)
      exact ⟨notLate', now, sched, fun _ => event (Or.inl (.later (Or.inr ok.1.1)))⟩

end Calls

end SsmRuntime
