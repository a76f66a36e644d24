import SsmRuntime.InputQueue

/-!
The 32-bit counter behind the 64-bit clock of the Zephyr platform. The counter
and its wraps, the handler that counts them and the three reads of
`ssm_timer_read_raw` are steps of their own: the handler of a wrap runs at any
moment after the wrap, and several contexts may be reading at once.
-/
namespace SsmRuntime

/-- How far a context is in `ssm_timer_read_raw`. Besides what it has read it
holds the tick counts of those moments, and how many wraps waited for their
handler at the first. -/
inductive Reader where
  | idle
  | gotHi0 (hi0 first late0 : Nat)
  | gotLo (hi0 first late0 lo taken : Nat)
  deriving DecidableEq, Repr

/-- A reading, with the tick counts at its three reads and the wraps that waited
for their handler at the two reads of the high half. -/
structure Reading where
  raw : PlatformTime
  first : Nat
  taken : Nat
  last : Nat
  late0 : Nat
  late1 : Nat
  deriving DecidableEq, Repr

/-- `hi` is `__ssm_timer_hi`; `waiting` counts the wraps whose handler has not run. -/
structure Timer where
  ticks : Nat
  hi : Nat
  waiting : Nat
  readers : Nat → Reader
  log : List Reading

namespace Timer

def boot : Timer := ⟨0, 0, 0, fun _ => .idle, []⟩

def ssmTimerRead32 (s : Timer) : Nat := s.ticks % 2 ^ 32

def overflowHandler (s : Timer) : Timer :=
  { s with hi := (s.hi + 1) % 2 ^ 32, waiting := s.waiting - 1 }

def advance (n : Nat) (s : Timer) : Timer :=
  { s with
    ticks := s.ticks + n
    waiting := s.waiting + ((s.ticks + n) / 2 ^ 32 - s.ticks / 2 ^ 32) }

def setReader (s : Timer) (c : Nat) (r : Reader) : Timer :=
  { s with readers := Function.update s.readers c r }

@[simp] theorem setReader_self (s : Timer) (c : Nat) (r : Reader) :
    (s.setReader c r).readers c = r := Function.update_self ..

theorem setReader_of_ne (s : Timer) {c d : Nat} (r : Reader) (h : d ≠ c) :
    (s.setReader c r).readers d = s.readers d := Function.update_of_ne h ..

end Timer

inductive TimerOp where
  | advance (n : Nat)
  | overflow
  | readHi0 (c : Nat)
  | readLo (c : Nat)
  | readHi1 (c : Nat)
  deriving DecidableEq, Repr

/-- One step: time passes, the handler runs, or a context reads. -/
def TimerOp.step : TimerOp → Timer → Option Timer
  | advance n, s => if s.ticks + n < 2 ^ 64 then some (s.advance n) else none
  | overflow, s => if s.waiting = 0 then none else some s.overflowHandler
  | readHi0 c, s =>
      match s.readers c with
      | .idle => some (s.setReader c (.gotHi0 s.hi s.ticks s.waiting))
      | _ => none
  | readLo c, s =>
      match s.readers c with
      | .gotHi0 hi0 first late0 =>
          some (s.setReader c (.gotLo hi0 first late0 s.ssmTimerRead32 s.ticks))
      | _ => none
  | readHi1 c, s =>
      match s.readers c with
      | .gotLo hi0 first late0 lo taken =>
          some { s.setReader c .idle with
            log := ⟨⟨hi0, lo, s.hi⟩, first, taken, s.ticks, late0, s.waiting⟩ :: s.log }
      | _ => none

def playTimer : List TimerOp → Timer → Option Timer
  | [], s => some s
  | op :: ops, s => (op.step s).bind (playTimer ops)

/-- The states that interleavings of the steps lead to. -/
inductive TimerRun : Timer → Prop where
  | start : TimerRun Timer.boot
  | step {op : TimerOp} {s t : Timer} : TimerRun s → op.step s = some t → TimerRun t

theorem TimerRun.of_play {ops : List TimerOp} {s t : Timer} (run : TimerRun s)
    (play : playTimer ops s = some t) : TimerRun t := by
  induction ops generalizing s with
  | nil => exact Option.some.inj play ▸ run
  | cons op ops ih =>
      obtain ⟨u, step, rest⟩ := Option.bind_eq_some_iff.mp play
      exact ih (run.step step) rest

namespace Reading

/-- The three reads lie within half a turn of the counter. -/
def Short (r : Reading) : Prop := r.last - r.first < 2 ^ 31

/-- No wrap waits for its handler at the read of the high half that belongs to
the half of its turn in which the counter was read: the first read for the upper
half, the second for the lower. -/
def InTime (r : Reading) : Prop := if r.raw.lo.testBit 31 then r.late0 = 0 else r.late1 = 0

instance (r : Reading) : Decidable r.Short := inferInstanceAs (Decidable (_ < _))

instance (r : Reading) : Decidable r.InTime := by
  unfold InTime
  infer_instance

/-- What a reading says of the three moments at which it was taken. -/
structure Taken (r : Reading) : Prop where
  first_le : r.first ≤ r.taken
  le_last : r.taken ≤ r.last
  hi0 : r.raw.hi0 + r.late0 = r.first / 2 ^ 32
  lo : r.raw.lo = r.taken % 2 ^ 32
  hi1 : r.raw.hi1 + r.late1 = r.last / 2 ^ 32
  hi_le : r.raw.hi0 ≤ r.raw.hi1

theorem testBit_top {n : Nat} (small : n < 2 ^ 32) : n.testBit 31 = true ↔ 2 ^ 31 ≤ n := by
  rw [Nat.testBit_eq_decide_div_mod_eq, decide_eq_true_iff]
  omega

section Taken
variable {r : Reading} (t : r.Taken)
include t

theorem Taken.upper_iff : r.raw.lo.testBit 31 = true ↔ 2 ^ 31 ≤ r.taken % 2 ^ 32 := by
  rw [t.lo]
  exact testBit_top (Nat.mod_lt _ (by decide))

/-- In the upper half of a turn no wrap lies between the first two reads, in the
lower half none between the last two; the other read of the high half may be of
the neighbouring turn. -/
theorem Taken.calc_eq_iff (short : r.Short) : ssmTimerCalc r.raw = r.taken ↔ r.InTime := by
  have upper := t.upper_iff
  have lo := t.lo
  have hi0 := t.hi0
  have hi1 := t.hi1
  have first := t.first_le
  have last := t.le_last
  unfold Short at short
  unfold ssmTimerCalc ssmTimerCombine InTime
  by_cases half : r.raw.lo.testBit 31 = true
  · have turn : r.first / 2 ^ 32 = r.taken / 2 ^ 32 := by
      have := upper.mp half
      omega
    rw [if_pos half, if_pos half]
    split <;> omega
  · have turn : r.last / 2 ^ 32 = r.taken / 2 ^ 32 := by
      have := Nat.lt_of_not_le fun h => half (upper.mpr h)
      omega
    rw [if_neg half, if_neg half]
    split <;> omega

end Taken

end Reading

/-- What a context has read so far. -/
def Reader.Taken (s : Timer) : Reader → Prop
  | .idle => True
  | .gotHi0 hi0 first late0 => first ≤ s.ticks ∧ hi0 + late0 = first / 2 ^ 32 ∧ hi0 ≤ s.hi
  | .gotLo hi0 first late0 lo taken =>
      first ≤ taken ∧ taken ≤ s.ticks ∧ hi0 + late0 = first / 2 ^ 32 ∧ lo = taken % 2 ^ 32 ∧
        hi0 ≤ s.hi

/-- The wraps so far are those counted and those that wait. -/
structure TimerInv (s : Timer) : Prop where
  fits : s.ticks < 2 ^ 64
  wraps : s.hi + s.waiting = s.ticks / 2 ^ 32
  readers : ∀ c, (s.readers c).Taken s
  log : ∀ r ∈ s.log, r.Taken

theorem Reader.Taken.mono {s t : Timer} {r : Reader} (h : r.Taken s) (ticks : s.ticks ≤ t.ticks)
    (hi : s.hi ≤ t.hi) : r.Taken t := by
  cases r with
  | idle => trivial
  | gotHi0 hi0 first late0 =>
      obtain ⟨before, hi0, le⟩ := h
      exact ⟨before.trans ticks, hi0, le.trans hi⟩
  | gotLo hi0 first late0 lo taken =>
      obtain ⟨order, before, hi0, lo, le⟩ := h
      exact ⟨order, before.trans ticks, hi0, lo, le.trans hi⟩

theorem TimerInv.setReader {s : Timer} (inv : TimerInv s) {c : Nat} {r : Reader}
    (taken : r.Taken s) : TimerInv (s.setReader c r) where
  fits := inv.fits
  wraps := inv.wraps
  readers := fun d => by
    by_cases hd : d = c
    · subst hd
      rw [Timer.setReader_self]
      exact taken.mono (Nat.le_refl _) (Nat.le_refl _)
    · rw [Timer.setReader_of_ne s r hd]
      exact (inv.readers d).mono (Nat.le_refl _) (Nat.le_refl _)
  log := inv.log

theorem TimerInv.step {op : TimerOp} {s t : Timer} (inv : TimerInv s) (h : op.step s = some t) :
    TimerInv t := by
  have fits := inv.fits
  have wraps := inv.wraps
  cases op with
  | advance n =>
      simp only [TimerOp.step] at h
      split at h
      · rename_i room
        cases h
        refine ⟨room, ?_, fun c => ?_, inv.log⟩
        · simp only [Timer.advance]
          omega
        · exact (inv.readers c).mono (Nat.le_add_right _ _) (Nat.le_refl _)
      · cases h
  | overflow =>
      simp only [TimerOp.step] at h
      split at h
      · cases h
      · rename_i some'
        cases h
        have count : (s.hi + 1) % 2 ^ 32 = s.hi + 1 := by omega
        refine ⟨fits, ?_, fun c => ?_, inv.log⟩
        · simp only [Timer.overflowHandler]
          omega
        · refine (inv.readers c).mono (Nat.le_refl _) ?_
          simp only [Timer.overflowHandler]
          omega
  | readHi0 c =>
      simp only [TimerOp.step] at h
      split at h
      · cases h
        exact inv.setReader ⟨Nat.le_refl _, wraps, Nat.le_refl _⟩
      · cases h
  | readLo c =>
      simp only [TimerOp.step] at h
      split at h
      · rename_i hi0 first late0 got
        cases h
        obtain ⟨before, eq, le⟩ : Reader.Taken s (.gotHi0 hi0 first late0) := got ▸ inv.readers c
        exact inv.setReader ⟨before, Nat.le_refl _, eq, rfl, le⟩
      · cases h
  | readHi1 c =>
      simp only [TimerOp.step] at h
      split at h
      · rename_i hi0 first late0 lo taken got
        cases h
        obtain ⟨order, before, eq, low, le⟩ :
            Reader.Taken s (.gotLo hi0 first late0 lo taken) := got ▸ inv.readers c
        have freed : TimerInv (s.setReader c .idle) := inv.setReader trivial
        refine ⟨fits, wraps, freed.readers, fun r hr => ?_⟩
        rcases List.mem_cons.mp hr with rfl | old
        · exact ⟨order, before, eq, low, wraps, le⟩
        · exact inv.log r old
      · cases h

theorem TimerRun.inv {s : Timer} (run : TimerRun s) : TimerInv s := by
  induction run with
  | start => exact ⟨by decide, rfl, fun _ => trivial, fun r hr => absurd hr List.not_mem_nil⟩
  | step _ step ih => exact ih.step step

/-- Every reading of a run is the tick count at the read of the counter exactly
if it is in time; readings that are in time never decrease. -/
theorem timerRun_exact {s : Timer} (run : TimerRun s) :
    (∀ r ∈ s.log, r.Short → (ssmTimerCalc r.raw = r.taken ↔ r.InTime)) ∧
      ((∀ r ∈ s.log, r.Short ∧ r.InTime) → ∀ r ∈ s.log, ∀ r' ∈ s.log, r.taken ≤ r'.taken →
        ssmTimerCalc r.raw ≤ ssmTimerCalc r'.raw) := by
  have exact' : ∀ r ∈ s.log, r.Short → (ssmTimerCalc r.raw = r.taken ↔ r.InTime) :=
    fun r hr short => (run.inv.log r hr).calc_eq_iff short
  refine ⟨exact', fun all r hr r' hr' order => ?_⟩
  have value := (exact' r hr (all r hr).1).mpr (all r hr).2
  have value' := (exact' r' hr' (all r' hr').1).mpr (all r' hr').2
  rw [value, value']
  exact order

/-- Two contexts read while the counter wraps; its handler runs between their reads. -/
def racingReads : List TimerOp :=
  [.advance (2 ^ 32 - 2), .readHi0 0, .advance 1, .readHi0 1, .readLo 1, .advance 3, .readLo 0,
    .overflow, .readHi1 0, .readHi1 1]

theorem timerRun_exact_racing : ∃ s, playTimer racingReads Timer.boot = some s ∧
    s.log.map (fun r => ssmTimerCalc r.raw) = [2 ^ 32 - 1, 2 ^ 32 + 2] ∧
    ((∀ r ∈ s.log, r.Short → (ssmTimerCalc r.raw = r.taken ↔ r.InTime)) ∧
      ((∀ r ∈ s.log, r.Short ∧ r.InTime) → ∀ r ∈ s.log, ∀ r' ∈ s.log, r.taken ≤ r'.taken →
        ssmTimerCalc r.raw ≤ ssmTimerCalc r'.raw)) := by
  have ends : (playTimer racingReads Timer.boot).any
      (fun s => s.log.map (fun r => ssmTimerCalc r.raw) = [2 ^ 32 - 1, 2 ^ 32 + 2]) = true := by
    decide +kernel
  obtain ⟨s, play, out⟩ := (Option.any_eq_true _ _).mp ends
  exact ⟨s, play, of_decide_eq_true out, timerRun_exact (TimerRun.start.of_play play)⟩

/-- A wrap before the read of the counter, counted after the last read only. -/
def deferredReads : List TimerOp :=
  [.advance (2 ^ 32 - 1), .readHi0 0, .advance 1, .readLo 0, .readHi1 0, .overflow]

/-- A reading during which the handler is held back goes back by a whole turn. -/
theorem not_timerExact : ¬ ∀ s, TimerRun s → ∀ r ∈ s.log, r.Short →
    ssmTimerCalc r.raw = r.taken := by
  intro all
  have ends : (playTimer deferredReads Timer.boot).any
      (fun s => s.log = [⟨⟨0, 0, 0⟩, 2 ^ 32 - 1, 2 ^ 32, 2 ^ 32, 0, 1⟩]) = true := by
    decide +kernel
  obtain ⟨s, play, out⟩ := (Option.any_eq_true _ _).mp ends
  have log := of_decide_eq_true out
  have right := all s (TimerRun.start.of_play play) _ (by rw [log]; exact List.mem_singleton_self _)
    (by decide)
  exact absurd right (by decide)

end SsmRuntime
