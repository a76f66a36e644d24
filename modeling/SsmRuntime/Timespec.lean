import SsmRuntime.State

/-!
The timespec arithmetic of the POSIX platform, in the signed 64-bit type of the
two fields: an expression that leaves the type has no value.
-/
namespace SsmRuntime

/-- `NANOS`. -/
def nanos : Int := 1000000000

/-- The value of a `long` or `time_t` expression, if it is one. -/
def long (x : Int) : Option Int := if -2 ^ 63 ≤ x ∧ x < 2 ^ 63 then some x else none

structure Timespec where
  tvSec : Int
  tvNsec : Int
  deriving DecidableEq, Repr

def timespecDiff (a b : Timespec) : Option Timespec := do
  let nsec ← long (a.tvNsec - b.tvNsec)
  let sec ← long (a.tvSec - b.tvSec)
  if nsec < 0 then
    let sec ← long (sec - 1)
    let nsec ← long (nsec + nanos)
    some ⟨sec, nsec⟩
  else some ⟨sec, nsec⟩

def timespecAdd (a b : Timespec) : Option Timespec := do
  let nsec ← long (a.tvNsec + b.tvNsec)
  let sec ← long (a.tvSec + b.tvSec)
  if nanos < nsec then
    let sec ← long (sec + 1)
    let nsec ← long (nsec - nanos)
    some ⟨sec, nsec⟩
  else some ⟨sec, nsec⟩

def timespecLt (a b : Timespec) : Bool :=
  if a.tvSec = b.tvSec then a.tvNsec < b.tvNsec else a.tvSec < b.tvSec

def timespecTime (t : Timespec) : Option Int := do
  let ns ← long (t.tvSec * nanos)
  long (ns + t.tvNsec)

/-- The nanoseconds are an `ssm_time_t`, so the division is unsigned. -/
def timespecOf (ns : Nat) : Timespec := ⟨(ns : Int) / nanos, (ns : Int) % nanos⟩

/-- What `pselect` takes as a timeout. -/
structure Timespec.Normal (t : Timespec) : Prop where
  sec_nonneg : 0 ≤ t.tvSec
  nsec_nonneg : 0 ≤ t.tvNsec
  nsec_lt : t.tvNsec < nanos

/-- The nanoseconds that a timespec stands for. -/
def Timespec.total (t : Timespec) : Int := t.tvSec * nanos + t.tvNsec

theorem long_of {x : Int} (low : -2 ^ 63 ≤ x) (high : x < 2 ^ 63) : long x = some x :=
  if_pos ⟨low, high⟩

theorem long_eq_some {x y : Int} : long x = some y ↔ (-2 ^ 63 ≤ x ∧ x < 2 ^ 63) ∧ x = y := by
  rw [long, Option.ite_none_right_eq_some, Option.some.injEq]

section Values
variable {a b t : Timespec}

theorem timespecTime_eq_some (n : t.Normal) {x : Int} :
    timespecTime t = some x ↔ t.total < 2 ^ 63 ∧ t.total = x := by
  have sec := n.sec_nonneg
  have low := n.nsec_nonneg
  have high := n.nsec_lt
  unfold timespecTime Timespec.total
  simp only [nanos] at *
  constructor
  · intro h
    obtain ⟨ns, first, h⟩ := Option.bind_eq_some_iff.mp h
    obtain ⟨-, rfl⟩ := long_eq_some.mp first
    obtain ⟨fits, rfl⟩ := long_eq_some.mp h
    exact ⟨fits.2, rfl⟩
  · rintro ⟨fits, rfl⟩
    refine Option.bind_eq_some_iff.mpr ⟨_, long_of ?_ ?_, long_of ?_ fits⟩ <;> omega

/-- Seconds that an `ssm_time_t` can have, and nanoseconds of one second at most. -/
structure Timespec.Inside (t : Timespec) : Prop where
  sec_nonneg : 0 ≤ t.tvSec
  sec_lt : t.tvSec < 2 ^ 62
  nsec_nonneg : 0 ≤ t.tvNsec
  nsec_le : t.tvNsec ≤ nanos

theorem Timespec.Normal.inside (n : t.Normal) (fits : t.total < 2 ^ 64) : t.Inside := by
  have sec := n.sec_nonneg
  have low := n.nsec_nonneg
  have high := n.nsec_lt
  unfold Timespec.total at fits
  refine ⟨sec, ?_, low, Int.le_of_lt high⟩
  simp only [nanos] at *
  omega

theorem Timespec.Normal.total_nonneg (n : t.Normal) : 0 ≤ t.total := by
  have sec := n.sec_nonneg
  have low := n.nsec_nonneg
  unfold Timespec.total
  simp only [nanos]
  omega

section Inside
variable (ia : a.Inside) (ib : b.Inside)
include ia ib

theorem timespecDiff_borrow (borrow : a.tvNsec < b.tvNsec) : timespecDiff a b =
    some ⟨a.tvSec - b.tvSec - 1, a.tvNsec - b.tvNsec + nanos⟩ := by
  obtain ⟨sa, ta, la, ha⟩ := ia
  obtain ⟨sb, tb, lb, hb⟩ := ib
  have second : nanos = 1000000000 := rfl
  unfold timespecDiff
  rw [long_of (x := a.tvNsec - b.tvNsec) (by omega) (by omega), Option.bind_eq_bind,
    Option.bind_some, long_of (x := a.tvSec - b.tvSec) (by omega) (by omega), Option.bind_some,
    if_pos (by omega), long_of (by omega) (by omega), Option.bind_some,
    long_of (by omega) (by omega), Option.bind_some]

theorem timespecDiff_plain (plain : b.tvNsec ≤ a.tvNsec) : timespecDiff a b =
    some ⟨a.tvSec - b.tvSec, a.tvNsec - b.tvNsec⟩ := by
  obtain ⟨sa, ta, la, ha⟩ := ia
  obtain ⟨sb, tb, lb, hb⟩ := ib
  have second : nanos = 1000000000 := rfl
  unfold timespecDiff
  rw [long_of (x := a.tvNsec - b.tvNsec) (by omega) (by omega), Option.bind_eq_bind,
    Option.bind_some, long_of (x := a.tvSec - b.tvSec) (by omega) (by omega), Option.bind_some,
    if_neg (by omega)]

theorem timespecAdd_carry (carry : nanos < a.tvNsec + b.tvNsec) : timespecAdd a b =
    some ⟨a.tvSec + b.tvSec + 1, a.tvNsec + b.tvNsec - nanos⟩ := by
  obtain ⟨sa, ta, la, ha⟩ := ia
  obtain ⟨sb, tb, lb, hb⟩ := ib
  have second : nanos = 1000000000 := rfl
  unfold timespecAdd
  rw [long_of (x := a.tvNsec + b.tvNsec) (by omega) (by omega), Option.bind_eq_bind,
    Option.bind_some, long_of (x := a.tvSec + b.tvSec) (by omega) (by omega), Option.bind_some,
    if_pos carry, long_of (by omega) (by omega), Option.bind_some,
    long_of (by omega) (by omega), Option.bind_some]

theorem timespecAdd_plain (plain : a.tvNsec + b.tvNsec ≤ nanos) : timespecAdd a b =
    some ⟨a.tvSec + b.tvSec, a.tvNsec + b.tvNsec⟩ := by
  obtain ⟨sa, ta, la, ha⟩ := ia
  obtain ⟨sb, tb, lb, hb⟩ := ib
  have second : nanos = 1000000000 := rfl
  unfold timespecAdd
  rw [long_of (x := a.tvNsec + b.tvNsec) (by omega) (by omega), Option.bind_eq_bind,
    Option.bind_some, long_of (x := a.tvSec + b.tvSec) (by omega) (by omega), Option.bind_some,
    if_neg (Int.not_lt.mpr plain)]

end Inside

/-- The nanosecond parts may sum to one second exactly: then nothing is carried. -/
theorem timespecAdd_exact_iff (na : a.Normal) (nb : b.Normal) (fits : a.total + b.total < 2 ^ 63) :
    (∃ c, timespecAdd a b = some c ∧ c.Normal ∧ timespecTime c = some (a.total + b.total)) ↔
      a.tvNsec + b.tvNsec ≠ nanos := by
  have ia := na.inside (by have := nb.total_nonneg; omega)
  have ib := nb.inside (by have := na.total_nonneg; omega)
  have below := na.nsec_lt
  have below' := nb.nsec_lt
  have low := na.nsec_nonneg
  have low' := nb.nsec_nonneg
  have sec := na.sec_nonneg
  have sec' := nb.sec_nonneg
  unfold Timespec.total at fits ⊢
  rcases Int.lt_trichotomy (a.tvNsec + b.tvNsec) nanos with less | equal | more
  · refine iff_of_true ⟨_, timespecAdd_plain ia ib (Int.le_of_lt less), ?_⟩ (Int.ne_of_lt less)
    have normal : Timespec.Normal ⟨a.tvSec + b.tvSec, a.tvNsec + b.tvNsec⟩ :=
      ⟨Int.add_nonneg sec sec', Int.add_nonneg low low', less⟩
    refine ⟨normal, (timespecTime_eq_some normal).mpr ?_⟩
    simp only [Timespec.total, nanos] at *
    omega
  · refine iff_of_false ?_ fun off => off equal
    rintro ⟨c, sum, normal, -⟩
    rw [timespecAdd_plain ia ib (Int.le_of_eq equal)] at sum
    have := (Option.some.inj sum) ▸ normal.nsec_lt
    exact absurd equal (Int.ne_of_lt this)
  · refine iff_of_true ⟨_, timespecAdd_carry ia ib more, ?_⟩ (Int.ne_of_gt more)
    have normal : Timespec.Normal
        ⟨a.tvSec + b.tvSec + 1, a.tvNsec + b.tvNsec - nanos⟩ := by
      refine ⟨?_, ?_, ?_⟩ <;> simp only <;> omega
    refine ⟨normal, (timespecTime_eq_some normal).mpr ?_⟩
    simp only [Timespec.total, nanos] at *
    omega

/-- A difference is normal where it is not negative; the first operand may be any
time that an `ssm_time_t` holds. -/
theorem timespecDiff_exact (na : a.Normal) (nb : b.Normal) (fits : a.total < 2 ^ 64)
    (order : b.total ≤ a.total) :
    ∃ d, timespecDiff a b = some d ∧ d.Normal ∧ d.total = a.total - b.total := by
  have ia := na.inside fits
  have ib := nb.inside (by omega)
  obtain ⟨sa, la, ha⟩ := na
  obtain ⟨sb, lb, hb⟩ := nb
  unfold Timespec.total at *
  by_cases borrow : a.tvNsec < b.tvNsec
  · refine ⟨_, timespecDiff_borrow ia ib borrow, ⟨?_, ?_, ?_⟩, ?_⟩ <;>
      simp only [nanos] at * <;> omega
  · refine ⟨_, timespecDiff_plain ia ib (Int.not_lt.mp borrow), ⟨?_, ?_, ?_⟩, ?_⟩ <;>
      simp only [nanos] at * <;> omega

theorem timespecLt_iff (na : a.Normal) (nb : b.Normal) :
    timespecLt a b = true ↔ a.total < b.total := by
  obtain ⟨sa, la, ha⟩ := na
  obtain ⟨sb, lb, hb⟩ := nb
  unfold timespecLt Timespec.total
  simp only [nanos] at *
  split
  · rename_i same
    rw [same, decide_eq_true_iff]
    omega
  · rw [decide_eq_true_iff]
    omega

theorem timespecOf_normal (ns : Nat) : (timespecOf ns).Normal := by
  refine ⟨?_, ?_, ?_⟩ <;> simp only [timespecOf, nanos] <;> omega

theorem timespecOf_total (ns : Nat) : (timespecOf ns).total = ns := by
  simp only [timespecOf, Timespec.total, nanos]
  omega

theorem timespecOf_toNat (n : t.Normal) : timespecOf t.total.toNat = t := by
  have nonneg := n.total_nonneg
  obtain ⟨sec, low, high⟩ := n
  rw [timespecOf, Int.toNat_of_nonneg nonneg]
  cases t
  simp only [Timespec.total, nanos, Timespec.mk.injEq] at *
  omega

theorem diff_add (na : a.Normal) (nb : b.Normal) (fits : a.total + b.total < 2 ^ 63) :
    (timespecAdd a b >>= fun c => timespecDiff c b) = some a := by
  have ia := na.inside (by have := nb.total_nonneg; omega)
  have ib := nb.inside (by have := na.total_nonneg; omega)
  obtain ⟨sa, la, ha⟩ := na
  obtain ⟨sb, lb, hb⟩ := nb
  unfold Timespec.total at fits
  have secs : a.tvSec + b.tvSec + 1 < 2 ^ 62 := by
    simp only [nanos] at *
    omega
  rcases Int.lt_or_le nanos (a.tvNsec + b.tvNsec) with carry | plain
  · have ic : Timespec.Inside ⟨a.tvSec + b.tvSec + 1, a.tvNsec + b.tvNsec - nanos⟩ := by
      refine ⟨?_, ?_, ?_, ?_⟩ <;> simp only <;> omega
    refine Option.bind_eq_some_iff.mpr ⟨_, timespecAdd_carry ia ib carry, ?_⟩
    rw [timespecDiff_borrow ic ib (by simp only; omega)]
    cases a
    simp only [Option.some.injEq, Timespec.mk.injEq]
    omega
  · have ic : Timespec.Inside ⟨a.tvSec + b.tvSec, a.tvNsec + b.tvNsec⟩ := by
      refine ⟨?_, ?_, ?_, ?_⟩ <;> simp only <;> omega
    refine Option.bind_eq_some_iff.mpr ⟨_, timespecAdd_plain ia ib plain, ?_⟩
    rw [timespecDiff_plain ic ib (by simp only; omega)]
    cases a
    simp only [Option.some.injEq, Timespec.mk.injEq]
    omega

/-- A borrow that leaves whole seconds is not carried back. -/
theorem add_diff_iff (na : a.Normal) (nb : b.Normal) (fits : a.total < 2 ^ 63)
    (order : b.total ≤ a.total) :
    (timespecDiff a b >>= fun d => timespecAdd d b) = some a ↔
      ¬ (a.tvNsec = 0 ∧ 0 < b.tvNsec) := by
  have ia := na.inside (by omega)
  have ib := nb.inside (by omega)
  obtain ⟨d, rest, nd, total⟩ := timespecDiff_exact na nb (by omega) order
  have id := nd.inside (by have := nb.total_nonneg; omega)
  obtain ⟨sa, la, ha⟩ := na
  obtain ⟨sb, lb, hb⟩ := nb
  rw [rest, Option.bind_eq_bind, Option.bind_some]
  by_cases borrow : a.tvNsec < b.tvNsec
  · rw [timespecDiff_borrow ia ib borrow] at rest
    cases Option.some.inj rest
    rcases Int.lt_or_le nanos (a.tvNsec - b.tvNsec + nanos + b.tvNsec) with carry | plain
    · rw [timespecAdd_carry id ib carry]
      cases a
      simp only [Option.some.injEq, Timespec.mk.injEq] at *
      omega
    · rw [timespecAdd_plain id ib plain]
      cases a
      simp only [Option.some.injEq, Timespec.mk.injEq] at *
      omega
  · rw [timespecDiff_plain ia ib (Int.not_lt.mp borrow)] at rest
    cases Option.some.inj rest
    rw [timespecAdd_plain id ib (by simp only; omega)]
    cases a
    simp only [Option.some.injEq, Timespec.mk.injEq] at *
    omega

end Values

/-- The arithmetic on two timespecs is that on their nanoseconds. -/
structure TimespecFaithful (a b : Timespec) (ta tb : Int) : Prop where
  add : ta + tb < 2 ^ 63 →
    ∃ c, timespecAdd a b = some c ∧ c.Normal ∧ timespecTime c = some (ta + tb)
  diff : tb ≤ ta → ∃ d, timespecDiff a b = some d ∧ d.Normal ∧ timespecTime d = some (ta - tb)
  lt : timespecLt a b = true ↔ ta < tb
  ofTime : timespecOf ta.toNat = a ∧ timespecOf tb.toNat = b
  timeOf : ∀ ns : Nat, ns < 2 ^ 63 →
    (timespecOf ns).Normal ∧ timespecTime (timespecOf ns) = some (ns : Int)
  diffAdd : ta + tb < 2 ^ 63 → (timespecAdd a b >>= fun c => timespecDiff c b) = some a
  addDiff : tb ≤ ta → (timespecDiff a b >>= fun d => timespecAdd d b) = some a
  sleep : ∀ next : Nat, next < 2 ^ 64 → tb < next →
    ∃ d, timespecDiff (timespecOf next) b = some d ∧ d.Normal ∧ d.total = next - tb

/-- The arithmetic is faithful unless `timespec_add` meets nanosecond parts of one
second in sum: those of the two operands, or those of the difference and the
second operand, which are one second exactly if the first operand has none. -/
theorem timespec_faithful_iff {a b : Timespec} {ta tb : Int} (na : a.Normal) (nb : b.Normal)
    (ha : timespecTime a = some ta) (hb : timespecTime b = some tb) :
    TimespecFaithful a b ta tb ↔
      ¬ (ta + tb < 2 ^ 63 ∧ a.tvNsec + b.tvNsec = nanos) ∧
        ¬ (tb ≤ ta ∧ a.tvNsec = 0 ∧ 0 < b.tvNsec) := by
  obtain ⟨fitsA, rfl⟩ := (timespecTime_eq_some na).mp ha
  obtain ⟨fitsB, rfl⟩ := (timespecTime_eq_some nb).mp hb
  constructor
  · intro faithful
    refine ⟨fun bad => ?_, fun bad => ?_⟩
    · exact (timespecAdd_exact_iff na nb bad.1).mp (faithful.add bad.1) bad.2
    · exact (add_diff_iff na nb fitsA bad.1).mp (faithful.addDiff bad.1) bad.2
  · rintro ⟨off, whole⟩
    refine ⟨fun fits => (timespecAdd_exact_iff na nb fits).mpr fun one => off ⟨fits, one⟩,
      fun order => ?_, timespecLt_iff na nb, ⟨timespecOf_toNat na, timespecOf_toNat nb⟩,
      fun ns small => ?_, diff_add na nb,
      fun order => (add_diff_iff na nb fitsA order).mpr fun bad => whole ⟨order, bad⟩,
      fun next small later => ?_⟩
    · obtain ⟨d, run, normal, total⟩ := timespecDiff_exact na nb (by omega) order
      have := nb.total_nonneg
      exact ⟨d, run, normal, (timespecTime_eq_some normal).mpr ⟨by omega, total⟩⟩
    · refine ⟨timespecOf_normal ns, (timespecTime_eq_some (timespecOf_normal ns)).mpr ?_⟩
      rw [timespecOf_total]
      exact ⟨by omega, rfl⟩
    · have order : b.total ≤ (timespecOf next).total := by
        rw [timespecOf_total]
        omega
      have inside : (timespecOf next).total < 2 ^ 64 := by
        rw [timespecOf_total]
        omega
      obtain ⟨d, run, normal, total⟩ :=
        timespecDiff_exact (timespecOf_normal next) nb inside order
      exact ⟨d, run, normal, by rw [total, timespecOf_total]⟩

theorem timespec_faithful_carry :
    TimespecFaithful ⟨3, 700000000⟩ ⟨1, 800000000⟩ 3700000000 1800000000 :=
  (timespec_faithful_iff ⟨by decide, by decide, by decide⟩ ⟨by decide, by decide, by decide⟩
    (by decide) (by decide)).mpr ⟨by decide, by decide⟩

/-- Half a second and half a second make no second. -/
theorem not_timespec_faithful : ¬ ∀ a b : Timespec, ∀ ta tb : Int, a.Normal → b.Normal →
    timespecTime a = some ta → timespecTime b = some tb → TimespecFaithful a b ta tb := by
  intro all
  have half : Timespec.Normal ⟨0, 500000000⟩ := ⟨by decide, by decide, by decide⟩
  have faithful := all ⟨0, 500000000⟩ ⟨0, 500000000⟩ 500000000 500000000 half half (by decide)
    (by decide)
  obtain ⟨c, sum, normal, -⟩ := faithful.add (by decide)
  have value : timespecAdd ⟨0, 500000000⟩ ⟨0, 500000000⟩ = some ⟨0, 1000000000⟩ := by decide
  rw [value] at sum
  exact absurd ((Option.some.inj sum) ▸ normal.nsec_lt) (by decide)

end SsmRuntime
