import Mathlib.Algebra.GroupWithZero.Nat
import Mathlib.Data.Nat.Basic
import Mathlib.Logic.Function.Basic
import Mathlib.Order.Interval.Finset.Nat

/-!
Memory as a function from addresses to bytes. Words of any width are stored
with the least significant byte first. Lists are threaded through memory by a
function that tells the next cell, up to a stop value.
-/
namespace ByteMemory

abbrev Bytes := Nat → UInt8

def load (m : Bytes) : Nat → Nat → Nat
  | 0, _ => 0
  | width + 1, a => (m a).toNat + 256 * load m width (a + 1)

def store (m : Bytes) : Nat → Nat → Nat → Bytes
  | 0, _, _ => m
  | width + 1, a, v => Function.update (store m width (a + 1) (v / 256)) a (UInt8.ofNat v)

/-- The addresses of a range hold zeros. -/
def zeroed (m : Bytes) (a size : Nat) : Bytes := fun i => if a ≤ i ∧ i < a + size then 0 else m i

theorem store_outside (m : Bytes) (width a v : Nat) {i : Nat} (h : i < a ∨ a + width ≤ i) :
    store m width a v i = m i := by
  induction width generalizing a v with
  | zero => rfl
  | succ width ih =>
      rw [store, Function.update_of_ne (by omega)]
      exact ih (a + 1) (v / 256) (by omega)

theorem load_congr {m m' : Bytes} (width a : Nat)
    (same : ∀ i, a ≤ i → i < a + width → m' i = m i) : load m' width a = load m width a := by
  induction width generalizing a with
  | zero => rfl
  | succ width ih =>
      rw [load, load, same a (by omega) (by omega), ih (a + 1) fun i h1 h2 => same i (by omega)
        (by omega)]

theorem load_store (m : Bytes) (width a v : Nat) (fits : v < 256 ^ width) :
    load (store m width a v) width a = v := by
  induction width generalizing a v with
  | zero =>
      rw [Nat.pow_zero] at fits
      rw [load]
      omega
  | succ width ih =>
      have rest : load (store m (width + 1) a v) width (a + 1) = v / 256 := by
        have small : v / 256 < 256 ^ width := by
          rw [Nat.pow_succ] at fits
          omega
        rw [load_congr (m := store m width (a + 1) (v / 256)), ih (a + 1) (v / 256) small]
        intro i h1 _
        rw [store, Function.update_of_ne (by omega)]
      have byte : (store m (width + 1) a v a).toNat = v % 256 := by
        rw [store, Function.update_self, UInt8.toNat_ofNat']
      rw [load, rest, byte]
      omega

theorem load_zero {m : Bytes} (width a : Nat) (zero : ∀ i, a ≤ i → i < a + width → m i = 0) :
    load m width a = 0 := by
  induction width generalizing a with
  | zero => rfl
  | succ width ih =>
      rw [load, zero a (by omega) (by omega),
        ih (a + 1) fun i h1 h2 => zero i (by omega) (by omega)]
      rfl

theorem load_zeroed (m : Bytes) {a size width i : Nat} (h : a ≤ i) (fits : i + width ≤ a + size) :
    load (zeroed m a size) width i = 0 :=
  load_zero width i fun _ h1 h2 => if_pos ⟨by omega, by omega⟩

theorem zeroed_outside (m : Bytes) {a size i : Nat} (h : i < a ∨ a + size ≤ i) :
    zeroed m a size i = m i := if_neg (by omega)

/-- The cells met from a first one on, up to the stop value. -/
inductive Linked (next : Nat → Nat) (stop : Nat) : Nat → List Nat → Prop where
  | stop : Linked next stop stop []
  | cell {a : Nat} {l : List Nat} : a ≠ stop → Linked next stop (next a) l →
      Linked next stop a (a :: l)

section Linked
variable {next : Nat → Nat} {stop a : Nat} {l : List Nat}

theorem Linked.congr {next' : Nat → Nat} (linked : Linked next stop a l)
    (same : ∀ b ∈ l, next' b = next b) : Linked next' stop a l := by
  induction linked with
  | stop => exact .stop
  | @cell a l other rest ih =>
      refine .cell other ?_
      rw [same a List.mem_cons_self]
      exact ih fun b hb => same b (List.mem_cons_of_mem a hb)

theorem Linked.nil_iff (linked : Linked next stop a l) : l = [] ↔ a = stop := by
  cases linked with
  | stop => simp
  | cell other rest => simp [other]

/-- Equally spaced cells, each of which leads to the one after it and the last
to the head of a list. -/
theorem Linked.spaced {size n : Nat} {head : Nat} (rest : Linked next stop head l)
    (apart : ∀ k < n + 1, a + k * size ≠ stop)
    (inner : ∀ k < n, next (a + k * size) = a + (k + 1) * size)
    (last : next (a + n * size) = head) :
    Linked next stop a ((List.range (n + 1)).map (fun k => a + k * size) ++ l) := by
  induction n generalizing a with
  | zero =>
      have here := apart 0 (by omega)
      simp only [Nat.zero_mul, Nat.add_zero] at last here
      have one : (List.range (0 + 1)).map (fun k => a + k * size) = [a] := by simp
      rw [one]
      exact .cell here (last ▸ rest)
  | succ n ih =>
      have here := apart 0 (by omega)
      have first := inner 0 (by omega)
      simp only [Nat.zero_mul, Nat.add_zero, Nat.zero_add, Nat.one_mul] at here first
      have shift : ∀ k, a + size + k * size = a + (k + 1) * size := fun k => by
        rw [Nat.succ_mul, Nat.add_assoc, Nat.add_comm size]
      have tail := ih (a := a + size)
        (fun k hk => by
          rw [shift]
          exact apart (k + 1) (by omega))
        (fun k hk => by
          rw [shift, shift]
          exact inner (k + 1) (by omega))
        (by rw [shift]; exact last)
      have cells : (List.range (n + 1 + 1)).map (fun k => a + k * size) =
          a :: (List.range (n + 1)).map (fun k => a + size + k * size) := by
        rw [List.range_succ_eq_map, List.map_cons, List.map_map]
        simp only [Nat.zero_mul, Nat.add_zero, Function.comp_def, shift]
      rw [cells]
      exact .cell here (first ▸ tail)

end Linked

section Ranges

/-- The addresses of ranges, each with its start and size. -/
def covered : List (Nat × Nat) → Finset Nat
  | [] => ∅
  | r :: rs => Finset.Ico r.1 (r.1 + r.2) ∪ covered rs

theorem mem_covered {rs : List (Nat × Nat)} {i : Nat} :
    i ∈ covered rs ↔ ∃ r ∈ rs, r.1 ≤ i ∧ i < r.1 + r.2 := by
  induction rs with
  | nil => simp [covered]
  | cons r rs ih => simp [covered, ih]

/-- Ranges that do not meet have as many addresses as their sizes add up to. -/
theorem card_covered {rs : List (Nat × Nat)}
    (apart : rs.Pairwise fun r q => r.1 + r.2 ≤ q.1 ∨ q.1 + q.2 ≤ r.1) :
    (covered rs).card = (rs.map Prod.snd).sum := by
  induction rs with
  | nil => rfl
  | cons r rs ih =>
      obtain ⟨first, rest⟩ := List.pairwise_cons.mp apart
      have disjoint : Disjoint (Finset.Ico r.1 (r.1 + r.2)) (covered rs) := by
        refine Finset.disjoint_left.mpr fun i hi hj => ?_
        obtain ⟨q, hq, low, high⟩ := mem_covered.mp hj
        have := Finset.mem_Ico.mp hi
        have := first q hq
        omega
      rw [covered, Finset.card_union_of_disjoint disjoint, ih rest, Nat.card_Ico, List.map_cons,
        List.sum_cons]
      omega

/-- Ranges inside one that do not meet are not larger than it. -/
theorem sum_le_of_apart {rs : List (Nat × Nat)} {low high : Nat}
    (apart : rs.Pairwise fun r q => r.1 + r.2 ≤ q.1 ∨ q.1 + q.2 ≤ r.1)
    (inside : ∀ r ∈ rs, low ≤ r.1 ∧ r.1 + r.2 ≤ high) :
    (rs.map Prod.snd).sum ≤ high - low := by
  rw [← card_covered apart, ← Nat.card_Ico]
  refine Finset.card_le_card fun i hi => ?_
  obtain ⟨r, hr, first, last⟩ := mem_covered.mp hi
  have := inside r hr
  exact Finset.mem_Ico.mpr ⟨by omega, by omega⟩

end Ranges

end ByteMemory
