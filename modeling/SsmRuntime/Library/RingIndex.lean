import Mathlib.Data.Nat.ModEq

/-!
Indices of a ring. Two counters only grow, the slot of a counter is its residue
modulo the size of the ring, and while the counters are closer to each other
than the size, their slots tell them apart.
-/
namespace RingIndex

section
variable {size i j : Nat}

theorem slot_eq_iff (le : i ≤ j) (near : j < i + size) : i % size = j % size ↔ i = j := by
  refine ⟨fun same => ?_, fun same => same ▸ rfl⟩
  obtain ⟨k, hk⟩ := (Nat.modEq_iff_dvd' le).mp same
  cases k with
  | zero => omega
  | succ k =>
      rw [Nat.mul_succ] at hk
      have := Nat.zero_le (size * k)
      omega

theorem slot_ne (lt : i < j) (near : j < i + size) : i % size ≠ j % size :=
  fun same => absurd ((slot_eq_iff (Nat.le_of_lt lt) near).mp same) (Nat.ne_of_lt lt)

/-- The next counter takes the slot of the other when the ring would be full. -/
theorem slot_succ_eq_iff (le : i ≤ j) (near : j < i + size) :
    i % size = (j + 1) % size ↔ j + 1 = i + size := by
  constructor
  · intro same
    by_contra other
    exact slot_ne (Nat.lt_succ_of_le le) (by omega) same
  · intro full
    rw [full, Nat.add_mod_right]

end

/-- Of `n` items a counter of the given modulus has still to pass the last ones,
those before the edge it has passed or missed. -/
def edge (modulus n passed : Nat) : Nat := n - (n % modulus - passed)

theorem edge_le (modulus n passed : Nat) : edge modulus n passed ≤ n := Nat.sub_le _ _

theorem edge_of_le {modulus n passed : Nat} (le : n % modulus ≤ passed) :
    edge modulus n passed = n := by
  rw [edge, Nat.sub_eq_zero_of_le le, Nat.sub_zero]

/-- What was all passed stays passed when more items come. -/
theorem le_edge {modulus m n passed : Nat} (le : m ≤ n) (old : m % modulus ≤ passed) :
    m ≤ edge modulus n passed := by
  have hm := Nat.div_add_mod m modulus
  have hn := Nat.div_add_mod n modulus
  have laps : m / modulus ≤ n / modulus := Nat.div_le_div_right le
  unfold edge
  rcases Nat.eq_or_lt_of_le laps with same | less
  · rw [same] at hm
    omega
  · have pos : 0 < modulus := by
      rcases Nat.eq_zero_or_pos modulus with rfl | pos
      · simp at less
      · exact pos
    have lap := Nat.mul_le_mul_left modulus less
    rw [Nat.mul_succ] at lap
    have := Nat.mod_lt m pos
    omega

/-- Passing the item at the edge moves the edge by one. -/
theorem edge_succ {modulus n passed : Nat} (more : passed < n % modulus) :
    edge modulus n (passed + 1) = edge modulus n passed + 1 ∧ edge modulus n passed < n := by
  have := Nat.mod_le n modulus
  unfold edge
  omega

/-- The item at the edge is in the slot the counter points to. -/
theorem edge_slot {modulus size n passed : Nat} (divides : size ∣ modulus)
    (more : passed < n % modulus) : edge modulus n passed % size = passed % size := by
  have hn := Nat.div_add_mod n modulus
  have split : edge modulus n passed = modulus * (n / modulus) + passed := by
    unfold edge
    omega
  obtain ⟨k, rfl⟩ := divides
  rw [split, Nat.mul_assoc, Nat.mul_add_mod]

/-- The number of steps from one slot to another. -/
def gap (size a b : Nat) : Nat := if a ≤ b then b - a else b + size - a

theorem gap_lt {size a b : Nat} (ha : a < size) (hb : b < size) : gap size a b < size := by
  unfold gap
  split <;> omega

/-- Of counters closer than the size the slots tell how close they are. -/
theorem gap_slots {size i j : Nat} (le : i ≤ j) (near : j < i + size) :
    gap size (i % size) (j % size) = j - i := by
  obtain ⟨d, rfl⟩ := Nat.exists_eq_add_of_le le
  have hi := Nat.mod_lt i (show 0 < size by omega)
  have next : (i + d) % size =
      if i % size + d < size then i % size + d else i % size + d - size := by
    rw [← Nat.mod_add_mod]
    split
    · rename_i same
      exact Nat.mod_eq_of_lt same
    · rename_i wrapped
      rw [Nat.mod_eq_sub_mod (Nat.le_of_not_lt wrapped), Nat.mod_eq_of_lt (by omega)]
  rw [next]
  unfold gap
  split
  · split <;> omega
  · split <;> omega

theorem gap_succ {size r w : Nat} (apart : r % size ≠ w % size) (pos : 0 < size) :
    gap size (r % size) (w % size) = gap size ((r + 1) % size) (w % size) + 1 := by
  have ha := Nat.mod_lt r pos
  have hb := Nat.mod_lt w pos
  have next : (r + 1) % size = if r % size + 1 = size then 0 else r % size + 1 := by
    rw [← Nat.mod_add_mod]
    split
    · rename_i last
      rw [last, Nat.mod_self]
    · exact Nat.mod_eq_of_lt (by omega)
  rw [next]
  unfold gap
  generalize r % size = a at *
  generalize w % size = b at *
  split
  · split
    · split <;> omega
    · split <;> omega
  · split
    · split <;> omega
    · split <;> omega

end RingIndex
