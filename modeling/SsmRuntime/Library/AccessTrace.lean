import Mathlib.Data.Finset.Basic
import Mathlib.Data.List.Nodup

/-!
Traces of the accesses to allocated cells. A trace is safe from a set of cells
to another if each access and each release meets a cell that is allocated when
its turn comes; then nothing is accessed or released after its release.
-/
namespace AccessTrace

inductive Access where
  | touch (a : Nat)
  | free (a : Nat)
  deriving DecidableEq, Repr

def Access.cell : Access → Nat
  | touch a => a
  | free a => a

inductive Safe : Finset Nat → List Access → Finset Nat → Prop
  | nil {A : Finset Nat} : Safe A [] A
  | touch {A B : Finset Nat} {a : Nat} {tr : List Access} (mem : a ∈ A) (rest : Safe A tr B) :
      Safe A (.touch a :: tr) B
  | free {A B : Finset Nat} {a : Nat} {tr : List Access} (mem : a ∈ A)
      (rest : Safe (A.erase a) tr B) : Safe A (.free a :: tr) B

namespace Safe
variable {A B C : Finset Nat} {tr tr' : List Access} {a : Nat}

theorem append (h : Safe A tr B) (k : Safe B tr' C) : Safe A (tr ++ tr') C := by
  induction h with
  | nil => exact k
  | touch mem _ ih => exact .touch mem (ih k)
  | free mem _ ih => exact .free mem (ih k)

theorem last (mem : a ∈ A) : Safe A [.free a] (A.erase a) := .free mem .nil

theorem subset (h : Safe A tr B) : B ⊆ A := by
  induction h with
  | nil => exact Finset.Subset.refl _
  | touch _ _ ih => exact ih
  | free _ _ ih => exact ih.trans (Finset.erase_subset _ _)

theorem cell_mem (h : Safe A tr B) {e : Access} (he : e ∈ tr) : e.cell ∈ A := by
  induction h with
  | nil => exact absurd he List.not_mem_nil
  | touch mem _ ih =>
      rcases List.mem_cons.mp he with rfl | he
      · exact mem
      · exact ih he
  | free mem _ ih =>
      rcases List.mem_cons.mp he with rfl | he
      · exact mem
      · exact Finset.mem_of_mem_erase (ih he)

/-- The cells released are those that are no longer allocated. -/
theorem free_mem_iff (h : Safe A tr B) : .free a ∈ tr ↔ a ∈ A ∧ a ∉ B := by
  induction h with
  | nil => simp
  | touch _ _ ih => simpa using ih
  | @free A B b tr mem rest ih =>
      rw [List.mem_cons, ih, Finset.mem_erase]
      by_cases hab : a = b
      · subst hab
        have gone : a ∉ B := fun h => absurd (rest.subset h) (Finset.notMem_erase a A)
        simp [mem, gone]
      · simp [hab]

/-- After its release a cell is neither accessed nor released. -/
theorem cell_ne (h : Safe A tr B) {before after : List Access}
    (split : tr = before ++ .free a :: after)
    {e : Access} (he : e ∈ after) : e.cell ≠ a := by
  induction h generalizing before with
  | nil => simp at split
  | touch _ rest ih =>
      cases before with
      | nil => cases split
      | cons _ before => exact ih (List.cons.inj split).2
  | free _ rest ih =>
      cases before with
      | nil =>
          cases split
          exact Finset.ne_of_mem_erase (rest.cell_mem he)
      | cons _ before => exact ih (List.cons.inj split).2

/-- Each cell is released once at most. -/
theorem count_free_le (h : Safe A tr B) (a : Nat) : tr.count (.free a) ≤ 1 := by
  induction h with
  | nil => exact Nat.zero_le _
  | touch _ _ ih => rwa [List.count_cons_of_ne (by simp)]
  | @free A B b tr mem rest ih =>
      by_cases hab : b = a
      · subst hab
        have none : tr.count (.free b) = 0 := List.count_eq_zero.mpr fun he =>
          absurd (rest.cell_mem he) (Finset.notMem_erase b A)
        rw [List.count_cons_self, none]
      · rwa [List.count_cons_of_ne (by simpa using hab)]

end Safe

end AccessTrace
