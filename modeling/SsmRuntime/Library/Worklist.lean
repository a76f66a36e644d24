import Mathlib.Data.Finset.Card

/-!
A worklist with priorities: a job of the least priority number is taken out,
and doing it adds jobs of strictly greater numbers only. A trace lists each
job done with the jobs it added, the first one first.
-/
namespace Worklist

variable {J : Type} [DecidableEq J] {prio : J → Nat}

inductive Drain (prio : J → Nat) : Finset J → List (J × Finset J) → Finset J → Prop where
  | done (work : Finset J) : Drain prio work [] work
  | next {work added rest : Finset J} {j : J} {trace : List (J × Finset J)} :
      j ∈ work → (∀ k ∈ work, prio j ≤ prio k) → (∀ k ∈ added, prio j < prio k) →
        Drain prio (work.erase j ∪ added) trace rest → Drain prio work ((j, added) :: trace) rest

def jobs (trace : List (J × Finset J)) : List J := trace.map Prod.fst

theorem le_of_mem_jobs {work rest : Finset J} {trace : List (J × Finset J)}
    (drain : Drain prio work trace rest) {p : Nat} (above : ∀ k ∈ work, p ≤ prio k) :
    ∀ k ∈ jobs trace, p ≤ prio k := by
  induction drain with
  | done work => simp [jobs]
  | @next work added rest j trace mem least more drain ih =>
      intro k hk
      rcases List.mem_cons.mp hk with rfl | hk
      · exact above _ mem
      · refine ih (fun i hi => ?_) k hk
        rcases Finset.mem_union.mp hi with hi | hi
        · exact above i (Finset.mem_of_mem_erase hi)
        · exact Nat.le_trans (above j mem) (Nat.le_of_lt (more i hi))

/-- A job that is not waiting and comes before all that are never comes back. -/
theorem notMem_jobs {work rest : Finset J} {trace : List (J × Finset J)}
    (drain : Drain prio work trace rest) {i : J} (out : i ∉ work)
    (above : ∀ k ∈ work, prio i ≤ prio k) : i ∉ jobs trace ∧ i ∉ rest := by
  induction drain with
  | done work => exact ⟨by simp [jobs], out⟩
  | @next work added rest j trace mem least more drain ih =>
      have fresh : i ∉ added := fun h => by
        have := above j mem
        have := more i h
        omega
      obtain ⟨later, left⟩ := ih
        (fun h => (Finset.mem_union.mp h).elim (fun h => out (Finset.mem_of_mem_erase h)) fresh)
        (fun k hk => by
          rcases Finset.mem_union.mp hk with hk | hk
          · exact above k (Finset.mem_of_mem_erase hk)
          · exact Nat.le_trans (above j mem) (Nat.le_of_lt (more k hk)))
      refine ⟨fun h => ?_, left⟩
      rcases List.mem_cons.mp h with rfl | h
      · exact out mem
      · exact later h

section Next
variable {work added : Finset J} {j : J}

theorem above_next (least : ∀ k ∈ work, prio j ≤ prio k) (more : ∀ k ∈ added, prio j < prio k) :
    ∀ k ∈ work.erase j ∪ added, prio j ≤ prio k := by
  intro k hk
  rcases Finset.mem_union.mp hk with hk | hk
  · exact least k (Finset.mem_of_mem_erase hk)
  · exact Nat.le_of_lt (more k hk)

theorem notMem_next (more : ∀ k ∈ added, prio j < prio k) : j ∉ work.erase j ∪ added := by
  intro h
  rcases Finset.mem_union.mp h with h | h
  · exact Finset.notMem_erase j work h
  · exact Nat.lt_irrefl _ (more j h)

end Next

/-- Jobs are done in the order of their priorities. -/
theorem sorted {work rest : Finset J} {trace : List (J × Finset J)}
    (drain : Drain prio work trace rest) :
    (jobs trace).Pairwise fun j k => prio j ≤ prio k := by
  induction drain with
  | done work => exact List.Pairwise.nil
  | next mem least more drain ih =>
      exact List.Pairwise.cons (le_of_mem_jobs drain (above_next least more)) ih

/-- No job is done twice. -/
theorem nodup {work rest : Finset J} {trace : List (J × Finset J)}
    (drain : Drain prio work trace rest) : (jobs trace).Nodup := by
  induction drain with
  | done work => exact List.nodup_nil
  | next mem least more drain ih =>
      exact List.nodup_cons.mpr
        ⟨(notMem_jobs drain (notMem_next more) (above_next least more)).1, ih⟩

/-- The jobs done or left are those there were and those added. -/
theorem mem_jobs_or_rest {work rest : Finset J} {trace : List (J × Finset J)}
    (drain : Drain prio work trace rest) (k : J) :
    k ∈ jobs trace ∨ k ∈ rest ↔ k ∈ work ∨ ∃ step ∈ trace, k ∈ step.2 := by
  induction drain with
  | done work => simp [jobs]
  | @next work added rest j trace mem least more drain ih =>
      have here : k ∈ work ↔ k = j ∨ k ∈ work.erase j := by
        rw [Finset.mem_erase]
        by_cases same : k = j
        · simp [same, mem]
        · simp [same]
      have front : k ∈ jobs ((j, added) :: trace) ↔ k = j ∨ k ∈ jobs trace := List.mem_cons
      rw [front, or_assoc, ih, here, Finset.mem_union, List.exists_mem_cons_iff, or_assoc, or_assoc]

/-- A job done is not left over. -/
theorem disjoint_rest {work rest : Finset J} {trace : List (J × Finset J)}
    (drain : Drain prio work trace rest) : ∀ k ∈ jobs trace, k ∉ rest := by
  induction drain with
  | done work => simp [jobs]
  | next mem least more drain ih =>
      intro k hk
      rcases List.mem_cons.mp hk with rfl | hk
      · exact (notMem_jobs drain (notMem_next more) (above_next least more)).2
      · exact ih k hk

theorem length_add_card_le {work rest all : Finset J} {trace : List (J × Finset J)}
    (drain : Drain prio work trace rest) (known : ∀ k, k ∈ jobs trace ∨ k ∈ rest → k ∈ all) :
    trace.length + rest.card ≤ all.card := by
  have count : (jobs trace).length = trace.length := List.length_map _
  have apart : Disjoint (jobs trace).toFinset rest :=
    Finset.disjoint_left.mpr fun k hk => disjoint_rest drain k (List.mem_toFinset.mp hk)
  calc trace.length + rest.card
      = (jobs trace).toFinset.card + rest.card := by
        rw [List.toFinset_card_of_nodup (nodup drain), count]
    _ = ((jobs trace).toFinset ∪ rest).card := (Finset.card_union_of_disjoint apart).symm
    _ ≤ all.card := Finset.card_le_card fun k hk => known k (by
        simpa [Finset.mem_union] using hk)

end Worklist
