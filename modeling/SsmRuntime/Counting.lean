import SsmRuntime.Memory

/-!
One object and the references to it. The 8-bit count is the number of
references modulo 256, so it tells one reference from many up to 256.
-/
namespace SsmRuntime

inductive RefOp where
  | dup
  | drop

/-- The test `--ref_count == 0` of `ssm_drop_unsafe`: a drop would finalise. -/
def dropsToZero (s : State) (a : Addr) : Bool := ((s.objs.val a).refCount + 255) % 256 == 0

/-- The states a list of calls on an object meets, each with the number of
references then outstanding. A call that finalises the object is the last. -/
def trail (a : Addr) : List RefOp → State → Nat → List (State × Nat)
  | [], s, held => [(s, held)]
  | .dup :: ops, s, held => (s, held) ::
      match ssmDup (.heap a) s with
      | .ok t => trail a ops t (held + 1)
      | .error _ => []
  | .drop :: ops, s, held => (s, held) ::
      if dropsToZero s a then []
      else
        match ssmDrop (.heap a) s with
        | .ok t => trail a ops t (held - 1)
        | .error _ => []

/-- A drop would finalise the object exactly if it drops the last reference,
and the object is unshared exactly if there is one. -/
structure CountRight (s : State) (a : Addr) (held : Nat) : Prop where
  final : dropsToZero s a = true ↔ held = 1
  shared : ssmIsShared (.heap a) s = .ok false ↔ held = 1

section Trail
variable {s : State} {a : Addr} {held : Nat}

/-- A live object whose count is the number of its references modulo 256. -/
structure Counts (s : State) (a : Addr) (held : Nat) : Prop where
  live : a ∈ s.objs.dom
  count : (s.objs.val a).refCount = held % 256
  some' : 1 ≤ held

theorem Counts.dropsToZero_iff (h : Counts s a held) :
    dropsToZero s a = true ↔ held % 256 = 1 := by
  rw [dropsToZero, h.count, beq_iff_eq]
  omega

theorem Counts.isShared_iff (h : Counts s a held) :
    ssmIsShared (.heap a) s = .ok false ↔ held % 256 = 1 := by
  rw [ssmIsShared, State.loadObj_of_mem h.live, ok_bind, h.count]
  simp

theorem Counts.countRight_iff (h : Counts s a held) :
    CountRight s a held ↔ (held % 256 = 1 ↔ held = 1) := by
  constructor
  · intro right
    rw [← h.dropsToZero_iff]
    exact right.final
  · intro same
    exact ⟨h.dropsToZero_iff.trans same, h.isShared_iff.trans same⟩

/-- A drop that does not reach zero only lowers the count. -/
theorem ssmDrop_of_not_zero (live : a ∈ s.objs.dom) (more : dropsToZero s a = false) :
    ssmDrop (.heap a) s = .ok (s.setObj a
      { s.objs.val a with refCount := ((s.objs.val a).refCount + 255) % 256 }) := by
  have more : ¬ ((s.objs.val a).refCount + 255) % 256 = 0 := by
    simpa [dropsToZero] using more
  rw [ssmDrop, ssmDropWith, State.loadObj_of_mem live, ok_bind]
  simp only [if_neg more]

theorem ssmDup_of_live (live : a ∈ s.objs.dom) :
    ssmDup (.heap a) s = .ok (s.setObj a
      { s.objs.val a with refCount := ((s.objs.val a).refCount + 1) % 256 }) := by
  rw [ssmDup, State.loadObj_of_mem live, ok_bind]

theorem Counts.dup (h : Counts s a held) :
    ∃ t, ssmDup (.heap a) s = .ok t ∧ Counts t a (held + 1) := by
  refine ⟨_, ssmDup_of_live h.live, ⟨h.live, ?_, by omega⟩⟩
  simp only [State.setObj, Table.write_val_self, h.count]
  omega

theorem Counts.drop (h : Counts s a held) (more : dropsToZero s a = false) :
    ∃ t, ssmDrop (.heap a) s = .ok t ∧ Counts t a (held - 1) := by
  have many : held % 256 ≠ 1 := fun one => by
    rw [h.dropsToZero_iff.mpr one] at more
    cases more
  have := h.some'
  refine ⟨_, ssmDrop_of_not_zero h.live more, ⟨h.live, ?_, by omega⟩⟩
  simp only [State.setObj, Table.write_val_self, h.count]
  omega

theorem head_mem_trail (ops : List RefOp) : (s, held) ∈ trail a ops s held := by
  cases ops with
  | nil => exact List.mem_singleton.mpr rfl
  | cons op ops =>
      cases op with
      | dup => exact List.mem_cons_self
      | drop => exact List.mem_cons_self

/-- From at most 256 references on, the counts along a list of calls are right
exactly if there are never more. -/
theorem trail_countRight_iff (ops : List RefOp) (h : Counts s a held) (few : held ≤ 256) :
    (∀ c ∈ trail a ops s held, CountRight c.1 a c.2) ↔ ∀ c ∈ trail a ops s held, c.2 ≤ 256 := by
  have pos := h.some'
  have here : CountRight s a held := h.countRight_iff.mpr (by omega)
  induction ops generalizing s held with
  | nil => simp [trail, here, few]
  | cons op ops ih =>
      cases op with
      | dup =>
          obtain ⟨t, run, h'⟩ := h.dup
          rw [trail, run]
          simp only [List.forall_mem_cons, here, few, true_and]
          by_cases full : held = 256
          · subst full
            have wrong : ¬ CountRight t a (256 + 1) := by
              rw [h'.countRight_iff]
              omega
            constructor
            · exact fun all => absurd (all _ (head_mem_trail ops)) wrong
            · exact fun all => absurd (all _ (head_mem_trail ops)) (by simp)
          · exact ih h' (by omega) (by omega) (h'.countRight_iff.mpr (by omega))
      | drop =>
          rw [trail]
          simp only [List.forall_mem_cons, here, few, true_and]
          split
          · simp
          · rename_i more
            obtain ⟨t, run, h'⟩ := h.drop (by simpa using more)
            rw [run]
            have pos' := h'.some'
            exact ih h' (by omega) (by omega) (h'.countRight_iff.mpr (by omega))

theorem Counts.of_fresh {body : Body} (fresh : s.objs.get? a = some ⟨1, body⟩) : Counts s a 1 := by
  obtain ⟨live, val⟩ := Table.get?_eq_some.mp fresh
  exact ⟨live, by rw [val], Nat.le_refl 1⟩

/-- The counts of an object are right all along exactly if it never has more
than 256 references at once. -/
theorem countRight_iff_few (body : Body) (fresh : s.objs.get? a = some ⟨1, body⟩)
    (ops : List RefOp) : (∀ c ∈ trail a ops s 1, CountRight c.1 a c.2) ↔
      ∀ c ∈ trail a ops s 1, c.2 ≤ 256 :=
  trail_countRight_iff ops (.of_fresh fresh) (by decide)

end Trail

/-- A heap of one blob. -/
def oneBlob : State where
  objs := ⟨{1}, fun _ => ⟨1, .blob 4⟩⟩
  acts := ⟨∅, fun _ => ⟨0, 0, 0, 0, 0, 0, false, []⟩⟩
  triggers := ⟨∅, fun _ => ⟨none, .triggersOf 0, 0⟩⟩
  eventQueue := fun _ => 0
  eventQueueLen := 0
  actQueue := fun _ => 0
  actQueueLen := 0
  now := 0
  numProcesses := 0

theorem countRight_iff_few_blob :
    (trail 1 [.dup, .dup, .drop, .drop, .drop] oneBlob 1).map Prod.snd = [1, 2, 3, 2, 1] ∧
      ∀ c ∈ trail 1 [.dup, .dup, .drop, .drop, .drop] oneBlob 1, CountRight c.1 1 c.2 := by
  have held : (trail 1 [.dup, .dup, .drop, .drop, .drop] oneBlob 1).map Prod.snd =
      [1, 2, 3, 2, 1] := by decide
  refine ⟨held, (countRight_iff_few (.blob 4) rfl _).mpr fun c hc => ?_⟩
  have mem := List.mem_map_of_mem (f := Prod.snd) hc
  rw [held] at mem
  revert mem
  generalize c.2 = n
  intro mem
  simp only [List.mem_cons, List.not_mem_nil, or_false] at mem
  omega

theorem trail_dups {s : State} {a : Addr} {held : Nat} (n : Nat) (h : Counts s a held) :
    ∃ t, (t, held + n) ∈ trail a (List.replicate n .dup) s held ∧ Counts t a (held + n) := by
  induction n generalizing s held with
  | zero => exact ⟨s, head_mem_trail _, h⟩
  | succ n ih =>
      obtain ⟨t, run, h'⟩ := h.dup
      obtain ⟨u, mem, last⟩ := ih h'
      rw [Nat.add_assoc, Nat.add_comm 1] at mem last
      refine ⟨u, ?_, last⟩
      rw [List.replicate_succ, trail, run]
      exact List.mem_cons_of_mem _ mem

/-- After 256 dups of a fresh object the count is one again. -/
theorem not_countRight : ¬ ∀ s a body ops, s.objs.get? a = some ⟨1, body⟩ →
    ∀ c ∈ trail a ops s 1, CountRight c.1 a c.2 := by
  intro all
  obtain ⟨t, mem, counts⟩ := trail_dups 256 (Counts.of_fresh (s := oneBlob) (a := 1) rfl)
  have right := all oneBlob 1 (.blob 4) _ rfl _ mem
  have := counts.countRight_iff.mp right
  omega

end SsmRuntime
