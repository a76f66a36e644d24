import SsmRuntime.Pools

/-!
Which pool a request goes to, for every value of the three macros that size the
pools. The macros are kept as the preprocessor expands them: the argument of
`SSM_MEM_POOL_SIZE` is pasted without parentheses.
-/
namespace SsmRuntime

/-- `SSM_MEM_POOL_MIN`, `SSM_MEM_POOL_FACTOR_BASE2` and `SSM_MEM_POOL_COUNT`. -/
structure PoolMacros where
  poolMin : Nat
  factor : Nat
  count : Nat
  deriving DecidableEq, Repr

/-- The text of an argument of `SSM_MEM_POOL_SIZE`: a term or a difference. -/
inductive MacroArg where
  | term (n : Nat)
  | minus (a b : Nat)
  deriving DecidableEq, Repr

/-- The expression `SSM_MEM_POOL_FACTOR_BASE2 * pool` with the argument's text in
the place of `pool`: of a difference only the first term is multiplied. -/
def MacroArg.times (factor : Nat) : MacroArg → Nat
  | term n => factor * n
  | minus a b => factor * a - b

/-- Who serves a request: a handler for large memory or a pool. -/
inductive Served where
  | handler
  | pool (p : Nat)
  deriving DecidableEq, Repr

namespace PoolMacros
variable (m : PoolMacros)

def ssmMemPoolSize (pool : MacroArg) : Nat := m.poolMin <<< pool.times m.factor

def ssmMemPoolMax : Nat := m.ssmMemPoolSize (.minus m.count 1)

def findPoolSize (size : Nat) : Nat :=
  ((List.range m.count).find? fun p => size ≤ m.ssmMemPoolSize (.term p)).getD m.count

def ssmMemAlloc (size : Nat) : Served :=
  let p := m.findPoolSize size
  if m.count ≤ p then .handler else .pool p

def ssmMemFree (size : Nat) : Served :=
  let p := m.findPoolSize size
  if m.count ≤ p then .handler else .pool p

end PoolMacros

/-- The macros of a configuration of the pools. -/
def PoolConfig.macros (cfg : PoolConfig) : PoolMacros := ⟨cfg.poolMin, cfg.factor, cfg.count⟩

section Pools
variable (cfg : PoolConfig)

theorem findPoolSize_macros (size : Nat) : cfg.macros.findPoolSize size = findPoolSize cfg size :=
  rfl

/-- The branch of `ssm_mem_alloc` on a pool, over byte memory. -/
def takeBlock (newPage p : Nat) (s : Pools) : Except SsmError (Nat × Pools) := do
  let s ← (if s.freeListHead p = endOfFreelist then allocPool cfg newPage p s else .ok s)
  let m := s.freeListHead p
  let next := findNextBlock cfg s.bytes (cfg.poolSize p) m
  .ok (m, { s with freeListHead := Function.update s.freeListHead p next })

/-- The branch of `ssm_mem_free` on a pool, over byte memory. -/
def giveBlock (m p : Nat) (s : Pools) : Pools :=
  { s with
    bytes := ByteMemory.store s.bytes cfg.word m (s.freeListHead p)
    freeListHead := Function.update s.freeListHead p m }

/-- The allocator over byte memory serves a request as the macros tell. -/
theorem ssmMemAlloc_served (newPage large size : Nat) (s : Pools) :
    ssmMemAlloc cfg newPage large size s =
      match cfg.macros.ssmMemAlloc size with
      | .handler => .ok (large, s)
      | .pool p => takeBlock cfg newPage p s := by
  unfold ssmMemAlloc PoolMacros.ssmMemAlloc
  simp only [findPoolSize_macros, show cfg.macros.count = cfg.count from rfl]
  split <;> rfl

theorem ssmMemFree_served (m size : Nat) (s : Pools) :
    ssmMemFree cfg m size s =
      match cfg.macros.ssmMemFree size with
      | .handler => s
      | .pool p => giveBlock cfg m p s := by
  unfold ssmMemFree PoolMacros.ssmMemFree
  simp only [findPoolSize_macros, show cfg.macros.count = cfg.count from rfl]
  split <;> rfl

end Pools

/-- A request is served as `ssm_mem_init` promises: by a handler above the limit
only, else by the pool of the smallest blocks that are large enough. -/
structure RoutedRight (m : PoolMacros) (size : Nat) (served : Served) : Prop where
  handler : served = .handler ↔ m.ssmMemPoolMax < size
  smallest : ∀ p, served = .pool p → p < m.count ∧ size ≤ m.ssmMemPoolSize (.term p) ∧
    ∀ q < m.count, size ≤ m.ssmMemPoolSize (.term q) →
      m.ssmMemPoolSize (.term p) ≤ m.ssmMemPoolSize (.term q)
  promise : size < m.ssmMemPoolMax → served ≠ .handler

namespace PoolMacros
variable {m : PoolMacros} {size p q : Nat}

theorem ssmMemPoolSize_mono (le : p ≤ q) :
    m.ssmMemPoolSize (.term p) ≤ m.ssmMemPoolSize (.term q) := by
  simp only [ssmMemPoolSize, MacroArg.times, Nat.shiftLeft_eq]
  exact Nat.mul_le_mul_left _ (Nat.pow_le_pow_right (by decide) (Nat.mul_le_mul_left _ le))

theorem findPoolSize_spec (served : m.findPoolSize size < m.count) :
    size ≤ m.ssmMemPoolSize (.term (m.findPoolSize size)) ∧
      ∀ q < m.findPoolSize size, m.ssmMemPoolSize (.term q) < size :=
  firstFit_spec served

/-- A request finds a pool exactly if the blocks of the last pool are large enough. -/
theorem findPoolSize_lt_iff (some' : 1 ≤ m.count) :
    m.findPoolSize size < m.count ↔ size ≤ m.ssmMemPoolSize (.term (m.count - 1)) := by
  constructor
  · intro served
    exact (findPoolSize_spec served).1.trans (ssmMemPoolSize_mono (by omega))
  · intro fits
    unfold findPoolSize
    cases found : (List.range m.count).find? fun p => size ≤ m.ssmMemPoolSize (.term p) with
    | none =>
        have := List.find?_eq_none.mp found (m.count - 1) (List.mem_range.mpr (by omega))
        simp [fits] at this
    | some p =>
        have := List.mem_of_find?_eq_some found
        rw [Option.getD_some]
        exact List.mem_range.mp this

theorem ssmMemAlloc_eq_handler :
    m.ssmMemAlloc size = .handler ↔ ¬ m.findPoolSize size < m.count := by
  unfold ssmMemAlloc
  simp only
  split
  · rename_i none
    exact iff_of_true rfl (Nat.not_lt.mpr none)
  · rename_i some'
    exact iff_of_false (by simp) fun h => h (Nat.lt_of_not_le some')

theorem ssmMemAlloc_eq_pool :
    m.ssmMemAlloc size = .pool p ↔ m.findPoolSize size < m.count ∧ m.findPoolSize size = p := by
  unfold ssmMemAlloc
  simp only
  split
  · rename_i none
    exact iff_of_false (by simp) fun h => absurd h.1 (Nat.not_lt.mpr none)
  · rename_i some'
    simp [Nat.lt_of_not_le some']

/-- The limit is computed with one factor less than the last pool. -/
theorem ssmMemPoolMax_le_iff (pos : 0 < m.poolMin) (some' : 1 ≤ m.count) (grows : 1 ≤ m.factor) :
    m.ssmMemPoolMax ≤ m.ssmMemPoolSize (.term (m.count - 1)) ↔ m.factor = 1 := by
  obtain ⟨n, count⟩ : ∃ n, m.count = n + 1 := ⟨m.count - 1, by omega⟩
  simp only [ssmMemPoolMax, ssmMemPoolSize, MacroArg.times, Nat.shiftLeft_eq, count,
    Nat.add_sub_cancel]
  rw [Nat.mul_le_mul_left_iff pos, Nat.pow_le_pow_iff_right (by decide), Nat.mul_succ]
  omega

theorem largest_le_ssmMemPoolMax (some' : 1 ≤ m.count) (grows : 1 ≤ m.factor) :
    m.ssmMemPoolSize (.term (m.count - 1)) ≤ m.ssmMemPoolMax := by
  obtain ⟨n, count⟩ : ∃ n, m.count = n + 1 := ⟨m.count - 1, by omega⟩
  simp only [ssmMemPoolMax, ssmMemPoolSize, MacroArg.times, Nat.shiftLeft_eq, count,
    Nat.add_sub_cancel, Nat.mul_succ]
  exact Nat.mul_le_mul_left _ (Nat.pow_le_pow_right (by decide) (by omega))

theorem routedRight_iff (some' : 1 ≤ m.count) (grows : 1 ≤ m.factor) :
    RoutedRight m size (m.ssmMemAlloc size) ↔
      size ≤ m.ssmMemPoolSize (.term (m.count - 1)) ∨ m.ssmMemPoolMax < size := by
  have top := largest_le_ssmMemPoolMax some' grows
  have found : m.findPoolSize size < m.count ↔ size ≤ m.ssmMemPoolSize (.term (m.count - 1)) :=
    findPoolSize_lt_iff some'
  have handler : m.ssmMemAlloc size = .handler ↔ ¬ m.findPoolSize size < m.count :=
    ssmMemAlloc_eq_handler
  constructor
  · intro right
    have := handler.symm.trans right.handler
    omega
  · intro off
    have limit : m.ssmMemAlloc size = .handler ↔ m.ssmMemPoolMax < size := by
      rw [handler]
      omega
    refine ⟨limit, fun p served => ?_, fun below taken => ?_⟩
    · obtain ⟨inside, rfl⟩ := ssmMemAlloc_eq_pool.mp served
      obtain ⟨fits, before⟩ := findPoolSize_spec inside
      refine ⟨inside, fits, fun q _ enough => ssmMemPoolSize_mono (Nat.le_of_not_lt fun lt => ?_)⟩
      exact absurd enough (Nat.not_le.mpr (before q lt))
    · exact absurd (limit.mp taken) (by omega)

end PoolMacros

/-- Requests are served as promised off the window between the largest pool and
the limit, and that window is empty exactly if the factor is one. -/
theorem poolRouting_iff (m : PoolMacros) (pos : 0 < m.poolMin) (grows : 1 ≤ m.factor)
    (some' : 1 ≤ m.count) :
    (∀ size, RoutedRight m size (m.ssmMemAlloc size) ∧ RoutedRight m size (m.ssmMemFree size) ↔
      size ≤ m.ssmMemPoolSize (.term (m.count - 1)) ∨ m.ssmMemPoolMax < size) ∧
    ((∀ size, RoutedRight m size (m.ssmMemAlloc size) ∧
        RoutedRight m size (m.ssmMemFree size)) ↔ m.factor = 1) := by
  have each : ∀ size,
      RoutedRight m size (m.ssmMemAlloc size) ∧ RoutedRight m size (m.ssmMemFree size) ↔
        size ≤ m.ssmMemPoolSize (.term (m.count - 1)) ∨ m.ssmMemPoolMax < size := fun size =>
    (and_self_iff (a := RoutedRight m size (m.ssmMemAlloc size))).trans
      (PoolMacros.routedRight_iff some' grows)
  refine ⟨each, ?_⟩
  rw [← PoolMacros.ssmMemPoolMax_le_iff pos some' grows]
  constructor
  · intro all
    have above := (each (m.ssmMemPoolSize (.term (m.count - 1)) + 1)).mp (all _)
    omega
  · intro le size
    exact (each size).mpr (by omega)

/-- The defaults of the macros. -/
def defaultMacros : PoolMacros := ⟨16, 2, 4⟩

theorem poolRouting_iff_default :
    (∀ size, RoutedRight defaultMacros size (defaultMacros.ssmMemAlloc size) ∧
        RoutedRight defaultMacros size (defaultMacros.ssmMemFree size) ↔
      size ≤ 1024 ∨ 2048 < size) ∧
    ((∀ size, RoutedRight defaultMacros size (defaultMacros.ssmMemAlloc size) ∧
        RoutedRight defaultMacros size (defaultMacros.ssmMemFree size)) ↔ 2 = 1) :=
  poolRouting_iff defaultMacros (by decide) (by decide) (by decide)

/-- With the defaults the largest blocks have 1024 bytes and the limit is 2048. -/
theorem not_routedRight : ¬ ∀ m : PoolMacros, 0 < m.poolMin → 1 ≤ m.factor → 1 ≤ m.count →
    ∀ size, RoutedRight m size (m.ssmMemAlloc size) ∧ RoutedRight m size (m.ssmMemFree size) := by
  intro all
  have right := (all defaultMacros (by decide) (by decide) (by decide) 1500).1
  exact right.promise (by decide) (by decide)

end SsmRuntime
