import Mathlib.Algebra.BigOperators.Group.Finset.Piecewise
import SsmRuntime.PoolRuns

/-!
The statistics of the allocator. The functions that allocate and free also
count, in words of the width of a pointer, and `ssm_mem_statistics_collect`
walks every free list. Objects that no pool serves count as well.
-/
namespace SsmRuntime
open ByteMemory

structure MemCounters where
  numPagesAllocated : Nat
  liveObjects : Nat
  pagesAllocated : Nat → Nat
  objectsAllocated : Nat
  objectsFreed : Nat

structure CountedPools where
  pools : Pools
  counters : MemCounters

structure MemStatisticsPool where
  blockSize : Nat
  pagesAllocated : Nat
  freeListLength : Nat
  deriving DecidableEq

structure MemStatistics where
  sizeofSsmMm : Nat
  pageSize : Nat
  pagesAllocated : Nat
  objectsAllocated : Nat
  objectsFreed : Nat
  liveObjects : Nat
  poolCount : Nat
  pool : List MemStatisticsPool
  deriving DecidableEq

section Source
variable (cfg : PoolConfig)

/-- `size_t` is as wide as a pointer. -/
def PoolConfig.sizeT (n : Nat) : Nat := n % 256 ^ cfg.word

/-- `num_pages_allocated++; pages_allocated[p]++`. -/
def countPage (p : Nat) (c : MemCounters) : MemCounters :=
  { c with
    numPagesAllocated := cfg.sizeT (c.numPagesAllocated + 1)
    pagesAllocated := Function.update c.pagesAllocated p (cfg.sizeT (c.pagesAllocated p + 1)) }

def allocPoolCounted (newPage p : Nat) (s : CountedPools) : Except SsmError CountedPools := do
  let pools ← allocPool cfg newPage p s.pools
  .ok ⟨pools, countPage cfg p s.counters⟩

/-- `objects_allocated++; live_objects++`. -/
def countObject (c : MemCounters) : MemCounters :=
  { c with
    objectsAllocated := cfg.sizeT (c.objectsAllocated + 1)
    liveObjects := cfg.sizeT (c.liveObjects + 1) }

/-- `live_objects--; objects_freed++`. -/
def uncountObject (c : MemCounters) : MemCounters :=
  { c with
    liveObjects := cfg.sizeT (c.liveObjects + 256 ^ cfg.word - 1)
    objectsFreed := cfg.sizeT (c.objectsFreed + 1) }

def memCountersZero : MemCounters := ⟨0, 0, fun _ => 0, 0, 0⟩

def ssmMemPreallocCounted (size : Nat) (newPages : List Nat) (s : CountedPools) :
    Except SsmError CountedPools :=
  let p := findPoolSize cfg size
  if cfg.count ≤ p then .ok s
  else newPages.foldlM (fun s newPage => allocPoolCounted cfg newPage p s) s

def ssmMemAllocCounted (newPage large size : Nat) (s : CountedPools) :
    Except SsmError (Nat × CountedPools) :=
  let s := { s with counters := countObject cfg s.counters }
  let p := findPoolSize cfg size
  if cfg.count ≤ p then .ok (large, s)
  else do
    let s ← (if s.pools.freeListHead p = endOfFreelist then allocPoolCounted cfg newPage p s
      else .ok s)
    let m := s.pools.freeListHead p
    let next := findNextBlock cfg s.pools.bytes (cfg.poolSize p) m
    .ok (m, { s with pools := { s.pools with
      freeListHead := Function.update s.pools.freeListHead p next } })

def ssmMemFreeCounted (m size : Nat) (s : CountedPools) : CountedPools :=
  ⟨ssmMemFree cfg m size s.pools, uncountObject cfg s.counters⟩

/-- The walk over the free list of a pool; it has no value if it goes on longer. -/
def freeListLength (m : Bytes) (poolSize : Nat) : Nat → Nat → Nat → Option Nat
  | fuel, n, block =>
      if block = endOfFreelist then some n
      else
        match fuel with
        | 0 => none
        | fuel + 1 =>
            freeListLength m poolSize fuel (cfg.sizeT (n + 1)) (findNextBlock cfg m poolSize block)

/-- The array of pools in `ssm_mem_statistics_t` has 32 entries. -/
def statisticsPools : Nat := 32

/-- `sizeof(struct ssm_mm)`: two bytes and a union of 16 bits. -/
def sizeofSsmMm : Nat := 4

def ssmMemStatisticsCollect (fuel : Nat) (s : CountedPools) : Option MemStatistics := do
  let pool ← (List.range cfg.count).mapM fun i =>
    if statisticsPools ≤ i then none
    else do
      let n ← freeListLength cfg s.pools.bytes (cfg.poolSize i) fuel 0 (s.pools.freeListHead i)
      some ⟨cfg.poolSize i, s.counters.pagesAllocated i, n⟩
  some ⟨sizeofSsmMm, cfg.pageSize, s.counters.numPagesAllocated, s.counters.objectsAllocated,
    s.counters.objectsFreed, s.counters.liveObjects, cfg.count, pool⟩

end Source

/-- The allocator with the objects that are live, those of the pools and others. -/
structure MemWorld where
  counted : CountedPools
  small : List Block
  large : List Block

inductive MemCall where
  | alloc (size newPage large : Nat)
  | free (b : Block)
  | prealloc (size : Nat) (newPages : List Nat)
  | write (addr : Nat) (byte : UInt8)

section Calls
variable (cfg : PoolConfig)

instance (a n b m : Nat) : Decidable (Apart a n b m) := inferInstanceAs (Decidable (_ ∨ _))

/-- A page that meets neither a page nor an object that no pool serves. -/
def MemWorld.FreshPage (w : MemWorld) (page : Nat) : Prop :=
  SsmRuntime.FreshPage cfg w.counted.pools.pages page ∧
    ∀ b ∈ w.large, Apart b.addr b.size page cfg.pageSize

instance (w : MemWorld) (page : Nat) : Decidable (w.FreshPage cfg page) :=
  inferInstanceAs (Decidable (_ ∧ _))

/-- What `alloc_mem` may return. -/
def MemWorld.FreshLarge (w : MemWorld) (addr size : Nat) : Prop :=
  0 < size ∧ 0 < addr ∧ addr + size ≤ 256 ^ cfg.word ∧
    (∀ page ∈ w.counted.pools.pages, Apart addr size page.2 cfg.pageSize) ∧
    ∀ b ∈ w.large, Apart addr size b.addr b.size

instance (w : MemWorld) (addr size : Nat) : Decidable (w.FreshLarge cfg addr size) :=
  inferInstanceAs (Decidable (_ ∧ _ ∧ _ ∧ _ ∧ _))

namespace MemCall

def exec : MemCall → MemWorld → Except SsmError MemWorld
  | alloc size newPage large, w => do
      let (m, s) ← ssmMemAllocCounted cfg newPage large size w.counted
      if findPoolSize cfg size < cfg.count then .ok ⟨s, ⟨m, size⟩ :: w.small, w.large⟩
      else .ok ⟨s, w.small, ⟨m, size⟩ :: w.large⟩
  | free b, w =>
      let s := ssmMemFreeCounted cfg b.addr b.size w.counted
      if findPoolSize cfg b.size < cfg.count then .ok ⟨s, w.small.erase b, w.large⟩
      else .ok ⟨s, w.small, w.large.erase b⟩
  | prealloc size newPages, w => do
      let s ← ssmMemPreallocCounted cfg size newPages w.counted
      .ok { w with counted := s }
  | write addr byte, w =>
      let pools := w.counted.pools
      .ok { w with counted := { w.counted with pools := { pools with
        bytes := Function.update pools.bytes addr byte } } }

/-- Only live objects are freed and written, and the handlers return fresh memory. -/
def Legal (w : MemWorld) : MemCall → Prop
  | alloc size newPage large =>
      (findPoolSize cfg size < cfg.count →
        w.counted.pools.freeListHead (findPoolSize cfg size) = endOfFreelist →
        w.FreshPage cfg newPage) ∧
      (cfg.count ≤ findPoolSize cfg size → w.FreshLarge cfg large size)
  | free b => b ∈ w.small ∨ b ∈ w.large
  | prealloc size newPages => findPoolSize cfg size < cfg.count →
      FreshPages cfg (findPoolSize cfg size) newPages w.counted.pools.pages ∧
        ∀ page ∈ newPages, ∀ b ∈ w.large, Apart b.addr b.size page cfg.pageSize
  | write addr _ => (∃ b ∈ w.small, b.addr ≤ addr ∧
      addr < b.addr + cfg.poolSize (findPoolSize cfg b.size)) ∨
      ∃ b ∈ w.large, b.addr ≤ addr ∧ addr < b.addr + b.size

instance (w : MemWorld) : (c : MemCall) → Decidable (c.Legal cfg w)
  | alloc _ _ _ => inferInstanceAs (Decidable ((_ → _ → _) ∧ (_ → _)))
  | free b => inferInstanceAs (Decidable (b ∈ w.small ∨ b ∈ w.large))
  | prealloc _ newPages =>
      inferInstanceAs (Decidable (_ → _ ∧ ∀ page ∈ newPages, ∀ b ∈ w.large, Apart _ _ _ _))
  | write _ _ => inferInstanceAs (Decidable ((∃ b ∈ w.small, _ ∧ _) ∨ ∃ b ∈ w.large, _ ∧ _))

end MemCall

inductive MemRun : MemWorld → Prop where
  | init (m : Bytes) : MemRun ⟨⟨ssmMemInit m, memCountersZero⟩, [], []⟩
  | step {w v : MemWorld} {c : MemCall} : MemRun w → c.Legal cfg w → c.exec cfg w = .ok v →
      MemRun v

/-- What the counters count. -/
structure MemCounts (w : MemWorld) : Prop where
  pages : w.counted.counters.numPagesAllocated = cfg.sizeT w.counted.pools.pages.length
  each : ∀ p, w.counted.counters.pagesAllocated p =
    cfg.sizeT (pagesOf w.counted.pools.pages p).length
  live : w.counted.counters.liveObjects = cfg.sizeT (w.small.length + w.large.length)
  objects : w.counted.counters.objectsAllocated =
    cfg.sizeT (w.counted.counters.objectsFreed + (w.small.length + w.large.length))

structure MemOk (w : MemWorld) : Prop where
  pools : PoolsOk cfg ⟨w.counted.pools, w.small⟩
  told : ∀ page ∈ w.counted.pools.pages, page.1 < cfg.count
  large : ∀ b ∈ w.large, cfg.count ≤ findPoolSize cfg b.size ∧ 0 < b.size ∧ 0 < b.addr ∧
    b.addr + b.size ≤ 256 ^ cfg.word
  apart : w.large.Pairwise fun b c => Apart b.addr b.size c.addr c.size
  outside : ∀ b ∈ w.large, ∀ page ∈ w.counted.pools.pages,
    Apart b.addr b.size page.2 cfg.pageSize
  counts : MemCounts cfg w

end Calls

section Steps
variable {cfg : PoolConfig} {w v : MemWorld}

theorem sizeT_add (a b : Nat) : cfg.sizeT (cfg.sizeT a + b) = cfg.sizeT (a + b) :=
  Nat.mod_add_mod _ _ _

theorem memOk_init (m : Bytes) : MemOk cfg ⟨⟨ssmMemInit m, memCountersZero⟩, [], []⟩ where
  pools := poolsOk_init cfg m
  told := fun _ h => absurd h List.not_mem_nil
  large := fun _ h => absurd h List.not_mem_nil
  apart := List.Pairwise.nil
  outside := fun _ h => absurd h List.not_mem_nil
  counts := ⟨(Nat.zero_mod _).symm, fun _ => (Nat.zero_mod _).symm, (Nat.zero_mod _).symm,
    (Nat.zero_mod _).symm⟩

/-- A new page is counted, for its pool and for all. -/
theorem MemOk.allocPool {page p : Nat} (ok : MemOk cfg w) (hp : p < cfg.count)
    (fresh : w.FreshPage cfg page) :
    ∃ s, allocPoolCounted cfg page p w.counted = .ok s ∧ MemOk cfg { w with counted := s } ∧
      s.pools.pages = (p, page) :: w.counted.pools.pages ∧ s.pools.freeListHead p = page := by
  obtain ⟨t, run, pools, pages, head⟩ := ok.pools.allocPool hp fresh.1
  change t.pages = (p, page) :: w.counted.pools.pages at pages
  have done : allocPoolCounted cfg page p w.counted = .ok ⟨t, countPage cfg p w.counted.counters⟩ := by
    rw [allocPoolCounted, run]
    rfl
  refine ⟨_, done, ⟨pools, fun q hq => ?_, ok.large, ok.apart, ?_, ?_⟩, pages, head⟩
  · change q ∈ t.pages at hq
    rw [pages] at hq
    rcases List.mem_cons.mp hq with rfl | hq
    · exact hp
    · exact ok.told q hq
  · intro b hb q hq
    change q ∈ t.pages at hq
    rw [pages] at hq
    rcases List.mem_cons.mp hq with rfl | hq
    · exact fresh.2 b hb
    · exact ok.outside b hb q hq
  · refine ⟨?_, fun q => ?_, ok.counts.live, ok.counts.objects⟩
    · change cfg.sizeT (w.counted.counters.numPagesAllocated + 1) = cfg.sizeT t.pages.length
      rw [ok.counts.pages, sizeT_add, pages, List.length_cons]
    · change Function.update w.counted.counters.pagesAllocated p _ q =
        cfg.sizeT (pagesOf t.pages q).length
      rw [pages, pagesOf_cons]
      by_cases h : q = p
      · subst h
        rw [Function.update_self, if_pos rfl, ok.counts.each, sizeT_add, List.length_cons]
      · rw [Function.update_of_ne h, if_neg h, ok.counts.each]

theorem sizeT_pred {n : Nat} (some' : 0 < n) :
    cfg.sizeT (cfg.sizeT n + 256 ^ cfg.word - 1) = cfg.sizeT (n - 1) := by
  have big : 0 < 256 ^ cfg.word := Nat.pow_pos (by decide)
  have shift : cfg.sizeT n + 256 ^ cfg.word - 1 = cfg.sizeT n + (256 ^ cfg.word - 1) := by omega
  rw [shift, sizeT_add, PoolConfig.sizeT, PoolConfig.sizeT,
    show n + (256 ^ cfg.word - 1) = n - 1 + 256 ^ cfg.word by omega, Nat.add_mod_right]

/-- One object more, whatever happens to the pools meanwhile. -/
theorem MemCounts.object (counts : MemCounts cfg w) {pools : Pools} {small large : List Block}
    (pages : pools.pages = w.counted.pools.pages)
    (more : small.length + large.length = w.small.length + w.large.length + 1) :
    MemCounts cfg ⟨⟨pools, countObject cfg w.counted.counters⟩, small, large⟩ where
  pages := by
    rw [pages]
    exact counts.pages
  each := by
    rw [pages]
    exact counts.each
  live := by
    change cfg.sizeT (w.counted.counters.liveObjects + 1) = cfg.sizeT (small.length + large.length)
    rw [counts.live, sizeT_add, more]
  objects := by
    change cfg.sizeT (w.counted.counters.objectsAllocated + 1) =
      cfg.sizeT (w.counted.counters.objectsFreed + (small.length + large.length))
    rw [counts.objects, sizeT_add, more]
    rfl

/-- One object less. -/
theorem MemCounts.free (counts : MemCounts cfg w) {pools : Pools} {small large : List Block}
    (pages : pools.pages = w.counted.pools.pages)
    (less : w.small.length + w.large.length = small.length + large.length + 1) :
    MemCounts cfg ⟨⟨pools, uncountObject cfg w.counted.counters⟩, small, large⟩ where
  pages := by
    rw [pages]
    exact counts.pages
  each := by
    rw [pages]
    exact counts.each
  live := by
    change cfg.sizeT (w.counted.counters.liveObjects + 256 ^ cfg.word - 1) = cfg.sizeT _
    rw [counts.live, less, sizeT_pred (Nat.succ_pos _)]
    rfl
  objects := by
    change w.counted.counters.objectsAllocated = cfg.sizeT
      (cfg.sizeT (w.counted.counters.objectsFreed + 1) + (small.length + large.length))
    rw [counts.objects, less, sizeT_add]
    congr 1
    omega

/-- The pools do not see what is written outside their pages. -/
theorem PoolsOk.outside {w : PoolWorld} (ok : PoolsOk cfg w) {m : Bytes}
    (same : ∀ page ∈ w.pools.pages, ∀ i, page.2 ≤ i → i < page.2 + cfg.pageSize →
      m i = w.pools.bytes i) : PoolsOk cfg ⟨{ w.pools with bytes := m }, w.live⟩ where
  lists := fun p hp => by
    obtain ⟨free, list, all⟩ := ok.lists p hp
    refine ⟨free, list.frame rfl fun x hx i low high => ?_, all⟩
    obtain ⟨page, mem, inPage⟩ := mem_blocksOf.mp (all.subset (List.mem_append_left _ hx))
    obtain ⟨first, last⟩ := blocksAt_inside inPage
    have := word_le_poolSize cfg p
    exact same (p, page) mem i (by omega) (by omega)
  high := ok.high
  apart := ok.apart
  served := ok.served

theorem ssmMemFree_pages (m size : Nat) (s : Pools) : (ssmMemFree cfg m size s).pages = s.pages := by
  simp only [ssmMemFree]
  split <;> rfl

theorem allocPoolCounted_object (newPage p : Nat) (s : CountedPools) :
    allocPoolCounted cfg newPage p ⟨s.pools, countObject cfg s.counters⟩ =
      (allocPoolCounted cfg newPage p s).map fun s => ⟨s.pools, countObject cfg s.counters⟩ := by
  unfold allocPoolCounted
  cases SsmRuntime.allocPool cfg newPage p s.pools <;> rfl

theorem MemOk.take {size p next : Nat} (ok : MemOk cfg w) (hp : findPoolSize cfg size = p)
    (served : p < cfg.count) (some' : w.counted.pools.freeListHead p ≠ endOfFreelist)
    (reads : findNextBlock cfg w.counted.pools.bytes (cfg.poolSize p)
      (w.counted.pools.freeListHead p) = next) :
    MemOk cfg ⟨⟨{ w.counted.pools with
        freeListHead := Function.update w.counted.pools.freeListHead p next },
      countObject cfg w.counted.counters⟩,
      ⟨w.counted.pools.freeListHead p, size⟩ :: w.small, w.large⟩ := by
  refine ⟨ok.pools.take hp served some' reads, ok.told, ok.large, ok.apart, ok.outside,
    ok.counts.object rfl ?_⟩
  rw [List.length_cons]
  omega

/-- An allocation from a pool. -/
theorem MemOk.allocSmall {size newPage : Nat} (large : Nat) (ok : MemOk cfg w)
    (served : findPoolSize cfg size < cfg.count)
    (fresh : w.counted.pools.freeListHead (findPoolSize cfg size) = endOfFreelist →
      w.FreshPage cfg newPage) :
    ∃ m s, ssmMemAllocCounted cfg newPage large size w.counted = .ok (m, s) ∧
      MemOk cfg ⟨s, ⟨m, size⟩ :: w.small, w.large⟩ := by
  generalize hp : findPoolSize cfg size = p at served fresh
  unfold ssmMemAllocCounted
  simp only [hp, if_neg (Nat.not_le_of_lt served)]
  by_cases none : w.counted.pools.freeListHead p = endOfFreelist
  · obtain ⟨s, run, ok', -, head⟩ := ok.allocPool served (fresh none)
    have high : endOfFreelist < newPage := (fresh none).1.1
    rw [if_pos none, allocPoolCounted_object, run, Except.map, ok_bind]
    exact ⟨_, _, rfl, ok'.take hp served (by rw [head]; omega) rfl⟩
  · rw [if_neg none, ok_bind]
    exact ⟨_, _, rfl, ok.take hp served none rfl⟩

/-- An allocation that no pool serves. -/
theorem MemOk.allocLarge {size large : Nat} (newPage : Nat) (ok : MemOk cfg w)
    (unserved : cfg.count ≤ findPoolSize cfg size) (fresh : w.FreshLarge cfg large size) :
    ∃ s, ssmMemAllocCounted cfg newPage large size w.counted = .ok (large, s) ∧
      MemOk cfg ⟨s, w.small, ⟨large, size⟩ :: w.large⟩ := by
  obtain ⟨some', addr, fits, outside, others⟩ := fresh
  unfold ssmMemAllocCounted
  simp only [if_pos unserved]
  refine ⟨_, rfl, ok.pools, ok.told, ?_, List.pairwise_cons.mpr ⟨others, ok.apart⟩, ?_,
    ok.counts.object rfl ?_⟩
  · intro b hb
    rcases List.mem_cons.mp hb with rfl | hb
    · exact ⟨unserved, some', addr, fits⟩
    · exact ok.large b hb
  · intro b hb
    rcases List.mem_cons.mp hb with rfl | hb
    · exact outside
    · exact ok.outside b hb
  · rw [List.length_cons]
    omega

theorem MemOk.free {b : Block} (ok : MemOk cfg w) (live : b ∈ w.small ∨ b ∈ w.large)
    (run : (MemCall.free b).exec cfg w = .ok v) : MemOk cfg v := by
  rw [MemCall.exec] at run
  rcases live with hb | hb
  · rw [if_pos (ok.pools.served b hb)] at run
    cases run
    have pages : (ssmMemFree cfg b.addr b.size w.counted.pools).pages = w.counted.pools.pages :=
      ssmMemFree_pages b.addr b.size w.counted.pools
    refine ⟨ok.pools.free hb, fun page hp => ?_, ok.large, ok.apart, ?_, ok.counts.free pages ?_⟩
    · change page ∈ (ssmMemFree cfg b.addr b.size w.counted.pools).pages at hp
      rw [pages] at hp
      exact ok.told page hp
    · intro c hc page hp
      change page ∈ (ssmMemFree cfg b.addr b.size w.counted.pools).pages at hp
      rw [pages] at hp
      exact ok.outside c hc page hp
    · have := List.length_erase_add_one hb
      omega
  · obtain ⟨unserved, -⟩ := ok.large b hb
    rw [if_neg (Nat.not_lt.mpr unserved)] at run
    cases run
    have same : ssmMemFree cfg b.addr b.size w.counted.pools = w.counted.pools := by
      simp only [ssmMemFree, if_pos unserved]
    have sub : ∀ c ∈ w.large.erase b, c ∈ w.large := fun c hc => List.mem_of_mem_erase hc
    simp only [ssmMemFreeCounted, same]
    refine ⟨ok.pools, ok.told, fun c hc => ok.large c (sub c hc), ok.apart.sublist List.erase_sublist,
      fun c hc => ok.outside c (sub c hc), ok.counts.free rfl ?_⟩
    have := List.length_erase_add_one hb
    omega

theorem MemOk.prealloc {p : Nat} (newPages : List Nat) (ok : MemOk cfg w) (hp : p < cfg.count)
    (fresh : FreshPages cfg p newPages w.counted.pools.pages)
    (outside : ∀ page ∈ newPages, ∀ b ∈ w.large, Apart b.addr b.size page cfg.pageSize) :
    ∃ s, newPages.foldlM (fun s newPage => allocPoolCounted cfg newPage p s) w.counted = .ok s ∧
      MemOk cfg { w with counted := s } := by
  induction newPages generalizing w with
  | nil => exact ⟨w.counted, rfl, ok⟩
  | cons page rest ih =>
      obtain ⟨s, run, ok', pages, -⟩ :=
        ok.allocPool hp ⟨fresh.1, outside page List.mem_cons_self⟩
      obtain ⟨u, last, done⟩ := ih ok' (by
        rw [pages]
        exact fresh.2) fun q hq => outside q (List.mem_cons_of_mem _ hq)
      exact ⟨u, by rw [List.foldlM_cons, run]; exact last, done⟩

theorem MemOk.write {addr : Nat} {byte : UInt8} (ok : MemOk cfg w)
    (legal : (MemCall.write addr byte).Legal cfg w) :
    MemOk cfg { w with counted := { w.counted with pools := { w.counted.pools with
      bytes := Function.update w.counted.pools.bytes addr byte } } } := by
  refine ⟨?_, ok.told, ok.large, ok.apart, ok.outside, ok.counts.pages, ok.counts.each, ok.counts.live,
    ok.counts.objects⟩
  rcases legal with ⟨b, hb, low, high⟩ | ⟨b, hb, low, high⟩
  · exact ok.pools.write hb fun i hi => Function.update_of_ne (by omega) _ _
  · refine ok.pools.outside fun page hp i first last => Function.update_of_ne ?_ _ _
    have := ok.outside b hb page hp
    unfold Apart at this
    omega

theorem MemOk.exec {c : MemCall} (ok : MemOk cfg w) (legal : c.Legal cfg w)
    (run : c.exec cfg w = .ok v) : MemOk cfg v := by
  cases c with
  | alloc size newPage large =>
      rw [MemCall.exec] at run
      by_cases served : findPoolSize cfg size < cfg.count
      · obtain ⟨m, s, done, ok'⟩ := ok.allocSmall large served (legal.1 served)
        simp only [done, ok_bind, if_pos served] at run
        cases run
        exact ok'
      · have unserved := Nat.le_of_not_lt served
        obtain ⟨s, done, ok'⟩ := ok.allocLarge newPage unserved (legal.2 unserved)
        simp only [done, ok_bind, if_neg served] at run
        cases run
        exact ok'
  | free b => exact ok.free legal run
  | prealloc size newPages =>
      rw [MemCall.exec, ssmMemPreallocCounted] at run
      by_cases served : findPoolSize cfg size < cfg.count
      · obtain ⟨fresh, outside⟩ := legal served
        obtain ⟨s, done, ok'⟩ := ok.prealloc newPages served fresh outside
        simp only [if_neg (Nat.not_le_of_lt served), done, ok_bind] at run
        cases run
        exact ok'
      · simp only [if_pos (Nat.le_of_not_lt served), ok_bind] at run
        cases run
        exact ok
  | write addr byte =>
      cases run
      exact ok.write legal

theorem MemRun.ok (run : MemRun cfg w) : MemOk cfg w := by
  induction run with
  | init m => exact memOk_init m
  | step _ legal run ih => exact ih.exec legal run

end Steps

/-- What `ssm_mem_statistics_collect` tells of the allocator. -/
structure StatisticsOk (cfg : PoolConfig) (w : MemWorld) (st : MemStatistics) : Prop where
  pages : st.pagesAllocated = w.counted.pools.pages.length
  total : st.pagesAllocated = (st.pool.map MemStatisticsPool.pagesAllocated).sum
  count : st.pool.length = st.poolCount
  pools : ∀ p q, st.pool[p]? = some q → q.blockSize = cfg.poolSize p ∧
    q.pagesAllocated = (pagesOf w.counted.pools.pages p).length ∧
    q.freeListLength + (liveIn cfg w.small p).length =
      q.pagesAllocated * (st.pageSize / q.blockSize)
  live : st.liveObjects = w.small.length + w.large.length
  objects : st.objectsAllocated = cfg.sizeT (st.objectsFreed + st.liveObjects)

section Collect
variable {cfg : PoolConfig} {w : MemWorld}

/-- A walk counts the cells of a list. -/
theorem freeListLength_linked {m : Bytes} {size block n : Nat} {free : List Nat}
    (list : Linked (findNextBlock cfg m size) endOfFreelist block free)
    (fits : n + free.length < 256 ^ cfg.word) {fuel : Nat} (enough : free.length ≤ fuel) :
    freeListLength cfg m size fuel n block = some (n + free.length) := by
  induction list generalizing n fuel with
  | stop =>
      unfold freeListLength
      rw [if_pos rfl]
      rfl
  | @cell a l differ linked ih =>
      rw [List.length_cons] at fits enough
      obtain ⟨fuel, rfl⟩ : ∃ k, fuel = k + 1 := ⟨fuel - 1, by omega⟩
      have word : cfg.sizeT (n + 1) = n + 1 := Nat.mod_eq_of_lt (by omega)
      unfold freeListLength
      rw [if_neg differ]
      simp only [word]
      rw [ih (by omega) (by omega), List.length_cons]
      congr 1
      omega

theorem mapM_eq_map {α β : Type} {f : α → Option β} {g : α → β} {l : List α}
    (each : ∀ x ∈ l, f x = some (g x)) : l.mapM f = some (l.map g) := by
  induction l with
  | nil => rfl
  | cons x xs ih =>
      rw [List.mapM_cons, each x List.mem_cons_self,
        ih fun y hy => each y (List.mem_cons_of_mem _ hy)]
      rfl

/-- Ranges above zero that do not meet do not fill the address space. -/
theorem sum_lt_of_apart {rs : List (Nat × Nat)}
    (apart : rs.Pairwise fun r q => r.1 + r.2 ≤ q.1 ∨ q.1 + q.2 ≤ r.1)
    (inside : ∀ r ∈ rs, 0 < r.1 ∧ r.1 + r.2 ≤ 256 ^ cfg.word) :
    (rs.map Prod.snd).sum < 256 ^ cfg.word := by
  have big : 0 < 256 ^ cfg.word := Nat.pow_pos (by decide)
  have := sum_le_of_apart apart inside
  omega

theorem MemOk.pages_lt (ok : MemOk cfg w) :
    w.counted.pools.pages.length * cfg.pageSize < 256 ^ cfg.word := by
  have bound : ((w.counted.pools.pages.map fun page => (page.2, cfg.pageSize)).map Prod.snd).sum <
      256 ^ cfg.word := by
    refine sum_lt_of_apart (List.pairwise_map.mpr ok.pools.apart) fun r hr => ?_
    obtain ⟨page, hp, rfl⟩ := List.mem_map.mp hr
    obtain ⟨above, fits⟩ := ok.pools.high page hp
    exact ⟨Nat.lt_of_le_of_lt (Nat.zero_le _) above, fits⟩
  rw [List.map_map] at bound
  simpa [Function.comp_def] using bound

/-- The memory set aside for a block: all of it, for the block of a pool. -/
def Block.room (cfg : PoolConfig) (b : Block) : Nat :=
  if findPoolSize cfg b.size < cfg.count then cfg.poolSize (findPoolSize cfg b.size) else b.size

theorem MemOk.room_small (ok : MemOk cfg w) {b : Block} (hb : b ∈ w.small) :
    b.room cfg = cfg.poolSize (findPoolSize cfg b.size) := if_pos (ok.pools.served b hb)

theorem MemOk.room_large (ok : MemOk cfg w) {b : Block} (hb : b ∈ w.large) :
    b.room cfg = b.size := if_neg (Nat.not_lt.mpr (ok.large b hb).1)

theorem MemOk.small_inPage (ok : MemOk cfg w) {b : Block} (hb : b ∈ w.small) :
    ∃ page ∈ w.counted.pools.pages, page.2 ≤ b.addr ∧
      b.addr + cfg.poolSize (findPoolSize cfg b.size) ≤ page.2 + cfg.pageSize := by
  obtain ⟨free, -, all⟩ := ok.pools.lists _ (ok.pools.served b hb)
  have mem := all.subset (List.mem_append_right free (mem_liveIn hb))
  obtain ⟨page, hp, inside⟩ := mem_blocksOf.mp mem
  exact ⟨_, hp, blocksAt_inside inside⟩

/-- Live blocks do not meet, whether a pool serves them or not. -/
theorem MemOk.blocks_apart (ok : MemOk cfg w) :
    (w.small ++ w.large).Pairwise fun b c => Apart b.addr (b.room cfg) c.addr (c.room cfg) := by
  refine List.pairwise_append.mpr ⟨?_, ?_, fun b hb c hc => ?_⟩
  · exact ok.pools.live_apart.imp_of_mem fun hb hc apart => by
      rwa [ok.room_small hb, ok.room_small hc]
  · exact ok.apart.imp_of_mem fun hb hc apart => by rwa [ok.room_large hb, ok.room_large hc]
  · obtain ⟨page, hp, low, high⟩ := ok.small_inPage hb
    have apart := ok.outside c hc page hp
    rw [ok.room_small hb, ok.room_large hc]
    unfold Apart at apart ⊢
    omega

/-- A live block is in the address space and has room for what was asked. -/
theorem MemOk.block_inside (ok : MemOk cfg w) {b : Block} (hb : b ∈ w.small ++ w.large) :
    0 < b.addr ∧ b.addr + b.room cfg ≤ 256 ^ cfg.word ∧ 0 < b.room cfg ∧ b.size ≤ b.room cfg := by
  rcases List.mem_append.mp hb with hb | hb
  · obtain ⟨page, hp, low, high⟩ := ok.small_inPage hb
    obtain ⟨above, fits⟩ := ok.pools.high page hp
    rw [ok.room_small hb]
    exact ⟨Nat.lt_of_lt_of_le (Nat.lt_of_le_of_lt (Nat.zero_le _) above) low,
      Nat.le_trans high fits, poolSize_pos cfg _, (findPoolSize_spec (ok.pools.served b hb)).1⟩
  · obtain ⟨-, some', addr, fits⟩ := ok.large b hb
    rw [ok.room_large hb]
    exact ⟨addr, fits, some', Nat.le_refl _⟩

/-- Each live object has its own memory, so their number fits a word. -/
theorem MemOk.live_lt (ok : MemOk cfg w) : w.small.length + w.large.length < 256 ^ cfg.word := by
  let rs := (w.small ++ w.large).map fun b => (b.addr, b.room cfg)
  have inside : ∀ r ∈ rs, 0 < r.1 ∧ r.1 + r.2 ≤ 256 ^ cfg.word ∧ 1 ≤ r.2 := fun r hr => by
    obtain ⟨b, hb, rfl⟩ := List.mem_map.mp hr
    obtain ⟨above, fits, room, -⟩ := ok.block_inside hb
    exact ⟨above, fits, room⟩
  have bound := sum_lt_of_apart (List.pairwise_map.mpr ok.blocks_apart) fun r hr =>
    ⟨(inside r hr).1, (inside r hr).2.1⟩
  have each := List.length_le_sum_of_one_le (rs.map Prod.snd) fun n hn => by
    obtain ⟨r, hr, rfl⟩ := List.mem_map.mp hn
    exact (inside r hr).2.2
  rw [List.length_map, List.length_map, List.length_append] at each
  exact Nat.lt_of_le_of_lt each bound

/-- Each page is one of the pages of its pool. -/
theorem sum_pagesOf {pages : List (Nat × Nat)} {count : Nat}
    (told : ∀ page ∈ pages, page.1 < count) :
    ((List.range count).map fun p => (pagesOf pages p).length).sum = pages.length := by
  change ∑ p ∈ Finset.range count, (pagesOf pages p).length = pages.length
  induction pages with
  | nil => exact Finset.sum_const_zero
  | cons page rest ih =>
      obtain ⟨q, x⟩ := page
      have one : ∀ p, (pagesOf ((q, x) :: rest) p).length =
          (if p = q then 1 else 0) + (pagesOf rest p).length := fun p => by
        rw [pagesOf_cons]
        split
        · rw [List.length_cons, Nat.add_comm]
        · rw [Nat.zero_add]
      have mem : q ∈ Finset.range count := Finset.mem_range.mpr (told _ List.mem_cons_self)
      simp only [one, Finset.sum_add_distrib, Finset.sum_ite_eq', if_pos mem]
      rw [ih fun page hp => told page (List.mem_cons_of_mem _ hp), List.length_cons, Nat.add_comm]

theorem MemOk.statistics (ok : MemOk cfg w) (few : cfg.count ≤ statisticsPools) :
    ∃ st, StatisticsOk cfg w st ∧
      ∀ fuel, w.counted.pools.pages.length * cfg.pageSize ≤ fuel →
        ssmMemStatisticsCollect cfg fuel w.counted = some st := by
  have pages := ok.pages_lt
  have live := ok.live_lt
  have fewer : w.counted.pools.pages.length ≤ w.counted.pools.pages.length * cfg.pageSize :=
    Nat.le_mul_of_pos_right _ cfg.page_pos
  have part : ∀ p, (pagesOf w.counted.pools.pages p).length ≤ w.counted.pools.pages.length :=
    fun p => by
      rw [pagesOf, List.length_map]
      exact List.length_filter_le _ _
  have word : ∀ n, n < 256 ^ cfg.word → cfg.sizeT n = n := fun n h => Nat.mod_eq_of_lt h
  have each : ∀ p, w.counted.counters.pagesAllocated p =
      (pagesOf w.counted.pools.pages p).length := fun p => by
    rw [ok.counts.each, word]
    have := part p
    omega
  have lists : ∀ p < cfg.count, ∃ n,
      (∀ fuel, w.counted.pools.pages.length * cfg.pageSize ≤ fuel →
        freeListLength cfg w.counted.pools.bytes (cfg.poolSize p) fuel 0
          (w.counted.pools.freeListHead p) = some n) ∧
      n + (liveIn cfg w.small p).length =
        (pagesOf w.counted.pools.pages p).length * (cfg.pageSize / cfg.poolSize p) := by
    intro p hp
    obtain ⟨free, list, all⟩ := ok.pools.lists p hp
    have length := all.length_eq
    rw [List.length_append, length_blocksOf] at length
    have blocks : free.length ≤ w.counted.pools.pages.length * cfg.pageSize := by
      have := Nat.mul_le_mul (part p) (Nat.div_le_self cfg.pageSize (cfg.poolSize p))
      change free.length + _ = (pagesOf w.counted.pools.pages p).length * _ at length
      omega
    refine ⟨free.length, fun fuel enough => ?_, length⟩
    rw [freeListLength_linked list (by omega) (Nat.le_trans blocks enough), Nat.zero_add]
  choose! n walk exact using lists
  let pool := (List.range cfg.count).map fun i =>
    MemStatisticsPool.mk (cfg.poolSize i) (w.counted.counters.pagesAllocated i) (n i)
  let c := w.counted.counters
  refine ⟨⟨sizeofSsmMm, cfg.pageSize, c.numPagesAllocated, c.objectsAllocated, c.objectsFreed,
    c.liveObjects, cfg.count, pool⟩, ⟨?_, ?_, ?_, ?_, ?_, ?_⟩, fun fuel enough => ?_⟩
  · exact ok.counts.pages.trans (word _ (Nat.lt_of_le_of_lt fewer pages))
  · change c.numPagesAllocated = (pool.map MemStatisticsPool.pagesAllocated).sum
    rw [ok.counts.pages, word _ (Nat.lt_of_le_of_lt fewer pages), List.map_map,
      ← sum_pagesOf ok.told]
    exact congrArg List.sum (List.map_congr_left fun p _ => (each p).symm)
  · change pool.length = cfg.count
    rw [List.length_map, List.length_range]
  · intro p q hq
    obtain ⟨h, rfl⟩ := List.getElem?_eq_some_iff.mp hq
    have small : p < cfg.count := by
      rw [List.length_map, List.length_range] at h
      exact h
    have entry : pool[p] = ⟨cfg.poolSize p, w.counted.counters.pagesAllocated p, n p⟩ := by
      rw [List.getElem_map, List.getElem_range]
    change pool[p].blockSize = _ ∧ pool[p].pagesAllocated = _ ∧ pool[p].freeListLength + _ =
      pool[p].pagesAllocated * (cfg.pageSize / pool[p].blockSize)
    rw [entry]
    refine ⟨rfl, each p, ?_⟩
    change n p + _ = w.counted.counters.pagesAllocated p * _
    rw [each]
    exact exact p small
  · exact ok.counts.live.trans (word _ live)
  · change c.objectsAllocated = cfg.sizeT (c.objectsFreed + c.liveObjects)
    rw [ok.counts.objects, ok.counts.live, word _ live]
  · rw [ssmMemStatisticsCollect, mapM_eq_map (g := fun i => MemStatisticsPool.mk (cfg.poolSize i)
      (w.counted.counters.pagesAllocated i) (n i)) fun i hi => ?_]
    · rfl
    · have hi := List.mem_range.mp hi
      rw [if_neg (by omega), walk i hi fuel enough]
      rfl

/-- In every run the statistics tell what the allocator holds: the walks over the
free lists end, each pool has a free or a live block for every block of its
pages, and the objects that count as live are those that have not been freed.
The numbers of pages and of live objects never wrap. -/
theorem statistics_exact (run : MemRun cfg w) (few : cfg.count ≤ statisticsPools) :
    ∃ st, StatisticsOk cfg w st ∧
      ∀ fuel, w.counted.pools.pages.length * cfg.pageSize ≤ fuel →
        ssmMemStatisticsCollect cfg fuel w.counted = some st :=
  run.ok.statistics few

end Collect

def runMemCalls (cfg : PoolConfig) : List MemCall → MemWorld → Option MemWorld
  | [], w => some w
  | c :: cs, w => if c.Legal cfg w then (c.exec cfg w).toOption.bind (runMemCalls cfg cs) else none

theorem MemRun.of_runMemCalls {cfg : PoolConfig} {w v : MemWorld} {cs : List MemCall}
    (run : MemRun cfg w) (last : runMemCalls cfg cs w = some v) : MemRun cfg v := by
  induction cs generalizing w with
  | nil =>
      cases last
      exact run
  | cons c cs ih =>
      unfold runMemCalls at last
      split at last
      · rename_i legal
        obtain ⟨u, one, rest⟩ := Option.bind_eq_some_iff.mp last
        exact ih (run.step legal (ok_of_toOption one)) rest
      · cases last

/-- Objects of two pools and one that no pool serves, a page more than needed,
and zeros in a block that is freed. -/
def memCalls : List MemCall :=
  [.alloc 20 4096 0, .alloc 10 8192 0, .alloc 3000 0 20480, .prealloc 64 [65536], .write 4096 0,
    .write 20480 7, .free ⟨4096, 20⟩, .alloc 30 0 0, .alloc 2000 0 32768, .free ⟨20480, 3000⟩]

theorem statistics_exact_runs : ∃ w st,
    runMemCalls defaultPools memCalls ⟨⟨ssmMemInit fun _ => 255, memCountersZero⟩, [], []⟩ = some w ∧
    StatisticsOk defaultPools w st ∧ st.liveObjects = 3 ∧ st.pagesAllocated = 3 ∧
    ssmMemStatisticsCollect defaultPools 12288 w.counted = some st := by
  have plays : (runMemCalls defaultPools memCalls
      ⟨⟨ssmMemInit fun _ => 255, memCountersZero⟩, [], []⟩).any (fun w =>
        w.small.length = 2 ∧ w.large.length = 1 ∧ w.counted.pools.pages.length = 3) = true := by
    decide +kernel
  obtain ⟨w, play, shown⟩ := (Option.any_eq_true _ _).mp plays
  obtain ⟨small, large, pages⟩ := of_decide_eq_true shown
  obtain ⟨st, ok, collects⟩ :=
    statistics_exact (.of_runMemCalls (.init fun _ => 255) play) (by decide)
  refine ⟨w, st, play, ok, ?_, ?_, collects 12288 ?_⟩
  · rw [ok.live, small, large]
  · rw [ok.pages, pages]
  · rw [pages]
    decide

end SsmRuntime
