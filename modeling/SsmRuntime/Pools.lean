import Mathlib.Data.List.Pairwise
import Mathlib.Data.Multiset.Range
import Mathlib.Data.Multiset.Filter
import SsmRuntime.Library.ByteMemory
import SsmRuntime.State

/-!
The pool allocator over byte memory. Free blocks carry their own links; a link
of zero means the next contiguous block. `pages` records what `alloc_page` has
returned, each page with the pool it was added to.
-/
namespace SsmRuntime

open ByteMemory

/-- Pool and page sizes that fit each other; `word` is `sizeof(block_t)`. -/
structure PoolConfig where
  word : Nat
  poolMin : Nat
  factor : Nat
  count : Nat
  pageSize : Nat
  word_pos : 0 < word
  poolMin_pos : 0 < poolMin
  page_pos : 0 < pageSize
  word_dvd : word ∣ poolMin
  pool_dvd : ∀ p, p < count → poolMin <<< (factor * p) ∣ pageSize

/-- `SSM_MEM_POOL_SIZE`. -/
def PoolConfig.poolSize (cfg : PoolConfig) (p : Nat) : Nat := cfg.poolMin <<< (cfg.factor * p)

/-- The defaults on a platform with 64-bit pointers. -/
def defaultPools : PoolConfig where
  word := 8
  poolMin := 16
  factor := 2
  count := 4
  pageSize := 16 <<< (2 * 4)
  word_pos := by decide
  poolMin_pos := by decide
  page_pos := by decide
  word_dvd := by decide
  pool_dvd := by decide

def uninitializedFreeBlock : Nat := 0

def endOfFreelist : Nat := 0x42

structure Pools where
  bytes : Bytes
  freeListHead : Nat → Nat
  pages : List (Nat × Nat)

section Source
variable (cfg : PoolConfig)

def findPoolSize (size : Nat) : Nat :=
  ((List.range cfg.count).find? fun p => size ≤ cfg.poolSize p).getD cfg.count

def findNextBlock (m : Bytes) (poolSize block : Nat) : Nat :=
  if load m cfg.word block = uninitializedFreeBlock then
    block + poolSize / cfg.word * cfg.word
  else load m cfg.word block

/-- `alloc_page` returns `newPage`, filled with zeros. -/
def allocPool (newPage p : Nat) (s : Pools) : Except SsmError Pools :=
  let s := { s with bytes := zeroed s.bytes newPage cfg.pageSize, pages := (p, newPage) :: s.pages }
  if endOfFreelist < newPage then
    let lastBlock := cfg.pageSize / cfg.word - cfg.poolSize p / cfg.word
    .ok { s with
      bytes := store s.bytes cfg.word (newPage + lastBlock * cfg.word) (s.freeListHead p)
      freeListHead := Function.update s.freeListHead p newPage }
  else .error .internalError

def ssmMemInit (m : Bytes) : Pools := ⟨m, fun _ => endOfFreelist, []⟩

def ssmMemPrealloc (size : Nat) (newPages : List Nat) (s : Pools) : Except SsmError Pools :=
  let p := findPoolSize cfg size
  if cfg.count ≤ p then .ok s else newPages.foldlM (fun s newPage => allocPool cfg newPage p s) s

/-- `newPage` and `large` are what `alloc_page` and `alloc_mem` return if they are called. -/
def ssmMemAlloc (newPage large size : Nat) (s : Pools) : Except SsmError (Nat × Pools) :=
  let p := findPoolSize cfg size
  if cfg.count ≤ p then .ok (large, s)
  else do
    let s ← (if s.freeListHead p = endOfFreelist then allocPool cfg newPage p s else .ok s)
    let m := s.freeListHead p
    let next := findNextBlock cfg s.bytes (cfg.poolSize p) m
    .ok (m, { s with freeListHead := Function.update s.freeListHead p next })

def ssmMemFree (m size : Nat) (s : Pools) : Pools :=
  let p := findPoolSize cfg size
  if cfg.count ≤ p then s
  else { s with
    bytes := store s.bytes cfg.word m (s.freeListHead p)
    freeListHead := Function.update s.freeListHead p m }

end Source

section Sizes
variable {cfg : PoolConfig}

theorem poolSize_pos (cfg : PoolConfig) (p : Nat) : 0 < cfg.poolSize p := by
  rw [PoolConfig.poolSize, Nat.shiftLeft_eq]
  exact Nat.mul_pos cfg.poolMin_pos (Nat.two_pow_pos _)

theorem word_dvd_poolSize (cfg : PoolConfig) (p : Nat) : cfg.word ∣ cfg.poolSize p := by
  rw [PoolConfig.poolSize, Nat.shiftLeft_eq]
  exact Nat.dvd_mul_right_of_dvd cfg.word_dvd _

theorem word_le_poolSize (cfg : PoolConfig) (p : Nat) : cfg.word ≤ cfg.poolSize p :=
  Nat.le_of_dvd (poolSize_pos cfg p) (word_dvd_poolSize cfg p)

theorem findNextBlock_zero {m : Bytes} {p block : Nat} (zero : load m cfg.word block = 0) :
    findNextBlock cfg m (cfg.poolSize p) block = block + cfg.poolSize p := by
  rw [findNextBlock, if_pos (show _ = uninitializedFreeBlock from zero),
    Nat.div_mul_cancel (word_dvd_poolSize cfg p)]

theorem findNextBlock_link {m : Bytes} {size block next : Nat}
    (link : load m cfg.word block = next) (some' : next ≠ 0) :
    findNextBlock cfg m size block = next := by
  rw [findNextBlock, if_neg (show _ ≠ uninitializedFreeBlock from link.symm ▸ some'), link]

theorem findNextBlock_congr {m m' : Bytes} {size block : Nat}
    (same : ∀ i, block ≤ i → i < block + cfg.word → m' i = m i) :
    findNextBlock cfg m' size block = findNextBlock cfg m size block := by
  rw [findNextBlock, findNextBlock, load_congr cfg.word block same]

/-- A search for the first size that fits finds one that fits, and none before it does. -/
theorem firstFit_spec {sizes : Nat → Nat} {count size : Nat}
    (served : ((List.range count).find? fun p => size ≤ sizes p).getD count < count) :
    size ≤ sizes (((List.range count).find? fun p => size ≤ sizes p).getD count) ∧
      ∀ q < ((List.range count).find? fun p => size ≤ sizes p).getD count, sizes q < size := by
  cases found : (List.range count).find? fun p => size ≤ sizes p with
  | none =>
      rw [found, Option.getD_none] at served
      exact absurd served (Nat.lt_irrefl _)
  | some p =>
      obtain ⟨fits, -, before⟩ := List.find?_range_eq_some.mp found
      exact ⟨of_decide_eq_true fits, fun q small => by simpa using before q small⟩

/-- The pool found is the smallest one that fits. -/
theorem findPoolSize_spec {size : Nat} (served : findPoolSize cfg size < cfg.count) :
    size ≤ cfg.poolSize (findPoolSize cfg size) ∧
      ∀ q < findPoolSize cfg size, cfg.poolSize q < size :=
  firstFit_spec served

end Sizes

/-- A live block, with the size it was allocated with. -/
structure Block where
  addr : Nat
  size : Nat
  deriving DecidableEq

structure PoolWorld where
  pools : Pools
  live : List Block

/-- Two address ranges do not meet. -/
def Apart (a n b m : Nat) : Prop := a + n ≤ b ∨ b + m ≤ a

section Blocks
variable (cfg : PoolConfig)

def pagesOf (pages : List (Nat × Nat)) (p : Nat) : List Nat :=
  (pages.filter fun page => page.1 = p).map Prod.snd

/-- The blocks a page of a pool is cut into. -/
def blocksAt (p page : Nat) : List Nat :=
  (List.range (cfg.pageSize / cfg.poolSize p)).map fun k => page + k * cfg.poolSize p

def blocksOf (pages : List (Nat × Nat)) (p : Nat) : List Nat :=
  (pagesOf pages p).flatMap (blocksAt cfg p)

def liveIn (live : List Block) (p : Nat) : List Nat :=
  (live.filter fun b => findPoolSize cfg b.size = p).map Block.addr

/-- The free list of a pool, read as `find_next_block` reads it. -/
def FreeList (s : Pools) (p : Nat) (free : List Nat) : Prop :=
  Linked (findNextBlock cfg s.bytes (cfg.poolSize p)) endOfFreelist (s.freeListHead p) free

structure PoolsOk (w : PoolWorld) : Prop where
  lists : ∀ p < cfg.count, ∃ free, FreeList cfg w.pools p free ∧
    (free ++ liveIn cfg w.live p).Perm (blocksOf cfg w.pools.pages p)
  high : ∀ page ∈ w.pools.pages, endOfFreelist < page.2 ∧ page.2 + cfg.pageSize ≤ 256 ^ cfg.word
  apart : w.pools.pages.Pairwise fun a b => Apart a.2 cfg.pageSize b.2 cfg.pageSize
  served : ∀ b ∈ w.live, findPoolSize cfg b.size < cfg.count

end Blocks

section Geometry
variable {cfg : PoolConfig} {pages : List (Nat × Nat)} {p q x y : Nat}

theorem Apart.symm {a n b m : Nat} (h : Apart a n b m) : Apart b m a n := Or.symm h

theorem mem_pagesOf {page : Nat} : page ∈ pagesOf pages p ↔ (p, page) ∈ pages := by
  simp [pagesOf]

theorem mem_blocksAt {page : Nat} : x ∈ blocksAt cfg p page ↔
    ∃ k < cfg.pageSize / cfg.poolSize p, x = page + k * cfg.poolSize p := by
  simp [blocksAt, eq_comm]

theorem mem_blocksOf : x ∈ blocksOf cfg pages p ↔
    ∃ page, (p, page) ∈ pages ∧ x ∈ blocksAt cfg p page := by
  simp [blocksOf, mem_pagesOf]

theorem block_inside {k : Nat} (hk : k < cfg.pageSize / cfg.poolSize p) :
    (k + 1) * cfg.poolSize p ≤ cfg.pageSize :=
  Nat.le_trans (Nat.mul_le_mul_right _ hk) (Nat.div_mul_le_self _ _)

theorem blocksAt_apart {page : Nat} (hx : x ∈ blocksAt cfg p page) (hy : y ∈ blocksAt cfg p page)
    (differ : x ≠ y) : Apart x (cfg.poolSize p) y (cfg.poolSize p) := by
  obtain ⟨k, -, rfl⟩ := mem_blocksAt.mp hx
  obtain ⟨l, -, rfl⟩ := mem_blocksAt.mp hy
  have steps : ∀ {i j : Nat}, i < j → i * cfg.poolSize p + cfg.poolSize p ≤ j * cfg.poolSize p :=
    fun h => by
      rw [← Nat.succ_mul]
      exact Nat.mul_le_mul_right _ h
  rcases Nat.lt_trichotomy k l with lt | rfl | gt
  · have := steps lt
    exact Or.inl (by omega)
  · exact absurd rfl differ
  · have := steps gt
    exact Or.inr (by omega)

theorem blocksAt_inside {page : Nat} (hx : x ∈ blocksAt cfg p page) :
    page ≤ x ∧ x + cfg.poolSize p ≤ page + cfg.pageSize := by
  obtain ⟨k, hk, rfl⟩ := mem_blocksAt.mp hx
  have := block_inside hk
  rw [Nat.succ_mul] at this
  omega

/-- Blocks of one pool or of two never overlap. -/
theorem blocks_apart
    (apart : pages.Pairwise fun a b => Apart a.2 cfg.pageSize b.2 cfg.pageSize)
    (hx : x ∈ blocksOf cfg pages p) (hy : y ∈ blocksOf cfg pages q) (differ : (p, x) ≠ (q, y)) :
    Apart x (cfg.poolSize p) y (cfg.poolSize q) := by
  obtain ⟨page, hp, hx⟩ := mem_blocksOf.mp hx
  obtain ⟨page', hq, hy⟩ := mem_blocksOf.mp hy
  by_cases same : (p, page) = (q, page')
  · cases same
    exact blocksAt_apart hx hy fun h => differ (by rw [h])
  · have : Std.Symm fun a b : Nat × Nat => Apart a.2 cfg.pageSize b.2 cfg.pageSize :=
      ⟨fun _ _ => Apart.symm⟩
    have pair := apart.forall hp hq same
    have inX := blocksAt_inside hx
    have inY := blocksAt_inside hy
    rcases pair with before | after
    · exact Or.inl (by omega)
    · exact Or.inr (by omega)

theorem nodup_blocksAt (page : Nat) : (blocksAt cfg p page).Nodup := by
  refine List.Nodup.map (fun k l same => ?_) List.nodup_range
  exact Nat.eq_of_mul_eq_mul_right (poolSize_pos cfg p) (Nat.add_left_cancel same)

theorem nodup_blocksOf
    (apart : pages.Pairwise fun a b => Apart a.2 cfg.pageSize b.2 cfg.pageSize) :
    (blocksOf cfg pages p).Nodup := by
  refine List.nodup_flatMap.mpr ⟨fun page _ => nodup_blocksAt page, ?_⟩
  refine List.pairwise_map.mpr ((apart.filter _).imp fun {a b} pair => ?_)
  intro x hx hy
  have inX := blocksAt_inside hx
  have inY := blocksAt_inside hy
  have := poolSize_pos cfg p
  rcases pair with before | after
  · omega
  · omega

theorem length_blocksOf : (blocksOf cfg pages p).length =
    (pagesOf pages p).length * (cfg.pageSize / cfg.poolSize p) := by
  rw [blocksOf, List.length_flatMap]
  have each : ∀ page, (blocksAt cfg p page).length = cfg.pageSize / cfg.poolSize p := fun page => by
    simp [blocksAt]
  simp [each]

theorem pagesOf_cons (page : Nat) : pagesOf ((p, page) :: pages) q =
    if q = p then page :: pagesOf pages q else pagesOf pages q := by
  unfold pagesOf
  by_cases same : q = p
  · subst same
    simp
  · simp [same, Ne.symm same]

theorem blocksOf_cons_self (page : Nat) :
    blocksOf cfg ((p, page) :: pages) p = blocksAt cfg p page ++ blocksOf cfg pages p := by
  rw [blocksOf, pagesOf_cons, if_pos rfl, List.flatMap_cons, blocksOf]

theorem blocksOf_cons_of_ne (page : Nat) (other : q ≠ p) :
    blocksOf cfg ((p, page) :: pages) q = blocksOf cfg pages q := by
  rw [blocksOf, pagesOf_cons, if_neg other, blocksOf]

theorem liveIn_cons (live : List Block) (b : Block) : liveIn cfg (b :: live) q =
    if findPoolSize cfg b.size = q then b.addr :: liveIn cfg live q else liveIn cfg live q := by
  unfold liveIn
  by_cases same : findPoolSize cfg b.size = q
  · simp [same]
  · simp [same]

theorem mem_liveIn {live : List Block} {b : Block} (h : b ∈ live) :
    b.addr ∈ liveIn cfg live (findPoolSize cfg b.size) := by
  simp only [liveIn, List.mem_map, List.mem_filter]
  exact ⟨b, ⟨h, by simp⟩, rfl⟩

end Geometry

section Invariant
variable {cfg : PoolConfig} {w : PoolWorld} {p q : Nat} {free : List Nat}

theorem stop_lt (cfg : PoolConfig) : endOfFreelist < 256 ^ cfg.word :=
  Nat.lt_of_lt_of_le (show endOfFreelist < 256 ^ 1 by decide)
    (Nat.pow_le_pow_right (by decide) cfg.word_pos)

/-- A block is above the end marker and inside the address space. -/
theorem PoolsOk.block_high (ok : PoolsOk cfg w) {x : Nat}
    (hx : x ∈ blocksOf cfg w.pools.pages p) : endOfFreelist < x ∧ x < 256 ^ cfg.word := by
  obtain ⟨page, hp, hx⟩ := mem_blocksOf.mp hx
  have above := ok.high _ hp
  have inside := blocksAt_inside hx
  have := poolSize_pos cfg p
  omega

/-- A list head is a pointer, and never reads as a fresh link. -/
theorem PoolsOk.head_pointer (ok : PoolsOk cfg w) (list : FreeList cfg w.pools p free)
    (all : (free ++ liveIn cfg w.live p).Perm (blocksOf cfg w.pools.pages p)) :
    w.pools.freeListHead p ≠ 0 ∧ w.pools.freeListHead p < 256 ^ cfg.word := by
  unfold FreeList at list
  generalize w.pools.freeListHead p = head at list
  cases list with
  | stop => exact ⟨by decide, stop_lt cfg⟩
  | cell other rest =>
      have := ok.block_high (all.subset (List.mem_append_left _ List.mem_cons_self))
      omega

/-- A live block meets no free block, of its own pool or another. -/
theorem PoolsOk.live_apart_free (ok : PoolsOk cfg w) {b : Block} (hb : b ∈ w.live)
    (all : (free ++ liveIn cfg w.live q).Perm (blocksOf cfg w.pools.pages q)) {x : Nat}
    (hx : x ∈ free) :
    Apart b.addr (cfg.poolSize (findPoolSize cfg b.size)) x (cfg.poolSize q) := by
  obtain ⟨free', -, all'⟩ := ok.lists _ (ok.served b hb)
  refine blocks_apart ok.apart (all'.subset (List.mem_append_right _ (mem_liveIn hb)))
    (all.subset (List.mem_append_left _ hx)) fun same => ?_
  obtain ⟨pool, addr⟩ := Prod.mk.inj same
  have nodup := all.nodup_iff.mpr (nodup_blocksOf ok.apart)
  exact (List.nodup_append.mp nodup).2.2 x hx b.addr (pool ▸ mem_liveIn hb) addr.symm

/-- A free list does not change where its blocks keep their first word. -/
theorem FreeList.frame {s t : Pools} (list : FreeList cfg s p free)
    (head : t.freeListHead p = s.freeListHead p)
    (same : ∀ x ∈ free, ∀ i, x ≤ i → i < x + cfg.word → t.bytes i = s.bytes i) :
    FreeList cfg t p free := by
  unfold FreeList
  rw [head]
  exact list.congr fun x hx => findNextBlock_congr (same x hx)

/-- Bytes written into a live block leave every free list as it is. -/
theorem PoolsOk.frame_live (ok : PoolsOk cfg w) {b : Block} (hb : b ∈ w.live) {m : Bytes}
    (same : ∀ i, i < b.addr ∨ b.addr + cfg.poolSize (findPoolSize cfg b.size) ≤ i →
      m i = w.pools.bytes i) (list : FreeList cfg w.pools q free)
    (all : (free ++ liveIn cfg w.live q).Perm (blocksOf cfg w.pools.pages q)) :
    FreeList cfg { w.pools with bytes := m } q free := by
  refine list.frame rfl fun x hx i h1 h2 => same i ?_
  have apart := ok.live_apart_free hb all hx
  have := word_le_poolSize cfg q
  rcases apart with before | after
  · exact Or.inr (by omega)
  · exact Or.inl (by omega)

end Invariant

section Steps
variable {cfg : PoolConfig} {w : PoolWorld} {p q : Nat}

theorem PoolsOk.write (ok : PoolsOk cfg w) {b : Block} (hb : b ∈ w.live) {m : Bytes}
    (same : ∀ i, i < b.addr ∨ b.addr + cfg.poolSize (findPoolSize cfg b.size) ≤ i →
      m i = w.pools.bytes i) : PoolsOk cfg ⟨{ w.pools with bytes := m }, w.live⟩ where
  lists := fun q hq => by
    obtain ⟨free, list, all⟩ := ok.lists q hq
    exact ⟨free, ok.frame_live hb same list all, all⟩
  high := ok.high
  apart := ok.apart
  served := ok.served

theorem liveIn_erase (cfg : PoolConfig) (q : Nat) {live : List Block} {b : Block} (hb : b ∈ live) :
    (if findPoolSize cfg b.size = q then b.addr :: liveIn cfg (live.erase b) q
      else liveIn cfg (live.erase b) q).Perm (liveIn cfg live q) := by
  rw [← liveIn_cons]
  exact (((List.perm_cons_erase hb).symm).filter _).map _

/-- Freeing a live block puts it in front of the free list of its pool. -/
theorem PoolsOk.free (ok : PoolsOk cfg w) {b : Block} (hb : b ∈ w.live) :
    PoolsOk cfg ⟨ssmMemFree cfg b.addr b.size w.pools, w.live.erase b⟩ := by
  have served := ok.served b hb
  generalize hp : findPoolSize cfg b.size = p at served
  have result : ssmMemFree cfg b.addr b.size w.pools =
      { w.pools with
        bytes := store w.pools.bytes cfg.word b.addr (w.pools.freeListHead p)
        freeListHead := Function.update w.pools.freeListHead p b.addr } := by
    unfold ssmMemFree
    simp only [hp, if_neg (Nat.not_le_of_lt served)]
  have small := word_le_poolSize cfg p
  have outside : ∀ i, i < b.addr ∨ b.addr + cfg.poolSize (findPoolSize cfg b.size) ≤ i →
      store w.pools.bytes cfg.word b.addr (w.pools.freeListHead p) i = w.pools.bytes i := by
    rw [hp]
    exact fun i hi => store_outside _ _ _ _ (by omega)
  rw [result]
  refine ⟨fun q hq => ?_, ok.high, ok.apart, fun c hc => ok.served c (List.mem_of_mem_erase hc)⟩
  obtain ⟨free, list, all⟩ := ok.lists q hq
  have kept := ok.frame_live hb outside list all
  have moved := liveIn_erase cfg q hb
  by_cases same : q = p
  · subst same
    obtain ⟨pointer, fits⟩ := ok.head_pointer list all
    have high := ok.block_high (all.subset (List.mem_append_right _ (hp ▸ mem_liveIn hb)))
    refine ⟨b.addr :: free, ?_, ?_⟩
    · unfold FreeList
      simp only [Function.update_self]
      refine .cell (by omega) ?_
      rw [findNextBlock_link (load_store _ _ _ _ fits) pointer]
      exact kept
    · rw [if_pos hp] at moved
      exact (List.perm_middle.symm.trans (moved.append_left free)).trans all
  · rw [if_neg (fun h => same (h.symm.trans hp))] at moved
    refine ⟨free, ?_, (moved.append_left free).trans all⟩
    unfold FreeList
    simp only [Function.update_of_ne same]
    exact kept

/-- A page that `alloc_page` may return: above the end marker, inside the
address space, and apart from the pages it has returned before. -/
def FreshPage (cfg : PoolConfig) (pages : List (Nat × Nat)) (page : Nat) : Prop :=
  endOfFreelist < page ∧ page + cfg.pageSize ≤ 256 ^ cfg.word ∧
    ∀ old ∈ pages, Apart page cfg.pageSize old.2 cfg.pageSize

theorem lastBlock_eq (cfg : PoolConfig) (hp : p < cfg.count) :
    (cfg.pageSize / cfg.word - cfg.poolSize p / cfg.word) * cfg.word =
      (cfg.pageSize / cfg.poolSize p - 1) * cfg.poolSize p := by
  have pool : cfg.poolSize p ∣ cfg.pageSize := cfg.pool_dvd p hp
  have word := word_dvd_poolSize cfg p
  rw [Nat.sub_mul, Nat.div_mul_cancel (Nat.dvd_trans word pool), Nat.div_mul_cancel word,
    Nat.sub_mul, Nat.div_mul_cancel pool, Nat.one_mul]

/-- A new page: its blocks, in order, go in front of the free list of its pool. -/
theorem PoolsOk.allocPool (ok : PoolsOk cfg w) (hp : p < cfg.count) {page : Nat}
    (fresh : FreshPage cfg w.pools.pages page) :
    ∃ t, SsmRuntime.allocPool cfg page p w.pools = .ok t ∧ PoolsOk cfg ⟨t, w.live⟩ ∧
      t.pages = (p, page) :: w.pools.pages ∧ t.freeListHead p = page := by
  obtain ⟨above, inside, apart⟩ := fresh
  obtain ⟨n, cut⟩ : ∃ n, cfg.pageSize / cfg.poolSize p = n + 1 := by
    have some' : 0 < cfg.pageSize / cfg.poolSize p :=
      Nat.div_pos (Nat.le_of_dvd cfg.page_pos (cfg.pool_dvd p hp)) (poolSize_pos cfg p)
    exact ⟨cfg.pageSize / cfg.poolSize p - 1, by omega⟩
  have last := lastBlock_eq cfg hp
  rw [cut, Nat.add_sub_cancel] at last
  have end' := block_inside (show n < cfg.pageSize / cfg.poolSize p by omega)
  rw [Nat.succ_mul] at end'
  have small := word_le_poolSize cfg p
  have pos := poolSize_pos cfg p
  generalize hm : store (zeroed w.pools.bytes page cfg.pageSize) cfg.word
    (page + n * cfg.poolSize p) (w.pools.freeListHead p) = m
  have outside : ∀ i, i < page ∨ page + cfg.pageSize ≤ i → m i = w.pools.bytes i := fun i hi => by
    rw [← hm, store_outside _ _ _ _ (by omega), zeroed_outside _ hi]
  have result : SsmRuntime.allocPool cfg page p w.pools =
      .ok ⟨m, Function.update w.pools.freeListHead p page, (p, page) :: w.pools.pages⟩ := by
    unfold SsmRuntime.allocPool
    simp only [last, if_pos above, hm]
  have kept : ∀ {q free}, (free ++ liveIn cfg w.live q).Perm (blocksOf cfg w.pools.pages q) →
      ∀ x ∈ free, ∀ i, x ≤ i → i < x + cfg.word → m i = w.pools.bytes i := by
    intro q free all x hx i h1 h2
    obtain ⟨old, hold, hx⟩ := mem_blocksOf.mp (all.subset (List.mem_append_left _ hx))
    have in' := blocksAt_inside hx
    have fits := word_le_poolSize cfg q
    rcases apart _ hold with before | after
    · exact outside i (Or.inr (by omega))
    · exact outside i (Or.inl (by omega))
  refine ⟨_, result, ⟨fun q hq => ?_, fun pg hpg => ?_, ?_, ok.served⟩, rfl,
    Function.update_self _ _ _⟩
  · obtain ⟨free, list, all⟩ := ok.lists q hq
    have list' : FreeList cfg { w.pools with bytes := m } q free := list.frame rfl (kept all)
    by_cases same : q = p
    · subst same
      obtain ⟨pointer, fits⟩ := ok.head_pointer list all
      refine ⟨blocksAt cfg q page ++ free, ?_, ?_⟩
      · unfold FreeList
        simp only [Function.update_self]
        rw [blocksAt, cut]
        refine Linked.spaced list' (fun k _ => ?_) (fun k hk => ?_) ?_
        · have : page ≤ page + k * cfg.poolSize q := Nat.le_add_right _ _
          omega
        · have next : (k + 1) * cfg.poolSize q ≤ n * cfg.poolSize q := Nat.mul_le_mul_right _ hk
          rw [Nat.succ_mul] at next
          have zero : load m cfg.word (page + k * cfg.poolSize q) = 0 := by
            rw [← hm, load_congr (m := zeroed w.pools.bytes page cfg.pageSize)]
            · exact load_zeroed _ (Nat.le_add_right _ _) (by omega)
            · exact fun i h1 h2 => store_outside _ _ _ _ (by omega)
          rw [findNextBlock_zero zero, Nat.succ_mul, Nat.add_assoc]
        · exact findNextBlock_link (by rw [← hm]; exact load_store _ _ _ _ fits) pointer
      · rw [blocksOf_cons_self, List.append_assoc]
        exact all.append_left _
    · refine ⟨free, ?_, ?_⟩
      · unfold FreeList
        simp only [Function.update_of_ne same]
        exact list'
      · rw [blocksOf_cons_of_ne page same]
        exact all
  · rcases List.mem_cons.mp hpg with rfl | hpg
    · exact ⟨above, inside⟩
    · exact ok.high pg hpg
  · exact List.Pairwise.cons (fun old hold => apart old hold) ok.apart

/-- Taking the first block of a free list. -/
theorem PoolsOk.take (ok : PoolsOk cfg w) {size : Nat} (hp : findPoolSize cfg size = p)
    (served : p < cfg.count) (some' : w.pools.freeListHead p ≠ endOfFreelist) {next : Nat}
    (reads : findNextBlock cfg w.pools.bytes (cfg.poolSize p) (w.pools.freeListHead p) = next) :
    PoolsOk cfg ⟨{ w.pools with freeListHead := Function.update w.pools.freeListHead p next },
      ⟨w.pools.freeListHead p, size⟩ :: w.live⟩ := by
  subst reads
  refine ⟨fun q hq => ?_, ok.high, ok.apart, fun b hb => ?_⟩
  · obtain ⟨free, list, all⟩ := ok.lists q hq
    by_cases same : q = p
    · subst same
      unfold FreeList at list
      rw [liveIn_cons, if_pos hp]
      generalize hh : w.pools.freeListHead q = head at list some'
      cases list with
      | stop => exact absurd rfl some'
      | @cell _ rest _ tail =>
          refine ⟨rest, ?_, List.perm_middle.trans all⟩
          unfold FreeList
          simp only [Function.update_self]
          exact tail
    · rw [liveIn_cons, if_neg fun h => same (h.symm.trans hp)]
      refine ⟨free, ?_, all⟩
      unfold FreeList
      simp only [Function.update_of_ne same]
      exact list
  · rcases List.mem_cons.mp hb with rfl | hb
    · exact hp ▸ served
    · exact ok.served b hb

end Steps

end SsmRuntime
