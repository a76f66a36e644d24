import SsmRuntime.Pools

/-!
Runs of the pool allocator. Clients allocate, free what they hold, and write
any bytes into their blocks at any time; `alloc_page` returns fresh pages.
-/
namespace SsmRuntime

open ByteMemory

inductive PoolCall where
  | alloc (size newPage large : Nat)
  | free (b : Block)
  | prealloc (size : Nat) (newPages : List Nat)
  | write (addr : Nat) (byte : UInt8)

/-- Each page is fresh when its turn comes. -/
def FreshPages (cfg : PoolConfig) (p : Nat) : List Nat → List (Nat × Nat) → Prop
  | [], _ => True
  | page :: rest, pages => FreshPage cfg pages page ∧ FreshPages cfg p rest ((p, page) :: pages)

instance (cfg : PoolConfig) (pages : List (Nat × Nat)) (page : Nat) :
    Decidable (FreshPage cfg pages page) :=
  inferInstanceAs (Decidable (_ ∧ _ ∧ ∀ old ∈ pages, _ ∨ _))

instance FreshPages.decide (cfg : PoolConfig) (p : Nat) :
    (fresh : List Nat) → (pages : List (Nat × Nat)) → Decidable (FreshPages cfg p fresh pages)
  | [], _ => inferInstanceAs (Decidable True)
  | page :: rest, pages =>
      have := FreshPages.decide cfg p rest ((p, page) :: pages)
      inferInstanceAs (Decidable (FreshPage cfg pages page ∧ _))

namespace PoolCall
variable (cfg : PoolConfig)

def exec : PoolCall → PoolWorld → Except SsmError PoolWorld
  | alloc size newPage large, w => do
      let (m, s) ← ssmMemAlloc cfg newPage large size w.pools
      .ok ⟨s, ⟨m, size⟩ :: w.live⟩
  | free b, w => .ok ⟨ssmMemFree cfg b.addr b.size w.pools, w.live.erase b⟩
  | prealloc size newPages, w => do
      let s ← ssmMemPrealloc cfg size newPages w.pools
      .ok ⟨s, w.live⟩
  | write addr byte, w =>
      .ok ⟨{ w.pools with bytes := Function.update w.pools.bytes addr byte }, w.live⟩

/-- Sizes are served by the pools, only live blocks are freed and written, and
a page is fresh where `alloc_page` is called. -/
def Legal (w : PoolWorld) : PoolCall → Prop
  | alloc size newPage _ => findPoolSize cfg size < cfg.count ∧
      (w.pools.freeListHead (findPoolSize cfg size) = endOfFreelist →
        FreshPage cfg w.pools.pages newPage)
  | free b => b ∈ w.live
  | prealloc size newPages => findPoolSize cfg size < cfg.count ∧
      FreshPages cfg (findPoolSize cfg size) newPages w.pools.pages
  | write addr _ => ∃ b ∈ w.live, b.addr ≤ addr ∧
      addr < b.addr + cfg.poolSize (findPoolSize cfg b.size)

instance (w : PoolWorld) : (c : PoolCall) → Decidable (c.Legal cfg w)
  | alloc _ _ _ => inferInstanceAs (Decidable (_ ∧ (_ → _)))
  | free b => inferInstanceAs (Decidable (b ∈ w.live))
  | prealloc _ _ => inferInstanceAs (Decidable (_ ∧ _))
  | write _ _ => inferInstanceAs (Decidable (∃ b ∈ w.live, _ ∧ _))

end PoolCall

inductive PoolRun (cfg : PoolConfig) : PoolWorld → Prop where
  | init (m : Bytes) : PoolRun cfg ⟨ssmMemInit m, []⟩
  | step {w v : PoolWorld} {c : PoolCall} : PoolRun cfg w → c.Legal cfg w →
      c.exec cfg w = .ok v → PoolRun cfg v

section Runs
variable {cfg : PoolConfig} {w v : PoolWorld} {p : Nat}

theorem poolsOk_init (cfg : PoolConfig) (m : Bytes) : PoolsOk cfg ⟨ssmMemInit m, []⟩ where
  lists := fun _ _ => ⟨[], .stop, .nil⟩
  high := fun _ h => absurd h List.not_mem_nil
  apart := .nil
  served := fun _ h => absurd h List.not_mem_nil

/-- An allocation takes the first free block, from a new page if there is none. -/
theorem PoolsOk.alloc (ok : PoolsOk cfg w) {size newPage : Nat} (large : Nat)
    (served : findPoolSize cfg size < cfg.count)
    (fresh : w.pools.freeListHead (findPoolSize cfg size) = endOfFreelist →
      FreshPage cfg w.pools.pages newPage) :
    ∃ m t, ssmMemAlloc cfg newPage large size w.pools = .ok (m, t) ∧
      PoolsOk cfg ⟨t, ⟨m, size⟩ :: w.live⟩ := by
  generalize hp : findPoolSize cfg size = p at served fresh
  unfold ssmMemAlloc
  simp only [hp, if_neg (Nat.not_le_of_lt served)]
  by_cases none : w.pools.freeListHead p = endOfFreelist
  · obtain ⟨above, -⟩ := fresh none
    obtain ⟨t, run, ok', -, head⟩ := ok.allocPool served (fresh none)
    rw [if_pos none, run, ok_bind]
    exact ⟨_, _, rfl, ok'.take hp served (by rw [head]; omega) rfl⟩
  · rw [if_neg none, ok_bind]
    exact ⟨_, _, rfl, ok.take hp served none rfl⟩

theorem PoolsOk.prealloc (newPages : List Nat) (ok : PoolsOk cfg w) (served : p < cfg.count)
    (fresh : FreshPages cfg p newPages w.pools.pages) :
    ∃ t, newPages.foldlM (fun s newPage => SsmRuntime.allocPool cfg newPage p s) w.pools = .ok t ∧
      PoolsOk cfg ⟨t, w.live⟩ := by
  induction newPages generalizing w with
  | nil => exact ⟨w.pools, rfl, ok⟩
  | cons page rest ih =>
      obtain ⟨t, run, ok', pages, -⟩ := ok.allocPool served fresh.1
      obtain ⟨u, last, done⟩ := ih ok' (by
        rw [pages]
        exact fresh.2)
      exact ⟨u, by rw [List.foldlM_cons, run]; exact last, done⟩

theorem PoolsOk.exec (ok : PoolsOk cfg w) {c : PoolCall} (legal : c.Legal cfg w)
    (run : c.exec cfg w = .ok v) : PoolsOk cfg v := by
  cases c with
  | alloc size newPage large =>
      obtain ⟨m, t, done, ok'⟩ := ok.alloc large legal.1 legal.2
      rw [PoolCall.exec, done, ok_bind] at run
      cases run
      exact ok'
  | free b =>
      cases run
      exact ok.free legal
  | prealloc size newPages =>
      obtain ⟨t, done, ok'⟩ := ok.prealloc newPages legal.1 legal.2
      have whole : ssmMemPrealloc cfg size newPages w.pools = .ok t := by
        unfold ssmMemPrealloc
        simp only [if_neg (Nat.not_le_of_lt legal.1)]
        exact done
      rw [PoolCall.exec, whole, ok_bind] at run
      cases run
      exact ok'
  | write addr byte =>
      obtain ⟨b, hb, low, high⟩ := legal
      cases run
      exact ok.write hb fun i hi => Function.update_of_ne (by omega) _ _

theorem PoolRun.ok (run : PoolRun cfg w) : PoolsOk cfg w := by
  induction run with
  | init m => exact poolsOk_init cfg m
  | step run legal done ih => exact ih.exec legal done

/-- An address is that of a block of a pool: inside a page of the pool, at a
multiple of its block size. -/
def InPage (cfg : PoolConfig) (pages : List (Nat × Nat)) (p addr : Nat) : Prop :=
  ∃ page ∈ pagesOf pages p, ∃ k, addr = page + k * cfg.poolSize p ∧
    (k + 1) * cfg.poolSize p ≤ cfg.pageSize

/-- The allocator is safe and loses no block. -/
structure PoolsSafe (cfg : PoolConfig) (w : PoolWorld) : Prop where
  placed : ∀ b ∈ w.live, b.size ≤ cfg.poolSize (findPoolSize cfg b.size) ∧
    (∀ q < findPoolSize cfg b.size, cfg.poolSize q < b.size) ∧
    InPage cfg w.pools.pages (findPoolSize cfg b.size) b.addr
  apart : w.live.Pairwise fun b c => Apart b.addr (cfg.poolSize (findPoolSize cfg b.size))
    c.addr (cfg.poolSize (findPoolSize cfg c.size))
  lists : ∀ p < cfg.count, ∃ free, FreeList cfg w.pools p free ∧ free.Nodup ∧
    (∀ x ∈ free, InPage cfg w.pools.pages p x) ∧
    (∀ x ∈ free, ∀ b ∈ w.live,
      Apart b.addr (cfg.poolSize (findPoolSize cfg b.size)) x (cfg.poolSize p)) ∧
    free.length + (liveIn cfg w.live p).length =
      (pagesOf w.pools.pages p).length * (cfg.pageSize / cfg.poolSize p) ∧
    (free ≠ [] → ∀ size, findPoolSize cfg size = p → ∃ m t,
      (∀ newPage large, ssmMemAlloc cfg newPage large size w.pools = .ok (m, t)) ∧
        t.pages = w.pools.pages)

theorem inPage_of_mem {pages : List (Nat × Nat)} {x : Nat} (h : x ∈ blocksOf cfg pages p) :
    InPage cfg pages p x := by
  obtain ⟨page, hp, hx⟩ := mem_blocksOf.mp h
  obtain ⟨k, hk, rfl⟩ := mem_blocksAt.mp hx
  exact ⟨page, mem_pagesOf.mpr hp, k, rfl, block_inside hk⟩

theorem PoolsOk.live_apart (ok : PoolsOk cfg w) :
    w.live.Pairwise fun b c => Apart b.addr (cfg.poolSize (findPoolSize cfg b.size))
      c.addr (cfg.poolSize (findPoolSize cfg c.size)) := by
  have place : ∀ b ∈ w.live, b.addr ∈ blocksOf cfg w.pools.pages (findPoolSize cfg b.size) :=
    fun b hb => by
      obtain ⟨free, -, all⟩ := ok.lists _ (ok.served b hb)
      exact all.subset (List.mem_append_right _ (mem_liveIn hb))
  rw [List.pairwise_iff_getElem]
  intro i j hi hj lt
  have hb := List.getElem_mem hi
  have hc := List.getElem_mem hj
  generalize hbv : w.live[i] = b at hb
  generalize hcv : w.live[j] = c at hc
  refine blocks_apart ok.apart (place b hb) (place c hc) fun same => ?_
  obtain ⟨pool, addr⟩ := Prod.mk.inj same
  obtain ⟨free, -, all⟩ := ok.lists _ (ok.served b hb)
  have nodup := (List.nodup_append.mp (all.nodup_iff.mpr (nodup_blocksOf ok.apart))).2.1
  have differ := List.pairwise_filter.mp (List.pairwise_map.mp nodup)
  have here := List.pairwise_iff_getElem.mp differ i j hi hj lt
  rw [hbv, hcv] at here
  exact here (by simp) (by simp [pool]) addr

theorem PoolsOk.safe (ok : PoolsOk cfg w) : PoolsSafe cfg w where
  placed := fun b hb => by
    have served := ok.served b hb
    obtain ⟨fits, least⟩ := findPoolSize_spec served
    obtain ⟨free, -, all⟩ := ok.lists _ served
    exact ⟨fits, least, inPage_of_mem (all.subset (List.mem_append_right _ (mem_liveIn hb)))⟩
  apart := ok.live_apart
  lists := fun p hp => by
    obtain ⟨free, list, all⟩ := ok.lists p hp
    have nodup := all.nodup_iff.mpr (nodup_blocksOf ok.apart)
    refine ⟨free, list, (List.nodup_append.mp nodup).1,
      fun x hx => inPage_of_mem (all.subset (List.mem_append_left _ hx)),
      fun x hx b hb => ok.live_apart_free hb all hx, ?_, fun some' size pool => ?_⟩
    · rw [← List.length_append, all.length_eq, length_blocksOf]
    · have head : w.pools.freeListHead p ≠ endOfFreelist := fun h => some' (list.nil_iff.mpr h)
      generalize reads : findNextBlock cfg w.pools.bytes (cfg.poolSize p)
        (w.pools.freeListHead p) = next
      refine ⟨w.pools.freeListHead p,
        { w.pools with freeListHead := Function.update w.pools.freeListHead p next },
        fun newPage large => ?_, rfl⟩
      unfold ssmMemAlloc
      simp only [pool, if_neg (Nat.not_le_of_lt hp), if_neg head, ok_bind, reads]

/-- In every run the allocator is safe and loses no block. -/
theorem pools_safe (run : PoolRun cfg w) : PoolsSafe cfg w := run.ok.safe

end Runs

def runPoolCalls (cfg : PoolConfig) : List PoolCall → PoolWorld → Option PoolWorld
  | [], w => some w
  | c :: cs, w =>
      if c.Legal cfg w then
        match c.exec cfg w with
        | .ok v => runPoolCalls cfg cs v
        | .error _ => none
      else none

theorem PoolRun.of_runPoolCalls {cfg : PoolConfig} {w v : PoolWorld} {cs : List PoolCall}
    (run : PoolRun cfg w) (last : runPoolCalls cfg cs w = some v) : PoolRun cfg v := by
  induction cs generalizing w with
  | nil =>
      cases last
      exact run
  | cons c cs ih =>
      rw [runPoolCalls] at last
      split at last
      · rename_i legal
        split at last
        · rename_i u done
          exact ih (run.step legal done) last
        · cases last
      · cases last

/-- Blocks of two pools, a page added to a pool that is not empty, and zeros
written into a block that is freed afterwards. -/
def poolCalls : List PoolCall :=
  [.alloc 20 4096 0, .alloc 10 8192 0, .prealloc 64 [65536], .write 4096 0, .write 4097 0,
    .free ⟨4096, 20⟩, .alloc 30 0 0, .alloc 60 0 0]

theorem pools_safe_runs : ∃ w,
    runPoolCalls defaultPools poolCalls ⟨ssmMemInit fun _ => 255, []⟩ = some w ∧
      w.live.map Block.addr = [65536, 4096, 8192] ∧ PoolsSafe defaultPools w := by
  have ends : (runPoolCalls defaultPools poolCalls ⟨ssmMemInit fun _ => 255, []⟩).any
      (fun w => w.live.map Block.addr = [65536, 4096, 8192]) = true := by decide +kernel
  obtain ⟨w, last, live⟩ := (Option.any_eq_true _ _).mp ends
  exact ⟨w, last, of_decide_eq_true live, pools_safe (.of_runPoolCalls (.init _) last)⟩

end SsmRuntime
