import SsmRuntime.ObjectSizes
import SsmRuntime.PoolStatistics

/-!
The objects of the program in the memory of the allocator. A constructor keeps
its object in the block that `ssm_mem_alloc` returns for the size it computes,
and what a call frees goes back with the size that the header tells. Activation
records and other blocks are allocated and freed between the calls.
-/
namespace SsmRuntime

open BinaryHeap

section Memory
variable (cfg : PoolConfig)

def MemWorld.blocks (w : MemWorld) : Multiset Block := ↑(w.small ++ w.large)

/-- `ssm_mem_alloc` returns the block `b`. -/
def Allocated (w : MemWorld) (b : Block) (v : MemWorld) : Prop :=
  ∃ newPage large s, (MemCall.alloc b.size newPage large).Legal cfg w ∧
    ssmMemAllocCounted cfg newPage large b.size w.counted = .ok (b.addr, s) ∧
    v = if findPoolSize cfg b.size < cfg.count then ⟨s, b :: w.small, w.large⟩
      else ⟨s, w.small, b :: w.large⟩

/-- `ssm_mem_free(m, size)` ends the block at `m`, whatever the size is. -/
def MemWorld.freeAt (w : MemWorld) (m size : Nat) : MemWorld :=
  ⟨ssmMemFreeCounted cfg m size w.counted, w.small.filter (·.addr ≠ m),
    w.large.filter (·.addr ≠ m)⟩

def MemWorld.freeAll (w : MemWorld) (frees : List (Addr × Nat)) : MemWorld :=
  frees.foldl (fun w free => w.freeAt cfg free.1 free.2) w

end Memory

section MemorySteps
variable {cfg : PoolConfig} {w v : MemWorld} {b c : Block}

theorem MemWorld.mem_blocks : b ∈ w.blocks ↔ b ∈ w.small ∨ b ∈ w.large := by
  rw [MemWorld.blocks, Multiset.mem_coe, List.mem_append]

theorem MemOk.nodup_addr (ok : MemOk cfg w) : ((w.small ++ w.large).map Block.addr).Nodup := by
  refine List.pairwise_map.mpr (ok.blocks_apart.imp_of_mem fun hb hc apart same => ?_)
  obtain ⟨-, -, some', -⟩ := ok.block_inside hb
  obtain ⟨-, -, some'', -⟩ := ok.block_inside hc
  unfold Apart at apart
  omega

theorem MemOk.nodup_blocks (ok : MemOk cfg w) : w.blocks.Nodup :=
  Multiset.coe_nodup.mpr (List.Nodup.of_map _ ok.nodup_addr)

theorem MemOk.eq_of_addr (ok : MemOk cfg w) (hb : b ∈ w.blocks) (hc : c ∈ w.blocks)
    (same : b.addr = c.addr) : b = c :=
  List.inj_on_of_nodup_map ok.nodup_addr (Multiset.mem_coe.mp hb) (Multiset.mem_coe.mp hc) same

theorem MemOk.apart_of_ne (ok : MemOk cfg w) (hb : b ∈ w.blocks) (hc : c ∈ w.blocks)
    (differ : b ≠ c) : Apart b.addr (b.room cfg) c.addr (c.room cfg) := by
  have symm : Std.Symm fun b c : Block => Apart b.addr (b.room cfg) c.addr (c.room cfg) :=
    ⟨fun _ _ => Apart.symm⟩
  exact ok.blocks_apart.forall hb hc differ

theorem Allocated.ok (h : Allocated cfg w b v) (ok : MemOk cfg w) :
    MemOk cfg v ∧ v.blocks = b ::ₘ w.blocks := by
  obtain ⟨newPage, large, s, legal, run, rfl⟩ := h
  refine ⟨ok.exec legal ?_, ?_⟩
  · rw [MemCall.exec, run, ok_bind]
    change (if _ then _ else _) = _
    split
    all_goals rfl
  · split
    · rfl
    · exact Multiset.coe_eq_coe.mpr List.perm_middle

theorem filter_addr_of_mem {l : List Block} (once : (l.map Block.addr).Nodup) (hb : b ∈ l) :
    l.filter (·.addr ≠ b.addr) = l.erase b := by
  rw [(List.Nodup.of_map _ once).erase_eq_filter]
  refine List.filter_congr fun c hc => ?_
  have : c.addr = b.addr ↔ c = b :=
    ⟨List.inj_on_of_nodup_map once hc hb, congrArg Block.addr⟩
  by_cases same : c = b
  · simp [same]
  · simp [same, this]

theorem filter_addr_of_notMem {l : List Block} (none : b.addr ∉ l.map Block.addr) :
    l.filter (·.addr ≠ b.addr) = l := by
  refine List.filter_eq_self.mpr fun c hc => decide_eq_true fun same => none ?_
  exact same ▸ List.mem_map_of_mem hc

/-- A block goes back to its pool, also with another size of the same pool. -/
theorem MemOk.freeAt {size : Nat} (ok : MemOk cfg w) (live : b ∈ w.blocks)
    (pool : findPoolSize cfg size = findPoolSize cfg b.size) :
    MemOk cfg (w.freeAt cfg b.addr size) ∧ b ::ₘ (w.freeAt cfg b.addr size).blocks = w.blocks := by
  have once := ok.nodup_addr
  rw [List.map_append] at once
  obtain ⟨onceSmall, onceLarge, apart⟩ := List.nodup_append.mp once
  have counted : ssmMemFreeCounted cfg b.addr size w.counted =
      ssmMemFreeCounted cfg b.addr b.size w.counted := by
    simp only [ssmMemFreeCounted, ssmMemFree, pool]
  have live' := MemWorld.mem_blocks.mp live
  suffices step : (MemCall.free b).exec cfg w = .ok (w.freeAt cfg b.addr size) ∧
      b ::ₘ (w.freeAt cfg b.addr size).blocks = w.blocks from ⟨ok.free live' step.1, step.2⟩
  rw [MemCall.exec, MemWorld.freeAt, counted]
  rcases live' with hb | hb
  · have other : b.addr ∉ w.large.map Block.addr := fun h =>
      apart _ (List.mem_map_of_mem hb) _ h rfl
    rw [if_pos (ok.pools.served b hb), filter_addr_of_mem onceSmall hb,
      filter_addr_of_notMem other]
    refine ⟨rfl, Multiset.coe_eq_coe.mpr ?_⟩
    exact (List.perm_cons_erase hb).symm.append_right w.large
  · have other : b.addr ∉ w.small.map Block.addr := fun h =>
      apart _ h _ (List.mem_map_of_mem hb) rfl
    rw [if_neg (Nat.not_lt.mpr (ok.large b hb).1), filter_addr_of_mem onceLarge hb,
      filter_addr_of_notMem other]
    refine ⟨rfl, Multiset.coe_eq_coe.mpr ?_⟩
    exact (List.perm_middle.symm).trans ((List.perm_cons_erase hb).symm.append_left w.small)

/-- Blocks are freed one after the other, each with a size of its pool. -/
theorem MemOk.freeAll {rest : Multiset Block} (asked : Addr → Nat) (frees : List (Addr × Nat))
    (ok : MemOk cfg w)
    (blocks : w.blocks = ↑(frees.map fun free => Block.mk free.1 (asked free.1)) + rest)
    (pools : ∀ free ∈ frees, findPoolSize cfg free.2 = findPoolSize cfg (asked free.1)) :
    MemOk cfg (w.freeAll cfg frees) ∧ (w.freeAll cfg frees).blocks = rest := by
  induction frees generalizing w with
  | nil => exact ⟨ok, blocks.trans (zero_add rest)⟩
  | cons free frees ih =>
      rw [List.map_cons, ← Multiset.cons_coe, Multiset.cons_add] at blocks
      have live : Block.mk free.1 (asked free.1) ∈ w.blocks := blocks ▸ Multiset.mem_cons_self _ _
      obtain ⟨ok', less⟩ := ok.freeAt live (pools free List.mem_cons_self)
      exact ih ok' ((Multiset.cons_inj_right _).mp (less.trans blocks))
        fun f hf => pools f (List.mem_cons_of_mem _ hf)

end MemorySteps

/-- The heap of the program, the memory its objects lie in, how each was created,
and the live blocks that are not objects. -/
structure Site where
  world : World
  memory : MemWorld
  created : Addr → Creation
  others : List Block

def objectBlock (l : Layout) (created : Addr → Creation) (a : Addr) : Block :=
  ⟨a, (created a).allocSize l⟩

/-- The arguments are in their types, and a time is asked for only where both of
its sizes name one pool. -/
def Askable (cfg : PoolConfig) (l : Layout) (k : Creation) : Prop :=
  k.InTypes ∧ (k = .time → findPoolSize cfg l.sizeofTime = findPoolSize cfg l.sizeofSv)

/-- A constructor keeps its object in the block it has asked for. -/
def Made (cfg : PoolConfig) (l : Layout) (w v : MemWorld) : Option (Addr × Creation) → Prop
  | none => v = w
  | some (p, k) => Allocated cfg w ⟨p, k.allocSize l⟩ v

/-- What a call frees, in any order, each object with the size its header tells. -/
structure Frees (l : Layout) (s t : State) (frees : List (Addr × Nat)) : Prop where
  once : (frees.map Prod.fst).Nodup
  gone : (frees.map Prod.fst).toFinset = s.objs.dom \ t.objs.dom
  sizes : ∀ free ∈ frees, free.2 = dropFinalSize l (s.objs.val free.1).body.header

/-- Runs over the heap and the memory at once, from a world without objects. That
the address of a new object is free is not asked of the program. -/
inductive SiteRun (sizes : SafeSizes) (cfg : PoolConfig) (l : Layout)
    (P : World → Call → Prop) (w₀ : World) : Site → Prop
  | start (none : w₀.state.objs.dom = ∅) (m : ByteMemory.Bytes) (created : Addr → Creation) :
      SiteRun sizes cfg l P w₀ ⟨w₀, ⟨⟨ssmMemInit m, memCountersZero⟩, [], []⟩, created, []⟩
  | call {x : Site} {c : Call} {t : State} {v : MemWorld} {frees : List (Addr × Nat)}
      (before : SiteRun sizes cfg l P w₀ x)
      (legal : (∀ make ∈ c.creates x.world.state, make.1 ∉ x.world.state.objs.dom) →
        Legal x.world c)
      (cond : P x.world c) (asks : ∀ ask ∈ c.asks, Askable cfg l ask.2)
      (done : c.exec sizes x.world.state = .ok t)
      (made : Made cfg l x.memory v (c.creates x.world.state))
      (freed : Frees l x.world.state t frees) :
      SiteRun sizes cfg l P w₀ ⟨x.world.after c t, v.freeAll cfg frees,
        noted x.created (c.creates x.world.state), x.others⟩
  | allocate {x : Site} {b : Block} {v : MemWorld} (before : SiteRun sizes cfg l P w₀ x)
      (made : Allocated cfg x.memory b v) :
      SiteRun sizes cfg l P w₀ ⟨x.world, v, x.created, b :: x.others⟩
  | free {x : Site} {b : Block} (before : SiteRun sizes cfg l P w₀ x) (live : b ∈ x.others) :
      SiteRun sizes cfg l P w₀
        ⟨x.world, x.memory.freeAt cfg b.addr b.size, x.created, x.others.erase b⟩
  | prealloc {x : Site} {size : Nat} {newPages : List Nat} {v : MemWorld}
      (before : SiteRun sizes cfg l P w₀ x)
      (legal : (MemCall.prealloc size newPages).Legal cfg x.memory)
      (done : (MemCall.prealloc size newPages).exec cfg x.memory = .ok v) :
      SiteRun sizes cfg l P w₀ { x with memory := v }
  | write {x : Site} {addr : Nat} {byte : UInt8} {v : MemWorld}
      (before : SiteRun sizes cfg l P w₀ x)
      (legal : (MemCall.write addr byte).Legal cfg x.memory)
      (done : (MemCall.write addr byte).exec cfg x.memory = .ok v) :
      SiteRun sizes cfg l P w₀ { x with memory := v }

/-- The live blocks are those of the objects and the others, each once. -/
structure Placed (cfg : PoolConfig) (l : Layout) (x : Site) : Prop where
  memory : MemOk cfg x.memory
  headers : HeadersOk x.world.state x.created
  agrees : ∀ a ∈ x.world.state.objs.dom,
    findPoolSize cfg (dropFinalSize l (x.created a).header) =
      findPoolSize cfg ((x.created a).allocSize l)
  blocks : x.memory.blocks =
    x.world.state.objs.dom.val.map (objectBlock l x.created) + ↑x.others

section Calls
variable {sizes : QueueSizes} {s t : State} {c : Call}

/-- A call adds the object it creates, and no other. -/
theorem Call.created_spec (done : c.exec sizes s = .ok t) :
    (∀ a ∈ t.objs.dom, a ∈ s.objs.dom ∨ ∃ k, c.creates s = some (a, k)) ∧
    ∀ p k, c.creates s = some (p, k) → p ∈ t.objs.dom ∧ (c.asks = some (p, k) ∨ k ≠ .time) := by
  cases c with
  | newTime p _ | newAdt p _ _ | newSv p _ | newClosure p _ _ | newArray p _ | newBlob p _ =>
      cases done
      refine ⟨fun a ha => ?_, fun q k made => ?_⟩
      · rcases Finset.mem_insert.mp ha with rfl | old
        · exact Or.inr ⟨_, rfl⟩
        · exact Or.inl old
      · cases made
        exact ⟨Finset.mem_insert_self _ _, Or.inl rfl⟩
  | closureApply new child closure arg parent prio depth =>
      obtain ⟨⟨ret, u⟩, run, rest⟩ := bind_eq_ok.mp done
      obtain rfl := Except.ok.inj rest
      rcases ssmClosureApply_headers run with ⟨same, none⟩ | ⟨c, same, here, made⟩
      · rw [none]
        exact ⟨fun a ha => Or.inl (same a ha).1, fun p k h => absurd h (by simp)⟩
      · rw [made]
        refine ⟨fun a ha => ?_, fun p k h => ?_⟩
        · rcases Finset.mem_insert.mp (same a ha).1 with rfl | old
          · exact Or.inr ⟨_, rfl⟩
          · exact Or.inl old
        · cases h
          exact ⟨here, Or.inr (by simp)⟩
  | closureApplyFinal child closure arg parent prio depth =>
      obtain ⟨⟨ret, u⟩, run, rest⟩ := bind_eq_ok.mp done
      obtain rfl := Except.ok.inj rest
      exact ⟨fun a ha => Or.inl (ssmClosureApplyFinal_sameHeaders run a ha).1,
        fun p k h => by simp [creates, asks] at h⟩
  | dup _ | drop _ | assign _ _ _ | later _ _ _ | unschedule _ | sensitize _ _ | desensitize _
  | enter _ _ _ _ _ _ | activate _ | setNow _ | tickEnter | tickUpdate | tickPop =>
      refine ⟨fun a ha => Or.inl (Call.sameRead header_blind (by trivial) done a ha).1,
        fun p k h => ?_⟩
      simp [creates, asks] at h

/-- The block of an object goes back to the pool it came from. -/
theorem pool_of_askable {cfg : PoolConfig} {l : Layout} {k : Creation}
    (fits : k = .time → findPoolSize cfg l.sizeofTime = findPoolSize cfg l.sizeofSv) :
    findPoolSize cfg (dropFinalSize l k.header) = findPoolSize cfg (k.allocSize l) := by
  by_cases time : k = .time
  · subst time
    exact fits rfl
  · rw [(dropFinalSize_eq_iff l k).mpr time]

end Calls

section Runs
variable {sizes : SafeSizes} {cfg : PoolConfig} {l : Layout} {x : Site} {P : World → Call → Prop}
  {w₀ : World}

theorem Placed.object_mem (ok : Placed cfg l x) {a : Addr} (ha : a ∈ x.world.state.objs.dom) :
    objectBlock l x.created a ∈ x.memory.blocks := by
  rw [ok.blocks]
  exact Multiset.mem_add.mpr (Or.inl (Multiset.mem_map_of_mem _ ha))

theorem Placed.other_mem (ok : Placed cfg l x) {b : Block} (hb : b ∈ x.others) :
    b ∈ x.memory.blocks := by
  rw [ok.blocks]
  exact Multiset.mem_add.mpr (Or.inr hb)

/-- The allocator returns no address that is in use. -/
theorem Placed.fresh (ok : Placed cfg l x) {b : Block} {v : MemWorld}
    (made : Allocated cfg x.memory b v) : b.addr ∉ x.world.state.objs.dom := by
  intro used
  obtain ⟨ok', more⟩ := made.ok ok.memory
  have old := ok.object_mem used
  have same := ok'.eq_of_addr (b := b) (c := objectBlock l x.created b.addr)
    (more ▸ Multiset.mem_cons_self _ _) (more ▸ Multiset.mem_cons_of_mem old) rfl
  have once := more ▸ ok'.nodup_blocks
  exact (Multiset.nodup_cons.mp once).1 (same ▸ old)

/-- The objects with the one that is made, if there is one. -/
def withMade (D : Finset Addr) (make : Option (Addr × Creation)) : Finset Addr :=
  make.elim D fun made => insert made.1 D

theorem Placed.made {make : Option (Addr × Creation)} {v : MemWorld} (ok : Placed cfg l x)
    (made : Made cfg l x.memory v make) :
    MemOk cfg v ∧ v.blocks = (withMade x.world.state.objs.dom make).val.map
      (objectBlock l (noted x.created make)) + ↑x.others := by
  cases make with
  | none =>
      obtain rfl : v = x.memory := made
      exact ⟨ok.memory, ok.blocks⟩
  | some ask =>
      obtain ⟨p, k⟩ := ask
      obtain ⟨ok', more⟩ := Allocated.ok made ok.memory
      have fresh : p ∉ x.world.state.objs.dom := ok.fresh made
      refine ⟨ok', ?_⟩
      change v.blocks = (insert p x.world.state.objs.dom).val.map
        (objectBlock l (Function.update x.created p k)) + ↑x.others
      have new : objectBlock l (Function.update x.created p k) p = ⟨p, k.allocSize l⟩ := by
        rw [objectBlock, Function.update_self]
      have old : x.world.state.objs.dom.val.map (objectBlock l (Function.update x.created p k)) =
          x.world.state.objs.dom.val.map (objectBlock l x.created) :=
        Multiset.map_congr rfl fun a ha => by
          have differ : a ≠ p := fun same => fresh (same ▸ Finset.mem_val.mp ha)
          rw [objectBlock, objectBlock, Function.update_of_ne differ]
      rw [Finset.insert_val_of_notMem fresh, Multiset.map_cons, new, old, Multiset.cons_add,
        more, ok.blocks]

theorem noted_of_mem {make : Option (Addr × Creation)} {created : Addr → Creation}
    {D : Finset Addr} (fresh : ∀ made ∈ make, made.1 ∉ D) {a : Addr} (ha : a ∈ D) :
    noted created make a = created a := by
  cases make with
  | none => rfl
  | some ask =>
      have differ : a ≠ ask.1 := fun same => fresh ask rfl (same ▸ ha)
      exact Function.update_of_ne differ _ _

/-- What was there and what has been made is either there still or freed. -/
theorem Frees.split {c : Call} {s t : State} {frees : List (Addr × Nat)}
    (freed : Frees l s t frees) (done : c.exec sizes s = .ok t) :
    (withMade s.objs.dom (c.creates s)).val = ↑(frees.map Prod.fst) + t.objs.dom.val := by
  obtain ⟨old, made⟩ := Call.created_spec done
  have parts : withMade s.objs.dom (c.creates s) = (frees.map Prod.fst).toFinset ∪ t.objs.dom := by
    rw [freed.gone]
    ext a
    cases hmake : c.creates s with
    | none =>
        simp only [withMade, Option.elim_none, Finset.mem_union, Finset.mem_sdiff]
        refine ⟨fun ha => or_iff_not_imp_right.mpr fun gone => ⟨ha, gone⟩, ?_⟩
        rintro (⟨ha, -⟩ | ha)
        · exact ha
        · exact (old a ha).resolve_right fun ⟨k, hk⟩ => by rw [hmake] at hk; cases hk
    | some ask =>
        obtain ⟨p, k⟩ := ask
        simp only [withMade, Option.elim_some, Finset.mem_union, Finset.mem_sdiff,
          Finset.mem_insert]
        constructor
        · rintro (rfl | ha)
          · exact Or.inr (made a k hmake).1
          · exact or_iff_not_imp_right.mpr fun gone => ⟨ha, gone⟩
        · rintro (⟨ha, -⟩ | ha)
          · exact Or.inr ha
          · rcases old a ha with ha | ⟨k', hk⟩
            · exact Or.inr ha
            · rw [hmake] at hk
              cases hk
              exact Or.inl rfl
  have apart : Disjoint (frees.map Prod.fst).toFinset t.objs.dom := by
    rw [freed.gone]
    exact Finset.sdiff_disjoint
  rw [parts, ← Finset.disjUnion_eq_union _ _ apart, Finset.disjUnion_val, List.toFinset_val,
    freed.once.dedup]

/-- One call: its object is where the allocator tells, and what it frees is live. -/
theorem Placed.call {c : Call} {t : State} {v : MemWorld} {frees : List (Addr × Nat)}
    (ok : Placed cfg l x) (asks : ∀ ask ∈ c.asks, Askable cfg l ask.2)
    (done : c.exec sizes x.world.state = .ok t)
    (made : Made cfg l x.memory v (c.creates x.world.state))
    (freed : Frees l x.world.state t frees)
    (fresh : ∀ make ∈ c.creates x.world.state, make.1 ∉ x.world.state.objs.dom) :
    Placed cfg l ⟨x.world.after c t, v.freeAll cfg frees,
      noted x.created (c.creates x.world.state), x.others⟩ := by
  obtain ⟨old, new⟩ := Call.created_spec done
  obtain ⟨ok', blocks⟩ := ok.made made
  have keep : ∀ a ∈ x.world.state.objs.dom,
      noted x.created (c.creates x.world.state) a = x.created a := fun a => noted_of_mem fresh
  rw [freed.split done, Multiset.map_add, Multiset.map_coe, List.map_map, add_assoc] at blocks
  let asked := fun a => (noted x.created (c.creates x.world.state) a).allocSize l
  obtain ⟨memory, rest⟩ := ok'.freeAll asked frees blocks fun free hf => by
    have live : free.1 ∈ x.world.state.objs.dom := by
      have := freed.gone ▸ List.mem_toFinset.mpr (List.mem_map_of_mem (f := Prod.fst) hf)
      exact (Finset.mem_sdiff.mp this).1
    rw [freed.sizes free hf, (ok.headers _ live).1]
    change _ = findPoolSize cfg ((noted _ _ _).allocSize l)
    rw [keep _ live]
    exact ok.agrees _ live
  have agrees : ∀ a ∈ t.objs.dom,
      findPoolSize cfg (dropFinalSize l (noted x.created (c.creates x.world.state) a).header) =
        findPoolSize cfg (asked a) := fun a ha => by
    rcases old a ha with ha | ⟨k, hk⟩
    · change _ = findPoolSize cfg ((noted _ _ _).allocSize l)
      rw [keep a ha]
      exact ok.agrees a ha
    · change _ = findPoolSize cfg ((noted _ _ _).allocSize l)
      rw [hk, noted, Function.update_self]
      rcases (new a k hk).2 with ask | other
      · exact pool_of_askable (asks (a, k) ask).2
      · exact pool_of_askable fun time => absurd time other
  exact ⟨memory, Call.headersOk ok.headers (fun ask h => (asks ask h).1) done, agrees, rest⟩

/-- The run lies in memory, and as a run over the heap it needs no promise about
addresses. -/
theorem SiteRun.placed (run : SiteRun sizes cfg l P w₀ x) :
    Run sizes P w₀ x.world ∧ Placed cfg l x := by
  induction run with
  | start none m created =>
      have off : ∀ a, a ∉ w₀.state.objs.dom := Finset.eq_empty_iff_forall_notMem.mp none
      refine ⟨.refl, memOk_init m, fun a ha => absurd ha (off a), fun a ha => absurd ha (off a), ?_⟩
      rw [none]
      rfl
  | @call x c t v frees _ legal cond asks done made freed ih =>
      obtain ⟨run, ok⟩ := ih
      have fresh : ∀ make ∈ c.creates x.world.state, make.1 ∉ x.world.state.objs.dom := by
        intro make hmake
        rw [Option.mem_def.mp hmake] at made
        exact ok.fresh made
      exact ⟨run.step (legal fresh) cond done, ok.call asks done made freed fresh⟩
  | @allocate x b v _ made ih =>
      obtain ⟨run, ok⟩ := ih
      obtain ⟨memory, more⟩ := made.ok ok.memory
      refine ⟨run, memory, ok.headers, ok.agrees, ?_⟩
      change v.blocks = _ + ↑(b :: x.others)
      rw [more, ok.blocks, ← Multiset.cons_coe, Multiset.add_cons]
  | @free x b _ live ih =>
      obtain ⟨run, ok⟩ := ih
      obtain ⟨memory, less⟩ := ok.memory.freeAt (ok.other_mem live) rfl
      refine ⟨run, memory, ok.headers, ok.agrees, ?_⟩
      rw [ok.blocks, ← Multiset.cons_erase (Multiset.mem_coe.mpr live), Multiset.add_cons,
        Multiset.coe_erase] at less
      exact (Multiset.cons_inj_right b).mp less
  | @prealloc x size newPages v _ legal done ih =>
      obtain ⟨run, ok⟩ := ih
      refine ⟨run, ok.memory.exec legal done, ok.headers, ok.agrees, ?_⟩
      obtain ⟨s, -, same⟩ := bind_eq_ok.mp done
      cases same
      exact ok.blocks
  | @write x addr byte v _ legal done ih =>
      obtain ⟨run, ok⟩ := ih
      refine ⟨run, ok.memory.exec legal done, ok.headers, ok.agrees, ?_⟩
      cases done
      exact ok.blocks

/-- Each live object has its block, and the allocator counts it. -/
structure ObjectsPlaced (cfg : PoolConfig) (l : Layout) (x : Site) : Prop where
  inside : ∀ a ∈ x.world.state.objs.dom, 0 < a ∧
    (x.created a).payloadEnd l ≤ (x.created a).allocSize l ∧
    a + (x.created a).allocSize l ≤ 256 ^ cfg.word
  objects : ∀ a ∈ x.world.state.objs.dom, ∀ b ∈ x.world.state.objs.dom, a ≠ b →
    Apart a ((x.created a).allocSize l) b ((x.created b).allocSize l)
  others : ∀ a ∈ x.world.state.objs.dom, ∀ b ∈ x.others,
    Apart a ((x.created a).allocSize l) b.addr b.size
  free : ∀ p < cfg.count, ∃ free, FreeList cfg x.memory.counted.pools p free ∧
    ∀ a ∈ x.world.state.objs.dom, ∀ block ∈ free,
      Apart a ((x.created a).allocSize l) block (cfg.poolSize p)
  counted : x.memory.counted.counters.liveObjects =
    x.world.state.objs.dom.card + x.others.length

theorem Apart.shrink {a n b m n' m' : Nat} (h : Apart a n b m) (hn : n' ≤ n) (hm : m' ≤ m) :
    Apart a n' b m' := by
  unfold Apart at h ⊢
  omega

theorem MemOk.apart_free {w : MemWorld} {b : Block} (ok : MemOk cfg w) (hb : b ∈ w.blocks) {p : Nat}
    {free : List Nat}
    (all : (free ++ liveIn cfg w.small p).Perm (blocksOf cfg w.counted.pools.pages p)) {y : Nat}
    (hy : y ∈ free) : Apart b.addr (b.room cfg) y (cfg.poolSize p) := by
  rcases MemWorld.mem_blocks.mp hb with hb | hb
  · rw [ok.room_small hb]
    exact ok.pools.live_apart_free hb all hy
  · obtain ⟨page, hp, block⟩ := mem_blocksOf.mp (all.subset (List.mem_append_left _ hy))
    have inside := blocksAt_inside block
    have apart := ok.outside b hb _ hp
    rw [ok.room_large hb]
    unfold Apart at apart ⊢
    omega

theorem Placed.live (ok : Placed cfg l x) : x.memory.counted.counters.liveObjects =
    x.world.state.objs.dom.card + x.others.length := by
  have card := congrArg Multiset.card ok.blocks
  rw [MemWorld.blocks, Multiset.coe_card, List.length_append, Multiset.card_add, Multiset.card_map,
    Multiset.coe_card] at card
  rw [ok.memory.counts.live, PoolConfig.sizeT, Nat.mod_eq_of_lt ok.memory.live_lt, card]
  rfl

theorem Placed.objectsPlaced (ok : Placed cfg l x) : ObjectsPlaced cfg l x where
  inside := fun a ha => by
    obtain ⟨above, fits, -, room⟩ := ok.memory.block_inside (Multiset.mem_coe.mp (ok.object_mem ha))
    have := (x.created a).payloadEnd_le l (ok.headers a ha).2
    exact ⟨above, this, Nat.le_trans (Nat.add_le_add_left room a) fits⟩
  objects := fun a ha b hb differ => by
    have apart := ok.memory.apart_of_ne (ok.object_mem ha) (ok.object_mem hb)
      fun same => differ (congrArg Block.addr same)
    exact apart.shrink (ok.memory.block_inside (ok.object_mem ha)).2.2.2
      (ok.memory.block_inside (ok.object_mem hb)).2.2.2
  others := fun a ha b hb => by
    have once := ok.blocks ▸ ok.memory.nodup_blocks
    have differ : objectBlock l x.created a ≠ b := fun same =>
      Multiset.disjoint_left.mp (Multiset.nodup_add.mp once).2.2 (Multiset.mem_map_of_mem _ ha)
        (same ▸ Multiset.mem_coe.mpr hb)
    exact (ok.memory.apart_of_ne (ok.object_mem ha) (ok.other_mem hb) differ).shrink
      (ok.memory.block_inside (ok.object_mem ha)).2.2.2
      (ok.memory.block_inside (ok.other_mem hb)).2.2.2
  free := fun p hp => by
    obtain ⟨free, list, all⟩ := ok.memory.pools.lists p hp
    refine ⟨free, list, fun a ha block hblock => ?_⟩
    exact (ok.memory.apart_free (ok.object_mem ha) all hblock).shrink
      (ok.memory.block_inside (ok.object_mem ha)).2.2.2 (Nat.le_refl _)
  counted := ok.live

/-- What `main` reports at its end: the number of objects that have leaked. -/
def leakReport (st : MemStatistics) : Option Nat :=
  if st.liveObjects = 0 then none else some st.liveObjects

theorem HeapOk.mem_iff_kept {w : World} (ok : HeapOk w.state w.held) (acyclic : Acyclic w.state)
    (a : Addr) : a ∈ w.state.objs.dom ↔ Kept plain w.state w.held a := by
  refine ⟨ok.exactCounts.reachable acyclic a, fun kept => ?_⟩
  exact (Finset.mem_sdiff.mp (kept.mem ok.counted fun b => Nat.le_refl _)).1

end Runs

/-- An allocation that `alloc_page` and `alloc_mem` answer with the given addresses. -/
def MemWorld.tryAlloc (cfg : PoolConfig) (w : MemWorld) (b : Block) (newPage large : Nat) :
    Option MemWorld :=
  if (MemCall.alloc b.size newPage large).Legal cfg w then
    match ssmMemAllocCounted cfg newPage large b.size w.counted with
    | .ok (m, s) =>
        if m = b.addr then
          some (if findPoolSize cfg b.size < cfg.count then ⟨s, b :: w.small, w.large⟩
            else ⟨s, w.small, b :: w.large⟩)
        else none
    | .error _ => none
  else none

theorem Allocated.of_tryAlloc {cfg : PoolConfig} {w v : MemWorld} {b : Block} {newPage large : Nat}
    (done : w.tryAlloc cfg b newPage large = some v) : Allocated cfg w b v := by
  rw [MemWorld.tryAlloc] at done
  split at done
  · rename_i legal
    split at done
    · rename_i m s run
      split at done
      · rename_i same
        exact ⟨newPage, large, s, legal, same ▸ run, (Option.some.inj done).symm⟩
      · cases done
    · cases done
  · cases done

inductive SiteStep where
  | call (c : Call) (newPage large : Nat) (frees : List (Addr × Nat))
  | allocate (b : Block) (newPage large : Nat)
  | free (b : Block)

instance (cfg : PoolConfig) (l : Layout) (k : Creation) : Decidable (Askable cfg l k) :=
  inferInstanceAs (Decidable (_ ∧ (_ → _)))

/-- What is decided about a call before and after it is made. -/
def CallFits (cfg : PoolConfig) (l : Layout) (rank : Addr → Nat) (w : World) (c : Call) (t : State)
    (frees : List (Addr × Nat)) : Prop :=
  Allowed rank w c ∧ (∀ ask ∈ c.asks, Askable cfg l ask.2) ∧ (frees.map Prod.fst).Nodup ∧
    (frees.map Prod.fst).toFinset = w.state.objs.dom \ t.objs.dom ∧
    ∀ free ∈ frees, free.2 = dropFinalSize l (w.state.objs.val free.1).body.header

instance (cfg : PoolConfig) (l : Layout) (rank : Addr → Nat) (w : World) (c : Call) (t : State)
    (frees : List (Addr × Nat)) : Decidable (CallFits cfg l rank w c t frees) :=
  inferInstanceAs (Decidable (_ ∧ _ ∧ _ ∧ _ ∧ _))

/-- The steps one after the other, if each is as it should be. -/
def playSite (sizes : SafeSizes) (cfg : PoolConfig) (l : Layout) (rank : Addr → Nat)
    (B : World → Call → Bool) : List SiteStep → Site → Option Site
  | [], x => some x
  | .call c newPage large frees :: steps, x =>
      match c.exec sizes x.world.state with
      | .error _ => none
      | .ok t =>
          if CallFits cfg l rank x.world c t frees ∧ B x.world c = true then
            let make := c.creates x.world.state
            let v := match make with
              | none => some x.memory
              | some (p, k) => x.memory.tryAlloc cfg ⟨p, k.allocSize l⟩ newPage large
            v.bind fun v => playSite sizes cfg l rank B steps
              ⟨x.world.after c t, v.freeAll cfg frees, noted x.created make, x.others⟩
          else none
  | .allocate b newPage large :: steps, x =>
      (x.memory.tryAlloc cfg b newPage large).bind fun v =>
        playSite sizes cfg l rank B steps ⟨x.world, v, x.created, b :: x.others⟩
  | .free b :: steps, x =>
      if b ∈ x.others then
        playSite sizes cfg l rank B steps
          ⟨x.world, x.memory.freeAt cfg b.addr b.size, x.created, x.others.erase b⟩
      else none

theorem SiteRun.of_playSite {sizes : SafeSizes} {cfg : PoolConfig} {l : Layout}
    {rank : Addr → Nat} {B : World → Call → Bool} {P : World → Call → Prop} {w₀ : World}
    {steps : List SiteStep} {x y : Site} (meets : ∀ w c, B w c = true → P w c)
    (before : SiteRun sizes cfg l P w₀ x)
    (done : playSite sizes cfg l rank B steps x = some y) : SiteRun sizes cfg l P w₀ y := by
  induction steps generalizing x with
  | nil => exact Option.some.inj done ▸ before
  | cons step steps ih =>
      cases step with
      | call c newPage large frees =>
          rw [playSite] at done
          split at done
          · cases done
          · rename_i t run
            split at done
            · rename_i fits
              obtain ⟨⟨allowed, asks, once, gone, sizes'⟩, cond⟩ := fits
              obtain ⟨v, made, done⟩ := Option.bind_eq_some_iff.mp done
              refine ih (.call before (fun _ => allowed.legal) (meets _ _ cond) asks run ?_
                ⟨once, gone, sizes'⟩) done
              cases hmake : c.creates x.world.state with
              | none =>
                  simp only [hmake] at made
                  exact (Option.some.inj made).symm
              | some ask =>
                  simp only [hmake] at made
                  exact Allocated.of_tryAlloc made
            · cases done
      | allocate b newPage large =>
          obtain ⟨v, made, done⟩ := Option.bind_eq_some_iff.mp done
          exact ih (.allocate before (.of_tryAlloc made)) done
      | free b =>
          rw [playSite] at done
          split at done
          · rename_i live
            exact ih (.free before live) done
          · cases done

/-- A variable, a blob that is pending on it, an array that no pool serves with a
reference to the variable, and the block of a record. The update and the
assignment after it free the blob. -/
def siteSteps : List SiteStep :=
  [.call (.newSv 4096 (.packed 0)) 4096 0 [], .call (.newBlob 8192 10) 8192 0 [],
    .allocate ⟨4160, 40⟩ 0 0, .call (.later 4096 10 (.heap 8192)) 0 0 [],
    .call (.drop (.heap 8192)) 0 0 [], .call (.dup (.heap 4096)) 0 0 [],
    .call (.newArray 65536 (.heap 4096 :: List.replicate 130 (.packed 0))) 0 65536 [],
    .call (.setNow 10) 0 0 [], .call .tickUpdate 0 0 [],
    .call (.assign 4096 0 (.packed 3)) 0 0 [(8192, 16)]]

def siteEnds : List SiteStep :=
  [.call (.drop (.heap 65536)) 0 0 [(65536, 1056)], .free ⟨4160, 40⟩,
    .call (.drop (.heap 4096)) 0 0 [(4096, 48)]]

def siteRank (a : Addr) : Nat := if a = 65536 then 2 else if a = 4096 then 1 else 0

def siteStart : Site :=
  ⟨⟨boot, fun _ => 0⟩, ⟨⟨ssmMemInit fun _ => 255, memCountersZero⟩, [], []⟩, fun _ => .sv, []⟩

theorem siteRun_of_steps {steps : List SiteStep} {x : Site}
    (done : playSite defaultSafeSizes defaultPools lp64 siteRank holdsAll steps siteStart =
      some x) :
    SiteRun defaultSafeSizes defaultPools lp64 (fun w c => InPlace w c ∧ NoLoss w c)
      ⟨boot, fun _ => 0⟩ x :=
  .of_playSite (fun _ _ => noLoss_of_holdsAll) (.start rfl _ _) done

end SsmRuntime
