import SsmRuntime.HeapCalls

/-!
The activation queue. It holds the live records whose `scheduled` flag is set,
once each, and is ordered by priority. Activation adds records to it; the loop
of the tick takes one of the least priority from it.
-/
namespace SsmRuntime

open BinaryHeap

def State.Scheduled (s : State) (a : ActPtr) : Prop :=
  a ∈ s.acts.dom ∧ (s.acts.val a).scheduled = true

def scheduledSet (s : State) : Finset ActPtr :=
  s.acts.dom.filter fun a => (s.acts.val a).scheduled = true

theorem mem_scheduledSet {s : State} {a : ActPtr} : a ∈ scheduledSet s ↔ s.Scheduled a := by
  simp [scheduledSet, State.Scheduled]

def State.runnable (s : State) : Multiset ActPtr := contents s.actQueue s.actQueueLen

@[simp] theorem runnable_withActQueue (s : State) (q : Nat → ActPtr) (n : Nat) :
    (s.withActQueue q n).runnable = contents q n := rfl

structure ActQueueOk (sizes : QueueSizes) (s : State) : Prop where
  len_le : s.actQueueLen ≤ sizes.act
  nodup : s.runnable.Nodup
  mem : ∀ a, a ∈ s.runnable ↔ s.Scheduled a
  ordered : Ordered s.priorityAt s.actQueue s.actQueueLen

/-- The queue is kept, and what it says of the records is as before. -/
theorem ActQueueOk.congr {sizes : QueueSizes} {s t : State} (ok : ActQueueOk sizes s)
    (actQueue : t.actQueue = s.actQueue) (actQueueLen : t.actQueueLen = s.actQueueLen)
    (scheduled : ∀ a, t.Scheduled a ↔ s.Scheduled a)
    (keys : ∀ a, s.Scheduled a → t.priorityAt a = s.priorityAt a) : ActQueueOk sizes t := by
  have runnable : t.runnable = s.runnable := by
    rw [State.runnable, actQueue, actQueueLen, State.runnable]
  refine ⟨actQueueLen ▸ ok.len_le, runnable ▸ ok.nodup, fun a => ?_, ?_⟩
  · rw [runnable, ok.mem, scheduled]
  · rw [actQueue, actQueueLen]
    refine ok.ordered.congr fun i h1 hn => keys _ ?_
    exact (ok.mem _).mp (mem_contents_of h1 hn)

theorem ActQueueOk.of_acts {sizes : QueueSizes} {s t : State} (ok : ActQueueOk sizes s)
    (acts : t.acts = s.acts) (actQueue : t.actQueue = s.actQueue)
    (actQueueLen : t.actQueueLen = s.actQueueLen) : ActQueueOk sizes t :=
  ok.congr actQueue actQueueLen (fun a => by rw [State.Scheduled, acts, State.Scheduled])
    fun a _ => by rw [State.priorityAt, acts, State.priorityAt]

/-- Only `scheduled` flags and the activation queue have changed: the records
of `A` are scheduled now. -/
structure Woken (s t : State) (A : ActPtr → Prop) : Prop where
  dom : t.acts.dom = s.acts.dom
  record : ∀ a, t.acts.val a = { s.acts.val a with scheduled := (t.acts.val a).scheduled }
  scheduled : ∀ a, (t.acts.val a).scheduled = true ↔ (s.acts.val a).scheduled = true ∨ A a
  heap : SameHeap s t
  numProcesses : t.numProcesses = s.numProcesses

theorem Woken.refl (s : State) : Woken s s fun _ => False :=
  ⟨rfl, fun _ => rfl, fun _ => by simp, SameHeap.refl s, rfl⟩

theorem Woken.trans {s t u : State} {A B : ActPtr → Prop} (h : Woken s t A) (k : Woken t u B) :
    Woken s u fun a => A a ∨ B a where
  dom := k.dom.trans h.dom
  record := fun a => by rw [k.record a, h.record a]
  scheduled := fun a => by rw [k.scheduled, h.scheduled, or_assoc]
  heap := h.heap.trans k.heap
  numProcesses := k.numProcesses.trans h.numProcesses

theorem Woken.congr {s t : State} {A B : ActPtr → Prop} (h : Woken s t A)
    (same : ∀ a, a ∈ s.acts.dom → (B a ↔ A a))
    (out : ∀ a, a ∉ s.acts.dom → (B a ↔ A a)) : Woken s t B where
  dom := h.dom
  record := h.record
  scheduled := fun a => by
    rw [h.scheduled]
    by_cases ha : a ∈ s.acts.dom
    · rw [same a ha]
    · rw [out a ha]
  heap := h.heap
  numProcesses := h.numProcesses

theorem Woken.iff {s t : State} {A B : ActPtr → Prop} (h : Woken s t A) (same : ∀ a, B a ↔ A a) :
    Woken s t B :=
  h.congr (fun a _ => same a) fun a _ => same a

theorem Woken.priorityAt {s t : State} {A : ActPtr → Prop} (h : Woken s t A) :
    t.priorityAt = s.priorityAt := by
  funext a
  rw [State.priorityAt, h.record a, State.priorityAt]

theorem Woken.scheduledSet {s t : State} {A : ActPtr → Prop} [DecidablePred A] (h : Woken s t A) :
    scheduledSet t = scheduledSet s ∪ s.acts.dom.filter A := by
  ext a
  rw [Finset.mem_union, mem_scheduledSet, mem_scheduledSet, Finset.mem_filter, State.Scheduled,
    State.Scheduled, h.dom, h.scheduled]
  tauto

theorem ActQueueOk.card {sizes : QueueSizes} {s : State} (ok : ActQueueOk sizes s) :
    (scheduledSet s).card = s.actQueueLen := by
  have same : scheduledSet s = s.runnable.toFinset := by
    ext a
    rw [mem_scheduledSet, Multiset.mem_toFinset, ok.mem]
  rw [same, Multiset.toFinset_card_of_nodup ok.nodup, State.runnable, card_contents]

/-- The state after `act` has been put into the queue. -/
theorem woken_setAct {s : State} {a : ActPtr} (q : Nat → ActPtr) (n : Nat) :
    Woken s ((s.setAct a { s.acts.val a with scheduled := true }).withActQueue q n) (· = a) where
  dom := rfl
  record := fun b => by
    by_cases hb : b = a
    · subst hb
      simp [State.setAct, State.withActQueue]
    · simp [State.setAct, State.withActQueue, Table.write_val_of_ne _ _ hb]
  scheduled := fun b => by
    by_cases hb : b = a
    · subst hb
      simp [State.setAct, State.withActQueue]
    · simp [State.setAct, State.withActQueue, Table.write_val_of_ne _ _ hb, hb]
  heap := ⟨rfl, rfl, rfl, rfl, rfl⟩
  numProcesses := rfl

/-- Activation: a record that is not queued yet is queued, if there is room. -/
theorem ssmActivate_spec {sizes : SafeSizes} {s : State} {a : ActPtr} (ok : ActQueueOk sizes s)
    (live : a ∈ s.acts.dom) :
    if (insert a (scheduledSet s)).card ≤ sizes.act then
      ∃ t, ssmActivate sizes a s = .ok t ∧ ActQueueOk sizes t ∧ Woken s t (· = a)
    else ∃ u, ssmActivate sizes a s = .error ⟨.thrown .exhaustedActQueue, u⟩ := by
  have small := ok.len_le
  have safe := sizes.act_lt
  unfold ssmActivate
  rw [State.loadAct_of_mem live, ok_bind]
  by_cases sched : (s.acts.val a).scheduled = true
  · rw [if_pos sched]
    have member : a ∈ scheduledSet s := mem_scheduledSet.mpr ⟨live, sched⟩
    rw [Finset.insert_eq_of_mem member, ok.card, if_pos small]
    refine ⟨s, rfl, ok, (Woken.refl s).dom, fun _ => rfl, fun b => ?_, SameHeap.refl s, rfl⟩
    constructor
    · exact Or.inl
    · rintro (h | rfl)
      · exact h
      · exact sched
  · have fresh : a ∉ scheduledSet s := fun h => sched (mem_scheduledSet.mp h).2
    rw [if_neg sched, Finset.card_insert_of_notMem fresh, ok.card]
    simp only [qIdx_of_lt (show s.actQueueLen + 1 < 2 ^ 16 by omega)]
    split
    · rename_i room
      rw [if_neg (by omega)]
      have inside : decide (1 ≤ s.actQueueLen + 1 ∧ s.actQueueLen + 1 ≤ s.actQueueLen + 1) = true :=
        by simp
      refine ⟨_, ?_, ?_, woken_setAct (percolateUp s.priorityAt a upRounds (s.actQueueLen + 1)
        s.actQueue) (s.actQueueLen + 1)⟩
      · unfold actQueuePercolateUp
        rw [ssmAssert_of inside, ok_bind]
        change (State.loadAct _ a >>= _) = _
        rw [State.loadAct_of_mem (s := { s with actQueueLen := s.actQueueLen + 1 }) live, ok_bind]
        rfl
      · have woken := woken_setAct (s := s) (a := a) (percolateUp s.priorityAt a upRounds
          (s.actQueueLen + 1) s.actQueue) (s.actQueueLen + 1)
        have cont : contents (percolateUp s.priorityAt a upRounds (s.actQueueLen + 1) s.actQueue)
            (s.actQueueLen + 1) = a ::ₘ s.runnable := by
          rw [contents_percolateUp _ _ _ _ (by omega) (Nat.le_refl _)]
          have added := contents_update (q := s.actQueue) a (h := s.actQueueLen + 1)
            (by omega) (Nat.le_refl _)
          rw [contents_succ s.actQueue, Multiset.cons_swap] at added
          simpa [State.runnable] using added
        refine ⟨room, ?_, fun b => ?_, ?_⟩
        · rw [runnable_withActQueue, cont, Multiset.nodup_cons, ok.mem]
          exact ⟨fun h => sched h.2, ok.nodup⟩
        · rw [runnable_withActQueue, cont, Multiset.mem_cons, ok.mem, State.Scheduled,
            State.Scheduled, woken.dom,
            woken.scheduled]
          constructor
          · rintro (rfl | ⟨live, old⟩)
            · exact ⟨live, Or.inr rfl⟩
            · exact ⟨live, Or.inl old⟩
          · rintro ⟨live, old | rfl⟩
            · exact Or.inr ⟨live, old⟩
            · exact Or.inl rfl
        · rw [woken.priorityAt]
          change Ordered _ (percolateUp _ _ _ _ _) (s.actQueueLen + 1)
          exact percolateUp_ordered _ _ _ _ (by omega) (Nat.le_refl _)
            (by rw [upRounds]; omega) ok.ordered.toLastHole fun c _ hc hn => by omega
    · rename_i full
      rw [if_pos (by omega)]
      exact ⟨_, rfl⟩

/-- Activation of several records, one after the other. -/
def activateAll (sizes : QueueSizes) : List ActPtr → State → Res
  | [], s => .ok s
  | a :: as, s => do
      let s ← ssmActivate sizes a s
      activateAll sizes as s

theorem activateAll_spec (sizes : SafeSizes) (as : List ActPtr) {s : State}
    (ok : ActQueueOk sizes s) (live : ∀ a, a ∈ as → a ∈ s.acts.dom) :
    if (scheduledSet s ∪ as.toFinset).card ≤ sizes.act then
      ∃ t, activateAll sizes as s = .ok t ∧ ActQueueOk sizes t ∧ Woken s t (· ∈ as)
    else ∃ u, activateAll sizes as s = .error ⟨.thrown .exhaustedActQueue, u⟩ := by
  induction as generalizing s with
  | nil =>
      have same : scheduledSet s ∪ ([] : List ActPtr).toFinset = scheduledSet s := by simp
      rw [same, ok.card, if_pos ok.len_le]
      exact ⟨s, rfl, ok, (Woken.refl s).iff fun a => by simp⟩
  | cons a as ih =>
      have ha : a ∈ s.acts.dom := live a (by simp)
      have first := ssmActivate_spec ok ha
      have all : scheduledSet s ∪ (a :: as).toFinset = insert a (scheduledSet s) ∪ as.toFinset := by
        ext b
        simp
      rw [all]
      split at first
      · obtain ⟨t, run, ok', woken⟩ := first
        have now : scheduledSet t = insert a (scheduledSet s) := by
          rw [woken.scheduledSet]
          ext b
          simp only [Finset.mem_union, Finset.mem_filter, Finset.mem_insert]
          constructor
          · rintro (h | ⟨-, rfl⟩)
            · exact Or.inr h
            · exact Or.inl rfl
          · rintro (rfl | h)
            · exact Or.inr ⟨ha, rfl⟩
            · exact Or.inl h
        have rest := ih ok' fun b hb => by
          rw [woken.dom]
          exact live b (by simp [hb])
        rw [now] at rest
        simp only [activateAll, run, ok_bind]
        split at rest
        · rename_i room
          obtain ⟨u, run', ok'', woken'⟩ := rest
          rw [if_pos room]
          exact ⟨u, run', ok'', (woken.trans woken').iff fun b => by simp⟩
        · rename_i full
          rw [if_neg full]
          exact rest
      · rename_i full
        obtain ⟨u, run⟩ := first
        rw [if_neg fun room => full (Nat.le_trans (Finset.card_le_card
          Finset.subset_union_left) room)]
        exact ⟨u, by simp only [activateAll, run, error_bind]⟩

/-- The record taken from the queue is scheduled no more; the rest stays. -/
structure Popped (s t : State) (a : ActPtr) : Prop where
  dom : t.acts.dom = s.acts.dom
  here : t.acts.val a = { s.acts.val a with scheduled := false }
  other : ∀ b, b ≠ a → t.acts.val b = s.acts.val b
  heap : SameHeap s t
  numProcesses : t.numProcesses = s.numProcesses

theorem Popped.priorityAt {s t : State} {a : ActPtr} (h : Popped s t a) :
    t.priorityAt = s.priorityAt := by
  funext b
  by_cases hb : b = a
  · rw [hb, State.priorityAt, h.here, State.priorityAt]
  · rw [State.priorityAt, h.other b hb, State.priorityAt]

theorem Popped.scheduled {s t : State} {a : ActPtr} (h : Popped s t a) (b : ActPtr) :
    t.Scheduled b ↔ s.Scheduled b ∧ b ≠ a := by
  by_cases hb : b = a
  · subst hb
    simp [State.Scheduled, h.here]
  · simp [State.Scheduled, h.dom, h.other b hb, hb]

theorem popped_setAct (s : State) (a : ActPtr) (q : Nat → ActPtr) (n : Nat) :
    Popped s ((s.setAct a { s.acts.val a with scheduled := false }).withActQueue q n) a where
  dom := rfl
  here := by simp [State.setAct, State.withActQueue]
  other := fun b hb => by simp [State.setAct, State.withActQueue, Table.write_val_of_ne _ _ hb]
  heap := ⟨rfl, rfl, rfl, rfl, rfl⟩
  numProcesses := rfl

theorem actQueuePercolateDown_spec {s : State} {x : ActPtr} (h1 : 1 ≤ s.actQueueLen)
    (small : s.actQueueLen < 2 ^ 15) :
    ∃ q, actQueuePercolateDown 1 x s = .ok (s.withActQueue q s.actQueueLen) ∧
      contents q s.actQueueLen = contents (Function.update s.actQueue 1 x) s.actQueueLen ∧
      (Hole s.priorityAt s.actQueue s.actQueueLen 1 →
        Ordered s.priorityAt q s.actQueueLen) := by
  have inside : decide (1 ≤ 1 ∧ 1 ≤ s.actQueueLen) = true := by simp; omega
  have enough : s.actQueueLen + 1 < 2 ^ (s.actQueueLen + 1) := Nat.lt_two_pow_self
  obtain ⟨q, run, same, -, order⟩ :=
    percolateDown_spec s.priorityAt x (s.actQueueLen + 1) 1 s.actQueueLen
      s.actQueue small (Nat.le_refl 1) h1 (by omega)
  refine ⟨q, ?_, same, fun h => order h fun h2 => absurd h2 (by omega)⟩
  unfold actQueuePercolateDown
  rw [ssmAssert_of inside, ok_bind, run]
  rfl

/-- Taking a record from the queue: one of the least priority comes out. -/
theorem tickPop_spec {sizes : SafeSizes} {s : State} (ok : ActQueueOk sizes s)
    (busy : s.actQueueLen ≠ 0) :
    ∃ a t, tickPop s = .ok (a, t) ∧ s.Scheduled a ∧ ActQueueOk sizes t ∧ Popped s t a ∧
      ∀ b, s.Scheduled b → s.priorityAt a ≤ s.priorityAt b := by
  obtain ⟨n, len⟩ : ∃ n, s.actQueueLen = n + 1 := ⟨s.actQueueLen - 1, by omega⟩
  have small := ok.len_le
  have safe := sizes.act_lt
  generalize ha : s.actQueue 1 = a
  have sched : s.Scheduled a := by
    rw [← ha]
    exact (ok.mem _).mp (mem_contents_of (Nat.le_refl 1) (by omega))
  have least : ∀ b, s.Scheduled b → s.priorityAt a ≤ s.priorityAt b := by
    intro b hb
    obtain ⟨i, h1, hn, rfl⟩ := mem_contents.mp ((ok.mem b).mpr hb)
    rw [← ha]
    exact ok.ordered.root_le i h1 hn
  have shrink : qIdx (s.actQueueLen + 2 ^ 16 - 1) = n := qIdx_pred len (by omega)
  have popped := popped_setAct s a
  generalize hu : s.setAct a { s.acts.val a with scheduled := false } = u at popped
  have keys : u.priorityAt = s.priorityAt := (popped s.actQueue n).priorityAt
  have queue : u.actQueue = s.actQueue := by rw [← hu]; rfl
  have cont : s.runnable = s.actQueue (n + 1) ::ₘ contents s.actQueue n := by
    rw [State.runnable, len, contents_succ]
  have sorted : Ordered s.priorityAt s.actQueue (n + 1) := len ▸ ok.ordered
  have filled : ∃ q, (if n ≠ 0 then actQueuePercolateDown 1 (s.actQueue (n + 1))
        (u.withActQueue s.actQueue n) else .ok (u.withActQueue s.actQueue n)) =
          .ok (u.withActQueue q n) ∧
      s.runnable = a ::ₘ contents q n ∧ Ordered s.priorityAt q n := by
    split
    · obtain ⟨q, run, same, order⟩ := actQueuePercolateDown_spec (s := u.withActQueue s.actQueue n)
        (x := s.actQueue (n + 1)) (show 1 ≤ n by omega) (show n < 2 ^ 15 by omega)
      refine ⟨q, run, ?_, ?_⟩
      · have moved := contents_update (q := s.actQueue) (s.actQueue (n + 1)) (Nat.le_refl 1)
          (show 1 ≤ n by omega)
        rw [cont, show contents q n = _ from same, ← ha]
        exact moved.symm
      · have := order (by
          change Hole u.priorityAt s.actQueue n 1
          rw [keys]
          exact sorted.toHole (Nat.le_succ n) 1)
        change Ordered u.priorityAt q n at this
        rwa [keys] at this
    · have zero : n = 0 := by omega
      subst zero
      exact ⟨s.actQueue, rfl, by rw [cont, ← ha], fun i h2 hn => by omega⟩
  obtain ⟨q, run, cont, order⟩ := filled
  refine ⟨a, _, ?_, sched, ?_, popped q n, least⟩
  · have lens : u.actQueueLen = n + 1 := by rw [← hu]; exact len
    rw [tickPop, ha]
    refine bind_eq_ok.mpr ⟨s.acts.val a, State.loadAct_of_mem sched.1, ?_⟩
    rw [hu]
    simp only [queue, lens]
    rw [show qIdx (n + 1 + 2 ^ 16 - 1) = n from len ▸ shrink]
    exact bind_eq_ok.mpr ⟨u.withActQueue q n, run, rfl⟩
  · have fresh := ok.nodup
    rw [cont, Multiset.nodup_cons] at fresh
    refine ⟨?_, fresh.2, fun b => ?_, ?_⟩
    · change n ≤ sizes.act
      omega
    · rw [(popped q n).scheduled, ← ok.mem, cont, Multiset.mem_cons]
      constructor
      · intro hb
        refine ⟨Or.inr hb, ?_⟩
        rintro rfl
        exact fresh.1 hb
      · rintro ⟨rfl | hb, hne⟩
        · exact absurd rfl hne
        · exact hb
    · rw [(popped q n).priorityAt]
      exact order

end SsmRuntime
