import SsmRuntime.Scheduler

/-!
What each operation does to the event queue. `EventQueueOk` says that the
queue holds exactly the live variables with a pending event, once each; it
does not speak of order. Order is `EventOrdered`, kept apart because a
variable whose key has just changed is out of place for a while.
-/
namespace SsmRuntime

open BinaryHeap

def State.queued (s : State) : Multiset Addr := contents s.eventQueue s.eventQueueLen

def State.Pending (s : State) (a : Addr) : Prop :=
  ∃ v, s.sv? a = some v ∧ v.laterTime ≠ ssmNever

structure EventQueueOk (s : State) : Prop where
  len_lt : s.eventQueueLen < 2 ^ 15
  nodup : s.queued.Nodup
  mem : ∀ a, a ∈ s.queued ↔ s.Pending a

def EventOrdered (s : State) : Prop :=
  Ordered s.laterTimeAt s.eventQueue s.eventQueueLen

@[simp] theorem queued_withQueue (s : State) (q : Nat → Addr) (n : Nat) :
    (s.withQueue q n).queued = contents q n := rfl

theorem pending_withQueue (s : State) (q : Nat → Addr) (n : Nat) (a : Addr) :
    (s.withQueue q n).Pending a ↔ s.Pending a := Iff.rfl

theorem State.Pending.laterTimeAt_ne {s : State} {a : Addr} (h : s.Pending a) :
    s.laterTimeAt a ≠ ssmNever := by
  obtain ⟨v, hv, hne⟩ := h
  rwa [State.laterTimeAt_of_sv? hv]

theorem pending_setSv {s : State} {var : Addr} {v w : Sv} (h : s.sv? var = some v) (a : Addr) :
    (s.setSv var w).Pending a ↔
      if a = var then w.laterTime ≠ ssmNever else s.Pending a := by
  by_cases ha : a = var
  · subst ha
    simp [State.Pending, State.sv?_setSv_self (w := w) h]
  · simp [State.Pending, State.sv?_setSv_of_ne w ha, ha]

theorem EventQueueOk.pos_of_pending {s : State} (ok : EventQueueOk s) {a : Addr}
    (h : s.Pending a) : ∃ i, 1 ≤ i ∧ i ≤ s.eventQueueLen ∧ s.eventQueue i = a :=
  mem_contents.mp ((ok.mem a).mpr h)

theorem EventQueueOk.pending_at {s : State} (ok : EventQueueOk s) {i : Nat} (h1 : 1 ≤ i)
    (hn : i ≤ s.eventQueueLen) : s.Pending (s.eventQueue i) :=
  (ok.mem _).mp (mem_contents_of h1 hn)

theorem EventQueueOk.index_unique {s : State} (ok : EventQueueOk s) {i j : Nat} (hi : 1 ≤ i)
    (hin : i ≤ s.eventQueueLen) (hj : 1 ≤ j) (hjn : j ≤ s.eventQueueLen)
    (same : s.eventQueue i = s.eventQueue j) : i = j :=
  BinaryHeap.index_unique ok.nodup hi hin hj hjn same

theorem findQueuedEvent_spec {s : State} {var : Addr} (h : var ∈ s.queued)
    (hk : s.laterTimeAt var ≠ ssmNever) :
    ∃ i, findQueuedEvent var s = .ok i ∧ 1 ≤ i ∧ i ≤ s.eventQueueLen ∧ s.eventQueue i = var := by
  unfold findQueuedEvent
  rw [ssmAssert_of (by simpa using hk), ok_bind]
  cases hf : (List.range' 1 s.eventQueueLen).find? (fun i => s.eventQueue i == var) with
  | none =>
      obtain ⟨i, h1, hn, hi⟩ := mem_contents.mp h
      have := List.find?_eq_none.mp hf i (by simp; omega)
      simp [hi] at this
  | some i =>
      have range := List.mem_of_find?_eq_some hf
      have found := List.find?_some hf
      simp only [List.mem_range'_1] at range
      exact ⟨i, rfl, range.1, by omega, by simpa using found⟩

/-- An entry placed in a hole keeps the other entries; off a true hole it
restores the order, and the root moves only for a strictly earlier entry. -/
theorem eventQueuePlace_spec {s : State} {hole : Nat} {var : Addr} {time : Nat}
    (small : s.eventQueueLen < 2 ^ 15) (h1 : 1 ≤ hole) (hn : hole ≤ s.eventQueueLen)
    (hk : s.laterTimeAt var = time) :
    ∃ q, eventQueuePlace hole var time s = .ok (s.withQueue q s.eventQueueLen) ∧
      contents q s.eventQueueLen =
        contents (Function.update s.eventQueue hole var) s.eventQueueLen ∧
      (Hole s.laterTimeAt s.eventQueue s.eventQueueLen hole →
        Ordered s.laterTimeAt q s.eventQueueLen) ∧
      (2 ≤ hole → s.laterTimeAt (s.eventQueue 1) ≤ time → q 1 = s.eventQueue 1) := by
  subst hk
  have inside : decide (1 ≤ hole ∧ hole ≤ s.eventQueueLen) = true := by simp [h1, hn]
  unfold eventQueuePlace
  split
  · rename_i down
    have enough : s.eventQueueLen < hole * 2 ^ (s.eventQueueLen + 1) := by
      have one : s.eventQueueLen + 1 < 2 ^ (s.eventQueueLen + 1) := Nat.lt_two_pow_self
      have := Nat.mul_le_mul_right (2 ^ (s.eventQueueLen + 1)) h1
      omega
    obtain ⟨q, run, same, frame, order⟩ :=
      percolateDown_spec s.laterTimeAt var (s.eventQueueLen + 1) hole
        s.eventQueueLen s.eventQueue small h1 hn enough
    refine ⟨q, ?_, same, fun h => order h ?_, fun h2 _ => frame 1 (by omega)⟩
    · unfold eventQueuePercolateDown
      rw [ssmAssert_of inside, ok_bind, run]
      rfl
    · intro h2
      rcases down with rfl | lt
      · omega
      · exact Nat.le_of_lt lt
  · rename_i up
    refine ⟨percolateUp s.laterTimeAt var upRounds hole s.eventQueue, ?_,
      contents_percolateUp _ _ _ _ h1 hn, fun h => ?_, fun h2 hr => ?_⟩
    · unfold eventQueuePercolateUp
      rw [ssmAssert_of inside, ok_bind]
      rfl
    · have h2 : 2 ≤ hole := by
        by_contra small
        exact up (Or.inl (by omega))
      have enough : hole < 2 ^ upRounds := by
        rw [upRounds]
        omega
      exact percolateUp_ordered _ _ _ _ h1 hn enough h
        (h.below_of_parent h2 (Nat.le_of_not_lt fun lt => up (Or.inr lt)))
    · exact percolateUp_root _ _ _ h2 hr

/-- The last entry moves into the place of the one at `hole`, whose key may
have changed already; the keys before that are `key₀`. -/
theorem fillLast_spec {s : State} {hole n : Nat} {key₀ : Addr → Nat}
    (small : n + 1 < 2 ^ 15) (len : s.eventQueueLen = n + 1) (h1 : 1 ≤ hole) (hn : hole ≤ n + 1)
    (off : ∀ i, 1 ≤ i → i ≤ n + 1 → i ≠ hole →
      s.laterTimeAt (s.eventQueue i) = key₀ (s.eventQueue i)) :
    ∃ q, (if hole < 1 + n then
          eventQueuePlace hole (s.eventQueue (n + 1)) (s.laterTimeAt (s.eventQueue (n + 1)))
            (s.withQueue s.eventQueue n)
        else .ok (s.withQueue s.eventQueue n)) = .ok (s.withQueue q n) ∧
      s.queued = s.eventQueue hole ::ₘ contents q n ∧
      (Ordered key₀ s.eventQueue (n + 1) →
        Ordered s.laterTimeAt q n ∧ (2 ≤ hole → q 1 = s.eventQueue 1)) := by
  have cont : s.queued = s.eventQueue (n + 1) ::ₘ contents s.eventQueue n := by
    rw [State.queued, len, contents_succ]
  split
  · rename_i inner
    obtain ⟨q, placed, same, order, root⟩ :=
      eventQueuePlace_spec (s := s.withQueue s.eventQueue n)
        (by simp only [State.withQueue_eventQueueLen]; omega) h1
        (by simp only [State.withQueue_eventQueueLen]; omega) rfl
    simp only [State.withQueue_eventQueueLen, State.withQueue_eventQueue,
      State.withQueue_laterTimeAt] at placed same order root
    refine ⟨q, placed, ?_, fun ho => ⟨order ?_, fun two => root two ?_⟩⟩
    · have moved := contents_update (q := s.eventQueue) (s.eventQueue (n + 1)) h1
        (show hole ≤ n by omega)
      rw [cont, same, moved]
    · exact (ho.toHole (by omega) hole).congr
        (fun i hi hin hne => off i hi (by omega) hne) (by omega)
    · rw [off 1 (by omega) (by omega) (by omega), off (n + 1) (by omega) (by omega) (by omega)]
      exact ho.root_le (n + 1) (by omega) (by omega)
  · rename_i last
    have hlast : hole = n + 1 := by omega
    refine ⟨s.eventQueue, rfl, by rw [cont, hlast], fun ho => ⟨?_, fun _ => rfl⟩⟩
    exact (ho.mono (show n ≤ n + 1 by omega)).congr
      fun i hi hin => off i hi (by omega) (by omega)

/-- Taking one variable out: the last entry fills its place. -/
theorem ssmUnschedule_spec {s : State} {a : Addr} {v : Sv} (ok : EventQueueOk s)
    (hv : s.sv? a = some v) (hp : v.laterTime ≠ ssmNever) :
    ∃ q n, ssmUnschedule a s =
        .ok ((s.setSv a { v with laterTime := ssmNever }).withQueue q n) ∧
      s.eventQueueLen = n + 1 ∧ s.queued = a ::ₘ contents q n ∧
      (EventOrdered s →
        Ordered (s.setSv a { v with laterTime := ssmNever }).laterTimeAt q n ∧
        (s.eventQueue 1 ≠ a → q 1 = s.eventQueue 1)) := by
  have pend : s.Pending a := ⟨v, hv, hp⟩
  obtain ⟨hole, found, h1, hn, hq⟩ := findQueuedEvent_spec ((ok.mem a).mpr pend) pend.laterTimeAt_ne
  obtain ⟨n, len⟩ : ∃ n, s.eventQueueLen = n + 1 := ⟨s.eventQueueLen - 1, by omega⟩
  have bound := ok.len_lt
  have shrink : qIdx (s.eventQueueLen + 2 ^ 16 - 1) = n := qIdx_pred len (by omega)
  have off : ∀ i, 1 ≤ i → i ≤ n + 1 → i ≠ hole →
      (s.setSv a { v with laterTime := ssmNever }).laterTimeAt (s.eventQueue i) =
        s.laterTimeAt (s.eventQueue i) := by
    intro i hi hin hne
    refine State.laterTimeAt_setSv_of_ne s _ fun same => hne ?_
    exact ok.index_unique hi (by omega) h1 hn (by rw [same, hq])
  obtain ⟨q, filled, cont, order⟩ :=
    fillLast_spec (s := s.setSv a { v with laterTime := ssmNever }) (by omega) len h1
      (by omega) off
  refine ⟨q, n, ?_, len, by rw [← hq]; exact cont, fun ho => ?_⟩
  · unfold ssmUnschedule
    rw [State.loadSv_of_sv? hv, ok_bind, if_neg hp, found, ok_bind, ← filled]
    simp only [State.setSv_eventQueueLen, State.setSv_eventQueue, shrink]
    rw [len]
    rfl
  · have sorted : Ordered s.laterTimeAt s.eventQueue (n + 1) := len ▸ ho
    refine ⟨(order sorted).1, fun hroot => (order sorted).2 ?_⟩
    by_contra one
    have : hole = 1 := by omega
    exact hroot (by rw [← this, hq])

theorem EventQueueOk.congr {s t : State} (ok : EventQueueOk s)
    (queue : t.eventQueue = s.eventQueue) (len : t.eventQueueLen = s.eventQueueLen)
    (pend : ∀ a, t.Pending a ↔ s.Pending a) : EventQueueOk t where
  len_lt := by rw [len]; exact ok.len_lt
  nodup := by
    have : t.queued = s.queued := by rw [State.queued, queue, len, State.queued]
    rw [this]
    exact ok.nodup
  mem := fun a => by
    have : t.queued = s.queued := by rw [State.queued, queue, len, State.queued]
    rw [this, pend, ok.mem]

theorem EventOrdered.congr {s t : State} (ho : EventOrdered s)
    (queue : t.eventQueue = s.eventQueue) (len : t.eventQueueLen = s.eventQueueLen)
    (body : ∀ a, a ∈ s.queued → (t.objs.val a).body = (s.objs.val a).body) : EventOrdered t := by
  unfold EventOrdered
  rw [queue, len]
  refine Ordered.congr ho fun i h1 hn => ?_
  simp [State.laterTimeAt, State.svAt, body _ (mem_contents_of h1 hn)]

theorem laterTimeAt_setSv_same {s : State} {var : Addr} {v w : Sv} (hv : s.sv? var = some v)
    (time : w.laterTime = v.laterTime) :
    (s.setSv var w).laterTimeAt = s.laterTimeAt := by
  funext b
  by_cases hb : b = var
  · subst hb
    rw [State.laterTimeAt_setSv_self, time, State.laterTimeAt_of_sv? hv]
  · exact State.laterTimeAt_setSv_of_ne s _ hb

theorem EventQueueOk.setSv_same {s : State} {var : Addr} {v w : Sv} (ok : EventQueueOk s)
    (hv : s.sv? var = some v) (time : w.laterTime = v.laterTime) :
    EventQueueOk (s.setSv var w) :=
  ok.congr rfl rfl fun a => by
    rw [pending_setSv hv]
    split
    · rename_i ha
      subst ha
      simp [State.Pending, hv, time]
    · rfl

theorem EventOrdered.setSv_same {s : State} {var : Addr} {v w : Sv} (ho : EventOrdered s)
    (hv : s.sv? var = some v) (time : w.laterTime = v.laterTime) :
    EventOrdered (s.setSv var w) := by
  unfold EventOrdered
  rw [laterTimeAt_setSv_same hv time]
  exact ho

theorem EventQueueOk.remove {s : State} {a : Addr} {v w : Sv} {q : Nat → Addr} {n : Nat}
    (ok : EventQueueOk s) (hv : s.sv? a = some v) (hw : w.laterTime = ssmNever)
    (len : s.eventQueueLen = n + 1) (cont : s.queued = a ::ₘ contents q n) :
    EventQueueOk ((s.setSv a w).withQueue q n) where
  len_lt := by
    have := ok.len_lt
    simp only [State.withQueue_eventQueueLen]
    omega
  nodup := by
    have := ok.nodup
    rw [cont, Multiset.nodup_cons] at this
    exact this.2
  mem := fun b => by
    have fresh := ok.nodup
    rw [cont, Multiset.nodup_cons] at fresh
    rw [pending_withQueue, pending_setSv hv, queued_withQueue, ← ok.mem b, cont]
    by_cases hb : b = a
    · subst hb
      simp [hw, fresh.1]
    · simp [hb]

theorem EventQueueOk.add {s : State} {a : Addr} {v w : Sv} {q : Nat → Addr} {n : Nat}
    (ok : EventQueueOk s) (hv : s.sv? a = some v) (hold : v.laterTime = ssmNever)
    (hw : w.laterTime ≠ ssmNever) (small : n < 2 ^ 15)
    (cont : contents q n = a ::ₘ s.queued) :
    EventQueueOk ((s.setSv a w).withQueue q n) where
  len_lt := small
  nodup := by
    rw [queued_withQueue, cont, Multiset.nodup_cons]
    refine ⟨fun member => ?_, ok.nodup⟩
    obtain ⟨u, hu, hne⟩ := (ok.mem a).mp member
    rw [hv] at hu
    exact hne (Option.some.inj hu ▸ hold)
  mem := fun b => by
    rw [pending_withQueue, pending_setSv hv, queued_withQueue, cont, Multiset.mem_cons, ok.mem b]
    by_cases hb : b = a <;> simp [hb, hw]

theorem EventQueueOk.rekey {s : State} {a : Addr} {v w : Sv} {q : Nat → Addr}
    (ok : EventQueueOk s) (hv : s.sv? a = some v) (hold : v.laterTime ≠ ssmNever)
    (hw : w.laterTime ≠ ssmNever) (cont : contents q s.eventQueueLen = s.queued) :
    EventQueueOk ((s.setSv a w).withQueue q s.eventQueueLen) where
  len_lt := ok.len_lt
  nodup := by
    rw [queued_withQueue, cont]
    exact ok.nodup
  mem := fun b => by
    rw [pending_withQueue, pending_setSv hv, queued_withQueue, cont, ok.mem b]
    by_cases hb : b = a
    · subst hb
      simp only [if_true]
      exact ⟨fun _ => hw, fun _ => ⟨v, hv, hold⟩⟩
    · simp [hb]

/-- Scheduling a variable that has no pending event. -/
theorem ssmSvLaterUnsafe_insert {sizes : QueueSizes} {s : State} {var : Addr} {v : Sv}
    {when : Nat} (val : Value) (safe : sizes.event < 2 ^ 15) (hv : s.sv? var = some v)
    (idle : v.laterTime = ssmNever) (hnow : s.now ≤ when)
    (room : s.eventQueueLen < sizes.event) :
    ∃ q, ssmSvLaterUnsafe sizes var when val s =
        .ok ((s.setSv var { v with laterTime := when, laterValue := val }).withQueue q
          (s.eventQueueLen + 1)) ∧
      contents q (s.eventQueueLen + 1) = var ::ₘ s.queued ∧
      (EventOrdered s → var ∉ s.queued →
        Ordered (s.setSv var { v with laterTime := when, laterValue := val }).laterTimeAt q
          (s.eventQueueLen + 1)) := by
  have grow : qIdx (s.eventQueueLen + 1) = s.eventQueueLen + 1 := qIdx_of_lt (by omega)
  refine ⟨percolateUp (s.setSv var { v with laterTime := when }).laterTimeAt var upRounds
    (s.eventQueueLen + 1) s.eventQueue, ?_, ?_, fun ho fresh => ?_⟩
  · unfold ssmSvLaterUnsafe eventQueuePercolateUp
    rw [if_neg (by omega), State.loadSv_of_sv? hv, ok_bind, if_pos idle]
    simp only [State.setSv_eventQueueLen, grow]
    rw [if_neg (show ¬ sizes.event < s.eventQueueLen + 1 by omega), ssmAssert_of (by simp),
      ok_bind, ok_bind]
    have later : ∀ q, ((s.setSv var { v with laterTime := when }).withQueue q
        (s.eventQueueLen + 1)).sv? var = some { v with laterTime := when } :=
      fun q => State.sv?_setSv_self hv
    change ((((s.setSv var _).withQueue _ (s.eventQueueLen + 1)).loadSv var >>= _) = _)
    rw [State.loadSv_of_sv? (later _), ok_bind]
    exact congrArg (fun t : State => Except.ok (t.withQueue _ _)) (State.setSv_setSv s var _ _)
  · rw [contents_percolateUp _ _ _ _ (by omega) (Nat.le_refl _)]
    have added := contents_update (q := s.eventQueue) var (h := s.eventQueueLen + 1)
      (by omega) (Nat.le_refl _)
    rw [contents_succ s.eventQueue, Multiset.cons_swap] at added
    simpa [State.queued] using added
  · have keys : (s.setSv var { v with laterTime := when, laterValue := val }).laterTimeAt =
        (s.setSv var { v with laterTime := when }).laterTimeAt := by
      funext b
      by_cases hb : b = var
      · subst hb
        simp
      · rw [State.laterTimeAt_setSv_of_ne s _ hb, State.laterTimeAt_setSv_of_ne s _ hb]
    have enough : s.eventQueueLen + 1 < 2 ^ upRounds := by
      rw [upRounds]
      omega
    have old : Ordered (s.setSv var { v with laterTime := when }).laterTimeAt s.eventQueue
        s.eventQueueLen :=
      Ordered.congr ho fun i hi hn => State.laterTimeAt_setSv_of_ne s _ fun same =>
        fresh (same ▸ mem_contents_of hi hn)
    rw [keys]
    exact percolateUp_ordered _ _ _ _ (by omega) (Nat.le_refl _) enough old.toLastHole
      fun c _ hc hn => by omega

/-- A variable whose key alone has changed leaves a hole where it stands. -/
theorem EventOrdered.hole_of_rekey {s : State} {var : Addr} {w : Sv} (ok : EventQueueOk s)
    (ho : EventOrdered s) {hole : Nat} (h1 : 1 ≤ hole)
    (hn : hole ≤ s.eventQueueLen) (hq : s.eventQueue hole = var) :
    Hole (s.setSv var w).laterTimeAt s.eventQueue s.eventQueueLen hole :=
  (ho.toHole (Nat.le_refl _) hole).congr
    (fun i hi hin hne => State.laterTimeAt_setSv_of_ne s _ fun same =>
      hne (ok.index_unique hi hin h1 hn (by rw [same, hq]))) hn

/-- Finding a queued variable and placing it again under its present key. -/
theorem reposition_spec {s : State} (var : Addr) (when : Nat) (small : s.eventQueueLen < 2 ^ 15)
    (hm : var ∈ s.queued) (hk : s.laterTimeAt var = when) (hne : when ≠ ssmNever) :
    ∃ q, (findQueuedEvent var s >>= fun hole => eventQueuePlace hole var when s) =
        .ok (s.withQueue q s.eventQueueLen) ∧
      contents q s.eventQueueLen = s.queued ∧
      ((∀ hole, 1 ≤ hole → hole ≤ s.eventQueueLen → s.eventQueue hole = var →
        Hole s.laterTimeAt s.eventQueue s.eventQueueLen hole) →
        Ordered s.laterTimeAt q s.eventQueueLen) := by
  obtain ⟨hole, found, h1, hn, hq⟩ := findQueuedEvent_spec hm (by rw [hk]; exact hne)
  obtain ⟨q, placed, same, order, -⟩ := eventQueuePlace_spec small h1 hn hk
  refine ⟨q, ?_, ?_, fun h => order (h hole h1 hn hq)⟩
  · rw [found, ok_bind, placed]
  · rw [same, ← hq, Function.update_eq_self, State.queued]

theorem ssmNextEventTime_le {s : State} (ok : EventQueueOk s) (ho : EventOrdered s) {a : Addr}
    (h : s.Pending a) : ssmNextEventTime s ≤ s.laterTimeAt a := by
  obtain ⟨i, h1, hn, rfl⟩ := ok.pos_of_pending h
  rw [ssmNextEventTime, if_neg (by omega)]
  exact ho.root_le i h1 hn

theorem ssmNextEventTime_attained {s : State} (ok : EventQueueOk s) (h : s.eventQueueLen ≠ 0) :
    ∃ a, s.Pending a ∧ ssmNextEventTime s = s.laterTimeAt a := by
  refine ⟨s.eventQueue 1, ok.pending_at (Nat.le_refl 1) (by omega), ?_⟩
  rw [ssmNextEventTime, if_neg h]

theorem EventQueueOk.empty_iff {s : State} (ok : EventQueueOk s) :
    s.eventQueueLen = 0 ↔ ∀ a, ¬ s.Pending a := by
  constructor
  · intro h a ha
    obtain ⟨i, h1, hn, -⟩ := ok.pos_of_pending ha
    omega
  · intro h
    by_contra some
    exact h _ (ok.pending_at (Nat.le_refl 1) (by omega))

end SsmRuntime
