import SsmRuntime.Closures
import SsmRuntime.RefCounts

/-!
The effect of single operations on the balance of references: duplication,
allocation, and a change of the fields of one object. Waking and activation
leave the heap and the event queue alone.
-/
namespace SsmRuntime

open BinaryHeap

/-- Neither the heap nor the event queue has changed. -/
structure SameHeap (s t : State) : Prop where
  objs : t.objs = s.objs
  eventQueue : t.eventQueue = s.eventQueue
  eventQueueLen : t.eventQueueLen = s.eventQueueLen
  now : t.now = s.now
  triggers : t.triggers = s.triggers

theorem SameHeap.refl (s : State) : SameHeap s s := ⟨rfl, rfl, rfl, rfl, rfl⟩

theorem SameHeap.trans {s t u : State} (h : SameHeap s t) (k : SameHeap t u) : SameHeap s u :=
  ⟨k.objs.trans h.objs, k.eventQueue.trans h.eventQueue,
    k.eventQueueLen.trans h.eventQueueLen, k.now.trans h.now, k.triggers.trans h.triggers⟩

theorem SameHeap.sv? {s t : State} (h : SameHeap s t) (a : Addr) : t.sv? a = s.sv? a := by
  simp [State.sv?, h.objs]

theorem SameHeap.laterTimeAt {s t : State} (h : SameHeap s t) : t.laterTimeAt = s.laterTimeAt := by
  funext a
  simp [State.laterTimeAt, State.svAt, h.objs]

theorem SameHeap.pending {s t : State} (h : SameHeap s t) (a : Addr) :
    t.Pending a ↔ s.Pending a := by simp [State.Pending, h.sv?]

theorem SameHeap.ok {s t : State} (h : SameHeap s t) (ok : EventQueueOk s) : EventQueueOk t :=
  ok.congr h.eventQueue h.eventQueueLen h.pending

theorem SameHeap.ordered {s t : State} (h : SameHeap s t) (ho : EventOrdered s) :
    EventOrdered t :=
  ho.congr h.eventQueue h.eventQueueLen fun _ _ => by rw [h.objs]

theorem SameHeap.counted {s t : State} (h : SameHeap s t) {R : Holds} {D : Finset Addr}
    {H : Addr → Nat} (c : Counted R s D H) : Counted R t D H :=
  c.congr (by rw [h.objs]) (fun _ _ => by rw [h.objs]) fun _ => rfl

theorem ssmActivate_sameHeap {sizes : QueueSizes} {act : ActPtr} {s t : State}
    (h : ssmActivate sizes act s = .ok t) : SameHeap s t := by
  unfold ssmActivate at h
  obtain ⟨a, -, h⟩ := bind_eq_ok.mp h
  split at h
  · rw [← Except.ok.inj h]
    exact SameHeap.refl s
  · simp only at h
    split at h
    · simp [ssmThrow] at h
    · unfold actQueuePercolateUp at h
      obtain ⟨u, hu, h⟩ := bind_eq_ok.mp h
      obtain ⟨b, -, h⟩ := bind_eq_ok.mp h
      rw [← Except.ok.inj h, ssmAssert_eq_ok hu]
      exact ⟨rfl, rfl, rfl, rfl, rfl⟩

theorem wake_sameHeap {sizes : QueueSizes} {wakes : Nat → Bool} (fuel : Nat)
    (first : Option TriggerPtr) {s t : State} (h : wake sizes wakes fuel first s = .ok t) :
    SameHeap s t := by
  induction fuel generalizing first s with
  | zero =>
      cases first with
      | none =>
          rw [wake] at h
          rw [← Except.ok.inj h]
          exact SameHeap.refl s
      | some trig => simp [wake] at h
  | succ fuel ih =>
      cases first with
      | none =>
          rw [wake] at h
          rw [← Except.ok.inj h]
          exact SameHeap.refl s
      | some trig =>
          rw [wake] at h
          obtain ⟨tr, -, h⟩ := bind_eq_ok.mp h
          obtain ⟨a, -, h⟩ := bind_eq_ok.mp h
          obtain ⟨u, hu, h⟩ := bind_eq_ok.mp h
          refine SameHeap.trans ?_ (ih _ h)
          split at hu
          · exact ssmActivate_sameHeap hu
          · rw [← Except.ok.inj hu]
            exact SameHeap.refl s

theorem ssmEnterInt_sameHeap {p : ActPtr} {step : Nat} {parent : ActPtr} {priority depth : Nat}
    {frame : List Value} {s t : State}
    (h : ssmEnterInt p step parent priority depth frame s = .ok t) : SameHeap s t := by
  unfold ssmEnterInt at h
  obtain ⟨a, -, h⟩ := bind_eq_ok.mp h
  cases h
  exact ⟨rfl, rfl, rfl, rfl, rfl⟩

theorem tickPop_sameHeap {s t : State} {act : ActPtr} (h : tickPop s = .ok (act, t)) :
    SameHeap s t := by
  unfold tickPop at h
  obtain ⟨a, -, h⟩ := bind_eq_ok.mp h
  obtain ⟨u, hu, h⟩ := bind_eq_ok.mp h
  obtain ⟨-, rfl⟩ := Prod.mk.inj (Except.ok.inj h)
  split at hu
  · unfold actQueuePercolateDown at hu
    obtain ⟨w, hw, hu⟩ := bind_eq_ok.mp hu
    rw [ssmAssert_eq_ok hw] at hu
    split at hu
    · cases hu
      exact ⟨rfl, rfl, rfl, rfl, rfl⟩
    · cases hu
  · cases hu
    exact ⟨rfl, rfl, rfl, rfl, rfl⟩

/-- After the variable at the root has lost its event, it leaves the queue. -/
theorem tickRemoveTop_spec {s t : State} {var : Addr} {v w : Sv} (ok : EventQueueOk s)
    (hv : s.sv? var = some v) (hne : v.laterTime ≠ ssmNever) (first : s.eventQueue 1 = var)
    (same : SameHeap (s.setSv var w) t) :
    ∃ q n, tickRemoveTop t = .ok (t.withQueue q n) ∧ s.eventQueueLen = n + 1 ∧
      s.queued = var ::ₘ contents q n ∧
      (EventOrdered s → Ordered (s.setSv var w).laterTimeAt q n) := by
  obtain ⟨n, len⟩ : ∃ n, s.eventQueueLen = n + 1 := by
    obtain ⟨i, h1, hn, -⟩ := ok.pos_of_pending ⟨v, hv, hne⟩
    exact ⟨s.eventQueueLen - 1, by omega⟩
  have small := ok.len_lt
  have lastAt : t.eventQueueLen = n + 1 := by rw [same.eventQueueLen]; exact len
  have off : ∀ i, 1 ≤ i → i ≤ n + 1 → i ≠ 1 →
      t.laterTimeAt (t.eventQueue i) = s.laterTimeAt (t.eventQueue i) := by
    intro i hi hin hone
    rw [same.laterTimeAt]
    refine State.laterTimeAt_setSv_of_ne s _ fun eq => hone ?_
    rw [same.eventQueue] at eq
    exact ok.index_unique hi (by omega) (Nat.le_refl 1) (by omega) (by rw [first]; exact eq)
  obtain ⟨q, filled, cont, order⟩ :=
    fillLast_spec (s := t) (by omega) lastAt (Nat.le_refl 1) (by omega) off
  have shrink : qIdx (t.eventQueueLen + 2 ^ 16 - 1) = n := qIdx_pred lastAt (by omega)
  have queue : t.queued = s.queued := by
    rw [State.queued, same.eventQueue, same.eventQueueLen]
    rfl
  refine ⟨q, n, ?_, len, ?_, fun ho => ?_⟩
  · unfold tickRemoveTop
    simp only [shrink]
    rw [lastAt]
    by_cases zero : n = 0
    · rw [if_neg (by omega)] at filled
      rw [if_neg (by omega), ← filled]
      rfl
    · rw [if_pos (by omega), eventQueuePlace, if_pos (Or.inl rfl)] at filled
      rw [if_pos (by omega)]
      exact filled
  · rw [← queue, cont, same.eventQueue]
    exact congrArg (· ::ₘ contents q n) first
  · have sorted : Ordered s.laterTimeAt t.eventQueue (n + 1) := by
      rw [same.eventQueue]
      exact len ▸ ho
    have := (order sorted).1
    rwa [same.laterTimeAt] at this

/-- Only reference counts have changed, by one for each occurrence in `vs`. -/
structure Recounted (s t : State) (vs : List Value) : Prop where
  dom : t.objs.dom = s.objs.dom
  body : ∀ b, (t.objs.val b).body = (s.objs.val b).body
  count : ∀ b, b ∈ s.objs.dom →
    (t.objs.val b).refCount = (s.objs.val b).refCount + refsTo b vs
  eventQueue : t.eventQueue = s.eventQueue
  eventQueueLen : t.eventQueueLen = s.eventQueueLen
  rest : SameRest s t

theorem Recounted.refl (s : State) : Recounted s s [] :=
  ⟨rfl, fun _ => rfl, fun _ _ => rfl, rfl, rfl, SameRest.refl s⟩

theorem Recounted.trans {s t u : State} {v : Value} {vs : List Value} (h : Recounted s t [v])
    (k : Recounted t u vs) : Recounted s u (v :: vs) where
  dom := k.dom.trans h.dom
  body := fun b => (k.body b).trans (h.body b)
  count := fun b hb => by
    rw [k.count b (h.dom ▸ hb), h.count b hb, refsTo_cons b v vs, Nat.add_assoc]
  eventQueue := k.eventQueue.trans h.eventQueue
  eventQueueLen := k.eventQueueLen.trans h.eventQueueLen
  rest := h.rest.trans k.rest

theorem Recounted.sv? {s t : State} {vs : List Value} (h : Recounted s t vs) (a : Addr) :
    t.sv? a = s.sv? a := by
  by_cases ha : a ∈ s.objs.dom
  · exact sv?_of_body ha (h.dom ▸ ha) (h.body a)
  · simp [State.sv?, Table.get?, h.dom, ha]

theorem Recounted.ok {s t : State} {vs : List Value} (h : Recounted s t vs)
    (ok : EventQueueOk s) : EventQueueOk t :=
  ok.congr h.eventQueue h.eventQueueLen fun a => by simp [State.Pending, h.sv?]

theorem Recounted.ordered {s t : State} {vs : List Value} (h : Recounted s t vs)
    (ho : EventOrdered s) : EventOrdered t :=
  ho.congr h.eventQueue h.eventQueueLen fun a _ => h.body a

def Room (s : State) (vs : List Value) : Prop :=
  ∀ a, a ∈ s.objs.dom → (s.objs.val a).refCount + refsTo a vs ≤ 255

def Lives (s : State) (v : Value) : Prop := ∀ a, v = .heap a → a ∈ s.objs.dom

theorem Recounted.counted {s t : State} {vs : List Value} (h : Recounted s t vs) {R : Holds}
    {D : Finset Addr} {H : Addr → Nat} (c : Counted R s D H) (room : Room s vs)
    (lives : ∀ v, v ∈ vs → ∀ a, v = .heap a → a ∈ s.objs.dom \ D) :
    Counted R t D fun a => H a + refsTo a vs := by
  have fields : ∀ a, fieldRefs R t D a = fieldRefs R s D a := fun a =>
    fieldRefs_congr a (by rw [h.dom]) fun b _ => h.body b
  constructor
  · intro a ha
    rw [h.dom] at ha
    rw [h.count a (Finset.mem_sdiff.mp ha).1, c.live a ha, fields]
    omega
  · intro a ha
    rw [h.dom] at ha
    have absent : refsTo a vs = 0 := by
      by_contra some
      exact ha (lives _ (List.count_pos_iff.mp (Nat.pos_of_ne_zero some)) a rfl)
    have := c.dead a ha
    rw [fields]
    omega
  · intro a ha
    rw [h.dom] at ha
    have dom := (Finset.mem_sdiff.mp ha).1
    have := room a dom
    rw [h.count a dom]
    omega

theorem ssmDup_spec {v : Value} {s : State} (lives : Lives s v) (room : Room s [v]) :
    ∃ t, ssmDup v s = .ok t ∧ Recounted s t [v] := by
  cases v with
  | packed n =>
      refine ⟨s, rfl, rfl, fun _ => rfl, fun b _ => ?_, rfl, rfl, SameRest.refl s⟩
      rw [refsTo_packed, Nat.add_zero]
  | heap a =>
      have ha : a ∈ s.objs.dom := lives a rfl
      have small := room a ha
      rw [refsTo_heap_self] at small
      have load := State.loadObj_of_mem ha
      refine ⟨s.setObj a { s.objs.val a with refCount := ((s.objs.val a).refCount + 1) % 256 },
        by simp only [ssmDup, load, ok_bind], rfl, fun b => ?_, fun b _ => ?_, rfl, rfl,
        ⟨rfl, rfl, rfl, rfl, rfl, rfl⟩⟩
      · by_cases hb : b = a
        · subst hb
          simp [State.setObj]
        · simp [State.setObj, Table.write_val_of_ne _ _ hb]
      · by_cases hb : b = a
        · subst hb
          rw [refsTo_heap_self]
          simp only [State.setObj, Table.write_val_self]
          omega
        · rw [refsTo_heap_ne hb]
          simp [State.setObj, Table.write_val_of_ne _ _ hb]

theorem ssmDups_spec (vs : List Value) {s : State} (lives : ∀ v, v ∈ vs → Lives s v)
    (room : Room s vs) : ∃ t, ssmDups vs s = .ok t ∧ Recounted s t vs := by
  induction vs generalizing s with
  | nil => exact ⟨s, rfl, Recounted.refl s⟩
  | cons v vs ih =>
      have first : Room s [v] := fun a ha => by
        have := room a ha
        have := refsTo_cons a v vs
        omega
      obtain ⟨t, run, one⟩ := ssmDup_spec (lives v (by simp)) first
      have second : Room t vs := fun a ha => by
        rw [one.dom] at ha
        have := room a ha
        have := refsTo_cons a v vs
        rw [one.count a ha]
        omega
      obtain ⟨u, run', more⟩ := ih
        (fun w hw a ha => by rw [one.dom]; exact lives w (by simp [hw]) a ha) second
      refine ⟨u, ?_, one.trans more⟩
      simp only [ssmDups, run, ok_bind, run']

/-- One object takes other fields: the references `ins` move in, `outs` move out. -/
theorem Counted.rebody {R R' : Holds} {s t : State} {D : Finset Addr} {H : Addr → Nat}
    {a : Addr} {ins outs : List Value} (h : Counted R s D fun b => H b + refsTo b ins)
    (mem : a ∈ s.objs.dom \ D) (dom : t.objs.dom = s.objs.dom)
    (obj : ∀ b, b ≠ a → t.objs.val b = s.objs.val b)
    (count : (t.objs.val a).refCount = (s.objs.val a).refCount)
    (read : ∀ b, b ≠ a → R' b = R b)
    (moved : ∀ b, refsTo b (R' a (t.objs.val a).body) + refsTo b outs =
      refsTo b (R a (s.objs.val a).body) + refsTo b ins) :
    Counted R' t D fun b => H b + refsTo b outs := by
  have others : ∀ b, fieldRefs R' t (insert a D) b = fieldRefs R s (insert a D) b := by
    intro b
    unfold fieldRefs
    rw [dom]
    refine Finset.sum_congr rfl fun c hc => ?_
    have hca : c ≠ a := by
      rintro rfl
      simp at hc
    rw [obj c hca, read c hca]
  have fields : ∀ b, fieldRefs R' t D b + refsTo b outs = fieldRefs R s D b + refsTo b ins := by
    intro b
    have mem' : a ∈ t.objs.dom \ D := by rwa [dom]
    have := moved b
    rw [fieldRefs_insert b mem, fieldRefs_insert b mem', others]
    omega
  have counts : ∀ b, (t.objs.val b).refCount = (s.objs.val b).refCount := by
    intro b
    by_cases hb : b = a
    · rw [hb, count]
    · rw [obj b hb]
  constructor
  · intro b hb
    rw [dom] at hb
    have := fields b
    rw [counts, h.live b hb]
    omega
  · intro b hb
    rw [dom] at hb
    have := h.dead b hb
    have := fields b
    omega
  · intro b hb
    rw [dom] at hb
    rw [counts]
    exact h.small b hb

/-- A new object takes over the references put into its fields. -/
theorem Counted.alloc {s : State} {H : Addr → Nat} {p : Addr} {body : Body}
    (h : Counted plain s ∅ fun b => H b + refsTo b body.refs) (fresh : p ∉ s.objs.dom) :
    Counted plain { s with objs := s.objs.alloc p ⟨1, body⟩ } ∅
      fun b => H b + refsTo b [.heap p] := by
  have fields : ∀ b, fieldRefs plain { s with objs := s.objs.alloc p ⟨1, body⟩ } ∅ b =
      refsTo b body.refs + fieldRefs plain s ∅ b := by
    intro b
    simp only [fieldRefs, Finset.sdiff_empty, Table.alloc_dom]
    rw [Finset.sum_insert fresh]
    congr 1
    · simp [plain]
    · refine Finset.sum_congr rfl fun c hc => ?_
      rw [Table.alloc_val_of_ne]
      rintro rfl
      exact fresh hc
  have unused := h.dead p (by simpa using fresh)
  constructor
  · intro b hb
    rw [fields]
    by_cases hbp : b = p
    · subst hbp
      rw [refsTo_heap_self]
      simp only [Table.alloc_val_self]
      omega
    · have old : b ∈ s.objs.dom \ ∅ := by simpa [hbp] using hb
      have := h.live b old
      simp only [Table.alloc_val_of_ne _ _ hbp]
      rw [refsTo_heap_ne hbp]
      omega
  · intro b hb
    have out : b ≠ p ∧ b ∉ s.objs.dom := by simpa [not_or] using hb
    have := h.dead b (by simpa using out.2)
    rw [fields, refsTo_heap_ne out.1]
    omega
  · intro b hb
    by_cases hbp : b = p
    · subst hbp
      simp
    · have old : b ∈ s.objs.dom \ ∅ := by simpa [hbp] using hb
      simpa [Table.alloc_val_of_ne _ _ hbp] using h.small b old

end SsmRuntime
