import Mathlib.Data.Finset.Max
import SsmRuntime.HeapCalls

/-!
Single operations on a heap that is exactly counted and whose event queue is
in order. Each operation hands back such a heap; the references it loses are
reported apart. Two conditions on the state before an operation decide whether
the queue stays in order and whether nothing is lost: both ask that certain
variables stay reachable without the reference that is about to be dropped.
-/
namespace SsmRuntime

open BinaryHeap

def Body.Shaped : Body → Prop
  | .closure _ count cap argv => count ≤ cap ∧ argv.length = cap ∧ cap < 256
  | _ => True

/-- The references `H` from outside and the fields account for every count. -/
structure HeapOk (s : State) (H : Addr → Nat) : Prop where
  counted : Counted plain s ∅ H
  alive : ∀ a, a ∈ s.objs.dom → 1 ≤ (s.objs.val a).refCount
  shaped : ∀ a, a ∈ s.objs.dom → (s.objs.val a).body.Shaped
  queue : EventQueueOk s
  order : EventOrdered s

/-- How many references to an object come from outside the heap. -/
def outside (s : State) (a : Addr) : Nat :=
  if a ∈ s.objs.dom then (s.objs.val a).refCount - fieldRefs plain s ∅ a else 0

/-- The plain reading, but for one object that is read as holding `vs`. -/
def moved (var : Addr) (vs : List Value) : Holds := Function.update plain var fun _ => vs

/-- What is still reachable once the program has gained `new` and given up `gone`. -/
def Survives (R : Holds) (s : State) (new gone : List Value) (a : Addr) : Prop :=
  Kept R s (fun b => outside s b + refsTo b new - refsTo b gone) a

def HeapPending (s : State) (a : Addr) : Prop :=
  ∃ v, s.sv? a = some v ∧ v.laterTime ≠ ssmNever ∧ ssmOnHeap v.laterValue = true

def Sv.pendingRefs (v : Sv) : List Value :=
  if v.laterTime = ssmNever then [] else [v.laterValue]

theorem Sv.refs_eq (v : Sv) : v.refs = v.value :: v.pendingRefs := by
  unfold Sv.refs Sv.pendingRefs
  split <;> rfl

theorem moved_self (var : Addr) (vs : List Value) (b : Body) : moved var vs var b = vs := by
  simp [moved]

theorem moved_of_ne {var a : Addr} (vs : List Value) (h : a ≠ var) : moved var vs a = plain a := by
  simp [moved, h]

theorem protected_moved {s : State} {S : Addr → Nat} {var : Addr} {vs : List Value}
    (kept : Kept (moved var vs) s S var) : Protected (moved var vs) s S := by
  intro a
  by_cases ha : a = var
  · exact Or.inr (ha ▸ kept)
  · exact Or.inl fun b => by rw [moved_of_ne vs ha, plain]

theorem HeapOk.outside_eq {s : State} {H : Addr → Nat} (h : HeapOk s H) : outside s = H := by
  funext a
  unfold outside
  split
  · rename_i ha
    have := h.counted.live a (by simpa using ha)
    omega
  · rename_i ha
    have := h.counted.dead a (by simpa using ha)
    omega

theorem HeapOk.kept {R : Holds} {s : State} {H : Addr → Nat} {new gone : List Value} {a : Addr}
    (h : HeapOk s H) (k : Survives R s new gone a) :
    Kept R s (fun b => H b + refsTo b new - refsTo b gone) a := by
  rw [Survives, h.outside_eq] at k
  exact k

theorem Counted.same {R : Holds} {s : State} {D : Finset Addr} {H K : Addr → Nat}
    (h : Counted R s D H) (same : ∀ a, K a = H a) : Counted R s D K :=
  h.congr rfl (fun _ _ => rfl) same

theorem HeapOk.same {s : State} {H K : Addr → Nat} (h : HeapOk s H) (same : ∀ a, K a = H a) :
    HeapOk s K :=
  ⟨h.counted.same same, h.alive, h.shaped, h.queue, h.order⟩

theorem HeapOk.sameHeap {s t : State} {H : Addr → Nat} (h : HeapOk s H) (k : SameHeap s t) :
    HeapOk t H where
  counted := k.counted h.counted
  alive := by rw [k.objs]; exact h.alive
  shaped := by rw [k.objs]; exact h.shaped
  queue := k.ok h.queue
  order := k.ordered h.order

theorem HeapOk.recounted {s t : State} {H : Addr → Nat} {vs : List Value} (h : HeapOk s H)
    (k : Recounted s t vs) (room : Room s vs) (lives : ∀ v, v ∈ vs → Lives s v) :
    HeapOk t fun a => H a + refsTo a vs where
  counted := k.counted h.counted room fun v hv a ha => by simpa using lives v hv a ha
  alive := fun a ha => by
    rw [k.dom] at ha
    rw [k.count a ha]
    exact Nat.le_add_right_of_le (h.alive a ha)
  shaped := fun a ha => by
    rw [k.body]
    exact h.shaped a (k.dom ▸ ha)
  queue := k.ok h.queue
  order := k.ordered h.order

/-- What is known of a heap after drops under some reading of it. -/
structure HeapOkAs (R : Holds) (s : State) (H : Addr → Nat) : Prop where
  counted : Counted R s ∅ H
  alive : ∀ a, a ∈ s.objs.dom → 1 ≤ (s.objs.val a).refCount
  shaped : ∀ a, a ∈ s.objs.dom → (s.objs.val a).body.Shaped
  queue : EventQueueOk s

theorem HeapOkAs.ordered {s : State} {H : Addr → Nat} (h : HeapOkAs plain s H)
    (ho : EventOrdered s) : HeapOk s H :=
  ⟨h.counted, h.alive, h.shaped, h.queue, ho⟩

theorem Dropped.heapOkAs {R : Holds} {s t : State} {S L : Addr → Nat} (d : Dropped R s t ∅ S L)
    (alive : ∀ a, a ∈ s.objs.dom → 1 ≤ (s.objs.val a).refCount)
    (shaped : ∀ a, a ∈ s.objs.dom → (s.objs.val a).body.Shaped) :
    HeapOkAs R t fun a => S a + L a where
  counted := d.counted
  alive := fun a ha => d.pos (fun b hb => alive b (by simpa using hb)) a (by simpa using ha)
  shaped := fun a ha => by
    rw [d.body a ha]
    exact shaped a (d.dom ha)
  queue := d.queue

theorem Dropped.nothing_lost {R : Holds} {s t : State} {S L : Addr → Nat}
    (d : Dropped R s t ∅ S L) (all : ∀ a, HeapPending s a → Kept R s S a) (a : Addr) :
    L a = 0 :=
  d.lost (fun b v hv hp hh => (Finset.mem_sdiff.mp (d.kept (all b ⟨v, hv, hp, hh⟩))).1) a

theorem Dropped.still_of_kept {R : Holds} {s t : State} {S L : Addr → Nat}
    (d : Dropped R s t ∅ S L) (all : ∀ a, s.Pending a → Kept R s S a) :
    t.eventQueue = s.eventQueue ∧ t.eventQueueLen = s.eventQueueLen :=
  d.still fun a ha => (Finset.mem_sdiff.mp (d.kept (all a ha))).1

section OneVariable
variable {s : State} {H : Addr → Nat} {var : Addr} {v w : Sv}

/-- The variable is read as holding `vs`; the rest of what it holds counts as
held from outside. -/
theorem Counted.moveOut (vs outs : List Value) (h : Counted plain s ∅ H)
    (hv : s.sv? var = some v)
    (split : ∀ b, refsTo b vs + refsTo b outs = refsTo b v.refs) :
    Counted (moved var vs) s ∅ fun b => H b + refsTo b outs := by
  obtain ⟨mem, body⟩ := State.sv?_eq_some.mp hv
  refine Counted.rebody (show Counted plain s ∅ fun b => H b + refsTo b [] from
    h.same fun b => by simp) (by simpa using mem) rfl (fun _ _ => rfl) rfl
    (fun b hb => moved_of_ne vs hb) fun b => ?_
  rw [moved_self, split b, body]
  rfl

/-- The variable takes new fields; its count stays. -/
theorem Counted.setSv {R : Holds} (ins outs : List Value)
    (h : Counted R s ∅ fun b => H b + refsTo b ins) (hv : s.sv? var = some v)
    (read : ∀ b, b ≠ var → plain b = R b)
    (balance : ∀ b, refsTo b w.refs + refsTo b outs = refsTo b (R var (.sv v)) + refsTo b ins) :
    Counted plain (s.setSv var w) ∅ fun b => H b + refsTo b outs := by
  obtain ⟨mem, body⟩ := State.sv?_eq_some.mp hv
  refine Counted.rebody h (by simpa using mem) rfl
    (fun b hb => by simp [State.setSv, State.setObj, Table.write_val_of_ne _ _ hb])
    (by simp [State.setSv, State.setObj]) read fun b => ?_
  rw [body]
  simpa [State.setSv, State.setObj, plain, Body.refs] using balance b

theorem alive_setSv (alive : ∀ a, a ∈ s.objs.dom → 1 ≤ (s.objs.val a).refCount) (a : Addr)
    (ha : a ∈ (s.setSv var w).objs.dom) : 1 ≤ ((s.setSv var w).objs.val a).refCount := by
  have before := alive a ha
  by_cases hav : a = var
  · subst hav
    simpa [State.setSv, State.setObj] using before
  · simpa [State.setSv, State.setObj, Table.write_val_of_ne _ _ hav] using before

theorem shaped_setSv (shaped : ∀ a, a ∈ s.objs.dom → (s.objs.val a).body.Shaped) (a : Addr)
    (ha : a ∈ (s.setSv var w).objs.dom) : ((s.setSv var w).objs.val a).body.Shaped := by
  by_cases hav : a = var
  · subst hav
    simp [State.setSv, State.setObj, Body.Shaped]
  · simpa [State.setSv, State.setObj, Table.write_val_of_ne _ _ hav] using shaped a ha

end OneVariable

theorem HeapOk.dup {s : State} {H : Addr → Nat} {v : Value} (h : HeapOk s H)
    (lives : Lives s v) (room : Room s [v]) :
    ∃ t, ssmDup v s = .ok t ∧ Recounted s t [v] ∧ HeapOk t fun a => H a + refsTo a [v] := by
  obtain ⟨t, run, k⟩ := ssmDup_spec lives room
  exact ⟨t, run, k, h.recounted k room fun u hu => by simpa [List.mem_singleton.mp hu] using lives⟩

theorem HeapOk.drop {s : State} {S : Addr → Nat} {v : Value}
    (h : HeapOk s fun a => S a + refsTo a [v]) :
    ∃ (t : State) (L : Addr → Nat), ssmDrop v s = .ok t ∧ HeapOk t (fun a => S a + L a) ∧
      ((∀ a, HeapPending s a → Kept plain s S a) → ∀ a, L a = 0) := by
  obtain ⟨t, L, run, d⟩ := ssmDrop_spec h.counted h.queue (protected_plain s S)
  exact ⟨t, L, run, (d.heapOkAs h.alive h.shaped).ordered (d.order h.order), d.nothing_lost⟩

theorem Sv.refsTo_refs (v : Sv) (b : Addr) :
    refsTo b v.refs = refsTo b [v.value] + refsTo b v.pendingRefs := by
  rw [v.refs_eq, refsTo_cons]

theorem Dropped.sv?_of_kept {R : Holds} {s t : State} {S L : Addr → Nat} {var : Addr} {v : Sv}
    (d : Dropped R s t ∅ S L) (hv : s.sv? var = some v) (kept : Kept R s S var) :
    t.sv? var = some v := by
  have here := (Finset.mem_sdiff.mp (d.kept kept)).1
  rw [sv?_of_body (d.dom here) here (d.body var here), hv]

theorem HeapOk.assign {sizes : QueueSizes} {s t : State} {H : Addr → Nat} {var : Addr} {v : Sv}
    {prio : Nat} {val : Value} (h : HeapOk s H) (hv : s.sv? var = some v) (held : 1 ≤ H var)
    (lives : Lives s val) (room : Room s [val]) (run : ssmAssign sizes var prio val s = .ok t) :
    ∃ L : Addr → Nat, HeapOk t (fun a => H a + L a) ∧
      ((∀ a, HeapPending s a → Survives (moved var v.pendingRefs) s [val] [] a) →
        ∀ a, L a = 0) := by
  obtain ⟨s₁, run₁, k, h₁⟩ := h.dup lives room
  have hv₁ : s₁.sv? var = some v := by rw [k.sv?, hv]
  have root : Kept (moved var v.pendingRefs) s₁ (fun a => H a + refsTo a [val]) var :=
    .root (Nat.le_add_right_of_le held)
  obtain ⟨s₂, L, run₂, d⟩ := ssmDrop_spec (v := v.value)
    (h₁.counted.moveOut v.pendingRefs [v.value] hv₁ fun b => by
      rw [v.refsTo_refs, Nat.add_comm]) h₁.queue (protected_moved root)
  have h₂ := d.heapOkAs h₁.alive h₁.shaped
  have hv₂ : s₂.sv? var = some v := d.sv?_of_kept hv₁ root
  have balanced : HeapOk (s₂.setSv var { v with value := val, lastUpdated := s₂.now })
      fun a => H a + L a := by
    refine ⟨?_, alive_setSv h₂.alive, shaped_setSv h₂.shaped, h₂.queue.setSv_same hv₂ rfl,
      (d.order h₁.order).setSv_same hv₂ rfl⟩
    have moveIn := Counted.setSv (H := fun a => H a + L a) [val] []
      (w := { v with value := val, lastUpdated := s₂.now })
      (h₂.counted.same fun b => by omega) hv₂ (fun b hb => (moved_of_ne _ hb).symm)
      fun b => by rw [moved_self, Sv.refsTo_refs, refsTo_nil, Nat.add_zero, Nat.add_comm]; rfl
    exact moveIn.same fun b => by simp
  refine ⟨L, ?_, fun all => d.nothing_lost fun a ha => ?_⟩
  · unfold ssmAssign ssmSvAssignUnsafe at run
    rw [run₁, ok_bind, State.loadSv_of_sv? hv₁, ok_bind, run₂, ok_bind, State.loadSv_of_sv? hv₂,
      ok_bind] at run
    exact balanced.sameHeap (wake_sameHeap _ _ run)
  · have old : HeapPending s a := by simpa [HeapPending, k.sv?] using ha
    exact (h.kept (all a old)).transfer (fun b => by simp) fun b _ => k.body b

theorem ssmSvLaterUnsafe_bounds {sizes : SafeSizes} {s t : State} {var : Addr} {v : Sv}
    {when : Nat} {val : Value} (ok : EventQueueOk s) (hv : s.sv? var = some v)
    (run : ssmSvLaterUnsafe sizes var when val s = .ok t) :
    s.now ≤ when ∧ (v.laterTime = ssmNever → s.eventQueueLen < sizes.event) := by
  unfold ssmSvLaterUnsafe at run
  split at run
  · simp [ssmThrow] at run
  · rename_i early
    refine ⟨by omega, fun idle => ?_⟩
    rw [State.loadSv_of_sv? hv, ok_bind, if_pos idle] at run
    have bound := ok.len_lt
    simp only [State.setSv_eventQueueLen, qIdx_of_lt (show s.eventQueueLen + 1 < 2 ^ 16 by omega)]
      at run
    split at run
    · simp [ssmThrow] at run
    · omega

theorem Sv.pendingRefs_idle {v : Sv} (idle : v.laterTime = ssmNever) : v.pendingRefs = [] := by
  rw [Sv.pendingRefs, if_pos idle]

theorem Sv.pendingRefs_of_ne {v : Sv} (h : v.laterTime ≠ ssmNever) :
    v.pendingRefs = [v.laterValue] := by rw [Sv.pendingRefs, if_neg h]

/-- Scheduling a variable that has no pending event: nothing is dropped. -/
theorem HeapOk.laterInsert {sizes : SafeSizes} {s t : State} {H : Addr → Nat} {var : Addr} {v : Sv}
    {when : Nat} {val : Value} (h : HeapOk s fun a => H a + refsTo a [val])
    (hv : s.sv? var = some v) (idle : v.laterTime = ssmNever) (soon : when ≠ ssmNever)
    (run : ssmSvLaterUnsafe sizes var when val s = .ok t) : HeapOk t H := by
  obtain ⟨early, room⟩ := ssmSvLaterUnsafe_bounds h.queue hv run
  obtain ⟨q, done, cont, order⟩ :=
    ssmSvLaterUnsafe_insert val sizes.event_lt hv idle early (room idle)
  have fresh : var ∉ s.queued := fun member => by
    obtain ⟨u, hu, hne⟩ := (h.queue.mem var).mp member
    rw [hv] at hu
    exact hne (Option.some.inj hu ▸ idle)
  have small : s.eventQueueLen + 1 < 2 ^ 15 := by
    have := room idle
    have := sizes.event_lt
    omega
  rw [done] at run
  cases run
  have balance := Counted.setSv (H := H) [val] []
    (w := { v with laterTime := when, laterValue := val }) h.counted hv (fun _ _ => rfl)
    fun b => by
      rw [Sv.refsTo_refs,
        Sv.pendingRefs_of_ne (v := { v with laterTime := _, laterValue := _ }) soon,
        refsTo_nil, Nat.add_zero, plain, Body.refs, v.refsTo_refs, v.pendingRefs_idle idle,
        refsTo_nil, Nat.add_zero]
  exact ⟨(balance.same fun b => by simp).congr rfl (fun _ _ => rfl) fun _ => rfl,
    alive_setSv h.alive, shaped_setSv h.shaped, h.queue.add hv idle soon small cont,
    order h.order fresh⟩

/-- Rescheduling: the key changes, the old pending value is dropped, and the
entry is placed again. The drop must leave the queue alone while the key is
out of place. -/
theorem HeapOk.laterReplace {sizes : SafeSizes} {s t : State} {H : Addr → Nat} {var : Addr}
    {v : Sv} {when : Nat} {val : Value} (h : HeapOk s fun a => H a + refsTo a [val])
    (hv : s.sv? var = some v) (pend : v.laterTime ≠ ssmNever) (soon : when ≠ ssmNever)
    (held : 1 ≤ H var)
    (still : v.laterTime ≠ when → ∀ a, s.Pending a →
      Kept (moved var [v.value]) s (fun a => H a + refsTo a [val]) a)
    (run : ssmSvLaterUnsafe sizes var when val s = .ok t) :
    ∃ L : Addr → Nat, HeapOk t (fun a => H a + L a) ∧
      ((∀ a, HeapPending s a →
        Kept (moved var [v.value]) s (fun a => H a + refsTo a [val]) a) → ∀ a, L a = 0) := by
  obtain ⟨early, -⟩ := ssmSvLaterUnsafe_bounds h.queue hv run
  generalize hw : { v with laterTime := when } = w at *
  have wTime : w.laterTime = when := by rw [← hw]
  have wLater : w.laterValue = v.laterValue := by rw [← hw]
  have wValue : w.value = v.value := by rw [← hw]
  have hv₁ : (s.setSv var w).sv? var = some w := State.sv?_setSv_self hv
  have keep : ∀ {a}, Kept (moved var [v.value]) s (fun a => H a + refsTo a [val]) a →
      Kept (moved var [v.value]) (s.setSv var w) (fun a => H a + refsTo a [val]) a := by
    intro a ha
    induction ha with
    | root hS => exact .root hS
    | @field a b hb ha ih =>
        refine .field ih ?_
        by_cases hbv : b = var
        · subst hbv
          rwa [moved_self] at ha ⊢
        · rwa [State.setSv, State.setObj, Table.write_val_of_ne _ _ hbv]
  have root : Kept (moved var [v.value]) (s.setSv var w) (fun a => H a + refsTo a [val]) var :=
    .root (Nat.le_add_right_of_le held)
  have balance := Counted.setSv (H := fun a => H a + refsTo a [val]) [] []
    (w := w) (h.counted.same fun b => by simp) hv (fun _ _ => rfl)
    fun b => by
      rw [Sv.refsTo_refs, Sv.pendingRefs_of_ne (by rwa [wTime]), plain, Body.refs, v.refsTo_refs,
        v.pendingRefs_of_ne pend, wLater, wValue]
  have queue₁ : EventQueueOk (s.setSv var w) :=
    h.queue.rekey (q := s.eventQueue) hv pend (by rwa [wTime]) rfl
  obtain ⟨s₂, L, run₂, d⟩ := ssmDrop_spec (v := v.laterValue)
    ((balance.same fun b => by simp).moveOut [v.value] [v.laterValue] hv₁
      fun b => by
        rw [w.refsTo_refs, w.pendingRefs_of_ne (by rwa [wTime]), wLater, wValue]) queue₁
    (protected_moved root)
  have h₂ := d.heapOkAs (alive_setSv h.alive) (shaped_setSv h.shaped)
  have hv₂ : s₂.sv? var = some w := d.sv?_of_kept hv₁ root
  obtain ⟨q, placed, cont, ordered⟩ := reposition_spec (s := s₂) var when
    h₂.queue.len_lt ((h₂.queue.mem var).mpr ⟨w, hv₂, by rwa [wTime]⟩)
    (by rw [State.laterTimeAt_of_sv? hv₂, wTime]) soon
  obtain ⟨hole, found, put⟩ := bind_eq_ok.mp placed
  have sorted : Ordered s₂.laterTimeAt q s₂.eventQueueLen := by
    refine ordered fun i h1 hn hi => ?_
    by_cases same : v.laterTime = when
    · have order₁ : EventOrdered (s.setSv var w) := h.order.setSv_same hv (by rw [wTime, same])
      exact (d.order order₁).toHole (Nat.le_refl _) i
    · obtain ⟨sameQueue, sameLen⟩ := d.still_of_kept fun a ha => by
        rw [pending_setSv hv] at ha
        split at ha
        · rename_i hav
          exact hav ▸ root
        · exact keep (still same a ha)
      rw [sameLen] at hn ⊢
      rw [sameQueue] at hi ⊢
      refine (h.order.hole_of_rekey (w := w) h.queue h1 hn hi).congr (fun j hj hjn _ => ?_) hn
      have alive : s.eventQueue j ∈ s₂.objs.dom := by
        have pendJ : s₂.Pending (s₂.eventQueue j) :=
          h₂.queue.pending_at hj (by rw [sameLen]; exact hjn)
        rw [sameQueue] at pendJ
        exact pendJ.mem
      simp [State.laterTimeAt, State.svAt, d.body _ alive]
  have final : HeapOk ((s₂.withQueue q s₂.eventQueueLen).setSv var { w with laterValue := val })
      fun a => H a + L a := by
    have moveIn := Counted.setSv (H := fun a => H a + L a) [val] []
      (w := { w with laterValue := val }) (h₂.counted.same fun b => by omega) hv₂
      (fun b hb => (moved_of_ne _ hb).symm) fun b => by
        rw [moved_self, Sv.refsTo_refs,
          Sv.pendingRefs_of_ne (v := { w with laterValue := val }) (by rwa [wTime]), refsTo_nil,
          Nat.add_zero, wValue]
    exact ⟨(moveIn.same fun b => by simp).congr rfl (fun _ _ => rfl) fun _ => rfl,
      alive_setSv h₂.alive, shaped_setSv h₂.shaped,
      h₂.queue.rekey hv₂ (by rwa [wTime]) (by rwa [wTime]) cont,
      EventOrdered.setSv_same (s := s₂.withQueue q s₂.eventQueueLen) sorted hv₂ rfl⟩
  refine ⟨L, ?_, fun all => d.nothing_lost fun a ha => ?_⟩
  · unfold ssmSvLaterUnsafe at run
    rw [if_neg (by omega), State.loadSv_of_sv? hv, ok_bind, if_neg pend, hw, run₂, ok_bind,
      found, ok_bind, put, ok_bind] at run
    rw [State.loadSv_of_sv? (s := s₂.withQueue q s₂.eventQueueLen) hv₂, ok_bind] at run
    cases run
    exact final
  · by_cases hav : a = var
    · exact hav ▸ root
    · obtain ⟨u, hu, rest⟩ := ha
      rw [State.sv?_setSv_of_ne w hav] at hu
      exact keep (all a ⟨u, hu, rest⟩)

theorem HeapOk.later {sizes : SafeSizes} {s t : State} {H : Addr → Nat} {var : Addr} {v : Sv}
    {when : Nat} {val : Value} (h : HeapOk s H) (hv : s.sv? var = some v) (held : 1 ≤ H var)
    (lives : Lives s val) (room : Room s [val]) (soon : when ≠ ssmNever)
    (still : v.laterTime ≠ ssmNever → v.laterTime ≠ when → ∀ a, s.Pending a →
      Survives (moved var [v.value]) s [val] [] a)
    (run : ssmLater sizes var when val s = .ok t) :
    ∃ L : Addr → Nat, HeapOk t (fun a => H a + L a) ∧
      ((v.laterTime ≠ ssmNever → ∀ a, HeapPending s a →
        Survives (moved var [v.value]) s [val] [] a) → ∀ a, L a = 0) := by
  obtain ⟨s₁, run₁, k, h₁⟩ := h.dup lives room
  have hv₁ : s₁.sv? var = some v := by rw [k.sv?, hv]
  have carry : ∀ {a}, Survives (moved var [v.value]) s [val] [] a →
      Kept (moved var [v.value]) s₁ (fun a => H a + refsTo a [val]) a := fun ha =>
    (h.kept ha).transfer (fun b => by simp) fun b _ => k.body b
  rw [ssmLater, run₁, ok_bind] at run
  by_cases idle : v.laterTime = ssmNever
  · exact ⟨fun _ => 0, (h₁.laterInsert hv₁ idle soon run).same fun a => by simp, fun _ _ => rfl⟩
  · obtain ⟨L, after, lost⟩ := h₁.laterReplace hv₁ idle soon held
      (fun ne a ha => carry (still idle ne a (by simpa [State.Pending, k.sv?] using ha))) run
    refine ⟨L, after, fun all => lost fun a ha => carry (all idle a ?_)⟩
    simpa [HeapPending, k.sv?] using ha

theorem HeapOk.unschedule {s t : State} {H : Addr → Nat} {var : Addr} {v : Sv} (h : HeapOk s H)
    (hv : s.sv? var = some v) (run : ssmUnschedule var s = .ok t) :
    ∃ L : Addr → Nat, HeapOk t (fun a => H a + L a) ∧
      ((v.laterTime ≠ ssmNever → ssmOnHeap v.laterValue = false) → ∀ a, L a = 0) := by
  by_cases idle : v.laterTime = ssmNever
  · rw [ssmUnschedule, State.loadSv_of_sv? hv, ok_bind, if_pos idle] at run
    cases run
    exact ⟨fun _ => 0, h.same fun a => by simp, fun _ _ => rfl⟩
  · obtain ⟨q, n, done, len, cont, order⟩ := ssmUnschedule_spec h.queue hv idle
    rw [done] at run
    cases run
    have balance := Counted.setSv (H := H) [] [v.laterValue]
      (w := { v with laterTime := ssmNever }) (h.counted.same fun b => by simp) hv
      (fun _ _ => rfl) fun b => by
        rw [Sv.refsTo_refs, Sv.pendingRefs_idle (v := { v with laterTime := ssmNever }) rfl,
          refsTo_nil, plain, Body.refs, v.refsTo_refs, v.pendingRefs_of_ne idle]
        simp
    refine ⟨fun a => refsTo a [v.laterValue], ⟨?_, alive_setSv h.alive, shaped_setSv h.shaped,
      h.queue.remove hv rfl len cont, (order h.order).1⟩, fun packed a => ?_⟩
    · exact balance.congr rfl (fun _ _ => rfl) fun _ => rfl
    · have := packed idle
      cases hval : v.laterValue with
      | packed n => exact refsTo_packed a n
      | heap p => simp [hval, ssmOnHeap] at this

/-- References lead to objects of lower rank. -/
def Ranked (rank : Addr → Nat) (s : State) : Prop :=
  ∀ b ∈ s.objs.dom, ∀ v ∈ plain b (s.objs.val b).body, ∀ a ∈ v.ptr?, rank a < rank b

instance (rank : Addr → Nat) (s : State) : Decidable (Ranked rank s) :=
  inferInstanceAs (Decidable (∀ b ∈ s.objs.dom, ∀ v ∈ plain b (s.objs.val b).body,
    ∀ a ∈ v.ptr?, rank a < rank b))

/-- No object reaches itself through fields. -/
def Acyclic (s : State) : Prop := ∃ rank, Ranked rank s

theorem exists_field_of_pos {R : Holds} {s : State} {D : Finset Addr} {a : Addr}
    (h : fieldRefs R s D a ≠ 0) :
    ∃ b, b ∈ s.objs.dom \ D ∧ Value.heap a ∈ R b (s.objs.val b).body := by
  obtain ⟨b, hb, pos⟩ := Finset.exists_ne_zero_of_sum_ne_zero h
  exact ⟨b, hb, List.count_pos_iff.mp (Nat.pos_of_ne_zero pos)⟩

/-- In an acyclic heap a live object stays reachable whatever it holds itself. -/
theorem HeapOk.kept_of_acyclic {s : State} {H : Addr → Nat} {var : Addr} (h : HeapOk s H)
    (acyclic : Acyclic s) (vs : List Value) (mem : var ∈ s.objs.dom) :
    Kept (moved var vs) s H var := by
  classical
  obtain ⟨rank, down⟩ := acyclic
  by_contra out
  -- A highest one of the objects that are not reachable and not below `var`.
  let U := s.objs.dom.filter fun a => ¬ Kept (moved var vs) s H a ∧ rank var ≤ rank a
  obtain ⟨a, ha, top⟩ := Finset.exists_max_image U rank ⟨var, by simp [U, mem, out]⟩
  obtain ⟨live, gone, above⟩ : a ∈ s.objs.dom ∧ ¬ Kept (moved var vs) s H a ∧ rank var ≤ rank a :=
    by simpa [U] using ha
  have count := h.counted.live a (by simpa using live)
  have one := h.alive a live
  have noRoot : H a = 0 := by
    by_contra some
    exact gone (.root (Nat.pos_of_ne_zero some))
  obtain ⟨b, hb, field⟩ := exists_field_of_pos (R := plain) (s := s) (D := ∅) (a := a) (by omega)
  have hbDom : b ∈ s.objs.dom := by simpa using hb
  have higher := down b hbDom _ field a rfl
  have other : b ≠ var := by
    rintro rfl
    omega
  have kept : Kept (moved var vs) s H b := by
    by_contra lost
    have := top b (by simp [U, hbDom, lost]; omega)
    omega
  exact gone (.field kept (by rwa [moved_of_ne vs other]))

theorem Acyclic.mono {s t : State} (acyclic : Acyclic s) (dom : t.objs.dom ⊆ s.objs.dom)
    (refs : ∀ b ∈ t.objs.dom, ∀ v ∈ (t.objs.val b).body.refs, v ∈ (s.objs.val b).body.refs) :
    Acyclic t := by
  obtain ⟨rank, down⟩ := acyclic
  exact ⟨rank, fun b hb v hv => down b (dom hb) v (refs b hb v hv)⟩

/-- The variable as its update leaves it. -/
def Sv.updated (v : Sv) (now : Nat) : Sv :=
  { v with value := v.laterValue, lastUpdated := now, laterTime := ssmNever }

/-- The old value of the variable at the root has been dropped, and the variable
is there still, at the root. -/
structure RootDropped (s t : State) (H L : Addr → Nat) (var : Addr) (v : Sv) : Prop where
  before : s.sv? var = some v
  due : v.laterTime = s.now
  pend : v.laterTime ≠ ssmNever
  run : ssmDrop v.value s = .ok t
  dropped : Dropped (moved var [v.laterValue]) s t ∅ H L
  here : t.sv? var = some v
  first : t.eventQueue 1 = var

theorem HeapOk.dropRoot {s : State} {H : Addr → Nat} (h : HeapOk s H) (acyclic : Acyclic s)
    (due : updateDue s) : ∃ v t L, RootDropped s t H L (s.eventQueue 1) v := by
  obtain ⟨pos, now⟩ := due
  generalize hvar : s.eventQueue 1 = var at *
  obtain ⟨v, hv, hne⟩ : s.Pending var := hvar ▸ h.queue.pending_at (Nat.le_refl 1) pos
  have root := h.kept_of_acyclic acyclic [v.laterValue] (State.sv?_eq_some.mp hv).1
  obtain ⟨t, L, run, d⟩ := ssmDrop_spec (v := v.value)
    (h.counted.moveOut [v.laterValue] [v.value] hv fun b => by
      rw [v.refsTo_refs, v.pendingRefs_of_ne hne, Nat.add_comm]) h.queue (protected_moved root)
  have hv₁ : t.sv? var = some v := d.sv?_of_kept hv root
  refine ⟨v, t, L, hv, ?_, hne, run, d, hv₁, ?_⟩
  · rw [← now, State.laterTimeAt_of_sv? hv]
  · rw [d.root h.order pos (by rw [hvar]; exact (State.sv?_eq_some.mp hv₁).1), hvar]

/-- The variable takes its pending value and leaves the queue, and nothing else does. -/
theorem RootDropped.remove {s t u : State} {H L : Addr → Nat} {var : Addr} {v : Sv}
    (h : HeapOk s H) (r : RootDropped s t H L var v)
    (same : SameHeap (t.setSv var (v.updated t.now)) u) :
    u.eventQueue 1 = var ∧ ∃ q n, tickRemoveTop u = .ok (u.withQueue q n) ∧
      u.queued = var ::ₘ contents q n ∧ HeapOk (u.withQueue q n) fun a => H a + L a := by
  have h₁ := r.dropped.heapOkAs h.alive h.shaped
  have idle : (v.updated t.now).laterTime = ssmNever := rfl
  obtain ⟨q, n, removed, len, contents₁, order⟩ :=
    tickRemoveTop_spec h₁.queue r.here r.pend r.first same
  have balance := Counted.setSv (H := fun a => H a + L a) [] [] (w := v.updated t.now)
    (h₁.counted.same fun b => by simp) r.here (fun b hb => (moved_of_ne _ hb).symm) fun b => by
      rw [moved_self, Sv.refsTo_refs, Sv.pendingRefs_idle idle]
      simp [Sv.updated]
  have final : HeapOk ((t.setSv var (v.updated t.now)).withQueue q n) fun a => H a + L a :=
    ⟨(balance.same fun b => by simp).congr rfl (fun _ _ => rfl) fun _ => rfl,
      alive_setSv h₁.alive, shaped_setSv h₁.shaped, h₁.queue.remove r.here idle len contents₁,
      order (r.dropped.order h.order)⟩
  refine ⟨by rw [same.eventQueue]; exact r.first, q, n, removed, ?_,
    final.sameHeap ⟨same.objs, rfl, rfl, same.now, same.triggers⟩⟩
  rw [State.queued, same.eventQueue, same.eventQueueLen]
  exact contents₁

/-- `ssm_update` after its drop. -/
theorem RootDropped.update_eq {sizes : QueueSizes} {s t : State} {H L : Addr → Nat} {var : Addr}
    {v : Sv} (r : RootDropped s t H L var v) :
    ssmUpdate sizes var s =
      wake sizes (fun _ => true) t.triggers.dom.card v.triggers
        (t.setSv var (v.updated t.now)) := by
  unfold ssmUpdate
  rw [State.loadSv_of_sv? r.before, ok_bind, if_neg (by rw [r.due]; simp), r.run, ok_bind,
    State.loadSv_of_sv? r.here, ok_bind]
  rfl

/-- One iteration of the first loop of the tick. The variable stays at the
root of the queue while its old value is dropped. -/
theorem HeapOk.tickUpdate {sizes : QueueSizes} {s t : State} {H : Addr → Nat} (h : HeapOk s H)
    (acyclic : Acyclic s) (due : updateDue s) (run : tickUpdate sizes s = .ok t) :
    ∃ L : Addr → Nat, HeapOk t (fun a => H a + L a) ∧
      ((∀ v, s.sv? (s.eventQueue 1) = some v → ∀ a, HeapPending s a →
        Survives (moved (s.eventQueue 1) [v.laterValue]) s [] [] a) → ∀ a, L a = 0) := by
  obtain ⟨v, s₁, L, r⟩ := h.dropRoot acyclic due
  obtain ⟨s₂, updated, run⟩ := bind_eq_ok.mp run
  rw [r.update_eq] at updated
  obtain ⟨-, q, n, removed, -, ok⟩ := r.remove h (wake_sameHeap _ _ updated)
  refine ⟨L, ?_, fun all => r.dropped.nothing_lost fun a ha =>
    (h.kept (all v r.before a ha)).transfer (fun b => by simp) fun _ _ => rfl⟩
  rw [removed] at run
  exact Except.ok.inj run ▸ ok

end SsmRuntime
