import SsmRuntime.HeapSteps

/-!
Operations that build objects or release them, and the trigger lists, whose heads
are fields of variables.
-/
namespace SsmRuntime

open BinaryHeap

theorem HeapOk.congr {s t : State} {H : Addr → Nat} (h : HeapOk s H) (objs : t.objs = s.objs)
    (queue : t.eventQueue = s.eventQueue) (len : t.eventQueueLen = s.eventQueueLen) :
    HeapOk t H where
  counted := h.counted.congr (by rw [objs]) (fun _ _ => by rw [objs]) fun _ => rfl
  alive := by rw [objs]; exact h.alive
  shaped := by rw [objs]; exact h.shaped
  queue := h.queue.congr queue len fun a => by simp [State.Pending, State.sv?, objs]
  order := h.order.congr queue len fun _ _ => by rw [objs]

theorem HeapOk.alloc {s : State} {H : Addr → Nat} {p : Addr} {body : Body}
    (h : HeapOk s fun a => H a + refsTo a body.refs) (fresh : p ∉ s.objs.dom)
    (shaped : body.Shaped) (idle : ∀ v, body = .sv v → v.laterTime = ssmNever) :
    HeapOk { s with objs := s.objs.alloc p ⟨1, body⟩ } fun a => H a + refsTo a [.heap p] := by
  have pend : ∀ a, State.Pending { s with objs := s.objs.alloc p ⟨1, body⟩ } a ↔ s.Pending a := by
    intro a
    by_cases ha : a = p
    · subst ha
      refine iff_of_false ?_ fun old => fresh old.mem
      rintro ⟨v, hv, hne⟩
      have hb := (State.sv?_eq_some.mp hv).2
      exact hne (idle v (by simpa using hb))
    · simp [State.Pending, State.sv?, Table.get?, Table.alloc_val_of_ne _ _ ha, ha]
  refine ⟨h.counted.alloc fresh, fun a ha => ?_, fun a ha => ?_, h.queue.congr rfl rfl pend,
    h.order.congr rfl rfl fun a ha => ?_⟩
  · by_cases hap : a = p
    · subst hap
      simp
    · simpa [Table.alloc_val_of_ne _ _ hap] using h.alive a (by simpa [hap] using ha)
  · by_cases hap : a = p
    · subst hap
      simpa using shaped
    · simpa [Table.alloc_val_of_ne _ _ hap] using h.shaped a (by simpa [hap] using ha)
  · have other : a ≠ p := by
      rintro rfl
      exact fresh ((h.queue.mem a).mp ha).mem
    simp [Table.alloc_val_of_ne _ _ other]

/-- An object that is no variable takes another body. -/
theorem HeapOk.setBody {s : State} {H : Addr → Nat} {a : Addr} {body : Body}
    {ins outs : List Value} (h : HeapOk s fun b => H b + refsTo b ins) (mem : a ∈ s.objs.dom)
    (old : ∀ v, (s.objs.val a).body ≠ .sv v) (new : ∀ v, body ≠ .sv v) (shaped : body.Shaped)
    (balance : ∀ b, refsTo b body.refs + refsTo b outs =
      refsTo b (s.objs.val a).body.refs + refsTo b ins) :
    HeapOk (s.setObj a ⟨(s.objs.val a).refCount, body⟩) fun b => H b + refsTo b outs := by
  have other : ∀ b, b ≠ a →
      (s.setObj a ⟨(s.objs.val a).refCount, body⟩).objs.val b = s.objs.val b := fun b hb =>
    Table.write_val_of_ne _ _ hb
  have here : (s.setObj a ⟨(s.objs.val a).refCount, body⟩).objs.val a =
      ⟨(s.objs.val a).refCount, body⟩ := Table.write_val_self _ _ _
  have pend : ∀ b, (s.setObj a ⟨(s.objs.val a).refCount, body⟩).Pending b ↔ s.Pending b := by
    intro b
    by_cases hb : b = a
    · subst hb
      refine iff_of_false ?_ ?_
      · rintro ⟨v, hv, -⟩
        exact new v (by simpa [here] using (State.sv?_eq_some.mp hv).2)
      · rintro ⟨v, hv, -⟩
        exact old v (State.sv?_eq_some.mp hv).2
    · simp [State.Pending, State.sv?, Table.get?, State.setObj, Table.write_val_of_ne _ _ hb]
  refine ⟨?_, fun b hb => ?_, fun b hb => ?_, h.queue.congr rfl rfl pend,
    h.order.congr rfl rfl fun b hb => ?_⟩
  · exact Counted.rebody h.counted (by simpa using mem) rfl other (by rw [here])
      (fun _ _ => rfl) fun b => by rw [here]; exact balance b
  · by_cases hba : b = a
    · subst hba
      rw [here]
      exact h.alive b hb
    · rw [other b hba]
      exact h.alive b hb
  · by_cases hba : b = a
    · subst hba
      rw [here]
      exact shaped
    · rw [other b hba]
      exact h.shaped b hb
  · have hne : b ≠ a := by
      rintro rfl
      obtain ⟨v, hv, -⟩ := (h.queue.mem b).mp hb
      exact old v (State.sv?_eq_some.mp hv).2
    rw [other b hne]

/-- Releasing an object whose last reference is in hand frees what it holds. -/
theorem HeapOk.release {s : State} {H : Addr → Nat} {a : Addr}
    (h : HeapOk s fun b => H b + refsTo b [.heap a]) (mem : a ∈ s.objs.dom)
    (last : (s.objs.val a).refCount = 1) (plainBody : ∀ v, (s.objs.val a).body ≠ .sv v) :
    HeapOk { s with objs := s.objs.release a }
      fun b => H b + refsTo b (s.objs.val a).body.refs := by
  have mem' : a ∈ s.objs.dom \ ∅ := by simpa using mem
  have own := h.counted.live a mem'
  rw [last, refsTo_heap_self] at own
  have fields : ∀ b, fieldRefs plain s ∅ b = refsTo b (s.objs.val a).body.refs +
      fieldRefs plain { s with objs := s.objs.release a } ∅ b := by
    intro b
    rw [fieldRefs_insert b mem']
    congr 1
    exact fieldRefs_congr b (by ext c; simp; tauto) fun _ _ => rfl
  have inside : ∀ b, b ∈ (s.objs.release a).dom ↔ b ≠ a ∧ b ∈ s.objs.dom := fun b => by simp
  have pend : ∀ b, State.Pending { s with objs := s.objs.release a } b ↔ s.Pending b := by
    intro b
    by_cases hb : b = a
    · subst hb
      refine iff_of_false (fun gone => ?_) ?_
      · exact absurd gone.mem (by simp)
      · rintro ⟨v, hv, -⟩
        exact plainBody v (State.sv?_eq_some.mp hv).2
    · simp [State.Pending, State.sv?, Table.get?, hb]
  refine ⟨⟨fun b hb => ?_, fun b hb => ?_, fun b hb => ?_⟩, fun b hb => ?_, fun b hb => ?_,
    h.queue.congr rfl rfl pend, h.order.congr rfl rfl fun _ _ => rfl⟩
  · obtain ⟨hne, live⟩ := (inside b).mp (by simpa using hb)
    have := h.counted.live b (by simpa using live)
    rw [fields, refsTo_heap_ne hne] at this
    rw [Table.release_val]
    omega
  · have total : H b + fieldRefs plain s ∅ b = 0 := by
      by_cases hba : b = a
      · subst hba
        omega
      · have := h.counted.dead b fun live => hb (by
          simpa [hba] using live)
        omega
    rw [fields] at total
    omega
  · obtain ⟨-, live⟩ := (inside b).mp (by simpa using hb)
    exact h.counted.small b (by simpa using live)
  · exact h.alive b ((inside b).mp hb).2
  · exact h.shaped b ((inside b).mp hb).2

theorem HeapOk.setTriggers {s : State} {H : Addr → Nat} {var : Addr} {v : Sv} (h : HeapOk s H)
    (hv : s.sv? var = some v) (head : Option TriggerPtr) :
    HeapOk (s.setSv var { v with triggers := head }) H := by
  have balance := Counted.setSv (H := H) [] []
    (w := { v with triggers := head }) (h.counted.same fun b => by simp) hv (fun _ _ => rfl)
    fun b => rfl
  exact ⟨balance.same fun b => by simp, alive_setSv h.alive, shaped_setSv h.shaped,
    h.queue.setSv_same hv rfl, h.order.setSv_same hv rfl⟩

theorem HeapOk.sensitize {s t : State} {H : Addr → Nat} {var : Addr} {trig : TriggerPtr}
    (h : HeapOk s H) (run : ssmSvSensitize var trig s = .ok t) : HeapOk t H := by
  obtain ⟨v, triggers, hv, rfl⟩ := ssmSvSensitize_eq_ok run
  exact (h.setTriggers hv (some trig)).congr rfl rfl rfl

theorem HeapOk.desensitize {s t : State} {H : Addr → Nat} {trig : TriggerPtr} (h : HeapOk s H)
    (run : ssmSvDesensitize trig s = .ok t) : HeapOk t H := by
  obtain ⟨triggers, rfl⟩ | ⟨var, v, first, triggers, hv, rfl⟩ := ssmSvDesensitize_eq_ok run
  · exact h.congr rfl rfl rfl
  · exact (h.setTriggers hv first).congr rfl rfl rfl

theorem HeapOk.setNow {s t : State} {H : Addr → Nat} {next : Nat} (h : HeapOk s H)
    (run : ssmSetNow next s = .ok t) : HeapOk t H := by
  obtain ⟨-, -, rfl⟩ := ssmSetNow_eq_ok run
  exact h.congr rfl rfl rfl

theorem HeapOk.tickEnter {s t : State} {H : Addr → Nat} (h : HeapOk s H)
    (run : tickEnter s = .ok t) : HeapOk t H := by
  obtain rfl | moved := tickEnter_eq_ok run
  · exact h
  · exact h.setNow moved

end SsmRuntime
