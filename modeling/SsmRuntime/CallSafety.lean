import SsmRuntime.CallFrames
import SsmRuntime.FastPath

/-!
No call goes wrong. What a call needs besides a balanced heap is that the
records and triggers it names are there; then it returns, or it throws one of
the errors the interface names for it.
-/
namespace SsmRuntime

/-- A call returns, or it throws one of the errors named. -/
def EndsWell (r : Res) (errors : List SsmError) : Prop :=
  (∃ t, r = .ok t) ∨ ∃ e ∈ errors, ∃ u, r = .error ⟨.thrown e, u⟩

/-- The errors the interface names for a call. -/
def Call.throws : Call → List SsmError
  | assign _ _ _ | activate _ | closureApply _ _ _ _ _ _ _ | closureApplyFinal _ _ _ _ _ _
  | tickUpdate => [.exhaustedActQueue]
  | later _ _ _ => [.invalidTime, .exhaustedEventQueue]
  | setNow _ | tickEnter => [.invalidTime, .notReady]
  | newTime _ _ | newAdt _ _ _ | newSv _ _ | newClosure _ _ _ | newArray _ _ | newBlob _ _
  | dup _ | drop _ | unschedule _ | sensitize _ _ | desensitize _ | enter _ _ _ _ _ _
  | tickPop => []

section Progress
variable {sizes : SafeSizes} {s t : State} {H : Addr → Nat}

theorem EndsWell.ok (t : State) (errors : List SsmError) : EndsWell (.ok t) errors := Or.inl ⟨t, rfl⟩

theorem EndsWell.throw {e : SsmError} {errors : List SsmError} (mem : e ∈ errors) (s : State) :
    EndsWell (ssmThrow e s) errors := Or.inr ⟨e, mem, s, rfl⟩

theorem TriggersOk.of_lists (tr : TriggersOk s) (same : SameLists s t)
    (acts : t.acts.dom = s.acts.dom) : TriggersOk t := by
  have lists : ∀ x w, t.sv? x = some w →
      Chain t (.triggersOf x) w.triggers (triggersOf s x) ∧ ∃ v, s.sv? x = some v := by
    intro x w hw
    obtain ⟨v, hv, head⟩ := same.head x w hw
    rw [head]
    refine ⟨(tr.chain x v hv).congr fun trig mem => ?_, v, hv⟩
    rw [same.triggers]
    exact ⟨(tr.chain x v hv).live mem, rfl⟩
  refine ⟨fun x w hw => ?_, fun x w trig hw mem => ?_⟩
  · rw [(lists x w hw).1.triggersOf_eq hw]
    exact (lists x w hw).1
  · obtain ⟨chain, v, hv⟩ := lists x w hw
    rw [chain.triggersOf_eq hw] at mem
    rw [acts, State.actOf, same.triggers]
    exact tr.act x v trig hv mem

theorem wake_ends (wakes : Nat → Bool) {x : Addr} {v : Sv} (tr : TriggersOk s)
    (ok : ActQueueOk sizes s) (hv : s.sv? x = some v) :
    EndsWell (wake sizes wakes s.triggers.dom.card v.triggers s) [.exhaustedActQueue] := by
  have spec := wake_spec wakes tr ok hv
  split at spec
  · obtain ⟨t, run, -⟩ := spec
    exact Or.inl ⟨t, run⟩
  · obtain ⟨u, run⟩ := spec
    exact Or.inr ⟨_, List.mem_singleton_self _, u, run⟩

theorem ssmActivate_ends {a : ActPtr} (ok : ActQueueOk sizes s) (live : a ∈ s.acts.dom) :
    EndsWell (ssmActivate sizes a s) [.exhaustedActQueue] := by
  have spec := ssmActivate_spec ok live
  split at spec
  · obtain ⟨t, run, -⟩ := spec
    exact Or.inl ⟨t, run⟩
  · obtain ⟨u, run⟩ := spec
    exact Or.inr ⟨_, List.mem_singleton_self _, u, run⟩

/-- A field of a variable that is held can be dropped, and the variable stays. -/
theorem Counted.dropField {var : Addr} {v : Sv} {old : Value} (rest : List Value)
    (counted : Counted plain s ∅ H) (queue : EventQueueOk s) (hv : s.sv? var = some v)
    (held : 1 ≤ H var) (split : ∀ b, refsTo b rest + refsTo b [old] = refsTo b v.refs) :
    ∃ t, ssmDrop old s = .ok t ∧ t.sv? var = some v ∧ EventQueueOk t := by
  have root : Kept (moved var rest) s H var := .root held
  obtain ⟨t, L, run, d⟩ :=
    ssmDrop_spec (counted.moveOut rest [old] hv split) queue (protected_moved root)
  exact ⟨t, run, d.sv?_of_kept hv root, d.queue⟩

theorem HeapOk.assign_ends {var : Addr} {v : Sv} {prio : Nat} {val : Value} (h : HeapOk s H)
    (tr : TriggersOk s) (ok : ActQueueOk sizes s) (hv : s.sv? var = some v) (held : 1 ≤ H var)
    (lives : Lives s val) (room : Room s [val]) :
    EndsWell (ssmAssign sizes var prio val s) [.exhaustedActQueue] := by
  obtain ⟨s₁, dup, k, h₁⟩ := h.dup lives room
  have hv₁ : s₁.sv? var = some v := by rw [k.sv?, hv]
  obtain ⟨s₂, dropped, hv₂, -⟩ := h₁.counted.dropField v.pendingRefs h₁.queue hv₁
    (Nat.le_add_right_of_le held) fun b => by rw [v.refsTo_refs, Nat.add_comm]
  have acts := (ssmDup_sameActs dup).trans (ssmDrop_sameActs dropped)
  have lists := (ssmDup_sameLists dup).trans (ssmDrop_sameLists dropped)
  have written := setSv_sameLists (w := v.assigned val s₂.now) hv₂ rfl
  have run : ssmAssign sizes var prio val s =
      wake sizes (fun p => prio < p) s₂.triggers.dom.card v.triggers
        (s₂.setSv var (v.assigned val s₂.now)) := by
    rw [ssmAssign, dup, ok_bind, State.loadSv_of_sv? hv₁, ok_bind, dropped, ok_bind,
      ssmSvAssignUnsafe, State.loadSv_of_sv? hv₂, ok_bind]
    rfl
  rw [run]
  exact wake_ends (v := v.assigned val s₂.now) _
    (tr.of_lists (lists.trans written) (congrArg Table.dom acts.acts))
    ((setSv_sameActs s₂ var _).ok (acts.ok ok)) (State.sv?_setSv_self hv₂)

theorem ssmSvLaterUnsafe_idle_ends {var : Addr} {v : Sv} {when : Nat} (val : Value)
    (queue : EventQueueOk s) (hv : s.sv? var = some v) (idle : v.laterTime = ssmNever)
    (early : s.now ≤ when) :
    EndsWell (ssmSvLaterUnsafe sizes var when val s) [.invalidTime, .exhaustedEventQueue] := by
  by_cases room : s.eventQueueLen < sizes.event
  · obtain ⟨q, done, -⟩ := ssmSvLaterUnsafe_insert val sizes.event_lt hv idle early room
    exact Or.inl ⟨_, done⟩
  · have bound := queue.len_lt
    refine Or.inr ⟨.exhaustedEventQueue, by simp, ?_⟩
    rw [ssmSvLaterUnsafe, if_neg (Nat.not_lt.mpr early), State.loadSv_of_sv? hv, ok_bind,
      if_pos idle]
    simp only [State.setSv_eventQueueLen, qIdx_of_lt (show s.eventQueueLen + 1 < 2 ^ 16 by omega)]
    rw [if_pos (by omega)]
    exact ⟨_, rfl⟩

theorem HeapOk.laterUnsafe_ends {var : Addr} {v : Sv} {when : Nat} {val : Value} (h : HeapOk s H)
    (hv : s.sv? var = some v) (held : 1 ≤ H var) (soon : when ≠ ssmNever) :
    EndsWell (ssmSvLaterUnsafe sizes var when val s) [.invalidTime, .exhaustedEventQueue] := by
  by_cases late : when < s.now
  · rw [ssmSvLaterUnsafe, if_pos late]
    exact .throw (by simp) s
  by_cases idle : v.laterTime = ssmNever
  · exact ssmSvLaterUnsafe_idle_ends val h.queue hv idle (Nat.not_lt.mp late)
  generalize hw : { v with laterTime := when } = w
  have time : w.laterTime = when := by rw [← hw]
  have later : w.laterValue = v.laterValue := by rw [← hw]
  have value : w.value = v.value := by rw [← hw]
  have hv₁ : (s.setSv var w).sv? var = some w := State.sv?_setSv_self hv
  have balance := Counted.setSv (H := H) [] [] (w := w) (h.counted.same fun b => by simp) hv
    (fun _ _ => rfl) fun b => by
      rw [Sv.refsTo_refs, Sv.pendingRefs_of_ne (by rwa [time]), plain, Body.refs, v.refsTo_refs,
        v.pendingRefs_of_ne idle, later, value]
  obtain ⟨s₂, dropped, hv₂, queue⟩ := (balance.same fun b => by simp).dropField [v.value]
    (h.queue.rekey (q := s.eventQueue) hv idle (by rwa [time]) rfl) hv₁ held fun b => by
      rw [w.refsTo_refs, w.pendingRefs_of_ne (by rwa [time]), later, value]
  obtain ⟨q, placed, -⟩ := reposition_spec (s := s₂) var when queue.len_lt
    ((queue.mem var).mpr ⟨w, hv₂, by rwa [time]⟩) (by rw [State.laterTimeAt_of_sv? hv₂, time]) soon
  obtain ⟨hole, found, put⟩ := bind_eq_ok.mp placed
  rw [ssmSvLaterUnsafe, if_neg late, State.loadSv_of_sv? hv, ok_bind, if_neg idle, hw, dropped,
    ok_bind, found, ok_bind, put, ok_bind,
    State.loadSv_of_sv? (s := s₂.withQueue q s₂.eventQueueLen) hv₂, ok_bind]
  exact .ok _ _

theorem HeapOk.unschedule_ends {var : Addr} {v : Sv} (h : HeapOk s H) (hv : s.sv? var = some v) :
    ∃ t, ssmUnschedule var s = .ok t := by
  by_cases idle : v.laterTime = ssmNever
  · rw [ssmUnschedule, State.loadSv_of_sv? hv, ok_bind, if_pos idle]
    exact ⟨_, rfl⟩
  · obtain ⟨q, n, done, -⟩ := ssmUnschedule_spec h.queue hv idle
    exact ⟨_, done⟩

theorem tickUpdate_ends (h : HeapOk s H) (tr : TriggersOk s) (ok : ActQueueOk sizes s)
    (acyclic : Acyclic s) (due : updateDue s) :
    EndsWell (tickUpdate sizes s) [.exhaustedActQueue] := by
  obtain ⟨v, s₁, L, r⟩ := h.dropRoot acyclic due
  have acts := (ssmDrop_sameActs r.run).trans (setSv_sameActs s₁ (s.eventQueue 1) (v.updated s₁.now))
  have lists := (ssmDrop_sameLists r.run).trans
    (setSv_sameLists (w := v.updated s₁.now) r.here rfl)
  have woken : EndsWell (wake sizes (fun _ => true) s₁.triggers.dom.card v.triggers
      (s₁.setSv (s.eventQueue 1) (v.updated s₁.now))) [.exhaustedActQueue] :=
    wake_ends (v := v.updated s₁.now) _ (tr.of_lists lists (congrArg Table.dom acts.acts))
      (acts.ok ok) (State.sv?_setSv_self r.here)
  rw [tickUpdate, r.update_eq]
  obtain ⟨u, run⟩ | ⟨e, mem, u, run⟩ := woken
  · obtain ⟨-, q, n, removed, -⟩ := r.remove h (wake_sameHeap _ _ run)
    rw [run, ok_bind]
    exact Or.inl ⟨_, removed⟩
  · rw [run, error_bind]
    exact Or.inr ⟨e, mem, u, rfl⟩

theorem ssmSetNow_ends (next : Nat) (s : State) :
    EndsWell (ssmSetNow next s) [.invalidTime, .notReady] := by
  unfold ssmSetNow
  split
  · exact .throw (by simp) s
  · split
    · exact .throw (by simp) s
    · exact .ok _ _

theorem tickEnter_ends (s : State) : EndsWell (tickEnter s) [.invalidTime, .notReady] := by
  unfold tickEnter
  split
  · exact .throw (by simp) s
  · split
    · exact ssmSetNow_ends _ s
    · exact .ok _ _

theorem startChild_ends {child parent : ActPtr} {f prio depth : Nat} (argv : List Value)
    (ok : ActQueueOk sizes s) (fresh : child ∉ s.acts.dom) (live : parent ∈ s.acts.dom) :
    EndsWell (startChild sizes child f parent prio depth argv s) [.exhaustedActQueue] := by
  have run := ssmEnterInt_eq fresh live f prio depth argv
  rw [startChild, run, ok_bind]
  exact ssmActivate_ends (ssmEnterInt_ok fresh ok run) (Finset.mem_insert_self child s.acts.dom)

theorem EndsWell.apply {α : Type} {r : Res} {errors : List SsmError} (h : EndsWell r errors)
    (objs : Table Obj) (ret : State → α × State) :
    EndsWell (do let (_, s) ← (overObjs objs r >>= fun t => .ok (ret t)); .ok s) errors := by
  obtain ⟨t, rfl⟩ | ⟨e, mem, u, rfl⟩ := h
  · exact .ok _ _
  · exact Or.inr ⟨e, mem, _, rfl⟩

theorem HeapOk.closureApply_ends {new closure : Addr} {child parent : ActPtr} {prio depth : Nat}
    {c : Closure} (arg : Value) (h : HeapOk s H) (ok : ActQueueOk sizes s)
    (loaded : s.loadClosure closure = .ok c) (room : c.count < c.cap) (fresh : new ∉ s.objs.dom)
    (idle : child ∉ s.acts.dom) (live : parent ∈ s.acts.dom) :
    EndsWell ((Call.closureApply new child closure arg parent prio depth).exec sizes s)
      [.exhaustedActQueue] := by
  have o := h.openClosure loaded room
  rw [Call.exec]
  by_cases last : c.cap = c.count + 1
  · rw [ssmClosureApply_full o last]
    exact (startChild_ends _ ok idle live).apply _ _
  · rw [ssmClosureApply_part o last fresh]
    exact .ok _ _

theorem HeapOk.closureApplyFinal_ends {closure : Addr} {child parent : ActPtr} {prio depth : Nat}
    {c : Closure} (arg : Value) (h : HeapOk s H) (ok : ActQueueOk sizes s)
    (loaded : s.loadClosure closure = .ok c) (room : c.count < c.cap)
    (sole : (s.objs.val closure).refCount = 1)
    (idle : child ∉ s.acts.dom) (live : parent ∈ s.acts.dom) :
    EndsWell ((Call.closureApplyFinal child closure arg parent prio depth).exec sizes s)
      [.exhaustedActQueue] := by
  have o := h.openClosure loaded room
  rw [Call.exec]
  by_cases last : c.cap = c.count + 1
  · rw [ssmClosureApplyFinal_full o last sole]
    exact (startChild_ends _ ok idle live).apply _ _
  · rw [ssmClosureApplyFinal_part o last sole]
    exact .ok _ _

end Progress

end SsmRuntime
