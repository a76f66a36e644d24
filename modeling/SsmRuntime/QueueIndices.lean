import SsmRuntime.QueueAccess
import SsmRuntime.QueueEntries

/-!
The operations on the queues, access by access, with the drops and activations
they make. The capacities decide whether each index stays inside its queue.
-/
namespace SsmRuntime

open BinaryHeap
open Logged (emit silent)

/-- The search reads the entries in turn, up to the one it finds. -/
def loggedFindQueuedEvent (var : Addr) (s : State) : Logged Slot Stop Nat := do
  let s ← silent (ssmAssert (s.laterTimeAt var ≠ ssmNever) s)
  match (List.range' 1 s.eventQueueLen).find? (fun i => s.eventQueue i == var) with
  | some i => do
      emit ((List.range' 1 i).map fun j => ⟨j, s.eventQueueLen⟩)
      pure i
  | none => do
      emit ((List.range' 1 s.eventQueueLen).map fun j => ⟨j, s.eventQueueLen⟩)
      silent (ssmThrow .internalError s)

def loggedPlace (hole : Nat) (var : Addr) (time : Nat) (s : State) : LoggedRes := do
  emit (if hole = 1 then [] else [⟨hole / 2, s.eventQueueLen⟩])
  if hole = 1 ∨ s.laterTimeAt (s.eventQueue (hole / 2)) < time then
    loggedEventPercolateDown hole var s
  else loggedEventPercolateUp hole var s

def loggedUnschedule (var : Addr) (s : State) : LoggedRes := do
  let v ← silent (s.loadSv var)
  if v.laterTime = ssmNever then pure s
  else do
    let hole ← loggedFindQueuedEvent var s
    let s := s.setSv var { v with laterTime := ssmNever }
    emit [⟨s.eventQueueLen, s.eventQueueLen⟩]
    let movedVar := s.eventQueue s.eventQueueLen
    let s := { s with eventQueueLen := qIdx (s.eventQueueLen + 2 ^ 16 - 1) }
    if hole < 1 + s.eventQueueLen then
      loggedPlace hole movedVar (s.laterTimeAt movedVar) s
    else pure s

def loggedDropsWith (drop : Value → State → LoggedRes) : List Value → State → LoggedRes
  | [], s => pure s
  | v :: vs, s => do
      let s ← drop v s
      loggedDropsWith drop vs s

def loggedDropBody (drop : Value → State → LoggedRes) (a : Addr) : Body → State → LoggedRes
  | .sv _, s => do
      let s ← loggedUnschedule a s
      let v ← silent (s.loadSv a)
      let s ← drop v.value s
      let v ← silent (s.loadSv a)
      if v.laterTime = ssmNever then pure s else drop v.laterValue s
  | body, s => loggedDropsWith drop body.children s

def loggedDropWith : Nat → Value → State → LoggedRes
  | _, .packed _, s => pure s
  | 0, .heap _, s => silent (.error ⟨.diverges, s⟩)
  | fuel + 1, .heap a, s => do
      let o ← silent (s.loadObj a)
      let refCount := (o.refCount + 255) % 256
      let s := s.setObj a { o with refCount := refCount }
      if refCount = 0 then do
        let o ← silent (s.loadObj a)
        let s ← loggedDropBody (loggedDropWith fuel) a o.body s
        pure { s with objs := s.objs.release a }
      else pure s

def loggedDrop (v : Value) (s : State) : LoggedRes := loggedDropWith (s.objs.dom.card + 1) v s

def loggedActivate (sizes : QueueSizes) (act : ActPtr) (s : State) : LoggedRes := do
  let a ← silent (s.loadAct act)
  if a.scheduled then pure s
  else
    let s := { s with actQueueLen := qIdx (s.actQueueLen + 1) }
    if sizes.act < s.actQueueLen then silent (ssmThrow .exhaustedActQueue s)
    else loggedActPercolateUp s.actQueueLen act s

def loggedWake (sizes : QueueSizes) (wakes : Nat → Bool) :
    Nat → Option TriggerPtr → State → LoggedRes
  | _, none, s => pure s
  | 0, some _, s => silent (.error ⟨.diverges, s⟩)
  | fuel + 1, some trig, s => do
      let t ← silent (s.loadTrigger trig)
      let a ← silent (s.loadAct t.act)
      let s ← (if wakes a.priority then loggedActivate sizes t.act s else pure s)
      loggedWake sizes wakes fuel t.next s

def loggedLater (sizes : QueueSizes) (var : Addr) (when : Nat) (val : Value) (s : State) :
    LoggedRes := do
  if when < s.now then silent (ssmThrow .invalidTime s)
  else do
    let v ← silent (s.loadSv var)
    let s := s.setSv var { v with laterTime := when }
    if v.laterTime = ssmNever then
      let s := { s with eventQueueLen := qIdx (s.eventQueueLen + 1) }
      if sizes.event < s.eventQueueLen then silent (ssmThrow .exhaustedEventQueue s)
      else do
        let s ← loggedEventPercolateUp s.eventQueueLen var s
        let v ← silent (s.loadSv var)
        pure (s.setSv var { v with laterValue := val })
    else do
      let s ← loggedDrop v.laterValue s
      let hole ← loggedFindQueuedEvent var s
      let s ← loggedPlace hole var when s
      let v ← silent (s.loadSv var)
      pure (s.setSv var { v with laterValue := val })

def loggedUpdate (sizes : QueueSizes) (sv : Addr) (s : State) : LoggedRes := do
  let v ← silent (s.loadSv sv)
  if s.now ≠ v.laterTime then silent (ssmThrow .notReady s)
  else do
    let s ← loggedDrop v.value s
    let v ← silent (s.loadSv sv)
    let s := s.setSv sv
      { v with value := v.laterValue, lastUpdated := s.now, laterTime := ssmNever }
    loggedWake sizes (fun _ => true) s.triggers.dom.card v.triggers s

def loggedRemoveTop (s : State) : LoggedRes := do
  emit [⟨s.eventQueueLen, s.eventQueueLen⟩]
  let toInsert := s.eventQueue s.eventQueueLen
  let s := { s with eventQueueLen := qIdx (s.eventQueueLen + 2 ^ 16 - 1) }
  if s.eventQueueLen ≠ 0 then loggedEventPercolateDown 1 toInsert s else pure s

def loggedTickUpdate (sizes : QueueSizes) (s : State) : LoggedRes := do
  emit [⟨1, s.eventQueueLen⟩]
  let s ← loggedUpdate sizes (s.eventQueue 1) s
  loggedRemoveTop s

def loggedTickPop (s : State) : Logged Slot Stop (ActPtr × State) := do
  emit [⟨1, s.actQueueLen⟩]
  let toRun := s.actQueue 1
  let a ← silent (s.loadAct toRun)
  let s := s.setAct toRun { a with scheduled := false }
  emit [⟨s.actQueueLen, s.actQueueLen⟩]
  let toInsert := s.actQueue s.actQueueLen
  let s := { s with actQueueLen := qIdx (s.actQueueLen + 2 ^ 16 - 1) }
  let s ← (if s.actQueueLen ≠ 0 then loggedActPercolateDown 1 toInsert s else pure s)
  pure (toRun, s)

section Results

theorem loggedFindQueuedEvent_result (var : Addr) (s : State) :
    (loggedFindQueuedEvent var s).result = findQueuedEvent var s := by
  simp only [loggedFindQueuedEvent, findQueuedEvent, Logged.result_bind, Logged.result_silent]
  refine bind_congr fun u => ?_
  cases (List.range' 1 u.eventQueueLen).find? fun i => u.eventQueue i == var <;> rfl

theorem loggedPlace_result (hole : Nat) (var : Addr) (time : Nat) (s : State) :
    (loggedPlace hole var time s).result = eventQueuePlace hole var time s := by
  simp only [loggedPlace, eventQueuePlace, Logged.result_bind, Logged.result_emit, ok_bind]
  split
  · exact loggedEventPercolateDown_result hole var s
  · exact loggedEventPercolateUp_result hole var s

theorem loggedUnschedule_result (var : Addr) (s : State) :
    (loggedUnschedule var s).result = ssmUnschedule var s := by
  unfold loggedUnschedule ssmUnschedule
  rw [Logged.result_bind, Logged.result_silent]
  refine bind_congr fun v => ?_
  rw [Logged.result_ite, Logged.result_bind, loggedFindQueuedEvent_result, Logged.result_pure]
  refine if_congr Iff.rfl rfl (bind_congr fun hole => ?_)
  rw [Logged.result_bind, Logged.result_emit, ok_bind]
  extract_lets moved shrunk
  rw [Logged.result_ite, loggedPlace_result, Logged.result_pure]

theorem loggedDropsWith_result {logged : Value → State → LoggedRes} {drop : Value → State → Res}
    (same : ∀ v s, (logged v s).result = drop v s) (vs : List Value) (s : State) :
    (loggedDropsWith logged vs s).result = ssmDropsWith drop vs s := by
  induction vs generalizing s with
  | nil => rfl
  | cons v vs ih =>
      simp only [loggedDropsWith, ssmDropsWith, Logged.result_bind, same, ih]

theorem loggedDropBody_result {logged : Value → State → LoggedRes} {drop : Value → State → Res}
    (same : ∀ v s, (logged v s).result = drop v s) (a : Addr) (body : Body) (s : State) :
    (loggedDropBody logged a body s).result = dropBody drop a body s := by
  cases body with
  | sv _ =>
      simp only [loggedDropBody, dropBody, Logged.result_bind, Logged.result_silent,
        loggedUnschedule_result, same]
      refine bind_congr fun t => bind_congr fun v => bind_congr fun u => bind_congr fun w => ?_
      split
      · rfl
      · exact same _ _
  | time _ | adt _ _ | closure _ _ _ _ | array _ | blob _ => exact loggedDropsWith_result same _ s

theorem loggedDropWith_result (fuel : Nat) (v : Value) (s : State) :
    (loggedDropWith fuel v s).result = ssmDropWith fuel v s := by
  induction fuel generalizing v s with
  | zero => cases v <;> rfl
  | succ fuel ih =>
      cases v with
      | packed n => rfl
      | heap a =>
          simp only [loggedDropWith, ssmDropWith, Logged.result_bind, Logged.result_silent]
          refine bind_congr fun o => ?_
          split
          · rw [ssmDropFinalWith]
            simp only [Logged.result_bind, Logged.result_silent, loggedDropBody_result ih,
              Logged.result_pure]
          · rfl

theorem loggedDrop_result (v : Value) (s : State) : (loggedDrop v s).result = ssmDrop v s :=
  loggedDropWith_result _ v s

theorem loggedActivate_result (sizes : QueueSizes) (act : ActPtr) (s : State) :
    (loggedActivate sizes act s).result = ssmActivate sizes act s := by
  simp only [loggedActivate, ssmActivate, Logged.result_bind, Logged.result_silent]
  refine bind_congr fun a => ?_
  split
  · rfl
  · split
    · rfl
    · exact loggedActPercolateUp_result _ _ _

theorem loggedWake_result (sizes : QueueSizes) (wakes : Nat → Bool) (fuel : Nat)
    (first : Option TriggerPtr) (s : State) :
    (loggedWake sizes wakes fuel first s).result = wake sizes wakes fuel first s := by
  induction fuel generalizing first s with
  | zero => cases first <;> rfl
  | succ fuel ih =>
      cases first with
      | none => rfl
      | some trig =>
          simp only [loggedWake, wake, Logged.result_bind, Logged.result_silent, ih]
          refine bind_congr fun t => bind_congr fun a => ?_
          split
          · rw [loggedActivate_result]
          · rfl

theorem loggedLater_result (sizes : QueueSizes) (var : Addr) (when : Nat) (val : Value)
    (s : State) : (loggedLater sizes var when val s).result =
      ssmSvLaterUnsafe sizes var when val s := by
  unfold loggedLater ssmSvLaterUnsafe
  split
  · rfl
  · simp only [Logged.result_bind, Logged.result_silent]
    refine bind_congr fun v => ?_
    split
    · split
      · rfl
      · simp only [Logged.result_bind, Logged.result_silent, loggedEventPercolateUp_result,
          Logged.result_pure]
    · simp only [Logged.result_bind, Logged.result_silent, loggedDrop_result,
        loggedFindQueuedEvent_result, loggedPlace_result, Logged.result_pure]

theorem loggedUpdate_result (sizes : QueueSizes) (sv : Addr) (s : State) :
    (loggedUpdate sizes sv s).result = ssmUpdate sizes sv s := by
  simp only [loggedUpdate, ssmUpdate, Logged.result_bind, Logged.result_silent]
  refine bind_congr fun v => ?_
  split
  · rfl
  · simp only [Logged.result_bind, Logged.result_silent, loggedDrop_result, loggedWake_result]

theorem loggedRemoveTop_result (s : State) : (loggedRemoveTop s).result = tickRemoveTop s := by
  unfold loggedRemoveTop tickRemoveTop
  rw [Logged.result_bind, Logged.result_emit, ok_bind]
  extract_lets toInsert shrunk
  rw [Logged.result_ite, loggedEventPercolateDown_result, Logged.result_pure]

theorem loggedTickUpdate_result (sizes : QueueSizes) (s : State) :
    (loggedTickUpdate sizes s).result = tickUpdate sizes s := by
  simp only [loggedTickUpdate, tickUpdate, Logged.result_bind, Logged.result_emit, ok_bind,
    loggedUpdate_result, loggedRemoveTop_result]

theorem loggedTickPop_result (s : State) : (loggedTickPop s).result = tickPop s := by
  unfold loggedTickPop tickPop
  rw [Logged.result_bind, Logged.result_emit, ok_bind]
  extract_lets toRun
  rw [Logged.result_bind, Logged.result_silent]
  refine bind_congr fun a => ?_
  extract_lets idle toInsert
  rw [Logged.result_bind, Logged.result_emit, ok_bind, Logged.result_bind, Logged.result_ite,
    loggedActPercolateDown_result, Logged.result_pure]
  rfl

end Results

section Inside

/-- The positions of the event queue can be doubled in a `q_idx_t`. -/
def Short (s : State) : Prop := s.eventQueueLen < 2 ^ 15

theorem SameLens.short {s t : State} (h : SameLens s t) (short : Short s) : Short t :=
  Nat.lt_of_le_of_lt (Nat.le_of_eq h.1) short

theorem Short.of_pred {s t : State} (short : Short s)
    (len : t.eventQueueLen = s.eventQueueLen - 1) : Short t :=
  Nat.lt_of_le_of_lt (len ▸ Nat.sub_le s.eventQueueLen 1) short

theorem Short.pred {s : State} (short : Short s) (h1 : 1 ≤ s.eventQueueLen) :
    qIdx (s.eventQueueLen + 2 ^ 16 - 1) = s.eventQueueLen - 1 :=
  qIdx_pred (Nat.sub_add_cancel h1).symm (Nat.lt_of_lt_of_le short (by decide))

theorem silent_bind_inside {α β : Type} {r : Except Stop α} {f : α → Logged Slot Stop β}
    {Q : β → Prop} (rest : ∀ a, r = .ok a → (f a).Meets Slot.Inside Q) :
    (silent r >>= f).Meets Slot.Inside Q :=
  Logged.Meets.bind (.silent fun _ done => done) fun a _ done => rest a done

theorem loggedFindQueuedEvent_inside (var : Addr) (s : State) :
    (loggedFindQueuedEvent var s).Meets Slot.Inside fun hole =>
      1 ≤ hole ∧ hole ≤ s.eventQueueLen := by
  have read : ∀ n ≤ s.eventQueueLen, ∀ slot ∈ (List.range' 1 n).map fun j =>
      Slot.mk j s.eventQueueLen, slot.Inside := by
    intro n hn slot mem
    obtain ⟨j, range, rfl⟩ := List.mem_map.mp mem
    rw [List.mem_range'_1] at range
    exact ⟨range.1, show j ≤ s.eventQueueLen by omega⟩
  refine silent_bind_inside fun u asserted => ?_
  obtain rfl := ssmAssert_eq_ok asserted
  split
  · rename_i i found
    have range := List.mem_of_find?_eq_some found
    rw [List.mem_range'_1] at range
    have hn : i ≤ u.eventQueueLen := by omega
    exact emit_inside (read i hn) (.pure ⟨range.1, hn⟩)
  · exact emit_inside (read _ (Nat.le_refl _)) .stop

theorem loggedPlace_inside {s : State} (short : Short s) {hole : Nat} (h1 : 1 ≤ hole)
    (hn : hole ≤ s.eventQueueLen) (var : Addr) (time : Nat) :
    (loggedPlace hole var time s).Meets Slot.Inside Short := by
  refine emit_inside (fun slot mem => ?_) ?_
  · split at mem
    · exact absurd mem List.not_mem_nil
    · obtain rfl := List.mem_singleton.mp mem
      exact ⟨show 1 ≤ hole / 2 by omega, show hole / 2 ≤ s.eventQueueLen by omega⟩
  · split
    · exact (loggedEventPercolateDown_inside short hole var).imp fun t same => same.short short
    · exact (loggedEventPercolateUp_inside hole var s).imp fun t same => same.short short

theorem loggedUnschedule_inside {s : State} (short : Short s) (var : Addr) :
    (loggedUnschedule var s).Meets Slot.Inside Short := by
  refine silent_bind_inside fun v _ => ?_
  split
  · exact .pure short
  · refine (loggedFindQueuedEvent_inside var s).bind fun hole _ ⟨h1, hn⟩ => ?_
    refine emit_one_inside ⟨Nat.le_trans h1 hn, Nat.le_refl _⟩ ?_
    extract_lets moved shrunk
    have len : shrunk.eventQueueLen = s.eventQueueLen - 1 := short.pred (Nat.le_trans h1 hn)
    have shorter := short.of_pred len
    clear_value shrunk
    split
    · exact loggedPlace_inside shorter h1 (by omega) moved _
    · exact .pure shorter

theorem loggedDropsWith_inside {drop : Value → State → LoggedRes}
    (one : ∀ v {s}, Short s → (drop v s).Meets Slot.Inside Short) (vs : List Value) {s : State}
    (short : Short s) : (loggedDropsWith drop vs s).Meets Slot.Inside Short := by
  induction vs generalizing s with
  | nil => exact .pure short
  | cons v vs ih => exact (one v short).bind fun t _ shorter => ih shorter

theorem loggedDropBody_inside {drop : Value → State → LoggedRes}
    (one : ∀ v {s}, Short s → (drop v s).Meets Slot.Inside Short) (a : Addr) (body : Body)
    {s : State} (short : Short s) : (loggedDropBody drop a body s).Meets Slot.Inside Short := by
  cases body with
  | sv _ =>
      refine (loggedUnschedule_inside short a).bind fun t _ short => ?_
      refine silent_bind_inside fun v _ => ?_
      refine (one v.value short).bind fun u _ short => ?_
      refine silent_bind_inside fun w _ => ?_
      split
      · exact .pure short
      · exact one w.laterValue short
  | time _ | adt _ _ | closure _ _ _ _ | array _ | blob _ =>
      exact loggedDropsWith_inside one _ short

theorem loggedDropWith_inside (fuel : Nat) (v : Value) {s : State} (short : Short s) :
    (loggedDropWith fuel v s).Meets Slot.Inside Short := by
  induction fuel generalizing v s with
  | zero =>
      cases v with
      | packed n => exact .pure short
      | heap a => exact .stop
  | succ fuel ih =>
      cases v with
      | packed n => exact .pure short
      | heap a =>
          refine silent_bind_inside fun o _ => ?_
          extract_lets refCount counted
          have same : Short counted := short
          clear_value refCount counted
          split
          · refine silent_bind_inside fun o _ => ?_
            exact (loggedDropBody_inside (fun v _ short => ih v short) a o.body same).bind
              fun t _ short => .pure short
          · exact .pure same

theorem loggedActivate_inside (sizes : QueueSizes) (act : ActPtr) {s : State} (short : Short s) :
    (loggedActivate sizes act s).Meets Slot.Inside Short := by
  refine silent_bind_inside fun a _ => ?_
  split
  · exact .pure short
  · extract_lets grown
    have same : Short grown := short
    split
    · exact .stop
    · exact (loggedActPercolateUp_inside _ act grown).imp fun t kept => kept.short same

theorem loggedWake_inside (sizes : QueueSizes) (wakes : Nat → Bool) (fuel : Nat)
    (first : Option TriggerPtr) {s : State} (short : Short s) :
    (loggedWake sizes wakes fuel first s).Meets Slot.Inside Short := by
  induction fuel generalizing first s with
  | zero =>
      cases first with
      | none => exact .pure short
      | some trig => exact .stop
  | succ fuel ih =>
      cases first with
      | none => exact .pure short
      | some trig =>
          refine silent_bind_inside fun t _ => silent_bind_inside fun a _ => ?_
          have woken : (if wakes a.priority then loggedActivate sizes t.act s
              else pure s).Meets Slot.Inside Short := by
            split
            · exact loggedActivate_inside sizes t.act short
            · exact .pure short
          exact woken.bind fun u _ short => ih t.next short

/-- A time set where there was none adds an entry, and the check of the capacity
comes first; another moves its entry, and positions are doubled. -/
theorem loggedLater_inside (sizes : QueueSizes) (var : Addr) (when : Nat) (val : Value)
    {s : State} (short : Short s) :
    (loggedLater sizes var when val s).Meets Slot.Inside fun _ => True := by
  unfold loggedLater
  split
  · exact .stop
  · refine silent_bind_inside fun v _ => ?_
    extract_lets stamped grown
    have same : Short stamped := short
    split
    · split
      · exact .stop
      · refine (loggedEventPercolateUp_inside _ var grown).bind fun t _ _ => ?_
        exact silent_bind_inside fun w _ => .pure trivial
    · refine (loggedDropWith_inside _ v.laterValue same).bind fun t _ short => ?_
      refine (loggedFindQueuedEvent_inside var t).bind fun hole _ ⟨h1, hn⟩ => ?_
      refine (loggedPlace_inside short h1 hn var when).bind fun u _ _ => ?_
      exact silent_bind_inside fun w _ => .pure trivial

theorem loggedUpdate_inside (sizes : QueueSizes) (sv : Addr) {s : State} (short : Short s) :
    (loggedUpdate sizes sv s).Meets Slot.Inside Short := by
  refine silent_bind_inside fun v _ => ?_
  split
  · exact .stop
  · refine (loggedDropWith_inside _ v.value short).bind fun t _ short => ?_
    refine silent_bind_inside fun w _ => ?_
    extract_lets updated
    have same : Short updated := short
    exact loggedWake_inside sizes _ _ w.triggers same

/-- A queued variable that is updated is alive still, and so is its entry. -/
theorem ssmUpdate_queued {sizes : QueueSizes} {sv : Addr} {s t : State} (short : Short s)
    (queued : sv ∈ s.queued) (h : ssmUpdate sizes sv s = .ok t) : 1 ≤ t.eventQueueLen := by
  obtain ⟨v, -, h⟩ := bind_eq_ok.mp h
  split at h
  · cases h
  · obtain ⟨u, dropped, h⟩ := bind_eq_ok.mp h
    obtain ⟨w, loaded, h⟩ := bind_eq_ok.mp h
    have live := (State.sv?_eq_some.mp (State.loadSv_eq_ok.mp loaded)).1
    have same := ((ssmDropWith_spares _ dropped short).2 sv trivial live).2
    have kept : sv ∈ u.queued := by
      rwa [← Multiset.count_pos, same, Multiset.count_pos]
    obtain ⟨i, h1, hn, -⟩ := mem_contents.mp kept
    extract_lets updated at h
    have len : t.eventQueueLen = u.eventQueueLen := (wake_sameHeap _ _ h).eventQueueLen
    exact len ▸ Nat.le_trans h1 hn

theorem loggedRemoveTop_inside {s : State} (short : Short s) (h1 : 1 ≤ s.eventQueueLen) :
    (loggedRemoveTop s).Meets Slot.Inside Short := by
  refine emit_one_inside ⟨h1, Nat.le_refl _⟩ ?_
  extract_lets toInsert shrunk
  have len : shrunk.eventQueueLen = s.eventQueueLen - 1 := short.pred h1
  have shorter := short.of_pred len
  split
  · exact (loggedEventPercolateDown_inside shorter 1 toInsert).imp
      fun t same => same.short shorter
  · exact .pure shorter

theorem loggedTickUpdate_inside (sizes : QueueSizes) {s : State} (short : Short s)
    (h1 : 1 ≤ s.eventQueueLen) : (loggedTickUpdate sizes s).Meets Slot.Inside Short := by
  refine emit_one_inside ⟨Nat.le_refl 1, h1⟩ ?_
  refine (loggedUpdate_inside sizes _ short).bind fun t done short' => ?_
  rw [loggedUpdate_result] at done
  exact loggedRemoveTop_inside short'
    (ssmUpdate_queued short (mem_contents_of (Nat.le_refl 1) h1) done)

/-- A pop decrements the length first: `2 ^ 15` records are not too many. -/
theorem loggedTickPop_inside {s : State} (narrow : s.actQueueLen ≤ 2 ^ 15)
    (h1 : 1 ≤ s.actQueueLen) : (loggedTickPop s).Meets Slot.Inside fun _ => True := by
  refine emit_one_inside ⟨Nat.le_refl 1, h1⟩ (silent_bind_inside fun a _ => ?_)
  extract_lets idle toInsert shrunk
  have len : shrunk.actQueueLen = s.actQueueLen - 1 :=
    qIdx_pred (Nat.sub_add_cancel h1).symm (Nat.lt_of_le_of_lt narrow (by decide))
  have room : shrunk.actQueueLen < 2 ^ 15 := len.trans_lt (Nat.sub_one_lt_of_le h1 narrow)
  refine emit_one_inside ⟨h1, Nat.le_refl _⟩ ?_
  refine Logged.Meets.bind (Q := fun _ => True) (.ite (fun _ => ?_) fun _ => .pure trivial)
    fun t _ _ => .pure trivial
  exact (loggedActPercolateDown_inside room 1 toInsert).imp fun _ _ => trivial

end Inside

/-- The calls and loop bodies that move the entries of the queues. -/
inductive QueueOp where
  | activate (act : ActPtr)
  | later (var : Addr) (when : Nat) (val : Value)
  | unschedule (var : Addr)
  | tickUpdate
  | tickPop

namespace QueueOp

def run (sizes : QueueSizes) (s : State) : QueueOp → Res
  | activate act => ssmActivate sizes act s
  | later var when val => ssmSvLaterUnsafe sizes var when val s
  | unschedule var => ssmUnschedule var s
  | tickUpdate => SsmRuntime.tickUpdate sizes s
  | tickPop => do
      let (_, s) ← SsmRuntime.tickPop s
      .ok s

def logged (sizes : QueueSizes) (s : State) : QueueOp → LoggedRes
  | activate act => loggedActivate sizes act s
  | later var when val => loggedLater sizes var when val s
  | unschedule var => loggedUnschedule var s
  | tickUpdate => loggedTickUpdate sizes s
  | tickPop => do
      let (_, s) ← loggedTickPop s
      pure s

/-- The loops of the tick go on while their conditions hold. -/
def Enabled (s : State) : QueueOp → Prop
  | tickUpdate => updateDue s
  | tickPop => s.actQueueLen ≠ 0
  | _ => True

theorem logged_result (sizes : QueueSizes) (s : State) (op : QueueOp) :
    (op.logged sizes s).result = op.run sizes s := by
  cases op with
  | activate act => exact loggedActivate_result sizes act s
  | later var when val => exact loggedLater_result sizes var when val s
  | unschedule var => exact loggedUnschedule_result var s
  | tickUpdate => exact loggedTickUpdate_result sizes s
  | tickPop => exact Logged.result_bind.trans (by rw [loggedTickPop_result]; rfl)

end QueueOp

/-- No queue is longer than it may be. -/
structure Within (sizes : QueueSizes) (s : State) : Prop where
  event_le : s.eventQueueLen ≤ sizes.event
  act_le : s.actQueueLen ≤ sizes.act

/-- Both queues are heaps of what waits, and have room. -/
structure QueuesValid (sizes : QueueSizes) (s : State) : Prop where
  event_le : s.eventQueueLen ≤ sizes.event
  nodup : s.queued.Nodup
  mem : ∀ a, a ∈ s.queued ↔ s.Pending a
  ordered : EventOrdered s
  acts : ActQueueOk sizes s

theorem QueuesValid.within {sizes : QueueSizes} {s : State} (h : QueuesValid sizes s) :
    Within sizes s := ⟨h.event_le, h.acts.len_le⟩

/-- In the states of `V` each access is inside its queue, and what would enter a
full queue is refused with the error of that queue; nothing is stored. -/
structure IndexSafe (sizes : QueueSizes) (V : State → Prop) : Prop where
  inside : ∀ s, V s → ∀ op : QueueOp, op.Enabled s →
    ∀ slot ∈ (op.logged sizes s).log, slot.Inside
  actFull : ∀ s, V s → s.actQueueLen = sizes.act → ∀ act ∈ s.acts.dom,
    (s.acts.val act).scheduled = false →
    ∃ u, ssmActivate sizes act s = .error ⟨.thrown .exhaustedActQueue, u⟩ ∧
      u.actQueue = s.actQueue
  eventFull : ∀ s, V s → s.eventQueueLen = sizes.event → ∀ var v, s.sv? var = some v →
    v.laterTime = ssmNever → ∀ when, s.now ≤ when → ∀ val,
    ∃ u, ssmSvLaterUnsafe sizes var when val s = .error ⟨.thrown .exhaustedEventQueue, u⟩ ∧
      u.eventQueue = s.eventQueue

/-- The capacities whose positions a `q_idx_t` can double. The activation queue
moves entries down only after it has lost one. -/
def Narrow (sizes : QueueSizes) : Prop := sizes.event < 2 ^ 15 ∧ sizes.act ≤ 2 ^ 15

section Capacities
variable {sizes : QueueSizes} {s : State}

theorem IndexSafe.mono {V W : State → Prop} (safe : IndexSafe sizes V) (sub : ∀ s, W s → V s) :
    IndexSafe sizes W where
  inside := fun s h => safe.inside s (sub s h)
  actFull := fun s h => safe.actFull s (sub s h)
  eventFull := fun s h => safe.eventFull s (sub s h)

theorem logged_inside (narrow : Narrow sizes) (within : Within sizes s) (op : QueueOp)
    (enabled : op.Enabled s) : ∀ slot ∈ (op.logged sizes s).log, slot.Inside := by
  have short : Short s := Nat.lt_of_le_of_lt within.event_le narrow.1
  cases op with
  | activate act => exact (loggedActivate_inside sizes act short).log
  | later var when val => exact (loggedLater_inside sizes var when val short).log
  | unschedule var => exact (loggedUnschedule_inside short var).log
  | tickUpdate => exact (loggedTickUpdate_inside sizes short enabled.1).log
  | tickPop =>
      have pop := loggedTickPop_inside (Nat.le_trans within.act_le narrow.2)
        (Nat.one_le_iff_ne_zero.mpr enabled)
      exact (pop.bind fun _ _ _ => .pure trivial : Logged.Meets _ _ fun _ => True).log

theorem ssmActivate_full (narrow : sizes.act ≤ 2 ^ 15) (full : s.actQueueLen = sizes.act)
    {act : ActPtr} (live : act ∈ s.acts.dom) (idle : (s.acts.val act).scheduled = false) :
    ∃ u, ssmActivate sizes act s = .error ⟨.thrown .exhaustedActQueue, u⟩ ∧
      u.actQueue = s.actQueue := by
  have grown : sizes.act < qIdx (s.actQueueLen + 1) := by
    rw [full, qIdx_of_lt (by omega)]
    exact Nat.lt_succ_self _
  refine ⟨{ s with actQueueLen := qIdx (s.actQueueLen + 1) }, ?_, rfl⟩
  unfold ssmActivate
  rw [State.loadAct_of_mem live, ok_bind, if_neg (by simp [idle])]
  exact if_pos grown

theorem ssmSvLaterUnsafe_full (narrow : sizes.event < 2 ^ 15)
    (full : s.eventQueueLen = sizes.event) {var : Addr} {v : Sv} (hv : s.sv? var = some v)
    (idle : v.laterTime = ssmNever) {when : Nat} (later : s.now ≤ when) (val : Value) :
    ∃ u, ssmSvLaterUnsafe sizes var when val s = .error ⟨.thrown .exhaustedEventQueue, u⟩ ∧
      u.eventQueue = s.eventQueue := by
  have grown : sizes.event < qIdx (s.eventQueueLen + 1) := by
    rw [full, qIdx_of_lt (by omega)]
    exact Nat.lt_succ_self _
  refine ⟨{ s.setSv var { v with laterTime := when } with
    eventQueueLen := qIdx (s.eventQueueLen + 1) }, ?_, rfl⟩
  unfold ssmSvLaterUnsafe
  rw [if_neg (Nat.not_lt.mpr later), State.loadSv_of_sv? hv, ok_bind]
  simp only
  rw [if_pos idle]
  exact if_pos grown

theorem indexSafe_of_narrow (narrow : Narrow sizes) : IndexSafe sizes (Within sizes) where
  inside := fun _ within op enabled => logged_inside narrow within op enabled
  actFull := fun _ _ full _ live idle => ssmActivate_full narrow.2 full live idle
  eventFull := fun _ _ full _ _ hv idle _ later val =>
    ssmSvLaterUnsafe_full narrow.1 full hv idle later val

end Capacities

section Level
variable {sizes : QueueSizes} {n m : Nat}

theorem level_valid (event : n ≤ sizes.event) (act : m ≤ sizes.act) :
    QueuesValid sizes (State.level n m) where
  event_le := event
  nodup := (Multiset.nodup_range n).map fun _ _ => Nat.succ.inj
  mem := fun a => by
    refine mem_contents.trans ⟨?_, ?_⟩
    · rintro ⟨i, h1, hn, rfl⟩
      exact ⟨_, State.sv?_eq_some.mpr ⟨Finset.mem_Icc.mpr ⟨h1, hn⟩, rfl⟩, by decide⟩
    · rintro ⟨v, hv, -⟩
      obtain ⟨h1, hn⟩ := Finset.mem_Icc.mp (State.sv?_eq_some.mp hv).1
      exact ⟨a, h1, hn, rfl⟩
  ordered := fun _ _ _ => Nat.le_refl 7
  acts :=
    { len_le := act
      nodup := (Multiset.nodup_range m).map fun _ _ => Nat.succ.inj
      mem := fun a => by
        refine mem_contents.trans ⟨?_, ?_⟩
        · rintro ⟨i, h1, hn, rfl⟩
          exact ⟨Finset.mem_Icc.mpr ⟨h1, hn⟩, rfl⟩
        · rintro ⟨live, -⟩
          obtain ⟨h1, hn⟩ := Finset.mem_Icc.mp live
          exact ⟨a, h1, hn, rfl⟩
      ordered := fun _ _ _ => Nat.le_refl 1 }

/-- Awaiting the same time once more sends the root of a long queue down. -/
theorem level_later_zero (wide : 2 ^ 15 ≤ n) :
    ⟨0, n⟩ ∈ (loggedLater sizes 1 7 (.packed 0) (State.level n m)).log := by
  have one : 1 ≤ n := Nat.le_trans (by decide) wide
  obtain ⟨v, hv, seven, packed⟩ : ∃ v, (State.level n m).sv? 1 = some v ∧ v.laterTime = 7 ∧
      v.laterValue = .packed 0 :=
    ⟨_, State.sv?_eq_some.mpr ⟨Finset.mem_Icc.mpr ⟨Nat.le_refl 1, one⟩, rfl⟩, rfl, rfl⟩
  unfold loggedLater
  rw [if_neg (show ¬ 7 < (State.level n m).now from Nat.not_lt_zero 7)]
  refine Logged.mem_log_bind ((Logged.result_silent _).trans (State.loadSv_of_sv? hv)) ?_
  extract_lets stamped grown
  rw [if_neg (show v.laterTime ≠ ssmNever by rw [seven]; decide)]
  have keys : ∀ a, stamped.laterTimeAt a = 7 := fun a => by
    by_cases ha : a = 1
    · subst ha
      exact State.laterTimeAt_setSv_self _ _ _
    · exact State.laterTimeAt_setSv_of_ne _ _ ha
  have queued : 1 ∈ stamped.queued := mem_contents_of (q := id) (Nat.le_refl 1) one
  obtain ⟨i, found, -, -, hq⟩ := findQueuedEvent_spec queued (by rw [keys]; decide)
  obtain rfl : i = 1 := hq
  have dropped : (loggedDrop v.laterValue stamped).result = .ok stamped := by
    rw [loggedDrop_result, packed, ssmDrop_packed]
  refine Logged.mem_log_bind dropped ?_
  refine Logged.mem_log_bind ((loggedFindQueuedEvent_result 1 stamped).trans found) ?_
  refine Logged.mem_log_left (Logged.mem_log_bind rfl ?_)
  rw [if_pos (Or.inl rfl)]
  exact level_event_zero wide 1 rfl fun a b => (keys a).trans (keys b).symm

/-- The pop of a long queue sends its last record down from the root. -/
theorem level_pop_zero (wide : 2 ^ 15 < m) (short : m < 2 ^ 16) :
    ⟨0, m - 1⟩ ∈ (loggedTickPop (State.level n m)).log := by
  have one : 1 ≤ m := Nat.le_trans (by decide) wide
  have live : 1 ∈ (State.level n m).acts.dom := Finset.mem_Icc.mpr ⟨Nat.le_refl 1, one⟩
  refine Logged.mem_log_bind rfl ?_
  refine Logged.mem_log_bind ((Logged.result_silent _).trans (State.loadAct_of_mem live)) ?_
  extract_lets idle toInsert shrunk
  have len : shrunk.actQueueLen = m - 1 := qIdx_pred (Nat.sub_add_cancel one).symm short
  have keys : ∀ a, shrunk.priorityAt a = 1 := fun a => by
    by_cases ha : a = 1
    · subst ha
      exact congrArg Act.priority (Table.write_val_self _ _ _)
    · exact congrArg Act.priority (Table.write_val_of_ne _ _ ha)
  refine Logged.mem_log_bind rfl (Logged.mem_log_left ?_)
  rw [if_pos (show shrunk.actQueueLen ≠ 0 by rw [len]; omega)]
  exact level_act_zero (by omega) toInsert len fun a b => (keys a).trans (keys b).symm

theorem narrow_of_indexSafe (safe : IndexSafe sizes (QueuesValid sizes)) : Narrow sizes := by
  constructor
  · by_contra wide
    have valid : QueuesValid sizes (State.level (2 ^ 15) 0) :=
      level_valid (Nat.le_of_not_lt wide) (Nat.zero_le _)
    exact not_inside_zero (safe.inside _ valid (.later 1 7 (.packed 0)) trivial _
      (level_later_zero (Nat.le_refl _)))
  · by_contra wide
    obtain ⟨m, room, long, short⟩ : ∃ m ≤ sizes.act, 2 ^ 15 < m ∧ m < 2 ^ 16 :=
      ⟨2 ^ 15 + 1, Nat.lt_of_not_le wide, by decide, by decide⟩
    have valid : QueuesValid sizes (State.level 0 m) := level_valid (Nat.zero_le _) room
    have waiting : QueueOp.tickPop.Enabled (State.level 0 m) := Nat.ne_zero_of_lt long
    exact not_inside_zero (safe.inside _ valid .tickPop waiting _
      (Logged.mem_log_left (level_pop_zero long short)))

end Level

/-- The capacities below `2 ^ 15`, and `2 ^ 15` for activations, are the safe
ones, whatever the queues hold or if they are the heaps they should be. -/
theorem indexSafe_iff (sizes : QueueSizes) :
    (IndexSafe sizes (Within sizes) ↔ Narrow sizes) ∧
      (IndexSafe sizes (QueuesValid sizes) ↔ Narrow sizes) where
  left := ⟨fun safe => narrow_of_indexSafe (safe.mono fun _ h => h.within), indexSafe_of_narrow⟩
  right := ⟨narrow_of_indexSafe,
    fun narrow => (indexSafe_of_narrow narrow).mono fun _ h => h.within⟩

/-- An event queue of `2 ^ 15` entries leaves its array. -/
theorem not_indexSafe : ¬ ∀ sizes : QueueSizes, 1 ≤ sizes.event → sizes.event ≤ 65535 →
    1 ≤ sizes.act → sizes.act ≤ 65535 → IndexSafe sizes (QueuesValid sizes) := by
  intro all
  have safe := all ⟨2 ^ 15, 1024⟩ (by decide) (by decide) (by decide) (by decide)
  exact Nat.lt_irrefl _ (narrow_of_indexSafe safe).1

end SsmRuntime
