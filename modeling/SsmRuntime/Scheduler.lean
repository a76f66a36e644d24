import SsmRuntime.Memory

/-!
The scheduler: activation, assignment, delayed assignment, trigger lists and
the tick. The two loops of `ssm_tick` are cut into one iteration each, so that
runs can be followed step by step; what a step function does is a parameter.
-/
namespace SsmRuntime

def ssmEnterInt (p : ActPtr) (step : Nat) (parent : ActPtr) (priority : Nat)
    (depth : Nat) (frame : List Value) (s : State) : Res := do
  let s := { s with acts := s.acts.alloc p ⟨step, parent, 0, 0, priority, depth, false, frame⟩ }
  let a ← s.loadAct parent
  let s := s.setAct parent { a with children := (a.children + 1) % 2 ^ 16 }
  .ok { s with numProcesses := s.numProcesses + 1 }

def ssmActivate (sizes : QueueSizes) (act : ActPtr) (s : State) : Res := do
  let a ← s.loadAct act
  if a.scheduled then .ok s
  else
    let s := { s with actQueueLen := qIdx (s.actQueueLen + 1) }
    if sizes.act < s.actQueueLen then ssmThrow .exhaustedActQueue s
    else actQueuePercolateUp s.actQueueLen act s

/-- The loop over a trigger list that wakes the records of the priorities told. -/
def wake (sizes : QueueSizes) (wakes : Nat → Bool) :
    Nat → Option TriggerPtr → State → Res
  | _, none, s => .ok s
  | 0, some _, s => .error ⟨.diverges, s⟩
  | fuel + 1, some trig, s => do
      let t ← s.loadTrigger trig
      let a ← s.loadAct t.act
      let s ← (if wakes a.priority then ssmActivate sizes t.act s else .ok s)
      wake sizes wakes fuel t.next s

def ssmSvAssignUnsafe (sizes : QueueSizes) (var : Addr) (prio : Nat) (val : Value)
    (s : State) : Res := do
  let v ← s.loadSv var
  let s := s.setSv var { v with value := val, lastUpdated := s.now }
  wake sizes (fun p => prio < p) s.triggers.dom.card v.triggers s

def ssmAssign (sizes : QueueSizes) (var : Addr) (prio : Nat) (val : Value)
    (s : State) : Res := do
  let s ← ssmDup val s
  let v ← s.loadSv var
  let s ← ssmDrop v.value s
  ssmSvAssignUnsafe sizes var prio val s

def ssmSvLaterUnsafe (sizes : QueueSizes) (var : Addr) (when : Nat) (val : Value)
    (s : State) : Res := do
  if when < s.now then ssmThrow .invalidTime s
  else
    let v ← s.loadSv var
    let s := s.setSv var { v with laterTime := when }
    if v.laterTime = ssmNever then
      let s := { s with eventQueueLen := qIdx (s.eventQueueLen + 1) }
      if sizes.event < s.eventQueueLen then ssmThrow .exhaustedEventQueue s
      else
        let s ← eventQueuePercolateUp s.eventQueueLen var s
        let v ← s.loadSv var
        .ok (s.setSv var { v with laterValue := val })
    else
      let s ← ssmDrop v.laterValue s
      let hole ← findQueuedEvent var s
      let s ← eventQueuePlace hole var when s
      let v ← s.loadSv var
      .ok (s.setSv var { v with laterValue := val })

def ssmLater (sizes : QueueSizes) (var : Addr) (when : Nat) (val : Value)
    (s : State) : Res := do
  let s ← ssmDup val s
  ssmSvLaterUnsafe sizes var when val s

def ssmSvSensitize (var : Addr) (trig : TriggerPtr) (s : State) : Res := do
  let v ← s.loadSv var
  let t ← s.loadTrigger trig
  let s := s.setTrigger trig { t with next := v.triggers }
  let s ← (match v.triggers with
    | some first => do
        let f ← s.loadTrigger first
        .ok (s.setTrigger first { f with prevPtr := .nextOf trig })
    | none => .ok s)
  let s := s.setSv var { v with triggers := some trig }
  let t ← s.loadTrigger trig
  .ok (s.setTrigger trig { t with prevPtr := .triggersOf var })

def ssmSvDesensitize (trig : TriggerPtr) (s : State) : Res := do
  let t ← s.loadTrigger trig
  let s ← (match t.prevPtr with
    | .triggersOf var => do
        let v ← s.loadSv var
        .ok (s.setSv var { v with triggers := t.next })
    | .nextOf pred => do
        let p ← s.loadTrigger pred
        .ok (s.setTrigger pred { p with next := t.next }))
  let t ← s.loadTrigger trig
  match t.next with
  | some succ => do
      let n ← s.loadTrigger succ
      .ok (s.setTrigger succ { n with prevPtr := t.prevPtr })
  | none => .ok s

def ssmReset (s : State) : State := { s with now := 0, eventQueueLen := 0, actQueueLen := 0 }

def ssmSetNow (next : Nat) (s : State) : Res :=
  if next ≤ s.now then ssmThrow .invalidTime s
  else if s.eventQueueLen ≠ 0 ∧ s.laterTimeAt (s.eventQueue 1) < next then ssmThrow .notReady s
  else .ok { s with now := next }

def ssmUpdate (sizes : QueueSizes) (sv : Addr) (s : State) : Res := do
  let v ← s.loadSv sv
  if s.now ≠ v.laterTime then ssmThrow .notReady s
  else
    let s ← ssmDrop v.value s
    let v ← s.loadSv sv
    let s := s.setSv sv
      { v with value := v.laterValue, lastUpdated := s.now, laterTime := ssmNever }
    wake sizes (fun _ => true) s.triggers.dom.card v.triggers s

/-- What `ssm_tick` does before its loops. -/
def tickEnter (s : State) : Res :=
  if s.actQueueLen ≠ 0 ∧ ssmNextEventTime s ≠ ssmNever ∧ ssmNextEventTime s < s.now then
    ssmThrow .notReady s
  else if s.actQueueLen = 0 ∧ 0 < s.eventQueueLen then ssmSetNow (ssmNextEventTime s) s
  else .ok s

/-- The condition of the first loop of `ssm_tick`. -/
def updateDue (s : State) : Prop :=
  0 < s.eventQueueLen ∧ s.laterTimeAt (s.eventQueue 1) = s.now

instance (s : State) : Decidable (updateDue s) := inferInstanceAs (Decidable (_ ∧ _))

/-- Remove the top event: the last one is put in its place and percolates down. -/
def tickRemoveTop (s : State) : Res :=
  let toInsert := s.eventQueue s.eventQueueLen
  let s := { s with eventQueueLen := qIdx (s.eventQueueLen + 2 ^ 16 - 1) }
  if s.eventQueueLen ≠ 0 then eventQueuePercolateDown 1 toInsert s else .ok s

/-- The body of the first loop of `ssm_tick`. -/
def tickUpdate (sizes : QueueSizes) (s : State) : Res := do
  let s ← ssmUpdate sizes (s.eventQueue 1) s
  tickRemoveTop s

def tickUpdates (sizes : QueueSizes) : Nat → State → Res
  | 0, s => if updateDue s then .error ⟨.diverges, s⟩ else .ok s
  | fuel + 1, s =>
      if updateDue s then do
        let s ← tickUpdate sizes s
        tickUpdates sizes fuel s
      else .ok s

/-- The body of the second loop of `ssm_tick`, up to the call of the step function. -/
def tickPop (s : State) : Except Stop (ActPtr × State) := do
  let toRun := s.actQueue 1
  let a ← s.loadAct toRun
  let s := s.setAct toRun { a with scheduled := false }
  let toInsert := s.actQueue s.actQueueLen
  let s := { s with actQueueLen := qIdx (s.actQueueLen + 2 ^ 16 - 1) }
  let s ← (if s.actQueueLen ≠ 0 then actQueuePercolateDown 1 toInsert s else .ok s)
  .ok (toRun, s)

/-- What each `step` pointer does when it is called on a record. -/
abbrev Steps := Nat → ActPtr → State → Res

def tickSteps (steps : Steps) : Nat → State → Res
  | 0, s => if s.actQueueLen = 0 then .ok s else .error ⟨.diverges, s⟩
  | fuel + 1, s =>
      if s.actQueueLen = 0 then .ok s
      else do
        let (toRun, s) ← tickPop s
        let a ← s.loadAct toRun
        let s ← steps a.step toRun s
        tickSteps steps fuel s

/-- `ssm_leave` up to the call of the parent's step function: the parent that
has no children left, if it is so. -/
def leaveFree (act : ActPtr) (s : State) : Except Stop (Option ActPtr × State) := do
  let s := { s with numProcesses := s.numProcesses - 1 }
  let a ← s.loadAct act
  let s := { s with acts := s.acts.release act }
  let p ← s.loadAct a.caller
  let children := (p.children + 2 ^ 16 - 1) % 2 ^ 16
  let s := s.setAct a.caller { p with children := children }
  .ok (if children = 0 then some a.caller else none, s)

def ssmLeave (steps : Steps) (act : ActPtr) (s : State) : Res := do
  let (parent, s) ← leaveFree act s
  match parent with
  | none => .ok s
  | some p => do
      let a ← s.loadAct p
      steps a.step p s

def ssmTick (sizes : QueueSizes) (steps : Steps) (fuel : Nat) (s : State) : Res := do
  let s ← tickEnter s
  let s ← tickUpdates sizes s.eventQueueLen s
  tickSteps steps fuel s

section Returned
variable {s t : State}

/-- Scheduling writes the variable and the event queue; the value of a pending
event is dropped in between. -/
theorem ssmSvLaterUnsafe_eq_ok {sizes : QueueSizes} {var : Addr} {when : Nat} {val : Value}
    (h : ssmSvLaterUnsafe sizes var when val s = .ok t) :
    ∃ v w u q n, s.sv? var = some v ∧
      (u = s.setSv var { v with laterTime := when } ∨
        ssmDrop v.laterValue (s.setSv var { v with laterTime := when }) = .ok u) ∧
      u.sv? var = some w ∧ t = (u.setSv var { w with laterValue := val }).withQueue q n := by
  unfold ssmSvLaterUnsafe at h
  split at h
  · cases h
  · obtain ⟨v, loaded, h⟩ := bind_eq_ok.mp h
    have here := State.loadSv_eq_ok.mp loaded
    simp only at h
    split at h
    · split at h
      · cases h
      · obtain ⟨u, raised, h⟩ := bind_eq_ok.mp h
        obtain ⟨q, rfl⟩ := eventQueuePercolateUp_eq_ok raised
        obtain ⟨w, again, h⟩ := bind_eq_ok.mp h
        have kept := State.loadSv_eq_ok.mp again
        exact ⟨v, w, _, q, _, here, Or.inl rfl, kept, (Except.ok.inj h).symm⟩
    · obtain ⟨u, dropped, h⟩ := bind_eq_ok.mp h
      obtain ⟨hole, -, h⟩ := bind_eq_ok.mp h
      obtain ⟨u', placed, h⟩ := bind_eq_ok.mp h
      obtain ⟨q, rfl⟩ := eventQueuePlace_eq_ok placed
      obtain ⟨w, again, h⟩ := bind_eq_ok.mp h
      have kept := State.loadSv_eq_ok.mp again
      exact ⟨v, w, u, q, _, here, Or.inr dropped, kept, (Except.ok.inj h).symm⟩

/-- Sensitizing writes the head of one list, and triggers. -/
theorem ssmSvSensitize_eq_ok {var : Addr} {trig : TriggerPtr}
    (h : ssmSvSensitize var trig s = .ok t) :
    ∃ v triggers, s.sv? var = some v ∧
      t = { s.setSv var { v with triggers := some trig } with triggers := triggers } := by
  obtain ⟨v, loaded, h⟩ := bind_eq_ok.mp h
  obtain ⟨f, -, h⟩ := bind_eq_ok.mp h
  obtain ⟨u, linked, h⟩ := bind_eq_ok.mp h
  obtain ⟨g, -, h⟩ := bind_eq_ok.mp h
  cases h
  split at linked
  · obtain ⟨n, -, linked⟩ := bind_eq_ok.mp linked
    cases linked
    exact ⟨v, _, State.loadSv_eq_ok.mp loaded, rfl⟩
  · cases linked
    exact ⟨v, _, State.loadSv_eq_ok.mp loaded, rfl⟩

/-- Desensitizing writes triggers, and the head of a list at most. -/
theorem ssmSvDesensitize_eq_ok {trig : TriggerPtr} (h : ssmSvDesensitize trig s = .ok t) :
    (∃ triggers, t = { s with triggers := triggers }) ∨
      ∃ var v first triggers, s.sv? var = some v ∧
        t = { s.setSv var { v with triggers := first } with triggers := triggers } := by
  obtain ⟨f, -, h⟩ := bind_eq_ok.mp h
  obtain ⟨u, unlinked, h⟩ := bind_eq_ok.mp h
  obtain ⟨g, -, h⟩ := bind_eq_ok.mp h
  have last : ∃ triggers, t = { u with triggers := triggers } := by
    split at h
    · obtain ⟨n, -, h⟩ := bind_eq_ok.mp h
      exact ⟨_, (Except.ok.inj h).symm⟩
    · exact ⟨_, (Except.ok.inj h).symm⟩
  obtain ⟨triggers, rfl⟩ := last
  split at unlinked
  · obtain ⟨v, loaded, unlinked⟩ := bind_eq_ok.mp unlinked
    cases unlinked
    exact Or.inr ⟨_, v, _, triggers, State.loadSv_eq_ok.mp loaded, rfl⟩
  · obtain ⟨n, -, unlinked⟩ := bind_eq_ok.mp unlinked
    cases unlinked
    exact Or.inl ⟨triggers, rfl⟩

theorem ssmSetNow_eq_ok {next : Nat} (run : ssmSetNow next s = .ok t) :
    s.now < next ∧ (s.eventQueueLen ≠ 0 → next ≤ ssmNextEventTime s) ∧
      t = { s with now := next } := by
  unfold ssmSetNow at run
  split at run
  · simp [ssmThrow] at run
  · rename_i late
    split at run
    · simp [ssmThrow] at run
    · rename_i first
      refine ⟨by omega, fun some' => ?_, (Except.ok.inj run).symm⟩
      rw [ssmNextEventTime, if_neg some']
      by_contra early
      exact first ⟨some', by omega⟩

theorem tickEnter_eq_ok (run : tickEnter s = .ok t) :
    t = s ∨ ssmSetNow (ssmNextEventTime s) s = .ok t := by
  unfold tickEnter at run
  split at run
  · simp [ssmThrow] at run
  · split at run
    · exact Or.inr run
    · exact Or.inl (Except.ok.inj run).symm

theorem tickRemoveTop_eq_ok (h : tickRemoveTop s = .ok t) : ∃ q n, t = s.withQueue q n := by
  unfold tickRemoveTop at h
  extract_lets toInsert shrunk at h
  have filled : ∃ q, t = shrunk.withQueue q shrunk.eventQueueLen := by
    split at h
    · exact eventQueuePercolateDown_eq_ok h
    · exact ⟨shrunk.eventQueue, (Except.ok.inj h).symm⟩
  obtain ⟨q, filled⟩ := filled
  rw [filled]
  exact ⟨q, shrunk.eventQueueLen, State.withQueue_withQueue s s.eventQueue q _ _⟩

end Returned

section Records
variable {s : State}

/-- The state after the enter function. -/
def entered (s : State) (child : ActPtr) (f : Nat) (parent : ActPtr) (prio depth : Nat)
    (argv : List Value) : State :=
  { s with
    acts := (s.acts.alloc child ⟨f, parent, 0, 0, prio, depth, false, argv⟩).write parent
      { s.acts.val parent with children := ((s.acts.val parent).children + 1) % 2 ^ 16 }
    numProcesses := s.numProcesses + 1 }

theorem ssmEnterInt_eq {child parent : ActPtr} (fresh : child ∉ s.acts.dom)
    (live : parent ∈ s.acts.dom) (f prio depth : Nat) (argv : List Value) :
    ssmEnterInt child f parent prio depth argv s =
      .ok (entered s child f parent prio depth argv) := by
  have other : parent ≠ child := by
    rintro rfl
    exact fresh live
  rw [ssmEnterInt, State.loadAct_of_mem (Finset.mem_insert_of_mem live), ok_bind]
  refine congrArg Except.ok ?_
  simp only [entered, State.setAct, Table.alloc_val_of_ne _ _ other]

/-- The state after a departure, when the parent is not called yet. -/
def departed (s : State) (act : ActPtr) : State :=
  let parent := (s.acts.val act).caller
  { s with
    acts := (s.acts.release act).write parent { s.acts.val parent with
      children := ((s.acts.val parent).children + 2 ^ 16 - 1) % 2 ^ 16 }
    numProcesses := s.numProcesses - 1 }

theorem leaveFree_eq {act : ActPtr} (live : act ∈ s.acts.dom)
    (parent : (s.acts.val act).caller ∈ s.acts.dom) (other : (s.acts.val act).caller ≠ act) :
    leaveFree act s =
      .ok (if ((departed s act).acts.val (s.acts.val act).caller).children = 0
        then some (s.acts.val act).caller else none, departed s act) := by
  have first : State.loadAct { s with numProcesses := s.numProcesses - 1 } act =
      .ok (s.acts.val act) := State.loadAct_of_mem live
  have second : State.loadAct { s with
      acts := s.acts.release act
      numProcesses := s.numProcesses - 1 } (s.acts.val act).caller =
        .ok (s.acts.val (s.acts.val act).caller) :=
    State.loadAct_of_mem (Finset.mem_erase.mpr ⟨other, parent⟩)
  simp only [leaveFree, first, ok_bind, second]
  rw [departed, Table.write_val_self]
  rfl

end Records

/-- The address of `ssm_top_parent`. No record stands at address 0. -/
def ssmTopParent : ActPtr := 1

/-- The state a program starts in: `ssm_top_parent` alone, its fields zero. -/
def boot : State where
  objs := ⟨∅, fun _ => ⟨0, .blob 0⟩⟩
  acts := ⟨{ssmTopParent}, fun _ => ⟨0, 0, 0, 0, 0, 0, false, []⟩⟩
  triggers := ⟨∅, fun _ => ⟨none, .triggersOf 0, 0⟩⟩
  eventQueue := fun _ => 0
  eventQueueLen := 0
  actQueue := fun _ => 0
  actQueueLen := 0
  now := 0
  numProcesses := 0

end SsmRuntime
