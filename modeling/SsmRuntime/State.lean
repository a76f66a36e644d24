import SsmRuntime.Library.Table

/-!
The data of the runtime: values, heap objects, activation records, triggers
and the scheduler's globals. Pointers are numbers, `none` is NULL. Times and
counts are natural numbers that stay inside their machine types; where a type
can wrap, the operation that wraps it reduces the result.
-/
namespace SsmRuntime

abbrev Addr := Nat
abbrev ActPtr := Nat
abbrev TriggerPtr := Nat

/-- `SSM_NEVER`, the largest 64-bit time. -/
def ssmNever : Nat := 2 ^ 64 - 1

inductive SsmError where
  | internalError
  | exhaustedActQueue
  | exhaustedEventQueue
  | exhaustedMemory
  | exhaustedPriority
  | notReady
  | invalidTime
  | invalidMemory
  | platformError
  deriving DecidableEq, Repr

/-- `ssm_value_t`: the low bit tells a packed integer from a heap pointer. -/
inductive Value where
  | packed (val : Nat)
  | heap (ptr : Addr)
  deriving DecidableEq, Repr

def ssmOnHeap : Value → Bool
  | .packed _ => false
  | .heap _ => true

def Value.ptr? : Value → Option Addr
  | .packed _ => none
  | .heap ptr => some ptr

/-- What a trigger's `prev_ptr` addresses: a variable's `triggers` field or
another trigger's `next` field. -/
inductive Link where
  | triggersOf (var : Addr)
  | nextOf (trig : TriggerPtr)
  deriving DecidableEq, Repr

structure Trigger where
  next : Option TriggerPtr
  prevPtr : Link
  act : ActPtr
  deriving DecidableEq, Repr

structure Sv where
  laterTime : Nat
  lastUpdated : Nat
  triggers : Option TriggerPtr
  value : Value
  laterValue : Value
  deriving DecidableEq, Repr

/-- The payload of a heap object, one constructor for each `ssm_kind`. The
field count of an ADT and the length of an array are those of their lists. A
closure owns its first `count` arguments only. -/
inductive Body where
  | time (time : Nat)
  | adt (tag : Nat) (fields : List Value)
  | sv (sv : Sv)
  | closure (f : Nat) (count cap : Nat) (argv : List Value)
  | array (elements : List Value)
  | blob (size : Nat)
  deriving DecidableEq, Repr

structure Obj where
  refCount : Nat
  body : Body
  deriving DecidableEq, Repr

/-- An activation record; `frame` holds the fields its routine adds. -/
structure Act where
  step : Nat
  caller : ActPtr
  pc : Nat
  children : Nat
  priority : Nat
  depth : Nat
  scheduled : Bool
  frame : List Value
  deriving DecidableEq, Repr

structure State where
  objs : Table Obj
  acts : Table Act
  triggers : Table Trigger
  eventQueue : Nat → Addr
  eventQueueLen : Nat
  actQueue : Nat → ActPtr
  actQueueLen : Nat
  now : Nat
  numProcesses : Nat

/-- Why a run ends early: `ssm_throw`, an access through a dead pointer, or a
loop that does not end. -/
inductive Fault where
  | thrown (reason : SsmError)
  | badPointer
  | diverges
  deriving DecidableEq, Repr

structure Stop where
  fault : Fault
  last : State

abbrev Res := Except Stop State

def ssmThrow {α : Type} (reason : SsmError) (s : State) : Except Stop α :=
  .error ⟨.thrown reason, s⟩

def ssmAssert (cond : Bool) (s : State) : Res :=
  if cond then .ok s else ssmThrow .internalError s

@[simp] theorem ok_bind {ε α β : Type} (x : α) (f : α → Except ε β) :
    (Except.ok x >>= f) = f x := rfl

@[simp] theorem error_bind {ε α β : Type} (e : ε) (f : α → Except ε β) :
    (Except.error e >>= f) = .error e := rfl

theorem bind_eq_ok {ε α β : Type} {x : Except ε α} {f : α → Except ε β} {r : β} :
    (x >>= f) = .ok r ↔ ∃ a, x = .ok a ∧ f a = .ok r := by
  cases x with
  | error e => simp
  | ok a => simp

theorem ok_of_toOption {ε α : Type} {x : Except ε α} {a : α} (h : x.toOption = some a) :
    x = .ok a := by
  cases x with
  | error e => cases h
  | ok b => exact congrArg Except.ok (Option.some.inj h)

theorem ssmAssert_of {cond : Bool} (h : cond = true) (s : State) : ssmAssert cond s = .ok s := by
  simp [ssmAssert, h]

theorem ssmAssert_eq_ok {cond : Bool} {s t : State} (h : ssmAssert cond s = .ok t) : t = s := by
  unfold ssmAssert at h
  split at h
  · exact (Except.ok.inj h).symm
  · simp [ssmThrow] at h

theorem cond_of_ssmAssert {cond : Bool} {s t : State} (h : ssmAssert cond s = .ok t) :
    cond = true := by
  cases cond with
  | true => rfl
  | false => cases h

/-- `SSM_EVENT_QUEUE_SIZE` and `SSM_ACT_QUEUE_SIZE`. -/
structure QueueSizes where
  event : Nat
  act : Nat

def defaultSizes : QueueSizes := ⟨2048, 1024⟩

/-- Sizes whose heap indices can be doubled inside a `q_idx_t`; those of the code,
2048 and 1024, are far below. -/
structure SafeSizes extends QueueSizes where
  event_lt : event < 2 ^ 15
  act_lt : act < 2 ^ 15

instance : Coe SafeSizes QueueSizes := ⟨SafeSizes.toQueueSizes⟩

def defaultSafeSizes : SafeSizes := ⟨defaultSizes, by decide, by decide⟩

namespace State

def blankSv : Sv := ⟨ssmNever, ssmNever, none, .packed 0, .packed 0⟩

/-- The scheduled variable stored at an address, read without a check. -/
def svAt (s : State) (var : Addr) : Sv :=
  match (s.objs.val var).body with
  | .sv v => v
  | _ => blankSv

def laterTimeAt (s : State) (var : Addr) : Nat := (s.svAt var).laterTime

def priorityAt (s : State) (act : ActPtr) : Nat := (s.acts.val act).priority

/-- The live scheduled variable at an address. -/
def sv? (s : State) (var : Addr) : Option Sv :=
  match s.objs.get? var with
  | some ⟨_, .sv v⟩ => some v
  | _ => none

def loadSv (s : State) (var : Addr) : Except Stop Sv :=
  match s.sv? var with
  | some v => .ok v
  | none => .error ⟨.badPointer, s⟩

def loadObj (s : State) (a : Addr) : Except Stop Obj :=
  match s.objs.get? a with
  | some o => .ok o
  | none => .error ⟨.badPointer, s⟩

def loadAct (s : State) (act : ActPtr) : Except Stop Act :=
  match s.acts.get? act with
  | some a => .ok a
  | none => .error ⟨.badPointer, s⟩

def loadTrigger (s : State) (trig : TriggerPtr) : Except Stop Trigger :=
  match s.triggers.get? trig with
  | some t => .ok t
  | none => .error ⟨.badPointer, s⟩

def setObj (s : State) (a : Addr) (o : Obj) : State := { s with objs := s.objs.write a o }

def setSv (s : State) (var : Addr) (v : Sv) : State :=
  s.setObj var ⟨(s.objs.val var).refCount, .sv v⟩

def setAct (s : State) (act : ActPtr) (a : Act) : State := { s with acts := s.acts.write act a }

def setTrigger (s : State) (trig : TriggerPtr) (t : Trigger) : State :=
  { s with triggers := s.triggers.write trig t }

theorem sv?_eq_some {s : State} {var : Addr} {v : Sv} :
    s.sv? var = some v ↔ var ∈ s.objs.dom ∧ (s.objs.val var).body = .sv v := by
  unfold sv? Table.get?
  by_cases h : var ∈ s.objs.dom
  · simp only [h, if_true, true_and]
    cases hb : s.objs.val var with
    | mk rc body => cases body <;> simp
  · simp [h]

theorem svAt_of_sv? {s : State} {var : Addr} {v : Sv} (h : s.sv? var = some v) :
    s.svAt var = v := by
  simp [svAt, (sv?_eq_some.mp h).2]

theorem loadSv_of_sv? {s : State} {var : Addr} {v : Sv} (h : s.sv? var = some v) :
    s.loadSv var = .ok v := by simp [loadSv, h]

theorem loadSv_eq_ok {s : State} {var : Addr} {v : Sv} :
    s.loadSv var = .ok v ↔ s.sv? var = some v := by
  unfold loadSv
  cases s.sv? var <;> simp

theorem loadObj_of_mem {s : State} {a : Addr} (h : a ∈ s.objs.dom) :
    s.loadObj a = .ok (s.objs.val a) := by
  rw [loadObj, Table.get?_of_mem h]

theorem loadObj_eq_ok {s : State} {a : Addr} {o : Obj} :
    s.loadObj a = .ok o ↔ a ∈ s.objs.dom ∧ s.objs.val a = o := by
  rw [loadObj, ← Table.get?_eq_some]
  cases s.objs.get? a <;> simp

theorem loadAct_of_mem {s : State} {a : ActPtr} (h : a ∈ s.acts.dom) :
    s.loadAct a = .ok (s.acts.val a) := by
  rw [loadAct, Table.get?_of_mem h]

theorem loadAct_eq_ok {s : State} {a : ActPtr} {r : Act} :
    s.loadAct a = .ok r ↔ a ∈ s.acts.dom ∧ s.acts.val a = r := by
  rw [loadAct, ← Table.get?_eq_some]
  cases s.acts.get? a <;> simp

theorem loadTrigger_of_mem {s : State} {t : TriggerPtr} (h : t ∈ s.triggers.dom) :
    s.loadTrigger t = .ok (s.triggers.val t) := by
  rw [loadTrigger, Table.get?_of_mem h]

theorem sv?_setSv_self {s : State} {var : Addr} {v w : Sv} (h : s.sv? var = some v) :
    (s.setSv var w).sv? var = some w :=
  sv?_eq_some.mpr ⟨(sv?_eq_some.mp h).1, by simp [setSv, setObj]⟩

theorem sv?_setSv_of_ne {s : State} {var a : Addr} (w : Sv) (h : a ≠ var) :
    (s.setSv var w).sv? a = s.sv? a := by
  unfold sv? Table.get?
  simp [setSv, setObj, Table.write_val_of_ne _ _ h]

theorem svAt_setSv_self (s : State) (var : Addr) (w : Sv) : (s.setSv var w).svAt var = w := by
  simp [svAt, setSv, setObj]

theorem laterTimeAt_of_sv? {s : State} {var : Addr} {v : Sv} (h : s.sv? var = some v) :
    s.laterTimeAt var = v.laterTime := by
  rw [laterTimeAt, svAt_of_sv? h]

theorem svAt_setSv_of_ne (s : State) {var a : Addr} (w : Sv) (h : a ≠ var) :
    (s.setSv var w).svAt a = s.svAt a := by
  simp [svAt, setSv, setObj, Table.write_val_of_ne _ _ h]

theorem laterTimeAt_setSv_of_ne (s : State) {var a : Addr} (w : Sv) (h : a ≠ var) :
    (s.setSv var w).laterTimeAt a = s.laterTimeAt a := by
  rw [laterTimeAt, svAt_setSv_of_ne s w h, laterTimeAt]

@[simp] theorem laterTimeAt_setSv_self (s : State) (var : Addr) (w : Sv) :
    (s.setSv var w).laterTimeAt var = w.laterTime := by
  rw [laterTimeAt, svAt_setSv_self]

theorem setSv_setSv (s : State) (var : Addr) (v w : Sv) :
    (s.setSv var v).setSv var w = s.setSv var w := by
  simp [setSv, setObj, Table.write]

/-- The same state with another event queue. -/
def withQueue (s : State) (q : Nat → Addr) (n : Nat) : State :=
  { s with eventQueue := q, eventQueueLen := n }

/-- The same state with another activation queue. -/
def withActQueue (s : State) (q : Nat → ActPtr) (n : Nat) : State :=
  { s with actQueue := q, actQueueLen := n }

@[simp] theorem withQueue_objs (s : State) (q : Nat → Addr) (n : Nat) :
    (s.withQueue q n).objs = s.objs := rfl
@[simp] theorem withQueue_eventQueue (s : State) (q : Nat → Addr) (n : Nat) :
    (s.withQueue q n).eventQueue = q := rfl
@[simp] theorem withQueue_eventQueueLen (s : State) (q : Nat → Addr) (n : Nat) :
    (s.withQueue q n).eventQueueLen = n := rfl
@[simp] theorem withQueue_sv? (s : State) (q : Nat → Addr) (n : Nat) (a : Addr) :
    (s.withQueue q n).sv? a = s.sv? a := rfl
@[simp] theorem withQueue_laterTimeAt (s : State) (q : Nat → Addr) (n : Nat) :
    (s.withQueue q n).laterTimeAt = s.laterTimeAt := rfl
theorem withQueue_setSv (s : State) (q : Nat → Addr) (n : Nat) (var : Addr) (v : Sv) :
    (s.withQueue q n).setSv var v = (s.setSv var v).withQueue q n := rfl
@[simp] theorem withQueue_withQueue (s : State) (q q' : Nat → Addr) (n n' : Nat) :
    (s.withQueue q n).withQueue q' n' = s.withQueue q' n' := rfl
@[simp] theorem setSv_eventQueue (s : State) (var : Addr) (v : Sv) :
    (s.setSv var v).eventQueue = s.eventQueue := rfl
@[simp] theorem setSv_eventQueueLen (s : State) (var : Addr) (v : Sv) :
    (s.setSv var v).eventQueueLen = s.eventQueueLen := rfl
@[simp] theorem setSv_dom (s : State) (var : Addr) (v : Sv) :
    (s.setSv var v).objs.dom = s.objs.dom := rfl

end State

end SsmRuntime
