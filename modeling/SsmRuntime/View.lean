import SsmRuntime.Triggers

/-!
An abstract scheduler. Its state is what the queues and lists are for: the
time, what each variable holds and awaits, the records with their flags, and
the set of triggers of each variable. The layout of the heaps and the order of
the lists are not part of it. Each operation of the runtime on packed values
computes the operation of the same name on views.
-/
namespace SsmRuntime

structure View where
  now : Nat
  vars : Finset Addr
  var : Addr → Option Sv
  records : Finset ActPtr
  record : ActPtr → Option Act
  trigger : TriggerPtr → Option ActPtr
  triggers : Addr → Finset TriggerPtr

namespace View

theorem ext' {V W : View} (now : V.now = W.now) (vars : V.vars = W.vars)
    (var : ∀ x, V.var x = W.var x) (records : V.records = W.records)
    (record : ∀ a, V.record a = W.record a) (trigger : ∀ t, V.trigger t = W.trigger t)
    (triggers : ∀ x, V.triggers x = W.triggers x) : V = W := by
  cases V
  cases W
  simp_all only [View.mk.injEq]
  exact ⟨trivial, trivial, funext var, trivial, funext record, funext trigger, funext triggers⟩

def Pending (V : View) (x : Addr) : Prop := ∃ v ∈ V.var x, v.laterTime ≠ ssmNever

instance (V : View) (x : Addr) : Decidable (V.Pending x) :=
  inferInstanceAs (Decidable (∃ v ∈ V.var x, v.laterTime ≠ ssmNever))

def Scheduled (V : View) (a : ActPtr) : Prop := ∃ r ∈ V.record a, r.scheduled = true

instance (V : View) (a : ActPtr) : Decidable (V.Scheduled a) :=
  inferInstanceAs (Decidable (∃ r ∈ V.record a, r.scheduled = true))

def pendingSet (V : View) : Finset Addr := V.vars.filter V.Pending

def scheduledSet (V : View) : Finset ActPtr := V.records.filter V.Scheduled

def mapVar (V : View) (x : Addr) (f : Sv → Sv) : View :=
  { V with var := fun y => if y = x then (V.var y).map f else V.var y }

def mapRecord (V : View) (a : ActPtr) (f : Act → Act) : View :=
  { V with record := fun b => if b = a then (V.record b).map f else V.record b }

/-- Set the `scheduled` flag of the records told. -/
def wake (V : View) (A : Finset ActPtr) : View :=
  { V with record := fun a => (V.record a).map fun r =>
      { r with scheduled := r.scheduled || decide (a ∈ A) } }

/-- The records with a trigger on a variable, of the priorities told. -/
def listeners (V : View) (x : Addr) (wakes : Nat → Bool) : Finset ActPtr :=
  V.records.filter fun a => (∃ t ∈ V.triggers x, V.trigger t = some a) ∧
    ∃ r ∈ V.record a, wakes r.priority = true

def assign (V : View) (x : Addr) (prio : Nat) (val : Value) : View :=
  (V.mapVar x fun v => { v with value := val, lastUpdated := V.now }).wake
    (V.listeners x fun p => prio < p)

def later (V : View) (x : Addr) (when : Nat) (val : Value) : View :=
  V.mapVar x fun v => { v with laterTime := when, laterValue := val }

def unschedule (V : View) (x : Addr) : View :=
  V.mapVar x fun v => { v with laterTime := ssmNever }

def sensitize (V : View) (x : Addr) (t : TriggerPtr) : View :=
  { V with triggers := fun y => if y = x then insert t (V.triggers y) else V.triggers y }

def desensitize (V : View) (t : TriggerPtr) : View :=
  { V with triggers := fun y => (V.triggers y).erase t }

def setNow (V : View) (next : Nat) : View := { V with now := next }

def pop (V : View) (a : ActPtr) : View := V.mapRecord a fun r => { r with scheduled := false }

/-- What an update writes to a variable at a time. -/
def deliver (now : Nat) (v : Sv) : Sv :=
  { v with value := v.laterValue, lastUpdated := now, laterTime := ssmNever }

/-- Update one variable and wake all its listeners. -/
def update (V : View) (x : Addr) : View :=
  (V.mapVar x (deliver V.now)).wake (V.listeners x fun _ => true)

end View

/-- What a state shows. -/
def State.view (s : State) : View where
  now := s.now
  vars := s.objs.dom.filter fun x => (s.sv? x).isSome
  var := s.seen?
  records := s.acts.dom
  record := s.acts.get?
  trigger := fun t => (s.triggers.get? t).map Trigger.act
  triggers := fun x => if (s.sv? x).isSome then (triggersOf s x).toFinset else ∅

/-- Both queues and all trigger lists are in order, and no value is a reference. -/
structure WellFormed (sizes : QueueSizes) (s : State) : Prop where
  queue : EventQueueOk s
  order : EventOrdered s
  fits : s.eventQueueLen ≤ sizes.event
  packed : ∀ x v, s.sv? x = some v → ssmOnHeap v.value = false ∧
    (v.laterTime ≠ ssmNever → ssmOnHeap v.laterValue = false)
  acts : ActQueueOk sizes s
  triggers : TriggersOk s

section Reading
variable {s : State}

theorem seen?_of_sv? {x : Addr} {v : Sv} (h : s.sv? x = some v) : s.seen? x = some v.seen := by
  rw [State.seen?, h, Option.map_some]

theorem view_pending (s : State) (x : Addr) : s.view.Pending x ↔ s.Pending x := by
  simp only [View.Pending, State.view, State.Pending, Option.mem_def, State.seen?_eq_some]
  constructor
  · rintro ⟨w, ⟨v, hv, rfl⟩, hne⟩
    exact ⟨v, hv, hne⟩
  · rintro ⟨v, hv, hne⟩
    exact ⟨v.seen, ⟨v, hv, rfl⟩, hne⟩

theorem view_scheduled (s : State) (a : ActPtr) : s.view.Scheduled a ↔ s.Scheduled a := by
  simp only [View.Scheduled, State.view, Option.mem_def, Table.get?_eq_some, State.Scheduled]
  constructor
  · rintro ⟨r, ⟨ha, rfl⟩, hr⟩
    exact ⟨ha, hr⟩
  · rintro ⟨ha, hr⟩
    exact ⟨_, ⟨ha, rfl⟩, hr⟩

theorem view_scheduledSet (s : State) : s.view.scheduledSet = scheduledSet s := by
  ext a
  rw [View.scheduledSet, Finset.mem_filter, view_scheduled, mem_scheduledSet]
  exact ⟨And.right, fun h => ⟨h.1, h⟩⟩

theorem WellFormed.card_pending {sizes : QueueSizes} (wf : WellFormed sizes s) :
    s.view.pendingSet.card = s.eventQueueLen := by
  have same : s.view.pendingSet = s.queued.toFinset := by
    ext x
    rw [View.pendingSet, Finset.mem_filter, view_pending, Multiset.mem_toFinset, wf.queue.mem]
    refine ⟨And.right, fun h => ⟨?_, h⟩⟩
    obtain ⟨v, hv, hne⟩ := h
    simp only [State.view, Finset.mem_filter]
    exact ⟨(State.sv?_eq_some.mp hv).1, by simp [hv]⟩
  rw [same, Multiset.toFinset_card_of_nodup wf.queue.nodup, State.queued, BinaryHeap.card_contents]

theorem view_triggers {x : Addr} {v : Sv} (h : s.sv? x = some v) :
    s.view.triggers x = (triggersOf s x).toFinset := by
  simp [State.view, h]

theorem view_listeners {x : Addr} {v : Sv} (wakes : Nat → Bool) (tr : TriggersOk s)
    (h : s.sv? x = some v) : s.view.listeners x wakes = listeners s x wakes := by
  ext a
  rw [View.listeners, Finset.mem_filter, view_triggers h, mem_listeners]
  simp only [State.view, List.mem_toFinset, Option.mem_def, Table.get?_eq_some,
    Option.map_eq_some_iff]
  constructor
  · rintro ⟨-, ⟨t, ht, tr', ⟨-, rfl⟩, act⟩, r, ⟨-, rfl⟩, up⟩
    exact ⟨⟨t, ht, act⟩, up⟩
  · rintro ⟨⟨t, ht, rfl⟩, up⟩
    have live := tr.act x v t h ht
    have trig := (tr.chain x v h).live ht
    exact ⟨live, ⟨t, ht, _, ⟨trig, rfl⟩, rfl⟩, _, ⟨live, rfl⟩, up⟩

end Reading

end SsmRuntime
