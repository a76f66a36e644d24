import SsmRuntime.ClosureApply

/-!
Runs of a program over the heap. The world is the state and, for each object,
the number of references the program holds. A tick appears in a run as its
entry, its updates and its pops, with the calls of the step functions between.
-/
namespace SsmRuntime

open BinaryHeap

structure World where
  state : State
  held : Addr → Nat

inductive Call where
  | newTime (p : Addr) (time : Nat)
  | newAdt (p : Addr) (tag : Nat) (fields : List Value)
  | newSv (p : Addr) (val : Value)
  | newClosure (p : Addr) (f cap : Nat)
  | newArray (p : Addr) (elements : List Value)
  | newBlob (p : Addr) (size : Nat)
  | dup (v : Value)
  | drop (v : Value)
  | assign (var : Addr) (prio : Nat) (val : Value)
  | later (var : Addr) (when : Nat) (val : Value)
  | unschedule (var : Addr)
  | sensitize (var : Addr) (trig : TriggerPtr)
  | desensitize (trig : TriggerPtr)
  | enter (child : ActPtr) (step : Nat) (parent : ActPtr) (prio depth : Nat) (frame : List Value)
  | activate (act : ActPtr)
  | closureApply (new : Addr) (child : ActPtr) (closure : Addr) (arg : Value) (parent : ActPtr)
      (prio depth : Nat)
  | closureApplyFinal (child : ActPtr) (closure : Addr) (arg : Value) (parent : ActPtr)
      (prio depth : Nat)
  | setNow (next : Nat)
  | tickEnter
  | tickUpdate
  | tickPop

namespace Call

def exec (sizes : QueueSizes) : Call → State → Res
  | newTime p time, s => .ok (ssmNewTime p time s)
  | newAdt p tag fields, s => .ok (ssmNewAdt p tag fields s)
  | newSv p val, s => .ok (ssmNewSv p val s)
  | newClosure p f cap, s => .ok (ssmNewClosure p f cap s)
  | newArray p elements, s => .ok (ssmNewArray p elements s)
  | newBlob p size, s => .ok (ssmNewBlob p size s)
  | dup v, s => ssmDup v s
  | drop v, s => ssmDrop v s
  | assign var prio val, s => ssmAssign sizes var prio val s
  | later var when val, s => ssmLater sizes var when val s
  | unschedule var, s => ssmUnschedule var s
  | sensitize var trig, s => ssmSvSensitize var trig s
  | desensitize trig, s => ssmSvDesensitize trig s
  | enter child step parent prio depth frame, s =>
      ssmEnterInt child step parent prio depth frame s
  | activate act, s => ssmActivate sizes act s
  | closureApply new child closure arg parent prio depth, s => do
      let (_, s) ← ssmClosureApply sizes new child closure arg parent prio depth s
      .ok s
  | closureApplyFinal child closure arg parent prio depth, s => do
      let (_, s) ← ssmClosureApplyFinal sizes child closure arg parent prio depth s
      .ok s
  | setNow next, s => ssmSetNow next s
  | tickEnter, s => SsmRuntime.tickEnter s
  | tickUpdate, s => SsmRuntime.tickUpdate sizes s
  | tickPop, s => do
      let (_, s) ← SsmRuntime.tickPop s
      .ok s

/-- The references a call takes over from the program. -/
def takes : Call → List Value
  | newAdt _ _ fields => fields
  | newSv _ val => [val]
  | newArray _ elements => elements
  | drop v => [v]
  | closureApply _ _ _ arg _ _ _ => [arg]
  | closureApplyFinal _ closure arg _ _ _ => [.heap closure, arg]
  | _ => []

/-- The references a call hands to the program; the arguments of a child are
held by its record. -/
def gives (s : State) : Call → List Value
  | newTime p _ => [.heap p]
  | newAdt p _ _ => [.heap p]
  | newSv p _ => [.heap p]
  | newClosure p _ _ => [.heap p]
  | newArray p _ => [.heap p]
  | newBlob p _ => [.heap p]
  | dup v => [v]
  | closureApply new _ closure arg _ _ _ =>
      match s.loadClosure closure with
      | .ok c => c.handed arg new
      | .error _ => []
  | closureApplyFinal _ closure arg _ _ _ =>
      match s.loadClosure closure with
      | .ok c => c.handed arg closure
      | .error _ => []
  | _ => []

/-- The references a call duplicates on its own. -/
def dups (s : State) : Call → List Value
  | dup v => [v]
  | assign _ _ val => [val]
  | later _ _ val => [val]
  | closureApply _ _ closure _ _ _ _ =>
      match s.loadClosure closure with
      | .ok c => c.applied
      | .error _ => []
  | _ => []

def allocates : Call → Option Addr
  | newTime p _ => some p
  | newAdt p _ _ => some p
  | newSv p _ => some p
  | newClosure p _ _ => some p
  | newArray p _ => some p
  | newBlob p _ => some p
  | closureApply new _ _ _ _ _ _ => some new
  | _ => none

/-- The variable a call writes. -/
def writes : Call → Option Addr
  | assign var _ _ => some var
  | later var _ _ => some var
  | _ => none

def inRange : Call → Prop
  | newClosure _ _ cap => cap < 256
  | later _ when _ => when < ssmNever
  | _ => True

instance : (c : Call) → Decidable c.inRange
  | newClosure _ _ cap => inferInstanceAs (Decidable (cap < 256))
  | later _ when _ => inferInstanceAs (Decidable (when < ssmNever))
  | newTime _ _ | newAdt _ _ _ | newSv _ _ | newArray _ _ | newBlob _ _ | dup _ | drop _
  | assign _ _ _ | unschedule _ | sensitize _ _ | desensitize _ | enter _ _ _ _ _ _ | activate _
  | closureApply _ _ _ _ _ _ _ | closureApplyFinal _ _ _ _ _ _ | setNow _ | tickEnter
  | tickUpdate | tickPop => inferInstanceAs (Decidable True)

/-- Where in the tick a call may stand. -/
def guarded (s : State) : Call → Prop
  | tickUpdate => updateDue s
  | tickPop => s.actQueueLen ≠ 0
  | _ => True

end Call

def World.after (w : World) (c : Call) (t : State) : World where
  state := t
  held := fun a => w.held a - refsTo a c.takes + refsTo a (c.gives w.state)

/-- What the program owes a call: references it holds, live arguments, counts
with room for another reference, and a heap without cycles. -/
structure Legal (w : World) (c : Call) : Prop where
  fresh : ∀ p ∈ c.allocates, p ∉ w.state.objs.dom
  owned : ∀ v ∈ c.takes, ∀ a ∈ v.ptr?, refsTo a c.takes ≤ w.held a
  lives : ∀ v ∈ c.dups w.state, ∀ a ∈ v.ptr?, a ∈ w.state.objs.dom
  room : ∀ v ∈ c.dups w.state, ∀ a ∈ v.ptr?,
    (w.state.objs.val a).refCount + refsTo a (c.dups w.state) ≤ 255
  var : ∀ a ∈ c.writes, 1 ≤ w.held a ∧ (w.state.sv? a).isSome
  inRange : c.inRange
  guarded : c.guarded w.state
  acyclic : Acyclic w.state

/-- Runs whose steps all meet the condition `P`. -/
inductive Run (sizes : SafeSizes) (P : World → Call → Prop) (w₀ : World) : World → Prop
  | refl : Run sizes P w₀ w₀
  | step {w : World} {c : Call} {t : State} (before : Run sizes P w₀ w) (legal : Legal w c)
      (cond : P w c) (done : c.exec sizes w.state = .ok t) : Run sizes P w₀ (w.after c t)

/-- An exactly counted heap on which nothing is scheduled. -/
structure Start (w : World) : Prop where
  counted : Counted plain w.state ∅ w.held
  alive : ∀ a, a ∈ w.state.objs.dom → 1 ≤ (w.state.objs.val a).refCount
  shaped : ∀ a, a ∈ w.state.objs.dom → (w.state.objs.val a).body.Shaped
  empty : w.state.eventQueueLen = 0
  idle : ∀ a, ¬ w.state.Pending a

/-- Nothing allocated, nothing scheduled. -/
def World.blank : World where
  state :=
    { objs := ⟨∅, fun _ => ⟨0, .blob 0⟩⟩
      acts := ⟨∅, fun _ => ⟨0, 0, 0, 0, 0, 0, false, []⟩⟩
      triggers := ⟨∅, fun _ => ⟨none, .triggersOf 0, 0⟩⟩
      eventQueue := fun _ => 0
      eventQueueLen := 0
      actQueue := fun _ => 0
      actQueueLen := 0
      now := 0
      numProcesses := 0 }
  held := fun _ => 0

theorem Start.of_empty {w : World} (none : w.state.objs.dom = ∅) (unheld : ∀ a, w.held a = 0)
    (empty : w.state.eventQueueLen = 0) : Start w := by
  have off : ∀ a, a ∉ w.state.objs.dom := Finset.eq_empty_iff_forall_notMem.mp none
  refine ⟨⟨fun a ha => absurd (Finset.mem_sdiff.mp ha).1 (off a), fun a _ => ?_,
      fun a ha => absurd (Finset.mem_sdiff.mp ha).1 (off a)⟩,
    fun a ha => absurd ha (off a), fun a ha => absurd ha (off a), empty, fun a ha => off a ha.mem⟩
  rw [unheld, fieldRefs, none, Finset.empty_sdiff, Finset.sum_empty, Nat.add_zero]

theorem start_blank : Start World.blank := .of_empty rfl (fun _ => rfl) rfl

theorem start_boot : Start ⟨boot, fun _ => 0⟩ := .of_empty rfl (fun _ => rfl) rfl

/-- The part of `Legal` that can be decided, given ranks for the objects. -/
def Allowed (rank : Addr → Nat) (w : World) (c : Call) : Prop :=
  (∀ p ∈ c.allocates, p ∉ w.state.objs.dom) ∧
  (∀ v ∈ c.takes, ∀ a ∈ v.ptr?, refsTo a c.takes ≤ w.held a) ∧
  (∀ v ∈ c.dups w.state, ∀ a ∈ v.ptr?, a ∈ w.state.objs.dom) ∧
  (∀ v ∈ c.dups w.state, ∀ a ∈ v.ptr?,
    (w.state.objs.val a).refCount + refsTo a (c.dups w.state) ≤ 255) ∧
  (∀ a ∈ c.writes, 1 ≤ w.held a ∧ (w.state.sv? a).isSome) ∧
  c.inRange ∧ c.guarded w.state ∧ Ranked rank w.state

instance (s : State) : (c : Call) → Decidable (c.guarded s)
  | .tickUpdate => inferInstanceAs (Decidable (updateDue s))
  | .tickPop => inferInstanceAs (Decidable (s.actQueueLen ≠ 0))
  | .newTime _ _ | .newAdt _ _ _ | .newSv _ _ | .newClosure _ _ _ | .newArray _ _ | .newBlob _ _
  | .dup _ | .drop _ | .assign _ _ _ | .later _ _ _ | .unschedule _ | .sensitize _ _
  | .desensitize _ | .enter _ _ _ _ _ _ | .activate _ | .closureApply _ _ _ _ _ _ _
  | .closureApplyFinal _ _ _ _ _ _ | .setNow _ | .tickEnter => inferInstanceAs (Decidable True)

instance (rank : Addr → Nat) (w : World) (c : Call) : Decidable (Allowed rank w c) :=
  inferInstanceAs (Decidable (_ ∧ _ ∧ _ ∧ _ ∧ _ ∧ _ ∧ _ ∧ _))

theorem Allowed.legal {rank : Addr → Nat} {w : World} {c : Call} (h : Allowed rank w c) :
    Legal w c := by
  obtain ⟨fresh, owned, lives, room, var, inRange, guarded, ranked⟩ := h
  exact ⟨fresh, owned, lives, room, var, inRange, guarded, ⟨rank, ranked⟩⟩

/-- A list of calls, as long as each is allowed, meets `P` and does not throw. -/
def runCalls (sizes : SafeSizes) (rank : Addr → Nat) (P : World → Call → Bool) :
    List Call → World → Option World
  | [], w => some w
  | c :: cs, w =>
      if Allowed rank w c ∧ P w c = true then
        match c.exec sizes w.state with
        | .ok t => runCalls sizes rank P cs (w.after c t)
        | .error _ => none
      else none

/-- Where a variable is rescheduled at another time, dropping its old pending
value frees no variable that is queued. -/
def InPlace (w : World) : Call → Prop
  | .later var when val => ∀ v, w.state.sv? var = some v → v.laterTime ≠ ssmNever →
      v.laterTime ≠ when → ∀ a, w.state.Pending a →
        Survives (moved var [v.value]) w.state [val] [] a
  | _ => True

/-- No variable is finalised or unscheduled while its pending value is a
reference. -/
def NoLoss (w : World) : Call → Prop
  | .drop v => ∀ a, HeapPending w.state a → Survives plain w.state [] [v] a
  | .assign var _ val => ∀ v, w.state.sv? var = some v → ∀ a, HeapPending w.state a →
      Survives (moved var v.pendingRefs) w.state [val] [] a
  | .later var _ val => ∀ v, w.state.sv? var = some v → v.laterTime ≠ ssmNever →
      ∀ a, HeapPending w.state a → Survives (moved var [v.value]) w.state [val] [] a
  | .unschedule var => ∀ v, w.state.sv? var = some v → v.laterTime ≠ ssmNever →
      ssmOnHeap v.laterValue = false
  | .tickUpdate => ∀ v, w.state.sv? (w.state.eventQueue 1) = some v →
      ∀ a, HeapPending w.state a →
        Survives (moved (w.state.eventQueue 1) [v.laterValue]) w.state [] [] a
  | _ => True

section Step
variable {sizes : SafeSizes} {w : World} {c : Call} {t : State} {L : Addr → Nat}

/-- What is left of the program's references when the call has taken its own. -/
def World.rest (w : World) (c : Call) (L : Addr → Nat) (a : Addr) : Nat :=
  w.held a - refsTo a c.takes + L a

theorem Legal.held_eq (legal : Legal w c) (a : Addr) :
    w.held a = w.held a - refsTo a c.takes + refsTo a c.takes := by
  by_cases h : refsTo a c.takes = 0
  · omega
  · have member : Value.heap a ∈ c.takes := List.count_pos_iff.mp (Nat.pos_of_ne_zero h)
    have := legal.owned _ member a rfl
    omega

theorem Legal.lives_of (legal : Legal w c) {v : Value} (hv : v ∈ c.dups w.state) :
    Lives w.state v := by
  rintro a rfl
  exact legal.lives _ hv a rfl

theorem Legal.room_of {H : Addr → Nat} (legal : Legal w c) (h : HeapOk w.state H) :
    Room w.state (c.dups w.state) := by
  intro a ha
  by_cases none : refsTo a (c.dups w.state) = 0
  · have := h.counted.small a (by simpa using ha)
    omega
  · exact legal.room _ (List.count_pos_iff.mp (Nat.pos_of_ne_zero none)) a rfl

/-- One call on an exactly counted heap with an ordered queue. The references
`L` have been lost before; the call loses `M`. -/
theorem Call.heapOk (h : HeapOk w.state fun a => w.held a + L a) (legal : Legal w c)
    (inPlace : InPlace w c) (done : c.exec sizes w.state = .ok t) :
    ∃ M : Addr → Nat, HeapOk t (fun a => (w.after c t).held a + L a + M a) ∧
      (NoLoss w c → ∀ a, M a = 0) := by
  have open' : HeapOk w.state fun a => w.rest c L a + refsTo a c.takes := h.same fun a => by
    have := legal.held_eq a
    simp only [World.rest]
    omega
  have close : ∀ {M : Addr → Nat} {vs : List Value}, c.gives w.state = vs →
      (HeapOk t fun a => w.rest c L a + refsTo a vs + M a) →
      HeapOk t fun a => (w.after c t).held a + L a + M a := fun gives ok => ok.same fun a => by
    simp only [World.after, World.rest, gives]
    omega
  have lossless : ∀ {vs : List Value}, c.gives w.state = vs →
      (HeapOk t fun a => w.rest c L a + refsTo a vs) →
      ∃ M : Addr → Nat, HeapOk t (fun a => (w.after c t).held a + L a + M a) ∧
        (NoLoss w c → ∀ a, M a = 0) := fun gives ok =>
    ⟨fun _ => 0, close gives (ok.same fun a => by simp), fun _ _ => rfl⟩
  have silent : ∀ {M : Addr → Nat}, c.gives w.state = [] →
      (HeapOk t fun a => w.rest c L a + M a) →
      HeapOk t fun a => (w.after c t).held a + L a + M a := fun gives ok =>
    close gives (ok.same fun a => by simp)
  have quiet : c.takes = [] → HeapOk w.state fun a => w.rest c L a + refsTo a [] := fun none => by
    rwa [none] at open'
  have plainRest : c.takes = [] → HeapOk w.state (w.rest c L) := fun none =>
    (quiet none).same fun a => by simp
  cases c with
  | newTime p time =>
      cases done
      exact lossless rfl ((quiet rfl).alloc (legal.fresh p rfl) trivial (by simp))
  | newAdt p tag fields =>
      cases done
      exact lossless rfl (open'.alloc (legal.fresh p rfl) trivial (by simp))
  | newSv p val =>
      cases done
      exact lossless rfl (open'.alloc (legal.fresh p rfl) trivial (by simp))
  | newClosure p f cap =>
      cases done
      exact lossless rfl ((show HeapOk w.state fun a => _ + refsTo a (Body.closure f 0 cap
        (List.replicate cap (.packed 0))).refs from quiet rfl).alloc (legal.fresh p rfl)
        ⟨Nat.zero_le _, by simp, legal.inRange⟩ (by simp))
  | newArray p elements =>
      cases done
      exact lossless rfl (open'.alloc (legal.fresh p rfl) trivial (by simp))
  | newBlob p size =>
      cases done
      exact lossless rfl ((quiet rfl).alloc (legal.fresh p rfl) trivial (by simp))
  | dup v =>
      obtain ⟨u, run, -, ok⟩ := (plainRest rfl).dup (legal.lives_of (v := v) (by simp [Call.dups]))
        (legal.room_of h)
      rw [Call.exec, run] at done
      cases done
      exact lossless rfl ok
  | drop v =>
      obtain ⟨u, M, run, ok, lost⟩ := open'.drop
      rw [Call.exec, run] at done
      cases done
      refine ⟨M, silent rfl ok, fun all => lost fun a ha => ?_⟩
      exact (open'.kept (all a ha)).transfer (fun b => by simp [Call.takes]) fun _ _ => rfl
  | assign var prio val =>
      obtain ⟨held, isSv⟩ := legal.var var rfl
      obtain ⟨v, hv⟩ := Option.isSome_iff_exists.mp isSv
      obtain ⟨M, ok, lost⟩ := (plainRest rfl).assign hv
        (by simp only [World.rest, Call.takes, refsTo_nil]; omega)
        (legal.lives_of (by simp [Call.dups])) (legal.room_of h) done
      exact ⟨M, silent rfl ok, fun all => lost (all v hv)⟩
  | later var when val =>
      obtain ⟨held, isSv⟩ := legal.var var rfl
      obtain ⟨v, hv⟩ := Option.isSome_iff_exists.mp isSv
      have soon : when < ssmNever := legal.inRange
      obtain ⟨M, ok, lost⟩ := (plainRest rfl).later hv
        (by simp only [World.rest, Call.takes, refsTo_nil]; omega)
        (legal.lives_of (by simp [Call.dups])) (legal.room_of h) (Nat.ne_of_lt soon)
        (inPlace v hv) done
      exact ⟨M, silent rfl ok, fun all => lost (all v hv)⟩
  | unschedule var =>
      have load : ∃ v, w.state.sv? var = some v := by
        rw [Call.exec, ssmUnschedule] at done
        obtain ⟨v, hv, -⟩ := bind_eq_ok.mp done
        exact ⟨v, State.loadSv_eq_ok.mp hv⟩
      obtain ⟨v, hv⟩ := load
      obtain ⟨M, ok, lost⟩ := (plainRest rfl).unschedule hv done
      exact ⟨M, silent rfl ok, fun all => lost (all v hv)⟩
  | sensitize var trig => exact lossless rfl ((quiet rfl).sensitize done)
  | desensitize trig => exact lossless rfl ((quiet rfl).desensitize done)
  | enter child step parent prio depth frame =>
      exact lossless rfl ((quiet rfl).sameHeap (ssmEnterInt_sameHeap done))
  | activate act => exact lossless rfl ((quiet rfl).sameHeap (ssmActivate_sameHeap done))
  | closureApply new child closure arg parent prio depth =>
      obtain ⟨⟨ret, u⟩, run, eq⟩ := bind_eq_ok.mp done
      cases eq
      cases hc : w.state.loadClosure closure with
      | error e => simp [ssmClosureApply, hc] at run
      | ok c =>
          have room := legal.room_of h
          simp only [Call.dups, hc] at room
          refine @lossless (c.handed arg new) (by simp only [Call.gives, hc]) ?_
          exact open'.closureApply hc (legal.fresh new rfl) room run
  | closureApplyFinal child closure arg parent prio depth =>
      obtain ⟨⟨ret, u⟩, run, eq⟩ := bind_eq_ok.mp done
      cases eq
      cases hc : w.state.loadClosure closure with
      | error e =>
          have live : 1 ≤ w.held closure := by
            have := legal.owned (.heap closure) (by simp [Call.takes]) closure rfl
            have := refsTo_pos (show Value.heap closure ∈ [Value.heap closure, arg] by simp)
            simp only [Call.takes] at *
            omega
          have mem := h.counted.mem_of_pos (a := closure) (by omega)
          rw [ssmClosureApplyFinal, ssmIsShared_heap (by simpa using mem), ok_bind] at run
          obtain ⟨s₀, sole, run⟩ := bind_eq_ok.mp run
          rw [ssmAssert_eq_ok sole, hc] at run
          simp at run
      | ok c =>
          refine @lossless (c.handed arg closure) (by simp only [Call.gives, hc]) ?_
          exact open'.closureApplyFinal hc run
  | setNow next => exact lossless rfl ((quiet rfl).setNow done)
  | tickEnter => exact lossless rfl ((quiet rfl).tickEnter done)
  | tickUpdate =>
      obtain ⟨M, ok, lost⟩ := (plainRest rfl).tickUpdate legal.acyclic legal.guarded done
      exact ⟨M, silent rfl ok, lost⟩
  | tickPop =>
      obtain ⟨⟨act, u⟩, run, eq⟩ := bind_eq_ok.mp done
      cases eq
      exact lossless rfl ((quiet rfl).sameHeap (tickPop_sameHeap run))

end Step

theorem Start.heapOk {w : World} (start : Start w) : HeapOk w.state w.held where
  counted := start.counted
  alive := start.alive
  shaped := start.shaped
  queue := by
    have none : w.state.queued = 0 := by rw [State.queued, start.empty, contents_zero]
    refine ⟨by rw [start.empty]; omega, by rw [none]; exact Multiset.nodup_zero, fun a => ?_⟩
    rw [none]
    simp [start.idle a]
  order := by
    intro i h2 hn
    rw [start.empty] at hn
    omega

section Runs
variable {sizes : SafeSizes} {P : World → Call → Prop} {w₀ w : World}

theorem Run.heapOk (start : Start w₀) (run : Run sizes P w₀ w)
    (inPlace : ∀ w c, P w c → InPlace w c) :
    ∃ L : Addr → Nat, HeapOk w.state (fun a => w.held a + L a) ∧
      ((∀ w c, P w c → NoLoss w c) → ∀ a, L a = 0) := by
  induction run with
  | refl => exact ⟨fun _ => 0, start.heapOk.same fun a => by simp, fun _ _ => rfl⟩
  | @step w c t before legal cond done ih =>
      obtain ⟨L, ok, lost⟩ := ih
      obtain ⟨M, ok', lost'⟩ := Call.heapOk ok legal (inPlace w c cond) done
      refine ⟨fun a => L a + M a, ok'.same fun a => (Nat.add_assoc _ _ _).symm, fun all a => ?_⟩
      show L a + M a = 0
      rw [lost all a, lost' (all w c cond) a]

theorem Run.of_runCalls {rank : Addr → Nat} {B : World → Call → Bool} {calls : List Call}
    (meets : ∀ w c, B w c = true → P w c) (before : Run sizes P w₀ w) {w' : World}
    (done : runCalls sizes rank B calls w = some w') : Run sizes P w₀ w' := by
  induction calls generalizing w with
  | nil => exact Option.some.inj done ▸ before
  | cons c cs ih =>
      rw [runCalls] at done
      split at done
      · rename_i allowed
        split at done
        · rename_i t run
          exact ih (before.step allowed.1.legal (meets w c allowed.2) run) done
        · simp at done
      · simp at done

/-- The queue is a heap of the live variables with a pending event, each once,
and its first time is the least. -/
structure WellFormedQueue (s : State) : Prop where
  heap : ∀ i, 2 ≤ i → i ≤ s.eventQueueLen →
    s.laterTimeAt (s.eventQueue (i / 2)) ≤ s.laterTimeAt (s.eventQueue i)
  once : s.queued.Nodup
  exact : ∀ a, a ∈ s.queued ↔ s.Pending a
  least : ∀ a, s.Pending a → ssmNextEventTime s ≤ s.laterTimeAt a
  attained : (∃ a, s.Pending a ∧ ssmNextEventTime s = s.laterTimeAt a) ∨
    (∀ a, ¬ s.Pending a) ∧ ssmNextEventTime s = ssmNever

theorem wellFormedQueue_of {s : State} (ok : EventQueueOk s) (ho : EventOrdered s) :
    WellFormedQueue s where
  heap := ho
  once := ok.nodup
  exact := ok.mem
  least := fun _ ha => ssmNextEventTime_le ok ho ha
  attained := by
    by_cases empty : s.eventQueueLen = 0
    · exact Or.inr ⟨ok.empty_iff.mp empty, by rw [ssmNextEventTime, if_pos empty]⟩
    · exact Or.inl (ssmNextEventTime_attained ok empty)

/-- The queue stays well formed in every run in which each rescheduling drops
its old pending value without freeing a queued variable. -/
theorem wellFormedQueue_of_inPlace (start : Start w₀) (run : Run sizes InPlace w₀ w) :
    WellFormedQueue w.state := by
  obtain ⟨L, ok, -⟩ := run.heapOk start fun _ _ => id
  exact wellFormedQueue_of ok.queue ok.order

/-- Every variable with a pending event is held by the program, apart from the
reference the call takes over. -/
def holdsPending (w : World) (c : Call) : Bool :=
  decide (∀ a ∈ w.state.objs.dom, w.state.laterTimeAt a ≠ ssmNever →
    1 ≤ outside w.state a - refsTo a c.takes)

theorem Survives.of_holdsPending {R : Holds} {c : Call} {new gone : List Value} {a : Addr}
    (h : holdsPending w c = true) (ha : w.state.Pending a)
    (less : ∀ b, refsTo b gone ≤ refsTo b c.takes) : Survives R w.state new gone a := by
  have held := of_decide_eq_true h a ha.mem ha.laterTimeAt_ne
  have := less a
  exact .root (by omega)

theorem inPlace_of_holdsPending {c : Call} (h : holdsPending w c = true) : InPlace w c := by
  cases c with
  | later var when val =>
      exact fun v _ _ _ a ha => .of_holdsPending h ha fun b => by simp
  | _ => trivial

/-- Four variables are scheduled and the first is rescheduled twice. -/
def reschedules : List Call :=
  [.newSv 1 (.packed 0), .newSv 2 (.packed 0), .newSv 3 (.packed 0), .newSv 4 (.packed 0),
    .later 1 10 (.heap 2), .later 2 20 (.packed 7), .later 3 30 (.packed 8),
    .later 4 50 (.packed 9), .later 1 100 (.packed 1), .later 1 15 (.heap 3)]

theorem wellFormedQueue_reschedules :
    ∃ w, runCalls defaultSafeSizes (fun a => if a = 1 then 1 else 0) holdsPending reschedules
        World.blank = some w ∧ ssmNextEventTime w.state = 15 ∧ WellFormedQueue w.state := by
  have ends : (runCalls defaultSafeSizes (fun a => if a = 1 then 1 else 0) holdsPending reschedules
      World.blank).any (fun w => ssmNextEventTime w.state = 15) = true := by decide +kernel
  obtain ⟨w, last, next⟩ := (Option.any_eq_true _ _).mp ends
  refine ⟨w, last, by simpa using next, ?_⟩
  exact wellFormedQueue_of_inPlace start_blank
    (Run.of_runCalls (fun w c => inPlace_of_holdsPending) .refl last)

/-- Rescheduling the first variable frees the second, which is queued, while
the key of the first is out of place. -/
def freesQueued : List Call :=
  [.newSv 1 (.packed 0), .newSv 2 (.packed 0), .newSv 3 (.packed 0), .newSv 4 (.packed 0),
    .later 1 10 (.heap 2), .later 2 20 (.packed 0), .later 3 30 (.packed 0),
    .later 4 50 (.packed 0), .drop (.heap 2), .later 1 100 (.packed 0)]

theorem not_wellFormedQueue : ¬ ∀ w₀ w, Start w₀ →
    Run defaultSafeSizes (fun _ _ => True) w₀ w → WellFormedQueue w.state := by
  intro all
  have ends : (runCalls defaultSafeSizes (fun a => if a = 1 then 1 else 0) (fun _ _ => true)
      freesQueued World.blank).any (fun w => 3 ≤ w.state.eventQueueLen ∧
        w.state.laterTimeAt (w.state.eventQueue 3) < w.state.laterTimeAt (w.state.eventQueue 1)) =
        true := by decide +kernel
  obtain ⟨w, last, broken⟩ := (Option.any_eq_true _ _).mp ends
  have ok := all _ w start_blank (Run.of_runCalls (fun _ _ _ => trivial) .refl last)
  obtain ⟨len, early⟩ := of_decide_eq_true broken
  exact absurd (ok.heap 3 (by omega) len) (Nat.not_le_of_lt early)

/-- Counts say exactly how many references there are, nothing is freed while
referenced, and what nothing refers to is gone. -/
structure ExactCounts (w : World) : Prop where
  live : ∀ a, a ∈ w.state.objs.dom →
    (w.state.objs.val a).refCount = w.held a + fieldRefs plain w.state ∅ a
  freed : ∀ a, a ∉ w.state.objs.dom → w.held a = 0 ∧ fieldRefs plain w.state ∅ a = 0
  referred : ∀ a, a ∈ w.state.objs.dom → 1 ≤ w.held a + fieldRefs plain w.state ∅ a
  reachable : Acyclic w.state → ∀ a, a ∈ w.state.objs.dom → Kept plain w.state w.held a

theorem kept_of_moved {s : State} {H : Addr → Nat} {var a : Addr}
    (h : Kept (moved var []) s H a) : Kept plain s H a := by
  induction h with
  | root hS => exact .root hS
  | @field a b hb ha ih =>
      refine .field ih ?_
      by_cases hbv : b = var
      · subst hbv
        rw [moved_self] at ha
        simp at ha
      · rwa [moved_of_ne [] hbv] at ha

theorem HeapOk.exactCounts (h : HeapOk w.state w.held) : ExactCounts w where
  live := fun a ha => h.counted.live a (by simpa using ha)
  freed := fun a ha => by
    have := h.counted.dead a (by simpa using ha)
    omega
  referred := fun a ha => by
    have := h.counted.live a (by simpa using ha)
    have := h.alive a ha
    omega
  reachable := fun acyclic a ha => kept_of_moved (h.kept_of_acyclic acyclic [] ha)

/-- Counts are exact in every run that loses no pending value and keeps the
queue in order. -/
theorem exactCounts_of_noLoss (start : Start w₀)
    (run : Run sizes (fun w c => InPlace w c ∧ NoLoss w c) w₀ w) : ExactCounts w := by
  obtain ⟨L, ok, lost⟩ := run.heapOk start fun _ _ => And.left
  have none := lost fun _ _ => And.right
  exact HeapOk.exactCounts (ok.same fun a => by rw [none, Nat.add_zero])

/-- The program holds every pending variable, and unschedules none. -/
def holdsAll (w : World) : Call → Bool
  | .unschedule _ => false
  | c => holdsPending w c

theorem noLoss_of_holdsAll {c : Call} (h : holdsAll w c = true) : InPlace w c ∧ NoLoss w c := by
  have pending : ∀ {a}, HeapPending w.state a → w.state.Pending a :=
    fun ⟨v, hv, hp, _⟩ => ⟨v, hv, hp⟩
  cases c with
  | unschedule var => simp [holdsAll] at h
  | drop v =>
      exact ⟨trivial, fun a ha => .of_holdsPending h (pending ha) fun b => Nat.le_refl _⟩
  | assign var prio val =>
      exact ⟨trivial, fun v _ a ha => .of_holdsPending h (pending ha) fun b => by simp⟩
  | later var when val =>
      exact ⟨inPlace_of_holdsPending h,
        fun v _ _ a ha => .of_holdsPending h (pending ha) fun b => by simp⟩
  | tickUpdate =>
      exact ⟨trivial, fun v _ a ha => .of_holdsPending h (pending ha) fun b => by simp⟩
  | _ => exact ⟨trivial, trivial⟩

/-- A closure is applied, and a pending value becomes the value of its variable. -/
def transfers : List Call :=
  [.newSv 1 (.packed 0), .newTime 2 5, .later 1 10 (.heap 2), .newClosure 3 0 2,
    .closureApply 4 0 3 (.heap 2) 0 0 0, .drop (.heap 3), .setNow 10, .tickUpdate,
    .assign 1 0 (.packed 3), .drop (.heap 4)]

theorem exactCounts_transfers :
    ∃ w, runCalls defaultSafeSizes (fun a => if a = 2 then 0 else 1) holdsAll transfers
        World.blank = some w ∧ w.state.objs.dom = {1} ∧ ExactCounts w := by
  have ends : (runCalls defaultSafeSizes (fun a => if a = 2 then 0 else 1) holdsAll transfers
      World.blank).any (fun w => w.state.objs.dom = {1}) = true := by decide +kernel
  obtain ⟨w, last, alone⟩ := (Option.any_eq_true _ _).mp ends
  refine ⟨w, last, of_decide_eq_true alone, ?_⟩
  exact exactCounts_of_noLoss start_blank
    (Run.of_runCalls (fun w c => noLoss_of_holdsAll) .refl last)

/-- The only reference to a variable is dropped while an object is pending on it. -/
def dropsPending : List Call :=
  [.newSv 1 (.packed 0), .newTime 2 5, .later 1 10 (.heap 2), .drop (.heap 2), .drop (.heap 1)]

theorem not_exactCounts : ¬ ∀ w₀ w, Start w₀ →
    Run defaultSafeSizes (fun _ c => ∀ var, c ≠ .unschedule var) w₀ w → ExactCounts w := by
  intro all
  have ends : (runCalls defaultSafeSizes (fun a => if a = 2 then 0 else 1)
      (fun _ c => match c with | .unschedule _ => false | _ => true) dropsPending
      World.blank).any (fun w => w.state.objs.dom = {2} ∧ w.held 2 = 0 ∧
        fieldRefs plain w.state ∅ 2 = 0) = true := by decide +kernel
  obtain ⟨w, last, leaked⟩ := (Option.any_eq_true _ _).mp ends
  have ok := all _ w start_blank
    (Run.of_runCalls (P := fun _ c => ∀ var, c ≠ .unschedule var)
      (fun _ c h var => by rintro rfl; simp at h) .refl last)
  obtain ⟨dom, held, fields⟩ := of_decide_eq_true leaked
  have := ok.referred 2 (by simp [dom])
  omega

/-- A tick whose step functions are runs of calls is itself a run. -/
theorem Run.ssmTick {steps : Steps} {fuel : Nat} {t : State} (before : Run sizes P w₀ w)
    (acyclic : ∀ v, Run sizes P w₀ v → Acyclic v.state)
    (cond : ∀ v c, Run sizes P w₀ v → c = .tickEnter ∨ c = .tickUpdate ∨ c = .tickPop →
      c.guarded v.state → P v c)
    (calls : ∀ v f act u, Run sizes P w₀ v → steps f act v.state = .ok u →
      ∃ v', Run sizes P w₀ v' ∧ v'.state = u)
    (done : SsmRuntime.ssmTick sizes steps fuel w.state = .ok t) :
    ∃ w', Run sizes P w₀ w' ∧ w'.state = t := by
  have one : ∀ {v : World} {c : Call} {u : State}, Run sizes P w₀ v →
      (c = .tickEnter ∨ c = .tickUpdate ∨ c = .tickPop) → c.guarded v.state →
      c.exec sizes v.state = .ok u → ∃ v', Run sizes P w₀ v' ∧ v'.state = u := by
    intro v c u run tick guarded step
    have silent : c.allocates = none ∧ c.takes = [] ∧ c.dups v.state = [] ∧ c.writes = none ∧
        c.inRange := by
      rcases tick with rfl | rfl | rfl
      all_goals exact ⟨rfl, rfl, rfl, rfl, trivial⟩
    obtain ⟨allocates, takes, dups, writes, inRange⟩ := silent
    refine ⟨v.after c u, run.step ?_ (cond v c run tick guarded) step, rfl⟩
    exact ⟨by simp [allocates], by simp [takes], by simp [dups], by simp [dups], by simp [writes],
      inRange, guarded, acyclic v run⟩
  have updates : ∀ (n : Nat) (v : World) (u : State), Run sizes P w₀ v →
      tickUpdates sizes n v.state = .ok u → ∃ v', Run sizes P w₀ v' ∧ v'.state = u := by
    intro n
    induction n with
    | zero =>
        intro v u run step
        rw [tickUpdates] at step
        split at step
        · simp at step
        · exact ⟨v, run, Except.ok.inj step⟩
    | succ n ih =>
        intro v u run step
        rw [tickUpdates] at step
        split at step
        · rename_i due
          obtain ⟨s, updated, rest⟩ := bind_eq_ok.mp step
          obtain ⟨v', run', rfl⟩ := one (c := .tickUpdate) run (by simp) due updated
          exact ih v' u run' rest
        · exact ⟨v, run, Except.ok.inj step⟩
  have pops : ∀ (n : Nat) (v : World) (u : State), Run sizes P w₀ v →
      tickSteps steps n v.state = .ok u → ∃ v', Run sizes P w₀ v' ∧ v'.state = u := by
    intro n
    induction n with
    | zero =>
        intro v u run step
        rw [tickSteps] at step
        split at step
        · exact ⟨v, run, Except.ok.inj step⟩
        · simp at step
    | succ n ih =>
        intro v u run step
        rw [tickSteps] at step
        split at step
        · exact ⟨v, run, Except.ok.inj step⟩
        · rename_i busy
          obtain ⟨⟨act, s⟩, popped, step⟩ := bind_eq_ok.mp step
          obtain ⟨a, -, step⟩ := bind_eq_ok.mp step
          obtain ⟨s', stepped, step⟩ := bind_eq_ok.mp step
          obtain ⟨v₁, run₁, rfl⟩ := one (c := .tickPop) (u := s) run (by simp) busy (by
            rw [Call.exec, popped]
            rfl)
          obtain ⟨v₂, run₂, rfl⟩ := calls v₁ a.step act s' run₁ stepped
          exact ih v₂ u run₂ step
  obtain ⟨s₁, entered, done⟩ := bind_eq_ok.mp done
  obtain ⟨s₂, updated, done⟩ := bind_eq_ok.mp done
  obtain ⟨v₁, run₁, rfl⟩ := one (c := .tickEnter) before (by simp) trivial entered
  obtain ⟨v₂, run₂, rfl⟩ := updates _ v₁ _ run₁ updated
  exact pops fuel v₂ t run₂ done

end Runs

end SsmRuntime
