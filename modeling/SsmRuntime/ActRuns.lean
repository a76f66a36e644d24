import SsmRuntime.ActQueue
import SsmRuntime.HeapRuns

/-!
Runs of calls as the activation queue sees them. The calls that do not activate,
fork or leave keep the records and the queue; each of the others leaves the
queue ordered, with the scheduled records in it once each.
-/
namespace SsmRuntime

open BinaryHeap

/-- The records and their queue are the same. -/
structure SameActs (s t : State) : Prop where
  acts : t.acts = s.acts
  actQueue : t.actQueue = s.actQueue
  actQueueLen : t.actQueueLen = s.actQueueLen

theorem SameActs.refl (s : State) : SameActs s s := ⟨rfl, rfl, rfl⟩

theorem SameActs.trans {s t u : State} (h : SameActs s t) (k : SameActs t u) : SameActs s u :=
  ⟨k.acts.trans h.acts, k.actQueue.trans h.actQueue, k.actQueueLen.trans h.actQueueLen⟩

/-- The state before may differ in other parts. -/
theorem SameActs.since {s t u : State} (k : SameActs u t) (acts : u.acts = s.acts)
    (actQueue : u.actQueue = s.actQueue) (actQueueLen : u.actQueueLen = s.actQueueLen) :
    SameActs s t :=
  SameActs.trans ⟨acts, actQueue, actQueueLen⟩ k

theorem SameActs.ok {sizes : QueueSizes} {s t : State} (h : SameActs s t)
    (ok : ActQueueOk sizes s) : ActQueueOk sizes t :=
  ok.of_acts h.acts h.actQueue h.actQueueLen

section SameActs
variable {s t : State}

theorem sameActs_of_ok (h : (.ok s : Res) = .ok t) : SameActs s t :=
  Except.ok.inj h ▸ SameActs.refl s

theorem setSv_sameActs (s : State) (var : Addr) (v : Sv) : SameActs s (s.setSv var v) :=
  ⟨rfl, rfl, rfl⟩

theorem ssmDup_sameActs {v : Value} (h : ssmDup v s = .ok t) : SameActs s t := by
  cases v with
  | packed n => exact sameActs_of_ok h
  | heap a =>
      obtain ⟨o, -, h⟩ := bind_eq_ok.mp h
      cases h
      exact ⟨rfl, rfl, rfl⟩

theorem ssmDups_sameActs (vs : List Value) (h : ssmDups vs s = .ok t) : SameActs s t := by
  induction vs generalizing s with
  | nil => exact sameActs_of_ok h
  | cons v vs ih =>
      obtain ⟨u, one, rest⟩ := bind_eq_ok.mp h
      exact (ssmDup_sameActs one).trans (ih rest)

theorem ssmUnschedule_sameActs {var : Addr} (h : ssmUnschedule var s = .ok t) :
    SameActs s t := by
  obtain rfl | ⟨v, q, n, -, rfl⟩ := ssmUnschedule_eq_ok h
  · exact SameActs.refl t
  · exact ⟨rfl, rfl, rfl⟩

theorem dropKeeps_sameActs : DropKeeps SameActs where
  refl := SameActs.refl
  trans := SameActs.trans
  count := fun _ _ => ⟨rfl, rfl, rfl⟩
  unschedule := ssmUnschedule_sameActs
  release := fun _ _ => ⟨rfl, rfl, rfl⟩

theorem ssmDrop_sameActs {v : Value} (h : ssmDrop v s = .ok t) : SameActs s t :=
  dropKeeps_sameActs.dropWith _ h

theorem ssmSvLaterUnsafe_sameActs {sizes : QueueSizes} {var : Addr} {when : Nat} {val : Value}
    (h : ssmSvLaterUnsafe sizes var when val s = .ok t) : SameActs s t := by
  obtain ⟨v, w, u, q, n, -, before, -, rfl⟩ := ssmSvLaterUnsafe_eq_ok h
  have timed : SameActs s u := by
    obtain rfl | dropped := before
    · exact ⟨rfl, rfl, rfl⟩
    · exact (ssmDrop_sameActs dropped).since rfl rfl rfl
  exact timed.trans ⟨rfl, rfl, rfl⟩

theorem ssmSvSensitize_sameActs {var : Addr} {trig : TriggerPtr}
    (h : ssmSvSensitize var trig s = .ok t) : SameActs s t := by
  obtain ⟨v, triggers, -, rfl⟩ := ssmSvSensitize_eq_ok h
  exact ⟨rfl, rfl, rfl⟩

theorem ssmSvDesensitize_sameActs {trig : TriggerPtr} (h : ssmSvDesensitize trig s = .ok t) :
    SameActs s t := by
  obtain ⟨triggers, rfl⟩ | ⟨var, v, first, triggers, -, rfl⟩ := ssmSvDesensitize_eq_ok h
  all_goals exact ⟨rfl, rfl, rfl⟩

theorem tickRemoveTop_sameActs (h : tickRemoveTop s = .ok t) : SameActs s t := by
  obtain ⟨q, n, rfl⟩ := tickRemoveTop_eq_ok h
  exact ⟨rfl, rfl, rfl⟩

theorem ssmSetNow_sameActs {next : Nat} (h : ssmSetNow next s = .ok t) : SameActs s t := by
  obtain ⟨-, -, rfl⟩ := ssmSetNow_eq_ok h
  exact ⟨rfl, rfl, rfl⟩

theorem tickEnter_sameActs (h : tickEnter s = .ok t) : SameActs s t := by
  obtain rfl | moved := tickEnter_eq_ok h
  · exact SameActs.refl t
  · exact ssmSetNow_sameActs moved

theorem ssmClosurePush_sameActs {closure : Addr} {arg : Value}
    (h : ssmClosurePush closure arg s = .ok t) : SameActs s t := by
  obtain ⟨c, -, h⟩ := bind_eq_ok.mp h
  split at h
  · cases h
    exact ⟨rfl, rfl, rfl⟩
  · cases h

theorem ssmClosurePop_sameActs {closure : Addr} (h : ssmClosurePop closure s = .ok t) :
    SameActs s t := by
  obtain ⟨c, -, h⟩ := bind_eq_ok.mp h
  cases h
  exact ⟨rfl, rfl, rfl⟩

theorem cloneArgs_sameActs {new : Addr} {args : List Value} (n : Nat)
    (h : cloneArgs new args n s = .ok t) : SameActs s t := by
  induction n generalizing t with
  | zero => exact sameActs_of_ok h
  | succ n ih =>
      obtain ⟨u, before, h⟩ := bind_eq_ok.mp h
      obtain ⟨u', dup, h⟩ := bind_eq_ok.mp h
      obtain ⟨c, -, h⟩ := bind_eq_ok.mp h
      split at h
      · cases h
        exact (ih before).trans ((ssmDup_sameActs dup).trans ⟨rfl, rfl, rfl⟩)
      · cases h

theorem ssmClosureClone_sameActs {new closure : Addr}
    (h : ssmClosureClone new closure s = .ok t) : SameActs s t := by
  obtain ⟨c, -, h⟩ := bind_eq_ok.mp h
  obtain ⟨n, -, h⟩ := bind_eq_ok.mp h
  exact (cloneArgs_sameActs _ h).since rfl rfl rfl

end SameActs

section Queue
variable {sizes : SafeSizes} {s t : State}

theorem ssmActivate_ok {a : ActPtr} (ok : ActQueueOk sizes s)
    (h : ssmActivate sizes a s = .ok t) : ActQueueOk sizes t := by
  obtain ⟨r, loaded, -⟩ := bind_eq_ok.mp h
  have spec := ssmActivate_spec ok (State.loadAct_eq_ok.mp loaded).1
  split at spec
  · obtain ⟨u, run, ok', -⟩ := spec
    rw [h] at run
    exact Except.ok.inj run ▸ ok'
  · obtain ⟨u, run⟩ := spec
    rw [h] at run
    cases run

theorem wake_ok {wakes : Nat → Bool} (fuel : Nat) {first : Option TriggerPtr}
    (ok : ActQueueOk sizes s) (h : wake sizes wakes fuel first s = .ok t) :
    ActQueueOk sizes t := by
  induction fuel generalizing first s with
  | zero =>
      cases first with
      | none => exact (sameActs_of_ok h).ok ok
      | some trig => cases h
  | succ fuel ih =>
      cases first with
      | none => exact (sameActs_of_ok h).ok ok
      | some trig =>
          obtain ⟨tr, -, h⟩ := bind_eq_ok.mp h
          obtain ⟨a, -, h⟩ := bind_eq_ok.mp h
          obtain ⟨u, woken, h⟩ := bind_eq_ok.mp h
          refine ih ?_ h
          split at woken
          · exact ssmActivate_ok ok woken
          · exact (sameActs_of_ok woken).ok ok

theorem ssmSvAssignUnsafe_ok {var : Addr} {prio : Nat} {val : Value} (ok : ActQueueOk sizes s)
    (h : ssmSvAssignUnsafe sizes var prio val s = .ok t) : ActQueueOk sizes t := by
  obtain ⟨v, -, h⟩ := bind_eq_ok.mp h
  exact wake_ok _ ((setSv_sameActs _ _ _).ok ok) h

theorem ssmAssign_ok {var : Addr} {prio : Nat} {val : Value} (ok : ActQueueOk sizes s)
    (h : ssmAssign sizes var prio val s = .ok t) : ActQueueOk sizes t := by
  obtain ⟨u, dup, h⟩ := bind_eq_ok.mp h
  obtain ⟨v, -, h⟩ := bind_eq_ok.mp h
  obtain ⟨u', dropped, h⟩ := bind_eq_ok.mp h
  exact ssmSvAssignUnsafe_ok (((ssmDup_sameActs dup).trans (ssmDrop_sameActs dropped)).ok ok) h

theorem ssmUpdate_ok {sv : Addr} (ok : ActQueueOk sizes s) (h : ssmUpdate sizes sv s = .ok t) :
    ActQueueOk sizes t := by
  obtain ⟨v, -, h⟩ := bind_eq_ok.mp h
  split at h
  · cases h
  · obtain ⟨u, dropped, h⟩ := bind_eq_ok.mp h
    obtain ⟨w, -, h⟩ := bind_eq_ok.mp h
    exact wake_ok _ (((ssmDrop_sameActs dropped).trans (setSv_sameActs _ _ _)).ok ok) h

/-- Only the number of children of a record changes. -/
theorem ActQueueOk.setChildren {sizes : QueueSizes} {a : ActPtr} (ok : ActQueueOk sizes s)
    (n : Nat) : ActQueueOk sizes (s.setAct a { s.acts.val a with children := n }) := by
  have same : ∀ b, ((s.setAct a { s.acts.val a with children := n }).acts.val b).scheduled =
        (s.acts.val b).scheduled ∧
      ((s.setAct a { s.acts.val a with children := n }).acts.val b).priority =
        (s.acts.val b).priority := by
    intro b
    by_cases hb : b = a
    · subst hb
      simp [State.setAct]
    · simp [State.setAct, Table.write_val_of_ne _ _ hb]
  refine ok.congr rfl rfl (fun b => ?_) fun b _ => (same b).2
  rw [State.Scheduled, (same b).1]
  rfl

theorem ssmEnterInt_ok {sizes : QueueSizes} {p : ActPtr} {step : Nat} {parent : ActPtr}
    {priority depth : Nat} {frame : List Value} (fresh : p ∉ s.acts.dom)
    (ok : ActQueueOk sizes s)
    (h : ssmEnterInt p step parent priority depth frame s = .ok t) : ActQueueOk sizes t := by
  obtain ⟨r, loaded, h⟩ := bind_eq_ok.mp h
  cases h
  obtain ⟨-, rfl⟩ := State.loadAct_eq_ok.mp loaded
  have entered : ActQueueOk sizes { s with
      acts := s.acts.alloc p ⟨step, parent, 0, 0, priority, depth, false, frame⟩ } := by
    refine ok.congr rfl rfl (fun a => ?_) fun a sched => ?_
    · by_cases ha : a = p
      · subst ha
        simp [State.Scheduled, fresh]
      · simp [State.Scheduled, Table.alloc_val_of_ne _ _ ha, ha]
    · have ha : a ≠ p := by
        rintro rfl
        exact fresh sched.1
      simp [State.priorityAt, Table.alloc_val_of_ne _ _ ha]
  exact (entered.setChildren _).congr rfl rfl (fun _ => Iff.rfl) fun _ _ => rfl

theorem leaveFree_ok {sizes : QueueSizes} {act : ActPtr} {parent : Option ActPtr}
    (idle : ¬ s.Scheduled act) (ok : ActQueueOk sizes s)
    (h : leaveFree act s = .ok (parent, t)) : ActQueueOk sizes t := by
  obtain ⟨a, -, h⟩ := bind_eq_ok.mp h
  obtain ⟨p, loaded, h⟩ := bind_eq_ok.mp h
  obtain ⟨-, rfl⟩ := Prod.mk.inj (Except.ok.inj h)
  obtain ⟨-, rfl⟩ := State.loadAct_eq_ok.mp loaded
  have freed : ActQueueOk sizes { s with
      acts := s.acts.release act
      numProcesses := s.numProcesses - 1 } := by
    refine ok.congr rfl rfl (fun b => ?_) fun b _ => rfl
    constructor
    · rintro ⟨live, sched⟩
      exact ⟨Finset.mem_of_mem_erase live, sched⟩
    · rintro ⟨live, sched⟩
      refine ⟨Finset.mem_erase.mpr ⟨?_, live⟩, sched⟩
      rintro rfl
      exact idle ⟨live, sched⟩
  exact freed.setChildren _

theorem tickPop_ok {a : ActPtr} (ok : ActQueueOk sizes s) (busy : s.actQueueLen ≠ 0)
    (h : tickPop s = .ok (a, t)) : ActQueueOk sizes t ∧ ¬ t.Scheduled a := by
  obtain ⟨b, u, run, -, ok', popped, -⟩ := tickPop_spec ok busy
  rw [h] at run
  obtain ⟨rfl, rfl⟩ := Prod.mk.inj (Except.ok.inj run)
  exact ⟨ok', fun sched => ((popped.scheduled a).mp sched).2 rfl⟩

theorem ssmClosureActivate_ok {child : ActPtr} {closure : Addr} {parent : ActPtr}
    {prio depth : Nat} (fresh : child ∉ s.acts.dom) (ok : ActQueueOk sizes s)
    (h : ssmClosureActivate sizes child closure parent prio depth s = .ok t) :
    ActQueueOk sizes t := by
  obtain ⟨c, -, h⟩ := bind_eq_ok.mp h
  obtain ⟨u, entered, h⟩ := bind_eq_ok.mp h
  exact ssmActivate_ok (ssmEnterInt_ok fresh ok entered) h

theorem ssmClosureApply_ok {new : Addr} {child : ActPtr} {closure : Addr} {arg : Value}
    {parent : ActPtr} {prio depth : Nat} {ret : Option Value} (fresh : child ∉ s.acts.dom)
    (ok : ActQueueOk sizes s)
    (h : ssmClosureApply sizes new child closure arg parent prio depth s = .ok (ret, t)) :
    ActQueueOk sizes t := by
  obtain ⟨c, -, h⟩ := bind_eq_ok.mp h
  split at h
  · obtain ⟨s₁, dups, h⟩ := bind_eq_ok.mp h
    obtain ⟨s₂, pushed, h⟩ := bind_eq_ok.mp h
    obtain ⟨s₃, activated, h⟩ := bind_eq_ok.mp h
    obtain ⟨s₄, popped, h⟩ := bind_eq_ok.mp h
    obtain ⟨-, rfl⟩ := Prod.mk.inj (Except.ok.inj h)
    have before := (ssmDups_sameActs _ dups).trans (ssmClosurePush_sameActs pushed)
    have ok' := ssmClosureActivate_ok (before.acts ▸ fresh) (before.ok ok) activated
    exact (ssmClosurePop_sameActs popped).ok ok'
  · obtain ⟨s₁, cloned, h⟩ := bind_eq_ok.mp h
    obtain ⟨s₂, pushed, h⟩ := bind_eq_ok.mp h
    obtain ⟨-, rfl⟩ := Prod.mk.inj (Except.ok.inj h)
    exact ((ssmClosureClone_sameActs cloned).trans (ssmClosurePush_sameActs pushed)).ok ok

theorem ssmClosureApplyFinal_ok {child : ActPtr} {closure : Addr} {arg : Value}
    {parent : ActPtr} {prio depth : Nat} {ret : Option Value} (fresh : child ∉ s.acts.dom)
    (ok : ActQueueOk sizes s)
    (h : ssmClosureApplyFinal sizes child closure arg parent prio depth s = .ok (ret, t)) :
    ActQueueOk sizes t := by
  obtain ⟨shared, -, h⟩ := bind_eq_ok.mp h
  obtain ⟨u, asserted, h⟩ := bind_eq_ok.mp h
  rw [ssmAssert_eq_ok asserted] at h
  obtain ⟨c, -, h⟩ := bind_eq_ok.mp h
  split at h
  · obtain ⟨s₁, pushed, h⟩ := bind_eq_ok.mp h
    obtain ⟨s₂, activated, h⟩ := bind_eq_ok.mp h
    obtain ⟨-, rfl⟩ := Prod.mk.inj (Except.ok.inj h)
    have before := ssmClosurePush_sameActs pushed
    have ok' := ssmClosureActivate_ok (before.acts ▸ fresh) (before.ok ok) activated
    exact ok'.congr rfl rfl (fun _ => Iff.rfl) fun _ _ => rfl
  · obtain ⟨s₁, pushed, h⟩ := bind_eq_ok.mp h
    obtain ⟨-, rfl⟩ := Prod.mk.inj (Except.ok.inj h)
    exact (ssmClosurePush_sameActs pushed).ok ok

end Queue

/-- A step function writes by itself: not the queue, nor the flag or the
priority of a record. -/
structure OwnWrite (s t : State) : Prop where
  dom : t.acts.dom = s.acts.dom
  scheduled : ∀ a, (t.acts.val a).scheduled = (s.acts.val a).scheduled
  priority : ∀ a, (t.acts.val a).priority = (s.acts.val a).priority
  actQueue : t.actQueue = s.actQueue
  actQueueLen : t.actQueueLen = s.actQueueLen

/-- The calls of a program, with those the safe forms are made of, the departure
of a record up to the call of its parent, and the writes between calls. -/
inductive ActCall where
  | own (t : State)
  | call (c : Call)
  | assignUnsafe (var : Addr) (prio : Nat) (val : Value)
  | laterUnsafe (var : Addr) (when : Nat) (val : Value)
  | update (sv : Addr)
  | leave (act : ActPtr)

namespace ActCall

def exec (sizes : QueueSizes) : ActCall → State → Res
  | own t, _ => .ok t
  | call c, s => c.exec sizes s
  | assignUnsafe var prio val, s => ssmSvAssignUnsafe sizes var prio val s
  | laterUnsafe var when val, s => ssmSvLaterUnsafe sizes var when val s
  | update sv, s => ssmUpdate sizes sv s
  | leave act, s => do
      let (_, s) ← leaveFree act s
      .ok s

/-- The record a call may allocate. -/
def enters : ActCall → Option ActPtr
  | call (.enter child _ _ _ _ _) => some child
  | call (.closureApply _ child _ _ _ _ _) => some child
  | call (.closureApplyFinal child _ _ _ _ _) => some child
  | _ => none

def leaves : ActCall → Option ActPtr
  | leave act => some act
  | _ => none

end ActCall

/-- Records are allocated where none is live, a queued record does not leave,
and the tick takes a record from a queue that has one. -/
structure ActLegal (s : State) (c : ActCall) : Prop where
  fresh : ∀ p ∈ c.enters, p ∉ s.acts.dom
  idle : ∀ a ∈ c.leaves, ¬ s.Scheduled a
  busy : c = .call .tickPop → s.actQueueLen ≠ 0
  own : ∀ t, c = .own t → OwnWrite s t

inductive ActRun (sizes : SafeSizes) (s₀ : State) : State → Prop
  | refl : ActRun sizes s₀ s₀
  | step {s : State} {c : ActCall} {t : State} (before : ActRun sizes s₀ s)
      (legal : ActLegal s c) (done : c.exec sizes s = .ok t) : ActRun sizes s₀ t

/-- The second loop of the tick, begun in a state, enters the step function of a
record. -/
inductive StepEntered (steps : Steps) : State → ActPtr → State → Prop
  | first {s t : State} {a : ActPtr} (busy : s.actQueueLen ≠ 0) (popped : tickPop s = .ok (a, t)) :
      StepEntered steps s a t
  | later {s t u v : State} {a b : ActPtr} {r : Act} (busy : s.actQueueLen ≠ 0)
      (popped : tickPop s = .ok (b, u)) (loaded : u.loadAct b = .ok r)
      (called : steps r.step b u = .ok v) (rest : StepEntered steps v a t) :
      StepEntered steps s a t

/-- In heap order of priority, each scheduled record once and no other. -/
structure QueueExact (s : State) : Prop where
  ordered : Ordered s.priorityAt s.actQueue s.actQueueLen
  scheduled : ∀ a, s.Scheduled a → s.runnable.count a = 1
  other : ∀ a, ¬ s.Scheduled a → s.runnable.count a = 0

theorem ActQueueOk.exact {sizes : QueueSizes} {s : State} (ok : ActQueueOk sizes s) :
    QueueExact s where
  ordered := ok.ordered
  scheduled := fun a sched => Multiset.count_eq_one_of_mem ok.nodup ((ok.mem a).mpr sched)
  other := fun a not => Multiset.count_eq_zero.mpr fun mem => not ((ok.mem a).mp mem)

section Runs
variable {sizes : SafeSizes} {s₀ s t : State}

theorem Call.actQueueOk {c : Call} (legal : ActLegal s (.call c)) (ok : ActQueueOk sizes s)
    (done : c.exec sizes s = .ok t) : ActQueueOk sizes t := by
  cases c with
  | newTime _ _ | newAdt _ _ _ | newSv _ _ | newClosure _ _ _ | newArray _ _ | newBlob _ _ =>
      cases done
      exact ok.congr rfl rfl (fun _ => Iff.rfl) fun _ _ => rfl
  | dup v => exact (ssmDup_sameActs done).ok ok
  | drop v => exact (ssmDrop_sameActs done).ok ok
  | assign var prio val => exact ssmAssign_ok ok done
  | later var when val =>
      obtain ⟨u, dup, rest⟩ := bind_eq_ok.mp done
      exact ((ssmDup_sameActs dup).trans (ssmSvLaterUnsafe_sameActs rest)).ok ok
  | unschedule var => exact (ssmUnschedule_sameActs done).ok ok
  | sensitize var trig => exact (ssmSvSensitize_sameActs done).ok ok
  | desensitize trig => exact (ssmSvDesensitize_sameActs done).ok ok
  | enter child step parent prio depth frame =>
      exact ssmEnterInt_ok (legal.fresh child rfl) ok done
  | activate act => exact ssmActivate_ok ok done
  | closureApply new child closure arg parent prio depth =>
      obtain ⟨⟨ret, u⟩, run, rest⟩ := bind_eq_ok.mp done
      exact Except.ok.inj rest ▸ ssmClosureApply_ok (legal.fresh child rfl) ok run
  | closureApplyFinal child closure arg parent prio depth =>
      obtain ⟨⟨ret, u⟩, run, rest⟩ := bind_eq_ok.mp done
      exact Except.ok.inj rest ▸ ssmClosureApplyFinal_ok (legal.fresh child rfl) ok run
  | setNow next => exact (ssmSetNow_sameActs done).ok ok
  | tickEnter => exact (tickEnter_sameActs done).ok ok
  | tickUpdate =>
      obtain ⟨u, updated, removed⟩ := bind_eq_ok.mp done
      exact (tickRemoveTop_sameActs removed).ok (ssmUpdate_ok ok updated)
  | tickPop =>
      obtain ⟨⟨a, u⟩, run, rest⟩ := bind_eq_ok.mp done
      exact Except.ok.inj rest ▸ (tickPop_ok ok (legal.busy rfl) run).1

theorem ActCall.actQueueOk {c : ActCall} (legal : ActLegal s c) (ok : ActQueueOk sizes s)
    (done : c.exec sizes s = .ok t) : ActQueueOk sizes t := by
  cases c with
  | own u =>
      cases done
      have write := legal.own t rfl
      exact ok.congr write.actQueue write.actQueueLen
        (fun a => by rw [State.Scheduled, write.dom, write.scheduled, State.Scheduled])
        fun a _ => write.priority a
  | call c => exact c.actQueueOk legal ok done
  | assignUnsafe var prio val => exact ssmSvAssignUnsafe_ok ok done
  | laterUnsafe var when val => exact (ssmSvLaterUnsafe_sameActs done).ok ok
  | update sv => exact ssmUpdate_ok ok done
  | leave act =>
      obtain ⟨⟨parent, u⟩, run, rest⟩ := bind_eq_ok.mp done
      exact Except.ok.inj rest ▸ leaveFree_ok (legal.idle act rfl) ok run

theorem actQueueOk_of_empty {sizes : QueueSizes} (empty : s.actQueueLen = 0)
    (unscheduled : ∀ a, ¬ s.Scheduled a) : ActQueueOk sizes s where
  len_le := by omega
  nodup := by simp [State.runnable, empty]
  mem := fun a => by simp [State.runnable, empty, unscheduled]
  ordered := fun i h2 hn => by omega

theorem ActRun.actQueueOk (run : ActRun sizes s₀ s) (ok : ActQueueOk sizes s₀) :
    ActQueueOk sizes s := by
  induction run with
  | refl => exact ok
  | step before legal done ih => exact ActCall.actQueueOk legal ih done

theorem ActRun.pop {a : ActPtr} (run : ActRun sizes s₀ s) (busy : s.actQueueLen ≠ 0)
    (popped : tickPop s = .ok (a, t)) : ActRun sizes s₀ t := by
  refine run.step (c := .call .tickPop) ⟨by simp [ActCall.enters], by simp [ActCall.leaves],
    fun _ => busy, by simp⟩ ?_
  simp [ActCall.exec, Call.exec, popped]

/-- Where the calls of step functions are runs, the loop enters them in runs. -/
theorem StepEntered.run {steps : Steps} {a : ActPtr} (entered : StepEntered steps s a t)
    (run : ActRun sizes s₀ s)
    (calls : ∀ f b u v, ActRun sizes s₀ u → steps f b u = .ok v → ActRun sizes s₀ v) :
    ∃ u, ActRun sizes s₀ u ∧ u.actQueueLen ≠ 0 ∧ tickPop u = .ok (a, t) := by
  induction entered with
  | first busy popped => exact ⟨_, run, busy, popped⟩
  | later busy popped loaded called rest ih =>
      exact ih (calls _ _ _ _ (run.pop busy popped) called)

/-- The activation queue in every state of every run from an empty one. -/
theorem actQueue_exact (empty : s₀.actQueueLen = 0) (unscheduled : ∀ a, ¬ s₀.Scheduled a)
    (run : ActRun sizes s₀ s) :
    QueueExact s ∧
    (∀ a, s.Scheduled a → ssmActivate sizes a s = .ok s) ∧
    (∀ a, a ∈ s.acts.dom → s.actQueueLen < sizes.act → ∃ t, ssmActivate sizes a s = .ok t) ∧
    (s.actQueueLen ≠ 0 → ∃ a t, tickPop s = .ok (a, t) ∧ s.Scheduled a ∧
      ∀ b, s.Scheduled b → s.priorityAt a ≤ s.priorityAt b) ∧
    ∀ steps : Steps,
      (∀ f b u v, ActRun sizes s₀ u → steps f b u = .ok v → ActRun sizes s₀ v) →
      (∀ a t, StepEntered steps s a t → QueueExact t ∧ ¬ t.Scheduled a) ∧
      ∀ act p t, ¬ s.Scheduled act → leaveFree act s = .ok (some p, t) → QueueExact t := by
  have start : ActQueueOk sizes s₀ := actQueueOk_of_empty empty unscheduled
  have ok := run.actQueueOk start
  refine ⟨ok.exact, fun a sched => ?_, fun a live room => ?_, fun busy => ?_, ?_⟩
  · unfold ssmActivate
    rw [State.loadAct_of_mem sched.1, ok_bind, if_pos sched.2]
  · have spec := ssmActivate_spec ok live
    have := Finset.card_insert_le a (scheduledSet s)
    rw [ok.card] at this
    rw [if_pos (by omega)] at spec
    obtain ⟨t, run, -⟩ := spec
    exact ⟨t, run⟩
  · obtain ⟨a, t, popped, sched, -, -, least⟩ := tickPop_spec ok busy
    exact ⟨a, t, popped, sched, least⟩
  · refine fun steps calls => ⟨fun a t entered => ?_, fun act p t idle left => ?_⟩
    · obtain ⟨u, run', busy, popped⟩ := entered.run run calls
      obtain ⟨ok', idle⟩ := tickPop_ok (run'.actQueueOk start) busy popped
      exact ⟨ok'.exact, idle⟩
    · exact (leaveFree_ok idle ok left).exact

/-- Two children of the top parent, activated in the order of their addresses. -/
theorem actQueue_exact_children : ∃ s, ActRun defaultSafeSizes boot s ∧ s.actQueueLen = 2 ∧
    s.Scheduled 2 ∧ s.Scheduled 3 ∧ QueueExact s := by
  have legal : ∀ {s : State} {c : Call}, (∀ p ∈ (ActCall.call c).enters, p ∉ s.acts.dom) →
      c ≠ .tickPop → ActLegal s (.call c) := fun fresh notPop =>
    ⟨fresh, by simp [ActCall.leaves], fun h => absurd (ActCall.call.inj h) notPop, by simp⟩
  have run := ((((@ActRun.refl defaultSafeSizes boot).step
    (c := .call (.enter 2 7 ssmTopParent 5 4 [])) (legal (by decide) (by simp)) rfl).step
    (c := .call (.enter 3 7 ssmTopParent 3 4 [])) (legal (by decide) (by simp)) rfl).step
    (c := .call (.activate 2)) (legal (by simp [ActCall.enters]) (by simp)) rfl).step
    (c := .call (.activate 3)) (legal (by simp [ActCall.enters]) (by simp)) rfl
  refine ⟨_, run, rfl, ⟨by decide, rfl⟩, ⟨by decide, rfl⟩, ?_⟩
  exact (actQueue_exact rfl (fun a sched => by simp [State.Scheduled, boot] at sched) run).1

end Runs

end SsmRuntime
