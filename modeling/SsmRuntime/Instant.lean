import SsmRuntime.Actions
import SsmRuntime.Library.Worklist

/-!
One instant: the two loops of a tick with step functions that act on the
scheduler by their own actions only. The activation queue is a worklist with
priorities, since an assignment wakes records of strictly greater priority
numbers than that of the record that makes it.
-/
namespace SsmRuntime

open Worklist

/-- The actions of each step function, called on a record in a state. -/
abbrev Program := Nat → ActPtr → State → List Action

def Program.steps (prog : Program) (sizes : QueueSizes) : Steps :=
  fun f act s => runActions sizes (prog f act s) s

/-- What the step function of a record does in a state. -/
def Program.actions (prog : Program) (c : ActPtr × State) : List Action :=
  prog (c.2.acts.val c.1).step c.1 c.2

/-- The calls the second loop makes, each with the state it is made in. -/
def tickCalls (steps : Steps) : Nat → State → List (ActPtr × State)
  | 0, _ => []
  | fuel + 1, s =>
      if s.actQueueLen = 0 then []
      else
        match tickPop s with
        | .error _ => []
        | .ok (toRun, s) =>
            (toRun, s) ::
              match steps (s.acts.val toRun).step toRun s with
              | .ok s => tickCalls steps fuel s
              | .error _ => []

def ssmTickCalls (sizes : QueueSizes) (steps : Steps) (fuel : Nat) (s : State) :
    List (ActPtr × State) :=
  match (do let s ← tickEnter s; tickUpdates sizes s.eventQueueLen s) with
  | .ok s => tickCalls steps fuel s
  | .error _ => []

/-- From one state to another by the calls told: each record is taken out where
the call before it ends, and its call returns. -/
inductive Played (steps : Steps) : State → List (ActPtr × State) → State → Prop
  | done {s : State} (idle : s.actQueueLen = 0) : Played steps s [] s
  | call {s u v t : State} {a : ActPtr} {calls : List (ActPtr × State)}
      (busy : s.actQueueLen ≠ 0) (popped : tickPop s = .ok (a, u))
      (returns : steps (u.acts.val a).step a u = .ok v) (rest : Played steps v calls t) :
      Played steps s ((a, u) :: calls) t

/-- The calls told are those that lead to the end of the second loop. -/
theorem tickSteps_played {steps : Steps} {s t : State} (n : Nat)
    (done : tickSteps steps n s = .ok t) : Played steps s (tickCalls steps n s) t := by
  induction n generalizing s with
  | zero =>
      rw [tickSteps] at done
      split at done
      · rename_i idle
        cases done
        exact .done idle
      · cases done
  | succ n ih =>
      rw [tickSteps] at done
      split at done
      · rename_i idle
        cases done
        rw [tickCalls, if_pos idle]
        exact .done idle
      · rename_i busy
        obtain ⟨⟨a, u⟩, popped, done⟩ := bind_eq_ok.mp done
        obtain ⟨r, loaded, done⟩ := bind_eq_ok.mp done
        obtain ⟨-, rfl⟩ := State.loadAct_eq_ok.mp loaded
        obtain ⟨v, returns, done⟩ := bind_eq_ok.mp done
        simp only [tickCalls, if_neg busy, popped, returns]
        exact .call busy popped returns (ih done)

theorem ssmTick_eq (sizes : QueueSizes) (steps : Steps) (n : Nat) (s : State) :
    ssmTick sizes steps n s =
      ((do let s ← tickEnter s; tickUpdates sizes s.eventQueueLen s) >>= tickSteps steps n) := by
  rw [ssmTick]
  cases tickEnter s with
  | ok u => rfl
  | error e => rfl

/-- A tick ends where its calls lead from the state that the first loop leaves. -/
theorem ssmTick_played {sizes : QueueSizes} {steps : Steps} {n : Nat} {s t : State}
    (done : ssmTick sizes steps n s = .ok t) :
    ∃ u, (do let s ← tickEnter s; tickUpdates sizes s.eventQueueLen s) = .ok u ∧
      Played steps u (ssmTickCalls sizes steps n s) t := by
  rw [ssmTick_eq] at done
  obtain ⟨u, updated, done⟩ := bind_eq_ok.mp done
  refine ⟨u, updated, ?_⟩
  rw [ssmTickCalls, updated]
  exact tickSteps_played n done

namespace Action

/-- An action of a record itself: its priority, its triggers, its fields. -/
def Own (a : ActPtr) (V : View) : Action → Prop
  | assign _ prio _ => ∃ r ∈ V.record a, r.priority = prio
  | later _ _ _ | unschedule _ => True
  | sensitize _ t | desensitize t => V.trigger t = some a
  | store b _ _ => b = a

instance (a : ActPtr) (V : View) : (c : Action) → Decidable (c.Own a V)
  | assign _ prio _ => inferInstanceAs (Decidable (∃ r ∈ V.record a, r.priority = prio))
  | later _ _ _ | unschedule _ => inferInstanceAs (Decidable True)
  | sensitize _ t | desensitize t => inferInstanceAs (Decidable (V.trigger t = some a))
  | store b _ _ => inferInstanceAs (Decidable (b = a))

/-- What a step function may do: admissible actions of its own, events ahead. -/
def Obeys (a : ActPtr) (V : View) (c : Action) : Prop :=
  c.Admissible V ∧ c.Timely V ∧ c.Own a V

instance (a : ActPtr) (V : View) (c : Action) : Decidable (c.Obeys a V) :=
  inferInstanceAs (Decidable (_ ∧ _ ∧ _))

/-- The records an action wakes: those with a trigger on the variable it
writes, at the moment of the write, of strictly greater priority numbers. -/
def wakes (V : View) : Action → Finset ActPtr
  | assign x prio _ => V.listeners x fun p => prio < p
  | _ => ∅

end Action

def wokenBy : List Action → View → Finset ActPtr
  | [], _ => ∅
  | c :: cs, V => c.wakes V ∪ wokenBy cs (c.apply V)

/-- Every call does what a step function may do. -/
def Obedient (prog : Program) (calls : List (ActPtr × State)) : Prop :=
  ∀ c ∈ calls, InTurn (Action.Obeys c.1) (prog.actions c) c.2.view

instance (prog : Program) (calls : List (ActPtr × State)) : Decidable (Obedient prog calls) :=
  inferInstanceAs (Decidable (∀ c ∈ calls, InTurn (Action.Obeys c.1) (prog.actions c) c.2.view))

namespace View

def prio (V : View) (a : ActPtr) : Nat := ((V.record a).map Act.priority).getD 0

/-- Every pending event lies strictly ahead. -/
def Ahead (V : View) : Prop := ∀ x, ∀ v ∈ V.var x, v.laterTime ≠ ssmNever → V.now < v.laterTime

theorem Ahead.notLate {V : View} (h : V.Ahead) : V.NotLate :=
  fun x v hv hne => Nat.le_of_lt (h x v hv hne)

theorem Ahead.ready {V : View} (h : V.Ahead) : V.Ready := ⟨h.notLate, fun _ => h⟩

theorem Ahead.mapVar {V : View} {x : Addr} {f : Sv → Sv} (h : V.Ahead)
    (new : ∀ v, V.var x = some v → (f v).laterTime ≠ ssmNever → V.now < (f v).laterTime) :
    (V.mapVar x f).Ahead := by
  intro y v hv hne
  simp only [View.mapVar, Option.mem_def] at hv
  split at hv
  · rename_i same
    subst same
    obtain ⟨u, hu, rfl⟩ := Option.map_eq_some_iff.mp hv
    exact new u hu hne
  · exact h y v hv hne

theorem Ahead.updates {V : View} (h : V.NotLate) (live : V.Live) : V.updates.Ahead := by
  intro x v hv hne
  have hv : (if x ∈ V.due then (V.var x).map (deliver V.now) else V.var x) = some v := hv
  split at hv
  · obtain ⟨u, -, rfl⟩ := Option.map_eq_some_iff.mp hv
    exact absurd rfl hne
  · rename_i notDue
    refine Nat.lt_of_le_of_ne (h x v hv hne) fun now => notDue ?_
    exact (mem_due live).mpr ⟨v, hv, now.symm, hne⟩

theorem prio_mapRecord (V : View) (a : ActPtr) {f : Act → Act}
    (same : ∀ r, (f r).priority = r.priority) : (V.mapRecord a f).prio = V.prio := by
  funext b
  simp only [prio, mapRecord]
  split
  · rw [Option.map_map]
    exact congrArg (fun p => ((V.record b).map p).getD 0) (funext same)
  · rfl

theorem prio_wake (V : View) (A : Finset ActPtr) : (V.wake A).prio = V.prio := by
  funext b
  simp only [prio, wake, Option.map_map]
  rfl

theorem Recorded.wake {V : View} (h : V.Recorded) (A : Finset ActPtr) : (V.wake A).Recorded := by
  intro a
  simp only [View.wake, Option.isSome_map]
  exact h a

theorem Recorded.mapRecord {V : View} (h : V.Recorded) (a : ActPtr) (f : Act → Act) :
    (V.mapRecord a f).Recorded := by
  intro b
  simp only [View.mapRecord]
  split
  · rw [Option.isSome_map]
    exact h b
  · exact h b

theorem scheduledSet_mapRecord (V : View) (a : ActPtr) {f : Act → Act}
    (same : ∀ r, (f r).scheduled = r.scheduled) :
    (V.mapRecord a f).scheduledSet = V.scheduledSet := by
  ext b
  rw [mem_scheduledSet, mem_scheduledSet]
  refine and_congr_right fun _ => ?_
  simp only [View.mapRecord]
  split
  · simp [Option.map_eq_some_iff, same]
  · rfl

theorem scheduledSet_pop (V : View) (a : ActPtr) :
    (V.pop a).scheduledSet = V.scheduledSet.erase a := by
  ext b
  rw [Finset.mem_erase, mem_scheduledSet, mem_scheduledSet]
  simp only [pop, mapRecord]
  by_cases same : b = a
  · simp [same, Option.map_eq_some_iff]
  · simp [same]

theorem prio_of_record {V : View} {a : ActPtr} {r : Act} (h : V.record a = some r) :
    V.prio a = r.priority := by
  simp [prio, h]

end View

namespace Action
variable {V : View}

theorem apply_now (c : Action) : (c.apply V).now = V.now := by cases c <;> rfl

theorem apply_records (c : Action) : (c.apply V).records = V.records := by cases c <;> rfl

theorem apply_prio (c : Action) : (c.apply V).prio = V.prio := by
  cases c with
  | assign x prio val => exact View.prio_wake _ _
  | later | unschedule | sensitize | desensitize => rfl
  | store a pc frame => exact V.prio_mapRecord a fun _ => rfl

theorem apply_recorded (c : Action) (h : V.Recorded) : (c.apply V).Recorded := by
  cases c with
  | assign x prio val =>
      exact View.Recorded.wake (V := V.mapVar x fun v =>
        { v with value := val, lastUpdated := V.now }) h _
  | later | unschedule | sensitize | desensitize => exact h
  | store a pc frame => exact h.mapRecord a _

theorem apply_scheduledSet (c : Action) (h : V.Recorded) :
    (c.apply V).scheduledSet = V.scheduledSet ∪ c.wakes V := by
  cases c with
  | assign x prio val =>
      exact View.scheduledSet_wake (V := V.mapVar x fun v =>
        { v with value := val, lastUpdated := V.now }) h (V.listeners_subset x _)
  | later | unschedule | sensitize | desensitize => exact (Finset.union_empty _).symm
  | store a pc frame =>
      exact (V.scheduledSet_mapRecord (f := fun r => { r with pc := pc, frame := frame }) a
        fun _ => rfl).trans (Finset.union_empty _).symm

theorem apply_ahead (c : Action) (timely : c.Timely V) (h : V.Ahead) : (c.apply V).Ahead := by
  cases c with
  | assign x prio val =>
      exact h.mapVar (x := x) (f := fun v => { v with value := val, lastUpdated := V.now })
        fun v hv hne => h x v hv hne
  | later x when val => exact h.mapVar fun _ _ _ => timely
  | unschedule x => exact h.mapVar fun _ _ hne => absurd rfl hne
  | sensitize | desensitize | store => exact h

theorem prio_lt_of_mem_wakes {c : Action} {a k : ActPtr} (own : c.Own a V) (h : k ∈ c.wakes V) :
    V.prio a < V.prio k := by
  cases c with
  | assign x prio val =>
      obtain ⟨r, hr, rfl⟩ := own
      obtain ⟨-, -, r', hr', up⟩ := View.mem_listeners.mp h
      rw [View.prio_of_record hr, View.prio_of_record hr']
      exact of_decide_eq_true up
  | later | unschedule | sensitize | desensitize | store => exact absurd h (Finset.notMem_empty k)

end Action

theorem applyAll_ahead (cs : List Action) {V : View} (ahead : V.Ahead)
    (timely : InTurn (fun V c => c.Timely V) cs V) : (applyAll cs V).Ahead := by
  induction cs generalizing V with
  | nil => exact ahead
  | cons c cs ih => exact ih (c.apply_ahead timely.1 ahead) timely.2

section Lists
variable {a : ActPtr}

/-- What the actions of one call do to the worklist. -/
theorem applyAll_spec (cs : List Action) {V : View} (recorded : V.Recorded)
    (obeys : InTurn (Action.Obeys a) cs V) :
    (applyAll cs V).scheduledSet = V.scheduledSet ∪ wokenBy cs V ∧
      (∀ k ∈ wokenBy cs V, V.prio a < V.prio k) ∧ (applyAll cs V).prio = V.prio ∧
      (applyAll cs V).records = V.records ∧ (applyAll cs V).now = V.now := by
  induction cs generalizing V with
  | nil =>
      exact ⟨(Finset.union_empty _).symm, fun k hk => absurd hk (Finset.notMem_empty k), rfl, rfl,
        rfl⟩
  | cons c cs ih =>
      obtain ⟨⟨-, -, own⟩, rest⟩ := obeys
      obtain ⟨set, up, prio, records, now⟩ := ih (c.apply_recorded recorded) rest
      refine ⟨?_, fun k hk => ?_, prio.trans c.apply_prio, records.trans c.apply_records,
        now.trans c.apply_now⟩
      · rw [applyAll, set, c.apply_scheduledSet recorded, Finset.union_assoc, wokenBy]
      · rcases Finset.mem_union.mp hk with hk | hk
        · exact Action.prio_lt_of_mem_wakes own hk
        · have := up k hk
          rwa [c.apply_prio] at this

end Lists

/-- The queues can run full, and nothing else can go wrong in an instant. -/
def Exhausted (e : SsmError) : Prop := e = .exhaustedActQueue ∨ e = .exhaustedEventQueue

/-- The worklist's account of a list of calls. -/
def Program.trace (prog : Program) (calls : List (ActPtr × State)) :
    List (ActPtr × Finset ActPtr) :=
  calls.map fun c => (c.1, wokenBy (prog.actions c) c.2.view)

theorem Program.jobs_trace (prog : Program) (calls : List (ActPtr × State)) :
    jobs (prog.trace calls) = calls.map Prod.fst := by
  simp [jobs, trace, Function.comp_def]

section Loop
variable {sizes : SafeSizes} {prog : Program} {s : State}

/-- One round of the second loop: a record of the least priority is taken out
and its step function called. -/
theorem tickSteps_round (prog : Program) (n : Nat) (wf : WellFormed sizes s)
    (busy : s.actQueueLen ≠ 0) :
    ∃ a u, tickPop s = .ok (a, u) ∧ a ∈ s.view.scheduledSet ∧ WellFormed sizes u ∧
      u.view = s.view.pop a ∧ (∀ k ∈ s.view.scheduledSet, s.view.prio a ≤ s.view.prio k) ∧
      tickSteps (prog.steps sizes) (n + 1) s =
        (do let t ← runActions sizes (prog.actions (a, u)) u
            tickSteps (prog.steps sizes) n t) ∧
      tickCalls (prog.steps sizes) (n + 1) s = (a, u) ::
        match runActions sizes (prog.actions (a, u)) u with
        | .ok t => tickCalls (prog.steps sizes) n t
        | .error _ => [] := by
  obtain ⟨a, u, pop, sched, wf', shown, least⟩ := pop_refines wf busy
  have prios : ∀ b, b ∈ s.acts.dom → s.view.prio b = s.priorityAt b := fun b hb => by
    rw [View.prio_of_record (V := s.view) (Table.get?_of_mem hb), State.priorityAt]
  have live : a ∈ u.acts.dom := by
    have known : u.acts.dom = s.acts.dom := congrArg View.records shown
    rw [known]
    exact sched.1
  have mem : ∀ b, b ∈ s.view.scheduledSet ↔ s.Scheduled b := fun b => by
    rw [view_scheduledSet, mem_scheduledSet]
  refine ⟨a, u, pop, (mem a).mpr sched, wf', shown, fun k hk => ?_, ?_, ?_⟩
  · have hk := (mem k).mp hk
    rw [prios a sched.1, prios k hk.1]
    exact least k hk
  · rw [tickSteps, if_neg busy, pop, ok_bind]
    simp only [State.loadAct_of_mem live, ok_bind]
    rfl
  · rw [tickCalls, if_neg busy, pop]
    rfl

/-- The second loop drains the worklist of scheduled records, each call adding
the records its assignments wake, unless a queue runs full. -/
theorem tickSteps_drains (n : Nat) (wf : WellFormed sizes s) (ahead : s.view.Ahead)
    (obeys : Obedient prog (tickCalls (prog.steps sizes) n s)) :
    (∃ e u, tickSteps (prog.steps sizes) n s = .error ⟨.thrown e, u⟩ ∧ Exhausted e) ∨
    ∃ rest, Drain s.view.prio s.view.scheduledSet
        (prog.trace (tickCalls (prog.steps sizes) n s)) rest ∧
      (∀ k, k ∈ jobs (prog.trace (tickCalls (prog.steps sizes) n s)) ∨ k ∈ rest →
        k ∈ s.view.records) ∧
      ((tickCalls (prog.steps sizes) n s).length = n ∧ rest ≠ ∅ ∨
        ∃ t, tickSteps (prog.steps sizes) n s = .ok t ∧ WellFormed sizes t ∧ t.view.Ahead ∧
          t.view.now = s.view.now ∧ t.view.records = s.view.records ∧
          t.view.scheduledSet = ∅ ∧ rest = ∅) := by
  induction n generalizing s with
  | zero =>
      refine Or.inr ⟨s.view.scheduledSet, .done _, fun k hk => ?_, ?_⟩
      · rcases hk with hk | hk
        · exact absurd hk List.not_mem_nil
        · exact (View.mem_scheduledSet.mp hk).1
      · by_cases idle : s.actQueueLen = 0
        · have empty : s.view.scheduledSet = ∅ := by
            rw [← Finset.card_eq_zero, wf.card_scheduledSet, idle]
          exact Or.inr ⟨s, by rw [tickSteps, if_pos idle], wf, ahead, rfl, rfl, empty, empty⟩
        · refine Or.inl ⟨rfl, fun empty => idle ?_⟩
          rw [← wf.card_scheduledSet, empty, Finset.card_empty]
  | succ n ih =>
      by_cases idle : s.actQueueLen = 0
      · have empty : s.view.scheduledSet = ∅ := by
          rw [← Finset.card_eq_zero, wf.card_scheduledSet, idle]
        have none : tickCalls (prog.steps sizes) (n + 1) s = [] := by rw [tickCalls, if_pos idle]
        refine Or.inr ⟨∅, by rw [none, empty]; exact .done _, fun k hk => ?_, Or.inr
          ⟨s, by rw [tickSteps, if_pos idle], wf, ahead, rfl, rfl, empty, rfl⟩⟩
        rw [none] at hk
        rcases hk with hk | hk
        · exact absurd hk List.not_mem_nil
        · exact absurd hk (Finset.notMem_empty k)
      · obtain ⟨a, u, -, mem, wf', shown, least, run, calls⟩ :=
          tickSteps_round prog n wf idle
        rw [run, calls]
        rw [calls] at obeys
        have mine := obeys (a, u) List.mem_cons_self
        have popped : u.view.scheduledSet = s.view.scheduledSet.erase a := by
          rw [shown, View.scheduledSet_pop]
        have prio : u.view.prio = s.view.prio := by
          rw [shown]
          exact s.view.prio_mapRecord a fun _ => rfl
        have records : u.view.records = s.view.records := by
          rw [shown]
          rfl
        have now : u.view.now = s.view.now := by
          rw [shown]
          rfl
        have ahead' : u.view.Ahead := by
          rw [shown]
          exact ahead
        have ahead'' := applyAll_ahead _ ahead' (mine.imp fun _ _ h => h.2.1)
        obtain ⟨set, up, prio', records', now'⟩ :=
          applyAll_spec (prog.actions (a, u)) (view_recorded u) mine
        have spec := runActions_computes wf' (prog.actions (a, u)) (mine.imp fun _ _ h => h.1)
        cases acts : View.acts sizes (prog.actions (a, u)) u.view with
        | error e =>
            rw [acts] at spec
            obtain ⟨v, stop⟩ := spec
            exact Or.inl ⟨e, v, by rw [stop, error_bind], View.acts_error acts⟩
        | ok V =>
            rw [acts] at spec
            obtain ⟨v, done, wf'', seen⟩ := spec
            rw [View.acts_eq_ok acts] at seen
            rw [done] at obeys ⊢
            rw [ok_bind]
            rcases ih wf'' (by rw [seen]; exact ahead'')
              fun c hc => obeys c (List.mem_cons_of_mem _ hc) with full | ⟨rest, drain, known, ends⟩
            · exact Or.inl full
            · refine Or.inr ⟨rest, ?_, fun k hk => ?_, ?_⟩
              · rw [seen, set, prio', prio, popped] at drain
                rw [prio] at up
                exact .next mem least up drain
              · rw [← records, ← records', ← seen]
                rcases hk with hk | hk
                · rcases List.mem_cons.mp hk with rfl | hk
                  · rw [seen, records', records]
                    exact (View.mem_scheduledSet.mp mem).1
                  · exact known k (Or.inl hk)
                · exact known k (Or.inr hk)
              · rcases ends with ⟨len, left⟩ | ⟨t, last, wfT, aheadT, nowT, recordsT, idleT, none⟩
                · exact Or.inl ⟨by simp [len], left⟩
                · refine Or.inr ⟨t, last, wfT, aheadT, ?_, ?_, idleT, none⟩
                  · rw [nowT, seen, now', now]
                  · rw [recordsT, seen, records', records]

/-- With a round for every record the second loop ends. -/
theorem tickSteps_ends (n : Nat) (wf : WellFormed sizes s) (ahead : s.view.Ahead)
    (obeys : Obedient prog (tickCalls (prog.steps sizes) n s)) (enough : s.acts.dom.card ≤ n) :
    (∃ e u, tickSteps (prog.steps sizes) n s = .error ⟨.thrown e, u⟩ ∧ Exhausted e) ∨
    ∃ t, tickSteps (prog.steps sizes) n s = .ok t ∧ WellFormed sizes t ∧ t.view.Ahead ∧
      t.view.now = s.view.now ∧ t.view.records = s.view.records ∧ t.view.scheduledSet = ∅ ∧
      Drain s.view.prio s.view.scheduledSet
        (prog.trace (tickCalls (prog.steps sizes) n s)) ∅ ∧
      ∀ k ∈ (tickCalls (prog.steps sizes) n s).map Prod.fst, k ∈ s.view.records := by
  rcases tickSteps_drains n wf ahead obeys with full | ⟨rest, drain, known, ends⟩
  · exact Or.inl full
  · rcases ends with ⟨len, left⟩ | ⟨t, run, wf', ahead', now, records, idle, none⟩
    · have bound := length_add_card_le drain known
      have pos : 0 < rest.card := Finset.card_pos.mpr (Finset.nonempty_iff_ne_empty.mpr left)
      rw [Program.trace, List.length_map, len] at bound
      have few : s.view.records.card ≤ n := enough
      omega
    · refine Or.inr ⟨t, run, wf', ahead', now, records, idle, none ▸ drain, fun k hk => ?_⟩
      rw [← prog.jobs_trace] at hk
      exact known k (Or.inl hk)

/-- An instant in order: each record runs once at most, by priority, and those
that run are the ones scheduled, updated or woken. The calls lead from the state
after the updates to the end of the instant, and no record comes or goes. -/
structure InstantOk (sizes : QueueSizes) (prog : Program) (s t : State)
    (calls : List (ActPtr × State)) : Prop where
  inOrder : (calls.map Prod.fst).Pairwise fun a b => s.priorityAt a ≤ s.priorityAt b
  once : (calls.map Prod.fst).Nodup
  exact : ∀ a, a ∈ calls.map Prod.fst ↔ s.Scheduled a ∨
    a ∈ (s.view.setNow (tickTime s)).heard ∨
    ∃ c ∈ calls, a ∈ wokenBy (prog.actions c) c.2.view
  played : ∃ u, (do let s ← tickEnter s; tickUpdates sizes s.eventQueueLen s) = .ok u ∧
    Played (prog.steps sizes) u calls t
  records : t.acts.dom = s.acts.dom
  drained : t.actQueueLen = 0
  flags : ∀ a ∈ t.acts.dom, (t.acts.val a).scheduled = false
  now : t.now = tickTime s
  wellFormed : WellFormed sizes t
  ready : t.view.Ready

theorem scheduledSet_updates (V : View) (recorded : V.Recorded) :
    V.updates.scheduledSet = V.scheduledSet ∪ V.heard :=
  View.scheduledSet_wake (V := V.deliverDue) recorded V.heard_subset

theorem updates_prio (V : View) : V.updates.prio = V.prio := V.deliverDue.prio_wake V.heard

/-- What the entry and the first loop of a tick leave for the second. -/
theorem tickUpdates_ready (wf : WellFormed sizes s) (ready : s.view.Ready) :
    (∃ u, (do let s ← tickEnter s; tickUpdates sizes s.eventQueueLen s) =
      .error ⟨.thrown .exhaustedActQueue, u⟩) ∨
    ∃ t, (do let s ← tickEnter s; tickUpdates sizes s.eventQueueLen s) = .ok t ∧
      WellFormed sizes t ∧ t.view = (s.view.setNow (tickTime s)).updates ∧ t.view.Ahead := by
  obtain ⟨enter, notLate⟩ := tickEnter_ready wf ready
  have spec := tickUpdates_refines s.eventQueueLen (wf.setNow (tickTime s)) notLate (Nat.le_refl _)
  rw [view_setNow] at spec
  rw [enter, ok_bind]
  split at spec
  · obtain ⟨t, run, wf', shown⟩ := spec
    refine Or.inr ⟨t, run, wf', shown, ?_⟩
    rw [shown]
    exact View.Ahead.updates notLate (view_live { s with now := tickTime s })
  · exact Or.inl spec

theorem mem_view_scheduledSet {a : ActPtr} : a ∈ s.view.scheduledSet ↔ s.Scheduled a := by
  rw [view_scheduledSet, mem_scheduledSet]

/-- A tick of a ready state ends, and unless a queue runs full it is an
instant in order. -/
theorem ssmTick_instant (n : Nat) (wf : WellFormed sizes s) (ready : s.view.Ready)
    (enough : s.acts.dom.card ≤ n)
    (obeys : Obedient prog (ssmTickCalls sizes (prog.steps sizes) n s)) :
    (∃ e u, ssmTick sizes (prog.steps sizes) n s = .error ⟨.thrown e, u⟩ ∧ Exhausted e) ∨
    ∃ t, ssmTick sizes (prog.steps sizes) n s = .ok t ∧
      InstantOk sizes prog s t (ssmTickCalls sizes (prog.steps sizes) n s) := by
  rcases tickUpdates_ready wf ready with ⟨u, full⟩ | ⟨u, run, wf₁, shown, ahead⟩
  · exact Or.inl ⟨_, u, by rw [ssmTick_eq, full, error_bind], Or.inl rfl⟩
  · have calls : ssmTickCalls sizes (prog.steps sizes) n s = tickCalls (prog.steps sizes) n u := by
      rw [ssmTickCalls, run]
    have whole : ssmTick sizes (prog.steps sizes) n s = tickSteps (prog.steps sizes) n u := by
      rw [ssmTick_eq, run, ok_bind]
    rw [calls] at obeys
    rw [whole]
    have records : u.view.records = s.view.records := by
      rw [shown]
      rfl
    have known : u.acts.dom = s.acts.dom := records
    rcases tickSteps_ends n wf₁ ahead obeys (known ▸ enough) with
      full | ⟨t, last, wf₂, ahead₂, now, records₂, idle, drain, live⟩
    · exact Or.inl full
    · refine Or.inr ⟨t, last, ?_⟩
      have played := ssmTick_played (whole.trans last)
      rw [calls] at played ⊢
      have prio : u.view.prio = s.view.prio := by
        rw [shown, updates_prio]
        rfl
      have work : u.view.scheduledSet =
          s.view.scheduledSet ∪ (s.view.setNow (tickTime s)).heard := by
        rw [shown, scheduledSet_updates (s.view.setNow (tickTime s)) (view_recorded s)]
        rfl
      have ran := mem_jobs_or_rest drain
      have prios : ∀ a ∈ s.acts.dom, s.view.prio a = s.priorityAt a := fun a ha => by
        rw [View.prio_of_record (V := s.view) (Table.get?_of_mem ha), State.priorityAt]
      rw [prog.jobs_trace, work] at ran
      refine ⟨?_, ?_, fun a => ?_, ?_, records₂.trans known, ?_, fun a ha => ?_, ?_, wf₂,
        ahead₂.ready⟩
      · have := sorted drain
        rw [prog.jobs_trace] at this
        refine this.imp_of_mem fun {a b} ha hb le => ?_
        rw [prio] at le
        rwa [prios a (known ▸ live a ha), prios b (known ▸ live b hb)] at le
      · have := nodup drain
        rwa [prog.jobs_trace] at this
      · have mem := ran a
        rw [Finset.mem_union, mem_view_scheduledSet, or_assoc] at mem
        rw [or_iff_left (Finset.notMem_empty a)] at mem
        rw [mem]
        simp [Program.trace]
      · exact played
      · rw [← wf₂.card_scheduledSet, idle, Finset.card_empty]
      · by_contra up
        have : a ∈ t.view.scheduledSet := mem_view_scheduledSet.mpr ⟨ha, by simpa using up⟩
        rw [idle] at this
        exact Finset.notMem_empty a this
      · have : t.view.now = tickTime s := by
          rw [now, shown]
          rfl
        exact this

end Loop

theorem State.idle_ahead (vars : Finset Addr) (acts : Finset ActPtr) (act : ActPtr → Act)
    (trigs : Finset TriggerPtr) (owner : TriggerPtr → ActPtr) :
    (State.idle vars acts act trigs owner).view.Ahead := by
  intro x w hw hne
  obtain ⟨v, hv, rfl⟩ := State.seen?_eq_some.mp hw
  have blank : blankSv = v := Body.sv.inj (State.sv?_eq_some.mp hv).2
  rw [← blank] at hne
  exact absurd rfl hne

/-- A start that actions on an idle state lead to is well formed and ready. -/
theorem wellFormed_of_runActions {sizes : SafeSizes} {s t : State} {cs : List Action}
    (wf : WellFormed sizes s) (ahead : s.view.Ahead)
    (ok : InTurn (fun V c => c.Admissible V ∧ c.Timely V) cs s.view)
    (run : runActions sizes cs s = .ok t) : WellFormed sizes t ∧ t.view.Ahead := by
  obtain ⟨wf', shown⟩ := runActions_ok wf (ok.imp fun _ _ h => h.1) run
  exact ⟨wf', shown ▸ applyAll_ahead cs ahead (ok.imp fun _ _ h => h.2)⟩

/-- Three variables and four records, two of which have the same priority. -/
def fourRecords : State :=
  State.idle {1, 2, 3} {10, 11, 12, 13} (fun a => ⟨0, 0, 0, 0, (a - 7) / 2, 0, false, []⟩)
    {20, 21, 22, 23} fun t => t - 10

def fourListen : List Action :=
  [.sensitize 1 20, .sensitize 2 21, .sensitize 2 22, .sensitize 3 23, .later 1 10 (.packed 5)]

/-- The first record wakes two of one priority, and one of these the last. -/
def fourSteps : Program := fun _ act s =>
  match act with
  | 10 => [.assign 2 1 (.packed 6), .desensitize 20, .store 10 1 []]
  | 11 => [.later 1 (s.now + 5) (.packed 8)]
  | 12 => [.assign 3 2 (.packed 7)]
  | _ => []

theorem ssmTick_instant_four : ∃ s t,
    runActions defaultSafeSizes fourListen fourRecords = .ok s ∧
    ssmTick defaultSafeSizes (fourSteps.steps defaultSafeSizes) 4 s = .ok t ∧
    (ssmTickCalls defaultSafeSizes (fourSteps.steps defaultSafeSizes) 4 s).map Prod.fst =
      [10, 12, 11, 13] ∧
    InstantOk defaultSafeSizes fourSteps s t
      (ssmTickCalls defaultSafeSizes (fourSteps.steps defaultSafeSizes) 4 s) := by
  have legal : InTurn (fun V c => c.Admissible V ∧ c.Timely V) fourListen fourRecords.view := by
    decide +kernel
  have ends : (runActions defaultSafeSizes fourListen fourRecords).toOption.any (fun s =>
      s.acts.dom.card ≤ 4 ∧
      Obedient fourSteps (ssmTickCalls defaultSafeSizes (fourSteps.steps defaultSafeSizes) 4 s) ∧
      (ssmTickCalls defaultSafeSizes (fourSteps.steps defaultSafeSizes) 4 s).map Prod.fst =
        [10, 12, 11, 13] ∧
      (ssmTick defaultSafeSizes (fourSteps.steps defaultSafeSizes) 4 s).isOk) = true := by
    decide +kernel
  obtain ⟨s, start, all⟩ := (Option.any_eq_true _ _).mp ends
  obtain ⟨enough, obeys, order, ok⟩ := of_decide_eq_true all
  have start := ok_of_toOption start
  obtain ⟨wf, ahead⟩ := wellFormed_of_runActions (State.idle_wellFormed _ _ _ _ _ _)
    (State.idle_ahead _ _ _ _ _) legal start
  rcases ssmTick_instant 4 wf ahead.ready enough obeys with ⟨e, u, full, -⟩ | ⟨t, run, instant⟩
  · rw [full] at ok
    cases ok
  · exact ⟨s, t, start, run, order, instant⟩

end SsmRuntime
