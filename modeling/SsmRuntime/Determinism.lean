import SsmRuntime.Instant

/-!
Two runs in lockstep. States that show the same, whatever the layout of their
queues and the order of their trigger lists, take the same steps and show the
same afterwards, as long as no two queued records compete with one priority.
-/
namespace SsmRuntime

/-- Step functions that depend on what a state shows only. -/
abbrev ViewProgram := Nat → ActPtr → View → List Action

def ViewProgram.program (p : ViewProgram) : Program := fun f act s => p f act s.view

/-- Both results are well-formed states that show the same, or both are the same fault. -/
inductive Alike (sizes : QueueSizes) : Res → Res → Prop where
  | ok {u v : State} : WellFormed sizes u → WellFormed sizes v → u.view = v.view →
      Alike sizes (.ok u) (.ok v)
  | error {e f : Stop} : e.fault = f.fault → Alike sizes (.error e) (.error f)

theorem Alike.bind {sizes : QueueSizes} {r r' : Res} {f g : State → Res}
    (first : Alike sizes r r')
    (next : ∀ u v, WellFormed sizes u → WellFormed sizes v → u.view = v.view →
      r = .ok u → r' = .ok v → Alike sizes (f u) (g v)) :
    Alike sizes (r >>= f) (r' >>= g) := by
  cases first with
  | ok wfu wfv same => exact next _ _ wfu wfv same rfl rfl
  | error same => exact .error same

theorem Computes.alike {sizes : QueueSizes} {r r' : Res} {m : Except SsmError View}
    (h : Computes sizes r m) (h' : Computes sizes r' m) : Alike sizes r r' := by
  cases m with
  | ok V =>
      obtain ⟨u, rfl, wfu, shown⟩ := h
      obtain ⟨v, rfl, wfv, shown'⟩ := h'
      exact .ok wfu wfv (shown.trans shown'.symm)
  | error e =>
      obtain ⟨u, rfl⟩ := h
      obtain ⟨v, rfl⟩ := h'
      exact .error rfl

/-- No other queued record has the priority of the one that is called. -/
def Unrivalled (c : ActPtr × State) : Prop :=
  ∀ b ∈ c.2.view.scheduledSet, c.2.view.prio b ≠ c.2.view.prio c.1

instance (c : ActPtr × State) : Decidable (Unrivalled c) :=
  inferInstanceAs (Decidable (∀ b ∈ c.2.view.scheduledSet, c.2.view.prio b ≠ c.2.view.prio c.1))

/-- Every call makes admissible actions only. -/
def Lawful (prog : Program) (calls : List (ActPtr × State)) : Prop :=
  ∀ c ∈ calls, InTurn (fun V c => c.Admissible V) (prog.actions c) c.2.view

instance (prog : Program) (calls : List (ActPtr × State)) : Decidable (Lawful prog calls) :=
  inferInstanceAs (Decidable (∀ c ∈ calls, InTurn _ (prog.actions c) c.2.view))

theorem Obedient.lawful {prog : Program} {calls : List (ActPtr × State)}
    (h : Obedient prog calls) : Lawful prog calls :=
  fun c hc => (h c hc).imp fun _ _ ok => ok.1

/-- What is seen of calls: who is called, and what the state then shows. -/
def seen (calls : List (ActPtr × State)) : List (ActPtr × View) :=
  calls.map fun c => (c.1, c.2.view)

section Lockstep
variable {sizes : SafeSizes} {s t : State}

theorem eventQueueLen_congr (wfs : WellFormed sizes s) (wft : WellFormed sizes t)
    (same : s.view = t.view) : s.eventQueueLen = t.eventQueueLen := by
  rw [← wfs.card_pending, ← wft.card_pending, same]

theorem actQueueLen_congr (wfs : WellFormed sizes s) (wft : WellFormed sizes t)
    (same : s.view = t.view) : s.actQueueLen = t.actQueueLen := by
  rw [← wfs.card_scheduledSet, ← wft.card_scheduledSet, same]

/-- The next event time is that of the view. -/
theorem view_next_le (wf : WellFormed sizes s) {x : Addr} {v : Sv} (hv : s.view.var x = some v)
    (hne : v.laterTime ≠ ssmNever) : ssmNextEventTime s ≤ v.laterTime := by
  obtain ⟨u, hu, rfl⟩ := State.seen?_eq_some.mp hv
  have := ssmNextEventTime_le wf.queue wf.order ⟨u, hu, hne⟩
  rwa [State.laterTimeAt_of_sv? hu] at this

theorem view_next_attained (wf : WellFormed sizes s) (some' : s.eventQueueLen ≠ 0) :
    ∃ x v, s.view.var x = some v ∧ v.laterTime ≠ ssmNever ∧ v.laterTime = ssmNextEventTime s := by
  obtain ⟨x, ⟨v, hv, hne⟩, next⟩ := ssmNextEventTime_attained wf.queue some'
  rw [State.laterTimeAt_of_sv? hv] at next
  exact ⟨x, v.seen, view_var_of_sv? hv, hne, next.symm⟩

theorem ssmNextEventTime_congr (wfs : WellFormed sizes s) (wft : WellFormed sizes t)
    (same : s.view = t.view) : ssmNextEventTime s = ssmNextEventTime t := by
  have len := eventQueueLen_congr wfs wft same
  by_cases none : s.eventQueueLen = 0
  · rw [ssmNextEventTime, if_pos none, ssmNextEventTime, if_pos (len ▸ none)]
  · obtain ⟨x, v, hv, hne, time⟩ := view_next_attained wfs none
    obtain ⟨y, w, hw, hne', time'⟩ := view_next_attained wft (len ▸ none)
    have least := view_next_le wft (same ▸ hv) hne
    have least' := view_next_le wfs (same.symm ▸ hw) hne'
    omega

theorem tickEnter_alike (wfs : WellFormed sizes s) (wft : WellFormed sizes t)
    (same : s.view = t.view) : Alike sizes (tickEnter s) (tickEnter t) := by
  have acts := actQueueLen_congr wfs wft same
  have events := eventQueueLen_congr wfs wft same
  have next := ssmNextEventTime_congr wfs wft same
  have now : s.now = t.now := congrArg View.now same
  have root : ∀ u : State, (u.eventQueueLen ≠ 0 ∧ u.laterTimeAt (u.eventQueue 1) <
      ssmNextEventTime u) ↔ False := by
    intro u
    rw [iff_false]
    rintro ⟨some', early⟩
    rw [ssmNextEventTime, if_neg some'] at early
    exact Nat.lt_irrefl _ early
  unfold tickEnter
  rw [acts, events, next, now]
  split
  · exact .error rfl
  · split
    · unfold ssmSetNow
      rw [now]
      split
      · exact .error rfl
      · rw [if_neg (next ▸ (root s).mp), if_neg (root t).mp]
        exact .ok (wfs.setNow _) (wft.setNow _) (congrArg (View.setNow · _) same)
    · exact .ok wfs wft same

/-- While an event is late no update is due: the root is late. -/
theorem notDue_of_late (wf : WellFormed sizes s) (late : ¬ s.view.NotLate) : ¬ updateDue s := by
  rintro ⟨pos, now⟩
  refine late fun x v hv hne => ?_
  have := view_next_le wf hv hne
  rw [ssmNextEventTime, if_neg (Nat.ne_of_gt pos), now] at this
  exact this

theorem tickUpdates_of_notDue (n : Nat) (h : ¬ updateDue s) : tickUpdates sizes n s = .ok s := by
  cases n with
  | zero => rw [tickUpdates, if_neg h]
  | succ n => rw [tickUpdates, if_neg h]

theorem tickUpdates_alike (wfs : WellFormed sizes s) (wft : WellFormed sizes t)
    (same : s.view = t.view) :
    Alike sizes (tickUpdates sizes s.eventQueueLen s) (tickUpdates sizes t.eventQueueLen t) := by
  by_cases notLate : s.view.NotLate
  · have first := tickUpdates_refines _ wfs notLate (Nat.le_refl _)
    have second := tickUpdates_refines _ wft (same ▸ notLate) (Nat.le_refl _)
    rw [same] at first
    split at first
    · rename_i room
      rw [if_pos room] at second
      exact Computes.alike (m := .ok t.view.updates) first second
    · rename_i full
      rw [if_neg full] at second
      exact Computes.alike (m := .error .exhaustedActQueue) first second
  · rw [tickUpdates_of_notDue _ (notDue_of_late wfs notLate),
      tickUpdates_of_notDue _ (notDue_of_late wft (same ▸ notLate))]
    exact .ok wfs wft same

/-- The record taken out is the same in both states when it has no rival. -/
theorem first_unique {V : View} {a b : ActPtr} (ha : a ∈ V.scheduledSet)
    (hb : b ∈ V.scheduledSet) (leastA : ∀ k ∈ V.scheduledSet, V.prio a ≤ V.prio k)
    (leastB : ∀ k ∈ V.scheduledSet, V.prio b ≤ V.prio k)
    (alone : ∀ k ∈ V.scheduledSet.erase a, V.prio k ≠ V.prio a) : a = b := by
  by_contra differ
  have le := leastA b hb
  have ge := leastB a ha
  exact alone b (Finset.mem_erase.mpr ⟨Ne.symm differ, hb⟩) (by omega)

theorem tickSteps_alike {p : ViewProgram} (n : Nat) (wfs : WellFormed sizes s)
    (wft : WellFormed sizes t) (same : s.view = t.view)
    (lawful : Lawful p.program (tickCalls (p.program.steps sizes) n s))
    (alone : ∀ c ∈ tickCalls (p.program.steps sizes) n s, Unrivalled c) :
    seen (tickCalls (p.program.steps sizes) n s) = seen (tickCalls (p.program.steps sizes) n t) ∧
      Alike sizes (tickSteps (p.program.steps sizes) n s)
        (tickSteps (p.program.steps sizes) n t) := by
  have acts := actQueueLen_congr wfs wft same
  induction n generalizing s t with
  | zero =>
      refine ⟨rfl, ?_⟩
      rw [tickSteps, tickSteps, acts]
      split
      · exact .ok wfs wft same
      · exact .error rfl
  | succ n ih =>
      by_cases idle : s.actQueueLen = 0
      · rw [tickCalls, if_pos idle, tickCalls, if_pos (acts ▸ idle), tickSteps, if_pos idle,
          tickSteps, if_pos (acts ▸ idle)]
        exact ⟨rfl, .ok wfs wft same⟩
      · obtain ⟨a, u, -, ha, wfu, shownU, leastA, runS, callsS⟩ :=
          tickSteps_round p.program n wfs idle
        obtain ⟨b, v, -, hb, wfv, shownV, leastB, runT, callsT⟩ :=
          tickSteps_round p.program n wft (acts ▸ idle)
        rw [callsS] at lawful alone
        have mine := alone (a, u) List.mem_cons_self
        have prio : u.view.prio = s.view.prio := by
          rw [shownU]
          exact s.view.prio_mapRecord a fun _ => rfl
        unfold Unrivalled at mine
        rw [prio, shownU, View.scheduledSet_pop] at mine
        rw [← same] at hb leastB shownV
        obtain rfl := first_unique ha hb leastA leastB mine
        have same' : u.view = v.view := shownU.trans shownV.symm
        have record : (u.acts.val a).step = (v.acts.val a).step := by
          have live : a ∈ u.acts.dom := by
            have : a ∈ u.view.records := by
              rw [shownU]
              exact (View.mem_scheduledSet.mp ha).1
            exact this
          have live' : a ∈ v.acts.dom := by
            have : a ∈ v.view.records := same' ▸ live
            exact this
          have := congrFun (congrArg View.record same') a
          simp only [State.view, Table.get?_of_mem live, Table.get?_of_mem live',
            Option.some.injEq] at this
          rw [this]
        have actions : p.program.actions (a, u) = p.program.actions (a, v) := by
          simp only [Program.actions, ViewProgram.program, record, same']
        have ok := lawful (a, u) List.mem_cons_self
        have stepS := runActions_computes wfu _ ok
        have stepT := runActions_computes wfv (p.program.actions (a, v)) (by
          rw [← actions, ← same']
          exact ok)
        rw [← actions, ← same'] at stepT
        rw [callsS, callsT, runS, runT, ← actions]
        have both := stepS.alike stepT
        cases hr : runActions sizes (p.program.actions (a, u)) u with
        | error e =>
            rw [hr] at both
            cases hr' : runActions sizes (p.program.actions (a, u)) v with
            | error f =>
                rw [hr'] at both
                refine ⟨?_, both⟩
                simp [seen, same']
            | ok v' =>
                rw [hr'] at both
                cases both
        | ok u' =>
            rw [hr] at both
            cases hr' : runActions sizes (p.program.actions (a, u)) v with
            | error f =>
                rw [hr'] at both
                cases both
            | ok v' =>
                rw [hr'] at both
                cases both with
                | ok wfu' wfv' same'' =>
                    rw [hr] at lawful alone
                    obtain ⟨log, ends⟩ := ih wfu' wfv' same''
                      (fun c hc => lawful c (List.mem_cons_of_mem _ hc))
                      (fun c hc => alone c (List.mem_cons_of_mem _ hc))
                      (actQueueLen_congr wfu' wfv' same'')
                    refine ⟨?_, ends⟩
                    unfold seen at log ⊢
                    rw [List.map_cons, List.map_cons, log, same']

theorem tickStart_alike (wfs : WellFormed sizes s) (wft : WellFormed sizes t)
    (same : s.view = t.view) :
    Alike sizes (do let s ← tickEnter s; tickUpdates sizes s.eventQueueLen s)
      (do let t ← tickEnter t; tickUpdates sizes t.eventQueueLen t) :=
  (tickEnter_alike wfs wft same).bind fun _ _ wfu wfv same' _ _ => tickUpdates_alike wfu wfv same'

/-- One tick in lockstep. -/
theorem ssmTick_alike {p : ViewProgram} (n : Nat) (wfs : WellFormed sizes s)
    (wft : WellFormed sizes t) (same : s.view = t.view)
    (lawful : Lawful p.program (ssmTickCalls sizes (p.program.steps sizes) n s))
    (alone : ∀ c ∈ ssmTickCalls sizes (p.program.steps sizes) n s, Unrivalled c) :
    seen (ssmTickCalls sizes (p.program.steps sizes) n s) =
        seen (ssmTickCalls sizes (p.program.steps sizes) n t) ∧
      Alike sizes (ssmTick sizes (p.program.steps sizes) n s)
        (ssmTick sizes (p.program.steps sizes) n t) := by
  have start := tickStart_alike wfs wft same
  rw [ssmTick_eq, ssmTick_eq]
  unfold ssmTickCalls at lawful alone ⊢
  cases hr : (do let s ← tickEnter s; tickUpdates sizes s.eventQueueLen s) with
  | error e =>
      rw [hr] at start
      cases hr' : (do let t ← tickEnter t; tickUpdates sizes t.eventQueueLen t) with
      | error f =>
          rw [hr'] at start
          exact ⟨rfl, start⟩
      | ok v =>
          rw [hr'] at start
          cases start
  | ok u =>
      rw [hr] at start lawful alone
      cases hr' : (do let t ← tickEnter t; tickUpdates sizes t.eventQueueLen t) with
      | error f =>
          rw [hr'] at start
          cases start
      | ok v =>
          rw [hr'] at start
          cases start with
          | ok wfu wfv same' => exact tickSteps_alike n wfu wfv same' lawful alone

end Lockstep

/-- A number of ticks, with the calls of each. -/
def ticks (sizes : QueueSizes) (steps : Steps) (fuel : Nat) :
    Nat → State → List (List (ActPtr × State)) × Res
  | 0, s => ([], .ok s)
  | n + 1, s =>
      match ssmTick sizes steps fuel s with
      | .ok t =>
          (ssmTickCalls sizes steps fuel s :: (ticks sizes steps fuel n t).1,
            (ticks sizes steps fuel n t).2)
      | .error e => ([ssmTickCalls sizes steps fuel s], .error e)

/-- Any number of ticks shows the same from states that show the same. -/
theorem ticks_deterministic {sizes : SafeSizes} {p : ViewProgram} {s t : State} (fuel n : Nat)
    (wfs : WellFormed sizes s) (wft : WellFormed sizes t) (same : s.view = t.view)
    (lawful : ∀ calls ∈ (ticks sizes (p.program.steps sizes) fuel n s).1, Lawful p.program calls)
    (alone : ∀ calls ∈ (ticks sizes (p.program.steps sizes) fuel n s).1,
      ∀ c ∈ calls, Unrivalled c) :
    (ticks sizes (p.program.steps sizes) fuel n s).1.map seen =
        (ticks sizes (p.program.steps sizes) fuel n t).1.map seen ∧
      Alike sizes (ticks sizes (p.program.steps sizes) fuel n s).2
        (ticks sizes (p.program.steps sizes) fuel n t).2 := by
  induction n generalizing s t with
  | zero => exact ⟨rfl, .ok wfs wft same⟩
  | succ n ih =>
      have first : ssmTickCalls sizes (p.program.steps sizes) fuel s ∈
          (ticks sizes (p.program.steps sizes) fuel (n + 1) s).1 := by
        rw [ticks]
        split
        · exact List.mem_cons_self
        · exact List.mem_cons_self
      obtain ⟨log, ends⟩ := ssmTick_alike fuel wfs wft same (lawful _ first) (alone _ first)
      rw [ticks] at lawful alone
      rw [ticks, ticks]
      cases hr : ssmTick sizes (p.program.steps sizes) fuel s with
      | error e =>
          rw [hr] at ends
          cases hr' : ssmTick sizes (p.program.steps sizes) fuel t with
          | error f =>
              rw [hr'] at ends
              exact ⟨by simp [log], ends⟩
          | ok v =>
              rw [hr'] at ends
              cases ends
      | ok u =>
          rw [hr] at ends lawful alone
          cases hr' : ssmTick sizes (p.program.steps sizes) fuel t with
          | error f =>
              rw [hr'] at ends
              cases ends
          | ok v =>
              rw [hr'] at ends
              cases ends with
              | ok wfu wfv same' =>
                  obtain ⟨rest, last⟩ := ih wfu wfv same'
                    (fun calls hc => lawful calls (List.mem_cons_of_mem _ hc))
                    (fun calls hc => alone calls (List.mem_cons_of_mem _ hc))
                  exact ⟨by simp [log, rest], last⟩

theorem View.sensitize_comm (V : View) (x : Addr) (t u : TriggerPtr) :
    (V.sensitize x t).sensitize x u = (V.sensitize x u).sensitize x t := by
  refine ext' rfl rfl (fun _ => rfl) rfl (fun _ => rfl) (fun _ => rfl) fun y => ?_
  simp only [sensitize]
  split
  · exact Finset.insert_comm u t _
  · rfl

theorem View.later_comm (V : View) {x y : Addr} (h : x ≠ y) (t u : Nat) (val val' : Value) :
    (V.later x t val).later y u val' = (V.later y u val').later x t val := by
  refine ext' rfl rfl (fun z => ?_) rfl (fun _ => rfl) (fun _ => rfl) fun _ => rfl
  simp only [later, mapVar]
  by_cases hx : z = x
  · subst hx
    simp [h]
  · simp [hx]

/-- Four records of different priorities, two of which listen to one variable. -/
def ranked : State :=
  State.idle {1, 2, 3} {10, 11, 12, 13} (fun a => ⟨0, 0, 0, 0, a - 9, 0, false, []⟩)
    {20, 21, 22, 23} fun t => t - 10

def rankedListen : List Action :=
  [.sensitize 2 21, .sensitize 2 22, .later 1 10 (.packed 5), .later 3 10 (.packed 6),
    .sensitize 1 20, .sensitize 3 23]

def rankedListen' : List Action :=
  [.sensitize 2 22, .sensitize 2 21, .later 3 10 (.packed 6), .later 1 10 (.packed 5),
    .sensitize 1 20, .sensitize 3 23]

def rankedSteps : ViewProgram := fun _ act V =>
  match act with
  | 10 => [.assign 2 1 (.packed 6)]
  | 11 => [.later 1 (V.now + 5) (.packed 8), .store 11 1 []]
  | _ => []

/-- The two starts differ in the layout of the event queue and in a trigger list. -/
theorem ticks_deterministic_ranked : ∃ s t,
    runActions defaultSafeSizes rankedListen ranked = .ok s ∧
    runActions defaultSafeSizes rankedListen' ranked = .ok t ∧
    s.eventQueue 1 ≠ t.eventQueue 1 ∧ triggersOf s 2 ≠ triggersOf t 2 ∧
    (ticks defaultSafeSizes (rankedSteps.program.steps defaultSafeSizes) 4 2 s).1.map seen =
      (ticks defaultSafeSizes (rankedSteps.program.steps defaultSafeSizes) 4 2 t).1.map seen ∧
    Alike defaultSafeSizes
      (ticks defaultSafeSizes (rankedSteps.program.steps defaultSafeSizes) 4 2 s).2
      (ticks defaultSafeSizes (rankedSteps.program.steps defaultSafeSizes) 4 2 t).2 := by
  have legal : InTurn (fun V c => c.Admissible V) rankedListen ranked.view ∧
      InTurn (fun V c => c.Admissible V) rankedListen' ranked.view := by decide +kernel
  have same : applyAll rankedListen ranked.view = applyAll rankedListen' ranked.view := by
    simp only [rankedListen, rankedListen', applyAll, Action.apply]
    rw [View.sensitize_comm, View.later_comm _ (show (1 : Addr) ≠ 3 by decide)]
  have ends : (runActions defaultSafeSizes rankedListen ranked).toOption.any (fun s =>
      (runActions defaultSafeSizes rankedListen' ranked).toOption.any fun t =>
        s.eventQueue 1 ≠ t.eventQueue 1 ∧ triggersOf s 2 ≠ triggersOf t 2 ∧
        ∀ calls ∈ (ticks defaultSafeSizes (rankedSteps.program.steps defaultSafeSizes) 4 2 s).1,
          Lawful rankedSteps.program calls ∧ ∀ c ∈ calls, Unrivalled c) = true := by
    decide +kernel
  obtain ⟨s, start, ends⟩ := (Option.any_eq_true _ _).mp ends
  obtain ⟨t, start', ends⟩ := (Option.any_eq_true _ _).mp ends
  obtain ⟨queues, lists, fine⟩ := of_decide_eq_true ends
  have start := ok_of_toOption start
  have start' := ok_of_toOption start'
  obtain ⟨wfs, shown⟩ := runActions_ok (State.idle_wellFormed _ _ _ _ _ _) legal.1 start
  obtain ⟨wft, shown'⟩ := runActions_ok (State.idle_wellFormed _ _ _ _ _ _) legal.2 start'
  exact ⟨s, t, start, start', queues, lists, ticks_deterministic 4 2 wfs wft
    (shown.trans (same.trans shown'.symm)) (fun calls h => (fine calls h).1)
    fun calls h => (fine calls h).2⟩

end SsmRuntime
