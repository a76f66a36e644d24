import SsmRuntime.SleepLoop

/-!
The rounds of a main loop, on any platform: what its poll has found, where it may
choose to sleep, and that every event pending in between has a time before
`SSM_NEVER`.
-/
namespace SsmRuntime

/-- The poll of this round has read `rb_w`. -/
def LoopState.Found (s : LoopState) : Prop :=
  ∃ r w, s.ring.consumer = .scaling r w ∨ s.ring.consumer = .consuming r w

/-- Where the loop stands in its round; packets that the poll has not seen came
after the clock was read. -/
def LoopState.RoundOk (p : Platform) (seen : Nat) (s : LoopState) : Prop :=
  match s.phase with
  | .gotWall wall => s.ring.consumer = .idle ∧ wall ≤ s.clock
  | .polling wall next => next = ssmNextEventTime s.sched ∧ wall ≤ s.clock ∧
      (s.Found → p.From seen wall s.ring.accepted)
  | _ => s.ring.consumer = .idle

/-- The invariant of the rounds; `P` and `seen` are those of the ring. -/
structure RoundInv (p : Platform) (P seen : Nat) (s : LoopState) : Prop where
  ring : RingInv p True P seen s.ring
  handler : s.ring.producer = .idle
  round : s.RoundOk p seen

section Words

/-- Every pending event has a time below `SSM_NEVER`. -/
def View.Soon (V : View) : Prop := V.agenda.AllBelow ssmNever

theorem InTurn.mem {Q : View → Action → Prop} {cs : List Action} {V : View}
    (all : InTurn Q cs V) {c : Action} (hc : c ∈ cs) : ∃ W, Q W c := by
  induction cs generalizing V with
  | nil => cases hc
  | cons d ds ih =>
      rcases List.mem_cons.mp hc with rfl | rest
      · exact ⟨V, all.1⟩
      · exact ih all.2 rest

theorem Action.apply_soon {V : View} (c : Action) (ok : c.Admissible V) (soon : V.Soon) :
    (c.apply V).Soon := by
  cases c with
  | assign x prio val =>
      have same : (V.assign x prio val).agenda = V.agenda :=
        V.agenda_mapVar_same (f := fun v => { v with value := val, lastUpdated := V.now }) x
          fun _ => rfl
      unfold View.Soon
      rw [apply, same]
      exact soon
  | later x when val =>
      have entry : (V.later x when val).agenda = V.agenda.set x (some (when, val)) :=
        View.agenda_mapVar ok.1 fun v _ => if_neg (Nat.ne_of_lt ok.2.2.2)
      unfold View.Soon
      rw [apply, entry]
      refine Agenda.AllBelow.set soon fun t v h => ?_
      cases h
      exact ok.2.2.2
  | unschedule x =>
      have entry : (V.unschedule x).agenda = V.agenda.set x none :=
        View.agenda_mapVar ok fun v _ => if_pos rfl
      unfold View.Soon
      rw [apply, entry]
      exact Agenda.AllBelow.set soon fun t v h => by cases h
  | sensitize | desensitize | store => exact soon

theorem applyAll_soon {cs : List Action} {V : View} (ok : InTurn (fun V c => c.Admissible V) cs V)
    (soon : V.Soon) : (applyAll cs V).Soon := by
  induction cs generalizing V with
  | nil => exact soon
  | cons c cs ih => exact ih ok.2 (c.apply_soon ok.1 soon)

theorem scheduled_notMem_updateEvents {sizes : QueueSizes} {x : Addr} {t : Nat} {val : Value}
    (n : Nat) (s : State) : .scheduled x t val ∉ updateEvents sizes n s := by
  induction n generalizing s with
  | zero => exact List.not_mem_nil
  | succ n ih =>
      rw [updateEvents]
      split
      · split
        · rename_i u _
          intro mem
          rcases List.mem_append.mp mem with rest | this
          · exact ih u rest
          · cases List.mem_singleton.mp this
        · exact List.not_mem_nil
      · exact List.not_mem_nil

theorem scheduled_mem_callEvents {cs : List Action} {x : Addr} {t : Nat} {val : Value}
    (mem : .scheduled x t val ∈ callEvents cs) : .later x t val ∈ cs := by
  unfold callEvents at mem
  obtain ⟨c, hc, made⟩ := List.mem_flatMap.mp (List.mem_reverse.mp mem)
  cases c with
  | later y when v =>
      cases List.mem_singleton.mp made
      exact hc
  | unschedule y => cases List.mem_singleton.mp made
  | assign | sensitize | desensitize | store => cases made

/-- What a tick schedules, a step function that it calls schedules. -/
theorem scheduled_mem_tickEvents {sizes : QueueSizes} {prog : Program} {n : Nat} {s : State}
    {x : Addr} {t : Nat} {val : Value} (mem : .scheduled x t val ∈ tickEvents sizes prog n s) :
    ∃ c ∈ ssmTickCalls sizes (prog.steps sizes) n s, .later x t val ∈ prog.actions c := by
  unfold tickEvents at mem
  unfold ssmTickCalls
  cases entered : tickEnter s with
  | error e =>
      rw [entered] at mem
      cases mem
  | ok u =>
      rw [entered] at mem
      simp only [bind, Except.bind] at mem ⊢
      cases updated : tickUpdates sizes u.eventQueueLen u with
      | error e =>
          rw [updated] at mem
          cases mem
      | ok v =>
          rw [updated] at mem
          simp only [List.mem_append, List.mem_singleton, reduceCtorEq, or_false] at mem ⊢
          rcases mem with called | updating
          · obtain ⟨c, hc, later⟩ := List.mem_flatMap.mp (scheduled_mem_callEvents called)
            exact ⟨c, hc, later⟩
          · exact absurd updating (scheduled_notMem_updateEvents _ _)

theorem View.soon_of_empty {s : State} (ok : EventQueueOk s) (empty : s.eventQueueLen = 0) :
    s.view.Soon := by
  intro x t val entry
  obtain ⟨v, hv, hne, -, -⟩ := View.agenda_entry.mp entry
  have pending : s.Pending x := (view_pending s x).mp ⟨v, hv, hne⟩
  have mem := (ok.mem x).mpr pending
  rw [State.queued, empty] at mem
  cases mem

theorem View.Soon.nextEventTime {sizes : QueueSizes} {s : State} (soon : s.view.Soon)
    (wf : WellFormed sizes s) : ssmNextEventTime s ≤ ssmNever := by
  by_cases empty : s.eventQueueLen = 0
  · exact Nat.le_of_eq (if_pos empty)
  · obtain ⟨a, ⟨v, hv, hne⟩, same⟩ := ssmNextEventTime_attained wf.queue empty
    rw [same, State.laterTimeAt_of_sv? hv]
    exact Nat.le_of_lt (soon a _ _ (View.agenda_entry.mpr ⟨_, view_var_of_sv? hv, hne, rfl, rfl⟩))

/-- Taking packets schedules them all at the time of the first. -/
theorem LoopInv.consumed {p : Platform} {sizes : SafeSizes} {P seen wall next r w r' : Nat}
    {s : LoopState} {sched : State} (inv : LoopInv p sizes P seen s)
    (at' : s.phase = .polling wall next) (polled : s.ring.consumer = .consuming r w)
    (ready : p.readReady r w) (before : (p.inputGet s.ring.rb r).time.ssmTime ≤ next)
    (run : p.ssmInputConsume sizes s.ring.rb r w s.sched = .ok (r', sched)) :
    ∃ time cs, (∀ c ∈ cs, LaterAt time c) ∧ cs ≠ [] ∧ s.sched.now ≤ time ∧ time < ssmNever ∧
      InTurn (fun V c => c.Admissible V) cs s.sched.view ∧ WellFormed sizes sched ∧
      sched.view = applyAll cs s.sched.view := by
  obtain ⟨pkt, hpkt, time⟩ := inv.ring.first polled ready
  have known := inv.phase
  unfold Platform.PhaseOk at known
  rw [at'] at known
  have calls : p.inputCalls s.ring.rb r w s.sched =
      (p.batch s.ring.rb w (p.stamp pkt) p.rbSize r).map
        (p.packetCall s.ring.rb (p.stamp pkt)) := by
    rw [Platform.inputCalls, Platform.inputBatch, if_pos ⟨ready, known.2.2.1 ▸ before⟩, time]
  rw [p.ssmInputConsume_eq, calls] at run
  obtain ⟨u, done, last⟩ := bind_eq_ok.mp run
  cases last
  have early := inv.waiting _ pkt (Nat.le_refl _) hpkt
  have soon := Nat.lt_of_le_of_lt (inv.upTo pkt (List.mem_of_getElem? hpkt)) inv.soon
  have all := inv.laters pkt p.rbSize polled ready
  have legal := (runActions_laters _ inv.wellFormed early soon all).2 _ done
  obtain ⟨wf, shown⟩ := runActions_ok inv.wellFormed legal done
  exact ⟨_, _, all, fun none => batch_ne_nil (List.map_eq_nil_iff.mp none), early, soon, legal, wf,
    shown⟩

/-- No step of the loop lets an event be scheduled at `SSM_NEVER` or later. -/
theorem LoopInv.soonStep {p : Platform} {sizes : SafeSizes} {prog : Program} {P seen : Nat}
    {op : LoopOp} {s t : LoopState} (inv : LoopInv p sizes P seen s)
    (tame : p.LoopTame sizes prog op s) (run : p.loopStep sizes prog op s = some t)
    (soon : s.sched.view.Soon) : t.sched.view.Soon := by
  unfold Platform.loopStep at run
  split at run
  · cases run
    exact soon
  · cases run
    exact soon
  · cases run
    exact soon
  · cases run
    exact soon
  · obtain ⟨ring, -, rfl⟩ := Option.map_eq_some_iff.mp run
    exact soon
  · obtain ⟨ring, -, rfl⟩ := Option.map_eq_some_iff.mp run
    exact soon
  · obtain ⟨ring, -, rfl⟩ := Option.map_eq_some_iff.mp run
    exact soon
  · rename_i wall next at'
    split at run
    · rename_i r w polled
      unfold Platform.branch at run
      split at run
      · rename_i takes
        obtain ⟨⟨r', sched⟩, done, rfl⟩ := Option.map_eq_some_iff.mp run
        obtain ⟨time, cs, -, -, -, -, legal, -, shown⟩ :=
          inv.consumed at' polled takes.1 takes.2 (ok_of_toOption done)
        simp only [shown]
        exact applyAll_soon legal soon
      · obtain ⟨ring, -, rfl⟩ := Option.map_eq_some_iff.mp run
        exact soon
    · cases run
  · rename_i fuel at'
    obtain ⟨u, ticked, rfl⟩ := Option.map_eq_some_iff.mp run
    have heeds := tame.1
    have known := inv.phase
    unfold Platform.PhaseOk at known
    rw [at'] at known
    have ready := ready_of_ssmTick inv.wellFormed known.1 (ok_of_toOption ticked)
    obtain ⟨-, -, -, -, agenda⟩ :=
      (ssmTick_agenda fuel inv.wellFormed ready heeds).2 u (ok_of_toOption ticked)
    refine agenda.allBelow soon fun x time val mem => ?_
    obtain ⟨c, hc, later⟩ := scheduled_mem_tickEvents mem
    obtain ⟨W, punctual⟩ := (heeds c hc).mem later
    exact punctual.1.2.2.2
  · cases run

end Words

/-- What holds where the loop has chosen to sleep. -/
structure AsleepOk (p : Platform) (seen wall next : Nat) (s : LoopState) : Prop where
  head : s.phase = .head
  idle : s.ring.consumer = .idle
  event : next = ssmNextEventTime s.sched
  early : wall < next
  past : wall ≤ s.clock
  behind : p.Behind seen next s.ring
  fresh : p.From seen wall s.ring.accepted

/-- What a step of the round leaves as it was, and what it knows of the last poll. -/
structure Advanced (p : Platform) (seen seen' : Nat) (s t : LoopState) : Prop where
  accepted : t.ring.accepted = s.ring.accepted
  consumed : s.ring.consumed.length ≤ t.ring.consumed.length
  clock : t.clock = s.clock
  found : t.Found → seen' = t.ring.accepted.length ∨ s.Found ∧ seen' = seen
  asleep : ∀ wall next, s.phase = .polling wall next → t.phase = .head →
    s.Found ∧ seen' = seen ∧ AsleepOk p seen wall next t

section Rounds
variable {p : Platform} {sizes : QueueSizes} {prog : Program} {P seen : Nat} {s t : LoopState}

theorem LoopState.not_found (idle : s.ring.consumer = .idle) : ¬ s.Found := by
  rintro ⟨r, w, h | h⟩
  all_goals
    rw [idle] at h
    cases h

theorem Platform.From.insertInput {m time : Nat} {pkt : SsmInput} {r : Ring}
    (from' : p.From m time r.accepted) (late : time ≤ p.stamp pkt) :
    p.From m time (p.ssmInsertInput pkt r).accepted := by
  unfold Platform.ssmInsertInput
  split
  · exact from'.append late
  · exact from'

theorem RoundInv.clock {time : Nat} (inv : RoundInv p P seen s) (forward : s.clock ≤ time) :
    RoundInv p P seen { s with clock := time } := by
  have round := inv.round
  refine ⟨inv.ring, inv.handler, ?_⟩
  unfold LoopState.RoundOk LoopState.Found at round ⊢
  cases at' : s.phase with
  | gotWall wall =>
      rw [at'] at round
      exact ⟨round.1, round.2.trans forward⟩
  | polling wall next =>
      rw [at'] at round
      exact ⟨round.1, round.2.1.trans forward, round.2.2⟩
  | head | doTick =>
      rw [at'] at round
      exact round

theorem RoundInv.arrive {pkt : SsmInput} (inv : RoundInv p P seen s)
    (stamp : p.stamp pkt = s.clock) :
    RoundInv p P seen { s with ring := p.ssmInsertInput pkt s.ring } := by
  have round := inv.round
  obtain ⟨consumer, producer⟩ := ssmInsertInput_consumer pkt s.ring
  refine ⟨inv.ring.insertInput inv.handler pkt, producer.trans inv.handler, ?_⟩
  unfold LoopState.RoundOk LoopState.Found at round ⊢
  simp only [consumer]
  cases at' : s.phase with
  | polling wall next =>
      rw [at'] at round
      refine ⟨round.1, round.2.1, fun found => (round.2.2 found).insertInput ?_⟩
      rw [stamp]
      exact round.2.1
  | gotWall _ | head | doTick =>
      rw [at'] at round
      exact round

/-- One step of the loop itself. -/
theorem RoundInv.step {op : LoopOp} (inv : RoundInv p P seen s)
    (own : Platform.interrupts op = false)
    (tame : op = .pollW → Convertible p .pollW s.ring)
    (run : p.loopStep sizes prog op s = some t) :
    ∃ P' seen', RoundInv p P' seen' t ∧ Advanced p seen seen' s t := by
  have round := inv.round
  unfold LoopState.RoundOk at round
  unfold Platform.loopStep at run
  split at run
  · cases own
  · cases own
  · rename_i at'
    cases run
    rw [at'] at round
    exact ⟨P, seen, ⟨inv.ring, inv.handler, round, Nat.le_refl _⟩, rfl, Nat.le_refl _, rfl,
      fun found => Or.inr ⟨found, rfl⟩, fun _ _ polling => by cases at'.symm.trans polling⟩
  · rename_i wall at'
    cases run
    rw [at'] at round
    exact ⟨P, seen, ⟨inv.ring, inv.handler, rfl, round.2,
      fun found => absurd found (LoopState.not_found round.1)⟩, rfl, Nat.le_refl _, rfl,
      fun found => Or.inr ⟨found, rfl⟩, fun _ _ polling => by cases at'.symm.trans polling⟩
  · rename_i wall next at'
    obtain ⟨ring, polledR, rfl⟩ := Option.map_eq_some_iff.mp run
    obtain ⟨idle, rfl⟩ := pollStep_pollR polledR
    rw [at'] at round
    have unseen : ¬ LoopState.Found { s with
        ring := { s.ring with consumer := .polledR s.ring.rbR } } := by
      rintro ⟨r, w, h | h⟩
      all_goals cases h
    refine ⟨P, seen, ⟨inv.ring.pollR idle, inv.handler, ?_⟩, rfl, Nat.le_refl _, rfl,
      fun found => absurd found unseen, fun _ _ _ head => by cases at'.symm.trans head⟩
    unfold LoopState.RoundOk
    simp only [at']
    exact ⟨round.1, round.2.1, fun found => absurd found unseen⟩
  · rename_i wall next at'
    obtain ⟨ring, polledW, rfl⟩ := Option.map_eq_some_iff.mp run
    obtain ⟨r, polledR, rfl⟩ := pollStep_pollW polledW
    rw [at'] at round
    refine ⟨P, _, ⟨inv.ring.pollW polledR fun _ => tame rfl, inv.handler, ?_⟩, rfl, Nat.le_refl _,
      rfl, fun _ => Or.inl rfl, fun _ _ _ head => by cases at'.symm.trans head⟩
    unfold LoopState.RoundOk
    simp only [at']
    refine ⟨round.1, round.2.1, fun _ i pkt past hpkt => ?_⟩
    rw [List.getElem?_eq_none past] at hpkt
    cases hpkt
  · rename_i wall next at'
    obtain ⟨ring, scaled, rfl⟩ := Option.map_eq_some_iff.mp run
    obtain ⟨r, w, scaling⟩ := pollStep_scale scaled
    have convertible : True → Convertible p .scale s.ring := fun _ => trivial
    obtain ⟨P', inv'⟩ := inv.ring.pollStep convertible scaled
    have found : s.Found := ⟨r, w, Or.inl scaling⟩
    rw [at'] at round
    simp only [Platform.pollStep, scaling] at scaled
    have same : ring.producer = s.ring.producer ∧ ring.accepted = s.ring.accepted ∧
        ring.consumed = s.ring.consumed := by
      split at scaled
      all_goals
        cases scaled
        exact ⟨rfl, rfl, rfl⟩
    refine ⟨P', seen, ⟨inv', same.1.trans inv.handler, ?_⟩, same.2.1,
      Nat.le_of_eq (congrArg List.length same.2.2.symm), rfl, fun _ => Or.inr ⟨found, rfl⟩,
      fun _ _ _ head => by cases at'.symm.trans head⟩
    unfold LoopState.RoundOk
    simp only [at', same.2.1]
    exact ⟨round.1, round.2.1, fun _ => round.2.2 found⟩
  · rename_i wall next at'
    rw [at'] at round
    split at run
    · rename_i r w polled
      have found : s.Found := ⟨r, w, Or.inr polled⟩
      unfold Platform.branch at run
      split at run
      · obtain ⟨⟨r', sched⟩, done, rfl⟩ := Option.map_eq_some_iff.mp run
        obtain ⟨P', inv'⟩ := inv.ring.inputConsume polled (ok_of_toOption done)
        have more : s.ring.consumed.length ≤
            (p.take (p.inputBatch s.ring.rb r w s.sched) r' s.ring).consumed.length := by
          rw [Platform.take, List.length_append]
          exact Nat.le_add_right _ _
        exact ⟨P', seen, ⟨inv', inv.handler, rfl⟩, rfl, more, rfl,
          fun found => absurd found (LoopState.not_found rfl), fun _ _ _ head => by cases head⟩
      · rename_i left
        obtain ⟨ring, leaves, rfl⟩ := Option.map_eq_some_iff.mp run
        have behind := inv.ring.behind polled left
        simp only [Platform.pollStep, polled] at leaves
        split at leaves
        · rename_i same
          cases leaves
          have ring := inv.ring.leave polled same
          by_cases due : next ≤ wall
          · simp only [if_pos due]
            exact ⟨P, seen, ⟨ring, inv.handler, rfl⟩, rfl, Nat.le_refl _, rfl,
              fun found => absurd found (LoopState.not_found rfl),
              fun _ _ _ head => by cases head⟩
          · simp only [if_neg due]
            refine ⟨P, seen, ⟨ring, inv.handler, rfl⟩, rfl, Nat.le_refl _, rfl,
              fun found => absurd found (LoopState.not_found rfl), fun wall' next' polling _ => ?_⟩
            cases at'.symm.trans polling
            exact ⟨found, rfl, rfl, rfl, round.1, Nat.lt_of_not_le due, round.2.1, behind,
              round.2.2 found⟩
        · cases leaves
    · cases run
  · rename_i fuel at'
    obtain ⟨v, ticked, rfl⟩ := Option.map_eq_some_iff.mp run
    rw [at'] at round
    exact ⟨P, seen, ⟨inv.ring, inv.handler, round⟩, rfl, Nat.le_refl _, rfl,
      fun found => absurd found (LoopState.not_found round),
      fun _ _ polling => by cases at'.symm.trans polling⟩
  · cases run

end Rounds

end SsmRuntime
