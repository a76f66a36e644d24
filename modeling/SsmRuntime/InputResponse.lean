import SsmRuntime.LoopRounds

/-!
How long a packet waits for the loop. Each round that begins after the packet has
come moves the time of the scheduler on, by a tick that does not pass the packet,
or takes it; so the nanoseconds that lie between bound the rounds.
-/
namespace SsmRuntime

/-- A stretch of a run from a state on, the latest step first. -/
inductive LoopStretch (p : Platform) (sizes : QueueSizes) (prog : Program) (s : LoopState) :
    List LoopOp → LoopState → Prop where
  | refl : LoopStretch p sizes prog s [] s
  | step {ops : List LoopOp} {t u : LoopState} (op : LoopOp) : LoopStretch p sizes prog s ops t →
      p.LoopTame sizes prog op t → p.loopStep sizes prog op t = some u →
      LoopStretch p sizes prog s (op :: ops) u

/-- The rounds that begin. -/
def roundsOf (ops : List LoopOp) : Nat := ops.count .readWall

theorem roundsOf_cons (op : LoopOp) (ops : List LoopOp) :
    roundsOf (op :: ops) = roundsOf [op] + roundsOf ops := by
  change ([op] ++ ops).count LoopOp.readWall = _
  exact List.count_append

/-- What is known while the packet at `i`, of the time `time`, waits, `n` rounds
after the scheduler was at `start`. -/
structure Waits (i time start n seen : Nat) (s : LoopState) : Prop where
  past : time ≤ s.clock
  forward : start ≤ s.sched.now
  moved : start + n ≤ s.sched.now + 1
  place : 0 < n →
    match s.phase with
    | .head => start + n ≤ s.sched.now
    | .gotWall wall => time ≤ wall
    | .polling wall _ => time ≤ wall ∧ (s.Found → i < seen)
    | .doTick => s.sched.eventQueueLen ≠ 0

section Steps
variable {p : Platform} {sizes : SafeSizes} {prog : Program} {P seen : Nat} {s t : LoopState}

theorem LoopRun.round (run : LoopRun p sizes prog (p.LoopTame sizes prog) s) :
    ∃ P seen, RoundInv p P seen s := by
  induction run with
  | start => exact ⟨0, 0, .init p True _, rfl, rfl⟩
  | step op run tame done ih =>
      obtain ⟨P, seen, inv⟩ := ih
      cases own : Platform.interrupts op with
      | false =>
          obtain ⟨P', seen', inv', -⟩ := inv.step own tame.2 done
          exact ⟨P', seen', inv'⟩
      | true =>
          cases op with
          | clock time =>
              cases done
              exact ⟨P, seen, inv.clock tame.1.1⟩
          | arrive pkt =>
              cases done
              exact ⟨P, seen, inv.arrive tame.1.1⟩
          | readWall | readNext | pollR | pollW | scale | branch | tick _ => cases own

/-- Some variable has an event below `SSM_NEVER`, so the queue is not empty. -/
theorem eventQueueLen_ne_of_eventAt {u : State} {time : Nat} (wf : WellFormed sizes u)
    (event : u.view.EventAt time) (soon : time < ssmNever) : u.eventQueueLen ≠ 0 := by
  intro empty
  obtain ⟨x, v, hv, rfl⟩ := event
  have pending : u.Pending x := (view_pending u x).mp ⟨v, hv, Nat.ne_of_lt soon⟩
  exact (wf.queue.empty_iff.mp empty) x pending

/-- A choice that ends in a tick has an event for it. -/
theorem LoopInv.branched {wall next : Nat} (inv : LoopInv p sizes P seen s)
    (at' : s.phase = .polling wall next) (run : p.loopStep sizes prog .branch s = some t) :
    t.sched.now = s.sched.now ∧
      (t.phase = .head ∨ t.phase = .doTick ∧ t.sched.eventQueueLen ≠ 0) := by
  have known := inv.phase
  unfold Platform.PhaseOk at known
  rw [at'] at known
  obtain ⟨ahead, -, next_eq, past, -⟩ := known
  simp only [Platform.loopStep, at'] at run
  split at run
  · rename_i r w polled
    unfold Platform.branch at run
    split at run
    · rename_i takes
      obtain ⟨⟨r', sched⟩, done, rfl⟩ := Option.map_eq_some_iff.mp run
      obtain ⟨time, cs, all, nonempty, early, soon, legal, wf, shown⟩ :=
        inv.consumed at' polled takes.1 takes.2 (ok_of_toOption done)
      obtain ⟨-, now, -, event⟩ := applyAll_laters cs early all legal ahead.notLate
      rw [← shown] at now event
      exact ⟨now, Or.inr ⟨rfl, eventQueueLen_ne_of_eventAt wf (event (Or.inr nonempty)) soon⟩⟩
    · obtain ⟨ring, -, rfl⟩ := Option.map_eq_some_iff.mp run
      refine ⟨rfl, ?_⟩
      by_cases due : next ≤ wall
      · refine Or.inr ⟨if_pos due, fun empty => ?_⟩
        have never : next = ssmNever := next_eq.trans (if_pos empty)
        have := inv.soon
        omega
      · exact Or.inl (if_neg due)
  · cases run

/-- A tick for an event moves the time on. -/
theorem LoopInv.tick_now {n : Nat} {u : State} (inv : LoopInv p sizes P seen s)
    (at' : s.phase = .doTick)
    (heeds : Heeds Punctual prog (ssmTickCalls sizes (prog.steps sizes) n s.sched))
    (run : ssmTick sizes (prog.steps sizes) n s.sched = .ok u) :
    s.sched.now ≤ u.now ∧ (s.sched.eventQueueLen ≠ 0 → s.sched.now < u.now) := by
  obtain ⟨-, -, -, now, -⟩ := inv.ticked at' heeds run
  have known := inv.phase
  unfold Platform.PhaseOk at known
  rw [at'] at known
  obtain ⟨notLate, one, -⟩ := known
  have ready := ready_of_ssmTick inv.wellFormed notLate run
  rw [now]
  by_cases empty : s.sched.eventQueueLen = 0
  · refine ⟨?_, fun some' => absurd empty some'⟩
    rw [tickTime, if_neg fun h => h.2 empty]
  · have idle := one.resolve_right empty
    have none : s.sched.view.scheduledSet = ∅ := by
      rw [← Finset.card_eq_zero, inv.wellFormed.card_scheduledSet, idle]
    have later := now_lt_tickTime inv.wellFormed (ready.2 none) idle empty
    exact ⟨Nat.le_of_lt later, fun _ => later⟩

/-- An interrupt changes nothing for a packet that waits. -/
theorem Waits.interrupt {i time start n : Nat} {ring : Ring} (w : Waits i time start n seen s)
    {clock : Nat} (forward : s.clock ≤ clock) (same : ring.consumer = s.ring.consumer) :
    Waits i time start n seen { s with clock := clock, ring := ring } where
  past := w.past.trans forward
  forward := w.forward
  moved := w.moved
  place := fun some' => by
    have place := w.place some'
    unfold LoopState.Found at place ⊢
    cases at' : s.phase with
    | head | gotWall _ | doTick =>
        rw [at'] at place
        exact place
    | polling wall next =>
        rw [at'] at place
        simp only [same]
        exact place

/-- A loop does not sleep while a packet waits that its poll has found. -/
theorem AsleepOk.taken {i wall next P' seen' : Nat} {pkt : SsmInput}
    (asleep : AsleepOk p seen wall next s) (inv : LoopInv p sizes P' seen' s)
    (hpkt : s.ring.accepted[i]? = some pkt) (found : i < seen) (past : p.stamp pkt ≤ wall) :
    i < s.ring.consumed.length := by
  rcases asleep.behind with all | ⟨first, hfirst, later⟩
  · rw [all]
    exact found
  · refine Nat.lt_of_not_le fun waits => ?_
    have := inv.from_first hfirst i pkt waits hpkt
    have := asleep.early
    omega

/-- A packet waits for one more step of the loop. -/
theorem Waits.own {i time start n P' seen' Q found : Nat} {op : LoopOp} {pkt : SsmInput}
    (w : Waits i time start n seen s) (inv : LoopInv p sizes P' seen' s)
    (round : RoundInv p P seen s) (hpkt : s.ring.accepted[i]? = some pkt)
    (stamp : p.stamp pkt = time) (own : Platform.interrupts op = false)
    (tame : p.LoopTame sizes prog op s) (run : p.loopStep sizes prog op s = some t)
    (after : LoopInv p sizes Q found t) (waits : t.ring.consumed.length ≤ i) :
    ∃ P seen, RoundInv p P seen t ∧ Waits i time start (n + roundsOf [op]) seen t := by
  obtain ⟨P₁, seen₁, round', adv⟩ := round.step own tame.2 run
  refine ⟨P₁, seen₁, round', ?_⟩
  have past : time ≤ t.clock := adv.clock ▸ w.past
  have polls : ∀ wall next, s.phase = .polling wall next → t.phase = .polling wall next →
      t.sched = s.sched → Waits i time start n seen₁ t := fun wall next before still same => by
    refine ⟨past, same ▸ w.forward, same ▸ w.moved, fun some' => ?_⟩
    have place := w.place some'
    rw [before] at place
    rw [still]
    refine ⟨place.1, fun found => ?_⟩
    rcases adv.found found with all | ⟨earlier, rfl⟩
    · rw [all, adv.accepted]
      exact (List.getElem?_eq_some_iff.mp hpkt).1
    · exact place.2 earlier
  cases op with
  | clock _ | arrive _ => cases own
  | readWall =>
      cases at' : s.phase with
      | head =>
          simp only [Platform.loopStep, at'] at run
          cases run
          have moved : start + n ≤ s.sched.now := by
            by_cases some' : 0 < n
            · have place := w.place some'
              rwa [at'] at place
            · have := w.forward
              omega
          exact ⟨past, w.forward, Nat.succ_le_succ moved, fun _ => w.past⟩
      | gotWall _ | polling _ _ | doTick =>
          simp only [Platform.loopStep, at'] at run
          cases run
  | readNext =>
      cases at' : s.phase with
      | gotWall wall =>
          simp only [Platform.loopStep, at'] at run
          cases run
          refine ⟨past, w.forward, w.moved, fun some' => ?_⟩
          have place := w.place some'
          have idle := round.round
          unfold LoopState.RoundOk at idle
          rw [at'] at place idle
          exact ⟨place, fun found => absurd found (LoopState.not_found idle.1)⟩
      | head | polling _ _ | doTick =>
          simp only [Platform.loopStep, at'] at run
          cases run
  | pollR | pollW | scale =>
      cases at' : s.phase with
      | polling wall next =>
          simp only [Platform.loopStep, at'] at run
          obtain ⟨ring, -, rfl⟩ := Option.map_eq_some_iff.mp run
          exact polls wall next at' rfl rfl
      | head | gotWall _ | doTick =>
          simp only [Platform.loopStep, at'] at run
          cases run
  | branch =>
      cases at' : s.phase with
      | polling wall next =>
          obtain ⟨now, head | ⟨ticks, event⟩⟩ := inv.branched at' run
          · obtain ⟨found, rfl, asleep⟩ := adv.asleep wall next at' head
            refine ⟨past, now ▸ w.forward, now ▸ w.moved, fun some' => ?_⟩
            have place := w.place some'
            rw [at'] at place
            have taken := asleep.taken after (adv.accepted ▸ hpkt) (place.2 found)
              (stamp ▸ place.1)
            exact absurd taken (Nat.not_lt.mpr waits)
          · refine ⟨past, now ▸ w.forward, now ▸ w.moved, fun _ => ?_⟩
            rw [ticks]
            exact event
      | head | gotWall _ | doTick =>
          simp only [Platform.loopStep, at'] at run
          cases run
  | tick fuel =>
      cases at' : s.phase with
      | doTick =>
          simp only [Platform.loopStep, at'] at run
          obtain ⟨u, ticked, rfl⟩ := Option.map_eq_some_iff.mp run
          obtain ⟨later, strictly⟩ := inv.tick_now at' tame.1 (ok_of_toOption ticked)
          refine ⟨past, w.forward.trans later, w.moved.trans (Nat.succ_le_succ later),
            fun some' => ?_⟩
          have place := w.place some'
          rw [at'] at place
          exact w.moved.trans (strictly place)
      | head | gotWall _ | polling _ _ =>
          simp only [Platform.loopStep, at'] at run
          cases run

/-- What holds at the end of a stretch for a packet that was there at its start. -/
structure Stretched (p : Platform) (sizes : QueueSizes) (prog : Program) (i start n : Nat)
    (pkt : SsmInput) (s : LoopState) : Prop where
  run : LoopRun p sizes prog (p.LoopTame sizes prog) s
  here : s.ring.accepted[i]? = some pkt
  waits : ∃ P seen, RoundInv p P seen s ∧
    (s.ring.consumed.length ≤ i → Waits i (p.stamp pkt) start n seen s)

theorem Stretched.step {i start n : Nat} {pkt : SsmInput} {op : LoopOp}
    (st : Stretched p sizes prog i start n pkt s) (tame : p.LoopTame sizes prog op s)
    (run : p.loopStep sizes prog op s = some t) :
    Stretched p sizes prog i start (n + roundsOf [op]) pkt t := by
  obtain ⟨P, seen, round, known⟩ := st.waits
  obtain ⟨P', seen', inv⟩ := st.run.inv
  have after := st.run.step op tame run
  obtain ⟨Q, found, inv'⟩ := after.inv
  cases own : Platform.interrupts op with
  | false =>
      obtain ⟨P₁, seen₁, round', adv⟩ := round.step own tame.2 run
      refine ⟨after, adv.accepted ▸ st.here, ?_⟩
      by_cases waits : t.ring.consumed.length ≤ i
      · obtain ⟨P₂, seen₂, round₂, w⟩ := (known (adv.consumed.trans waits)).own inv round st.here
          rfl own tame run inv' waits
        exact ⟨P₂, seen₂, round₂, fun _ => w⟩
      · exact ⟨P₁, seen₁, round', fun h => absurd h waits⟩
  | true =>
      cases op with
      | clock time =>
          cases run
          exact ⟨after, st.here, P, seen, round.clock tame.1.1,
            fun waits => (known waits).interrupt tame.1.1 rfl⟩
      | arrive new =>
          cases run
          obtain ⟨consumer, -⟩ := ssmInsertInput_consumer (p := p) new s.ring
          have consumed : (p.ssmInsertInput new s.ring).consumed = s.ring.consumed := by
            unfold Platform.ssmInsertInput
            split
            · rfl
            · rfl
          have here : (p.ssmInsertInput new s.ring).accepted[i]? = some pkt := by
            unfold Platform.ssmInsertInput
            split
            · exact (List.getElem?_append_left (List.getElem?_eq_some_iff.mp st.here).1).trans
                st.here
            · exact st.here
          refine ⟨after, here, P, seen, round.arrive tame.1.1, fun waits => ?_⟩
          have waits : s.ring.consumed.length ≤ i := consumed ▸ waits
          exact (known waits).interrupt (Nat.le_refl _) consumer
      | readWall | readNext | pollR | pollW | scale | branch | tick _ => cases own

theorem LoopStretch.stretched {i : Nat} {pkt : SsmInput} {ops : List LoopOp}
    (run : LoopRun p sizes prog (p.LoopTame sizes prog) s) (here : s.ring.accepted[i]? = some pkt)
    (stretch : LoopStretch p sizes prog s ops t) :
    Stretched p sizes prog i s.sched.now (roundsOf ops) pkt t := by
  induction stretch with
  | refl =>
      obtain ⟨P, seen, round⟩ := run.round
      obtain ⟨P', seen', inv⟩ := run.inv
      refine ⟨run, here, P, seen, round, fun _ => ⟨inv.upTo pkt (List.mem_of_getElem? here),
        Nat.le_refl _, Nat.le_succ _, fun none => absurd none (Nat.lt_irrefl _)⟩⟩
  | step op stretch tame done ih =>
      have last := ih.step tame done
      rwa [Nat.add_comm, ← roundsOf_cons] at last

/-- A packet is taken after as many rounds as there are nanoseconds from the time
of the scheduler to its own, and two more, in every interleaving. -/
theorem packet_taken {i : Nat} {pkt : SsmInput} {ops : List LoopOp}
    (run : LoopRun p sizes prog (p.LoopTame sizes prog) s) (here : s.ring.accepted[i]? = some pkt)
    (stretch : LoopStretch p sizes prog s ops t)
    (enough : p.stamp pkt - s.sched.now + 2 ≤ roundsOf ops) : i < t.ring.consumed.length := by
  refine Nat.lt_of_not_le fun waits => ?_
  have last := stretch.stretched run here
  obtain ⟨P, seen, -, known⟩ := last.waits
  obtain ⟨P', seen', inv⟩ := last.run.inv
  have moved := (known waits).moved
  have notPast := inv.waiting i pkt waits last.here
  omega

end Steps

theorem LoopStretch.of_play {p : Platform} {sizes : QueueSizes} {prog : Program}
    {ops done : List LoopOp} {s t u : LoopState} (stretch : LoopStretch p sizes prog s done t)
    (play : playLoop p sizes prog ops t = some u) :
    LoopStretch p sizes prog s (ops.reverse ++ done) u := by
  induction ops generalizing t done with
  | nil =>
      cases play
      exact stretch
  | cons op ops ih =>
      rw [playLoop] at play
      split at play
      · rename_i tame
        obtain ⟨v, step, rest⟩ := Option.bind_eq_some_iff.mp play
        rw [List.reverse_cons, List.append_assoc]
        exact ih (stretch.step op tame step) rest
      · cases play

/-- Five rounds; the first of them takes the packet. -/
def fiveRounds : List LoopOp :=
  [.readWall, .readNext, .pollR, .pollW, .scale, .scale, .branch, .tick 1] ++
  (List.replicate 4 [LoopOp.readWall, .readNext, .pollR, .pollW, .scale, .branch]).flatten

theorem packet_taken_fiveRounds : ∃ s₀ s t,
    runActions defaultSafeSizes wakeUp oneVar = .ok s₀ ∧
    playLoop zephyr defaultSafeSizes (again 10) [.tick 1, .clock 3, .arrive (packetOf 3)]
      (LoopState.init (fun _ => packetOf 0) s₀ 0) = some s ∧
    playLoop zephyr defaultSafeSizes (again 10) fiveRounds s = some t ∧
    0 < t.ring.consumed.length := by
  have plays : ((runActions defaultSafeSizes wakeUp oneVar).toOption.any fun s₀ =>
      (playLoop zephyr defaultSafeSizes (again 10) [.tick 1, .clock 3, .arrive (packetOf 3)]
        (LoopState.init (fun _ => packetOf 0) s₀ 0)).any fun s =>
        (playLoop zephyr defaultSafeSizes (again 10) fiveRounds s).any fun _ =>
          s.ring.accepted[0]? = some (packetOf 3) ∧ s.sched.now = 0 ∧ s₀.eventQueueLen = 0 ∧
            s₀.now = 0) = true := by
    decide +kernel
  simp only [Option.any_eq_true] at plays
  obtain ⟨s₀, start, s, play, t, rounds, facts⟩ := plays
  obtain ⟨here, now, empty, zero⟩ := of_decide_eq_true facts
  have wf := wakeUp_wellFormed (ok_of_toOption start)
  have run := LoopRun.of_play (.start wf empty (Nat.le_of_eq zero) (by decide)) play
  refine ⟨s₀, s, t, ok_of_toOption start, play, rounds,
    packet_taken run here (.of_play .refl rounds) ?_⟩
  rw [now]
  decide

end SsmRuntime
