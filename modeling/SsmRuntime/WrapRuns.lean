import SsmRuntime.InputLoop

/-!
Long runs of the main loop on the board: one input in each instant, up to the
input whose acceptance wraps the word that counts packets. The scheduler is one
that nothing but the inputs moves.
-/
namespace SsmRuntime

/-- Variable 1 can take inputs: no record runs or listens to it, and all events
that are pending lie far ahead. -/
structure Restful (far n : Nat) (u : State) : Prop where
  wellFormed : WellFormed defaultSafeSizes u
  now : u.now = n
  live : (u.view.var 1).isSome
  later : ∀ x w, u.view.var x = some w → w.laterTime ≠ ssmNever → x ≠ 1 ∧ far ≤ w.laterTime
  room : u.eventQueueLen < 2048
  idle : u.view.scheduledSet = ∅
  unheard : u.view.triggers 1 = ∅

section Instant
variable {far n : Nat} {u : State}

theorem Restful.actQueueLen (rest : Restful far n u) : u.actQueueLen = 0 := by
  rw [← rest.wellFormed.card_scheduledSet, rest.idle, Finset.card_empty]

/-- No event is earlier than those far ahead. -/
theorem Restful.far_le (rest : Restful far n u) (soon : far ≤ ssmNever) :
    far ≤ ssmNextEventTime u := by
  by_cases none : u.eventQueueLen = 0
  · rw [ssmNextEventTime, if_pos none]
    exact soon
  · obtain ⟨x, ⟨w, hw, hne⟩, next⟩ := ssmNextEventTime_attained rest.wellFormed.queue none
    rw [next, State.laterTimeAt_of_sv? hw]
    exact (rest.later x w.seen (view_var_of_sv? hw) hne).2

/-- Variable 1 awaits the next instant, with nothing else before the events far
ahead; the state before is `u`. -/
structure Awaiting (far n lo : Nat) (u v : State) : Prop where
  wellFormed : WellFormed defaultSafeSizes v
  shown : v.view = u.view.later 1 (n + 1) (.packed lo)
  before : Restful far n u

/-- One input is scheduled for the next instant. -/
theorem Restful.schedule (rest : Restful far n u) (early : n + 1 < far) (soon : far ≤ ssmNever)
    (lo : Nat) : ∃ v, runActions defaultSafeSizes [.later 1 (n + 1) (.packed lo)] u = .ok v ∧
      Awaiting far n lo u v := by
  have now : u.view.now = n := rest.now
  have legal : (Action.later 1 (n + 1) (.packed lo)).Admissible u.view :=
    ⟨rest.live, rfl, by omega, by omega⟩
  have spec := Action.exec_computes rest.wellFormed _ legal
  have room : (Action.later 1 (n + 1) (.packed lo)).Room defaultSafeSizes u.view := by
    refine Or.inr ?_
    rw [rest.wellFormed.card_pending]
    exact rest.room
  rw [View.act, if_pos room] at spec
  obtain ⟨v, run, wf, shown⟩ := spec
  exact ⟨v, by rw [runActions, run]; rfl, wf, shown, rest⟩

namespace Awaiting
variable {lo : Nat} {v : State} (waits : Awaiting far n lo u v)
include waits

theorem var (x : Addr) : v.view.var x = if x = 1 then (u.view.var x).map fun w =>
    { w with laterTime := n + 1, laterValue := .packed lo } else u.view.var x := by
  rw [waits.shown]
  rfl

theorem here : ∃ w, v.view.var 1 = some w ∧ w.laterTime = n + 1 := by
  obtain ⟨w, hw⟩ := Option.isSome_iff_exists.mp waits.before.live
  exact ⟨_, by rw [waits.var, if_pos rfl, hw, Option.map_some], rfl⟩

theorem idle : v.view.scheduledSet = ∅ := by
  rw [waits.shown]
  exact waits.before.idle

theorem unheard : v.view.triggers 1 = ∅ := by
  rw [waits.shown]
  exact waits.before.unheard

theorem pending {x : Addr} {w : Sv} (hw : v.view.var x = some w)
    (hne : w.laterTime ≠ ssmNever) :
    x = 1 ∧ w.laterTime = n + 1 ∨ x ≠ 1 ∧ far ≤ w.laterTime := by
  rw [waits.var] at hw
  split at hw
  · rename_i same
    obtain ⟨w', -, rfl⟩ := Option.map_eq_some_iff.mp hw
    exact Or.inl ⟨same, rfl⟩
  · exact Or.inr (waits.before.later x w hw hne)

theorem pending_one (soon : n + 1 < ssmNever) : v.Pending 1 := by
  obtain ⟨w, hw, time⟩ := waits.here
  exact (view_pending v 1).mp ⟨w, hw, time ▸ Nat.ne_of_lt soon⟩

theorem next (early : n + 1 < far) (soon : far ≤ ssmNever) : ssmNextEventTime v = n + 1 := by
  have pend := waits.pending_one (Nat.lt_of_lt_of_le early soon)
  have some' : v.eventQueueLen ≠ 0 := fun none => waits.wellFormed.queue.empty_iff.mp none 1 pend
  obtain ⟨w, hw, hne⟩ := pend
  have le := ssmNextEventTime_le waits.wellFormed.queue waits.wellFormed.order ⟨w, hw, hne⟩
  rw [State.laterTimeAt_of_sv? hw] at le
  have first := (waits.pending (view_var_of_sv? hw) hne).resolve_right fun h => h.1 rfl
  have time : w.laterTime = n + 1 := first.2
  obtain ⟨x, ⟨w', hw', hne'⟩, next⟩ := ssmNextEventTime_attained waits.wellFormed.queue some'
  rw [State.laterTimeAt_of_sv? hw'] at next
  rcases waits.pending (view_var_of_sv? hw') hne' with ⟨-, last⟩ | ⟨-, last⟩
  · exact next.trans last
  · have ahead : far ≤ w'.laterTime := last
    omega

/-- Nothing but variable 1 is due in the next instant. -/
theorem mem_due (early : n + 1 < far) (soon : far ≤ ssmNever) (x : Addr) :
    x ∈ (v.view.setNow (n + 1)).due ↔ x = 1 := by
  refine (View.mem_due (V := v.view.setNow (n + 1)) (view_live v)).trans ⟨?_, ?_⟩
  · rintro ⟨w, hw, time, hne⟩
    rcases waits.pending hw hne with ⟨same, -⟩ | ⟨-, ahead⟩
    · exact same
    · rw [time] at ahead
      exact absurd early (Nat.not_lt.mpr ahead)
  · rintro rfl
    obtain ⟨w, hw, time⟩ := waits.here
    exact ⟨w, hw, time, time ▸ Nat.ne_of_lt (Nat.lt_of_lt_of_le early soon)⟩

theorem heard (early : n + 1 < far) (soon : far ≤ ssmNever) :
    (v.view.setNow (n + 1)).heard = ∅ := by
  refine Finset.eq_empty_of_forall_notMem fun a ha => ?_
  obtain ⟨x, hx, listens⟩ := Finset.mem_biUnion.mp ha
  obtain ⟨-, ⟨t, ht, -⟩, -⟩ := Finset.mem_filter.mp listens
  rw [(waits.mem_due early soon x).mp hx] at ht
  have mem : t ∈ v.view.triggers 1 := ht
  rw [waits.unheard] at mem
  exact absurd mem (Finset.notMem_empty t)

/-- The tick updates the variable, wakes no record and ends. -/
theorem tick (early : n + 1 < far) (soon : far ≤ ssmNever) (prog : Program) :
    ∃ t, ssmTick defaultSafeSizes (prog.steps defaultSafeSizes) 0 v = .ok t ∧
      WellFormed defaultSafeSizes t ∧ t.view = (v.view.setNow (n + 1)).updates ∧
      t.view.scheduledSet = ∅ := by
  have next := waits.next early soon
  have none : (v.view.setNow (n + 1)).scheduledSet = ∅ := waits.idle
  have silent := waits.heard early soon
  have now : v.now = n := (congrArg View.now waits.shown).trans waits.before.now
  have some' : v.eventQueueLen ≠ 0 := fun none => waits.wellFormed.queue.empty_iff.mp none 1
    (waits.pending_one (Nat.lt_of_lt_of_le early soon))
  have enter := tickEnter_idle
    (by rw [← waits.wellFormed.card_scheduledSet, waits.idle, Finset.card_empty]) some' (by
    rw [next, now]
    exact Nat.lt_succ_self n)
  have spec := tickUpdates_refines v.eventQueueLen (waits.wellFormed.setNow (n + 1))
    (waits.wellFormed.notLate_setNow (Nat.le_of_eq next.symm)) (Nat.le_refl _)
  rw [view_setNow, none, silent, Finset.empty_union, Finset.card_empty, if_pos (Nat.zero_le _)]
    at spec
  obtain ⟨t, done, wf, shown⟩ := spec
  have idle : t.view.scheduledSet = ∅ := by
    have recorded : (v.view.setNow (n + 1)).deliverDue.Recorded := view_recorded v
    rw [shown, View.updates, silent, View.scheduledSet_wake recorded (Finset.empty_subset _),
      Finset.union_empty]
    exact waits.idle
  have empty : t.actQueueLen = 0 := by rw [← wf.card_scheduledSet, idle, Finset.card_empty]
  refine ⟨t, ?_, wf, shown, idle⟩
  rw [ssmTick, enter, ok_bind, next, done, ok_bind, tickSteps, if_pos empty]

end Awaiting

/-- One input and the instant it leads to. -/
theorem Restful.instant (rest : Restful far n u) (early : n + 1 < far) (soon : far ≤ ssmNever)
    (lo : Nat) (prog : Program) :
    ∃ v t, runActions defaultSafeSizes [.later 1 (n + 1) (.packed lo)] u = .ok v ∧
      ssmTick defaultSafeSizes (prog.steps defaultSafeSizes) 0 v = .ok t ∧
      Restful far (n + 1) t ∧ t.eventQueueLen = u.eventQueueLen ∧
      t.view.records = u.view.records ∧ ∀ x, x ≠ 1 → t.view.var x = u.view.var x := by
  obtain ⟨v, run, waits⟩ := rest.schedule early soon lo
  obtain ⟨t, tick, wf, shown, idle⟩ := waits.tick early soon prog
  have var : ∀ x, t.view.var x = if x ∈ (v.view.setNow (n + 1)).due then
      (v.view.var x).map (View.deliver (n + 1)) else v.view.var x := by
    rw [shown]
    exact fun x => rfl
  have other : ∀ x, x ≠ 1 → t.view.var x = u.view.var x := by
    intro x hx
    rw [var, if_neg fun due => hx ((waits.mem_due early soon x).mp due), waits.var, if_neg hx]
  obtain ⟨w, hw, never⟩ : ∃ w, t.view.var 1 = some w ∧ w.laterTime = ssmNever := by
    obtain ⟨w, hw, -⟩ := waits.here
    rw [var, if_pos ((waits.mem_due early soon 1).mpr rfl), hw]
    exact ⟨_, rfl, rfl⟩
  have vars : t.view.vars = u.view.vars := by
    rw [shown]
    change v.view.vars = u.view.vars
    rw [waits.shown]
    rfl
  have len : t.eventQueueLen = u.eventQueueLen := by
    rw [← wf.card_pending, ← rest.wellFormed.card_pending]
    refine congrArg Finset.card (Finset.ext fun x => ?_)
    rw [View.pendingSet, View.pendingSet, Finset.mem_filter, Finset.mem_filter, vars]
    refine and_congr_right fun _ => ?_
    by_cases hx : x = 1
    · subst hx
      refine iff_of_false ?_ ?_
      · rintro ⟨w', hw', hne⟩
        rw [Option.mem_def, hw] at hw'
        exact hne (Option.some.inj hw' ▸ never)
      · rintro ⟨w', hw', hne⟩
        exact (rest.later 1 w' hw' hne).1 rfl
    · rw [View.Pending, other x hx, View.Pending]
  refine ⟨v, t, run, tick, ⟨wf, congrArg View.now shown, ?_, ?_, ?_, idle, ?_⟩, len, ?_, other⟩
  · rw [hw]
    rfl
  · intro x w' hw' hne
    by_cases hx : x = 1
    · rw [hx, hw] at hw'
      exact absurd (Option.some.inj hw' ▸ never) hne
    · exact rest.later x w' (other x hx ▸ hw') hne
  · rw [len]
    exact rest.room
  · rw [shown]
    exact waits.unheard
  · rw [shown]
    change v.view.records = u.view.records
    rw [waits.shown]
    rfl

end Instant

/-- The loop at its head after so many inputs, one in each instant. -/
structure LevelAt (S : Nat → State → Prop) (n : Nat) (s : LoopState) : Prop where
  ring : Level n s.ring
  sched : S n s.sched
  clock : s.clock = n
  phase : s.phase = .head

/-- What holds of a state goes on to hold after every legal step of the board,
short of the choice to sleep. -/
def GoesOn (prog : Program) (R : LoopState → Prop) : Prop :=
  ∀ (op : LoopOp) {s t : LoopState}, R s → zephyr.LoopLegal defaultSafeSizes prog op s →
    zephyr.loopStep defaultSafeSizes prog op s = some t → (op = .branch → t.phase = .doTick) → R t

/-- A scheduler that takes an input in each instant. -/
def TakesInputs (prog : Program) (S : Nat → State → Prop) : Prop :=
  ∀ n u, S n u → n + 1 < 2 ^ 32 → n + 1 ≤ ssmNextEventTime u ∧
    ∃ v t, runActions defaultSafeSizes [.later 1 (n + 1) (.packed (n + 1))] u = .ok v ∧
      ssmTick defaultSafeSizes (prog.steps defaultSafeSizes) 0 v = .ok t ∧ S (n + 1) t

section Chain
variable {prog : Program} {R : LoopState → Prop} {S : Nat → State → Prop} {n : Nat}

/-- The clock moves on, a packet arrives and the loop comes to poll. -/
theorem LevelAt.arrived {s : LoopState} (level : LevelAt S n s) (go : GoesOn prog R) (run : R s)
    (time : Nat) (pkt : SsmInput) (stamp : zephyr.stamp pkt = time)
    (packed : ssmOnHeap pkt.payload = false) (forward : n ≤ time) (soon : time < ssmNever) :
    R { s with
      ring := { s.ring with
        rb := Function.update s.ring.rb (n % 32) pkt
        rbW := (n + 1) % 2 ^ 32
        accepted := s.ring.accepted ++ [pkt] }
      clock := time
      phase := .polling time (ssmNextEventTime s.sched) } := by
  obtain ⟨ring, sched, clock, phase, applied⟩ := s
  obtain ⟨ringLevel, -, hclock, hphase⟩ := level
  simp only at ringLevel hclock hphase
  subst hphase
  have ready : zephyr.writeReady ring.rbR ring.rbW := by
    rw [ringLevel.rbR, ringLevel.rbW]
    show n % 32 ≠ (n + 1) % 2 ^ 32 % 32
    omega
  have inserted : zephyr.ssmInsertInput pkt ring = { ring with
      rb := Function.update ring.rb (n % 32) pkt
      rbW := (n + 1) % 2 ^ 32
      accepted := ring.accepted ++ [pkt] } := by
    rw [Platform.ssmInsertInput, if_pos ready, ringLevel.rbW]
    rfl
  have ticked := go (.clock time) run ⟨hclock ▸ forward, soon⟩ rfl LoopOp.noConfusion
  have came := go (.arrive pkt) ticked ⟨stamp, packed⟩ rfl LoopOp.noConfusion
  have walled := go .readWall came trivial rfl LoopOp.noConfusion
  have read := go .readNext walled trivial rfl LoopOp.noConfusion
  simp only [inserted] at read
  exact read

theorem stamp_packetOf {lo : Nat} (small : lo < 2 ^ 32) : zephyr.stamp (packetOf lo) = lo := by
  have calc' : ssmTimerCalc (packetOf lo).time = lo := by
    simp [packetOf, ssmTimerCalc, ssmTimerCombine]
  refine (zephyr_convert ?_).trans calc'
  rw [calc']
  omega

theorem heeds_zero (P : View → Action → Prop) (steps : Steps) (s : State) :
    Heeds P prog (ssmTickCalls defaultSafeSizes steps 0 s) := by
  unfold ssmTickCalls
  split
  all_goals exact fun c hc => absurd hc List.not_mem_nil

/-- While the words have not wrapped, an input can be taken in each instant. -/
theorem LevelAt.next {s : LoopState} (level : LevelAt S n s) (go : GoesOn prog R) (run : R s)
    (takes : TakesInputs prog S) (small : n + 1 < 2 ^ 32) : ∃ t, R t ∧ LevelAt S (n + 1) t := by
  have came := level.arrived go run _ _ (stamp_packetOf small) rfl (Nat.le_succ n)
    (by unfold ssmNever; omega)
  obtain ⟨⟨rb, r, w, scaled, producer, consumer, accepted, consumed⟩, sched, clock, phase, applied⟩
    := s
  obtain ⟨⟨hr, hw, hs, hp, hc, hA, hC⟩, hsched, hclock, hphase⟩ := level
  simp only at hr hw hs hp hc hA hC hsched hclock hphase came
  subst r scaled producer consumer phase
  have word : (n + 1) % 2 ^ 32 = n + 1 := Nat.mod_eq_of_lt small
  rw [word] at came
  have first := go .pollR came trivial rfl LoopOp.noConfusion
  have polled := go .pollW first trivial rfl LoopOp.noConfusion
  have scaled := go .scale polled trivial
    (by simp only [Platform.loopStep, Platform.pollStep, if_pos (Nat.lt_succ_self n)]; rfl)
    LoopOp.noConfusion
  have ended := go .scale scaled trivial
    (by simp only [Platform.loopStep, Platform.pollStep, if_neg (Nat.lt_irrefl (n + 1))]; rfl)
    LoopOp.noConfusion
  obtain ⟨rb', slot, ended⟩ : ∃ rb', zephyr.inputGet rb' n = zephyr.converted (packetOf (n + 1)) ∧
      R ⟨⟨rb', n, n + 1, n + 1, .idle, .consuming n (n + 1),
        accepted ++ [packetOf (n + 1)], consumed⟩, sched, n + 1,
        .polling (n + 1) (ssmNextEventTime sched), applied⟩ := by
    refine ⟨_, ?_, ended⟩
    exact (inputGet_update_self _ _ _).trans
      (congrArg zephyr.converted (Function.update_self _ _ _))
  obtain ⟨soon, v, t, run', tick, hsched'⟩ := takes n sched hsched small
  have time : (zephyr.inputGet rb' n).time.ssmTime = n + 1 := by
    rw [slot]
    exact stamp_packetOf small
  have ready : zephyr.readReady n (n + 1) := by
    show n % 32 ≠ (n + 1) % 32
    omega
  have call : zephyr.packetCall rb' (zephyr.inputGet rb' n).time.ssmTime n =
      .later 1 (n + 1) (.packed (n + 1)) := by
    rw [time, Platform.packetCall, slot]
    rfl
  obtain ⟨batch, consumed'⟩ := zephyr.ssmInputConsume_one defaultSafeSizes.toQueueSizes
    ready (by show ¬ zephyr.readReady ((n + 1) % 2 ^ 32) (n + 1); rw [word]; exact fun h => h rfl)
    (by rw [time]; exact soon) (call ▸ run')
  have taken := go .branch ended trivial (by
    simp only [Platform.loopStep, Platform.branch, if_pos (And.intro ready (time.trans_le soon)),
      consumed', batch]
    rfl) fun _ => rfl
  have ticked := go (.tick 0) taken (heeds_zero _ _ _) (by
    simp only [Platform.loopStep, tick]
    rfl) LoopOp.noConfusion
  refine ⟨_, ticked, ⟨word, rfl, rfl, rfl, rfl, ?_, ?_⟩, hsched', rfl, rfl⟩
  · simp [hA, Platform.take]
  · simp [hC, Platform.take]

theorem LevelAt.reach {s : LoopState} (level : LevelAt S 0 s) (go : GoesOn prog R) (run : R s)
    (takes : TakesInputs prog S) (n : Nat) (small : n < 2 ^ 32) : ∃ t, R t ∧ LevelAt S n t := by
  induction n with
  | zero => exact ⟨s, run, level⟩
  | succ n ih =>
      obtain ⟨t, run', level'⟩ := ih (by omega)
      exact level'.next go run' takes small

end Chain

section Refused

/-- No step function, no event and no record: a scheduler that only takes inputs. -/
structure Calm (n : Nat) (u : State) : Prop where
  wellFormed : WellFormed defaultSafeSizes u
  now : u.now = n
  live : (u.view.var 1).isSome
  quiet : u.eventQueueLen = 0
  records : u.view.records = ∅

def noSteps : Program := fun _ _ _ => []

variable {n : Nat} {u : State}

theorem Calm.restful (calm : Calm n u) : Restful ssmNever n u where
  wellFormed := calm.wellFormed
  now := calm.now
  live := calm.live
  later := fun x w hw hne => by
    obtain ⟨w', hw', rfl⟩ := State.seen?_eq_some.mp hw
    exact absurd ⟨w', hw', hne⟩ (calm.wellFormed.queue.empty_iff.mp calm.quiet x)
  room := by
    rw [calm.quiet]
    decide
  idle := Finset.subset_empty.mp
    (calm.records ▸ Finset.filter_subset _ _ : u.view.scheduledSet ⊆ ∅)
  unheard := by
    obtain ⟨v, hv, -⟩ := State.seen?_eq_some.mp (Option.isSome_iff_exists.mp calm.live).choose_spec
    refine Finset.eq_empty_of_forall_notMem fun t ht => ?_
    rw [view_triggers hv, List.mem_toFinset] at ht
    have act : u.actOf t ∈ u.view.records := calm.wellFormed.triggers.act 1 v t hv ht
    rw [calm.records] at act
    exact absurd act (Finset.notMem_empty _)

theorem calm_takesInputs : TakesInputs noSteps Calm := by
  intro n u calm small
  have next : ssmNextEventTime u = ssmNever := by rw [ssmNextEventTime, if_pos calm.quiet]
  have soon : n + 1 < ssmNever := by unfold ssmNever; omega
  obtain ⟨v, t, run, tick, rest, len, records, -⟩ :=
    calm.restful.instant soon (Nat.le_refl _) (n + 1) noSteps
  refine ⟨by omega, v, t, run, tick, rest.wellFormed, rest.now, rest.live, len.trans calm.quiet,
    records.trans calm.records⟩

abbrev ZephyrRun (s : LoopState) : Prop :=
  LoopRun zephyr defaultSafeSizes noSteps (zephyr.LoopLegal defaultSafeSizes noSteps) s

theorem exists_loopLevel (n : Nat) (small : n < 2 ^ 32) :
    ∃ s, ZephyrRun s ∧ LevelAt Calm n s := by
  have wf := State.idle_wellFormed defaultSafeSizes {1} ∅ (fun _ => ⟨0, 0, 0, 0, 0, 0, false, []⟩)
    ∅ fun _ => 0
  have start : ZephyrRun (LoopState.init (fun _ => packetOf 0) _ 0) :=
    .start wf rfl (Nat.le_refl 0) (by decide)
  have ticked := start.step (.tick 0) (fun c _ => trivial) rfl
  refine LevelAt.reach (R := ZephyrRun) ?_ (fun op _ _ run legal step _ => run.step op legal step)
    ticked calm_takesInputs n small
  refine ⟨⟨rfl, rfl, rfl, rfl, rfl, rfl, rfl⟩, ⟨wf, rfl, ?_, rfl, rfl⟩, rfl, rfl⟩
  decide

/-- The packet whose acceptance wraps the word is taken for one of the distant
past, and refused. -/
theorem not_inputsInTime : ¬ ∀ prog s, LoopRun zephyr defaultSafeSizes prog
    (zephyr.LoopLegal defaultSafeSizes prog) s → InputsInTime zephyr defaultSafeSizes prog s := by
  intro all
  obtain ⟨n, hn⟩ : ∃ n, n = 2 ^ 32 - 1 := ⟨_, rfl⟩
  obtain ⟨s, run, level⟩ := exists_loopLevel n (by omega)
  have came := level.arrived (R := ZephyrRun)
    (fun op _ _ run legal step _ => run.step op legal step) run (2 ^ 32)
    ⟨1, .packed 7, ⟨1, 0, 1⟩⟩ (by decide) rfl
    (by omega) (by decide)
  rw [show (n + 1) % 2 ^ 32 = 0 by omega, show n % 32 = 31 by omega] at came
  obtain ⟨⟨rb, r, w, scaled, producer, consumer, accepted, consumed⟩, sched, clock, phase, applied⟩
    := s
  obtain ⟨⟨hr, -, hs, hp, hc, -, -⟩, calm, -, -⟩ := level
  simp only at hr hs hp hc calm came
  subst r scaled producer consumer
  have polled := (came.step .pollR trivial rfl).step .pollW trivial rfl
  have ended := polled.step .scale trivial
    (by simp only [Platform.loopStep, Platform.pollStep, if_neg (Nat.not_lt_zero n)]; rfl)
  have inTime := all noSteps _ ended
  have slot : zephyr.inputGet (Function.update rb 31 ⟨1, .packed 7, ⟨1, 0, 1⟩⟩) n =
      ⟨1, .packed 7, ⟨1, 0, 1⟩⟩ := by
    show Function.update rb 31 _ (n % 32) = _
    rw [show n % 32 = 31 by omega, Function.update_self]
  have ready : zephyr.readReady n 0 := by
    show n % 32 ≠ 0 % 32
    omega
  refine inTime.notRefused (2 ^ 32) _ n 0 rfl rfl sched ?_
  refine zephyr.ssmInputConsume_late ready ?_ ?_
  · rw [slot, ssmNextEventTime, if_pos calm.quiet]
    decide
  · rw [slot, calm.now, hn]
    decide

end Refused

end SsmRuntime
