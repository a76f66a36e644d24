import SsmRuntime.ForkInstant
import SsmRuntime.Library.WhileLoop
import SsmRuntime.TickLoop

/-!
The main function of the simulation. One tick, and then ticks for as long as an
event is pending and the limit has not been reached. It ends for every program,
and it leaves no event below the limit undelivered.
-/
namespace SsmRuntime

open WhileLoop

def SimulationGoes (stopAt : Nat) (s : State) : Prop :=
  ssmNextEventTime s ≠ ssmNever ∧ s.now < stopAt

instance (stopAt : Nat) : DecidablePred (SimulationGoes stopAt) :=
  fun _ => inferInstanceAs (Decidable (_ ∧ _))

/-- An instant with its time and its calls. -/
structure Tick where
  time : Nat
  calls : List (ActPtr × State)

namespace Routine

def tick (p : Routine) (sizes : QueueSizes) (n : Nat) (s : State) : Tick × Res :=
  (⟨tickTime s, p.tickVisits sizes n s⟩, ssmTick sizes (p.steps sizes) n s)

/-- The ticks of `main` after `ssm_program_init`. -/
def simulation (p : Routine) (sizes : QueueSizes) (n stopAt rounds : Nat) (s : State) :
    List Tick × Option Res :=
  match p.tick sizes n s with
  | (k, .error e) => ([k], some (.error e))
  | (k, .ok t) =>
      (k :: (loop (SimulationGoes stopAt) (p.tick sizes n) rounds t).1,
        (loop (SimulationGoes stopAt) (p.tick sizes n) rounds t).2)

end Routine

/-- What holds after a tick. -/
structure Resting (sizes : QueueSizes) (s : State) : Prop where
  wellFormed : WellFormed sizes s
  disciplined : s.view.Disciplined
  ahead : s.view.Ahead
  idle : s.view.scheduledSet = ∅

/-- A tick that fails: a queue or the priorities are exhausted, or its calls go
on and on. -/
def Fails (n : Nat) (k : Tick) (e : Stop) : Prop :=
  (∃ r, e.fault = .thrown r ∧ Depleted r) ∨ e.fault = .diverges ∧ n ≤ k.calls.length

section Rounds
variable {sizes : SafeSizes} {p : Routine} {s : State}

theorem Resting.now_lt {stopAt : Nat} (rest : Resting sizes s) (goes : SimulationGoes stopAt s) :
    s.now < tickTime s := by
  have idle : s.actQueueLen = 0 := by
    rw [← rest.wellFormed.card_scheduledSet, rest.idle, Finset.card_empty]
  refine now_lt_tickTime rest.wellFormed rest.ahead idle fun none => goes.1 ?_
  rw [ssmNextEventTime, if_pos none]

theorem Routine.tick_spec (n : Nat) (wf : WellFormed sizes s) (ready : s.view.Ready)
    (ok : s.view.Disciplined) (obeys : ∀ c ∈ (p.tick sizes n s).1.calls, p.Obeys c) :
    (∃ e, (p.tick sizes n s).2 = .error e ∧ Fails n (p.tick sizes n s).1 e) ∨
      ∃ t, (p.tick sizes n s).2 = .ok t ∧ Resting sizes t ∧ t.now = tickTime s := by
  rcases (ssmTick_spec n wf ready ok obeys).2 with ⟨e, u, throws, depleted⟩ | ⟨u, spins, long⟩ |
    ⟨t, done, wft, okt, ahead, idle, now⟩
  · exact Or.inl ⟨_, throws, Or.inl ⟨e, rfl, depleted⟩⟩
  · exact Or.inl ⟨_, spins, Or.inr ⟨rfl, long⟩⟩
  · exact Or.inr ⟨t, done, ⟨wft, okt, ahead, idle⟩, now⟩

theorem simulation_advances (sizes : SafeSizes) (p : Routine) (n stopAt : Nat) :
    Advances (SimulationGoes stopAt) (p.tick sizes n) (Resting sizes) State.now Tick.time
      (fun k => ∀ c ∈ k.calls, p.Obeys c) (Fails n) stopAt where
  below := fun _ _ goes => goes.2
  later := fun _ rest goes => rest.now_lt goes
  round := fun _ rest _ obeys =>
    Routine.tick_spec n rest.wellFormed rest.ahead.ready rest.disciplined obeys

/-- Nothing that is still pending was to happen before the limit. -/
theorem Resting.beyond {stopAt : Nat} (rest : Resting sizes s) (stop : ¬ SimulationGoes stopAt s)
    {x : Addr} (pending : s.Pending x) : stopAt ≤ s.now ∧ s.now < s.laterTimeAt x := by
  obtain ⟨v, hv, hne⟩ := pending
  have ahead : s.now < v.laterTime := rest.ahead x v.seen (view_var_of_sv? hv) hne
  refine ⟨Nat.not_lt.mp fun early => stop ⟨?_, early⟩, ?_⟩
  · -- an event is pending, so there is a next one
    have some' : s.eventQueueLen ≠ 0 := fun none => by
      have mem := (rest.wellFormed.queue.mem x).mpr ⟨v, hv, hne⟩
      simp [State.queued, none] at mem
    obtain ⟨y, ⟨w, hw, live⟩, next⟩ := ssmNextEventTime_attained rest.wellFormed.queue some'
    rw [next, State.laterTimeAt_of_sv? hw]
    exact live
  · rw [State.laterTimeAt_of_sv? hv]
    exact ahead

end Rounds

/-- The simulation ends for every program, within one tick and as many as there
are times from it to the limit. Its clock rises, and only the last tick may be at
the limit or later; no event before the limit is left, and a higher limit goes on
from where a lower one ends. -/
theorem simulation_ends {sizes : SafeSizes} {p : Routine} {s : State} {n stopAt rounds : Nat}
    (wf : WellFormed sizes s) (ready : s.view.Ready) (ok : s.view.Disciplined)
    (enough : stopAt ≤ rounds)
    (obeys : ∀ k ∈ (p.simulation sizes n stopAt rounds s).1, ∀ c ∈ k.calls, p.Obeys c) :
    ((∃ e, (p.simulation sizes n stopAt rounds s).2 = some (.error e) ∧
        ∃ k ∈ (p.simulation sizes n stopAt rounds s).1, Fails n k e) ∨
      ∃ t, (p.simulation sizes n stopAt rounds s).2 = some (.ok t) ∧ WellFormed sizes t ∧
        (∀ x, t.Pending x → stopAt ≤ t.now ∧ t.now < t.laterTimeAt x) ∧
        ∀ higher more, stopAt ≤ higher →
          p.simulation sizes n higher
              ((p.simulation sizes n stopAt rounds s).1.length - 1 + more) s =
            ((p.simulation sizes n stopAt rounds s).1 ++
                (loop (SimulationGoes higher) (p.tick sizes n) more t).1,
              (loop (SimulationGoes higher) (p.tick sizes n) more t).2)) ∧
    (p.simulation sizes n stopAt rounds s).1.length ≤ stopAt - tickTime s + 1 ∧
    ((p.simulation sizes n stopAt rounds s).1.map Tick.time).Pairwise (· < ·) ∧
    ∀ k ∈ (p.simulation sizes n stopAt rounds s).1.dropLast, k.time < stopAt := by
  obtain ⟨k, r, first⟩ : ∃ k r, p.tick sizes n s = (k, r) := ⟨_, _, rfl⟩
  have spec := Routine.tick_spec (p := p) n wf ready ok
  have adv := simulation_advances sizes p n stopAt
  cases r with
  | error e =>
      have whole : p.simulation sizes n stopAt rounds s = ([k], some (.error e)) := by
        rw [Routine.simulation, first]
      rw [whole] at obeys ⊢
      rw [first] at spec
      rcases spec (obeys k (List.mem_singleton_self k)) with ⟨e', same, fails⟩ | ⟨t, same, -⟩
      · cases same
        exact ⟨Or.inl ⟨e, rfl, k, List.mem_singleton_self k, fails⟩, by simp, by simp, by simp⟩
      · cases same
  | ok t =>
      have whole : ∀ stopAt rounds, p.simulation sizes n stopAt rounds s =
          (k :: (loop (SimulationGoes stopAt) (p.tick sizes n) rounds t).1,
            (loop (SimulationGoes stopAt) (p.tick sizes n) rounds t).2) := fun stopAt rounds => by
        rw [Routine.simulation, first]
      rw [whole] at obeys ⊢
      rw [first] at spec
      have time : k.time = tickTime s := congrArg (fun r => r.1.time) first.symm
      have rest : Resting sizes t ∧ t.now = k.time := by
        rcases spec (obeys k List.mem_cons_self) with ⟨e', same, -⟩ | ⟨t', same, rest, now⟩
        · cases same
        · cases same
          exact ⟨rest, now.trans time.symm⟩
      have fine := fun b hb => obeys b (List.mem_cons_of_mem k hb)
      obtain ⟨above, rising, low⟩ := adv.stamps rest.1 fine
      refine ⟨?_, ?_, ?_, fun b hb => ?_⟩
      · rcases adv.ends rest.1 (Nat.le_add_left_of_le enough) fine with ⟨e, ends, b, hb, fails⟩ |
          ⟨u, ends, restU, stop⟩
        · exact Or.inl ⟨e, ends, b, List.mem_cons_of_mem k hb, fails⟩
        · refine Or.inr ⟨u, ends, restU.wellFormed, fun x => restU.beyond stop,
            fun higher more le => ?_⟩
          have extend := loop_extend (SimulationGoes higher)
            (fun a goes => ⟨goes.1, Nat.lt_of_lt_of_le goes.2 le⟩) ends more
          rw [whole, List.length_cons, Nat.add_sub_cancel, extend]
          rfl
      · have few := adv.length_le rest.1 fine
        rw [rest.2, time] at few
        exact Nat.succ_le_succ few
      · refine List.pairwise_cons.mpr ⟨fun time mem => ?_, rising⟩
        obtain ⟨b, hb, rfl⟩ := List.mem_map.mp mem
        exact rest.2 ▸ above b hb
      · by_cases more : (loop (SimulationGoes stopAt) (p.tick sizes n) rounds t).1 = []
        · rw [more] at hb
          cases hb
        · rw [List.dropLast_cons_of_ne_nil more] at hb
          rcases List.mem_cons.mp hb with rfl | hb
          · exact rest.2 ▸ (goes_of_rounds more).2
          · exact low b hb

/-- Three records that are done after two instants, long before the limit. -/
theorem simulation_ends_forkTwo : ∃ s t,
    launch defaultSafeSizes 10 1 0 0 [] forkVars = .ok s ∧
    (forkTwo.simulation defaultSafeSizes 8 100 100 s).1.map Tick.time = [0, 5] ∧
    (forkTwo.simulation defaultSafeSizes 8 100 100 s).2 = some (.ok t) ∧ ∀ x, ¬ t.Pending x := by
  obtain ⟨s, start, -, -, wf, disciplined, ready⟩ := forkTwo_starts
  have plays : (launch defaultSafeSizes 10 1 0 0 [] forkVars).toOption.any (fun s =>
      (forkTwo.simulation defaultSafeSizes 8 100 100 s).1.map Tick.time == [0, 5] &&
      ((forkTwo.simulation defaultSafeSizes 8 100 100 s).2.any fun r =>
        r.toOption.any fun t => t.now == 5) &&
      (forkTwo.simulation defaultSafeSizes 8 100 100 s).1.all fun k => k.calls.all fun c =>
        decide (forkTwo.Obeys c)) = true := by
    decide +kernel
  rw [start] at plays
  simp only [Except.toOption, Option.any_some, Bool.and_eq_true, beq_iff_eq, List.all_eq_true,
    decide_eq_true_eq] at plays
  obtain ⟨⟨times, last⟩, obeys⟩ := plays
  obtain ⟨r, ends, last⟩ := (Option.any_eq_true _ _).mp last
  obtain ⟨t, done, now⟩ := (Option.any_eq_true _ _).mp last
  have ends := ends.trans (congrArg some (ok_of_toOption done))
  rcases (simulation_ends wf ready disciplined (Nat.le_refl 100) obeys).1 with
    ⟨e, fails, -⟩ | ⟨u, same, -, beyond, -⟩
  · rw [ends] at fails
    cases fails
  · rw [ends] at same
    cases same
    refine ⟨s, t, start, times, ends, fun x pending => ?_⟩
    have late := (beyond x pending).1
    have now := beq_iff_eq.mp now
    omega

end SsmRuntime
