import Mathlib.Data.Finset.Max
import Mathlib.Data.Finset.Sort
import SsmRuntime.ForkInstant

/-!
The scheduler as a walk over the process tree, on what a state shows. A tick
moves the time, lets every due event happen at once, and calls the leftmost
scheduled record until none is left; a record that leaves last goes on as its
parent. No queue and no list is part of it, and the code computes it.
-/
namespace SsmRuntime
open Nesting

namespace View

/-- The scheduled record whose priorities come first. -/
def first (V : View) : Option ActPtr :=
  ((V.scheduledSet.filter fun a => ∀ b ∈ V.scheduledSet, V.lowest a ≤ V.lowest b).sort
    (· ≤ ·)).head?

/-- The time of a tick: that of the next event, when nothing is scheduled. -/
def tickTime (V : View) : Nat :=
  if V.scheduledSet = ∅ then
    (V.pendingSet.image fun x => ((V.var x).map Sv.laterTime).getD 0).min.untopD V.now
  else V.now

def turn (p : Routine) (act : ActPtr) (V : View) : List Deed × Ending :=
  p (V.field Act.step act) act V

/-- A call with the calls of the parents it resumes, and what they see. -/
def chain (p : Routine) (sizes : QueueSizes) :
    Nat → ActPtr → View → List (ActPtr × View) × Except Fault View
  | 0, _, _ => ([], .error .diverges)
  | depth + 1, act, V =>
      match V.deeds sizes act (V.turn p act).1, (V.turn p act).2 with
      | .error e, _ => ([(act, V)], .error (.thrown e))
      | .ok W, .waits => ([(act, V)], .ok W)
      | .ok W, .leaves =>
          match W.resumes act with
          | none => ([(act, V)], .ok (W.leave act))
          | some parent =>
              ((act, V) :: (chain p sizes depth parent (W.leave act)).1,
                (chain p sizes depth parent (W.leave act)).2)

def walk (p : Routine) (sizes : QueueSizes) :
    Nat → View → List (ActPtr × View) × Except Fault View
  | 0, V => ([], if V.scheduledSet = ∅ then .ok V else .error .diverges)
  | n + 1, V =>
      match V.first with
      | none => ([], .ok V)
      | some act =>
          match chain p sizes V.records.card act (V.pop act) with
          | (log, .ok W) => (log ++ (walk p sizes n W).1, (walk p sizes n W).2)
          | (log, .error f) => (log, .error f)

def instant (p : Routine) (sizes : QueueSizes) (n : Nat) (V : View) :
    List (ActPtr × View) × Except Fault View :=
  let W := V.setNow V.tickTime
  if (W.scheduledSet ∪ W.heard).card ≤ sizes.act then walk p sizes n W.updates
  else ([], .error (.thrown .exhaustedActQueue))

def instants (p : Routine) (sizes : QueueSizes) (n : Nat) :
    Nat → View → List (List (ActPtr × View)) × Except Fault View
  | 0, V => ([], .ok V)
  | m + 1, V =>
      match instant p sizes n V with
      | (log, .ok W) => (log :: (instants p sizes n m W).1, (instants p sizes n m W).2)
      | (log, .error f) => ([log], .error f)

end View

/-- A result of the code, as told on views. -/
def Shows (sizes : QueueSizes) (r : Res) : Except Fault View → Prop
  | .ok V => ∃ t, r = .ok t ∧ WellFormed sizes t ∧ t.view = V
  | .error f => ∃ u, r = .error ⟨f, u⟩

section Walk
variable {sizes : SafeSizes} {p : Routine} {s : State} {a : ActPtr}

/-- No two scheduled records have a priority in common, so the first is told. -/
theorem first_eq {V : View} (ok : V.Disciplined) (mem : a ∈ V.scheduledSet)
    (least : ∀ b ∈ V.scheduledSet, V.prio a ≤ V.prio b) : V.first = some a := by
  obtain ⟨live, childless⟩ := ok.scheduled a mem
  have below : ∀ b ∈ V.scheduledSet, V.lowest a ≤ V.lowest b := fun b hb => by
    rw [View.lowest_of_mem live, View.lowest_of_mem (ok.scheduled b hb).1]
    exact least b hb
  have alone : (V.scheduledSet.filter fun a => ∀ b ∈ V.scheduledSet, V.lowest a ≤ V.lowest b) =
      {a} := by
    ext b
    rw [Finset.mem_filter, Finset.mem_singleton]
    refine ⟨fun ⟨hb, first⟩ => ?_, fun same => same ▸ ⟨mem, below⟩⟩
    by_contra differ
    obtain ⟨memB, noneB⟩ := ok.scheduled b hb
    have apart := ok.forest.nested.before_of_lo_le live memB (View.leaf_of_childless childless)
      (View.leaf_of_childless noneB) (Ne.symm differ) (below b hb)
    exact Nat.not_lt.mpr (Nat.le_trans apart (first a mem)) (ok.forest.nested.some a live)
  rw [View.first, alone, Finset.sort_singleton]
  rfl

theorem first_eq_none {V : View} (none : V.scheduledSet = ∅) : V.first = Option.none := by
  have : (V.scheduledSet.filter fun a => ∀ b ∈ V.scheduledSet, V.lowest a ≤ V.lowest b) = ∅ := by
    rw [none, Finset.filter_empty]
  rw [View.first, this, Finset.sort_empty]
  rfl

theorem tickTime_view (wf : WellFormed sizes s) : s.view.tickTime = tickTime s := by
  have idle : s.view.scheduledSet = ∅ ↔ s.actQueueLen = 0 := by
    rw [← Finset.card_eq_zero, wf.card_scheduledSet]
  have quiet : s.view.pendingSet = ∅ ↔ s.eventQueueLen = 0 := by
    rw [← Finset.card_eq_zero, wf.card_pending]
  rw [View.tickTime, tickTime]
  by_cases busy : s.actQueueLen = 0
  · rw [if_pos (idle.mpr busy)]
    by_cases none : s.eventQueueLen = 0
    · rw [if_neg fun h => h.2 none, quiet.mpr none, Finset.image_empty]
      rfl
    · rw [if_pos ⟨busy, none⟩]
      obtain ⟨x, v, hv, awaits, next⟩ := view_next_attained wf none
      have pending : x ∈ s.view.pendingSet := by
        refine Finset.mem_filter.mpr ⟨(view_live s x).mpr ?_, v, hv, awaits⟩
        rw [hv]
        rfl
      have mem := Finset.mem_image_of_mem (fun x => ((s.view.var x).map Sv.laterTime).getD 0)
        pending
      obtain ⟨m, hm⟩ := Finset.min_of_mem mem
      rw [hm]
      refine Nat.le_antisymm ?_ ?_
      · have := Finset.min_le_of_eq mem hm
        rw [hv] at this
        exact next ▸ this
      · obtain ⟨y, hy, rfl⟩ := Finset.mem_image.mp (Finset.mem_of_min hm)
        obtain ⟨w, hw, awaits'⟩ := (Finset.mem_filter.mp hy).2
        rw [Option.mem_def] at hw
        have := view_next_le wf hw awaits'
        simp only [hw]
        exact this
  · rw [if_neg fun h => busy (idle.mp h), if_neg fun h => busy h.1]
    rfl

theorem turn_view (live : a ∈ s.acts.dom) : p.turn (a, s) = s.view.turn p a := by
  have step : s.view.field Act.step a = (s.acts.val a).step :=
    View.field_of_record _ (Table.get?_of_mem live)
  rw [Routine.turn, View.turn, step]

/-- A call, with the calls of the parents it resumes, computes that on views. -/
theorem chain_computes (depth : Nat) (wf : WellFormed sizes s)
    (called : s.view.Entered a ∨ a = ssmTopParent ∧ s.view.Disciplined)
    (obeys : ∀ c ∈ p.chain sizes depth a s, p.Obeys c) :
    seen (p.chain sizes depth a s) = (View.chain p sizes depth a s.view).1 ∧
      Shows sizes (p.call sizes depth (s.acts.val a).step a s)
        (View.chain p sizes depth a s.view).2 := by
  induction depth generalizing s a with
  | zero => exact ⟨rfl, s, rfl⟩
  | succ depth ih =>
      have mine := obeys (a, s) (by rw [Routine.chain]; exact List.mem_cons_self)
      rcases called with entered | ⟨rfl, ok⟩
      · obtain ⟨notTop, live⟩ := View.mem_processes.mp entered.live
        have turn : p.turn (a, s) = s.view.turn p a := turn_view live
        rw [Routine.Obeys, if_neg notTop] at mine
        have run := entered.running
        have spec := runDeeds_computes _ wf run mine
        cases hd : View.deeds sizes a (p.turn (a, s)).1 s.view with
        | error e =>
            rw [hd] at spec
            obtain ⟨u, hr⟩ := spec
            rw [turn] at hd
            simp only [View.chain, hd]
            exact ⟨by rw [Routine.chain, hr]; rfl, u, Routine.call_stops hr⟩
        | ok W =>
            rw [hd] at spec
            obtain ⟨t, hr, wft, rfl⟩ := spec
            obtain ⟨-, stays, ending⟩ := runDeeds_keeps _ wf run mine hr
            rw [turn] at hd
            cases he : (p.turn (a, s)).2 with
            | waits =>
                have he' := turn ▸ he
                rw [Routine.chain_waits hr he, Routine.call_waits hr he]
                simp only [View.chain, hd, he']
                exact ⟨rfl, t, rfl, wft, rfl⟩
            | leaves =>
                have he' := turn ▸ he
                rw [he] at ending
                obtain ⟨u, done, wfu, shown, -, resume⟩ :=
                  departure wft stays.running ending.1 ending.2
                cases hq : t.view.resumes a with
                | none =>
                    rw [hq] at done
                    rw [Routine.chain_leaves hr he done, Routine.call_leaves hr he]
                    simp only [View.chain, hd, he', hq]
                    refine ⟨rfl, u, ?_, wfu, shown⟩
                    rw [ssmLeave, done]
                    rfl
                | some q =>
                    rw [hq] at done
                    obtain ⟨live, called⟩ := resume q hq
                    have log : p.chain sizes (depth + 1) a s =
                        [(a, s)] ++ p.chain sizes depth q u := Routine.chain_resumes hr he done
                    obtain ⟨first, rest⟩ := ih wfu called fun c hc =>
                      obeys c (log ▸ List.mem_append_right _ hc)
                    rw [shown] at first rest
                    rw [log, Routine.call_leaves hr he, ssmLeave_resumes done live]
                    simp only [View.chain, hd, he', hq]
                    exact ⟨congrArg _ first, rest⟩
      · have turn : p.turn (ssmTopParent, s) = s.view.turn p ssmTopParent :=
          turn_view ok.forest.top
        rw [Routine.Obeys, if_pos rfl] at mine
        obtain ⟨none, waits⟩ := mine
        have idle : runDeeds sizes ssmTopParent (p.turn (ssmTopParent, s)).1 s = .ok s := by
          rw [none]
          rfl
        rw [Routine.chain_waits idle waits, Routine.call_waits idle waits]
        rw [turn] at none waits
        simp only [View.chain, none, waits, View.deeds]
        exact ⟨rfl, s, rfl, wf, rfl⟩

/-- The second loop is the walk. -/
theorem visits_computes (n : Nat) (wf : WellFormed sizes s) (ahead : s.view.Ahead)
    (ok : s.view.Disciplined) (obeys : ∀ c ∈ p.visits sizes n s, p.Obeys c) :
    seen (p.visits sizes n s) = (View.walk p sizes n s.view).1 ∧
      Shows sizes (tickSteps (p.steps sizes) n s) (View.walk p sizes n s.view).2 := by
  have empty : s.view.scheduledSet = ∅ ↔ s.actQueueLen = 0 := by
    rw [← Finset.card_eq_zero, wf.card_scheduledSet]
  induction n generalizing s with
  | zero =>
      rw [Routine.visits, tickSteps, View.walk]
      refine ⟨rfl, ?_⟩
      split
      · rename_i idle
        rw [if_pos (empty.mpr idle)]
        exact ⟨s, rfl, wf, rfl⟩
      · rename_i busy
        rw [if_neg fun h => busy (empty.mp h)]
        exact ⟨s, rfl⟩
  | succ n ih =>
      by_cases idle : s.actQueueLen = 0
      · rw [Routine.visits, if_pos idle, tickSteps, if_pos idle, View.walk,
          first_eq_none (empty.mpr idle)]
        exact ⟨rfl, s, rfl, wf, rfl⟩
      · obtain ⟨a, u, pop, mem, wfu, shown, least, round⟩ := tickSteps_pop wf idle
        obtain ⟨entered, enough, -, aheadU⟩ := pop_entered ok mem least shown
        have depth : u.acts.dom.card = s.view.records.card :=
          congrArg Finset.card (congrArg View.records shown)
        have log := p.visits_pop sizes n idle pop
        rw [log] at obeys
        have own := fun c hc => obeys c (List.mem_append_left _ hc)
        obtain ⟨-, ends⟩ := call_spec ∅ _ wfu (aheadU ahead) (.inl entered) enough
          (fun _ h => h.elim) own
        obtain ⟨first, shows'⟩ := chain_computes _ wfu (.inl entered) own
        rw [depth, shown] at first shows'
        rw [round, log, View.walk, first_eq ok mem least]
        obtain ⟨calls, result, told⟩ : ∃ calls result,
            View.chain p sizes s.view.records.card a (s.view.pop a) = (calls, result) :=
          ⟨_, _, rfl⟩
        rw [told] at first shows'
        simp only [told]
        rw [depth] at ends obeys ⊢
        cases result with
        | error f =>
            obtain ⟨v, fails⟩ := shows'
            have fails' : p.steps sizes (u.acts.val a).step a u = .error ⟨f, v⟩ := by
              rw [Routine.steps, depth]
              exact fails
            rw [fails', List.append_nil]
            exact ⟨first, v, rfl⟩
        | ok W =>
            obtain ⟨t, done, wft, rfl⟩ := shows'
            have done' : p.steps sizes (u.acts.val a).step a u = .ok t := by
              rw [Routine.steps, depth]
              exact done
            rw [done] at ends
            rw [done'] at obeys ⊢
            rcases ends with ⟨e, v, fails, -⟩ | ⟨v, same, left⟩
            · cases fails
            · cases same
              obtain ⟨more, last⟩ := ih wft left.ahead left.ok
                (fun c hc => obeys c (List.mem_append_right _ hc)) (by
                  rw [← Finset.card_eq_zero, wft.card_scheduledSet])
              refine ⟨?_, last⟩
              change seen (_ ++ p.visits sizes n t) = _
              rw [seen, List.map_append]
              exact congrArg₂ (· ++ ·) first more

theorem ssmTick_computes (n : Nat) (wf : WellFormed sizes s) (ready : s.view.Ready)
    (ok : s.view.Disciplined) (obeys : ∀ c ∈ p.tickVisits sizes n s, p.Obeys c) :
    seen (p.tickVisits sizes n s) = (View.instant p sizes n s.view).1 ∧
      Shows sizes (ssmTick sizes (p.steps sizes) n s) (View.instant p sizes n s.view).2 := by
  obtain ⟨enter, notLate⟩ := tickEnter_ready wf ready
  have spec := tickUpdates_refines s.eventQueueLen (wf.setNow (tickTime s)) notLate (Nat.le_refl _)
  rw [view_setNow] at spec
  rw [Routine.tickVisits] at obeys ⊢
  rw [ssmTick_eq, enter, ok_bind, View.instant, tickTime_view wf]
  rw [enter, ok_bind] at obeys
  split at spec
  · rename_i room
    obtain ⟨t, start, wft, shown⟩ := spec
    have okT : t.view.Disciplined := by
      rw [shown]
      exact View.Disciplined.updates (ok.congr (View.SameTree.of_records rfl rfl) ok.scheduled
        ok.listening)
    have ahead : t.view.Ahead := by
      rw [shown]
      exact View.Ahead.updates notLate (view_live { s with now := tickTime s })
    rw [if_pos room]
    change tickUpdates sizes s.eventQueueLen { s with now := tickTime s } = .ok t at start
    rw [start] at obeys ⊢
    rw [← shown]
    exact visits_computes n wft ahead okT obeys
  · rename_i full
    obtain ⟨u, stop⟩ := spec
    change tickUpdates sizes s.eventQueueLen { s with now := tickTime s } = _ at stop
    rw [if_neg full, stop]
    exact ⟨rfl, u, rfl⟩

end Walk

/-- Every run computes the walks of its instants: what is called and what it
sees, and the view or the fault at the end, depend on what the first state
shows only, not on the layout of its queues or the order of its lists. -/
theorem instants_compute_walks {sizes : SafeSizes} {p : Routine} {s : State} (n m : Nat)
    (wf : WellFormed sizes s) (ready : s.view.Ready) (ok : s.view.Disciplined)
    (obeys : ∀ log ∈ (p.run sizes n m s).1, ∀ c ∈ log, p.Obeys c) :
    (p.run sizes n m s).1.map seen = (View.instants p sizes n m s.view).1 ∧
      Shows sizes (p.run sizes n m s).2 (View.instants p sizes n m s.view).2 := by
  induction m generalizing s with
  | zero => exact ⟨rfl, s, rfl, wf, rfl⟩
  | succ m ih =>
      have mine : p.tickVisits sizes n s ∈ (p.run sizes n (m + 1) s).1 := by
        rw [Routine.run]
        split <;> exact List.mem_cons_self
      obtain ⟨first, shows'⟩ := ssmTick_computes n wf ready ok (obeys _ mine)
      obtain ⟨-, ends⟩ := ssmTick_spec n wf ready ok (obeys _ mine)
      obtain ⟨calls, result, told⟩ : ∃ calls result,
          View.instant p sizes n s.view = (calls, result) := ⟨_, _, rfl⟩
      rw [told] at first shows'
      rw [View.instants, told]
      cases result with
      | error f =>
          obtain ⟨u, fails⟩ := shows'
          simp only [Routine.run, fails, List.map_cons, first, List.map_nil]
          exact ⟨trivial, u, rfl⟩
      | ok V =>
          obtain ⟨t, done, wft, rfl⟩ := shows'
          rw [Ends, done] at ends
          rcases ends with ⟨e, u, fails, -⟩ | ⟨u, spins, -⟩ | ⟨u, same, -, okT, ahead, -⟩
          · cases fails
          · cases spins
          · cases same
            simp only [Routine.run, done, List.mem_cons, forall_eq_or_imp] at obeys
            obtain ⟨more, last⟩ := ih wft ahead.ready okT obeys.2
            simp only [Routine.run, done, List.map_cons, first, more]
            exact ⟨trivial, last⟩

theorem instants_compute_walks_forkTwo : ∃ s,
    launch defaultSafeSizes 10 1 0 0 [] forkVars = .ok s ∧
    (View.instants forkTwo defaultSafeSizes 8 2 s.view).1.map (List.map Prod.fst) =
      [[10, 11, 12], [11, 12, 10, 1]] := by
  obtain ⟨s, start, calls, obeys, wf, disciplined, ready⟩ := forkTwo_starts
  refine ⟨s, start, ?_⟩
  have names : ∀ log, (seen log).map Prod.fst = log.map Prod.fst := fun log => by
    rw [seen, List.map_map]
    rfl
  rw [← (instants_compute_walks 8 2 wf ready disciplined obeys).1, List.map_map, ← calls]
  exact List.map_congr_left fun log _ => names log

end SsmRuntime
