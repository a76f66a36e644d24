import SsmRuntime.Routines

/-!
An instant with forks and departures. A call ends with the calls of the parents
it resumes, so the second loop of a tick makes chains of calls. They go through
the tree from left to right: each call is made in front of all that is still
scheduled, and a record that waits for its triggers is done for the instant.
-/
namespace SsmRuntime
open Nesting

namespace Routine

/-- What a record does that is called in a state. -/
def turn (p : Routine) (c : ActPtr × State) : List Deed × Ending :=
  p (c.2.acts.val c.1).step c.1 c.2.view

/-- A call of a step function. A record that leaves is the end of its own call,
which goes on as that of the parent. -/
def call (p : Routine) (sizes : QueueSizes) : Nat → Steps
  | 0, _, _, s => .error ⟨.diverges, s⟩
  | depth + 1, f, act, s => do
      let t ← runDeeds sizes act (p f act s.view).1 s
      match (p f act s.view).2 with
      | .waits => .ok t
      | .leaves => ssmLeave (p.call sizes depth) act t

/-- Calls nest as deep as there are records to leave. -/
def steps (p : Routine) (sizes : QueueSizes) : Steps :=
  fun f act s => p.call sizes s.acts.dom.card f act s

/-- The calls of one chain, each with the state it is made in. -/
def chain (p : Routine) (sizes : QueueSizes) : Nat → ActPtr → State → List (ActPtr × State)
  | 0, _, _ => []
  | depth + 1, act, s => (act, s) ::
      match runDeeds sizes act (p.turn (act, s)).1 s with
      | .error _ => []
      | .ok t =>
          match (p.turn (act, s)).2, leaveFree act t with
          | .leaves, .ok (some parent, u) => p.chain sizes depth parent u
          | _, _ => []

/-- The calls the second loop makes. -/
def visits (p : Routine) (sizes : QueueSizes) : Nat → State → List (ActPtr × State)
  | 0, _ => []
  | n + 1, s =>
      if s.actQueueLen = 0 then []
      else
        match tickPop s with
        | .error _ => []
        | .ok (a, u) =>
            p.chain sizes u.acts.dom.card a u ++
              match p.steps sizes (u.acts.val a).step a u with
              | .ok t => p.visits sizes n t
              | .error _ => []

def tickVisits (p : Routine) (sizes : QueueSizes) (n : Nat) (s : State) : List (ActPtr × State) :=
  match (do let s ← tickEnter s; tickUpdates sizes s.eventQueueLen s) with
  | .ok s => p.visits sizes n s
  | .error _ => []

/-- `ssm_top_return` does nothing; the other step functions do what they may. -/
def Obeys (p : Routine) (c : ActPtr × State) : Prop :=
  if c.1 = ssmTopParent then (p.turn c).1 = [] ∧ (p.turn c).2 = .waits
  else TurnObeys c.1 (p.turn c).1 (p.turn c).2 c.2.view

instance (p : Routine) (c : ActPtr × State) : Decidable (p.Obeys c) :=
  inferInstanceAs (Decidable (if c.1 = ssmTopParent then _ else _))

/-- At the end of the call the record waits for its triggers. -/
def Settles (p : Routine) (c : ActPtr × State) : Prop :=
  c.1 ≠ ssmTopParent ∧ (p.turn c).2 = .waits ∧ ∀ d ∈ (p.turn c).1, d.forks = false

instance (p : Routine) (c : ActPtr × State) : Decidable (p.Settles c) :=
  inferInstanceAs (Decidable (_ ∧ _ ∧ _))

end Routine

namespace View

/-- The record taken from the queue is in front of all others. -/
theorem Disciplined.pop {V : View} {a : ActPtr} (ok : V.Disciplined) (mem : a ∈ V.scheduledSet)
    (least : ∀ b ∈ V.scheduledSet, V.prio a ≤ V.prio b) : (V.pop a).Entered a := by
  have same : V.SameTree (V.pop a) :=
    SameTree.mapRecord V a (fun _ => rfl) (fun _ => rfl) (fun _ => rfl) fun _ => rfl
  obtain ⟨live, childless⟩ := ok.scheduled a mem
  refine ⟨ok.congr same (fun b hb => ?_) ok.listening, ?_, ?_, ?_, fun b hb => ?_⟩
  · rw [scheduledSet_pop] at hb
    exact ok.scheduled b (Finset.mem_of_mem_erase hb)
  · rw [same.processes]
    exact live
  · rw [same.childrenOf]
    exact childless
  · rw [scheduledSet_pop]
    exact Finset.notMem_erase a _
  · rw [scheduledSet_pop] at hb
    obtain ⟨differ, hb⟩ := Finset.mem_erase.mp hb
    obtain ⟨memB, noneB⟩ := ok.scheduled b hb
    rw [same.beyond, same.lowest]
    refine ok.forest.nested.before_of_lo_le live memB (leaf_of_childless childless)
      (leaf_of_childless noneB) differ.symm ?_
    rw [lowest_of_mem live, lowest_of_mem memB]
    exact least b hb

theorem Passed.pop {V : View} {a r : ActPtr} (passed : V.Passed r) (mem : a ∈ V.scheduledSet) :
    (V.pop a).Passed r ∧ (V.pop a).beyond r = V.beyond r ∧
      (V.pop a).beyond r ≤ (V.pop a).lowest a := by
  have same : V.SameTree (V.pop a) :=
    SameTree.mapRecord V a (fun _ => rfl) (fun _ => rfl) (fun _ => rfl) fun _ => rfl
  rw [same.beyond, same.lowest]
  refine ⟨⟨?_, ?_, fun b hb => ?_⟩, rfl, passed.ahead a mem⟩
  · rw [same.processes]
    exact passed.live
  · rw [same.childrenOf]
    exact passed.childless
  · rw [scheduledSet_pop] at hb
    rw [same.beyond, same.lowest]
    exact passed.ahead b (Finset.mem_of_mem_erase hb)

theorem Disciplined.updates {V : View} (ok : V.Disciplined) : V.updates.Disciplined := by
  have first : V.SameTree V.deliverDue := SameTree.of_records rfl rfl
  have same : V.SameTree V.updates := first.trans (SameTree.wake V.deliverDue V.heard)
  refine ok.congr same (fun k hk => ?_) ok.listening
  rw [scheduledSet_updates V ok.forest.recorded] at hk
  rcases Finset.mem_union.mp hk with hk | hk
  · exact ok.scheduled k hk
  · obtain ⟨x, due, hears⟩ := Finset.mem_biUnion.mp hk
    obtain ⟨-, ⟨t, listed, owner⟩, -⟩ := mem_listeners.mp hears
    exact ok.listening x (Finset.mem_of_mem_filter x due) t listed k owner

end View

/-- Calls in tree order: each is made in front of all that is scheduled, and
after every record that has settled before. -/
structure Orderly (p : Routine) (V : View) (settled : Set ActPtr) (log : List (ActPtr × State)) :
    Prop where
  entered : ∀ c ∈ log, c.1 ≠ ssmTopParent → c.2.view.Entered c.1
  after : ∀ r ∈ settled, ∀ c ∈ log, c.1 ≠ ssmTopParent →
    V.beyond r ≤ c.2.view.lowest c.1 ∧ c.1 ≠ r
  inOrder : log.Pairwise fun c d => p.Settles c → d.1 ≠ ssmTopParent →
    c.2.view.beyond c.1 ≤ d.2.view.lowest d.1 ∧ d.1 ≠ c.1

/-- What calls leave behind that all come to their end. -/
structure Afterwards (p : Routine) (sizes : QueueSizes) (V : View) (settled : Set ActPtr)
    (log : List (ActPtr × State)) (t : State) : Prop where
  wellFormed : WellFormed sizes t
  ok : t.view.Disciplined
  ahead : t.view.Ahead
  now : t.view.now = V.now
  old : ∀ r ∈ settled, t.view.Passed r ∧ t.view.beyond r = V.beyond r
  new : ∀ c ∈ log, p.Settles c → t.view.Passed c.1 ∧ t.view.beyond c.1 = c.2.view.beyond c.1

/-- The records that settle in calls. -/
def settledBy (p : Routine) (log : List (ActPtr × State)) : Set ActPtr :=
  {r | ∃ c ∈ log, p.Settles c ∧ c.1 = r}

section Logs
variable {p : Routine} {V W : View} {settled : Set ActPtr} {log more : List (ActPtr × State)}

theorem Orderly.since (orderly : Orderly p W settled log)
    (old : ∀ r ∈ settled, W.beyond r = V.beyond r) : Orderly p V settled log where
  entered := orderly.entered
  after := fun r hr c hc notTop => by
    rw [← old r hr]
    exact orderly.after r hr c hc notTop
  inOrder := orderly.inOrder

theorem Orderly.append (first : Orderly p V settled log)
    (rest : Orderly p W (settled ∪ settledBy p log) more)
    (old : ∀ r ∈ settled, W.beyond r = V.beyond r)
    (new : ∀ c ∈ log, p.Settles c → W.beyond c.1 = c.2.view.beyond c.1) :
    Orderly p V settled (log ++ more) where
  entered := fun c hc => (List.mem_append.mp hc).elim (first.entered c) (rest.entered c)
  after := fun r hr c hc notTop => by
    rcases List.mem_append.mp hc with hc | hc
    · exact first.after r hr c hc notTop
    · rw [← old r hr]
      exact rest.after r (.inl hr) c hc notTop
  inOrder := by
    refine List.pairwise_append.mpr ⟨first.inOrder, rest.inOrder, fun c hc d hd settles notTop => ?_⟩
    rw [← new c hc settles]
    exact rest.after c.1 (.inr ⟨c, hc, settles, rfl⟩) d hd notTop

theorem Afterwards.append {sizes : QueueSizes} {t : State}
    (rest : Afterwards p sizes W (settled ∪ settledBy p log) more t) (now : W.now = V.now)
    (old : ∀ r ∈ settled, W.beyond r = V.beyond r)
    (new : ∀ c ∈ log, p.Settles c → W.beyond c.1 = c.2.view.beyond c.1) :
    Afterwards p sizes V settled (log ++ more) t where
  wellFormed := rest.wellFormed
  ok := rest.ok
  ahead := rest.ahead
  now := rest.now.trans now
  old := fun r hr => by
    rw [← old r hr]
    exact rest.old r (.inl hr)
  new := fun c hc settles => by
    rcases List.mem_append.mp hc with hc | hc
    · rw [← new c hc settles]
      exact rest.old c.1 (.inr ⟨c, hc, settles, rfl⟩)
    · exact rest.new c hc settles

theorem Orderly.nil : Orderly p V settled [] where
  entered := fun _ hc => absurd hc List.not_mem_nil
  after := fun _ _ _ hc => absurd hc List.not_mem_nil
  inOrder := List.Pairwise.nil

theorem Afterwards.nil {sizes : QueueSizes} {s : State} (wf : WellFormed sizes s)
    (ok : s.view.Disciplined) (ahead : s.view.Ahead) (old : ∀ r ∈ settled, s.view.Passed r) :
    Afterwards p sizes s.view settled [] s :=
  ⟨wf, ok, ahead, rfl, fun r hr => ⟨old r hr, rfl⟩, fun _ hc => absurd hc List.not_mem_nil⟩

/-- One call that is made in front of all that is scheduled. -/
theorem Orderly.single {s : State} {a : ActPtr} (entered : s.view.Entered a)
    (old : ∀ r ∈ settled, s.view.Passed r ∧ s.view.beyond r ≤ s.view.lowest a) :
    Orderly p s.view settled [(a, s)] where
  entered := fun c hc _ => by
    cases List.mem_singleton.mp hc
    exact entered
  after := fun r hr c hc _ => by
    cases List.mem_singleton.mp hc
    obtain ⟨passed, before⟩ := old r hr
    refine ⟨before, fun h => ?_⟩
    have some' := entered.ok.forest.nested.some r passed.live
    change a = r at h
    rw [h] at before
    exact Nat.not_lt.mpr before some'
  inOrder := List.pairwise_singleton _ _

/-- A call of `ssm_top_return` is no call of a record. -/
theorem Orderly.top {s : State} : Orderly p V settled [(ssmTopParent, s)] where
  entered := fun _ hc notTop => absurd (congrArg Prod.fst (List.mem_singleton.mp hc)) notTop
  after := fun _ _ _ hc notTop => absurd (congrArg Prod.fst (List.mem_singleton.mp hc)) notTop
  inOrder := List.pairwise_singleton _ _

end Logs

section Chain
variable {sizes : SafeSizes} {p : Routine} {s : State} {a : ActPtr}

theorem deaf_state {sizes : QueueSizes} (wf : WellFormed sizes s) (deaf : Deed.Deaf s.view a) :
    ∀ x v u, s.sv? x = some v → u ∈ triggersOf s x → s.actOf u ≠ a := by
  intro x v u hv hu owner
  have live := (wf.triggers.chain x v hv).live hu
  refine deaf x (mem_view_vars.mpr ⟨v, hv⟩) u ((mem_view_triggers hv).mpr hu) ?_
  simp only [State.view, Table.get?_of_mem live, Option.map_some]
  exact congrArg some owner

/-- A departure computes that of the view. -/
theorem leave_computes (wf : WellFormed sizes s) (run : s.view.Running a)
    (childless : s.view.childrenOf a = ∅) (deaf : Deed.Deaf s.view a) :
    ∃ t, leaveFree a s = .ok (s.view.resumes a, t) ∧ WellFormed sizes t ∧
      t.view = s.view.leave a :=
  leave_refines wf (View.mem_processes.mp run.live).2 (run.ok.forest.caller a run.live)
    (View.caller_ne run.live childless) (fun h => run.idle (mem_view_scheduledSet.mpr h))
    (deaf_state wf deaf)

/-- Without forks a record that had no children has none. -/
theorem childrenOf_of_not_forks {V : View} {d : Deed} (plain : d.forks = false) :
    (d.apply a V).childrenOf a = V.childrenOf a := by
  cases d with
  | action c => exact congrFun (View.SameTree.action V c).childrenOf a
  | adopt => rfl
  | fork => cases plain

theorem runDeeds_childless {e : Ending} (ds : List Deed) {t : State} (wf : WellFormed sizes s)
    (run : s.view.Running a) (obeys : TurnObeys a ds e s.view)
    (plain : ∀ d ∈ ds, d.forks = false) (done : runDeeds sizes a ds s = .ok t) :
    t.view.childrenOf a = s.view.childrenOf a := by
  induction ds generalizing s with
  | nil =>
      cases done
      rfl
  | cons d ds ih =>
      obtain ⟨u, one, rest⟩ := bind_eq_ok.mp done
      obtain ⟨wfu, fine, shown⟩ := d.exec_eq_ok wf run obeys.1 one
      have first := run.stays (view_live s) obeys.1 fine
      rw [← shown] at first
      rw [ih wfu first.running (shown ▸ obeys.2) (fun d hd => plain d (List.mem_cons_of_mem _ hd))
        rest, shown]
      exact childrenOf_of_not_forks (plain d List.mem_cons_self)

/-- A record that waits without children has settled. -/
theorem View.Running.settle {V : View} (run : V.Running a) (childless : V.childrenOf a = ∅) :
    V.Passed a where
  live := run.live
  childless := childless
  ahead := fun b hb => by
    rcases run.ahead b hb with h | h
    · exact h
    · have child : b ∈ V.childrenOf a := View.mem_childrenOf.mpr ⟨(run.ok.scheduled b hb).1, h⟩
      exact absurd (childless ▸ child) (Finset.notMem_empty b)

/-- A departure, for the records that have settled. -/
theorem View.Passed.left {V : View} {r : ActPtr} (passed : V.Passed r) (run : V.Running a)
    (before : V.beyond r ≤ V.lowest a) :
    (V.leave a).Passed r ∧ (V.leave a).beyond r = V.beyond r :=
  ⟨passed.leave run before, View.leave_beyond fun h => Nat.not_lt.mpr before (h ▸ run.beyond_gt)⟩

theorem Routine.not_settles {c : ActPtr × State} (leaves : (p.turn c).2 = .leaves) :
    ¬ p.Settles c := fun h => by cases leaves.symm.trans h.2.1

/-- What a record leaves behind for the parent that it resumes. -/
theorem departure (wf : WellFormed sizes s) (run : s.view.Running a)
    (childless : s.view.childrenOf a = ∅) (deaf : Deed.Deaf s.view a) :
    ∃ t, leaveFree a s = .ok (s.view.resumes a, t) ∧ WellFormed sizes t ∧
      t.view = s.view.leave a ∧ t.view.processes.card < s.view.processes.card ∧
      ∀ q, s.view.resumes a = some q → q ∈ t.acts.dom ∧
        (t.view.Entered q ∨ q = ssmTopParent ∧ t.view.Disciplined) := by
  obtain ⟨t, done, wft, shown⟩ := leave_computes wf run childless deaf
  refine ⟨t, done, wft, shown, ?_, fun q resumed => ?_⟩
  · rw [shown, View.leave_processes]
    exact Finset.card_erase_lt_of_mem run.live
  · have ok : t.view.Disciplined := shown ▸ run.leave childless deaf
    by_cases top : q = ssmTopParent
    · exact ⟨top ▸ ok.forest.top, .inr ⟨top, ok⟩⟩
    · have entered : t.view.Entered q := shown ▸ run.resume childless deaf resumed top
      exact ⟨(View.mem_processes.mp entered.live).2, .inl entered⟩

section Equations
variable {sizes : QueueSizes} {depth : Nat} {t u : State}

theorem Routine.chain_waits (deeds : runDeeds sizes a (p.turn (a, s)).1 s = .ok t)
    (ending : (p.turn (a, s)).2 = .waits) : p.chain sizes (depth + 1) a s = [(a, s)] := by
  simp only [Routine.chain, deeds, ending]

theorem Routine.chain_leaves (deeds : runDeeds sizes a (p.turn (a, s)).1 s = .ok t)
    (ending : (p.turn (a, s)).2 = .leaves) (gone : leaveFree a t = .ok (none, u)) :
    p.chain sizes (depth + 1) a s = [(a, s)] := by
  simp only [Routine.chain, deeds, ending, gone]

theorem Routine.chain_resumes {parent : ActPtr}
    (deeds : runDeeds sizes a (p.turn (a, s)).1 s = .ok t)
    (ending : (p.turn (a, s)).2 = .leaves) (gone : leaveFree a t = .ok (some parent, u)) :
    p.chain sizes (depth + 1) a s = [(a, s)] ++ p.chain sizes depth parent u := by
  simp only [Routine.chain, deeds, ending, gone, List.singleton_append]

theorem Routine.call_stops {e : Stop}
    (deeds : runDeeds sizes a (p.turn (a, s)).1 s = .error e) :
    p.call sizes (depth + 1) (s.acts.val a).step a s = .error e := by
  change (do let t ← runDeeds sizes a (p.turn (a, s)).1 s; _) = _
  rw [deeds]
  rfl

theorem Routine.call_waits (deeds : runDeeds sizes a (p.turn (a, s)).1 s = .ok t)
    (ending : (p.turn (a, s)).2 = .waits) :
    p.call sizes (depth + 1) (s.acts.val a).step a s = .ok t := by
  change (do let t ← runDeeds sizes a (p.turn (a, s)).1 s; _) = _
  rw [deeds, ok_bind]
  change (match (p.turn (a, s)).2 with | .waits => _ | .leaves => _) = _
  rw [ending]

theorem Routine.call_leaves (deeds : runDeeds sizes a (p.turn (a, s)).1 s = .ok t)
    (ending : (p.turn (a, s)).2 = .leaves) :
    p.call sizes (depth + 1) (s.acts.val a).step a s = ssmLeave (p.call sizes depth) a t := by
  change (do let t ← runDeeds sizes a (p.turn (a, s)).1 s; _) = _
  rw [deeds, ok_bind]
  change (match (p.turn (a, s)).2 with | .waits => _ | .leaves => _) = _
  rw [ending]

theorem ssmLeave_resumes {steps : Steps} {parent : ActPtr}
    (gone : leaveFree a s = .ok (some parent, u)) (live : parent ∈ u.acts.dom) :
    ssmLeave steps a s = steps (u.acts.val parent).step parent u := by
  rw [ssmLeave, gone, ok_bind]
  simp only [State.loadAct_of_mem live, ok_bind]

end Equations

/-- A call with the calls of the parents it resumes. -/
theorem call_spec (settled : Set ActPtr) (depth : Nat) (wf : WellFormed sizes s)
    (ahead : s.view.Ahead) (called : s.view.Entered a ∨ a = ssmTopParent ∧ s.view.Disciplined)
    (enough : s.view.processes.card < depth)
    (old : ∀ r ∈ settled, s.view.Passed r ∧
      (a ≠ ssmTopParent → s.view.beyond r ≤ s.view.lowest a))
    (obeys : ∀ c ∈ p.chain sizes depth a s, p.Obeys c) :
    Orderly p s.view settled (p.chain sizes depth a s) ∧
      ((∃ e u, p.call sizes depth (s.acts.val a).step a s = .error ⟨.thrown e, u⟩ ∧ Depleted e) ∨
        ∃ t, p.call sizes depth (s.acts.val a).step a s = .ok t ∧
          Afterwards p sizes s.view settled (p.chain sizes depth a s) t) := by
  induction depth generalizing settled s a with
  | zero => exact absurd enough (Nat.not_lt_zero _)
  | succ depth ih =>
      have mine := obeys (a, s) (by rw [Routine.chain]; exact List.mem_cons_self)
      rcases called with entered | ⟨rfl, ok⟩
      · obtain ⟨notTop, -⟩ := View.mem_processes.mp entered.live
        rw [Routine.Obeys, if_neg notTop] at mine
        have run := entered.running
        have single : Orderly p s.view settled [(a, s)] :=
          .single entered fun r hr => ⟨(old r hr).1, (old r hr).2 notTop⟩
        have spec := runDeeds_computes _ wf run mine
        cases hr : runDeeds sizes a (p.turn (a, s)).1 s with
        | error e =>
            have log : p.chain sizes (depth + 1) a s = [(a, s)] := by rw [Routine.chain, hr]
            rw [log, Routine.call_stops hr]
            refine ⟨single, .inl ?_⟩
            cases hd : View.deeds sizes a (p.turn (a, s)).1 s.view with
            | error f =>
                rw [hr, hd] at spec
                obtain ⟨u, fails⟩ := spec
                cases fails
                exact ⟨f, u, rfl, View.deeds_depleted hd⟩
            | ok V =>
                rw [hr, hd] at spec
                obtain ⟨u, succeeds, -⟩ := spec
                cases succeeds
        | ok t =>
            obtain ⟨wft, stays, ending⟩ := runDeeds_keeps _ wf run mine hr
            have passed : ∀ r ∈ settled, t.view.Passed r ∧ t.view.beyond r = s.view.beyond r ∧
                t.view.beyond r ≤ t.view.lowest a := fun r hr => by
              obtain ⟨one, same⟩ := stays.passed r (old r hr).1 ((old r hr).2 notTop)
              refine ⟨one, same, ?_⟩
              rw [same, stays.lowest]
              exact (old r hr).2 notTop
            cases he : (p.turn (a, s)).2 with
            | waits =>
                rw [Routine.chain_waits hr he, Routine.call_waits hr he]
                refine ⟨single, .inr ⟨t, rfl, wft, stays.running.ok, stays.ahead ahead, stays.now,
                  fun r hr => ⟨(passed r hr).1, (passed r hr).2.1⟩, fun c hc settles => ?_⟩⟩
                cases List.mem_singleton.mp hc
                have none := (runDeeds_childless _ wf run mine settles.2.2 hr).trans
                  entered.childless
                exact ⟨stays.running.settle none, stays.beyond⟩
            | leaves =>
                rw [he] at ending
                obtain ⟨childless, deaf⟩ := ending
                have never : ∀ c ∈ [(a, s)], ¬ p.Settles c := fun c hc => by
                  cases List.mem_singleton.mp hc
                  exact Routine.not_settles he
                obtain ⟨u, done, wfu, shown, fewer, resume⟩ :=
                  departure wft stays.running childless deaf
                have left : ∀ r ∈ settled, u.view.Passed r ∧ u.view.beyond r = s.view.beyond r :=
                  fun r hr => by
                    obtain ⟨one, same, before⟩ := passed r hr
                    rw [shown, ← same]
                    exact one.left stays.running before
                have same : ∀ r ∈ settled, u.view.beyond r = s.view.beyond r :=
                  fun r hr => (left r hr).2
                have new : ∀ c ∈ [(a, s)], p.Settles c →
                    u.view.beyond c.1 = c.2.view.beyond c.1 :=
                  fun c hc settles => absurd settles (never c hc)
                have now : u.view.now = s.view.now := by
                  rw [shown]
                  exact stays.now
                have aheadU : u.view.Ahead := by
                  rw [shown]
                  exact stays.ahead ahead
                cases hq : t.view.resumes a with
                | none =>
                    rw [hq] at done
                    rw [Routine.chain_leaves hr he done, Routine.call_leaves hr he]
                    refine ⟨single, .inr ⟨u, ?_, wfu, ?_, aheadU, now, left,
                      fun c hc settles => absurd settles (never c hc)⟩⟩
                    · rw [ssmLeave, done]
                      rfl
                    · rw [shown]
                      exact stays.running.leave childless deaf
                | some q =>
                    rw [hq] at done
                    obtain ⟨live, called⟩ := resume q hq
                    have log : p.chain sizes (depth + 1) a s =
                        [(a, s)] ++ p.chain sizes depth q u := Routine.chain_resumes hr he done
                    have grown := stays.grown
                    rw [entered.childless, childless] at grown
                    have prior : ∀ r ∈ settled ∪ settledBy p [(a, s)], u.view.Passed r ∧
                        (q ≠ ssmTopParent → u.view.beyond r ≤ u.view.lowest q) := by
                      rintro r (hr | ⟨c, hc, settles, -⟩)
                      · obtain ⟨one, -, before⟩ := passed r hr
                        refine ⟨(left r hr).1, fun notTop => ?_⟩
                        have next := stays.running.resume childless deaf hq notTop
                        rw [shown]
                        exact one.resume stays.running childless before hq notTop next
                      · exact absurd settles (never c hc)
                    obtain ⟨orderly, ends⟩ := ih _ wfu aheadU called (by omega) prior
                      fun c hc => obeys c (log ▸ List.mem_append_right _ hc)
                    rw [log, Routine.call_leaves hr he, ssmLeave_resumes done live]
                    refine ⟨single.append orderly same new, ends.imp_right ?_⟩
                    rintro ⟨v, goes, after⟩
                    exact ⟨v, goes, after.append now same new⟩
      · rw [Routine.Obeys, if_pos rfl] at mine
        obtain ⟨none, waits⟩ := mine
        have idle : runDeeds sizes ssmTopParent (p.turn (ssmTopParent, s)).1 s = .ok s := by
          rw [none]
          rfl
        rw [Routine.chain_waits idle waits, Routine.call_waits idle waits]
        refine ⟨.top, .inr ⟨s, rfl, wf, ok, ahead, rfl, fun r hr => ⟨(old r hr).1, rfl⟩, ?_⟩⟩
        rintro c hc ⟨notTop, -⟩
        exact absurd (congrArg Prod.fst (List.mem_singleton.mp hc)) notTop

end Chain

section Loop
variable {sizes : SafeSizes} {p : Routine} {s : State}

/-- One round of the second loop, for any step functions. -/
theorem tickSteps_pop (wf : WellFormed sizes s) (busy : s.actQueueLen ≠ 0) :
    ∃ a u, tickPop s = .ok (a, u) ∧ a ∈ s.view.scheduledSet ∧ WellFormed sizes u ∧
      u.view = s.view.pop a ∧ (∀ k ∈ s.view.scheduledSet, s.view.prio a ≤ s.view.prio k) ∧
      ∀ steps n, tickSteps steps (n + 1) s =
        (do let t ← steps (u.acts.val a).step a u
            tickSteps steps n t) := by
  obtain ⟨a, u, pop, sched, wf', shown, least⟩ := pop_refines wf busy
  have prios : ∀ b, b ∈ s.acts.dom → s.view.prio b = s.priorityAt b := fun b hb => by
    rw [View.prio_of_record (V := s.view) (Table.get?_of_mem hb), State.priorityAt]
  have live : a ∈ u.acts.dom := by
    have known : u.acts.dom = s.acts.dom := congrArg View.records shown
    rw [known]
    exact sched.1
  refine ⟨a, u, pop, mem_view_scheduledSet.mpr sched, wf', shown, fun k hk => ?_,
    fun steps n => ?_⟩
  · have hk := mem_view_scheduledSet.mp hk
    rw [prios a sched.1, prios k hk.1]
    exact least k hk
  · rw [tickSteps, if_neg busy, pop, ok_bind]
    simp only [State.loadAct_of_mem live, ok_bind]

theorem Routine.chain_ne_nil (p : Routine) (sizes : QueueSizes) (a : ActPtr) (s : State)
    {depth : Nat} (some' : 0 < depth) : 1 ≤ (p.chain sizes depth a s).length := by
  cases depth with
  | zero => exact absurd some' (Nat.lt_irrefl 0)
  | succ depth =>
      rw [Routine.chain, List.length_cons]
      omega

theorem Routine.visits_pop (p : Routine) (sizes : QueueSizes) (n : Nat) {a : ActPtr} {u : State}
    (busy : s.actQueueLen ≠ 0) (pop : tickPop s = .ok (a, u)) :
    p.visits sizes (n + 1) s = p.chain sizes u.acts.dom.card a u ++
      match p.steps sizes (u.acts.val a).step a u with
      | .ok t => p.visits sizes n t
      | .error _ => [] := by
  rw [Routine.visits, if_neg busy, pop]

/-- What the next round of the second loop calls. -/
theorem pop_entered {a : ActPtr} {u : State} (ok : s.view.Disciplined)
    (mem : a ∈ s.view.scheduledSet) (least : ∀ k ∈ s.view.scheduledSet, s.view.prio a ≤ s.view.prio k)
    (shown : u.view = s.view.pop a) :
    u.view.Entered a ∧ u.view.processes.card < u.acts.dom.card ∧ u.view.now = s.view.now ∧
      (s.view.Ahead → u.view.Ahead) := by
  have entered : u.view.Entered a := shown ▸ ok.pop mem least
  have top : ssmTopParent ∈ u.view.records := entered.ok.forest.top
  refine ⟨entered, Finset.card_erase_lt_of_mem top, ?_, fun ahead => ?_⟩
  · rw [shown]
    rfl
  · rw [shown]
    exact ahead

theorem idle_scheduledSet (wf : WellFormed sizes s) (idle : s.actQueueLen = 0) :
    s.view.scheduledSet = ∅ := by
  rw [← Finset.card_eq_zero, wf.card_scheduledSet, idle]

/-- The second loop, from any state in which some records have settled. -/
theorem visits_spec (settled : Set ActPtr) (n : Nat) (wf : WellFormed sizes s)
    (ahead : s.view.Ahead) (ok : s.view.Disciplined) (old : ∀ r ∈ settled, s.view.Passed r)
    (obeys : ∀ c ∈ p.visits sizes n s, p.Obeys c) :
    Orderly p s.view settled (p.visits sizes n s) ∧
      ((∃ e u, tickSteps (p.steps sizes) n s = .error ⟨.thrown e, u⟩ ∧ Depleted e) ∨
        (∃ u, tickSteps (p.steps sizes) n s = .error ⟨.diverges, u⟩ ∧
          n ≤ (p.visits sizes n s).length) ∨
        ∃ t, tickSteps (p.steps sizes) n s = .ok t ∧ t.view.scheduledSet = ∅ ∧
          Afterwards p sizes s.view settled (p.visits sizes n s) t) := by
  induction n generalizing settled s with
  | zero =>
      rw [Routine.visits, tickSteps]
      split
      · rename_i idle
        exact ⟨.nil, .inr (.inr ⟨s, rfl, idle_scheduledSet wf idle, .nil wf ok ahead old⟩)⟩
      · exact ⟨.nil, .inr (.inl ⟨s, rfl, Nat.le_refl 0⟩)⟩
  | succ n ih =>
      by_cases idle : s.actQueueLen = 0
      · rw [Routine.visits, if_pos idle, tickSteps, if_pos idle]
        exact ⟨.nil, .inr (.inr ⟨s, rfl, idle_scheduledSet wf idle, .nil wf ok ahead old⟩)⟩
      · obtain ⟨a, u, pop, mem, wfu, shown, least, round⟩ := tickSteps_pop wf idle
        obtain ⟨entered, enough, now, aheadU⟩ := pop_entered ok mem least shown
        have popped : ∀ r ∈ settled, u.view.Passed r ∧ u.view.beyond r = s.view.beyond r ∧
            u.view.beyond r ≤ u.view.lowest a := fun r hr => shown ▸ (old r hr).pop mem
        have log := p.visits_pop sizes n idle pop
        rw [log] at obeys
        obtain ⟨orderly, ends⟩ := call_spec (p := p) settled _ wfu (aheadU ahead) (.inl entered) enough
          (fun r hr => ⟨(popped r hr).1, fun _ => (popped r hr).2.2⟩)
          fun c hc => obeys c (List.mem_append_left _ hc)
        have first : Orderly p s.view settled (p.chain sizes u.acts.dom.card a u) :=
          orderly.since fun r hr => (popped r hr).2.1
        rw [round, log]
        rcases ends with ⟨e, v, fails, depleted⟩ | ⟨t, done, left⟩
        · have fails' : p.steps sizes (u.acts.val a).step a u = .error ⟨.thrown e, v⟩ := fails
          rw [fails', List.append_nil]
          exact ⟨first, .inl ⟨e, v, rfl, depleted⟩⟩
        · have done' : p.steps sizes (u.acts.val a).step a u = .ok t := done
          rw [done'] at obeys ⊢
          rw [ok_bind]
          have same : ∀ r ∈ settled, t.view.beyond r = s.view.beyond r := fun r hr =>
            (left.old r hr).2.trans (popped r hr).2.1
          have new : ∀ c ∈ p.chain sizes u.acts.dom.card a u, p.Settles c →
              t.view.beyond c.1 = c.2.view.beyond c.1 := fun c hc settles =>
            (left.new c hc settles).2
          have passed : ∀ r ∈ settled ∪ settledBy p (p.chain sizes u.acts.dom.card a u),
              t.view.Passed r := by
            rintro r (hr | ⟨c, hc, settles, rfl⟩)
            · exact (left.old r hr).1
            · exact (left.new c hc settles).1
          obtain ⟨rest, ends⟩ := ih _ left.wellFormed left.ahead left.ok passed
            fun c hc => obeys c (List.mem_append_right _ hc)
          refine ⟨first.append rest same new, ?_⟩
          rcases ends with thrown | ⟨v, spins, long⟩ | ⟨v, ends, empty, after⟩
          · exact .inl thrown
          · have here := p.chain_ne_nil sizes a u (Nat.lt_of_le_of_lt (Nat.zero_le _) enough)
            refine .inr (.inl ⟨v, spins, ?_⟩)
            change n + 1 ≤ (p.chain sizes u.acts.dom.card a u ++ p.visits sizes n t).length
            rw [List.length_append, Nat.add_comm n 1]
            exact Nat.add_le_add here long
          · exact .inr (.inr ⟨v, ends, empty, after.append (left.now.trans now) same new⟩)

/-- How a tick ends: with a queue or the priorities exhausted, with calls that go
on and on, or in order. -/
def Ends (p : Routine) (sizes : QueueSizes) (n : Nat) (s : State) : Prop :=
  (∃ e u, ssmTick sizes (p.steps sizes) n s = .error ⟨.thrown e, u⟩ ∧ Depleted e) ∨
  (∃ u, ssmTick sizes (p.steps sizes) n s = .error ⟨.diverges, u⟩ ∧
    n ≤ (p.tickVisits sizes n s).length) ∨
  ∃ t, ssmTick sizes (p.steps sizes) n s = .ok t ∧ WellFormed sizes t ∧ t.view.Disciplined ∧
    t.view.Ahead ∧ t.view.scheduledSet = ∅ ∧ t.view.now = tickTime s

theorem ssmTick_spec (n : Nat) (wf : WellFormed sizes s) (ready : s.view.Ready)
    (ok : s.view.Disciplined) (obeys : ∀ c ∈ p.tickVisits sizes n s, p.Obeys c) :
    (∃ V, Orderly p V ∅ (p.tickVisits sizes n s)) ∧ Ends p sizes n s := by
  have eq := ssmTick_eq sizes (p.steps sizes) n s
  rcases tickUpdates_ready wf ready with ⟨u, full⟩ | ⟨t, start, wft, shown, ahead⟩
  · have log : p.tickVisits sizes n s = [] := by rw [Routine.tickVisits, full]
    refine ⟨⟨s.view, log ▸ .nil⟩,
      .inl ⟨.exhaustedActQueue, u, ?_, .inl (.inl rfl)⟩⟩
    rw [eq, full]
    rfl
  · have log : p.tickVisits sizes n s = p.visits sizes n t := by rw [Routine.tickVisits, start]
    have okT : t.view.Disciplined := by
      rw [shown]
      exact View.Disciplined.updates (ok.congr (View.SameTree.of_records rfl rfl) ok.scheduled
        ok.listening)
    have now : t.view.now = tickTime s := by
      rw [shown]
      rfl
    rw [log] at obeys
    obtain ⟨orderly, ends⟩ := visits_spec ∅ n wft ahead okT (fun _ h => h.elim) obeys
    rw [Ends, log, eq, start, ok_bind]
    refine ⟨⟨t.view, orderly⟩, ends.imp_right (.imp_right ?_)⟩
    rintro ⟨v, done, empty, after⟩
    exact ⟨v, done, after.wellFormed, after.ok, after.ahead, empty, after.now.trans now⟩

end Loop

/-- The start of a program: a record is entered below `ssm_top_parent` and activated. -/
def launch (sizes : QueueSizes) (child step k i : Nat) (frame : List Value) (s : State) : Res := do
  let s ← (ForkCall.fork child step ssmTopParent k i frame).exec s
  ssmActivate sizes child s

/-- A launch does to the view what a fork by `ssm_top_parent` does. -/
theorem launch_forks {sizes : SafeSizes} {child step k i : Nat} {frame : List Value} {s t : State}
    (wf : WellFormed sizes s) (ok : s.view.Disciplined)
    (obeys : (Deed.fork child step k i frame).Obeys ssmTopParent s.view)
    (deep : k ≤ ssmRootDepth) (done : launch sizes child step k i frame s = .ok t) :
    WellFormed sizes t ∧ (Deed.fork child step k i frame).fault sizes ssmTopParent s.view = none ∧
      t.view = (Deed.fork child step k i frame).apply ssmTopParent s.view := by
  have top := ok.forest.top
  have deep : k ≤ s.view.depth ssmTopParent := deep
  have first := ok.forest.forkPriority_eq top (k := k) deep obeys.2.2.2.1
  have spec := enter_computes step (s.view.part ssmTopParent k i) (s.view.depth ssmTopParent - k)
    frame wf obeys.1 top
  rw [launch, ForkCall.exec, first] at done
  rw [done] at spec
  split at spec
  · rename_i room
    obtain ⟨u, same, wft, shown⟩ := spec
    cases same
    refine ⟨wft, ?_, shown⟩
    rw [Deed.fault, if_neg (Nat.not_lt.mpr deep), if_pos room]
  · obtain ⟨u, fails⟩ := spec
    cases fails

theorem launch_refines {sizes : SafeSizes} {child step k i : Nat} {frame : List Value} {s t : State}
    (wf : WellFormed sizes s) (ok : s.view.Disciplined)
    (obeys : (Deed.fork child step k i frame).Obeys ssmTopParent s.view)
    (deep : k ≤ ssmRootDepth) (done : launch sizes child step k i frame s = .ok t) :
    WellFormed sizes t ∧ t.view.Disciplined ∧ (s.view.Ahead → t.view.Ahead) := by
  obtain ⟨wft, fine, shown⟩ := launch_forks wf ok obeys deep done
  have idle : ssmTopParent ∉ s.view.scheduledSet := fun h =>
    (View.mem_processes.mp (ok.scheduled _ h).1).1 rfl
  rw [shown]
  exact ⟨wft, ok.fork ok.forest.top idle obeys fine, fun ahead => ahead⟩

/-- A number of ticks, with the calls of each. -/
def Routine.run (p : Routine) (sizes : QueueSizes) (n : Nat) :
    Nat → State → List (List (ActPtr × State)) × Res
  | 0, s => ([], .ok s)
  | m + 1, s =>
      match ssmTick sizes (p.steps sizes) n s with
      | .ok t => (p.tickVisits sizes n s :: (p.run sizes n m t).1, (p.run sizes n m t).2)
      | .error e => ([p.tickVisits sizes n s], .error e)

/-- Every instant of every run goes through the tree in order: each call is made
in front of all that is still scheduled, and once a record waits for its
triggers, the calls that follow in the instant are of records behind it. -/
theorem instants_inTreeOrder {sizes : SafeSizes} {p : Routine} {s : State} (n m : Nat)
    (wf : WellFormed sizes s) (ready : s.view.Ready) (ok : s.view.Disciplined)
    (obeys : ∀ log ∈ (p.run sizes n m s).1, ∀ c ∈ log, p.Obeys c) :
    (∀ log ∈ (p.run sizes n m s).1,
      (∀ c ∈ log, c.1 ≠ ssmTopParent → c.2.view.Entered c.1) ∧
      log.Pairwise fun c d => p.Settles c → d.1 ≠ ssmTopParent →
        c.2.view.beyond c.1 ≤ d.2.view.lowest d.1 ∧ d.1 ≠ c.1) ∧
    ((∃ e u, (p.run sizes n m s).2 = .error ⟨.thrown e, u⟩ ∧ Depleted e) ∨
      (∃ u, (p.run sizes n m s).2 = .error ⟨.diverges, u⟩ ∧
        ∃ log ∈ (p.run sizes n m s).1, n ≤ log.length) ∨
      ∃ t, (p.run sizes n m s).2 = .ok t ∧ WellFormed sizes t ∧ t.view.Disciplined ∧
        t.view.Ready ∧ (t.view.scheduledSet = ∅ ∨ m = 0)) := by
  induction m generalizing s with
  | zero =>
      exact ⟨fun _ h => absurd h List.not_mem_nil, .inr (.inr ⟨s, rfl, wf, ok, ready, .inr rfl⟩)⟩
  | succ m ih =>
      have mine : p.tickVisits sizes n s ∈ (p.run sizes n (m + 1) s).1 := by
        rw [Routine.run]
        split <;> exact List.mem_cons_self
      obtain ⟨⟨V, orderly⟩, ends⟩ := ssmTick_spec n wf ready ok (obeys _ mine)
      have here := And.intro orderly.entered orderly.inOrder
      rcases ends with ⟨e, u, fails, depleted⟩ | ⟨u, spins, long⟩ |
        ⟨t, done, wft, okT, ahead, empty, -⟩
      · simp only [Routine.run, fails, List.mem_singleton, forall_eq]
        exact ⟨here, .inl ⟨e, u, rfl, depleted⟩⟩
      · simp only [Routine.run, spins, List.mem_singleton, forall_eq]
        exact ⟨here, .inr (.inl ⟨u, rfl, _, rfl, long⟩)⟩
      · simp only [Routine.run, done, List.mem_cons, forall_eq_or_imp] at obeys ⊢
        obtain ⟨logs, rest⟩ := ih wft ahead.ready okT obeys.2
        refine ⟨⟨here, logs⟩, rest.imp_right (.imp ?_ ?_)⟩
        · rintro ⟨u, spins, log, mem, long⟩
          exact ⟨u, spins, log, .inr mem, long⟩
        · rintro ⟨u, last, wfu, okU, readyU, idle⟩
          refine ⟨u, last, wfu, okU, readyU, .inl ?_⟩
          rcases idle with idle | rfl
          · exact idle
          · cases last
            exact empty

/-- Only `ssm_top_parent`, with two variables and two triggers. -/
def forkVars : State :=
  State.idle {1, 2} {ssmTopParent} (fun _ => ⟨0, 0, 0, 0, 0, 0, false, []⟩) {20, 21} fun _ => 0

/-- A record that forks two, waits for both and leaves. One of the two waits for
an event of its own and the other for what the first one then writes. -/
def forkTwo : Routine := fun f act V =>
  match f, V.field Act.pc act with
  | 1, 0 => ([.fork 11 2 1 0 [], .fork 12 3 1 1 [], .action (.store act 1 [])], .waits)
  | 2, 0 => ([.adopt 20, .action (.sensitize 1 20), .action (.later 1 (V.now + 5) (.packed 7)),
      .action (.store act 1 [])], .waits)
  | 2, 1 => ([.action (.assign 2 (V.prio act) (.packed 8)), .action (.desensitize 20)], .leaves)
  | 3, 0 => ([.adopt 21, .action (.sensitize 2 21), .action (.store act 1 [])], .waits)
  | 3, 1 => ([.action (.desensitize 21)], .leaves)
  | 1, 1 => ([], .leaves)
  | _, _ => ([], .waits)

theorem forkVars_disciplined : forkVars.view.Disciplined where
  forest := boot_forest.congr ⟨rfl, fun _ => rfl, rfl, rfl, rfl, rfl⟩
  scheduled := fun a ha => absurd ha (by decide +revert)
  listening := fun x hx t ht a ha => absurd ht (by decide +revert)

theorem forkTwo_starts : ∃ s, launch defaultSafeSizes 10 1 0 0 [] forkVars = .ok s ∧
    (forkTwo.run defaultSafeSizes 8 2 s).1.map (List.map Prod.fst) =
      [[10, 11, 12], [11, 12, 10, 1]] ∧
    (∀ log ∈ (forkTwo.run defaultSafeSizes 8 2 s).1, ∀ c ∈ log, forkTwo.Obeys c) ∧
    WellFormed defaultSafeSizes s ∧ s.view.Disciplined ∧ s.view.Ready := by
  have plays : (launch defaultSafeSizes 10 1 0 0 [] forkVars).toOption.any (fun s =>
      (forkTwo.run defaultSafeSizes 8 2 s).1.map (List.map Prod.fst) ==
        [[10, 11, 12], [11, 12, 10, 1]] &&
      (forkTwo.run defaultSafeSizes 8 2 s).1.all fun log => log.all fun c =>
        decide (forkTwo.Obeys c)) = true := by
    decide +kernel
  obtain ⟨s, start, ok⟩ := (Option.any_eq_true _ _).mp plays
  simp only [Bool.and_eq_true, beq_iff_eq, List.all_eq_true, decide_eq_true_eq] at ok
  have start := ok_of_toOption start
  obtain ⟨wf, disciplined, ahead⟩ := launch_refines (State.idle_wellFormed _ _ _ _ _ _)
    forkVars_disciplined (by decide) (by decide) start
  exact ⟨s, start, ok.1, ok.2, wf, disciplined, (ahead (State.idle_ahead _ _ _ _ _)).ready⟩

/-- Two instants: the three records run from left to right, and at the event the
two leave and are followed by their parent and by `ssm_top_parent`. -/
theorem instants_inTreeOrder_forkTwo : ∃ s,
    launch defaultSafeSizes 10 1 0 0 [] forkVars = .ok s ∧
    (forkTwo.run defaultSafeSizes 8 2 s).1.map (List.map Prod.fst) =
      [[10, 11, 12], [11, 12, 10, 1]] ∧
    ∀ log ∈ (forkTwo.run defaultSafeSizes 8 2 s).1, ∀ c ∈ log,
      c.1 ≠ ssmTopParent → c.2.view.Entered c.1 := by
  obtain ⟨s, start, calls, obeys, wf, disciplined, ready⟩ := forkTwo_starts
  exact ⟨s, start, calls, fun log hlog =>
    ((instants_inTreeOrder 8 2 wf ready disciplined obeys).1 log hlog).1⟩

end SsmRuntime
