import SsmRuntime.TreeWalk

/-!
The record that prints. It stands in front of the main record and listens to
`ssm_stdout`; so no assignment of the program can wake it, and in each tick it
prints the character that becomes due, before any other record is called.
-/
namespace SsmRuntime

/-- What all calls of step functions keep: the deeds of the records told, and
any call of another. -/
structure Upheld (p : Routine) (sizes : QueueSizes) (I : View → Prop) (who : ActPtr → Prop) :
    Prop where
  pop : ∀ V a, I V → I (V.pop a)
  deed : ∀ V a (d : Deed), who a → V.Running a → V.Live → I V → d.Obeys a V →
    d.fault sizes a V = none → I (d.apply a V)
  leave : ∀ V a, who a → V.Running a → I V → I (V.leave a)
  own : ∀ s t a, ¬ who a → WellFormed sizes s → s.view.Entered a → I s.view → p.Obeys (a, s) →
    runDeeds sizes a (p.turn (a, s)).1 s = .ok t → (p.turn (a, s)).2 = .waits ∧ I t.view

section Upheld
variable {sizes : SafeSizes} {p : Routine} {I : View → Prop} {who : ActPtr → Prop} {s t : State}
variable {a : ActPtr}

theorem Upheld.runDeeds (up : Upheld p sizes I who) {e : Ending} (ds : List Deed) (mine : who a)
    (wf : WellFormed sizes s) (run : s.view.Running a) (obeys : TurnObeys a ds e s.view)
    (holds : I s.view) (done : runDeeds sizes a ds s = .ok t) : I t.view := by
  induction ds generalizing s with
  | nil =>
      cases done
      exact holds
  | cons d ds ih =>
      obtain ⟨u, one, rest⟩ := bind_eq_ok.mp done
      obtain ⟨wfu, fine, shown⟩ := d.exec_eq_ok wf run obeys.1 one
      have first := run.stays (view_live s) obeys.1 fine
      rw [← shown] at first
      refine ih wfu first.running (shown ▸ obeys.2) ?_ rest
      rw [shown]
      exact up.deed s.view a d mine run (view_live s) holds obeys.1 fine

/-- A call with the calls of the parents it resumes. -/
theorem Upheld.call (up : Upheld p sizes I who) (depth : Nat) (wf : WellFormed sizes s)
    (called : s.view.Entered a ∨ a = ssmTopParent ∧ s.view.Disciplined) (holds : I s.view)
    (obeys : ∀ c ∈ p.chain sizes depth a s, p.Obeys c)
    (done : p.call sizes depth (s.acts.val a).step a s = .ok t) :
    I t.view ∧ ∀ c ∈ p.chain sizes depth a s, I c.2.view := by
  induction depth generalizing s a with
  | zero => cases done
  | succ depth ih =>
      have mine := obeys (a, s) (by rw [Routine.chain]; exact List.mem_cons_self)
      have here : ∀ c ∈ [(a, s)], I c.2.view := fun c hc => by
        cases List.mem_singleton.mp hc
        exact holds
      rcases called with entered | ⟨rfl, ok⟩
      · obtain ⟨notTop, -⟩ := View.mem_processes.mp entered.live
        cases hr : SsmRuntime.runDeeds sizes a (p.turn (a, s)).1 s with
        | error e =>
            rw [Routine.call_stops hr] at done
            cases done
        | ok u =>
            by_cases other : who a
            · have turn := mine
              rw [Routine.Obeys, if_neg notTop] at turn
              have holdsU := up.runDeeds _ other wf entered.running turn holds hr
              obtain ⟨wfu, stays, ending⟩ := runDeeds_keeps _ wf entered.running turn hr
              cases he : (p.turn (a, s)).2 with
              | waits =>
                  rw [Routine.call_waits hr he] at done
                  rw [Routine.chain_waits hr he]
                  cases done
                  exact ⟨holdsU, here⟩
              | leaves =>
                  rw [he] at ending
                  obtain ⟨v, gone, wfv, shown, -, resume⟩ :=
                    departure wfu stays.running ending.1 ending.2
                  have holdsV : I v.view := shown ▸ up.leave _ a other stays.running holdsU
                  rw [Routine.call_leaves hr he] at done
                  cases hq : u.view.resumes a with
                  | none =>
                      rw [hq] at gone
                      rw [Routine.chain_leaves hr he gone]
                      rw [ssmLeave, gone] at done
                      cases done
                      exact ⟨holdsV, here⟩
                  | some q =>
                      rw [hq] at gone
                      obtain ⟨live, calledQ⟩ := resume q hq
                      have log : p.chain sizes (depth + 1) a s = [(a, s)] ++ p.chain sizes depth q v :=
                        Routine.chain_resumes hr he gone
                      rw [ssmLeave_resumes gone live] at done
                      rw [log] at obeys ⊢
                      obtain ⟨holdsT, rest⟩ := ih wfv calledQ holdsV
                        (fun c hc => obeys c (List.mem_append_right _ hc)) done
                      refine ⟨holdsT, fun c hc => ?_⟩
                      exact (List.mem_append.mp hc).elim (here c) (rest c)
            · obtain ⟨waits, holdsU⟩ := up.own s u a other wf entered holds mine hr
              rw [Routine.call_waits hr waits] at done
              rw [Routine.chain_waits hr waits]
              cases done
              exact ⟨holdsU, here⟩
      · rw [Routine.Obeys, if_pos rfl] at mine
        obtain ⟨none, waits⟩ := mine
        have idle : SsmRuntime.runDeeds sizes ssmTopParent (p.turn (ssmTopParent, s)).1 s = .ok s := by
          rw [none]
          rfl
        rw [Routine.call_waits idle waits] at done
        rw [Routine.chain_waits idle waits]
        cases done
        exact ⟨holds, here⟩

/-- The second loop of a tick. -/
theorem Upheld.visits (up : Upheld p sizes I who) (n : Nat) (wf : WellFormed sizes s)
    (ahead : s.view.Ahead) (ok : s.view.Disciplined) (holds : I s.view)
    (obeys : ∀ c ∈ p.visits sizes n s, p.Obeys c) (done : tickSteps (p.steps sizes) n s = .ok t) :
    I t.view ∧ ∀ c ∈ p.visits sizes n s, I c.2.view := by
  induction n generalizing s with
  | zero =>
      rw [tickSteps] at done
      split at done
      · cases done
        exact ⟨holds, fun c hc => absurd hc List.not_mem_nil⟩
      · cases done
  | succ n ih =>
      by_cases idle : s.actQueueLen = 0
      · rw [tickSteps, if_pos idle] at done
        cases done
        rw [Routine.visits, if_pos idle]
        exact ⟨holds, fun c hc => absurd hc List.not_mem_nil⟩
      · obtain ⟨a, u, pop, mem, wfu, shown, least, round⟩ := tickSteps_pop wf idle
        obtain ⟨entered, enough, -, aheadU⟩ := pop_entered ok mem least shown
        have log := p.visits_pop sizes n idle pop
        rw [round] at done
        obtain ⟨v, stepped, rest⟩ := bind_eq_ok.mp done
        rw [stepped] at log
        rw [log] at obeys ⊢
        have chain := fun c hc => obeys c (List.mem_append_left _ hc)
        have holdsU : I u.view := shown ▸ up.pop s.view a holds
        obtain ⟨holdsV, calls⟩ := up.call _ wfu (.inl entered) holdsU chain stepped
        obtain ⟨-, ends⟩ := call_spec (p := p) ∅ _ wfu (aheadU ahead) (.inl entered) enough
          (fun _ h => h.elim) chain
        rcases ends with ⟨e, w, fails, -⟩ | ⟨w, same, after⟩
        · rw [Routine.steps] at stepped
          rw [fails] at stepped
          cases stepped
        · have same : v = w := Except.ok.inj (stepped.symm.trans same)
          subst same
          obtain ⟨holdsT, later⟩ := ih after.wellFormed after.ahead after.ok holdsV
            (fun c hc => obeys c (List.mem_append_right _ hc)) rest
          exact ⟨holdsT, fun c hc => (List.mem_append.mp hc).elim (calls c) (later c)⟩

end Upheld

/-- `step_stdout_handler`, but for what it writes and for the drop of its argument
when it ends. The handler takes its trigger when it is first called. -/
def stdoutHandler (x : Addr) (trig : TriggerPtr) (act : ActPtr) (V : View) : List Deed × Ending :=
  match V.field Act.pc act with
  | 0 => ([.adopt trig, .action (.sensitize x trig), .action (.store act 1 [.heap x])], .waits)
  | 1 => ([], .waits)
  | _ => ([.action (.desensitize trig)], .leaves)

/-- `if (!c) return; write(1, &c, 1)` for the `char` of a packed value. -/
def stdoutChar : Value → List Nat
  | .packed n => if n % 256 = 0 then [] else [n % 256]
  | .heap _ => []

/-- What a call writes, if it is one of the handler that has been sensitized. -/
def written (x : Addr) (h : ActPtr) (c : ActPtr × State) : List Nat :=
  if c.1 = h ∧ (c.2.acts.val h).pc = 1 then ((c.2.sv? x).map fun v => stdoutChar v.value).getD []
  else []

/-- The character that `ssm_stdout` is to take in the tick that comes next. -/
def dueChar (x : Addr) (s : State) : List Nat :=
  ((s.sv? x).map fun v =>
    if v.laterTime = tickTime s ∧ v.laterTime ≠ ssmNever then stdoutChar v.laterValue else []).getD []

section Handler
variable {V W : View} {f : Nat} {x : Addr} {trig : TriggerPtr} {h a : ActPtr}

/-- A record without children whose priorities come before all others. -/
structure InFront (h : ActPtr) (V : View) : Prop where
  live : h ∈ V.processes
  childless : V.childrenOf h = ∅
  front : ∀ b ∈ V.processes, b ≠ h → V.beyond h ≤ V.lowest b

/-- The handler before its first call. -/
structure Unstarted (f : Nat) (x : Addr) (h : ActPtr) (V : View) : Prop where
  place : InFront h V
  step : V.field Act.step h = f
  pc : V.field Act.pc h = 0
  var : x ∈ V.vars
  deaf : Deed.Deaf V h

/-- The handler listens to one variable, and waits. -/
structure Listens (f : Nat) (x : Addr) (trig : TriggerPtr) (h : ActPtr) (V : View) : Prop where
  place : InFront h V
  step : V.field Act.step h = f
  pc : V.field Act.pc h = 1
  var : x ∈ V.vars
  listed : trig ∈ V.triggers x
  mine : V.trigger trig = some h
  only : ∀ y ∈ V.vars, ∀ t ∈ V.triggers y, V.trigger t = some h → y = x

theorem InFront.congr (place : InFront h V) (same : V.SameTree W) : InFront h W := by
  refine ⟨?_, ?_, fun b hb other => ?_⟩
  · rw [same.processes]
    exact place.live
  · rw [same.childrenOf]
    exact place.childless
  · rw [same.beyond, same.lowest]
    exact place.front b (same.processes ▸ hb) other

theorem Unstarted.congr (un : Unstarted f x h V) (same : V.SameTree W)
    (step : W.field Act.step h = V.field Act.step h) (pc : W.field Act.pc h = V.field Act.pc h)
    (vars : W.vars = V.vars) (triggers : W.triggers = V.triggers) (trigger : W.trigger = V.trigger) :
    Unstarted f x h W where
  place := un.place.congr same
  step := step.trans un.step
  pc := pc.trans un.pc
  var := vars ▸ un.var
  deaf := fun y hy t ht => by
    rw [trigger]
    exact un.deaf y (vars ▸ hy) t (triggers ▸ ht)

/-- The handler listens on, as long as its own trigger stays in the list and no
other becomes its own. -/
theorem Listens.congr (ear : Listens f x trig h V) (place : InFront h W)
    (step : W.field Act.step h = V.field Act.step h) (pc : W.field Act.pc h = V.field Act.pc h)
    (vars : W.vars = V.vars) (listed : trig ∈ W.triggers x) (mine : W.trigger trig = some h)
    (only : ∀ y ∈ V.vars, ∀ t ∈ W.triggers y, W.trigger t = some h →
      t ∈ V.triggers y ∧ V.trigger t = some h) : Listens f x trig h W where
  place := place
  step := step.trans ear.step
  pc := pc.trans ear.pc
  var := vars ▸ ear.var
  listed := listed
  mine := mine
  only := fun y hy t ht own => by
    have hy := vars ▸ hy
    obtain ⟨old, own⟩ := only y hy t ht own
    exact ear.only y hy t old own

/-- Where the lists and the owners of the triggers are the same. -/
theorem Listens.same (ear : Listens f x trig h V) (same : V.SameTree W)
    (step : W.field Act.step h = V.field Act.step h) (pc : W.field Act.pc h = V.field Act.pc h)
    (vars : W.vars = V.vars) (triggers : W.triggers = V.triggers) (trigger : W.trigger = V.trigger) :
    Listens f x trig h W :=
  ear.congr (ear.place.congr same) step pc vars (triggers ▸ ear.listed) (trigger ▸ ear.mine)
    fun _ _ _ ht own => ⟨triggers ▸ ht, trigger ▸ own⟩

theorem field_pop (V : View) {g : Act → Nat} (same : ∀ r b, g { r with scheduled := b } = g r)
    (b : ActPtr) : (V.pop b).field g = V.field g :=
  View.field_mapRecord V b fun r => same r false

theorem sameTree_pop (V : View) (b : ActPtr) : V.SameTree (V.pop b) :=
  .mapRecord V b (fun _ => rfl) (fun _ => rfl) (fun _ => rfl) fun _ => rfl

theorem Unstarted.pop (un : Unstarted f x h V) (b : ActPtr) : Unstarted f x h (V.pop b) :=
  un.congr (sameTree_pop V b) (by rw [field_pop V fun _ _ => rfl])
    (by rw [field_pop V fun _ _ => rfl]) rfl rfl rfl

theorem Listens.pop (ear : Listens f x trig h V) (b : ActPtr) : Listens f x trig h (V.pop b) :=
  ear.same (sameTree_pop V b) (by rw [field_pop V fun _ _ => rfl])
    (by rw [field_pop V fun _ _ => rfl]) rfl rfl rfl

theorem sameTree_updates (V : View) (next : Nat) : V.SameTree (V.setNow next).updates := by
  have first : V.SameTree (V.setNow next).deliverDue := .of_records rfl rfl
  exact first.trans (.wake _ _)

theorem field_updates (V : View) (next : Nat) {g : Act → Nat}
    (same : ∀ r b, g { r with scheduled := b } = g r) :
    (V.setNow next).updates.field g = V.field g := View.field_wake _ _ same

theorem Unstarted.updates (un : Unstarted f x h V) (next : Nat) :
    Unstarted f x h (V.setNow next).updates :=
  un.congr (sameTree_updates V next) (by rw [field_updates V next fun _ _ => rfl])
    (by rw [field_updates V next fun _ _ => rfl]) rfl rfl rfl

theorem Listens.updates (ear : Listens f x trig h V) (next : Nat) :
    Listens f x trig h (V.setNow next).updates :=
  ear.same (sameTree_updates V next) (by rw [field_updates V next fun _ _ => rfl])
    (by rw [field_updates V next fun _ _ => rfl]) rfl rfl rfl

/-- An action of another record leaves the step and the program counter. -/
theorem field_action {c : Action} (own : c.Own a V) (other : h ≠ a) {g : Act → Nat}
    (same : ∀ r b, g { r with scheduled := b } = g r) :
    (c.apply V).field g h = V.field g h := by
  cases c with
  | assign y prio val =>
      exact congrFun (View.field_wake (V.mapVar y _) _ same) h
  | store b pc frame =>
      have same : b = a := own
      exact View.field_mapRecord_of_ne V g _ (same ▸ other)
  | later _ _ _ | unschedule _ | sensitize _ _ | desensitize _ => rfl

theorem Listens.action {c : Action} (ear : Listens f x trig h V) (obeys : c.Obeys a V)
    (other : h ≠ a) : Listens f x trig h (c.apply V) := by
  obtain ⟨-, -, own⟩ := obeys
  have owner := c.apply_trigger (V := V)
  have foreign : V.trigger trig ≠ some a := fun mine => other (Option.some.inj (ear.mine ▸ mine))
  refine ear.congr (ear.place.congr (.action V c)) (field_action own other fun _ _ => rfl)
    (field_action own other fun _ _ => rfl) (c.apply_vars (V := V)) ?_ (owner ▸ ear.mine)
    fun y hy t ht mine => ?_
  · cases c with
    | sensitize y t =>
        change trig ∈ if x = y then insert t (V.triggers x) else V.triggers x
        split
        · exact Finset.mem_insert_of_mem ear.listed
        · exact ear.listed
    | desensitize t =>
        refine Finset.mem_erase.mpr ⟨?_, ear.listed⟩
        rintro rfl
        exact foreign own
    | assign _ _ _ | later _ _ _ | unschedule _ | store _ _ _ => exact ear.listed
  · rw [owner] at mine
    rcases Action.apply_listed ht with old | rfl
    · exact ⟨old, mine⟩
    · exact absurd (Option.some.inj (mine.symm.trans own)) other

theorem adopt_trigger (V : View) (t : TriggerPtr) (a : ActPtr) (u : TriggerPtr) :
    (V.adopt t a).trigger u = if u = t then some a else V.trigger u :=
  Function.update_apply _ _ _ _

theorem Listens.adopt {t : TriggerPtr} (ear : Listens f x trig h V)
    (free : ∀ y ∈ V.vars, t ∉ V.triggers y) : Listens f x trig h (V.adopt t a) := by
  have apart : trig ≠ t := fun same => free x ear.var (same ▸ ear.listed)
  refine ear.congr (ear.place.congr (.of_records rfl rfl)) rfl rfl rfl ear.listed ?_
    fun y hy u hu mine => ?_
  · rw [adopt_trigger, if_neg apart]
    exact ear.mine
  · have differ : u ≠ t := fun same => free y hy (same ▸ hu)
    rw [adopt_trigger, if_neg differ] at mine
    exact ⟨hu, mine⟩

theorem InFront.forked {child first : Nat} (place : InFront h V)
    (forked : V.Forked W a child first) (other : h ≠ a) (live : a ∈ V.processes)
    (inside : V.lowest a ≤ first) : InFront h W := by
  have apart : h ≠ child := fun same => forked.fresh (same ▸ place.live)
  refine ⟨?_, ?_, fun b hb differ => ?_⟩
  · rw [forked.processes]
    exact Finset.mem_insert_of_mem place.live
  · rw [forked.childrenOf, if_neg other]
    exact place.childless
  · rw [forked.processes] at hb
    rw [forked.beyond h apart, forked.lowest]
    by_cases new : b = child
    · rw [if_pos new]
      exact Nat.le_trans (place.front a live other.symm) inside
    · rw [if_neg new]
      exact place.front b (Finset.mem_of_mem_insert_of_ne hb new) differ

theorem field_fork {child step k i : Nat} {frame : List Value} (apart : h ≠ child) {g : Act → Nat}
    (scheduled : ∀ r b, g { r with scheduled := b } = g r)
    (children : ∀ r n, g { r with children := n } = g r) :
    ((Deed.fork child step k i frame).apply a V).field g h = V.field g h := by
  rw [Deed.apply, View.field_wake _ _ scheduled, View.enter_field V children, if_neg apart]

theorem Listens.deed {sizes : QueueSizes} {d : Deed} (ear : Listens f x trig h V)
    (run : V.Running a) (other : h ≠ a) (obeys : d.Obeys a V) (fine : d.fault sizes a V = none) :
    Listens f x trig h (d.apply a V) := by
  cases d with
  | action c => exact ear.action (Deed.Obeys.action obeys) other
  | adopt t => exact ear.adopt obeys
  | fork child step k i frame =>
      have forked := run.forked obeys fine
      have apart : h ≠ child := fun same => forked.fresh (same ▸ ear.place.live)
      exact ear.congr (ear.place.forked forked other run.live (Nat.le_add_right _ _))
        (field_fork apart (fun _ _ => rfl) fun _ _ => rfl)
        (field_fork apart (fun _ _ => rfl) fun _ _ => rfl) rfl ear.listed ear.mine
        fun _ _ _ ht own => ⟨ht, own⟩

theorem Listens.leave (ear : Listens f x trig h V) (other : h ≠ a) :
    Listens f x trig h (V.leave a) := by
  refine ear.congr ⟨?_, ?_, fun b hb differ => ?_⟩ (by rw [View.leave_field V fun _ _ => rfl,
    if_neg other]) (by rw [View.leave_field V fun _ _ => rfl, if_neg other]) rfl ear.listed
    ear.mine fun _ _ _ ht own => ⟨ht, own⟩
  · rw [View.leave_processes]
    exact Finset.mem_erase.mpr ⟨other, ear.place.live⟩
  · rw [View.leave_childrenOf, ear.place.childless]
    rfl
  · rw [View.leave_processes] at hb
    obtain ⟨stays, hb⟩ := Finset.mem_erase.mp hb
    rw [View.leave_beyond other, View.leave_lowest stays]
    exact ear.place.front b hb differ

end Handler

section Tick
variable {sizes : SafeSizes} {p : Routine} {s t u : State} {f : Nat} {x : Addr}
variable {trig : TriggerPtr} {h : ActPtr}

theorem InFront.live_acts (place : InFront h s.view) : h ∈ s.acts.dom :=
  (View.mem_processes.mp place.live).2

theorem turn_handler (handler : p f = stdoutHandler x trig) (place : InFront h s.view)
    (step : s.view.field Act.step h = f) : p.turn (h, s) = stdoutHandler x trig h s.view := by
  rw [turn_view place.live_acts, View.turn, step, handler]

/-- A handler that listens does nothing but write. -/
theorem Listens.turn (handler : p f = stdoutHandler x trig) (ear : Listens f x trig h s.view) :
    p.turn (h, s) = ([], .waits) := by
  rw [turn_handler handler ear.place ear.step, stdoutHandler, ear.pc]
  rfl

theorem Unstarted.turn (handler : p f = stdoutHandler x trig) (un : Unstarted f x h s.view) :
    p.turn (h, s) = ([.adopt trig, .action (.sensitize x trig), .action (.store h 1 [.heap x])],
      .waits) := by
  rw [turn_handler handler un.place un.step, stdoutHandler, un.pc]
  rfl

theorem upheld_listens (handler : p f = stdoutHandler x trig) :
    Upheld p sizes (Listens f x trig h) (· ≠ h) where
  pop := fun V a ear => ear.pop a
  deed := fun V a d other run _ ear obeys fine => ear.deed run other.symm obeys fine
  leave := fun V a other _ ear => ear.leave other.symm
  own := fun s t a same _ _ ear _ done => by
    obtain rfl := not_not.mp same
    rw [ear.turn handler] at done ⊢
    cases done
    exact ⟨rfl, ear⟩

/-- In its first call the handler puts its trigger into the list. -/
theorem Unstarted.starts (handler : p f = stdoutHandler x trig) (un : Unstarted f x h s.view)
    (wf : WellFormed sizes s) (entered : s.view.Entered h) (obeys : p.Obeys (h, s))
    (done : runDeeds sizes h (p.turn (h, s)).1 s = .ok t) : Listens f x trig h t.view := by
  obtain ⟨notTop, -⟩ := View.mem_processes.mp un.place.live
  rw [Routine.Obeys, if_neg notTop] at obeys
  have spec := runDeeds_computes _ wf entered.running obeys
  rw [un.turn handler] at obeys spec done
  have free : ∀ y ∈ s.view.vars, trig ∉ s.view.triggers y := obeys.1
  rw [done] at spec
  cases hd : View.deeds sizes h
      [.adopt trig, .action (.sensitize x trig), .action (.store h 1 [.heap x])] s.view with
  | error e =>
      rw [hd] at spec
      obtain ⟨u, fails⟩ := spec
      cases fails
  | ok W =>
      rw [hd] at spec
      obtain ⟨u, same, -, shown⟩ := spec
      cases same
      obtain ⟨V₁, first, hd⟩ := bind_eq_ok.mp hd
      obtain ⟨V₂, second, hd⟩ := bind_eq_ok.mp hd
      obtain ⟨V₃, third, hd⟩ := bind_eq_ok.mp hd
      obtain ⟨-, rfl⟩ := View.deed_eq_ok first
      obtain ⟨-, rfl⟩ := View.deed_eq_ok second
      obtain ⟨-, rfl⟩ := View.deed_eq_ok third
      cases hd
      rw [shown]
      have listed : s.view.SameTree ((s.view.adopt trig h).sensitize x trig) :=
        .of_records rfl rfl
      obtain ⟨r, hr⟩ := Option.isSome_iff_exists.mp
        ((entered.ok.forest.recorded h).mp un.place.live_acts)
      refine ⟨un.place.congr (listed.trans (.mapRecord _ h (fun _ => rfl) (fun _ => rfl)
        (fun _ => rfl) fun _ => rfl)), ?_, ?_, un.var, ?_, ?_, fun y hy t ht own => ?_⟩
      · have same (r : Act) : Act.step { r with pc := 1, frame := [.heap x] } = r.step := rfl
        change (View.mapRecord ((s.view.adopt trig h).sensitize x trig) h
          fun r => { r with pc := 1, frame := [.heap x] }).field Act.step h = f
        rw [View.field_mapRecord _ _ same]
        exact un.step
      · exact View.field_mapRecord_self ((s.view.adopt trig h).sensitize x trig) Act.pc _ hr
      · change trig ∈ if x = x then insert trig (s.view.triggers x) else _
        rw [if_pos rfl]
        exact Finset.mem_insert_self _ _
      · change (s.view.adopt trig h).trigger trig = some h
        rw [adopt_trigger, if_pos rfl]
      · by_contra differ
        change t ∈ if y = x then insert trig (s.view.triggers y) else s.view.triggers y at ht
        rw [if_neg differ] at ht
        change (s.view.adopt trig h).trigger t = some h at own
        have apart : t ≠ trig := fun same => free y hy (same ▸ ht)
        rw [adopt_trigger, if_neg apart] at own
        exact un.deaf y hy t ht own

/-- Once the handler has run or has not been woken, it is not called any more. -/
theorem not_called {n : Nat} (wf : WellFormed sizes s) (ahead : s.view.Ahead)
    (ok : s.view.Disciplined) (passed : s.view.Passed h)
    (obeys : ∀ c ∈ p.visits sizes n s, p.Obeys c) : ∀ c ∈ p.visits sizes n s, c.1 ≠ h := by
  obtain ⟨orderly, -⟩ := visits_spec {h} n wf ahead ok
    (fun r hr => Set.mem_singleton_iff.mp hr ▸ passed) obeys
  intro c hc
  by_cases top : c.1 = ssmTopParent
  · rw [top]
    exact (View.mem_processes.mp passed.live).1.symm
  · exact (orderly.after h rfl c hc top).2

theorem not_called_writes {log : List (ActPtr × State)} (none : ∀ c ∈ log, c.1 ≠ h) :
    log.flatMap (written x h) = [] :=
  List.flatMap_eq_nil_iff.mpr fun c hc => if_neg fun mine => none c hc mine.1

/-- A handler in front of all others that is not scheduled has passed. -/
theorem InFront.passed (place : InFront h s.view) (ok : s.view.Disciplined)
    (idle : h ∉ s.view.scheduledSet) : s.view.Passed h where
  live := place.live
  childless := place.childless
  ahead := fun b hb => place.front b (ok.scheduled b hb).1 fun same => idle (same ▸ hb)

/-- A scheduled handler is called first, and waits. -/
theorem handler_first {n : Nat} (wf : WellFormed sizes s) (ok : s.view.Disciplined)
    (place : InFront h s.view) (woken : h ∈ s.view.scheduledSet)
    (waits : ∀ u : State, u.view = s.view.pop h → (p.turn (h, u)).2 = .waits)
    (done : tickSteps (p.steps sizes) n s = .ok t) :
    ∃ u v n', WellFormed sizes u ∧ u.view = s.view.pop h ∧ u.view.Entered h ∧
      runDeeds sizes h (p.turn (h, u)).1 u = .ok v ∧ p.visits sizes n s =
        (h, u) :: p.visits sizes n' v ∧ tickSteps (p.steps sizes) n' v = .ok t := by
  have busy : s.actQueueLen ≠ 0 := by
    rw [← wf.card_scheduledSet]
    exact Finset.card_ne_zero_of_mem woken
  cases n with
  | zero =>
      rw [tickSteps, if_neg busy] at done
      cases done
  | succ n =>
      obtain ⟨a, u, pop, mem, wfu, shown, least, round⟩ := tickSteps_pop wf busy
      have first : a = h := by
        by_contra differ
        have inTree := (ok.scheduled a mem).1
        have before := place.front a inTree differ
        have some' : s.view.lowest h < s.view.beyond h :=
          Nat.lt_add_of_pos_right (Nat.pow_pos (by decide))
        have := least h woken
        rw [View.lowest_of_mem inTree] at before
        rw [View.lowest_of_mem place.live] at some'
        omega
      subst first
      obtain ⟨entered, enough, -, -⟩ := pop_entered ok mem least shown
      rw [round] at done
      obtain ⟨v, stepped, rest⟩ := bind_eq_ok.mp done
      have log := p.visits_pop sizes n busy pop
      rw [stepped] at log
      obtain ⟨d, deep⟩ := Nat.exists_eq_succ_of_ne_zero (Nat.ne_zero_of_lt enough)
      change p.call sizes u.acts.dom.card (u.acts.val a).step a u = .ok v at stepped
      rw [deep] at stepped log
      cases hr : runDeeds sizes a (p.turn (a, u)).1 u with
      | error e =>
          rw [Routine.call_stops hr] at stepped
          cases stepped
      | ok w =>
          rw [Routine.call_waits hr (waits u shown)] at stepped
          cases stepped
          rw [Routine.chain_waits hr (waits u shown)] at log
          exact ⟨u, v, n, wfu, shown, entered, hr, log, rest⟩

/-- The updates wake the handler exactly if its variable is due. -/
theorem Listens.mem_heard {V : View} (ear : Listens f x trig h V) (recorded : V.Recorded) :
    h ∈ V.heard ↔ x ∈ V.due := by
  rw [View.heard, Finset.mem_biUnion]
  constructor
  · rintro ⟨y, due, hears⟩
    obtain ⟨-, ⟨t, listed, owner⟩, -⟩ := View.mem_listeners.mp hears
    exact ear.only y (Finset.mem_of_mem_filter y due) t listed owner ▸ due
  · intro due
    have live := (View.mem_processes.mp ear.place.live).2
    obtain ⟨r, hr⟩ := Option.isSome_iff_exists.mp ((recorded h).mp live)
    exact ⟨x, due, View.mem_listeners.mpr ⟨live, ⟨trig, ear.listed, ear.mine⟩, r, hr, rfl⟩⟩

theorem mem_due {next : Nat} : x ∈ (s.view.setNow next).due ↔
    ∃ v, s.sv? x = some v ∧ v.laterTime = next ∧ v.laterTime ≠ ssmNever := by
  rw [View.due, Finset.mem_filter]
  constructor
  · rintro ⟨-, v, hv, time, some'⟩
    obtain ⟨w, hw, rfl⟩ := State.seen?_eq_some.mp hv
    exact ⟨w, hw, time, some'⟩
  · rintro ⟨v, hv, time, some'⟩
    exact ⟨mem_view_vars.mpr ⟨v, hv⟩, v.seen, view_var_of_sv? hv, time, some'⟩

theorem dueChar_of_due {v : Sv} (hv : s.sv? x = some v) (time : v.laterTime = tickTime s)
    (some' : v.laterTime ≠ ssmNever) : dueChar x s = stdoutChar v.laterValue := by
  rw [dueChar, hv, Option.map_some, Option.getD_some, if_pos ⟨time, some'⟩]

theorem dueChar_of_not_due (not : x ∉ (s.view.setNow (tickTime s)).due) : dueChar x s = [] := by
  rw [dueChar]
  cases hv : s.sv? x with
  | none => rfl
  | some v =>
      rw [Option.map_some, Option.getD_some]
      exact if_neg fun due => not (mem_due.mpr ⟨v, hv, due⟩)

/-- A state between two ticks, with the handler at its place. -/
structure Posted (sizes : QueueSizes) (f : Nat) (x : Addr) (trig : TriggerPtr) (h : ActPtr)
    (s : State) : Prop where
  wellFormed : WellFormed sizes s
  disciplined : s.view.Disciplined
  ahead : s.view.Ahead
  moment : (Listens f x trig h s.view ∧ s.view.scheduledSet = ∅) ∨
    (Unstarted f x h s.view ∧ h ∈ s.view.scheduledSet ∧
      ∀ v, s.sv? x = some v → v.laterTime = ssmNever)

/-- A called handler that listens writes what the variable holds. -/
theorem Listens.writes (ear : Listens f x trig h s.view) {v : Sv} (hv : s.sv? x = some v) :
    written x h (h, s) = stdoutChar v.value := by
  have pc : (s.acts.val h).pc = 1 :=
    (View.field_of_record Act.pc (Table.get?_of_mem ear.place.live_acts)).symm.trans ear.pc
  rw [written, if_pos ⟨rfl, pc⟩, hv, Option.map_some, Option.getD_some]

theorem Unstarted.writes (un : Unstarted f x h s.view) : written x h (h, s) = [] := by
  have pc : (s.acts.val h).pc = 0 :=
    (View.field_of_record Act.pc (Table.get?_of_mem un.place.live_acts)).symm.trans un.pc
  exact if_neg fun mine => by simp [pc] at mine

/-- The second loop writes what has been delivered to the variable, if the
updates have woken the handler. -/
theorem Listens.visits_write {n : Nat} (handler : p f = stdoutHandler x trig)
    (ear : Listens f x trig h s.view) (wf : WellFormed sizes s) (ok : s.view.Disciplined)
    (ahead : s.view.Ahead) (obeys : ∀ c ∈ p.visits sizes n s, p.Obeys c)
    (done : tickSteps (p.steps sizes) n s = .ok t) {v : Sv} (hv : s.view.var x = some v) :
    (p.visits sizes n s).flatMap (written x h) =
      if h ∈ s.view.scheduledSet then stdoutChar v.value else [] := by
  split
  · rename_i woken
    have rests : ∀ u : State, u.view = s.view.pop h → p.turn (h, u) = ([], .waits) :=
      fun u shown => Listens.turn handler (shown ▸ ear.pop h)
    obtain ⟨u, w, m, wfu, shown, entered, deeds, log, rest⟩ := handler_first wf ok ear.place woken
      (fun u shown => by rw [rests u shown]) done
    rw [rests u shown] at deeds
    cases deeds
    have earU : Listens f x trig h u.view := shown ▸ ear.pop h
    have aheadU : u.view.Ahead := by
      rw [shown]
      exact ahead
    have var : u.view.var x = some v := by
      rw [shown]
      exact hv
    obtain ⟨w, hw, rfl⟩ := State.seen?_eq_some.mp var
    rw [log] at obeys ⊢
    rw [List.flatMap_cons, earU.writes hw, not_called_writes, List.append_nil]
    · rfl
    · exact not_called wfu aheadU entered.ok (entered.running.settle entered.childless)
        fun c hc => obeys c (List.mem_cons_of_mem _ hc)
  · rename_i idle
    exact not_called_writes (not_called wf ahead ok (ear.place.passed ok idle) obeys)

/-- The first time the handler only begins to listen. -/
theorem Unstarted.visits_write {n : Nat} (handler : p f = stdoutHandler x trig)
    (un : Unstarted f x h s.view) (wf : WellFormed sizes s) (ok : s.view.Disciplined)
    (ahead : s.view.Ahead) (woken : h ∈ s.view.scheduledSet)
    (obeys : ∀ c ∈ p.visits sizes n s, p.Obeys c) (done : tickSteps (p.steps sizes) n s = .ok t) :
    (p.visits sizes n s).flatMap (written x h) = [] ∧ Listens f x trig h t.view := by
  have first : ∀ u : State, u.view = s.view.pop h → Unstarted f x h u.view :=
    fun u shown => shown ▸ un.pop h
  obtain ⟨u, w, m, wfu, shown, entered, deeds, log, rest⟩ := handler_first wf ok un.place woken
    (fun u shown => by rw [(first u shown).turn handler]) done
  rw [log] at obeys ⊢
  have mine := obeys (h, u) List.mem_cons_self
  have later := fun c hc => obeys c (List.mem_cons_of_mem _ hc)
  have ear := (first u shown).starts handler wfu entered mine deeds
  obtain ⟨notTop, -⟩ := View.mem_processes.mp un.place.live
  rw [Routine.Obeys, if_neg notTop] at mine
  obtain ⟨wfw, stays, -⟩ := runDeeds_keeps _ wfu entered.running mine deeds
  have aheadW : w.view.Ahead := stays.ahead (by rw [shown]; exact ahead)
  refine ⟨?_, ((upheld_listens handler).visits m wfw aheadW stays.running.ok ear later rest).1⟩
  rw [List.flatMap_cons, (first u shown).writes, not_called_writes, List.append_nil]
  exact not_called wfw aheadW stays.running.ok (stays.running.settle ear.place.childless) later

/-- A tick writes the character that becomes due in it, or nothing. -/
theorem Posted.tick {n : Nat} (handler : p f = stdoutHandler x trig)
    (posted : Posted sizes f x trig h s) (obeys : ∀ c ∈ p.tickVisits sizes n s, p.Obeys c)
    (done : ssmTick sizes (p.steps sizes) n s = .ok t) :
    (p.tickVisits sizes n s).flatMap (written x h) = dueChar x s ∧ Posted sizes f x trig h t := by
  have ready := posted.ahead.ready
  have ends := (ssmTick_spec n posted.wellFormed ready posted.disciplined obeys).2
  obtain ⟨wft, okt, aheadT, idle⟩ : WellFormed sizes t ∧ t.view.Disciplined ∧ t.view.Ahead ∧
      t.view.scheduledSet = ∅ := by
    rcases ends with ⟨e, u, fails, -⟩ | ⟨u, fails, -⟩ | ⟨u, same, wfu, oku, aheadU, idle, -⟩
    · cases fails.symm.trans done
    · cases fails.symm.trans done
    · cases same.symm.trans done
      exact ⟨wfu, oku, aheadU, idle⟩
  rw [ssmTick_eq] at done
  rcases tickUpdates_ready posted.wellFormed ready with ⟨u, full⟩ | ⟨u, start, wfu, shown, aheadU⟩
  · rw [full] at done
    cases done
  · have log : p.tickVisits sizes n s = p.visits sizes n u := by rw [Routine.tickVisits, start]
    have okU : u.view.Disciplined := by
      rw [shown]
      exact View.Disciplined.updates (posted.disciplined.congr (View.SameTree.of_records rfl rfl)
        posted.disciplined.scheduled posted.disciplined.listening)
    rw [start, ok_bind] at done
    rw [log] at obeys ⊢
    have recorded : (s.view.setNow (tickTime s)).Recorded := posted.disciplined.forest.recorded
    have woken : u.view.scheduledSet =
        s.view.scheduledSet ∪ (s.view.setNow (tickTime s)).heard := by
      rw [shown]
      exact scheduledSet_updates _ recorded
    rcases posted.moment with ⟨ear, none⟩ | ⟨un, first, quiet⟩
    · have earU : Listens f x trig h u.view := shown ▸ ear.updates _
      have hears : h ∈ u.view.scheduledSet ↔ x ∈ (s.view.setNow (tickTime s)).due := by
        have earN : Listens f x trig h (s.view.setNow (tickTime s)) :=
          ear.same (.of_records rfl rfl) rfl rfl rfl rfl rfl
        rw [woken, none, Finset.empty_union]
        exact earN.mem_heard recorded
      refine ⟨?_, wft, okt, aheadT, Or.inl ⟨?_, idle⟩⟩
      · obtain ⟨v, hv⟩ := mem_view_vars.mp ear.var
        have here := view_var_of_sv? hv
        by_cases due : x ∈ (s.view.setNow (tickTime s)).due
        · have var : u.view.var x = some (View.deliver (tickTime s) v.seen) := by
            rw [shown]
            change (if x ∈ (s.view.setNow (tickTime s)).due then
              (s.view.var x).map (View.deliver (tickTime s)) else _) = _
            rw [if_pos due, here]
            rfl
          rw [earU.visits_write handler wfu okU aheadU obeys done var, if_pos (hears.mpr due)]
          obtain ⟨w, hw, time, some'⟩ := mem_due.mp due
          rw [dueChar_of_due hw time some', Option.some.inj (hw.symm.trans hv)]
          rfl
        · obtain ⟨w, hw⟩ := mem_view_vars.mp earU.var
          rw [earU.visits_write handler wfu okU aheadU obeys done (view_var_of_sv? hw),
            if_neg fun h => due (hears.mp h), dueChar_of_not_due due]
      · exact ((upheld_listens handler).visits n wfu aheadU okU earU obeys done).1
    · have unU : Unstarted f x h u.view := shown ▸ un.updates _
      obtain ⟨silent, ear⟩ := unU.visits_write handler wfu okU aheadU
        (woken ▸ Finset.mem_union_left _ first) obeys done
      refine ⟨?_, wft, okt, aheadT, Or.inl ⟨ear, idle⟩⟩
      rw [silent, dueChar_of_not_due]
      intro due
      obtain ⟨v, hv, -, some'⟩ := mem_due.mp due
      exact some' (quiet v hv)

/-- A packet for another variable. -/
theorem Posted.input {y : Addr} {when : Nat} {val : Value} (posted : Posted sizes f x trig h s)
    (other : y ≠ x) (admissible : (Action.later y when val).Admissible s.view)
    (later : s.now < when) (done : ssmSvLaterUnsafe sizes y when val s = .ok t) :
    Posted sizes f x trig h t := by
  have spec := Action.exec_computes posted.wellFormed (.later y when val) admissible
  rw [Action.exec, done] at spec
  cases acts : s.view.act sizes (.later y when val) with
  | error e =>
      rw [acts] at spec
      obtain ⟨u, fails⟩ := spec
      cases fails
  | ok W =>
      rw [acts] at spec
      obtain ⟨u, same, wf, shown⟩ := spec
      cases same
      rw [View.act_eq_ok acts] at shown
      have tree : s.view.SameTree t.view := shown ▸ View.SameTree.action s.view (.later y when val)
      have ear : Listens f x trig h s.view → Listens f x trig h t.view := fun ear => by
        rw [shown]
        exact ear.same (.action _ _) rfl rfl rfl rfl rfl
      have un : Unstarted f x h s.view → Unstarted f x h t.view := fun un => by
        rw [shown]
        exact un.congr (.action _ _) rfl rfl rfl rfl rfl
      have scheduled : t.view.scheduledSet = s.view.scheduledSet := by
        rw [shown]
        rfl
      refine ⟨wf, posted.disciplined.congr tree (fun a ha => ?_) ?_, ?_, ?_⟩
      · exact posted.disciplined.scheduled a (scheduled ▸ ha)
      · rw [shown]
        exact posted.disciplined.listening
      · rw [shown]
        exact posted.ahead.mapVar fun _ _ _ => later
      · rw [scheduled]
        refine posted.moment.imp (And.imp_left ear) fun before =>
          ⟨un before.1, before.2.1, fun v hv => ?_⟩
        have var : t.view.var x = s.view.var x := by
          rw [shown]
          exact if_neg other.symm
        obtain ⟨w, hw, seen⟩ := State.seen?_eq_some.mp (var.symm.trans (view_var_of_sv? hv))
        have time : w.seen.laterTime = v.seen.laterTime := congrArg Sv.laterTime seen
        exact time.symm.trans (before.2.2 w hw)

end Tick

/-- The two records that `main` enters below `ssm_top_parent`. -/
def posixLaunch (sizes : QueueSizes) (h f main g : Nat) (x y : Addr) (s : State) : Res := do
  let s ← launch sizes h f 1 0 [.heap x] s
  launch sizes main g 1 1 [.heap y, .heap x] s

/-- What there is when the two records are entered: no other, and `ssm_stdout`
without an event. -/
structure StdioStart (sizes : QueueSizes) (p : Routine) (f : Nat) (x y : Addr) (trig : TriggerPtr)
    (h : ActPtr) (s : State) : Prop where
  start : ∃ b main g, WellFormed sizes b ∧ b.view.Disciplined ∧ b.view.Ahead ∧
    b.view.processes = ∅ ∧ (∃ v, b.sv? x = some v ∧ v.laterTime = ssmNever) ∧
    h ∉ b.acts.dom ∧ main ∉ b.acts.dom ∧ main ≠ h ∧ posixLaunch sizes h f main g x y b = .ok s
  handler : p f = stdoutHandler x trig

/-- Runs of ticks, with packets for other variables between them. The log holds
each tick with the state it begins in. -/
inductive StdioRun (sizes : QueueSizes) (p : Routine) (n : Nat) (x : Addr) (s₀ : State) :
    List (State × List (ActPtr × State)) → State → Prop
  | start : StdioRun sizes p n x s₀ [] s₀
  | input {log : List (State × List (ActPtr × State))} {s t : State} {y : Addr} {when : Nat}
      {val : Value} (before : StdioRun sizes p n x s₀ log s) (other : y ≠ x)
      (admissible : (Action.later y when val).Admissible s.view) (later : s.now < when)
      (done : ssmSvLaterUnsafe sizes y when val s = .ok t) : StdioRun sizes p n x s₀ log t
  | tick {log : List (State × List (ActPtr × State))} {s t : State}
      (before : StdioRun sizes p n x s₀ log s) (obeys : ∀ c ∈ p.tickVisits sizes n s, p.Obeys c)
      (done : ssmTick sizes (p.steps sizes) n s = .ok t) :
      StdioRun sizes p n x s₀ (log ++ [(s, p.tickVisits sizes n s)]) t

section Run
variable {sizes : SafeSizes} {p : Routine} {f : Nat} {x y : Addr} {trig : TriggerPtr} {h : ActPtr}
variable {s₀ s : State} {n : Nat} {log : List (State × List (ActPtr × State))}

theorem deaf_of_fresh {V : View} (ok : V.Disciplined) {a : ActPtr} (gone : a ∉ V.processes) :
    Deed.Deaf V a := fun z hz t ht owner => gone (ok.listening z hz t ht a owner).1

theorem part_top (V : View) (k i : Nat) :
    V.part ssmTopParent k i = i * 2 ^ (ssmRootDepth - k) := by
  rw [View.part, View.lowest, if_pos rfl, View.depth, if_pos rfl]
  exact Nat.zero_add _

section Fork
variable {V : View} {a child step k i : Nat} {frame : List Value}

theorem fork_beyond (notTop : child ≠ ssmTopParent) :
    ((Deed.fork child step k i frame).apply a V).beyond child =
      V.part a k i + 2 ^ (V.depth a - k) := by
  rw [Deed.apply, (View.SameTree.wake _ _).beyond, View.enter_beyond notTop, if_pos rfl]

theorem fork_depth (notTop : child ≠ ssmTopParent) :
    ((Deed.fork child step k i frame).apply a V).depth child = V.depth a - k := by
  rw [Deed.apply, (View.SameTree.wake _ _).depths, View.enter_depth notTop, if_pos rfl]

theorem fork_field {g : Act → Nat} (scheduled : ∀ r b, g { r with scheduled := b } = g r)
    (children : ∀ r n, g { r with children := n } = g r) :
    ((Deed.fork child step k i frame).apply a V).field g child =
      g ⟨step, a, 0, 0, V.part a k i, V.depth a - k, false, frame⟩ := by
  rw [Deed.apply, View.field_wake _ _ scheduled, View.enter_field V children, if_pos rfl]

end Fork

theorem StdioStart.posted (start : StdioStart sizes p f x y trig h s) :
    Posted sizes f x trig h s := by
  obtain ⟨b, main, g, wf, ok, ahead, empty, ⟨v, hv, never⟩, freshH, freshMain, differ, launched⟩ :=
    start.start
  obtain ⟨u, first, second⟩ := bind_eq_ok.mp launched
  have noChild (q : ActPtr) : b.view.childrenOf q = ∅ := by
    rw [View.childrenOf, empty, Finset.filter_empty]
  have deaf (a : ActPtr) : Deed.Deaf b.view a :=
    deaf_of_fresh ok (empty ▸ Finset.notMem_empty a)
  have obeys₁ : (Deed.fork h f 1 0 [.heap x]).Obeys ssmTopParent b.view := by
    refine ⟨freshH, by rw [noChild]; decide, deaf _, by decide, fun c hc => ?_⟩
    rw [noChild] at hc
    cases hc
  obtain ⟨wfu, fine₁, shown₁⟩ := launch_forks wf ok obeys₁ (by decide) first
  obtain ⟨-, okU, aheadU⟩ := launch_refines wf ok obeys₁ (by decide) first
  have forked₁ := ok.forest.forked ok.forest.top obeys₁ fine₁
  rw [← shown₁] at forked₁
  have notTop : h ≠ ssmTopParent := forked₁.other
  have children : u.view.childrenOf ssmTopParent = {h} := by
    rw [forked₁.childrenOf, if_pos rfl, noChild]
    rfl
  have rootDepth : b.view.depth ssmTopParent = ssmRootDepth := if_pos rfl
  have obeys₂ : (Deed.fork main g 1 1 [.heap y, .heap x]).Obeys ssmTopParent u.view := by
    refine ⟨?_, ?_, deaf_of_fresh okU fun top => (View.mem_processes.mp top).1 rfl, by decide,
      fun c hc => ?_⟩
    · rw [shown₁]
      exact fun mem => (Finset.mem_insert.mp mem).elim differ freshMain
    · rw [children, Finset.card_singleton]
      decide
    · rw [children] at hc
      obtain rfl := Finset.mem_singleton.mp hc
      refine ⟨?_, ?_⟩
      · rw [shown₁, fork_depth notTop]
        rfl
      · rw [forked₁.lowest, if_pos rfl, part_top, part_top]
        decide
  obtain ⟨wfs, fine₂, shown₂⟩ := launch_forks wfu okU obeys₂ (by decide) second
  obtain ⟨-, okS, aheadS⟩ := launch_refines wfu okU obeys₂ (by decide) second
  have forked₂ := okU.forest.forked okU.forest.top obeys₂ fine₂
  rw [← shown₂] at forked₂
  have quiet : s.view.var x = some v.seen := by
    rw [shown₂]
    change u.view.var x = _
    rw [shown₁]
    exact view_var_of_sv? hv
  refine ⟨wfs, okS, aheadS (aheadU ahead), Or.inr ⟨⟨⟨?_, ?_, fun c hc other => ?_⟩, ?_, ?_, ?_, ?_⟩,
    ?_, fun w hw => ?_⟩⟩
  · rw [forked₂.processes, forked₁.processes]
    exact Finset.mem_insert_of_mem (Finset.mem_insert_self _ _)
  · rw [forked₂.childrenOf, if_neg notTop, forked₁.childrenOf, if_neg notTop, noChild]
  · have new : c = main := by
      rw [forked₂.processes, forked₁.processes, empty] at hc
      rcases Finset.mem_insert.mp hc with rfl | hc
      · rfl
      · exact absurd (Finset.mem_singleton.mp hc) other
    subst new
    rw [forked₂.beyond h differ.symm, shown₁, fork_beyond notTop, forked₂.lowest, if_pos rfl,
      part_top, part_top, rootDepth]
    decide
  · rw [shown₂, field_fork differ.symm (fun _ _ => rfl) fun _ _ => rfl, shown₁,
      fork_field (fun _ _ => rfl) fun _ _ => rfl]
  · rw [shown₂, field_fork differ.symm (fun _ _ => rfl) fun _ _ => rfl, shown₁,
      fork_field (fun _ _ => rfl) fun _ _ => rfl]
  · rw [shown₂]
    change x ∈ u.view.vars
    rw [shown₁]
    exact mem_view_vars.mpr ⟨v, hv⟩
  · rw [shown₂]
    change Deed.Deaf u.view h
    rw [shown₁]
    exact deaf h
  · rw [forked₂.scheduled, forked₁.scheduled]
    exact Finset.mem_insert_of_mem (Finset.mem_insert_self _ _)
  · have seen := Option.some.inj ((view_var_of_sv? hw).symm.trans quiet)
    have time : w.seen.laterTime = v.seen.laterTime := congrArg Sv.laterTime seen
    exact time.trans never

/-- What is printed on the POSIX platform: in every tick of every run the
character that `ssm_stdout` takes by a delayed assignment, once, and nothing
else, whatever the program assigns to the variable at once. -/
theorem stdout_exact (start : StdioStart sizes p f x y trig h s₀)
    (run : StdioRun sizes p n x s₀ log s) :
    (∀ k ∈ log, k.2.flatMap (written x h) = dueChar x k.1) ∧
      log.flatMap (fun k => k.2.flatMap (written x h)) = log.flatMap fun k => dueChar x k.1 := by
  have each : Posted sizes f x trig h s ∧
      ∀ k ∈ log, k.2.flatMap (written x h) = dueChar x k.1 := by
    induction run with
    | start => exact ⟨start.posted, fun k hk => absurd hk List.not_mem_nil⟩
    | input before other admissible later done ih =>
        exact ⟨ih.1.input other admissible later done, ih.2⟩
    | tick before obeys done ih =>
        obtain ⟨prints, posted⟩ := ih.1.tick start.handler obeys done
        refine ⟨posted, fun k hk => ?_⟩
        rcases List.mem_append.mp hk with old | new
        · exact ih.2 k old
        · obtain rfl := List.mem_singleton.mp new
          exact prints
  exact ⟨each.2, List.flatMap_congr each.2⟩

end Run

/-- The main record assigns one character at once and another for later. -/
def greets : Routine := fun f =>
  if f = 1 then stdoutHandler 1 20
  else fun act V => ([.action (.assign 1 (V.prio act) (.packed 65)),
    .action (.later 1 (V.now + 5) (.packed 72))], .waits)

theorem stdout_exact_greets : ∃ s₀ log s,
    StdioRun defaultSafeSizes greets 8 1 s₀ log s ∧
    log.flatMap (fun k => k.2.flatMap (written 1 11)) = [72] ∧
    ∀ k ∈ log, k.2.flatMap (written 1 11) = dueChar 1 k.1 := by
  have plays : (posixLaunch defaultSafeSizes 11 1 10 2 1 2 forkVars).toOption.any (fun s =>
      (ssmTick defaultSafeSizes (greets.steps defaultSafeSizes) 8 s).toOption.any fun t =>
        (ssmTick defaultSafeSizes (greets.steps defaultSafeSizes) 8 t).toOption.isSome &&
        decide (∀ c ∈ greets.tickVisits defaultSafeSizes 8 s, greets.Obeys c) &&
        decide (∀ c ∈ greets.tickVisits defaultSafeSizes 8 t, greets.Obeys c) &&
        ((greets.tickVisits defaultSafeSizes 8 s).flatMap (written 1 11) ++
          (greets.tickVisits defaultSafeSizes 8 t).flatMap (written 1 11) == [72])) = true := by
    decide +kernel
  obtain ⟨s, launched, ticks⟩ := (Option.any_eq_true _ _).mp plays
  obtain ⟨t, first, ticks⟩ := (Option.any_eq_true _ _).mp ticks
  simp only [Bool.and_eq_true, decide_eq_true_eq, beq_iff_eq] at ticks
  obtain ⟨⟨⟨more, obeys₁⟩, obeys₂⟩, prints⟩ := ticks
  obtain ⟨u, second⟩ := Option.isSome_iff_exists.mp more
  have start : StdioStart defaultSafeSizes greets 1 1 2 20 11 s :=
    ⟨⟨forkVars, 10, 2, State.idle_wellFormed _ _ _ _ _ _, forkVars_disciplined,
      State.idle_ahead _ _ _ _ _, by decide, ⟨_, rfl, by decide⟩, by decide, by decide, by decide,
      ok_of_toOption launched⟩, rfl⟩
  have run : StdioRun defaultSafeSizes greets 8 1 s _ u :=
    (StdioRun.start.tick obeys₁ (ok_of_toOption first)).tick obeys₂ (ok_of_toOption second)
  obtain ⟨each, -⟩ := stdout_exact start run
  refine ⟨s, _, u, run, ?_, each⟩
  simpa using prints

end SsmRuntime
