import SsmRuntime.EventPhase

/-!
What a step function does to the scheduler, as a list of actions on packed
values. Each action computes an action on the view; whether a queue is too full
for it can be read off the view as well.
-/
namespace SsmRuntime

inductive Action where
  | assign (var : Addr) (prio : Nat) (val : Value)
  | later (var : Addr) (when : Nat) (val : Value)
  | unschedule (var : Addr)
  | sensitize (var : Addr) (trig : TriggerPtr)
  | desensitize (trig : TriggerPtr)
  | store (act : ActPtr) (pc : Nat) (frame : List Value)

namespace Action

/-- The call made; `store` is the assignment of a step function to its own record. -/
def exec (sizes : QueueSizes) : Action → State → Res
  | assign var prio val, s => ssmSvAssignUnsafe sizes var prio val s
  | later var when val, s => ssmSvLaterUnsafe sizes var when val s
  | unschedule var, s => ssmUnschedule var s
  | sensitize var trig, s => ssmSvSensitize var trig s
  | desensitize trig, s => ssmSvDesensitize trig s
  | store act pc frame, s => do
      let a ← s.loadAct act
      .ok (s.setAct act { a with pc := pc, frame := frame })

def apply (V : View) : Action → View
  | assign x prio val => V.assign x prio val
  | later x when val => V.later x when val
  | unschedule x => V.unschedule x
  | sensitize x t => V.sensitize x t
  | desensitize t => V.desensitize t
  | store a pc frame => V.mapRecord a fun r => { r with pc := pc, frame := frame }

/-- What its callers promise of a call: live arguments, packed values, times
that have not passed, and triggers that are in one list at most. -/
def Admissible (V : View) : Action → Prop
  | assign x _ val => (V.var x).isSome ∧ ssmOnHeap val = false
  | later x when val => (V.var x).isSome ∧ ssmOnHeap val = false ∧ V.now ≤ when ∧ when < ssmNever
  | unschedule x => (V.var x).isSome
  | sensitize x t => (V.var x).isSome ∧ (∃ a ∈ V.records, V.trigger t = some a) ∧
      ∀ y ∈ V.vars, t ∉ V.triggers y
  | desensitize t => ∃ y ∈ V.vars, t ∈ V.triggers y
  | store a _ _ => a ∈ V.records

instance (V : View) : (c : Action) → Decidable (c.Admissible V)
  | assign _ _ _ => inferInstanceAs (Decidable (_ ∧ _))
  | later _ _ _ => inferInstanceAs (Decidable (_ ∧ _ ∧ _ ∧ _))
  | unschedule x => inferInstanceAs (Decidable ((V.var x).isSome = true))
  | sensitize _ _ => inferInstanceAs (Decidable (_ ∧ _ ∧ _))
  | desensitize t => inferInstanceAs (Decidable (∃ y ∈ V.vars, t ∈ V.triggers y))
  | store a _ _ => inferInstanceAs (Decidable (a ∈ V.records))

/-- A delayed assignment lies strictly ahead. -/
def Timely (V : View) : Action → Prop
  | later _ when _ => V.now < when
  | _ => True

instance (V : View) : (c : Action) → Decidable (c.Timely V)
  | later _ when _ => inferInstanceAs (Decidable (V.now < when))
  | assign _ _ _ | unschedule _ | sensitize _ _ | desensitize _ | store _ _ _ =>
      inferInstanceAs (Decidable True)

/-- Both queues can take what the call adds. -/
def Room (sizes : QueueSizes) (V : View) : Action → Prop
  | assign x prio _ => (V.scheduledSet ∪ V.listeners x fun p => prio < p).card ≤ sizes.act
  | later x _ _ => V.Pending x ∨ V.pendingSet.card < sizes.event
  | _ => True

instance (sizes : QueueSizes) (V : View) : (c : Action) → Decidable (c.Room sizes V)
  | assign _ _ _ => inferInstanceAs (Decidable (_ ≤ _))
  | later _ _ _ => inferInstanceAs (Decidable (_ ∨ _))
  | unschedule _ | sensitize _ _ | desensitize _ | store _ _ _ =>
      inferInstanceAs (Decidable True)

/-- What a call throws that finds its queue full. -/
def exhausts : Action → SsmError
  | later _ _ _ => .exhaustedEventQueue
  | _ => .exhaustedActQueue

end Action

/-- A result of the code is what the view predicts: a well-formed state that
shows it, or a throw of the same error. -/
def Computes (sizes : QueueSizes) (r : Res) : Except SsmError View → Prop
  | .ok V => ∃ t, r = .ok t ∧ WellFormed sizes t ∧ t.view = V
  | .error e => ∃ u, r = .error ⟨.thrown e, u⟩

theorem Computes.bind {sizes : QueueSizes} {r : Res} {m : Except SsmError View}
    {f : State → Res} {g : View → Except SsmError View} (first : Computes sizes r m)
    (next : ∀ t, WellFormed sizes t → m = .ok t.view → Computes sizes (f t) (g t.view)) :
    Computes sizes (r >>= f) (m >>= g) := by
  cases m with
  | ok V =>
      obtain ⟨t, rfl, wf, rfl⟩ := first
      exact next t wf rfl
  | error e =>
      obtain ⟨u, rfl⟩ := first
      exact ⟨u, rfl⟩

theorem Computes.of_ite {sizes : QueueSizes} {r : Res} {P : Prop} [Decidable P] {V : View}
    {e : SsmError} (yes : P → ∃ t, r = .ok t ∧ WellFormed sizes t ∧ t.view = V)
    (no : ¬ P → ∃ u, r = .error ⟨.thrown e, u⟩) :
    Computes sizes r (if P then .ok V else .error e) := by
  split
  · rename_i h
    exact yes h
  · rename_i h
    exact no h

section View
variable {s : State}

theorem view_var_isSome {x : Addr} : (s.view.var x).isSome ↔ ∃ v, s.sv? x = some v := by
  simp [State.view, State.seen?, Option.isSome_iff_exists]

theorem mem_view_vars {x : Addr} : x ∈ s.view.vars ↔ ∃ v, s.sv? x = some v := by
  rw [view_live s x, view_var_isSome]

theorem view_trigger {t : TriggerPtr} {a : ActPtr} :
    s.view.trigger t = some a ↔ t ∈ s.triggers.dom ∧ s.actOf t = a := by
  simp only [State.view, Option.map_eq_some_iff, Table.get?_eq_some]
  constructor
  · rintro ⟨tr, ⟨live, rfl⟩, rfl⟩
    exact ⟨live, rfl⟩
  · rintro ⟨live, rfl⟩
    exact ⟨_, ⟨live, rfl⟩, rfl⟩

theorem mem_view_triggers {x : Addr} {v : Sv} {t : TriggerPtr} (hv : s.sv? x = some v) :
    t ∈ s.view.triggers x ↔ t ∈ triggersOf s x := by
  rw [view_triggers hv, List.mem_toFinset]

theorem view_pending_iff {x : Addr} {v : Sv} (hv : s.sv? x = some v) :
    s.view.Pending x ↔ v.laterTime ≠ ssmNever := by
  rw [view_pending]
  constructor
  · rintro ⟨u, hu, hne⟩
    rw [hv] at hu
    rwa [Option.some.inj hu]
  · exact fun hne => ⟨v, hv, hne⟩

end View

/-- One action on the view, with the error where a queue is too full for it. -/
def View.act (sizes : QueueSizes) (V : View) (c : Action) : Except SsmError View :=
  if c.Room sizes V then .ok (c.apply V) else .error c.exhausts

theorem Action.exec_computes {sizes : SafeSizes} {s : State} (wf : WellFormed sizes s)
    (c : Action) (ok : c.Admissible s.view) :
    Computes sizes (c.exec sizes s) (s.view.act sizes c) := by
  cases c with
  | assign x prio val =>
      obtain ⟨live, packed⟩ := ok
      obtain ⟨v, hv⟩ := view_var_isSome.mp live
      have spec := assign_refines prio wf hv packed
      refine .of_ite (fun room => ?_) fun full => ?_
      · rwa [if_pos (show _ ≤ _ from room)] at spec
      · rwa [if_neg (show ¬ _ ≤ _ from full)] at spec
  | later x when val =>
      obtain ⟨live, packed, early, soon⟩ := ok
      obtain ⟨v, hv⟩ := view_var_isSome.mp live
      have spec := later_refines wf hv early (Nat.ne_of_lt soon) packed
      have full : v.laterTime = ssmNever ∧ sizes.event ≤ s.eventQueueLen ↔
          ¬ Action.Room sizes s.view (.later x when val) := by
        rw [Action.Room, view_pending_iff hv, wf.card_pending, not_or, not_not, Nat.not_lt]
      refine .of_ite (fun room => ?_) fun none => ?_
      · rwa [if_neg fun h => full.mp h room] at spec
      · rwa [if_pos (full.mpr none)] at spec
  | unschedule x =>
      obtain ⟨v, hv⟩ := view_var_isSome.mp ok
      exact .of_ite (fun _ => unschedule_refines wf hv) fun h => absurd trivial h
  | sensitize x t =>
      obtain ⟨live, ⟨a, known, act⟩, idle⟩ := ok
      obtain ⟨v, hv⟩ := view_var_isSome.mp live
      obtain ⟨trig, rfl⟩ := view_trigger.mp act
      refine .of_ite (fun _ => ?_) fun h => absurd trivial h
      exact sensitize_refines wf hv trig known fun y w hw mem =>
        idle y (mem_view_vars.mpr ⟨w, hw⟩) ((mem_view_triggers hw).mpr mem)
  | desensitize t =>
      obtain ⟨x, live, listed⟩ := ok
      obtain ⟨v, hv⟩ := mem_view_vars.mp live
      exact .of_ite (fun _ => desensitize_refines wf hv ((mem_view_triggers hv).mp listed))
        fun h => absurd trivial h
  | store a pc frame =>
      refine .of_ite (fun _ => ?_) fun h => absurd trivial h
      have known : a ∈ s.acts.dom := ok
      obtain ⟨wf', shown⟩ :=
        wf.setAct (r := { s.acts.val a with pc := pc, frame := frame }) known rfl rfl
      refine ⟨_, ?_, wf', shown.trans ?_⟩
      · rw [Action.exec, State.loadAct_of_mem known, ok_bind]
      · refine View.ext' rfl rfl (fun _ => rfl) rfl (fun b => ?_) (fun _ => rfl) fun _ => rfl
        simp only [Action.apply, View.mapRecord, State.view]
        by_cases hb : b = a
        · subst hb
          simp [Table.get?, known]
        · simp [hb]

def runActions (sizes : QueueSizes) : List Action → State → Res
  | [], s => .ok s
  | c :: cs, s => do
      let s ← c.exec sizes s
      runActions sizes cs s

def View.acts (sizes : QueueSizes) : List Action → View → Except SsmError View
  | [], V => .ok V
  | c :: cs, V => do
      let V ← V.act sizes c
      View.acts sizes cs V

def applyAll : List Action → View → View
  | [], V => V
  | c :: cs, V => applyAll cs (c.apply V)

/-- Each action of a list has a property where its turn comes. -/
def InTurn (P : View → Action → Prop) : List Action → View → Prop
  | [], _ => True
  | c :: cs, V => P V c ∧ InTurn P cs (c.apply V)

instance InTurn.decide {P : View → Action → Prop} [∀ V c, Decidable (P V c)] :
    (cs : List Action) → (V : View) → Decidable (InTurn P cs V)
  | [], _ => inferInstanceAs (Decidable True)
  | c :: cs, V =>
      have := InTurn.decide (P := P) cs (c.apply V)
      inferInstanceAs (Decidable (P V c ∧ InTurn P cs (c.apply V)))

theorem InTurn.imp {P Q : View → Action → Prop} (h : ∀ V c, P V c → Q V c) {cs : List Action}
    {V : View} (all : InTurn P cs V) : InTurn Q cs V := by
  induction cs generalizing V with
  | nil => trivial
  | cons c cs ih => exact ⟨h V c all.1, ih all.2⟩

theorem View.act_eq_ok {sizes : QueueSizes} {V W : View} {c : Action}
    (h : V.act sizes c = .ok W) : W = c.apply V := by
  unfold View.act at h
  split at h
  · exact (Except.ok.inj h).symm
  · cases h

theorem View.acts_eq_ok {sizes : QueueSizes} {cs : List Action} {V W : View}
    (h : View.acts sizes cs V = .ok W) : W = applyAll cs V := by
  induction cs generalizing V with
  | nil => exact (Except.ok.inj h).symm
  | cons c cs ih =>
      obtain ⟨U, first, rest⟩ := bind_eq_ok.mp h
      rw [applyAll, ← View.act_eq_ok first]
      exact ih rest

theorem View.acts_error {sizes : QueueSizes} {cs : List Action} {V : View} {e : SsmError}
    (h : View.acts sizes cs V = .error e) : e = .exhaustedActQueue ∨ e = .exhaustedEventQueue := by
  induction cs generalizing V with
  | nil => cases h
  | cons c cs ih =>
      rw [View.acts, View.act] at h
      split at h
      · exact ih h
      · rw [error_bind] at h
        cases h
        cases c with
        | later => exact Or.inr rfl
        | assign | unschedule | sensitize | desensitize | store => exact Or.inl rfl

/-- A list of actions computes the same list on the view. -/
theorem runActions_computes {sizes : SafeSizes} {s : State} (wf : WellFormed sizes s)
    (cs : List Action) (ok : InTurn (fun V c => c.Admissible V) cs s.view) :
    Computes sizes (runActions sizes cs s) (View.acts sizes cs s.view) := by
  induction cs generalizing s with
  | nil => exact ⟨s, rfl, wf, rfl⟩
  | cons c cs ih =>
      refine (c.exec_computes wf ok.1).bind fun t wf' shown => ih wf' ?_
      rw [View.act_eq_ok shown]
      exact ok.2

theorem runActions_ok {sizes : SafeSizes} {s t : State} {cs : List Action}
    (wf : WellFormed sizes s) (ok : InTurn (fun V c => c.Admissible V) cs s.view)
    (run : runActions sizes cs s = .ok t) : WellFormed sizes t ∧ t.view = applyAll cs s.view := by
  have spec := runActions_computes wf cs ok
  cases acts : View.acts sizes cs s.view with
  | error e =>
      rw [acts] at spec
      obtain ⟨u, stop⟩ := spec
      rw [run] at stop
      cases stop
  | ok V =>
      rw [acts] at spec
      obtain ⟨u, done, wf', shown⟩ := spec
      obtain rfl : u = t := Except.ok.inj (done.symm.trans run)
      exact ⟨wf', shown.trans (View.acts_eq_ok acts)⟩

/-- A state before anything has happened: idle variables and records, and
triggers that are in no list. -/
def State.idle (vars : Finset Addr) (acts : Finset ActPtr) (act : ActPtr → Act)
    (trigs : Finset TriggerPtr) (owner : TriggerPtr → ActPtr) : State where
  objs := ⟨vars, fun _ => ⟨1, .sv blankSv⟩⟩
  acts := ⟨acts, fun a => { act a with scheduled := false }⟩
  triggers := ⟨trigs, fun t => ⟨none, .triggersOf 0, owner t⟩⟩
  eventQueue := fun _ => 0
  eventQueueLen := 0
  actQueue := fun _ => 0
  actQueueLen := 0
  now := 0
  numProcesses := 0

theorem State.idle_wellFormed (sizes : QueueSizes) (vars : Finset Addr) (acts : Finset ActPtr)
    (act : ActPtr → Act) (trigs : Finset TriggerPtr) (owner : TriggerPtr → ActPtr) :
    WellFormed sizes (State.idle vars acts act trigs owner) := by
  have blank : ∀ x v, (State.idle vars acts act trigs owner).sv? x = some v → v = blankSv :=
    fun x v hv => (Body.sv.inj (State.sv?_eq_some.mp hv).2).symm
  have unlisted : ∀ x, triggersOf (State.idle vars acts act trigs owner) x = [] := by
    intro x
    cases n : (State.idle vars acts act trigs owner).triggers.dom.card with
    | zero => rw [triggersOf, n]; rfl
    | succ n' => rw [triggersOf, n]; rfl
  refine ⟨⟨Nat.two_pow_pos 15, Multiset.nodup_zero, fun x => ?_⟩, fun i h2 hn => ?_, Nat.zero_le _,
    fun x v hv => ?_, ⟨Nat.zero_le _, Multiset.nodup_zero, fun a => ?_, fun i h2 hn => ?_⟩,
    ⟨fun x v hv => ?_, fun x v t hv mem => ?_⟩⟩
  · refine ⟨fun h => absurd h (Multiset.notMem_zero x), ?_⟩
    rintro ⟨v, hv, hne⟩
    exact absurd (by rw [blank x v hv]; rfl) hne
  · exact absurd (Nat.le_trans h2 hn) (Nat.not_succ_le_zero 1)
  · rw [blank x v hv]
    exact ⟨rfl, fun _ => rfl⟩
  · refine ⟨fun h => absurd h (Multiset.notMem_zero a), fun h => ?_⟩
    exact absurd h.2 Bool.false_ne_true
  · exact absurd (Nat.le_trans h2 hn) (Nat.not_succ_le_zero 1)
  · rw [unlisted, blank x v hv]
    exact .nil _
  · rw [unlisted] at mem
    exact absurd mem List.not_mem_nil

end SsmRuntime
