import SsmRuntime.Forks

/-!
Step functions that fork and leave. A call makes its deeds and then either waits
or leaves; a record that leaves last resumes its parent from inside the call. A
record waits for its triggers or for its children, not for both: while it has
children, it has no trigger in a list.
-/
namespace SsmRuntime
open Nesting

inductive Deed where
  | action (c : Action)
  | adopt (trig : TriggerPtr)
  | fork (child step k i : Nat) (frame : List Value)

inductive Ending where
  | waits
  | leaves
  deriving DecidableEq

/-- What each step function does, by what it sees. -/
abbrev Routine := Nat → ActPtr → View → List Deed × Ending

/-- `trig->act = act`, before the trigger is first put into a list. -/
def adoptTrigger (trig : TriggerPtr) (act : ActPtr) (s : State) : State :=
  { s with triggers := s.triggers.alloc trig { s.triggers.val trig with act := act } }

def View.adopt (V : View) (trig : TriggerPtr) (act : ActPtr) : View :=
  { V with trigger := Function.update V.trigger trig (some act) }

namespace Deed

/-- A fork throws where the priorities of the record cannot be split any more. -/
def exec (sizes : QueueSizes) (act : ActPtr) : Deed → State → Res
  | action c, s => c.exec sizes s
  | adopt trig, s => .ok (adoptTrigger trig act s)
  | fork child step k i frame, s => do
      let a ← s.loadAct act
      if a.depth < k then ssmThrow .exhaustedPriority s
      else do
        let s ← ssmEnterInt child step act (forkPriority a.priority a.depth k i) (a.depth - k)
          frame s
        ssmActivate sizes child s

def apply (act : ActPtr) (V : View) : Deed → View
  | action c => c.apply V
  | adopt trig => V.adopt trig act
  | fork child step k i frame =>
      (V.enter child step act (V.part act k i) (V.depth act - k) frame).wake {child}

/-- What a deed throws. -/
def fault (sizes : QueueSizes) (act : ActPtr) (V : View) : Deed → Option SsmError
  | action c => if c.Room sizes V then none else some c.exhausts
  | adopt _ => none
  | fork child _ k _ _ =>
      if V.depth act < k then some .exhaustedPriority
      else if (insert child V.scheduledSet).card ≤ sizes.act then none
      else some .exhaustedActQueue

def forks : Deed → Bool
  | fork _ _ _ _ _ => true
  | _ => false

/-- The triggers of a record are in no list. -/
def Deaf (V : View) (act : ActPtr) : Prop := ∀ x ∈ V.vars, ∀ t ∈ V.triggers x, V.trigger t ≠ some act

instance (V : View) (act : ActPtr) : Decidable (Deaf V act) :=
  inferInstanceAs (Decidable (∀ x ∈ V.vars, ∀ t ∈ V.triggers x, V.trigger t ≠ some act))

/-- What a step function may do: actions of its own, triggers in lists only while
it has no children, and forks into free parts of its priorities. -/
def Obeys (act : ActPtr) (V : View) : Deed → Prop
  | action (.sensitize x t) => (Action.sensitize x t).Obeys act V ∧ V.childrenOf act = ∅
  | action c => c.Obeys act V
  | adopt trig => ∀ x ∈ V.vars, trig ∉ V.triggers x
  | fork child _ k i _ => child ∉ V.records ∧ (V.childrenOf act).card + 1 < 2 ^ 16 ∧
      Deaf V act ∧ i < 2 ^ k ∧ ∀ b ∈ V.childrenOf act,
        V.depth b = V.depth act - k ∧ V.lowest b ≠ V.part act k i

instance (act : ActPtr) (V : View) : (d : Deed) → Decidable (d.Obeys act V)
  | action (.sensitize _ _) => inferInstanceAs (Decidable (_ ∧ _))
  | action (.assign _ _ _) | action (.later _ _ _) | action (.unschedule _)
  | action (.desensitize _) | action (.store _ _ _) =>
      inferInstanceAs (Decidable (Action.Obeys act V _))
  | adopt trig => inferInstanceAs (Decidable (∀ x ∈ V.vars, trig ∉ V.triggers x))
  | fork _ _ _ _ _ => inferInstanceAs (Decidable (_ ∧ _ ∧ _ ∧ _ ∧ _))

theorem Obeys.action {act : ActPtr} {V : View} {c : Action} (h : (Deed.action c).Obeys act V) :
    c.Obeys act V := by
  cases c with
  | sensitize => exact h.1
  | assign | later | unschedule | desensitize | store => exact h

end Deed

/-- One deed on a view, with what it throws. -/
def View.deed (sizes : QueueSizes) (act : ActPtr) (V : View) (d : Deed) : Except SsmError View :=
  match d.fault sizes act V with
  | none => .ok (d.apply act V)
  | some e => .error e

def runDeeds (sizes : QueueSizes) (act : ActPtr) : List Deed → State → Res
  | [], s => .ok s
  | d :: ds, s => do
      let s ← d.exec sizes act s
      runDeeds sizes act ds s

def View.deeds (sizes : QueueSizes) (act : ActPtr) : List Deed → View → Except SsmError View
  | [], V => .ok V
  | d :: ds, V => do
      let V ← V.deed sizes act d
      View.deeds sizes act ds V

/-- Each deed of a call is allowed where its turn comes, and a record leaves
without children and without triggers in lists. -/
def TurnObeys (act : ActPtr) : List Deed → Ending → View → Prop
  | [], .waits, _ => True
  | [], .leaves, V => V.childrenOf act = ∅ ∧ Deed.Deaf V act
  | d :: ds, e, V => d.Obeys act V ∧ TurnObeys act ds e (d.apply act V)

instance TurnObeys.decide (act : ActPtr) : (ds : List Deed) → (e : Ending) → (V : View) →
    Decidable (TurnObeys act ds e V)
  | [], .waits, _ => inferInstanceAs (Decidable True)
  | [], .leaves, _ => inferInstanceAs (Decidable (_ ∧ _))
  | d :: ds, e, V =>
      have := TurnObeys.decide act ds e (d.apply act V)
      inferInstanceAs (Decidable (d.Obeys act V ∧ _))

namespace View

/-- A record that is scheduled or has a trigger in a list has no children. -/
structure Disciplined (V : View) : Prop where
  forest : V.Forest
  scheduled : ∀ a ∈ V.scheduledSet, a ∈ V.processes ∧ V.childrenOf a = ∅
  listening : ∀ x ∈ V.vars, ∀ t ∈ V.triggers x, ∀ a, V.trigger t = some a →
    a ∈ V.processes ∧ V.childrenOf a = ∅

/-- The step function of a record may be called: all that is scheduled comes
after the priorities of the record and of what it may fork. -/
structure Entered (V : View) (a : ActPtr) : Prop where
  ok : V.Disciplined
  live : a ∈ V.processes
  childless : V.childrenOf a = ∅
  idle : a ∉ V.scheduledSet
  ahead : ∀ b ∈ V.scheduledSet, V.beyond a ≤ V.lowest b

/-- The same while the step function is at work. -/
structure Running (V : View) (a : ActPtr) : Prop where
  ok : V.Disciplined
  live : a ∈ V.processes
  idle : a ∉ V.scheduledSet
  ahead : ∀ b ∈ V.scheduledSet, V.beyond a ≤ V.lowest b ∨ V.caller b = a
  young : ∀ b ∈ V.childrenOf a, V.childrenOf b = ∅

theorem Entered.running {V : View} {a : ActPtr} (h : V.Entered a) : V.Running a where
  ok := h.ok
  live := h.live
  idle := h.idle
  ahead := fun b hb => .inl (h.ahead b hb)
  young := fun b hb => absurd (h.childless ▸ hb) (Finset.notMem_empty b)

section Same
variable {V W : View}

theorem SameTree.of_records (records : W.records = V.records) (record : W.record = V.record) :
    V.SameTree W := by
  refine ⟨records, fun a => by rw [record], ?_, ?_, ?_, ?_⟩
  · funext a
    rw [field, record, field]
  · funext a
    rw [field, record, field]
  · funext a
    rw [field, record, field]
  · funext a
    rw [field, record, field]

theorem SameTree.trans {X : View} (h : V.SameTree W) (k : W.SameTree X) : V.SameTree X where
  records := k.records.trans h.records
  recorded := fun a => (k.recorded a).trans (h.recorded a)
  caller := k.caller.trans h.caller
  children := k.children.trans h.children
  priority := k.priority.trans h.priority
  depth := k.depth.trans h.depth

theorem field_wake (V : View) (A : Finset ActPtr) {f : Act → Nat}
    (same : ∀ r b, f { r with scheduled := b } = f r) : (V.wake A).field f = V.field f := by
  funext a
  simp only [field, wake, Option.map_map]
  exact congrArg (Option.getD · 0) (Option.map_congr fun r _ => same r _)

theorem SameTree.wake (V : View) (A : Finset ActPtr) : V.SameTree (V.wake A) where
  records := rfl
  recorded := fun _ => Option.isSome_map
  caller := V.field_wake A fun _ _ => rfl
  children := V.field_wake A fun _ _ => rfl
  priority := V.field_wake A fun _ _ => rfl
  depth := V.field_wake A fun _ _ => rfl

theorem SameTree.mapRecord (V : View) (b : ActPtr) {g : Act → Act}
    (caller : ∀ r, (g r).caller = r.caller) (children : ∀ r, (g r).children = r.children)
    (priority : ∀ r, (g r).priority = r.priority) (depth : ∀ r, (g r).depth = r.depth) :
    V.SameTree (V.mapRecord b g) where
  records := rfl
  recorded := V.isSome_mapRecord b g
  caller := V.field_mapRecord b caller
  children := V.field_mapRecord b children
  priority := V.field_mapRecord b priority
  depth := V.field_mapRecord b depth

theorem SameTree.action (V : View) (c : Action) : V.SameTree (c.apply V) := by
  cases c with
  | assign x prio val =>
      have first : V.SameTree (V.mapVar x fun v =>
          { v with value := val, lastUpdated := V.now }) := SameTree.of_records rfl rfl
      exact first.trans (SameTree.wake _ _)
  | later | unschedule | sensitize | desensitize => exact SameTree.of_records rfl rfl
  | store a pc frame =>
      exact SameTree.mapRecord V a (fun _ => rfl) (fun _ => rfl) (fun _ => rfl) fun _ => rfl

/-- What is scheduled and what listens decide, where the tree is the same. -/
theorem Disciplined.congr (ok : V.Disciplined) (same : V.SameTree W)
    (scheduled : ∀ a ∈ W.scheduledSet, a ∈ V.processes ∧ V.childrenOf a = ∅)
    (listening : ∀ x ∈ W.vars, ∀ t ∈ W.triggers x, ∀ a, W.trigger t = some a →
      a ∈ V.processes ∧ V.childrenOf a = ∅) : W.Disciplined where
  forest := ok.forest.congr same
  scheduled := by
    rw [same.processes, same.childrenOf]
    exact scheduled
  listening := by
    rw [same.processes, same.childrenOf]
    exact listening

end Same

theorem scheduledSet_congr {V W : View} (flags : ∀ a, W.Scheduled a ↔ V.Scheduled a)
    (records : ∀ a, V.Scheduled a → (a ∈ W.records ↔ a ∈ V.records)) :
    W.scheduledSet = V.scheduledSet := by
  ext a
  simp only [scheduledSet, Finset.mem_filter]
  constructor
  · rintro ⟨mem, flag⟩
    have := (flags a).mp flag
    exact ⟨(records a this).mp mem, this⟩
  · rintro ⟨mem, flag⟩
    exact ⟨(records a flag).mpr mem, (flags a).mpr flag⟩

theorem enter_scheduledSet {V : View} {child step parent priority depth : Nat} {frame : List Value}
    (recorded : V.Recorded) (fresh : child ∉ V.records) :
    (V.enter child step parent priority depth frame).scheduledSet = V.scheduledSet := by
  have none : V.record child = none := by
    rw [← Option.not_isSome_iff_eq_none, ← recorded]
    exact fresh
  rw [enter, scheduledSet_mapRecord]
  · refine scheduledSet_congr (fun a => ?_) fun a flag => ?_
    · by_cases h : a = child
      · simp [Scheduled, h, none]
      · simp [Scheduled, h]
    · have : a ≠ child := by
        rintro rfl
        obtain ⟨r, hr, -⟩ := flag
        cases none.symm.trans hr
      simp [this]
  · exact fun _ => rfl

theorem leave_scheduledSet (V : View) (act : ActPtr) :
    (V.leave act).scheduledSet = V.scheduledSet.erase act := by
  rw [leave, scheduledSet_mapRecord]
  · ext a
    by_cases h : a = act
    · simp [scheduledSet, h]
    · simp [scheduledSet, Scheduled, h]
  · exact fun _ => rfl

end View

section Deeds
variable {sizes : QueueSizes} {V : View} {a : ActPtr}

/-- An action lists no trigger but the one it is about. -/
theorem Action.apply_listed {c : Action} {x : Addr} {t : TriggerPtr}
    (listed : t ∈ (c.apply V).triggers x) : t ∈ V.triggers x ∨ c = .sensitize x t := by
  cases c with
  | assign | later | unschedule | store => exact .inl listed
  | sensitize y u =>
      simp only [Action.apply, View.sensitize] at listed
      split at listed
      · rename_i here
        subst here
        rcases Finset.mem_insert.mp listed with rfl | old
        · exact .inr rfl
        · exact .inl old
      · exact .inl listed
  | desensitize u => exact .inl (Finset.mem_of_mem_erase listed)

theorem Action.apply_vars (c : Action) : (c.apply V).vars = V.vars := by cases c <;> rfl

theorem Action.apply_trigger (c : Action) : (c.apply V).trigger = V.trigger := by cases c <;> rfl

/-- What an action wakes are records with a trigger in a list. -/
theorem Action.listens_of_mem_wakes {c : Action} {k : ActPtr} (live : V.Live)
    (admissible : c.Admissible V) (woken : k ∈ c.wakes V) :
    ∃ x ∈ V.vars, ∃ t ∈ V.triggers x, V.trigger t = some k := by
  cases c with
  | assign x prio val =>
      obtain ⟨-, ⟨t, listed, owner⟩, -⟩ := View.mem_listeners.mp woken
      exact ⟨x, (live x).mpr admissible.1, t, listed, owner⟩
  | later | unschedule | sensitize | desensitize | store =>
      exact absurd woken (Finset.notMem_empty k)

/-- A record that a running one wakes comes after it and all it may fork, or is
a child it has just forked. -/
theorem View.Running.woken_ahead {k : ActPtr} (run : V.Running a)
    (mem : k ∈ V.processes) (childless : V.childrenOf k = ∅) (up : V.prio a < V.prio k) :
    V.beyond a ≤ V.lowest k ∨ V.caller k = a := by
  have forest := run.ok.forest
  have differ : a ≠ k := fun h => Nat.lt_irrefl _ (h ▸ up)
  rcases forest.nested.path_or_apart run.live mem with down | up' | before | after
  · rcases Relation.ReflTransGen.cases_head down with same | ⟨d, ⟨hd, below⟩, path⟩
    · exact (differ same).elim
    · have child : d ∈ V.childrenOf a := View.mem_childrenOf.mpr ⟨hd, below⟩
      have leaf := View.leaf_of_childless (run.young d child)
      rw [← Above.eq_of_leaf path leaf]
      exact .inr below
  · exact (differ (Above.eq_of_leaf up' (View.leaf_of_childless childless)).symm).elim
  · exact .inl before
  · rw [← View.lowest_of_mem run.live, ← View.lowest_of_mem mem] at up
    exact absurd (Nat.lt_of_lt_of_le (forest.nested.some k mem) after)
      (Nat.not_lt.mpr (Nat.le_of_lt up))

theorem View.Running.action {c : Action} (run : V.Running a) (live : V.Live)
    (obeys : (Deed.action c).Obeys a V) : (c.apply V).Running a := by
  obtain ⟨admissible, timely, own⟩ := obeys.action
  have same := View.SameTree.action V c
  have woken : ∀ k ∈ c.wakes V, k ∈ V.processes ∧ V.childrenOf k = ∅ := fun k hk => by
    obtain ⟨x, hx, t, listed, owner⟩ := Action.listens_of_mem_wakes live admissible hk
    exact run.ok.listening x hx t listed k owner
  have scheduled : ∀ k ∈ (c.apply V).scheduledSet, k ∈ V.scheduledSet ∨ k ∈ c.wakes V := by
    intro k hk
    rw [c.apply_scheduledSet run.ok.forest.recorded] at hk
    exact Finset.mem_union.mp hk
  refine ⟨run.ok.congr same (fun k hk => ?_) (fun x hx t listed k owner => ?_), ?_, fun h => ?_,
    fun k hk => ?_, ?_⟩
  · exact (scheduled k hk).elim (run.ok.scheduled k) (woken k)
  · rw [c.apply_vars] at hx
    rw [c.apply_trigger] at owner
    rcases Action.apply_listed listed with old | rfl
    · exact run.ok.listening x hx t old k owner
    · obtain rfl : a = k := Option.some.inj (own.symm.trans owner)
      exact ⟨run.live, obeys.2⟩
  · rw [same.processes]
    exact run.live
  · rcases scheduled a h with h | h
    · exact run.idle h
    · exact Nat.lt_irrefl _ (Action.prio_lt_of_mem_wakes own h)
  · rw [same.beyond, same.lowest, View.caller, same.caller]
    rcases scheduled k hk with h | h
    · exact run.ahead k h
    · obtain ⟨mem, childless⟩ := woken k h
      exact run.woken_ahead mem childless (Action.prio_lt_of_mem_wakes own h)
  · rw [same.childrenOf]
    exact run.young

theorem View.Running.adopt {trig : TriggerPtr} (run : V.Running a)
    (free : ∀ x ∈ V.vars, trig ∉ V.triggers x) : (V.adopt trig a).Running a := by
  have same : V.SameTree (V.adopt trig a) := View.SameTree.of_records rfl rfl
  refine ⟨run.ok.congr same run.ok.scheduled fun x hx t listed k owner => ?_, run.live, run.idle,
    run.ahead, run.young⟩
  have other : t ≠ trig := fun h => free x hx (h ▸ listed)
  have kept : (V.adopt trig a).trigger t = V.trigger t := Function.update_of_ne other _ _
  exact run.ok.listening x hx t listed k (kept ▸ owner)

/-- What a fork does to the tree, the priorities and what is scheduled. -/
structure View.Forked (V W : View) (a child first : Nat) : Prop where
  forest : W.Forest
  other : child ≠ a
  fresh : child ∉ V.processes
  alone : V.childrenOf child = ∅
  processes : W.processes = insert child V.processes
  childrenOf : ∀ p, W.childrenOf p =
    if p = a then insert child (V.childrenOf p) else V.childrenOf p
  scheduled : W.scheduledSet = insert child V.scheduledSet
  caller : ∀ b, W.caller b = if b = child then a else V.caller b
  lowest : ∀ b, W.lowest b = if b = child then first else V.lowest b
  beyond : ∀ b, b ≠ child → W.beyond b = V.beyond b

theorem View.Forest.forked {child step k i : Nat} {frame : List Value} (forest : V.Forest)
    (mem : a ∈ V.records) (obeys : (Deed.fork child step k i frame).Obeys a V)
    (fine : (Deed.fork child step k i frame).fault sizes a V = none) :
    V.Forked ((Deed.fork child step k i frame).apply a V) a child (V.part a k i) := by
  obtain ⟨fresh, room, -, part, others⟩ := obeys
  have deep : k ≤ V.depth a := Nat.le_of_not_lt fun shallow => by
    rw [Deed.fault, if_pos shallow] at fine
    cases fine
  have notTop : child ≠ ssmTopParent := forest.notTop fresh
  obtain ⟨W, entered⟩ : ∃ W : View,
      W = V.enter child step a (V.part a k i) (V.depth a - k) frame := ⟨_, rfl⟩
  have grown : W.Forest := entered ▸ forest.enter fresh mem room ⟨deep, part, others⟩
  have same : W.SameTree (W.wake {child}) := View.SameTree.wake W {child}
  have known : ({child} : Finset ActPtr) ⊆ W.records := by
    rw [Finset.singleton_subset_iff, entered]
    exact Finset.mem_insert_self _ _
  rw [Deed.apply, ← entered]
  refine ⟨grown.congr same, fun h => fresh (h ▸ mem), fun h => fresh (View.mem_processes.mp h).2,
    forest.childless_of_fresh fresh, ?_, fun p => ?_, ?_, fun b => ?_, fun b => ?_,
    fun b other => ?_⟩
  · rw [same.processes, entered, View.enter_processes notTop]
  · rw [same.childrenOf, entered, View.enter_childrenOf notTop fresh]
  · rw [View.scheduledSet_wake grown.recorded known, entered,
      View.enter_scheduledSet forest.recorded fresh, Finset.union_comm]
    rfl
  · rw [View.caller, same.caller]
    exact entered ▸ View.enter_caller b
  · rw [same.lowest, entered, View.enter_lowest notTop]
  · rw [same.beyond, entered, View.enter_beyond notTop, if_neg other]

theorem View.Forked.childless {W : View} {child first : Nat} (forked : V.Forked W a child first)
    {b : ActPtr} (other : b ≠ a) (none : V.childrenOf b = ∅) : W.childrenOf b = ∅ := by
  rw [forked.childrenOf, if_neg other, none]

/-- A fork by a record that is not scheduled keeps the discipline. -/
theorem View.Disciplined.fork {child step k i : Nat} {frame : List Value} (ok : V.Disciplined)
    (live : a ∈ V.records) (idle : a ∉ V.scheduledSet)
    (obeys : (Deed.fork child step k i frame).Obeys a V)
    (fine : (Deed.fork child step k i frame).fault sizes a V = none) :
    ((Deed.fork child step k i frame).apply a V).Disciplined := by
  have forked := ok.forest.forked live obeys fine
  have deaf : Deed.Deaf V a := obeys.2.2.1
  refine ⟨forked.forest, fun b hb => ?_, fun x hx t listed b owner => ?_⟩
  · rw [forked.processes]
    rw [forked.scheduled] at hb
    rcases Finset.mem_insert.mp hb with rfl | hb
    · exact ⟨Finset.mem_insert_self _ _, forked.childless forked.other forked.alone⟩
    · obtain ⟨mem, none⟩ := ok.scheduled b hb
      exact ⟨Finset.mem_insert_of_mem mem, forked.childless (fun h => idle (h ▸ hb)) none⟩
  · change x ∈ V.vars at hx
    change t ∈ V.triggers x at listed
    change V.trigger t = some b at owner
    obtain ⟨mem, none⟩ := ok.listening x hx t listed b owner
    have other : b ≠ a := fun h => deaf x hx t listed (h ▸ owner)
    rw [forked.processes]
    exact ⟨Finset.mem_insert_of_mem mem, forked.childless other none⟩

theorem View.Running.forked {child step k i : Nat} {frame : List Value} (run : V.Running a)
    (obeys : (Deed.fork child step k i frame).Obeys a V)
    (fine : (Deed.fork child step k i frame).fault sizes a V = none) :
    V.Forked ((Deed.fork child step k i frame).apply a V) a child (V.part a k i) :=
  run.ok.forest.forked (View.mem_processes.mp run.live).2 obeys fine

theorem View.Running.fork {child step k i : Nat} {frame : List Value} (run : V.Running a)
    (obeys : (Deed.fork child step k i frame).Obeys a V)
    (fine : (Deed.fork child step k i frame).fault sizes a V = none) :
    ((Deed.fork child step k i frame).apply a V).Running a := by
  have forked := run.forked obeys fine
  have ok := run.ok.fork (View.mem_processes.mp run.live).2 run.idle obeys fine
  refine ⟨ok, ?_, fun h => ?_, fun b hb => ?_, fun b hb => ?_⟩
  · rw [forked.processes]
    exact Finset.mem_insert_of_mem run.live
  · rw [forked.scheduled] at h
    exact (Finset.mem_insert.mp h).elim (fun h => forked.other h.symm) run.idle
  · rw [forked.scheduled] at hb
    rw [forked.caller, forked.lowest, forked.beyond a forked.other.symm]
    rcases Finset.mem_insert.mp hb with rfl | hb
    · exact .inr (if_pos rfl)
    · have other : b ≠ child := fun h => forked.fresh (h ▸ (run.ok.scheduled b hb).1)
      rw [if_neg other, if_neg other]
      exact run.ahead b hb
  · rw [forked.childrenOf, if_pos rfl] at hb
    rcases Finset.mem_insert.mp hb with rfl | hb
    · exact forked.childless forked.other forked.alone
    · have none := run.young b hb
      refine forked.childless (fun h => ?_) none
      subst h
      exact absurd (none ▸ hb) (Finset.notMem_empty b)

theorem View.Running.deed {d : Deed} (run : V.Running a) (live : V.Live) (obeys : d.Obeys a V)
    (fine : d.fault sizes a V = none) : (d.apply a V).Running a := by
  cases d with
  | action c => exact run.action live obeys
  | adopt trig => exact run.adopt obeys
  | fork => exact run.fork obeys fine

/-- A record that has run and waits for its triggers; all that is scheduled
comes after it. -/
structure View.Passed (V : View) (r : ActPtr) : Prop where
  live : r ∈ V.processes
  childless : V.childrenOf r = ∅
  ahead : ∀ b ∈ V.scheduledSet, V.beyond r ≤ V.lowest b

theorem View.Running.beyond_gt (run : V.Running a) : V.lowest a < V.beyond a :=
  run.ok.forest.nested.some a run.live

/-- A record that comes after one that has run wakes only such records, and
forks only such. -/
theorem View.Passed.deed {r : ActPtr} {d : Deed} (passed : V.Passed r) (run : V.Running a)
    (after : V.beyond r ≤ V.lowest a) (live : V.Live) (obeys : d.Obeys a V)
    (fine : d.fault sizes a V = none) :
    (d.apply a V).Passed r ∧ (d.apply a V).beyond r = V.beyond r := by
  cases d with
  | action c =>
      obtain ⟨admissible, -, own⟩ := obeys.action
      have same := View.SameTree.action V c
      rw [Deed.apply, same.beyond]
      refine ⟨⟨?_, ?_, fun b hb => ?_⟩, rfl⟩
      · rw [same.processes]
        exact passed.live
      · rw [same.childrenOf]
        exact passed.childless
      · rw [c.apply_scheduledSet run.ok.forest.recorded] at hb
        rw [same.beyond, same.lowest]
        rcases Finset.mem_union.mp hb with hb | hb
        · exact passed.ahead b hb
        · obtain ⟨x, hx, t, listed, owner⟩ := Action.listens_of_mem_wakes live admissible hb
          have mem := (run.ok.listening x hx t listed b owner).1
          have up := Action.prio_lt_of_mem_wakes own hb
          rw [← View.lowest_of_mem run.live, ← View.lowest_of_mem mem] at up
          exact Nat.le_of_lt (Nat.lt_of_le_of_lt after up)
  | adopt trig => exact ⟨⟨passed.live, passed.childless, passed.ahead⟩, rfl⟩
  | fork child step k i frame =>
      have forked := run.forked obeys fine
      have old : r ≠ child := fun h => forked.fresh (h ▸ passed.live)
      have other : r ≠ a := fun h => Nat.not_lt.mpr after (h ▸ run.beyond_gt)
      refine ⟨⟨?_, forked.childless other passed.childless, fun b hb => ?_⟩, forked.beyond r old⟩
      · rw [forked.processes]
        exact Finset.mem_insert_of_mem passed.live
      · rw [forked.scheduled] at hb
        rw [forked.lowest, forked.beyond r old]
        rcases Finset.mem_insert.mp hb with rfl | hb
        · rw [if_pos rfl]
          exact Nat.le_trans after (Nat.le_add_right _ _)
        · rw [if_neg fun h : b = child => forked.fresh (h ▸ (run.ok.scheduled b hb).1)]
          exact passed.ahead b hb

/-- What deeds of a record keep, for the record itself and for one that has run
before it. -/
structure View.Stays (V W : View) (a : ActPtr) : Prop where
  running : W.Running a
  ahead : V.Ahead → W.Ahead
  now : W.now = V.now
  grown : W.processes.card + (V.childrenOf a).card = V.processes.card + (W.childrenOf a).card
  lowest : W.lowest a = V.lowest a
  beyond : W.beyond a = V.beyond a
  passed : ∀ r, V.Passed r → V.beyond r ≤ V.lowest a → W.Passed r ∧ W.beyond r = V.beyond r

theorem View.Stays.refl (run : V.Running a) : V.Stays V a :=
  ⟨run, id, rfl, rfl, rfl, rfl, fun _ passed _ => ⟨passed, rfl⟩⟩

theorem View.Stays.trans {W X : View} (h : V.Stays W a) (k : W.Stays X a) : V.Stays X a where
  running := k.running
  ahead := k.ahead ∘ h.ahead
  now := k.now.trans h.now
  grown := by
    have := h.grown
    have := k.grown
    omega
  lowest := k.lowest.trans h.lowest
  beyond := k.beyond.trans h.beyond
  passed := fun r passed after => by
    obtain ⟨one, same⟩ := h.passed r passed after
    obtain ⟨two, same'⟩ := k.passed r one (by rw [same, h.lowest]; exact after)
    exact ⟨two, same'.trans same⟩

theorem View.Running.stays {d : Deed} (run : V.Running a) (live : V.Live) (obeys : d.Obeys a V)
    (fine : d.fault sizes a V = none) : V.Stays (d.apply a V) a where
  running := run.deed live obeys fine
  ahead := fun ahead => by
    cases d with
    | action c => exact c.apply_ahead obeys.action.2.1 ahead
    | adopt | fork => exact ahead
  now := by
    cases d with
    | action c => exact c.apply_now
    | adopt | fork => rfl
  grown := by
    cases d with
    | action c =>
        have same := View.SameTree.action V c
        rw [Deed.apply, same.processes, same.childrenOf]
    | adopt => rfl
    | fork child step k i frame =>
        have forked := run.forked obeys fine
        have apart : child ∉ V.childrenOf a := fun h =>
          forked.fresh (View.mem_childrenOf.mp h).1
        rw [forked.processes, forked.childrenOf, if_pos rfl,
          Finset.card_insert_of_notMem forked.fresh, Finset.card_insert_of_notMem apart]
        omega
  lowest := by
    cases d with
    | action c => exact congrFun (View.SameTree.action V c).lowest a
    | adopt => rfl
    | fork child step k i frame =>
        have forked := run.forked obeys fine
        rw [forked.lowest, if_neg forked.other.symm]
  beyond := by
    cases d with
    | action c => exact congrFun (View.SameTree.action V c).beyond a
    | adopt => rfl
    | fork =>
        have forked := run.forked obeys fine
        exact forked.beyond a forked.other.symm
  passed := fun _ passed after => passed.deed run after live obeys fine

theorem View.caller_ne (live : a ∈ V.processes) (childless : V.childrenOf a = ∅) :
    V.caller a ≠ a := View.leaf_of_childless childless a live

theorem View.Running.leave (run : V.Running a) (childless : V.childrenOf a = ∅)
    (deaf : Deed.Deaf V a) : (V.leave a).Disciplined where
  forest := run.ok.forest.leave run.live childless
  scheduled := fun b hb => by
    rw [View.leave_scheduledSet] at hb
    obtain ⟨mem, none⟩ := run.ok.scheduled b (Finset.mem_of_mem_erase hb)
    rw [View.leave_processes, View.leave_childrenOf, none]
    exact ⟨Finset.mem_erase.mpr ⟨Finset.ne_of_mem_erase hb, mem⟩, rfl⟩
  listening := fun x hx t listed b owner => by
    change x ∈ V.vars at hx
    change t ∈ V.triggers x at listed
    change V.trigger t = some b at owner
    obtain ⟨mem, none⟩ := run.ok.listening x hx t listed b owner
    have other : b ≠ a := fun h => deaf x hx t listed (h ▸ owner)
    rw [View.leave_processes, View.leave_childrenOf, none]
    exact ⟨Finset.mem_erase.mpr ⟨other, mem⟩, rfl⟩

/-- A parent is resumed in front of all that is scheduled: that comes after the
priorities of the parent, not only after those of the child that leaves. -/
theorem View.Running.resume {p : ActPtr} (run : V.Running a) (childless : V.childrenOf a = ∅)
    (deaf : Deed.Deaf V a) (resumed : V.resumes a = some p) (notTop : p ≠ ssmTopParent) :
    (V.leave a).Entered p := by
  obtain ⟨rfl, count⟩ := View.resumes_eq_some.mp resumed
  have ok := run.leave childless deaf
  have other : V.caller a ≠ a := View.caller_ne run.live childless
  have child : a ∈ V.childrenOf (V.caller a) := View.mem_childrenOf.mpr ⟨run.live, rfl⟩
  have mem : V.caller a ∈ V.processes :=
    View.mem_processes.mpr ⟨notTop, run.ok.forest.caller a run.live⟩
  have live : V.caller a ∈ (V.leave a).processes := by
    rw [View.leave_processes]
    exact Finset.mem_erase.mpr ⟨other, mem⟩
  have alone : (V.leave a).childrenOf (V.caller a) = ∅ := by
    rw [ok.forest.children _ (View.mem_processes.mp live).2] at count
    exact Finset.card_eq_zero.mp count
  have idle : ∀ b ∈ V.scheduledSet, b ≠ V.caller a := fun b hb h => by
    have none := (run.ok.scheduled b hb).2
    rw [h] at none
    exact absurd (none ▸ child) (Finset.notMem_empty a)
  refine ⟨ok, live, alone, fun h => ?_, fun b hb => ?_⟩
  · rw [View.leave_scheduledSet] at h
    exact idle _ (Finset.mem_of_mem_erase h) rfl
  · obtain ⟨memB, noneB⟩ := ok.scheduled b hb
    rw [View.leave_scheduledSet] at hb
    obtain ⟨differ, sched⟩ := Finset.mem_erase.mp hb
    have after : V.beyond a ≤ V.lowest b := by
      rcases run.ahead b sched with h | h
      · exact h
      · have none := childless
        rw [Finset.eq_empty_iff_forall_notMem] at none
        exact absurd (View.mem_childrenOf.mpr ⟨(run.ok.scheduled b sched).1, h⟩) (none b)
    rcases ok.forest.nested.leaves_apart live memB (View.leaf_of_childless alone)
      (View.leaf_of_childless noneB) (idle b sched).symm with h | h
    · exact h
    · rw [Before, View.leave_beyond differ, View.leave_lowest other] at h
      have inside := (run.ok.forest.nested.inside a run.live).1
      have some' := run.ok.forest.nested.some b (run.ok.scheduled b sched).1
      have here := run.beyond_gt
      omega

/-- A record that has run comes before the parent that is resumed, too. -/
theorem View.Passed.resume {r p : ActPtr} (passed : V.Passed r) (run : V.Running a)
    (childless : V.childrenOf a = ∅) (after : V.beyond r ≤ V.lowest a)
    (resumed : V.resumes a = some p) (notTop : p ≠ ssmTopParent) (entered : (V.leave a).Entered p) :
    (V.leave a).beyond r ≤ (V.leave a).lowest p := by
  obtain ⟨rfl, -⟩ := View.resumes_eq_some.mp resumed
  have other : V.caller a ≠ a := View.caller_ne run.live childless
  have differ : r ≠ a := fun h => Nat.not_lt.mpr after (h ▸ run.beyond_gt)
  have notParent : r ≠ V.caller a := fun h =>
    View.leaf_of_childless passed.childless a run.live h.symm
  have live : r ∈ (V.leave a).processes := by
    rw [View.leave_processes]
    exact Finset.mem_erase.mpr ⟨differ, passed.live⟩
  have alone : (V.leave a).childrenOf r = ∅ := by
    rw [View.leave_childrenOf, passed.childless]
    rfl
  rcases entered.ok.forest.nested.leaves_apart live entered.live (View.leaf_of_childless alone)
    (View.leaf_of_childless entered.childless) notParent with h | h
  · exact h
  · rw [Before, View.leave_beyond other, View.leave_lowest differ] at h
    have inside := (run.ok.forest.nested.inside a run.live).2
    have some' := run.ok.forest.nested.some r passed.live
    have here := run.beyond_gt
    omega

theorem View.Passed.leave {r : ActPtr} (passed : V.Passed r) (run : V.Running a)
    (after : V.beyond r ≤ V.lowest a) : (V.leave a).Passed r := by
  have differ : r ≠ a := fun h => Nat.not_lt.mpr after (h ▸ run.beyond_gt)
  refine ⟨?_, ?_, fun b hb => ?_⟩
  · rw [View.leave_processes]
    exact Finset.mem_erase.mpr ⟨differ, passed.live⟩
  · rw [View.leave_childrenOf, passed.childless]
    rfl
  · rw [View.leave_scheduledSet] at hb
    rw [View.leave_beyond differ, View.leave_lowest (Finset.ne_of_mem_erase hb)]
    exact passed.ahead b (Finset.mem_of_mem_erase hb)

end Deeds

section Exec
variable {sizes : SafeSizes} {s : State} {a : ActPtr}

theorem adopt_refines {sizes : QueueSizes} {trig : TriggerPtr} (wf : WellFormed sizes s)
    (free : ∀ x ∈ s.view.vars, trig ∉ s.view.triggers x) :
    WellFormed sizes (adoptTrigger trig a s) ∧
      (adoptTrigger trig a s).view = s.view.adopt trig a := by
  have unlisted : ∀ x v, s.sv? x = some v → trig ∉ triggersOf s x := fun x v hv h =>
    free x (mem_view_vars.mpr ⟨v, hv⟩) ((mem_view_triggers hv).mpr h)
  have chain : ∀ x v, s.sv? x = some v →
      Chain (adoptTrigger trig a s) (.triggersOf x) v.triggers (triggersOf s x) := by
    intro x v hv
    refine (wf.triggers.chain x v hv).congr fun t ht => ?_
    have other : t ≠ trig := fun h => unlisted x v hv (h ▸ ht)
    exact ⟨Finset.mem_insert_of_mem ((wf.triggers.chain x v hv).live ht),
      Table.alloc_val_of_ne _ _ other⟩
  have lists : ∀ x v, s.sv? x = some v → triggersOf (adoptTrigger trig a s) x = triggersOf s x :=
    fun x v hv => (chain x v hv).triggersOf_eq hv
  refine ⟨⟨wf.queue.congr rfl rfl fun _ => Iff.rfl, wf.order, wf.fits, wf.packed,
    wf.acts.of_acts rfl rfl rfl, fun x v hv => ?_, fun x v t hv ht => ?_⟩, ?_⟩
  · rw [lists x v hv]
    exact chain x v hv
  · rw [lists x v hv] at ht
    have other : t ≠ trig := fun h => unlisted x v hv (h ▸ ht)
    have same : (adoptTrigger trig a s).actOf t = s.actOf t := by
      simp only [State.actOf, adoptTrigger, Table.alloc_val_of_ne _ _ other]
    rw [same]
    exact wf.triggers.act x v t hv ht
  · refine View.ext' rfl rfl (fun _ => rfl) rfl (fun _ => rfl) (fun t => ?_) fun x => ?_
    · by_cases h : t = trig
      · subst h
        simp [State.view, View.adopt, adoptTrigger, Table.get?]
      · simp [State.view, View.adopt, adoptTrigger, Table.get?, h, Table.alloc_val_of_ne _ _ h]
    · have same : ((adoptTrigger trig a s).sv? x).isSome = (s.sv? x).isSome := rfl
      simp only [State.view, View.adopt, same]
      split
      · rename_i some'
        obtain ⟨v, hv⟩ := Option.isSome_iff_exists.mp some'
        rw [lists x v hv]
      · rfl

theorem View.deed_eq_ok {sizes : QueueSizes} {V W : View} {d : Deed}
    (h : V.deed sizes a d = .ok W) : d.fault sizes a V = none ∧ W = d.apply a V := by
  rw [View.deed] at h
  split at h
  · rename_i fine
    cases h
    exact ⟨fine, rfl⟩
  · cases h

/-- Entering a record and activating it. -/
theorem enter_computes {child parent : ActPtr} (step priority depth : Nat) (frame : List Value)
    (wf : WellFormed sizes s) (fresh : child ∉ s.acts.dom) (live : parent ∈ s.acts.dom) :
    Computes sizes (do
        let s ← ssmEnterInt child step parent priority depth frame s
        ssmActivate sizes child s)
      (if (insert child s.view.scheduledSet).card ≤ sizes.act then
        .ok ((s.view.enter child step parent priority depth frame).wake {child})
      else .error .exhaustedActQueue) := by
  obtain ⟨u, entered, wfu, shown⟩ := enter_refines step priority depth frame wf fresh live
  have mem : child ∈ u.acts.dom := by
    have : child ∈ u.view.records := by
      rw [shown]
      exact Finset.mem_insert_self _ _
    exact this
  have old : scheduledSet u = s.view.scheduledSet := by
    rw [← view_scheduledSet, shown]
    exact View.enter_scheduledSet (view_recorded s) fresh
  rw [entered, ok_bind, ← old]
  have spec := ssmActivate_spec wfu.acts mem
  split at spec
  · rename_i room
    obtain ⟨t, done, acts, woken⟩ := spec
    rw [if_pos room]
    obtain ⟨wft, after⟩ := wfu.woken (A := {child}) acts
      (woken.iff fun b => Finset.mem_singleton)
    exact ⟨t, done, wft, by rw [after, shown]⟩
  · rename_i full
    rw [if_neg full]
    exact spec

theorem fork_computes {child step k i : Nat} {frame : List Value} (wf : WellFormed sizes s)
    (run : s.view.Running a) (obeys : (Deed.fork child step k i frame).Obeys a s.view) :
    Computes sizes ((Deed.fork child step k i frame).exec sizes a s)
      (s.view.deed sizes a (.fork child step k i frame)) := by
  obtain ⟨fresh, -, -, part, -⟩ := obeys
  obtain ⟨notTop, live⟩ := View.mem_processes.mp run.live
  obtain ⟨r, loaded⟩ : ∃ r, s.loadAct a = .ok r := ⟨_, State.loadAct_of_mem live⟩
  have record : s.view.record a = some r := Table.get?_eq_some.mpr (State.loadAct_eq_ok.mp loaded)
  have depth : s.view.depth a = r.depth := by
    rw [View.depth, if_neg notTop, View.field_of_record _ record]
  have priority : s.view.lowest a = r.priority := by
    rw [View.lowest, if_neg notTop, View.field_of_record _ record]
  rw [View.deed, Deed.fault, Deed.exec, loaded, ok_bind, depth]
  by_cases shallow : r.depth < k
  · rw [if_pos shallow, if_pos shallow]
    exact ⟨s, rfl⟩
  · have first := run.ok.forest.forkPriority_eq live (depth ▸ Nat.le_of_not_lt shallow) part
    rw [depth, priority] at first
    have spec := enter_computes step (forkPriority r.priority r.depth k i) (r.depth - k) frame wf
      fresh live
    rw [if_neg shallow, if_neg shallow]
    split at spec
    · rename_i room
      rw [if_pos room, Deed.apply, depth, ← first]
      exact spec
    · rename_i full
      rw [if_neg full]
      exact spec

/-- A deed computes what it does to the view, with what it throws. -/
theorem Deed.exec_computes {d : Deed} (wf : WellFormed sizes s) (run : s.view.Running a)
    (obeys : d.Obeys a s.view) : Computes sizes (d.exec sizes a s) (s.view.deed sizes a d) := by
  cases d with
  | action c =>
      have same : s.view.deed sizes a (.action c) = s.view.act sizes c := by
        rw [View.deed, Deed.fault, View.act]
        by_cases room : c.Room sizes s.view
        · simp only [if_pos room, Deed.apply]
        · simp only [if_neg room]
      rw [same]
      exact c.exec_computes wf obeys.action.1
  | adopt trig =>
      obtain ⟨wft, shown⟩ := adopt_refines (a := a) wf obeys
      exact ⟨_, rfl, wft, shown⟩
  | fork => exact fork_computes wf run obeys

theorem runDeeds_computes {e : Ending} (ds : List Deed) (wf : WellFormed sizes s)
    (run : s.view.Running a) (obeys : TurnObeys a ds e s.view) :
    Computes sizes (runDeeds sizes a ds s) (View.deeds sizes a ds s.view) := by
  induction ds generalizing s with
  | nil => exact ⟨s, rfl, wf, rfl⟩
  | cons d ds ih =>
      refine (d.exec_computes wf run obeys.1).bind fun t wft done => ?_
      obtain ⟨fine, shown⟩ := View.deed_eq_ok done
      have next := run.deed (view_live s) obeys.1 fine
      exact ih wft (shown ▸ next) (shown ▸ obeys.2)

theorem Deed.exec_eq_ok {d : Deed} {t : State} (wf : WellFormed sizes s) (run : s.view.Running a)
    (obeys : d.Obeys a s.view) (done : d.exec sizes a s = .ok t) :
    WellFormed sizes t ∧ d.fault sizes a s.view = none ∧ t.view = d.apply a s.view := by
  have spec := d.exec_computes wf run obeys
  cases hd : s.view.deed sizes a d with
  | error e =>
      rw [hd] at spec
      obtain ⟨v, fails⟩ := spec
      cases done.symm.trans fails
  | ok W =>
      rw [hd] at spec
      obtain ⟨v, succeeds, wfv, shown⟩ := spec
      cases done.symm.trans succeeds
      obtain ⟨fine, rfl⟩ := View.deed_eq_ok hd
      exact ⟨wfv, fine, shown⟩

theorem runDeeds_keeps {e : Ending} (ds : List Deed) {t : State} (wf : WellFormed sizes s)
    (run : s.view.Running a) (obeys : TurnObeys a ds e s.view)
    (done : runDeeds sizes a ds s = .ok t) :
    WellFormed sizes t ∧ s.view.Stays t.view a ∧ TurnObeys a [] e t.view := by
  induction ds generalizing s with
  | nil =>
      cases done
      exact ⟨wf, .refl run, obeys⟩
  | cons d ds ih =>
      obtain ⟨u, one, rest⟩ := bind_eq_ok.mp done
      obtain ⟨wfu, fine, shown⟩ := d.exec_eq_ok wf run obeys.1 one
      have first := run.stays (view_live s) obeys.1 fine
      rw [← shown] at first
      obtain ⟨wft, more, ending⟩ := ih wfu first.running (shown ▸ obeys.2) rest
      exact ⟨wft, first.trans more, ending⟩

/-- What a call runs out of: a queue, or the bits of its priority. -/
def Depleted (e : SsmError) : Prop := Exhausted e ∨ e = .exhaustedPriority

theorem Deed.fault_depleted {d : Deed} {V : View} {e : SsmError}
    (fault : d.fault sizes a V = some e) : Depleted e := by
  cases d with
  | action c =>
      rw [Deed.fault] at fault
      split at fault
      · cases fault
      · cases fault
        cases c with
        | later => exact .inl (.inr rfl)
        | assign | unschedule | sensitize | desensitize | store => exact .inl (.inl rfl)
  | adopt => cases fault
  | fork =>
      rw [Deed.fault] at fault
      split at fault
      · cases fault
        exact .inr rfl
      · split at fault
        · cases fault
        · cases fault
          exact .inl (.inl rfl)

theorem View.deeds_depleted {ds : List Deed} {V : View} {e : SsmError}
    (fails : View.deeds sizes a ds V = .error e) : Depleted e := by
  induction ds generalizing V with
  | nil => cases fails
  | cons d ds ih =>
      rw [View.deeds] at fails
      cases hd : V.deed sizes a d with
      | error f =>
          rw [hd] at fails
          cases fails
          rw [View.deed] at hd
          split at hd
          · cases hd
          · rename_i fault
            cases hd
            exact Deed.fault_depleted fault
      | ok W =>
          rw [hd] at fails
          exact ih fails

end Exec
end SsmRuntime
