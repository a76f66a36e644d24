import SsmRuntime.HeapSteps
import SsmRuntime.Triggers

/-!
Runs of sensitizing and desensitizing. The history of the calls, newest first,
tells which triggers a variable has and in what order; in every state of a run
the links in memory say the same, and the waking loops visit those triggers.
-/
namespace SsmRuntime

inductive TrigCall where
  | sensitize (var : Addr) (trig : TriggerPtr)
  | desensitize (trig : TriggerPtr)
  deriving DecidableEq

namespace TrigCall

def exec : TrigCall → State → Res
  | sensitize var trig, s => ssmSvSensitize var trig s
  | desensitize trig, s => ssmSvDesensitize trig s

def trig : TrigCall → TriggerPtr
  | sensitize _ t => t
  | desensitize t => t

end TrigCall

/-- The variable a trigger has been added to and not been removed from since. -/
def addedTo : List TrigCall → TriggerPtr → Option Addr
  | [], _ => none
  | .sensitize x u :: h, t => if t = u then some x else addedTo h t
  | .desensitize u :: h, t => if t = u then none else addedTo h t

/-- The triggers of a variable, the most recently added first. -/
def sensitised : List TrigCall → Addr → List TriggerPtr
  | [], _ => []
  | .sensitize x t :: h, y => if y = x then t :: sensitised h y else sensitised h y
  | .desensitize t :: h, y => (sensitised h y).erase t

/-- A trigger is added when it is on no list and removed when it is on one. -/
def Alternates (h : List TrigCall) : TrigCall → Prop
  | .sensitize _ t => addedTo h t = none
  | .desensitize t => (addedTo h t).isSome

/-- A call on a live variable and a live trigger, in its turn. -/
structure TrigLegal (s : State) (h : List TrigCall) (c : TrigCall) : Prop where
  alternates : Alternates h c
  var : ∀ x t, c = .sensitize x t → (s.sv? x).isSome
  live : c.trig ∈ s.triggers.dom

inductive TrigRun (s₀ : State) : List TrigCall → State → Prop
  | refl : TrigRun s₀ [] s₀
  | step {h : List TrigCall} {s t : State} {c : TrigCall} (before : TrigRun s₀ h s)
      (legal : TrigLegal s h c) (done : c.exec s = .ok t) : TrigRun s₀ (c :: h) t

/-- What a history of alternating calls says is consistent. -/
structure Listed (h : List TrigCall) : Prop where
  mem : ∀ x t, t ∈ sensitised h x ↔ addedTo h t = some x
  nodup : ∀ x, (sensitised h x).Nodup

theorem Listed.nil : Listed [] := ⟨fun x t => by simp [sensitised, addedTo], fun x => .nil⟩

theorem Listed.cons {h : List TrigCall} {c : TrigCall} (listed : Listed h)
    (alternates : Alternates h c) : Listed (c :: h) := by
  cases c with
  | sensitize x u =>
      have absent : ∀ y, u ∉ sensitised h y := fun y mem => by
        rw [listed.mem, alternates] at mem
        cases mem
      refine ⟨fun y t => ?_, fun y => ?_⟩
      · simp only [sensitised, addedTo]
        by_cases ht : t = u
        · subst ht
          by_cases hy : y = x
          · simp [hy]
          · simp [hy, Ne.symm hy, absent y]
        · by_cases hy : y = x
          · simp [hy, ht, listed.mem]
          · simp [hy, ht, listed.mem]
      · simp only [sensitised]
        split
        · exact List.nodup_cons.mpr ⟨absent y, listed.nodup y⟩
        · exact listed.nodup y
  | desensitize u =>
      refine ⟨fun y t => ?_, fun y => (listed.nodup y).erase u⟩
      simp only [sensitised, addedTo, (listed.nodup y).mem_erase_iff, listed.mem]
      by_cases ht : t = u
      · simp [ht]
      · simp [ht]

/-- Memory agrees with a history: each variable starts the chain of its triggers. -/
structure Linked (s : State) (h : List TrigCall) : Prop where
  chain : ∀ x v, s.sv? x = some v → Chain s (.triggersOf x) v.triggers (sensitised h x)
  listed : Listed h
  absent : ∀ x, s.sv? x = none → sensitised h x = []

section Linked
variable {s t : State} {h : List TrigCall} {x : Addr} {v : Sv}

theorem Linked.triggersOf (linked : Linked s h) (hv : s.sv? x = some v) :
    SsmRuntime.triggersOf s x = sensitised h x :=
  (linked.chain x v hv).triggersOf_eq hv

theorem Linked.chains (linked : Linked s h) : ChainsOk s := fun x v hv => by
  rw [linked.triggersOf hv]
  exact linked.chain x v hv

theorem Linked.start (empty : ∀ x v, s.sv? x = some v → v.triggers = none) :
    Linked s [] where
  chain := fun x v hv => by
    rw [empty x v hv]
    exact .nil _
  listed := .nil
  absent := fun _ _ => rfl

theorem Relisted.sv?_eq_none {L : Addr → List TriggerPtr} (r : Relisted s t L)
    (gone : t.sv? x = none) : s.sv? x = none := by
  have same := r.seen x
  rw [State.seen?, gone, Option.map_none, eq_comm, State.seen?] at same
  exact Option.map_eq_none_iff.mp same

/-- Every call in its turn succeeds and keeps the agreement. -/
theorem Linked.step {c : TrigCall} (linked : Linked s h) (legal : TrigLegal s h c) :
    ∃ t, c.exec s = .ok t ∧ Linked t (c :: h) := by
  have listed := linked.listed.cons legal.alternates
  have relisted : ∀ {t : State} {L : Addr → List TriggerPtr}, Relisted s t L →
      (∀ y w, s.sv? y = some w → L y = sensitised (c :: h) y) →
      (∀ y, s.sv? y = none → sensitised (c :: h) y = []) → Linked t (c :: h) := by
    intro t L r same absent
    refine ⟨fun y w hw => ?_, listed, fun y gone => absent y (r.sv?_eq_none gone)⟩
    obtain ⟨w', hw', -⟩ := r.sv? hw
    rw [← same y w' hw']
    exact r.chain y w hw
  cases c with
  | sensitize x u =>
      obtain ⟨v, hv⟩ := Option.isSome_iff_exists.mp (legal.var x u rfl)
      have idle : ∀ y w, s.sv? y = some w → u ∉ SsmRuntime.triggersOf s y := fun y w hw mem => by
        rw [linked.triggersOf hw, linked.listed.mem, show addedTo h u = none from
          legal.alternates] at mem
        cases mem
      obtain ⟨t, run, r⟩ := ssmSvSensitize_spec linked.chains hv legal.live idle
      refine ⟨t, run, relisted r (fun y w hw => ?_) fun y gone => ?_⟩
      · simp only [sensitized, sensitised]
        split
        · rename_i hy
          rw [hy, linked.triggersOf hv]
          rfl
        · exact linked.triggersOf hw
      · have hy : y ≠ x := by
          rintro rfl
          rw [hv] at gone
          cases gone
        rw [sensitised, if_neg hy, linked.absent y gone]
  | desensitize u =>
      obtain ⟨x, added⟩ := Option.isSome_iff_exists.mp legal.alternates
      have mem := (linked.listed.mem x u).mpr added
      obtain ⟨v, hv⟩ : ∃ v, s.sv? x = some v := by
        cases hv : s.sv? x with
        | some v => exact ⟨v, rfl⟩
        | none =>
            rw [linked.absent x hv] at mem
            simp at mem
      obtain ⟨t, run, r⟩ := ssmSvDesensitize_spec linked.chains hv
        (by rw [linked.triggersOf hv]; exact mem)
      refine ⟨t, run, relisted r (fun y w hw => ?_) fun y gone => ?_⟩
      · simp only [desensitized, sensitised]
        split
        · rename_i hy
          rw [hy, linked.triggersOf hv]
        · rename_i hy
          rw [linked.triggersOf hw, List.erase_of_not_mem]
          rw [linked.listed.mem, added]
          exact fun same => hy (Option.some.inj same).symm
      · rw [sensitised, linked.absent y gone, List.erase_nil]

theorem TrigRun.linked {s₀ : State} (run : TrigRun s₀ h s)
    (empty : ∀ x v, s₀.sv? x = some v → v.triggers = none) : Linked s h := by
  induction run with
  | refl => exact .start empty
  | step before legal done ih =>
      obtain ⟨t, run, linked⟩ := ih.step legal
      rw [done] at run
      exact Except.ok.inj run ▸ linked

end Linked

/-- A visit of the triggers of a list, one after the other, that wakes the
records of the priorities told. -/
def visit (sizes : QueueSizes) (wakes : Nat → Bool) : List TriggerPtr → State → Res
  | [], s => .ok s
  | trig :: rest, s => do
      let t ← s.loadTrigger trig
      let a ← s.loadAct t.act
      let s ← (if wakes a.priority then ssmActivate sizes t.act s else .ok s)
      visit sizes wakes rest s

/-- The loop over a chain is a visit of its triggers, each once. -/
theorem wake_eq_visit {sizes : QueueSizes} {wakes : Nat → Bool} {s u : State} {l : Link}
    {first : Option TriggerPtr} {ts : List TriggerPtr} (c : Chain u l first ts)
    (same : s.triggers = u.triggers) {fuel : Nat} (enough : ts.length ≤ fuel) :
    wake sizes wakes fuel first s = visit sizes wakes ts s := by
  induction c generalizing s fuel with
  | nil => cases fuel <;> rfl
  | @cons l t ts live prev rest ih =>
      cases fuel with
      | zero => simp at enough
      | succ fuel =>
          rw [wake, visit, State.loadTrigger_of_mem (by rw [same]; exact live), ok_bind, ok_bind,
            same]
          refine bind_congr fun a => ?_
          cases step : (if wakes a.priority = true then
              ssmActivate sizes (u.triggers.val t).act s else .ok s : Res) with
          | error e => rfl
          | ok v =>
              rw [ok_bind, ok_bind]
              refine ih ?_ (by simpa using enough)
              split at step
              · exact (ssmActivate_sameHeap step).triggers.trans same
              · rw [← Except.ok.inj step, same]

/-- A drop writes no trigger and no head of a trigger list. -/
structure SameLists (s t : State) : Prop where
  triggers : t.triggers = s.triggers
  head : ∀ x w, t.sv? x = some w → ∃ v, s.sv? x = some v ∧ w.triggers = v.triggers

theorem SameLists.of_svs {s t : State} (triggers : t.triggers = s.triggers)
    (svs : ∀ x w, t.sv? x = some w → s.sv? x = some w) : SameLists s t :=
  ⟨triggers, fun x w hw => ⟨w, svs x w hw, rfl⟩⟩

theorem SameLists.trans {s t u : State} (h : SameLists s t) (k : SameLists t u) :
    SameLists s u where
  triggers := k.triggers.trans h.triggers
  head := fun x w hw => by
    obtain ⟨v, hv, eq⟩ := k.head x w hw
    obtain ⟨v', hv', eq'⟩ := h.head x v hv
    exact ⟨v', hv', eq.trans eq'⟩

theorem ssmUnschedule_sameLists {s t : State} {a : Addr} (h : ssmUnschedule a s = .ok t) :
    SameLists s t := by
  obtain rfl | ⟨v, q, n, hv, rfl⟩ := ssmUnschedule_eq_ok h
  · exact .of_svs rfl fun _ _ hw => hw
  · refine ⟨rfl, fun x w hw => ?_⟩
    rw [State.withQueue_sv?] at hw
    by_cases hx : x = a
    · subst hx
      rw [State.sv?_setSv_self hv] at hw
      exact ⟨v, hv, by rw [← Option.some.inj hw]⟩
    · rw [State.sv?_setSv_of_ne _ hx] at hw
      exact ⟨w, hw, rfl⟩

theorem dropKeeps_sameLists : DropKeeps SameLists where
  refl := fun _ => .of_svs rfl fun _ _ hw => hw
  trans := SameLists.trans
  count := fun {s a o} n loaded => .of_svs rfl fun x w hw => by
    obtain ⟨mem, body⟩ := State.sv?_eq_some.mp hw
    refine State.sv?_eq_some.mpr ⟨mem, ?_⟩
    by_cases hx : x = a
    · subst hx
      rw [← body, ← (State.loadObj_eq_ok.mp loaded).2]
      simp [State.setObj]
    · rwa [State.setObj, Table.write_val_of_ne _ _ hx] at body
  unschedule := ssmUnschedule_sameLists
  release := fun s a => .of_svs rfl fun x w hw => by
    obtain ⟨mem, body⟩ := State.sv?_eq_some.mp hw
    exact State.sv?_eq_some.mpr ⟨Finset.mem_of_mem_erase mem, body⟩

def Sv.assigned (v : Sv) (val : Value) (now : Nat) : Sv :=
  { v with value := val, lastUpdated := now }

theorem Linked.assign {s : State} {h : List TrigCall} {x : Addr} {v : Sv} (linked : Linked s h)
    (hv : s.sv? x = some v) (sizes : QueueSizes) (prio : Nat) (val : Value) :
    ssmSvAssignUnsafe sizes x prio val s = visit sizes (fun p => prio < p) (sensitised h x)
      (s.setSv x (v.assigned val s.now)) := by
  have c := linked.chain x v hv
  unfold ssmSvAssignUnsafe
  rw [State.loadSv_of_sv? hv, ok_bind]
  exact wake_eq_visit (s := s.setSv x _) c rfl c.length_le

theorem Linked.update {s : State} {h : List TrigCall} {x : Addr} {v : Sv} (linked : Linked s h)
    (hv : s.sv? x = some v) (sizes : QueueSizes) :
    ssmUpdate sizes x s = if s.now ≠ v.laterTime then ssmThrow .notReady s else (do
      let u ← ssmDrop v.value s
      let w ← u.loadSv x
      visit sizes (fun _ => true) (sensitised h x) (u.setSv x (w.updated u.now))) := by
  unfold ssmUpdate
  rw [State.loadSv_of_sv? hv, ok_bind]
  split
  · rfl
  · cases dropped : ssmDrop v.value s with
    | error e => rfl
    | ok u =>
        rw [ok_bind, ok_bind]
        cases loaded : u.loadSv x with
        | error e => rfl
        | ok w =>
            rw [ok_bind, ok_bind]
            -- The drop may have freed other variables; the list of this one is as before.
            have same : SameLists s u := dropKeeps_sameLists.dropWith _ dropped
            obtain ⟨v', hv', head⟩ := same.head x w (State.loadSv_eq_ok.mp loaded)
            have c := linked.chain x v' hv'
            rw [← head] at c
            refine wake_eq_visit (s := u.setSv x _) c same.triggers ?_
            change _ ≤ u.triggers.dom.card
            rw [same.triggers]
            exact c.length_le

/-- The trigger lists in every state of every run of sensitizing and
desensitizing from empty lists. -/
theorem triggers_exact {s₀ s : State} {h : List TrigCall}
    (empty : ∀ x v, s₀.sv? x = some v → v.triggers = none) (run : TrigRun s₀ h s) :
    (∀ x v, s.sv? x = some v → Chain s (.triggersOf x) v.triggers (sensitised h x)) ∧
    (∀ x t, t ∈ sensitised h x ↔ addedTo h t = some x) ∧
    (∀ x, (sensitised h x).Nodup) ∧
    (∀ x t, sensitised (.desensitize t :: h) x = (sensitised h x).filter (· != t)) ∧
    (∀ c, TrigLegal s h c → ∃ t, c.exec s = .ok t) ∧
    ∀ sizes x v, s.sv? x = some v →
      (∀ prio val, ssmSvAssignUnsafe sizes x prio val s =
        visit sizes (fun p => prio < p) (sensitised h x) (s.setSv x (v.assigned val s.now))) ∧
      ssmUpdate sizes x s = if s.now ≠ v.laterTime then ssmThrow .notReady s else (do
        let u ← ssmDrop v.value s
        let w ← u.loadSv x
        visit sizes (fun _ => true) (sensitised h x) (u.setSv x (w.updated u.now))) := by
  have linked := run.linked empty
  refine ⟨linked.chain, linked.listed.mem, linked.listed.nodup, fun x t => ?_, fun c legal => ?_,
    fun sizes x v hv => ⟨linked.assign hv sizes, linked.update hv sizes⟩⟩
  · exact (linked.listed.nodup x).erase_eq_filter t
  · obtain ⟨t, done, -⟩ := linked.step legal
    exact ⟨t, done⟩

/-- Two variables and three triggers. -/
def listening : State :=
  { boot with
    objs := ⟨{10, 20}, fun _ => ⟨1, .sv State.blankSv⟩⟩
    triggers := ⟨{1, 2, 3}, fun _ => ⟨none, .nextOf 9, ssmTopParent⟩⟩ }

/-- The middle of a list of three leaves it and goes to another variable. -/
theorem triggers_exact_moved : ∃ h s, TrigRun listening h s ∧ sensitised h 10 = [3, 1] ∧
    sensitised h 20 = [2] ∧ ∀ x v, s.sv? x = some v →
      Chain s (.triggersOf x) v.triggers (sensitised h x) := by
  have legal : ∀ {s : State} {h : List TrigCall} {c : TrigCall}, Alternates h c →
      (∀ x t, c = .sensitize x t → (s.sv? x).isSome) → c.trig ∈ s.triggers.dom →
      TrigLegal s h c := fun turn var live => ⟨turn, var, live⟩
  have run := (((((@TrigRun.refl listening).step
    (c := .sensitize 10 1) (legal rfl (by rintro _ _ ⟨⟩; rfl) (by decide)) rfl).step
    (c := .sensitize 10 2) (legal rfl (by rintro _ _ ⟨⟩; rfl) (by decide)) rfl).step
    (c := .sensitize 10 3) (legal rfl (by rintro _ _ ⟨⟩; rfl) (by decide)) rfl).step
    (c := .desensitize 2) (legal rfl (by simp) (by decide)) rfl).step
    (c := .sensitize 20 2) (legal rfl (by rintro _ _ ⟨⟩; rfl) (by decide)) rfl
  refine ⟨_, _, run, rfl, rfl, (triggers_exact (fun x v hv => ?_) run).1⟩
  obtain ⟨-, body⟩ := State.sv?_eq_some.mp hv
  cases body
  rfl

end SsmRuntime
