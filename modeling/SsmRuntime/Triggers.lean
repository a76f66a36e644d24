import Mathlib.Data.List.Nodup
import SsmRuntime.ActQueue

/-!
Trigger lists. A list starts in the `triggers` field of a variable and goes
through the `next` fields; the `prev_ptr` of each trigger addresses the field
that points to it. So no trigger is met twice, on one list or on two.
-/
namespace SsmRuntime

/-- `ts` is what is met from a field that is addressed by `l` and holds `head`. -/
inductive Chain (s : State) : Link → Option TriggerPtr → List TriggerPtr → Prop
  | nil (l : Link) : Chain s l none []
  | cons {l : Link} {t : TriggerPtr} {ts : List TriggerPtr} (live : t ∈ s.triggers.dom)
      (prev : (s.triggers.val t).prevPtr = l)
      (rest : Chain s (.nextOf t) (s.triggers.val t).next ts) : Chain s l (some t) (t :: ts)

def walkTriggers (T : Table Trigger) : Nat → Option TriggerPtr → List TriggerPtr
  | 0, _ => []
  | _, none => []
  | n + 1, some t => t :: walkTriggers T n (T.val t).next

/-- The triggers of a variable, in list order. -/
def triggersOf (s : State) (x : Addr) : List TriggerPtr :=
  walkTriggers s.triggers s.triggers.dom.card (s.svAt x).triggers

def State.actOf (s : State) (t : TriggerPtr) : ActPtr := (s.triggers.val t).act

/-- Every variable starts a chain. -/
def ChainsOk (s : State) : Prop :=
  ∀ x v, s.sv? x = some v → Chain s (.triggersOf x) v.triggers (triggersOf s x)

structure TriggersOk (s : State) : Prop where
  chain : ChainsOk s
  act : ∀ x v t, s.sv? x = some v → t ∈ triggersOf s x → s.actOf t ∈ s.acts.dom

section Chain
variable {s : State} {l : Link} {h : Option TriggerPtr} {ts : List TriggerPtr}

theorem Chain.congr {s' : State} (c : Chain s l h ts)
    (same : ∀ t, t ∈ ts → t ∈ s'.triggers.dom ∧ s'.triggers.val t = s.triggers.val t) :
    Chain s' l h ts := by
  induction c with
  | nil l => exact .nil l
  | @cons l t ts live prev rest ih =>
      obtain ⟨live', eq⟩ := same t (by simp)
      refine .cons live' (by rw [eq, prev]) ?_
      rw [eq]
      exact ih fun u hu => same u (by simp [hu])

theorem Chain.live (c : Chain s l h ts) {t : TriggerPtr} (ht : t ∈ ts) : t ∈ s.triggers.dom := by
  induction c with
  | nil => simp at ht
  | cons live _ _ ih =>
      rcases List.mem_cons.mp ht with rfl | ht
      · exact live
      · exact ih ht

theorem Chain.prev_zero {t : TriggerPtr} (c : Chain s l h ts) (ht : ts[0]? = some t) :
    (s.triggers.val t).prevPtr = l := by
  cases c with
  | nil => simp at ht
  | cons live prev rest =>
      simp only [List.getElem?_cons_zero, Option.some.injEq] at ht
      rw [← ht, prev]

theorem Chain.prev_succ {t : TriggerPtr} (c : Chain s l h ts) {i : Nat}
    (ht : ts[i + 1]? = some t) :
    ∃ p, ts[i]? = some p ∧ (s.triggers.val t).prevPtr = .nextOf p := by
  induction c generalizing i with
  | nil => simp at ht
  | @cons l u us live prev rest ih =>
      rw [List.getElem?_cons_succ] at ht
      cases i with
      | zero => exact ⟨u, rfl, rest.prev_zero ht⟩
      | succ i =>
          obtain ⟨p, hp, link⟩ := ih ht
          exact ⟨p, by rwa [List.getElem?_cons_succ], link⟩

/-- The place of a trigger is told by following `prev_ptr` back to the start. -/
theorem Chain.place_unique {x y : Addr} {g : Option TriggerPtr} {us : List TriggerPtr} {i j : Nat}
    {t : TriggerPtr} (c : Chain s (.triggersOf x) h ts) (d : Chain s (.triggersOf y) g us)
    (hi : ts[i]? = some t) (hj : us[j]? = some t) : x = y ∧ i = j := by
  induction i generalizing j t with
  | zero =>
      have start := c.prev_zero hi
      cases j with
      | zero =>
          rw [d.prev_zero hj] at start
          exact ⟨(Link.triggersOf.inj start).symm, rfl⟩
      | succ j =>
          obtain ⟨p, -, link⟩ := d.prev_succ hj
          rw [link] at start
          cases start
  | succ i ih =>
      obtain ⟨p, hp, link⟩ := c.prev_succ hi
      cases j with
      | zero =>
          rw [d.prev_zero hj] at link
          cases link
      | succ j =>
          obtain ⟨q, hq, link'⟩ := d.prev_succ hj
          rw [link] at link'
          cases link'
          obtain ⟨same, eq⟩ := ih hp hq
          exact ⟨same, by rw [eq]⟩

theorem Chain.nodup {x : Addr} (c : Chain s (.triggersOf x) h ts) : ts.Nodup := by
  rw [List.nodup_iff_injective_getElem]
  intro i j same
  have hi : ts[i.val]? = some ts[i.val] := List.getElem?_eq_getElem i.isLt
  have hj : ts[j.val]? = some ts[i.val] := by
    rw [List.getElem?_eq_getElem j.isLt]
    exact congrArg some same.symm
  exact Fin.ext (c.place_unique c hi hj).2

theorem Chain.disjoint {x y : Addr} {g : Option TriggerPtr} {us : List TriggerPtr}
    (c : Chain s (.triggersOf x) h ts) (d : Chain s (.triggersOf y) g us) {t : TriggerPtr}
    (ht : t ∈ ts) (hu : t ∈ us) : x = y := by
  obtain ⟨i, hi⟩ := List.mem_iff_getElem?.mp ht
  obtain ⟨j, hj⟩ := List.mem_iff_getElem?.mp hu
  exact (c.place_unique d hi hj).1

theorem Chain.length_le {x : Addr} (c : Chain s (.triggersOf x) h ts) :
    ts.length ≤ s.triggers.dom.card := by
  rw [← List.toFinset_card_of_nodup c.nodup]
  exact Finset.card_le_card fun t ht => c.live (List.mem_toFinset.mp ht)

theorem Chain.walk (c : Chain s l h ts) {n : Nat} (enough : ts.length ≤ n) :
    walkTriggers s.triggers n h = ts := by
  induction c generalizing n with
  | nil => cases n <;> rfl
  | @cons l t ts live prev rest ih =>
      cases n with
      | zero => simp at enough
      | succ n => rw [walkTriggers, ih (by simpa using enough)]

theorem Chain.triggersOf_eq {x : Addr} {v : Sv} (c : Chain s (.triggersOf x) v.triggers ts)
    (hv : s.sv? x = some v) : triggersOf s x = ts := by
  rw [triggersOf, State.svAt_of_sv? hv]
  exact c.walk c.length_le

end Chain

/-- The records with a trigger on a variable whose priority is to be woken. -/
def listeners (s : State) (x : Addr) (wakes : Nat → Bool) : Finset ActPtr :=
  (((triggersOf s x).map s.actOf).filter fun a => wakes (s.priorityAt a)).toFinset

theorem mem_listeners {s : State} {x : Addr} {wakes : Nat → Bool} {a : ActPtr} :
    a ∈ listeners s x wakes ↔
      (∃ t, t ∈ triggersOf s x ∧ s.actOf t = a) ∧ wakes (s.priorityAt a) = true := by
  simp [listeners]

/-- Waking a list is activating the records of its triggers in turn. -/
theorem wake_eq_activateAll {sizes : SafeSizes} {wakes : Nat → Bool} {s : State} {l : Link}
    {h : Option TriggerPtr} {ts : List TriggerPtr} (c : Chain s l h ts) {fuel : Nat}
    (enough : ts.length ≤ fuel) (ok : ActQueueOk sizes s)
    (live : ∀ t, t ∈ ts → s.actOf t ∈ s.acts.dom) :
    wake sizes wakes fuel h s =
      activateAll sizes ((ts.map s.actOf).filter fun a => wakes (s.priorityAt a)) s := by
  induction ts generalizing s l h fuel with
  | nil =>
      cases c
      cases fuel <;> rfl
  | cons t ts ih =>
      cases c with
      | cons trig prev rest =>
          cases fuel with
          | zero => simp at enough
          | succ fuel =>
              have act : s.actOf t ∈ s.acts.dom := live t (by simp)
              have load := State.loadTrigger_of_mem trig
              have loadAct : s.loadAct (s.triggers.val t).act = .ok (s.acts.val (s.actOf t)) :=
                State.loadAct_of_mem act
              rw [wake, load, ok_bind, loadAct, ok_bind, List.map_cons]
              by_cases up : wakes (s.priorityAt (s.actOf t)) = true
              · rw [List.filter_cons_of_pos (by simpa using up), activateAll]
                rw [if_pos (show wakes (s.acts.val (s.actOf t)).priority = true from up)]
                change (ssmActivate sizes (s.actOf t) s >>= _) = _
                cases run : ssmActivate sizes (s.actOf t) s with
                | error e => rfl
                | ok u =>
                    have spec := ssmActivate_spec ok act
                    split at spec
                    · obtain ⟨u', run', ok', woken⟩ := spec
                      rw [run] at run'
                      cases run'
                      have same : u.triggers = s.triggers := woken.heap.triggers
                      have acts : u.actOf = s.actOf := by
                        funext b
                        rw [State.actOf, same, State.actOf]
                      rw [ok_bind, ok_bind, ih (s := u) (rest.congr fun b hb => by
                        rw [same]
                        exact ⟨rest.live hb, rfl⟩) (by simpa using enough) ok' fun b hb => by
                          rw [acts, woken.dom]
                          exact live b (by simp [hb]), acts, woken.priorityAt]
                    · obtain ⟨u', run'⟩ := spec
                      rw [run] at run'
                      cases run'
              · rw [List.filter_cons_of_neg (by simpa using up)]
                rw [if_neg (show ¬ wakes (s.acts.val (s.actOf t)).priority = true from up), ok_bind]
                exact ih rest (by simpa using enough) ok fun b hb => live b (by simp [hb])

/-- What waking the triggers of a variable does. -/
theorem wake_spec {sizes : SafeSizes} (wakes : Nat → Bool) {s : State} {x : Addr} {v : Sv}
    (tr : TriggersOk s) (ok : ActQueueOk sizes s) (hv : s.sv? x = some v) :
    if (scheduledSet s ∪ listeners s x wakes).card ≤ sizes.act then
      ∃ t, wake sizes wakes s.triggers.dom.card v.triggers s = .ok t ∧ ActQueueOk sizes t ∧
        Woken s t (· ∈ listeners s x wakes)
    else ∃ u, wake sizes wakes s.triggers.dom.card v.triggers s =
      .error ⟨.thrown .exhaustedActQueue, u⟩ := by
  have c := tr.chain x v hv
  rw [wake_eq_activateAll c c.length_le ok fun t ht => tr.act x v t hv ht]
  have spec := activateAll_spec sizes
    (((triggersOf s x).map s.actOf).filter fun a => wakes (s.priorityAt a)) ok fun a ha => by
      obtain ⟨t, ht, rfl⟩ := List.mem_map.mp (List.mem_of_mem_filter ha)
      exact tr.act x v t hv ht
  split at spec
  · rename_i room
    obtain ⟨t, run, ok', woken⟩ := spec
    rw [if_pos (show (scheduledSet s ∪ listeners s x wakes).card ≤ sizes.act from room)]
    exact ⟨t, run, ok', woken.iff fun a => by simp [listeners]⟩
  · rename_i full
    rw [if_neg (show ¬ (scheduledSet s ∪ listeners s x wakes).card ≤ sizes.act from full)]
    exact spec

/-- A variable without the head of its trigger list. -/
def Sv.seen (v : Sv) : Sv := { v with triggers := none }

def State.seen? (s : State) (x : Addr) : Option Sv := (s.sv? x).map Sv.seen

/-- Only the order and ends of trigger lists have changed: `L` are the lists now. -/
structure Relisted (s t : State) (L : Addr → List TriggerPtr) : Prop where
  seen : ∀ x, t.seen? x = s.seen? x
  chain : ∀ x v, t.sv? x = some v → Chain t (.triggersOf x) v.triggers (L x)
  dom : t.triggers.dom = s.triggers.dom
  act : t.actOf = s.actOf
  acts : t.acts = s.acts
  actQueue : t.actQueue = s.actQueue
  actQueueLen : t.actQueueLen = s.actQueueLen
  eventQueue : t.eventQueue = s.eventQueue
  eventQueueLen : t.eventQueueLen = s.eventQueueLen
  now : t.now = s.now
  numProcesses : t.numProcesses = s.numProcesses
  objs : t.objs.dom = s.objs.dom

theorem Relisted.triggersOf {s t : State} {L : Addr → List TriggerPtr} (r : Relisted s t L)
    {x : Addr} {v : Sv} (hv : t.sv? x = some v) : triggersOf t x = L x :=
  (r.chain x v hv).triggersOf_eq hv

theorem State.seen?_eq_some {s : State} {x : Addr} {w : Sv} :
    s.seen? x = some w ↔ ∃ v, s.sv? x = some v ∧ v.seen = w := by
  simp [State.seen?]

theorem Relisted.sv? {s t : State} {L : Addr → List TriggerPtr} (r : Relisted s t L) {x : Addr}
    {v : Sv} (hv : t.sv? x = some v) : ∃ w, s.sv? x = some w ∧ w.seen = v.seen := by
  have same := r.seen x
  rw [State.seen?, hv, Option.map_some] at same
  exact State.seen?_eq_some.mp same.symm

/-- The lists after `trig` has been put in front of the list of `x`. -/
def sensitized (s : State) (x : Addr) (trig : TriggerPtr) (y : Addr) : List TriggerPtr :=
  if y = x then trig :: triggersOf s x else triggersOf s y

theorem seen_setSv_triggers {s : State} {x : Addr} {v : Sv} (hv : s.sv? x = some v)
    (head : Option TriggerPtr) (y : Addr) :
    (s.setSv x { v with triggers := head }).seen? y = s.seen? y := by
  by_cases hy : y = x
  · subst hy
    rw [State.seen?, State.sv?_setSv_self hv, State.seen?, hv]
    rfl
  · rw [State.seen?, State.sv?_setSv_of_ne _ hy, State.seen?]

/-- The triggers once `trig` stands before `head` on the list of `x`. -/
def linkedIn (s : State) (x : Addr) (head : Option TriggerPtr) (trig : TriggerPtr) :
    Table Trigger :=
  ⟨s.triggers.dom, fun u =>
    if u = trig then ⟨head, .triggersOf x, s.actOf trig⟩
    else if head = some u then { s.triggers.val u with prevPtr := .nextOf trig }
    else s.triggers.val u⟩

theorem linkedIn_self (s : State) (x : Addr) (head : Option TriggerPtr) (trig : TriggerPtr) :
    (linkedIn s x head trig).val trig = ⟨head, .triggersOf x, s.actOf trig⟩ := if_pos rfl

theorem linkedIn_act (s : State) (x : Addr) (head : Option TriggerPtr) (trig u : TriggerPtr) :
    ((linkedIn s x head trig).val u).act = s.actOf u := by
  simp only [linkedIn, State.actOf]
  split
  · rename_i hu
    rw [hu]
  · split <;> rfl

theorem ssmSvSensitize_eq {s : State} {x : Addr} {v : Sv} {trig : TriggerPtr}
    (hv : s.sv? x = some v) (live : trig ∈ s.triggers.dom) (headNe : v.triggers ≠ some trig)
    (headLive : ∀ f, v.triggers = some f → f ∈ s.triggers.dom) :
    ssmSvSensitize x trig s = .ok { s.setSv x { v with triggers := some trig } with
      triggers := linkedIn s x v.triggers trig } := by
  have finish : ∀ u : State, u.triggers.dom = s.triggers.dom →
      (u.loadTrigger trig >>= fun t : Trigger =>
        (.ok (u.setTrigger trig { t with prevPtr := .triggersOf x }) : Res)) =
      .ok (u.setTrigger trig { u.triggers.val trig with prevPtr := .triggersOf x }) := by
    intro u dom
    rw [State.loadTrigger_of_mem (by rw [dom]; exact live), ok_bind]
  unfold ssmSvSensitize
  rw [State.loadSv_of_sv? hv, ok_bind, State.loadTrigger_of_mem live, ok_bind]
  cases head : v.triggers with
  | none =>
      simp only [ok_bind]
      refine (finish _ ?_).trans ?_
      · rfl
      refine congrArg (fun T => Except.ok { s.setSv x { v with triggers := some trig } with
        triggers := T }) (congrArg (Table.mk s.triggers.dom) (funext fun u => ?_))
      by_cases hu : u = trig
      · subst hu
        simp [State.actOf, State.setTrigger, State.setSv, State.setObj, Table.write]
      · simp [hu, State.setTrigger, State.setSv, State.setObj, Table.write]
  | some f =>
      have hf : f ≠ trig := fun eq => headNe (by rw [head, eq])
      have loadF : State.loadTrigger (s.setTrigger trig
          { s.triggers.val trig with next := some f }) f = .ok (s.triggers.val f) := by
        refine (State.loadTrigger_of_mem (s := s.setTrigger trig _) (headLive f head)).trans ?_
        rw [State.setTrigger, Table.write_val_of_ne _ _ hf]
      simp only [loadF, ok_bind]
      refine (finish _ ?_).trans ?_
      · rfl
      refine congrArg (fun T => Except.ok { s.setSv x { v with triggers := some trig } with
        triggers := T }) (congrArg (Table.mk s.triggers.dom) (funext fun u => ?_))
      by_cases hu : u = trig
      · subst hu
        simp [State.actOf, Ne.symm hf, State.setTrigger, State.setSv, State.setObj, Table.write]
      · by_cases huf : u = f
        · subst huf
          simp [hu, State.setTrigger, State.setSv, State.setObj, Table.write]
        · simp [hu, huf, Ne.symm huf, State.setTrigger, State.setSv, State.setObj, Table.write]

theorem Chain.uncons {s : State} {l : Link} {h : Option TriggerPtr} {ts : List TriggerPtr}
    (c : Chain s l h ts) : (h = none ∧ ts = []) ∨ ∃ f us, h = some f ∧ ts = f :: us ∧
      f ∈ s.triggers.dom ∧ (s.triggers.val f).prevPtr = l ∧
        Chain s (.nextOf f) (s.triggers.val f).next us := by
  cases c with
  | nil => exact Or.inl ⟨rfl, rfl⟩
  | cons live prev rest => exact Or.inr ⟨_, _, rfl, rfl, live, prev, rest⟩

theorem Chain.head_mem {s : State} {l : Link} {f : TriggerPtr} {ts : List TriggerPtr}
    (c : Chain s l (some f) ts) : f ∈ ts := by
  cases c
  simp

theorem ssmSvSensitize_spec {s : State} {x : Addr} {v : Sv} {trig : TriggerPtr}
    (chains : ChainsOk s) (hv : s.sv? x = some v) (live : trig ∈ s.triggers.dom)
    (idle : ∀ y w, s.sv? y = some w → trig ∉ triggersOf s y) :
    ∃ t, ssmSvSensitize x trig s = .ok t ∧ Relisted s t (sensitized s x trig) := by
  have c := chains x v hv
  have headMem : ∀ f, v.triggers = some f → f ∈ triggersOf s x := fun f head => by
    rw [head] at c
    exact c.head_mem
  have headNe : v.triggers ≠ some trig := fun head => idle x v hv (headMem trig head)
  have off : ∀ y w u, s.sv? y = some w → u ∈ triggersOf s y → v.triggers ≠ some u →
      (linkedIn s x v.triggers trig).val u = s.triggers.val u := by
    intro y w u hw hu notHead
    have notTrig : u ≠ trig := fun eq => idle y w hw (eq ▸ hu)
    simp [linkedIn, notTrig, notHead]
  refine ⟨_, ssmSvSensitize_eq hv live headNe fun f head => c.live (headMem f head), ?_⟩
  refine ⟨fun y => seen_setSv_triggers hv _ y, fun y w hw => ?_, rfl,
    funext fun u => linkedIn_act s x _ trig u, rfl, rfl, rfl, rfl, rfl, rfl, rfl, rfl⟩
  unfold sensitized
  split
  · rename_i hy
    subst hy
    have here := State.sv?_setSv_self (w := { v with triggers := some trig }) hv
    rw [← Option.some.inj (here.symm.trans hw)]
    refine .cons live (by rw [linkedIn_self]) ?_
    rw [linkedIn_self]
    -- The old first trigger now points back to the new one; the rest is as it was.
    rcases c.uncons with ⟨none, empty⟩ | ⟨f, us, head, list, fLive, -, rest⟩
    · rw [none, empty]
      exact .nil _
    · have nodup := c.nodup
      rw [list] at nodup
      have fNe : f ≠ trig := fun eq => headNe (by rw [head, eq])
      have first : (linkedIn s y v.triggers trig).val f =
          { s.triggers.val f with prevPtr := .nextOf trig } := by simp [linkedIn, fNe, head]
      rw [list]
      nth_rewrite 2 [head]
      refine .cons fLive (by rw [first]) ?_
      rw [first]
      refine rest.congr fun u hu => ⟨rest.live hu, off y v u hv (by rw [list]; simp [hu]) ?_⟩
      rw [head]
      rintro ⟨rfl⟩
      exact (List.nodup_cons.mp nodup).1 hu
  · rename_i hy
    have hw' : s.sv? y = some w := (State.sv?_setSv_of_ne _ hy).symm.trans hw
    have d := chains y w hw'
    refine d.congr fun u hu => ⟨d.live hu, off y w u hw' hu fun head => hy ?_⟩
    exact d.disjoint c hu (headMem u head)

/-- The triggers once the neighbours of `trig` point past it. -/
def unlinked (s : State) (trig : TriggerPtr) : Table Trigger :=
  ⟨s.triggers.dom, fun u => { s.triggers.val u with
    next := if (s.triggers.val trig).prevPtr = .nextOf u then (s.triggers.val trig).next
      else (s.triggers.val u).next
    prevPtr := if (s.triggers.val trig).next = some u then (s.triggers.val trig).prevPtr
      else (s.triggers.val u).prevPtr }⟩

/-- Where the list starts with `trig`, its variable points past it as well. -/
def unlinkedHead (s : State) (trig : TriggerPtr) : State :=
  match (s.triggers.val trig).prevPtr with
  | .triggersOf y => s.setSv y { s.svAt y with triggers := (s.triggers.val trig).next }
  | .nextOf _ => s

/-- The last write of a desensitization: the trigger that follows points past `t`. -/
def relinkNext (t : Trigger) (s : State) : Res :=
  match t.next with
  | some succ => do
      let n ← s.loadTrigger succ
      .ok (s.setTrigger succ { n with prevPtr := t.prevPtr })
  | none => .ok s

/-- After the first write the next field of `trig` reads as before. -/
theorem relinkNext_eq {s u : State} {trig : TriggerPtr} (live : trig ∈ s.triggers.dom)
    (succLive : ∀ f, (s.triggers.val trig).next = some f → f ∈ s.triggers.dom)
    (dom : u.triggers.dom = s.triggers.dom)
    (fields : ∀ w, (u.triggers.val w).act = (s.triggers.val w).act ∧
      (u.triggers.val w).prevPtr = (s.triggers.val w).prevPtr ∧
      (u.triggers.val w).next = if (s.triggers.val trig).prevPtr = .nextOf w then
        (s.triggers.val trig).next else (s.triggers.val w).next) :
    (u.loadTrigger trig >>= fun t => relinkNext t u) =
      .ok { u with triggers := unlinked s trig } := by
  have own : (u.triggers.val trig).next = (s.triggers.val trig).next := by
    rw [(fields trig).2.2]
    split <;> rfl
  rw [State.loadTrigger_of_mem (by rw [dom]; exact live), ok_bind, relinkNext, own,
    (fields trig).2.1]
  have entry : ∀ w, (s.triggers.val trig).next ≠ some w →
      u.triggers.val w = (unlinked s trig).val w := by
    intro w hw
    obtain ⟨act, prev, next⟩ := fields w
    simp only [unlinked, if_neg hw]
    rw [← act, ← prev, ← next]
  cases hnext : (s.triggers.val trig).next with
  | none =>
      refine congrArg (fun T => Except.ok { u with triggers := T }) ?_
      change (⟨u.triggers.dom, u.triggers.val⟩ : Table Trigger) = _
      rw [dom]
      exact congrArg (Table.mk _) (funext fun w => entry w (by simp [hnext]))
  | some f =>
      simp only [State.loadTrigger_of_mem (show f ∈ u.triggers.dom by
        rw [dom]; exact succLive f hnext), ok_bind]
      refine congrArg (fun T => Except.ok { u with triggers := T }) ?_
      change (⟨u.triggers.dom, _⟩ : Table Trigger) = _
      rw [dom]
      refine congrArg (Table.mk _) (funext fun w => ?_)
      by_cases hw : w = f
      · subst hw
        obtain ⟨act, prev, next⟩ := fields w
        rw [Function.update_self]
        simp only [if_pos hnext]
        rw [← act, next]
      · rw [Function.update_of_ne hw]
        exact entry w (by simp [hnext, Ne.symm hw])

theorem ssmSvDesensitize_eq {s : State} {trig : TriggerPtr} (live : trig ∈ s.triggers.dom)
    (headLive : ∀ y, (s.triggers.val trig).prevPtr = .triggersOf y → (s.sv? y).isSome)
    (predLive : ∀ p, (s.triggers.val trig).prevPtr = .nextOf p → p ∈ s.triggers.dom)
    (succLive : ∀ f, (s.triggers.val trig).next = some f → f ∈ s.triggers.dom) :
    ssmSvDesensitize trig s = .ok { unlinkedHead s trig with triggers := unlinked s trig } := by
  unfold ssmSvDesensitize
  rw [State.loadTrigger_of_mem live, ok_bind]
  unfold unlinkedHead
  cases hp : (s.triggers.val trig).prevPtr with
  | triggersOf y =>
      obtain ⟨v, hv⟩ := Option.isSome_iff_exists.mp (headLive y hp)
      simp only [State.loadSv_of_sv? hv, ok_bind, State.svAt_of_sv? hv]
      exact relinkNext_eq live succLive rfl fun w => ⟨rfl, rfl, by simp [hp]; rfl⟩
  | nextOf p =>
      simp only [State.loadTrigger_of_mem (predLive p hp), ok_bind]
      refine (relinkNext_eq (u := s.setTrigger p _) live succLive rfl fun w => ?_).trans rfl
      by_cases hw : w = p
      · subst hw
        simp [State.setTrigger, hp]
      · simp [State.setTrigger, Table.write_val_of_ne _ _ hw, hp, Ne.symm hw]

theorem unlinked_of_ne {s : State} {trig u : TriggerPtr}
    (pred : (s.triggers.val trig).prevPtr ≠ .nextOf u)
    (succ : (s.triggers.val trig).next ≠ some u) :
    (unlinked s trig).val u = s.triggers.val u := by
  simp [unlinked, pred, succ]

theorem Chain.next_mem {s : State} {trig p : TriggerPtr} {l : Link} {h : Option TriggerPtr}
    {pre post : List TriggerPtr} (c : Chain s l h (pre ++ trig :: post))
    (next : (s.triggers.val trig).next = some p) : p ∈ post := by
  induction pre generalizing l h with
  | nil =>
      cases c with
      | cons _ _ rest =>
          rw [next] at rest
          exact rest.head_mem
  | cons a pre ih =>
      cases c with
      | cons _ _ rest => exact ih rest

/-- Taking one trigger out of a chain. -/
theorem Chain.unlink {s t : State} {trig : TriggerPtr} {l : Link} {h : Option TriggerPtr}
    {pre post : List TriggerPtr} (c : Chain s l h (pre ++ trig :: post))
    (nodup : (pre ++ trig :: post).Nodup) (start : ∀ u, u ∈ pre ++ trig :: post → l ≠ .nextOf u)
    (after : t.triggers = unlinked s trig) :
    Chain t l (if (s.triggers.val trig).prevPtr = l then (s.triggers.val trig).next else h)
      (pre ++ post) := by
  induction pre generalizing l h with
  | nil =>
      cases c with
      | cons live prev rest =>
          rw [if_pos prev]
          obtain ⟨notPost, nodupPost⟩ := List.nodup_cons.mp nodup
          rcases rest.uncons with ⟨none, empty⟩ | ⟨f, us, next, list, fLive, -, tail⟩
          · rw [none, List.nil_append, empty]
            exact .nil l
          · have noPred : ∀ u, u ∈ post →
                (s.triggers.val trig).prevPtr ≠ .nextOf u := fun u hu => by
              rw [prev]
              exact start u (by simp [hu])
            rw [next, List.nil_append, list]
            rw [list] at nodupPost
            have first : t.triggers.val f =
                { s.triggers.val f with prevPtr := l } := by
              rw [after]
              simp [unlinked, next, prev, start f (by simp [list])]
            refine .cons (by rw [after]; exact fLive) (by rw [first]) ?_
            rw [first]
            refine tail.congr fun u hu => ⟨by rw [after]; exact tail.live hu, ?_⟩
            rw [after]
            refine unlinked_of_ne (noPred u (by simp [list, hu])) ?_
            rw [next]
            rintro ⟨rfl⟩
            exact (List.nodup_cons.mp nodupPost).1 hu
  | cons p pre ih =>
      have whole := c
      cases c with
      | cons live prev rest =>
          obtain ⟨notRest, nodupRest⟩ := List.nodup_cons.mp nodup
          have place : ∃ q, q ∈ p :: (pre ++ trig :: post) ∧
              (s.triggers.val trig).prevPtr = .nextOf q := by
            obtain ⟨q, hq, link⟩ := whole.prev_succ (i := pre.length) (t := trig) (by simp)
            exact ⟨q, List.mem_of_getElem? hq, link⟩
          obtain ⟨q, hq, link⟩ := place
          have notFirst : (s.triggers.val trig).prevPtr ≠ l := by
            rw [link]
            exact (start q hq).symm
          rw [if_neg notFirst]
          have notSucc : (s.triggers.val trig).next ≠ some p := fun next => by
            refine notRest (List.mem_append_right _ (List.mem_cons_of_mem _ ?_))
            exact rest.next_mem next
          have first : t.triggers.val p = { s.triggers.val p with
              next := if (s.triggers.val trig).prevPtr = .nextOf p then
                (s.triggers.val trig).next else (s.triggers.val p).next } := by
            rw [after]
            simp [unlinked, notSucc]
          rw [List.cons_append]
          refine .cons (by rw [after]; exact live) (by rw [first]; exact prev) ?_
          rw [first]
          refine ih rest nodupRest fun u hu eq => ?_
          cases eq
          exact notRest hu

/-- The lists after `trig` has been taken from the list of `x`. -/
def desensitized (s : State) (x : Addr) (trig : TriggerPtr) (y : Addr) : List TriggerPtr :=
  if y = x then (triggersOf s x).erase trig else triggersOf s y

theorem ssmSvDesensitize_spec {s : State} {x : Addr} {v : Sv} {trig : TriggerPtr}
    (chains : ChainsOk s) (hv : s.sv? x = some v) (listed : trig ∈ triggersOf s x) :
    ∃ t, ssmSvDesensitize trig s = .ok t ∧ Relisted s t (desensitized s x trig) := by
  have c := chains x v hv
  have nodup := c.nodup
  obtain ⟨pre, post, list⟩ := List.append_of_mem listed
  rw [list] at c nodup
  -- The field that points to `trig` is the head of this list or in it.
  have back : (s.triggers.val trig).prevPtr = .triggersOf x ∨
      ∃ p, p ∈ triggersOf s x ∧ (s.triggers.val trig).prevPtr = .nextOf p := by
    cases hpre : pre.length with
    | zero =>
        refine Or.inl (c.prev_zero ?_)
        rw [List.length_eq_zero_iff.mp hpre]
        rfl
    | succ n =>
        obtain ⟨p, hp, link⟩ := c.prev_succ (i := n) (t := trig) (by
          rw [List.getElem?_append_right (by omega), hpre]
          simp)
        exact Or.inr ⟨p, by rw [list]; exact List.mem_of_getElem? hp, link⟩
  have ahead : ∀ f, (s.triggers.val trig).next = some f → f ∈ triggersOf s x := fun f next => by
    rw [list]
    exact List.mem_append_right _ (List.mem_cons_of_mem _ (c.next_mem next))
  have whole := chains x v hv
  have run := ssmSvDesensitize_eq (whole.live listed)
    (fun y hy => by
      rcases back with hx | ⟨p, -, hp⟩
      · rw [hx] at hy
        cases hy
        simp [hv]
      · rw [hp] at hy
        cases hy)
    (fun p hp => by
      rcases back with hx | ⟨q, hq, link⟩
      · rw [hx] at hp
        cases hp
      · rw [link] at hp
        cases hp
        exact whole.live hq)
    fun f next => whole.live (ahead f next)
  refine ⟨_, run, ?_⟩
  have erased : (triggersOf s x).erase trig = pre ++ post := by
    have fresh : trig ∉ pre := fun mem =>
      (List.nodup_append.mp nodup).2.2 trig mem trig (by simp) rfl
    rw [list, List.erase_append_right _ fresh, List.erase_cons_head]
  have svs : ∀ y, (unlinkedHead s trig).sv? y =
      if y = x ∧ (s.triggers.val trig).prevPtr = .triggersOf x then
        some { v with triggers := (s.triggers.val trig).next } else s.sv? y := by
    intro y
    unfold unlinkedHead
    rcases back with hx | ⟨p, -, hp⟩
    · simp only [hx, and_true]
      split
      · rename_i hy
        rw [hy, State.svAt_of_sv? hv, State.sv?_setSv_self hv]
      · rename_i hy
        exact State.sv?_setSv_of_ne _ hy
    · simp [hp]
  refine ⟨fun y => ?_, fun y w hw => ?_, rfl, rfl, ?_, ?_, ?_, ?_, ?_, ?_, ?_, ?_⟩
  · change ((unlinkedHead s trig).sv? y).map Sv.seen = s.seen? y
    rw [svs, State.seen?]
    split
    · rename_i hy
      rw [hy.1, hv]
      rfl
    · rfl
  · change (unlinkedHead s trig).sv? y = some w at hw
    rw [svs] at hw
    unfold desensitized
    split
    · rename_i hy
      subst hy
      rw [erased]
      have removed := c.unlink (t := { unlinkedHead s trig with triggers := unlinked s trig })
        nodup (fun _ _ h => by cases h) rfl
      split at hw
      · rename_i first
        rw [if_pos first.2] at removed
        rwa [← Option.some.inj hw]
      · rename_i later
        rw [if_neg fun h => later ⟨rfl, h⟩] at removed
        rw [hv] at hw
        rwa [← Option.some.inj hw]
    · rename_i hy
      rw [if_neg fun h => hy h.1] at hw
      have d := chains y w hw
      refine d.congr fun u hu => ⟨d.live hu, unlinked_of_ne (fun pred => hy ?_) fun next => hy ?_⟩
      · rcases back with hx | ⟨p, hp, link⟩
        · rw [hx] at pred
          cases pred
        · rw [link] at pred
          cases pred
          exact d.disjoint whole hu hp
      · exact d.disjoint whole hu (ahead u next)
  all_goals
    simp only [unlinkedHead]
    split <;> rfl

end SsmRuntime
