import SsmRuntime.ClosureApply
import SsmRuntime.ProcessTree
import SsmRuntime.Readings
import SsmRuntime.TriggerRuns

/-!
What calls leave alone. But for those that sensitize and desensitize, a call
keeps the trigger lists of the variables that stay; but for those that fork and
leave, it keeps the process tree.
-/
namespace SsmRuntime

open BinaryHeap

section Lists
variable {s t u : State}

theorem SameLists.refl (s : State) : SameLists s s := .of_svs rfl fun _ _ hw => hw

theorem SameLists.of_objs (objs : t.objs = s.objs) (triggers : t.triggers = s.triggers) :
    SameLists s t := .of_svs triggers fun x w hw => by
  rwa [State.sv?, objs] at hw

theorem SameHeap.sameLists (h : SameHeap s t) : SameLists s t := .of_objs h.objs h.triggers

theorem sameLists_of_ok (h : (.ok s : Res) = .ok t) : SameLists s t :=
  Except.ok.inj h ▸ SameLists.refl s

/-- A variable keeps its list when its other fields are written. -/
theorem setSv_sameLists {x : Addr} {v w : Sv} (hv : s.sv? x = some v)
    (same : w.triggers = v.triggers) : SameLists s (s.setSv x w) := by
  refine ⟨rfl, fun y z hz => ?_⟩
  by_cases hy : y = x
  · subst hy
    rw [State.sv?_setSv_self hv] at hz
    exact ⟨v, hv, by rw [← Option.some.inj hz, same]⟩
  · rw [State.sv?_setSv_of_ne _ hy] at hz
    exact ⟨z, hz, rfl⟩

/-- What is written to an object that is no variable does not show in the lists. -/
theorem setObj_sameLists {a : Addr} {o : Obj} (notSv : ∀ v, o.body ≠ .sv v) :
    SameLists s (s.setObj a o) := .of_svs rfl fun x w hw => by
  obtain ⟨mem, body⟩ := State.sv?_eq_some.mp hw
  by_cases hx : x = a
  · subst hx
    rw [State.setObj, Table.write_val_self] at body
    exact absurd body (notSv w)
  · rw [State.setObj, Table.write_val_of_ne _ _ hx] at body
    exact State.sv?_eq_some.mpr ⟨mem, body⟩

theorem ssmDup_sameLists {v : Value} (h : ssmDup v s = .ok t) : SameLists s t := by
  cases v with
  | packed n => exact sameLists_of_ok h
  | heap a =>
      obtain ⟨o, loaded, h⟩ := bind_eq_ok.mp h
      cases h
      exact dropKeeps_sameLists.count _ loaded

theorem ssmDups_sameLists (vs : List Value) (h : ssmDups vs s = .ok t) : SameLists s t := by
  induction vs generalizing s with
  | nil => exact sameLists_of_ok h
  | cons v vs ih =>
      obtain ⟨u, one, rest⟩ := bind_eq_ok.mp h
      exact (ssmDup_sameLists one).trans (ih rest)

theorem ssmDrop_sameLists {v : Value} (h : ssmDrop v s = .ok t) : SameLists s t :=
  dropKeeps_sameLists.dropWith _ h

theorem wake_sameLists {sizes : QueueSizes} {wakes : Nat → Bool} {n : Nat}
    {first : Option TriggerPtr} (h : wake sizes wakes n first s = .ok t) : SameLists s t :=
  (wake_sameHeap n first h).sameLists

theorem ssmSvAssignUnsafe_sameLists {sizes : QueueSizes} {var : Addr} {prio : Nat} {val : Value}
    (h : ssmSvAssignUnsafe sizes var prio val s = .ok t) : SameLists s t := by
  obtain ⟨v, loaded, h⟩ := bind_eq_ok.mp h
  have written := setSv_sameLists (w := v.assigned val s.now) (State.loadSv_eq_ok.mp loaded) rfl
  exact written.trans (wake_sameLists h)

theorem ssmAssign_sameLists {sizes : QueueSizes} {var : Addr} {prio : Nat} {val : Value}
    (h : ssmAssign sizes var prio val s = .ok t) : SameLists s t := by
  obtain ⟨u, dup, h⟩ := bind_eq_ok.mp h
  obtain ⟨v, -, h⟩ := bind_eq_ok.mp h
  obtain ⟨u', dropped, h⟩ := bind_eq_ok.mp h
  exact (ssmDup_sameLists dup).trans
    ((ssmDrop_sameLists dropped).trans (ssmSvAssignUnsafe_sameLists h))

theorem ssmLater_sameLists {sizes : QueueSizes} {var : Addr} {when : Nat} {val : Value}
    (h : ssmLater sizes var when val s = .ok t) : SameLists s t := by
  obtain ⟨s₁, dup, h⟩ := bind_eq_ok.mp h
  obtain ⟨v, w, u, q, n, hv, timed, hw, rfl⟩ := ssmSvLaterUnsafe_eq_ok h
  have before : SameLists s₁ u := by
    obtain rfl | dropped := timed
    · exact setSv_sameLists hv rfl
    · exact (setSv_sameLists (w := { v with laterTime := when }) hv rfl).trans
        (ssmDrop_sameLists dropped)
  have placed : SameLists (u.setSv var { w with laterValue := val })
      ((u.setSv var { w with laterValue := val }).withQueue q n) := .of_objs rfl rfl
  exact (ssmDup_sameLists dup).trans
    (before.trans ((setSv_sameLists (w := { w with laterValue := val }) hw rfl).trans placed))

theorem tickUpdate_sameLists {sizes : QueueSizes} (h : tickUpdate sizes s = .ok t) :
    SameLists s t := by
  obtain ⟨u, updated, h⟩ := bind_eq_ok.mp h
  obtain ⟨q, n, rfl⟩ := tickRemoveTop_eq_ok h
  obtain ⟨v, loaded, updated⟩ := bind_eq_ok.mp updated
  split at updated
  · cases updated
  · obtain ⟨s₁, dropped, updated⟩ := bind_eq_ok.mp updated
    obtain ⟨w, again, updated⟩ := bind_eq_ok.mp updated
    have written := setSv_sameLists (w := w.updated s₁.now) (State.loadSv_eq_ok.mp again) rfl
    exact (ssmDrop_sameLists dropped).trans
      (written.trans ((wake_sameLists updated).trans (.of_objs rfl rfl)))

theorem ssmSetNow_sameLists {next : Nat} (h : ssmSetNow next s = .ok t) : SameLists s t := by
  obtain ⟨-, -, rfl⟩ := ssmSetNow_eq_ok h
  exact .of_objs rfl rfl

theorem tickEnter_sameLists (h : tickEnter s = .ok t) : SameLists s t := by
  obtain rfl | moved := tickEnter_eq_ok h
  · exact SameLists.refl t
  · exact ssmSetNow_sameLists moved

theorem setClosure_sameLists (a : Addr) (c : Closure) : SameLists s (s.setClosure a c) :=
  setObj_sameLists fun v => by simp

theorem ssmClosurePush_sameLists {closure : Addr} {arg : Value}
    (h : ssmClosurePush closure arg s = .ok t) : SameLists s t := by
  obtain ⟨c, -, h⟩ := bind_eq_ok.mp h
  split at h
  · cases h
    exact setClosure_sameLists _ _
  · cases h

theorem ssmClosurePop_sameLists {closure : Addr} (h : ssmClosurePop closure s = .ok t) :
    SameLists s t := by
  obtain ⟨c, -, h⟩ := bind_eq_ok.mp h
  cases h
  exact setClosure_sameLists _ _

theorem cloneArgs_sameLists {new : Addr} {args : List Value} (n : Nat)
    (h : cloneArgs new args n s = .ok t) : SameLists s t := by
  induction n generalizing t with
  | zero => exact sameLists_of_ok h
  | succ n ih =>
      obtain ⟨u, before, h⟩ := bind_eq_ok.mp h
      obtain ⟨u', dup, h⟩ := bind_eq_ok.mp h
      obtain ⟨c, -, h⟩ := bind_eq_ok.mp h
      split at h
      · cases h
        exact (ih before).trans ((ssmDup_sameLists dup).trans (setClosure_sameLists _ _))
      · cases h

theorem ssmClosureActivate_sameLists {sizes : QueueSizes} {child parent : ActPtr} {a : Addr}
    {prio depth : Nat} (h : ssmClosureActivate sizes child a parent prio depth s = .ok t) :
    SameLists s t :=
  (ssmClosureActivate_sameHeap h).sameLists

theorem alloc_sv?_of_ne {p x : Addr} (hx : x ≠ p) (o : Obj) :
    State.sv? { s with objs := s.objs.alloc p o } x = s.sv? x := by
  simp [State.sv?, Table.get?, Table.alloc_val_of_ne _ _ hx, hx]

/-- An object that is no variable is allocated. -/
theorem alloc_sameLists {p : Addr} {o : Obj} (notSv : ∀ v, o.body ≠ .sv v) :
    SameLists s { s with objs := s.objs.alloc p o } := .of_svs rfl fun x w hw => by
  by_cases hx : x = p
  · subst hx
    obtain ⟨-, body⟩ := State.sv?_eq_some.mp hw
    change ((s.objs.alloc x o).val x).body = .sv w at body
    rw [Table.alloc_val_self] at body
    exact absurd body (notSv w)
  · exact (alloc_sv?_of_ne hx o) ▸ hw

theorem ssmClosureApply_sameLists {sizes : QueueSizes} {new : Addr} {child : ActPtr}
    {closure : Addr} {arg : Value} {parent : ActPtr} {prio depth : Nat} {ret : Option Value}
    (h : ssmClosureApply sizes new child closure arg parent prio depth s = .ok (ret, t)) :
    SameLists s t := by
  obtain ⟨c, -, h⟩ := bind_eq_ok.mp h
  split at h
  · obtain ⟨s₁, dups, h⟩ := bind_eq_ok.mp h
    obtain ⟨s₂, pushed, h⟩ := bind_eq_ok.mp h
    obtain ⟨s₃, activated, h⟩ := bind_eq_ok.mp h
    obtain ⟨s₄, popped, h⟩ := bind_eq_ok.mp h
    obtain ⟨-, rfl⟩ := Prod.mk.inj (Except.ok.inj h)
    exact ((ssmDups_sameLists _ dups).trans (ssmClosurePush_sameLists pushed)).trans
      ((ssmClosureActivate_sameLists activated).trans (ssmClosurePop_sameLists popped))
  · obtain ⟨s₁, cloned, h⟩ := bind_eq_ok.mp h
    obtain ⟨s₂, pushed, h⟩ := bind_eq_ok.mp h
    obtain ⟨-, rfl⟩ := Prod.mk.inj (Except.ok.inj h)
    obtain ⟨c', -, cloned⟩ := bind_eq_ok.mp cloned
    obtain ⟨n, -, cloned⟩ := bind_eq_ok.mp cloned
    have made : SameLists s (ssmNewClosure new c'.f c'.cap s) := alloc_sameLists fun v => by simp
    exact (made.trans (setClosure_sameLists _ _)).trans
      ((cloneArgs_sameLists _ cloned).trans (ssmClosurePush_sameLists pushed))

theorem ssmClosureApplyFinal_sameLists {sizes : QueueSizes} {child : ActPtr} {closure : Addr}
    {arg : Value} {parent : ActPtr} {prio depth : Nat} {ret : Option Value}
    (h : ssmClosureApplyFinal sizes child closure arg parent prio depth s = .ok (ret, t)) :
    SameLists s t := by
  obtain ⟨shared, -, h⟩ := bind_eq_ok.mp h
  obtain ⟨u, asserted, h⟩ := bind_eq_ok.mp h
  rw [ssmAssert_eq_ok asserted] at h
  obtain ⟨c, -, h⟩ := bind_eq_ok.mp h
  split at h
  · obtain ⟨s₁, pushed, h⟩ := bind_eq_ok.mp h
    obtain ⟨s₂, activated, h⟩ := bind_eq_ok.mp h
    obtain ⟨-, rfl⟩ := Prod.mk.inj (Except.ok.inj h)
    exact ((ssmClosurePush_sameLists pushed).trans (ssmClosureActivate_sameLists activated)).trans
      (dropKeeps_sameLists.release s₂ closure)
  · obtain ⟨s₁, pushed, h⟩ := bind_eq_ok.mp h
    obtain ⟨-, rfl⟩ := Prod.mk.inj (Except.ok.inj h)
    exact ssmClosurePush_sameLists pushed

end Lists

/-- The variables that stay have their lists, and a new variable has none. -/
structure ListsKept (s t : State) : Prop where
  triggers : t.triggers = s.triggers
  head : ∀ x w, t.sv? x = some w →
    (∃ v, s.sv? x = some v ∧ w.triggers = v.triggers) ∨ s.sv? x = none ∧ w.triggers = none

theorem SameLists.kept {s t : State} (h : SameLists s t) : ListsKept s t :=
  ⟨h.triggers, fun x w hw => Or.inl (h.head x w hw)⟩

/-- The calls that write trigger lists. -/
def Call.trigCall? : Call → Option TrigCall
  | sensitize var trig => some (.sensitize var trig)
  | desensitize trig => some (.desensitize trig)
  | _ => none

theorem ssmNewSv_listsKept {s : State} {p : Addr} (fresh : p ∉ s.objs.dom) (val : Value) :
    ListsKept s (ssmNewSv p val s) := by
  refine ⟨rfl, fun x w hw => ?_⟩
  by_cases hx : x = p
  · subst hx
    have none : s.sv? x = none := by simp [State.sv?, Table.get?, fresh]
    obtain ⟨-, body⟩ := State.sv?_eq_some.mp hw
    change ((s.objs.alloc x _).val x).body = .sv w at body
    rw [Table.alloc_val_self] at body
    exact Or.inr ⟨none, by rw [← Body.sv.inj body]⟩
  · exact Or.inl ⟨w, (alloc_sv?_of_ne hx _) ▸ hw, rfl⟩

theorem Call.listsKept {sizes : QueueSizes} {s t : State} {c : Call} (plain : c.trigCall? = none)
    (fresh : ∀ p ∈ c.allocates, p ∉ s.objs.dom) (done : c.exec sizes s = .ok t) :
    ListsKept s t := by
  cases c with
  | newSv p val =>
      cases done
      exact ssmNewSv_listsKept (fresh p rfl) val
  | newTime _ _ | newAdt _ _ _ | newClosure _ _ _ | newArray _ _ | newBlob _ _ =>
      cases done
      exact (alloc_sameLists fun v => by simp).kept
  | dup v => exact (ssmDup_sameLists done).kept
  | drop v => exact (ssmDrop_sameLists done).kept
  | assign _ _ _ => exact (ssmAssign_sameLists done).kept
  | later _ _ _ => exact (ssmLater_sameLists done).kept
  | unschedule _ => exact (ssmUnschedule_sameLists done).kept
  | sensitize _ _ | desensitize _ => cases plain
  | enter _ _ _ _ _ _ => exact (ssmEnterInt_sameHeap done).sameLists.kept
  | activate _ => exact (ssmActivate_sameHeap done).sameLists.kept
  | closureApply _ _ _ _ _ _ _ =>
      obtain ⟨⟨ret, u⟩, run, rest⟩ := bind_eq_ok.mp done
      exact Except.ok.inj rest ▸ (ssmClosureApply_sameLists run).kept
  | closureApplyFinal _ _ _ _ _ _ =>
      obtain ⟨⟨ret, u⟩, run, rest⟩ := bind_eq_ok.mp done
      exact Except.ok.inj rest ▸ (ssmClosureApplyFinal_sameLists run).kept
  | setNow _ => exact (ssmSetNow_sameLists done).kept
  | tickEnter => exact (tickEnter_sameLists done).kept
  | tickUpdate => exact (tickUpdate_sameLists done).kept
  | tickPop =>
      obtain ⟨⟨act, u⟩, popped, rest⟩ := bind_eq_ok.mp done
      exact Except.ok.inj rest ▸ (tickPop_sameHeap popped).sameLists.kept

section Tree
variable {s t : State}

theorem TreeKept.refl (s : State) : TreeKept s s := ⟨rfl, fun _ => rfl, fun _ => rfl, rfl⟩

theorem TreeKept.trans {u : State} (h : TreeKept s t) (k : TreeKept t u) : TreeKept s u :=
  ⟨k.dom.trans h.dom, fun a => (k.caller a).trans (h.caller a),
    fun a => (k.children a).trans (h.children a), k.numProcesses.trans h.numProcesses⟩

theorem TreeKept.of_acts (acts : t.acts = s.acts) (num : t.numProcesses = s.numProcesses) :
    TreeKept s t :=
  ⟨congrArg Table.dom acts, fun a => by rw [State.callerOf, acts, State.callerOf],
    fun a => by rw [acts], num⟩

theorem treeKept_of_ok (h : (.ok s : Res) = .ok t) : TreeKept s t :=
  Except.ok.inj h ▸ TreeKept.refl s

/-- Only the flag of one record changes. -/
theorem setScheduled_treeKept (s : State) (a : ActPtr) (b : Bool) :
    TreeKept s (s.setAct a { s.acts.val a with scheduled := b }) := by
  refine ⟨rfl, fun c => ?_, fun c => ?_, rfl⟩
  · by_cases hc : c = a
    · subst hc
      simp [State.callerOf, State.setAct]
    · simp [State.callerOf, State.setAct, Table.write_val_of_ne _ _ hc]
  · by_cases hc : c = a
    · subst hc
      simp [State.setAct]
    · simp [State.setAct, Table.write_val_of_ne _ _ hc]

theorem ssmDup_treeKept {v : Value} (h : ssmDup v s = .ok t) : TreeKept s t := by
  cases v with
  | packed n => exact treeKept_of_ok h
  | heap a =>
      obtain ⟨o, -, h⟩ := bind_eq_ok.mp h
      cases h
      exact .of_acts rfl rfl

theorem ssmUnschedule_treeKept {var : Addr} (h : ssmUnschedule var s = .ok t) : TreeKept s t := by
  obtain rfl | ⟨v, q, n, -, rfl⟩ := ssmUnschedule_eq_ok h
  · exact TreeKept.refl t
  · exact .of_acts rfl rfl

theorem dropKeeps_treeKept : DropKeeps TreeKept where
  refl := TreeKept.refl
  trans := TreeKept.trans
  count := fun _ _ => .of_acts rfl rfl
  unschedule := ssmUnschedule_treeKept
  release := fun _ _ => .of_acts rfl rfl

theorem ssmDrop_treeKept {v : Value} (h : ssmDrop v s = .ok t) : TreeKept s t :=
  dropKeeps_treeKept.dropWith _ h

theorem ssmActivate_treeKept {sizes : QueueSizes} {act : ActPtr}
    (h : ssmActivate sizes act s = .ok t) : TreeKept s t := by
  obtain ⟨a, loaded, h⟩ := bind_eq_ok.mp h
  split at h
  · exact treeKept_of_ok h
  · simp only at h
    split at h
    · cases h
    · unfold actQueuePercolateUp at h
      obtain ⟨u, asserted, h⟩ := bind_eq_ok.mp h
      obtain ⟨b, again, h⟩ := bind_eq_ok.mp h
      rw [ssmAssert_eq_ok asserted] at again h
      obtain ⟨-, rfl⟩ := State.loadAct_eq_ok.mp again
      cases h
      exact (setScheduled_treeKept s act true).trans (.of_acts rfl rfl)

theorem wake_treeKept {sizes : QueueSizes} {wakes : Nat → Bool} (fuel : Nat)
    {first : Option TriggerPtr} (h : wake sizes wakes fuel first s = .ok t) : TreeKept s t := by
  induction fuel generalizing first s with
  | zero =>
      cases first with
      | none => exact treeKept_of_ok h
      | some trig => cases h
  | succ fuel ih =>
      cases first with
      | none => exact treeKept_of_ok h
      | some trig =>
          obtain ⟨tr, -, h⟩ := bind_eq_ok.mp h
          obtain ⟨a, -, h⟩ := bind_eq_ok.mp h
          obtain ⟨u, woken, h⟩ := bind_eq_ok.mp h
          refine TreeKept.trans ?_ (ih h)
          split at woken
          · exact ssmActivate_treeKept woken
          · exact treeKept_of_ok woken

theorem ssmAssign_treeKept {sizes : QueueSizes} {var : Addr} {prio : Nat} {val : Value}
    (h : ssmAssign sizes var prio val s = .ok t) : TreeKept s t := by
  obtain ⟨s₁, dup, h⟩ := bind_eq_ok.mp h
  obtain ⟨v, -, h⟩ := bind_eq_ok.mp h
  obtain ⟨s₂, dropped, h⟩ := bind_eq_ok.mp h
  obtain ⟨w, -, h⟩ := bind_eq_ok.mp h
  have written : TreeKept s₂ (s₂.setSv var (w.assigned val s₂.now)) := .of_acts rfl rfl
  exact (ssmDup_treeKept dup).trans
    ((ssmDrop_treeKept dropped).trans (written.trans (wake_treeKept _ h)))

theorem ssmLater_treeKept {sizes : QueueSizes} {var : Addr} {when : Nat} {val : Value}
    (h : ssmLater sizes var when val s = .ok t) : TreeKept s t := by
  obtain ⟨s₁, dup, h⟩ := bind_eq_ok.mp h
  obtain ⟨v, w, u, q, n, -, before, -, rfl⟩ := ssmSvLaterUnsafe_eq_ok h
  have timed : TreeKept s₁ u := by
    obtain rfl | dropped := before
    · exact .of_acts rfl rfl
    · have rekeyed : TreeKept s₁ (s₁.setSv var { v with laterTime := when }) := .of_acts rfl rfl
      exact rekeyed.trans (ssmDrop_treeKept dropped)
  exact (ssmDup_treeKept dup).trans (timed.trans (.of_acts rfl rfl))

theorem tickUpdate_treeKept {sizes : QueueSizes} (h : tickUpdate sizes s = .ok t) :
    TreeKept s t := by
  obtain ⟨u, updated, h⟩ := bind_eq_ok.mp h
  obtain ⟨q, n, rfl⟩ := tickRemoveTop_eq_ok h
  obtain ⟨v, -, updated⟩ := bind_eq_ok.mp updated
  split at updated
  · cases updated
  · obtain ⟨s₁, dropped, updated⟩ := bind_eq_ok.mp updated
    obtain ⟨w, -, updated⟩ := bind_eq_ok.mp updated
    have written : TreeKept s₁ (s₁.setSv (s.eventQueue 1) (w.updated s₁.now)) := .of_acts rfl rfl
    exact (ssmDrop_treeKept dropped).trans
      (written.trans ((wake_treeKept _ updated).trans (.of_acts rfl rfl)))

theorem ssmSvSensitize_treeKept {var : Addr} {trig : TriggerPtr}
    (h : ssmSvSensitize var trig s = .ok t) : TreeKept s t := by
  obtain ⟨v, triggers, -, rfl⟩ := ssmSvSensitize_eq_ok h
  exact .of_acts rfl rfl

theorem ssmSvDesensitize_treeKept {trig : TriggerPtr} (h : ssmSvDesensitize trig s = .ok t) :
    TreeKept s t := by
  obtain ⟨triggers, rfl⟩ | ⟨var, v, first, triggers, -, rfl⟩ := ssmSvDesensitize_eq_ok h
  all_goals exact .of_acts rfl rfl

theorem ssmSetNow_treeKept {next : Nat} (h : ssmSetNow next s = .ok t) : TreeKept s t := by
  obtain ⟨-, -, rfl⟩ := ssmSetNow_eq_ok h
  exact .of_acts rfl rfl

theorem tickEnter_treeKept (h : tickEnter s = .ok t) : TreeKept s t := by
  obtain rfl | moved := tickEnter_eq_ok h
  · exact TreeKept.refl t
  · exact ssmSetNow_treeKept moved

theorem Popped.treeKept {a : ActPtr} (h : Popped s t a) : TreeKept s t := by
  refine ⟨h.dom, fun b => ?_, fun b => ?_, h.numProcesses⟩
  · by_cases hb : b = a
    · rw [State.callerOf, hb, h.here]
      rfl
    · rw [State.callerOf, h.other b hb]
      rfl
  · by_cases hb : b = a
    · rw [hb, h.here]
    · rw [h.other b hb]

end Tree

section Owners
variable {s t u : State}

/-- The triggers are there, and belong to the records they belonged to. -/
structure SameOwners (s t : State) : Prop where
  dom : t.triggers.dom = s.triggers.dom
  act : ∀ trig, t.actOf trig = s.actOf trig

theorem SameOwners.trans (h : SameOwners s t) (k : SameOwners t u) : SameOwners s u :=
  ⟨k.dom.trans h.dom, fun trig => (k.act trig).trans (h.act trig)⟩

theorem SameOwners.of_triggers (triggers : t.triggers = s.triggers) : SameOwners s t :=
  ⟨congrArg Table.dom triggers, fun trig => by rw [State.actOf, triggers, State.actOf]⟩

theorem State.loadTrigger_eq_ok {trig : TriggerPtr} {f : Trigger} :
    s.loadTrigger trig = .ok f ↔ trig ∈ s.triggers.dom ∧ s.triggers.val trig = f := by
  rw [loadTrigger, ← Table.get?_eq_some]
  cases s.triggers.get? trig <;> simp

theorem setTrigger_sameOwners {trig : TriggerPtr} {f g : Trigger} (loaded : s.loadTrigger trig = .ok f)
    (act : g.act = f.act) : SameOwners s (s.setTrigger trig g) := by
  obtain ⟨-, rfl⟩ := State.loadTrigger_eq_ok.mp loaded
  refine ⟨rfl, fun other => ?_⟩
  by_cases same : other = trig
  · subst same
    rw [State.actOf, State.setTrigger, Table.write_val_self, act, State.actOf]
  · rw [State.actOf, State.setTrigger, Table.write_val_of_ne _ _ same, State.actOf]

theorem ssmSvSensitize_sameOwners {var : Addr} {trig : TriggerPtr}
    (h : ssmSvSensitize var trig s = .ok t) : SameOwners s t := by
  obtain ⟨v, -, h⟩ := bind_eq_ok.mp h
  obtain ⟨f, loaded, h⟩ := bind_eq_ok.mp h
  obtain ⟨u, linked, h⟩ := bind_eq_ok.mp h
  obtain ⟨g, again, h⟩ := bind_eq_ok.mp h
  cases h
  have first : SameOwners s u := by
    refine (setTrigger_sameOwners (g := { f with next := v.triggers }) loaded rfl).trans ?_
    split at linked
    · obtain ⟨n, head, linked⟩ := bind_eq_ok.mp linked
      cases linked
      exact setTrigger_sameOwners head rfl
    · cases linked
      exact .of_triggers rfl
  have written : SameOwners u (u.setSv var { v with triggers := some trig }) := .of_triggers rfl
  exact first.trans (written.trans (setTrigger_sameOwners again rfl))

theorem ssmSvDesensitize_sameOwners {trig : TriggerPtr} (h : ssmSvDesensitize trig s = .ok t) :
    SameOwners s t := by
  obtain ⟨f, -, h⟩ := bind_eq_ok.mp h
  obtain ⟨u, unlinked, h⟩ := bind_eq_ok.mp h
  obtain ⟨g, -, h⟩ := bind_eq_ok.mp h
  have first : SameOwners s u := by
    split at unlinked
    · obtain ⟨v, -, unlinked⟩ := bind_eq_ok.mp unlinked
      cases unlinked
      exact .of_triggers rfl
    · obtain ⟨p, pred, unlinked⟩ := bind_eq_ok.mp unlinked
      cases unlinked
      exact setTrigger_sameOwners pred rfl
  refine first.trans ?_
  split at h
  · obtain ⟨n, succ, h⟩ := bind_eq_ok.mp h
    cases h
    exact setTrigger_sameOwners succ rfl
  · cases h
    exact .of_triggers rfl

end Owners

end SsmRuntime
