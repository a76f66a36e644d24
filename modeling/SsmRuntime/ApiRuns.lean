import SsmRuntime.CallSafety
import SsmRuntime.Currying
import SsmRuntime.ObjectSizes
import SsmRuntime.Routines

/-!
Runs over the whole interface at once: the heap with its references, the two
queues, the trigger lists and the process tree. A run never goes wrong: in every
state it reaches, every call that keeps the rules returns or throws one of the
errors named for it.
-/
namespace SsmRuntime

/-- The calls of a program, with the departure of a record up to the call of its
parent, the set-up of a trigger, and what a record writes in itself. -/
inductive ApiCall where
  | call (c : Call)
  | leave (act : ActPtr)
  | adopt (trig : TriggerPtr) (act : ActPtr)
  | store (act : ActPtr) (pc : Nat) (frame : List Value)

/-- The triggers of a record are part of it. -/
def forgetTriggers (act : ActPtr) (s : State) : State :=
  { s with triggers := ⟨s.triggers.dom.filter fun t => s.actOf t ≠ act, s.triggers.val⟩ }

/-- What a call that writes trigger lists adds to the history. -/
def trigHistory (h : List TrigCall) (c : Call) : List TrigCall := c.trigCall?.toList ++ h

/-- A closure that takes another argument. -/
def Applicable (s : State) (a : Addr) : Prop :=
  match s.loadClosure a with
  | .ok c => c.count < c.cap
  | .error _ => False

instance (s : State) (a : Addr) : Decidable (Applicable s a) := by
  unfold Applicable
  split <;> infer_instance

/-- What a program owes a call besides what it owes the heap: the records it names
are live and not too many, a trigger is added when it is on no list and removed
when it is on one, and the program holds the variables it listens to. -/
def Call.Owed (w : World) (h : List TrigCall) : Call → Prop
  | unschedule var => (w.state.sv? var).isSome
  | sensitize var trig => (w.state.sv? var).isSome ∧ 1 ≤ w.held var ∧
      trig ∈ w.state.triggers.dom ∧ addedTo h trig = none
  | desensitize trig => (addedTo h trig).isSome
  | activate act => act ∈ w.state.acts.dom
  | enter child _ parent _ _ _ => child ∉ w.state.acts.dom ∧ parent ∈ w.state.acts.dom ∧
      (w.state.childrenOf parent).card + 1 < 2 ^ 16
  | closureApply _ child closure _ parent _ _ => Applicable w.state closure ∧
      child ∉ w.state.acts.dom ∧ parent ∈ w.state.acts.dom ∧
      (w.state.childrenOf parent).card + 1 < 2 ^ 16
  | closureApplyFinal child closure _ parent _ _ => Applicable w.state closure ∧
      (w.state.objs.val closure).refCount = 1 ∧ child ∉ w.state.acts.dom ∧
      parent ∈ w.state.acts.dom ∧ (w.state.childrenOf parent).card + 1 < 2 ^ 16
  | _ => True

/-- No call takes the last reference to a variable that is listened to. -/
def Call.Spares (w : World) (h : List TrigCall) (c : Call) : Prop :=
  ∀ x ∈ w.state.objs.dom, sensitised h x ≠ [] → refsTo x c.takes < w.held x

namespace ApiCall

def exec (sizes : QueueSizes) : ApiCall → State → Res
  | call c, s => c.exec sizes s
  | leave act, s => do
      let (_, s) ← leaveFree act s
      .ok (forgetTriggers act s)
  | adopt trig act, s => .ok (adoptTrigger trig act s)
  | store act pc frame, s => (Action.store act pc frame).exec sizes s

def after (w : World) : ApiCall → State → World
  | call c, t => w.after c t
  | _, t => { w with state := t }

def history (h : List TrigCall) : ApiCall → List TrigCall
  | call c => trigHistory h c
  | _ => h

/-- The rules of the interface. -/
def Keeps (w : World) (h : List TrigCall) : ApiCall → Prop
  | call c => Legal w c ∧ InPlace w c ∧ c.Owed w h ∧ c.Spares w h
  | leave act => act ∈ w.state.processes ∧ w.state.childrenOf act = ∅ ∧ ¬ w.state.Scheduled act ∧
      ∀ t ∈ w.state.triggers.dom, w.state.actOf t = act → addedTo h t = none
  | adopt trig act => act ∈ w.state.acts.dom ∧ addedTo h trig = none
  | store act _ _ => act ∈ w.state.acts.dom

def throws : ApiCall → List SsmError
  | call c => c.throws
  | _ => []

end ApiCall

/-- What holds between the calls of a run. -/
structure Sound (sizes : QueueSizes) (w : World) (h : List TrigCall) : Prop where
  heap : ∃ L : Addr → Nat, HeapOk w.state fun a => w.held a + L a
  queue : ActQueueOk sizes w.state
  linked : Linked w.state h
  owners : ∀ t ∈ w.state.triggers.dom, w.state.actOf t ∈ w.state.acts.dom
  heard : ∀ x, sensitised h x ≠ [] → 1 ≤ w.held x
  tree : TreeExact w.state

section Sound
variable {sizes : SafeSizes} {w : World} {h : List TrigCall} {s t : State}

theorem Sound.triggersOk (sound : Sound sizes w h) : TriggersOk w.state where
  chain := sound.linked.chains
  act := fun x v trig hv mem =>
    sound.owners trig ((sound.linked.chains x v hv).live mem)

theorem Linked.live (linked : Linked s h) {x : Addr} {trig : TriggerPtr}
    (mem : trig ∈ sensitised h x) : ∃ v, s.sv? x = some v ∧ trig ∈ s.triggers.dom := by
  cases hv : s.sv? x with
  | none =>
      rw [linked.absent x hv] at mem
      cases mem
  | some v =>
      exact ⟨v, rfl, (linked.chain x v hv).live mem⟩

theorem Applicable.closure {s : State} {a : Addr} (h : Applicable s a) :
    ∃ c, s.loadClosure a = .ok c ∧ c.count < c.cap := by
  unfold Applicable at h
  split at h
  · exact ⟨_, ‹_›, h⟩
  · exact h.elim

/-- A call that keeps the rules returns, or throws what is named for it. -/
theorem Sound.call_ends {c : Call} (sound : Sound sizes w h) (legal : Legal w c)
    (owed : c.Owed w h) : EndsWell (c.exec sizes w.state) c.throws := by
  obtain ⟨L, heap⟩ := sound.heap
  have tr := sound.triggersOk
  cases c with
  | newTime _ _ | newAdt _ _ _ | newSv _ _ | newClosure _ _ _ | newArray _ _ | newBlob _ _ =>
      exact .ok _ _
  | dup v =>
      obtain ⟨t, run, -⟩ := heap.dup (legal.lives_of (List.mem_singleton_self v))
        (legal.room_of heap)
      exact Or.inl ⟨t, run⟩
  | drop v =>
      obtain ⟨t, M, run, -⟩ := HeapOk.drop (v := v)
        (S := fun a => w.held a - refsTo a [v] + L a) (heap.same fun a => by
          have := legal.held_eq a
          simp only [Call.takes] at this
          omega)
      exact Or.inl ⟨t, run⟩
  | assign var prio val =>
      obtain ⟨held, live⟩ := legal.var var rfl
      obtain ⟨v, hv⟩ := Option.isSome_iff_exists.mp live
      exact heap.assign_ends tr sound.queue hv (Nat.le_add_right_of_le held)
        (legal.lives_of (List.mem_singleton_self val)) (legal.room_of heap)
  | later var when val =>
      obtain ⟨held, live⟩ := legal.var var rfl
      obtain ⟨v, hv⟩ := Option.isSome_iff_exists.mp live
      obtain ⟨s₁, dup, k, h₁⟩ := heap.dup (legal.lives_of (List.mem_singleton_self val))
        (legal.room_of heap)
      have soon : when ≠ ssmNever := Nat.ne_of_lt legal.inRange
      rw [Call.exec, ssmLater, dup, ok_bind]
      exact h₁.laterUnsafe_ends (by rw [k.sv?, hv])
        (Nat.le_add_right_of_le (Nat.le_add_right_of_le held)) soon
  | unschedule var =>
      obtain ⟨v, hv⟩ := Option.isSome_iff_exists.mp owed
      exact Or.inl (heap.unschedule_ends hv)
  | sensitize var trig =>
      obtain ⟨live, held, mem, idle⟩ := owed
      obtain ⟨t, run, -⟩ := sound.linked.step (c := .sensitize var trig)
        ⟨idle, fun x u same => by cases same; exact live, mem⟩
      exact Or.inl ⟨t, run⟩
  | desensitize trig =>
      obtain ⟨x, added⟩ := Option.isSome_iff_exists.mp owed
      obtain ⟨v, -, live⟩ := sound.linked.live ((sound.linked.listed.mem x trig).mpr added)
      obtain ⟨t, run, -⟩ := sound.linked.step (c := .desensitize trig)
        ⟨owed, fun x u same => (by cases same), live⟩
      exact Or.inl ⟨t, run⟩
  | activate act => exact ssmActivate_ends sound.queue owed
  | enter child step parent prio depth frame =>
      exact Or.inl ⟨_, ssmEnterInt_eq owed.1 owed.2.1 step prio depth frame⟩
  | closureApply new child closure arg parent prio depth =>
      obtain ⟨applicable, fresh, live, -⟩ := owed
      obtain ⟨c, loaded, room⟩ := applicable.closure
      exact heap.closureApply_ends arg sound.queue loaded room (legal.fresh new rfl) fresh live
  | closureApplyFinal child closure arg parent prio depth =>
      obtain ⟨applicable, sole, fresh, live, -⟩ := owed
      obtain ⟨c, loaded, room⟩ := applicable.closure
      exact heap.closureApplyFinal_ends arg sound.queue loaded room sole fresh live
  | setNow next => exact ssmSetNow_ends next w.state
  | tickEnter => exact tickEnter_ends w.state
  | tickUpdate => exact tickUpdate_ends heap tr sound.queue legal.acyclic legal.guarded
  | tickPop =>
      obtain ⟨a, t, run, -⟩ := tickPop_spec sound.queue legal.guarded
      rw [Call.exec, run]
      exact .ok _ _

end Sound

section Tree
variable {sizes : SafeSizes} {s t : State}

/-- The process tree stays exact, and no record leaves. -/
structure TreeGrown (s t : State) : Prop where
  exact' : TreeExact t
  records : s.acts.dom ⊆ t.acts.dom

theorem TreeKept.grown (kept : TreeKept s t) (tree : TreeExact s) : TreeGrown s t :=
  ⟨tree.kept kept, kept.dom.ge⟩

theorem TreeGrown.of_acts (tree : TreeExact s) (acts : t.acts = s.acts)
    (num : t.numProcesses = s.numProcesses) : TreeGrown s t :=
  (TreeKept.of_acts acts num).grown tree

theorem TreeGrown.trans {u : State} (h : TreeGrown s t) (k : TreeGrown t u) : TreeGrown s u :=
  ⟨k.exact', h.records.trans k.records⟩

theorem ssmEnterInt_grown {child parent : ActPtr} {step prio depth : Nat} {frame : List Value}
    (tree : TreeExact s) (fresh : child ∉ s.acts.dom) (live : parent ∈ s.acts.dom)
    (room : (s.childrenOf parent).card + 1 < 2 ^ 16)
    (done : ssmEnterInt child step parent prio depth frame s = .ok t) : TreeGrown s t := by
  obtain ⟨u, run, exact', -⟩ := ssmEnterInt_tree step prio depth frame tree fresh live room
  obtain rfl := Except.ok.inj (run.symm.trans done)
  obtain rfl := Except.ok.inj ((ssmEnterInt_eq fresh live step prio depth frame).symm.trans done)
  exact ⟨exact', Finset.subset_insert _ _⟩

theorem startChild_grown {child parent : ActPtr} {f prio depth : Nat} {argv : List Value}
    (tree : TreeExact s) (fresh : child ∉ s.acts.dom) (live : parent ∈ s.acts.dom)
    (room : (s.childrenOf parent).card + 1 < 2 ^ 16)
    (done : startChild sizes child f parent prio depth argv s = .ok t) : TreeGrown s t := by
  obtain ⟨u, entered, activated⟩ := bind_eq_ok.mp done
  have grown := ssmEnterInt_grown tree fresh live room entered
  exact grown.trans ((ssmActivate_treeKept activated).grown grown.exact')

theorem TreeGrown.withObjs (h : TreeGrown s t) (objs : Table Obj) :
    TreeGrown s (t.withObjs objs) :=
  h.trans (.of_acts h.exact' rfl rfl)

/-- The last application of a closure, by the child that it starts. -/
theorem overObjs_grown {r : Res} {objs objs' : Table Obj} {ret : Option Value}
    (child : ∀ u, r = .ok u → TreeGrown s u)
    (done : (overObjs objs r >>= fun u => .ok ((none : Option Value), u.withObjs objs')) =
      .ok (ret, t)) : TreeGrown s t := by
  cases r with
  | ok u =>
      obtain ⟨-, rfl⟩ := Prod.mk.inj (Except.ok.inj done)
      exact ((child u rfl).withObjs objs).withObjs objs'
  | error e => cases done

theorem Sound.call_grown {w : World} {h : List TrigCall} {c : Call} (sound : Sound sizes w h)
    (legal : Legal w c) (owed : c.Owed w h) (done : c.exec sizes w.state = .ok t) :
    TreeGrown w.state t := by
  obtain ⟨L, heap⟩ := sound.heap
  have tree := sound.tree
  cases c with
  | newTime _ _ | newAdt _ _ _ | newSv _ _ | newClosure _ _ _ | newArray _ _ | newBlob _ _ =>
      cases done
      exact .of_acts tree rfl rfl
  | dup _ => exact (ssmDup_treeKept done).grown tree
  | drop _ => exact (ssmDrop_treeKept done).grown tree
  | assign _ _ _ => exact (ssmAssign_treeKept done).grown tree
  | later _ _ _ => exact (ssmLater_treeKept done).grown tree
  | unschedule _ => exact (ssmUnschedule_treeKept done).grown tree
  | sensitize _ _ => exact (ssmSvSensitize_treeKept done).grown tree
  | desensitize _ => exact (ssmSvDesensitize_treeKept done).grown tree
  | activate _ => exact (ssmActivate_treeKept done).grown tree
  | setNow _ => exact (ssmSetNow_treeKept done).grown tree
  | tickEnter => exact (tickEnter_treeKept done).grown tree
  | tickUpdate => exact (tickUpdate_treeKept done).grown tree
  | tickPop =>
      obtain ⟨a, u, run, -, -, popped, -⟩ := tickPop_spec sound.queue legal.guarded
      rw [Call.exec, run] at done
      cases done
      exact popped.treeKept.grown tree
  | enter _ _ _ _ _ _ =>
      obtain ⟨fresh, live, room⟩ := owed
      exact ssmEnterInt_grown tree fresh live room done
  | closureApply new child closure arg parent prio depth =>
      obtain ⟨applicable, fresh, live, room⟩ := owed
      obtain ⟨c, loaded, space⟩ := applicable.closure
      obtain ⟨⟨ret, u⟩, run, rest⟩ := bind_eq_ok.mp done
      obtain rfl := Except.ok.inj rest
      have o := heap.openClosure loaded space
      by_cases last : c.cap = c.count + 1
      · rw [ssmClosureApply_full o last] at run
        exact overObjs_grown (fun v hv => startChild_grown tree fresh live room hv) run
      · rw [ssmClosureApply_part o last (legal.fresh new rfl)] at run
        cases run
        exact .of_acts tree rfl rfl
  | closureApplyFinal child closure arg parent prio depth =>
      obtain ⟨applicable, sole, fresh, live, room⟩ := owed
      obtain ⟨c, loaded, space⟩ := applicable.closure
      obtain ⟨⟨ret, u⟩, run, rest⟩ := bind_eq_ok.mp done
      obtain rfl := Except.ok.inj rest
      have o := heap.openClosure loaded space
      by_cases last : c.cap = c.count + 1
      · rw [ssmClosureApplyFinal_full o last sole] at run
        exact overObjs_grown (fun v hv => startChild_grown tree fresh live room hv) run
      · rw [ssmClosureApplyFinal_part o last sole] at run
        cases run
        exact .of_acts tree rfl rfl

end Tree

section Lists
variable {sizes : SafeSizes} {s t : State} {w : World} {h : List TrigCall}

theorem isSome_sv?_iff {x : Addr} :
    (s.sv? x).isSome ↔ x ∈ s.objs.dom ∧ (s.objs.val x).body.header = .sv := by
  rw [Option.isSome_iff_exists]
  constructor
  · rintro ⟨v, hv⟩
    obtain ⟨mem, body⟩ := State.sv?_eq_some.mp hv
    exact ⟨mem, by rw [body]; rfl⟩
  · rintro ⟨mem, header⟩
    cases body : (s.objs.val x).body with
    | sv v => exact ⟨v, State.sv?_eq_some.mpr ⟨mem, body⟩⟩
    | time _ | adt _ _ | closure _ _ _ _ | array _ | blob _ =>
        rw [body] at header
        cases header

/-- A variable that is still there is a variable. -/
theorem SameHeaders.isSome_sv? {x : Addr} (same : SameHeaders s t) (var : (s.sv? x).isSome)
    (mem : x ∈ t.objs.dom) : (t.sv? x).isSome :=
  isSome_sv?_iff.mpr ⟨mem, (same x mem).2.trans (isSome_sv?_iff.mp var).2⟩

theorem Call.isSome_sv? {c : Call} {x : Addr} (fresh : ∀ p ∈ c.allocates, p ∉ s.objs.dom)
    (var : (s.sv? x).isSome) (mem : x ∈ t.objs.dom) (done : c.exec sizes s = .ok t) :
    (t.sv? x).isSome := by
  have old := (isSome_sv?_iff.mp var).1
  have other : ∀ p ∈ c.allocates, x ≠ p := fun p hp same => fresh p hp (same ▸ old)
  cases c with
  | newTime p _ | newAdt p _ _ | newSv p _ | newClosure p _ _ | newArray p _ | newBlob p _ =>
      cases done
      exact (alloc_sv?_of_ne (other p rfl) _).symm ▸ var
  | closureApply new child closure arg parent prio depth =>
      obtain ⟨⟨ret, u⟩, run, rest⟩ := bind_eq_ok.mp done
      obtain rfl := Except.ok.inj rest
      rcases ssmClosureApply_headers run with ⟨same, -⟩ | ⟨c, same, -, -⟩
      · exact same.isSome_sv? var mem
      · exact same.isSome_sv? ((alloc_sv?_of_ne (other new rfl) _).symm ▸ var) mem
  | closureApplyFinal child closure arg parent prio depth =>
      obtain ⟨⟨ret, u⟩, run, rest⟩ := bind_eq_ok.mp done
      obtain rfl := Except.ok.inj rest
      exact (ssmClosureApplyFinal_sameHeaders run).isSome_sv? var mem
  | dup _ | drop _ | assign _ _ _ | later _ _ _ | unschedule _ | sensitize _ _ | desensitize _
  | enter _ _ _ _ _ _ | activate _ | setNow _ | tickEnter | tickUpdate | tickPop =>
      have same : SameHeaders s t := Call.sameRead header_blind (by trivial) done
      exact same.isSome_sv? var mem

/-- Where the lists are kept, memory agrees with the history as before, as long
as the variables that are listened to stay. -/
theorem ListsKept.linked (kept : ListsKept s t) (linked : Linked s h)
    (stays : ∀ x, sensitised h x ≠ [] → (t.sv? x).isSome) : Linked t h where
  listed := linked.listed
  chain := fun x w hw => by
    rcases kept.head x w hw with ⟨v, hv, same⟩ | ⟨gone, none⟩
    · rw [same]
      exact (linked.chain x v hv).congr fun u hu =>
        ⟨kept.triggers ▸ (linked.chain x v hv).live hu, by rw [kept.triggers]⟩
    · rw [none, linked.absent x gone]
      exact .nil _
  absent := fun x gone => by
    by_contra heard
    exact Option.isSome_iff_ne_none.mp (stays x heard) gone

end Lists

section Preservation
variable {sizes : SafeSizes} {t : State} {w : World} {h : List TrigCall}

theorem sensitised_trigHistory {c : Call} {x : Addr} (owed : c.Owed w h)
    (heard : sensitised (trigHistory h c) x ≠ []) : sensitised h x ≠ [] ∨
      ∃ trig, c = .sensitize x trig ∧ 1 ≤ w.held x := by
  cases c with
  | sensitize var trig =>
      rw [trigHistory, Call.trigCall?, Option.toList_some, List.singleton_append,
        sensitised] at heard
      by_cases same : x = var
      · subst same
        exact Or.inr ⟨trig, rfl, owed.2.1⟩
      · rw [if_neg same] at heard
        exact Or.inl heard
  | desensitize trig =>
      refine Or.inl fun none => heard ?_
      rw [trigHistory, Call.trigCall?, Option.toList_some, List.singleton_append,
        sensitised, none, List.erase_nil]
  | newTime _ _ | newAdt _ _ _ | newSv _ _ | newClosure _ _ _ | newArray _ _ | newBlob _ _
  | dup _ | drop _ | assign _ _ _ | later _ _ _ | unschedule _ | enter _ _ _ _ _ _ | activate _
  | closureApply _ _ _ _ _ _ _ | closureApplyFinal _ _ _ _ _ _ | setNow _ | tickEnter
  | tickUpdate | tickPop => exact Or.inl heard

/-- What is listened to is held by the program also after the call. -/
theorem Sound.call_heard {c : Call} (sound : Sound sizes w h) (owed : c.Owed w h)
    (spares : c.Spares w h) {x : Addr} (heard : sensitised (trigHistory h c) x ≠ []) :
    1 ≤ (w.after c t).held x := by
  rcases sensitised_trigHistory owed heard with old | ⟨trig, rfl, held⟩
  · have mem : x ∈ w.state.objs.dom := by
      by_contra gone
      have none : w.state.sv? x = none := by simp [State.sv?, Table.get?, gone]
      exact old (sound.linked.absent x none)
    have := spares x mem old
    simp only [World.after]
    omega
  · exact Nat.le_add_right_of_le held

theorem Sound.call_linked {c : Call} (sound : Sound sizes w h) (legal : Legal w c)
    (owed : c.Owed w h) (spares : c.Spares w h) {L : Addr → Nat}
    (heap : HeapOk t fun a => (w.after c t).held a + L a) (done : c.exec sizes w.state = .ok t) :
    Linked t (trigHistory h c) ∧ SameOwners w.state t := by
  have plainCall (plain : c.trigCall? = none) :
      Linked t (trigHistory h c) ∧ SameOwners w.state t := by
    have same : trigHistory h c = h := by rw [trigHistory, plain, Option.toList_none]; rfl
    have kept := Call.listsKept plain legal.fresh done
    refine ⟨?_, .of_triggers kept.triggers⟩
    rw [same]
    refine kept.linked sound.linked fun x heard => ?_
    obtain ⟨trig, mem⟩ := List.exists_mem_of_ne_nil _ heard
    obtain ⟨v, hv, -⟩ := sound.linked.live mem
    refine Call.isSome_sv? legal.fresh (Option.isSome_iff_exists.mpr ⟨v, hv⟩) ?_ done
    -- a reference of the program is left, so the variable has not been freed
    by_contra gone
    have dead := heap.counted.dead x (by simpa using gone)
    have held := sound.call_heard (t := t) owed spares (same.symm ▸ heard)
    omega
  cases c with
  | sensitize var trig =>
      obtain ⟨live, held, mem, idle⟩ := owed
      obtain ⟨u, run, linked⟩ := sound.linked.step (c := .sensitize var trig)
        ⟨idle, fun x u same => by cases same; exact live, mem⟩
      obtain rfl := Except.ok.inj (run.symm.trans done)
      exact ⟨linked, ssmSvSensitize_sameOwners done⟩
  | desensitize trig =>
      obtain ⟨x, added⟩ := Option.isSome_iff_exists.mp owed
      obtain ⟨v, -, live⟩ := sound.linked.live ((sound.linked.listed.mem x trig).mpr added)
      obtain ⟨u, run, linked⟩ := sound.linked.step (c := .desensitize trig)
        ⟨owed, fun x u same => (by cases same), live⟩
      obtain rfl := Except.ok.inj (run.symm.trans done)
      exact ⟨linked, ssmSvDesensitize_sameOwners done⟩
  | newTime _ _ | newAdt _ _ _ | newSv _ _ | newClosure _ _ _ | newArray _ _ | newBlob _ _
  | dup _ | drop _ | assign _ _ _ | later _ _ _ | unschedule _ | enter _ _ _ _ _ _ | activate _
  | closureApply _ _ _ _ _ _ _ | closureApplyFinal _ _ _ _ _ _ | setNow _ | tickEnter
  | tickUpdate | tickPop => exact plainCall rfl

theorem Legal.actLegal {c : Call} (legal : Legal w c) (owed : c.Owed w h) :
    ActLegal w.state (.call c) where
  fresh := fun p hp => by
    cases c with
    | enter child _ _ _ _ _ =>
        cases hp
        exact owed.1
    | closureApply _ child _ _ _ _ _ =>
        cases hp
        exact owed.2.1
    | closureApplyFinal child _ _ _ _ _ =>
        cases hp
        exact owed.2.2.1
    | newTime _ _ | newAdt _ _ _ | newSv _ _ | newClosure _ _ _ | newArray _ _ | newBlob _ _
    | dup _ | drop _ | assign _ _ _ | later _ _ _ | unschedule _ | sensitize _ _ | desensitize _
    | activate _ | setNow _ | tickEnter | tickUpdate | tickPop => cases hp
  idle := fun a ha => by cases ha
  busy := fun same => by
    cases same
    exact legal.guarded
  own := fun u same => by cases same

theorem Sound.call {c : Call} (sound : Sound sizes w h) (keeps : (ApiCall.call c).Keeps w h)
    (done : c.exec sizes w.state = .ok t) : Sound sizes (w.after c t) (trigHistory h c) := by
  obtain ⟨legal, inPlace, owed, spares⟩ := keeps
  obtain ⟨L, heap⟩ := sound.heap
  obtain ⟨M, heap', -⟩ := Call.heapOk heap legal inPlace done
  have heap' : HeapOk t fun a => (w.after c t).held a + (L a + M a) :=
    heap'.same fun a => (Nat.add_assoc _ _ _).symm
  obtain ⟨linked, owners⟩ := sound.call_linked legal owed spares heap' done
  have grown := sound.call_grown legal owed done
  exact {
    heap := ⟨_, heap'⟩
    queue := Call.actQueueOk (legal.actLegal owed) sound.queue done
    linked := linked
    owners := fun u hu => by
      change t.actOf u ∈ t.acts.dom
      rw [owners.act]
      exact grown.records (sound.owners u (owners.dom ▸ hu))
    heard := fun x heard => sound.call_heard owed spares heard
    tree := grown.exact' }

/-- Neither the objects nor the history change, and no listed trigger. -/
theorem Linked.congr {s : State} (linked : Linked s h) (objs : t.objs = s.objs)
    (same : ∀ x, ∀ u ∈ sensitised h x, u ∈ t.triggers.dom ∧ t.triggers.val u = s.triggers.val u) :
    Linked t h := by
  have sv (x : Addr) : t.sv? x = s.sv? x := by rw [State.sv?, objs, State.sv?]
  refine ⟨fun x v hv => ?_, linked.listed, fun x gone => linked.absent x (sv x ▸ gone)⟩
  exact (linked.chain x v (sv x ▸ hv)).congr (same x)

theorem leaveFree_sameHeap {s : State} {act : ActPtr} {parent : Option ActPtr}
    (done : leaveFree act s = .ok (parent, t)) : SameHeap s t := by
  obtain ⟨a, -, done⟩ := bind_eq_ok.mp done
  obtain ⟨p, -, done⟩ := bind_eq_ok.mp done
  obtain ⟨-, rfl⟩ := Prod.mk.inj (Except.ok.inj done)
  exact ⟨rfl, rfl, rfl, rfl, rfl⟩

theorem Sound.leave {act : ActPtr} (sound : Sound sizes w h)
    (keeps : (ApiCall.leave act).Keeps w h) :
    ∃ t, (ApiCall.leave act).exec sizes w.state = .ok t ∧ Sound sizes { w with state := t } h := by
  obtain ⟨live, leaf, idle, unlisted⟩ := keeps
  obtain ⟨resumed, u, run, tree, left⟩ := leaveFree_tree sound.tree live leaf
  have same := leaveFree_sameHeap run
  refine ⟨forgetTriggers act u, by rw [ApiCall.exec, run]; rfl, ?_⟩
  have owner : u.actOf = w.state.actOf := by
    funext trig
    rw [State.actOf, same.triggers, State.actOf]
  have mem {trig : TriggerPtr} : trig ∈ (forgetTriggers act u).triggers.dom ↔
      trig ∈ w.state.triggers.dom ∧ w.state.actOf trig ≠ act := by
    rw [forgetTriggers, Finset.mem_filter, owner, same.triggers]
  obtain ⟨L, heap⟩ := sound.heap
  refine ⟨⟨L, heap.congr same.objs same.eventQueue same.eventQueueLen⟩,
    (leaveFree_ok idle sound.queue run).of_acts rfl rfl rfl,
    sound.linked.congr same.objs fun x trig listed => ⟨mem.mpr ⟨?_, fun own => ?_⟩, ?_⟩,
    fun trig ht => ?_, sound.heard, tree.kept (.of_acts rfl rfl)⟩
  · obtain ⟨v, -, live⟩ := sound.linked.live listed
    exact live
  · obtain ⟨v, -, live⟩ := sound.linked.live listed
    have added := (sound.linked.listed.mem x trig).mp listed
    rw [unlisted trig live own] at added
    cases added
  · change u.triggers.val trig = w.state.triggers.val trig
    rw [same.triggers]
  · obtain ⟨live, other⟩ := mem.mp ht
    change u.actOf trig ∈ u.acts.dom
    rw [owner, left.dom]
    exact Finset.mem_erase.mpr ⟨other, sound.owners trig live⟩

theorem Sound.adopt {trig : TriggerPtr} {act : ActPtr} (sound : Sound sizes w h)
    (keeps : (ApiCall.adopt trig act).Keeps w h) :
    Sound sizes { w with state := adoptTrigger trig act w.state } h := by
  obtain ⟨live, idle⟩ := keeps
  obtain ⟨L, heap⟩ := sound.heap
  refine ⟨⟨L, heap.congr rfl rfl rfl⟩, sound.queue.of_acts rfl rfl rfl,
    sound.linked.congr rfl fun x u listed => ?_, fun u hu => ?_, sound.heard,
    sound.tree.kept (.of_acts rfl rfl)⟩
  · have other : u ≠ trig := by
      rintro rfl
      have added := (sound.linked.listed.mem x u).mp listed
      rw [idle] at added
      cases added
    obtain ⟨v, -, here⟩ := sound.linked.live listed
    exact ⟨Finset.mem_insert_of_mem here, Table.alloc_val_of_ne _ _ other⟩
  · change (adoptTrigger trig act w.state).actOf u ∈ w.state.acts.dom
    rw [State.actOf, adoptTrigger]
    by_cases same : u = trig
    · subst same
      rw [Table.alloc_val_self]
      exact live
    · rw [Table.alloc_val_of_ne _ _ same]
      exact sound.owners u (Finset.mem_of_mem_insert_of_ne hu same)

theorem Sound.store {act : ActPtr} (sound : Sound sizes w h) (pc : Nat) (frame : List Value)
    (live : act ∈ w.state.acts.dom) : ∃ t,
    (ApiCall.store act pc frame).exec sizes w.state = .ok t ∧
      Sound sizes { w with state := t } h := by
  obtain ⟨a, ha⟩ : ∃ a, a = w.state.acts.val act := ⟨_, rfl⟩
  have loaded : w.state.loadAct act = .ok a := ha ▸ State.loadAct_of_mem live
  refine ⟨w.state.setAct act { a with pc := pc, frame := frame },
    by rw [ApiCall.exec, Action.exec, loaded]; rfl, ?_⟩
  have field {α : Type} (f : Act → α) (same : f { a with pc := pc, frame := frame } = f a)
      (b : ActPtr) : f ((w.state.setAct act { a with pc := pc, frame := frame }).acts.val b) =
        f (w.state.acts.val b) := by
    by_cases hb : b = act
    · subst hb
      rw [State.setAct, Table.write_val_self, same, ha]
    · rw [State.setAct, Table.write_val_of_ne _ _ hb]
  obtain ⟨L, heap⟩ := sound.heap
  refine ⟨⟨L, heap.congr rfl rfl rfl⟩, sound.queue.congr rfl rfl (fun b => ?_) fun b _ => ?_,
    sound.linked.congr rfl fun x u listed => ?_, sound.owners, sound.heard,
    sound.tree.kept ⟨rfl, field Act.caller rfl, field Act.children rfl, rfl⟩⟩
  · exact and_congr Iff.rfl (by rw [field Act.scheduled rfl])
  · exact field Act.priority rfl b
  · obtain ⟨v, -, here⟩ := sound.linked.live listed
    exact ⟨here, rfl⟩

end Preservation

section Runs
variable {sizes : SafeSizes} {w : World} {h : List TrigCall}

/-- The runs of a program that keeps the rules, each with its history. -/
inductive ApiRun (sizes : SafeSizes) : World → List TrigCall → Prop
  | boot : ApiRun sizes ⟨boot, fun _ => 0⟩ []
  | step {w : World} {h : List TrigCall} {c : ApiCall} {t : State} (before : ApiRun sizes w h)
      (keeps : c.Keeps w h) (done : c.exec sizes w.state = .ok t) :
      ApiRun sizes (c.after w t) (c.history h)

theorem Sound.boot : Sound sizes ⟨SsmRuntime.boot, fun _ => 0⟩ [] where
  heap := ⟨fun _ => 0, boot_heapOk⟩
  queue := actQueueOk_of_empty rfl fun a sched => by
    have idle : false = true := sched.2
    cases idle
  linked := .start fun x v hv => by
    obtain ⟨mem, -⟩ := State.sv?_eq_some.mp hv
    cases mem
  owners := fun u hu => by cases hu
  heard := fun x heard => absurd rfl heard
  tree := boot_treeExact

theorem Sound.step {c : ApiCall} {t : State} (sound : Sound sizes w h) (keeps : c.Keeps w h)
    (done : c.exec sizes w.state = .ok t) : Sound sizes (c.after w t) (c.history h) := by
  cases c with
  | call c => exact sound.call keeps done
  | leave act =>
      obtain ⟨u, run, sound'⟩ := sound.leave keeps
      obtain rfl := Except.ok.inj (run.symm.trans done)
      exact sound'
  | adopt trig act =>
      cases done
      exact sound.adopt keeps
  | store act pc frame =>
      obtain ⟨u, run, sound'⟩ := sound.store pc frame keeps
      obtain rfl := Except.ok.inj (run.symm.trans done)
      exact sound'

theorem Sound.ends {c : ApiCall} (sound : Sound sizes w h) (keeps : c.Keeps w h) :
    EndsWell (c.exec sizes w.state) c.throws := by
  cases c with
  | call c => exact sound.call_ends keeps.1 keeps.2.2.1
  | leave act =>
      obtain ⟨u, run, -⟩ := sound.leave keeps
      exact Or.inl ⟨u, run⟩
  | adopt trig act => exact .ok _ _
  | store act pc frame =>
      obtain ⟨u, run, -⟩ := sound.store pc frame keeps
      exact Or.inl ⟨u, run⟩

theorem ApiRun.sound (run : ApiRun sizes w h) : Sound sizes w h := by
  induction run with
  | boot => exact .boot
  | step before keeps done ih => exact ih.step keeps done

end Runs

section Play

instance (w : World) (h : List TrigCall) : (c : Call) → Decidable (c.Owed w h)
  | .unschedule var => inferInstanceAs (Decidable ((w.state.sv? var).isSome = true))
  | .sensitize _ _ => inferInstanceAs (Decidable (_ ∧ _ ∧ _ ∧ _))
  | .desensitize trig => inferInstanceAs (Decidable ((addedTo h trig).isSome = true))
  | .activate act => inferInstanceAs (Decidable (act ∈ w.state.acts.dom))
  | .enter _ _ _ _ _ _ => inferInstanceAs (Decidable (_ ∧ _ ∧ _))
  | .closureApply _ _ _ _ _ _ _ => inferInstanceAs (Decidable (_ ∧ _ ∧ _ ∧ _))
  | .closureApplyFinal _ _ _ _ _ _ => inferInstanceAs (Decidable (_ ∧ _ ∧ _ ∧ _ ∧ _))
  | .newTime _ _ | .newAdt _ _ _ | .newSv _ _ | .newClosure _ _ _ | .newArray _ _ | .newBlob _ _
  | .dup _ | .drop _ | .assign _ _ _ | .later _ _ _ | .setNow _ | .tickEnter | .tickUpdate
  | .tickPop => inferInstanceAs (Decidable True)

instance (w : World) (h : List TrigCall) (c : Call) : Decidable (c.Spares w h) :=
  inferInstanceAs (Decidable (∀ x ∈ w.state.objs.dom, _ → _))

/-- The part of the rules that can be decided, given ranks for the objects. -/
def ApiCall.Permitted (rank : Addr → Nat) (w : World) (h : List TrigCall) : ApiCall → Prop
  | call c => Allowed rank w c ∧ holdsPending w c = true ∧ c.Owed w h ∧ c.Spares w h
  | leave act => act ∈ w.state.processes ∧ w.state.childrenOf act = ∅ ∧
      ¬ (act ∈ w.state.acts.dom ∧ (w.state.acts.val act).scheduled = true) ∧
      ∀ t ∈ w.state.triggers.dom, w.state.actOf t = act → addedTo h t = none
  | adopt trig act => act ∈ w.state.acts.dom ∧ addedTo h trig = none
  | store act _ _ => act ∈ w.state.acts.dom

instance (rank : Addr → Nat) (w : World) (h : List TrigCall) :
    (c : ApiCall) → Decidable (c.Permitted rank w h)
  | .call c => inferInstanceAs (Decidable (Allowed rank w c ∧ holdsPending w c = true ∧
      c.Owed w h ∧ c.Spares w h))
  | .leave _ => inferInstanceAs (Decidable (_ ∧ _ ∧ _ ∧ _))
  | .adopt _ _ => inferInstanceAs (Decidable (_ ∧ _))
  | .store act _ _ => inferInstanceAs (Decidable (act ∈ w.state.acts.dom))

theorem ApiCall.Permitted.keeps {rank : Addr → Nat} {w : World} {h : List TrigCall} {c : ApiCall}
    (permitted : c.Permitted rank w h) : c.Keeps w h := by
  cases c with
  | call c =>
      obtain ⟨allowed, holds, owed, spares⟩ := permitted
      exact ⟨allowed.legal, inPlace_of_holdsPending holds, owed, spares⟩
  | leave act => exact permitted
  | adopt trig act => exact permitted
  | store act pc frame => exact permitted

/-- Play calls as long as each is permitted and returns. -/
def playApi (sizes : SafeSizes) (rank : Addr → Nat) :
    List ApiCall → World → List TrigCall → Option (World × List TrigCall)
  | [], w, h => some (w, h)
  | c :: cs, w, h =>
      if c.Permitted rank w h then
        match c.exec sizes w.state with
        | .ok t => playApi sizes rank cs (c.after w t) (c.history h)
        | .error _ => none
      else none

theorem ApiRun.of_play {sizes : SafeSizes} {rank : Addr → Nat} {cs : List ApiCall} {w : World}
    {h : List TrigCall} {r : World × List TrigCall} (run : ApiRun sizes w h)
    (play : playApi sizes rank cs w h = some r) : ApiRun sizes r.1 r.2 := by
  induction cs generalizing w h with
  | nil => exact Option.some.inj play ▸ run
  | cons c cs ih =>
      rw [playApi] at play
      split at play
      · rename_i permitted
        split at play
        · rename_i t done
          exact ih (.step run permitted.keeps done) play
        · cases play
      · cases play

/-- A record of the top parent waits for a variable, sees it change and leaves. -/
def waitAndLeave : List ApiCall :=
  [.call (.enter 5 1 ssmTopParent 0 8 []), .call (.activate 5), .call (.newSv 16 (.packed 3)),
    .adopt 7 5, .call .tickPop, .call (.sensitize 16 7), .call (.later 16 40 (.packed 4)),
    .store 5 1 [.heap 16], .call (.setNow 40), .call .tickUpdate, .call .tickPop,
    .call (.desensitize 7), .call (.drop (.heap 16)), .leave 5]

end Play

end SsmRuntime
