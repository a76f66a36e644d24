import SsmRuntime.FastPath
import SsmRuntime.Readings

/-!
Currying. A closure is known by its function, its arity and the arguments on its
path; every run of applications, in any order and with any sharing, keeps what is
known of each closure that is still there.
-/
namespace SsmRuntime

structure Curried where
  f : Nat
  arity : Nat
  path : List Value

def Curried.extend (k : Curried) (arg : Value) : Curried := { k with path := k.path ++ [arg] }

/-- What an application that returns hands to the program: the closure, or the
arguments in the frame of the child. -/
def Curried.granted (k : Curried) (arg : Value) : Option Value → List Value
  | some v => [v]
  | none => k.path ++ [arg]

/-- A closure with the arguments of its path, and room for more in its cells. -/
structure Curried.Is (k : Curried) (c : Closure) : Prop where
  f : c.f = k.f
  cap : c.cap = k.arity
  count : c.count = k.path.length
  applied : c.applied = k.path
  room : c.count < c.cap
  cells : c.argv.length = c.cap

/-- What later applications can tell of a closure. -/
structure Applied where
  f : Nat
  cap : Nat
  count : Nat
  args : List Value
  deriving DecidableEq

def Body.applied? : Body → Option Applied
  | .closure f count cap argv => some ⟨f, cap, count, argv.take count⟩
  | _ => none

def State.applied? (s : State) (a : Addr) : Option Applied :=
  (s.objs.get? a).bind fun o => o.body.applied?

section Applied
variable {s t : State} {a : Addr} {c : Closure}

theorem State.applied?_of_mem (mem : a ∈ s.objs.dom) :
    s.applied? a = (s.objs.val a).body.applied? := by
  simp [State.applied?, Table.get?, mem]

theorem State.applied?_of_notMem (gone : a ∉ s.objs.dom) : s.applied? a = none := by
  simp [State.applied?, Table.get?, gone]

theorem applied?_of_loaded (loaded : s.loadClosure a = .ok c) :
    s.applied? a = some ⟨c.f, c.cap, c.count, c.applied⟩ := by
  obtain ⟨mem, body⟩ := loadClosure_eq_ok.mp loaded
  rw [State.applied?_of_mem mem, body]
  rfl

theorem exists_loaded {v : Applied} (seen : s.applied? a = some v) :
    ∃ c, s.loadClosure a = .ok c ∧ v = ⟨c.f, c.cap, c.count, c.applied⟩ := by
  by_cases mem : a ∈ s.objs.dom
  · rw [State.applied?_of_mem mem] at seen
    cases body : (s.objs.val a).body with
    | closure f count cap argv =>
        rw [body] at seen
        exact ⟨⟨f, count, cap, argv⟩, loadClosure_eq_ok.mpr ⟨mem, body⟩,
          (Option.some.inj seen).symm⟩
    | time _ | adt _ _ | sv _ | array _ | blob _ =>
        rw [body] at seen
        cases seen
  · rw [State.applied?_of_notMem mem] at seen
    cases seen

theorem applied?_congr (dom : a ∈ t.objs.dom ↔ a ∈ s.objs.dom)
    (body : (t.objs.val a).body.applied? = (s.objs.val a).body.applied?) :
    t.applied? a = s.applied? a := by
  by_cases mem : a ∈ s.objs.dom
  · rw [State.applied?_of_mem mem, State.applied?_of_mem (dom.mpr mem), body]
  · rw [State.applied?_of_notMem mem, State.applied?_of_notMem fun h => mem (dom.mp h)]

end Applied

/-- A step of the program or the runtime that makes no closure and applies none. -/
structure Elsewhere (sizes : QueueSizes) (s t : State) (H : Addr → Nat) : Prop where
  heap : HeapOk t H
  acts : ActQueueOk sizes t
  closures : ∀ a v, t.applied? a = some v → s.applied? a = some v

/-- The calls that neither make a closure nor apply one. -/
def Call.closureless : Call → Prop
  | .newClosure _ _ _ | .closureApply _ _ _ _ _ _ _ | .closureApplyFinal _ _ _ _ _ _ => False
  | _ => True

section Elsewhere
variable {sizes : SafeSizes} {s t : State} {a : Addr} {v : Applied}

theorem SameRead.applied?_before (same : SameRead Body.applied? s t)
    (seen : t.applied? a = some v) : s.applied? a = some v := by
  by_cases mem : a ∈ t.objs.dom
  · obtain ⟨before, body⟩ := same a mem
    rw [← seen, State.applied?_of_mem mem, State.applied?_of_mem before, body]
  · rw [State.applied?_of_notMem mem] at seen
    cases seen

theorem alloc_applied?_before {p : Addr} {body : Body} (other : body.applied? = none)
    (seen : State.applied? { s with objs := s.objs.alloc p ⟨1, body⟩ } a = some v) :
    s.applied? a = some v := by
  by_cases ha : a = p
  · subst ha
    rw [State.applied?_of_mem (Finset.mem_insert_self _ _), Table.alloc_val_self, other] at seen
    cases seen
  · rw [← seen]
    refine (applied?_congr (Finset.mem_insert.trans (or_iff_right ha)) ?_).symm
    rw [Table.alloc_val_of_ne _ _ ha]

theorem Call.applied?_before {c : Call} (closureless : c.closureless)
    (done : c.exec sizes s = .ok t) (seen : t.applied? a = some v) : s.applied? a = some v := by
  have blind : Blind Body.applied? := fun _ _ => rfl
  cases c with
  | newClosure _ _ _ | closureApply _ _ _ _ _ _ _ | closureApplyFinal _ _ _ _ _ _ =>
      exact closureless.elim
  | newTime _ _ | newAdt _ _ _ | newSv _ _ | newArray _ _ | newBlob _ _ =>
      cases done
      exact alloc_applied?_before rfl seen
  | dup _ | drop _ | assign _ _ _ | later _ _ _ | unschedule _ | sensitize _ _ | desensitize _
  | enter _ _ _ _ _ _ | activate _ | setNow _ | tickEnter | tickUpdate | tickPop =>
      exact (Call.sameRead blind (by trivial) done).applied?_before seen

/-- The other calls of a program are such steps. -/
theorem Call.elsewhere {w : World} {c : Call} {L : Addr → Nat} (closureless : c.closureless)
    (heap : HeapOk w.state fun a => w.held a + L a) (acts : ActQueueOk sizes w.state)
    (legal : Legal w c) (inPlace : InPlace w c) (queued : ActLegal w.state (.call c))
    (done : c.exec sizes w.state = .ok t) :
    ∃ M : Addr → Nat, Elsewhere sizes w.state t fun a => (w.after c t).held a + L a + M a := by
  obtain ⟨M, heap', -⟩ := c.heapOk heap legal inPlace done
  exact ⟨M, heap', ActCall.actQueueOk queued acts done,
    fun a v => c.applied?_before closureless done⟩

end Elsewhere

structure ApplyLegal (s : State) (new : Addr) (child : ActPtr) (closure : Addr) (arg : Value)
    (parent : ActPtr) : Prop where
  live : ∃ c, s.loadClosure closure = .ok c
  lives : Lives s arg
  fresh : new ∉ s.objs.dom
  freshChild : child ∉ s.acts.dom
  caller : parent ∈ s.acts.dom

/-- The caller has the only reference to the closure, and gives it up; the closure
is not its own argument. -/
structure FinalLegal (s : State) (H : Addr → Nat) (child : ActPtr) (closure : Addr) (arg : Value)
    (parent : ActPtr) : Prop where
  live : ∃ c, s.loadClosure closure = .ok c
  sole : (s.objs.val closure).refCount = 1
  held : 1 ≤ H closure
  other : arg ≠ .heap closure
  lives : Lives s arg
  freshChild : child ∉ s.acts.dom
  caller : parent ∈ s.acts.dom

/-- The paths after an application that returns. -/
def recorded (tree : Addr → Curried) (closure : Addr) (arg : Value) :
    Option Value → Addr → Curried
  | some (.heap p) => Function.update tree p ((tree closure).extend arg)
  | _ => tree

/-- Runs from a heap without closures, with the references of the program and
the path of every closure. No application raises a count past 255. -/
inductive CurryRun (sizes : SafeSizes) : State → (Addr → Nat) → (Addr → Curried) → Prop
  | start {s : State} {H : Addr → Nat} (heap : HeapOk s H) (acts : ActQueueOk sizes s)
      (none : ∀ a, s.applied? a = none) (tree : Addr → Curried) : CurryRun sizes s H tree
  | elsewhere {s t : State} {H K : Addr → Nat} {tree : Addr → Curried}
      (before : CurryRun sizes s H tree) (away : Elsewhere sizes s t K) : CurryRun sizes t K tree
  | create {s : State} {H : Addr → Nat} {tree : Addr → Curried} {p : Addr} (f : Nat) {n : Nat}
      (before : CurryRun sizes s H tree) (fresh : p ∉ s.objs.dom) (pos : 1 ≤ n) (byte : n ≤ 255) :
      CurryRun sizes (ssmNewClosure p f n s) (fun a => H a + refsTo a [.heap p])
        (Function.update tree p ⟨f, n, []⟩)
  | apply {s t : State} {H : Addr → Nat} {tree : Addr → Curried} {new closure : Addr}
      {child parent : ActPtr} {arg : Value} {prio depth : Nat} {ret : Option Value}
      (before : CurryRun sizes s H tree)
      (legal : ApplyLegal s new child closure arg parent)
      (room : Room s (arg :: (tree closure).path))
      (done : ssmClosureApplyAuto sizes new child closure arg parent prio depth s = .ok (ret, t)) :
      CurryRun sizes t (fun a => H a + refsTo a ((tree closure).granted arg ret))
        (recorded tree closure arg ret)
  | final {s t : State} {H : Addr → Nat} {tree : Addr → Curried} {closure : Addr}
      {child parent : ActPtr} {arg : Value} {prio depth : Nat} {ret : Option Value}
      (before : CurryRun sizes s H tree) (legal : FinalLegal s H child closure arg parent)
      (room : Room s [arg])
      (done : ssmClosureApplyFinalAuto sizes child closure arg parent prio depth s =
        .ok (ret, t)) :
      CurryRun sizes t
        (fun a => H a - refsTo a [.heap closure] + refsTo a ((tree closure).granted arg ret))
        (recorded tree closure arg ret)

/-- The outcome of an application of the closure `k`. The last argument starts
one child with the whole path; any other gives the closure at `ret` with one
argument more. What can be told of the closures elsewhere stays as it is. -/
inductive Outcome (sizes : QueueSizes) (s : State) (k : Curried) (arg : Value) (ret : Addr)
    (child parent : ActPtr) (prio depth : Nat) : Except Stop (Option Value × State) → Prop
  | called {t : State} (last : k.arity = k.path.length + 1)
      (start : Started s t child k.f parent prio depth (k.path ++ [arg]))
      (gone : t.applied? ret = none) (others : ∀ a, a ≠ ret → t.applied? a = s.applied? a) :
      Outcome sizes s k arg ret child parent prio depth (.ok (none, t))
  | returned {t : State} {c : Closure} (more : k.path.length + 1 < k.arity)
      (quiet : t = s.withObjs t.objs) (loaded : t.loadClosure ret = .ok c)
      (extended : (k.extend arg).Is c) (others : ∀ a, a ≠ ret → t.applied? a = s.applied? a) :
      Outcome sizes s k arg ret child parent prio depth (.ok (some (.heap ret), t))
  | exhausted {e : Stop} (last : k.arity = k.path.length + 1) (full : sizes.act ≤ s.actQueueLen)
      (fault : e.fault = .thrown .exhaustedActQueue) :
      Outcome sizes s k arg ret child parent prio depth (.error e)

section Applications
variable {sizes : SafeSizes} {s : State} {H : Addr → Nat} {k : Curried} {closure new : Addr}
variable {c : Closure} {arg : Value} {child parent : ActPtr}

theorem Curried.Is.last_iff (is : k.Is c) : c.cap = c.count + 1 ↔ k.arity = k.path.length + 1 := by
  rw [is.cap, is.count]

theorem Curried.Is.pushed (is : k.Is c) (more : c.cap ≠ c.count + 1) (arg : Value) :
    (k.extend arg).Is (c.pushed arg) where
  f := is.f
  cap := is.cap
  count := by
    show c.count + 1 = (k.path ++ [arg]).length
    rw [is.count, List.length_append]
    rfl
  applied := by
    have inside : c.count < c.argv.length := is.cells ▸ is.room
    rw [Curried.extend, ← is.applied]
    exact take_succ_set _ _ _ inside
  room := by
    show c.count + 1 < c.cap
    have := is.room
    omega
  cells := by
    show (c.argv.set c.count arg).length = c.cap
    rw [List.length_set, is.cells]

theorem Curried.Is.cloned (is : k.Is c) : k.Is c.cloned where
  f := is.f
  cap := is.cap
  count := is.count
  applied := (Closure.cloned_applied (is.cells ▸ Nat.le_of_lt is.room)).trans is.applied
  room := is.room
  cells := Closure.cloned_length (Nat.le_of_lt is.room) (is.cells ▸ Nat.le_of_lt is.room)

theorem dupped_applied? (s : State) (vs : List Value) (a : Addr) :
    (s.withObjs (dupped s.objs vs)).applied? a = s.applied? a :=
  applied?_congr Iff.rfl (congrArg Body.applied? (shifted_body _ _ _ _))

/-- An application begins with a duplicate of its argument. -/
theorem dup_auto (heap : HeapOk s H) (acts : ActQueueOk sizes s) (is : k.Is c)
    (loaded : s.loadClosure closure = .ok c) (lives : Lives s arg) :
    ∃ u, ssmDup arg s = .ok u ∧ u = s.withObjs (dupped s.objs [arg]) ∧ ActQueueOk sizes u ∧
      OpenClosure u closure c ∧ (∀ a, u.applied? a = s.applied? a) ∧
      (Room s [arg] → HeapOk u fun a => H a + refsTo a [arg]) := by
  refine ⟨_, ssmDup_eq lives, rfl, acts.of_acts rfl rfl rfl,
    (heap.openClosure loaded is.room).withObjs rfl (shifted_body _ _ _ _),
    dupped_applied? s [arg], fun room => ?_⟩
  obtain ⟨u, run, -, heap'⟩ := heap.dup lives room
  exact Except.ok.inj (run.symm.trans (ssmDup_eq lives)) ▸ heap'

/-- The cell that a saturating application leaves behind is not looked at. -/
theorem stale_applied? (loaded : s.loadClosure closure = .ok c) (vs : List Value) (arg : Value)
    (n : Nat) (a : Addr) {t : State} :
    (t.withObjs ((dupped s.objs vs).write closure ((c.stale arg).obj n))).applied? a =
      s.applied? a := by
  refine applied?_congr Iff.rfl ?_
  by_cases ha : a = closure
  · subst ha
    rw [withObjs_objs, Table.write_val_self, (loadClosure_eq_ok.mp loaded).2]
    show some (Applied.mk c.f c.cap c.count ((c.argv.set c.count arg).take c.count)) = _
    rw [List.take_set_of_le (Nat.le_refl _)]
    rfl
  · rw [withObjs_objs, Table.write_val_of_ne _ _ ha, shifted_body]

theorem apply_outcome (prio depth : Nat) (heap : HeapOk s H) (acts : ActQueueOk sizes s)
    (is : k.Is c) (loaded : s.loadClosure closure = .ok c)
    (legal : ApplyLegal s new child closure arg parent) :
    Outcome sizes s k arg new child parent prio depth
      (ssmClosureApplyAuto sizes new child closure arg parent prio depth s) := by
  obtain ⟨u, dup, hu, acts', o, seen, -⟩ := dup_auto heap acts is loaded legal.lives
  have fresh : new ∉ u.objs.dom := by
    rw [hu]
    exact legal.fresh
  rw [ssmClosureApplyAuto, dup, ok_bind]
  by_cases last : c.cap = c.count + 1
  · have spec := startChild_spec acts' (by rw [hu]; exact legal.freshChild)
      (by rw [hu]; exact legal.caller) c.f prio depth (c.applied ++ [arg])
    rw [ssmClosureApply_full o last]
    split at spec
    · obtain ⟨t, run, -, start, -⟩ := spec
      simp only [run, overObjs, ok_bind, withObjs_withObjs]
      refine .called (is.last_iff.mp last) ?_ ?_ fun a _ => ?_
      · rw [hu, is.f, is.applied] at start
        exact start.withObjs.since
      · exact State.applied?_of_notMem fresh
      · rw [stale_applied? o.loaded, seen]
    · rename_i full
      obtain ⟨v, run⟩ := spec
      simp only [run, overObjs, error_bind]
      refine .exhausted (is.last_iff.mp last) ?_ rfl
      rw [hu] at full
      exact Nat.le_of_not_lt full
  · have more : k.arity ≠ k.path.length + 1 := fun h => last (is.last_iff.mpr h)
    have room := is.room
    rw [ssmClosureApply_part o last fresh]
    refine .returned (c := c.cloned.pushed arg) ?_ ?_ ?_ (is.cloned.pushed last arg)
      fun a ha => ?_
    · rw [is.cap, is.count] at room
      omega
    · rw [hu]
      rfl
    · refine loadClosure_eq_ok.mpr ⟨Finset.mem_insert_self _ _, ?_⟩
      rw [withObjs_objs, Table.alloc_val_self]
      rfl
    · rw [← seen]
      refine applied?_congr (Finset.mem_insert.trans (or_iff_right ha)) ?_
      rw [withObjs_objs, Table.alloc_val_of_ne _ _ ha, shifted_body]

theorem final_outcome (prio depth : Nat) (heap : HeapOk s H) (acts : ActQueueOk sizes s)
    (is : k.Is c) (loaded : s.loadClosure closure = .ok c)
    (legal : FinalLegal s H child closure arg parent) :
    Outcome sizes s k arg closure child parent prio depth
      (ssmClosureApplyFinalAuto sizes child closure arg parent prio depth s) := by
  obtain ⟨u, dup, hu, acts', o, seen, -⟩ := dup_auto heap acts is loaded legal.lives
  have sole : (u.objs.val closure).refCount = 1 := by
    rw [hu, withObjs_objs, shifted_of_none _ (refsTo_other legal.other), legal.sole]
  have mem := (loadClosure_eq_ok.mp o.loaded).1
  rw [ssmClosureApplyFinalAuto, dup, ok_bind]
  by_cases last : c.cap = c.count + 1
  · have spec := startChild_spec acts' (by rw [hu]; exact legal.freshChild)
      (by rw [hu]; exact legal.caller) c.f prio depth (c.applied ++ [arg])
    rw [ssmClosureApplyFinal_full o last sole]
    split at spec
    · obtain ⟨t, run, -, start, -⟩ := spec
      simp only [run, overObjs, ok_bind, withObjs_withObjs]
      refine .called (is.last_iff.mp last) ?_ ?_ fun a ha => ?_
      · rw [hu, is.f, is.applied] at start
        exact start.withObjs.since
      · exact State.applied?_of_notMem (Finset.notMem_erase _ _)
      · rw [← seen]
        refine applied?_congr (Finset.mem_erase.trans (and_iff_right ha)) ?_
        rw [withObjs_objs, Table.release_val, Table.write_val_of_ne _ _ ha]
    · rename_i full
      obtain ⟨v, run⟩ := spec
      simp only [run, overObjs, error_bind]
      refine .exhausted (is.last_iff.mp last) ?_ rfl
      rw [hu] at full
      exact Nat.le_of_not_lt full
  · have more : k.arity ≠ k.path.length + 1 := fun h => last (is.last_iff.mpr h)
    have room := is.room
    rw [ssmClosureApplyFinal_part o last sole]
    refine .returned (c := c.pushed arg) ?_ ?_ (loadClosure_write mem _ _) (is.pushed last arg)
      fun a ha => ?_
    · rw [is.cap, is.count] at room
      omega
    · rw [hu]
      rfl
    · rw [← seen]
      refine applied?_congr Iff.rfl ?_
      rw [withObjs_objs, Table.write_val_of_ne _ _ ha]

theorem handed_eq_granted (is : k.Is c) {prio depth : Nat} {ret : Option Value} {t : State}
    (outcome : Outcome sizes s k arg new child parent prio depth (.ok (ret, t))) :
    c.handed arg new = k.granted arg ret := by
  cases outcome with
  | called last start gone others =>
      rw [Closure.handed, if_pos (is.last_iff.mpr last), is.applied]
      rfl
  | returned more quiet loaded extended others =>
      rw [Closure.handed, if_neg fun last => by have := is.last_iff.mp last; omega]
      rfl

theorem apply_heap (heap : HeapOk s H) (acts : ActQueueOk sizes s) (is : k.Is c)
    (loaded : s.loadClosure closure = .ok c)
    (legal : ApplyLegal s new child closure arg parent) (room : Room s (arg :: k.path))
    {prio depth : Nat} {ret : Option Value} {t : State}
    (done : ssmClosureApplyAuto sizes new child closure arg parent prio depth s = .ok (ret, t)) :
    (HeapOk t fun a => H a + refsTo a (k.granted arg ret)) ∧ ActQueueOk sizes t := by
  have outcome := apply_outcome prio depth heap acts is loaded legal
  rw [done] at outcome
  obtain ⟨u, dup, hu, acts', o, -, heap'⟩ := dup_auto heap acts is loaded legal.lives
  rw [ssmClosureApplyAuto, dup, ok_bind] at done
  have first : Room s [arg] := fun a ha => by
    have := room a ha
    rw [refsTo_cons] at this
    omega
  have rest : Room u c.applied := fun a ha => by
    rw [hu] at ha ⊢
    have mem : a ∈ s.objs.dom := ha
    have small := heap.counted.small a (by simpa using mem)
    have := room a mem
    rw [refsTo_cons] at this
    rw [withObjs_objs, dupped_refCount _ _ small, is.applied]
    omega
  rw [← handed_eq_granted is outcome]
  exact ⟨(heap' first).closureApply o.loaded (by rw [hu]; exact legal.fresh) rest done,
    ssmClosureApply_ok (by rw [hu]; exact legal.freshChild) acts' done⟩

theorem final_heap (heap : HeapOk s H) (acts : ActQueueOk sizes s) (is : k.Is c)
    (loaded : s.loadClosure closure = .ok c) (legal : FinalLegal s H child closure arg parent)
    (room : Room s [arg]) {prio depth : Nat} {ret : Option Value} {t : State}
    (done : ssmClosureApplyFinalAuto sizes child closure arg parent prio depth s =
      .ok (ret, t)) :
    (HeapOk t fun a => H a - refsTo a [.heap closure] + refsTo a (k.granted arg ret)) ∧
      ActQueueOk sizes t := by
  have outcome := final_outcome prio depth heap acts is loaded legal
  rw [done] at outcome
  obtain ⟨u, dup, hu, acts', o, -, heap'⟩ := dup_auto heap acts is loaded legal.lives
  rw [ssmClosureApplyFinalAuto, dup, ok_bind] at done
  rw [← handed_eq_granted is outcome]
  refine ⟨HeapOk.closureApplyFinal ((heap' room).same fun a => ?_) o.loaded done,
    ssmClosureApplyFinal_ok (by rw [hu]; exact legal.freshChild) acts' done⟩
  rw [refsTo_cons a (.heap closure) [arg]]
  by_cases ha : a = closure
  · subst ha
    have := legal.held
    rw [refsTo_heap_self]
    omega
  · rw [refsTo_heap_ne ha]
    omega

end Applications

/-- Every closure that is there has the arguments of its path. -/
def Paths (s : State) (tree : Addr → Curried) : Prop :=
  ∀ a c, s.loadClosure a = .ok c → (tree a).Is c

section Paths
variable {sizes : SafeSizes} {s t : State} {H K : Addr → Nat} {tree : Addr → Curried}

theorem Paths.is (paths : Paths s tree) (heap : HeapOk t K) {a : Addr} {c : Closure}
    (loaded : t.loadClosure a = .ok c)
    (before : s.applied? a = some ⟨c.f, c.cap, c.count, c.applied⟩) : (tree a).Is c := by
  obtain ⟨d, loaded', same⟩ := exists_loaded before
  obtain ⟨f, cap, count, applied⟩ := Applied.mk.inj same
  have is := paths a d loaded'
  exact ⟨f.trans is.f, cap.trans is.cap, count.trans is.count, applied.trans is.applied,
    count ▸ cap ▸ is.room, (heap.closure_shaped loaded).2.1⟩

theorem Outcome.paths {closure ret : Addr} {arg : Value} {child parent : ActPtr} {prio depth : Nat}
    {res : Option Value} (paths : Paths s tree) (heap : HeapOk t K)
    (outcome : Outcome sizes s (tree closure) arg ret child parent prio depth (.ok (res, t))) :
    Paths t (recorded tree closure arg res) := by
  intro a d loaded
  have seen := applied?_of_loaded loaded
  cases outcome with
  | called last start gone others =>
      have ne : a ≠ ret := by
        rintro rfl
        rw [gone] at seen
        cases seen
      exact paths.is heap loaded (others a ne ▸ seen)
  | returned more quiet loaded' extended others =>
      by_cases ha : a = ret
      · subst ha
        rw [recorded, Function.update_self, Except.ok.inj (loaded.symm.trans loaded')]
        exact extended
      · rw [recorded, Function.update_of_ne ha]
        exact paths.is heap loaded (others a ha ▸ seen)

theorem Paths.create (paths : Paths s tree) {p : Addr} (f : Nat) {n : Nat} (pos : 1 ≤ n)
    (heap : HeapOk (ssmNewClosure p f n s) K) :
    Paths (ssmNewClosure p f n s) (Function.update tree p ⟨f, n, []⟩) := by
  intro a d loaded
  obtain ⟨mem, body⟩ := loadClosure_eq_ok.mp loaded
  by_cases ha : a = p
  · subst ha
    rw [ssmNewClosure, Table.alloc_val_self] at body
    obtain ⟨rfl, zero, rfl, -⟩ := Body.closure.inj body
    rw [Function.update_self]
    exact ⟨rfl, rfl, zero.symm, by rw [Closure.applied, ← zero]; rfl, by omega,
      (heap.closure_shaped loaded).2.1⟩
  · rw [Function.update_of_ne ha]
    refine paths.is heap loaded ?_
    rw [← applied?_of_loaded loaded]
    refine (applied?_congr (Finset.mem_insert.trans (or_iff_right ha)) ?_).symm
    rw [ssmNewClosure, Table.alloc_val_of_ne _ _ ha]

theorem CurryRun.ok (run : CurryRun sizes s H tree) :
    HeapOk s H ∧ ActQueueOk sizes s ∧ Paths s tree := by
  induction run with
  | start heap acts none tree =>
      refine ⟨heap, acts, fun a c loaded => ?_⟩
      have seen := applied?_of_loaded loaded
      rw [none] at seen
      cases seen
  | elsewhere before away ih =>
      exact ⟨away.heap, away.acts, fun a c loaded =>
        ih.2.2.is away.heap loaded (away.closures a _ (applied?_of_loaded loaded))⟩
  | @create s H tree p f n before fresh pos byte ih =>
      obtain ⟨heap, acts, paths⟩ := ih
      have heap' : HeapOk (ssmNewClosure p f n s) fun a => H a + refsTo a [.heap p] :=
        (heap.same fun a => by simp [Body.refs, Body.children]).alloc fresh
          ⟨Nat.zero_le _, by simp, by omega⟩ (by simp)
      exact ⟨heap', acts.of_acts rfl rfl rfl, paths.create f pos heap'⟩
  | @apply s t H tree new closure child parent arg prio depth ret before legal room done ih =>
      obtain ⟨heap, acts, paths⟩ := ih
      obtain ⟨c, loaded⟩ := legal.live
      have is := paths _ c loaded
      obtain ⟨heap', acts'⟩ := apply_heap heap acts is loaded legal room done
      have outcome := apply_outcome prio depth heap acts is loaded legal
      rw [done] at outcome
      exact ⟨heap', acts', outcome.paths paths heap'⟩
  | @final s t H tree closure child parent arg prio depth ret before legal room done ih =>
      obtain ⟨heap, acts, paths⟩ := ih
      obtain ⟨c, loaded⟩ := legal.live
      have is := paths _ c loaded
      obtain ⟨heap', acts'⟩ := final_heap heap acts is loaded legal room done
      have outcome := final_outcome prio depth heap acts is loaded legal
      rw [done] at outcome
      exact ⟨heap', acts', outcome.paths paths heap'⟩

/-- In every state of every run a closure has the arguments of its path, and an
application does what it does for that path alone. -/
theorem currying_exact (run : CurryRun sizes s H tree) :
    Paths s tree ∧
    (∀ new child closure arg parent prio depth,
      ApplyLegal s new child closure arg parent →
        Outcome sizes s (tree closure) arg new child parent prio depth
          (ssmClosureApplyAuto sizes new child closure arg parent prio depth s)) ∧
    ∀ child closure arg parent prio depth, FinalLegal s H child closure arg parent →
      Outcome sizes s (tree closure) arg closure child parent prio depth
        (ssmClosureApplyFinalAuto sizes child closure arg parent prio depth s) := by
  obtain ⟨heap, acts, paths⟩ := run.ok
  refine ⟨paths, fun new child closure arg parent prio depth legal => ?_,
    fun child closure arg parent prio depth legal => ?_⟩
  · obtain ⟨c, loaded⟩ := legal.live
    exact apply_outcome prio depth heap acts (paths _ c loaded) loaded legal
  · obtain ⟨c, loaded⟩ := legal.live
    exact final_outcome prio depth heap acts (paths _ c loaded) loaded legal

end Paths

theorem boot_heapOk : HeapOk boot fun _ => 0 := start_boot.heapOk

/-- A closure of two parameters is applied twice, and each result once. -/
theorem currying_exact_shared : ∃ s H tree, CurryRun defaultSafeSizes s H tree ∧
    s.actQueueLen = 2 ∧ (s.acts.val 8).frame = [.packed 3, .packed 5] ∧
    (s.acts.val 9).frame = [.packed 4, .packed 6] ∧ Paths s tree := by
  have start : CurryRun defaultSafeSizes boot (fun _ => 0) fun _ => ⟨0, 0, []⟩ :=
    .start boot_heapOk (actQueueOk_of_empty rfl fun a sched => by
      have off : (boot.acts.val a).scheduled = true := sched.2
      cases off) (fun a => rfl) _
  have packed : ∀ {s : State} {n : Nat}, Lives s (.packed n) := by
    intro s n a ha
    cases ha
  have made := start.create 7 (p := 2) (n := 2) (by decide) (by decide) (by decide)
  have left := made.apply
    (show ApplyLegal _ 3 8 2 (.packed 3) ssmTopParent from
      ⟨⟨_, rfl⟩, packed, by decide, by decide, by decide⟩)
    (by unfold Room; decide)
    (show ssmClosureApplyAuto _ 3 8 2 (.packed 3) ssmTopParent 0 0 _ = _ from rfl)
  have right := left.apply
    (show ApplyLegal _ 4 8 2 (.packed 4) ssmTopParent from
      ⟨⟨_, rfl⟩, packed, by decide, by decide, by decide⟩)
    (by unfold Room; decide)
    (show ssmClosureApplyAuto _ 4 8 2 (.packed 4) ssmTopParent 0 0 _ = _ from rfl)
  have called := right.apply
    (show ApplyLegal _ 5 8 3 (.packed 5) ssmTopParent from
      ⟨⟨_, rfl⟩, packed, by decide, by decide, by decide⟩)
    (by unfold Room; decide)
    (show ssmClosureApplyAuto _ 5 8 3 (.packed 5) ssmTopParent 0 0 _ = _ from rfl)
  have final := called.final
    (show FinalLegal _ _ 9 4 (.packed 6) ssmTopParent from
      ⟨⟨_, rfl⟩, by decide, by decide, by decide, packed, by decide, by decide⟩)
    (by unfold Room; decide)
    (show ssmClosureApplyFinalAuto _ 9 4 (.packed 6) ssmTopParent 0 0 _ = _ from rfl)
  exact ⟨_, _, _, final, rfl, rfl, rfl, (currying_exact final).1⟩

end SsmRuntime
