import SsmRuntime.HeapObjects

/-!
What the two applications of a closure compute, in full, and that they keep the
counts exact. Duplicating, pushing and cloning change the objects only, and the
activation of the child does not look at them; so each application is its
activation with other objects.
-/
namespace SsmRuntime

/-- The same state with other objects. -/
def State.withObjs (s : State) (objs : Table Obj) : State := { s with objs := objs }

@[simp] theorem withObjs_objs (s : State) (objs : Table Obj) : (s.withObjs objs).objs = objs := rfl

@[simp] theorem withObjs_withObjs (s : State) (o o' : Table Obj) :
    (s.withObjs o).withObjs o' = s.withObjs o' := rfl

theorem withObjs_self (s : State) : s.withObjs s.objs = s := rfl

theorem setObj_eq (s : State) (a : Addr) (o : Obj) :
    s.setObj a o = s.withObjs (s.objs.write a o) := rfl

/-- Each count has moved by `k` for each reference in `vs`, as an 8-bit number. -/
def shifted (k : Nat) (T : Table Obj) (vs : List Value) : Table Obj where
  dom := T.dom
  val := fun a =>
    if refsTo a vs = 0 then T.val a
    else ⟨((T.val a).refCount + k * refsTo a vs) % 256, (T.val a).body⟩

/-- The objects after the values `vs` have been duplicated. -/
abbrev dupped (T : Table Obj) (vs : List Value) : Table Obj := shifted 1 T vs

section Dups
variable {s : State} {T : Table Obj} {a : Addr} {vs : List Value} {k : Nat}

theorem shifted_body (k : Nat) (T : Table Obj) (vs : List Value) (a : Addr) :
    ((shifted k T vs).val a).body = (T.val a).body := by
  simp only [shifted]
  split <;> rfl

theorem shifted_of_none (T : Table Obj) (h : refsTo a vs = 0) :
    (shifted k T vs).val a = T.val a := if_pos h

theorem shifted_append (k : Nat) (T : Table Obj) (vs ws : List Value) :
    shifted k (shifted k T vs) ws = shifted k T (vs ++ ws) := by
  refine Table.ext_val rfl fun a => ?_
  simp only [shifted, refsTo_append]
  by_cases one : refsTo a vs = 0
  · simp [one]
  · by_cases rest : refsTo a ws = 0
    · simp [one, rest]
    · simp [one, rest, Nat.mul_add, Nat.add_assoc]

/-- Elsewhere the counts do not depend on one object. -/
theorem shifted_congr {U : Table Obj} (vs : List Value) (same : U.val a = T.val a) :
    (shifted k U vs).val a = (shifted k T vs).val a := by
  simp only [shifted, same]

theorem shifted_packed (k : Nat) (T : Table Obj) (n : Nat) : shifted k T [.packed n] = T :=
  Table.ext_val rfl fun a => shifted_of_none T (refsTo_packed a n)

theorem write_eq_shifted (k : Nat) (T : Table Obj) (a : Addr) :
    T.write a ⟨((T.val a).refCount + k) % 256, (T.val a).body⟩ = shifted k T [.heap a] := by
  refine Table.ext_val rfl fun b => ?_
  by_cases hb : b = a
  · subst hb
    simp [shifted, refsTo_heap_self]
  · rw [Table.write_val_of_ne _ _ hb, shifted_of_none _ (refsTo_heap_ne hb)]

/-- For a count that is an 8-bit number there is no need to tell the cases apart. -/
theorem dupped_refCount (T : Table Obj) (vs : List Value) (small : (T.val a).refCount < 256) :
    ((dupped T vs).val a).refCount = ((T.val a).refCount + refsTo a vs) % 256 := by
  simp only [shifted, Nat.one_mul]
  split
  · rename_i none
    rw [none, Nat.add_zero, Nat.mod_eq_of_lt small]
  · rfl

theorem ssmDup_eq {v : Value} (lives : Lives s v) :
    ssmDup v s = .ok (s.withObjs (dupped s.objs [v])) := by
  cases v with
  | packed n =>
      rw [dupped, shifted_packed]
      rfl
  | heap a =>
      rw [ssmDup, State.loadObj_of_mem (lives a rfl), ok_bind, setObj_eq]
      exact congrArg (fun objs => Except.ok (s.withObjs objs)) (write_eq_shifted 1 s.objs a)

theorem Lives.withObjs {o : Table Obj} {v : Value} (lives : Lives s v)
    (dom : o.dom = s.objs.dom) : Lives (s.withObjs o) v := fun a ha => by
  rw [withObjs_objs, dom]
  exact lives a ha

theorem ssmDups_eq (vs : List Value) (lives : ∀ v ∈ vs, Lives s v) :
    ssmDups vs s = .ok (s.withObjs (dupped s.objs vs)) := by
  induction vs generalizing s with
  | nil => rfl
  | cons v vs ih =>
      rw [ssmDups, ssmDup_eq (lives v (by simp)), ok_bind,
        ih (s := s.withObjs (dupped s.objs [v])) fun u hu => (lives u (by simp [hu])).withObjs rfl,
        withObjs_objs, withObjs_withObjs, dupped, dupped, shifted_append]
      rfl

end Dups

theorem loadClosure_eq_ok {s : State} {a : Addr} {c : Closure} :
    s.loadClosure a = .ok c ↔
      a ∈ s.objs.dom ∧ (s.objs.val a).body = .closure c.f c.count c.cap c.argv := by
  unfold State.loadClosure Table.get?
  by_cases h : a ∈ s.objs.dom
  · simp only [h, if_true, true_and]
    cases hb : s.objs.val a with
    | mk rc body =>
        cases c
        cases body <;> simp
  · simp [h]

theorem loadClosure_setClosure {s : State} {a : Addr} {c d : Closure}
    (h : s.loadClosure a = .ok c) : (s.setClosure a d).loadClosure a = .ok d :=
  loadClosure_eq_ok.mpr ⟨(loadClosure_eq_ok.mp h).1, by simp [State.setClosure, State.setObj]⟩

section Closure
variable {s t : State} {H : Addr → Nat} {a : Addr} {c d : Closure}

/-- The arguments applied so far. -/
def Closure.applied (c : Closure) : List Value := c.argv.take c.count

theorem HeapOk.closure_shaped (h : HeapOk s H) (hc : s.loadClosure a = .ok c) :
    c.count ≤ c.cap ∧ c.argv.length = c.cap ∧ c.cap < 256 := by
  obtain ⟨mem, body⟩ := loadClosure_eq_ok.mp hc
  have := h.shaped a mem
  rwa [body] at this

theorem HeapOk.setClosure {ins : List Value} (outs : List Value)
    (h : HeapOk s fun b => H b + refsTo b ins)
    (hc : s.loadClosure a = .ok c) (shaped : d.count ≤ d.cap ∧ d.argv.length = d.cap ∧ d.cap < 256)
    (balance : ∀ b, refsTo b d.applied + refsTo b outs = refsTo b c.applied + refsTo b ins) :
    HeapOk (s.setClosure a d) fun b => H b + refsTo b outs := by
  obtain ⟨mem, body⟩ := loadClosure_eq_ok.mp hc
  exact h.setBody mem (by simp [body]) (by simp) shaped fun b => by rw [body]; exact balance b

theorem HeapOk.applied_lives (h : HeapOk s H) (hc : s.loadClosure a = .ok c) {v : Value}
    (hv : v ∈ c.applied) : Lives s v := by
  rintro b rfl
  obtain ⟨mem, body⟩ := loadClosure_eq_ok.mp hc
  have := h.counted.mem_of_field (a := b) (b := a) (by simpa using mem) (by
    rw [body]
    exact hv)
  simpa using this

theorem take_succ_set {α : Type} (xs : List α) (n : Nat) (x : α) (h : n < xs.length) :
    (xs.set n x).take (n + 1) = xs.take n ++ [x] := by
  rw [List.take_add_one, List.take_set_of_le (Nat.le_refl n), List.getElem?_set_self h]
  rfl

/-- Pushing moves the argument into the closure. -/
theorem HeapOk.closurePush {arg : Value} (h : HeapOk s fun b => H b + refsTo b [arg])
    (hc : s.loadClosure a = .ok c) (run : ssmClosurePush a arg s = .ok t) :
    t = s.setClosure a { c with argv := c.argv.set c.count arg, count := c.count + 1 } ∧
      HeapOk t H := by
  obtain ⟨-, len, cap⟩ := h.closure_shaped hc
  rw [ssmClosurePush, hc, ok_bind] at run
  split at run
  · rename_i room
    rw [Nat.mod_eq_of_lt (by omega)] at run
    cases run
    have pushed := h.setClosure []
      (d := { c with argv := c.argv.set c.count arg, count := c.count + 1 }) hc
      ⟨by simp only; omega, by simp [len], cap⟩ fun b => by
        rw [Closure.applied, take_succ_set _ _ _ room, refsTo_append, Closure.applied, refsTo_nil]
        rfl
    exact ⟨rfl, pushed.same fun b => by simp⟩
  · simp at run

/-- Popping gives the last argument back. -/
theorem HeapOk.closurePop (args : List Value) (arg : Value) (h : HeapOk s H)
    (hc : s.loadClosure a = .ok c) (last : c.applied = args ++ [arg])
    (run : ssmClosurePop a s = .ok t) : HeapOk t fun b => H b + refsTo b [arg] := by
  obtain ⟨le, len, cap⟩ := h.closure_shaped hc
  have count : c.count = args.length + 1 := by
    have := congrArg List.length last
    simp only [Closure.applied, List.length_take, List.length_append, List.length_singleton] at this
    omega
  have less : (c.count + 255) % 256 = args.length := by omega
  rw [ssmClosurePop, hc, ok_bind, less] at run
  cases run
  refine (h.same (K := fun b => H b + refsTo b []) fun b => by simp).setClosure _ hc
    ⟨by simp; omega, len, cap⟩ fun b => ?_
  have front : Closure.applied { c with count := args.length } = args := by
    have := congrArg (List.take args.length) last
    rw [Closure.applied, List.take_take, Nat.min_eq_left (by omega), List.take_left] at this
    exact this
  rw [front, last, refsTo_append, refsTo_nil]
  rfl

theorem ssmClosureActivate_sameHeap {sizes : QueueSizes} {child parent : ActPtr}
    {prio depth : Nat} (run : ssmClosureActivate sizes child a parent prio depth s = .ok t) :
    SameHeap s t := by
  unfold ssmClosureActivate at run
  obtain ⟨c, -, run⟩ := bind_eq_ok.mp run
  obtain ⟨u, entered, run⟩ := bind_eq_ok.mp run
  exact (ssmEnterInt_sameHeap entered).trans (ssmActivate_sameHeap run)

end Closure

theorem Recounted.loadClosure {s t : State} {vs : List Value} (k : Recounted s t vs) {a : Addr}
    {c : Closure} (hc : s.loadClosure a = .ok c) : t.loadClosure a = .ok c := by
  obtain ⟨mem, body⟩ := loadClosure_eq_ok.mp hc
  exact loadClosure_eq_ok.mpr ⟨k.dom ▸ mem, by rw [k.body, body]⟩

theorem SameHeap.loadClosure {s t : State} (k : SameHeap s t) {a : Addr} {c : Closure}
    (hc : s.loadClosure a = .ok c) : t.loadClosure a = .ok c := by
  obtain ⟨mem, body⟩ := loadClosure_eq_ok.mp hc
  exact loadClosure_eq_ok.mpr ⟨by rwa [k.objs], by rw [k.objs, body]⟩

theorem take_succ_of_lt {α : Type} {xs : List α} {n : Nat} (h : n < xs.length) :
    xs.take (n + 1) = xs.take n ++ [xs[n]] := (List.take_append_getElem h).symm

/-- What an application hands to the program: the arguments of the new child,
or the closure that has one more argument. -/
def Closure.handed (c : Closure) (arg : Value) (result : Addr) : List Value :=
  if c.cap = c.count + 1 then c.applied ++ [arg] else [.heap result]

theorem refsTo_fresh {s : State} {p : Addr} {vs : List Value} (fresh : p ∉ s.objs.dom)
    (lives : ∀ v, v ∈ vs → Lives s v) : refsTo p vs = 0 := by
  by_contra some
  exact fresh (lives _ (List.count_pos_iff.mp (Nat.pos_of_ne_zero some)) p rfl)

theorem ssmIsShared_heap {s : State} {a : Addr} (mem : a ∈ s.objs.dom) :
    ssmIsShared (.heap a) s = .ok (!((s.objs.val a).refCount == 1)) := by
  rw [ssmIsShared, State.loadObj_of_mem mem, ok_bind]

/-- An outcome with other objects. -/
def overObjs (objs : Table Obj) : Res → Res
  | .ok s => .ok (s.withObjs objs)
  | .error e => .error ⟨e.fault, e.last.withObjs objs⟩

/-- What the enter function of a closure does, and the activation of the child. -/
def startChild (sizes : QueueSizes) (child : ActPtr) (f : Nat) (parent : ActPtr)
    (prio depth : Nat) (argv : List Value) (s : State) : Res := do
  let s ← ssmEnterInt child f parent prio depth argv s
  ssmActivate sizes child s

section Activation
variable (sizes : QueueSizes) (child parent : ActPtr) (f prio depth : Nat) (argv : List Value)
variable (s : State) (objs : Table Obj)

theorem ssmEnterInt_withObjs :
    ssmEnterInt child f parent prio depth argv (s.withObjs objs) =
      overObjs objs (ssmEnterInt child f parent prio depth argv s) := by
  simp only [ssmEnterInt, State.loadAct, State.withObjs]
  split <;> rfl

theorem actQueuePercolateUp_withObjs (hole : Nat) :
    actQueuePercolateUp hole child (s.withObjs objs) =
      overObjs objs (actQueuePercolateUp hole child s) := by
  have acts : (s.withObjs objs).acts = s.acts := rfl
  have len : (s.withObjs objs).actQueueLen = s.actQueueLen := rfl
  unfold actQueuePercolateUp
  rw [len]
  by_cases inside : decide (1 ≤ hole ∧ hole ≤ s.actQueueLen) = true
  · rw [ssmAssert_of inside, ssmAssert_of inside, ok_bind, ok_bind]
    simp only [State.loadAct, acts]
    cases s.acts.get? child <;> rfl
  · simp only [ssmAssert, inside, if_neg, Bool.false_eq_true, not_false_eq_true]
    rfl

theorem ssmActivate_withObjs :
    ssmActivate sizes child (s.withObjs objs) = overObjs objs (ssmActivate sizes child s) := by
  have acts : ∀ t : State, (t.withObjs objs).acts = t.acts := fun _ => rfl
  have len : ∀ t : State, (t.withObjs objs).actQueueLen = t.actQueueLen := fun _ => rfl
  simp only [ssmActivate, State.loadAct, acts, len]
  cases s.acts.get? child with
  | none => rfl
  | some a =>
      rw [ok_bind, ok_bind]
      split
      · rfl
      · split
        · rfl
        · exact actQueuePercolateUp_withObjs child { s with actQueueLen := _ } objs _

theorem startChild_withObjs :
    startChild sizes child f parent prio depth argv (s.withObjs objs) =
      overObjs objs (startChild sizes child f parent prio depth argv s) := by
  rw [startChild, ssmEnterInt_withObjs, startChild]
  cases ssmEnterInt child f parent prio depth argv s with
  | error e => rfl
  | ok t => exact ssmActivate_withObjs sizes child t objs

theorem ssmClosureActivate_eq {closure : Addr} {c : Closure}
    (loaded : s.loadClosure closure = .ok c) :
    ssmClosureActivate sizes child closure parent prio depth s =
      startChild sizes child c.f parent prio depth (c.argv.take c.cap) s := by
  rw [ssmClosureActivate, loaded]
  rfl

end Activation

/-- A closure with room for an argument, and what it holds is there. -/
structure OpenClosure (s : State) (a : Addr) (c : Closure) : Prop where
  loaded : s.loadClosure a = .ok c
  room : c.count < c.cap
  length : c.argv.length = c.cap
  small : c.cap < 256
  lives : ∀ v ∈ c.applied, Lives s v

/-- A closure as an object. -/
def Closure.obj (c : Closure) (refCount : Nat) : Obj :=
  ⟨refCount, .closure c.f c.count c.cap c.argv⟩

section Clone
variable {s : State} {new : Addr}

theorem setClosure_eq (s : State) (a : Addr) (c : Closure) :
    s.setClosure a c = s.withObjs (s.objs.write a (c.obj (s.objs.val a).refCount)) := rfl

theorem loadClosure_val {a : Addr} {c : Closure} (loaded : s.loadClosure a = .ok c) :
    s.objs.val a = c.obj (s.objs.val a).refCount := by
  conv_lhs => rw [show s.objs.val a = ⟨(s.objs.val a).refCount, (s.objs.val a).body⟩ from rfl,
    (loadClosure_eq_ok.mp loaded).2]
  rfl

theorem cloneArgs_eq {args argv : List Value} {f count cap : Nat} (n : Nat)
    (hn : n ≤ args.length) (long : n ≤ argv.length)
    (loaded : s.loadClosure new = .ok ⟨f, count, cap, argv⟩)
    (lives : ∀ v ∈ args.take n, Lives s v) (apart : refsTo new (args.take n) = 0) :
    cloneArgs new args n s = .ok (s.withObjs ((dupped s.objs (args.take n)).write new
      (Closure.obj ⟨f, count, cap, args.take n ++ argv.drop n⟩ (s.objs.val new).refCount))) := by
  induction n with
  | zero =>
      refine congrArg Except.ok ((withObjs_self s).symm.trans (congrArg s.withObjs ?_))
      refine Table.ext_val rfl fun a => ?_
      by_cases ha : a = new
      · subst ha
        rw [Table.write_val_self]
        exact loadClosure_val loaded
      · rw [Table.write_val_of_ne _ _ ha]
        rfl
  | succ n ih =>
      have inside : n < args.length := hn
      have split := take_succ_of_lt inside
      rw [split, refsTo_append] at apart
      have arg : args.getD n (.packed 0) = args[n] := by simp [inside]
      have before := ih (by omega) (by omega)
        (fun v hv => lives v (by rw [split]; exact List.mem_append_left _ hv)) (by omega)
      generalize hT : (dupped s.objs (args.take n)).write new
        (Closure.obj ⟨f, count, cap, args.take n ++ argv.drop n⟩ (s.objs.val new).refCount) = T
        at before
      have here : T.val new =
          Closure.obj ⟨f, count, cap, args.take n ++ argv.drop n⟩ (s.objs.val new).refCount := by
        rw [← hT, Table.write_val_self]
      have dup := ssmDup_eq (s := s.withObjs T) (v := args[n]) (Lives.withObjs (by
        refine lives _ ?_
        rw [split]
        exact List.mem_append_right _ (List.mem_singleton_self _)) (by rw [← hT]; rfl))
      have same : (dupped T [args[n]]).val new = T.val new := shifted_of_none T (by omega)
      have again : (s.withObjs (dupped T [args[n]])).loadClosure new =
          .ok ⟨f, count, cap, args.take n ++ argv.drop n⟩ := by
        refine loadClosure_eq_ok.mpr ⟨?_, ?_⟩
        · show new ∈ T.dom
          rw [← hT]
          exact (loadClosure_eq_ok.mp loaded).1
        · rw [withObjs_objs, same, here]
          rfl
      rw [cloneArgs, before, ok_bind, arg]
      simp only [dup, ok_bind, withObjs_objs, withObjs_withObjs, again]
      rw [if_pos (by
        rw [List.length_append, List.length_take, List.length_drop]
        omega), setClosure_eq, withObjs_objs, withObjs_withObjs, same, here]
      have moved : (args.take n ++ argv.drop n).set n args[n] =
          args.take (n + 1) ++ argv.drop (n + 1) := by
        rw [split, List.append_assoc, List.set_append_right _ _ (by simp), List.length_take,
          Nat.min_eq_left (by omega), Nat.sub_self, List.drop_eq_getElem_cons (by omega),
          List.set_cons_zero]
        rfl
      refine congrArg (fun objs => Except.ok (s.withObjs objs)) (Table.ext_val ?_ fun a => ?_)
      · rw [← hT]
        rfl
      · by_cases ha : a = new
        · subst ha
          rw [Table.write_val_self, Table.write_val_self, moved]
          rfl
        · rw [Table.write_val_of_ne _ _ ha, Table.write_val_of_ne _ _ ha, split, dupped, dupped,
            ← shifted_append]
          exact shifted_congr _ (by rw [← hT, Table.write_val_of_ne _ _ ha])

/-- The closure with one argument more, in the cells of the one it is made of. -/
def Closure.pushed (c : Closure) (arg : Value) : Closure :=
  { c with argv := c.argv.set c.count arg, count := c.count + 1 }

/-- A fresh copy: the cells that are not in use are those of a new closure. -/
def Closure.cloned (c : Closure) : Closure :=
  { c with argv := c.applied ++ List.replicate (c.cap - c.count) (.packed 0) }

theorem Closure.applied_length {c : Closure} (fits : c.count ≤ c.argv.length) :
    c.applied.length = c.count := by
  rw [Closure.applied, List.length_take]
  exact Nat.min_eq_left fits

theorem Closure.cloned_applied {c : Closure} (fits : c.count ≤ c.argv.length) :
    c.cloned.applied = c.applied := by
  have len := Closure.applied_length fits
  show (c.applied ++ _).take c.count = c.applied
  rw [← len, List.take_left]

theorem Closure.cloned_length {c : Closure} (le : c.count ≤ c.cap)
    (fits : c.count ≤ c.argv.length) : c.cloned.argv.length = c.cap := by
  have len := Closure.applied_length fits
  simp only [Closure.cloned, List.length_append, List.length_replicate]
  omega

theorem OpenClosure.fits {closure : Addr} {c : Closure} (o : OpenClosure s closure c) :
    c.count ≤ c.argv.length := o.length ▸ Nat.le_of_lt o.room

theorem OpenClosure.applied_length {closure : Addr} {c : Closure} (o : OpenClosure s closure c) :
    c.applied.length = c.count := Closure.applied_length o.fits

theorem OpenClosure.pushed_applied {closure : Addr} {c : Closure} (o : OpenClosure s closure c)
    (arg : Value) : (c.pushed arg).applied = c.applied ++ [arg] :=
  take_succ_set _ _ _ (o.length ▸ o.room)

/-- What the enter function of a full closure is given. -/
theorem OpenClosure.pushed_frame {closure : Addr} {c : Closure} (o : OpenClosure s closure c)
    (last : c.cap = c.count + 1) (arg : Value) :
    (c.pushed arg).argv.take (c.pushed arg).cap = c.applied ++ [arg] := by
  rw [← o.pushed_applied, Closure.applied, show (c.pushed arg).count = (c.pushed arg).cap from
    last.symm]

theorem OpenClosure.cloned_applied {closure : Addr} {c : Closure} (o : OpenClosure s closure c) :
    c.cloned.applied = c.applied := Closure.cloned_applied o.fits

theorem OpenClosure.cloned {closure : Addr} {c : Closure} (o : OpenClosure s closure c)
    {t : State} {a : Addr} (loaded : t.loadClosure a = .ok c.cloned)
    (lives : ∀ v ∈ c.applied, Lives t v) : OpenClosure t a c.cloned :=
  ⟨loaded, o.room, Closure.cloned_length (Nat.le_of_lt o.room) o.fits, o.small,
    o.cloned_applied.symm ▸ lives⟩

theorem ssmClosureClone_eq {closure : Addr} {c : Closure} (loaded : s.loadClosure closure = .ok c)
    (le : c.count ≤ c.cap) (length : c.argv.length = c.cap) (lives : ∀ v ∈ c.applied, Lives s v)
    (fresh : new ∉ s.objs.dom) :
    ssmClosureClone new closure s =
      .ok (s.withObjs ((dupped s.objs c.applied).alloc new (c.cloned.obj 1))) := by
  have apart : refsTo new c.applied = 0 := refsTo_fresh fresh lives
  have made : (ssmNewClosure new c.f c.cap s).loadClosure new =
      .ok ⟨c.f, 0, c.cap, List.replicate c.cap (.packed 0)⟩ :=
    loadClosure_eq_ok.mpr ⟨by simp [ssmNewClosure], by simp [ssmNewClosure]⟩
  rw [ssmClosureClone, loaded, ok_bind]
  simp only [made, ok_bind]
  have counted : ((ssmNewClosure new c.f c.cap s).setClosure new
      ⟨c.f, c.count, c.cap, List.replicate c.cap (.packed 0)⟩).loadClosure new =
        .ok ⟨c.f, c.count, c.cap, List.replicate c.cap (.packed 0)⟩ :=
    loadClosure_setClosure made
  rw [cloneArgs_eq c.count (by omega)
    (by rw [List.length_replicate]; omega) counted (fun v hv a ha => ?_) apart]
  · refine congrArg (fun objs => Except.ok (s.withObjs objs)) (Table.ext_val rfl fun a => ?_)
    by_cases ha : a = new
    · subst ha
      rw [Table.write_val_self, Table.alloc_val_self]
      simp [setClosure_eq, ssmNewClosure, Closure.obj, Closure.cloned, Closure.applied]
    · rw [Table.write_val_of_ne _ _ ha, Table.alloc_val_of_ne _ _ ha]
      refine shifted_congr _ ?_
      simp [setClosure_eq, ssmNewClosure, Table.write_val_of_ne _ _ ha,
        Table.alloc_val_of_ne _ _ ha]
  · have live := lives v hv a ha
    simp [setClosure_eq, ssmNewClosure, live]

theorem ssmClosurePush_eq {closure : Addr} {c : Closure} (o : OpenClosure s closure c)
    (arg : Value) :
    ssmClosurePush closure arg s = .ok (s.withObjs (s.objs.write closure
      ((c.pushed arg).obj (s.objs.val closure).refCount))) := by
  have room := o.room
  have small := o.small
  rw [ssmClosurePush, o.loaded, ok_bind, if_pos (by rw [o.length]; exact room),
    Nat.mod_eq_of_lt (by omega), setClosure_eq]
  rfl

end Clone

/-- The argument that a pop leaves behind is not in use. -/
def Closure.stale (c : Closure) (arg : Value) : Closure := { c with argv := c.argv.set c.count arg }

section Apply
variable {sizes : QueueSizes} {s : State} {new closure : Addr} {child parent : ActPtr}
variable {prio depth : Nat} {c : Closure}

theorem OpenClosure.withObjs (o : OpenClosure s closure c) {objs : Table Obj}
    (dom : objs.dom = s.objs.dom) (body : (objs.val closure).body = (s.objs.val closure).body) :
    OpenClosure (s.withObjs objs) closure c := by
  obtain ⟨mem, was⟩ := loadClosure_eq_ok.mp o.loaded
  refine ⟨loadClosure_eq_ok.mpr ⟨?_, body.trans was⟩, o.room, o.length, o.small, fun v hv =>
    (o.lives v hv).withObjs dom⟩
  show closure ∈ objs.dom
  rwa [dom]

theorem loadClosure_write {t : State} {objs : Table Obj} (mem : closure ∈ objs.dom) (d : Closure)
    (n : Nat) : (t.withObjs (objs.write closure (d.obj n))).loadClosure closure = .ok d :=
  loadClosure_eq_ok.mpr ⟨mem, by rw [withObjs_objs, Table.write_val_self]; rfl⟩

/-- An application that is not the last makes a copy with one argument more. -/
theorem ssmClosureApply_part (o : OpenClosure s closure c) (more : c.cap ≠ c.count + 1)
    (fresh : new ∉ s.objs.dom) (arg : Value) :
    ssmClosureApply sizes new child closure arg parent prio depth s = .ok (some (.heap new),
      s.withObjs ((dupped s.objs c.applied).alloc new ((c.cloned.pushed arg).obj 1))) := by
  have o' : OpenClosure (s.withObjs ((dupped s.objs c.applied).alloc new (c.cloned.obj 1))) new
      c.cloned := o.cloned
    (loadClosure_eq_ok.mpr ⟨Finset.mem_insert_self _ _, by
      rw [withObjs_objs, Table.alloc_val_self]
      rfl⟩)
    fun v hv a ha => Finset.mem_insert_of_mem (o.lives v hv a ha)
  rw [ssmClosureApply, o.loaded, ok_bind, if_neg more,
    ssmClosureClone_eq o.loaded (Nat.le_of_lt o.room) o.length o.lives fresh, ok_bind,
    ssmClosurePush_eq o' arg, ok_bind, withObjs_objs, withObjs_withObjs, Table.alloc_val_self]
  refine congrArg (fun objs => Except.ok (some (Value.heap new), s.withObjs objs)) ?_
  refine Table.ext_val rfl fun a => ?_
  by_cases ha : a = new
  · subst ha
    rw [Table.write_val_self, Table.alloc_val_self]
    rfl
  · rw [Table.write_val_of_ne _ _ ha, Table.alloc_val_of_ne _ _ ha, Table.alloc_val_of_ne _ _ ha]

/-- The last application starts the child and leaves the closure as it was, but
for the cell that its last argument has been in. -/
theorem ssmClosureApply_full (o : OpenClosure s closure c) (last : c.cap = c.count + 1)
    (arg : Value) :
    ssmClosureApply sizes new child closure arg parent prio depth s = (do
      let rc := ((dupped s.objs c.applied).val closure).refCount
      let t ← overObjs ((dupped s.objs c.applied).write closure ((c.pushed arg).obj rc))
        (startChild sizes child c.f parent prio depth (c.applied ++ [arg]) s)
      .ok (none, t.withObjs
        ((dupped s.objs c.applied).write closure ((c.stale arg).obj rc)))) := by
  have o' : OpenClosure (s.withObjs (dupped s.objs c.applied)) closure c :=
    o.withObjs rfl (shifted_body _ _ _ _)
  have mem : closure ∈ (dupped s.objs c.applied).dom := (loadClosure_eq_ok.mp o.loaded).1
  have small := o.small
  have dups : ssmDups (c.argv.take c.count) s = .ok (s.withObjs (dupped s.objs c.applied)) :=
    ssmDups_eq _ o.lives
  rw [ssmClosureApply, o.loaded, ok_bind, if_pos last, dups, ok_bind, ssmClosurePush_eq o' arg,
    ok_bind, withObjs_objs, withObjs_withObjs,
    ssmClosureActivate_eq _ _ _ _ _ _ (loadClosure_write mem _ _), startChild_withObjs,
    o.pushed_frame last]
  show (overObjs _ (startChild sizes child c.f parent prio depth _ s) >>= _) = _
  cases startChild sizes child c.f parent prio depth (c.applied ++ [arg]) s with
  | error e => rfl
  | ok t =>
      have back : ((c.pushed arg).count + 255) % 256 = c.count := by
        simp only [Closure.pushed]
        omega
      have here := loadClosure_write (t := t) mem (c.pushed arg)
        ((dupped s.objs c.applied).val closure).refCount
      simp only [overObjs, ok_bind, ssmClosurePop, here, back, setClosure_eq, withObjs_objs,
        withObjs_withObjs, Table.write_val_self]
      refine congrArg (fun objs => Except.ok (none, t.withObjs objs))
        (Table.ext_val rfl fun a => ?_)
      by_cases ha : a = closure
      · subst ha
        rw [Table.write_val_self, Table.write_val_self]
        rfl
      · rw [Table.write_val_of_ne _ _ ha, Table.write_val_of_ne _ _ ha,
          Table.write_val_of_ne _ _ ha]

/-- On an unshared closure the argument is pushed in place. -/
theorem ssmClosureApplyFinal_part (o : OpenClosure s closure c) (more : c.cap ≠ c.count + 1)
    (sole : (s.objs.val closure).refCount = 1) (arg : Value) :
    ssmClosureApplyFinal sizes child closure arg parent prio depth s = .ok (some (.heap closure),
      s.withObjs (s.objs.write closure ((c.pushed arg).obj 1))) := by
  have mem := (loadClosure_eq_ok.mp o.loaded).1
  rw [ssmClosureApplyFinal, ssmIsShared_heap mem, ok_bind, sole,
    ssmAssert_of (by decide), ok_bind, o.loaded, ok_bind, if_neg more, ssmClosurePush_eq o arg,
    sole]
  rfl

theorem ssmClosureApplyFinal_full (o : OpenClosure s closure c) (last : c.cap = c.count + 1)
    (sole : (s.objs.val closure).refCount = 1) (arg : Value) :
    ssmClosureApplyFinal sizes child closure arg parent prio depth s = (do
      let pushed := s.objs.write closure ((c.pushed arg).obj 1)
      let t ← overObjs pushed
        (startChild sizes child c.f parent prio depth (c.applied ++ [arg]) s)
      .ok (none, t.withObjs (pushed.release closure))) := by
  have mem := (loadClosure_eq_ok.mp o.loaded).1
  rw [ssmClosureApplyFinal, ssmIsShared_heap mem, ok_bind, sole,
    ssmAssert_of (by decide), ok_bind, o.loaded, ok_bind, if_pos last, ssmClosurePush_eq o arg,
    sole, ok_bind, ssmClosureActivate_eq _ _ _ _ _ _ (loadClosure_write mem _ _),
    startChild_withObjs, o.pushed_frame last]
  show (overObjs _ (startChild sizes child c.f parent prio depth _ s) >>= _) = _
  cases startChild sizes child c.f parent prio depth (c.applied ++ [arg]) s with
  | error e => rfl
  | ok t => rfl

end Apply

theorem HeapOk.closureClone {s t : State} {H : Addr → Nat} {new closure : Addr} {c : Closure}
    (h : HeapOk s H) (hc : s.loadClosure closure = .ok c) (fresh : new ∉ s.objs.dom)
    (room : Room s c.applied) (run : ssmClosureClone new closure s = .ok t) :
    (HeapOk t fun a => H a + refsTo a [.heap new]) ∧ t.loadClosure new = .ok c.cloned := by
  obtain ⟨le, len, small⟩ := h.closure_shaped hc
  have lives : ∀ v, v ∈ c.applied → Lives s v := fun v hv => h.applied_lives hc hv
  obtain ⟨u, dups, counts⟩ := ssmDups_spec c.applied lives room
  obtain rfl := Except.ok.inj (dups.symm.trans (ssmDups_eq c.applied lives))
  obtain rfl := Except.ok.inj (run.symm.trans (ssmClosureClone_eq hc le len lives fresh))
  have held : c.cloned.applied = c.applied := Closure.cloned_applied (len ▸ le)
  have shaped : (Body.closure c.f c.count c.cap c.cloned.argv).Shaped :=
    ⟨le, Closure.cloned_length le (len ▸ le), small⟩
  refine ⟨((h.recounted counts room lives).same fun a => ?_).alloc fresh shaped (by simp),
    loadClosure_eq_ok.mpr ⟨Finset.mem_insert_self _ _, ?_⟩⟩
  · show H a + refsTo a c.cloned.applied = _
    rw [held]
  · rw [withObjs_objs, Table.alloc_val_self]
    rfl

theorem HeapOk.closureApply {sizes : QueueSizes} {s t : State} {H : Addr → Nat}
    {new closure : Addr} {child parent : ActPtr} {arg : Value} {prio depth : Nat} {c : Closure}
    {ret : Option Value} (h : HeapOk s fun a => H a + refsTo a [arg])
    (hc : s.loadClosure closure = .ok c) (fresh : new ∉ s.objs.dom) (room : Room s c.applied)
    (run : ssmClosureApply sizes new child closure arg parent prio depth s = .ok (ret, t)) :
    HeapOk t fun a => H a + refsTo a (c.handed arg new) := by
  have lives : ∀ v, v ∈ c.applied → Lives s v := fun v hv => h.applied_lives hc hv
  rw [ssmClosureApply, hc, ok_bind] at run
  unfold Closure.handed
  split at run
  · rename_i saturated
    rw [if_pos saturated]
    obtain ⟨s₁, duped, k⟩ := ssmDups_spec c.applied lives room
    have h₁ := h.recounted k room lives
    have hc₁ := k.loadClosure hc
    change (ssmDups c.applied s >>= _) = _ at run
    rw [duped, ok_bind] at run
    obtain ⟨s₂, pushed, run⟩ := bind_eq_ok.mp run
    obtain ⟨s₃, activated, run⟩ := bind_eq_ok.mp run
    obtain ⟨s₄, popped, run⟩ := bind_eq_ok.mp run
    obtain ⟨eq, h₂⟩ := (h₁.same (K := fun a => H a + refsTo a c.applied + refsTo a [arg])
      fun a => by omega).closurePush hc₁ pushed
    have same := ssmClosureActivate_sameHeap activated
    have hc₃ := same.loadClosure (eq ▸ loadClosure_setClosure hc₁)
    have h₄ := (h₂.sameHeap same).closurePop c.applied arg hc₃ (by
      obtain ⟨-, len, -⟩ := h.closure_shaped hc
      exact take_succ_set _ _ _ (by omega)) popped
    cases run
    exact h₄.same fun a => by rw [refsTo_append]; omega
  · rename_i partly
    rw [if_neg partly]
    obtain ⟨s₁, cloned, run⟩ := bind_eq_ok.mp run
    obtain ⟨s₂, pushed, run⟩ := bind_eq_ok.mp run
    obtain ⟨h₁, hc₁⟩ := h.closureClone hc fresh room cloned
    obtain ⟨-, h₂⟩ := (h₁.same (K := fun a => H a + refsTo a [.heap new] + refsTo a [arg])
      fun a => by omega).closurePush hc₁ pushed
    cases run
    exact h₂

theorem HeapOk.closureApplyFinal {sizes : QueueSizes} {s t : State} {H : Addr → Nat}
    {closure : Addr} {child parent : ActPtr} {arg : Value} {prio depth : Nat} {c : Closure}
    {ret : Option Value} (h : HeapOk s fun a => H a + refsTo a [.heap closure, arg])
    (hc : s.loadClosure closure = .ok c)
    (run : ssmClosureApplyFinal sizes child closure arg parent prio depth s = .ok (ret, t)) :
    HeapOk t fun a => H a + refsTo a (c.handed arg closure) := by
  obtain ⟨mem, body⟩ := loadClosure_eq_ok.mp hc
  rw [ssmClosureApplyFinal, ssmIsShared_heap mem, ok_bind] at run
  obtain ⟨s₀, sole, run⟩ := bind_eq_ok.mp run
  have single : (s.objs.val closure).refCount = 1 := by
    unfold ssmAssert at sole
    split at sole
    · rename_i one
      simpa using one
    · simp [ssmThrow] at sole
  rw [ssmAssert_eq_ok sole] at run
  rw [hc, ok_bind] at run
  have inHand := h.same (K := fun a => H a + refsTo a [.heap closure] + refsTo a [arg]) fun a => by
    rw [refsTo_cons a _ [arg], Nat.add_assoc]
  unfold Closure.handed
  split at run
  · rename_i saturated
    rw [if_pos saturated]
    obtain ⟨s₁, pushed, run⟩ := bind_eq_ok.mp run
    obtain ⟨s₂, activated, run⟩ := bind_eq_ok.mp run
    obtain ⟨eq, h₁⟩ := inHand.closurePush hc pushed
    have same := ssmClosureActivate_sameHeap activated
    have hc₂ := same.loadClosure (eq ▸ loadClosure_setClosure hc)
    obtain ⟨mem₂, body₂⟩ := loadClosure_eq_ok.mp hc₂
    have count₂ : (s₂.objs.val closure).refCount = 1 := by
      rw [same.objs, eq, ← single]
      simp [State.setClosure, State.setObj]
    cases run
    refine ((h₁.sameHeap same).release mem₂ count₂ (by simp [body₂])).same fun a => ?_
    obtain ⟨-, len, -⟩ := h.closure_shaped hc
    have held : (s₂.objs.val closure).body.refs = c.applied ++ [arg] := by
      rw [body₂]
      exact take_succ_set _ _ _ (by omega)
    rw [held]
  · rename_i partly
    rw [if_neg partly]
    obtain ⟨s₁, pushed, run⟩ := bind_eq_ok.mp run
    obtain ⟨-, h₁⟩ := inHand.closurePush hc pushed
    cases run
    exact h₁

end SsmRuntime
