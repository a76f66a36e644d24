import SsmRuntime.ActRuns

/-!
The fast path of closure application against the general one followed by a drop
of the closure. The general one raises the count of every argument and then
lowers it again: the two agree where no count wraps to zero on the way.
-/
namespace SsmRuntime

/-- `ssm_closure_apply` and then `ssm_drop` of the closure. -/
def applyThenDrop (sizes : QueueSizes) (new : Addr) (child : ActPtr) (closure : Addr) (arg : Value)
    (parent : ActPtr) (prio depth : Nat) (s : State) : Except Stop (Option Value × State) := do
  let (ret, s) ← ssmClosureApply sizes new child closure arg parent prio depth s
  let s ← ssmDrop (.heap closure) s
  .ok (ret, s)

/-- The objects after the values `vs` have been dropped and none has been freed. -/
abbrev lowered (T : Table Obj) (vs : List Value) : Table Obj := shifted 255 T vs

/-- No count reaches zero while it goes down by the references in `vs`. -/
def NoneFreed (T : Table Obj) (vs : List Value) : Prop :=
  ∀ a, refsTo a vs ≠ 0 → a ∈ T.dom ∧ (T.val a).refCount < 256 ∧
    ((T.val a).refCount = 0 ∧ refsTo a vs < 256 ∨ refsTo a vs < (T.val a).refCount)

section Lower
variable {s : State} {T : Table Obj} {a : Addr} {vs : List Value}

theorem ssmDropWith_eq {v : Value} (fuel : Nat) (safe : NoneFreed s.objs [v]) :
    ssmDropWith (fuel + 1) v s = .ok (s.withObjs (lowered s.objs [v])) := by
  cases v with
  | packed n =>
      rw [lowered, shifted_packed]
      rfl
  | heap a =>
      obtain ⟨mem, small, way⟩ := safe a (by rw [refsTo_heap_self]; exact Nat.one_ne_zero)
      rw [refsTo_heap_self] at way
      simp only [ssmDropWith, State.loadObj_of_mem mem, ok_bind]
      rw [if_neg (by omega), setObj_eq]
      exact congrArg (fun objs => Except.ok (s.withObjs objs)) (write_eq_shifted 255 s.objs a)

theorem NoneFreed.head {v : Value} (safe : NoneFreed T (v :: vs)) : NoneFreed T [v] := by
  intro a some'
  have split := refsTo_cons a v vs
  obtain ⟨mem, small, way⟩ := safe a (by omega)
  exact ⟨mem, small, by omega⟩

theorem NoneFreed.tail {v : Value} (safe : NoneFreed T (v :: vs)) :
    NoneFreed (lowered T [v]) vs := by
  intro a some'
  have split := refsTo_cons a v vs
  obtain ⟨mem, small, way⟩ := safe a (by omega)
  refine ⟨mem, ?_⟩
  by_cases none : refsTo a [v] = 0
  · rw [shifted_of_none _ none]
    exact ⟨small, by omega⟩
  · have one : refsTo a [v] = 1 := by
      have := List.count_le_length (a := Value.heap a) (l := [v])
      simp only [List.length_singleton] at this
      exact Nat.le_antisymm this (Nat.pos_of_ne_zero none)
    simp only [shifted, one, Nat.one_ne_zero, if_false]
    omega

theorem ssmDropsWith_eq (fuel : Nat) (vs : List Value) (safe : NoneFreed s.objs vs) :
    ssmDropsWith (ssmDropWith (fuel + 1)) vs s = .ok (s.withObjs (lowered s.objs vs)) := by
  induction vs generalizing s with
  | nil => rfl
  | cons v vs ih =>
      rw [ssmDropsWith, ssmDropWith_eq fuel safe.head, ok_bind,
        ih (s := s.withObjs (lowered s.objs [v])) safe.tail, withObjs_objs, withObjs_withObjs,
        lowered, lowered, shifted_append]
      rfl

end Lower

/-- What is left after drops was there before; no count has grown, and none that
was in use is zero. -/
structure Worn (s t : State) : Prop where
  dom : t.objs.dom ⊆ s.objs.dom
  count : ∀ a ∈ t.objs.dom, 1 ≤ (s.objs.val a).refCount → (s.objs.val a).refCount < 256 →
    1 ≤ (t.objs.val a).refCount ∧ (t.objs.val a).refCount ≤ (s.objs.val a).refCount

section Worn
variable {s t u : State} {a : Addr}

theorem Worn.of_counts (dom : t.objs.dom = s.objs.dom)
    (count : ∀ a, (t.objs.val a).refCount = (s.objs.val a).refCount) : Worn s t :=
  ⟨dom ▸ Finset.Subset.refl _, fun a _ one _ => by rw [count]; exact ⟨one, Nat.le_refl _⟩⟩

theorem Worn.trans (h : Worn s t) (k : Worn t u) : Worn s u := by
  refine ⟨k.dom.trans h.dom, fun a ha one small => ?_⟩
  obtain ⟨one', le⟩ := h.count a (k.dom ha) one small
  obtain ⟨one'', le'⟩ := k.count a ha one' (by omega)
  exact ⟨one'', Nat.le_trans le' le⟩

theorem setSv_refCount (s : State) (var : Addr) (v : Sv) (a : Addr) :
    ((s.setSv var v).objs.val a).refCount = (s.objs.val a).refCount := by
  by_cases ha : a = var
  · subst ha
    simp [State.setSv, State.setObj]
  · simp [State.setSv, State.setObj, Table.write_val_of_ne _ _ ha]

theorem ssmUnschedule_worn {var : Addr} (h : ssmUnschedule var s = .ok t) : Worn s t := by
  obtain rfl | ⟨v, q, n, -, rfl⟩ := ssmUnschedule_eq_ok h
  · exact .of_counts rfl fun _ => rfl
  · exact .of_counts rfl (setSv_refCount s var _)

theorem bodyKeeps_worn : BodyKeeps Worn where
  refl := fun _ => .of_counts rfl fun _ => rfl
  trans := Worn.trans
  unschedule := ssmUnschedule_worn

/-- The object itself is gone, or its count has gone down and is not zero. -/
def Spent (s t : State) (a : Addr) : Prop :=
  a ∈ t.objs.dom → 1 ≤ (s.objs.val a).refCount → (s.objs.val a).refCount < 256 →
    1 ≤ (t.objs.val a).refCount ∧ (t.objs.val a).refCount < (s.objs.val a).refCount

theorem ssmDropWith_worn (fuel : Nat) {v : Value} (h : ssmDropWith fuel v s = .ok t) :
    Worn s t ∧ ∀ a, v = .heap a → a ∈ s.objs.dom ∧ Spent s t a := by
  induction fuel generalizing v s t with
  | zero =>
      cases v with
      | packed n => exact ⟨bodyKeeps_worn.of_ok h, fun a ha => by cases ha⟩
      | heap a => cases h
  | succ fuel ih =>
      cases v with
      | packed n => exact ⟨bodyKeeps_worn.of_ok h, fun a ha => by cases ha⟩
      | heap a =>
          obtain ⟨o, loaded, h⟩ := bind_eq_ok.mp h
          obtain ⟨mem, rfl⟩ := State.loadObj_eq_ok.mp loaded
          simp only at h
          generalize hw : s.setObj a ⟨((s.objs.val a).refCount + 255) % 256,
            (s.objs.val a).body⟩ = w at h
          have dom : w.objs.dom = s.objs.dom := by rw [← hw]; rfl
          have other : ∀ b, b ≠ a → w.objs.val b = s.objs.val b := fun b hb => by
            rw [← hw]
            exact Table.write_val_of_ne _ _ hb
          have here : (w.objs.val a).refCount = ((s.objs.val a).refCount + 255) % 256 := by
            rw [← hw]
            simp [State.setObj]
          split at h
          · obtain ⟨o, -, h⟩ := bind_eq_ok.mp h
            obtain ⟨u, dropped, h⟩ := bind_eq_ok.mp h
            cases h
            have worn : Worn w u := bodyKeeps_worn.dropBody (fun h => (ih h).1) dropped
            refine ⟨⟨(Finset.erase_subset _ _).trans (dom ▸ worn.dom), fun b hb one small => ?_⟩,
              fun b hb => ?_⟩
            · obtain ⟨hba, hb⟩ := Finset.mem_erase.mp hb
              have := worn.count b hb
              rw [other b hba] at this
              exact this one small
            · cases hb
              exact ⟨mem, fun gone => absurd gone (Finset.notMem_erase _ _)⟩
          · rename_i some'
            cases h
            refine ⟨⟨dom ▸ Finset.Subset.refl _, fun b hb one small => ?_⟩, fun b hb => ?_⟩
            · by_cases hba : b = a
              · subst hba
                omega
              · rw [other b hba]
                exact ⟨one, Nat.le_refl _⟩
            · cases hb
              exact ⟨mem, fun _ one small => by omega⟩

theorem ssmDropsWith_worn (fuel : Nat) (vs : List Value)
    (h : ssmDropsWith (ssmDropWith fuel) vs s = .ok t) {a : Addr} (some' : refsTo a vs ≠ 0) :
    a ∈ s.objs.dom := by
  induction vs generalizing s with
  | nil => exact absurd rfl some'
  | cons v vs ih =>
      obtain ⟨u, first, rest⟩ := bind_eq_ok.mp h
      obtain ⟨worn, self⟩ := ssmDropWith_worn fuel first
      by_cases hv : v = .heap a
      · exact (self a hv).1
      · refine worn.dom (ih rest fun none => some' ?_)
        rw [refsTo_cons, none, refsTo_other hv]

/-- Drops that return have not dropped an object more often than its count says. -/
theorem refsTo_le_of_drops (fuel : Nat) (vs : List Value)
    (h : ssmDropsWith (ssmDropWith fuel) vs s = .ok t) {a : Addr}
    (one : 1 ≤ (s.objs.val a).refCount) (small : (s.objs.val a).refCount < 256) :
    refsTo a vs ≤ (s.objs.val a).refCount := by
  induction vs generalizing s with
  | nil => exact Nat.zero_le _
  | cons v vs ih =>
      obtain ⟨u, first, rest⟩ := bind_eq_ok.mp h
      obtain ⟨worn, self⟩ := ssmDropWith_worn fuel first
      rw [refsTo_cons]
      by_cases alive : a ∈ u.objs.dom
      · obtain ⟨one', le⟩ := worn.count a alive one small
        have left := ih rest one' (by omega)
        by_cases hv : v = .heap a
        · obtain ⟨-, less⟩ := (self a hv).2 alive one small
          rw [hv, refsTo_heap_self]
          omega
        · have none := refsTo_other hv
          omega
      · have none : refsTo a vs = 0 := by
          by_contra some'
          exact alive (ssmDropsWith_worn fuel vs rest some')
        have := List.count_le_length (a := Value.heap a) (l := [v])
        simp only [List.length_singleton] at this
        rw [none]
        exact Nat.le_trans this one

end Worn

/-- One child has been entered and activated, with the arguments in its frame,
and nothing else has been done. -/
structure Started (s t : State) (child : ActPtr) (f : Nat) (parent : ActPtr) (prio depth : Nat)
    (argv : List Value) : Prop where
  dom : t.acts.dom = insert child s.acts.dom
  record : t.acts.val child = ⟨f, parent, 0, 0, prio, depth, true, argv⟩
  caller : t.acts.val parent =
    { s.acts.val parent with children := ((s.acts.val parent).children + 1) % 2 ^ 16 }
  other : ∀ a, a ≠ child → a ≠ parent → t.acts.val a = s.acts.val a
  queue : t.runnable = child ::ₘ s.runnable
  numProcesses : t.numProcesses = s.numProcesses + 1
  rest : t.eventQueue = s.eventQueue ∧ t.eventQueueLen = s.eventQueueLen ∧ t.now = s.now ∧
    t.triggers = s.triggers

section Start
variable {sizes : SafeSizes} {s : State} {child parent : ActPtr}

/-- A flag that a call leaves alone, in a record of which it changes the flag only. -/
theorem Woken.record_of_ne {s t : State} {a b : ActPtr} (k : Woken s t (· = a)) (hb : b ≠ a) :
    t.acts.val b = s.acts.val b := by
  have flag : (t.acts.val b).scheduled = (s.acts.val b).scheduled := by
    rw [Bool.eq_iff_iff, k.scheduled]
    exact or_iff_left hb
  rw [k.record b, flag]

theorem startChild_spec (acts : ActQueueOk sizes s) (fresh : child ∉ s.acts.dom)
    (live : parent ∈ s.acts.dom) (f prio depth : Nat) (argv : List Value) :
    if s.actQueueLen < sizes.act then
      ∃ t, startChild sizes child f parent prio depth argv s = .ok t ∧ ActQueueOk sizes t ∧
        Started s t child f parent prio depth argv ∧ t.objs = s.objs
    else ∃ u, startChild sizes child f parent prio depth argv s =
      .error ⟨.thrown .exhaustedActQueue, u⟩ := by
  have run := ssmEnterInt_eq fresh live f prio depth argv
  have other : parent ≠ child := by
    rintro rfl
    exact fresh live
  have unscheduled : ¬ s.Scheduled child := fun sched => fresh sched.1
  generalize hu : entered s child f parent prio depth argv = u at run
  have ok : ActQueueOk sizes u := ssmEnterInt_ok fresh acts run
  have queue : u.runnable = s.runnable := by rw [← hu]; rfl
  have sched : ∀ a, u.Scheduled a ↔ s.Scheduled a := fun a => by rw [← ok.mem, queue, acts.mem]
  have room : (insert child (scheduledSet u)).card = s.actQueueLen + 1 := by
    rw [Finset.card_insert_of_notMem fun mem => unscheduled
      ((sched _).mp (mem_scheduledSet.mp mem)), ok.card, ← hu]
    rfl
  have here : u.acts.val child = ⟨f, parent, 0, 0, prio, depth, false, argv⟩ := by
    rw [← hu, entered, Table.write_val_of_ne _ _ other.symm, Table.alloc_val_self]
  have spec := ssmActivate_spec ok (show child ∈ u.acts.dom by
    rw [← hu]
    exact Finset.mem_insert_self _ _)
  rw [startChild, run, ok_bind]
  rw [room] at spec
  split at spec
  · rename_i fits
    obtain ⟨t, done, ok', woken⟩ := spec
    rw [if_pos (by omega)]
    refine ⟨t, done, ok', ⟨?_, ?_, ?_, fun a hc hp => ?_, ?_, ?_, ?_⟩, ?_⟩
    · rw [woken.dom, ← hu]
      rfl
    · rw [woken.record child, (woken.scheduled child).mpr (Or.inr rfl), here]
    · rw [woken.record_of_ne other, ← hu, entered, Table.write_val_self]
    · rw [woken.record_of_ne hc, ← hu, entered, Table.write_val_of_ne _ _ hp,
        Table.alloc_val_of_ne _ _ hc]
    · have nodup : (child ::ₘ s.runnable).Nodup :=
        Multiset.nodup_cons.mpr ⟨fun mem => unscheduled ((acts.mem _).mp mem), acts.nodup⟩
      refine (Multiset.Nodup.ext ok'.nodup nodup).mpr fun a => ?_
      rw [ok'.mem, Multiset.mem_cons, acts.mem, ← sched]
      simp only [State.Scheduled, woken.dom, woken.scheduled]
      constructor
      · rintro ⟨mem, old | rfl⟩
        · exact Or.inr ⟨mem, old⟩
        · exact Or.inl rfl
      · rintro (rfl | ⟨mem, old⟩)
        · refine ⟨?_, Or.inr rfl⟩
          rw [← hu]
          exact Finset.mem_insert_self _ _
        · exact ⟨mem, Or.inl old⟩
    · rw [woken.numProcesses, ← hu]
      rfl
    · rw [woken.heap.eventQueue, woken.heap.eventQueueLen, woken.heap.now, woken.heap.triggers,
        ← hu]
      exact ⟨rfl, rfl, rfl, rfl⟩
    · rw [woken.heap.objs, ← hu]
      rfl
  · rename_i full
    rw [if_neg (by omega)]
    exact spec

theorem Started.withObjs {t : State} {f prio depth : Nat} {argv : List Value}
    (start : Started s t child f parent prio depth argv) {objs : Table Obj} :
    Started s (t.withObjs objs) child f parent prio depth argv :=
  ⟨start.dom, start.record, start.caller, start.other, start.queue, start.numProcesses, start.rest⟩

theorem Started.since {t : State} {f prio depth : Nat} {argv : List Value} {objs : Table Obj}
    (start : Started (s.withObjs objs) t child f parent prio depth argv) :
    Started s t child f parent prio depth argv :=
  ⟨start.dom, start.record, start.caller, start.other, start.queue, start.numProcesses, start.rest⟩

end Start

/-- A closure `d` is `c` with one argument more. -/
structure Extends (c : Closure) (arg : Value) (d : Closure) : Prop where
  f : d.f = c.f
  cap : d.cap = c.cap
  count : d.count = c.count + 1
  applied : d.applied = c.applied ++ [arg]

/-- The outcomes of two applications in `s`. A closure that one returns at `closure`,
the other returns at `new`; nothing else refers to either, and all the rest is the
same. Where no closure is returned, both have started the same child. -/
inductive SameOutcome (s : State) (closure new : Addr) (c : Closure) (arg : Value)
    (child parent : ActPtr) (prio depth : Nat) :
    Except Stop (Option Value × State) → Except Stop (Option Value × State) → Prop
  | started {t u : State} (start : Started s t child c.f parent prio depth (c.applied ++ [arg]))
      (rest : u = t.withObjs u.objs) (dom : u.objs.dom = t.objs.dom)
      (obj : ∀ a ∈ t.objs.dom, u.objs.val a = t.objs.val a) :
      SameOutcome s closure new c arg child parent prio depth (.ok (none, t)) (.ok (none, u))
  | made {t u : State} {D : Finset Addr} {d e : Closure} (kept : t = s.withObjs t.objs)
      (rest : u = t.withObjs u.objs)
      (dom : t.objs.dom = insert closure D) (dom' : u.objs.dom = insert new D)
      (obj : ∀ a ∈ D, a ≠ closure ∧ a ≠ new ∧ u.objs.val a = t.objs.val a ∧
        refsTo closure (t.objs.val a).body.refs = 0 ∧ refsTo new (t.objs.val a).body.refs = 0)
      (here : t.objs.val closure = d.obj 1) (there : u.objs.val new = e.obj 1)
      (more : Extends c arg d) (more' : Extends c arg e) :
      SameOutcome s closure new c arg child parent prio depth
        (.ok (some (.heap closure), t)) (.ok (some (.heap new), u))
  | stopped {e e' : Stop} (fault : e'.fault = e.fault) :
      SameOutcome s closure new c arg child parent prio depth (.error e) (.error e')

section Compare
variable {sizes : SafeSizes} {s t : State} {H : Addr → Nat} {new closure : Addr} {c : Closure}
variable {arg : Value} {child parent : ActPtr} {prio depth : Nat}

/-- A closure whose only reference is the caller's is referred to nowhere. -/
theorem HeapOk.sole_refs (h : HeapOk s fun a => H a + refsTo a [.heap closure, arg])
    (mem : closure ∈ s.objs.dom) (sole : (s.objs.val closure).refCount = 1) :
    refsTo closure [arg] = 0 ∧ ∀ b ∈ s.objs.dom, refsTo closure (s.objs.val b).body.refs = 0 := by
  have live := h.counted.live closure (by simpa using mem)
  rw [sole, refsTo_cons, refsTo_heap_self] at live
  refine ⟨by omega, fun b hb => ?_⟩
  have := le_fieldRefs (R := plain) (s := s) (D := ∅) (b := b) closure (by simpa using hb)
  simp only [plain] at this
  omega

theorem HeapOk.dead_refs (h : HeapOk s H) (fresh : new ∉ s.objs.dom) :
    H new = 0 ∧ ∀ b ∈ s.objs.dom, refsTo new (s.objs.val b).body.refs = 0 := by
  have dead := h.counted.dead new (by simpa using fresh)
  refine ⟨by omega, fun b hb => ?_⟩
  have := le_fieldRefs (R := plain) (s := s) (D := ∅) (b := b) new (by simpa using hb)
  simp only [plain] at this
  omega

theorem HeapOk.openClosure (h : HeapOk s H) (loaded : s.loadClosure closure = .ok c)
    (room : c.count < c.cap) : OpenClosure s closure c := by
  obtain ⟨-, length, small⟩ := h.closure_shaped loaded
  exact ⟨loaded, room, length, small, fun v hv => h.applied_lives loaded hv⟩

/-- The drop of a closure with one reference drops what it holds and releases it. -/
theorem ssmDrop_closure {d : Closure} (mem : closure ∈ t.objs.dom)
    (here : t.objs.val closure = d.obj 1) :
    ∃ n, ssmDrop (.heap closure) t = (do
      let u ← ssmDropsWith (ssmDropWith (n + 1)) d.applied
        (t.withObjs (t.objs.write closure (d.obj 0)))
      .ok (u.withObjs (u.objs.release closure))) := by
  obtain ⟨n, card⟩ : ∃ n, t.objs.dom.card = n + 1 :=
    ⟨t.objs.dom.card - 1, by have := Finset.card_pos.mpr ⟨closure, mem⟩; omega⟩
  refine ⟨n, ?_⟩
  have last : ((d.obj 1).refCount + 255) % 256 = 0 := by simp [Closure.obj]
  have again : (t.withObjs (t.objs.write closure (d.obj 0))).loadObj closure = .ok (d.obj 0) :=
    State.loadObj_eq_ok.mpr ⟨mem, Table.write_val_self _ _ _⟩
  rw [ssmDrop, card, ssmDropWith, State.loadObj_of_mem mem, ok_bind, here]
  simp only [last, if_true]
  rw [ssmDropFinalWith, setObj_eq, show (⟨0, (d.obj 1).body⟩ : Obj) = d.obj 0 from rfl, again,
    ok_bind]
  rfl

/-- A state in which what the closure holds has been duplicated. -/
structure HeldTwice (s t : State) (closure : Addr) (vs : List Value) (d : Closure) : Prop where
  mem : closure ∈ t.objs.dom
  here : t.objs.val closure = d.obj 1
  applied : d.applied = vs
  apart : refsTo closure vs = 0
  val : ∀ a, refsTo a vs ≠ 0 → a ∈ t.objs.dom ∧ a ∈ s.objs.dom ∧
    t.objs.val a = (dupped s.objs vs).val a

/-- The counts of the objects among `vs` can be raised and lowered again. -/
def CountsFit (s : State) (vs : List Value) : Prop :=
  ∀ a ∈ s.objs.dom, (s.objs.val a).refCount + refsTo a vs ≤ 256

instance (s : State) (vs : List Value) : Decidable (CountsFit s vs) :=
  inferInstanceAs (Decidable (∀ a ∈ s.objs.dom, _))

theorem HeldTwice.drop_ok {vs : List Value} {d : Closure} (two : HeldTwice s t closure vs d)
    (h : HeapOk s H) (short : vs.length < 256) (fit : CountsFit s vs) :
    ∃ objs : Table Obj, ssmDrop (.heap closure) t = .ok (t.withObjs objs) ∧
      objs.dom = t.objs.dom.erase closure ∧
      ∀ a, a ≠ closure → objs.val a = if refsTo a vs = 0 then t.objs.val a else s.objs.val a := by
  obtain ⟨n, run⟩ := ssmDrop_closure two.mem two.here
  have other : ∀ {a}, a ≠ closure →
      (t.objs.write closure (d.obj 0)).val a = t.objs.val a := Table.write_val_of_ne _ _
  have known : ∀ a, refsTo a vs ≠ 0 → a ≠ closure ∧ 1 ≤ (s.objs.val a).refCount ∧
      (s.objs.val a).refCount < 256 ∧ (s.objs.val a).refCount + refsTo a vs ≤ 256 ∧
      refsTo a vs < 256 := by
    intro a some'
    obtain ⟨-, mem, -⟩ := two.val a some'
    refine ⟨?_, h.alive a mem, h.counted.small a (by simpa using mem), fit a mem,
      Nat.lt_of_le_of_lt List.count_le_length short⟩
    rintro rfl
    exact some' two.apart
  have safe : NoneFreed (t.objs.write closure (d.obj 0)) vs := by
    intro a some'
    obtain ⟨ne, one, small, fits, few⟩ := known a some'
    obtain ⟨live, -, val⟩ := two.val a some'
    rw [other ne, val, dupped_refCount _ _ small]
    exact ⟨live, by omega, by omega⟩
  rw [run, two.applied,
    ssmDropsWith_eq (s := t.withObjs (t.objs.write closure (d.obj 0))) n vs safe, ok_bind]
  refine ⟨_, rfl, rfl, fun a ha => ?_⟩
  rw [Table.release_val]
  simp only [withObjs_objs, shifted, other ha]
  split
  · rfl
  · rename_i some'
    obtain ⟨ne, one, small, fits, few⟩ := known a some'
    rw [(two.val a some').2.2, dupped_refCount _ _ small, shifted_body]
    rw [show (((s.objs.val a).refCount + refsTo a vs) % 256 + 255 * refsTo a vs) % 256 =
      (s.objs.val a).refCount by omega]

/-- Where a count does not fit, the drop goes on after an object has been freed. -/
theorem HeldTwice.drop_stops {vs : List Value} {d : Closure} (two : HeldTwice s t closure vs d)
    (h : HeapOk s H) (short : vs.length < 256) (misfit : ¬ CountsFit s vs) :
    ∃ e, ssmDrop (.heap closure) t = .error e := by
  obtain ⟨n, run⟩ := ssmDrop_closure two.mem two.here
  cases dropped : ssmDrop (.heap closure) t with
  | error e => exact ⟨e, rfl⟩
  | ok u =>
      rw [run, two.applied] at dropped
      obtain ⟨w, drops, -⟩ := bind_eq_ok.mp dropped
      refine absurd (fun a mem => ?_) misfit
      by_contra misfits
      have small := h.counted.small a (by simpa using mem)
      have some' : refsTo a vs ≠ 0 := by omega
      have few : refsTo a vs < 256 := Nat.lt_of_le_of_lt List.count_le_length short
      have ne : a ≠ closure := by
        rintro rfl
        exact some' two.apart
      have count : (((t.withObjs (t.objs.write closure (d.obj 0))).objs.val a)).refCount =
          ((s.objs.val a).refCount + refsTo a vs) % 256 := by
        rw [withObjs_objs, Table.write_val_of_ne _ _ ne, (two.val a some').2.2,
          dupped_refCount _ _ small]
      have le := refsTo_le_of_drops (n + 1) vs drops (a := a) (by omega) (by omega)
      omega

section Paths
variable (h : HeapOk s fun a => H a + refsTo a [.heap closure, arg])
variable (loaded : s.loadClosure closure = .ok c) (sole : (s.objs.val closure).refCount = 1)
include h loaded sole

theorem applied_apart : refsTo closure c.applied = 0 := by
  obtain ⟨mem, body⟩ := loadClosure_eq_ok.mp loaded
  have := (h.sole_refs mem sole).2 closure mem
  rwa [body] at this

variable (room : c.count < c.cap)
include room

theorem heldTwice_full (arg' : Value) (r : State) :
    HeldTwice s (r.withObjs ((dupped s.objs c.applied).write closure ((c.stale arg').obj 1)))
      closure c.applied (c.stale arg') := by
  have o := h.openClosure loaded room
  have apart := applied_apart h loaded sole
  refine ⟨(loadClosure_eq_ok.mp loaded).1, Table.write_val_self _ _ _, ?_, apart,
    fun a some' => ?_⟩
  · exact List.take_set_of_le (Nat.le_refl _)
  · have ne : a ≠ closure := by
      rintro rfl
      exact some' apart
    have live := o.lives (.heap a) (List.count_pos_iff.mp (Nat.pos_of_ne_zero some')) a rfl
    exact ⟨live, live, Table.write_val_of_ne _ _ ne⟩

variable (fresh : new ∉ s.objs.dom)
include fresh

theorem heldTwice_part (d : Closure) :
    HeldTwice s (s.withObjs ((dupped s.objs c.applied).alloc new (d.obj 1)))
      closure c.applied c := by
  have o := h.openClosure loaded room
  have apart := applied_apart h loaded sole
  have mem := (loadClosure_eq_ok.mp loaded).1
  have ne : closure ≠ new := by
    rintro rfl
    exact fresh mem
  refine ⟨Finset.mem_insert_of_mem mem, ?_, rfl, apart, fun a some' => ?_⟩
  · rw [withObjs_objs, Table.alloc_val_of_ne _ _ ne, shifted_of_none _ apart,
      loadClosure_val loaded, sole]
  · have live := o.lives (.heap a) (List.count_pos_iff.mp (Nat.pos_of_ne_zero some')) a rfl
    have ne : a ≠ new := by
      rintro rfl
      exact fresh live
    exact ⟨Finset.mem_insert_of_mem live, live, Table.alloc_val_of_ne _ _ ne⟩

theorem part_agrees_iff (more : c.cap ≠ c.count + 1) :
    SameOutcome s closure new c arg child parent prio depth
      (ssmClosureApplyFinal sizes child closure arg parent prio depth s)
      (applyThenDrop sizes new child closure arg parent prio depth s) ↔
    CountsFit s c.applied := by
  have o := h.openClosure loaded room
  have mem := (loadClosure_eq_ok.mp loaded).1
  have two := heldTwice_part h loaded sole room fresh (c.cloned.pushed arg)
  have short : c.applied.length < 256 := by
    have := o.small
    rw [o.applied_length]
    omega
  rw [ssmClosureApplyFinal_part o more sole, applyThenDrop,
    ssmClosureApply_part o more fresh, ok_bind]
  by_cases fit : CountsFit s c.applied
  · refine iff_of_true ?_ fit
    obtain ⟨objs, run, dom, val⟩ := two.drop_ok h short fit
    simp only [run, ok_bind]
    have apart := h.sole_refs mem sole
    have dead := h.dead_refs fresh
    have ne : new ≠ closure := by
      rintro rfl
      exact fresh mem
    refine .made (D := s.objs.dom.erase closure) (d := c.pushed arg) (e := c.cloned.pushed arg)
      rfl rfl (Finset.insert_erase mem).symm ?_ (fun a ha => ?_) (Table.write_val_self _ _ _) ?_
      ⟨rfl, rfl, rfl, o.pushed_applied arg⟩ ⟨rfl, rfl, rfl, ?_⟩
    · rw [withObjs_objs, dom, withObjs_objs, Table.alloc_dom]
      exact Finset.erase_insert_of_ne ne
    · obtain ⟨neC, live⟩ := Finset.mem_erase.mp ha
      have neN : a ≠ new := by
        rintro rfl
        exact fresh live
      rw [withObjs_objs, withObjs_objs, Table.write_val_of_ne _ _ neC, val a neC]
      refine ⟨neC, neN, ?_, apart.2 a live, dead.2 a live⟩
      split
      · rename_i none
        rw [withObjs_objs, Table.alloc_val_of_ne _ _ neN, shifted_of_none _ none]
      · rfl
    · rw [withObjs_objs, val new ne, if_pos (refsTo_fresh fresh o.lives)]
      exact Table.alloc_val_self _ _ _
    · have o' : OpenClosure (s.withObjs (s.objs.alloc new (c.cloned.obj 1))) new c.cloned :=
        o.cloned (loadClosure_eq_ok.mpr ⟨Finset.mem_insert_self _ _, by
          rw [withObjs_objs, Table.alloc_val_self]
          rfl⟩)
        fun v hv a ha => Finset.mem_insert_of_mem (o.lives v hv a ha)
      rw [o'.pushed_applied, o.cloned_applied]
  · refine iff_of_false (fun same => ?_) fit
    obtain ⟨e, run⟩ := two.drop_stops h short fit
    simp only [run, error_bind] at same
    cases same

omit fresh

theorem full_agrees_iff (last : c.cap = c.count + 1) (acts : ActQueueOk sizes s)
    (new' : child ∉ s.acts.dom) (live : parent ∈ s.acts.dom) :
    SameOutcome s closure new c arg child parent prio depth
      (ssmClosureApplyFinal sizes child closure arg parent prio depth s)
      (applyThenDrop sizes new child closure arg parent prio depth s) ↔
    CountsFit s c.applied ∨ sizes.act ≤ s.actQueueLen := by
  have o := h.openClosure loaded room
  have apart := applied_apart h loaded sole
  have short : c.applied.length < 256 := by
    have := o.small
    rw [o.applied_length]
    omega
  have rc : ((dupped s.objs c.applied).val closure).refCount = 1 := by
    rw [shifted_of_none _ apart, sole]
  have spec := startChild_spec acts new' live c.f prio depth (c.applied ++ [arg])
  rw [ssmClosureApplyFinal_full o last sole, applyThenDrop, ssmClosureApply_full o last, rc]
  split at spec
  · rename_i space
    obtain ⟨t, run, -, start, objs⟩ := spec
    have two := heldTwice_full h loaded sole room arg t
    simp only [run, overObjs, ok_bind, withObjs_withObjs]
    rw [or_iff_left (by omega)]
    by_cases fit : CountsFit s c.applied
    · refine iff_of_true ?_ fit
      obtain ⟨objs, run, dom, val⟩ := two.drop_ok h short fit
      simp only [run, ok_bind]
      refine .started start.withObjs rfl dom fun a ha => ?_
      obtain ⟨ne, -⟩ := Finset.mem_erase.mp ha
      rw [withObjs_objs, val a ne, withObjs_objs, withObjs_objs, Table.release_val,
        Table.write_val_of_ne _ _ ne, Table.write_val_of_ne _ _ ne]
      split
      · rename_i none
        exact shifted_of_none _ none
      · rfl
    · refine iff_of_false (fun same => ?_) fit
      obtain ⟨e, run⟩ := two.drop_stops h short fit
      simp only [run, error_bind] at same
      cases same
  · rename_i space
    obtain ⟨u, run⟩ := spec
    simp only [run, overObjs, error_bind]
    exact iff_of_true (.stopped rfl) (Or.inr (by omega))

end Paths

/-- The two paths agree exactly where every count can be raised by the references
among the applied arguments without wrapping, and where neither path starts the
child because the queue is full. -/
theorem applyFinal_agrees_iff (h : HeapOk s fun a => H a + refsTo a [.heap closure, arg])
    (acts : ActQueueOk sizes s) (loaded : s.loadClosure closure = .ok c)
    (sole : (s.objs.val closure).refCount = 1) (room : c.count < c.cap)
    (fresh : new ∉ s.objs.dom) (freshChild : child ∉ s.acts.dom) (live : parent ∈ s.acts.dom) :
    SameOutcome s closure new c arg child parent prio depth
      (ssmClosureApplyFinal sizes child closure arg parent prio depth s)
      (applyThenDrop sizes new child closure arg parent prio depth s) ↔
    CountsFit s c.applied ∨ (c.cap = c.count + 1 ∧ sizes.act ≤ s.actQueueLen) := by
  by_cases last : c.cap = c.count + 1
  · rw [full_agrees_iff h loaded sole room last acts freshChild live, and_iff_right last]
  · rw [part_agrees_iff h loaded sole room fresh last]
    exact (or_iff_left fun full => last full.1).symm

end Compare

/-- A closure that holds one time three times, and a program that holds the time
`n` times and the closure once. -/
def holdsThree (n cap : Nat) : World where
  state :=
    { boot with
      objs := ⟨{2, 3}, fun a =>
        if a = 2 then ⟨n + 3, .time 5⟩
        else ⟨1, .closure 7 3 cap
          ([.heap 2, .heap 2, .heap 2] ++ List.replicate (cap - 3) (.packed 0))⟩⟩ }
  held := fun a => (if a = 2 then n else 0) + refsTo a [.heap 3, .packed 0]

theorem holdsThree_fieldRefs (n cap : Nat) (a : Addr) :
    fieldRefs plain (holdsThree n cap).state ∅ a = if a = 2 then 3 else 0 := by
  have two : (2 : Addr) ∉ ({3} : Finset Addr) := by decide
  rw [fieldRefs, Finset.sdiff_empty, show (holdsThree n cap).state.objs.dom = {2, 3} from rfl,
    Finset.sum_insert two, Finset.sum_singleton]
  by_cases ha : a = 2
  · subst ha
    rfl
  · rw [if_neg ha]
    simp [plain, holdsThree, Body.refs, Body.children, refsTo, List.count_cons, Ne.symm ha]

theorem holdsThree_heapOk {n cap : Nat} (small : n < 253) (room : 3 < cap) (byte : cap < 256) :
    HeapOk (holdsThree n cap).state (holdsThree n cap).held := by
  have cases' : ∀ a ∈ (holdsThree n cap).state.objs.dom, a = 2 ∨ a = 3 := fun a ha => by
    simpa [holdsThree] using ha
  refine Start.heapOk ⟨⟨fun a ha => ?_, fun a ha => ?_, fun a ha => ?_⟩, fun a ha => ?_,
    fun a ha => ?_, rfl, fun a ha => ?_⟩
  · rw [holdsThree_fieldRefs]
    rcases cases' a (by simpa using ha) with rfl | rfl <;> rfl
  · rw [holdsThree_fieldRefs]
    have ne : a ≠ 2 ∧ a ≠ 3 := by simpa [holdsThree] using ha
    simp [holdsThree, ne.1, refsTo, Ne.symm ne.2]
  · rcases cases' a (by simpa using ha) with rfl | rfl
    · show n + 3 < 256
      omega
    · show 1 < 256
      omega
  · rcases cases' a ha with rfl | rfl
    · show 1 ≤ n + 3
      omega
    · exact Nat.le_refl 1
  · rcases cases' a ha with rfl | rfl
    · trivial
    · refine ⟨Nat.le_of_lt room, ?_, byte⟩
      show ([Value.heap 2, .heap 2, .heap 2] ++
        List.replicate (cap - 3) (Value.packed 0)).length = cap
      simp only [List.length_append, List.length_replicate, List.length_cons, List.length_nil]
      omega
  · obtain ⟨v, var, -⟩ := ha
    obtain ⟨mem, body⟩ := State.sv?_eq_some.mp var
    rcases cases' a mem with rfl | rfl <;> cases body

theorem holdsThree_actQueueOk (n cap : Nat) :
    ActQueueOk defaultSafeSizes (holdsThree n cap).state := by
  refine actQueueOk_of_empty rfl fun a sched => ?_
  have off : (boot.acts.val a).scheduled = true := sched.2
  cases off

/-- The two paths agree when that closure is applied. -/
def AgreeOn (n cap : Nat) : Prop :=
  SameOutcome (holdsThree n cap).state 3 4
    ⟨7, 3, cap, [.heap 2, .heap 2, .heap 2] ++ List.replicate (cap - 3) (.packed 0)⟩ (.packed 0)
    9 ssmTopParent 0 0
    (ssmClosureApplyFinal defaultSafeSizes 9 3 (.packed 0) ssmTopParent 0 0
      (holdsThree n cap).state)
    (applyThenDrop defaultSafeSizes 4 9 3 (.packed 0) ssmTopParent 0 0 (holdsThree n cap).state)

/-- With one argument to come and with two. -/
theorem applyFinal_agrees_holdsThree : AgreeOn 1 4 ∧ AgreeOn 1 5 := by
  constructor <;>
    exact (applyFinal_agrees_iff (H := fun a => if a = 2 then 1 else 0)
      (holdsThree_heapOk (by decide) (by decide) (by decide)) (holdsThree_actQueueOk 1 _) rfl rfl
      (by decide) (by decide) (by decide) (by decide)).mpr (Or.inl (by decide))

/-- A time with 254 references is freed when the closure is dropped. -/
theorem not_applyFinal_agrees : ¬ ∀ (s : State) (H : Addr → Nat) (closure new : Addr) (c : Closure)
    (arg : Value) (child parent : ActPtr) (prio depth : Nat),
    (HeapOk s fun a => H a + refsTo a [.heap closure, arg]) →
    (∀ a ∈ s.objs.dom, (s.objs.val a).refCount < 255) → ActQueueOk defaultSafeSizes s →
    s.loadClosure closure = .ok c → (s.objs.val closure).refCount = 1 → c.count < c.cap →
    new ∉ s.objs.dom → child ∉ s.acts.dom → parent ∈ s.acts.dom →
    SameOutcome s closure new c arg child parent prio depth
      (ssmClosureApplyFinal defaultSafeSizes child closure arg parent prio depth s)
      (applyThenDrop defaultSafeSizes new child closure arg parent prio depth s) := by
  intro all
  have same := all (holdsThree 251 5).state (fun a => if a = 2 then 251 else 0) 3 4
    ⟨7, 3, 5, [.heap 2, .heap 2, .heap 2, .packed 0, .packed 0]⟩ (.packed 0) 9 ssmTopParent 0 0
    (holdsThree_heapOk (by decide) (by decide) (by decide)) (by decide)
    (holdsThree_actQueueOk 251 5) rfl rfl (by decide) (by decide) (by decide) (by decide)
  have fast : (ssmClosureApplyFinal defaultSafeSizes 9 3 (.packed 0) ssmTopParent 0 0
      (holdsThree 251 5).state).toOption.isSome = true := by decide +kernel
  have slow : (applyThenDrop defaultSafeSizes 4 9 3 (.packed 0) ssmTopParent 0 0
      (holdsThree 251 5).state).toOption.isNone = true := by decide +kernel
  generalize ssmClosureApplyFinal defaultSafeSizes 9 3 (.packed 0) ssmTopParent 0 0
    (holdsThree 251 5).state = r at same fast
  generalize applyThenDrop defaultSafeSizes 4 9 3 (.packed 0) ssmTopParent 0 0
    (holdsThree 251 5).state = r' at same slow
  cases same with
  | started start rest dom obj => cases slow
  | made kept rest dom dom' obj here there more more' => cases slow
  | stopped fault => cases fast

end SsmRuntime
