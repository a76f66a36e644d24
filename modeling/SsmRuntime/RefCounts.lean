import Mathlib.Algebra.BigOperators.Group.Finset.Basic
import Mathlib.Algebra.Order.BigOperators.Group.Finset
import SsmRuntime.EventQueue

/-!
Reference counts against references. `Counted` balances the count of every
live object with the references held outside the heap and those found in the
fields of live objects. Objects under finalisation (`D`) hold nothing: what
they held has been handed to the drops still to be made. A reading `R` of what
an object holds lets one protected object have a field moved out.
-/
namespace SsmRuntime

open BinaryHeap

def Sv.refs (v : Sv) : List Value :=
  if v.laterTime = ssmNever then [v.value] else [v.value, v.laterValue]

/-- The references an object holds in its fields. -/
def Body.refs : Body → List Value
  | .sv v => v.refs
  | b => b.children

abbrev Holds := Addr → Body → List Value

def plain : Holds := fun _ b => b.refs

def refsTo (a : Addr) (vs : List Value) : Nat := vs.count (.heap a)

@[simp] theorem refsTo_nil (a : Addr) : refsTo a [] = 0 := rfl

theorem refsTo_cons (a : Addr) (v : Value) (vs : List Value) :
    refsTo a (v :: vs) = refsTo a [v] + refsTo a vs := by
  simp [refsTo, List.count_cons, Nat.add_comm]

theorem refsTo_append (a : Addr) (vs ws : List Value) :
    refsTo a (vs ++ ws) = refsTo a vs + refsTo a ws := List.count_append

@[simp] theorem refsTo_packed (a n : Nat) : refsTo a [.packed n] = 0 := by
  simp [refsTo]

theorem refsTo_heap_self (a : Addr) : refsTo a [.heap a] = 1 := by simp [refsTo]

theorem refsTo_heap_ne {a b : Addr} (h : b ≠ a) : refsTo b [.heap a] = 0 := by
  simp [refsTo, h.symm]

theorem refsTo_other {a : Addr} {v : Value} (other : v ≠ .heap a) : refsTo a [v] = 0 := by
  rw [refsTo, List.count_singleton, beq_eq_false_iff_ne.mpr other]
  rfl

theorem refsTo_pos {a : Addr} {vs : List Value} (h : Value.heap a ∈ vs) : 1 ≤ refsTo a vs :=
  List.count_pos_iff.mpr h

def fieldRefs (R : Holds) (s : State) (D : Finset Addr) (a : Addr) : Nat :=
  ∑ b ∈ s.objs.dom \ D, refsTo a (R b (s.objs.val b).body)

structure Counted (R : Holds) (s : State) (D : Finset Addr) (H : Addr → Nat) : Prop where
  live : ∀ a, a ∈ s.objs.dom \ D → (s.objs.val a).refCount = H a + fieldRefs R s D a
  dead : ∀ a, a ∉ s.objs.dom \ D → H a + fieldRefs R s D a = 0
  small : ∀ a, a ∈ s.objs.dom \ D → (s.objs.val a).refCount < 256

theorem fieldRefs_congr {R : Holds} {s t : State} {D E : Finset Addr} (a : Addr)
    (dom : s.objs.dom \ D = t.objs.dom \ E)
    (body : ∀ b, b ∈ t.objs.dom \ E → (s.objs.val b).body = (t.objs.val b).body) :
    fieldRefs R s D a = fieldRefs R t E a := by
  unfold fieldRefs
  rw [dom]
  exact Finset.sum_congr rfl fun b hb => by rw [body b hb]

theorem fieldRefs_insert {R : Holds} {s : State} {D : Finset Addr} {b : Addr} (a : Addr)
    (hb : b ∈ s.objs.dom \ D) :
    fieldRefs R s D a =
      refsTo a (R b (s.objs.val b).body) + fieldRefs R s (insert b D) a := by
  unfold fieldRefs
  rw [← Finset.add_sum_erase _ _ hb, Finset.sdiff_insert]

theorem le_fieldRefs {R : Holds} {s : State} {D : Finset Addr} {b : Addr} (a : Addr)
    (hb : b ∈ s.objs.dom \ D) :
    refsTo a (R b (s.objs.val b).body) ≤ fieldRefs R s D a := by
  rw [fieldRefs_insert a hb]
  exact Nat.le_add_right _ _

theorem Counted.congr {R : Holds} {s t : State} {D E : Finset Addr} {H K : Addr → Nat}
    (h : Counted R s D H) (dom : t.objs.dom \ E = s.objs.dom \ D)
    (obj : ∀ b, b ∈ s.objs.dom \ D → t.objs.val b = s.objs.val b) (same : ∀ a, K a = H a) :
    Counted R t E K := by
  have fields : ∀ a, fieldRefs R t E a = fieldRefs R s D a := fun a =>
    fieldRefs_congr a dom fun b hb => by rw [obj b hb]
  constructor
  · intro a ha
    rw [dom] at ha
    rw [fields, same, obj a ha]
    exact h.live a ha
  · intro a ha
    rw [dom] at ha
    rw [fields, same]
    exact h.dead a ha
  · intro a ha
    rw [dom] at ha
    rw [obj a ha]
    exact h.small a ha

theorem Counted.mem_of_pos {R : Holds} {s : State} {D : Finset Addr} {H : Addr → Nat}
    (h : Counted R s D H) {a : Addr} (ha : 1 ≤ H a) : a ∈ s.objs.dom \ D := by
  by_contra out
  have := h.dead a out
  omega

/-- A field of a live object points to a live object. -/
theorem Counted.mem_of_field {R : Holds} {s : State} {D : Finset Addr} {H : Addr → Nat}
    (h : Counted R s D H) {a b : Addr} (hb : b ∈ s.objs.dom \ D)
    (ha : Value.heap a ∈ R b (s.objs.val b).body) : a ∈ s.objs.dom \ D := by
  by_contra out
  have none := h.dead a out
  have one := refsTo_pos ha
  have := le_fieldRefs (R := R) a hb
  omega

/-- What stays reachable from the references `S` through the fields of objects. -/
inductive Kept (R : Holds) (s : State) (S : Addr → Nat) : Addr → Prop
  | root {a : Addr} (h : 1 ≤ S a) : Kept R s S a
  | field {a b : Addr} (hb : Kept R s S b) (ha : Value.heap a ∈ R b (s.objs.val b).body) :
      Kept R s S a

theorem Kept.transfer {R : Holds} {s t : State} {S T : Addr → Nat} {a : Addr}
    (ha : Kept R s S a) (more : ∀ b, S b ≤ T b)
    (body : ∀ b, Kept R s S b → (t.objs.val b).body = (s.objs.val b).body) : Kept R t T a := by
  induction ha with
  | root h => exact .root (Nat.le_trans h (more _))
  | field hb ha ih => exact .field ih (by rwa [body _ hb])

theorem Kept.mem {R : Holds} {s : State} {D : Finset Addr} {S H : Addr → Nat} {a : Addr}
    (ha : Kept R s S a) (h : Counted R s D H) (le : ∀ b, S b ≤ H b) : a ∈ s.objs.dom \ D := by
  induction ha with
  | root hS => exact h.mem_of_pos (Nat.le_trans hS (le _))
  | field hb ha ih => exact h.mem_of_field ih ha

theorem Kept.referred {R : Holds} {s : State} {D : Finset Addr} {S H : Addr → Nat} {a : Addr}
    (ha : Kept R s S a) (h : Counted R s D H) (le : ∀ b, S b ≤ H b) :
    1 ≤ S a + fieldRefs R s D a := by
  cases ha with
  | root hS => exact Nat.le_add_right_of_le hS
  | field hb ha =>
      have one := refsTo_pos ha
      have := le_fieldRefs (R := R) a (hb.mem h le)
      omega

/-- Only objects that are kept are read in an unusual way. -/
def Protected (R : Holds) (s : State) (S : Addr → Nat) : Prop :=
  ∀ a, (∀ b, R a b = b.refs) ∨ Kept R s S a

theorem protected_plain (s : State) (S : Addr → Nat) : Protected plain s S :=
  fun _ => Or.inl fun _ => rfl

theorem Protected.transfer {R : Holds} {s t : State} {S T : Addr → Nat} (h : Protected R s S)
    (more : ∀ b, S b ≤ T b)
    (body : ∀ b, Kept R s S b → (t.objs.val b).body = (s.objs.val b).body) : Protected R t T :=
  fun a => (h a).imp id fun ha => ha.transfer more body

/-- What no heap operation touches. -/
structure SameRest (s t : State) : Prop where
  acts : t.acts = s.acts
  triggers : t.triggers = s.triggers
  actQueue : t.actQueue = s.actQueue
  actQueueLen : t.actQueueLen = s.actQueueLen
  now : t.now = s.now
  numProcesses : t.numProcesses = s.numProcesses

theorem SameRest.refl (s : State) : SameRest s s := ⟨rfl, rfl, rfl, rfl, rfl, rfl⟩

theorem SameRest.trans {s t u : State} (h : SameRest s t) (k : SameRest t u) : SameRest s u :=
  ⟨k.acts.trans h.acts, k.triggers.trans h.triggers, k.actQueue.trans h.actQueue,
    k.actQueueLen.trans h.actQueueLen, k.now.trans h.now, k.numProcesses.trans h.numProcesses⟩

/-- The effect of drops that leave the references `S` in place. The references
`L` are lost: they are those of the pending values of finalised variables. -/
structure Dropped (R : Holds) (s t : State) (D : Finset Addr) (S L : Addr → Nat) : Prop where
  counted : Counted R t D fun a => S a + L a
  queue : EventQueueOk t
  order : EventOrdered s → EventOrdered t
  dom : t.objs.dom ⊆ s.objs.dom
  dying : D ⊆ t.objs.dom
  body : ∀ a, a ∈ t.objs.dom → (t.objs.val a).body = (s.objs.val a).body
  rest : SameRest s t
  still : (∀ a, s.Pending a → a ∈ t.objs.dom) →
    t.eventQueue = s.eventQueue ∧ t.eventQueueLen = s.eventQueueLen
  root : EventOrdered s → 1 ≤ s.eventQueueLen → s.eventQueue 1 ∈ t.objs.dom →
    t.eventQueue 1 = s.eventQueue 1
  lost : (∀ a v, s.sv? a = some v → v.laterTime ≠ ssmNever → ssmOnHeap v.laterValue = true →
    a ∈ t.objs.dom) → ∀ a, L a = 0
  pos : (∀ a, a ∈ s.objs.dom \ D → 1 ≤ (s.objs.val a).refCount) →
    ∀ a, a ∈ t.objs.dom \ D → 1 ≤ (t.objs.val a).refCount

theorem sv?_of_body {s t : State} {a : Addr} (hs : a ∈ s.objs.dom) (ht : a ∈ t.objs.dom)
    (body : (t.objs.val a).body = (s.objs.val a).body) : t.sv? a = s.sv? a := by
  have same : ∀ v, t.sv? a = some v ↔ s.sv? a = some v := by
    intro v
    simp [State.sv?_eq_some, hs, ht, body]
  cases h : s.sv? a with
  | some v => exact (same v).mpr h
  | none =>
      cases k : t.sv? a with
      | none => rfl
      | some v => exact absurd ((same v).mp k) (by simp [h])

theorem pending_of_body {s t : State} {a : Addr} (hs : a ∈ s.objs.dom) (ht : a ∈ t.objs.dom)
    (body : (t.objs.val a).body = (s.objs.val a).body) : t.Pending a ↔ s.Pending a := by
  simp [State.Pending, sv?_of_body hs ht body]

theorem State.Pending.mem {s : State} {a : Addr} (h : s.Pending a) : a ∈ s.objs.dom := by
  obtain ⟨v, hv, -⟩ := h
  exact (State.sv?_eq_some.mp hv).1

theorem Dropped.refl {R : Holds} {s : State} {D : Finset Addr} {S : Addr → Nat}
    (counted : Counted R s D S) (queue : EventQueueOk s) (dying : D ⊆ s.objs.dom) :
    Dropped R s s D S fun _ => 0 where
  counted := counted
  queue := queue
  order := id
  dom := Finset.Subset.refl _
  dying := dying
  body := fun _ _ => rfl
  rest := SameRest.refl s
  still := fun _ => ⟨rfl, rfl⟩
  root := fun _ _ _ => rfl
  lost := fun _ _ => rfl
  pos := id

theorem Dropped.trans {R : Holds} {s t u : State} {D : Finset Addr} {S T L M : Addr → Nat}
    (ok : EventQueueOk s) (h : Dropped R s t D T L)
    (k : Dropped R t u D (fun a => S a + L a) M) : Dropped R s u D S fun a => L a + M a where
  counted := k.counted.congr rfl (fun _ _ => rfl) fun a => (Nat.add_assoc _ _ _).symm
  queue := k.queue
  order := k.order ∘ h.order
  dom := Finset.Subset.trans k.dom h.dom
  dying := k.dying
  body := fun a ha => (k.body a ha).trans (h.body a (k.dom ha))
  rest := h.rest.trans k.rest
  still := fun alive => by
    obtain ⟨hq, hn⟩ := h.still fun a ha => k.dom (alive a ha)
    obtain ⟨kq, kn⟩ := k.still fun a ha =>
      alive a ((pending_of_body (h.dom ha.mem) ha.mem (h.body a ha.mem)).mp ha)
    exact ⟨kq.trans hq, kn.trans hn⟩
  root := fun ho pos alive => by
    have first := h.root ho pos (k.dom alive)
    have here := k.dom alive
    have pend : t.Pending (s.eventQueue 1) :=
      (pending_of_body (h.dom here) here (h.body _ here)).mpr (ok.pending_at (Nat.le_refl 1) pos)
    obtain ⟨i, h1, hn, -⟩ := h.queue.pos_of_pending pend
    rw [k.root (h.order ho) (by omega) (by rwa [first]), first]
  lost := fun alive a => by
    have one := h.lost (fun b v hv hp hh => k.dom (alive b v hv hp hh)) a
    have two := k.lost (fun b v hv hp hh => by
      have hb := (State.sv?_eq_some.mp hv).1
      rw [sv?_of_body (h.dom hb) hb (h.body b hb)] at hv
      exact alive b v hv hp hh) a
    omega
  pos := k.pos ∘ h.pos

theorem Dropped.kept {R : Holds} {s t : State} {D : Finset Addr} {S L : Addr → Nat}
    (h : Dropped R s t D S L) {a : Addr} (ha : Kept R s S a) : a ∈ t.objs.dom \ D := by
  induction ha with
  | root hS => exact h.counted.mem_of_pos (Nat.le_add_right_of_le hS)
  | field hb ha ih =>
      exact h.counted.mem_of_field ih (by rwa [h.body _ (Finset.mem_sdiff.mp ih).1])

theorem Dropped.protect {R : Holds} {s t : State} {D : Finset Addr} {S T L : Addr → Nat}
    (h : Dropped R s t D T L) (le : ∀ b, S b ≤ T b) (prot : Protected R s S) {U : Addr → Nat}
    (more : ∀ b, S b ≤ U b) : Protected R t U :=
  prot.transfer more fun b hb =>
    h.body b (Finset.mem_sdiff.mp (h.kept (hb.transfer le fun _ _ => rfl))).1

section Count
variable {R : Holds} {s : State} {D : Finset Addr} {S : Addr → Nat} {a : Addr}

/-- The state after `--ref_count`. -/
def uncount (s : State) (a : Addr) : State :=
  s.setObj a ⟨(s.objs.val a).refCount - 1, (s.objs.val a).body⟩

theorem uncount_body (s : State) (a b : Addr) :
    ((uncount s a).objs.val b).body = (s.objs.val b).body := by
  by_cases h : b = a
  · subst h
    simp [uncount, State.setObj]
  · simp [uncount, State.setObj, Table.write_val_of_ne _ _ h]

theorem uncount_refCount (s : State) (a : Addr) :
    ((uncount s a).objs.val a).refCount = (s.objs.val a).refCount - 1 := by
  simp [uncount, State.setObj]

theorem uncount_sv? (s : State) (a b : Addr) : (uncount s a).sv? b = s.sv? b := by
  by_cases h : b ∈ s.objs.dom
  · exact sv?_of_body h h (uncount_body s a b)
  · simp [State.sv?, Table.get?, h, uncount, State.setObj]

theorem sameRest_uncount (s : State) (a : Addr) : SameRest s (uncount s a) :=
  ⟨rfl, rfl, rfl, rfl, rfl, rfl⟩

theorem Counted.uncount (h : Counted R s D fun b => S b + refsTo b [.heap a]) :
    Counted R (uncount s a) D S := by
  have mem : a ∈ s.objs.dom \ D :=
    h.mem_of_pos (by rw [refsTo_heap_self]; omega)
  have fields : ∀ b, fieldRefs R (SsmRuntime.uncount s a) D b = fieldRefs R s D b := fun b =>
    fieldRefs_congr b rfl fun c _ => uncount_body s a c
  constructor
  · intro b hb
    have before := h.live b hb
    rw [fields]
    by_cases hba : b = a
    · subst hba
      rw [refsTo_heap_self] at before
      rw [uncount_refCount]
      omega
    · rw [refsTo_heap_ne hba] at before
      simpa [SsmRuntime.uncount, State.setObj, Table.write_val_of_ne _ _ hba] using before
  · intro b hb
    have before := h.dead b hb
    rw [fields]
    omega
  · intro b hb
    have before := h.small b hb
    by_cases hba : b = a
    · subst hba
      rw [uncount_refCount]
      omega
    · simpa [SsmRuntime.uncount, State.setObj, Table.write_val_of_ne _ _ hba] using before

theorem Dropped.uncount (h : Counted R s D fun b => S b + refsTo b [.heap a])
    (ok : EventQueueOk s) (dying : D ⊆ s.objs.dom) (shared : (s.objs.val a).refCount - 1 ≠ 0) :
    Dropped R s (uncount s a) D S fun _ => 0 where
  counted := h.uncount
  queue := ok.congr rfl rfl fun b => by simp [State.Pending, uncount_sv?]
  order := fun ho => ho.congr rfl rfl fun b _ => uncount_body s a b
  dom := Finset.Subset.refl _
  dying := dying
  body := fun b _ => uncount_body s a b
  rest := sameRest_uncount s a
  still := fun _ => ⟨rfl, rfl⟩
  root := fun _ _ _ => rfl
  lost := fun _ _ => rfl
  pos := fun all b hb => by
    by_cases hba : b = a
    · subst hba
      rw [uncount_refCount]
      omega
    · simpa [SsmRuntime.uncount, State.setObj, Table.write_val_of_ne _ _ hba] using all b hb

/-- The references of an object that dies pass to the drops its finaliser makes. -/
theorem Counted.die {t : State} {cs ls : List Value} (h : Counted R s D S)
    (mem : a ∈ s.objs.dom \ D) (none : S a + fieldRefs R s D a = 0)
    (dom : t.objs.dom = s.objs.dom) (obj : ∀ b, b ≠ a → t.objs.val b = s.objs.val b)
    (split : R a (s.objs.val a).body = cs ++ ls) :
    Counted R t (insert a D) fun b => S b + refsTo b ls + refsTo b cs := by
  have fields : ∀ b, fieldRefs R s D b =
      refsTo b cs + refsTo b ls + fieldRefs R t (insert a D) b := by
    intro b
    rw [fieldRefs_insert b mem, split, refsTo_append]
    congr 1
    refine fieldRefs_congr b (by rw [dom]) fun c hc => ?_
    rw [obj c]
    rintro rfl
    simp at hc
  have out : ∀ b, b ∈ t.objs.dom \ insert a D ↔ b ∈ s.objs.dom \ D ∧ b ≠ a := by
    intro b
    simp only [dom, Finset.mem_sdiff, Finset.mem_insert]
    tauto
  constructor
  · intro b hb
    obtain ⟨hb', hne⟩ := (out b).mp hb
    rw [obj b hne, h.live b hb', fields]
    omega
  · intro b hb
    have total : S b + fieldRefs R s D b = 0 := by
      by_cases hba : b = a
      · rw [hba]
        exact none
      · exact h.dead b fun inside => hb ((out b).mpr ⟨inside, hba⟩)
    rw [fields] at total
    omega
  · intro b hb
    obtain ⟨hb', hne⟩ := (out b).mp hb
    rw [obj b hne]
    exact h.small b hb'

/-- What a finaliser has done before it drops the values `cs`: a variable is
out of the queue, and its pending value `ls` is reachable no more. -/
structure Prepared (R : Holds) (s t : State) (a : Addr) (cs ls : List Value) : Prop where
  dom : t.objs.dom = s.objs.dom
  obj : ∀ b, b ≠ a → t.objs.val b = s.objs.val b
  split : R a (s.objs.val a).body = cs ++ ls
  queue : EventQueueOk t
  order : EventOrdered s → EventOrdered t
  rest : SameRest s t
  idle : ¬ t.Pending a
  still : ¬ s.Pending a → t.eventQueue = s.eventQueue ∧ t.eventQueueLen = s.eventQueueLen
  root : EventOrdered s → s.eventQueue 1 ≠ a → t.eventQueue 1 = s.eventQueue 1
  lost : (∀ v, s.sv? a = some v → v.laterTime ≠ ssmNever → ssmOnHeap v.laterValue = false) →
    ∀ b, refsTo b ls = 0

theorem Prepared.pending {t : State} {cs ls : List Value} (p : Prepared R s t a cs ls) {b : Addr}
    (hb : b ≠ a) : t.Pending b ↔ s.Pending b := by
  have same : t.sv? b = s.sv? b := by simp [State.sv?, Table.get?, p.dom, p.obj b hb]
  simp [State.Pending, same]

theorem Prepared.drops {t : State} {cs ls : List Value} (p : Prepared R s t a cs ls)
    (h : Counted R s D S) (mem : a ∈ s.objs.dom \ D) (none : S a + fieldRefs R s D a = 0) :
    Counted R t (insert a D) fun b => S b + refsTo b ls + refsTo b cs :=
  h.die mem none p.dom p.obj p.split

theorem Prepared.of_uncount {t : State} {cs ls : List Value}
    (p : Prepared R (SsmRuntime.uncount s a) t a cs ls) : Prepared R s t a cs ls where
  dom := p.dom
  obj := fun b hb => by
    rw [p.obj b hb]
    simp [SsmRuntime.uncount, State.setObj, Table.write_val_of_ne _ _ hb]
  split := by rw [← uncount_body s a a, p.split]
  queue := p.queue
  order := fun ho => p.order (ho.congr rfl rfl fun b _ => uncount_body s a b)
  rest := (sameRest_uncount s a).trans p.rest
  idle := p.idle
  still := fun idle => p.still (by simpa [State.Pending, uncount_sv?] using idle)
  root := fun ho => p.root (ho.congr rfl rfl fun b _ => uncount_body s a b)
  lost := fun all => p.lost (by simpa [uncount_sv?] using all)

theorem Prepared.finish {t u : State} {cs ls : List Value} {L : Addr → Nat}
    (ok : EventQueueOk s) (p : Prepared R s t a cs ls) (mem : a ∈ s.objs.dom \ D)
    (h : Dropped R t u (insert a D) (fun b => S b + refsTo b ls) L) :
    Dropped R s { u with objs := u.objs.release a } D S fun b => refsTo b ls + L b := by
  obtain ⟨memDom, fresh⟩ := Finset.mem_sdiff.mp mem
  have alive : ∀ b, b ∈ u.objs.dom → b ∈ s.objs.dom := fun b hb => p.dom ▸ h.dom hb
  have body : ∀ b, b ∈ u.objs.dom.erase a → (u.objs.val b).body = (s.objs.val b).body := by
    intro b hb
    rw [h.body b (Finset.mem_of_mem_erase hb), p.obj b (Finset.ne_of_mem_erase hb)]
  have idle : ¬ u.Pending a := by
    have here : a ∈ u.objs.dom := h.dying (Finset.mem_insert_self a D)
    rw [pending_of_body (h.dom here) here (h.body a here)]
    exact p.idle
  have pend : ∀ b, State.Pending { u with objs := u.objs.release a } b ↔ u.Pending b := by
    intro b
    by_cases hb : b = a
    · subst hb
      refine iff_of_false (fun gone => ?_) idle
      exact absurd gone.mem (by simp)
    · simp [State.Pending, State.sv?, Table.get?, hb]
  constructor
  · refine h.counted.congr ?_ (fun _ _ => rfl) fun b => by omega
    ext b
    simp only [Table.release_dom, Finset.mem_sdiff, Finset.mem_erase, Finset.mem_insert]
    tauto
  · exact h.queue.congr rfl rfl pend
  · exact fun ho => (h.order (p.order ho)).congr rfl rfl fun _ _ => rfl
  · exact fun b hb => alive b (Finset.mem_of_mem_erase hb)
  · intro b hb
    refine Finset.mem_erase.mpr ⟨?_, h.dying (Finset.mem_insert_of_mem hb)⟩
    rintro rfl
    exact fresh hb
  · exact body
  · exact p.rest.trans (h.rest.trans ⟨rfl, rfl, rfl, rfl, rfl, rfl⟩)
  · intro all
    have notPend : ¬ s.Pending a := fun ha => by simpa using all a ha
    obtain ⟨q, n⟩ := p.still notPend
    obtain ⟨q', n'⟩ := h.still fun b hb => by
      by_cases hba : b = a
      · exact absurd (hba ▸ hb) p.idle
      · exact Finset.mem_of_mem_erase (all b ((p.pending hba).mp hb))
    exact ⟨q'.trans q, n'.trans n⟩
  · intro ho pos inside
    obtain ⟨hne, here⟩ := Finset.mem_erase.mp inside
    have first := p.root ho hne
    have there : t.Pending (s.eventQueue 1) :=
      (p.pending hne).mpr (ok.pending_at (Nat.le_refl 1) pos)
    obtain ⟨i, h1, hn, -⟩ := p.queue.pos_of_pending there
    have := h.root (p.order ho) (by omega) (by rwa [first])
    exact this.trans first
  · intro all b
    have own := p.lost (fun v hv hp => by
      by_contra onHeap
      simpa using all a v hv hp (by simpa using onHeap)) b
    have rest := h.lost (fun c v hv hp hh => by
      by_cases hca : c = a
      · exact absurd ⟨v, hca ▸ hv, hp⟩ p.idle
      · have same : t.sv? c = s.sv? c := by simp [State.sv?, Table.get?, p.dom, p.obj c hca]
        exact Finset.mem_of_mem_erase (all c v (same ▸ hv) hp hh)) b
    omega
  · intro all b hb
    simp only [Table.release_dom, Finset.mem_sdiff, Finset.mem_erase] at hb
    refine h.pos (fun c hc => ?_) b (by simp; tauto)
    simp only [p.dom, Finset.mem_sdiff, Finset.mem_insert, not_or] at hc
    rw [p.obj c hc.2.1]
    exact all c (Finset.mem_sdiff.mpr ⟨hc.1, hc.2.2⟩)

theorem prepared_sv {v : Sv} (ok : EventQueueOk s) (hv : s.sv? a = some v)
    (read : R a (.sv v) = v.refs) :
    ∃ t w, ssmUnschedule a s = .ok t ∧ t.sv? a = some w ∧ w.value = v.value ∧
      w.laterTime = ssmNever ∧
      Prepared R s t a [v.value] (if v.laterTime = ssmNever then [] else [v.laterValue]) := by
  have hb := (State.sv?_eq_some.mp hv).2
  by_cases hp : v.laterTime = ssmNever
  · refine ⟨s, v, ?_, hv, rfl, hp, ?_⟩
    · unfold ssmUnschedule
      rw [State.loadSv_of_sv? hv, ok_bind, if_pos hp]
    · have idle : ¬ s.Pending a := by
        rintro ⟨u, hu, hne⟩
        rw [hv] at hu
        exact hne (Option.some.inj hu ▸ hp)
      constructor
      · rfl
      · exact fun _ _ => rfl
      · rw [hb, read, Sv.refs, if_pos hp, if_pos hp]
        rfl
      · exact ok
      · exact id
      · exact SameRest.refl s
      · exact idle
      · exact fun _ => ⟨rfl, rfl⟩
      · exact fun _ _ => rfl
      · exact fun _ b => by simp [hp]
  · obtain ⟨q, n, run, len, cont, order⟩ := ssmUnschedule_spec ok hv hp
    refine ⟨_, { v with laterTime := ssmNever }, run, ?_, rfl, rfl, ?_⟩
    · rw [State.withQueue_sv?]
      exact State.sv?_setSv_self hv
    · constructor
      · rfl
      · intro b hb'
        simp [State.setSv, State.setObj, Table.write_val_of_ne _ _ hb']
      · rw [hb, read, Sv.refs, if_neg hp, if_neg hp]
        rfl
      · exact ok.remove hv rfl len cont
      · exact fun ho => (order ho).1
      · exact ⟨rfl, rfl, rfl, rfl, rfl, rfl⟩
      · rw [pending_withQueue, pending_setSv hv]
        simp
      · exact fun idle => absurd ⟨v, hv, hp⟩ idle
      · exact fun ho => (order ho).2
      · intro packed b
        rw [if_neg hp]
        have := packed v hv hp
        cases hval : v.laterValue with
        | packed x => exact refsTo_packed b x
        | heap x => simp [hval, ssmOnHeap] at this

theorem prepared_plain {body : Body} (ok : EventQueueOk s) (hb : (s.objs.val a).body = body)
    (notSv : ∀ v, body ≠ .sv v) (read : R a body = body.refs) :
    Prepared R s s a body.children [] where
  dom := rfl
  obj := fun _ _ => rfl
  split := by
    rw [hb, read, List.append_nil]
    cases body with
    | sv v => exact absurd rfl (notSv v)
    | _ => rfl
  queue := ok
  order := id
  rest := SameRest.refl s
  idle := by
    rintro ⟨v, hv, -⟩
    exact notSv v (hb ▸ (State.sv?_eq_some.mp hv).2)
  still := fun _ => ⟨rfl, rfl⟩
  root := fun _ _ => rfl
  lost := fun _ _ => rfl

end Count

/-- What is asked of a drop that has `fuel` left. -/
def DropSpec (R : Holds) (drop : Value → State → Res) (fuel : Nat) : Prop :=
  ∀ v s D S, D ⊆ s.objs.dom → Counted R s D (fun b => S b + refsTo b [v]) → EventQueueOk s →
    Protected R s S → (s.objs.dom \ D).card < fuel →
    ∃ t L, drop v s = .ok t ∧ Dropped R s t D S L

theorem ssmDropsWith_spec {R : Holds} {drop : Value → State → Res} {fuel : Nat}
    (hdrop : DropSpec R drop fuel) (vs : List Value) (s : State) (D : Finset Addr)
    (S : Addr → Nat) (dying : D ⊆ s.objs.dom)
    (counted : Counted R s D fun b => S b + refsTo b vs) (ok : EventQueueOk s)
    (prot : Protected R s S) (enough : (s.objs.dom \ D).card < fuel) :
    ∃ t L, ssmDropsWith drop vs s = .ok t ∧ Dropped R s t D S L := by
  induction vs generalizing s S with
  | nil => exact ⟨s, _, rfl, Dropped.refl (by simpa using counted) ok dying⟩
  | cons v vs ih =>
      have less : ∀ b, S b ≤ S b + refsTo b vs := fun b => Nat.le_add_right _ _
      obtain ⟨t, L, run, first⟩ := hdrop v s D (fun b => S b + refsTo b vs) dying
        (counted.congr rfl (fun _ _ => rfl) fun b => by
          have := refsTo_cons b v vs
          omega) ok (prot.transfer less fun _ _ => rfl) enough
      have fewer : (t.objs.dom \ D).card < fuel :=
        Nat.lt_of_le_of_lt
          (Finset.card_le_card (Finset.sdiff_subset_sdiff first.dom (Finset.Subset.refl D))) enough
      obtain ⟨u, M, run', second⟩ := ih t (fun b => S b + L b) first.dying
        (first.counted.congr rfl (fun _ _ => rfl) fun b => by omega) first.queue
        (first.protect less prot fun b => Nat.le_add_right _ _) fewer
      refine ⟨u, _, ?_, first.trans ok second⟩
      simp only [ssmDropsWith, run, ok_bind, run']

section Dying
variable {R : Holds} {s : State} {D : Finset Addr} {S : Addr → Nat} {a : Addr}

/-- When the count has gone to zero, no reference is left. -/
theorem Counted.none_left (counted : Counted R (SsmRuntime.uncount s a) D S)
    (mem : a ∈ s.objs.dom \ D) (last : (s.objs.val a).refCount - 1 = 0) :
    S a + fieldRefs R (SsmRuntime.uncount s a) D a = 0 := by
  have := counted.live a mem
  rw [uncount_refCount] at this
  omega

theorem Counted.not_kept (counted : Counted R (SsmRuntime.uncount s a) D S)
    (none : S a + fieldRefs R (SsmRuntime.uncount s a) D a = 0) : ¬ Kept R s S a := fun kept => by
  have := (kept.transfer (fun b => Nat.le_refl _) fun b _ => uncount_body s a b).referred
    counted fun b => Nat.le_refl _
  omega

theorem EventQueueOk.uncount (ok : EventQueueOk s) : EventQueueOk (SsmRuntime.uncount s a) :=
  ok.congr rfl rfl fun b => by simp [State.Pending, uncount_sv?]

/-- What the drops of a finaliser start from. -/
structure Dying (R : Holds) (s t : State) (a : Addr) (D : Finset Addr) (S : Addr → Nat)
    (cs ls : List Value) (fuel : Nat) : Prop where
  prepared : Prepared R s t a cs ls
  dying : insert a D ⊆ t.objs.dom
  counted : Counted R t (insert a D) fun b => S b + refsTo b ls + refsTo b cs
  prot : Protected R t fun b => S b + refsTo b ls
  fewer : (t.objs.dom \ insert a D).card < fuel

theorem Prepared.dying {t : State} {cs ls : List Value} {fuel : Nat}
    (p : Prepared R (SsmRuntime.uncount s a) t a cs ls) (dying : D ⊆ s.objs.dom)
    (counted : Counted R (SsmRuntime.uncount s a) D S) (prot : Protected R s S)
    (mem : a ∈ s.objs.dom \ D) (last : (s.objs.val a).refCount - 1 = 0)
    (enough : (s.objs.dom \ D).card ≤ fuel) : Dying R s t a D S cs ls fuel := by
  have none := counted.none_left mem last
  have dom : t.objs.dom = s.objs.dom := p.dom
  refine ⟨p.of_uncount, ?_, p.drops counted mem none, ?_, ?_⟩
  · rw [dom]
    exact Finset.insert_subset (Finset.mem_sdiff.mp mem).1 dying
  · refine prot.transfer (fun b => Nat.le_add_right _ _) fun b hb => ?_
    rw [p.of_uncount.obj b]
    rintro rfl
    exact counted.not_kept none hb
  · rw [dom, Finset.sdiff_insert, Finset.card_erase_of_mem mem]
    have := Finset.card_pos.mpr ⟨a, mem⟩
    omega

/-- The finaliser of an object whose count has just gone to zero. -/
theorem ssmDropFinalWith_spec {drop : Value → State → Res} {fuel : Nat}
    (hdrop : DropSpec R drop fuel)
    (dying : D ⊆ s.objs.dom) (counted : Counted R (uncount s a) D S) (ok : EventQueueOk s)
    (prot : Protected R s S) (mem : a ∈ s.objs.dom \ D)
    (last : (s.objs.val a).refCount - 1 = 0) (enough : (s.objs.dom \ D).card ≤ fuel) :
    ∃ t L, ssmDropFinalWith drop a (uncount s a) = .ok t ∧ Dropped R s t D S L := by
  have memDom := (Finset.mem_sdiff.mp mem).1
  have read : ∀ b, R a b = b.refs :=
    (prot a).resolve_right (counted.not_kept (counted.none_left mem last))
  have load : (uncount s a).loadObj a = .ok ((uncount s a).objs.val a) :=
    State.loadObj_of_mem memDom
  unfold ssmDropFinalWith
  rw [load, ok_bind]
  cases hb : ((uncount s a).objs.val a).body with
  | sv v =>
      have hv : (uncount s a).sv? a = some v := State.sv?_eq_some.mpr ⟨memDom, hb⟩
      obtain ⟨t, w, run, hw, hval, never, p⟩ := prepared_sv ok.uncount hv (read _)
      have d := p.dying dying counted prot mem last enough
      obtain ⟨u, L, run', dropped⟩ := hdrop v.value t (insert a D) _ d.dying d.counted
        d.prepared.queue d.prot d.fewer
      have here : a ∈ u.objs.dom := dropped.dying (Finset.mem_insert_self a D)
      have hu : u.sv? a = some w := by
        rw [sv?_of_body (dropped.dom here) here (dropped.body a here), hw]
      refine ⟨_, _, ?_, d.prepared.finish ok mem dropped⟩
      simp only [dropBody, run, ok_bind, State.loadSv_of_sv? hw, hval, run',
        State.loadSv_of_sv? hu, never, if_true]
  | _ =>
      have p := prepared_plain (R := R) ok.uncount hb (by simp) (read _)
      have d := p.dying dying counted prot mem last enough
      obtain ⟨u, L, run, dropped⟩ := ssmDropsWith_spec hdrop _ (uncount s a) (insert a D) _
        d.dying d.counted d.prepared.queue d.prot d.fewer
      refine ⟨_, _, ?_, d.prepared.finish ok mem dropped⟩
      simp only [dropBody, run, ok_bind]

end Dying

theorem ssmDropWith_spec (R : Holds) (fuel : Nat) : DropSpec R (ssmDropWith fuel) fuel := by
  induction fuel with
  | zero => exact fun v s D S _ _ _ _ enough => absurd enough (Nat.not_lt_zero _)
  | succ fuel ih =>
      intro v s D S dying counted ok prot enough
      cases v with
      | packed n =>
          refine ⟨s, _, by simp [ssmDropWith], Dropped.refl ?_ ok dying⟩
          exact counted.congr rfl (fun _ _ => rfl) fun b => by simp
      | heap a =>
          have mem : a ∈ s.objs.dom \ D :=
            counted.mem_of_pos (by rw [refsTo_heap_self]; omega)
          have load := State.loadObj_of_mem (Finset.mem_sdiff.mp mem).1
          have live := counted.live a mem
          have small := counted.small a mem
          rw [refsTo_heap_self] at live
          have less : ((s.objs.val a).refCount + 255) % 256 = (s.objs.val a).refCount - 1 := by
            omega
          have run : ssmDropWith (fuel + 1) (.heap a) s =
              if (s.objs.val a).refCount - 1 = 0 then
                ssmDropFinalWith (ssmDropWith fuel) a (uncount s a)
              else .ok (uncount s a) := by
            simp only [ssmDropWith, load, ok_bind, less]
            rfl
          rw [run]
          split
          · rename_i last
            exact ssmDropFinalWith_spec ih dying counted.uncount ok prot mem last (by omega)
          · rename_i shared
            exact ⟨_, _, rfl, Dropped.uncount counted ok dying shared⟩

/-- A drop by the program: it ends, and what it leaves is balanced again. -/
theorem ssmDrop_spec {R : Holds} {v : Value} {s : State} {S : Addr → Nat}
    (counted : Counted R s ∅ fun b => S b + refsTo b [v]) (ok : EventQueueOk s)
    (prot : Protected R s S) : ∃ t L, ssmDrop v s = .ok t ∧ Dropped R s t ∅ S L :=
  ssmDropWith_spec R _ v s ∅ S (Finset.empty_subset _) counted ok prot (by simp)

end SsmRuntime
