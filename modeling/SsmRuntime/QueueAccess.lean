import SsmRuntime.Library.Logged
import SsmRuntime.EventQueue
import Mathlib.Order.Interval.Finset.Nat

/-!
The loops of the two heaps, access by access. Each access to an array of
entries is logged with the length of the queue at that time; without its log a
logged function is the function it is named after.
-/
namespace SsmRuntime

open BinaryHeap

/-- An index used to access an array, and the length of the queue then. -/
structure Slot where
  index : Nat
  len : Nat
  deriving DecidableEq, Repr

def Slot.Inside (a : Slot) : Prop := 1 ≤ a.index ∧ a.index ≤ a.len

abbrev LoggedRes := Logged Slot Stop State

open Logged (emit silent)

section Loops
variable (key : Nat → Nat) (x len : Nat)

/-- The parent is read for its key and again for the move. -/
def loggedUp : Nat → Nat → (Nat → Nat) → Logged Slot Stop (Nat → Nat)
  | 0, hole, q => do
      emit [⟨hole, len⟩]
      pure (Function.update q hole x)
  | fuel + 1, hole, q =>
      if 1 < hole then do
        emit [⟨hole / 2, len⟩]
        if key x < key (q (hole / 2)) then do
          emit [⟨hole / 2, len⟩, ⟨hole, len⟩]
          loggedUp fuel (hole / 2) (Function.update q hole (q (hole / 2)))
        else do
          emit [⟨hole, len⟩]
          pure (Function.update q hole x)
      else do
        emit [⟨hole, len⟩]
        pure (Function.update q hole x)

/-- The right child is read only where there is one. -/
def loggedDown : Nat → Nat → (Nat → Nat) → Logged Slot Stop (Option (Nat → Nat))
  | 0, _, _ => pure none
  | fuel + 1, hole, q => do
      let left := qIdx (2 * hole)
      if len < left then do
        emit [⟨hole, len⟩]
        pure (some (Function.update q hole x))
      else do
        emit (if left + 1 ≤ len then [⟨left + 1, len⟩, ⟨left, len⟩] else [])
        let child := earlierChild key q len left
        emit [⟨child, len⟩]
        if key x < key (q child) then do
          emit [⟨hole, len⟩]
          pure (some (Function.update q hole x))
        else do
          emit [⟨child, len⟩, ⟨hole, len⟩]
          loggedDown fuel child (Function.update q hole (q child))

end Loops

def loggedActPercolateUp (hole : Nat) (act : ActPtr) (s : State) : LoggedRes := do
  let s ← silent (ssmAssert (1 ≤ hole ∧ hole ≤ s.actQueueLen) s)
  let q ← loggedUp s.priorityAt act s.actQueueLen upRounds hole s.actQueue
  let a ← silent (s.loadAct act)
  pure { s.setAct act { a with scheduled := true } with actQueue := q }

def loggedActPercolateDown (hole : Nat) (act : ActPtr) (s : State) : LoggedRes := do
  let s ← silent (ssmAssert (1 ≤ hole ∧ hole ≤ s.actQueueLen) s)
  match ← loggedDown s.priorityAt act s.actQueueLen (s.actQueueLen + 1) hole s.actQueue with
  | some q => pure { s with actQueue := q }
  | none => silent (.error ⟨.diverges, s⟩)

def loggedEventPercolateUp (hole : Nat) (var : Addr) (s : State) : LoggedRes := do
  let s ← silent (ssmAssert (1 ≤ hole ∧ hole ≤ s.eventQueueLen) s)
  let q ← loggedUp s.laterTimeAt var s.eventQueueLen upRounds hole s.eventQueue
  pure { s with eventQueue := q }

def loggedEventPercolateDown (hole : Nat) (event : Addr) (s : State) : LoggedRes := do
  let s ← silent (ssmAssert (1 ≤ hole ∧ hole ≤ s.eventQueueLen) s)
  match ← loggedDown s.laterTimeAt event s.eventQueueLen (s.eventQueueLen + 1) hole
      s.eventQueue with
  | some q => pure { s with eventQueue := q }
  | none => silent (.error ⟨.diverges, s⟩)

section Results
variable {key : Nat → Nat} {x len : Nat}

theorem loggedUp_result (fuel hole : Nat) (q : Nat → Nat) :
    (loggedUp key x len fuel hole q).result = .ok (percolateUp key x fuel hole q) := by
  induction fuel generalizing hole q with
  | zero => rfl
  | succ fuel ih =>
      rw [loggedUp, percolateUp]
      by_cases inner : 1 < hole
      · by_cases earlier : key x < key (q (hole / 2))
        · have goes : 1 < hole ∧ key x < key (q (hole / 2)) := ⟨inner, earlier⟩
          rw [if_pos inner, if_pos goes]
          simp only [if_pos earlier, Logged.result_bind, Logged.result_emit, ok_bind, ih]
        · have stops : ¬ (1 < hole ∧ key x < key (q (hole / 2))) := fun goes => earlier goes.2
          rw [if_pos inner, if_neg stops]
          simp only [if_neg earlier, Logged.result_bind, Logged.result_emit, ok_bind,
            Logged.result_pure]
      · have stops : ¬ (1 < hole ∧ key x < key (q (hole / 2))) := fun goes => inner goes.1
        rw [if_neg inner, if_neg stops]
        rfl

theorem loggedDown_result (fuel hole : Nat) (q : Nat → Nat) :
    (loggedDown key x len fuel hole q).result = .ok (percolateDown key x len fuel hole q) := by
  induction fuel generalizing hole q with
  | zero => rfl
  | succ fuel ih =>
      rw [loggedDown, percolateDown]
      simp only
      split
      · rfl
      · simp only [Logged.result_bind, Logged.result_emit, ok_bind]
        split
        · rfl
        · simp only [Logged.result_bind, Logged.result_emit, ok_bind, ih]

theorem loggedActPercolateUp_result (hole : Nat) (act : ActPtr) (s : State) :
    (loggedActPercolateUp hole act s).result = actQueuePercolateUp hole act s := by
  simp only [loggedActPercolateUp, actQueuePercolateUp, Logged.result_bind, Logged.result_silent,
    loggedUp_result, ok_bind, Logged.result_pure]

theorem loggedActPercolateDown_result (hole : Nat) (act : ActPtr) (s : State) :
    (loggedActPercolateDown hole act s).result = actQueuePercolateDown hole act s := by
  simp only [loggedActPercolateDown, actQueuePercolateDown, Logged.result_bind,
    Logged.result_silent, loggedDown_result, ok_bind]
  refine bind_congr fun u => ?_
  cases percolateDown u.priorityAt act u.actQueueLen (u.actQueueLen + 1) hole u.actQueue <;> rfl

theorem loggedEventPercolateUp_result (hole : Nat) (var : Addr) (s : State) :
    (loggedEventPercolateUp hole var s).result = eventQueuePercolateUp hole var s := by
  simp only [loggedEventPercolateUp, eventQueuePercolateUp, Logged.result_bind,
    Logged.result_silent, loggedUp_result, ok_bind, Logged.result_pure]

theorem loggedEventPercolateDown_result (hole : Nat) (event : Addr) (s : State) :
    (loggedEventPercolateDown hole event s).result = eventQueuePercolateDown hole event s := by
  simp only [loggedEventPercolateDown, eventQueuePercolateDown, Logged.result_bind,
    Logged.result_silent, loggedDown_result, ok_bind]
  refine bind_congr fun u => ?_
  cases percolateDown u.laterTimeAt event u.eventQueueLen (u.eventQueueLen + 1) hole
    u.eventQueue <;> rfl

end Results

section Inside
variable {key : Nat → Nat} {x len : Nat}

theorem emit_inside {α : Type} {slots : List Slot} (inside : ∀ slot ∈ slots, slot.Inside)
    {m : Logged Slot Stop α} {Q : α → Prop} (rest : m.Meets Slot.Inside Q) :
    (emit slots >>= fun _ => m).Meets Slot.Inside Q :=
  (Logged.Meets.emit inside).bind fun _ _ _ => rest

theorem emit_one_inside {α : Type} {slot : Slot} (inside : slot.Inside) {m : Logged Slot Stop α}
    {Q : α → Prop} (rest : m.Meets Slot.Inside Q) :
    (emit [slot] >>= fun _ => m).Meets Slot.Inside Q :=
  emit_inside (fun _ mem => List.mem_singleton.mp mem ▸ inside) rest

theorem emit_two_inside {α : Type} {slot slot' : Slot} (inside : slot.Inside)
    (inside' : slot'.Inside) {m : Logged Slot Stop α} {Q : α → Prop}
    (rest : m.Meets Slot.Inside Q) :
    (emit [slot, slot'] >>= fun _ => m).Meets Slot.Inside Q :=
  emit_inside (List.forall_mem_cons.mpr ⟨inside, List.forall_mem_singleton.mpr inside'⟩) rest

theorem loggedUp_inside (fuel hole : Nat) (q : Nat → Nat) (h1 : 1 ≤ hole) (hn : hole ≤ len) :
    (loggedUp key x len fuel hole q).Meets Slot.Inside fun _ => True := by
  induction fuel generalizing hole q with
  | zero => exact emit_one_inside ⟨h1, hn⟩ (.pure trivial)
  | succ fuel ih =>
      have here : (Slot.mk hole len).Inside := ⟨h1, hn⟩
      rw [loggedUp]
      split
      · have up : (Slot.mk (hole / 2) len).Inside :=
          ⟨show 1 ≤ hole / 2 by omega, show hole / 2 ≤ len by omega⟩
        refine emit_one_inside up ?_
        split
        · exact emit_two_inside up here (ih (hole / 2) _ up.1 up.2)
        · exact emit_one_inside here (.pure trivial)
      · exact emit_one_inside here (.pure trivial)

/-- While positions can be doubled in a `q_idx_t`, a walk down stays inside. -/
theorem loggedDown_inside (small : len < 2 ^ 15) (fuel hole : Nat) (q : Nat → Nat)
    (h1 : 1 ≤ hole) (hn : hole ≤ len) :
    (loggedDown key x len fuel hole q).Meets Slot.Inside fun _ => True := by
  induction fuel generalizing hole q with
  | zero => exact .pure trivial
  | succ fuel ih =>
      have here : (Slot.mk hole len).Inside := ⟨h1, hn⟩
      rw [loggedDown, qIdx_of_lt (show 2 * hole < 2 ^ 16 by omega)]
      split
      · exact emit_one_inside here (.pure trivial)
      · rename_i inner
        obtain ⟨-, hcn, hc2, -⟩ := earlierChild_spec key q small (by omega) h1
        generalize earlierChild key q len (2 * hole) = child at hcn hc2
        have next : (Slot.mk child len).Inside := ⟨show 1 ≤ child by omega, hcn⟩
        refine emit_inside (fun slot mem => ?_) ?_
        · split at mem
          · simp only [List.mem_cons, List.not_mem_nil, or_false] at mem
            rcases mem with rfl | rfl
            · exact ⟨show 1 ≤ 2 * hole + 1 by omega, by assumption⟩
            · exact ⟨show 1 ≤ 2 * hole by omega, show 2 * hole ≤ len by omega⟩
          · exact absurd mem List.not_mem_nil
        · refine emit_one_inside next ?_
          split
          · exact emit_one_inside here (.pure trivial)
          · exact emit_two_inside next here (ih child _ next.1 next.2)

/-- The queues have kept their lengths. -/
def SameLens (s t : State) : Prop :=
  t.eventQueueLen = s.eventQueueLen ∧ t.actQueueLen = s.actQueueLen

/-- An assertion on an index holds of what comes after it. -/
theorem assert_inside {s : State} {hole n : Nat} {f : State → LoggedRes} {Q : State → Prop}
    (rest : 1 ≤ hole → hole ≤ n → (f s).Meets Slot.Inside Q) :
    (silent (ssmAssert (1 ≤ hole ∧ hole ≤ n) s) >>= f).Meets Slot.Inside Q := by
  refine Logged.Meets.bind (.silent fun _ done => done) fun t _ done => ?_
  obtain ⟨h1, hn⟩ := of_decide_eq_true (cond_of_ssmAssert done)
  rw [ssmAssert_eq_ok done]
  exact rest h1 hn

theorem loggedEventPercolateUp_inside (hole : Nat) (x : Addr) (s : State) :
    (loggedEventPercolateUp hole x s).Meets Slot.Inside (SameLens s) :=
  assert_inside fun h1 hn => (loggedUp_inside _ _ _ h1 hn).bind fun _ _ _ => .pure ⟨rfl, rfl⟩

theorem loggedEventPercolateDown_inside {s : State} (small : s.eventQueueLen < 2 ^ 15)
    (hole : Nat) (x : Addr) :
    (loggedEventPercolateDown hole x s).Meets Slot.Inside (SameLens s) := by
  refine assert_inside fun h1 hn => ?_
  refine (loggedDown_inside small _ _ _ h1 hn).bind fun r _ _ => ?_
  cases r with
  | some q => exact .pure ⟨rfl, rfl⟩
  | none => exact .stop

theorem loggedActPercolateUp_inside (hole : Nat) (x : ActPtr) (s : State) :
    (loggedActPercolateUp hole x s).Meets Slot.Inside (SameLens s) := by
  refine assert_inside fun h1 hn => ?_
  refine (loggedUp_inside _ _ _ h1 hn).bind fun _ _ _ => ?_
  exact Logged.Meets.bind (.silent fun _ done => done) fun _ _ _ => .pure ⟨rfl, rfl⟩

theorem loggedActPercolateDown_inside {s : State} (small : s.actQueueLen < 2 ^ 15)
    (hole : Nat) (x : ActPtr) :
    (loggedActPercolateDown hole x s).Meets Slot.Inside (SameLens s) := by
  refine assert_inside fun h1 hn => ?_
  refine (loggedDown_inside small _ _ _ h1 hn).bind fun r _ _ => ?_
  cases r with
  | some q => exact .pure ⟨rfl, rfl⟩
  | none => exact .stop

/-- Among entries of one key a walk down keeps to the left, and from position
`2 ^ 15` on there is no left in a `q_idx_t`: the index is 0. -/
theorem loggedDown_zero (level : ∀ a b, key a = key b) (wide : 2 ^ 15 ≤ len) (k fuel : Nat)
    (hk : k ≤ 15) (q : Nat → Nat) :
    ⟨0, len⟩ ∈ (loggedDown key x len (fuel + k + 1) (2 ^ (15 - k)) q).log := by
  have leftmost : ∀ left, earlierChild key q len left = left := fun left =>
    if_neg fun right => absurd right.2 (by rw [level (q (left + 1)) (q left)]; exact lt_irrefl _)
  induction k generalizing q with
  | zero =>
      have wraps : qIdx (2 * 2 ^ (15 - 0)) = 0 := by decide
      rw [loggedDown, wraps]
      simp only [leftmost]
      rw [if_neg (Nat.not_lt_zero len)]
      refine Logged.mem_log_bind rfl ?_
      exact Logged.mem_log_left List.mem_cons_self
  | succ k ih =>
      have double : 2 * 2 ^ (15 - (k + 1)) = 2 ^ (15 - k) := by
        rw [← Nat.pow_succ']
        congr 1
        omega
      have small : 2 ^ (15 - k) ≤ 2 ^ 15 := Nat.pow_le_pow_right (by decide) (by omega)
      rw [loggedDown, double, qIdx_of_lt (show 2 ^ (15 - k) < 2 ^ 16 by omega)]
      simp only [leftmost]
      rw [if_neg (show ¬ len < 2 ^ (15 - k) by omega)]
      refine Logged.mem_log_bind rfl (Logged.mem_log_bind rfl ?_)
      rw [if_neg (by rw [level x (q (2 ^ (15 - k)))]; exact lt_irrefl _)]
      exact Logged.mem_log_bind rfl (ih (by omega) _ fun left => if_neg fun right =>
        absurd right.2 (by rw [level]; exact lt_irrefl _))

end Inside

/-- The entry stands in place of that of the hole, and the queue is ordered. -/
structure Filled (key q : Nat → Nat) (n hole x : Nat) (q' : Nat → Nat) : Prop where
  ordered : Ordered key q' n
  contents : q hole ::ₘ contents q' n = x ::ₘ contents q n

section Filled
variable {key q : Nat → Nat} {n hole x : Nat}

theorem percolateUp_filled (h1 : 1 ≤ hole) (hn : hole ≤ n) (short : n < 2 ^ 16)
    (h : Hole key q n hole) (below : Below key q n hole (key x)) :
    Filled key q n hole x (percolateUp key x upRounds hole q) where
  ordered := percolateUp_ordered _ _ _ _ h1 hn (by rw [upRounds]; omega) h below
  contents := by rw [contents_percolateUp _ _ _ _ h1 hn, contents_update x h1 hn]

/-- The walk up ends by itself: more rounds than an index can be halved change nothing. -/
theorem percolateUp_rounds (fuel more hole : Nat) (q : Nat → Nat) (enough : hole < 2 ^ fuel) :
    percolateUp key x (fuel + more) hole q = percolateUp key x fuel hole q := by
  induction fuel generalizing hole q with
  | zero =>
      have top : ¬ 1 < hole := by omega
      cases more with
      | zero => rfl
      | succ more =>
          rw [Nat.zero_add, percolateUp, percolateUp, if_neg fun up => top up.1]
  | succ fuel ih =>
      rw [Nat.succ_add, percolateUp, percolateUp]
      split
      · exact ih _ _ (by omega)
      · rfl

theorem percolateDown_filled (small : n < 2 ^ 15) (h1 : 1 ≤ hole) (hn : hole ≤ n)
    (h : Hole key q n hole) (above : Above key q hole (key x)) :
    ∃ q', percolateDown key x n (n + 1) hole q = some q' ∧ Filled key q n hole x q' := by
  have enough : n < hole * 2 ^ (n + 1) := by
    have one : n + 1 < 2 ^ (n + 1) := Nat.lt_two_pow_self
    have := Nat.mul_le_mul_right (2 ^ (n + 1)) h1
    omega
  obtain ⟨q', run, same, -, order⟩ := percolateDown_spec key x (n + 1) hole n q small h1 hn enough
  exact ⟨q', run, order h above, by rw [same, contents_update x h1 hn]⟩

end Filled

/-- A percolation of the event queue has filled the hole within the queue. -/
def EventFilled (s : State) (hole : Nat) (x : Addr) (run : Res) (log : List Slot) : Prop :=
  ∃ q, run = .ok (s.withQueue q s.eventQueueLen) ∧
    Filled s.laterTimeAt s.eventQueue s.eventQueueLen hole x q ∧ ∀ slot ∈ log, slot.Inside

/-- Percolation fills any hole of an event queue of a length: up where the
parent is not earlier, down at the root or below an earlier parent, and up from
a new last position. -/
structure EventPercolates (n : Nat) : Prop where
  up : ∀ s hole x, s.eventQueueLen = n → 2 ≤ hole → hole ≤ n →
    Hole s.laterTimeAt s.eventQueue n hole →
    s.laterTimeAt x ≤ s.laterTimeAt (s.eventQueue (hole / 2)) →
    EventFilled s hole x (eventQueuePercolateUp hole x s) (loggedEventPercolateUp hole x s).log
  down : ∀ s hole x, s.eventQueueLen = n → 1 ≤ hole → hole ≤ n →
    Hole s.laterTimeAt s.eventQueue n hole →
    hole = 1 ∨ s.laterTimeAt (s.eventQueue (hole / 2)) < s.laterTimeAt x →
    EventFilled s hole x (eventQueuePercolateDown hole x s)
      (loggedEventPercolateDown hole x s).log
  last : ∀ s x, s.eventQueueLen = n → 1 ≤ n → Hole s.laterTimeAt s.eventQueue n n →
    EventFilled s n x (eventQueuePercolateUp n x s) (loggedEventPercolateUp n x s).log
  ends : ∀ (s : State) hole x more, hole ≤ n →
    percolateUp s.laterTimeAt x (upRounds + more) hole s.eventQueue =
      percolateUp s.laterTimeAt x upRounds hole s.eventQueue

/-- A percolation of the activation queue has filled the hole within the queue;
`t` is the state before, but for the flag of the record. -/
def ActFilled (s t : State) (hole : Nat) (x : ActPtr) (run : Res) (log : List Slot) : Prop :=
  ∃ q, run = .ok (t.withActQueue q s.actQueueLen) ∧
    Filled s.priorityAt s.actQueue s.actQueueLen hole x q ∧ ∀ slot ∈ log, slot.Inside

def State.flagged (s : State) (act : ActPtr) : State :=
  s.setAct act { s.acts.val act with scheduled := true }

structure ActPercolates (n : Nat) : Prop where
  up : ∀ s hole x, s.actQueueLen = n → x ∈ s.acts.dom → 2 ≤ hole → hole ≤ n →
    Hole s.priorityAt s.actQueue n hole →
    s.priorityAt x ≤ s.priorityAt (s.actQueue (hole / 2)) →
    ActFilled s (s.flagged x) hole x (actQueuePercolateUp hole x s)
      (loggedActPercolateUp hole x s).log
  down : ∀ s hole x, s.actQueueLen = n → x ∈ s.acts.dom → 1 ≤ hole → hole ≤ n →
    Hole s.priorityAt s.actQueue n hole →
    hole = 1 ∨ s.priorityAt (s.actQueue (hole / 2)) < s.priorityAt x →
    ActFilled s s hole x (actQueuePercolateDown hole x s) (loggedActPercolateDown hole x s).log
  last : ∀ s x, s.actQueueLen = n → x ∈ s.acts.dom → 1 ≤ n →
    Hole s.priorityAt s.actQueue n n →
    ActFilled s (s.flagged x) n x (actQueuePercolateUp n x s) (loggedActPercolateUp n x s).log
  ends : ∀ (s : State) hole x more, hole ≤ n →
    percolateUp s.priorityAt x (upRounds + more) hole s.actQueue =
      percolateUp s.priorityAt x upRounds hole s.actQueue

section Percolates
variable {s : State} {hole n : Nat} {x : Nat}

theorem above_of_down {key q : Nat → Nat} (down : hole = 1 ∨ key (q (hole / 2)) < key x) :
    Above key q hole (key x) := by
  intro h2
  rcases down with rfl | lt
  · omega
  · exact Nat.le_of_lt lt

theorem below_of_last {key q : Nat → Nat} : Below key q n n (key x) :=
  fun c _ hc hn => by omega

theorem eventUp_filled (short : s.eventQueueLen < 2 ^ 16) (h1 : 1 ≤ hole)
    (hn : hole ≤ s.eventQueueLen) (h : Hole s.laterTimeAt s.eventQueue s.eventQueueLen hole)
    (below : Below s.laterTimeAt s.eventQueue s.eventQueueLen hole (s.laterTimeAt x)) :
    EventFilled s hole x (eventQueuePercolateUp hole x s)
      (loggedEventPercolateUp hole x s).log := by
  refine ⟨_, ?_, percolateUp_filled h1 hn short h below,
    (loggedEventPercolateUp_inside hole x s).log⟩
  rw [eventQueuePercolateUp, ssmAssert_of (by simp [h1, hn])]
  rfl

theorem eventDown_filled (small : s.eventQueueLen < 2 ^ 15) (h1 : 1 ≤ hole)
    (hn : hole ≤ s.eventQueueLen) (h : Hole s.laterTimeAt s.eventQueue s.eventQueueLen hole)
    (above : Above s.laterTimeAt s.eventQueue hole (s.laterTimeAt x)) :
    EventFilled s hole x (eventQueuePercolateDown hole x s)
      (loggedEventPercolateDown hole x s).log := by
  obtain ⟨q, run, filled⟩ := percolateDown_filled small h1 hn h above
  refine ⟨q, ?_, filled, (loggedEventPercolateDown_inside small hole x).log⟩
  rw [eventQueuePercolateDown, ssmAssert_of (by simp [h1, hn]), ok_bind, run]
  rfl

theorem actUp_filled (short : s.actQueueLen < 2 ^ 16) (live : x ∈ s.acts.dom) (h1 : 1 ≤ hole)
    (hn : hole ≤ s.actQueueLen) (h : Hole s.priorityAt s.actQueue s.actQueueLen hole)
    (below : Below s.priorityAt s.actQueue s.actQueueLen hole (s.priorityAt x)) :
    ActFilled s (s.flagged x) hole x (actQueuePercolateUp hole x s)
      (loggedActPercolateUp hole x s).log := by
  refine ⟨_, ?_, percolateUp_filled h1 hn short h below,
    (loggedActPercolateUp_inside hole x s).log⟩
  rw [actQueuePercolateUp, ssmAssert_of (by simp [h1, hn]), ok_bind, State.loadAct_of_mem live]
  rfl

theorem actDown_filled (small : s.actQueueLen < 2 ^ 15) (h1 : 1 ≤ hole)
    (hn : hole ≤ s.actQueueLen) (h : Hole s.priorityAt s.actQueue s.actQueueLen hole)
    (above : Above s.priorityAt s.actQueue hole (s.priorityAt x)) :
    ActFilled s s hole x (actQueuePercolateDown hole x s)
      (loggedActPercolateDown hole x s).log := by
  obtain ⟨q, run, filled⟩ := percolateDown_filled small h1 hn h above
  refine ⟨q, ?_, filled, (loggedActPercolateDown_inside small hole x).log⟩
  rw [actQueuePercolateDown, ssmAssert_of (by simp [h1, hn]), ok_bind, run]
  rfl

end Percolates

/-- `n` variables that await one time and `m` scheduled records of one priority. -/
def State.level (n m : Nat) : State where
  objs := ⟨Finset.Icc 1 n, fun _ => ⟨1, .sv { blankSv with laterTime := 7 }⟩⟩
  acts := ⟨Finset.Icc 1 m, fun _ => ⟨0, 0, 0, 0, 1, 0, true, []⟩⟩
  triggers := ⟨∅, fun _ => ⟨none, .triggersOf 0, 0⟩⟩
  eventQueue := id
  eventQueueLen := n
  actQueue := id
  actQueueLen := m
  now := 0
  numProcesses := 0

section Level
variable {n m : Nat}

theorem hole_of_level {key q : Nat → Nat} (level : ∀ a b, key a = key b) (hole : Nat) :
    Hole key q n hole :=
  ⟨fun _ _ _ _ _ => Nat.le_of_eq (level _ _), fun _ _ _ _ => Nat.le_of_eq (level _ _)⟩

/-- From the root down among `2 ^ 15` or more entries of one key. -/
theorem loggedDown_root {key : Nat → Nat} {x : Nat} (level : ∀ a b, key a = key b)
    (wide : 2 ^ 15 ≤ n) (q : Nat → Nat) :
    ⟨0, n⟩ ∈ (loggedDown key x n (n + 1) 1 q).log := by
  have enough : n + 1 = n - 15 + 15 + 1 := by omega
  rw [enough]
  exact loggedDown_zero level wide 15 (n - 15) (Nat.le_refl _) q

theorem not_inside_zero : ¬ (Slot.mk 0 n).Inside := fun inside =>
  Nat.not_succ_le_zero 0 inside.1

/-- Percolating the root of a long event queue down reads position 0. -/
theorem level_event_zero (wide : 2 ^ 15 ≤ n) (x : Addr) {s : State} (len : s.eventQueueLen = n)
    (level : ∀ a b, s.laterTimeAt a = s.laterTimeAt b) :
    ⟨0, n⟩ ∈ (loggedEventPercolateDown 1 x s).log := by
  have inside : decide (1 ≤ 1 ∧ 1 ≤ s.eventQueueLen) = true := by simp; omega
  have asserted := ssmAssert_of inside s
  subst len
  refine Logged.mem_log_bind ((Logged.result_silent _).trans asserted) ?_
  exact Logged.mem_log_left (loggedDown_root level wide _)

theorem level_act_zero (wide : 2 ^ 15 ≤ m) (x : ActPtr) {s : State} (len : s.actQueueLen = m)
    (level : ∀ a b, s.priorityAt a = s.priorityAt b) :
    ⟨0, m⟩ ∈ (loggedActPercolateDown 1 x s).log := by
  have inside : decide (1 ≤ 1 ∧ 1 ≤ s.actQueueLen) = true := by simp; omega
  have asserted := ssmAssert_of inside s
  subst len
  refine Logged.mem_log_bind ((Logged.result_silent _).trans asserted) ?_
  exact Logged.mem_log_left (loggedDown_root level wide _)

end Level

/-- Both queues percolate correctly at exactly the lengths below `2 ^ 15`. -/
theorem percolates_iff {n : Nat} (short : n < 2 ^ 16) :
    (EventPercolates n ↔ n < 2 ^ 15) ∧ (ActPercolates n ↔ n < 2 ^ 15) := by
  refine ⟨⟨fun fills => ?_, fun small => ?_⟩, fun fills => ?_, fun small => ?_⟩
  · by_contra long
    have wide : 2 ^ 15 ≤ n := Nat.le_of_not_lt long
    have level : ∀ a b, (State.level n 0).laterTimeAt a = (State.level n 0).laterTimeAt b :=
      fun _ _ => rfl
    obtain ⟨-, -, -, inside⟩ := fills.down (State.level n 0) 1 1 rfl (Nat.le_refl 1) (by omega)
      (hole_of_level level 1) (Or.inl rfl)
    exact not_inside_zero (inside _ (level_event_zero wide 1 rfl level))
  · refine ⟨fun s hole x len h2 hn h up => ?_, fun s hole x len h1 hn h down => ?_,
      fun s x len h1 h => ?_, fun s hole x more hn => ?_⟩
    · subst len
      exact eventUp_filled short (by omega) hn h (h.below_of_parent h2 up)
    · subst len
      exact eventDown_filled small h1 hn h (above_of_down down)
    · subst len
      exact eventUp_filled short h1 (Nat.le_refl _) h below_of_last
    · exact percolateUp_rounds _ _ _ _ (by rw [upRounds]; omega)
  · by_contra long
    have wide : 2 ^ 15 ≤ n := Nat.le_of_not_lt long
    have level : ∀ a b, (State.level 0 n).priorityAt a = (State.level 0 n).priorityAt b :=
      fun _ _ => rfl
    have live : 1 ∈ (State.level 0 n).acts.dom := Finset.mem_Icc.mpr ⟨Nat.le_refl 1, by omega⟩
    obtain ⟨-, -, -, inside⟩ := fills.down (State.level 0 n) 1 1 rfl live (Nat.le_refl 1)
      (by omega) (hole_of_level level 1) (Or.inl rfl)
    exact not_inside_zero (inside _ (level_act_zero wide 1 rfl level))
  · refine ⟨fun s hole x len live h2 hn h up => ?_, fun s hole x len live h1 hn h down => ?_,
      fun s x len live h1 h => ?_, fun s hole x more hn => ?_⟩
    · subst len
      exact actUp_filled short live (by omega) hn h (h.below_of_parent h2 up)
    · subst len
      exact actDown_filled small h1 hn h (above_of_down down)
    · subst len
      exact actUp_filled short live h1 (Nat.le_refl _) h below_of_last
    · exact percolateUp_rounds _ _ _ _ (by rw [upRounds]; omega)

theorem percolates_iff_seven : (EventPercolates 7 ↔ 7 < 2 ^ 15) ∧ (ActPercolates 7 ↔ 7 < 2 ^ 15) :=
  percolates_iff (by decide)

/-- At length `2 ^ 15` percolation reads position 0. -/
theorem not_percolates : ¬ ∀ n < 2 ^ 16, EventPercolates n ∧ ActPercolates n := by
  intro all
  have fills := (all (2 ^ 15) (by decide)).1
  have level : ∀ a b, (State.level (2 ^ 15) 0).laterTimeAt a =
      (State.level (2 ^ 15) 0).laterTimeAt b := fun _ _ => rfl
  obtain ⟨-, -, -, inside⟩ := fills.down (State.level (2 ^ 15) 0) 1 1 rfl (Nat.le_refl 1)
    (by decide) (hole_of_level level 1) (Or.inl rfl)
  exact not_inside_zero (inside _ (level_event_zero (Nat.le_refl _) 1 rfl level))

end SsmRuntime
