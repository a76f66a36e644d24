import SsmRuntime.Library.BinaryHeap
import SsmRuntime.State

/-!
The two binary heaps of the scheduler, as its loops compute them on 16-bit
indices. The loops are shared: each queue supplies its key. A walk down that
does not end within the length of the queue has no result.
-/
namespace SsmRuntime

open BinaryHeap

/-- `q_idx_t`. -/
def qIdx (n : Nat) : Nat := n % 2 ^ 16

theorem qIdx_of_lt {n : Nat} (h : n < 2 ^ 16) : qIdx n = n := Nat.mod_eq_of_lt h

theorem qIdx_pred {len n : Nat} (succ : len = n + 1) (short : len < 2 ^ 16) :
    qIdx (len + 2 ^ 16 - 1) = n := by
  unfold qIdx
  omega

def percolateUp (key : Nat → Nat) (x : Nat) : Nat → Nat → (Nat → Nat) → Nat → Nat
  | 0, hole, q => Function.update q hole x
  | fuel + 1, hole, q =>
      if 1 < hole ∧ key x < key (q (hole / 2)) then
        percolateUp key x fuel (hole / 2) (Function.update q hole (q (hole / 2)))
      else Function.update q hole x

/-- The earlier of the two children of a position, given the left one. -/
def earlierChild (key : Nat → Nat) (q : Nat → Nat) (len left : Nat) : Nat :=
  if left + 1 ≤ len ∧ key (q (left + 1)) < key (q left) then qIdx (left + 1) else left

def percolateDown (key : Nat → Nat) (x len : Nat) :
    Nat → Nat → (Nat → Nat) → Option (Nat → Nat)
  | 0, _, _ => none
  | fuel + 1, hole, q =>
      let left := qIdx (2 * hole)
      if len < left then some (Function.update q hole x)
      else
        let child := earlierChild key q len left
        if key x < key (q child) then some (Function.update q hole x)
        else percolateDown key x len fuel child (Function.update q hole (q child))

/-- A 16-bit index is halved to nothing in sixteen rounds. -/
def upRounds : Nat := 16

def actQueuePercolateUp (hole : Nat) (act : ActPtr) (s : State) : Res := do
  let s ← ssmAssert (1 ≤ hole ∧ hole ≤ s.actQueueLen) s
  let q := percolateUp s.priorityAt act upRounds hole s.actQueue
  let a ← s.loadAct act
  .ok { s.setAct act { a with scheduled := true } with actQueue := q }

def actQueuePercolateDown (hole : Nat) (act : ActPtr) (s : State) : Res := do
  let s ← ssmAssert (1 ≤ hole ∧ hole ≤ s.actQueueLen) s
  match percolateDown s.priorityAt act s.actQueueLen (s.actQueueLen + 1) hole s.actQueue with
  | some q => .ok { s with actQueue := q }
  | none => .error ⟨.diverges, s⟩

def eventQueuePercolateUp (hole : Nat) (var : Addr) (s : State) : Res := do
  let s ← ssmAssert (1 ≤ hole ∧ hole ≤ s.eventQueueLen) s
  .ok { s with eventQueue := percolateUp s.laterTimeAt var upRounds hole s.eventQueue }

def eventQueuePercolateDown (hole : Nat) (event : Addr) (s : State) : Res := do
  let s ← ssmAssert (1 ≤ hole ∧ hole ≤ s.eventQueueLen) s
  match percolateDown s.laterTimeAt event s.eventQueueLen (s.eventQueueLen + 1) hole
      s.eventQueue with
  | some q => .ok { s with eventQueue := q }
  | none => .error ⟨.diverges, s⟩

/-- The loop index of `find_queued_event` has 16 bits, so that at a length of
`2 ^ 16 - 1` it wraps and a search without result goes on; here it ends. -/
def findQueuedEvent (var : Addr) (s : State) : Except Stop Nat := do
  let s ← ssmAssert (s.laterTimeAt var ≠ ssmNever) s
  match (List.range' 1 s.eventQueueLen).find? (fun i => s.eventQueue i == var) with
  | some i => .ok i
  | none => ssmThrow .internalError s

/-- Up or down: the choice made where an entry of the given time fills a hole. -/
def eventQueuePlace (hole : Nat) (var : Addr) (time : Nat) (s : State) : Res :=
  if hole = 1 ∨ s.laterTimeAt (s.eventQueue (hole / 2)) < time then
    eventQueuePercolateDown hole var s
  else eventQueuePercolateUp hole var s

def ssmUnschedule (var : Addr) (s : State) : Res := do
  let v ← s.loadSv var
  if v.laterTime = ssmNever then .ok s
  else
    let hole ← findQueuedEvent var s
    let s := s.setSv var { v with laterTime := ssmNever }
    let movedVar := s.eventQueue s.eventQueueLen
    let s := { s with eventQueueLen := qIdx (s.eventQueueLen + 2 ^ 16 - 1) }
    if hole < 1 + s.eventQueueLen then
      eventQueuePlace hole movedVar (s.laterTimeAt movedVar) s
    else .ok s

def ssmNextEventTime (s : State) : Nat :=
  if s.eventQueueLen = 0 then ssmNever else s.laterTimeAt (s.eventQueue 1)

section Returned
variable {s t : State} {hole : Nat} {var : Addr}

theorem eventQueuePercolateUp_eq_ok (h : eventQueuePercolateUp hole var s = .ok t) :
    ∃ q, t = s.withQueue q s.eventQueueLen := by
  obtain ⟨u, asserted, h⟩ := bind_eq_ok.mp h
  rw [ssmAssert_eq_ok asserted] at h
  exact ⟨_, (Except.ok.inj h).symm⟩

theorem eventQueuePercolateDown_eq_ok (h : eventQueuePercolateDown hole var s = .ok t) :
    ∃ q, t = s.withQueue q s.eventQueueLen := by
  obtain ⟨u, asserted, h⟩ := bind_eq_ok.mp h
  rw [ssmAssert_eq_ok asserted] at h
  split at h
  · exact ⟨_, (Except.ok.inj h).symm⟩
  · cases h

theorem eventQueuePlace_eq_ok {time : Nat} (h : eventQueuePlace hole var time s = .ok t) :
    ∃ q, t = s.withQueue q s.eventQueueLen := by
  unfold eventQueuePlace at h
  split at h
  · exact eventQueuePercolateDown_eq_ok h
  · exact eventQueuePercolateUp_eq_ok h

theorem findQueuedEvent_eq_ok (h : findQueuedEvent var s = .ok hole) :
    s.laterTimeAt var ≠ ssmNever ∧ 1 ≤ hole ∧ hole ≤ s.eventQueueLen ∧
      s.eventQueue hole = var := by
  obtain ⟨u, asserted, h⟩ := bind_eq_ok.mp h
  have keyed : s.laterTimeAt var ≠ ssmNever := by
    intro never
    simp [ssmAssert, ssmThrow, never] at asserted
  rw [ssmAssert_eq_ok asserted] at h
  split at h
  · rename_i i found
    obtain rfl : i = hole := Except.ok.inj h
    have range := List.mem_of_find?_eq_some found
    have same := List.find?_some found
    simp only [List.mem_range'_1] at range
    exact ⟨keyed, range.1, by omega, by simpa using same⟩
  · cases h

/-- Unscheduling writes the variable and the event queue, nothing else. -/
theorem ssmUnschedule_eq_ok (h : ssmUnschedule var s = .ok t) :
    t = s ∨ ∃ v q n, s.sv? var = some v ∧
      t = (s.setSv var { v with laterTime := ssmNever }).withQueue q n := by
  obtain ⟨v, loaded, h⟩ := bind_eq_ok.mp h
  split at h
  · exact Or.inl (Except.ok.inj h).symm
  · obtain ⟨hole, -, h⟩ := bind_eq_ok.mp h
    extract_lets cleared moved shrunk at h
    have filled : ∃ q, t = shrunk.withQueue q shrunk.eventQueueLen := by
      split at h
      · exact eventQueuePlace_eq_ok h
      · exact ⟨shrunk.eventQueue, (Except.ok.inj h).symm⟩
    obtain ⟨q, filled⟩ := filled
    rw [filled]
    exact Or.inr ⟨v, q, shrunk.eventQueueLen, State.loadSv_eq_ok.mp loaded,
      State.withQueue_withQueue cleared cleared.eventQueue q _ _⟩

end Returned

section Percolate
variable {key : Nat → Nat} {x : Nat}

/-- The root stays where it is unless the new entry is strictly earlier. -/
theorem percolateUp_root (fuel hole : Nat) (q : Nat → Nat) (h2 : 2 ≤ hole)
    (hk : key (q 1) ≤ key x) : percolateUp key x fuel hole q 1 = q 1 := by
  induction fuel generalizing hole q with
  | zero => exact Function.update_of_ne (by omega) _ _
  | succ fuel ih =>
      have here : ∀ y, Function.update q hole y 1 = q 1 :=
        fun y => Function.update_of_ne (by omega) _ _
      simp only [percolateUp]
      split
      · rename_i c
        have deeper : 2 ≤ hole / 2 := by
          by_contra shallow
          have one : hole / 2 = 1 := by omega
          rw [one] at c
          omega
        rw [ih (hole / 2) _ deeper (by rw [here]; exact hk), here]
      · exact here x

theorem contents_percolateUp (fuel hole n : Nat) (q : Nat → Nat) (h1 : 1 ≤ hole)
    (hn : hole ≤ n) :
    contents (percolateUp key x fuel hole q) n = contents (Function.update q hole x) n := by
  induction fuel generalizing hole q with
  | zero => rfl
  | succ fuel ih =>
      simp only [percolateUp]
      split
      · rename_i c
        rw [ih (hole / 2) _ (by omega) (by omega)]
        exact contents_move x h1 hn (by omega) (by omega) (by omega)
      · rfl

theorem percolateUp_ordered (fuel hole n : Nat) (q : Nat → Nat) (h1 : 1 ≤ hole)
    (hn : hole ≤ n) (enough : hole < 2 ^ fuel) (h : Hole key q n hole)
    (below : Below key q n hole (key x)) :
    Ordered key (percolateUp key x fuel hole q) n := by
  induction fuel generalizing hole q with
  | zero => omega
  | succ fuel ih =>
      simp only [percolateUp]
      split
      · rename_i c
        exact ih (hole / 2) _ (by omega) (by omega) (by omega) (h.moveUp c.1 hn)
          (h.below_moveUp c.1 (key x) c.2)
      · rename_i c
        refine h.fill x h1 (fun h2 => ?_) below
        by_contra later
        exact c ⟨h2, by omega⟩

theorem earlierChild_spec (key q : Nat → Nat) {len hole : Nat} (small : len < 2 ^ 15)
    (hl : 2 * hole ≤ len) (h1 : 1 ≤ hole) :
    earlierChild key q len (2 * hole) / 2 = hole ∧ earlierChild key q len (2 * hole) ≤ len ∧
      2 ≤ earlierChild key q len (2 * hole) ∧
      ∀ d, 2 ≤ d → d / 2 = hole → d ≤ len →
        key (q (earlierChild key q len (2 * hole))) ≤ key (q d) := by
  unfold earlierChild
  split
  · rename_i c
    rw [qIdx_of_lt (by omega)]
    refine ⟨by omega, c.1, by omega, fun d _ hd _ => ?_⟩
    have two : d = 2 * hole ∨ d = 2 * hole + 1 := by omega
    rcases two with rfl | rfl
    · exact Nat.le_of_lt c.2
    · exact Nat.le_refl _
  · rename_i c
    refine ⟨by omega, hl, by omega, fun d _ hd hn => ?_⟩
    have two : d = 2 * hole ∨ d = 2 * hole + 1 := by omega
    rcases two with rfl | rfl
    · exact Nat.le_refl _
    · by_contra later
      exact c ⟨hn, by omega⟩

/-- A walk down from inside the queue ends, keeps the contents and touches
nothing before the hole; from a hole it leaves a heap. -/
theorem percolateDown_spec (key : Nat → Nat) (x fuel hole len : Nat) (q : Nat → Nat)
    (small : len < 2 ^ 15)
    (h1 : 1 ≤ hole) (hn : hole ≤ len) (enough : len < hole * 2 ^ fuel) :
    ∃ q', percolateDown key x len fuel hole q = some q' ∧
      contents q' len = contents (Function.update q hole x) len ∧
      (∀ i, i < hole ∨ len < i → q' i = q i) ∧
      (Hole key q len hole → Above key q hole (key x) → Ordered key q' len) := by
  induction fuel generalizing hole q with
  | zero => omega
  | succ fuel ih =>
      have other : ∀ y i, i < hole ∨ len < i → Function.update q hole y i = q i :=
        fun y i hi => Function.update_of_ne (by omega) _ _
      simp only [percolateDown]
      rw [qIdx_of_lt (by omega)]
      split
      · refine ⟨_, rfl, rfl, other x, fun h above => h.fill x h1 above ?_⟩
        intro c _ hc hcn
        omega
      · rename_i leaf
        obtain ⟨hc, hcn, hc2, least⟩ :=
          earlierChild_spec key q small (by omega) h1
        generalize earlierChild key q len (2 * hole) = child at hc hcn hc2 least
        split
        · rename_i stop
          refine ⟨_, rfl, rfl, other x, fun h above => h.fill x h1 above ?_⟩
          intro d hd2 hd hdn
          have := least d hd2 hd hdn
          omega
        · rename_i go
          have wide : len < child * 2 ^ fuel := by
            have double : 2 * hole ≤ child := by omega
            have := Nat.mul_le_mul_right (2 ^ fuel) double
            rw [Nat.pow_succ] at enough
            calc len < hole * (2 ^ fuel * 2) := enough
              _ = 2 * hole * 2 ^ fuel := by
                rw [Nat.mul_comm (2 ^ fuel) 2, ← Nat.mul_assoc, Nat.mul_comm hole 2]
              _ ≤ child * 2 ^ fuel := this
          obtain ⟨q', run, same, frame, order⟩ :=
            ih child (Function.update q hole (q child)) (by omega) hcn wide
          refine ⟨q', run, ?_, ?_, ?_⟩
          · rw [same]
            exact contents_move x h1 hn (by omega) hcn (by omega)
          · intro i hi
            rw [frame i (by omega), other _ i hi]
          · intro h above
            exact order (h.moveDown h1 hc hcn least) (above_moveDown hc (by omega))

end Percolate

end SsmRuntime
