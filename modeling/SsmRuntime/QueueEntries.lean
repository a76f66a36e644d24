import SsmRuntime.Actions

/-!
How often a variable stands in the event queue. Its `later_time` is the key of
the entry and the mark that there is one; the two readings part where a call
schedules an idle variable for `SSM_NEVER` itself.
-/
namespace SsmRuntime

open BinaryHeap

/-- The variable is in the queue once if it has a pending event, else not at all. -/
def OneEntry (x : Addr) (s : State) : Prop :=
  ∀ v, s.sv? x = some v → s.queued.count x = if v.laterTime = ssmNever then 0 else 1

structure EntryOk (x : Addr) (s : State) : Prop where
  len_lt : s.eventQueueLen < 2 ^ 15
  one : OneEntry x s

theorem EventQueueOk.oneEntry {s : State} (ok : EventQueueOk s) (x : Addr) : OneEntry x s := by
  intro v hv
  split
  · rename_i never
    refine Multiset.count_eq_zero.mpr fun queued => ?_
    obtain ⟨w, hw, hne⟩ := (ok.mem x).mp queued
    rw [hv] at hw
    exact hne (Option.some.inj hw ▸ never)
  · rename_i hne
    exact Multiset.count_eq_one_of_mem ok.nodup ((ok.mem x).mpr ⟨v, hv, hne⟩)

section Keeps
variable {x a : Addr} {s t : State}

/-- Taking a variable out leaves the other entries of a queue. -/
theorem ssmUnschedule_entries (short : s.eventQueueLen < 2 ^ 15)
    (h : ssmUnschedule a s = .ok t) : t = s ∨
      ∃ v q n, s.sv? a = some v ∧ v.laterTime ≠ ssmNever ∧
        t = (s.setSv a { v with laterTime := ssmNever }).withQueue q n ∧
        s.eventQueueLen = n + 1 ∧ s.queued = a ::ₘ contents q n := by
  obtain ⟨v, loaded, h⟩ := bind_eq_ok.mp h
  split at h
  · exact Or.inl (Except.ok.inj h).symm
  · rename_i pending
    obtain ⟨hole, found, h⟩ := bind_eq_ok.mp h
    obtain ⟨-, h1, hn, hq⟩ := findQueuedEvent_eq_ok found
    obtain ⟨n, len⟩ : ∃ n, s.eventQueueLen = n + 1 := ⟨s.eventQueueLen - 1, by omega⟩
    have shrink : qIdx (s.eventQueueLen + 2 ^ 16 - 1) = n := qIdx_pred len (by omega)
    obtain ⟨q, filled, cont, -⟩ :=
      fillLast_spec (s := s.setSv a { v with laterTime := ssmNever }) (by omega) len h1
        (by omega) fun _ _ _ _ => rfl
    refine Or.inr ⟨v, q, n, State.loadSv_eq_ok.mp loaded, pending, ?_, len, hq ▸ cont⟩
    refine Except.ok.inj (h.symm.trans (Eq.trans ?_ filled))
    simp only [State.setSv_eventQueueLen, State.setSv_eventQueue, shrink]
    rw [len]
    rfl

theorem EntryOk.unschedule (ok : EntryOk x s) (h : ssmUnschedule a s = .ok t) : EntryOk x t := by
  rcases ssmUnschedule_entries ok.len_lt h with rfl | ⟨v, q, n, hv, pending, rfl, len, cont⟩
  · exact ok
  · have short := ok.len_lt
    refine ⟨by simp only [State.withQueue_eventQueueLen]; omega, fun w hw => ?_⟩
    rw [State.withQueue_sv?] at hw
    rw [queued_withQueue]
    by_cases hx : x = a
    · subst hx
      rw [State.sv?_setSv_self hv] at hw
      obtain rfl := Option.some.inj hw
      have before := ok.one v hv
      rw [if_neg pending, cont, Multiset.count_cons_self] at before
      rw [if_pos rfl]
      omega
    · rw [State.sv?_setSv_of_ne _ hx] at hw
      rw [← ok.one w hw, cont, Multiset.count_cons_of_ne hx]

/-- A count or a release changes no queue, and variables at most go away. -/
theorem dropKeeps_of_fewer {r : State → State → Prop} (k : BodyKeeps r)
    (fewer : ∀ {s t : State}, t.eventQueue = s.eventQueue → t.eventQueueLen = s.eventQueueLen →
      (∀ x v, t.sv? x = some v → s.sv? x = some v) → r s t) : DropKeeps r where
  toBodyKeeps := k
  count := fun {s a o} n loaded => fewer rfl rfl fun x v hv => by
    obtain ⟨-, rfl⟩ := State.loadObj_eq_ok.mp loaded
    obtain ⟨dom, body⟩ := State.sv?_eq_some.mp hv
    refine State.sv?_eq_some.mpr ⟨dom, ?_⟩
    by_cases hx : x = a
    · subst hx
      simpa [State.setObj] using body
    · rwa [State.setObj, Table.write_val_of_ne _ _ hx] at body
  release := fun s a => fewer rfl rfl fun x v hv => by
    obtain ⟨dom, body⟩ := State.sv?_eq_some.mp hv
    exact State.sv?_eq_some.mpr ⟨(Finset.mem_erase.mp dom).2, body⟩

theorem dropKeeps_entryOk (x : Addr) : DropKeeps fun s t => EntryOk x s → EntryOk x t :=
  dropKeeps_of_fewer
    { refl := fun _ => id
      trans := fun h k ok => k (h ok)
      unschedule := fun h ok => ok.unschedule h }
    fun {s t} queue len fewer ok => by
      refine ⟨len ▸ ok.len_lt, fun v hv => ?_⟩
      rw [State.queued, queue, len]
      exact ok.one v (fewer x v hv)

/-- A drop sets no time: what is still alive has its old time, or no event. -/
def LaterFades (x : Addr) (s t : State) : Prop :=
  ∀ w, t.sv? x = some w →
    ∃ v, s.sv? x = some v ∧ (w.laterTime = v.laterTime ∨ w.laterTime = ssmNever)

theorem LaterFades.unschedule (h : ssmUnschedule a s = .ok t) : LaterFades x s t := by
  rcases ssmUnschedule_eq_ok h with rfl | ⟨v, q, n, hv, rfl⟩
  · exact fun w hw => ⟨w, hw, Or.inl rfl⟩
  · intro w hw
    rw [State.withQueue_sv?] at hw
    by_cases hx : x = a
    · subst hx
      rw [State.sv?_setSv_self hv] at hw
      exact ⟨v, hv, Or.inr (Option.some.inj hw ▸ rfl)⟩
    · rw [State.sv?_setSv_of_ne _ hx] at hw
      exact ⟨w, hw, Or.inl rfl⟩

theorem dropKeeps_laterFades (x : Addr) : DropKeeps (LaterFades x) :=
  dropKeeps_of_fewer
    { refl := fun _ w hw => ⟨w, hw, Or.inl rfl⟩
      trans := fun {s t u} h k w hw => by
        obtain ⟨v, hv, late⟩ := k w hw
        obtain ⟨v', hv', early⟩ := h v hv
        refine ⟨v', hv', ?_⟩
        rcases late with same | never
        · rwa [same]
        · exact Or.inr never
      unschedule := .unschedule }
    fun _ _ fewer w hw => ⟨w, fewer x w hw, Or.inl rfl⟩

/-- Of the objects spared those that are left stand in the queue as often as before. -/
def Spares (P : Addr → Prop) (s t : State) : Prop :=
  s.eventQueueLen < 2 ^ 15 → t.eventQueueLen ≤ s.eventQueueLen ∧
    ∀ b, P b → b ∈ t.objs.dom → b ∈ s.objs.dom ∧ t.queued.count b = s.queued.count b

section Spares
variable {P Q : Addr → Prop}

theorem Spares.refl (P : Addr → Prop) (s : State) : Spares P s s :=
  fun _ => ⟨Nat.le_refl _, fun _ _ live => ⟨live, rfl⟩⟩

theorem Spares.trans {u : State} (h : Spares P s t) (k : Spares P t u) : Spares P s u := by
  intro short
  obtain ⟨len, first⟩ := h short
  obtain ⟨len', second⟩ := k (Nat.lt_of_le_of_lt len short)
  refine ⟨Nat.le_trans len' len, fun b hb live => ?_⟩
  obtain ⟨there, same'⟩ := second b hb live
  obtain ⟨here, same⟩ := first b hb there
  exact ⟨here, same'.trans same⟩

theorem Spares.mono (h : Spares P s t) (fewer : ∀ b, Q b → P b) : Spares Q s t :=
  fun short => ⟨(h short).1, fun b hb => (h short).2 b (fewer b hb)⟩

theorem Spares.unschedule (h : ssmUnschedule a s = .ok t) : Spares (· ≠ a) s t := by
  intro short
  rcases ssmUnschedule_entries short h with rfl | ⟨v, q, n, hv, -, rfl, len, cont⟩
  · exact Spares.refl _ t short
  · refine ⟨by simp only [State.withQueue_eventQueueLen]; omega, fun b hb live => ⟨live, ?_⟩⟩
    rw [queued_withQueue, cont, Multiset.count_cons_of_ne hb]

theorem Spares.dropBody {drop : Value → State → Res}
    (one : ∀ {v s t}, drop v s = .ok t → Spares (fun _ => True) s t) {body : Body}
    (h : dropBody drop a body s = .ok t) : Spares (· ≠ a) s t := by
  have most : ∀ {v s t}, drop v s = .ok t → Spares (· ≠ a) s t := fun dropped =>
    (one dropped).mono fun _ _ => trivial
  cases body with
  | sv _ =>
      obtain ⟨u, unscheduled, h⟩ := bind_eq_ok.mp h
      obtain ⟨v, -, h⟩ := bind_eq_ok.mp h
      obtain ⟨u', first, h⟩ := bind_eq_ok.mp h
      obtain ⟨w, -, h⟩ := bind_eq_ok.mp h
      have sofar := (Spares.unschedule unscheduled).trans (most first)
      split at h
      · exact Except.ok.inj h ▸ sofar
      · exact sofar.trans (most h)
  | time _ | adt _ _ | closure _ _ _ _ | array _ | blob _ =>
      exact ssmDropsWith_keeps (Spares.refl _) Spares.trans most _ h

/-- A drop takes out of the queue only what it frees. -/
theorem ssmDropWith_spares (fuel : Nat) {v : Value} (h : ssmDropWith fuel v s = .ok t) :
    Spares (fun _ => True) s t := by
  induction fuel generalizing v s t with
  | zero =>
      cases v with
      | packed n => exact Except.ok.inj h ▸ Spares.refl _ s
      | heap a => cases h
  | succ fuel ih =>
      cases v with
      | packed n => exact Except.ok.inj h ▸ Spares.refl _ s
      | heap a =>
          obtain ⟨o, loaded, h⟩ := bind_eq_ok.mp h
          have counted : ∀ o', Spares (fun _ => True) s (s.setObj a o') :=
            fun _ _ => ⟨Nat.le_refl _, fun _ _ live => ⟨live, rfl⟩⟩
          simp only at h
          split at h
          · obtain ⟨o', -, h⟩ := bind_eq_ok.mp h
            obtain ⟨u, dropped, h⟩ := bind_eq_ok.mp h
            cases h
            intro short
            obtain ⟨len, same⟩ := Spares.dropBody ih dropped short
            refine ⟨len, fun b _ live => ?_⟩
            obtain ⟨hb, there⟩ := Finset.mem_erase.mp live
            exact same b hb there
          · exact Except.ok.inj h ▸ counted _

end Spares

end Keeps

section Calls
variable {sizes : SafeSizes} {x var : Addr} {when : Nat} {val : Value} {s t : State}

/-- Scheduling an idle variable adds one entry, whatever the time. -/
theorem laterIdle_entries {v : Sv} (ok : EntryOk x s) (hv : s.sv? var = some v)
    (idle : v.laterTime = ssmNever) (h : ssmSvLaterUnsafe sizes var when val s = .ok t) :
    t.eventQueueLen < 2 ^ 15 ∧ (OneEntry x t ↔ (var = x → when ≠ ssmNever)) := by
  have safe := sizes.event_lt
  have short := ok.len_lt
  have early : s.now ≤ when := by
    by_contra late
    rw [ssmSvLaterUnsafe, if_pos (by omega)] at h
    cases h
  have room : s.eventQueueLen < sizes.event := by
    by_contra full
    rw [ssmSvLaterUnsafe, if_neg (by omega), State.loadSv_of_sv? hv, ok_bind, if_pos idle] at h
    simp only [State.setSv_eventQueueLen, qIdx_of_lt (show s.eventQueueLen + 1 < 2 ^ 16 by omega)]
      at h
    rw [if_pos (by omega)] at h
    cases h
  obtain ⟨q, run, cont, -⟩ := ssmSvLaterUnsafe_insert val safe hv idle early room
  obtain rfl := Except.ok.inj (run.symm.trans h)
  refine ⟨by simp only [State.withQueue_eventQueueLen]; omega, ?_⟩
  unfold OneEntry
  rw [queued_withQueue, cont]
  by_cases hx : x = var
  · subst hx
    have before := ok.one v hv
    rw [if_pos idle] at before
    rw [Multiset.count_cons_self, before, State.withQueue_sv?, State.sv?_setSv_self hv]
    constructor
    · intro one _ never
      have := one _ rfl
      simp [never] at this
    · rintro keyed w ⟨⟩
      exact (if_neg (keyed rfl)).symm
  · rw [Multiset.count_cons_of_ne hx, State.withQueue_sv?, State.sv?_setSv_of_ne _ hx]
    exact iff_of_true ok.one fun same => absurd same.symm hx

/-- Scheduling a pending variable again moves its entry. -/
theorem laterPending_entries {v : Sv} (ok : EntryOk x s) (hv : s.sv? var = some v)
    (pending : v.laterTime ≠ ssmNever) (h : ssmSvLaterUnsafe sizes var when val s = .ok t) :
    EntryOk x t ∧ when ≠ ssmNever := by
  unfold ssmSvLaterUnsafe at h
  split at h
  · cases h
  · rw [State.loadSv_of_sv? hv, ok_bind] at h
    simp only [if_neg pending] at h
    obtain ⟨u, dropped, h⟩ := bind_eq_ok.mp h
    obtain ⟨hole, found, h⟩ := bind_eq_ok.mp h
    obtain ⟨p, placed, h⟩ := bind_eq_ok.mp h
    obtain ⟨w, again, h⟩ := bind_eq_ok.mp h
    obtain ⟨keyed, h1, hn, hq⟩ := findQueuedEvent_eq_ok found
    have here : u.sv? var = some w := by
      obtain ⟨q, rfl⟩ := eventQueuePlace_eq_ok placed
      have kept := State.loadSv_eq_ok.mp again
      rwa [State.withQueue_sv?] at kept
    have time : u.laterTimeAt var = when := by
      obtain ⟨v', hv', fades⟩ := (dropKeeps_laterFades var).dropWith _ dropped w here
      rw [State.sv?_setSv_self hv] at hv'
      obtain rfl := Option.some.inj hv'
      rw [State.laterTimeAt_of_sv? here] at keyed ⊢
      exact fades.resolve_right keyed
    have when_ne : when ≠ ssmNever := time ▸ keyed
    have marked : EntryOk x (s.setSv var { v with laterTime := when }) := by
      refine ⟨ok.len_lt, fun v' hv' => ?_⟩
      by_cases hx : x = var
      · subst hx
        rw [State.sv?_setSv_self hv] at hv'
        obtain rfl := Option.some.inj hv'
        rw [if_neg when_ne]
        exact (ok.one v hv).trans (if_neg pending)
      · rw [State.sv?_setSv_of_ne _ hx] at hv'
        exact ok.one v' hv'
    have kept := (dropKeeps_entryOk x).dropWith _ dropped marked
    obtain ⟨q, run, same, -⟩ := eventQueuePlace_spec kept.len_lt h1 hn time
    obtain rfl := Except.ok.inj (run.symm.trans placed)
    cases h
    rw [← hq, Function.update_eq_self] at same
    refine ⟨⟨kept.len_lt, fun w' hw' => ?_⟩, when_ne⟩
    rw [State.withQueue_setSv, State.withQueue_sv?] at hw'
    rw [State.withQueue_setSv, queued_withQueue, same]
    by_cases hx : x = var
    · subst hx
      rw [State.sv?_setSv_self here] at hw'
      obtain rfl := Option.some.inj hw'
      exact kept.one w here
    · rw [State.sv?_setSv_of_ne _ hx] at hw'
      exact kept.one w' hw'

end Calls

inductive QueueCall where
  | later (var : Addr) (when : Nat) (val : Value)
  | unschedule (var : Addr)

namespace QueueCall

def exec (sizes : QueueSizes) : QueueCall → State → Res
  | later var when val, s => ssmSvLaterUnsafe sizes var when val s
  | unschedule var, s => ssmUnschedule var s

/-- A call that does not schedule the variable for `SSM_NEVER`. -/
def KeyedFor (x : Addr) : QueueCall → Prop
  | later var when _ => var = x → when ≠ ssmNever
  | unschedule _ => True

theorem exec_entries {sizes : SafeSizes} {x : Addr} {s t : State} (c : QueueCall)
    (ok : EntryOk x s) (h : c.exec sizes s = .ok t) :
    t.eventQueueLen < 2 ^ 15 ∧ (OneEntry x t ↔ c.KeyedFor x) := by
  cases c with
  | unschedule var =>
      have kept := ok.unschedule h
      exact ⟨kept.len_lt, iff_of_true kept.one trivial⟩
  | later var when val =>
      have live : ∃ v, s.sv? var = some v := by
        obtain ⟨v, -, -, -, -, hv, -⟩ := ssmSvLaterUnsafe_eq_ok h
        exact ⟨v, hv⟩
      obtain ⟨v, hv⟩ := live
      by_cases idle : v.laterTime = ssmNever
      · exact laterIdle_entries ok hv idle h
      · obtain ⟨kept, hne⟩ := laterPending_entries ok hv idle h
        exact ⟨kept.len_lt, iff_of_true kept.one fun _ => hne⟩

end QueueCall

def runQueueCalls (sizes : QueueSizes) : List QueueCall → State → Res
  | [], s => .ok s
  | c :: cs, s => do
      let s ← c.exec sizes s
      runQueueCalls sizes cs s

/-- A property holds after each call of a list, as far as the calls return. -/
def AfterEach (sizes : QueueSizes) (P : State → Prop) : List QueueCall → State → Prop
  | [], _ => True
  | c :: cs, s => ∀ t, c.exec sizes s = .ok t → P t ∧ AfterEach sizes P cs t

/-- In a run of accepted calls a variable keeps one entry or none, as its time
says, exactly if no call schedules it for `SSM_NEVER`. -/
theorem oneEntry_afterEach_iff {sizes : SafeSizes} {x : Addr} {s t : State} {calls : List QueueCall}
    (ok : EventQueueOk s) (accepted : runQueueCalls sizes calls s = .ok t) :
    AfterEach sizes (OneEntry x) calls s ↔ ∀ c ∈ calls, c.KeyedFor x := by
  have start : EntryOk x s := ⟨ok.len_lt, ok.oneEntry x⟩
  clear ok
  induction calls generalizing s with
  | nil => simp [AfterEach]
  | cons c cs ih =>
      obtain ⟨u, first, rest⟩ := bind_eq_ok.mp accepted
      obtain ⟨short, exact⟩ := c.exec_entries start first
      rw [List.forall_mem_cons, ← exact, AfterEach]
      constructor
      · intro each
        obtain ⟨one, later⟩ := each u first
        exact ⟨one, (ih rest ⟨short, one⟩).mp later⟩
      · rintro ⟨one, keyed⟩ u' again
        obtain rfl := Except.ok.inj (first.symm.trans again)
        exact ⟨one, (ih rest ⟨short, one⟩).mpr keyed⟩

def twoVars : State := State.idle {1, 2} ∅ (fun _ => ⟨0, 0, 0, 0, 0, 0, false, []⟩) ∅ fun _ => 0

theorem twoVars_ok : EventQueueOk twoVars :=
  (State.idle_wellFormed defaultSizes _ _ _ _ _).queue

theorem oneEntry_afterEach_iff_moved :
    AfterEach defaultSafeSizes (OneEntry 1)
        [.later 1 9 (.packed 3), .later 2 4 (.packed 5), .later 1 2 (.packed 7), .unschedule 1]
        twoVars ↔
      ∀ c ∈ [QueueCall.later 1 9 (.packed 3), .later 2 4 (.packed 5), .later 1 2 (.packed 7),
        .unschedule 1], c.KeyedFor 1 := by
  have ends : (runQueueCalls defaultSafeSizes [.later 1 9 (.packed 3), .later 2 4 (.packed 5),
      .later 1 2 (.packed 7), .unschedule 1] twoVars).toOption.isSome = true := by decide +kernel
  obtain ⟨t, run⟩ := Option.isSome_iff_exists.mp ends
  exact oneEntry_afterEach_iff twoVars_ok (ok_of_toOption run)

/-- An idle variable scheduled for `SSM_NEVER` is in the queue, and its time says it is not. -/
theorem not_oneEntry_afterEach : ¬ ∀ s t calls, EventQueueOk s →
    runQueueCalls defaultSafeSizes calls s = .ok t →
      AfterEach defaultSafeSizes (OneEntry 1) calls s := by
  intro all
  have ends : (runQueueCalls defaultSafeSizes [.later 1 ssmNever (.packed 3)] twoVars).toOption.any
      (fun t => (t.sv? 1).any (fun v => v.laterTime = ssmNever) ∧ t.queued.count 1 = 1) = true := by
    decide +kernel
  obtain ⟨t, run, phantom⟩ := (Option.any_eq_true _ _).mp ends
  obtain ⟨never, once⟩ := of_decide_eq_true phantom
  obtain ⟨v, hv, unset⟩ := (Option.any_eq_true _ _).mp never
  have accepted := ok_of_toOption run
  obtain ⟨u, first, rest⟩ := bind_eq_ok.mp accepted
  obtain rfl := Except.ok.inj rest
  have one := (all twoVars u _ twoVars_ok accepted u first).1 v hv
  rw [if_pos (of_decide_eq_true unset), once] at one
  cases one

end SsmRuntime
