import SsmRuntime.ActRuns

/-!
What is read of the objects is kept: the calls that neither allocate an object
nor apply a closure write variables and counts only, so a reading that does not
look into variables is as before for every object that is still there.
-/
namespace SsmRuntime

/-- The objects that are still there read as before. -/
def SameRead {β : Type} (r : Body → β) (s t : State) : Prop :=
  ∀ a ∈ t.objs.dom, a ∈ s.objs.dom ∧ r (t.objs.val a).body = r (s.objs.val a).body

/-- A reading that does not look into variables. -/
def Blind {β : Type} (r : Body → β) : Prop := ∀ v w, r (.sv v) = r (.sv w)

/-- The calls that neither allocate an object nor apply a closure. -/
def Call.keepsObjects : Call → Prop
  | newTime _ _ | newAdt _ _ _ | newSv _ _ | newClosure _ _ _ | newArray _ _ | newBlob _ _
  | closureApply _ _ _ _ _ _ _ | closureApplyFinal _ _ _ _ _ _ => False
  | _ => True

section SameRead
variable {β : Type} {r : Body → β} {s t u : State}

theorem SameRead.refl (s : State) : SameRead r s s := fun _ ha => ⟨ha, rfl⟩

theorem SameRead.trans (h : SameRead r s t) (k : SameRead r t u) : SameRead r s u := by
  intro a ha
  obtain ⟨hb, same⟩ := k a ha
  exact ⟨(h a hb).1, same.trans (h a hb).2⟩

theorem SameRead.of_objs (objs : t.objs = s.objs) : SameRead r s t := fun a ha => by
  rw [objs] at ha ⊢
  exact ⟨ha, rfl⟩

theorem sameRead_of_ok (h : (.ok s : Res) = .ok t) : SameRead r s t :=
  Except.ok.inj h ▸ SameRead.refl s

theorem setObj_sameRead {a : Addr} {o : Obj}
    (same : r o.body = r (s.objs.val a).body) : SameRead r s (s.setObj a o) := by
  intro b hb
  refine ⟨hb, ?_⟩
  by_cases hba : b = a
  · subst hba
    rw [State.setObj, Table.write_val_self]
    exact same
  · rw [State.setObj, Table.write_val_of_ne _ _ hba]

theorem ssmDup_sameRead {v : Value} (h : ssmDup v s = .ok t) : SameRead r s t := by
  cases v with
  | packed n => exact sameRead_of_ok h
  | heap a =>
      obtain ⟨o, loaded, h⟩ := bind_eq_ok.mp h
      cases h
      obtain ⟨-, rfl⟩ := State.loadObj_eq_ok.mp loaded
      exact setObj_sameRead rfl

theorem ssmDups_sameRead (vs : List Value) (h : ssmDups vs s = .ok t) : SameRead r s t := by
  induction vs generalizing s with
  | nil => exact sameRead_of_ok h
  | cons v vs ih =>
      obtain ⟨u, one, rest⟩ := bind_eq_ok.mp h
      exact (ssmDup_sameRead one).trans (ih rest)

theorem tickRemoveTop_sameRead (h : tickRemoveTop s = .ok t) : SameRead r s t := by
  obtain ⟨q, n, rfl⟩ := tickRemoveTop_eq_ok h
  exact .of_objs rfl

theorem ssmSetNow_sameRead {next : Nat} (h : ssmSetNow next s = .ok t) :
    SameRead r s t := by
  obtain ⟨-, -, rfl⟩ := ssmSetNow_eq_ok h
  exact .of_objs rfl

theorem tickEnter_sameRead (h : tickEnter s = .ok t) : SameRead r s t := by
  obtain rfl | moved := tickEnter_eq_ok h
  · exact SameRead.refl t
  · exact ssmSetNow_sameRead moved

section Blind
variable (blind : Blind r)
include blind

theorem setSv_sameRead {var : Addr} {v : Sv} (hv : s.sv? var = some v) (w : Sv) :
    SameRead r s (s.setSv var w) := by
  refine setObj_sameRead ?_
  rw [(State.sv?_eq_some.mp hv).2]
  exact blind w v

theorem ssmUnschedule_sameRead {var : Addr} (h : ssmUnschedule var s = .ok t) :
    SameRead r s t := by
  obtain rfl | ⟨v, q, n, hv, rfl⟩ := ssmUnschedule_eq_ok h
  · exact SameRead.refl t
  · exact (setSv_sameRead blind hv _).trans (.of_objs rfl)

theorem dropKeeps_sameRead : DropKeeps (SameRead r) where
  refl := SameRead.refl
  trans := SameRead.trans
  count := fun _ loaded => by
    obtain ⟨-, rfl⟩ := State.loadObj_eq_ok.mp loaded
    exact setObj_sameRead rfl
  unschedule := ssmUnschedule_sameRead blind
  release := fun _ _ _ live => ⟨Finset.mem_of_mem_erase live, rfl⟩

theorem ssmDrop_sameRead {v : Value} (h : ssmDrop v s = .ok t) : SameRead r s t :=
  (dropKeeps_sameRead blind).dropWith _ h

theorem ssmSvLaterUnsafe_sameRead {sizes : QueueSizes} {var : Addr} {when : Nat}
    {val : Value} (h : ssmSvLaterUnsafe sizes var when val s = .ok t) : SameRead r s t := by
  obtain ⟨v, w, u, q, n, hv, before, hw, rfl⟩ := ssmSvLaterUnsafe_eq_ok h
  have timed := setSv_sameRead blind hv { v with laterTime := when }
  have dropped : SameRead r s u := by
    obtain rfl | dropped := before
    · exact timed
    · exact timed.trans (ssmDrop_sameRead blind dropped)
  exact (dropped.trans (setSv_sameRead blind hw _)).trans (.of_objs rfl)

theorem ssmSvAssignUnsafe_sameRead {sizes : QueueSizes} {var : Addr} {prio : Nat}
    {val : Value} (h : ssmSvAssignUnsafe sizes var prio val s = .ok t) : SameRead r s t := by
  obtain ⟨v, loaded, h⟩ := bind_eq_ok.mp h
  have hv := State.loadSv_eq_ok.mp loaded
  exact (setSv_sameRead blind hv _).trans (.of_objs (wake_sameHeap _ _ h).objs)

theorem ssmAssign_sameRead {sizes : QueueSizes} {var : Addr} {prio : Nat} {val : Value}
    (h : ssmAssign sizes var prio val s = .ok t) : SameRead r s t := by
  obtain ⟨u, dup, h⟩ := bind_eq_ok.mp h
  obtain ⟨v, -, h⟩ := bind_eq_ok.mp h
  obtain ⟨u', dropped, h⟩ := bind_eq_ok.mp h
  exact ((ssmDup_sameRead dup).trans (ssmDrop_sameRead blind dropped)).trans
    (ssmSvAssignUnsafe_sameRead blind h)

theorem ssmUpdate_sameRead {sizes : QueueSizes} {sv : Addr}
    (h : ssmUpdate sizes sv s = .ok t) : SameRead r s t := by
  obtain ⟨v, -, h⟩ := bind_eq_ok.mp h
  split at h
  · cases h
  · obtain ⟨u, dropped, h⟩ := bind_eq_ok.mp h
    obtain ⟨w, loaded, h⟩ := bind_eq_ok.mp h
    have hw := State.loadSv_eq_ok.mp loaded
    exact ((ssmDrop_sameRead blind dropped).trans (setSv_sameRead blind hw _)).trans
      (.of_objs (wake_sameHeap _ _ h).objs)

theorem ssmSvSensitize_sameRead {var : Addr} {trig : TriggerPtr}
    (h : ssmSvSensitize var trig s = .ok t) : SameRead r s t := by
  obtain ⟨v, triggers, hv, rfl⟩ := ssmSvSensitize_eq_ok h
  exact (setSv_sameRead blind hv _).trans (.of_objs rfl)

theorem ssmSvDesensitize_sameRead {trig : TriggerPtr}
    (h : ssmSvDesensitize trig s = .ok t) : SameRead r s t := by
  obtain ⟨triggers, rfl⟩ | ⟨var, v, first, triggers, hv, rfl⟩ := ssmSvDesensitize_eq_ok h
  · exact .of_objs rfl
  · exact (setSv_sameRead blind hv _).trans (.of_objs rfl)

theorem Call.sameRead {sizes : QueueSizes} {c : Call} (keeps : c.keepsObjects)
    (done : c.exec sizes s = .ok t) : SameRead r s t := by
  cases c with
  | newTime _ _ | newAdt _ _ _ | newSv _ _ | newClosure _ _ _ | newArray _ _ | newBlob _ _
  | closureApply _ _ _ _ _ _ _ | closureApplyFinal _ _ _ _ _ _ => exact keeps.elim
  | dup v => exact ssmDup_sameRead done
  | drop v => exact ssmDrop_sameRead blind done
  | assign var prio val => exact ssmAssign_sameRead blind done
  | later var when val =>
      obtain ⟨u, dup, rest⟩ := bind_eq_ok.mp done
      exact (ssmDup_sameRead dup).trans (ssmSvLaterUnsafe_sameRead blind rest)
  | unschedule var => exact ssmUnschedule_sameRead blind done
  | sensitize var trig => exact ssmSvSensitize_sameRead blind done
  | desensitize trig => exact ssmSvDesensitize_sameRead blind done
  | enter child step parent prio depth frame => exact .of_objs (ssmEnterInt_sameHeap done).objs
  | activate act => exact .of_objs (ssmActivate_sameHeap done).objs
  | setNow next => exact ssmSetNow_sameRead done
  | tickEnter => exact tickEnter_sameRead done
  | tickUpdate =>
      obtain ⟨u, updated, removed⟩ := bind_eq_ok.mp done
      exact (ssmUpdate_sameRead blind updated).trans (tickRemoveTop_sameRead removed)
  | tickPop =>
      obtain ⟨⟨a, u⟩, run, rest⟩ := bind_eq_ok.mp done
      exact Except.ok.inj rest ▸ .of_objs (tickPop_sameHeap run).objs

end Blind

end SameRead

end SsmRuntime
