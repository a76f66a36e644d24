import SsmRuntime.EventPhase

/-!
The tree of the records, on what a state shows. Entering a record and leaving one
compute their effect on views, and there the callers and the counters go on
telling a tree.
-/
namespace SsmRuntime
namespace View

def field (V : View) (f : Act → Nat) (a : ActPtr) : Nat := ((V.record a).map f).getD 0

def caller (V : View) : ActPtr → ActPtr := V.field Act.caller

def processes (V : View) : Finset ActPtr := V.records.erase ssmTopParent

def childrenOf (V : View) (p : ActPtr) : Finset ActPtr :=
  V.processes.filter fun a => V.caller a = p

/-- `ssm_enter` of a record below another. -/
def enter (V : View) (child step parent priority depth : Nat) (frame : List Value) : View :=
  View.mapRecord { V with
      records := insert child V.records
      record := fun b =>
        if b = child then some ⟨step, parent, 0, 0, priority, depth, false, frame⟩
        else V.record b } parent
    fun r => { r with children := (r.children + 1) % 2 ^ 16 }

/-- `ssm_leave` up to the call of the parent. -/
def leave (V : View) (act : ActPtr) : View :=
  View.mapRecord { V with
      records := V.records.erase act
      record := fun b => if b = act then none else V.record b } (V.caller act)
    fun r => { r with children := (r.children + 2 ^ 16 - 1) % 2 ^ 16 }

/-- The parent that a departing record resumes: one that has no other child. -/
def resumes (V : View) (act : ActPtr) : Option ActPtr :=
  if (V.leave act).field Act.children (V.caller act) = 0 then some (V.caller act) else none

/-- Callers and counters tell a tree, also of `ssm_top_parent`. -/
structure Tree (V : View) : Prop where
  recorded : V.Recorded
  top : ssmTopParent ∈ V.records
  caller : ∀ a ∈ V.processes, V.caller a ∈ V.records
  children : ∀ p ∈ V.records, V.field Act.children p = (V.childrenOf p).card
  fits : ∀ p ∈ V.records, (V.childrenOf p).card < 2 ^ 16

section Fields
variable {V : View} {a b p child : ActPtr}

theorem field_of_record {r : Act} (f : Act → Nat) (h : V.record a = some r) :
    V.field f a = f r := by
  rw [field, h]
  rfl

theorem mem_processes : a ∈ V.processes ↔ a ≠ ssmTopParent ∧ a ∈ V.records := Finset.mem_erase

theorem mem_childrenOf : a ∈ V.childrenOf p ↔ a ∈ V.processes ∧ V.caller a = p :=
  Finset.mem_filter

theorem field_mapRecord (V : View) (b : ActPtr) {g : Act → Act} {f : Act → Nat}
    (same : ∀ r, f (g r) = f r) : (V.mapRecord b g).field f = V.field f := by
  funext a
  by_cases h : a = b
  · simp only [field, mapRecord, if_pos h, Option.map_map]
    exact congrArg (Option.getD · 0) (Option.map_congr fun r _ => same r)
  · simp only [field, mapRecord, if_neg h]

theorem field_mapRecord_self (V : View) {b : ActPtr} {r : Act} (f : Act → Nat) (g : Act → Act)
    (h : V.record b = some r) : (V.mapRecord b g).field f b = f (g r) := by
  rw [field, mapRecord]
  simp [h]

theorem field_mapRecord_of_ne (V : View) {a b : ActPtr} (f : Act → Nat) (g : Act → Act)
    (h : a ≠ b) : (V.mapRecord b g).field f a = V.field f a := by
  simp [field, mapRecord, h]

theorem isSome_mapRecord (V : View) (b : ActPtr) (g : Act → Act) (a : ActPtr) :
    ((V.mapRecord b g).record a).isSome = (V.record a).isSome := by
  simp only [mapRecord]
  split
  · exact Option.isSome_map
  · rfl

theorem enter_field (V : View) {child step parent priority depth : Nat} {frame : List Value}
    {f : Act → Nat} (same : ∀ r n, f { r with children := n } = f r) (a : ActPtr) :
    (V.enter child step parent priority depth frame).field f a =
      if a = child then f ⟨step, parent, 0, 0, priority, depth, false, frame⟩
      else V.field f a := by
  rw [enter, field_mapRecord _ _ fun r => same r _]
  by_cases h : a = child
  · simp [field, h]
  · simp [field, h]

theorem leave_field (V : View) {f : Act → Nat} (same : ∀ r n, f { r with children := n } = f r)
    (a : ActPtr) : (V.leave b).field f a = if a = b then 0 else V.field f a := by
  rw [leave, field_mapRecord _ _ fun r => same r _]
  by_cases h : a = b
  · simp [field, h]
  · simp [field, h]

/-- No record is below one that has no children. -/
theorem caller_ne_of_childless (h : V.childrenOf a = ∅) (hb : b ∈ V.processes) :
    V.caller b ≠ a := fun below =>
  Finset.eq_empty_iff_forall_notMem.mp h b (mem_childrenOf.mpr ⟨hb, below⟩)

end Fields

section Enter
variable {V : View} {child step parent priority depth : Nat} {frame : List Value}

theorem enter_caller (a : ActPtr) : (V.enter child step parent priority depth frame).caller a =
    if a = child then parent else V.caller a := enter_field V (fun _ _ => rfl) a

theorem enter_children (other : parent ≠ child) (live : (V.record parent).isSome) (a : ActPtr) :
    (V.enter child step parent priority depth frame).field Act.children a =
      if a = parent then (V.field Act.children a + 1) % 2 ^ 16
      else if a = child then 0 else V.field Act.children a := by
  obtain ⟨r, hr⟩ := Option.isSome_iff_exists.mp live
  simp only [field, enter, mapRecord]
  by_cases h : a = parent
  · subst h
    simp [other, hr]
  · by_cases hc : a = child
    · subst hc
      simp [h]
    · simp [h, hc]

theorem enter_processes (notTop : child ≠ ssmTopParent) :
    (V.enter child step parent priority depth frame).processes = insert child V.processes :=
  Finset.erase_insert_of_ne notTop

theorem enter_childrenOf (notTop : child ≠ ssmTopParent) (fresh : child ∉ V.records)
    (p : ActPtr) : (V.enter child step parent priority depth frame).childrenOf p =
      if p = parent then insert child (V.childrenOf p) else V.childrenOf p := by
  have old : V.processes.filter
      (fun a => (V.enter child step parent priority depth frame).caller a = p) =
        V.childrenOf p := by
    refine Finset.filter_congr fun a ha => ?_
    have other : a ≠ child := fun h => fresh (h ▸ (mem_processes.mp ha).2)
    rw [enter_caller, if_neg other]
  rw [childrenOf, enter_processes notTop, Finset.filter_insert, old, enter_caller, if_pos rfl]
  by_cases h : p = parent
  · rw [if_pos h.symm, if_pos h]
  · rw [if_neg fun e => h e.symm, if_neg h]

end Enter

section Leave
variable {V : View} {act : ActPtr}

theorem leave_caller (a : ActPtr) :
    (V.leave act).caller a = if a = act then 0 else V.caller a :=
  leave_field V (fun _ _ => rfl) a

theorem leave_children {a : ActPtr} (other : a ≠ act) (live : (V.record a).isSome) :
    (V.leave act).field Act.children a =
      if a = V.caller act then (V.field Act.children a + 2 ^ 16 - 1) % 2 ^ 16
      else V.field Act.children a := by
  obtain ⟨r, hr⟩ := Option.isSome_iff_exists.mp live
  have here : (if a = act then none else V.record a) = some r := by rw [if_neg other, hr]
  rw [leave]
  by_cases h : a = V.caller act
  · subst h
    rw [field_mapRecord_self _ _ _ here, if_pos rfl, field_of_record _ hr]
  · rw [field_mapRecord_of_ne _ _ _ h, if_neg h, field_of_record _ hr]
    exact field_of_record _ here

theorem leave_recorded (recorded : V.Recorded) : (V.leave act).Recorded := by
  intro a
  rw [leave, isSome_mapRecord]
  change a ∈ V.records.erase act ↔ (if a = act then none else V.record a).isSome
  by_cases h : a = act
  · simp [h]
  · simpa [h] using recorded a

theorem leave_processes : (V.leave act).processes = V.processes.erase act :=
  Finset.erase_right_comm

theorem leave_childrenOf (p : ActPtr) :
    (V.leave act).childrenOf p = (V.childrenOf p).erase act := by
  rw [childrenOf, leave_processes, childrenOf, ← Finset.filter_erase]
  refine Finset.filter_congr fun a ha => ?_
  rw [leave_caller, if_neg (Finset.ne_of_mem_erase ha)]

end Leave

/-- `--children` on a counter that counts. -/
theorem uncounted {n : Nat} (some : 0 < n) (fits : n < 2 ^ 16) :
    (n + 2 ^ 16 - 1) % 2 ^ 16 = n - 1 := by omega

section Tree
variable {V : View} {a child step parent priority depth : Nat} {frame : List Value}

theorem Tree.notTop (ok : Tree V) (fresh : child ∉ V.records) : child ≠ ssmTopParent :=
  fun h => fresh (h ▸ ok.top)

/-- No live record has a caller that is not live. -/
theorem Tree.childless_of_fresh (ok : Tree V) (fresh : child ∉ V.records) :
    V.childrenOf child = ∅ := by
  refine Finset.eq_empty_of_forall_notMem fun a ha => fresh ?_
  obtain ⟨live, rfl⟩ := mem_childrenOf.mp ha
  exact ok.caller a live

theorem Tree.some_record (ok : Tree V) (live : a ∈ V.records) : (V.record a).isSome :=
  (ok.recorded a).mp live

theorem Tree.enter (ok : Tree V) (fresh : child ∉ V.records) (live : parent ∈ V.records)
    (room : (V.childrenOf parent).card + 1 < 2 ^ 16) :
    Tree (V.enter child step parent priority depth frame) := by
  have notTop : child ≠ ssmTopParent := ok.notTop fresh
  have other : parent ≠ child := fun h => fresh (h ▸ live)
  have off : child ∉ V.processes := fun h => fresh (mem_processes.mp h).2
  have childless := ok.childless_of_fresh fresh
  obtain ⟨W, entered⟩ : ∃ W : View, W = V.enter child step parent priority depth frame := ⟨_, rfl⟩
  have records : W.records = insert child V.records := entered ▸ rfl
  have count : ∀ p, (W.childrenOf p).card =
      if p = parent then (V.childrenOf p).card + 1 else (V.childrenOf p).card := by
    intro p
    rw [entered, enter_childrenOf notTop fresh]
    split
    · exact Finset.card_insert_of_notMem fun h => off (mem_childrenOf.mp h).1
    · rfl
  rw [← entered]
  refine ⟨fun a => ?_, ?_, fun a ha => ?_, fun p hp => ?_, fun p hp => ?_⟩
  · rw [entered, View.enter, isSome_mapRecord]
    by_cases hc : a = child
    · simp [mapRecord, hc]
    · simpa [mapRecord, hc] using ok.recorded a
  · exact records ▸ Finset.mem_insert_of_mem ok.top
  · rw [entered, enter_processes notTop] at ha
    rw [records, entered, enter_caller]
    rcases Finset.mem_insert.mp ha with rfl | ha
    · rw [if_pos rfl]
      exact Finset.mem_insert_of_mem live
    · rw [if_neg fun h : a = child => off (h ▸ ha)]
      exact Finset.mem_insert_of_mem (ok.caller a ha)
  · rw [count, entered, enter_children other (ok.some_record live)]
    rcases Finset.mem_insert.mp (records ▸ hp) with rfl | hp
    · rw [if_neg other.symm, if_pos rfl, if_neg other.symm, childless]
      rfl
    · rw [if_neg fun h : p = child => fresh (h ▸ hp), ok.children p hp]
      split
      · rename_i h
        exact Nat.mod_eq_of_lt (h ▸ room)
      · rfl
  · rw [count]
    rcases Finset.mem_insert.mp (records ▸ hp) with rfl | hp
    · rw [if_neg other.symm, childless]
      exact Nat.two_pow_pos 16
    · split
      · rename_i h
        exact h ▸ room
      · exact ok.fits p hp

theorem Tree.leave {act : ActPtr} (ok : Tree V) (live : act ∈ V.processes)
    (childless : V.childrenOf act = ∅) : Tree (V.leave act) := by
  have notTop : act ≠ ssmTopParent := (mem_processes.mp live).1
  have count : ∀ p, ((V.leave act).childrenOf p).card =
      if p = V.caller act then (V.childrenOf p).card - 1 else (V.childrenOf p).card := by
    intro p
    rw [leave_childrenOf]
    by_cases h : p = V.caller act
    · rw [if_pos h]
      exact Finset.card_erase_of_mem (mem_childrenOf.mpr ⟨live, h.symm⟩)
    · rw [if_neg h, Finset.erase_eq_of_notMem fun mem => h (mem_childrenOf.mp mem).2.symm]
  refine ⟨leave_recorded ok.recorded, Finset.mem_erase.mpr ⟨notTop.symm, ok.top⟩, fun a ha => ?_,
    fun p hp => ?_, fun p hp => ?_⟩
  · rw [leave_processes] at ha
    rw [leave_caller, if_neg (Finset.ne_of_mem_erase ha)]
    have old := Finset.mem_of_mem_erase ha
    exact Finset.mem_erase.mpr ⟨caller_ne_of_childless childless old, ok.caller a old⟩
  · obtain ⟨other, mem⟩ := Finset.mem_erase.mp hp
    have fits := ok.fits p mem
    rw [leave_children other (ok.some_record mem), count, ok.children p mem]
    by_cases h : p = V.caller act
    · rw [if_pos h, if_pos h]
      exact uncounted (Finset.card_pos.mpr ⟨act, mem_childrenOf.mpr ⟨live, h.symm⟩⟩) fits
    · rw [if_neg h, if_neg h]
  · have fits := ok.fits p (Finset.mem_of_mem_erase hp)
    rw [count]
    split
    · exact Nat.lt_of_le_of_lt (Nat.sub_le _ _) fits
    · exact fits

theorem processes_congr {W : View} (records : W.records = V.records) :
    W.processes = V.processes := by
  rw [View.processes, records, View.processes]

theorem childrenOf_congr {W : View} (records : W.records = V.records)
    (caller : W.field Act.caller = V.field Act.caller) : W.childrenOf = V.childrenOf := by
  funext p
  rw [View.childrenOf, processes_congr records, View.caller, caller]
  rfl

theorem Tree.congr {W : View} (ok : Tree V) (records : W.records = V.records)
    (recorded : W.Recorded) (caller : W.field Act.caller = V.field Act.caller)
    (children : W.field Act.children = V.field Act.children) : Tree W where
  recorded := recorded
  top := records ▸ ok.top
  caller := fun a ha => by
    rw [View.caller, caller, records]
    exact ok.caller a (processes_congr records ▸ ha)
  children := fun p hp => by
    rw [children, childrenOf_congr records caller]
    exact ok.children p (records ▸ hp)
  fits := fun p hp => by
    rw [childrenOf_congr records caller]
    exact ok.fits p (records ▸ hp)

theorem resumes_eq_some {act p : ActPtr} : V.resumes act = some p ↔
    V.caller act = p ∧ (V.leave act).field Act.children p = 0 := by
  rw [resumes]
  constructor
  · intro h
    split at h
    · rename_i none
      cases h
      exact ⟨rfl, none⟩
    · cases h
  · rintro ⟨rfl, none⟩
    rw [if_pos none]

/-- A departing record resumes its parent if it was the last child. -/
theorem Tree.resumes_iff {act p : ActPtr} (ok : Tree V) (live : act ∈ V.processes)
    (childless : V.childrenOf act = ∅) :
    V.resumes act = some p ↔ V.caller act = p ∧ (V.leave act).childrenOf p = ∅ := by
  have parent : V.caller act ∈ (V.leave act).records := Finset.mem_erase.mpr
    ⟨caller_ne_of_childless childless live, ok.caller act live⟩
  rw [resumes_eq_some]
  refine and_congr_right fun same => ?_
  rw [← same, (ok.leave live childless).children _ parent, Finset.card_eq_zero]

end Tree
end View

section States
variable {s : State} {child parent act : ActPtr}

theorem view_field {a : ActPtr} (f : Act → Nat) (live : a ∈ s.acts.dom) :
    s.view.field f a = f (s.acts.val a) := View.field_of_record f (Table.get?_of_mem live)

theorem boot_tree : boot.view.Tree := by
  have none : boot.view.processes = ∅ := by decide
  refine ⟨view_recorded boot, by decide, fun a ha => ?_, fun p hp => ?_, fun p hp => ?_⟩
  · exact absurd (none ▸ ha) (Finset.notMem_empty a)
  · rw [Finset.mem_singleton.mp hp]
    decide
  · rw [Finset.mem_singleton.mp hp]
    decide

theorem entered_view (step priority depth : Nat) (frame : List Value) (fresh : child ∉ s.acts.dom)
    (live : parent ∈ s.acts.dom) : (entered s child step parent priority depth frame).view =
      s.view.enter child step parent priority depth frame := by
  have other : parent ≠ child := fun h => fresh (h ▸ live)
  refine View.ext' rfl rfl (fun _ => rfl) rfl (fun b => ?_) (fun _ => rfl) fun _ => rfl
  simp only [State.view, entered, View.enter, View.mapRecord, Table.get?, Table.write_dom,
    Table.alloc_dom]
  by_cases hp : b = parent
  · subst hp
    simp [live, other]
  · by_cases hc : b = child
    · subst hc
      simp [Table.write, hp]
    · simp [Table.write_val_of_ne _ _ hp, Table.alloc_val_of_ne _ _ hc, hp, hc]

/-- Entering a record, on a state and on what it shows. -/
theorem ssmEnterInt_view (step priority depth : Nat) (frame : List Value)
    (fresh : child ∉ s.acts.dom) (live : parent ∈ s.acts.dom) :
    ∃ t, ssmEnterInt child step parent priority depth frame s = .ok t ∧
      t.view = s.view.enter child step parent priority depth frame ∧
      t.acts.dom = insert child s.acts.dom :=
  ⟨_, ssmEnterInt_eq fresh live step priority depth frame,
    entered_view step priority depth frame fresh live, rfl⟩

theorem departed_view (live : act ∈ s.acts.dom) (parent : (s.acts.val act).caller ∈ s.acts.dom)
    (other : (s.acts.val act).caller ≠ act) : (departed s act).view = s.view.leave act := by
  have caller : s.view.caller act = (s.acts.val act).caller := view_field Act.caller live
  refine View.ext' rfl rfl (fun _ => rfl) rfl (fun b => ?_) (fun _ => rfl) fun _ => rfl
  rw [View.leave, View.mapRecord, caller]
  change (departed s act).acts.get? b =
    if b = (s.acts.val act).caller then (if b = act then none else s.acts.get? b).map _
    else if b = act then none else s.acts.get? b
  rw [departed, Table.get?, Table.write_dom, Table.release_dom]
  by_cases hp : b = (s.acts.val act).caller
  · rw [if_pos hp, hp, if_pos (Finset.mem_erase.mpr ⟨other, parent⟩), Table.write_val_self,
      if_neg other, Table.get?_of_mem parent, Option.map_some]
  · rw [if_neg hp, Table.write_val_of_ne _ _ hp]
    by_cases hc : b = act
    · rw [if_pos hc, if_neg fun h => Finset.ne_of_mem_erase h hc]
    · rw [if_neg hc, Table.get?]
      simp [hc]

/-- Leaving a record, on a state and on what it shows. -/
theorem leaveFree_view (live : act ∈ s.acts.dom) (parent : s.view.caller act ∈ s.acts.dom)
    (other : s.view.caller act ≠ act) :
    ∃ t, leaveFree act s = .ok (s.view.resumes act, t) ∧ t.view = s.view.leave act ∧
      t.acts.dom = s.acts.dom.erase act ∧ SameHeap s t := by
  have caller : s.view.caller act = (s.acts.val act).caller := view_field Act.caller live
  rw [caller] at parent other
  have view := departed_view live parent other
  have stays : (s.acts.val act).caller ∈ (departed s act).acts.dom :=
    Finset.mem_erase.mpr ⟨other, parent⟩
  refine ⟨departed s act, ?_, view, rfl, rfl, rfl, rfl, rfl, rfl⟩
  rw [leaveFree_eq live parent other, View.resumes, ← view, caller, view_field Act.children stays]

end States

end SsmRuntime
