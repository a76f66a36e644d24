import SsmRuntime.Library.AccessTrace
import SsmRuntime.HeapRuns

/-!
The drop cascade, access by access. The finaliser of an object reads its header
and its fields again between the drops it makes, and frees its block last.
-/
namespace SsmRuntime

open AccessTrace

abbrev Traced := Except Stop (List Access × State)

/-- The loop over the fields of an object, from the index `i` on. -/
def tracedFields (drop : Value → State → Traced) (a : Addr) : Nat → Nat → State → Traced
  | 0, _, s => .error ⟨.diverges, s⟩
  | fuel + 1, i, s => do
      let o ← s.loadObj a
      match o.body.children[i]? with
      | none => .ok ([.touch a], s)
      | some v => do
          let (tr, s) ← drop v s
          let (tr', s) ← tracedFields drop a fuel (i + 1) s
          .ok (.touch a :: (tr ++ tr'), s)

/-- `ssm_drop_final`; the removal from the event queue reads other variables
only if the variable is queued. -/
def tracedFinal (drop : Value → State → Traced) (a : Addr) (s : State) : Traced := do
  let o ← s.loadObj a
  let (tr, s) ← match o.body with
    | .sv _ => do
        let s ← ssmUnschedule a s
        let v ← s.loadSv a
        let (tr, s) ← drop v.value s
        let v ← s.loadSv a
        if v.laterTime = ssmNever then .ok (.touch a :: (tr ++ [.touch a]), s)
        else do
          let (tr', s) ← drop v.laterValue s
          .ok (.touch a :: (tr ++ .touch a :: tr'), s)
    | body => tracedFields drop a (body.children.length + 1) 0 s
  .ok (.touch a :: (tr ++ [.free a]), { s with objs := s.objs.release a })

def tracedDrop : Nat → Value → State → Traced
  | _, .packed _, s => .ok ([], s)
  | 0, .heap _, s => .error ⟨.diverges, s⟩
  | fuel + 1, .heap a, s => do
      let o ← s.loadObj a
      let refCount := (o.refCount + 255) % 256
      let s := s.setObj a { o with refCount := refCount }
      if refCount = 0 then do
        let (tr, s) ← tracedFinal (tracedDrop fuel) a s
        .ok (.touch a :: tr, s)
      else .ok ([.touch a], s)

section Spec
variable {R : Holds}

/-- The traced drop does what the drop does, and its trace is safe. -/
def TracedSpec (R : Holds) (drop : Value → State → Res) (traced : Value → State → Traced)
    (fuel : Nat) : Prop :=
  ∀ v s D S, D ⊆ s.objs.dom → Counted R s D (fun b => S b + refsTo b [v]) → EventQueueOk s →
    Protected R s S → (s.objs.dom \ D).card < fuel →
    ∃ t L tr, drop v s = .ok t ∧ traced v s = .ok (tr, t) ∧ Dropped R s t D S L ∧
      Safe s.objs.dom tr t.objs.dom

/-- The object under finalisation keeps its fields while they are dropped. -/
theorem tracedFields_spec {drop : Value → State → Res} {traced : Value → State → Traced}
    {fuel : Nat} (hdrop : TracedSpec R drop traced fuel) {a : Addr} (body : Body) (vs : List Value)
    (i : Nat) (s : State) (D : Finset Addr) (S : Addr → Nat) (here : a ∈ D)
    (same : (s.objs.val a).body = body) (left : body.children.drop i = vs)
    (dying : D ⊆ s.objs.dom) (counted : Counted R s D fun b => S b + refsTo b vs)
    (ok : EventQueueOk s) (prot : Protected R s S) (enough : (s.objs.dom \ D).card < fuel) :
    ∃ t L tr, ssmDropsWith drop vs s = .ok t ∧
      tracedFields traced a (vs.length + 1) i s = .ok (tr, t) ∧ Dropped R s t D S L ∧
      Safe s.objs.dom tr t.objs.dom := by
  induction vs generalizing i s S with
  | nil =>
      have done : body.children[i]? = none :=
        List.getElem?_eq_none (List.drop_eq_nil_iff.mp left)
      refine ⟨s, _, [.touch a], rfl, ?_, Dropped.refl (by simpa using counted) ok dying,
        .touch (dying here) .nil⟩
      simp only [tracedFields, State.loadObj_of_mem (dying here), ok_bind, same, done]
  | cons v vs ih =>
      have less : ∀ b, S b ≤ S b + refsTo b vs := fun b => Nat.le_add_right _ _
      obtain ⟨t, L, tr, run, run', first, safe⟩ := hdrop v s D (fun b => S b + refsTo b vs) dying
        (counted.congr rfl (fun _ _ => rfl) fun b => by
          have := refsTo_cons b v vs
          omega) ok (prot.transfer less fun _ _ => rfl) enough
      have fewer : (t.objs.dom \ D).card < fuel :=
        Nat.lt_of_le_of_lt
          (Finset.card_le_card (Finset.sdiff_subset_sdiff first.dom (Finset.Subset.refl D))) enough
      have field : body.children[i]? = some v := by
        rw [← List.head?_drop, left]
        rfl
      have left' : body.children.drop (i + 1) = vs := by
        rw [← List.drop_drop, left]
        rfl
      obtain ⟨u, M, tr', last, last', second, safe'⟩ := ih (i + 1) t (fun b => S b + L b)
        ((first.body a (first.dying here)).trans same) left' first.dying
        (first.counted.congr rfl (fun _ _ => rfl) fun b => by omega) first.queue
        (first.protect less prot fun b => Nat.le_add_right _ _) fewer
      refine ⟨u, _, .touch a :: (tr ++ tr'), ?_, ?_, first.trans ok second,
        .touch (dying here) (safe.append safe')⟩
      · simp only [ssmDropsWith, run, ok_bind, last]
      · rw [List.length_cons, tracedFields]
        simp only [State.loadObj_of_mem (dying here), ok_bind, same, field, run', last']

/-- The finaliser of an object whose count has just gone to zero. -/
theorem tracedFinal_spec {drop : Value → State → Res} {traced : Value → State → Traced}
    {fuel : Nat} (hdrop : TracedSpec R drop traced fuel) {a : Addr} {s : State} {D : Finset Addr}
    {S : Addr → Nat} (dying : D ⊆ s.objs.dom) (counted : Counted R (uncount s a) D S)
    (ok : EventQueueOk s) (prot : Protected R s S) (mem : a ∈ s.objs.dom \ D)
    (last : (s.objs.val a).refCount - 1 = 0) (enough : (s.objs.dom \ D).card ≤ fuel) :
    ∃ t L tr, ssmDropFinalWith drop a (uncount s a) = .ok t ∧
      tracedFinal traced a (uncount s a) = .ok (tr, t) ∧ Dropped R s t D S L ∧
      Safe s.objs.dom tr t.objs.dom := by
  have memDom := (Finset.mem_sdiff.mp mem).1
  have read : ∀ b, R a b = b.refs :=
    (prot a).resolve_right (counted.not_kept (counted.none_left mem last))
  have load : (uncount s a).loadObj a = .ok ((uncount s a).objs.val a) :=
    State.loadObj_of_mem memDom
  rw [ssmDropFinalWith, tracedFinal, load, ok_bind, ok_bind]
  cases hb : ((uncount s a).objs.val a).body with
  | sv v =>
      have hv : (uncount s a).sv? a = some v := State.sv?_eq_some.mpr ⟨memDom, hb⟩
      obtain ⟨t, w, run, hw, hval, never, p⟩ := prepared_sv ok.uncount hv (read _)
      have d := p.dying dying counted prot mem last enough
      obtain ⟨u, L, tr, one, one', dropped, safe⟩ := hdrop v.value t (insert a D) _ d.dying
        d.counted d.prepared.queue d.prot d.fewer
      rw [d.prepared.dom] at safe
      have here : a ∈ u.objs.dom := dropped.dying (Finset.mem_insert_self a D)
      have hu : u.sv? a = some w := by
        rw [sv?_of_body (dropped.dom here) here (dropped.body a here), hw]
      refine ⟨_, _, .touch a :: (.touch a :: (tr ++ [.touch a]) ++ [.free a]), ?_, ?_,
        d.prepared.finish ok mem dropped, ?_⟩
      · simp only [dropBody, run, ok_bind, State.loadSv_of_sv? hw, hval, one,
          State.loadSv_of_sv? hu, never, if_true]
      · simp only [run, ok_bind, State.loadSv_of_sv? hw, hval, one',
          State.loadSv_of_sv? hu, never, if_true]
      · refine .touch memDom (.touch memDom ?_)
        exact (safe.append (.touch here .nil)).append (.last here)
  | time _ | adt _ _ | closure _ _ _ _ | array _ | blob _ =>
      have p := prepared_plain (R := R) ok.uncount hb (by simp) (read _)
      have d := p.dying dying counted prot mem last enough
      obtain ⟨u, L, tr, one, one', dropped, safe⟩ := tracedFields_spec hdrop _ _ 0 (uncount s a)
        (insert a D) _ (Finset.mem_insert_self a D) hb List.drop_zero d.dying d.counted
        d.prepared.queue d.prot d.fewer
      have here : a ∈ u.objs.dom := dropped.dying (Finset.mem_insert_self a D)
      refine ⟨_, _, .touch a :: (tr ++ [.free a]), ?_, ?_, d.prepared.finish ok mem dropped, ?_⟩
      · simp only [dropBody, one, ok_bind]
      · simp only [one', ok_bind]
      · exact .touch memDom (safe.append (.last here))

theorem tracedDrop_spec (R : Holds) (fuel : Nat) :
    TracedSpec R (ssmDropWith fuel) (tracedDrop fuel) fuel := by
  induction fuel with
  | zero => exact fun v s D S _ _ _ _ enough => absurd enough (Nat.not_lt_zero _)
  | succ fuel ih =>
      intro v s D S dying counted ok prot enough
      cases v with
      | packed n =>
          refine ⟨s, _, [], rfl, rfl, Dropped.refl ?_ ok dying, .nil⟩
          exact counted.congr rfl (fun _ _ => rfl) fun b => by simp
      | heap a =>
          have mem : a ∈ s.objs.dom \ D :=
            counted.mem_of_pos (by rw [refsTo_heap_self]; omega)
          have memDom := (Finset.mem_sdiff.mp mem).1
          have load := State.loadObj_of_mem memDom
          have live := counted.live a mem
          have small := counted.small a mem
          rw [refsTo_heap_self] at live
          have less : ((s.objs.val a).refCount + 255) % 256 = (s.objs.val a).refCount - 1 := by
            omega
          by_cases last : (s.objs.val a).refCount - 1 = 0
          · obtain ⟨t, L, tr, run, run', dropped, safe⟩ :=
              tracedFinal_spec ih dying counted.uncount ok prot mem last (by omega)
            refine ⟨t, L, .touch a :: tr, ?_, ?_, dropped, .touch memDom safe⟩
            · simp only [ssmDropWith, load, ok_bind, less, if_pos last]
              exact run
            · simp only [tracedDrop, load, ok_bind, less, if_pos last]
              rw [show s.setObj a ⟨(s.objs.val a).refCount - 1, (s.objs.val a).body⟩ = uncount s a
                from rfl, run', ok_bind]
          · refine ⟨uncount s a, _, [.touch a], ?_, ?_, Dropped.uncount counted ok dying last,
              .touch memDom .nil⟩
            · simp only [ssmDropWith, load, ok_bind, less, if_neg last]
              rfl
            · simp only [tracedDrop, load, ok_bind, less, if_neg last]
              rfl

end Spec

/-- The cascade frees what is out of reach, each object once, and touches
nothing it has freed; the counts of the others fall by the references lost. -/
structure DropExact (s t : State) (S : Addr → Nat) (v : Value) (tr : List Access) : Prop where
  freed : ∀ a, .free a ∈ tr ↔ Kept plain s (fun b => S b + refsTo b [v]) a ∧ ¬ Kept plain s S a
  once : ∀ a, tr.count (.free a) ≤ 1
  after : ∀ before after a, tr = before ++ .free a :: after → ∀ e ∈ after, e.cell ≠ a
  survivors : ∀ a, a ∈ t.objs.dom ↔ a ∈ s.objs.dom ∧ .free a ∉ tr
  contents : ∀ a, a ∈ t.objs.dom → (t.objs.val a).body = (s.objs.val a).body
  counts : ∀ a, a ∈ t.objs.dom → (s.objs.val a).refCount = (t.objs.val a).refCount +
    refsTo a [v] + ∑ b ∈ s.objs.dom \ t.objs.dom, refsTo a (s.objs.val b).body.refs
  rest : SameRest s t

section Exact
variable {s t : State} {S : Addr → Nat} {v : Value}

theorem Kept.congr_reading {R R' : Holds} {a : Addr} (h : Kept R s S a)
    (same : ∀ b, R b (s.objs.val b).body = R' b (s.objs.val b).body) : Kept R' s S a := by
  induction h with
  | root hS => exact .root hS
  | field hb ha ih => exact .field ih (same _ ▸ ha)

/-- In an acyclic heap every object is in reach. -/
theorem HeapOk.kept_all (h : HeapOk s S) (acyclic : Acyclic s) {a : Addr}
    (mem : a ∈ s.objs.dom) : Kept plain s S a := by
  refine (h.kept_of_acyclic acyclic (s.objs.val a).body.refs mem).congr_reading fun b => ?_
  by_cases hb : b = a
  · rw [hb, moved_self, plain]
  · rw [moved_of_ne _ hb]

/-- What is left after drops is what stays in reach. -/
theorem Dropped.mem_iff_kept (d : Dropped plain s t ∅ S fun _ => 0) (acyclic : Acyclic s)
    (ok : HeapOk t S) {a : Addr} : a ∈ t.objs.dom ↔ Kept plain s S a := by
  constructor
  · intro mem
    have acyclic' : Acyclic t := acyclic.mono d.dom fun b hb _ => d.body b hb ▸ id
    refine (ok.kept_all acyclic' mem).transfer (fun _ => Nat.le_refl _) fun b hb => ?_
    exact (d.body b (Finset.mem_sdiff.mp (hb.mem ok.counted fun _ => Nat.le_refl _)).1).symm
  · exact fun kept => (Finset.mem_sdiff.mp (d.kept kept)).1

theorem fieldRefs_eq_add (d : Dropped plain s t ∅ S fun _ => 0) (a : Addr) :
    fieldRefs plain s ∅ a = fieldRefs plain t ∅ a +
      ∑ b ∈ s.objs.dom \ t.objs.dom, refsTo a (s.objs.val b).body.refs := by
  unfold fieldRefs
  rw [Finset.sdiff_empty, Finset.sdiff_empty, ← Finset.sum_sdiff d.dom, Nat.add_comm]
  congr 1
  exact Finset.sum_congr rfl fun b hb => by rw [d.body b hb]

/-- A drop on an acyclic heap on which nothing is scheduled. -/
theorem ssmDrop_exact (start : Start ⟨s, fun a => S a + refsTo a [v]⟩) (acyclic : Acyclic s) :
    ∃ t tr, ssmDrop v s = .ok t ∧ tracedDrop (s.objs.dom.card + 1) v s = .ok (tr, t) ∧
      DropExact s t S v tr := by
  have ok : HeapOk s fun a => S a + refsTo a [v] := start.heapOk
  obtain ⟨t, L, tr, run, run', d, safe⟩ := tracedDrop_spec plain (s.objs.dom.card + 1) v s ∅ S
    (Finset.empty_subset _) ok.counted ok.queue (protected_plain s S) (by simp)
  obtain rfl : L = fun _ => 0 :=
    funext fun a => d.lost (fun b u hu pend _ => absurd ⟨u, hu, pend⟩ (start.idle b)) a
  have ok' : HeapOk t S := (((d.heapOkAs ok.alive ok.shaped).ordered (d.order ok.order))).same
    fun a => by simp
  have before : ∀ a, a ∈ s.objs.dom ↔ Kept plain s (fun b => S b + refsTo b [v]) a := fun a =>
    ⟨ok.kept_all acyclic, fun h =>
      (Finset.mem_sdiff.mp (h.mem ok.counted fun _ => Nat.le_refl _)).1⟩
  have left : ∀ a, a ∈ t.objs.dom ↔ Kept plain s S a := fun a => d.mem_iff_kept acyclic ok'
  refine ⟨t, tr, run, run', ⟨fun a => ?_, safe.count_free_le, fun _ _ _ split e he =>
    safe.cell_ne split he, fun a => ?_, d.body, fun a ha => ?_, d.rest⟩⟩
  · rw [safe.free_mem_iff, before, left]
  · rw [safe.free_mem_iff]
    constructor
    · exact fun ha => ⟨d.dom ha, fun gone => gone.2 ha⟩
    · rintro ⟨ha, kept⟩
      by_contra out
      exact kept ⟨ha, out⟩
  · have old := ok.counted.live a (by simpa using d.dom ha)
    have new := d.counted.live a (by simpa using ha)
    rw [fieldRefs_eq_add d] at old
    omega

end Exact

theorem HeapOk.start {s : State} {H : Addr → Nat} (ok : HeapOk s H) (empty : s.eventQueueLen = 0) :
    Start ⟨s, H⟩ :=
  ⟨ok.counted, ok.alive, ok.shaped, empty, ok.queue.empty_iff.mp empty⟩

/-- An array holds an ADT, both hold a time, and a variable holds the array. -/
def sharedTime : List Call :=
  [.newTime 2 5, .dup (.heap 2), .dup (.heap 2), .newAdt 3 0 [.heap 2, .packed 1],
    .newArray 4 [.heap 3, .heap 2], .newSv 5 (.heap 4), .newBlob 6 10]

theorem ssmDrop_exact_sharedTime : ∃ w t tr,
    runCalls defaultSafeSizes (fun a => if a = 6 then 0 else a) holdsAll sharedTime World.blank =
      some w ∧ ssmDrop (.heap 5) w.state = .ok t ∧ t.objs.dom = {2, 6} ∧
    DropExact w.state t (fun a => w.held a - refsTo a [.heap 5]) (.heap 5) tr := by
  have ends : (runCalls defaultSafeSizes (fun a => if a = 6 then 0 else a) holdsAll sharedTime
      World.blank).any (fun w => w.held 5 = 1 ∧ w.state.eventQueueLen = 0 ∧
        Ranked (fun a => if a = 6 then 0 else a) w.state ∧
        (ssmDrop (.heap 5) w.state).toOption.any fun t => t.objs.dom = {2, 6}) = true := by
    decide +kernel
  obtain ⟨w, last, facts⟩ := (Option.any_eq_true _ _).mp ends
  obtain ⟨held, empty, ranked, dropped⟩ := of_decide_eq_true facts
  obtain ⟨L, ok, lost⟩ := Run.heapOk start_blank
    (Run.of_runCalls (fun w c => noLoss_of_holdsAll) .refl last) fun _ _ => And.left
  have none := lost fun _ _ => And.right
  have counted : HeapOk w.state fun a =>
      w.held a - refsTo a [.heap 5] + refsTo a [.heap 5] := ok.same fun a => by
    rw [none]
    by_cases ha : a = 5
    · rw [ha, held]
      rfl
    · rw [refsTo_heap_ne ha]
      rfl
  obtain ⟨t, tr, run, -, exact'⟩ := ssmDrop_exact (counted.start empty) ⟨_, ranked⟩
  rw [run] at dropped
  exact ⟨w, t, tr, last, run, of_decide_eq_true dropped, exact'⟩

end SsmRuntime
