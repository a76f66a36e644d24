import SsmRuntime.RecordTree

/-!
The process tree. A record enters below a live parent and leaves once it has no
children; one that leaves as the last child of its parent resumes the parent
from inside the call, and the resumed parent may leave in turn.
-/
namespace SsmRuntime

namespace State

def callerOf (s : State) (a : ActPtr) : ActPtr := (s.acts.val a).caller

/-- The live records but `ssm_top_parent`. -/
def processes (s : State) : Finset ActPtr := s.view.processes

def childrenOf (s : State) (p : ActPtr) : Finset ActPtr := s.view.childrenOf p

theorem mem_processes {s : State} {a : ActPtr} :
    a ∈ s.processes ↔ a ≠ ssmTopParent ∧ a ∈ s.acts.dom := View.mem_processes

theorem view_caller {s : State} {a : ActPtr} (live : a ∈ s.acts.dom) :
    s.view.caller a = s.callerOf a := view_field Act.caller live

theorem mem_childrenOf {s : State} {p a : ActPtr} :
    a ∈ s.childrenOf p ↔ a ∈ s.processes ∧ s.callerOf a = p := by
  refine View.mem_childrenOf.trans (and_congr_right fun ha => ?_)
  rw [view_caller (mem_processes.mp ha).2]

end State

/-- The counters tell the tree: `children` of each live record, also of
`ssm_top_parent`, and `num_processes`. -/
structure TreeExact (s : State) : Prop where
  top : ssmTopParent ∈ s.acts.dom
  caller : ∀ a ∈ s.processes, s.callerOf a ∈ s.acts.dom
  children : ∀ p ∈ s.acts.dom, (s.acts.val p).children = (s.childrenOf p).card
  fits : ∀ p ∈ s.acts.dom, (s.childrenOf p).card < 2 ^ 16
  numProcesses : s.numProcesses = s.processes.card

/-- What a step function does besides: it writes neither the counters nor the
callers, and no record comes or goes. -/
structure TreeKept (s t : State) : Prop where
  dom : t.acts.dom = s.acts.dom
  caller : ∀ a, t.callerOf a = s.callerOf a
  children : ∀ a, (t.acts.val a).children = (s.acts.val a).children
  numProcesses : t.numProcesses = s.numProcesses

/-- What `ssm_leave` has done when it comes to the call of the parent: the record
is freed and not touched after that, and the parent is resumed exactly if this
was its last child. -/
structure Left (s t : State) (act : ActPtr) (resumed : Option ActPtr) : Prop where
  dom : t.acts.dom = s.acts.dom.erase act
  untouched : t.acts.val act = s.acts.val act
  caller : ∀ a, t.callerOf a = s.callerOf a
  childrenOf : ∀ p, t.childrenOf p = (s.childrenOf p).erase act
  parent : s.callerOf act ∈ t.acts.dom
  resumed : ∀ p, resumed = some p ↔ s.callerOf act = p ∧ t.childrenOf p = ∅
  numProcesses : t.numProcesses + 1 = s.numProcesses

section Calls
variable {s t : State}

theorem TreeKept.processes (kept : TreeKept s t) : t.processes = s.processes :=
  View.processes_congr kept.dom

/-- What the records of two states tell is the same if it is for those that live. -/
theorem view_field_congr {f : Act → Nat} (dom : t.acts.dom = s.acts.dom)
    (same : ∀ a ∈ s.acts.dom, f (t.acts.val a) = f (s.acts.val a)) :
    t.view.field f = s.view.field f := by
  funext a
  by_cases live : a ∈ s.acts.dom
  · rw [view_field f (dom ▸ live), view_field f live, same a live]
  · have gone : a ∉ t.acts.dom := dom ▸ live
    simp only [View.field, State.view, Table.get?, if_neg live, if_neg gone]

theorem TreeKept.childrenOf (kept : TreeKept s t) (p : ActPtr) :
    t.childrenOf p = s.childrenOf p :=
  congrFun (View.childrenOf_congr kept.dom
    (view_field_congr kept.dom fun a _ => kept.caller a)) p

/-- The counters of a state tell the tree that it shows. -/
theorem treeExact_iff : TreeExact s ↔ s.view.Tree ∧ s.numProcesses = s.processes.card := by
  constructor
  · intro h
    refine ⟨⟨view_recorded s, h.top, fun a ha => ?_, fun p hp => ?_, h.fits⟩, h.numProcesses⟩
    · rw [State.view_caller (State.mem_processes.mp ha).2]
      exact h.caller a ha
    · rw [view_field Act.children hp]
      exact h.children p hp
  · rintro ⟨tree, num⟩
    refine ⟨tree.top, fun a ha => ?_, fun p hp => ?_, tree.fits, num⟩
    · rw [← State.view_caller (State.mem_processes.mp ha).2]
      exact tree.caller a ha
    · rw [← view_field Act.children hp]
      exact tree.children p hp

theorem TreeExact.kept (exact' : TreeExact s) (kept : TreeKept s t) : TreeExact t := by
  obtain ⟨tree, num⟩ := treeExact_iff.mp exact'
  refine treeExact_iff.mpr ⟨tree.congr kept.dom (view_recorded t) ?_ ?_, ?_⟩
  · exact view_field_congr kept.dom fun a _ => kept.caller a
  · exact view_field_congr kept.dom fun a _ => kept.children a
  · rw [kept.numProcesses, kept.processes, num]

theorem boot_treeExact : TreeExact boot := treeExact_iff.mpr ⟨boot_tree, by decide⟩

theorem ssmEnterInt_tree {child parent : ActPtr} (step priority depth : Nat) (frame : List Value)
    (exact' : TreeExact s) (fresh : child ∉ s.acts.dom) (live : parent ∈ s.acts.dom)
    (room : (s.childrenOf parent).card + 1 < 2 ^ 16) :
    ∃ t, ssmEnterInt child step parent priority depth frame s = .ok t ∧ TreeExact t ∧
      ∀ p, t.childrenOf p =
        if p = parent then insert child (s.childrenOf p) else s.childrenOf p := by
  obtain ⟨tree, num⟩ := treeExact_iff.mp exact'
  have notTop : child ≠ ssmTopParent := tree.notTop fresh
  have view := entered_view step priority depth frame fresh live
  refine ⟨_, ssmEnterInt_eq fresh live step priority depth frame,
    treeExact_iff.mpr ⟨view ▸ tree.enter fresh live room, ?_⟩, fun p => ?_⟩
  · have off : child ∉ s.processes := fun h => fresh (State.mem_processes.mp h).2
    rw [State.processes, view, View.enter_processes notTop]
    exact (congrArg (· + 1) num).trans (Finset.card_insert_of_notMem off).symm
  · rw [State.childrenOf, view, View.enter_childrenOf notTop fresh, State.childrenOf]

theorem leaveFree_tree {act : ActPtr} (exact' : TreeExact s) (live : act ∈ s.processes)
    (leaf : s.childrenOf act = ∅) :
    ∃ resumed t, leaveFree act s = .ok (resumed, t) ∧ TreeExact t ∧ Left s t act resumed := by
  obtain ⟨tree, num⟩ := treeExact_iff.mp exact'
  have mem := (State.mem_processes.mp live).2
  have shown : s.view.caller act = s.callerOf act := State.view_caller mem
  have parent : s.callerOf act ∈ s.acts.dom := exact'.caller act live
  have other : s.callerOf act ≠ act := shown ▸ View.caller_ne_of_childless leaf live
  have view := departed_view mem parent other
  have kept : s.callerOf act ∈ (departed s act).acts.dom :=
    Finset.mem_erase.mpr ⟨other, parent⟩
  have processes : (departed s act).processes = s.processes.erase act := by
    rw [State.processes, view, View.leave_processes, State.processes]
  have num' : (departed s act).numProcesses + 1 = s.numProcesses := by
    have some := Finset.card_pos.mpr ⟨act, live⟩
    exact Nat.sub_add_cancel (num ▸ some)
  refine ⟨_, departed s act, leaveFree_eq mem parent other,
    treeExact_iff.mpr ⟨view ▸ tree.leave live leaf, ?_⟩, rfl, ?_, fun a => ?_, fun p => ?_, kept,
    fun p => ?_, num'⟩
  · rw [processes, Finset.card_erase_of_mem live, ← num, ← num']
    rfl
  · exact Table.write_val_of_ne _ _ other.symm
  · simp only [State.callerOf, departed, Table.write, Table.release, Function.update_apply]
    split
    · rename_i same
      rw [same]
    · rfl
  · rw [State.childrenOf, view, View.leave_childrenOf, State.childrenOf]
  · have resumes := tree.resumes_iff (p := p) live leaf
    rw [View.resumes, ← view, shown, view_field Act.children kept] at resumes
    exact resumes

end Calls

inductive TreeCall where
  | enter (child step parent priority depth : Nat) (frame : List Value)
  | leave (act : ActPtr)

inductive TreeEvent where
  | entered (child parent : ActPtr)
  | left (child parent : ActPtr)
  | resumed (parent : ActPtr)
  deriving DecidableEq, Repr

namespace TreeCall

/-- A departure up to the call of the parent that it returns. -/
def exec : TreeCall → State → Except Stop (Option ActPtr × State)
  | enter child step parent priority depth frame, s => do
      let s ← ssmEnterInt child step parent priority depth frame s
      .ok (none, s)
  | leave act, s => leaveFree act s

/-- Records enter where none is live and below a live one, not too many below
each; a record leaves while it has no children. -/
def Legal : TreeCall → State → Prop
  | enter child _ parent _ _ _, s => child ∉ s.acts.dom ∧ parent ∈ s.acts.dom ∧
      (s.childrenOf parent).card + 1 < 2 ^ 16
  | leave act, s => act ∈ s.processes ∧ s.childrenOf act = ∅

instance (c : TreeCall) (s : State) : Decidable (c.Legal s) := by
  cases c with
  | enter child _ parent _ _ _ => exact inferInstanceAs (Decidable (_ ∧ _ ∧ _))
  | leave act => exact inferInstanceAs (Decidable (_ ∧ _))

/-- What a call adds to the log, the last event first. -/
def events (c : TreeCall) (s : State) (resumed : Option ActPtr) : List TreeEvent :=
  match c with
  | enter child _ parent _ _ _ => [.entered child parent]
  | leave act => (resumed.map TreeEvent.resumed).toList ++ [.left act (s.callerOf act)]

end TreeCall

/-- The runs of a program from the start, each with its log. A resumed parent
goes on with calls of its own, before and after the call that resumed it ends. -/
inductive TreeRun : State → List TreeEvent → Prop
  | start : TreeRun boot []
  | own {s t : State} {log : List TreeEvent} (before : TreeRun s log) (kept : TreeKept s t) :
      TreeRun t log
  | call {s t : State} {log : List TreeEvent} {resumed : Option ActPtr} (c : TreeCall)
      (before : TreeRun s log) (legal : c.Legal s) (done : c.exec s = .ok (resumed, t)) :
      TreeRun t (c.events s resumed ++ log)

/-- The children that have entered below a parent and not left, by the log. -/
def childrenIn (p : ActPtr) : List TreeEvent → Finset ActPtr
  | [] => ∅
  | .entered child parent :: log =>
      if parent = p then insert child (childrenIn p log) else childrenIn p log
  | .left child parent :: log =>
      if parent = p then (childrenIn p log).erase child else childrenIn p log
  | .resumed _ :: log => childrenIn p log

/-- The groups of children of a parent that have all left, by the log. -/
def groups (p : ActPtr) : List TreeEvent → Nat
  | [] => 0
  | .left child parent :: log =>
      if parent = p ∧ childrenIn p (.left child parent :: log) = ∅ then groups p log + 1
      else groups p log
  | .entered _ _ :: log | .resumed _ :: log => groups p log

/-- A parent is resumed right after its last child has left, at no other time,
and so once for each group. -/
structure ResumedExactly (s : State) (log : List TreeEvent) : Prop where
  children : ∀ p, childrenIn p log = s.childrenOf p
  once : ∀ p, log.count (.resumed p) = groups p log
  last : ∀ later earlier p, log = later ++ .resumed p :: earlier →
    ∃ child rest, earlier = .left child p :: rest ∧ childrenIn p earlier = ∅
  each : ∀ later earlier child p, log = later ++ .left child p :: earlier →
    childrenIn p (.left child p :: earlier) = ∅ → ∃ later', later = later' ++ [.resumed p]

section Log
variable {s t : State} {log : List TreeEvent}

theorem ResumedExactly.start : ResumedExactly boot [] where
  children := fun p => by
    have none : boot.processes = ∅ := by decide
    rw [State.childrenOf, View.childrenOf, ← State.processes, none]
    rfl
  once := fun p => rfl
  last := fun later earlier p h => by simp at h
  each := fun later earlier child p h => by simp at h

theorem ResumedExactly.own (ok : ResumedExactly s log) (kept : TreeKept s t) :
    ResumedExactly t log :=
  { ok with children := fun p => (ok.children p).trans (kept.childrenOf p).symm }

theorem ResumedExactly.enter {child parent : ActPtr} (ok : ResumedExactly s log)
    (childrenOf : ∀ p, t.childrenOf p =
      if p = parent then insert child (s.childrenOf p) else s.childrenOf p) :
    ResumedExactly t (.entered child parent :: log) where
  children := fun p => by
    rw [childrenIn, ok.children, childrenOf]
    simp only [eq_comm]
  once := fun p => by
    rw [List.count_cons_of_ne (by simp), groups, ok.once]
  last := fun later earlier p h => by
    cases later with
    | nil => cases h
    | cons e later => exact ok.last later earlier p (List.cons.inj h).2
  each := fun later earlier c p h none => by
    cases later with
    | nil => cases h
    | cons e later =>
        obtain ⟨later', rfl⟩ := ok.each later earlier c p (List.cons.inj h).2 none
        exact ⟨e :: later', rfl⟩

theorem ResumedExactly.leave {act : ActPtr} {resumed : Option ActPtr} (ok : ResumedExactly s log)
    (left : Left s t act resumed) :
    ResumedExactly t ((TreeCall.leave act).events s resumed ++ log) := by
  obtain ⟨c, hc⟩ : ∃ c, c = s.callerOf act := ⟨_, rfl⟩
  have children : ∀ p, childrenIn p (.left act c :: log) = t.childrenOf p := by
    intro p
    rw [childrenIn, ok.children, left.childrenOf]
    split
    · rfl
    · rename_i ne
      refine (Finset.erase_eq_of_notMem fun h => ne ?_).symm
      exact hc.trans (State.mem_childrenOf.mp h).2
  cases resumed with
  | none =>
      have more : t.childrenOf c ≠ ∅ := fun h => by
        have := (left.resumed c).mpr ⟨hc.symm, h⟩
        cases this
      have log' : (TreeCall.leave act).events s none ++ log = .left act c :: log := by rw [hc]; rfl
      rw [log']
      refine ⟨children, fun p => ?_, fun later earlier p h => ?_,
        fun later earlier b p h none => ?_⟩
      · rw [List.count_cons_of_ne (by simp), groups, children, ok.once, if_neg]
        rintro ⟨rfl, none⟩
        exact more none
      · cases later with
        | nil => cases h
        | cons e later => exact ok.last later earlier p (List.cons.inj h).2
      · cases later with
        | nil =>
            cases h
            exact absurd ((children c).symm.trans none) more
        | cons e later =>
            obtain ⟨later', rfl⟩ := ok.each later earlier b p (List.cons.inj h).2 none
            exact ⟨e :: later', rfl⟩
  | some q =>
      obtain ⟨same, none'⟩ := (left.resumed q).mp rfl
      obtain rfl : q = c := same.symm.trans hc.symm
      have log' : (TreeCall.leave act).events s (some q) ++ log =
          .resumed q :: .left act q :: log := by rw [hc]; rfl
      rw [log']
      refine ⟨children, fun p => ?_, fun later earlier p h => ?_,
        fun later earlier b p h none => ?_⟩
      · rw [groups, groups, children, List.count_cons, List.count_cons_of_ne (by simp), ok.once]
        by_cases hp : q = p
        · subst hp
          simp [none']
        · simp [hp]
      · rcases later with _ | ⟨e, _ | ⟨e', later⟩⟩
        · cases h
          exact ⟨act, log, rfl, (children q).trans none'⟩
        · cases h
        · exact ok.last later earlier p (List.cons.inj (List.cons.inj h).2).2
      · rcases later with _ | ⟨e, _ | ⟨e', later⟩⟩
        · cases h
        · cases h
          exact ⟨[], rfl⟩
        · obtain ⟨later', rfl⟩ :=
            ok.each later earlier b p (List.cons.inj (List.cons.inj h).2).2 none
          exact ⟨e :: e' :: later', rfl⟩

end Log

theorem TreeRun.exact {s : State} {log : List TreeEvent} (run : TreeRun s log) :
    TreeExact s ∧ ResumedExactly s log := by
  induction run with
  | start => exact ⟨boot_treeExact, .start⟩
  | own before kept ih => exact ⟨ih.1.kept kept, ih.2.own kept⟩
  | @call s t log resumed c before legal done ih =>
      cases c with
      | enter child step parent priority depth frame =>
          obtain ⟨fresh, live, room⟩ := legal
          obtain ⟨u, run, ok, children⟩ := ssmEnterInt_tree step priority depth frame
            ih.1 fresh live room
          simp only [TreeCall.exec, run, ok_bind] at done
          obtain ⟨-, rfl⟩ := Prod.mk.inj (Except.ok.inj done)
          exact ⟨ok, ih.2.enter children⟩
      | leave act =>
          obtain ⟨live, leaf⟩ := legal
          obtain ⟨r, u, run, ok, left⟩ := leaveFree_tree ih.1 live leaf
          obtain ⟨rfl, rfl⟩ := Prod.mk.inj (Except.ok.inj (run.symm.trans done))
          exact ⟨ok, ih.2.leave left⟩

/-- Where the calls of step functions are runs, a departure with all that it
resumes is one. -/
theorem TreeRun.leave {steps : Steps} {s t : State} {log : List TreeEvent} {act : ActPtr}
    (run : TreeRun s log) (legal : (TreeCall.leave act).Legal s)
    (calls : ∀ f p u v log, TreeRun u log → steps f p u = .ok v → ∃ log', TreeRun v log')
    (done : ssmLeave steps act s = .ok t) : ∃ log', TreeRun t log' := by
  obtain ⟨⟨resumed, u⟩, free, rest⟩ := bind_eq_ok.mp done
  have next := run.call (.leave act) legal free
  cases resumed with
  | none =>
      cases rest
      exact ⟨_, next⟩
  | some p =>
      obtain ⟨a, -, called⟩ := bind_eq_ok.mp rest
      exact calls _ _ _ _ _ next called

/-- What a resumed parent does: it goes on and leaves, or it returns, having
forked again or not. -/
inductive Turn where
  | leaves (t : State)
  | stays (t : State)

/-- The step functions of resumed parents, nested so deep at most. -/
def resume (turn : ActPtr → State → Turn) : Nat → Steps
  | 0, _, _, s => .error ⟨.diverges, s⟩
  | fuel + 1, _, p, s =>
      match turn p s with
      | .leaves t => ssmLeave (resume turn fuel) p t
      | .stays t => .ok t

/-- `ssm_top_return` does nothing, and before it leaves a record writes no counter. -/
structure TurnOk (turn : ActPtr → State → Turn) : Prop where
  top : ∀ s, turn ssmTopParent s = .stays s
  own : ∀ p s t, turn p s = .leaves t → TreeKept s t

/-- The records that leave, one from inside the call of the other, from `act` up
to the last whose caller `stop` stays: it still has children, or its step
function returns. All have left in the state `u`, and the outermost call ends
in `t`. -/
inductive LeaveChain (turn : ActPtr → State → Turn) :
    ActPtr → State → List ActPtr → ActPtr → State → State → Prop
  | waits {act : ActPtr} {s u : State} (left : leaveFree act s = .ok (none, u))
      (more : u.childrenOf (s.callerOf act) ≠ ∅) : LeaveChain turn act s [act] (s.callerOf act) u u
  | stays {act : ActPtr} {s u t : State} (left : leaveFree act s = .ok (some (s.callerOf act), u))
      (last : u.childrenOf (s.callerOf act) = ∅) (returns : turn (s.callerOf act) u = .stays t) :
      LeaveChain turn act s [act] (s.callerOf act) u t
  | leaves {act stop : ActPtr} {s u v w t : State} {chain : List ActPtr}
      (left : leaveFree act s = .ok (some (s.callerOf act), u))
      (last : u.childrenOf (s.callerOf act) = ∅) (goes : turn (s.callerOf act) u = .leaves v)
      (rest : LeaveChain turn (s.callerOf act) v chain stop w t) :
      LeaveChain turn act s (act :: chain) stop w t

/-- Each record that leaves makes the chain shorter. -/
theorem exists_chain {turn : ActPtr → State → Turn} (ok : TurnOk turn) (fuel : Nat) {s : State}
    {log : List TreeEvent} {act : ActPtr} (run : TreeRun s log) (live : act ∈ s.processes)
    (leaf : s.childrenOf act = ∅) (enough : s.numProcesses ≤ fuel) :
    ∃ chain stop u t, LeaveChain turn act s chain stop u t ∧
      ssmLeave (resume turn fuel) act s = .ok t ∧ ∃ log', TreeRun u log' := by
  induction fuel generalizing s log act with
  | zero =>
      have pos := Finset.card_pos.mpr ⟨act, live⟩
      rw [← run.exact.1.numProcesses] at pos
      omega
  | succ fuel ih =>
      obtain ⟨resumed, u, free, exact', left⟩ := leaveFree_tree run.exact.1 live leaf
      have next : TreeRun u _ := run.call (.leave act) ⟨live, leaf⟩ free
      obtain ⟨p, hp⟩ : ∃ p, p = s.callerOf act := ⟨_, rfl⟩
      cases resumed with
      | none =>
          refine ⟨_, _, u, u, .waits free fun last => ?_, ?_, _, next⟩
          · have := (left.resumed _).mpr ⟨rfl, last⟩
            cases this
          · rw [ssmLeave, free]
            rfl
      | some q =>
          obtain ⟨same, last⟩ := (left.resumed q).mp rfl
          obtain rfl : q = p := same.symm.trans hp.symm
          subst hp
          have call : ssmLeave (resume turn (fuel + 1)) act s =
              resume turn (fuel + 1) (u.acts.val (s.callerOf act)).step (s.callerOf act) u := by
            rw [ssmLeave, free, ok_bind]
            simp only [State.loadAct_of_mem left.parent, ok_bind]
          rw [call, resume]
          cases goes : turn (s.callerOf act) u with
          | stays t => exact ⟨_, _, u, t, .stays free last goes, rfl, _, next⟩
          | leaves v =>
              have kept := ok.own _ _ _ goes
              have process : s.callerOf act ∈ v.processes := by
                rw [kept.processes]
                refine State.mem_processes.mpr ⟨fun top => ?_, left.parent⟩
                rw [top, ok.top] at goes
                cases goes
              have fewer : v.numProcesses ≤ fuel := by
                have := left.numProcesses
                have := kept.numProcesses
                omega
              obtain ⟨chain, stop, w, t, rest, ends, log', run'⟩ := ih (next.own kept) process
                ((kept.childrenOf _).trans last) fewer
              exact ⟨_, stop, w, t, .leaves free last goes rest, ends, log', run'⟩

/-- The process tree in every state of every run. -/
theorem processTree_exact {s : State} {log : List TreeEvent} (run : TreeRun s log) :
    TreeExact s ∧ ResumedExactly s log ∧
    (∀ child step parent priority depth frame,
      (TreeCall.enter child step parent priority depth frame).Legal s →
        ∃ t, ssmEnterInt child step parent priority depth frame s = .ok t) ∧
    ∀ act, (TreeCall.leave act).Legal s →
      (∃ resumed t, leaveFree act s = .ok (resumed, t) ∧ Left s t act resumed) ∧
      ∀ turn, TurnOk turn → ∀ fuel, s.numProcesses ≤ fuel →
        ∃ chain stop u t, LeaveChain turn act s chain stop u t ∧
          ssmLeave (resume turn fuel) act s = .ok t ∧ ∃ log', TreeRun u log' := by
  obtain ⟨exact', resumed⟩ := run.exact
  refine ⟨exact', resumed, fun child step parent priority depth frame legal => ?_,
    fun act legal => ⟨?_, fun turn ok fuel enough => ?_⟩⟩
  · obtain ⟨fresh, live, room⟩ := legal
    obtain ⟨t, entered, -⟩ := ssmEnterInt_tree step priority depth frame exact' fresh live room
    exact ⟨t, entered⟩
  · obtain ⟨r, t, free, -, left⟩ := leaveFree_tree exact' legal.1 legal.2
    exact ⟨r, t, free, left⟩
  · exact exists_chain ok fuel run legal.1 legal.2 enough

/-- Play a list of calls as long as each is legal and succeeds. -/
def playTree : List TreeCall → State → List TreeEvent → Option (State × List TreeEvent)
  | [], s, log => some (s, log)
  | c :: cs, s, log =>
      if c.Legal s then
        (c.exec s).toOption.bind fun r => playTree cs r.2 (c.events s r.1 ++ log)
      else none

theorem TreeRun.of_play {cs : List TreeCall} {s : State} {log : List TreeEvent}
    {r : State × List TreeEvent} (run : TreeRun s log) (play : playTree cs s log = some r) :
    TreeRun r.1 r.2 := by
  induction cs generalizing s log with
  | nil =>
      cases play
      exact run
  | cons c cs ih =>
      rw [playTree] at play
      split at play
      · rename_i legal
        obtain ⟨⟨resumed, t⟩, done, rest⟩ := Option.bind_eq_some_iff.mp play
        exact ih (run.call c legal (ok_of_toOption done)) rest
      · cases play

/-- Two groups below record 10, which then leaves itself. -/
def twoGroups : List TreeCall :=
  [.enter 10 0 1 0 4 [], .enter 11 1 10 0 3 [], .enter 12 1 10 8 3 [], .leave 11, .leave 12,
    .enter 11 1 10 0 3 [], .leave 11, .leave 10]

theorem processTree_exact_twoGroups : ∃ r, playTree twoGroups boot [] = some r ∧
    r.2 = [.resumed 1, .left 10 1, .resumed 10, .left 11 10, .entered 11 10, .resumed 10,
      .left 12 10, .left 11 10, .entered 12 10, .entered 11 10, .entered 10 1] ∧
    TreeExact r.1 ∧ ResumedExactly r.1 r.2 := by
  have ends : (playTree twoGroups boot []).any (fun r =>
      r.2 = [.resumed 1, .left 10 1, .resumed 10, .left 11 10, .entered 11 10, .resumed 10,
        .left 12 10, .left 11 10, .entered 12 10, .entered 11 10, .entered 10 1]) = true := by
    decide +kernel
  obtain ⟨r, play, log⟩ := (Option.any_eq_true _ _).mp ends
  obtain ⟨exact', resumed, -⟩ := processTree_exact (.of_play .start play)
  exact ⟨r, play, of_decide_eq_true log, exact', resumed⟩

end SsmRuntime
