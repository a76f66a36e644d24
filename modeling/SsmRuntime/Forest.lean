import SsmRuntime.Determinism
import SsmRuntime.Library.Nesting
import SsmRuntime.RecordTree

/-!
Priorities in the process tree. A record has the priorities from its own on, as
many as its depth has bits for, and hands a part of them to each record it
forks. Siblings get parts of one size; a part that is in use is not handed out
again.
-/
namespace SsmRuntime
open Nesting

def ssmRootPriority : Nat := 0

/-- `SSM_ROOT_DEPTH`, the bits of a priority. -/
def ssmRootDepth : Nat := 32

namespace View

/-- The first of the priorities a record has; `ssm_top_parent` has all of them. -/
def lowest (V : View) (a : ActPtr) : Nat :=
  if a = ssmTopParent then ssmRootPriority else V.field Act.priority a

def depth (V : View) (a : ActPtr) : Nat :=
  if a = ssmTopParent then ssmRootDepth else V.field Act.depth a

/-- The first priority after those a record has. -/
def beyond (V : View) (a : ActPtr) : Nat := V.lowest a + 2 ^ V.depth a

/-- Where part `i` of `2 ^ k` of the priorities of a record starts. -/
def part (V : View) (parent k i : Nat) : Nat := V.lowest parent + i * 2 ^ (V.depth parent - k)

/-- A part of the priorities of a record that no child has, and all its children
have parts of this size. -/
structure FreePart (V : View) (parent k i : Nat) : Prop where
  deep : k ≤ V.depth parent
  some : i < 2 ^ k
  others : ∀ b ∈ V.childrenOf parent, V.depth b = V.depth parent - k ∧
    V.lowest b ≠ V.part parent k i

theorem freePart_iff {V : View} {parent k i : Nat} :
    V.FreePart parent k i ↔ k ≤ V.depth parent ∧ i < 2 ^ k ∧
      ∀ b ∈ V.childrenOf parent, V.depth b = V.depth parent - k ∧
        V.lowest b ≠ V.part parent k i :=
  ⟨fun h => ⟨h.deep, h.some, h.others⟩, fun h => ⟨h.1, h.2.1, h.2.2⟩⟩

instance (V : View) (parent k i : Nat) : Decidable (V.FreePart parent k i) :=
  decidable_of_iff _ freePart_iff.symm

/-- Callers and counters tell a tree, and priorities are nested as its records are. -/
structure Forest (V : View) : Prop extends Tree V where
  aligned : ∀ a ∈ V.processes, 2 ^ V.depth a ∣ V.lowest a
  nested : Nested V.processes ssmTopParent V.caller V.lowest V.beyond

section Fields
variable {V : View} {a child step parent priority depth : Nat} {frame : List Value} {act : ActPtr}

theorem lowest_of_mem (h : a ∈ V.processes) : V.lowest a = V.prio a :=
  if_neg (mem_processes.mp h).1

/-- A record without children is a leaf of the tree. -/
theorem leaf_of_childless (h : V.childrenOf a = ∅) : Leaf V.processes V.caller a :=
  fun _ hb => caller_ne_of_childless h hb

theorem enter_lowest (notTop : child ≠ ssmTopParent) (a : ActPtr) :
    (V.enter child step parent priority depth frame).lowest a =
      if a = child then priority else V.lowest a := by
  rw [lowest, enter_field V (fun _ _ => rfl)]
  by_cases h : a = child
  · rw [if_pos h, if_pos h, if_neg (h ▸ notTop)]
  · rw [if_neg h, if_neg h, lowest]

theorem enter_depth (notTop : child ≠ ssmTopParent) (a : ActPtr) :
    (V.enter child step parent priority depth frame).depth a =
      if a = child then depth else V.depth a := by
  rw [View.depth, enter_field V (fun _ _ => rfl)]
  by_cases h : a = child
  · rw [if_pos h, if_pos h, if_neg (h ▸ notTop)]
  · rw [if_neg h, if_neg h, View.depth]

theorem enter_beyond (notTop : child ≠ ssmTopParent) (a : ActPtr) :
    (V.enter child step parent priority depth frame).beyond a =
      if a = child then priority + 2 ^ depth else V.beyond a := by
  rw [beyond, enter_lowest notTop, enter_depth notTop]
  split
  · rfl
  · rfl

theorem leave_lowest {a : ActPtr} (other : a ≠ act) : (V.leave act).lowest a = V.lowest a := by
  rw [lowest, leave_field V (fun _ _ => rfl), if_neg other, lowest]

theorem leave_depth {a : ActPtr} (other : a ≠ act) : (V.leave act).depth a = V.depth a := by
  rw [depth, leave_field V (fun _ _ => rfl), if_neg other, depth]

theorem leave_beyond {a : ActPtr} (other : a ≠ act) : (V.leave act).beyond a = V.beyond a := by
  rw [beyond, leave_lowest other, leave_depth other, beyond]

end Fields

/-- Two multiples of a number are that far apart. -/
theorem apart_of_dvd {m x y : Nat} (hx : m ∣ x) (hy : m ∣ y) (less : x < y) : x + m ≤ y := by
  obtain ⟨i, rfl⟩ := hx
  obtain ⟨j, rfl⟩ := hy
  have step : i + 1 ≤ j := Nat.lt_of_mul_lt_mul_left less
  calc m * i + m = m * (i + 1) := (Nat.mul_succ m i).symm
    _ ≤ m * j := Nat.mul_le_mul_left m step

section Forest
variable {V : View} {a child step parent k i : Nat} {frame : List Value}

/-- The priorities of a record start at a multiple of how many they are. -/
theorem Forest.aligned' (ok : Forest V) (live : a ∈ V.records) : 2 ^ V.depth a ∣ V.lowest a := by
  by_cases h : a = ssmTopParent
  · rw [lowest, if_pos h]
    exact Nat.dvd_zero _
  · exact ok.aligned a (mem_processes.mpr ⟨h, live⟩)

theorem FreePart.aligned (ok : Forest V) (live : parent ∈ V.records) :
    2 ^ (V.depth parent - k) ∣ V.part parent k i := by
  have whole : 2 ^ (V.depth parent - k) ∣ 2 ^ V.depth parent :=
    Nat.pow_dvd_pow 2 (Nat.sub_le _ _)
  exact Nat.dvd_add (whole.trans (ok.aligned' live)) (Nat.dvd_mul_left _ _)

theorem FreePart.inside (free : FreePart V parent k i) :
    V.lowest parent ≤ V.part parent k i ∧
      V.part parent k i + 2 ^ (V.depth parent - k) ≤ V.beyond parent := by
  refine ⟨Nat.le_add_right _ _, ?_⟩
  have parts : 2 ^ k * 2 ^ (V.depth parent - k) = 2 ^ V.depth parent := by
    rw [← Nat.pow_add, Nat.add_sub_cancel' free.deep]
  calc V.part parent k i + 2 ^ (V.depth parent - k)
      = V.lowest parent + (i + 1) * 2 ^ (V.depth parent - k) := by
        rw [part, Nat.add_assoc, ← Nat.succ_mul]
    _ ≤ V.lowest parent + 2 ^ k * 2 ^ (V.depth parent - k) :=
        Nat.add_le_add_left (Nat.mul_le_mul_right _ free.some) _
    _ = V.beyond parent := by rw [parts, beyond]

/-- A part that is free does not meet those that are in use. -/
theorem FreePart.apart (ok : Forest V) (live : parent ∈ V.records)
    (free : FreePart V parent k i) {b : ActPtr} (hb : b ∈ V.childrenOf parent) :
    V.beyond b ≤ V.part parent k i ∨
      V.part parent k i + 2 ^ (V.depth parent - k) ≤ V.lowest b := by
  obtain ⟨same, differ⟩ := free.others b hb
  have here : 2 ^ (V.depth parent - k) ∣ V.part parent k i := FreePart.aligned ok live
  have there : 2 ^ (V.depth parent - k) ∣ V.lowest b := same ▸ ok.aligned b (mem_childrenOf.mp hb).1
  rw [beyond, same]
  rcases Nat.lt_or_gt_of_ne differ with less | more
  · exact .inl (apart_of_dvd there here less)
  · exact .inr (apart_of_dvd here there more)

theorem Forest.caller_mem (ok : Forest V) (ha : a ∈ V.processes) :
    V.caller a ∈ insert ssmTopParent V.processes := by
  by_cases h : V.caller a = ssmTopParent
  · rw [h]
    exact Finset.mem_insert_self _ _
  · exact Finset.mem_insert_of_mem (mem_processes.mpr ⟨h, ok.caller a ha⟩)

/-- A fork into a free part keeps the priorities nested. -/
theorem Forest.enter_nested (ok : Forest V) (fresh : child ∉ V.records) (live : parent ∈ V.records)
    (free : FreePart V parent k i) {W : View}
    (entered : W = V.enter child step parent (V.part parent k i) (V.depth parent - k) frame) :
    Nested W.processes ssmTopParent W.caller W.lowest W.beyond := by
  have notTop : child ≠ ssmTopParent := ok.toTree.notTop fresh
  have other : parent ≠ child := fun h => fresh (h ▸ live)
  have off : child ∉ V.processes := fun h => fresh (mem_processes.mp h).2
  have old : ∀ {b}, b ∈ V.processes → b ≠ child := fun hb h => off (h ▸ hb)
  have oldTop : ∀ b ∈ insert ssmTopParent V.processes, b ≠ child := fun b hb =>
    (Finset.mem_insert.mp hb).elim (fun h e => notTop (e.symm.trans h)) old
  have caller : ∀ a, W.caller a = if a = child then parent else V.caller a :=
    fun a => entered ▸ enter_caller a
  have lowest : ∀ a, W.lowest a = if a = child then V.part parent k i else V.lowest a :=
    fun a => entered ▸ enter_lowest notTop a
  have beyond : ∀ a, W.beyond a =
      if a = child then V.part parent k i + 2 ^ (V.depth parent - k) else V.beyond a :=
    fun a => entered ▸ enter_beyond notTop a
  have processes : W.processes = insert child V.processes := entered ▸ enter_processes notTop
  have before : Nested V.processes ssmTopParent W.caller W.lowest W.beyond :=
    ok.nested.congr (fun a ha => by rw [caller, if_neg (old ha)])
      (fun a ha => by rw [lowest, if_neg (oldTop a ha)])
      (fun a ha => by rw [beyond, if_neg (oldTop a ha)]) fun a ha => ok.caller_mem ha
  rw [processes]
  refine before.insert off notTop (fun b hb => ?_) ?_ ?_ ?_ fun b hb sibling => ?_
  · rw [caller, if_neg (old hb)]
    exact leaf_of_childless (ok.toTree.childless_of_fresh fresh) b hb
  · rw [caller, if_pos rfl]
    by_cases h : parent = ssmTopParent
    · rw [h]
      exact Finset.mem_insert_self _ _
    · exact Finset.mem_insert_of_mem (mem_processes.mpr ⟨h, live⟩)
  · rw [lowest, beyond, if_pos rfl, if_pos rfl]
    exact Nat.lt_add_of_pos_right (Nat.two_pow_pos _)
  · rw [caller, if_pos rfl, lowest, lowest, if_neg other, if_pos rfl, beyond, beyond, if_pos rfl,
      if_neg other]
    exact free.inside
  · rw [caller, caller, if_neg (old hb), if_pos rfl] at sibling
    simp only [Before, lowest, beyond, if_neg (old hb), if_true]
    exact free.apart ok live (mem_childrenOf.mpr ⟨hb, sibling⟩)

theorem Forest.enter (ok : Forest V) (fresh : child ∉ V.records) (live : parent ∈ V.records)
    (room : (V.childrenOf parent).card + 1 < 2 ^ 16) (free : FreePart V parent k i) :
    Forest (V.enter child step parent (V.part parent k i) (V.depth parent - k) frame) := by
  have notTop : child ≠ ssmTopParent := ok.toTree.notTop fresh
  have off : child ∉ V.processes := fun h => fresh (mem_processes.mp h).2
  refine ⟨ok.toTree.enter fresh live room, fun a ha => ?_, ok.enter_nested fresh live free rfl⟩
  rw [enter_processes notTop] at ha
  rw [enter_depth notTop, enter_lowest notTop]
  rcases Finset.mem_insert.mp ha with rfl | ha
  · rw [if_pos rfl, if_pos rfl]
    exact FreePart.aligned ok live
  · have old : a ≠ child := fun h => off (h ▸ ha)
    rw [if_neg old, if_neg old]
    exact ok.aligned a ha

/-- The departure of a record that has no children keeps them as well. -/
theorem Forest.leave {act : ActPtr} (ok : Forest V) (live : act ∈ V.processes)
    (childless : V.childrenOf act = ∅) : Forest (V.leave act) := by
  have leaf : Leaf V.processes V.caller act := leaf_of_childless childless
  have notTop : act ≠ ssmTopParent := (mem_processes.mp live).1
  have top : ∀ a ∈ insert ssmTopParent (V.processes.erase act), a ≠ act := fun a ha =>
    (Finset.mem_insert.mp ha).elim (fun h e => notTop (e.symm.trans h)) Finset.ne_of_mem_erase
  refine ⟨ok.toTree.leave live childless, fun a ha => ?_, ?_⟩
  · rw [leave_processes] at ha
    have other := Finset.ne_of_mem_erase ha
    rw [leave_depth other, leave_lowest other]
    exact ok.aligned a (Finset.mem_of_mem_erase ha)
  · rw [leave_processes]
    refine (ok.nested.erase leaf).congr (fun a ha => ?_) (fun a ha => leave_lowest (top a ha))
      (fun a ha => leave_beyond (top a ha)) fun a ha => ?_
    · rw [leave_caller, if_neg (Finset.ne_of_mem_erase ha)]
    · have old := Finset.mem_of_mem_erase ha
      rcases Finset.mem_insert.mp (ok.caller_mem old) with h | h
      · rw [h]
        exact Finset.mem_insert_self _ _
      · exact Finset.mem_insert_of_mem (Finset.mem_erase.mpr ⟨leaf _ old, h⟩)

/-- Callers, counters, priorities and depths are the same. -/
structure SameTree (V W : View) : Prop where
  records : W.records = V.records
  recorded : ∀ a, (W.record a).isSome = (V.record a).isSome
  caller : W.field Act.caller = V.field Act.caller
  children : W.field Act.children = V.field Act.children
  priority : W.field Act.priority = V.field Act.priority
  depth : W.field Act.depth = V.field Act.depth

theorem SameTree.processes {W : View} (same : SameTree V W) : W.processes = V.processes :=
  processes_congr same.records

theorem SameTree.childrenOf {W : View} (same : SameTree V W) : W.childrenOf = V.childrenOf :=
  childrenOf_congr same.records same.caller

theorem SameTree.lowest {W : View} (same : SameTree V W) : W.lowest = V.lowest := by
  funext a
  rw [View.lowest, same.priority, View.lowest]

theorem SameTree.depths {W : View} (same : SameTree V W) : W.depth = V.depth := by
  funext a
  rw [View.depth, same.depth, View.depth]

theorem SameTree.beyond {W : View} (same : SameTree V W) : W.beyond = V.beyond := by
  funext a
  rw [View.beyond, same.lowest, same.depths, View.beyond]

theorem Forest.congr {W : View} (ok : Forest V) (same : SameTree V W) : Forest W where
  toTree := ok.toTree.congr same.records (fun a => by
    rw [same.records, same.recorded]
    exact ok.recorded a) same.caller same.children
  aligned := fun a ha => by
    rw [same.depths, same.lowest]
    exact ok.aligned a (same.processes ▸ ha)
  nested := by
    rw [same.processes, same.lowest, same.beyond, View.caller, same.caller]
    exact ok.nested

end Forest
end View

end SsmRuntime
