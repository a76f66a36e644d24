import Mathlib.Data.Finset.Card
import Mathlib.Logic.Relation

/-!
Intervals on a tree. Every node but the root has a parent and an interval that
lies inside that of its parent, and the intervals of siblings do not meet. Then
any two nodes are on one path, or the interval of one ends before the other's.
-/
namespace Nesting

variable {N : Type}

/-- A node is reached from another by going down to children. -/
def Above (nodes : Finset N) (parent : N → N) : N → N → Prop :=
  Relation.ReflTransGen fun a b => b ∈ nodes ∧ parent b = a

def Leaf (nodes : Finset N) (parent : N → N) (a : N) : Prop := ∀ b ∈ nodes, parent b ≠ a

def Before (lo hi : N → Nat) (a b : N) : Prop := hi a ≤ lo b

structure Nested (nodes : Finset N) (root : N) (parent : N → N) (lo hi : N → Nat) : Prop where
  root_notMem : root ∉ nodes
  rooted : ∀ a ∈ nodes, Above nodes parent root a
  some : ∀ a ∈ nodes, lo a < hi a
  inside : ∀ a ∈ nodes, lo (parent a) ≤ lo a ∧ hi a ≤ hi (parent a)
  apart : ∀ a ∈ nodes, ∀ b ∈ nodes, a ≠ b → parent a = parent b →
    Before lo hi a b ∨ Before lo hi b a

section Paths
variable {nodes : Finset N} {parent : N → N} {a b c : N}

theorem Above.refl (a : N) : Above nodes parent a a := Relation.ReflTransGen.refl

theorem Above.trans (h : Above nodes parent a b) (k : Above nodes parent b c) :
    Above nodes parent a c := Relation.ReflTransGen.trans h k

theorem Above.child (hb : b ∈ nodes) (h : Above nodes parent a (parent b)) :
    Above nodes parent a b := Relation.ReflTransGen.tail h ⟨hb, rfl⟩

/-- Nothing is below a leaf but itself. -/
theorem Above.eq_of_leaf (h : Above nodes parent a b) (leaf : Leaf nodes parent a) : a = b := by
  rcases Relation.ReflTransGen.cases_head h with rfl | ⟨c, ⟨hc, below⟩, _⟩
  · rfl
  · exact (leaf c hc below).elim

theorem Above.mem (h : Above nodes parent a b) (differ : a ≠ b) : b ∈ nodes := by
  rcases Relation.ReflTransGen.cases_tail h with rfl | ⟨c, _, hb, _⟩
  · exact (differ rfl).elim
  · exact hb

theorem Above.mono {more : Finset N} {parent' : N → N} (h : Above nodes parent a b)
    (sub : nodes ⊆ more) (same : ∀ a ∈ nodes, parent' a = parent a) :
    Above more parent' a b := by
  induction h with
  | refl => exact Above.refl a
  | tail _ step ih => exact ih.tail ⟨sub step.1, (same _ step.1).trans step.2⟩

/-- A path that does not end at a leaf does not go through it. -/
theorem Above.erase [DecidableEq N] (h : Above nodes parent a b) (leaf : Leaf nodes parent c)
    (differ : b ≠ c) : Above (nodes.erase c) parent a b := by
  induction h with
  | refl => exact Above.refl a
  | @tail p b path step ih =>
      have off : p ≠ c := fun same => leaf b step.1 (step.2.trans same)
      exact Relation.ReflTransGen.tail (ih off) ⟨Finset.mem_erase.mpr ⟨differ, step.1⟩, step.2⟩

end Paths

section Order
variable {nodes : Finset N} {root : N} {parent : N → N} {lo hi : N → Nat} {a b x y : N}

theorem Nested.inside_of_above (ok : Nested nodes root parent lo hi)
    (h : Above nodes parent a b) : lo a ≤ lo b ∧ hi b ≤ hi a := by
  induction h with
  | refl => exact ⟨Nat.le_refl _, Nat.le_refl _⟩
  | @tail p b _ step ih =>
      obtain ⟨hb, rfl⟩ := step
      obtain ⟨hl, hr⟩ := ok.inside b hb
      exact ⟨Nat.le_trans ih.1 hl, Nat.le_trans hr ih.2⟩

/-- What is below two nodes comes in the order of the two. -/
theorem Nested.before_below (ok : Nested nodes root parent lo hi) (h : Before lo hi x y)
    (ha : Above nodes parent x a) (hb : Above nodes parent y b) : Before lo hi a b :=
  Nat.le_trans (ok.inside_of_above ha).2 (Nat.le_trans h (ok.inside_of_above hb).1)

/-- Two nodes are on one path, or one interval ends before the other starts. -/
theorem Nested.path_or_apart (ok : Nested nodes root parent lo hi) (ha : a ∈ nodes)
    (hb : b ∈ nodes) : Above nodes parent a b ∨ Above nodes parent b a ∨
      Before lo hi a b ∨ Before lo hi b a := by
  have go : ∀ a, Above nodes parent root a → Above nodes parent a b ∨ Above nodes parent b a ∨
      Before lo hi a b ∨ Before lo hi b a := by
    intro a path
    induction path with
    | refl => exact .inl (ok.rooted b hb)
    | @tail p a _ step ih =>
        obtain ⟨ha, rfl⟩ := step
        have here : Above nodes parent (parent a) a := Above.child ha (Above.refl _)
        rcases ih with down | up | before | after
        · rcases Relation.ReflTransGen.cases_head down with same | ⟨d, ⟨hd, sibling⟩, below⟩
          · exact .inr (.inl (same ▸ here))
          · by_cases same : d = a
            · exact .inl (same ▸ below)
            · rcases ok.apart d hd a ha same sibling with h | h
              · exact .inr (.inr (.inr (ok.before_below h below (Above.refl a))))
              · exact .inr (.inr (.inl (ok.before_below h (Above.refl a) below)))
        · exact .inr (.inl (up.trans here))
        · exact .inr (.inr (.inl (ok.before_below before here (Above.refl b))))
        · exact .inr (.inr (.inr (ok.before_below after (Above.refl b) here)))
  exact go a (ok.rooted a ha)

theorem Nested.leaves_apart (ok : Nested nodes root parent lo hi) (ha : a ∈ nodes)
    (hb : b ∈ nodes) (leafA : Leaf nodes parent a) (leafB : Leaf nodes parent b)
    (differ : a ≠ b) : Before lo hi a b ∨ Before lo hi b a := by
  rcases ok.path_or_apart ha hb with h | h | h
  · exact (differ (h.eq_of_leaf leafA)).elim
  · exact (differ (h.eq_of_leaf leafB).symm).elim
  · exact h

/-- Of two leaves the one that starts first also ends before the other. -/
theorem Nested.before_of_lo_le (ok : Nested nodes root parent lo hi) (ha : a ∈ nodes)
    (hb : b ∈ nodes) (leafA : Leaf nodes parent a) (leafB : Leaf nodes parent b)
    (differ : a ≠ b) (first : lo a ≤ lo b) : Before lo hi a b := by
  rcases ok.leaves_apart ha hb leafA leafB differ with h | h
  · exact h
  · exact absurd (ok.some b hb) (Nat.not_lt.mpr (Nat.le_trans h first))

end Order

section Changes
variable [DecidableEq N] {nodes : Finset N} {root c : N} {parent parent' : N → N}
  {lo hi lo' hi' : N → Nat}

theorem nested_empty {N : Type} (root : N) (parent : N → N) (lo hi : N → Nat) :
    Nested ∅ root parent lo hi where
  root_notMem := Finset.notMem_empty root
  rooted := fun _ h => (Finset.notMem_empty _ h).elim
  some := fun _ h => (Finset.notMem_empty _ h).elim
  inside := fun _ h => (Finset.notMem_empty _ h).elim
  apart := fun _ h => (Finset.notMem_empty _ h).elim

/-- What is said of parents and intervals that are not read makes no difference. -/
theorem Nested.congr (ok : Nested nodes root parent lo hi)
    (parents : ∀ a ∈ nodes, parent' a = parent a)
    (los : ∀ a ∈ insert root nodes, lo' a = lo a) (his : ∀ a ∈ insert root nodes, hi' a = hi a)
    (known : ∀ a ∈ nodes, parent a ∈ insert root nodes) : Nested nodes root parent' lo' hi' where
  root_notMem := ok.root_notMem
  rooted := fun a ha => (ok.rooted a ha).mono (Finset.Subset.refl _) parents
  some := fun a ha => by
    have mem : a ∈ insert root nodes := Finset.mem_insert_of_mem ha
    rw [los a mem, his a mem]
    exact ok.some a ha
  inside := fun a ha => by
    have mem : a ∈ insert root nodes := Finset.mem_insert_of_mem ha
    rw [parents a ha, los a mem, his a mem, los _ (known a ha), his _ (known a ha)]
    exact ok.inside a ha
  apart := fun a ha b hb differ sibling => by
    have memA : a ∈ insert root nodes := Finset.mem_insert_of_mem ha
    have memB : b ∈ insert root nodes := Finset.mem_insert_of_mem hb
    rw [parents a ha, parents b hb] at sibling
    simp only [Before, los a memA, los b memB, his a memA, his b memB]
    exact ok.apart a ha b hb differ sibling

theorem Nested.erase (ok : Nested nodes root parent lo hi) (leaf : Leaf nodes parent c) :
    Nested (nodes.erase c) root parent lo hi where
  root_notMem := fun h => ok.root_notMem (Finset.mem_of_mem_erase h)
  rooted := fun a ha =>
    (ok.rooted a (Finset.mem_of_mem_erase ha)).erase leaf (Finset.ne_of_mem_erase ha)
  some := fun a ha => ok.some a (Finset.mem_of_mem_erase ha)
  inside := fun a ha => ok.inside a (Finset.mem_of_mem_erase ha)
  apart := fun a ha b hb =>
    ok.apart a (Finset.mem_of_mem_erase ha) b (Finset.mem_of_mem_erase hb)

/-- A new leaf inside the interval of its parent, apart from its siblings. -/
theorem Nested.insert (ok : Nested nodes root parent lo hi) (fresh : c ∉ nodes)
    (other : c ≠ root) (leaf : Leaf nodes parent c) (below : parent c ∈ insert root nodes)
    (new : lo c < hi c) (inside : lo (parent c) ≤ lo c ∧ hi c ≤ hi (parent c))
    (apart : ∀ b ∈ nodes, parent b = parent c → Before lo hi b c ∨ Before lo hi c b) :
    Nested (insert c nodes) root parent lo hi where
  root_notMem := fun h => (Finset.mem_insert.mp h).elim (fun e => other e.symm) ok.root_notMem
  rooted := fun a ha => by
    have old : ∀ a ∈ nodes, Above (Insert.insert c nodes) parent root a := fun a ha =>
      (ok.rooted a ha).mono (Finset.subset_insert c nodes) fun _ _ => rfl
    rcases Finset.mem_insert.mp ha with rfl | ha
    · refine Above.child (Finset.mem_insert_self _ _) ?_
      rcases Finset.mem_insert.mp below with top | mem
      · rw [top]
        exact Above.refl root
      · exact old _ mem
    · exact old a ha
  some := fun a ha => by
    rcases Finset.mem_insert.mp ha with rfl | ha
    · exact new
    · exact ok.some a ha
  inside := fun a ha => by
    rcases Finset.mem_insert.mp ha with rfl | ha
    · exact inside
    · exact ok.inside a ha
  apart := fun a ha b hb differ sibling => by
    rcases Finset.mem_insert.mp ha with rfl | oldA
    · rcases Finset.mem_insert.mp hb with rfl | oldB
      · exact (differ rfl).elim
      · exact (apart b oldB sibling.symm).symm
    · rcases Finset.mem_insert.mp hb with rfl | oldB
      · exact apart a oldA sibling
      · exact ok.apart a oldA b oldB differ sibling

end Changes

end Nesting
