import Mathlib.Data.Finset.Card
import Mathlib.Logic.Function.Basic

/-!
Binary heaps laid out in positions `1..n` of an array, with a hole. Position
`i` has parent `i / 2`. The two move rules and the one filling rule say what a
sift loop needs; the contents are a multiset, so that a move is seen to lose
and repeat nothing. Keys come from a function that may change between uses.
-/
namespace BinaryHeap

universe u v
variable {α : Type u} {K : Type v} [LinearOrder K]

def Ordered (key : α → K) (q : Nat → α) (n : Nat) : Prop :=
  ∀ i, 2 ≤ i → i ≤ n → key (q (i / 2)) ≤ key (q i)

/-- Heap order everywhere off the hole, whose own entry is ignored. -/
structure Hole (key : α → K) (q : Nat → α) (n hole : Nat) : Prop where
  except : ∀ i, 2 ≤ i → i ≤ n → i ≠ hole → i / 2 ≠ hole →
    key (q (i / 2)) ≤ key (q i)
  grand : 2 ≤ hole → ∀ c, c / 2 = hole → c ≤ n →
    key (q (hole / 2)) ≤ key (q c)

def Above (key : α → K) (q : Nat → α) (hole : Nat) (k : K) : Prop :=
  2 ≤ hole → key (q (hole / 2)) ≤ k

def Below (key : α → K) (q : Nat → α) (n hole : Nat) (k : K) : Prop :=
  ∀ c, 2 ≤ c → c / 2 = hole → c ≤ n → k ≤ key (q c)

section Order
variable {key key' : α → K} {q : Nat → α} {n hole : Nat}

theorem Ordered.congr (h : Ordered key q n)
    (same : ∀ i, 1 ≤ i → i ≤ n → key' (q i) = key (q i)) : Ordered key' q n := by
  intro i hi hn
  rw [same i (by omega) hn, same (i / 2) (by omega) (by omega)]
  exact h i hi hn

theorem Ordered.mono (h : Ordered key q n) {m : Nat} (hm : m ≤ n) : Ordered key q m :=
  fun i hi hn => h i hi (by omega)

theorem Ordered.root_le (h : Ordered key q n) (i : Nat) (hi : 1 ≤ i) (hn : i ≤ n) :
    key (q 1) ≤ key (q i) := by
  induction i using Nat.strongRecOn with
  | _ i ih =>
      by_cases h1 : i = 1
      · rw [h1]
      · exact le_trans (ih (i / 2) (by omega) (by omega) (by omega))
          (h i (by omega) hn)

theorem Ordered.toHole (h : Ordered key q n) {m : Nat} (hm : m ≤ n) (hole : Nat) :
    Hole key q m hole where
  except := fun i hi hn _ _ => h i hi (by omega)
  grand := fun h2 c hc hn => by
    have parent := h hole h2 (by omega)
    have child := h c (by omega) (by omega)
    rw [hc] at child
    exact le_trans parent child

/-- A fresh last position has no children, so any ordered prefix leaves a hole there. -/
theorem Ordered.toLastHole (h : Ordered key q n) : Hole key q (n + 1) (n + 1) where
  except := fun i hi hn hne _ => h i hi (by omega)
  grand := fun _ c hc hn => by omega

theorem Hole.congr (h : Hole key q n hole)
    (same : ∀ i, 1 ≤ i → i ≤ n → i ≠ hole → key' (q i) = key (q i))
    (hn : hole ≤ n) : Hole key' q n hole where
  except := fun i hi hi' hne hpe => by
    rw [same i (by omega) hi' hne, same (i / 2) (by omega) (by omega) hpe]
    exact h.except i hi hi' hne hpe
  grand := fun h2 c hc hn' => by
    rw [same c (by omega) hn' (by omega), same (hole / 2) (by omega) (by omega) (by omega)]
    exact h.grand h2 c hc hn'

theorem Hole.moveUp (h : Hole key q n hole) (h2 : 2 ≤ hole) (hn : hole ≤ n) :
    Hole key (Function.update q hole (q (hole / 2))) n (hole / 2) where
  except := fun i hi hi' hne hpe => by
    have hih : i ≠ hole := by intro e; subst e; exact hpe rfl
    rw [Function.update_of_ne hih]
    by_cases hp : i / 2 = hole
    · rw [hp, Function.update_self]
      exact h.grand h2 i hp hi'
    · rw [Function.update_of_ne hp]
      exact h.except i hi hi' hih hp
  grand := fun hp2 c hc hc' => by
    rw [Function.update_of_ne (show hole / 2 / 2 ≠ hole by omega)]
    have up : key (q (hole / 2 / 2)) ≤ key (q (hole / 2)) :=
      h.except (hole / 2) hp2 (by omega) (by omega) (by omega)
    by_cases hch : c = hole
    · rw [hch, Function.update_self]
      exact up
    · rw [Function.update_of_ne hch]
      have side := h.except c (by omega) hc' hch (by omega)
      rw [hc] at side
      exact le_trans up side

theorem Hole.below_moveUp (h : Hole key q n hole) (h2 : 2 ≤ hole) (k : K)
    (hk : k < key (q (hole / 2))) :
    Below key (Function.update q hole (q (hole / 2))) n (hole / 2) k := by
  intro c hc2 hc hn
  by_cases hch : c = hole
  · rw [hch, Function.update_self]
    exact le_of_lt hk
  · rw [Function.update_of_ne hch]
    have side := h.except c hc2 hn hch (by omega)
    rw [hc] at side
    exact le_trans (le_of_lt hk) side

theorem Hole.moveDown (h : Hole key q n hole) {c : Nat} (h1 : 1 ≤ hole)
    (hc : c / 2 = hole) (hn : c ≤ n)
    (least : ∀ d, 2 ≤ d → d / 2 = hole → d ≤ n → key (q c) ≤ key (q d)) :
    Hole key (Function.update q hole (q c)) n c where
  except := fun i hi hi' hne hpe => by
    by_cases hih : i = hole
    · rw [hih, Function.update_self, Function.update_of_ne (by omega)]
      exact h.grand (by omega) c hc hn
    · rw [Function.update_of_ne hih]
      by_cases hp : i / 2 = hole
      · rw [hp, Function.update_self]
        exact least i hi hp hi'
      · rw [Function.update_of_ne hp]
        exact h.except i hi hi' hih hp
  grand := fun _ d hd hd' => by
    rw [hc, Function.update_self, Function.update_of_ne (by omega)]
    have down := h.except d (by omega) hd' (by omega) (by omega)
    rwa [hd] at down

theorem above_moveDown {c : Nat} {k : K} (hc : c / 2 = hole) (hk : key (q c) ≤ k) :
    Above key (Function.update q hole (q c)) c k := by
  intro _
  rw [hc, Function.update_self]
  exact hk

theorem Hole.fill (h : Hole key q n hole) (x : α) (h1 : 1 ≤ hole)
    (above : Above key q hole (key x)) (below : Below key q n hole (key x)) :
    Ordered key (Function.update q hole x) n := by
  intro i hi hn
  by_cases hih : i = hole
  · subst hih
    rw [Function.update_self, Function.update_of_ne (by omega)]
    exact above hi
  · rw [Function.update_of_ne hih]
    by_cases hp : i / 2 = hole
    · rw [hp, Function.update_self]
      exact below i hi hp hn
    · rw [Function.update_of_ne hp]
      exact h.except i hi hn hih hp

/-- An entry not later than the hole's parent is not later than its children. -/
theorem Hole.below_of_parent (h : Hole key q n hole) {k : K} (h2 : 2 ≤ hole)
    (hk : k ≤ key (q (hole / 2))) : Below key q n hole k :=
  fun c _ hc hn => le_trans hk (h.grand h2 c hc hn)

end Order

def contents (q : Nat → α) (n : Nat) : Multiset α :=
  (Multiset.range n).map fun i => q (i + 1)

section Contents
variable {q : Nat → α} {n : Nat}

@[simp] theorem contents_zero (q : Nat → α) : contents q 0 = 0 := rfl

theorem contents_succ (q : Nat → α) (n : Nat) :
    contents q (n + 1) = q (n + 1) ::ₘ contents q n := by
  simp [contents, Multiset.range_succ]

@[simp] theorem card_contents (q : Nat → α) (n : Nat) : (contents q n).card = n := by
  simp [contents]

theorem mem_contents {y : α} : y ∈ contents q n ↔ ∃ i, 1 ≤ i ∧ i ≤ n ∧ q i = y := by
  simp only [contents, Multiset.mem_map, Multiset.mem_range]
  constructor
  · rintro ⟨i, hi, rfl⟩
    exact ⟨i + 1, by omega, by omega, rfl⟩
  · rintro ⟨i, h1, hn, rfl⟩
    exact ⟨i - 1, by omega, by rw [Nat.sub_add_cancel h1]⟩

theorem mem_contents_of {i : Nat} (h1 : 1 ≤ i) (hn : i ≤ n) : q i ∈ contents q n :=
  mem_contents.mpr ⟨i, h1, hn, rfl⟩

theorem contents_congr {q' : Nat → α} (h : ∀ i, 1 ≤ i → i ≤ n → q i = q' i) :
    contents q n = contents q' n :=
  Multiset.map_congr rfl fun i hi =>
    h (i + 1) (by omega) (Multiset.mem_range.mp hi)

theorem contents_update (x : α) {h : Nat} (h1 : 1 ≤ h) (hn : h ≤ n) :
    q h ::ₘ contents (Function.update q h x) n = x ::ₘ contents q n := by
  induction n with
  | zero => omega
  | succ n ih =>
      rw [contents_succ, contents_succ]
      by_cases hl : h = n + 1
      · subst hl
        have rest : contents (Function.update q (n + 1) x) n = contents q n :=
          contents_congr fun i _ hi => Function.update_of_ne (by omega) _ _
        rw [Function.update_self, rest, Multiset.cons_swap]
      · rw [Function.update_of_ne (by omega), Multiset.cons_swap, ih (by omega),
          Multiset.cons_swap]

theorem contents_move (x : α) {h p : Nat} (h1 : 1 ≤ h) (hn : h ≤ n) (p1 : 1 ≤ p)
    (pn : p ≤ n) (hp : p ≠ h) :
    contents (Function.update (Function.update q h (q p)) p x) n =
      contents (Function.update q h x) n := by
  have inner := contents_update (q := q) (q p) h1 hn
  have outer := contents_update (q := Function.update q h (q p)) x p1 pn
  have direct := contents_update (q := q) x h1 hn
  rw [Function.update_of_ne hp] at outer
  have both : q p ::ₘ q h ::ₘ contents (Function.update (Function.update q h (q p)) p x) n =
      q p ::ₘ q h ::ₘ contents (Function.update q h x) n := by
    rw [Multiset.cons_swap, outer, direct, Multiset.cons_swap, inner, Multiset.cons_swap]
  simpa using both

theorem index_unique (nodup : (contents q n).Nodup) {i j : Nat} (hi : 1 ≤ i) (hin : i ≤ n)
    (hj : 1 ≤ j) (hjn : j ≤ n) (same : q i = q j) : i = j := by
  have inj := Multiset.inj_on_of_nodup_map nodup (i - 1) (by simp; omega)
    (j - 1) (by simp; omega)
  have := inj (by rw [Nat.sub_add_cancel hi, Nat.sub_add_cancel hj, same])
  omega

end Contents

end BinaryHeap
