import Mathlib.Data.Finset.Card
import Mathlib.Logic.Function.Basic
import Mathlib.Algebra.BigOperators.Group.Finset.Basic

/-!
A finite region of memory cells. The domain says which cells are allocated; a
cell keeps its last content after it is released, as memory does.
-/

structure Table (α : Type) where
  dom : Finset Nat
  val : Nat → α

namespace Table

variable {α : Type}

def get? (t : Table α) (a : Nat) : Option α :=
  if a ∈ t.dom then some (t.val a) else none

def write (t : Table α) (a : Nat) (x : α) : Table α :=
  { t with val := Function.update t.val a x }

def alloc (t : Table α) (a : Nat) (x : α) : Table α :=
  { dom := insert a t.dom, val := Function.update t.val a x }

def release (t : Table α) (a : Nat) : Table α :=
  { t with dom := t.dom.erase a }

theorem ext_val {t u : Table α} (dom : t.dom = u.dom) (val : ∀ a, t.val a = u.val a) : t = u := by
  obtain ⟨_, _⟩ := t
  obtain rfl : _ = u.dom := dom
  exact congrArg (Table.mk u.dom) (funext val)

@[simp] theorem write_dom (t : Table α) (a : Nat) (x : α) : (t.write a x).dom = t.dom := rfl

@[simp] theorem alloc_dom (t : Table α) (a : Nat) (x : α) :
    (t.alloc a x).dom = insert a t.dom := rfl

@[simp] theorem release_dom (t : Table α) (a : Nat) : (t.release a).dom = t.dom.erase a := rfl

@[simp] theorem release_val (t : Table α) (a : Nat) : (t.release a).val = t.val := rfl

@[simp] theorem write_val_self (t : Table α) (a : Nat) (x : α) : (t.write a x).val a = x := by
  simp [write]

theorem write_val_of_ne (t : Table α) {a b : Nat} (x : α) (h : b ≠ a) :
    (t.write a x).val b = t.val b := by simp [write, h]

@[simp] theorem alloc_val_self (t : Table α) (a : Nat) (x : α) : (t.alloc a x).val a = x := by
  simp [alloc]

theorem alloc_val_of_ne (t : Table α) {a b : Nat} (x : α) (h : b ≠ a) :
    (t.alloc a x).val b = t.val b := by simp [alloc, h]

theorem get?_eq_some {t : Table α} {a : Nat} {x : α} :
    t.get? a = some x ↔ a ∈ t.dom ∧ t.val a = x := by
  unfold get?
  split
  · rename_i h
    simp [h]
  · rename_i h
    simp [h]

theorem get?_of_mem {t : Table α} {a : Nat} (h : a ∈ t.dom) : t.get? a = some (t.val a) :=
  get?_eq_some.mpr ⟨h, rfl⟩

end Table
