import Mathlib.Data.Finset.Card
import Mathlib.Data.List.Count
import Mathlib.Logic.Function.Basic

/-!
An agenda: a clock and a map from names to at most one entry each, a time and
a payload. Entries are scheduled, cancelled and delivered; the clock moves
forward, never past an entry, and delivers an entry when it reads its time.
Histories are lists of events, the latest first.
-/
structure Agenda (V X : Type) where
  now : Nat
  entry : V → Option (Nat × X)

namespace Agenda

inductive Event (V X : Type) where
  | scheduled (v : V) (time : Nat) (x : X)
  | cancelled (v : V)
  | advanced (time : Nat)
  | delivered (v : V) (time : Nat) (x : X)
  deriving DecidableEq

section
variable {V X : Type} [DecidableEq V]

def set (a : Agenda V X) (v : V) (e : Option (Nat × X)) : Agenda V X :=
  { a with entry := Function.update a.entry v e }

/-- No entry lies before a time. -/
def NoneBefore (a : Agenda V X) (time : Nat) : Prop :=
  ∀ v t x, a.entry v = some (t, x) → time ≤ t

/-- Every entry lies before a time. -/
def AllBelow (a : Agenda V X) (time : Nat) : Prop :=
  ∀ v t x, a.entry v = some (t, x) → t < time

inductive Step : Agenda V X → Event V X → Agenda V X → Prop where
  | schedule {a : Agenda V X} (v : V) {t : Nat} (x : X) :
      a.now < t → Step a (.scheduled v t x) (a.set v (some (t, x)))
  | cancel {a : Agenda V X} (v : V) : Step a (.cancelled v) (a.set v none)
  | advance {a : Agenda V X} {t : Nat} :
      a.now ≤ t → a.NoneBefore t → Step a (.advanced t) { a with now := t }
  | deliver {a : Agenda V X} {v : V} {x : X} :
      a.entry v = some (a.now, x) → Step a (.delivered v a.now x) (a.set v none)

inductive Run (a : Agenda V X) : List (Event V X) → Agenda V X → Prop where
  | nil : Run a [] a
  | cons {h : List (Event V X)} {b c : Agenda V X} {e : Event V X} :
      Run a h b → Step b e c → Run a (e :: h) c

/-- What a history says is still to come for a name. -/
def outstanding (v : V) : List (Event V X) → Option (Nat × X)
  | [] => none
  | .scheduled w t x :: h => if w = v then some (t, x) else outstanding v h
  | .cancelled w :: h => if w = v then none else outstanding v h
  | .advanced _ :: h => outstanding v h
  | .delivered w _ _ :: h => if w = v then none else outstanding v h

/-- An event ends the entry of a name. -/
def Ends (v : V) : Event V X → Prop
  | .scheduled w _ _ => w = v
  | .cancelled w => w = v
  | .advanced _ => False
  | .delivered w _ _ => w = v

theorem set_entry_self (a : Agenda V X) (v : V) (e : Option (Nat × X)) :
    (a.set v e).entry v = e := by simp [set]

theorem set_entry_of_ne (a : Agenda V X) {v w : V} (e : Option (Nat × X)) (h : w ≠ v) :
    (a.set v e).entry w = a.entry w := by simp [set, h]

theorem Step.outstanding {a b : Agenda V X} {e : Event V X} {h : List (Event V X)}
    (step : Step a e b) (before : ∀ v, a.entry v = outstanding v h) (v : V) :
    b.entry v = outstanding v (e :: h) := by
  cases step with
  | schedule w x late =>
      rw [Agenda.outstanding]
      split
      · rename_i same
        rw [same, set_entry_self]
      · rename_i other
        rw [set_entry_of_ne _ _ (Ne.symm other), before]
  | cancel w =>
      rw [Agenda.outstanding]
      split
      · rename_i same
        rw [same, set_entry_self]
      · rename_i other
        rw [set_entry_of_ne _ _ (Ne.symm other), before]
  | advance => exact before v
  | @deliver w x due =>
      rw [Agenda.outstanding]
      split
      · rename_i same
        rw [same, set_entry_self]
      · rename_i other
        rw [set_entry_of_ne _ _ (Ne.symm other), before]

/-- The map is what the history leaves to come. -/
theorem Run.outstanding {a b : Agenda V X} {h : List (Event V X)} (run : Run a h b)
    (empty : ∀ v, a.entry v = none) (v : V) : b.entry v = outstanding v h := by
  induction run generalizing v with
  | nil => exact empty v
  | cons run step ih => exact step.outstanding ih v

theorem Run.append {a b c : Agenda V X} {h k : List (Event V X)} (run : Run a h b)
    (more : Run b k c) : Run a (k ++ h) c := by
  induction more with
  | nil => exact run
  | cons more step ih => exact ih.cons step

theorem Run.split {a c : Agenda V X} {h k : List (Event V X)} (run : Run a (k ++ h) c) :
    ∃ b, Run a h b ∧ Run b k c := by
  induction k generalizing c with
  | nil => exact ⟨c, run, .nil⟩
  | cons e k ih =>
      cases run with
      | cons before step =>
          obtain ⟨b, first, later⟩ := ih before
          exact ⟨b, first, later.cons step⟩

/-- What is delivered was outstanding, for exactly that time. -/
theorem Run.delivered {a b : Agenda V X} {h k : List (Event V X)} {v : V} {t : Nat} {x : X}
    (run : Run a (k ++ .delivered v t x :: h) b) (empty : ∀ v, a.entry v = none) :
    Agenda.outstanding v h = some (t, x) := by
  obtain ⟨c, before, -⟩ := run.split
  cases before with
  | cons before step =>
      cases step with
      | deliver due => rw [← before.outstanding empty, due]

theorem AllBelow.set {a : Agenda V X} {time : Nat} {v : V} {e : Option (Nat × X)}
    (before : a.AllBelow time) (new : ∀ t x, e = some (t, x) → t < time) :
    (a.set v e).AllBelow time := by
  intro w t x h
  by_cases same : w = v
  · subst same
    rw [set_entry_self] at h
    exact new t x h
  · rw [set_entry_of_ne _ _ same] at h
    exact before w t x h

theorem Step.allBelow {a b : Agenda V X} {e : Event V X} {time : Nat} (step : Step a e b)
    (before : a.AllBelow time) (new : ∀ v t x, e = .scheduled v t x → t < time) :
    b.AllBelow time := by
  cases step with
  | schedule v x late =>
      refine before.set fun t' x' h => ?_
      cases h
      exact new v _ x rfl
  | cancel v => exact before.set fun t' x' h => by cases h
  | advance => exact before
  | deliver due => exact before.set fun t' x' h => by cases h

/-- Entries lie before a time if all that was scheduled does. -/
theorem Run.allBelow {a b : Agenda V X} {h : List (Event V X)} {time : Nat} (run : Run a h b)
    (before : a.AllBelow time) (new : ∀ v t x, .scheduled v t x ∈ h → t < time) :
    b.AllBelow time := by
  induction run with
  | nil => exact before
  | cons run step ih =>
      refine step.allBelow (ih fun v t x mem => new v t x (List.mem_cons_of_mem _ mem)) ?_
      rintro v t x rfl
      exact new v t x List.mem_cons_self

theorem Step.noneBefore {a b : Agenda V X} {e : Event V X} (step : Step a e b)
    (before : a.NoneBefore a.now) : a.now ≤ b.now ∧ b.NoneBefore b.now := by
  cases step with
  | @schedule v t x late =>
      refine ⟨Nat.le_refl _, fun w t' x' h => ?_⟩
      by_cases same : w = v
      · subst same
        rw [set_entry_self] at h
        cases h
        exact Nat.le_of_lt late
      · rw [set_entry_of_ne _ _ same] at h
        exact before w t' x' h
  | cancel v =>
      refine ⟨Nat.le_refl _, fun w t' x' h => ?_⟩
      by_cases same : w = v
      · subst same
        rw [set_entry_self] at h
        cases h
      · rw [set_entry_of_ne _ _ same] at h
        exact before w t' x' h
  | advance forward none => exact ⟨forward, none⟩
  | @deliver v x due =>
      refine ⟨Nat.le_refl _, fun w t' x' h => ?_⟩
      by_cases same : w = v
      · subst same
        rw [set_entry_self] at h
        cases h
      · rw [set_entry_of_ne _ _ same] at h
        exact before w t' x' h

/-- The clock never goes back and no entry is ever late. -/
theorem Run.noneBefore {a b : Agenda V X} {h : List (Event V X)} (run : Run a h b)
    (before : a.NoneBefore a.now) : a.now ≤ b.now ∧ b.NoneBefore b.now := by
  induction run with
  | nil => exact ⟨Nat.le_refl _, before⟩
  | cons run step ih =>
      obtain ⟨forward, none⟩ := step.noneBefore ih.2
      exact ⟨Nat.le_trans ih.1 forward, none⟩

/-- The times of the deliveries of a history, the latest first. -/
def deliveries : List (Event V X) → List Nat
  | [] => []
  | .delivered _ t _ :: h => t :: deliveries h
  | _ :: h => deliveries h

theorem Run.deliveries_le {a b : Agenda V X} {h : List (Event V X)} (run : Run a h b)
    (before : a.NoneBefore a.now) : ∀ t ∈ deliveries h, t ≤ b.now := by
  induction run with
  | nil => simp [deliveries]
  | cons run step ih =>
      have forward := (step.noneBefore (run.noneBefore before).2).1
      cases step with
      | deliver due =>
          intro t ht
          rcases List.mem_cons.mp ht with rfl | ht
          · exact forward
          · exact ih t ht
      | schedule | cancel | advance => exact fun t ht => Nat.le_trans (ih t ht) forward

/-- Entries are delivered in the order of their times. -/
theorem Run.deliveries_sorted {a b : Agenda V X} {h : List (Event V X)} (run : Run a h b)
    (before : a.NoneBefore a.now) : (deliveries h).Pairwise (· ≥ ·) := by
  induction run with
  | nil => exact List.Pairwise.nil
  | cons run step ih =>
      cases step with
      | deliver due => exact List.Pairwise.cons (run.deliveries_le before) ih
      | schedule | cancel | advance => exact ih

/-- An entry that nothing has ended is still to come. -/
theorem outstanding_of_kept {v : V} {t : Nat} {x : X} (k h : List (Event V X))
    (kept : ∀ e ∈ k, ¬ Ends v e) :
    outstanding v (k ++ .scheduled v t x :: h) = some (t, x) := by
  induction k with
  | nil => simp [outstanding]
  | cons e k ih =>
      have rest := ih fun e' he' => kept e' (List.mem_cons_of_mem e he')
      have here := kept e List.mem_cons_self
      cases e with
      | scheduled w t' x' => exact (if_neg here).trans rest
      | cancelled w => exact (if_neg here).trans rest
      | advanced t' => exact rest
      | delivered w t' x' => exact (if_neg here).trans rest

end

section
variable {V X : Type}

/-- The times to which a history moves the clock, the latest first. -/
def advances : List (Event V X) → List Nat
  | [] => []
  | .advanced t :: h => t :: advances h
  | _ :: h => advances h

theorem advances_append (k h : List (Event V X)) :
    advances (k ++ h) = advances k ++ advances h := by
  induction k with
  | nil => rfl
  | cons e k ih =>
      cases e with
      | advanced t => exact congrArg (t :: ·) ih
      | scheduled | cancelled | delivered => exact ih

theorem exists_first_end {v : V} {k : List (Event V X)} (ended : ∃ e ∈ k, Ends v e) :
    ∃ later e sooner, k = later ++ e :: sooner ∧ Ends v e ∧ ∀ e' ∈ sooner, ¬ Ends v e' := by
  induction k with
  | nil =>
      obtain ⟨e, he, -⟩ := ended
      exact absurd he List.not_mem_nil
  | cons e k ih =>
      by_cases rest : ∃ e ∈ k, Ends v e
      · obtain ⟨later, e', sooner, rfl, ends, first⟩ := ih rest
        exact ⟨e :: later, e', sooner, rfl, ends, first⟩
      · obtain ⟨e', he, ends⟩ := ended
        rcases List.mem_cons.mp he with rfl | he
        · exact ⟨[], e', k, rfl, ends, fun u hu ends' => rest ⟨u, hu, ends'⟩⟩
        · exact absurd ⟨e', he, ends⟩ rest

end

section
variable {V X : Type} [DecidableEq V]

theorem Run.advances_le {a b : Agenda V X} {h : List (Event V X)} (run : Run a h b)
    (before : a.NoneBefore a.now) : ∀ t ∈ advances h, t ≤ b.now := by
  induction run with
  | nil => simp [advances]
  | cons run step ih =>
      have forward := (step.noneBefore (run.noneBefore before).2).1
      cases step with
      | advance late none =>
          intro t ht
          rcases List.mem_cons.mp ht with rfl | ht
          · exact Nat.le_refl _
          · exact Nat.le_trans (ih t ht) forward
      | schedule | cancel | deliver => exact fun t ht => Nat.le_trans (ih t ht) forward

/-- Once the clock has shown more times than there are up to its own, an entry has
been delivered, unless it was cancelled or overwritten first. -/
theorem Run.settled {a b : Agenda V X} {k h : List (Event V X)} {v : V} {t : Nat} {x : X}
    (run : Run a (k ++ .scheduled v t x :: h) b) (empty : ∀ v, a.entry v = none)
    (long : t + 1 < (advances k).toFinset.card) :
    ∃ later e sooner, k = later ++ e :: sooner ∧ (∀ e' ∈ sooner, ¬ Ends v e') ∧
      (e = .delivered v t x ∨ e = .cancelled v ∨ ∃ t' x', e = .scheduled v t' x') := by
  have ended : ∃ e ∈ k, Ends v e := by
    by_contra kept
    have kept : ∀ e ∈ k, ¬ Ends v e := fun e he ends => kept ⟨e, he, ends⟩
    have entry := run.outstanding empty v
    rw [outstanding_of_kept k h kept] at entry
    have before : a.NoneBefore a.now := fun w t' x' h => by simp [empty w] at h
    have due := (run.noneBefore before).2 v t x entry
    have shown : (advances k).toFinset ⊆ Finset.range (t + 1) := by
      intro u hu
      have le := run.advances_le before u (by
        rw [advances_append]
        exact List.mem_append_left _ (List.mem_toFinset.mp hu))
      exact Finset.mem_range.mpr (by omega)
    have bound := Finset.card_le_card shown
    rw [Finset.card_range] at bound
    omega
  obtain ⟨later, e, sooner, rfl, ends, first⟩ := exists_first_end ended
  refine ⟨later, e, sooner, rfl, first, ?_⟩
  cases e with
  | scheduled w t' x' => exact Or.inr (Or.inr ⟨t', x', by rw [show w = v from ends]⟩)
  | cancelled w => exact Or.inr (Or.inl (by rw [show w = v from ends]))
  | advanced t' => exact absurd ends (fun h => h)
  | delivered w t' x' =>
      obtain rfl : w = v := ends
      rw [List.append_assoc, List.cons_append] at run
      have was := run.delivered empty
      rw [outstanding_of_kept sooner h first] at was
      cases was
      exact Or.inl rfl

end

section Count
variable {V X : Type} [DecidableEq V] [DecidableEq X]

/-- Each scheduling is delivered once at most. -/
theorem Run.count_delivered {a b : Agenda V X} {h : List (Event V X)} (run : Run a h b)
    (empty : ∀ v, a.entry v = none) (v : V) (t : Nat) (x : X) :
    h.count (.delivered v t x) + (if b.entry v = some (t, x) then 1 else 0) ≤
      h.count (.scheduled v t x) := by
  induction run with
  | nil => simp [empty]
  | @cons h b c e run step ih =>
      cases step with
      | @schedule w t' x' late =>
          simp only [List.count_cons, beq_iff_eq, reduceCtorEq, if_false, Nat.add_zero,
            Event.scheduled.injEq]
          by_cases same : w = v
          · subst same
            rw [set_entry_self]
            by_cases hit : t' = t ∧ x' = x
            · rw [if_pos (by simp [hit]), if_pos ⟨rfl, hit⟩]
              omega
            · rw [if_neg (by simpa using hit), if_neg fun h => hit h.2]
              omega
          · rw [set_entry_of_ne _ _ (Ne.symm same),
              if_neg (show ¬ (w = v ∧ t' = t ∧ x' = x) from fun h => same h.1)]
            exact ih
      | cancel w =>
          simp only [List.count_cons, beq_iff_eq, reduceCtorEq, if_false, Nat.add_zero]
          by_cases same : w = v
          · subst same
            rw [set_entry_self, if_neg (by simp)]
            omega
          · rw [set_entry_of_ne _ _ (Ne.symm same)]
            exact ih
      | advance forward none =>
          simp only [List.count_cons, beq_iff_eq, reduceCtorEq, if_false, Nat.add_zero]
          exact ih
      | @deliver w x' due =>
          simp only [List.count_cons, beq_iff_eq, reduceCtorEq, if_false, Nat.add_zero,
            Event.delivered.injEq]
          by_cases same : w = v
          · subst same
            rw [set_entry_self, if_neg (show ¬ none = some (t, x) by simp), due] at *
            by_cases hit : b.now = t ∧ x' = x
            · rw [if_pos (by simp [hit])] at ih
              rw [if_pos ⟨rfl, hit⟩]
              exact ih
            · rw [if_neg fun h => hit h.2]
              omega
          · rw [set_entry_of_ne _ _ (Ne.symm same),
              if_neg (show ¬ (w = v ∧ b.now = t ∧ x' = x) from fun h => same h.1)]
            exact ih

end Count

end Agenda
