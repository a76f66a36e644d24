import Mathlib.Data.List.Infix

/-!
Loops of the form `while (go) body`. A round logs something, and it ends in the
next state or in an error. A loop whose rounds move a clock ends, since it goes
on below a limit only; and a loop that goes on more often takes up where the
other one ends.
-/
namespace WhileLoop

variable {α β ε : Type} (go : α → Prop) [DecidablePred go] (body : α → β × Except ε α)

/-- The rounds and how the loop ends, which is not told by too few of them. -/
def loop : Nat → α → List β × Option (Except ε α)
  | 0, a => ([], if go a then none else some (.ok a))
  | n + 1, a =>
      if go a then
        match body a with
        | (b, .ok a') => (b :: (loop n a').1, (loop n a').2)
        | (b, .error e) => ([b], some (.error e))
      else ([], some (.ok a))

section Equations
variable {go} {body} {n : Nat} {a a' : α} {b : β} {e : ε}

theorem loop_stops (stop : ¬ go a) : loop go body n a = ([], some (.ok a)) := by
  cases n with
  | zero => rw [loop, if_neg stop]
  | succ n => rw [loop, if_neg stop]

theorem loop_goes (goes : go a) (round : body a = (b, .ok a')) :
    loop go body (n + 1) a = (b :: (loop go body n a').1, (loop go body n a').2) := by
  rw [loop, if_pos goes, round]

theorem loop_fails (goes : go a) (round : body a = (b, .error e)) :
    loop go body (n + 1) a = ([b], some (.error e)) := by
  rw [loop, if_pos goes, round]

/-- A loop that has made a round went on where it started. -/
theorem goes_of_rounds (some : (loop go body n a).1 ≠ []) : go a := by
  by_contra stop
  exact some (by rw [loop_stops stop])

end Equations

/-- What a round does below the limit: it ends badly, or keeps the invariant and
sets the clock to its stamp, which is later. -/
structure Advances (inv : α → Prop) (clock : α → Nat) (stamp : β → Nat) (fine : β → Prop)
    (bad : β → ε → Prop) (limit : Nat) : Prop where
  below : ∀ a, inv a → go a → clock a < limit
  later : ∀ a, inv a → go a → clock a < stamp (body a).1
  round : ∀ a, inv a → go a → fine (body a).1 →
    (∃ e, (body a).2 = .error e ∧ bad (body a).1 e) ∨
      ∃ a', (body a).2 = .ok a' ∧ inv a' ∧ clock a' = stamp (body a).1

section Advances
variable {go} {body} {inv : α → Prop} {clock : α → Nat} {stamp : β → Nat} {fine : β → Prop}
variable {bad : β → ε → Prop} {limit : Nat}

/-- With as many rounds as the clock has ticks to the limit, the loop ends. -/
theorem Advances.ends (adv : Advances go body inv clock stamp fine bad limit) {n : Nat} {a : α}
    (start : inv a) (enough : limit ≤ clock a + n)
    (all : ∀ b ∈ (loop go body n a).1, fine b) :
    (∃ e, (loop go body n a).2 = some (.error e) ∧ ∃ b ∈ (loop go body n a).1, bad b e) ∨
      ∃ a', (loop go body n a).2 = some (.ok a') ∧ inv a' ∧ ¬ go a' := by
  induction n generalizing a with
  | zero =>
      have stop : ¬ go a := fun goes => by
        have := adv.below a start goes
        omega
      rw [loop_stops stop]
      exact Or.inr ⟨a, rfl, start, stop⟩
  | succ n ih =>
      by_cases goes : go a
      · obtain ⟨b, r, hb⟩ : ∃ b r, body a = (b, r) := ⟨_, _, rfl⟩
        have round := adv.round a start goes
        have later := adv.later a start goes
        rw [hb] at round later
        cases r with
        | error e =>
            rw [loop_fails goes hb] at all ⊢
            rcases round (all b (List.mem_singleton_self b)) with ⟨e', same, h⟩ | ⟨a', same, -⟩
            · cases same
              exact Or.inl ⟨e, rfl, b, List.mem_singleton_self b, h⟩
            · cases same
        | ok a' =>
            rw [loop_goes goes hb] at all ⊢
            rcases round (all b List.mem_cons_self) with ⟨e', same, -⟩ | ⟨a'', same, next, clocked⟩
            · cases same
            · cases same
              have moved : clock a < clock a' := clocked ▸ later
              rcases ih next (by omega)
                  (fun c hc => all c (List.mem_cons_of_mem _ hc)) with ⟨e, ends, c, hc, h⟩ | done
              · exact Or.inl ⟨e, ends, c, List.mem_cons_of_mem _ hc, h⟩
              · exact Or.inr done
      · rw [loop_stops goes]
        exact Or.inr ⟨a, rfl, start, goes⟩

/-- There are no more rounds than the clock has ticks to the limit. -/
theorem Advances.length_le (adv : Advances go body inv clock stamp fine bad limit) {n : Nat} {a : α}
    (start : inv a) (all : ∀ b ∈ (loop go body n a).1, fine b) :
    (loop go body n a).1.length ≤ limit - clock a := by
  induction n generalizing a with
  | zero => exact Nat.zero_le _
  | succ n ih =>
      by_cases goes : go a
      · obtain ⟨b, r, hb⟩ : ∃ b r, body a = (b, r) := ⟨_, _, rfl⟩
        have round := adv.round a start goes
        have later := adv.later a start goes
        have below := adv.below a start goes
        rw [hb] at round later
        cases r with
        | error e =>
            rw [loop_fails goes hb, List.length_singleton]
            omega
        | ok a' =>
            rw [loop_goes goes hb] at all ⊢
            rcases round (all b List.mem_cons_self) with ⟨e', same, -⟩ | ⟨a'', same, next, clocked⟩
            · cases same
            · cases same
              have rest := ih next fun c hc => all c (List.mem_cons_of_mem _ hc)
              have moved : clock a < clock a' := clocked ▸ later
              rw [List.length_cons]
              omega
      · rw [loop_stops goes]
        exact Nat.zero_le _

/-- The stamps go up from the clock, and all but the last are below the limit. -/
theorem Advances.stamps (adv : Advances go body inv clock stamp fine bad limit) {n : Nat} {a : α}
    (start : inv a) (all : ∀ b ∈ (loop go body n a).1, fine b) :
    (∀ b ∈ (loop go body n a).1, clock a < stamp b) ∧
      ((loop go body n a).1.map stamp).Pairwise (· < ·) ∧
      ∀ b ∈ (loop go body n a).1.dropLast, stamp b < limit := by
  induction n generalizing a with
  | zero => simp [loop]
  | succ n ih =>
      by_cases goes : go a
      · obtain ⟨b, r, hb⟩ : ∃ b r, body a = (b, r) := ⟨_, _, rfl⟩
        have round := adv.round a start goes
        have later := adv.later a start goes
        rw [hb] at round later
        cases r with
        | error e =>
            rw [loop_fails goes hb]
            simpa using later
        | ok a' =>
            rw [loop_goes goes hb] at all ⊢
            rcases round (all b List.mem_cons_self) with ⟨e', same, -⟩ | ⟨a'', same, next, clocked⟩
            · cases same
            · cases same
              obtain ⟨above, rising, low⟩ := ih next fun c hc => all c (List.mem_cons_of_mem _ hc)
              simp only [clocked] at above
              refine ⟨fun c hc => ?_, ?_, fun c hc => ?_⟩
              · rcases List.mem_cons.mp hc with rfl | hc
                · exact later
                · exact Nat.lt_trans later (above c hc)
              · refine List.pairwise_cons.mpr ⟨fun c hc => ?_, rising⟩
                obtain ⟨d, hd, rfl⟩ := List.mem_map.mp hc
                exact above d hd
              · -- a stamp that is not the last is the clock of a state that goes on
                by_cases more : (loop go body n a').1 = []
                · rw [more] at hc
                  cases hc
                · rw [List.dropLast_cons_of_ne_nil more] at hc
                  rcases List.mem_cons.mp hc with rfl | hc
                  · exact clocked ▸ adv.below a' next (goes_of_rounds more)
                  · exact low c hc
      · rw [loop_stops goes]
        simp

end Advances

section Extend
variable {go} {body} {n : Nat} {a : α}

/-- A loop that goes on more often takes up where the other one ends. -/
theorem loop_extend (go' : α → Prop) [DecidablePred go'] (more : ∀ a, go a → go' a) {a' : α}
    (done : (loop go body n a).2 = some (.ok a')) (k : Nat) :
    loop go' body ((loop go body n a).1.length + k) a =
      ((loop go body n a).1 ++ (loop go' body k a').1, (loop go' body k a').2) := by
  induction n generalizing a with
  | zero =>
      have stop : ¬ go a := fun goes => by simp [loop, goes] at done
      rw [loop_stops stop] at done ⊢
      cases done
      simp
  | succ n ih =>
      by_cases goes : go a
      · obtain ⟨b, r, hb⟩ : ∃ b r, body a = (b, r) := ⟨_, _, rfl⟩
        cases r with
        | error e =>
            rw [loop_fails goes hb] at done
            cases done
        | ok c =>
            rw [loop_goes goes hb] at done ⊢
            rw [List.length_cons, Nat.add_right_comm, loop_goes (more a goes) hb, ih done]
            rfl
      · rw [loop_stops goes] at done ⊢
        cases done
        simp

end Extend

end WhileLoop
