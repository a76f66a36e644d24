import Mathlib.Logic.Basic
import Mathlib.Data.List.Basic

/-!
Computations that log what they do and may stop with an error; the log of a
computation that stops is kept. `Meets` says what holds of each entry of the
log and of the result, and its rules follow the computation.
-/
def Logged (ω ε α : Type) : Type := List ω × Except ε α

namespace Logged
variable {ω ε α β : Type}

def log (m : Logged ω ε α) : List ω := m.1

def result (m : Logged ω ε α) : Except ε α := m.2

instance : Monad (Logged ω ε) where
  pure a := ([], .ok a)
  bind m f :=
    match m.result with
    | .ok a => (m.log ++ (f a).log, (f a).result)
    | .error e => (m.log, .error e)

def emit (entries : List ω) : Logged ω ε Unit := (entries, .ok ())

/-- A computation that logs nothing. -/
def silent (r : Except ε α) : Logged ω ε α := ([], r)

@[simp] theorem log_pure (a : α) : (pure a : Logged ω ε α).log = [] := rfl
@[simp] theorem result_pure (a : α) : (pure a : Logged ω ε α).result = .ok a := rfl
@[simp] theorem log_emit (entries : List ω) : (emit entries : Logged ω ε Unit).log = entries := rfl
@[simp] theorem result_emit (entries : List ω) :
    (emit entries : Logged ω ε Unit).result = .ok () := rfl
@[simp] theorem log_silent (r : Except ε α) : (silent r : Logged ω ε α).log = [] := rfl
@[simp] theorem result_silent (r : Except ε α) : (silent r : Logged ω ε α).result = r := rfl

@[simp] theorem result_ite (c : Prop) [Decidable c] (m n : Logged ω ε α) :
    (if c then m else n).result = if c then m.result else n.result := by
  split <;> rfl

section Bind
variable {m : Logged ω ε α} {f : α → Logged ω ε β}

theorem bind_of_ok {a : α} (h : m.result = .ok a) :
    m >>= f = (m.log ++ (f a).log, (f a).result) := by
  change (match m.result with
    | .ok a => _
    | .error e => _) = _
  rw [h]

theorem bind_of_error {e : ε} (h : m.result = .error e) : m >>= f = (m.log, .error e) := by
  change (match m.result with
    | .ok a => _
    | .error e => _) = _
  rw [h]

@[simp] theorem result_bind : (m >>= f).result = m.result >>= fun a => (f a).result := by
  cases h : m.result with
  | ok a => rw [bind_of_ok h]; rfl
  | error e => rw [bind_of_error h]; rfl

theorem mem_log_left {entry : ω} (mem : entry ∈ m.log) : entry ∈ (m >>= f).log := by
  cases h : m.result with
  | ok a =>
      rw [bind_of_ok h]
      exact List.mem_append_left _ mem
  | error e => rwa [bind_of_error h]

theorem mem_log_bind {a : α} (h : m.result = .ok a) {entry : ω} (mem : entry ∈ (f a).log) :
    entry ∈ (m >>= f).log := by
  rw [bind_of_ok h]
  exact List.mem_append_right _ mem

end Bind

/-- Each entry of the log has one property, and the result, if there is one, another. -/
structure Meets (m : Logged ω ε α) (P : ω → Prop) (Q : α → Prop) : Prop where
  log : ∀ entry ∈ m.log, P entry
  result : ∀ a, m.result = .ok a → Q a

namespace Meets
variable {P : ω → Prop} {Q R : α → Prop} {S : β → Prop} {m : Logged ω ε α}
  {f : α → Logged ω ε β}

theorem pure {a : α} (h : Q a) : (Pure.pure a : Logged ω ε α).Meets P Q :=
  ⟨fun _ mem => absurd mem List.not_mem_nil, fun _ same => Except.ok.inj same ▸ h⟩

theorem silent {r : Except ε α} (h : ∀ a, r = .ok a → Q a) :
    (Logged.silent r : Logged ω ε α).Meets P Q :=
  ⟨fun _ mem => absurd mem List.not_mem_nil, h⟩

theorem stop {e : ε} : (Logged.silent (.error e) : Logged ω ε α).Meets P Q :=
  silent fun _ done => by cases done

theorem emit {entries : List ω} (h : ∀ entry ∈ entries, P entry) :
    (Logged.emit entries : Logged ω ε Unit).Meets P fun _ => True :=
  ⟨h, fun _ _ => trivial⟩

theorem bind (h : m.Meets P Q) (k : ∀ a, m.result = .ok a → Q a → (f a).Meets P S) :
    (m >>= f).Meets P S := by
  cases done : m.result with
  | ok a =>
      have next := k a done (h.result a done)
      rw [bind_of_ok done]
      refine ⟨fun entry mem => ?_, next.result⟩
      rcases List.mem_append.mp mem with mem | mem
      · exact h.log entry mem
      · exact next.log entry mem
  | error e =>
      rw [bind_of_error done]
      exact ⟨h.log, fun _ same => by cases same⟩

theorem ite {c : Prop} [Decidable c] {n : Logged ω ε α} (h : c → m.Meets P Q)
    (k : ¬ c → n.Meets P Q) : (if c then m else n).Meets P Q := by
  split
  · exact h (by assumption)
  · exact k (by assumption)

theorem imp (h : m.Meets P Q) (weaker : ∀ a, Q a → R a) : m.Meets P R :=
  ⟨h.log, fun a done => weaker a (h.result a done)⟩

end Meets

end Logged
