import SsmRuntime.Readings
import SsmRuntime.Pools

/-!
Object sizes. Each constructor asks for as many bytes as it computes, and the
finaliser computes from the header how many it gives back. What the header says
of the size stays as it was created, whatever is done to the object.
-/
namespace SsmRuntime

def alignUp (offset align : Nat) : Nat := (offset + align - 1) / align * align

/-- The end of the last of some fields, each a size and an alignment. -/
def fieldsEnd (fields : List (Nat × Nat)) : Nat :=
  fields.foldl (fun offset field => alignUp offset field.2 + field.1) 0

def structSize (fields : List (Nat × Nat)) : Nat :=
  alignUp (fieldsEnd fields) (fields.foldl (fun align field => max align field.2) 1)

/-- A platform with pointers and `size_t` of `ptr` bytes, and 64-bit integers
aligned to `timeAlign` bytes. -/
structure Layout where
  ptr : Nat
  timeAlign : Nat
  ptr_eq : ptr = 4 ∨ ptr = 8
  timeAlign_eq : timeAlign = 4 ∨ timeAlign = 8

def lp64 : Layout := ⟨8, 8, Or.inr rfl, Or.inr rfl⟩

namespace Layout
variable (l : Layout)

/-- `struct ssm_mm`: two bytes and a union of 16 bits. -/
def mm : Nat × Nat := (4, 2)

def word : Nat × Nat := (l.ptr, l.ptr)

def time : Nat × Nat := (8, l.timeAlign)

def sizeofTime : Nat := structSize [mm, l.time]

def sizeofAdt1 : Nat := structSize [mm, l.word]

def sizeofSv : Nat := structSize [mm, l.time, l.time, l.word, l.word, l.word]

def sizeofClosure1 : Nat := structSize [mm, l.word, l.word]

def sizeofArray1 : Nat := structSize [mm, l.word]

def sizeofBlob1 : Nat := structSize [mm, (4, 1)]

/-- `sizeof(base) + sizeof(ssm_value_t) * ((count)-1)`, the difference converted
to a `size_t`. -/
def vectorSize (base count : Nat) : Nat :=
  (base + l.ptr * ((count + 2 ^ (8 * l.ptr) - 1) % 2 ^ (8 * l.ptr))) % 2 ^ (8 * l.ptr)

def ssmAdtSize (count : Nat) : Nat := l.vectorSize l.sizeofAdt1 count

def ssmClosureSize (count : Nat) : Nat := l.vectorSize l.sizeofClosure1 count

def ssmArraySize (count : Nat) : Nat := l.vectorSize l.sizeofArray1 count

def ssmBlobSize (size : Nat) : Nat := sizeofBlob1 - 4 + size

end Layout

/-- A call of a constructor, with what the size depends on. -/
inductive Creation where
  | time
  | adt (fieldCount : Nat)
  | sv
  | closure (argCap : Nat)
  | array (elems : Nat)
  | blob (size : Nat)
  deriving DecidableEq, Repr

/-- The kind of an object and what else the header says of its size. -/
inductive Header where
  | time
  | adt (count : Nat)
  | sv
  | closure (cap : Nat)
  | array (size : Nat)
  | blob (size : Nat)
  deriving DecidableEq, Repr

def Body.header : Body → Header
  | .time _ => .time
  | .adt _ fields => .adt fields.length
  | .sv _ => .sv
  | .closure _ _ cap _ => .closure cap
  | .array elements => .array elements.length
  | .blob size => .blob size

namespace Creation

/-- The arguments are 8-bit and 16-bit integers. -/
def InTypes : Creation → Prop
  | adt fieldCount => fieldCount < 2 ^ 8
  | closure argCap => argCap < 2 ^ 8
  | array elems => elems < 2 ^ 16
  | blob size => size < 2 ^ 16
  | time | sv => True

/-- `scaled_size` of a blob is a 16-bit integer. -/
def header : Creation → Header
  | time => .time
  | adt fieldCount => .adt fieldCount
  | sv => .sv
  | closure argCap => .closure argCap
  | array elems => .array elems
  | blob size => .blob ((size + 4 - 1) / 4 % 2 ^ 16)

/-- What the constructor passes to `ssm_mem_alloc`; a time asks for the size of
a variable. -/
def allocSize (l : Layout) : Creation → Nat
  | time => l.sizeofSv
  | adt fieldCount => l.ssmAdtSize fieldCount
  | sv => l.sizeofSv
  | closure argCap => l.ssmClosureSize argCap
  | array elems => l.ssmArraySize elems
  | blob size => Layout.ssmBlobSize ((size + 4 - 1) / 4 % 2 ^ 16 * 4)

/-- Where the payload asked for ends, as the fields are laid out. -/
def payloadEnd (l : Layout) : Creation → Nat
  | time => fieldsEnd [Layout.mm, l.time]
  | adt fieldCount => fieldsEnd (Layout.mm :: List.replicate fieldCount l.word)
  | sv => fieldsEnd [Layout.mm, l.time, l.time, l.word, l.word, l.word]
  | closure argCap => fieldsEnd (Layout.mm :: l.word :: List.replicate argCap l.word)
  | array elems => fieldsEnd (Layout.mm :: List.replicate elems l.word)
  | blob size => fieldsEnd [Layout.mm, (size, 1)]

end Creation

/-- What `ssm_drop_final` passes to `ssm_mem_free`. -/
def dropFinalSize (l : Layout) : Header → Nat
  | .time => l.sizeofTime
  | .adt count => l.ssmAdtSize count
  | .sv => l.sizeofSv
  | .closure cap => l.ssmClosureSize cap
  | .array size => l.ssmArraySize size
  | .blob size => Layout.ssmBlobSize (size * 4)

/-- What `ssm_closure_free` passes to it. -/
def closureFreeSize (l : Layout) (c : Closure) : Nat := l.ssmClosureSize c.cap

section Arithmetic
variable (l : Layout)

/-- For no fields at all, the wrapped difference takes the declared field away. -/
theorem vectorSize_eq {base count : Nat} (fits : l.ptr ≤ base)
    (small : base + l.ptr * count < 2 ^ (8 * l.ptr)) :
    l.vectorSize base count = base + l.ptr * count - l.ptr := by
  have pos : 1 ≤ 2 ^ (8 * l.ptr) := Nat.two_pow_pos _
  unfold Layout.vectorSize
  generalize 2 ^ (8 * l.ptr) = m at small pos ⊢
  cases count with
  | zero =>
      have last : (0 + m - 1) % m = m - 1 := by
        rw [Nat.zero_add]
        exact Nat.mod_eq_of_lt (by omega)
      have whole : base + l.ptr * (m - 1) = base - l.ptr + l.ptr * m := by
        rw [Nat.mul_sub, Nat.mul_one]
        have := Nat.mul_le_mul_left l.ptr pos
        omega
      rw [last, whole, Nat.add_mul_mod_self_right, Nat.mul_zero, Nat.add_zero]
      exact Nat.mod_eq_of_lt (by omega)
  | succ n =>
      have first : (n + 1 + m - 1) % m = n := by
        have := Nat.le_mul_of_pos_left n (show 0 < l.ptr by have := l.ptr_eq; omega)
        rw [Nat.mul_succ] at small
        rw [show n + 1 + m - 1 = n + m by omega, Nat.add_mod_right]
        exact Nat.mod_eq_of_lt (by omega)
      rw [first]
      rw [Nat.mul_succ] at small ⊢
      rw [Nat.mod_eq_of_lt (by omega)]
      omega

theorem fieldsEnd_words {l : Layout} (n k : Nat) :
    (List.replicate n l.word).foldl (fun offset field => alignUp offset field.2 + field.1)
      (l.ptr * k) = l.ptr * (k + n) := by
  induction n generalizing k with
  | zero => rfl
  | succ n ih =>
      have pos : 0 < l.ptr := by have := l.ptr_eq; omega
      have aligned : alignUp (l.ptr * k) l.ptr = l.ptr * k := by
        have : (l.ptr * k + l.ptr - 1) / l.ptr = k := by
          rw [Nat.add_sub_assoc pos, Nat.mul_add_div pos, Nat.div_eq_of_lt (by omega), Nat.add_zero]
        rw [alignUp, this, Nat.mul_comm]
      rw [List.replicate_succ, List.foldl_cons]
      have next : alignUp (l.ptr * k) l.word.2 + l.word.1 = l.ptr * (k + 1) := by
        rw [Nat.mul_succ]
        exact congrArg (· + l.ptr) aligned
      rw [next, ih, Nat.add_assoc, Nat.add_comm 1 n]

/-- The header and some words after it. -/
theorem fieldsEnd_header (l : Layout) (n : Nat) :
    fieldsEnd (Layout.mm :: List.replicate n l.word) ≤ l.ptr * (n + 1) := by
  have first : alignUp 4 l.ptr + l.ptr = l.ptr * 2 := by
    rcases l.ptr_eq with h | h
    all_goals rw [h]; rfl
  cases n with
  | zero =>
      have := l.ptr_eq
      show 4 ≤ l.ptr * 1
      omega
  | succ n =>
      have rest := fieldsEnd_words (l := l) n 2
      rw [← first] at rest
      have whole : fieldsEnd (Layout.mm :: List.replicate (n + 1) l.word) = l.ptr * (2 + n) := rest
      rw [whole, Nat.add_comm 2 n]

theorem sizeofAdt1_eq (l : Layout) : l.sizeofAdt1 = l.ptr * 2 := by
  unfold Layout.sizeofAdt1 Layout.word
  rcases l.ptr_eq with h | h
  all_goals rw [h]; rfl

theorem sizeofClosure1_eq (l : Layout) : l.sizeofClosure1 = l.ptr * 3 := by
  unfold Layout.sizeofClosure1 Layout.word
  rcases l.ptr_eq with h | h
  all_goals rw [h]; rfl

theorem addressable (l : Layout) : 2 ^ 32 ≤ 2 ^ (8 * l.ptr) :=
  Nat.pow_le_pow_right (by decide) (by have := l.ptr_eq; omega)

theorem ssmAdtSize_eq {count : Nat} (small : count < 2 ^ 16) :
    l.ssmAdtSize count = l.ptr * (count + 1) := by
  have wide := addressable l
  have ptr := l.ptr_eq
  have len : l.ptr * count ≤ 8 * 2 ^ 16 := Nat.mul_le_mul (by omega) (Nat.le_of_lt small)
  have words : l.ptr * (count + 1) = l.ptr * count + l.ptr := Nat.mul_succ l.ptr count
  rw [Layout.ssmAdtSize, sizeofAdt1_eq, vectorSize_eq l (by omega) (by omega)]
  omega

theorem ssmClosureSize_eq {count : Nat} (small : count < 2 ^ 8) :
    l.ssmClosureSize count = l.ptr * (count + 2) := by
  have wide := addressable l
  have ptr := l.ptr_eq
  have len : l.ptr * count ≤ 8 * 2 ^ 8 := Nat.mul_le_mul (by omega) (Nat.le_of_lt small)
  have words : l.ptr * (count + 2) = l.ptr * count + l.ptr * 2 := Nat.mul_add l.ptr count 2
  rw [Layout.ssmClosureSize, sizeofClosure1_eq, vectorSize_eq l (by omega) (by omega)]
  omega

theorem timeFields_lt (l : Layout) : fieldsEnd [Layout.mm, l.time] ≤ l.sizeofTime ∧
    l.sizeofTime < l.sizeofSv ∧
    fieldsEnd [Layout.mm, l.time, l.time, l.word, l.word, l.word] ≤ l.sizeofSv := by
  unfold Layout.sizeofTime Layout.sizeofSv Layout.time Layout.word
  rcases l.ptr_eq with h | h
  all_goals
    rcases l.timeAlign_eq with k | k
    all_goals rw [h, k]; decide

/-- A constructor asks for enough. -/
theorem Creation.payloadEnd_le {c : Creation} (inTypes : c.InTypes) :
    c.payloadEnd l ≤ c.allocSize l := by
  have times := timeFields_lt l
  cases c with
  | time => exact Nat.le_trans times.1 (Nat.le_of_lt times.2.1)
  | adt n =>
      have small : n < 2 ^ 8 := inTypes
      exact (fieldsEnd_header l n).trans_eq (ssmAdtSize_eq l (by omega)).symm
  | sv => exact times.2.2
  | closure n => exact (fieldsEnd_header l (n + 1)).trans_eq (ssmClosureSize_eq l inTypes).symm
  | array n =>
      exact (fieldsEnd_header l n).trans_eq (ssmAdtSize_eq l inTypes).symm
  | blob n =>
      have small : n < 2 ^ 16 := inTypes
      have payload : fieldsEnd [Layout.mm, (n, 1)] = 4 + n := by
        simp [fieldsEnd, alignUp, Layout.mm]
      show fieldsEnd [Layout.mm, (n, 1)] ≤ 8 - 4 + (n + 4 - 1) / 4 % 2 ^ 16 * 4
      omega

/-- The finaliser gives back what the constructor asked for, but for times. -/
theorem dropFinalSize_eq_iff (c : Creation) :
    dropFinalSize l c.header = c.allocSize l ↔ c ≠ .time := by
  cases c with
  | time => exact iff_of_false (Nat.ne_of_lt (timeFields_lt l).2.1) fun h => h rfl
  | adt _ | sv | closure _ | array _ | blob _ => exact iff_of_true rfl (by simp)

end Arithmetic

/-- The headers of the objects that are still there are as before. -/
def SameHeaders (s t : State) : Prop :=
  ∀ a ∈ t.objs.dom, a ∈ s.objs.dom ∧ (t.objs.val a).body.header = (s.objs.val a).body.header

section SameHeaders
variable {s t u : State}

theorem SameHeaders.refl (s : State) : SameHeaders s s := SameRead.refl s

theorem SameHeaders.trans (h : SameHeaders s t) (k : SameHeaders t u) : SameHeaders s u :=
  SameRead.trans h k

theorem header_blind : Blind Body.header := fun _ _ => rfl

theorem setClosure_sameHeaders {a : Addr} {c d : Closure} (loaded : s.loadClosure a = .ok c)
    (cap : d.cap = c.cap) : SameHeaders s (s.setClosure a d) := by
  refine setObj_sameRead ?_
  rw [(loadClosure_eq_ok.mp loaded).2]
  exact congrArg Header.closure cap

theorem ssmClosurePush_sameHeaders {closure : Addr} {arg : Value}
    (h : ssmClosurePush closure arg s = .ok t) : SameHeaders s t := by
  obtain ⟨c, loaded, h⟩ := bind_eq_ok.mp h
  split at h
  · cases h
    exact setClosure_sameHeaders loaded rfl
  · cases h

theorem ssmClosurePop_sameHeaders {closure : Addr} (h : ssmClosurePop closure s = .ok t) :
    SameHeaders s t := by
  obtain ⟨c, loaded, h⟩ := bind_eq_ok.mp h
  cases h
  exact setClosure_sameHeaders loaded rfl

theorem ssmClosureActivate_sameHeaders {sizes : QueueSizes} {child : ActPtr} {closure : Addr}
    {parent : ActPtr} {prio depth : Nat}
    (h : ssmClosureActivate sizes child closure parent prio depth s = .ok t) :
    SameHeaders s t := by
  obtain ⟨c, -, h⟩ := bind_eq_ok.mp h
  obtain ⟨u, entered, h⟩ := bind_eq_ok.mp h
  exact SameRead.of_objs ((ssmEnterInt_sameHeap entered).trans (ssmActivate_sameHeap h)).objs

theorem cloneArgs_sameHeaders {new : Addr} {args : List Value} (n : Nat)
    (h : cloneArgs new args n s = .ok t) : SameHeaders s t := by
  induction n generalizing t with
  | zero => exact sameRead_of_ok h
  | succ n ih =>
      obtain ⟨u, before, h⟩ := bind_eq_ok.mp h
      obtain ⟨u', dup, h⟩ := bind_eq_ok.mp h
      obtain ⟨c, loaded, h⟩ := bind_eq_ok.mp h
      split at h
      · cases h
        exact ((ih before).trans (ssmDup_sameRead dup)).trans
          (setClosure_sameHeaders loaded rfl)
      · cases h

end SameHeaders

/-- The blocks given to `ssm_mem_free`, each with the size passed. -/
abbrev Freeing := Except Stop (List (Addr × Nat) × State)

def sizedDrops (drop : Value → State → Freeing) : List Value → State → Freeing
  | [], s => .ok ([], s)
  | v :: vs, s => do
      let (frees, s) ← drop v s
      let (frees', s) ← sizedDrops drop vs s
      .ok (frees ++ frees', s)

/-- The fields of an object, as its finaliser drops them. -/
def sizedBody (drop : Value → State → Freeing) (a : Addr) : Body → State → Freeing
  | .sv _, s => do
      let s ← ssmUnschedule a s
      let v ← s.loadSv a
      let (frees, s) ← drop v.value s
      let v ← s.loadSv a
      if v.laterTime = ssmNever then .ok (frees, s)
      else do
        let (frees', s) ← drop v.laterValue s
        .ok (frees ++ frees', s)
  | body, s => sizedDrops drop body.children s

/-- `ssm_drop_final`: the size is computed before the fields are dropped. -/
def sizedFinal (l : Layout) (drop : Value → State → Freeing) (a : Addr) (s : State) :
    Freeing := do
  let o ← s.loadObj a
  let size := dropFinalSize l o.body.header
  let (frees, s) ← sizedBody drop a o.body s
  .ok (frees ++ [(a, size)], { s with objs := s.objs.release a })

def sizedDrop (l : Layout) : Nat → Value → State → Freeing
  | _, .packed _, s => .ok ([], s)
  | 0, .heap _, s => .error ⟨.diverges, s⟩
  | fuel + 1, .heap a, s => do
      let o ← s.loadObj a
      let refCount := (o.refCount + 255) % 256
      let s := s.setObj a { o with refCount := refCount }
      if refCount = 0 then sizedFinal l (sizedDrop l fuel) a s else .ok ([], s)

/-- The size passed is the one asked for, the block holds the payload, and both
sizes name the same pool. -/
structure SameBlock (l : Layout) (c : Creation) (size : Nat) : Prop where
  size_eq : size = c.allocSize l
  holds : c.payloadEnd l ≤ size
  pool : ∀ cfg : PoolConfig, findPoolSize cfg size = findPoolSize cfg (c.allocSize l)

section Frees
variable {l : Layout} {s t : State}

/-- What a drop frees was there before, and its size is that of its header. -/
def FreesBy (l : Layout) (s : State) (frees : List (Addr × Nat)) : Prop :=
  ∀ free ∈ frees, free.1 ∈ s.objs.dom ∧
    free.2 = dropFinalSize l (s.objs.val free.1).body.header

theorem FreesBy.before {u : State} {frees : List (Addr × Nat)} (h : FreesBy l u frees)
    (same : SameHeaders s u) : FreesBy l s frees := fun free hf => by
  obtain ⟨live, size⟩ := h free hf
  obtain ⟨live', header⟩ := same free.1 live
  exact ⟨live', header ▸ size⟩

theorem FreesBy.append {frees frees' : List (Addr × Nat)} (h : FreesBy l s frees)
    (h' : FreesBy l s frees') : FreesBy l s (frees ++ frees') := fun free hf =>
  (List.mem_append.mp hf).elim (h free) (h' free)

theorem FreesBy.nil (l : Layout) (s : State) : FreesBy l s [] := fun _ hf =>
  absurd hf List.not_mem_nil

/-- The drop with sizes does what the drop does, and passes these sizes. -/
def SizedSpec (l : Layout) (drop : Value → State → Res) (sized : Value → State → Freeing) : Prop :=
  ∀ {v s t frees}, sized v s = .ok (frees, t) →
    drop v s = .ok t ∧ SameHeaders s t ∧ FreesBy l s frees

theorem sizedDrops_spec {drop : Value → State → Res} {sized : Value → State → Freeing}
    (one : SizedSpec l drop sized) (vs : List Value) {frees : List (Addr × Nat)}
    (h : sizedDrops sized vs s = .ok (frees, t)) :
    ssmDropsWith drop vs s = .ok t ∧ SameHeaders s t ∧ FreesBy l s frees := by
  induction vs generalizing s frees with
  | nil =>
      obtain ⟨rfl, rfl⟩ := Prod.mk.inj (Except.ok.inj h)
      exact ⟨rfl, SameHeaders.refl s, .nil l s⟩
  | cons v vs ih =>
      obtain ⟨⟨frees₁, u⟩, first, h⟩ := bind_eq_ok.mp h
      obtain ⟨⟨frees₂, u'⟩, rest, h⟩ := bind_eq_ok.mp h
      obtain ⟨rfl, rfl⟩ := Prod.mk.inj (Except.ok.inj h)
      obtain ⟨run, same, by₁⟩ := one first
      obtain ⟨run', same', by₂⟩ := ih rest
      exact ⟨bind_eq_ok.mpr ⟨u, run, run'⟩, same.trans same', by₁.append (by₂.before same)⟩

theorem sizedBody_spec {drop : Value → State → Res} {sized : Value → State → Freeing}
    (one : SizedSpec l drop sized) {a : Addr} (body : Body) {frees : List (Addr × Nat)}
    (h : sizedBody sized a body s = .ok (frees, t)) :
    dropBody drop a body s = .ok t ∧ SameHeaders s t ∧ FreesBy l s frees := by
  cases body with
  | sv _ =>
      obtain ⟨u, unscheduled, h⟩ := bind_eq_ok.mp h
      obtain ⟨v, loaded, h⟩ := bind_eq_ok.mp h
      obtain ⟨⟨frees₁, u'⟩, first, h⟩ := bind_eq_ok.mp h
      obtain ⟨w, loaded', h⟩ := bind_eq_ok.mp h
      obtain ⟨run, same, by₁⟩ := one first
      have same₀ := ssmUnschedule_sameRead header_blind unscheduled
      simp only [dropBody, unscheduled, ok_bind, loaded, run, loaded']
      split at h
      · rename_i never
        obtain ⟨rfl, rfl⟩ := Prod.mk.inj (Except.ok.inj h)
        exact ⟨if_pos never, same₀.trans same, by₁.before same₀⟩
      · rename_i later
        obtain ⟨⟨frees₂, u''⟩, second, h⟩ := bind_eq_ok.mp h
        obtain ⟨rfl, rfl⟩ := Prod.mk.inj (Except.ok.inj h)
        obtain ⟨run', same', by₂⟩ := one second
        refine ⟨(if_neg later).trans run', same₀.trans (same.trans same'), ?_⟩
        exact (by₁.append (by₂.before same)).before same₀
  | time _ | adt _ _ | closure _ _ _ _ | array _ | blob _ => exact sizedDrops_spec one _ h

theorem sizedFinal_spec {drop : Value → State → Res} {sized : Value → State → Freeing}
    (one : SizedSpec l drop sized) {a : Addr} {frees : List (Addr × Nat)}
    (h : sizedFinal l sized a s = .ok (frees, t)) :
    ssmDropFinalWith drop a s = .ok t ∧ SameHeaders s t ∧ FreesBy l s frees := by
  obtain ⟨o, loaded, h⟩ := bind_eq_ok.mp h
  obtain ⟨⟨frees₁, u⟩, body, h⟩ := bind_eq_ok.mp h
  obtain ⟨rfl, rfl⟩ := Prod.mk.inj (Except.ok.inj h)
  obtain ⟨run, same, by₁⟩ := sizedBody_spec one o.body body
  obtain ⟨live, rfl⟩ := State.loadObj_eq_ok.mp loaded
  refine ⟨?_, same.trans ((dropKeeps_sameRead header_blind).release u a),
    by₁.append fun free hf => ?_⟩
  · simp only [ssmDropFinalWith, loaded, ok_bind, run]
  · obtain rfl := List.mem_singleton.mp hf
    exact ⟨live, rfl⟩

theorem sizedDrop_spec (l : Layout) (fuel : Nat) :
    SizedSpec l (ssmDropWith fuel) (sizedDrop l fuel) := by
  induction fuel with
  | zero =>
      intro v s t frees h
      cases v with
      | packed n =>
          obtain ⟨rfl, rfl⟩ := Prod.mk.inj (Except.ok.inj h)
          exact ⟨rfl, SameHeaders.refl s, .nil l s⟩
      | heap a => cases h
  | succ fuel ih =>
      intro v s t frees h
      cases v with
      | packed n =>
          obtain ⟨rfl, rfl⟩ := Prod.mk.inj (Except.ok.inj h)
          exact ⟨rfl, SameHeaders.refl s, .nil l s⟩
      | heap a =>
          obtain ⟨o, loaded, h⟩ := bind_eq_ok.mp h
          have counted := (dropKeeps_sameRead header_blind).count ((o.refCount + 255) % 256) loaded
          simp only [ssmDropWith, loaded, ok_bind]
          simp only at h
          split at h
          · rename_i last
            obtain ⟨run, same, by₁⟩ := sizedFinal_spec ih h
            exact ⟨(if_pos last).trans run, counted.trans same, by₁.before counted⟩
          · rename_i more
            obtain ⟨rfl, rfl⟩ := Prod.mk.inj (Except.ok.inj h)
            exact ⟨if_neg more, counted, .nil l s⟩

end Frees

/-- What a call asks a constructor for. -/
def Call.asks : Call → Option (Addr × Creation)
  | newTime p _ => some (p, .time)
  | newAdt p _ fields => some (p, .adt fields.length)
  | newSv p _ => some (p, .sv)
  | newClosure p _ cap => some (p, .closure cap)
  | newArray p elements => some (p, .array elements.length)
  | newBlob p size => some (p, .blob size)
  | _ => none

/-- A clone is created with the capacity of the closure applied. -/
def Call.creates (s : State) : Call → Option (Addr × Creation)
  | closureApply new _ closure _ _ _ _ =>
      match s.loadClosure closure with
      | .ok c => if c.cap = c.count + 1 then none else some (new, .closure c.cap)
      | .error _ => none
  | c => c.asks

def ActCall.creates (s : State) : ActCall → Option (Addr × Creation)
  | call c => c.creates s
  | _ => none

def noted (created : Addr → Creation) : Option (Addr × Creation) → Addr → Creation
  | some (p, k) => Function.update created p k
  | none => created

/-- Runs from an empty heap, with how the object at each address was created.
The program may write what its own code writes, but not the headers. -/
inductive SizeRun (sizes : QueueSizes) : State → (Addr → Creation) → Prop
  | start {s : State} {created : Addr → Creation} (empty : s.objs.dom = ∅) :
      SizeRun sizes s created
  | own {s t : State} {created : Addr → Creation} (before : SizeRun sizes s created)
      (write : SameHeaders s t) : SizeRun sizes t created
  | call {s t : State} {created : Addr → Creation} {c : Call} (before : SizeRun sizes s created)
      (inTypes : ∀ ask ∈ c.asks, ask.2.InTypes) (done : c.exec sizes s = .ok t) :
      SizeRun sizes t (noted created (c.creates s))

section Runs
variable {sizes : QueueSizes} {s t : State} {created : Addr → Creation}

/-- The headers are those of the creations. -/
def HeadersOk (s : State) (created : Addr → Creation) : Prop :=
  ∀ a ∈ s.objs.dom, (s.objs.val a).body.header = (created a).header ∧ (created a).InTypes

theorem HeadersOk.same (ok : HeadersOk s created) (same : SameHeaders s t) :
    HeadersOk t created := fun a ha => by
  obtain ⟨live, header⟩ := same a ha
  exact ⟨header.trans (ok a live).1, (ok a live).2⟩

theorem HeadersOk.create (ok : HeadersOk s created) (p : Addr) {body : Body} {k : Creation}
    (header : body.header = k.header) (inTypes : k.InTypes) :
    HeadersOk { s with objs := s.objs.alloc p ⟨1, body⟩ } (noted created (some (p, k))) := by
  intro a ha
  by_cases hap : a = p
  · subst hap
    simp only [noted, Function.update_self, Table.alloc_val_self]
    exact ⟨header, inTypes⟩
  · simp only [noted, Function.update_of_ne hap, Table.alloc_val_of_ne _ _ hap]
    exact ok a (Finset.mem_of_mem_insert_of_ne ha hap)

theorem ssmClosureApply_headersOk {new : Addr} {child : ActPtr} {closure : Addr} {arg : Value}
    {parent : ActPtr} {prio depth : Nat} {ret : Option Value} (ok : HeadersOk s created)
    (h : ssmClosureApply sizes new child closure arg parent prio depth s = .ok (ret, t)) :
    HeadersOk t (noted created
      (Call.creates s (.closureApply new child closure arg parent prio depth))) := by
  obtain ⟨c, loaded, h⟩ := bind_eq_ok.mp h
  simp only [Call.creates, loaded]
  split at h
  · rename_i full
    obtain ⟨s₁, dups, h⟩ := bind_eq_ok.mp h
    obtain ⟨s₂, pushed, h⟩ := bind_eq_ok.mp h
    obtain ⟨s₃, activated, h⟩ := bind_eq_ok.mp h
    obtain ⟨s₄, popped, h⟩ := bind_eq_ok.mp h
    obtain ⟨-, rfl⟩ := Prod.mk.inj (Except.ok.inj h)
    rw [if_pos full]
    have before := (ssmDups_sameRead _ dups).trans (ssmClosurePush_sameHeaders pushed)
    have after := (ssmClosureActivate_sameHeaders activated).trans
      (ssmClosurePop_sameHeaders popped)
    exact ok.same (before.trans after)
  · rename_i part
    obtain ⟨s₁, cloned, h⟩ := bind_eq_ok.mp h
    obtain ⟨s₂, pushed, h⟩ := bind_eq_ok.mp h
    obtain ⟨-, rfl⟩ := Prod.mk.inj (Except.ok.inj h)
    obtain ⟨c', again, cloned⟩ := bind_eq_ok.mp cloned
    obtain ⟨n, fresh, cloned⟩ := bind_eq_ok.mp cloned
    obtain rfl := Except.ok.inj (loaded.symm.trans again)
    obtain ⟨live, body⟩ := loadClosure_eq_ok.mp loaded
    obtain ⟨header, inTypes⟩ := ok closure live
    rw [body] at header
    have cap : (Creation.closure c.cap).InTypes := by
      cases hk : created closure with
      | closure argCap =>
          rw [hk] at header inTypes
          cases Header.closure.inj header
          exact inTypes
      | time | adt _ | sv | array _ | blob _ =>
          rw [hk] at header
          cases header
    rw [if_neg part]
    have made : HeadersOk (ssmNewClosure new c.f c.cap s) _ := ok.create new rfl cap
    have counted := setClosure_sameHeaders fresh (d := { n with count := c.count }) rfl
    exact made.same (counted.trans
      ((cloneArgs_sameHeaders _ cloned).trans (ssmClosurePush_sameHeaders pushed)))

/-- An application keeps the headers, but for the closure that it may make. -/
theorem ssmClosureApply_headers {new : Addr} {child : ActPtr} {closure : Addr} {arg : Value}
    {parent : ActPtr} {prio depth : Nat} {ret : Option Value}
    (h : ssmClosureApply sizes new child closure arg parent prio depth s = .ok (ret, t)) :
    (SameHeaders s t ∧
      Call.creates s (.closureApply new child closure arg parent prio depth) = none) ∨
    ∃ c : Closure, SameHeaders (ssmNewClosure new c.f c.cap s) t ∧ new ∈ t.objs.dom ∧
      Call.creates s (.closureApply new child closure arg parent prio depth) =
        some (new, .closure c.cap) := by
  obtain ⟨c, loaded, h⟩ := bind_eq_ok.mp h
  simp only [Call.creates, loaded]
  split at h
  · rename_i full
    obtain ⟨s₁, dups, h⟩ := bind_eq_ok.mp h
    obtain ⟨s₂, pushed, h⟩ := bind_eq_ok.mp h
    obtain ⟨s₃, activated, h⟩ := bind_eq_ok.mp h
    obtain ⟨s₄, popped, h⟩ := bind_eq_ok.mp h
    obtain ⟨-, rfl⟩ := Prod.mk.inj (Except.ok.inj h)
    have before := (ssmDups_sameRead _ dups).trans (ssmClosurePush_sameHeaders pushed)
    have after := (ssmClosureActivate_sameHeaders activated).trans
      (ssmClosurePop_sameHeaders popped)
    rw [if_pos full]
    exact Or.inl ⟨before.trans after, rfl⟩
  · rename_i more
    obtain ⟨s₁, cloned, h⟩ := bind_eq_ok.mp h
    obtain ⟨s₂, pushed, h⟩ := bind_eq_ok.mp h
    obtain ⟨-, rfl⟩ := Prod.mk.inj (Except.ok.inj h)
    obtain ⟨c', again, cloned⟩ := bind_eq_ok.mp cloned
    obtain ⟨n, fresh, cloned⟩ := bind_eq_ok.mp cloned
    obtain rfl := Except.ok.inj (loaded.symm.trans again)
    have counted := setClosure_sameHeaders fresh (d := { n with count := c.count }) rfl
    have same := counted.trans
      ((cloneArgs_sameHeaders _ cloned).trans (ssmClosurePush_sameHeaders pushed))
    rw [if_neg more]
    refine Or.inr ⟨c, same, ?_, rfl⟩
    obtain ⟨d, live, pushed⟩ := bind_eq_ok.mp pushed
    split at pushed
    · cases pushed
      exact (loadClosure_eq_ok.mp live).1
    · cases pushed

theorem ssmClosureApplyFinal_sameHeaders {child : ActPtr} {closure : Addr} {arg : Value}
    {parent : ActPtr} {prio depth : Nat} {ret : Option Value}
    (h : ssmClosureApplyFinal sizes child closure arg parent prio depth s = .ok (ret, t)) :
    SameHeaders s t := by
  obtain ⟨shared, -, h⟩ := bind_eq_ok.mp h
  obtain ⟨u, asserted, h⟩ := bind_eq_ok.mp h
  rw [ssmAssert_eq_ok asserted] at h
  obtain ⟨c, -, h⟩ := bind_eq_ok.mp h
  split at h
  · obtain ⟨s₁, pushed, h⟩ := bind_eq_ok.mp h
    obtain ⟨s₂, activated, h⟩ := bind_eq_ok.mp h
    obtain ⟨-, rfl⟩ := Prod.mk.inj (Except.ok.inj h)
    have before := (ssmClosurePush_sameHeaders pushed).trans
      (ssmClosureActivate_sameHeaders activated)
    exact before.trans ((dropKeeps_sameRead header_blind).release s₂ closure)
  · obtain ⟨s₁, pushed, h⟩ := bind_eq_ok.mp h
    obtain ⟨-, rfl⟩ := Prod.mk.inj (Except.ok.inj h)
    exact ssmClosurePush_sameHeaders pushed

theorem Call.headersOk {c : Call} (ok : HeadersOk s created)
    (inTypes : ∀ ask ∈ c.asks, ask.2.InTypes) (done : c.exec sizes s = .ok t) :
    HeadersOk t (noted created (c.creates s)) := by
  cases c with
  | newTime p _ | newAdt p _ _ | newSv p _ | newClosure p _ _ | newArray p _ | newBlob p _ =>
      cases done
      exact ok.create p rfl (inTypes _ rfl)
  | closureApply new child closure arg parent prio depth =>
      obtain ⟨⟨ret, u⟩, run, rest⟩ := bind_eq_ok.mp done
      exact Except.ok.inj rest ▸ ssmClosureApply_headersOk ok run
  | closureApplyFinal child closure arg parent prio depth =>
      obtain ⟨⟨ret, u⟩, run, rest⟩ := bind_eq_ok.mp done
      exact Except.ok.inj rest ▸ ok.same (ssmClosureApplyFinal_sameHeaders run)
  | dup _ | drop _ | assign _ _ _ | later _ _ _ | unschedule _ | sensitize _ _ | desensitize _
  | enter _ _ _ _ _ _ | activate _ | setNow _ | tickEnter | tickUpdate | tickPop =>
      exact ok.same (Call.sameRead header_blind (by trivial) done)

theorem SizeRun.headersOk (run : SizeRun sizes s created) : HeadersOk s created := by
  induction run with
  | start empty => exact fun a ha => by simp [empty] at ha
  | own _ write ih => exact ih.same write
  | call _ inTypes done ih => exact Call.headersOk ih inTypes done

theorem sameBlock_iff {l : Layout} {c : Creation} (inTypes : c.InTypes) :
    SameBlock l c (dropFinalSize l c.header) ↔ c ≠ .time := by
  rw [← dropFinalSize_eq_iff l c]
  constructor
  · exact SameBlock.size_eq
  · exact fun same => ⟨same, same ▸ Creation.payloadEnd_le l inTypes, fun _ => by rw [same]⟩

/-- What `ssm_mem_free` is given, by the finaliser in a drop and by
`ssm_closure_free`, also where the fast path of an application calls it. -/
structure ReleaseExact (sizes : QueueSizes) (l : Layout) (s : State)
    (created : Addr → Creation) : Prop where
  final : ∀ fuel v frees t, sizedDrop l fuel v s = .ok (frees, t) →
    ssmDropWith fuel v s = .ok t ∧
      ∀ a size, (a, size) ∈ frees → (SameBlock l (created a) size ↔ created a ≠ .time)
  closureFree : ∀ a c, s.loadClosure a = .ok c →
    SameBlock l (created a) (closureFreeSize l c)
  applied : ∀ a c arg child parent prio depth t u, ssmClosurePush a arg s = .ok t →
    ssmClosureActivate sizes child a parent prio depth t = .ok u → u.loadClosure a = .ok c →
    SameBlock l (created a) (closureFreeSize l c)

theorem HeadersOk.closureFree (l : Layout) (ok : HeadersOk s created) {a : Addr} {c : Closure}
    (loaded : s.loadClosure a = .ok c) : SameBlock l (created a) (closureFreeSize l c) := by
  obtain ⟨live, body⟩ := loadClosure_eq_ok.mp loaded
  obtain ⟨header, inTypes⟩ := ok a live
  rw [body] at header
  have size : closureFreeSize l c = dropFinalSize l (created a).header := header ▸ rfl
  rw [size, sameBlock_iff inTypes]
  intro time
  rw [time] at header
  cases header

/-- A block is released with the size it was asked for, and holds its payload,
if and only if it was not created as a time. -/
theorem releaseExact (l : Layout) (run : SizeRun sizes s created) :
    ReleaseExact sizes l s created := by
  have ok := run.headersOk
  refine ⟨fun fuel v frees t dropped => ?_, fun a c => ok.closureFree l,
    fun a c arg child parent prio depth t u pushed activated loaded => ?_⟩
  · obtain ⟨run', -, by₁⟩ := sizedDrop_spec l fuel dropped
    refine ⟨run', fun a size mem => ?_⟩
    obtain ⟨live, same⟩ := by₁ _ mem
    obtain ⟨header, inTypes⟩ := ok a live
    simp only at same
    rw [same, header, sameBlock_iff inTypes]
  · exact (ok.same ((ssmClosurePush_sameHeaders pushed).trans
      (ssmClosureActivate_sameHeaders activated))).closureFree l loaded

instance : (k : Creation) → Decidable k.InTypes
  | .time | .sv => inferInstanceAs (Decidable True)
  | .adt n | .closure n => inferInstanceAs (Decidable (n < 2 ^ 8))
  | .array n | .blob n => inferInstanceAs (Decidable (n < 2 ^ 16))

/-- The calls one after the other, if all are in their types and return. -/
def sizeCalls (sizes : QueueSizes) : List Call → State → (Addr → Creation) →
    Option (State × (Addr → Creation))
  | [], s, created => some (s, created)
  | c :: cs, s, created =>
      if c.asks.all (fun ask => ask.2.InTypes) then
        match c.exec sizes s with
        | .ok t => sizeCalls sizes cs t (noted created (c.creates s))
        | .error _ => none
      else none

theorem SizeRun.of_sizeCalls {calls : List Call} {r : State × (Addr → Creation)}
    (before : SizeRun sizes s created) (done : sizeCalls sizes calls s created = some r) :
    SizeRun sizes r.1 r.2 := by
  induction calls generalizing s created with
  | nil => exact Option.some.inj done ▸ before
  | cons c cs ih =>
      simp only [sizeCalls] at done
      split at done
      · rename_i asked
        have inTypes : ∀ ask ∈ c.asks, ask.2.InTypes := fun ask mem =>
          of_decide_eq_true ((Option.all_eq_true _ _).mp asked ask mem)
        split at done
        · rename_i t ran
          exact ih (before.call inTypes ran) done
        · cases done
      · cases done

/-- A closure of two parameters is applied to a blob of ten bytes. -/
def appliedBlob : List Call :=
  [.newClosure 2 7 2, .newBlob 3 10, .closureApply 4 9 2 (.heap 3) ssmTopParent 0 0]

theorem releaseExact_appliedBlob : ∃ s created frees t, SizeRun defaultSizes s created ∧
    sizedDrop lp64 5 (.heap 4) s = .ok (frees, t) ∧ frees = [(3, 16), (4, 32)] ∧
    ReleaseExact defaultSizes lp64 s created := by
  have ends : (sizeCalls defaultSizes appliedBlob boot fun _ => .sv).any (fun r =>
      (sizedDrop lp64 5 (.heap 4) r.1).toOption.any fun f => f.1 = [(3, 16), (4, 32)]) = true := by
    decide +kernel
  obtain ⟨r, last, dropped⟩ := (Option.any_eq_true _ _).mp ends
  obtain ⟨f, freed, same⟩ := (Option.any_eq_true _ _).mp dropped
  have run := (SizeRun.start rfl).of_sizeCalls last
  exact ⟨r.1, r.2, f.1, f.2, run, ok_of_toOption freed, of_decide_eq_true same,
    releaseExact lp64 run⟩

/-- The block of a time goes back to another pool than it came from. -/
theorem not_sameBlock : ¬ ∀ l s created, SizeRun defaultSizes s created →
    ∀ fuel v frees t, sizedDrop l fuel v s = .ok (frees, t) →
    ∀ a size, (a, size) ∈ frees → SameBlock l (created a) size := by
  intro h
  have ends : (sizeCalls defaultSizes [.newTime 2 5] boot fun _ => .sv).any (fun r =>
      r.2 2 = .time ∧ (sizedDrop lp64 2 (.heap 2) r.1).toOption.any fun f => f.1 = [(2, 16)]) =
        true := by
    decide +kernel
  obtain ⟨r, last, facts⟩ := (Option.any_eq_true _ _).mp ends
  obtain ⟨time, dropped⟩ := of_decide_eq_true facts
  obtain ⟨f, freed, same⟩ := (Option.any_eq_true _ _).mp dropped
  have mem : (2, 16) ∈ f.1 := of_decide_eq_true same ▸ List.mem_singleton_self _
  have block := h lp64 r.1 r.2 ((SizeRun.start rfl).of_sizeCalls last) 2 (.heap 2) f.1 f.2
    (ok_of_toOption freed) 2 16 mem
  rw [time] at block
  have pools : findPoolSize defaultPools 16 ≠
      findPoolSize defaultPools (Creation.time.allocSize lp64) := by decide +kernel
  exact pools (block.pool defaultPools)

end Runs

end SsmRuntime
