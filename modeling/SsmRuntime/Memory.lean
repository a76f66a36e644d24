import SsmRuntime.Queues

/-!
Reference counting and finalisation. A count is an 8-bit field. A drop that
reaches zero finalises the object: its own references are dropped first and
the block is released last. The recursion is bounded by fuel; the bound used
by `ssmDrop` is one more than the number of live objects.
-/
namespace SsmRuntime

/-- The values a finaliser drops in order, for the kinds that need nothing else. -/
def Body.children : Body → List Value
  | .adt _ fields => fields
  | .closure _ count _ argv => argv.take count
  | .array elements => elements
  | _ => []

def ssmIsShared (v : Value) (s : State) : Except Stop Bool :=
  match v with
  | .packed _ => .ok true
  | .heap a => do
      let o ← s.loadObj a
      .ok (!(o.refCount == 1))

def ssmDup (v : Value) (s : State) : Res :=
  match v with
  | .packed _ => .ok s
  | .heap a => do
      let o ← s.loadObj a
      .ok (s.setObj a { o with refCount := (o.refCount + 1) % 256 })

def ssmDups : List Value → State → Res
  | [], s => .ok s
  | v :: vs, s => do
      let s ← ssmDup v s
      ssmDups vs s

/-- `ssm_drops`, given the drop it calls. -/
def ssmDropsWith (drop : Value → State → Res) : List Value → State → Res
  | [], s => .ok s
  | v :: vs, s => do
      let s ← drop v s
      ssmDropsWith drop vs s

/-- What a finaliser does before the block is released. -/
def dropBody (drop : Value → State → Res) (a : Addr) : Body → State → Res
  | .sv _, s => do
      let s ← ssmUnschedule a s
      let v ← s.loadSv a
      let s ← drop v.value s
      let v ← s.loadSv a
      if v.laterTime = ssmNever then .ok s else drop v.laterValue s
  | body, s => ssmDropsWith drop body.children s

/-- `ssm_drop_final`, given the drop it calls. -/
def ssmDropFinalWith (drop : Value → State → Res) (a : Addr) (s : State) : Res := do
  let o ← s.loadObj a
  let s ← dropBody drop a o.body s
  .ok { s with objs := s.objs.release a }

def ssmDropWith : Nat → Value → State → Res
  | _, .packed _, s => .ok s
  | 0, .heap _, s => .error ⟨.diverges, s⟩
  | fuel + 1, .heap a, s => do
      let o ← s.loadObj a
      let refCount := (o.refCount + 255) % 256
      let s := s.setObj a { o with refCount := refCount }
      if refCount = 0 then ssmDropFinalWith (ssmDropWith fuel) a s else .ok s

/-- A relation between states that the work of a finaliser on the fields keeps. -/
structure BodyKeeps (r : State → State → Prop) : Prop where
  refl : ∀ s, r s s
  trans : ∀ {s t u}, r s t → r t u → r s u
  unschedule : ∀ {s t a}, ssmUnschedule a s = .ok t → r s t

/-- A relation between states that every write of a drop keeps. -/
structure DropKeeps (r : State → State → Prop) : Prop extends BodyKeeps r where
  count : ∀ {s a o} (n : Nat), s.loadObj a = .ok o → r s (s.setObj a { o with refCount := n })
  release : ∀ (s : State) (a : Addr), r s { s with objs := s.objs.release a }

section Keeps
variable {r : State → State → Prop}

/-- A list of drops keeps what each of them keeps. -/
theorem ssmDropsWith_keeps (refl : ∀ s, r s s) (trans : ∀ {s t u}, r s t → r t u → r s u)
    {drop : Value → State → Res} (one : ∀ {v s t}, drop v s = .ok t → r s t) (vs : List Value)
    {s t : State} (h : ssmDropsWith drop vs s = .ok t) : r s t := by
  induction vs generalizing s with
  | nil => exact Except.ok.inj h ▸ refl s
  | cons v vs ih =>
      obtain ⟨u, first, rest⟩ := bind_eq_ok.mp h
      exact trans (one first) (ih rest)

section Body
variable (k : BodyKeeps r)
include k

theorem BodyKeeps.of_ok {s t : State} (h : (.ok s : Res) = .ok t) : r s t :=
  Except.ok.inj h ▸ k.refl s

theorem BodyKeeps.dropsWith {drop : Value → State → Res}
    (one : ∀ {v s t}, drop v s = .ok t → r s t) (vs : List Value) {s t : State}
    (h : ssmDropsWith drop vs s = .ok t) : r s t :=
  ssmDropsWith_keeps k.refl k.trans one vs h

theorem BodyKeeps.dropBody {drop : Value → State → Res}
    (one : ∀ {v s t}, drop v s = .ok t → r s t) {a : Addr} {body : Body} {s t : State}
    (h : SsmRuntime.dropBody drop a body s = .ok t) : r s t := by
  cases body with
  | sv _ =>
      obtain ⟨u, unscheduled, h⟩ := bind_eq_ok.mp h
      obtain ⟨v, -, h⟩ := bind_eq_ok.mp h
      obtain ⟨u', first, h⟩ := bind_eq_ok.mp h
      obtain ⟨w, -, h⟩ := bind_eq_ok.mp h
      have sofar := k.trans (k.unschedule unscheduled) (one first)
      split at h
      · exact k.trans sofar (k.of_ok h)
      · exact k.trans sofar (one h)
  | time _ | adt _ _ | closure _ _ _ _ | array _ | blob _ => exact k.dropsWith one _ h

end Body

variable (k : DropKeeps r)
include k

theorem DropKeeps.dropFinalWith {drop : Value → State → Res}
    (one : ∀ {v s t}, drop v s = .ok t → r s t) {a : Addr} {s t : State}
    (h : ssmDropFinalWith drop a s = .ok t) : r s t := by
  obtain ⟨o, -, h⟩ := bind_eq_ok.mp h
  obtain ⟨u, dropped, h⟩ := bind_eq_ok.mp h
  cases h
  exact k.trans (k.dropBody one dropped) (k.release u a)

theorem DropKeeps.dropWith (fuel : Nat) {v : Value} {s t : State}
    (h : ssmDropWith fuel v s = .ok t) : r s t := by
  induction fuel generalizing v s t with
  | zero =>
      cases v with
      | packed n => exact k.of_ok h
      | heap a => cases h
  | succ fuel ih =>
      cases v with
      | packed n => exact k.of_ok h
      | heap a =>
          obtain ⟨o, loaded, h⟩ := bind_eq_ok.mp h
          have counted := k.count ((o.refCount + 255) % 256) loaded
          simp only at h
          split at h
          · exact k.trans counted (k.dropFinalWith ih h)
          · exact k.trans counted (k.of_ok h)

end Keeps

def ssmDrop (v : Value) (s : State) : Res := ssmDropWith (s.objs.dom.card + 1) v s

@[simp] theorem ssmDrop_packed (n : Nat) (s : State) : ssmDrop (.packed n) s = .ok s := rfl

/-! The constructors take the address the allocator answers with. The cells a
constructor leaves uninitialised are those the caller fills, or keep their old
content. -/

def ssmNewTime (p : Addr) (time : Nat) (s : State) : State :=
  { s with objs := s.objs.alloc p ⟨1, .time time⟩ }

def ssmNewAdt (p : Addr) (tag : Nat) (fields : List Value) (s : State) : State :=
  { s with objs := s.objs.alloc p ⟨1, .adt tag fields⟩ }

def ssmNewSv (p : Addr) (val : Value) (s : State) : State :=
  let sv : Sv := ⟨ssmNever, ssmNever, none, val, (s.svAt p).laterValue⟩
  { s with objs := s.objs.alloc p ⟨1, .sv sv⟩ }

def ssmNewClosure (p : Addr) (f cap : Nat) (s : State) : State :=
  { s with objs := s.objs.alloc p ⟨1, .closure f 0 cap (List.replicate cap (.packed 0))⟩ }

def ssmNewArray (p : Addr) (elements : List Value) (s : State) : State :=
  { s with objs := s.objs.alloc p ⟨1, .array elements⟩ }

def ssmNewBlob (p : Addr) (size : Nat) (s : State) : State :=
  { s with objs := s.objs.alloc p ⟨1, .blob ((size + 4 - 1) / 4 % 2 ^ 16)⟩ }

end SsmRuntime
