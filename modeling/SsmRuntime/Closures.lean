import SsmRuntime.Scheduler

/-!
Closure application. The enter function of a closure allocates the record of
the child and moves the arguments into it; the address of that record and of a
cloned closure are the allocator's. The result is what is written to `*ret`.
-/
namespace SsmRuntime

structure Closure where
  f : Nat
  count : Nat
  cap : Nat
  argv : List Value
  deriving DecidableEq, Repr

def State.loadClosure (s : State) (a : Addr) : Except Stop Closure :=
  match s.objs.get? a with
  | some ⟨_, .closure f count cap argv⟩ => .ok ⟨f, count, cap, argv⟩
  | _ => .error ⟨.badPointer, s⟩

def State.setClosure (s : State) (a : Addr) (c : Closure) : State :=
  s.setObj a ⟨(s.objs.val a).refCount, .closure c.f c.count c.cap c.argv⟩

/-- `ssm_closure_push`; a write past the argument array is an invalid access. -/
def ssmClosurePush (closure : Addr) (arg : Value) (s : State) : Res := do
  let c ← s.loadClosure closure
  if c.count < c.argv.length then
    .ok (s.setClosure closure
      { c with argv := c.argv.set c.count arg, count := (c.count + 1) % 256 })
  else .error ⟨.badPointer, s⟩

def ssmClosurePop (closure : Addr) (s : State) : Res := do
  let c ← s.loadClosure closure
  .ok (s.setClosure closure { c with count := (c.count + 255) % 256 })

def ssmClosureActivate (sizes : QueueSizes) (child : ActPtr) (closure : Addr)
    (parent : ActPtr) (prio : Nat) (depth : Nat) (s : State) : Res := do
  let c ← s.loadClosure closure
  let s ← ssmEnterInt child c.f parent prio depth (c.argv.take c.cap) s
  ssmActivate sizes child s

/-- The loop of `ssm_closure_clone`: dup and copy the arguments one by one. -/
def cloneArgs (new : Addr) (args : List Value) : Nat → State → Res
  | 0, s => .ok s
  | n + 1, s => do
      let s ← cloneArgs new args n s
      let arg := args.getD n (.packed 0)
      let s ← ssmDup arg s
      let c ← s.loadClosure new
      if n < c.argv.length then
        .ok (s.setClosure new { c with argv := c.argv.set n arg })
      else .error ⟨.badPointer, s⟩

def ssmClosureClone (new closure : Addr) (s : State) : Res := do
  let c ← s.loadClosure closure
  let s := ssmNewClosure new c.f c.cap s
  let n ← s.loadClosure new
  let s := s.setClosure new { n with count := c.count }
  cloneArgs new c.argv c.count s

def ssmClosureApply (sizes : QueueSizes) (new : Addr) (child : ActPtr) (closure : Addr)
    (arg : Value) (parent : ActPtr) (prio : Nat) (depth : Nat) (s : State) :
    Except Stop (Option Value × State) := do
  let c ← s.loadClosure closure
  if c.cap = c.count + 1 then
    let s ← ssmDups (c.argv.take c.count) s
    let s ← ssmClosurePush closure arg s
    let s ← ssmClosureActivate sizes child closure parent prio depth s
    let s ← ssmClosurePop closure s
    .ok (none, s)
  else
    let s ← ssmClosureClone new closure s
    let s ← ssmClosurePush new arg s
    .ok (some (.heap new), s)

def ssmClosureApplyFinal (sizes : QueueSizes) (child : ActPtr) (closure : Addr)
    (arg : Value) (parent : ActPtr) (prio : Nat) (depth : Nat) (s : State) :
    Except Stop (Option Value × State) := do
  let shared ← ssmIsShared (.heap closure) s
  let s ← ssmAssert (!shared) s
  let c ← s.loadClosure closure
  if c.cap = c.count + 1 then
    let s ← ssmClosurePush closure arg s
    let s ← ssmClosureActivate sizes child closure parent prio depth s
    .ok (none, { s with objs := s.objs.release closure })
  else
    let s ← ssmClosurePush closure arg s
    .ok (some (.heap closure), s)

def ssmClosureApplyAuto (sizes : QueueSizes) (new : Addr) (child : ActPtr) (closure : Addr)
    (arg : Value) (parent : ActPtr) (prio : Nat) (depth : Nat) (s : State) :
    Except Stop (Option Value × State) := do
  let s ← ssmDup arg s
  ssmClosureApply sizes new child closure arg parent prio depth s

def ssmClosureApplyFinalAuto (sizes : QueueSizes) (child : ActPtr) (closure : Addr)
    (arg : Value) (parent : ActPtr) (prio : Nat) (depth : Nat) (s : State) :
    Except Stop (Option Value × State) := do
  let s ← ssmDup arg s
  ssmClosureApplyFinal sizes child closure arg parent prio depth s

end SsmRuntime
