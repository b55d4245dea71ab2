import Sylar.Task

/-! The switches between fibers: `Fiber::call`, `back`, `swapIn` and `swapOut` with their callers, on
any number of threads. -/

namespace Sylar

/-- The function that `makecontext` starts. -/
inductive Entry
  | MainFunc
  | CallerMainFunc
  deriving DecidableEq, Repr

/-- The thread-local variables, and the fiber whose context executes: `none` as long as the code that
the thread has started with has no fiber. -/
structure FiberThread where
  t_fiber : Option FiberId := none
  t_threadFiber : Option FiberId := none
  t_scheduler : Bool := false
  t_scheduler_fiber : Option FiberId := none
  executing : Option FiberId := none

/-- The threads and their fibers. `m_ctx` tells of which fiber the context is that `m_ctx` holds, and
`entry` is `none` for the main fiber of a thread, which has no stack of its own. -/
structure Switches where
  thread : Nat → FiberThread := fun _ => {}
  m_state : FiberId → FiberState := fun _ => .INIT
  m_ctx : FiberId → FiberId := id
  entry : FiberId → Option Entry := fun _ => none
  fibers : Nat := 0

namespace Switches

def setState (s : Switches) (f : FiberId) (state : FiberState) : Switches :=
  { s with m_state := Function.update s.m_state f state }

def setThread (s : Switches) (w : Nat) (me : FiberThread) : Switches :=
  { s with thread := Function.update s.thread w me }

def SetThis (s : Switches) (w : Nat) (f : Option FiberId) : Switches :=
  s.setThread w { s.thread w with t_fiber := f }

/-- `swapcontext(&oucp->m_ctx, &ucp->m_ctx)` saves the context that executes and resumes the other. -/
def swapcontext (s : Switches) (w : Nat) (oucp ucp : FiberId) : Option Switches := do
  let executing ← (s.thread w).executing
  let m_ctx := Function.update s.m_ctx oucp executing
  return { s with m_ctx := m_ctx }.setThread w { s.thread w with executing := some (m_ctx ucp) }

/-- `Fiber::GetThis` makes the main fiber of a thread that has none. -/
def GetThis (s : Switches) (w : Nat) : FiberId × Switches :=
  match (s.thread w).t_fiber with
  | some f => (f, s)
  | none =>
    let f := s.fibers
    let executing := (s.thread w).executing.getD f
    (f, { s with
      thread := Function.update s.thread w
        { s.thread w with t_fiber := some f, t_threadFiber := some f, executing := some executing }
      m_state := Function.update s.m_state f .EXEC
      m_ctx := Function.update s.m_ctx f executing
      fibers := f + 1 })

/-- `new Fiber(cb, stacksize, use_caller)`. -/
def newFiber (s : Switches) (entry : Entry) : FiberId × Switches :=
  let f := s.fibers
  (f, { s with
    m_state := Function.update s.m_state f .INIT
    m_ctx := Function.update s.m_ctx f f
    entry := Function.update s.entry f (some entry)
    fibers := f + 1 })

/-- `Fiber::reset`, with its assertions. -/
def reset (s : Switches) (f : FiberId) : Option Switches :=
  if (s.entry f).isSome ∧ (s.m_state f = .TERM ∨ s.m_state f = .INIT ∨ s.m_state f = .EXCEPT) then
    some { s.setState f .INIT with
      m_ctx := Function.update s.m_ctx f f
      entry := Function.update s.entry f (some .MainFunc) }
  else none

def call (s : Switches) (w : Nat) (this : FiberId) : Option Switches := do
  let threadFiber ← (s.thread w).t_threadFiber
  ((s.SetThis w (some this)).setState this .EXEC).swapcontext w threadFiber this

def back (s : Switches) (w : Nat) (this : FiberId) : Option Switches := do
  let threadFiber ← (s.thread w).t_threadFiber
  (s.SetThis w (some threadFiber)).swapcontext w this threadFiber

def swapIn (s : Switches) (w : Nat) (this : FiberId) : Option Switches := do
  let mainFiber ← (s.thread w).t_scheduler_fiber
  if s.m_state this = .EXEC then none
  else ((s.SetThis w (some this)).setState this .EXEC).swapcontext w mainFiber this

def swapOut (s : Switches) (w : Nat) (this : FiberId) : Option Switches := do
  let mainFiber ← (s.thread w).t_scheduler_fiber
  (s.SetThis w (s.thread w).t_threadFiber).swapcontext w this mainFiber

/-- `YieldToReady` and `YieldToHold`, with their assertion. -/
def yieldTo (s : Switches) (w : Nat) (state : FiberState) : Option Switches :=
  let (cur, s) := s.GetThis w
  if s.m_state cur = .EXEC then (s.setState cur state).swapOut w cur else none

/-- The end of `MainFunc` and of `CallerMainFunc`. Their variable `cur` is what `GetThis` has returned
at the entry, right after `call` or `swapIn` has set it. -/
def terminate (s : Switches) (w : Nat) (state : FiberState) : Option Switches := do
  let cur ← (s.thread w).executing
  match s.entry cur with
  | some .MainFunc => (s.setState cur state).swapOut w cur
  | some .CallerMainFunc => (s.setState cur state).back w cur
  | none => none

/-- The constructor of a `use_caller` scheduler on the thread `w`: the root fiber is to run
`Scheduler::run`. -/
def useCaller (s : Switches) (w : Nat) : Option Switches :=
  let (_, s) := s.GetThis w
  if (s.thread w).t_scheduler then none
  else
    let (m_rootFiber, s) := s.newFiber .CallerMainFunc
    some (s.setThread w { s.thread w with t_scheduler := true, t_scheduler_fiber := some m_rootFiber })

/-- The start of `Scheduler::run` on a worker thread. -/
def run (s : Switches) (w : Nat) : Switches :=
  let (cur, s) := s.GetThis w
  s.setThread w { s.thread w with t_scheduler := true, t_scheduler_fiber := some cur }

inductive Op
  | GetThis
  | useCaller
  | run
  | newFiber (entry : Entry)
  | reset (f : FiberId)
  | call (f : FiberId)
  | back (f : FiberId)
  | swapIn (f : FiberId)
  | swapOut (f : FiberId)
  | YieldToReady
  | YieldToHold
  | finish
  | throw
  deriving DecidableEq, Repr

/-- A worker thread starts with `run`. The four switches are public members of a fiber: any code may call
them on any fiber there is, whichever fiber it executes on. -/
def act (s : Switches) (w : Nat) : Op → Option Switches
  | .GetThis => some (s.GetThis w).2
  | .useCaller => s.useCaller w
  | .run => if (s.thread w).executing = (s.thread w).t_threadFiber then some (s.run w) else none
  | .newFiber entry => some (s.newFiber entry).2
  | .reset f => s.reset f
  | .call f => if f < s.fibers then s.call w f else none
  | .back f => if f < s.fibers then s.back w f else none
  | .swapIn f => if f < s.fibers then s.swapIn w f else none
  | .swapOut f => if f < s.fibers then s.swapOut w f else none
  | .YieldToReady => s.yieldTo w .READY
  | .YieldToHold => s.yieldTo w .HOLD
  | .finish => s.terminate w .TERM
  | .throw => s.terminate w .EXCEPT

def Step (s : Switches) (l : Nat × Op) (t : Switches) : Prop := s.act l.1 l.2 = some t

/-- On every thread `t_fiber` is the fiber whose context executes. -/
def Denotes (s : Switches) : Prop := ∀ w, (s.thread w).t_fiber = (s.thread w).executing

/-- The switches are paired: the code of the thread calls fibers from its main fiber, as `Scheduler::stop` does,
`Scheduler::run` swaps them in from the scheduler fiber, and a fiber leaves itself with `back` or `swapOut`. -/
def Paired (s : Switches) (l : Nat × Op) (_ : Switches) : Prop :=
  match l with
  | (w, .call _) => (s.thread w).executing = (s.thread w).t_threadFiber
  | (w, .swapIn _) => (s.thread w).executing = (s.thread w).t_scheduler_fiber
  | (w, .back f) | (w, .swapOut f) => (s.thread w).executing = some f
  | _ => True

/-- The step leaves a fiber with `swapOut`. -/
def LeavesBySwapOut (s : Switches) : Nat × Op → Prop
  | (_, .YieldToReady) | (_, .YieldToHold) | (_, .swapOut _) => True
  | (w, .finish) | (w, .throw) => (s.thread w).executing.bind s.entry = some .MainFunc
  | _ => False

/-- `swapOut` is used only where the scheduler runs on the main fiber of the thread. -/
def Straight (s : Switches) (l : Nat × Op) (_ : Switches) : Prop :=
  s.LeavesBySwapOut l → (s.thread l.1).t_scheduler_fiber = (s.thread l.1).t_threadFiber

end Switches
end Sylar
