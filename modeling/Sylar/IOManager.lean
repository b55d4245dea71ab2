import Sylar.Task

/-! The event registrations of `iomanager.cc`: `FdContext`, the table of contexts, and the five
operations on it. The system call `epoll_ctl` is a parameter, and the thread-local state of the
calling thread is an argument. -/

namespace Sylar
open Machine

/-- A `Scheduler*`. -/
abbrev SchedId := Nat

/-- The bits of an `Event` variable and of `epoll_event::events`. -/
abbrev Mask := BitVec 32

inductive Event
  | NONE
  | READ
  | WRITE
  deriving DecidableEq, Repr

def Event.bits : Event → Mask
  | .NONE => 0x0
  | .READ => 0x1
  | .WRITE => 0x4

def EPOLLIN : Mask := 0x1
def EPOLLOUT : Mask := 0x4
def EPOLLERR : Mask := 0x8
def EPOLLHUP : Mask := 0x10
def EPOLLET : Mask := 0x80000000

inductive EpollOp
  | EPOLL_CTL_ADD
  | EPOLL_CTL_DEL
  | EPOLL_CTL_MOD
  deriving DecidableEq, Repr

/-- An implementation of `epoll_ctl` on the instance `m_epfd`, with `K` as the state of the
kernel. A return value other than 0 is a failure. -/
structure Epoll (K : Type) where
  ctl : K → EpollOp → Nat → Mask → Int × K

/-- `epoll_ctl` on the interest list of the kernel: a descriptor is added only if it is not
registered, and modified or deleted only if it is. -/
def interestList : Epoll (Nat → Option Mask) where
  ctl list op fd events :=
    match op, list fd with
    | .EPOLL_CTL_ADD, none => (0, Function.update list fd (some events))
    | .EPOLL_CTL_MOD, some _ => (0, Function.update list fd (some events))
    | .EPOLL_CTL_DEL, some _ => (0, Function.update list fd none)
    | _, _ => (-1, list)

/-- A failed `SYLAR_ASSERT`, which ends the process, and the two uses of memory that no
assertion guards: a null `scheduler` and an index outside the table. -/
inductive Abort
  | getContext
  | triggerEvent
  | addEventTwice
  | contextInUse
  | fiberNotExec
  | cancelAllLeft
  | nullScheduler
  | outOfRange
  deriving DecidableEq, Repr

/-- What `Scheduler::GetThis()` and `Fiber::GetThis()` yield on the calling thread. -/
structure Caller where
  scheduler : Option SchedId
  fiber : FiberId
  state : FiberState
  deriving DecidableEq, Repr

structure EventContext (κ : Type) where
  scheduler : Option SchedId := none
  fiber : Option FiberId := none
  cb : Option κ := none
  deriving DecidableEq, Repr

structure FdContext (κ : Type) where
  fd : Nat := 0
  read : EventContext κ := {}
  write : EventContext κ := {}
  events : Mask := 0
  deriving DecidableEq, Repr

/-- The queues `m_fibers` of all schedulers. Entries that workers take off again stay: a queue
is the list of everything that was appended to it. -/
abbrev Queues (κ : Type) := SchedId → List (FiberAndThread κ)

variable {K κ : Type}

def schedule (queues : Queues κ) (scheduler : SchedId) (ft : FiberAndThread κ) : Queues κ :=
  Function.update queues scheduler (scheduleNoLock (queues scheduler) ft).2

namespace FdContext

def getContext (c : FdContext κ) : Event → Except Abort (EventContext κ)
  | .READ => .ok c.read
  | .WRITE => .ok c.write
  | .NONE => .error .getContext

/-- Assignment through the reference that `getContext` returns. -/
def setContext (c : FdContext κ) (event : Event) (ctx : EventContext κ) : FdContext κ :=
  match event with
  | .READ => { c with read := ctx }
  | .WRITE => { c with write := ctx }
  | .NONE => c

def resetContext (_ctx : EventContext κ) : EventContext κ :=
  { scheduler := none, fiber := none, cb := none }

def triggerEvent (c : FdContext κ) (event : Event) (queues : Queues κ) :
    Except Abort (FdContext κ × Queues κ) :=
  if c.events &&& event.bits = 0 then .error .triggerEvent
  else do
    let c := { c with events := c.events &&& ~~~event.bits }
    let ctx ← c.getContext event
    match ctx.scheduler with
    | none => .error .nullScheduler
    | some scheduler =>
      if ctx.cb.isSome then
        let (ft, cb) := FiberAndThread.swapCb ctx.cb (-1)
        return (c.setContext event { ctx with cb := cb, scheduler := none }, schedule queues scheduler ft)
      else
        let (ft, fiber) := FiberAndThread.swapFiber ctx.fiber (-1)
        return (c.setContext event { ctx with fiber := fiber, scheduler := none }, schedule queues scheduler ft)

end FdContext

/-- `m_FdContexts.resize(size)` cuts off or adds null pointers at the end, and the loop puts a
new context with its index as `fd` wherever there is a null pointer. -/
def contextResize {α : Type} (new : Nat → α) (contexts : List α) (size : Nat) : List α :=
  contexts.take size ++ (List.range' contexts.length (size - contexts.length)).map new

/-- The members of `IOManager` that the operations on events use. The counter is kept as an
integer, so that a decrement below zero shows. -/
structure IOManager (K κ : Type) where
  m_FdContexts : List (FdContext κ)
  m_pendingEventCount : Int
  kernel : K
  queues : Queues κ

namespace IOManager

variable (ep : Epoll K)

/-- The first half of `addEvent`: the context of `fd`, after the table has grown if needed. -/
def fdContext (s : IOManager K κ) (fd : Nat) : IOManager K κ × Option (FdContext κ) :=
  if s.m_FdContexts.length > fd then (s, s.m_FdContexts[fd]?)
  else
    let contexts := contextResize (fun i => { fd := i }) s.m_FdContexts (fd * 3 / 2)
    ({ s with m_FdContexts := contexts }, contexts[fd]?)

/-- The second half of `addEvent`, under the lock of the context: the return value, that of
`epoll_ctl`, and the new context, counter and kernel. -/
def addEventLocked (c : FdContext κ) (pending : Int) (kernel : K) (fd : Nat) (event : Event)
    (cb : Option κ) (caller : Caller) : Except Abort (Int × Int × FdContext κ × Int × K) :=
  if c.events &&& event.bits ≠ 0 then .error .addEventTwice
  else
    let op := if c.events ≠ 0 then EpollOp.EPOLL_CTL_MOD else .EPOLL_CTL_ADD
    let (rt, kernel) := ep.ctl kernel op fd (EPOLLET ||| c.events ||| event.bits)
    if rt ≠ 0 then .ok (-1, rt, c, pending, kernel)
    else do
      let c := { c with events := c.events ||| event.bits }
      let ctx ← c.getContext event
      if ctx.scheduler.isSome || ctx.fiber.isSome || ctx.cb.isSome then .error .contextInUse
      else if cb.isSome then
        return (0, rt, c.setContext event { ctx with scheduler := caller.scheduler, cb := cb }, pending + 1, kernel)
      else if caller.state ≠ .EXEC then .error .fiberNotExec
      else
        return (0, rt, c.setContext event { ctx with scheduler := caller.scheduler, fiber := some caller.fiber },
          pending + 1, kernel)

def addEvent (s : IOManager K κ) (fd : Nat) (event : Event) (cb : Option κ) (caller : Caller) :
    Except Abort (Int × Option Int × IOManager K κ) :=
  match s.fdContext fd with
  | (_, none) => .error .outOfRange
  | (s, some c) => do
    let (ret, rt, c, pending, kernel) ←
      addEventLocked ep c s.m_pendingEventCount s.kernel fd event cb caller
    return (ret, some rt, { s with
      m_FdContexts := s.m_FdContexts.set fd c, m_pendingEventCount := pending, kernel := kernel })

def delEvent (s : IOManager K κ) (fd : Nat) (event : Event) :
    Except Abort (Bool × Option Int × IOManager K κ) :=
  match s.m_FdContexts[fd]? with
  | none => .ok (false, none, s)
  | some c =>
    if c.events &&& event.bits = 0 then .ok (false, none, s)
    else
      let new_events := c.events &&& ~~~event.bits
      let op := if c.events ≠ 0 then EpollOp.EPOLL_CTL_MOD else .EPOLL_CTL_DEL
      let (rt, kernel) := ep.ctl s.kernel op fd (EPOLLET ||| new_events)
      if rt ≠ 0 then .ok (false, some rt, { s with kernel := kernel })
      else do
        let c := { c with events := new_events }
        let ctx ← c.getContext event
        let c := c.setContext event (FdContext.resetContext ctx)
        return (true, some rt, { s with
          m_FdContexts := s.m_FdContexts.set fd c
          m_pendingEventCount := s.m_pendingEventCount - 1
          kernel := kernel })

/-- `fd_ctx->triggerEvent(event)` with the decrement of the counter that goes with it. -/
def triggerAt (s : IOManager K κ) (fd : Nat) (event : Event) : Except Abort (IOManager K κ) :=
  match s.m_FdContexts[fd]? with
  | none => .error .outOfRange
  | some c => do
    let (c, queues) ← c.triggerEvent event s.queues
    return { s with
      m_FdContexts := s.m_FdContexts.set fd c
      m_pendingEventCount := s.m_pendingEventCount - 1
      queues := queues }

/-- The same under the test `if(events & event)`. -/
def triggerIf (s : IOManager K κ) (events : Mask) (fd : Nat) (event : Event) : Except Abort (IOManager K κ) :=
  if events &&& event.bits ≠ 0 then s.triggerAt fd event else .ok s

def cancelEvent (s : IOManager K κ) (fd : Nat) (event : Event) :
    Except Abort (Bool × Option Int × IOManager K κ) :=
  match s.m_FdContexts[fd]? with
  | none => .ok (false, none, s)
  | some c =>
    if c.events &&& event.bits = 0 then .ok (false, none, s)
    else
      let new_events := c.events &&& ~~~event.bits
      let op := if c.events ≠ 0 then EpollOp.EPOLL_CTL_MOD else .EPOLL_CTL_DEL
      let (rt, kernel) := ep.ctl s.kernel op fd (EPOLLET ||| new_events)
      if rt ≠ 0 then .ok (false, some rt, { s with kernel := kernel })
      else do
        let s ← triggerAt { s with kernel := kernel } fd event
        return (true, some rt, s)

/-- The mask of the context at `fd`, as the code reads it through `fd_ctx`. -/
def eventsAt (s : IOManager K κ) (fd : Nat) : Mask :=
  match s.m_FdContexts[fd]? with
  | some c => c.events
  | none => 0

def cancelAll (s : IOManager K κ) (fd : Nat) : Except Abort (Bool × Option Int × IOManager K κ) :=
  match s.m_FdContexts[fd]? with
  | none => .ok (false, none, s)
  | some c =>
    if c.events = 0 then .ok (false, none, s)
    else
      let (rt, kernel) := ep.ctl s.kernel .EPOLL_CTL_DEL fd 0
      if rt ≠ 0 then .ok (false, some rt, { s with kernel := kernel })
      else do
        let s := { s with kernel := kernel }
        let s ← s.triggerIf (s.eventsAt fd) fd .READ
        let s ← s.triggerIf (s.eventsAt fd) fd .WRITE
        if s.eventsAt fd ≠ 0 then .error .cancelAllLeft
        else return (true, some rt, s)

/-- `real_events` in `idle`: an error or a hang-up counts as both directions. -/
def realEvents (events : Mask) : Mask :=
  let events := if events &&& (EPOLLERR ||| EPOLLHUP) ≠ 0 then events ||| (EPOLLIN ||| EPOLLOUT) else events
  (if events &&& EPOLLIN ≠ 0 then Event.READ.bits else 0) |||
    (if events &&& EPOLLOUT ≠ 0 then Event.WRITE.bits else 0)

/-- The body of the loop in `idle` over what `epoll_wait` has reported, for the context at `fd`. -/
def dispatch (s : IOManager K κ) (fd : Nat) (events : Mask) : Except Abort (Option Int × IOManager K κ) :=
  match s.m_FdContexts[fd]? with
  | none => .ok (none, s)
  | some c =>
    let real_events := realEvents events
    if c.events &&& real_events = 0 then .ok (none, s)
    else
      let left_events := c.events &&& ~~~real_events
      let op := if left_events ≠ 0 then EpollOp.EPOLL_CTL_MOD else .EPOLL_CTL_DEL
      let (rt2, kernel) := ep.ctl s.kernel op c.fd (EPOLLET ||| left_events)
      if rt2 ≠ 0 then .ok (some rt2, { s with kernel := kernel })
      else do
        let s := { s with kernel := kernel }
        let s ← s.triggerIf real_events fd .READ
        let s ← s.triggerIf real_events fd .WRITE
        return (some rt2, s)

end IOManager
end Sylar
