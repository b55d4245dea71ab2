import Sylar.ReactorDrain

/-! `IOManager::tickle`: the byte in the pipe that brings a worker out of `epoll_wait`. The call, its
test of `m_idleThreadCount`, its `write`, and the worker's `read` are steps of their own. -/

namespace Sylar
open Machine

variable {K κ ω : Type}

/-- `tickle_me` after the selection loop of `Scheduler::run`. -/
def tickleMe (m_state : FiberId → FiberState) (thread : Int) : List (FiberAndThread κ) → Bool
  | [] => false
  | it :: rest =>
    if it.thread ≠ -1 ∧ it.thread ≠ thread then true
    else if it.fiber.any fun f => m_state f = .EXEC then tickleMe m_state thread rest
    else true

namespace Reactor

/-- The thread that takes the step, where it is a worker. -/
def Act.thread : Act κ ω → Option Nat
  | .run w | .switch w | .idle w _ | .leave w _ | .submit w _ => some w
  | .outside _ _ | .autoStop => none

/-- The calls of `schedule` that the step made have found the queue empty, and filled it. -/
def filled (s t : Reactor K κ ω) : Bool := s.scheduler.m_fibers.isEmpty && !t.scheduler.m_fibers.isEmpty

/-- Whether the thread goes on to call `tickle()`: `need_tickle` in the overloads of `schedule`, and
`onTimerInsertedAtfront()`. -/
def submitTickles (s t : Reactor K κ ω) : Submit κ ω → Bool
  | .timer op =>
    match s.timers.exec op with
    | .ok (out, _) => out.atFront
    | .error _ => false
  | .addEvent _ _ _ | .delEvent _ _ | .cancelEvent _ _ | .cancelAll _ => s.filled t
  | .schedule _ _ => s.scheduler.m_fibers.isEmpty
  | .scheduleRange range => s.scheduler.m_fibers.isEmpty && !range.entries.isEmpty
  | .newFiber => false

/-- Whether the thread goes on to call `tickle()`. In `Scheduler::run` it does so by `tickle_me`, when it
schedules a `READY` fiber, and when its idle fiber has terminated. -/
def tickles (s : Reactor K κ ω) (a : Act κ ω) (t : Reactor K κ ω) : Bool :=
  match a with
  | .run w =>
    match (s.worker w).pc with
    | .select => tickleMe s.scheduler.m_state w s.scheduler.m_fibers
    | .reschedule _ => s.scheduler.m_fibers.isEmpty
    | .selected false => (t.worker w).pc = .stopped
    | _ => false
  | .idle w .schedule =>
    match s.idle w with
    | .cbs cbs => s.scheduler.m_fibers.isEmpty && !cbs.isEmpty
    | _ => false
  | .idle _ (.report _ _) => s.filled t
  | .submit _ x | .outside _ x => s.submitTickles t x
  | _ => false

/-- `hasIdleThreads()`. -/
def hasIdleThreads (s : Reactor K κ ω) : Bool := s.scheduler.m_idleThreadCount > 0

end Reactor

/-- Where a thread is in `tickle()`: before its test, or before its `write`. -/
inductive Tickling
  | called
  | writing
  deriving DecidableEq, Repr

/-- An `IOManager` with its pipe: the calls of `tickle()` under way on each thread, the bytes in the
pipe, whether `epoll` has its read end on the ready list (it is registered with `EPOLLET`), and the
workers whose `epoll_wait` has reported it. -/
structure Tickler (K κ ω : Type) where
  io : Reactor K κ ω
  tickling : Nat → Option Tickling
  bytes : Nat
  ready : Bool
  reported : Nat → Bool

namespace Tickler

/-- A step of a thread outside of `tickle()`; the two steps of `tickle()`; the return of `epoll_wait`
with the read end of the pipe among its reports; and one round of the `read` loop. -/
inductive Act (κ ω : Type)
  | io (thread : Nat) (a : Reactor.Act κ ω)
  | hasIdleThreads (thread : Nat)
  | write (thread : Nat)
  | epoll_wait (w : Nat)
  | read (w : Nat)

def goto (s : Tickler K κ ω) (thread : Nat) (at_ : Option Tickling) : Tickler K κ ω :=
  { s with tickling := Function.update s.tickling thread at_ }

section
variable (ep : Epoll K) (self : SchedId)

def act (s : Tickler K κ ω) : Act κ ω → Option (Tickler K κ ω)
  | .io thread a =>
    if s.tickling thread = none then
      (s.io.act ep self a).map fun io =>
        { s with
          io := io
          tickling := if s.io.tickles a io then Function.update s.tickling thread (some .called) else s.tickling }
    else none
  | .hasIdleThreads thread =>
    match s.tickling thread with
    | some .called => some (s.goto thread (if s.io.hasIdleThreads then some .writing else none))
    | _ => none
  | .write thread =>
    match s.tickling thread with
    | some .writing => some { s.goto thread none with bytes := s.bytes + 1, ready := true }
    | _ => none
  | .epoll_wait w =>
    if s.tickling w = none ∧ s.ready ∧ 0 < s.bytes then
      (s.io.act ep self (.idle w .epoll_wait)).map fun io =>
        { s with io := io, ready := false, reported := Function.update s.reported w true }
    else none
  | .read w =>
    match s.io.idle w with
    | .dispatch =>
      if s.reported w ∧ s.tickling w = none then
        if 0 < s.bytes then some { s with bytes := s.bytes - 1 }
        else some { s with reported := Function.update s.reported w false }
      else none
    | _ => none

end

/-- The steps of the `n` workers and of other threads. An idle fiber goes through all reports before it
switches back. -/
def Allowed (n : Nat) (self : SchedId) (s : Tickler K κ ω) : Act κ ω → Prop
  | .io thread a => s.io.Allowed n self a ∧ (∀ w, a.thread = some w → thread = w) ∧ (a.thread = none → n ≤ thread) ∧
      ∀ w, a = .idle w .swapOut → s.reported w = false
  | .epoll_wait w | .read w => w < n
  | _ => True

def Step (ep : Epoll K) (self : SchedId) (n : Nat) (s : Tickler K κ ω) (a : Act κ ω) (t : Tickler K κ ω) : Prop :=
  s.Allowed n self a ∧ s.act ep self a = some t

/-- After the constructor of `IOManager`. -/
structure Init (s : Tickler K κ ω) : Prop where
  io : s.io.Init
  tickling : s.tickling = fun _ => none
  bytes : s.bytes = 0
  ready : s.ready = false
  reported : s.reported = fun _ => false

/-- The read end of the pipe will be in the reports of the next `epoll_wait`. -/
def Rings (s : Tickler K κ ω) : Prop := s.ready ∧ 0 < s.bytes

/-- Some thread is in `tickle()`. -/
def Calls (s : Tickler K κ ω) : Prop := ∃ thread, s.tickling thread ≠ none

end Tickler
end Sylar
