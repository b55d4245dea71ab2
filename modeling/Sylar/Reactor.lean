import Sylar.TimerStep
import Sylar.IOManagerStep
import Sylar.SchedulerPrivate
import Sylar.SchedulerStopping

/-! `IOManager` as a whole: the scheduler with its workers, the timers and the events, and on each
worker the position in `IOManager::idle`. The three reads of `IOManager::stopping` are three steps. -/

namespace Sylar

variable {K κ ω : Type}

/-- Where the idle fiber of a worker is in `IOManager::idle`. At `head` it stands before a call of
`stopping(next_timeout)`, also when it has not been swapped in yet or is swapped out; from `exit` on
that call has returned true. -/
inductive IdlePc (κ ω : Type)
  | head
  | pending
  | stopping
  | exit
  | broken
  | done
  | wait
  | expire
  | cbs (cbs : List (Option (Callback κ ω)))
  | dispatch

/-- `stopping(next_timeout)` has returned true. -/
def IdlePc.decided : IdlePc κ ω → Bool
  | .exit | .broken | .done => true
  | _ => false

/-- An `IOManager`: its base `Scheduler` with the workers, its base `TimerManager`, and its events. -/
structure Reactor (K κ ω : Type) where
  base : Stoppable (Callback κ ω)
  timers : TimerManager κ ω
  events : IOManager K (Callback κ ω)
  idle : Nat → IdlePc κ ω

/-- What a task or another thread asks of the manager. -/
inductive Submit (κ ω : Type)
  | timer (op : TimerOp κ ω)
  | addEvent (fd : Nat) (event : Event) (cb : Option (Callback κ ω))
  | delEvent (fd : Nat) (event : Event)
  | cancelEvent (fd : Nat) (event : Event)
  | cancelAll (fd : Nat)
  | schedule (fc : FiberOrCb (Callback κ ω)) (thread : Int)
  | scheduleRange (range : TaskRange (Callback κ ω))
  | newFiber

/-- The statements of `IOManager::idle` that touch what the threads share. -/
inductive IdleAct
  | getNextTimer (now_ms : UInt64)
  | readPending
  | stopping
  | finish
  | epoll_wait
  | listExpiredCb (now_ms : UInt64) (now_timer : Ptr)
  | schedule
  | report (fd : Nat) (events : Mask)
  | swapOut

namespace Reactor

/-- A step of `Scheduler::run` or the switch back to it on the worker `w`, a step of its idle fiber,
what the task that it runs does, and what another thread does. -/
inductive Act (κ ω : Type)
  | run (w : Nat)
  | switch (w : Nat)
  | idle (w : Nat) (a : IdleAct)
  | leave (w : Nat) (a : Scheduler.Act (Callback κ ω))
  | submit (w : Nat) (x : Submit κ ω)
  | outside (caller : Caller) (x : Submit κ ω)
  | autoStop

def worker (s : Reactor K κ ω) (w : Nat) : Worker (Callback κ ω) := s.base.workers.worker w

def scheduler (s : Reactor K κ ω) : Scheduler (Callback κ ω) := s.base.workers.scheduler

def setWorkers (s : Reactor K κ ω) (workers : Workers (Callback κ ω)) : Reactor K κ ω :=
  { s with base := { s.base with workers := workers } }

def setTimers (s : Reactor K κ ω) (timers : TimerManager κ ω) : Reactor K κ ω := { s with timers := timers }

def goto (s : Reactor K κ ω) (w : Nat) (pc : IdlePc κ ω) : Reactor K κ ω :=
  { s with idle := Function.update s.idle w pc }

/-- A step of the workers. -/
def call (s : Reactor K κ ω) (w : Nat) (c : Scheduler.Call (Callback κ ω)) : Option (Reactor K κ ω) :=
  (s.base.workers.call w c).map s.setWorkers

/-- An operation on the timers. One that meets undefined behaviour is no step. -/
def timer (s : Reactor K κ ω) (op : TimerOp κ ω) : Option (TimerOut κ ω × Reactor K κ ω) :=
  match s.timers.exec op with
  | .ok (out, timers) => some (out, s.setTimers timers)
  | .error _ => none

section
variable (ep : Epoll K) (self : SchedId)

/-- An operation on the events, whose continuations go to the queues of their schedulers; the one
of this scheduler is `m_fibers`. -/
def event (s : Reactor K κ ω) (op : EventOp (Callback κ ω)) : Option (Reactor K κ ω) :=
  match s.events.exec ep op with
  | .ok (_, events) => some { s with
      base := { s.base with workers := { s.base.workers with scheduler := { s.scheduler with
        m_fibers := s.scheduler.m_fibers ++ events.queues self } } }
      events := { events with queues := fun _ => [] } }
  | .error _ => none

/-- What a thread does on which `Scheduler::GetThis()` and `Fiber::GetThis()` yield `caller`. -/
def submit (s : Reactor K κ ω) (w : Nat) (caller : Caller) : Submit κ ω → Option (Reactor K κ ω)
  | .timer op => (s.timer op).map Prod.snd
  | .addEvent fd event cb => s.event ep self (.addEvent fd event cb caller)
  | .delEvent fd event => s.event ep self (.delEvent fd event)
  | .cancelEvent fd event => s.event ep self (.cancelEvent fd event)
  | .cancelAll fd => s.event ep self (.cancelAll fd)
  | .schedule fc thread => s.call w (.schedule fc thread)
  | .scheduleRange range => s.call w (.scheduleRange range)
  | .newFiber => s.call w (.act .newFiber)

/-- One step of `IOManager::idle` on the worker `w`. -/
def idleAct (s : Reactor K κ ω) (w : Nat) (a : IdleAct) : Option (Reactor K κ ω) :=
  match s.idle w, a with
  | .head, .getNextTimer now_ms =>
    (s.timer (.getNextTimer now_ms)).map fun (out, s) => s.goto w (if out.timeout = ~~~0 then .pending else .wait)
  | .pending, .readPending => some (s.goto w (if s.events.m_pendingEventCount = 0 then .stopping else .wait))
  | .stopping, .stopping => some (s.goto w (if s.base.stopping then .exit else .wait))
  | .exit, .getNextTimer now_ms => (s.timer (.getNextTimer now_ms)).map fun (_, s) => s.goto w .broken
  | .broken, .finish => (s.call w (.act .finish)).map fun s => s.goto w .done
  | .wait, .epoll_wait => some (s.goto w .expire)
  | .expire, .listExpiredCb now_ms now_timer =>
    (s.timer (.listExpiredCb now_ms now_timer)).map fun (out, s) =>
      s.goto w (if out.cbs.isEmpty then .dispatch else .cbs out.cbs)
  | .cbs cbs, .schedule => (s.call w (.scheduleRange (.cbs cbs))).map fun s => s.goto w .dispatch
  | .dispatch, .report fd events => s.event ep self (.report fd events)
  | .dispatch, .swapOut => (s.call w (.act .swapOut)).map fun s => s.goto w .head
  | _, _ => none

/-- `Scheduler::GetThis()` and `Fiber::GetThis()` for the task that a worker runs. -/
def caller (s : Reactor K κ ω) (f : FiberId) : Caller := ⟨some self, f, s.scheduler.m_state f⟩

def act (s : Reactor K κ ω) : Act κ ω → Option (Reactor K κ ω)
  | .run w => s.call w (.act .run)
  | .switch w => s.call w (.act .switch)
  | .idle w a => if (s.worker w).pc = .running .idle then s.idleAct ep self w a else none
  | .leave w a => s.call w (.act a)
  | .submit w x =>
    match (s.worker w).pc with
    | .running job => ((s.worker w).jobFiber job).bind fun f => s.submit ep self w (s.caller self f) x
    | _ => none
  | .outside caller x => s.submit ep self 0 caller x
  | .autoStop => some { s with base := { s.base with m_autoStop := true } }

end

def Named (s : Reactor K κ ω) (f : FiberId) : Prop := s.base.workers.Named f

/-- What callers guarantee: the timer exists, and a fiber is not the idle fiber of a worker. -/
def Submit.Allowed (s : Reactor K κ ω) (caller : Caller) : Submit κ ω → Prop
  | .timer op => s.timers.Enabled op
  | .addEvent _ _ _ => s.Named caller.fiber
  | .schedule fc thread => ∀ f, (fc.entry thread).1.fiber = some f → s.Named f
  | .scheduleRange range => ∀ ft ∈ range.entries, ∀ f, ft.fiber = some f → s.Named f
  | _ => True

/-- Among the `n` workers only a task yields, finishes, throws or submits; an idle fiber does what
`IOManager::idle` does. -/
def Allowed (n : Nat) (self : SchedId) (s : Reactor K κ ω) : Act κ ω → Prop
  | .run w | .switch w => w < n
  | .idle w (.listExpiredCb now_ms now_timer) => w < n ∧ s.timers.Enabled (.listExpiredCb now_ms now_timer)
  | .idle w _ => w < n
  | .leave w a => w < n ∧ a.writes.isSome ∧ (s.worker w).pc ≠ .running .idle
  | .submit w x => w < n ∧ ∃ job f, (s.worker w).pc = .running job ∧ job ≠ .idle ∧
      (s.worker w).jobFiber job = some f ∧ Submit.Allowed s (s.caller self f) x
  | .outside caller x => Submit.Allowed s caller x
  | .autoStop => True

def Step (ep : Epoll K) (self : SchedId) (n : Nat) (s : Reactor K κ ω) (a : Act κ ω) (t : Reactor K κ ω) : Prop :=
  s.Allowed n self a ∧ s.act ep self a = some t

/-- The steps of the workers and of the tasks that they run. -/
def WorkerStep (ep : Epoll K) (self : SchedId) (n : Nat) (s : Reactor K κ ω) (a : Act κ ω) (t : Reactor K κ ω) : Prop :=
  s.Step ep self n a t ∧ a ≠ .autoStop ∧ ∀ caller x, a ≠ .outside caller x

/-- After the constructor and `start()`. -/
structure Init (s : Reactor K κ ω) : Prop where
  base : s.base = { m_stopping := false }
  timers : s.timers.Init
  events : s.events.Init
  queues : s.events.queues = fun _ => []
  idle : s.idle = fun _ => .head

/-- What `stop()` has written before it waits for the workers. -/
def stop (s : Reactor K κ ω) : Reactor K κ ω :=
  { s with base := { s.base with m_autoStop := true, m_stopping := true } }

end Reactor
end Sylar
