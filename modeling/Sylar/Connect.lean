import Sylar.DoIoCalls
import Sylar.FdManager

/-! `connect_with_timeout`. From the timer to the test of `cancelled` it waits as `do_io` does for `WRITE`,
with the same lambda, but after a failed `addEvent` it goes on to read `SO_ERROR`. -/

namespace Sylar

def EINPROGRESS : Int := 115

/-- What `connect_with_timeout` returns at once if `connect_f` returns `n` with `errno`, and nothing where it
goes on to wait. -/
def connect_with_timeout (t_hook_enable : Bool) (ctx : Option FdCtx) (n errno : Int) : Option Int :=
  if t_hook_enable then
    match ctx with
    | none => some n
    | some ctx =>
      if ctx.m_isClosed ∨ ¬ ctx.m_isSocket then some n
      else if ctx.m_userNonblock then some n
      else if n = 0 then some 0
      else if n ≠ -1 ∨ errno ≠ EINPROGRESS then some n
      else none
  else some n

/-- Where a call is in `connect_with_timeout` once `connect_f` has returned. -/
inductive ConnectPc
  | waiting
  | getsockopt
  | returned (n : Int) (errno : Option Int)
  deriving DecidableEq, Repr

/-- Who has ended a wait: the report of its event, its own timeout callback, or somebody else. -/
inductive Waker
  | event
  | timeout
  | other
  deriving DecidableEq, Repr

/-- The position of a call, and for the record what `connect_f` has returned with `errno`, whether `addEvent`
has succeeded, who has ended the wait, and what `SO_ERROR` has read. -/
structure Connect where
  connected : Int × Int
  pc : ConnectPc := .waiting
  added : Option Bool := none
  waker : Option Waker := none
  error : Option Int := none
  deriving DecidableEq, Repr

namespace Connect

/-- The first to end a wait ends it. -/
def woken (c : Connect) (waker : Waker) : Connect := { c with waker := c.waker.or (some waker) }

/-- A fiber that is resumed while its event is still registered has been scheduled by somebody else. -/
def record (c : Connect) : IoWorkers.CallAct → Connect
  | .addEvent _ out => { c with added := some out.success }
  | .resume _ _ => c.woken .other
  | _ => c

/-- The connection is there, by `connect_f` or by what the wait for `WRITE` has led to. -/
def Genuine (c : Connect) : Prop :=
  c.connected.1 = 0 ∨
    c.connected = (-1, EINPROGRESS) ∧ c.added = some true ∧ c.waker = some .event ∧ c.error = some 0

end Connect

variable {K κ : Type}

namespace IoWorkers

/-- The event of the call is set in the context of its descriptor, for the fiber of the call. -/
def registered (s : IoWorkers K κ) (w : IoCall) : Bool :=
  match (s.iom.regs w.fd).get w.event with
  | some ⟨_, .fiber f⟩ => f = w.fiber
  | _ => false

/-- Who takes the event of the call away in this step, if the step does. -/
def taker (s : IoWorkers K κ) (call : CallId) : Act K κ → Waker
  | .event (.report _ _) _ => .event
  | .cancelEvent j _ => if s.running[j]? = some (call, .set) then .timeout else .other
  | _ => .other

/-- The call of `do_io` that makes the step. -/
def Act.caller : Act K κ → Option CallId
  | .enter call _ _ _ _ | .io call _ => some call
  | _ => none

end IoWorkers

/-- The calls of `connect_with_timeout` beside those of `do_io`. The wait of a call and its `tinfo` are among
the calls of the workers, for as long as the call has not returned. -/
structure Connects (K κ : Type) where
  workers : IoWorkers K κ
  connects : CallId → Option Connect

namespace Connects
open IoWorkers (Act CallAct)

/-- The steps of the calls, with what `connect_f` and `getsockopt` return, and those of all others. -/
inductive ConnectAct (K κ : Type)
  | connect (call : CallId) (fd : Nat) (timeout_ms : UInt64) (fiber : FiberId) (t_hook_enable : Bool)
      (ctx : Option FdCtx) (n errno : Int)
  | wait (call : CallId) (a : CallAct)
  | getsockopt (call : CallId) (n error : Int)
  | other (l : Act K κ)

def setConnect (s : Connects K κ) (call : CallId) (c : Connect) : Connects K κ :=
  { s with connects := Function.update s.connects call (some c) }

/-- The function returns, and `tinfo` goes out of scope. -/
def finish (s : Connects K κ) (call : CallId) (c : Connect) (w : IoCall) (n : Int) (errno : Option Int) :
    Connects K κ :=
  { s.setConnect call { c with pc := .returned n errno } with
    workers := s.workers.goto call w (.returned n errno) }

/-- What is recorded of the calls in a step of the others. -/
def watch (s : Connects K κ) (l : Act K κ) (workers : IoWorkers K κ) (call : CallId) : Option Connect :=
  match s.connects call, s.workers.calls call with
  | some c, some w =>
    if w.pc.waits ∧ s.workers.registered w ∧ ¬ workers.registered w then some (c.woken (s.workers.taker call l))
    else some c
  | c, _ => c

variable (ep : Epoll K)

/-- The steps of a call from the timer to the test of `cancelled`. -/
def waitAct (s : Connects K κ) (call : CallId) (c : Connect) (w : IoCall) (a : CallAct) : Option (Connects K κ) :=
  match w.pc, a with
  | .failed timer, .cancelTimer => (s.workers.cancelTimer timer).map fun workers =>
      { s.setConnect call { c with pc := .getsockopt } with workers := workers.goto call w .check }
  | .check, .check =>
    if w.cancelled ≠ 0 then some (s.finish call c w (-1) (some w.cancelled))
    else some (s.setConnect call { c with pc := .getsockopt })
  | _, a => (s.workers.ioAct ep call w a).map fun workers =>
      { s.setConnect call (c.record a) with workers := workers }

def act (s : Connects K κ) : ConnectAct K κ → Option (Connects K κ)
  | .connect call fd timeout_ms fiber t_hook_enable ctx n errno =>
    let c : Connect := { connected := (n, errno) }
    match connect_with_timeout t_hook_enable ctx n errno with
    | some n => some (s.setConnect call { c with pc := .returned n none })
    | none =>
      let w : IoCall := { fd := fd, event := .WRITE, to_ := timeout_ms, fiber := fiber, pc := .arm }
      some { s.setConnect call c with workers := s.workers.setCall call w }
  | .wait call a =>
    match s.connects call, s.workers.calls call with
    | some c, some w => if c.pc = .waiting then s.waitAct ep call c w a else none
    | _, _ => none
  | .getsockopt call n error =>
    match s.connects call, s.workers.calls call with
    | some c, some w =>
      if c.pc = .getsockopt then
        if n = -1 then some (s.finish call c w (-1) none)
        else if error = 0 then some (s.finish call { c with error := some error } w 0 none)
        else some (s.finish call { c with error := some error } w (-1) (some error))
      else none
    | _, _ => none
  | .other l => (s.workers.act ep l).map fun workers => { workers := workers, connects := s.watch l workers }

/-- The identity of a call is new, and a fiber does nothing else while it is in a call. -/
def Enabled (s : Connects K κ) : ConnectAct K κ → Prop
  | .connect call _ _ fiber _ _ _ _ =>
    s.connects call = none ∧ s.workers.calls call = none ∧ ¬ s.workers.InDoIo fiber
  | .wait call a => s.workers.Enabled (.io call a)
  | .getsockopt _ _ _ => True
  | .other l => s.workers.Enabled l ∧ ∀ call, l.caller = some call → s.connects call = none

def Step (ep : Epoll K) (s : Connects K κ) (l : ConnectAct K κ) (t : Connects K κ) : Prop :=
  s.Enabled l ∧ s.act ep l = some t

end Connects
end Sylar
