import Sylar.IOManagerStep
import Sylar.TimerStep

/-! The loop of `do_io` that waits in the fiber, step by step, and the timeout callback that it arms,
which another worker runs. A call enters where `do_io` has decided to wait. -/

namespace Sylar

/-- A call of `do_io`, and the `timer_info` that it makes. -/
abbrev CallId := Nat

/-- The lambda that a call of `do_io` arms, or a function of another. The lambda captures `winfo`, and
`fd`, `iom` and `event`, which `do_io` never assigns and which the call therefore determines. -/
inductive IoTask (κ : Type)
  | timeout (winfo : CallId)
  | other (f : κ)
  deriving DecidableEq, Repr

/-- Where a call is in `do_io`, with `timer` from where it has been set. -/
inductive IoPc
  | retry
  | arm
  | addEvent (timer : Option Ptr)
  | failed (timer : Option Ptr)
  | yield (timer : Option Ptr)
  | suspended (timer : Option Ptr)
  | resumed (timer : Option Ptr)
  | check
  | returned (n : Int) (errno : Option Int)
  deriving DecidableEq, Repr

namespace IoPc

def active : IoPc → Bool
  | .returned _ _ => false
  | _ => true

/-- From the `addEvent` that has succeeded until the fiber is swapped in again. -/
def waits : IoPc → Bool
  | .yield _ | .suspended _ => true
  | _ => false

def timer : IoPc → Option Ptr
  | .addEvent timer | .failed timer | .yield timer | .suspended timer | .resumed timer => timer
  | _ => none

theorem active_of_waits {pc : IoPc} (waits : pc.waits) : pc.active := by
  cases pc <;> first | rfl | cases waits

theorem timer_of_done {pc : IoPc} (done : pc.active = false) : pc.timer = none := by
  cases pc <;> first | rfl | cases done

end IoPc

/-- The parameters of a call, its position, and `tinfo->cancelled`. `fired` records that a timeout
callback of the call has set `cancelled` and has returned from its `cancelEvent`. -/
structure IoCall where
  fd : Nat
  event : Event
  to_ : UInt64
  fiber : FiberId
  pc : IoPc := .retry
  cancelled : Int := 0
  fired : Bool := false
  deriving DecidableEq, Repr

/-- Where a timeout callback is that has found `cancelled` to be 0. -/
inductive TimeoutPc
  | tested
  | set
  deriving DecidableEq, Repr

/-- The `IOManager` with its queues and timers, the calls of `do_io`, and the timeout callbacks that
workers are running. -/
structure IoWorkers (K κ : Type) where
  self : SchedId
  iom : IOManager K (Callback (IoTask κ) CallId)
  timers : TimerManager (IoTask κ) CallId
  calls : CallId → Option IoCall
  running : List (CallId × TimeoutPc)

variable {K κ : Type}

/-- A worker takes an entry off a queue. -/
def unqueue (queues : Queues κ) (scheduler : SchedId) (i : Nat) : Queues κ :=
  Function.update queues scheduler ((queues scheduler).eraseIdx i)

/-- `schedule(cbs.begin(), cbs.end())`. -/
def scheduleCbs (queues : Queues κ) (scheduler : SchedId) (cbs : List (Option κ)) : Queues κ :=
  cbs.foldl (fun queues cb => schedule queues scheduler (FiberAndThread.swapCb cb (-1)).1) queues

/-- It is not a lambda of `do_io`. -/
def Callback.foreign : Callback (IoTask κ) CallId → Bool
  | .plain (.timeout _) | .onTimer _ (some (.timeout _)) => false
  | _ => true

namespace IoWorkers

def EINTR : Int := 4
def EAGAIN : Int := 11
def ETIMEDOUT : Int := 110

/-- The steps of a call. `call` is `fun(fd, args...)` with what it returned and left in `errno`. -/
inductive CallAct
  | call (n errno : Int)
  | addConditionTimer (timer : Ptr) (now : UInt64)
  | addEvent (scheduler : Option SchedId) (out : EventOut)
  | YieldToHold
  | resume (scheduler : SchedId) (i : Nat)
  | cancelTimer
  | check
  deriving DecidableEq, Repr

/-- The steps of the calls and of their timeout callbacks, and what the other threads do. The part of
`listExpiredCb` under the write lock is one step with the `schedule` of what it has collected. -/
inductive Act (K κ : Type)
  | enter (call : CallId) (fd : Nat) (event : Event) (to_ : UInt64) (fiber : FiberId)
  | io (call : CallId) (a : CallAct)
  | listExpiredCb (now_ms : UInt64) (now_timer : Ptr)
  | timeout (scheduler : SchedId) (i : Nat)
  | setCancelled (j : Nat)
  | cancelEvent (j : Nat) (out : EventOut)
  | event (op : EventOp (Callback (IoTask κ) CallId)) (out : EventOut)
  | timer (op : TimerOp (IoTask κ) CallId)
  | schedule (scheduler : SchedId) (ft : FiberAndThread (Callback (IoTask κ) CallId))
  | run (scheduler : SchedId) (i : Nat)
  | kernel (kernel : K)

def setCall (s : IoWorkers K κ) (call : CallId) (c : IoCall) : IoWorkers K κ :=
  { s with calls := Function.update s.calls call (some c) }

def goto (s : IoWorkers K κ) (call : CallId) (c : IoCall) (pc : IoPc) : IoWorkers K κ :=
  s.setCall call { c with pc := pc }

/-- The queues after a worker has taken the entry. -/
def take (s : IoWorkers K κ) (scheduler : SchedId) (i : Nat) : IoWorkers K κ :=
  { s with iom := { s.iom with queues := unqueue s.iom.queues scheduler i } }

/-- `if(timer) timer->cancel()`. -/
def cancelTimer (s : IoWorkers K κ) : Option Ptr → Option (IoWorkers K κ)
  | none => some s
  | some timer =>
    match Timer.cancel s.timers timer with
    | .ok (_, timers) => some { s with timers := timers }
    | .error _ => none

/-- `winfo.lock()`: the `timer_info` lives as long as the call, or a callback that has locked it. -/
def lock (s : IoWorkers K κ) (winfo : CallId) : Option IoCall :=
  (s.calls winfo).filter fun c => c.pc.active || s.running.any fun r => r.1 == winfo

section
variable (ep : Epoll K)

/-- The steps of a call. Where `to_` is -1 there is no timer to make. -/
def ioAct (s : IoWorkers K κ) (call : CallId) (c : IoCall) (a : CallAct) : Option (IoWorkers K κ) :=
  match c.pc, a with
  | .retry, .call n errno =>
    if n = -1 ∧ errno = EINTR then some s
    else if n = -1 ∧ errno = EAGAIN then some (s.goto call c .arm)
    else some (s.goto call c (.returned n none))
  | .arm, .addConditionTimer timer now =>
    if c.to_ ≠ -1 then
      some { s.goto call c (.addEvent (some timer)) with
        timers := (s.timers.addConditionTimer timer c.to_ (some (.timeout call)) call false now).2 }
    else some (s.goto call c (.addEvent none))
  | .addEvent timer, .addEvent scheduler out =>
    match s.iom.exec ep (.addEvent c.fd c.event none ⟨scheduler, c.fiber, .EXEC⟩) with
    | .ok (rt, iom) =>
      if rt = out then some { s.goto call c (if out.success then .yield timer else .failed timer) with iom := iom }
      else none
    | .error _ => none
  | .failed timer, .cancelTimer => (s.cancelTimer timer).map fun s => s.goto call c (.returned (-1) none)
  | .yield timer, .YieldToHold => some (s.goto call c (.suspended timer))
  | .suspended timer, .resume scheduler i =>
    match (s.iom.queues scheduler)[i]? with
    | some ft =>
      if ft.fiber = some c.fiber then some ((s.take scheduler i).goto call c (.resumed timer)) else none
    | none => none
  | .resumed timer, .cancelTimer => (s.cancelTimer timer).map fun s => s.goto call c .check
  | .check, .check =>
    if c.cancelled ≠ 0 then some (s.goto call c (.returned (-1) (some c.cancelled)))
    else some (s.goto call c .retry)
  | _, _ => none

/-- A worker runs what `addConditionTimer` has bound, as far as the test of `cancelled`. -/
def timeout (s : IoWorkers K κ) (weak_cond winfo : CallId) : IoWorkers K κ :=
  if (s.lock weak_cond).isNone then s
  else
    match s.lock winfo with
    | none => s
    | some c => if c.cancelled ≠ 0 then s else { s with running := s.running ++ [(winfo, .tested)] }

/-- An operation on the events that does not abort, with its results. -/
def event (s : IoWorkers K κ) (op : EventOp (Callback (IoTask κ) CallId)) (out : EventOut) :
    Option (IoWorkers K κ) :=
  match s.iom.exec ep op with
  | .ok (rt, iom) => if rt = out then some { s with iom := iom } else none
  | .error _ => none

def act (s : IoWorkers K κ) : Act K κ → Option (IoWorkers K κ)
  | .enter call fd event to_ fiber => some (s.setCall call { fd := fd, event := event, to_ := to_, fiber := fiber })
  | .io call a => (s.calls call).bind fun c => s.ioAct ep call c a
  | .listExpiredCb now_ms now_timer =>
    match s.timers.listExpiredCbLocked now_ms now_timer [] with
    | .ok (cbs, _, timers) => some { s with
        timers := timers
        iom := { s.iom with queues := scheduleCbs s.iom.queues s.self cbs } }
    | .error _ => none
  | .timeout scheduler i =>
    match (s.iom.queues scheduler)[i]? with
    | some ⟨_, some (.onTimer weak_cond (some (.timeout winfo))), _⟩ =>
      some ((s.take scheduler i).timeout weak_cond winfo)
    | _ => none
  | .setCancelled j =>
    match s.running[j]? with
    | some (winfo, .tested) => (s.calls winfo).map fun c =>
        { s.setCall winfo { c with cancelled := ETIMEDOUT } with running := s.running.set j (winfo, .set) }
    | _ => none
  | .cancelEvent j out =>
    match s.running[j]? with
    | some (winfo, .set) => do
      let c ← s.calls winfo
      let s ← s.event ep (.cancelEvent c.fd c.event) out
      return { s.setCall winfo { c with fired := true } with running := s.running.eraseIdx j }
    | _ => none
  | .event op out => s.event ep op out
  | .timer op =>
    match s.timers.exec op with
    | .ok (_, timers) => some { s with timers := timers }
    | .error _ => none
  | .schedule scheduler ft => some { s with iom := { s.iom with queues := Sylar.schedule s.iom.queues scheduler ft } }
  | .run scheduler i => some (s.take scheduler i)
  | .kernel kernel => some { s with iom := { s.iom with kernel := kernel } }

end

/-- The fiber is in a call of `do_io` that has not returned. -/
def InDoIo (s : IoWorkers K κ) (f : FiberId) : Prop := ∃ call c, s.calls call = some c ∧ c.pc.active ∧ c.fiber = f

/-- The timer is in the variable `timer` of a call. -/
def Held (s : IoWorkers K κ) (p : Ptr) : Prop := ∃ call c, s.calls call = some c ∧ c.pc.timer = some p

/-- The others have neither the lambdas nor the timers of the calls. -/
def Others (s : IoWorkers K κ) : TimerOp (IoTask κ) CallId → Prop
  | .addTimer _ _ cb _ _ => ∀ f, cb = some f → f.foreign
  | .addConditionTimer _ _ cb weak_cond _ _ => (Callback.onTimer weak_cond cb).foreign
  | .cancel p | .refresh p _ | .reset p _ _ _ | .destroy p => ¬ s.Held p
  | .getNextTimer _ => True
  | .listExpiredCb _ _ => False

/-- `new` returns an address that is not in use, and a fiber does nothing else while it is in `do_io`. -/
def Enabled (s : IoWorkers K κ) : Act K κ → Prop
  | .enter call _ _ _ fiber => s.calls call = none ∧ ¬ s.InDoIo fiber
  | .io _ (.addConditionTimer timer _) => timer ≠ 0 ∧ (s.timers.heap timer).isNone
  | .listExpiredCb _ now_timer => now_timer ≠ 0 ∧ (s.timers.heap now_timer).isNone
  | .event (.addEvent _ _ cb caller) _ => ¬ s.InDoIo caller.fiber ∧ ∀ f, cb = some f → f.foreign
  | .timer op => s.timers.Enabled op ∧ s.Others op
  | .schedule _ ft => ∀ f, ft.cb = some f → f.foreign
  | .run scheduler i => ∃ ft, (s.iom.queues scheduler)[i]? = some ft ∧ (∀ f, ft.cb = some f → f.foreign) ∧
      ∀ f, ft.fiber = some f → ¬ s.InDoIo f
  | _ => True

def Step (ep : Epoll K) (s : IoWorkers K κ) (l : Act K κ) (t : IoWorkers K κ) : Prop :=
  s.Enabled l ∧ s.act ep l = some t

end IoWorkers
end Sylar
