import Sylar.Task

/-! `Scheduler::run` on any number of worker threads, and the switches between a worker and the
fiber it runs. Every access to what the threads share is a step of its own. -/

namespace Sylar

variable {κ : Type}

/-- What a worker has swapped in: the fiber of a queue entry, its `cb_fiber` or its `idle_fiber`. -/
inductive Job
  | fiber
  | callback
  | idle
  deriving DecidableEq, Repr

/-- Where a worker is in `Scheduler::run`. Between `running` and `returned` it is on the stack of
the fiber: in `leaving` the fiber has written its state, and `swapOut` has yet to save its context. -/
inductive RunPc
  | start
  | select
  | selected (is_active : Bool)
  | swapIn (job : Job)
  | running (job : Job)
  | leaving (job : Job)
  | returned (job : Job)
  | settle (job : Job)
  | reschedule (job : Job)
  | hold (job : Job)
  | recycle
  | stopped
  deriving DecidableEq, Repr

/-- The local variables of `Scheduler::run`. -/
structure Worker (κ : Type) where
  pc : RunPc := .start
  ft : FiberAndThread κ := {}
  cb_fiber : Option FiberId := none
  idle_fiber : Option FiberId := none

def Worker.jobFiber (me : Worker κ) : Job → Option FiberId
  | .fiber => me.ft.fiber
  | .callback => me.cb_fiber
  | .idle => me.idle_fiber

/-- What the threads share: the members of the scheduler, the `m_state` of every fiber and the
number of fibers made so far. -/
structure Scheduler (κ : Type) where
  m_fibers : List (FiberAndThread κ) := []
  m_state : FiberId → FiberState := fun _ => .INIT
  fibers : Nat := 0
  m_activeThreadCount : Int := 0
  m_idleThreadCount : Int := 0

/-- What the loop over `m_fibers` finds. -/
inductive Selection (κ : Type)
  | nothing
  | assertion
  | entry (ft : FiberAndThread κ) (rest : List (FiberAndThread κ))

def Selection.skip (ft : FiberAndThread κ) : Selection κ → Selection κ
  | .entry found rest => .entry found (ft :: rest)
  | other => other

namespace Scheduler

/-- The selection loop, on the thread `thread`. -/
def selectFrom (m_state : FiberId → FiberState) (thread : Int) : List (FiberAndThread κ) → Selection κ
  | [] => .nothing
  | it :: rest =>
    if it.thread ≠ -1 ∧ it.thread ≠ thread then (selectFrom m_state thread rest).skip it
    else if it.fiber.isNone && it.cb.isNone then .assertion
    else if it.fiber.any fun f => m_state f = .EXEC then (selectFrom m_state thread rest).skip it
    else .entry it rest

def setState (s : Scheduler κ) (f : FiberId) (state : FiberState) : Scheduler κ :=
  { s with m_state := Function.update s.m_state f state }

def schedule (s : Scheduler κ) (ft : FiberAndThread κ) : Scheduler κ :=
  { s with m_fibers := (scheduleNoLock s.m_fibers ft).2 }

/-- `Fiber::reset`, with its assertion. -/
def resetFiber (s : Scheduler κ) (f : FiberId) : Option (Scheduler κ) :=
  if s.m_state f = .TERM ∨ s.m_state f = .INIT ∨ s.m_state f = .EXCEPT then some (s.setState f .INIT) else none

/-- `new Fiber(cb)`. -/
def newFiber (s : Scheduler κ) : FiberId × Scheduler κ :=
  (s.fibers, { s.setState s.fibers .INIT with fibers := s.fibers + 1 })

/-- `cb_fiber->reset(ft.cb)` or `cb_fiber.reset(new Fiber(ft.cb))`. -/
def prepareCallback (s : Scheduler κ) (cb_fiber : Option FiberId) : Option (FiberId × Scheduler κ) :=
  match cb_fiber with
  | some f => (s.resetFiber f).map fun s => (f, s)
  | none => some s.newFiber

/-- One step of `Scheduler::run` on the thread `thread`, outside of the fiber. A failed assertion
is `none`. -/
def runStep (s : Scheduler κ) (thread : Int) (me : Worker κ) : Option (Scheduler κ × Worker κ) :=
  match me.pc with
  | .start =>
    let (f, s) := s.newFiber
    some (s, { pc := .select, idle_fiber := some f })
  | .select =>
    match selectFrom s.m_state thread s.m_fibers with
    | .assertion => none
    | .nothing => some (s, { me with pc := .selected false })
    | .entry ft rest =>
      some ({ s with m_fibers := rest, m_activeThreadCount := s.m_activeThreadCount + 1 },
        { me with pc := .selected true, ft := ft })
  | .selected is_active =>
    if me.ft.fiber.any fun f => s.m_state f ≠ .TERM ∧ s.m_state f ≠ .EXCEPT then
      some (s, { me with pc := .swapIn .fiber })
    else if me.ft.cb.isSome then do
      let (f, s) ← s.prepareCallback me.cb_fiber
      return (s, { me with pc := .swapIn .callback, ft := {}, cb_fiber := some f })
    else if is_active then
      some ({ s with m_activeThreadCount := s.m_activeThreadCount - 1 }, { me with pc := .select, ft := {} })
    else if me.idle_fiber.any fun f => s.m_state f = .TERM then some (s, { me with pc := .stopped })
    else some ({ s with m_idleThreadCount := s.m_idleThreadCount + 1 }, { me with pc := .swapIn .idle })
  | .swapIn job => do
    let f ← me.jobFiber job
    if s.m_state f = .EXEC then none
    else return (s.setState f .EXEC, { me with pc := .running job })
  | .returned .idle =>
    some ({ s with m_idleThreadCount := s.m_idleThreadCount - 1 }, { me with pc := .settle .idle })
  | .returned job =>
    some ({ s with m_activeThreadCount := s.m_activeThreadCount - 1 }, { me with pc := .settle job })
  | .settle job => do
    let f ← me.jobFiber job
    if s.m_state f = .READY ∧ job ≠ .idle then return (s, { me with pc := .reschedule job })
    else if s.m_state f ≠ .TERM ∧ s.m_state f ≠ .EXCEPT then return (s, { me with pc := .hold job })
    else if job = .callback then return (s, { me with pc := .recycle })
    else return (s, { me with pc := .select, ft := {} })
  | .reschedule job =>
    some (s.schedule { fiber := me.jobFiber job, thread := -1 },
      { me with pc := .select, ft := {}, cb_fiber := if job = .callback then none else me.cb_fiber })
  | .hold job => do
    let f ← me.jobFiber job
    return (s.setState f .HOLD,
      { me with pc := .select, ft := {}, cb_fiber := if job = .callback then none else me.cb_fiber })
  | .recycle => do
    let f ← me.cb_fiber
    let s ← s.resetFiber f
    return (s, { me with pc := .select })
  | .running _ | .leaving _ | .stopped => none

/-- The fiber that the worker runs writes its state and calls `swapOut`. The two `Yield` functions
assert that it is `EXEC`. -/
def leave (s : Scheduler κ) (me : Worker κ) (asserts : Bool) (state : FiberState) :
    Option (Scheduler κ × Worker κ) :=
  match me.pc with
  | .running job => do
    let f ← me.jobFiber job
    if asserts ∧ s.m_state f ≠ .EXEC then none
    else return (s.setState f state, { me with pc := .leaving job })
  | _ => none

/-- What threads do: a step of `run`; a write of its state by the fiber that runs, before
`swapOut`; the switch of `swapOut`; a new fiber; and a call of `schedule` from anywhere. -/
inductive Act (κ : Type)
  | run
  | YieldToReady
  | YieldToHold
  | finish
  | throw
  | swapOut
  | switch
  | newFiber
  | schedule (ft : FiberAndThread κ)
  deriving DecidableEq, Repr

def act (s : Scheduler κ) (thread : Int) (me : Worker κ) : Act κ → Option (Scheduler κ × Worker κ)
  | .run => s.runStep thread me
  | .YieldToReady => s.leave me true .READY
  | .YieldToHold => s.leave me true .HOLD
  | .finish => s.leave me false .TERM
  | .throw => s.leave me false .EXCEPT
  | .swapOut =>
    -- `IOManager::idle` switches without a write
    match me.pc with
    | .running .idle => some (s, { me with pc := .leaving .idle })
    | _ => none
  | .switch =>
    match me.pc with
    | .leaving job => some (s, { me with pc := .returned job })
    | _ => none
  | .newFiber => some (s.newFiber.2, me)
  | .schedule ft => if ft.fiber.all fun f => f < s.fibers then some (s.schedule ft, me) else none

end Scheduler

/-- The scheduler with its workers, each under its thread id. -/
structure Workers (κ : Type) where
  scheduler : Scheduler κ := {}
  worker : Nat → Worker κ := fun _ => {}

namespace Workers

def act (s : Workers κ) (w : Nat) (a : Scheduler.Act κ) : Option (Workers κ) :=
  (s.scheduler.act w (s.worker w) a).map fun (scheduler, me) =>
    { scheduler := scheduler, worker := Function.update s.worker w me }

def Step (s : Workers κ) (l : Nat × Scheduler.Act κ) (t : Workers κ) : Prop := s.act l.1 l.2 = some t

/-- The worker is on the stack of the fiber: it has swapped the fiber in, and the context of the
fiber is not saved yet. -/
def Executing (s : Workers κ) (w : Nat) (f : FiberId) : Prop :=
  ∃ job, ((s.worker w).pc = .running job ∨ (s.worker w).pc = .leaving job) ∧ (s.worker w).jobFiber job = some f

/-- No fiber is executing on two workers at once. -/
def Exclusive (s : Workers κ) : Prop := ∀ f v w, s.Executing v f → s.Executing w f → v = w

end Workers
end Sylar
