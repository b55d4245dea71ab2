import Sylar.SchedulerPrivate

/-! A scheduler with one worker thread, together with the function in every fiber and the event
registrations of `IOManager` that name a fiber. -/

namespace Sylar
open Machine

variable {κ : Type}

/-- The job that a worker is at, from the branch of `Scheduler::run` that takes it up to the end of
that branch. -/
def RunPc.job : RunPc → Option Job
  | .swapIn job | .running job | .leaving job | .returned job | .settle job | .reschedule job | .hold job => some job
  | .recycle => some .callback
  | _ => none

/-- The fiber is on its stack, or `run` has not looked at its state yet. -/
def RunPc.onStack : RunPc → Option Job
  | .running job | .leaving job | .returned job | .settle job | .hold job => some job
  | _ => none

/-- The fiber of the job may have ended. -/
def RunPc.ending : RunPc → Bool
  | .leaving _ | .returned _ | .settle _ | .recycle => true
  | _ => false

/-- The function of the fiber has returned or thrown. -/
def FiberState.Ended (state : FiberState) : Prop := state = .TERM ∨ state = .EXCEPT

instance (state : FiberState) : Decidable state.Ended := inferInstanceAs (Decidable (_ ∨ _))

instance (m_state : FiberId → FiberState) (thread : Int) (ft : FiberAndThread κ) :
    Decidable (ft.Eligible m_state thread) :=
  decidable_of_iff ((ft.thread = -1 ∨ ft.thread = thread) ∧ ft.fiber.all fun f => m_state f ≠ .EXEC)
    (and_congr_right fun _ => by cases fiber : ft.fiber <;> simp)

/-- The only worker is worker 0. A task is known by its number: `m_cb` is the task in each fiber,
`none` when the function is empty. Every queue entry has a note of the task that was in its fiber
when somebody asked for the entry, and so has every registration; `woken` is the note of `ft`. -/
structure Solo (κ : Type) where
  workers : Workers κ := {}
  m_cb : FiberId → Option Nat := fun _ => none
  tasks : Nat := 0
  notes : List (FiberAndThread κ × Option Nat) := []
  woken : Option Nat := none
  registered : List (FiberId × Option Nat) := []

namespace Solo

abbrev scheduler (s : Solo κ) : Scheduler κ := s.workers.scheduler

abbrev me (s : Solo κ) : Worker κ := s.workers.worker 0

/-- The `m_cb` that a step writes. `new Fiber(cb)` and `reset(cb)` put a task into the fiber,
`reset(nullptr)` and the end of `Fiber::MainFunc` take it out; a task that throws stays in. -/
def writesCb (s : Solo κ) (a : Scheduler.Act κ) : Option (FiberId × Option Nat) :=
  match a, s.me.pc with
  | .run, .start => some (s.scheduler.fibers, some s.tasks)
  | .run, .selected _ =>
    if s.me.ft.fiber.any fun f => s.scheduler.m_state f ≠ .TERM ∧ s.scheduler.m_state f ≠ .EXCEPT then none
    else if s.me.ft.cb.isSome then some (s.me.cb_fiber.getD s.scheduler.fibers, some s.tasks)
    else none
  | .run, .recycle => s.me.cb_fiber.map fun f => (f, none)
  | .finish, .running job => (s.me.jobFiber job).map fun f => (f, none)
  | .newFiber, _ => some (s.scheduler.fibers, some s.tasks)
  | _, _ => none

def cbAfter (s : Solo κ) (a : Scheduler.Act κ) : FiberId → Option Nat :=
  match s.writesCb a with
  | some (f, task) => Function.update s.m_cb f task
  | none => s.m_cb

/-- The step is the selection of `Scheduler::run`. -/
def selects (s : Solo κ) (a : Scheduler.Act κ) : Bool :=
  match a, s.me.pc with
  | .run, .select => true
  | _, _ => false

def eligible (s : Solo κ) (note : FiberAndThread κ × Option Nat) : Bool :=
  decide (note.1.Eligible s.scheduler.m_state (0 : Nat))

/-- The entries that a step adds to the queue, with the tasks that are in their fibers. -/
def noted (s : Solo κ) (a : Scheduler.Act κ) : List (FiberAndThread κ × Option Nat) :=
  ((Scheduler.offered s.me (.act a)).filter (·.accepted)).map fun ft => (ft, ft.fiber.bind s.m_cb)

/-- The worker, or whoever calls `schedule`, makes a step. -/
def perform (s : Solo κ) (a : Scheduler.Act κ) : Option (Solo κ) :=
  (s.workers.act 0 a).map fun workers =>
    { s with
      workers := workers
      m_cb := s.cbAfter a
      tasks := s.tasks + 1
      notes := if s.selects a then s.notes.eraseP s.eligible else s.notes ++ s.noted a
      woken := if s.selects a then (s.notes.find? s.eligible).bind (·.2) else s.woken }

/-- A step of the scheduler; `addEvent` without a callback, which keeps the fiber; `triggerEvent` on
such a registration, which hands the fiber to `schedule`; and `delEvent`, which drops it. -/
inductive Op (κ : Type)
  | act (a : Scheduler.Act κ)
  | addEvent (f : FiberId)
  | triggerEvent (i : Nat)
  | delEvent (i : Nat)

def op (s : Solo κ) : Op κ → Option (Solo κ)
  | .act a => s.perform a
  | .addEvent f =>
    if f < s.scheduler.fibers then some { s with registered := s.registered ++ [(f, s.m_cb f)] } else none
  | .triggerEvent i => do
    let (f, task) ← s.registered[i]?
    let workers ← s.workers.act 0 (.schedule { fiber := some f })
    return { s with
      workers := workers
      notes := s.notes ++ [({ fiber := some f }, task)]
      registered := s.registered.eraseIdx i }
  | .delEvent i =>
    if i < s.registered.length then some { s with registered := s.registered.eraseIdx i } else none

def Step (s : Solo κ) (l : Op κ) (t : Solo κ) : Prop := s.op l = some t

def Ended (s : Solo κ) (f : FiberId) : Prop := (s.scheduler.m_state f).Ended

/-- A task is in the fiber and has not ended. -/
def Busy (s : Solo κ) (f : FiberId) : Prop := s.m_cb f ≠ none ∧ ¬ s.Ended f

instance (s : Solo κ) (f : FiberId) : Decidable (s.Busy f) :=
  inferInstanceAs (Decidable (_ ∧ ¬ (s.scheduler.m_state f).Ended))

/-- A queue entry or a registration refers to the fiber. -/
def Refers (s : Solo κ) (f : FiberId) : Prop :=
  (∃ ft ∈ s.scheduler.m_fibers, ft.fiber = some f) ∨ ∃ r ∈ s.registered, r.1 = f

instance (s : Solo κ) (f : FiberId) : Decidable (s.Refers f) := inferInstanceAs (Decidable (_ ∨ _))

/-- Somebody asks for a wake-up of the fiber. -/
def Op.asks : Op κ → Option FiberId
  | .act a => a.woken
  | .addEvent f => some f
  | _ => none

/-- The task that runs ends with this step. -/
def Op.ends : Op κ → Bool
  | .act .finish | .act .throw => true
  | _ => false

end Solo
end Sylar
