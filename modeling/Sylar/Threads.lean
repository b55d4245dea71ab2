import Mathlib.Data.List.ReduceOption
import Mathlib.Logic.Function.Basic
import Sylar.Lib.Machine

/-! The threads that `Scheduler::start` makes, and that `Scheduler::stop` joins and destroys. -/

namespace Sylar
open Machine

/-- What `Thread` keeps. Of the callback it matters only whether it is still there. -/
structure Thread where
  m_id : Int := -1
  m_thread : Nat := 0
  m_cb : Bool := true
  m_name : String := ""

/-- What is next in `Thread::run`. -/
inductive ThreadPc
  | start
  | setId
  | setName
  | swap
  | call (cb : Bool)
  | inside
  | done
deriving DecidableEq

/-- What belongs to the thread itself, which goes on when its `Thread` is destroyed. -/
structure Started where
  pc : ThreadPc := .start
  self : Nat := 0
  t_thread_name : String := "UNKNOW"
  calls : Nat := 0

/-- What the thread library has for a handle that has not been released. -/
structure Pthread where
  thread : Nat
  detached : Bool := false
deriving DecidableEq

/-- Where a caller is in `Scheduler::start` or `Scheduler::stop`, with the pointers of `thrs` that it has joined
and those that are left. -/
inductive PoolPc
  | idle
  | locked
  | tested
  | creating (i : Nat)
  | made (i t : Nat)
  | stopping
  | joining (joined left : List (Option Nat))
  | destroying (thrs : List (Option Nat))

namespace PoolPc

/-- The caller has the lock of `start`. -/
def Starts : PoolPc → Prop
  | .locked | .tested | .creating _ | .made .. => True
  | _ => False

/-- The caller of `start` has found the scheduler stopped. -/
def Creates : PoolPc → Prop
  | .tested | .creating _ | .made .. => True
  | _ => False

/-- The caller of `start` has set `m_stopping`. -/
def Fills : PoolPc → Prop
  | .creating _ | .made .. => True
  | _ => False

/-- The caller of `stop` has taken the threads. -/
def Joins : PoolPc → Prop
  | .joining .. | .destroying _ => True
  | _ => False

/-- The caller is in `stop`. -/
def Stops : PoolPc → Prop
  | .stopping | .joining .. | .destroying _ => True
  | _ => False

theorem Fills.creates {pc : PoolPc} (fills : pc.Fills) : pc.Creates := by
  cases pc with
  | creating | made => trivial
  | _ => exact fills.elim

theorem Creates.starts {pc : PoolPc} (creates : pc.Creates) : pc.Starts := by
  cases pc with
  | tested | creating | made => trivial
  | _ => exact creates.elim

theorem Joins.stops {pc : PoolPc} (joins : pc.Joins) : pc.Stops := by
  cases pc with
  | joining | destroying => trivial
  | _ => exact joins.elim

def joined : PoolPc → List (Option Nat)
  | .joining joined _ | .destroying joined => joined
  | _ => []

def left : PoolPc → List (Option Nat)
  | .joining _ left => left
  | _ => []

theorem Starts.left {pc : PoolPc} (starts : pc.Starts) : pc.left = [] := by
  cases pc with
  | joining => exact starts.elim
  | _ => rfl

theorem Starts.joined {pc : PoolPc} (starts : pc.Starts) : pc.joined = [] := by
  cases pc with
  | joining | destroying => exact starts.elim
  | _ => rfl

end PoolPc

/-- The scheduler as far as its threads go. -/
structure ThreadPool where
  m_name : String := ""
  m_threadCount : Nat
  m_mutex : Option Nat := none
  m_stopping : Bool := true
  m_autoStop : Bool := false
  m_threads : List (Option Nat) := []
  m_threadIds : List Int := []
  callers : Nat → PoolPc := fun _ => .idle
  threads : Nat → Thread := fun _ => {}
  alive : Nat → Bool := fun _ => false
  started : Nat → Started := fun _ => {}
  next : Nat := 0
  pthreads : Nat → Option Pthread := fun _ => none

namespace ThreadPool

variable {s t : ThreadPool}

def at_ (s : ThreadPool) (c : Nat) (pc : PoolPc) : ThreadPool := { s with callers := Function.update s.callers c pc }

theorem callers_at_self {c : Nat} {pc : PoolPc} : (s.at_ c pc).callers c = pc := Function.update_self ..

theorem callers_at_of_ne {c d : Nat} {pc : PoolPc} (other : d ≠ c) : (s.at_ c pc).callers d = s.callers d :=
  Function.update_of_ne other ..

def setThread (s : ThreadPool) (i : Nat) (thread : Thread) (me : Started) : ThreadPool :=
  { s with threads := Function.update s.threads i thread, started := Function.update s.started i me }

def setPthread (s : ThreadPool) (h : Nat) (pthread : Option Pthread) : ThreadPool :=
  { s with pthreads := Function.update s.pthreads h pthread }

/-- A name that is empty becomes `UNKNOW`. -/
def threadName (name : String) : String := if name = "" then "UNKNOW" else name

/-- `Thread::Thread` for the next pointer of `m_threads`, when `pthread_create` gives it the handle `h`. -/
def newThread (s : ThreadPool) (name : String) (h : Nat) : ThreadPool :=
  { s with
    threads := Function.update s.threads s.next { m_thread := h, m_name := threadName name }
    started := Function.update s.started s.next { self := h }
    alive := Function.update s.alive s.next true
    pthreads := Function.update s.pthreads h (some { thread := s.next })
    m_threads := s.m_threads ++ [some s.next]
    next := s.next + 1 }

/-- What `pthread_join` does: it waits, or it releases the handle, or it fails. -/
inductive Joined
  | waits
  | releases
  | fails
deriving DecidableEq

def pthread_join (s : ThreadPool) (h : Nat) : Joined :=
  match s.pthreads h with
  | none => .fails
  | some p => if p.detached then .fails else if (s.started p.thread).pc = .done then .releases else .waits

/-- `pthread_detach` of a handle that has been released is lost. -/
def pthread_detach (s : ThreadPool) (h : Nat) : ThreadPool :=
  match s.pthreads h with
  | none => s
  | some p =>
    if (s.started p.thread).pc = .done then s.setPthread h none else s.setPthread h (some { p with detached := true })

/-- `Thread::~Thread`. -/
def deleteThread (s : ThreadPool) (i : Nat) : ThreadPool :=
  let s := { s with alive := Function.update s.alive i false }
  if (s.threads i).m_thread ≠ 0 then s.pthread_detach (s.threads i).m_thread else s

/-- A step of a caller or of a thread. The handle that `pthread_create` gives, or that it fails, and the name
that the callback sets are left open. -/
inductive Op
  | start (c : Nat)
  | create (c : Nat) (handle : Option Nat)
  | stop (c : Nat)
  | stopped (c : Nat)
  | step (c : Nat)
  | run (t : Nat) (tid : Int)
  | SetName (t : Nat) (name : String)

/-- The next step of a caller. An assertion that fails and a null pointer end the process. -/
def callerStep (s : ThreadPool) (c : Nat) : Option ThreadPool :=
  match s.callers c with
  | .idle => none
  | .locked => some (if s.m_stopping then s.at_ c .tested else { s with m_mutex := none }.at_ c .idle)
  | .tested => if s.m_threads = [] then some ({ s with m_stopping := false }.at_ c (.creating 0)) else none
  | .creating i => if i = s.m_threadCount then some ({ s with m_mutex := none }.at_ c .idle) else none
  | .made i t =>
    some ({ s with m_threadIds := s.m_threadIds ++ [(s.threads t).m_id] }.at_ c (.creating (i + 1)))
  | .stopping =>
    if s.m_mutex = none then some ({ s with m_threads := [] }.at_ c (.joining [] s.m_threads)) else none
  | .joining thrs [] => some (s.at_ c (.destroying thrs))
  | .joining _ (none :: _) => none
  | .joining joined (some t :: left) =>
    if (s.threads t).m_thread = 0 then some (s.at_ c (.joining (joined ++ [some t]) left))
    else match s.pthread_join (s.threads t).m_thread with
      | .waits => none
      | .releases => some ((s.setPthread (s.threads t).m_thread none).at_ c (.joining (joined ++ [some t]) left))
      | .fails => some (s.at_ c (.destroying (joined ++ some t :: left)))
  | .destroying [] => some (s.at_ c .idle)
  | .destroying (none :: thrs) => some (s.at_ c (.destroying thrs))
  | .destroying (some t :: thrs) => some ((s.deleteThread t).at_ c (.destroying thrs))

/-- The next step of `Thread::run`. It goes on only as long as the `Thread` that it uses is there. -/
def threadStep (s : ThreadPool) (i : Nat) (tid : Int) : Option ThreadPool :=
  let thread := s.threads i
  let me := s.started i
  match me.pc with
  | .start =>
    if s.alive i then some (s.setThread i thread { me with pc := .setId, t_thread_name := thread.m_name }) else none
  | .setId =>
    if s.alive i then some (s.setThread i { thread with m_id := tid } { me with pc := .setName }) else none
  | .setName => if s.alive i then some (s.setThread i thread { me with pc := .swap }) else none
  | .swap =>
    if s.alive i then some (s.setThread i { thread with m_cb := false } { me with pc := .call thread.m_cb }) else none
  | .call cb => if cb then some (s.setThread i thread { me with pc := .inside, calls := me.calls + 1 }) else none
  | .inside =>
    let s := s.setThread i thread { me with pc := .done }
    match s.pthreads me.self with
    | some p => some (if p.detached then s.setPthread me.self none else s)
    | none => some s
  | .done => none

def op (s : ThreadPool) : Op → Option ThreadPool
  | .start c =>
    match s.callers c, s.m_mutex with
    | .idle, none => some ({ s with m_mutex := some c }.at_ c .locked)
    | _, _ => none
  | .create c handle =>
    match s.callers c with
    | .creating i =>
      if i < s.m_threadCount then
        match handle with
        | some h =>
          if h ≠ 0 ∧ s.pthreads h = none then
            some ((s.newThread (s.m_name ++ "_" ++ toString i) h).at_ c (.made i s.next))
          else none
        | none =>
          some ({ s with
            m_threads := s.m_threads ++ List.replicate (s.m_threadCount - i) none, m_mutex := none }.at_ c .idle)
      else none
    | _ => none
  | .stop c =>
    match s.callers c with
    | .idle => some ({ s with m_autoStop := true, m_stopping := true }.at_ c .stopping)
    | _ => none
  | .stopped c =>
    match s.callers c with
    | .idle => if s.m_threadCount = 0 then some { s with m_autoStop := true, m_stopping := true } else none
    | _ => none
  | .step c => s.callerStep c
  | .run t tid => if t < s.next then s.threadStep t tid else none
  | .SetName t name =>
    if t < s.next ∧ (s.started t).pc = .inside ∧ s.alive t then
      some (s.setThread t { s.threads t with m_name := name } { s.started t with t_thread_name := name })
    else none

def Step (s : ThreadPool) (o : Op) (t : ThreadPool) : Prop := s.op o = some t

/-- `start` finds the scheduler stopped only when no `stop` is under way. -/
def Settled (s : ThreadPool) (o : Op) (_ : ThreadPool) : Prop :=
  ∀ c, o = .step c → s.callers c = .locked → s.m_stopping = true → ∀ d, ¬ (s.callers d).Stops

end ThreadPool
end Sylar
