import Mathlib.Logic.Function.Basic
import Sylar.Lib.Machine

/-! The task queue of `Scheduler`: its entries, and the overloads of `schedule` that swap the
task out of the caller's variable. -/

namespace Sylar

/-- `Fiber::State`. -/
inductive FiberState
  | INIT
  | HOLD
  | EXEC
  | TERM
  | READY
  | EXCEPT
  deriving DecidableEq, Repr

/-- A fiber, as the object behind its `Fiber::ptr`. -/
abbrev FiberId := Nat

/-- `Scheduler::FiberAndThread`. A null `fiber` and an empty `cb` are `none`. -/
structure FiberAndThread (κ : Type) where
  fiber : Option FiberId := none
  cb : Option κ := none
  thread : Int := -1
  deriving DecidableEq, Repr

namespace FiberAndThread

variable {κ : Type}

/-- The constructor from `Fiber::ptr*` swaps: it returns the entry and what is left behind. -/
def swapFiber (f : Option FiberId) (thr : Int) : FiberAndThread κ × Option FiberId :=
  ({ fiber := f, thread := thr }, none)

/-- The constructor from `std::function<void()>*` swaps as well. -/
def swapCb (f : Option κ) (thr : Int) : FiberAndThread κ × Option κ :=
  ({ cb := f, thread := thr }, none)

end FiberAndThread

/-- `Scheduler::scheduleNoLock`, with the answer whether the queue was empty before. -/
def scheduleNoLock {κ : Type} (m_fibers : List (FiberAndThread κ)) (ft : FiberAndThread κ) :
    Bool × List (FiberAndThread κ) :=
  (m_fibers.isEmpty, if ft.fiber.isSome || ft.cb.isSome then m_fibers ++ [ft] else m_fibers)

end Sylar
