import Mathlib.Algebra.BigOperators.Group.List.Basic
import Sylar.IOManager

namespace Sylar
open Machine

variable {K κ : Type}

/-- What a registration waits to run: the callback given to `addEvent`, or the fiber that
called it without one. -/
inductive Continuation (κ : Type)
  | callback (cb : κ)
  | fiber (f : FiberId)
  deriving DecidableEq, Repr

/-- The queue entry that `triggerEvent` makes of it. -/
def Continuation.entry : Continuation κ → FiberAndThread κ
  | .callback cb => { cb := some cb, thread := -1 }
  | .fiber f => { fiber := some f, thread := -1 }

structure Registration (κ : Type) where
  scheduler : Option SchedId
  task : Continuation κ
  deriving DecidableEq, Repr

/-- The registrations of one descriptor: the abstract content of its `FdContext`. -/
structure Regs (κ : Type) where
  read : Option (Registration κ) := none
  write : Option (Registration κ) := none

namespace Regs

def get (r : Regs κ) : Event → Option (Registration κ)
  | .READ => r.read
  | .WRITE => r.write
  | .NONE => none

def put (r : Regs κ) (event : Event) (x : Option (Registration κ)) : Regs κ :=
  match event with
  | .READ => { r with read := x }
  | .WRITE => { r with write := x }
  | .NONE => r

def mask (r : Regs κ) : Mask :=
  (if r.read.isSome then Event.READ.bits else 0) ||| (if r.write.isSome then Event.WRITE.bits else 0)

/-- The events that are registered, in the order in which `cancelAll` looks at them. -/
def events (r : Regs κ) : List Event :=
  (if r.read.isSome then [.READ] else []) ++ (if r.write.isSome then [.WRITE] else [])

def count (r : Regs κ) : Int := (if r.read.isSome then 1 else 0) + (if r.write.isSome then 1 else 0)

/-- The registrations that are left when those of the events are gone. -/
def clear (r : Regs κ) (events : List Event) : Regs κ := events.foldl (fun r event => r.put event none) r

end Regs

/-- The three fields that represent a registration, or its absence. -/
def EventContext.of : Option (Registration κ) → EventContext κ
  | none => {}
  | some ⟨scheduler, .callback cb⟩ => { scheduler := scheduler, cb := some cb }
  | some ⟨scheduler, .fiber f⟩ => { scheduler := scheduler, fiber := some f }

def EventContext.holds (ctx : EventContext κ) : Option (Registration κ) :=
  match ctx.fiber, ctx.cb with
  | none, some cb => some ⟨ctx.scheduler, .callback cb⟩
  | some f, none => some ⟨ctx.scheduler, .fiber f⟩
  | _, _ => none

/-- The `FdContext` that represents the registrations. -/
def Regs.context (r : Regs κ) (fd : Nat) : FdContext κ :=
  { fd := fd, read := .of r.read, write := .of r.write, events := r.mask }

def FdContext.regs (c : FdContext κ) : Regs κ where
  read := if c.events &&& Event.READ.bits ≠ 0 then c.read.holds else none
  write := if c.events &&& Event.WRITE.bits ≠ 0 then c.write.holds else none

/-- The number of events that are set. -/
def FdContext.bitCount (c : FdContext κ) : Int :=
  (if c.events &&& Event.READ.bits ≠ 0 then 1 else 0) + (if c.events &&& Event.WRITE.bits ≠ 0 then 1 else 0)

namespace Regs

@[simp] theorem get_empty (event : Event) : ({} : Regs κ).get event = none := by
  cases event <;> rfl

theorem ext_get {r r' : Regs κ} (same : ∀ event, r.get event = r'.get event) : r = r' := by
  have read := same .READ
  have write := same .WRITE
  rcases r with ⟨_, _⟩
  rcases r' with ⟨_, _⟩
  simp only [get] at read write
  rw [read, write]

theorem get_put_self (r : Regs κ) {event : Event} (real : event ≠ .NONE) (x : Option (Registration κ)) :
    (r.put event x).get event = x := by
  cases event with
  | NONE => exact absurd rfl real
  | READ => rfl
  | WRITE => rfl

theorem get_put_ne (r : Regs κ) {event other : Event} (different : other ≠ event) (x : Option (Registration κ)) :
    (r.put event x).get other = r.get other := by
  cases event <;> cases other <;> first | rfl | exact absurd rfl different

@[simp] theorem mask_empty : ({} : Regs κ).mask = 0 := by
  simp [mask]

theorem clear_events (r : Regs κ) : r.clear r.events = {} := by
  rcases r with ⟨_ | _, _ | _⟩ <;> rfl

theorem mask_and_bits (r : Regs κ) (event : Event) : r.mask &&& event.bits = 0 ↔ r.get event = none := by
  rcases r with ⟨_ | _, _ | _⟩ <;> cases event <;> simp [mask, get, Event.bits]

theorem mask_only (r : Regs κ) : r.mask &&& ~~~(Event.READ.bits ||| Event.WRITE.bits) = 0 := by
  rcases r with ⟨_ | _, _ | _⟩ <;> simp [mask, Event.bits]

theorem mask_ne_zero {r : Regs κ} {event : Event} {x : Registration κ} (taken : r.get event = some x) :
    r.mask ≠ 0 := by
  intro empty
  have free := (r.mask_and_bits event).mp (by simp [empty])
  simp [taken] at free

theorem mask_put_none (r : Regs κ) (event : Event) : r.mask &&& ~~~event.bits = (r.put event none).mask := by
  rcases r with ⟨_ | _, _ | _⟩ <;> cases event <;> simp [mask, put, Event.bits]

theorem mask_put_some (r : Regs κ) {event : Event} (real : event ≠ .NONE) (x : Registration κ) :
    r.mask ||| event.bits = (r.put event (some x)).mask := by
  rcases r with ⟨_ | _, _ | _⟩ <;> cases event <;> simp [mask, put, Event.bits] at real ⊢

theorem holds_of (x : Option (Registration κ)) : (EventContext.of x).holds = x := by
  rcases x with _ | ⟨scheduler, _ | _⟩ <;> rfl

@[simp] theorem regs_context (r : Regs κ) (fd : Nat) : (r.context fd).regs = r := by
  rcases r with ⟨_ | _, _ | _⟩ <;> simp [context, FdContext.regs, holds_of, mask, Event.bits]

@[simp] theorem bitCount_context (r : Regs κ) (fd : Nat) : (r.context fd).bitCount = r.count := by
  rcases r with ⟨_ | _, _ | _⟩ <;> simp [context, FdContext.bitCount, count, mask, Event.bits]

/-- A context that `contextResize` has made. -/
theorem context_empty (fd : Nat) : ({ fd := fd } : FdContext κ) = ({} : Regs κ).context fd := by
  simp [context, mask, EventContext.of]

theorem count_put_some (r : Regs κ) {event : Event} (real : event ≠ .NONE) (free : r.get event = none)
    (x : Registration κ) : (r.put event (some x)).count = r.count + 1 := by
  rcases r with ⟨_ | _, _ | _⟩ <;> cases event <;> simp [count, put, get] at real free ⊢

theorem count_put_none (r : Regs κ) {event : Event} {x : Registration κ} (taken : r.get event = some x) :
    (r.put event none).count = r.count - 1 := by
  rcases r with ⟨_ | _, _ | _⟩ <;> cases event <;> simp [count, put, get] at taken ⊢

end Regs

theorem schedule_entry (queues : Queues κ) (scheduler : SchedId) (task : Continuation κ) :
    schedule queues scheduler task.entry =
      Function.update queues scheduler (queues scheduler ++ [task.entry]) := by
  cases task <;> rfl

theorem getContext_context (r : Regs κ) (fd : Nat) (events : Mask) {event : Event} (real : event ≠ .NONE) :
    FdContext.getContext { r.context fd with events := events } event = .ok (.of (r.get event)) := by
  cases event with
  | NONE => exact absurd rfl real
  | READ => rfl
  | WRITE => rfl

theorem setContext_context (r : Regs κ) (fd : Nat) (event : Event) (x : Option (Registration κ)) :
    FdContext.setContext { r.context fd with events := (r.put event x).mask } event (.of x) =
      (r.put event x).context fd := by
  cases event <;> rfl

theorem Regs.real_of_get {r : Regs κ} {event : Event} {x : Registration κ} (taken : r.get event = some x) :
    event ≠ .NONE := by
  rintro rfl
  simp [get] at taken

/-- `triggerEvent` on a context that represents its registrations: it removes the registration
and appends the continuation to the queue of its scheduler. -/
theorem triggerEvent_context (r : Regs κ) (fd : Nat) (event : Event) (queues : Queues κ) :
    (r.context fd).triggerEvent event queues =
      match r.get event with
      | none => .error .triggerEvent
      | some ⟨none, _⟩ => .error .nullScheduler
      | some ⟨some scheduler, task⟩ =>
        .ok ((r.put event none).context fd, schedule queues scheduler task.entry) := by
  have mask : (r.context fd).events = r.mask := rfl
  cases taken : r.get event with
  | none =>
    simp only [FdContext.triggerEvent, mask, (r.mask_and_bits event).mpr taken, if_true]
  | some x =>
    have set : ¬ r.mask &&& event.bits = 0 := by rw [r.mask_and_bits event, taken]; simp
    have left := setContext_context r fd event none
    simp only [FdContext.triggerEvent, mask, set, if_false, r.mask_put_none,
      getContext_context r fd _ (Regs.real_of_get taken), taken, ok_bind]
    rcases x with ⟨_ | scheduler, cb | f⟩
    · rfl
    · rfl
    · exact congrArg (fun c => Except.ok (c, schedule queues scheduler _)) left
    · exact congrArg (fun c => Except.ok (c, schedule queues scheduler _)) left

end Sylar
