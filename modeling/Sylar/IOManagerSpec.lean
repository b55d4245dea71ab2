import Sylar.IOManagerGood

/-! The five operations on a good table, in terms of registrations. -/

namespace Sylar
open Machine

variable {K κ : Type}

namespace IOManager

/-- `triggerEvent` in terms of registrations: the registration goes, and its continuation is
appended to the queue of its scheduler. -/
def fire (s : IOManager K κ) (fd : Nat) (event : Event) : Except Abort (IOManager K κ) :=
  match (s.regs fd).get event with
  | none => .error .triggerEvent
  | some ⟨none, _⟩ => .error .nullScheduler
  | some ⟨some scheduler, task⟩ =>
    .ok { s.setReg fd event none with queues := schedule s.queues scheduler task.entry }

theorem Good.triggerAt_eq {s : IOManager K κ} (good : s.Good) {fd : Nat} (inside : fd < s.m_FdContexts.length)
    (event : Event) : s.triggerAt fd event = s.fire fd event := by
  simp only [triggerAt, good.context_eq inside, triggerEvent_context, fire]
  cases taken : (s.regs fd).get event with
  | none => rfl
  | some x =>
    rcases x with ⟨_ | scheduler, task⟩
    · rfl
    · simp only [ok_bind, pure_eq_ok, setReg_none taken]

/-- What `addEvent` stores for its caller. -/
def continuation (cb : Option κ) (caller : Caller) : Except Abort (Continuation κ) :=
  match cb with
  | some cb => .ok (.callback cb)
  | none => if caller.state = .EXEC then .ok (.fiber caller.fiber) else .error .fiberNotExec

variable (ep : Epoll K)

/-- The operation that `addEvent` asks `epoll_ctl` for. -/
def addOp (r : Regs κ) : EpollOp := if r.mask ≠ 0 then .EPOLL_CTL_MOD else .EPOLL_CTL_ADD

theorem addEventLocked_context (r : Regs κ) (pending : Int) (kernel : K) (fd : Nat)
    (event : Event) (cb : Option κ) (caller : Caller) :
    addEventLocked ep (r.context fd) pending kernel fd event cb caller =
      if r.get event ≠ none then .error .addEventTwice
      else
        let (rt, kernel) := ep.ctl kernel (addOp r) fd (EPOLLET ||| r.mask ||| event.bits)
        if rt ≠ 0 then .ok (-1, rt, r.context fd, pending, kernel)
        else if event = .NONE then .error .getContext
        else do
          let task ← continuation cb caller
          return (0, rt, (r.put event (some ⟨caller.scheduler, task⟩)).context fd, pending + 1, kernel) := by
  have mask : (r.context fd).events = r.mask := rfl
  have twice : r.mask &&& event.bits ≠ 0 ↔ r.get event ≠ none := not_congr (r.mask_and_bits event)
  have op : (if r.mask ≠ 0 then EpollOp.EPOLL_CTL_MOD else .EPOLL_CTL_ADD) = addOp r := rfl
  rcases call : ep.ctl kernel (addOp r) fd (EPOLLET ||| r.mask ||| event.bits) with ⟨rt, after⟩
  simp only [addEventLocked, mask, twice, op, call]
  split
  · rfl
  · rename_i free
    by_cases failed : rt ≠ 0
    · simp only [if_pos failed]
    · simp only [if_neg failed]
      by_cases real : event = .NONE
      · subst real
        rfl
      · simp only [getContext_context r fd _ real, not_not.mp free, EventContext.of, ok_bind, if_neg real]
        cases cb with
        | some cb =>
          have stored := setContext_context r fd event (some ⟨caller.scheduler, .callback cb⟩)
          rw [← r.mask_put_some real] at stored
          simp [continuation, ← stored, EventContext.of]
        | none =>
          have stored := setContext_context r fd event (some ⟨caller.scheduler, .fiber caller.fiber⟩)
          rw [← r.mask_put_some real] at stored
          by_cases running : caller.state = .EXEC
          · simp [continuation, running, ← stored, EventContext.of]
          · simp [continuation, running]

theorem Good.addEvent_eq {s : IOManager K κ} (good : s.Good) (fd : Nat) (event : Event) (cb : Option κ)
    (caller : Caller) :
    s.addEvent ep fd event cb caller =
      if (s.regs fd).get event ≠ none then .error .addEventTwice
      else
        let (rt, kernel) := ep.ctl s.kernel (addOp (s.regs fd)) fd (EPOLLET ||| (s.regs fd).mask ||| event.bits)
        if rt ≠ 0 then .ok (-1, some rt, { s.grow fd with kernel := kernel })
        else if event = .NONE then .error .getContext
        else do
          let task ← continuation cb caller
          return (0, some rt,
            { (s.grow fd).setReg fd event (some ⟨caller.scheduler, task⟩) with kernel := kernel }) := by
  have locked := addEventLocked_context ep (s.regs fd) s.m_pendingEventCount s.kernel fd event cb caller
  rcases call : ep.ctl s.kernel (addOp (s.regs fd)) fd (EPOLLET ||| (s.regs fd).mask ||| event.bits) with ⟨rt, after⟩
  simp only [addEvent, good.fdContext_eq, grow_pending, grow_kernel, locked, call]
  by_cases taken : (s.regs fd).get event ≠ none
  · simp only [if_pos taken, error_bind]
  simp only [if_neg taken]
  by_cases failed : rt ≠ 0
  · have same := (good.grow fd).set_context (good.grow_length fd).1
    rw [good.grow_regs] at same
    simp only [if_pos failed, ok_bind, pure_eq_ok, same]
  simp only [if_neg failed]
  by_cases real : event = .NONE
  · simp only [if_pos real, error_bind]
  simp only [if_neg real]
  cases continuation cb caller with
  | error reason => rfl
  | ok task =>
    have free : ((s.grow fd).regs fd).get event = none := by
      rw [good.grow_regs]
      exact not_not.mp taken
    simp only [ok_bind, pure_eq_ok, setReg_some real free, good.grow_regs, grow_pending]

/-- The shape of the operations that take events away. If there is something to take away,
`epoll_ctl` is asked first, and the events go only if it agrees. -/
def removal (s : IOManager K κ) (idle : Prop) [Decidable idle] (call : Int × K)
    (take : K → Except Abort (IOManager K κ)) : Except Abort (Bool × Option Int × IOManager K κ) :=
  if idle then .ok (false, none, s)
  else if call.1 ≠ 0 then .ok (false, some call.1, { s with kernel := call.2 })
  else do
    let t ← take call.2
    return (true, some call.1, t)

theorem removal_cases {s t : IOManager K κ} {idle : Prop} [Decidable idle] {call : Int × K}
    {take : K → Except Abort (IOManager K κ)} {success : Bool} {rt : Option Int}
    (done : s.removal idle call take = .ok (success, rt, t)) :
    (idle ∧ success = false ∧ rt = none ∧ t = s) ∨
    (¬ idle ∧ call.1 ≠ 0 ∧ success = false ∧ rt = some call.1 ∧ t = { s with kernel := call.2 }) ∨
    (¬ idle ∧ call.1 = 0 ∧ success = true ∧ rt = some 0 ∧ take call.2 = .ok t) := by
  unfold removal at done
  split at done
  · rename_i nothing
    cases done
    exact .inl ⟨nothing, rfl, rfl, rfl⟩
  · rename_i something
    split at done
    · rename_i failed
      cases done
      exact .inr (.inl ⟨something, failed, rfl, rfl, rfl⟩)
    · rename_i agreed
      obtain ⟨u, taken, done⟩ := bind_eq_ok.mp done
      cases done
      have zero := not_not.mp agreed
      exact .inr (.inr ⟨something, zero, rfl, congrArg some zero, taken⟩)

theorem Good.delEvent_eq {s : IOManager K κ} (good : s.Good) (fd : Nat) (event : Event) :
    s.delEvent ep fd event =
      s.removal ((s.regs fd).get event = none)
        (ep.ctl s.kernel .EPOLL_CTL_MOD fd (EPOLLET ||| ((s.regs fd).put event none).mask))
        fun kernel => .ok { s.setReg fd event none with kernel := kernel } := by
  rcases Nat.lt_or_ge fd s.m_FdContexts.length with inside | outside
  · have mask : ((s.regs fd).context fd).events = (s.regs fd).mask := rfl
    simp only [delEvent, removal, good.context_eq inside, mask, (s.regs fd).mask_and_bits]
    cases taken : (s.regs fd).get event with
    | none => rfl
    | some x =>
      have real := Regs.real_of_get taken
      rcases call : ep.ctl s.kernel .EPOLL_CTL_MOD fd (EPOLLET ||| ((s.regs fd).put event none).mask) with ⟨rt, after⟩
      have cleared := setContext_context (s.regs fd) fd event none
      simp only [reduceCtorEq, if_false, ne_eq, Regs.mask_ne_zero taken, not_false_eq_true, if_true,
        Regs.mask_put_none, call, getContext_context _ fd _ real, ok_bind, pure_eq_ok, setReg_none taken]
      split
      · rfl
      · exact congrArg (fun c => Except.ok (true, some rt, ({ s with
          m_FdContexts := s.m_FdContexts.set fd c
          m_pendingEventCount := s.m_pendingEventCount - 1
          kernel := after } : IOManager K κ))) cleared
  · simp only [delEvent, removal, List.getElem?_eq_none outside, regs_outside outside, Regs.get_empty, if_true]

theorem Good.cancelEvent_eq {s : IOManager K κ} (good : s.Good) (fd : Nat) (event : Event) :
    s.cancelEvent ep fd event =
      s.removal ((s.regs fd).get event = none)
        (ep.ctl s.kernel .EPOLL_CTL_MOD fd (EPOLLET ||| ((s.regs fd).put event none).mask))
        fun kernel => { s with kernel := kernel }.fire fd event := by
  rcases Nat.lt_or_ge fd s.m_FdContexts.length with inside | outside
  · have mask : ((s.regs fd).context fd).events = (s.regs fd).mask := rfl
    simp only [cancelEvent, removal, good.context_eq inside, mask, (s.regs fd).mask_and_bits]
    cases taken : (s.regs fd).get event with
    | none => rfl
    | some x =>
      rcases call : ep.ctl s.kernel .EPOLL_CTL_MOD fd (EPOLLET ||| ((s.regs fd).put event none).mask) with ⟨rt, after⟩
      simp only [reduceCtorEq, if_false, ne_eq, Regs.mask_ne_zero taken, not_false_eq_true, if_true,
        Regs.mask_put_none, call, (good.withKernel after).triggerAt_eq inside]
  · simp only [cancelEvent, removal, List.getElem?_eq_none outside, regs_outside outside, Regs.get_empty, if_true]

/-- Several events of one descriptor triggered in turn. -/
def fireEach (s : IOManager K κ) (fd : Nat) : List Event → Except Abort (IOManager K κ)
  | [] => .ok s
  | event :: events => do
    let s ← s.fire fd event
    s.fireEach fd events

theorem fireEach_append (s : IOManager K κ) (fd : Nat) (first second : List Event) :
    s.fireEach fd (first ++ second) = (s.fireEach fd first >>= fun t => t.fireEach fd second) := by
  induction first generalizing s with
  | nil => rfl
  | cons event events ih =>
    simp only [List.cons_append, fireEach]
    cases s.fire fd event with
    | error reason => rfl
    | ok t => exact ih t

theorem fire_ok {s t : IOManager K κ} {fd : Nat} {event : Event} (done : s.fire fd event = .ok t) :
    ∃ scheduler task, (s.regs fd).get event = some ⟨some scheduler, task⟩ ∧
      t = { s.setReg fd event none with queues := schedule s.queues scheduler task.entry } := by
  unfold fire at done
  split at done
  · cases done
  · cases done
  · rename_i scheduler task taken
    exact ⟨scheduler, task, taken, (Except.ok.inj done).symm⟩

theorem fire_kernel {s t : IOManager K κ} {fd : Nat} {event : Event} (done : s.fire fd event = .ok t) :
    t.kernel = s.kernel := by
  obtain ⟨scheduler, task, _, rfl⟩ := fire_ok done
  rfl

theorem fireEach_kernel {s t : IOManager K κ} {fd : Nat} {events : List Event}
    (done : s.fireEach fd events = .ok t) : t.kernel = s.kernel := by
  induction events generalizing s with
  | nil =>
    cases done
    rfl
  | cons event events ih =>
    obtain ⟨u, first, rest⟩ := bind_eq_ok.mp done
    exact (ih rest).trans (fire_kernel first)

/-- A trigger leaves the table as long as it was and takes one registration out of it. -/
theorem Good.after_fire {s t : IOManager K κ} (good : s.Good) {fd : Nat} (inside : fd < s.m_FdContexts.length)
    {event : Event} (done : s.fire fd event = .ok t) :
    t.Good ∧ t.m_FdContexts.length = s.m_FdContexts.length ∧ t.regs fd = (s.regs fd).put event none := by
  obtain ⟨scheduler, task, _, rfl⟩ := fire_ok done
  have after := good.setReg inside event none
  exact ⟨⟨after.size, after.repr, after.count⟩, List.length_set, regs_setReg_self inside event none⟩

theorem Good.after_fireEach {s t : IOManager K κ} (good : s.Good) {fd : Nat} (inside : fd < s.m_FdContexts.length)
    {events : List Event} (done : s.fireEach fd events = .ok t) :
    t.Good ∧ t.m_FdContexts.length = s.m_FdContexts.length ∧ t.regs fd = (s.regs fd).clear events := by
  induction events generalizing s with
  | nil =>
    cases done
    exact ⟨good, rfl, rfl⟩
  | cons event events ih =>
    obtain ⟨u, first, rest⟩ := bind_eq_ok.mp done
    obtain ⟨goodU, sizeU, regsU⟩ := good.after_fire inside first
    obtain ⟨goodT, sizeT, regsT⟩ := ih goodU (sizeU ▸ inside) rest
    refine ⟨goodT, sizeT.trans sizeU, ?_⟩
    rw [regsT, regsU]
    rfl

theorem Good.eventsAt_eq {s : IOManager K κ} (good : s.Good) (fd : Nat) : s.eventsAt fd = (s.regs fd).mask := by
  rcases Nat.lt_or_ge fd s.m_FdContexts.length with inside | outside
  · simp only [eventsAt, good.context_eq inside]
    rfl
  · simp only [eventsAt, List.getElem?_eq_none outside, regs_outside outside, Regs.mask_empty]

theorem Good.triggerIf_eq {s : IOManager K κ} (good : s.Good) {fd : Nat} (inside : fd < s.m_FdContexts.length)
    (events : Mask) (event : Event) :
    s.triggerIf events fd event = s.fireEach fd (if events &&& event.bits ≠ 0 then [event] else []) := by
  rw [triggerIf]
  split
  · rw [good.triggerAt_eq inside, fireEach]
    cases s.fire fd event <;> rfl
  · rfl

/-- Whoever looks at the mask of the descriptor triggers what is registered. -/
theorem Good.triggerIf_eventsAt {s : IOManager K κ} (good : s.Good) {fd : Nat}
    (inside : fd < s.m_FdContexts.length) (event : Event) :
    s.triggerIf (s.eventsAt fd) fd event =
      s.fireEach fd (if ((s.regs fd).get event).isSome then [event] else []) := by
  simp only [good.triggerIf_eq inside, good.eventsAt_eq, ne_eq, (s.regs fd).mask_and_bits]
  cases (s.regs fd).get event <;> rfl

theorem Good.cancelAll_triggers {s : IOManager K κ} (good : s.Good) {fd : Nat}
    (inside : fd < s.m_FdContexts.length) :
    (s.triggerIf (s.eventsAt fd) fd .READ >>= fun t => t.triggerIf (t.eventsAt fd) fd .WRITE) =
      s.fireEach fd (s.regs fd).events := by
  rw [good.triggerIf_eventsAt inside, Regs.events, fireEach_append]
  change (s.fireEach fd (if (s.regs fd).read.isSome then [.READ] else []) >>= _) = _
  cases fired : s.fireEach fd (if (s.regs fd).read.isSome then [.READ] else []) with
  | error reason => rfl
  | ok t =>
    obtain ⟨goodT, sizeT, regsT⟩ := good.after_fireEach inside fired
    have write : (t.regs fd).get .WRITE = (s.regs fd).write := by
      rw [regsT]
      split <;> rfl
    simp only [ok_bind, goodT.triggerIf_eventsAt (sizeT ▸ inside), write]

theorem Good.cancelAll_eq {s : IOManager K κ} (good : s.Good) (fd : Nat) :
    s.cancelAll ep fd =
      s.removal ((s.regs fd).mask = 0) (ep.ctl s.kernel .EPOLL_CTL_DEL fd 0)
        fun kernel => { s with kernel := kernel }.fireEach fd (s.regs fd).events := by
  rcases Nat.lt_or_ge fd s.m_FdContexts.length with inside | outside
  · have mask : ((s.regs fd).context fd).events = (s.regs fd).mask := rfl
    rcases call : ep.ctl s.kernel .EPOLL_CTL_DEL fd 0 with ⟨rt, after⟩
    simp only [cancelAll, removal, good.context_eq inside, mask, call]
    by_cases empty : (s.regs fd).mask = 0
    · simp only [if_pos empty]
    simp only [if_neg empty]
    by_cases failed : rt ≠ 0
    · simp only [if_pos failed]
    simp only [if_neg failed]
    have triggers := (good.withKernel after).cancelAll_triggers inside
    rw [← bind_assoc, triggers, regs_withKernel]
    cases fired : fireEach { s with kernel := after } fd (s.regs fd).events with
    | error reason => rfl
    | ok t =>
      obtain ⟨goodT, -, regsT⟩ := (good.withKernel after).after_fireEach inside fired
      have clear : t.eventsAt fd = 0 := by
        rw [goodT.eventsAt_eq, regsT]
        exact (congrArg Regs.mask (s.regs fd).clear_events).trans Regs.mask_empty
      simp only [ok_bind, clear, ne_eq, not_true_eq_false, if_false]
  · simp only [cancelAll, removal, List.getElem?_eq_none outside, regs_outside outside, Regs.mask_empty, if_true]

/-- The events that a report asks `idle` to trigger. -/
def reported (events : Mask) : List Event :=
  (if realEvents events &&& Event.READ.bits ≠ 0 then [.READ] else []) ++
    (if realEvents events &&& Event.WRITE.bits ≠ 0 then [.WRITE] else [])

theorem realEvents_cases (events : Mask) :
    realEvents events = 0 ∨ realEvents events = 1 ∨ realEvents events = 4 ∨ realEvents events = 5 := by
  unfold realEvents
  generalize (if events &&& (EPOLLERR ||| EPOLLHUP) ≠ 0 then events ||| (EPOLLIN ||| EPOLLOUT) else events) = widened
  dsimp only
  split <;> split <;> decide

/-- What is left in the context is what `idle` tells the kernel. -/
theorem mask_clear_reported (r : Regs κ) (events : Mask) :
    (r.clear (reported events)).mask = r.mask &&& ~~~realEvents events := by
  unfold reported
  rcases realEvents_cases events with real | real | real | real <;> rw [real] <;>
    rcases r with ⟨_ | _, _ | _⟩ <;> simp [Regs.clear, Regs.put, Regs.mask, Event.bits]

/-- The operation that `idle` asks `epoll_ctl` for. -/
def leftOp (left : Mask) : EpollOp := if left ≠ 0 then .EPOLL_CTL_MOD else .EPOLL_CTL_DEL

theorem Good.dispatch_eq {s : IOManager K κ} (good : s.Good) (fd : Nat) (events : Mask) :
    s.dispatch ep fd events = (do
      let (_, rt, t) ← s.removal ((s.regs fd).mask &&& realEvents events = 0)
        (ep.ctl s.kernel (leftOp ((s.regs fd).mask &&& ~~~realEvents events)) fd
          (EPOLLET ||| ((s.regs fd).mask &&& ~~~realEvents events)))
        fun kernel => { s with kernel := kernel }.fireEach fd (reported events)
      return (rt, t)) := by
  rcases Nat.lt_or_ge fd s.m_FdContexts.length with inside | outside
  · have mask : ((s.regs fd).context fd).events = (s.regs fd).mask := rfl
    have own : ((s.regs fd).context fd).fd = fd := rfl
    have op : (if (s.regs fd).mask &&& ~~~realEvents events ≠ 0 then EpollOp.EPOLL_CTL_MOD
      else .EPOLL_CTL_DEL) = leftOp ((s.regs fd).mask &&& ~~~realEvents events) := rfl
    rcases call : ep.ctl s.kernel (leftOp ((s.regs fd).mask &&& ~~~realEvents events)) fd
      (EPOLLET ||| ((s.regs fd).mask &&& ~~~realEvents events)) with ⟨rt, after⟩
    simp only [dispatch, removal, good.context_eq inside, mask, own, op, call]
    by_cases idle : (s.regs fd).mask &&& realEvents events = 0
    · simp only [if_pos idle, ok_bind, pure_eq_ok]
    simp only [if_neg idle]
    by_cases failed : rt ≠ 0
    · simp only [if_pos failed, ok_bind, pure_eq_ok]
    simp only [if_neg failed, (good.withKernel after).triggerIf_eq inside, reported, fireEach_append]
    cases fired : fireEach { s with kernel := after } fd
        (if realEvents events &&& Event.READ.bits ≠ 0 then [.READ] else []) with
    | error reason => rfl
    | ok t =>
      obtain ⟨goodT, sizeT, -⟩ := (good.withKernel after).after_fireEach inside fired
      simp only [ok_bind, pure_eq_ok, bind_assoc, goodT.triggerIf_eq (sizeT ▸ inside)]
  · have idle : (s.regs fd).mask &&& realEvents events = 0 := by
      rw [regs_outside outside, Regs.mask_empty]
      exact BitVec.zero_and
    simp only [dispatch, removal, List.getElem?_eq_none outside, if_pos idle, ok_bind, pure_eq_ok]

end IOManager
end Sylar
