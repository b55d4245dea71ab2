import Sylar.DoIoFired

/-! A call of `do_io` that waits is woken, and a call that does not wait can go on. -/

namespace Sylar
open Machine

variable {K κ : Type}

/-- The most steps of its own that a call makes before it calls again or returns. -/
def IoPc.rank : IoPc → Nat
  | .arm => 6
  | .addEvent _ => 5
  | .yield _ => 4
  | .suspended _ => 3
  | .resumed _ => 2
  | .failed _ | .check => 1
  | .retry | .returned _ _ => 0

namespace IoWorkers

/-- An entry of a queue resumes the fiber. -/
def Queued (s : IoWorkers K κ) (f : FiberId) : Prop := ∃ scheduler, 0 < entriesOf s.iom.queues f scheduler

/-- The event of every call that waits is registered, or its fiber is queued. -/
def Woken (s : IoWorkers K κ) : Prop :=
  ∀ call c, s.calls call = some c → c.pc.waits → s.Registered c ∨ s.Queued c.fiber

variable (ep : Epoll K)

/-- The next step of the call can be made, whatever its underlying call returns and whatever `epoll_ctl`
answers. A call that waits needs its event to be taken, and `addEvent` the event not to be set. -/
def Ready (s : IoWorkers K κ) (call : CallId) (c : IoCall) : Prop :=
  match c.pc with
  | .retry => ∀ n errno, ∃ t, s.Step ep (.io call (.call n errno)) t
  | .arm => ∀ timer now, timer ≠ 0 → s.timers.heap timer = none →
    ∃ t, s.Step ep (.io call (.addConditionTimer timer now)) t
  | .addEvent _ => (s.iom.regs c.fd).get c.event = none → c.event ≠ .NONE → ∀ scheduler,
      ∃ out t, s.Step ep (.io call (.addEvent scheduler out)) t
  | .yield _ => ∃ t, s.Step ep (.io call .YieldToHold) t
  | .suspended _ => s.Registered c ∨ ∃ scheduler i t, s.Step ep (.io call (.resume scheduler i)) t
  | .failed _ | .resumed _ => ∃ t, s.Step ep (.io call .cancelTimer) t
  | .check => ∃ t, s.Step ep (.io call .check) t
  | .returned _ _ => True

variable {ep} {s t : IoWorkers K κ} {call : CallId} {c d : IoCall} {l : Act K κ} {P : CallId → Prop} {f : FiberId}

theorem mem_schedule_of_mem {queues : Queues κ} {scheduler other : SchedId} {ft new : FiberAndThread κ}
    (member : ft ∈ queues other) : ft ∈ schedule queues scheduler new other := by
  by_cases same : other = scheduler
  · subst same
    simp only [schedule, Function.update_self, scheduleNoLock]
    split
    · exact List.mem_append_left _ member
    · exact member
  · rwa [schedule, Function.update_of_ne same]

theorem Queued.of_iom (queued : s.Queued f) (same : t.iom = s.iom) : t.Queued f := by
  rwa [Queued, same]

theorem queued_of_mem {scheduler : SchedId} {ft : FiberAndThread (Callback (IoTask κ) CallId)}
    (member : ft ∈ s.iom.queues scheduler) (fiber : ft.fiber = some f) : s.Queued f := by
  refine ⟨scheduler, List.countP_pos_iff.mpr ⟨ft, member, ?_⟩⟩
  exact decide_eq_true fiber

/-- An operation on the events only appends to the queues. -/
theorem Queued.event (queued : s.Queued f) (good : s.iom.Good) {op : EventOp (Callback (IoTask κ) CallId)}
    {out : EventOut} (executed : s.iom.Step ep (op, out) t.iom) : t.Queued f := by
  obtain ⟨scheduler, positive⟩ := queued
  refine ⟨scheduler, ?_⟩
  rw [entriesOf_append ((good.refines ep executed).queues scheduler)]
  exact Nat.add_pos_left positive _

/-- A worker takes an entry of another off a queue. -/
theorem Queued.take (queued : s.Queued f) {scheduler : SchedId} {i : Nat}
    {ft : FiberAndThread (Callback (IoTask κ) CallId)} (found : (s.iom.queues scheduler)[i]? = some ft)
    (other : ft.fiber ≠ some f) (same : t.iom = (s.take scheduler i).iom) : t.Queued f := by
  obtain ⟨holder, positive⟩ := queued
  have left := entriesOf_unqueue (f := f) found holder
  rw [if_neg fun here => other here.2, Nat.add_zero] at left
  refine ⟨holder, ?_⟩
  rw [same]
  exact left ▸ positive

/-- Only its own call takes a fiber that waits off a queue. -/
theorem Queued.step (inv : s.Inv) (tasks : s.Tasks P) (step : s.Step ep l t) (atCall : s.calls call = some c)
    (active : c.pc.active) (alien : ∀ a, l ≠ .io call a) (queued : s.Queued c.fiber) : t.Queued c.fiber := by
  obtain ⟨enabled, done⟩ := step
  cases l with
  | enter | kernel =>
    cases done
    exact queued
  | io b a =>
    obtain ⟨d, atB, done⟩ := Option.bind_eq_some_iff.mp done
    cases ioAct_called done with
    | added pc executed | refused pc executed => exact queued.event inv.good executed
    | resumed pc found fiber =>
      refine queued.take found (fun same => ?_) rfl
      have one := inv.apart call b c d atCall atB active (by rw [pc]; rfl) (Option.some.inj (same.symm.trans fiber))
      exact alien _ (by rw [one])
    | failed pc cancelled | cancelled pc cancelled =>
      obtain ⟨timers, rfl⟩ := cancelTimer_eq_some cancelled
      exact queued.of_iom rfl
    | _ => exact queued.of_iom rfl
  | listExpiredCb now_ms now_timer =>
    simp only [act] at done
    split at done <;> cases done
    obtain ⟨scheduler, positive⟩ := queued
    refine ⟨scheduler, ?_⟩
    rwa [entriesOf_scheduleCbs]
  | timeout scheduler i =>
    simp only [act] at done
    split at done <;> cases done
    rename_i found
    obtain ⟨none, -⟩ := tasks.queued scheduler _ (List.mem_of_getElem? found) _ rfl rfl
    refine queued.take found (fun same => ?_) ((s.take scheduler i).timeout_running _ _).1
    cases none.symm.trans same
  | setCancelled j =>
    obtain ⟨_, _, -, -, rfl⟩ := setCancelled_eq_some done
    exact queued.of_iom rfl
  | cancelEvent j out =>
    obtain ⟨_, _, _, -, -, executed, rfl⟩ := cancelEvent_eq_some done
    exact queued.event inv.good executed
  | event op out =>
    obtain ⟨iom, executed, rfl⟩ := event_eq_some done
    exact queued.event inv.good executed
  | timer op =>
    simp only [act] at done
    split at done <;> cases done
    exact queued.of_iom rfl
  | schedule scheduler ft =>
    cases done
    obtain ⟨holder, positive⟩ := queued
    obtain ⟨entry, member, fiber⟩ := List.countP_pos_iff.mp positive
    exact queued_of_mem (mem_schedule_of_mem member) (of_decide_eq_true fiber)
  | run scheduler i =>
    cases done
    obtain ⟨ft, found, -, outside⟩ := enabled
    refine queued.take found (fun same => ?_) rfl
    exact outside c.fiber same ⟨call, c, atCall, active, rfl⟩

/-- An event that a call waits for stays registered until its fiber is queued. -/
theorem Registered.step (good : s.iom.Good) (step : Guarded (Step ep) Sole s l t) (atCall : s.calls call = some c)
    (waits : c.pc.waits) (registered : s.Registered c) : t.Registered c ∨ t.Queued c.fiber := by
  obtain ⟨step, sole⟩ := step
  have same : s.SameTable t → t.Registered c := fun table => (table.registered c).mpr registered
  obtain ⟨owner, lay⟩ := registered
  have board : s.iom.board (c.fd, c.event) = some ⟨owner, .fiber c.fiber⟩ := lay
  have made : ∀ op out, s.iom.Step ep (op, out) t.iom → op ≠ .delEvent c.fd c.event →
      t.Registered c ∨ t.Queued c.fiber := by
    intro op out executed kept
    rcases good.released executed board kept with lies | ⟨scheduler, member⟩
    · exact .inl ⟨owner, lies⟩
    · exact .inr (queued_of_mem member rfl)
  cases step.effect with
  | quiet _ table | move _ _ _ _ table => exact .inl (same table)
  | enter | mark => exact .inl ⟨owner, lay⟩
  | register _ _ executed | cancel _ _ executed => exact made _ _ executed fun label => by cases label
  | event executed =>
    refine made _ _ executed ?_
    rintro rfl
    exact sole call c atCall waits rfl

/-- A call that waits after a step of its own has just added its event, or it waited before. -/
theorem Called.waited {a : CallAct} (good : s.iom.Good) (atCall : s.calls call = some c)
    (called : Called ep s call c a t) (after : t.calls call = some d) (waits : d.pc.waits) :
    t.Registered d ∨ c.pc.waits ∧ (∃ pc, d = { c with pc := pc }) ∧ t.iom = s.iom := by
  cases called with
  | interrupted pc =>
    cases after.symm.trans atCall
    rw [pc] at waits
    cases waits
  | added pc executed success =>
    cases (Function.update_self ..).symm.trans after
    exact .inl ⟨_, good.addEvent_board executed success⟩
  | yielded pc =>
    cases (Function.update_self ..).symm.trans after
    exact .inr ⟨by rw [pc]; rfl, ⟨_, rfl⟩, rfl⟩
  | failed _ cancelled | cancelled _ cancelled =>
    obtain ⟨timers, rfl⟩ := cancelTimer_eq_some cancelled
    cases (Function.update_self ..).symm.trans after
    cases waits
  | blocked | done | arm | unlimited | refused | resumed | expired | again =>
    cases (Function.update_self ..).symm.trans after
    cases waits

theorem Woken.step (woken : s.Woken) (inv : s.Inv) (tasks : s.Tasks P) (step : Guarded (Step ep) Sole s l t) :
    t.Woken := by
  intro call d after waits
  have kept : ∀ c, s.calls call = some c → c.pc.waits → (∀ a, l ≠ .io call a) →
      t.Registered c ∨ t.Queued c.fiber := by
    intro c atCall waits alien
    rcases woken call c atCall waits with registered | queued
    · exact registered.step inv.good step atCall waits
    · exact .inr (queued.step inv tasks step.1 atCall (IoPc.active_of_waits waits) alien)
  cases step.1.turn call with
  | same calls alien => exact kept d (calls ▸ after) waits alien
  | enter _ _ fresh =>
    cases fresh.symm.trans after
    cases waits
  | @io a c _ atCall called =>
    rcases called.waited inv.good atCall after waits with registered | ⟨before, ⟨pc, rfl⟩, same⟩
    · exact .inl registered
    · rw [Registered, Queued, same]
      exact woken call c atCall before
  | @mark j c label _ old now | @fired j out c label _ old now =>
    cases now.symm.trans after
    refine kept c old waits ?_
    rintro a rfl
    cases label

theorem woken_start (self : SchedId) (kernel : K) (now : UInt64) : (start (κ := κ) self kernel now).Woken :=
  fun _ _ atC => by cases atC

/-- Of the steps of a call only the underlying call does not bring it closer to the next one or to its return. -/
theorem Called.closer {a : CallAct} (called : Called ep s call c a t) (after : t.calls call = some d) :
    (∃ n errno, a = .call n errno) ∨ d.pc.rank < c.pc.rank := by
  cases called with
  | interrupted | blocked | done => exact .inl ⟨_, _, rfl⟩
  | failed pc cancelled | cancelled pc cancelled =>
    obtain ⟨timers, rfl⟩ := cancelTimer_eq_some cancelled
    cases (Function.update_self ..).symm.trans after
    rw [pc]
    exact .inr (by simp [IoPc.rank])
  | arm pc | unlimited pc | added pc | refused pc | yielded pc | resumed pc | expired pc | again pc =>
    cases (Function.update_self ..).symm.trans after
    rw [pc]
    exact .inr (by simp [IoPc.rank])

/-- The others leave a call where it is. -/
theorem Step.closer (step : s.Step ep l t) (atCall : s.calls call = some c) (after : t.calls call = some d) :
    d.pc = c.pc ∨ (∃ n errno, l = .io call (.call n errno)) ∨ d.pc.rank < c.pc.rank := by
  cases step.turn call with
  | same calls =>
    cases (calls.symm.trans after).symm.trans atCall
    exact .inl rfl
  | enter _ unused => cases unused.symm.trans atCall
  | io label old called =>
    cases old.symm.trans atCall
    subst label
    refine .inr ((called.closer after).imp_left ?_)
    rintro ⟨n, errno, rfl⟩
    exact ⟨n, errno, rfl⟩
  | mark _ _ old now | fired _ _ old now =>
    cases old.symm.trans atCall
    cases now.symm.trans after
    exact .inl rfl

/-- `timer->cancel()` never meets undefined behaviour. -/
theorem Timed.cancelTimer (timed : s.Timed) (atCall : s.calls call = some c) :
    ∃ u, s.cancelTimer c.pc.timer = some u := by
  cases holds : c.pc.timer with
  | none => exact ⟨s, rfl⟩
  | some p =>
    obtain ⟨-, timer, once, -⟩ := timed.held call c p atCall holds
    simp only [IoWorkers.cancelTimer, timed.wf.cancel_eq once.lives]
    exact ⟨_, rfl⟩

/-- A queued fiber can be resumed. -/
theorem Queued.resume (queued : s.Queued c.fiber) (atCall : s.calls call = some c) {timer : Option Ptr}
    (pc : c.pc = .suspended timer) : ∃ scheduler i t, s.Step ep (.io call (.resume scheduler i)) t := by
  obtain ⟨scheduler, positive⟩ := queued
  obtain ⟨ft, member, fiber⟩ := List.countP_pos_iff.mp positive
  obtain ⟨i, found⟩ := List.mem_iff_getElem?.mp member
  refine ⟨scheduler, i, (s.take scheduler i).goto call c (.resumed timer), trivial, ?_⟩
  simp only [act, atCall, Option.bind_some, ioAct, pc, found, of_decide_eq_true fiber, if_true]

/-- A call can always go on, but for a wait whose event is registered. -/
theorem Woken.ready (woken : s.Woken) (inv : s.Inv) (timed : s.Timed) (atCall : s.calls call = some c) :
    s.Ready ep call c := by
  have step : ∀ a, s.Enabled (.io call a) → (s.ioAct ep call c a).isSome → ∃ t, s.Step ep (.io call a) t := by
    intro a enabled acts
    obtain ⟨t, done⟩ := Option.isSome_iff_exists.mp acts
    refine ⟨t, enabled, ?_⟩
    simp only [act, atCall, Option.bind_some, done]
  have cancels : ∀ timer, c.pc.timer = timer → (s.cancelTimer timer).isSome := by
    rintro timer rfl
    exact Option.isSome_iff_exists.mpr (timed.cancelTimer atCall)
  unfold Ready
  split
  · rename_i pc
    intro n errno
    refine step _ trivial ?_
    simp only [ioAct, pc]
    split
    · rfl
    · split <;> rfl
  · rename_i pc
    intro timer now real free
    refine step _ ⟨real, by rw [free]; rfl⟩ ?_
    simp only [ioAct, pc]
    split <;> rfl
  · rename_i timer pc
    intro free real scheduler
    have added : ∃ out iom, s.iom.exec ep (.addEvent c.fd c.event none ⟨scheduler, c.fiber, .EXEC⟩) = .ok (out, iom) :=
      inv.good.addEvent_enabled free real rfl
    obtain ⟨out, iom, added⟩ := added
    refine ⟨out, step _ trivial ?_⟩
    simp only [ioAct, pc, added, if_true, Option.isSome_some]
  · rename_i pc
    refine step _ trivial ?_
    simp only [ioAct, pc, Option.isSome_some]
  · rename_i timer pc
    exact (woken call c atCall (by rw [pc]; rfl)).imp_right fun queued => queued.resume atCall pc
  · rename_i timer pc
    exact step _ trivial (by simpa only [ioAct, pc, Option.isSome_map] using cancels timer (by rw [pc]; rfl))
  · rename_i timer pc
    exact step _ trivial (by simpa only [ioAct, pc, Option.isSome_map] using cancels timer (by rw [pc]; rfl))
  · rename_i pc
    refine step _ trivial ?_
    simp only [ioAct, pc]
    split <;> rfl
  · trivial

end IoWorkers
end Sylar
