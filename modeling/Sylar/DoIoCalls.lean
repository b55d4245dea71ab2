import Sylar.DoIoTimeout
import Sylar.IOManagerWakeup

/-! The steps of a call of `do_io` one by one, and where the wake-up of its fiber lies after each. -/

namespace Sylar
open Machine

variable {K κ : Type}

namespace IoWorkers

/-- The outcomes after which `do_io` calls again, at once or when it has waited. -/
def Retried (outcome : Int × Int) : Prop := outcome.1 = -1 ∧ (outcome.2 = EINTR ∨ outcome.2 = EAGAIN)

variable (ep : Epoll K)

/-- The steps of a call, each with its position and what it finds. -/
inductive Called (s : IoWorkers K κ) (call : CallId) (c : IoCall) : CallAct → IoWorkers K κ → Prop
  | interrupted {n errno} : c.pc = .retry → n = -1 → errno = EINTR → Called s call c (.call n errno) s
  | blocked {n errno} : c.pc = .retry → n = -1 → errno = EAGAIN → Called s call c (.call n errno) (s.goto call c .arm)
  | done {n errno} : c.pc = .retry → ¬ Retried (n, errno) →
      Called s call c (.call n errno) (s.goto call c (.returned n none))
  | arm {timer now} : c.pc = .arm → c.to_ ≠ -1 → Called s call c (.addConditionTimer timer now)
      { s.goto call c (.addEvent (some timer)) with
        timers := (s.timers.addConditionTimer timer c.to_ (some (.timeout call)) call false now).2 }
  | unlimited {timer now} : c.pc = .arm → c.to_ = -1 →
      Called s call c (.addConditionTimer timer now) (s.goto call c (.addEvent none))
  | added {timer scheduler out iom} : c.pc = .addEvent timer →
      s.iom.Step ep (.addEvent c.fd c.event none ⟨scheduler, c.fiber, .EXEC⟩, out) iom → out.success = true →
      Called s call c (.addEvent scheduler out) { s.goto call c (.yield timer) with iom := iom }
  | refused {timer scheduler out iom} : c.pc = .addEvent timer →
      s.iom.Step ep (.addEvent c.fd c.event none ⟨scheduler, c.fiber, .EXEC⟩, out) iom → out.success = false →
      Called s call c (.addEvent scheduler out) { s.goto call c (.failed timer) with iom := iom }
  | failed {timer u} : c.pc = .failed timer → s.cancelTimer timer = some u →
      Called s call c .cancelTimer (u.goto call c (.returned (-1) none))
  | yielded {timer} : c.pc = .yield timer → Called s call c .YieldToHold (s.goto call c (.suspended timer))
  | resumed {timer scheduler i ft} : c.pc = .suspended timer → (s.iom.queues scheduler)[i]? = some ft →
      ft.fiber = some c.fiber →
      Called s call c (.resume scheduler i) ((s.take scheduler i).goto call c (.resumed timer))
  | cancelled {timer u} : c.pc = .resumed timer → s.cancelTimer timer = some u →
      Called s call c .cancelTimer (u.goto call c .check)
  | expired : c.pc = .check → c.cancelled ≠ 0 →
      Called s call c .check (s.goto call c (.returned (-1) (some c.cancelled)))
  | again : c.pc = .check → c.cancelled = 0 → Called s call c .check (s.goto call c .retry)

variable {ep} {s t : IoWorkers K κ} {call : CallId} {c : IoCall}

theorem ioAct_called {a : CallAct} (done : s.ioAct ep call c a = some t) : Called ep s call c a t := by
  unfold ioAct at done
  split at done
  · rename_i n errno pc
    split at done
    · rename_i interrupted
      cases done
      exact .interrupted pc interrupted.1 interrupted.2
    rename_i uninterrupted
    split at done
    · rename_i blocked
      cases done
      exact .blocked pc blocked.1 blocked.2
    · rename_i unblocked
      cases done
      refine .done pc ?_
      rintro ⟨minus, interrupted | blocked⟩
      · exact uninterrupted ⟨minus, interrupted⟩
      · exact unblocked ⟨minus, blocked⟩
  · rename_i pc
    split at done
    · rename_i limited
      cases done
      exact .arm pc limited
    · rename_i unlimited
      cases done
      exact .unlimited pc (Decidable.not_not.mp unlimited)
  · rename_i pc
    split at done
    · split at done
      · rename_i executed same
        cases done
        subst same
        split
        · rename_i success
          exact .added pc executed success
        · rename_i failure
          exact .refused pc executed (Bool.eq_false_iff.mpr failure)
      · cases done
    · cases done
  · rename_i pc
    obtain ⟨u, cancelled, rfl⟩ := Option.map_eq_some_iff.mp done
    exact .failed pc cancelled
  · rename_i pc
    cases done
    exact .yielded pc
  · rename_i pc
    split at done
    · rename_i found
      split at done
      · rename_i fiber
        cases done
        exact .resumed pc found fiber
      · cases done
    · cases done
  · rename_i pc
    obtain ⟨u, cancelled, rfl⟩ := Option.map_eq_some_iff.mp done
    exact .cancelled pc cancelled
  · rename_i pc
    split at done
    · rename_i cancelled
      cases done
      exact .expired pc cancelled
    · rename_i fresh
      cases done
      exact .again pc (Decidable.not_not.mp fresh)
  · cases done

/-- Where a step of a call leaves it. -/
theorem Called.calls {a : CallAct} (called : Called ep s call c a t) (atCall : s.calls call = some c) :
    (∃ pc, t.calls call = some { c with pc := pc }) ∧ ∀ b, b ≠ call → t.calls b = s.calls b := by
  cases called with
  | interrupted => exact ⟨⟨c.pc, atCall⟩, fun _ _ => rfl⟩
  | failed _ cancelled | cancelled _ cancelled =>
    obtain ⟨timers, rfl⟩ := cancelTimer_eq_some cancelled
    exact ⟨⟨_, Function.update_self ..⟩, fun b apart => Function.update_of_ne apart _ _⟩
  | _ => exact ⟨⟨_, Function.update_self ..⟩, fun b apart => Function.update_of_ne apart _ _⟩

/-- What a step does to one call. -/
inductive Turn (ep : Epoll K) (s : IoWorkers K κ) (l : Act K κ) (t : IoWorkers K κ) (b : CallId) : Prop
  | same : t.calls b = s.calls b → (∀ a, l ≠ .io b a) → Turn ep s l t b
  | enter {fd event to_ fiber} : l = .enter b fd event to_ fiber → s.calls b = none →
      t.calls b = some { fd := fd, event := event, to_ := to_, fiber := fiber } → Turn ep s l t b
  | io {a c} : l = .io b a → s.calls b = some c → Called ep s b c a t → Turn ep s l t b
  | mark {j c} : l = .setCancelled j → s.running[j]? = some (b, .tested) → s.calls b = some c →
      t.calls b = some { c with cancelled := ETIMEDOUT } → Turn ep s l t b
  | fired {j out c} : l = .cancelEvent j out → s.running[j]? = some (b, .set) → s.calls b = some c →
      t.calls b = some { c with fired := true } → Turn ep s l t b

theorem Step.turn {l : Act K κ} (step : s.Step ep l t) (b : CallId) : Turn ep s l t b := by
  obtain ⟨enabled, done⟩ := step
  cases l with
  | enter call fd event to_ fiber =>
    cases done
    by_cases same : b = call
    · subst same
      exact .enter rfl enabled.1 (Function.update_self ..)
    · exact .same (Function.update_of_ne same _ _) fun _ label => by cases label
  | io call a =>
    obtain ⟨c, atCall, done⟩ := Option.bind_eq_some_iff.mp done
    have called := ioAct_called done
    by_cases same : b = call
    · subst same
      exact .io rfl atCall called
    · refine .same ((called.calls atCall).2 b same) ?_
      rintro a ⟨⟩
      exact same rfl
  | setCancelled j =>
    obtain ⟨winfo, c, tested, atCall, rfl⟩ := setCancelled_eq_some done
    by_cases same : b = winfo
    · subst same
      exact .mark rfl tested atCall (Function.update_self ..)
    · exact .same (Function.update_of_ne same _ _) fun _ label => by cases label
  | cancelEvent j out =>
    obtain ⟨winfo, c, _, set, atCall, -, rfl⟩ := cancelEvent_eq_some done
    by_cases same : b = winfo
    · subst same
      exact .fired rfl set atCall (Function.update_self ..)
    · exact .same (Function.update_of_ne same _ _) fun _ label => by cases label
  | event op out =>
    obtain ⟨iom, executed, rfl⟩ := event_eq_some done
    exact .same rfl fun _ label => by cases label
  | listExpiredCb | timer =>
    simp only [act] at done
    split at done <;> cases done
    exact .same rfl fun _ label => by cases label
  | timeout scheduler i =>
    simp only [act] at done
    split at done <;> cases done
    exact .same (congrFun ((s.take scheduler i).timeout_running _ _).2.1 b) fun _ label => by cases label
  | schedule | run | kernel =>
    cases done
    exact .same rfl fun _ label => by cases label

/-- A call is woken by its event, its timeout or a cancellation only: when it enters, nothing is on its way
to its fiber, and meanwhile nobody schedules the fiber or takes its event away with `delEvent`. -/
def Sole (s : IoWorkers K κ) (l : Act K κ) (_ : IoWorkers K κ) : Prop :=
  match l with
  | .enter _ _ _ _ fiber => s.iom.Away fiber
  | .schedule _ ft => ∀ f, ft.fiber = some f → ¬ s.InDoIo f
  | .event (.delEvent fd event) _ => ∀ call c, s.calls call = some c → c.pc.waits → (c.fd, c.event) ≠ (fd, event)
  | _ => True

/-- A step adds no wake-up of the fiber. -/
structure Keeps (s t : IoWorkers K κ) (f : FiberId) : Prop where
  awaits : ∀ fd event, s.iom.Awaits f fd event → t.iom.Awaits f fd event
  away : s.iom.Away f → t.iom.Away f

variable {f : FiberId}

theorem Keeps.of_iom (same : t.iom = s.iom) : Keeps s t f := by
  constructor <;> intros <;> rwa [same]

theorem Keeps.of_step {op : EventOp (Callback (IoTask κ) CallId)} {out : EventOut}
    {iom : IOManager K (Callback (IoTask κ) CallId)} (good : s.iom.Good) (step : s.iom.Step ep (op, out) iom)
    (same : t.iom = iom) (spares : IOManager.Spares op f) : Keeps s t f where
  awaits _ _ awaits := same ▸ awaits.step good step spares
  away away := same ▸ away.step good step spares

/-- The registrations are as they were, and the queues have no more entries of the fiber. -/
theorem Keeps.of_queues (table : s.SameTable t)
    (fewer : ∀ scheduler, entriesOf t.iom.queues f scheduler ≤ entriesOf s.iom.queues f scheduler) : Keeps s t f := by
  have board : t.iom.board = s.iom.board := by
    funext slot
    simp only [IOManager.board, IOManager.regs, table.contexts]
  constructor
  · intro fd event awaits
    rw [IOManager.Awaits, board]
    exact awaits.fewer fewer
  · intro away
    exact ⟨board ▸ away.unregistered, fun scheduler => Nat.le_zero.mp (away.unqueued scheduler ▸ fewer scheduler)⟩

theorem entriesOf_unqueue {queues : Queues κ} {scheduler : SchedId} {i : Nat} {ft : FiberAndThread κ}
    (found : (queues scheduler)[i]? = some ft) (other : SchedId) :
    entriesOf queues f other = entriesOf (unqueue queues scheduler i) f other +
      if other = scheduler ∧ ft.fiber = some f then 1 else 0 := by
  by_cases same : other = scheduler
  · subst same
    have left : unqueue queues other i other = (queues other).eraseIdx i := Function.update_self ..
    simp [entriesOf_eraseIdx found left]
  · have left : unqueue queues scheduler i other = queues other := Function.update_of_ne same _ _
    simp [entriesOf, left, same]

theorem Keeps.take {scheduler : SchedId} {i : Nat} {ft : FiberAndThread (Callback (IoTask κ) CallId)}
    (found : (s.iom.queues scheduler)[i]? = some ft) (same : t.iom = (s.take scheduler i).iom) : Keeps s t f := by
  refine .of_queues ⟨by rw [same]; rfl, by rw [same]; rfl⟩ fun other => ?_
  rw [same]
  exact Nat.le.intro (entriesOf_unqueue found other).symm

theorem entriesOf_schedule {queues : Queues κ} {scheduler : SchedId} {ft : FiberAndThread κ}
    (foreign : ft.fiber ≠ some f) (other : SchedId) :
    entriesOf (schedule queues scheduler ft) f other = entriesOf queues f other := by
  by_cases same : other = scheduler
  · subst same
    simp only [entriesOf, schedule, Function.update_self, scheduleNoLock]
    split
    · simp [foreign]
    · rfl
  · simp only [entriesOf, schedule, Function.update_of_ne same]

theorem entriesOf_scheduleCbs (queues : Queues κ) (scheduler : SchedId) (cbs : List (Option κ)) (other : SchedId) :
    entriesOf (scheduleCbs queues scheduler cbs) f other = entriesOf queues f other := by
  simp only [scheduleCbs]
  induction cbs generalizing queues with
  | nil => rfl
  | cons cb cbs ih =>
    rw [List.foldl_cons, ih]
    exact entriesOf_schedule (fun fiber => by cases fiber) other

/-- A step adds no wake-up of a fiber that it does not schedule and that does not add an event. -/
theorem Step.keeps {l : Act K κ} (good : s.iom.Good) (step : s.Step ep l t)
    (spares : match l with
      | .io call (.addEvent _ _) => ∀ c, s.calls call = some c → c.fiber ≠ f
      | .event op _ => IOManager.Spares op f
      | .schedule _ ft => ft.fiber ≠ some f
      | _ => True) : Keeps s t f := by
  obtain ⟨enabled, done⟩ := step
  cases l with
  | enter =>
    cases done
    exact .of_iom rfl
  | kernel =>
    cases done
    exact .of_queues ⟨rfl, rfl⟩ fun _ => Nat.le_refl _
  | io call a =>
    obtain ⟨c, atCall, done⟩ := Option.bind_eq_some_iff.mp done
    cases ioAct_called done with
    | added pc executed | refused pc executed =>
      refine .of_step good executed rfl ?_
      rintro _ _ _ ⟨⟩
      exact spares c atCall
    | resumed pc found fiber => exact .take found rfl
    | failed pc cancelled | cancelled pc cancelled =>
      obtain ⟨timers, rfl⟩ := cancelTimer_eq_some cancelled
      exact .of_iom rfl
    | _ => exact .of_iom rfl
  | listExpiredCb now_ms now_timer =>
    simp only [act] at done
    split at done <;> cases done
    exact .of_queues ⟨rfl, rfl⟩ fun other => Nat.le_of_eq (entriesOf_scheduleCbs _ _ _ other)
  | timeout scheduler i =>
    simp only [act] at done
    split at done <;> cases done
    rename_i found
    exact .take found ((s.take scheduler i).timeout_running _ _).1
  | setCancelled j =>
    obtain ⟨_, _, -, -, rfl⟩ := setCancelled_eq_some done
    exact .of_iom rfl
  | cancelEvent j out =>
    obtain ⟨_, _, _, -, -, executed, rfl⟩ := cancelEvent_eq_some done
    refine .of_step good executed rfl ?_
    rintro _ _ _ ⟨⟩
  | event op out =>
    obtain ⟨iom, executed, rfl⟩ := event_eq_some done
    exact .of_step good executed rfl spares
  | timer op =>
    simp only [act] at done
    split at done <;> cases done
    exact .of_iom rfl
  | schedule scheduler ft =>
    cases done
    exact .of_queues ⟨rfl, rfl⟩ fun other => Nat.le_of_eq (entriesOf_schedule spares other)
  | run scheduler i =>
    cases done
    obtain ⟨ft, found, -⟩ := enabled
    exact .take found rfl

/-- A step of the others adds no wake-up of the fiber of a call that it does not schedule. -/
theorem Inv.keeps {l : Act K κ} (inv : s.Inv) (step : s.Step ep l t) (atCall : s.calls call = some c)
    (active : c.pc.active) (alien : ∀ a, l ≠ .io call a)
    (unscheduled : ∀ scheduler ft, l = .schedule scheduler ft → ft.fiber ≠ some c.fiber) : s.Keeps t c.fiber := by
  refine step.keeps inv.good ?_
  obtain ⟨enabled, done⟩ := step
  cases l with
  | io b a =>
    cases a with
    | addEvent scheduler out =>
      obtain ⟨d, atB, done⟩ := Option.bind_eq_some_iff.mp done
      intro e atE same
      cases atB.symm.trans atE
      have one := inv.apart call b c d atCall atB active (active_of_ioAct done) same.symm
      exact alien (.addEvent scheduler out) (by rw [one])
    | _ => trivial
  | event op out =>
    rintro fd event caller rfl same
    exact enabled.1 ⟨call, c, atCall, active, same.symm⟩
  | schedule scheduler ft => exact unscheduled scheduler ft rfl
  | _ => trivial

/-- A call that waits awaits its event, and nothing else wakes the fiber of a call. -/
structure Attended (s : IoWorkers K κ) : Prop where
  inv : s.Inv
  awaits : ∀ call c, s.calls call = some c → c.pc.waits → s.iom.Awaits c.fiber c.fd c.event
  away : ∀ call c, s.calls call = some c → c.pc.active → c.pc.waits = false → s.iom.Away c.fiber

/-- One call changed, and the others keep what they wait for. -/
theorem Attended.setCall (attended : s.Attended) (inv : t.Inv) {d : IoCall}
    (calls : t.calls = Function.update s.calls call (some d))
    (awaits : d.pc.waits → t.iom.Awaits d.fiber d.fd d.event)
    (away : d.pc.active → d.pc.waits = false → t.iom.Away d.fiber)
    (keeps : ∀ b x, b ≠ call → s.calls b = some x → x.pc.active → s.Keeps t x.fiber) : t.Attended := by
  refine ⟨inv, fun b x atB waits => ?_, fun b x atB active idle => ?_⟩
  · rcases Board.update_eq_some calls atB with ⟨rfl, rfl⟩ | ⟨other, old⟩
    · exact awaits waits
    · exact (keeps b x other old (IoPc.active_of_waits waits)).awaits _ _ (attended.awaits b x old waits)
  · rcases Board.update_eq_some calls atB with ⟨rfl, rfl⟩ | ⟨other, old⟩
    · exact away active idle
    · exact (keeps b x other old active).away (attended.away b x old active idle)

/-- No call changed. -/
theorem Attended.same (attended : s.Attended) (inv : t.Inv) (calls : t.calls = s.calls)
    (keeps : ∀ b x, s.calls b = some x → x.pc.active → s.Keeps t x.fiber) : t.Attended := by
  refine ⟨inv, fun b x atB waits => ?_, fun b x atB active idle => ?_⟩
  · rw [calls] at atB
    exact (keeps b x atB (IoPc.active_of_waits waits)).awaits _ _ (attended.awaits b x atB waits)
  · rw [calls] at atB
    exact (keeps b x atB active).away (attended.away b x atB active idle)

/-- A call goes to a place where it does not wait, from one where it did not wait either. -/
theorem Attended.goto (attended : s.Attended) (inv : t.Inv) (atCall : s.calls call = some c) {pc : IoPc}
    (active : c.pc.active) (idle : c.pc.waits = false) (still : pc.waits = false) (iom : t.iom = s.iom)
    (calls : t.calls = Function.update s.calls call (some { c with pc := pc })) : t.Attended := by
  refine attended.setCall inv calls (fun waits => ?_) (fun _ _ => ?_) fun b x other atB alive => .of_iom iom
  · rw [still] at waits
    cases waits
  · rw [iom]
    exact attended.away call c atCall active idle

theorem Attended.called {a : CallAct} (attended : s.Attended) (inv : t.Inv) (atCall : s.calls call = some c)
    (called : Called ep s call c a t)
    (keeps : ∀ b x, b ≠ call → s.calls b = some x → x.pc.active → s.Keeps t x.fiber) : t.Attended := by
  cases called with
  | interrupted => exact attended
  | blocked pc | done pc | arm pc | unlimited pc | expired pc | again pc =>
    exact attended.goto inv atCall (by rw [pc]; rfl) (by rw [pc]; rfl) rfl rfl rfl
  | failed pc cancelled | cancelled pc cancelled =>
    obtain ⟨timers, rfl⟩ := cancelTimer_eq_some cancelled
    exact attended.goto inv atCall (by rw [pc]; rfl) (by rw [pc]; rfl) rfl rfl rfl
  | added pc executed success =>
    have away := attended.away call c atCall (by rw [pc]; rfl) (by rw [pc]; rfl)
    have awaits := IOManager.Away.addEvent attended.inv.good away executed
    rw [if_pos success] at awaits
    exact attended.setCall inv rfl (fun _ => awaits) (fun _ idle => by cases idle) keeps
  | refused pc executed failure =>
    have away := attended.away call c atCall (by rw [pc]; rfl) (by rw [pc]; rfl)
    have still := IOManager.Away.addEvent attended.inv.good away executed
    rw [failure, if_neg Bool.false_ne_true] at still
    exact attended.setCall inv rfl (fun waits => by cases waits) (fun _ _ => still) keeps
  | yielded pc =>
    have awaits := attended.awaits call c atCall (by rw [pc]; rfl)
    exact attended.setCall inv rfl (fun _ => awaits) (fun _ idle => by cases idle) keeps
  | @resumed timer scheduler i ft pc found fiber =>
    have awaits := attended.awaits call c atCall (by rw [pc]; rfl)
    refine attended.setCall inv rfl (fun waits => by cases waits) (fun _ _ => ?_) keeps
    have one := entriesOf_unqueue (f := c.fiber) found scheduler
    rw [if_pos ⟨rfl, fiber⟩] at one
    obtain ⟨unregistered, unqueued⟩ := awaits.taken one fun other apart => Function.update_of_ne apart _ _
    exact ⟨unregistered, unqueued⟩

/-- The calls stay attended as long as nobody but its event wakes the fiber of a call. -/
theorem Attended.step {l : Act K κ} (attended : s.Attended) (step : Guarded (Step ep) Sole s l t) : t.Attended := by
  obtain ⟨step, sole⟩ := step
  have inv := step.effect.inv attended.inv
  have keeps := fun f => step.keeps (f := f) attended.inv.good
  have others := step
  obtain ⟨enabled, done⟩ := step
  cases l with
  | enter call fd event to_ fiber =>
    cases done
    refine attended.setCall inv rfl (fun waits => by cases waits) (fun _ _ => ?_) fun b x _ _ _ => keeps x.fiber trivial
    exact (keeps fiber trivial).away sole
  | io call a =>
    obtain ⟨c, atCall, done⟩ := Option.bind_eq_some_iff.mp done
    refine attended.called inv atCall (ioAct_called done) fun b x other atB alive => ?_
    refine attended.inv.keeps others atB alive ?_ fun _ _ label => by cases label
    rintro _ ⟨⟩
    exact other rfl
  | setCancelled j =>
    obtain ⟨_, c, -, atCall, rfl⟩ := setCancelled_eq_some done
    refine attended.setCall inv rfl (attended.awaits _ c atCall) (attended.away _ c atCall) ?_
    exact fun b x _ _ _ => keeps x.fiber trivial
  | cancelEvent j out =>
    obtain ⟨_, c, _, -, atCall, -, rfl⟩ := cancelEvent_eq_some done
    refine attended.setCall inv rfl (fun waits => ?_) (fun active idle => ?_) fun b x _ _ _ => keeps x.fiber trivial
    · exact (keeps c.fiber trivial).awaits _ _ (attended.awaits _ c atCall waits)
    · exact (keeps c.fiber trivial).away (attended.away _ c atCall active idle)
  | event op out =>
    obtain ⟨iom, executed, rfl⟩ := event_eq_some done
    exact attended.same inv rfl fun b x atB active =>
      attended.inv.keeps others atB active (fun _ label => by cases label)
      fun _ _ label => by cases label
  | schedule scheduler ft =>
    cases done
    refine attended.same inv rfl fun b x atB active => keeps x.fiber fun fiber => ?_
    exact sole x.fiber fiber ⟨b, x, atB, active, rfl⟩
  | listExpiredCb | timer =>
    simp only [act] at done
    split at done <;> cases done
    exact attended.same inv rfl fun b x _ _ => keeps x.fiber trivial
  | timeout scheduler i =>
    simp only [act] at done
    split at done <;> cases done
    exact attended.same inv ((s.take scheduler i).timeout_running _ _).2.1 fun b x _ _ => keeps x.fiber trivial
  | run | kernel =>
    cases done
    exact attended.same inv rfl fun b x _ _ => keeps x.fiber trivial

theorem attended_start (self : SchedId) (kernel : K) (now : UInt64) : (start (κ := κ) self kernel now).Attended where
  inv := inv_start self kernel now
  awaits _ _ atC := by cases atC
  away _ _ atC := by cases atC

/-- At first nothing resumes a fiber. -/
theorem away_start (self : SchedId) (kernel : K) (now : UInt64) (f : FiberId) :
    (start (κ := κ) self kernel now).iom.Away f := by
  refine ⟨fun slot x lies => ?_, fun _ => rfl⟩
  have empty := IOManager.Init.board_empty (s := (start (κ := κ) self kernel now).iom) ⟨rfl, rfl⟩ slot
  cases empty.symm.trans lies

end IoWorkers
end Sylar
