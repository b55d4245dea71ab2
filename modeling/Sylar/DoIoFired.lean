import Sylar.DoIoTimers

/-! From the timer of a call to its `tinfo->cancelled`: the lambda of a call is only ever in the hands of
the workers, and `cancelled` is only ever set, once `listExpiredCb` has collected it. -/

namespace Sylar
open Machine

variable {K κ : Type}

namespace IoWorkers

/-- The timer of a call fires: `listExpiredCb` collects its function. -/
def Fires (call : CallId) (s : IoWorkers K κ) (l : Act K κ) (_ : IoWorkers K κ) : Prop :=
  ∃ now_ms now_timer cbs expired timers, l = .listExpiredCb now_ms now_timer ∧
    s.timers.listExpiredCbLocked now_ms now_timer [] = .ok (cbs, expired, timers) ∧ some (lambda call) ∈ cbs

/-- Of the lambdas of the calls only those in `P` are in a queue, run on a worker, or have set `cancelled`. -/
structure Tasks (P : CallId → Prop) (s : IoWorkers K κ) : Prop where
  queued : ∀ scheduler, ∀ ft ∈ s.iom.queues scheduler, ∀ f, ft.cb = some f → f.foreign = false →
    ft.fiber = none ∧ ∃ call, f = lambda call ∧ P call
  registered : ∀ slot x, s.iom.board slot = some x → ∀ f, x.task = .callback f → f.foreign
  running : ∀ call pc, (call, pc) ∈ s.running → P call
  cancelled : ∀ call c, s.calls call = some c → c.cancelled ≠ 0 → c.cancelled = ETIMEDOUT ∧ P call

variable {ep : Epoll K} {s t : IoWorkers K κ} {l : Act K κ} {call : CallId} {P Q : CallId → Prop}

theorem Tasks.mono (tasks : s.Tasks P) (more : ∀ call, P call → Q call) : s.Tasks Q where
  queued scheduler ft member f cb own :=
    (tasks.queued scheduler ft member f cb own).imp_right fun ⟨call, same, found⟩ => ⟨call, same, more call found⟩
  registered := tasks.registered
  running call pc member := more call (tasks.running call pc member)
  cancelled call c atCall set := (tasks.cancelled call c atCall set).imp_right (more call)

theorem lambda_injective {a b : CallId} (same : lambda (κ := κ) a = lambda b) : a = b := by
  cases same
  rfl

/-- What `listExpiredCb` collects was the function of a timer. -/
theorem Timed.collected (timed : s.Timed) {now_ms : UInt64} {now_timer : Ptr} {expired : List Ptr}
    {cbs : List (Option (Callback (IoTask κ) CallId))} {timers : TimerManager (IoTask κ) CallId}
    (enabled : s.timers.Enabled (.listExpiredCb now_ms now_timer))
    (done : s.timers.listExpiredCbLocked now_ms now_timer [] = .ok (cbs, expired, timers))
    {f : Callback (IoTask κ) CallId} (member : some f ∈ cbs) :
    ∃ p timer, s.timers.heap p = some timer ∧ timer.m_cb = some f := by
  rcases TimerManager.locked_cases enabled done with ⟨rfl, -⟩ | step
  · cases member
  · cases timed.wf.effect step with
    | listExpiredCb =>
      obtain ⟨p, -, cb⟩ := List.mem_map.mp member
      obtain ⟨timer, lives, armed⟩ := Option.bind_eq_some_iff.mp cb
      exact ⟨p, timer, lives, armed⟩

/-- The call whose timer fires has a timeout. -/
theorem Fires.limited (timed : s.Timed) (step : s.Step ep l t) (fires : Fires call s l t) :
    ∃ c, s.calls call = some c ∧ c.to_ ≠ -1 := by
  obtain ⟨now_ms, now_timer, cbs, expired, timers, rfl, done, member⟩ := fires
  obtain ⟨p, timer, lives, armed⟩ := timed.collected step.1 done member
  obtain ⟨other, c, same, atCall, holds⟩ := timed.lambdas p timer _ lives armed rfl
  cases lambda_injective same
  exact ⟨c, atCall, (timed.held call c p atCall holds).1⟩

section Queues
variable {queues : Queues κ} {scheduler other : SchedId} {ft : FiberAndThread κ}

theorem mem_schedule {new : FiberAndThread κ} (member : ft ∈ schedule queues scheduler new other) :
    ft ∈ queues other ∨ ft = new := by
  by_cases same : other = scheduler
  · subst same
    simp only [schedule, Function.update_self, scheduleNoLock] at member
    split at member
    · exact (List.mem_append.mp member).imp_right List.mem_singleton.mp
    · exact .inl member
  · rw [schedule, Function.update_of_ne same] at member
    exact .inl member

theorem mem_scheduleCbs {cbs : List (Option κ)} (member : ft ∈ scheduleCbs queues scheduler cbs other) :
    ft ∈ queues other ∨ ft.fiber = none ∧ ft.cb ∈ cbs := by
  simp only [scheduleCbs] at member
  induction cbs generalizing queues with
  | nil => exact .inl member
  | cons cb cbs ih =>
    rcases ih member with old | ⟨none, later⟩
    · rcases mem_schedule old with old | rfl
      · exact .inl old
      · exact .inr ⟨rfl, List.mem_cons_self⟩
    · exact .inr ⟨none, List.mem_cons_of_mem _ later⟩

theorem mem_unqueue {i : Nat} (member : ft ∈ unqueue queues scheduler i other) : ft ∈ queues other := by
  by_cases same : other = scheduler
  · subst same
    rw [unqueue, Function.update_self] at member
    exact List.mem_of_mem_eraseIdx member
  · rwa [unqueue, Function.update_of_ne same] at member

end Queues

/-- An operation on the events queues callbacks that were registered, and registers none of the lambdas. -/
theorem Tasks.event (tasks : s.Tasks P) (good : s.iom.Good) {op : EventOp (Callback (IoTask κ) CallId)} {out : EventOut}
    {iom : IOManager K (Callback (IoTask κ) CallId)} (executed : s.iom.Step ep (op, out) iom)
    (foreign : ∀ fd event cb caller, op = .addEvent fd event (some cb) caller → cb.foreign) :
    ({ s with iom := iom } : IoWorkers K κ).Tasks P := by
  have refines := good.refines ep executed
  have kept := Board.run_forall (P := fun (x : Registration _) => ∀ f, x.task = .callback f → f.foreign) refines.run
    tasks.registered (by
      intro slot x member f task
      obtain ⟨fd, event, cb, caller, rfl, rfl⟩ := IOManager.changes_put member
      cases cb with
      | none => cases task
      | some cb =>
        cases task
        exact foreign fd event f caller rfl)
  refine ⟨?_, kept.1, tasks.running, tasks.cancelled⟩
  intro scheduler ft member f cb own
  rw [refines.queues] at member
  rcases List.mem_append.mp member with old | new
  · exact tasks.queued scheduler ft old f cb own
  · obtain ⟨a, inChanges, appended⟩ := List.mem_filterMap.mp new
    obtain ⟨slot, x, rfl, -, rfl⟩ := Change.appended_eq_some appended
    cases task : x.task with
    | fiber g => rw [task] at cb; cases cb
    | callback g =>
      rw [task] at cb
      cases cb
      have registered := kept.2 slot x .scheduled inChanges f task
      rw [own] at registered
      cases registered

/-- Fewer entries, and the same registrations. -/
theorem Tasks.fewer (tasks : s.Tasks P) (table : s.SameTable t)
    (queues : ∀ scheduler, ∀ ft ∈ t.iom.queues scheduler, ft ∈ s.iom.queues scheduler)
    (running : ∀ call pc, (call, pc) ∈ t.running → P call)
    (cancelled : ∀ call c, t.calls call = some c → c.cancelled ≠ 0 → c.cancelled = ETIMEDOUT ∧ P call) : t.Tasks P where
  queued scheduler ft member := tasks.queued scheduler ft (queues scheduler ft member)
  registered slot x lies := by
    simp only [IOManager.board, IOManager.regs, table.contexts] at lies
    exact tasks.registered slot x lies
  running := running
  cancelled := cancelled

/-- One call changed. -/
theorem Tasks.update {c : IoCall} (tasks : s.Tasks P) (calls : t.calls = Function.update s.calls call (some c))
    (set : c.cancelled ≠ 0 → c.cancelled = ETIMEDOUT ∧ P call) :
    ∀ b d, t.calls b = some d → d.cancelled ≠ 0 → d.cancelled = ETIMEDOUT ∧ P b := by
  intro b d atB now
  rcases Board.update_eq_some calls atB with ⟨rfl, rfl⟩ | ⟨-, old⟩
  · exact set now
  · exact tasks.cancelled b d old now

theorem Tasks.called {c : IoCall} {a : CallAct} (tasks : s.Tasks P) (good : s.iom.Good) (atCall : s.calls call = some c)
    (called : Called ep s call c a t) : t.Tasks P := by
  have set := tasks.cancelled call c atCall
  cases called with
  | interrupted => exact tasks
  | blocked | done | unlimited | yielded | expired | again | arm =>
    exact tasks.fewer ⟨rfl, rfl⟩ (fun _ _ member => member) tasks.running (tasks.update rfl set)
  | failed _ cancelled | cancelled _ cancelled =>
    obtain ⟨timers, rfl⟩ := cancelTimer_eq_some cancelled
    exact tasks.fewer ⟨rfl, rfl⟩ (fun _ _ member => member) tasks.running (tasks.update rfl set)
  | added _ executed | refused _ executed =>
    have queued := tasks.event good executed (by rintro _ _ _ _ ⟨⟩)
    exact queued.fewer ⟨rfl, rfl⟩ (fun _ _ member => member) tasks.running (tasks.update rfl set)
  | resumed => exact tasks.fewer ⟨rfl, rfl⟩ (fun _ _ => mem_unqueue) tasks.running (tasks.update rfl set)

/-- A worker that begins a timeout callback runs it for the call of its lambda. -/
theorem Tasks.timeout (tasks : s.Tasks P) {weak_cond winfo : CallId} (fired : P winfo) :
    (s.timeout weak_cond winfo).Tasks P := by
  unfold IoWorkers.timeout
  split
  · exact tasks
  split
  · exact tasks
  split
  · exact tasks
  · refine tasks.fewer ⟨rfl, rfl⟩ (fun _ _ member => member) (fun call pc member => ?_) tasks.cancelled
    rcases List.mem_append.mp member with old | new
    · exact tasks.running call pc old
    · cases List.mem_singleton.mp new
      exact fired

/-- A step keeps the lambdas to those that had been collected before and those that it collects. -/
theorem Tasks.step (tasks : s.Tasks P) (good : s.iom.Good) (timed : s.Timed) (step : s.Step ep l t)
    (fired : ∀ call, Fires call s l t → P call) : t.Tasks P := by
  obtain ⟨enabled, done⟩ := step
  cases l with
  | enter call fd event to_ fiber =>
    cases done
    exact tasks.fewer ⟨rfl, rfl⟩ (fun _ _ member => member) tasks.running
      (tasks.update rfl fun set => absurd rfl set)
  | io call a =>
    obtain ⟨c, atCall, done⟩ := Option.bind_eq_some_iff.mp done
    exact tasks.called good atCall (ioAct_called done)
  | listExpiredCb now_ms now_timer =>
    simp only [act] at done
    split at done
    · rename_i cbs expired timers locked
      cases done
      refine ⟨fun scheduler ft member f cb own => ?_, tasks.registered, tasks.running, tasks.cancelled⟩
      rcases mem_scheduleCbs member with old | ⟨none, collected⟩
      · exact tasks.queued scheduler ft old f cb own
      · rw [cb] at collected
        obtain ⟨p, timer, lives, armed⟩ := timed.collected enabled locked collected
        obtain ⟨call, c, rfl, -, -⟩ := timed.lambdas p timer f lives armed own
        exact ⟨none, call, rfl, fired call ⟨_, _, _, _, _, rfl, locked, collected⟩⟩
    · cases done
  | timeout scheduler i =>
    simp only [act] at done
    split at done <;> cases done
    rename_i weak_cond winfo _ found
    obtain ⟨-, call, same, fires⟩ := tasks.queued scheduler _ (List.mem_of_getElem? found) _ rfl rfl
    cases same
    have taken : (s.take scheduler i).Tasks P :=
      tasks.fewer ⟨rfl, rfl⟩ (fun _ _ => mem_unqueue) tasks.running tasks.cancelled
    exact taken.timeout fires
  | setCancelled j =>
    obtain ⟨winfo, c, tested, atCall, rfl⟩ := setCancelled_eq_some done
    have fires := tasks.running winfo .tested (List.mem_of_getElem? tested)
    refine tasks.fewer ⟨rfl, rfl⟩ (fun _ _ member => member) (fun call pc member => ?_)
      (tasks.update rfl fun _ => ⟨rfl, fires⟩)
    rcases List.mem_or_eq_of_mem_set member with old | same
    · exact tasks.running call pc old
    · cases same
      exact fires
  | cancelEvent j out =>
    obtain ⟨_, c, _, -, atCall, executed, rfl⟩ := cancelEvent_eq_some done
    have queued := tasks.event good executed (by rintro _ _ _ _ ⟨⟩)
    exact queued.fewer ⟨rfl, rfl⟩ (fun _ _ member => member)
      (fun call pc member => tasks.running call pc (List.mem_of_mem_eraseIdx member))
      (tasks.update rfl (tasks.cancelled _ c atCall))
  | event op out =>
    obtain ⟨iom, executed, rfl⟩ := event_eq_some done
    refine tasks.event good executed ?_
    rintro fd event cb caller rfl
    exact enabled.2 cb rfl
  | timer op =>
    simp only [act] at done
    split at done <;> cases done
    exact tasks.fewer ⟨rfl, rfl⟩ (fun _ _ member => member) tasks.running tasks.cancelled
  | schedule scheduler new =>
    cases done
    refine ⟨fun other ft member f cb own => ?_, tasks.registered, tasks.running, tasks.cancelled⟩
    rcases mem_schedule member with old | rfl
    · exact tasks.queued other ft old f cb own
    · have foreign := enabled f cb
      rw [own] at foreign
      cases foreign
  | run scheduler i =>
    cases done
    exact tasks.fewer ⟨rfl, rfl⟩ (fun _ _ => mem_unqueue) tasks.running tasks.cancelled
  | kernel =>
    cases done
    exact tasks.fewer ⟨rfl, rfl⟩ (fun _ _ member => member) tasks.running tasks.cancelled

theorem tasks_start (self : SchedId) (kernel : K) (now : UInt64) : (start (κ := κ) self kernel now).Tasks P where
  queued _ _ member := by cases member
  registered slot x lies := by
    have empty := IOManager.Init.board_empty (s := (start (κ := κ) self kernel now).iom) ⟨rfl, rfl⟩ slot
    cases empty.symm.trans lies
  running _ _ member := by cases member
  cancelled _ _ atC := by cases atC

theorem timed_start (self : SchedId) (kernel : K) (now : UInt64) : (start (κ := κ) self kernel now).Timed where
  wf := TimerManager.Init.wf ⟨rfl, rfl, rfl⟩
  lambdas _ _ _ lives := by cases lives
  held _ _ _ atC := by cases atC

end IoWorkers
end Sylar
