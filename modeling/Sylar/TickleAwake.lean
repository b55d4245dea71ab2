import Sylar.Tickle

/-! Which workers are on their way to the queue: all but those that have just gone through it, and those
whose idle fiber has yet to come out of `epoll_wait`. -/

namespace Sylar
open Machine

variable {κ : Type}

/-- The job whose fiber a worker has swapped in and not marked otherwise since. `IOManager::idle`
switches without a write, so that its fiber stays `EXEC` up to the end of the round. -/
def RunPc.swapped : RunPc → Option Job
  | .running job => some job
  | .leaving .idle | .returned .idle | .settle .idle | .hold .idle => some .idle
  | _ => none

def Worker.Swapped (me : Worker κ) (f : FiberId) : Prop := ∃ job, me.pc.swapped = some job ∧ me.jobFiber job = some f

namespace Scheduler

variable {s t : Scheduler κ} {me after : Worker κ} {thread : Int} {a : Act κ} {f : FiberId}

theorem not_swapped (none : me.pc.swapped = none) : ¬ me.Swapped f := by
  rintro ⟨job, some, -⟩
  cases none.symm.trans some

theorem swapped_move {p : RunPc} (same : p.swapped = me.pc.swapped) (on : me.Swapped f) :
    ({ me with pc := p } : Worker κ).Swapped f := by
  obtain ⟨job, some, fiber⟩ := on
  refine ⟨job, same.trans some, ?_⟩
  cases job <;> exact fiber

/-- A fiber is `EXEC` only while some worker has it on its stack. -/
theorem Acted.swapped (acted : s.Acted thread me a t after) (exec : t.m_state f = .EXEC) :
    after.Swapped f ∨ s.m_state f = .EXEC ∧ ¬ me.Swapped f ∨ s.m_state f = .EXEC ∧ after = me := by
  have off : ∀ p, me.pc = p → p.swapped = none → s.m_state f = .EXEC →
      after.Swapped f ∨ s.m_state f = .EXEC ∧ ¬ me.Swapped f ∨ s.m_state f = .EXEC ∧ after = me :=
    fun p pc none before => .inr (.inl ⟨before, not_swapped (pc ▸ none)⟩)
  -- the write of another state to the fiber on the stack takes it off
  have other : ∀ p job g, me.pc = p → p.swapped = some job → me.jobFiber job = some g → f ≠ g →
      s.m_state f = .EXEC → after.Swapped f ∨ s.m_state f = .EXEC ∧ ¬ me.Swapped f ∨ s.m_state f = .EXEC ∧ after = me := by
    rintro p job g pc some fiber apart before
    refine .inr (.inl ⟨before, ?_⟩)
    rintro ⟨job', some', fiber'⟩
    cases (pc ▸ some').symm.trans some
    exact apart (Option.some.inj (fiber'.symm.trans fiber))
  have on : ∀ p, me.pc = p → (p.swapped = after.pc.swapped) → after = { me with pc := after.pc } →
      s.m_state f = .EXEC → after.Swapped f ∨ s.m_state f = .EXEC ∧ ¬ me.Swapped f ∨ s.m_state f = .EXEC ∧ after = me := by
    intro p pc same shape before
    by_cases held : me.Swapped f
    · exact .inl (shape ▸ swapped_move (pc ▸ same.symm) held)
    · exact .inr (.inl ⟨before, held⟩)
  cases acted with
  | run ran =>
    cases ran with
    | start pc => exact off _ pc rfl (m_state_of_newFiber exec (by decide))
    | newCallback pc => exact off _ pc rfl (m_state_of_newFiber exec (by decide))
    | resetCallback pc | recycle pc => exact off _ pc rfl (m_state_of_setState exec (by decide)).2
    | nothing pc | entry pc | fiber pc | drop pc | stop pc | idle pc | endedCallback pc | reschedule pc =>
      exact off _ pc rfl exec
    | @swapIn job g pc fiber =>
      by_cases same : f = g
      · refine .inl ⟨job, rfl, ?_⟩
        rw [same, ← fiber]
        cases job <;> rfl
      · rw [m_state_setState_of_ne same] at exec
        exact off _ pc rfl exec
    | returnedIdle pc => exact on _ pc rfl rfl exec
    | @returned job pc notIdle =>
      cases job with
      | idle => exact absurd rfl notIdle
      | fiber | callback => exact off _ pc rfl exec
    | @ready job _ pc _ _ notIdle =>
      cases job with
      | idle => exact absurd rfl notIdle
      | fiber | callback => exact off _ pc rfl exec
    | @suspended job _ pc =>
      cases job with
      | idle => exact on _ pc rfl rfl exec
      | fiber | callback => exact off _ pc rfl exec
    | @ended job g pc fiber ending =>
      cases job with
      | idle =>
        refine other _ .idle g pc rfl fiber ?_ exec
        rintro rfl
        rcases ending with term | except
        · cases term.symm.trans exec
        · cases except.symm.trans exec
      | fiber | callback => exact off _ pc rfl exec
    | @hold job g pc fiber =>
      obtain ⟨apart, before⟩ := m_state_of_setState exec (by decide)
      cases job with
      | idle => exact other _ .idle g pc rfl fiber apart before
      | fiber | callback => exact off _ pc rfl before
  | @leave _ state job g writes pc fiber =>
    have differs : state ≠ .EXEC := by
      rintro rfl
      cases a <;> cases writes
    obtain ⟨apart, before⟩ := m_state_of_setState exec differs
    exact other _ job g pc rfl fiber apart before
  | swapOut pc => exact on _ pc rfl rfl exec
  | @switch job pc =>
    cases job with
    | idle => exact on _ pc rfl rfl exec
    | fiber | callback => exact off _ pc rfl exec
  | newFiber => exact .inr (.inr ⟨m_state_of_newFiber exec (by decide), rfl⟩)
  | schedule => exact .inr (.inr ⟨exec, rfl⟩)

/-- The selection loop finds nothing and leaves `tickle_me` alone: every entry is of a fiber that executes. -/
theorem exec_of_nothing {m_state : FiberId → FiberState} {queue : List (FiberAndThread κ)}
    (nothing : selectFrom m_state thread queue = .nothing) (quiet : tickleMe m_state thread queue = false) :
    ∀ ft ∈ queue, ∃ f, ft.fiber = some f ∧ m_state f = .EXEC := by
  induction queue with
  | nil => nofun
  | cons it queue ih =>
    rw [tickleMe] at quiet
    rw [selectFrom] at nothing
    split at quiet
    · cases quiet
    rename_i mine
    rw [if_neg mine] at nothing
    split at quiet
    · rename_i executing
      obtain ⟨f, fiber, exec⟩ := (Option.any_eq_true _ _).mp executing
      rw [if_neg (by simp [fiber]), if_pos executing] at nothing
      have rest : selectFrom m_state thread queue = .nothing := by
        generalize selectFrom m_state thread queue = found at nothing
        cases found with
        | nothing => rfl
        | assertion | entry => cases nothing
      exact List.forall_mem_cons.mpr ⟨⟨f, fiber, of_decide_eq_true exec⟩, ih rest quiet⟩
    · cases quiet

end Scheduler

namespace Workers

/-- A fiber that is `EXEC` is on the stack of one of the `n` workers. -/
def Held (n : Nat) (s : Workers κ) : Prop :=
  ∀ f, s.scheduler.m_state f = .EXEC → ∃ w < n, (s.worker w).Swapped f

variable {s t : Workers κ} {n w : Nat} {f : FiberId}

theorem Held.act {a : Scheduler.Act κ} (held : s.Held n) (member : w < n) (done : s.act w a = some t) : t.Held n := by
  intro f exec
  obtain ⟨mine, others⟩ := act_eq_some done
  have stays : ∀ v < n, v ≠ w → (s.worker v).Swapped f → ∃ v < n, (t.worker v).Swapped f :=
    fun v inside apart on => ⟨v, inside, others v apart ▸ on⟩
  rcases (Scheduler.act_acted mine).swapped exec with on | ⟨before, off⟩ | ⟨before, same⟩
  · exact ⟨w, member, on⟩
  · obtain ⟨v, inside, on⟩ := held f before
    exact stays v inside (fun same => off (same ▸ on)) on
  · obtain ⟨v, inside, on⟩ := held f before
    by_cases here : v = w
    · subst here
      exact ⟨v, inside, same ▸ on⟩
    · exact stays v inside here on

theorem Held.call {c : Scheduler.Call κ} (held : s.Held n) (member : w < n) (done : s.call w c = some t) :
    t.Held n := by
  cases c with
  | act a => exact held.act member done
  | schedule fc thread => exact held.act (a := .schedule (fc.entry thread).1) member done
  | scheduleRange range =>
    rw [scheduleRange_eq_some done]
    exact held

/-- An entry of the queue whose fiber is `EXEC` has a worker that runs it. -/
theorem Held.running (held : s.Held n) (apart : s.Private) {ft : FiberAndThread κ} (member : ft ∈ s.scheduler.m_fibers)
    (fiber : ft.fiber = some f) (exec : s.scheduler.m_state f = .EXEC) :
    ∃ w < n, ∃ job, (s.worker w).pc = .running job ∧ job ≠ .idle := by
  obtain ⟨w, inside, job, some, mine⟩ := held f exec
  have notIdle : job ≠ .idle := by
    rintro rfl
    exact (apart.queue ft member f fiber).2 w mine
  refine ⟨w, inside, job, ?_, notIdle⟩
  generalize (s.worker w).pc = pc at some
  cases pc with
  | running => exact congrArg RunPc.running (Option.some.inj some)
  | leaving other | returned other | settle other | hold other =>
    cases other with
    | idle => exact absurd (Option.some.inj some).symm notIdle
    | fiber | callback => cases some
  | _ => cases some

end Workers

/-- `epoll_wait` has returned, and the round of `IOManager::idle` goes on to `swapOut`. -/
def IdlePc.polled {ω : Type} : IdlePc κ ω → Bool
  | .expire | .cbs _ | .dispatch => true
  | _ => false

namespace Reactor

variable {K ω : Type} {ep : Epoll K} {self : SchedId} {n : Nat} {s t : Reactor K κ ω} {w : Nat} {a : Act κ ω}

theorem event_workers {op : EventOp (Callback κ ω)} (done : s.event ep self op = some t) :
    ∃ new, t.base.workers = { s.base.workers with scheduler := { s.scheduler with
      m_fibers := s.scheduler.m_fibers ++ new } } := by
  rw [event] at done
  split at done
  · cases done
    exact ⟨_, rfl⟩
  · cases done

theorem act_idled {b : IdleAct} (done : s.act ep self (.idle w b) = some t) :
    (s.worker w).pc = .running .idle ∧ s.Idled ep self w b t := by
  simp only [act] at done
  split at done
  · rename_i pc
    exact ⟨pc, idleAct_idled done⟩
  · cases done

/-- What every step of the workers keeps, and every entry that is appended to the queue. -/
theorem Step.workers {P : Workers (Callback κ ω) → Prop} (positive : 0 < n) (step : s.Step ep self n a t)
    (call : ∀ ws vs w c, w < n → P ws → ws.call w c = some vs → P vs)
    (append : ∀ ws new, P ws →
      P { ws with scheduler := { ws.scheduler with m_fibers := ws.scheduler.m_fibers ++ new } })
    (held : P s.base.workers) : P t.base.workers := by
  obtain ⟨allowed, done⟩ := step
  have called : ∀ {w c u}, w < n → s.call w c = some u → P u.base.workers := fun member done =>
    call _ _ _ _ member held (call_eq_some done).1
  have fired : ∀ {op u}, s.event ep self op = some u → P u.base.workers := by
    intro op u done
    obtain ⟨new, same⟩ := event_workers done
    exact same ▸ append _ new held
  have submitted : ∀ {w caller x}, w < n → s.submit ep self w caller x = some t → P t.base.workers := by
    intro w caller x member done
    cases x with
    | timer op =>
      obtain ⟨⟨out, u⟩, executed, rfl⟩ := Option.map_eq_some_iff.mp done
      obtain ⟨timers, -, rfl⟩ := timer_eq_some executed
      exact held
    | addEvent | delEvent | cancelEvent | cancelAll => exact fired done
    | schedule | scheduleRange | newFiber => exact called member done
  cases a with
  | run w | switch w => exact called allowed done
  | leave w b => exact called allowed.1 done
  | submit w x =>
    obtain ⟨job, f, -, -, -, done⟩ := submit_eq_some allowed done
    exact submitted allowed.1 done
  | outside caller x => exact submitted positive done
  | autoStop =>
    cases done
    exact held
  | idle w b =>
    have member : w < n := by
      cases b with
      | listExpiredCb => exact allowed.1
      | _ => exact allowed
    cases (act_idled done).2 with
    | getNextTimer _ executed | exit _ executed | listExpiredCb _ executed =>
      obtain ⟨timers, -, rfl⟩ := timer_eq_some executed
      exact held
    | readPending | stopping | epoll_wait => exact held
    | finish _ inner | schedule _ inner | swapOut _ inner =>
      have after := called member inner
      exact after
    | report _ inner => exact fired inner

/-- The worker will go through the queue before it next waits in `epoll_wait`. -/
def Awake (s : Reactor K κ ω) (w : Nat) : Prop :=
  match (s.worker w).pc with
  | .selected false | .swapIn .idle | .stopped => False
  | .running .idle => (s.idle w).polled
  | _ => True

theorem awake_of_eq {v : Nat} (worker : t.worker v = s.worker v) (idle : t.idle v = s.idle v) (awake : s.Awake v) :
    t.Awake v := by
  rw [Awake, worker, idle]
  exact awake

/-- A worker on the stack of a task is awake. -/
theorem awake_of_running {job : Job} (pc : (s.worker w).pc = .running job) (notIdle : job ≠ .idle) : s.Awake w := by
  rw [Awake, pc]
  cases job with
  | idle => exact absurd rfl notIdle
  | fiber | callback => trivial

theorem awake_of_polled (pc : (s.worker w).pc = .running .idle) (polled : (s.idle w).polled) : s.Awake w := by
  rw [Awake, pc]
  exact polled

/-- A step of `Scheduler::run` that leaves the worker asleep found it asleep, or it went through the queue
and found nothing. -/
theorem run_awake (done : s.call w (.act .run) = some t) : t.Awake w ∨
    (s.worker w).pc = .select ∧ Scheduler.selectFrom s.scheduler.m_state w s.scheduler.m_fibers = .nothing ∧
      t.scheduler = s.scheduler ∨
    ¬ s.Awake w ∧ t.scheduler.m_fibers = s.scheduler.m_fibers := by
  obtain ⟨-, -, -, idle, -⟩ := call_eq_some done
  have away := run_away done
  obtain ⟨after, me, acted, scheduler, worker⟩ := call_acted done
  rw [scheduler, Awake, worker, Awake, idle]
  cases acted with
  | run ran =>
    cases ran with
    | nothing pc found => exact .inr (.inl ⟨pc, found, rfl⟩)
    | stop pc | idle pc => exact .inr (.inr ⟨by rw [pc]; exact id, rfl⟩)
    | @swapIn job f pc =>
      cases job with
      | idle => exact .inr (.inr ⟨by rw [pc]; exact id, rfl⟩)
      | fiber | callback => exact .inl trivial
    | @reschedule job pc | @hold job pc | @ready job pc | @suspended job pc => exact .inl trivial
    | _ => exact .inl trivial
  | leave writes => cases writes

theorem call_others {c : Scheduler.Call (Callback κ ω)} (done : s.call w c = some t) {v : Nat} (other : v ≠ w) :
    t.worker v = s.worker v := by
  have called := (call_eq_some done).1
  cases c with
  | act b => exact (Workers.act_eq_some called).2 v other
  | schedule fc thread => exact (Workers.act_eq_some (a := .schedule (fc.entry thread).1) called).2 v other
  | scheduleRange range =>
    rw [worker, Workers.scheduleRange_eq_some called]
    rfl

/-- What a thread asks of the manager moves no worker. -/
theorem submit_worker {caller : Caller} {x : Submit κ ω} (done : s.submit ep self w caller x = some t) (v : Nat) :
    t.worker v = s.worker v := by
  have fired : ∀ {op}, s.event ep self op = some t → t.worker v = s.worker v := by
    intro op done
    obtain ⟨new, same⟩ := event_workers done
    rw [worker, same]
    rfl
  have called : ∀ {c}, s.call w c = some t → t.worker w = s.worker w → t.worker v = s.worker v := by
    intro c done mine
    by_cases here : v = w
    · rw [here, mine]
    · exact call_others done here
  cases x with
  | timer op =>
    obtain ⟨⟨out, u⟩, executed, rfl⟩ := Option.map_eq_some_iff.mp done
    obtain ⟨timers, -, rfl⟩ := timer_eq_some executed
    rfl
  | addEvent | delEvent | cancelEvent | cancelAll => exact fired done
  | schedule fc thread => exact called done (schedule_worker (.inr ⟨_, rfl⟩) done)
  | scheduleRange => exact called done (scheduleRange_worker done)
  | newFiber => exact called done (schedule_worker (.inl rfl) done)

/-- A thread that fills the queue goes on to call `tickle()`. -/
theorem submit_fills {caller : Caller} {x : Submit κ ω} (done : s.submit ep self w caller x = some t)
    (empty : s.scheduler.m_fibers = []) (filled : t.scheduler.m_fibers ≠ []) : s.submitTickles t x := by
  have fills : s.filled t := by simp [Reactor.filled, empty, filled]
  cases x with
  | timer op =>
    obtain ⟨⟨out, u⟩, executed, rfl⟩ := Option.map_eq_some_iff.mp done
    obtain ⟨timers, -, rfl⟩ := timer_eq_some executed
    exact absurd empty filled
  | addEvent | delEvent | cancelEvent | cancelAll => exact fills
  | schedule => exact List.isEmpty_iff.mpr empty
  | scheduleRange range =>
    have queue : t.scheduler.m_fibers = [] ++ range.entries.filter (·.accepted) := by
      have same := Workers.scheduleRange_eq_some (call_eq_some done).1
      rw [scheduler, same, ← empty]
      exact Scheduler.m_fibers_scheduleRange _ _
    cases entries : range.entries with
    | nil =>
      rw [entries] at queue
      exact absurd queue filled
    | cons => simp [submitTickles, empty, entries]
  | newFiber =>
    obtain ⟨after, me, acted, queue, -⟩ := call_acted done
    rw [queue] at filled
    cases acted with
    | leave writes => cases writes
    | newFiber => exact absurd empty filled

/-- The idle fiber is on its way to the queue once `epoll_wait` has returned; before that it touches neither
the queue nor the other workers. -/
theorem idled_awake {b : IdleAct} (pc : (s.worker w).pc = .running .idle) (idled : s.Idled ep self w b t) :
    t.Awake w ∨ ¬ s.Awake w ∧ t.scheduler.m_fibers = s.scheduler.m_fibers ∧
      ∀ v, v ≠ w → t.worker v = s.worker v ∧ t.idle v = s.idle v := by
  have asleep : ∀ p, s.idle w = p → p.polled = false → ¬ s.Awake w := by
    intro p at_ unpolled awake
    rw [Awake, pc, at_] at awake
    cases unpolled.symm.trans awake
  have quiet : ∀ (p q : IdlePc κ ω) (timers : TimerManager κ ω), s.idle w = p → p.polled = false →
      t = (s.setTimers timers).goto w q → t.Awake w ∨ ¬ s.Awake w ∧ t.scheduler.m_fibers = s.scheduler.m_fibers ∧
        ∀ v, v ≠ w → t.worker v = s.worker v ∧ t.idle v = s.idle v := by
    rintro p q timers at_ unpolled rfl
    exact .inr ⟨asleep p at_ unpolled, rfl, fun v other => ⟨rfl, Function.update_of_ne other _ _⟩⟩
  have polled : ∀ (u : Reactor K κ ω) (q : IdlePc κ ω), u.worker w = s.worker w → t = u.goto w q → q.polled → t.Awake w := by
    rintro u q same rfl polled
    refine awake_of_polled ((congrArg Worker.pc same).trans pc) ?_
    simpa only [goto, Function.update_self] using polled
  have left : ∀ (c : Scheduler.Act (Callback κ ω)) (u : Reactor K κ ω) (q : IdlePc κ ω), c = .finish ∨ c = .swapOut →
      s.call w (.act c) = some u → t = u.goto w q → t.Awake w := by
    rintro c u q which called rfl
    obtain ⟨after, me, acted, -, mine⟩ := call_acted called
    have away : me.pc = .leaving .idle := by
      rcases which with rfl | rfl
      · cases acted with
        | leave _ running =>
          cases RunPc.running.inj (pc.symm.trans running)
          rfl
      · cases acted with
        | leave writes => cases writes
        | swapOut => rfl
    rw [Awake, show ((u.goto w q).worker w).pc = .leaving .idle from (congrArg Worker.pc mine).trans away]
    trivial
  cases idled with
  | getNextTimer at_ executed | exit at_ executed =>
    obtain ⟨timers, -, rfl⟩ := timer_eq_some executed
    exact quiet _ _ timers at_ rfl rfl
  | readPending at_ | stopping at_ => exact quiet _ _ s.timers at_ rfl rfl
  | finish at_ called => exact .inl (left _ _ _ (.inl rfl) called rfl)
  | swapOut at_ called => exact .inl (left _ _ _ (.inr rfl) called rfl)
  | epoll_wait at_ => exact .inl (polled s _ rfl rfl rfl)
  | @listExpiredCb _ _ out _ at_ executed =>
    obtain ⟨timers, -, rfl⟩ := timer_eq_some executed
    refine .inl (polled (s.setTimers timers) _ rfl rfl ?_)
    split <;> rfl
  | schedule at_ called => exact .inl (polled _ _ (scheduleRange_worker called) rfl rfl)
  | report at_ fired =>
    obtain ⟨new, same⟩ := event_workers fired
    have stays : t.worker w = s.worker w := by rw [worker, same]; rfl
    refine .inl (awake_of_polled (by rw [stays, pc]) ?_)
    rw [(event_eq_some fired).1, at_]
    rfl

/-- Where `tickle()` is not called, a queue that is not empty was so before, and the workers that were on
their way to it still are, or some worker is now. -/
theorem Step.awake (serving : s.Serving) (held : s.base.workers.Held n)
    (step : s.Step ep self n a t) (quiet : s.tickles a t = false) (queue : t.scheduler.m_fibers ≠ []) :
    (∃ w < n, t.Awake w) ∨ s.scheduler.m_fibers ≠ [] ∧ ∀ w < n, s.Awake w → t.Awake w := by
  obtain ⟨allowed, done⟩ := step
  cases a with
  | run w =>
    have idle := (call_eq_some done).2.2.2.1
    rcases run_awake done with awake | ⟨pc, found, same⟩ | ⟨asleep, same⟩
    · exact .inl ⟨w, allowed, awake⟩
    · -- the fiber of an entry that is left without `tickle_me` runs on another worker
      simp only [tickles, pc] at quiet
      rw [same] at queue
      obtain ⟨ft, member⟩ := List.exists_mem_of_ne_nil _ queue
      obtain ⟨f, fiber, exec⟩ := Scheduler.exec_of_nothing found quiet ft member
      obtain ⟨v, inside, job, running, notIdle⟩ := held.running serving.sane.posted.apart member fiber exec
      have other : v ≠ w := by
        rintro rfl
        cases pc.symm.trans running
      exact .inl ⟨v, inside, awake_of_eq (call_others done other) (congrFun idle v) (awake_of_running running notIdle)⟩
    · refine .inr ⟨same ▸ queue, fun v _ awake => ?_⟩
      have other : v ≠ w := fun here => asleep (here ▸ awake)
      exact awake_of_eq (call_others done other) (congrFun idle v) awake
  | switch w =>
    obtain ⟨after, me, acted, -, mine⟩ := call_acted done
    refine .inl ⟨w, allowed, ?_⟩
    rw [Awake, mine]
    cases acted with
    | leave writes => cases writes
    | switch => trivial
  | leave w b =>
    obtain ⟨after, me, acted, -, mine⟩ := call_acted done
    refine .inl ⟨w, allowed.1, ?_⟩
    rw [Awake, mine]
    cases acted with
    | leave => trivial
    | run | swapOut | switch | newFiber | schedule => cases allowed.2.1
  | submit w x =>
    obtain ⟨job, f, pc, notIdle, -, submitted⟩ := submit_eq_some allowed done
    have running : (t.worker w).pc = .running job := by rw [submit_worker submitted, pc]
    exact .inl ⟨w, allowed.1, awake_of_running running notIdle⟩
  | outside caller x =>
    refine .inr ⟨fun empty => ?_, fun v _ awake => ?_⟩
    · cases quiet.symm.trans (submit_fills done empty queue)
    · exact awake_of_eq (submit_worker done v) (congrFun (submit_frame done).1 v) awake
  | autoStop =>
    cases done
    exact .inr ⟨queue, fun _ _ awake => awake⟩
  | idle w b =>
    have member : w < n := by
      cases b with
      | listExpiredCb => exact allowed.1
      | _ => exact allowed
    obtain ⟨pc, idled⟩ := act_idled done
    rcases idled_awake pc idled with awake | ⟨asleep, same, others⟩
    · exact .inl ⟨w, member, awake⟩
    · refine .inr ⟨same ▸ queue, fun v _ awake => ?_⟩
      have other : v ≠ w := fun here => asleep (here ▸ awake)
      exact awake_of_eq (others v other).1 (others v other).2 awake

end Reactor

end Sylar
