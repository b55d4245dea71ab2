import Sylar.ReactorWatched

namespace Sylar.Reactor
open Machine

variable {K κ ω : Type} {ep : Epoll K} {self : SchedId} {n : Nat} {s t : Reactor K κ ω} {w : Nat} {a : Act κ ω}

/-- Before `stop()` no idle fiber gets past `Scheduler::stopping`. -/
structure Serving (s : Reactor K κ ω) : Prop where
  sane : s.Sane
  running : s.base.m_stopping = false
  undecided : ∀ w, (s.idle w).decided = false

theorem Serving.goto {u : Reactor K κ ω} (serving : s.Serving) (idle : u.idle = s.idle) {p : IdlePc κ ω}
    (undecided : p.decided = false) (v : Nat) : ((u.goto w p).idle v).decided = false := by
  by_cases same : v = w
  · subst same
    simpa only [Reactor.goto, Function.update_self] using undecided
  · simpa only [Reactor.goto, Function.update_of_ne same, idle] using serving.undecided v

theorem Serving.idled {b : IdleAct} (serving : s.Serving) (idled : s.Idled ep self w b t) :
    t.base.m_stopping = false ∧ ∀ v, (t.idle v).decided = false := by
  have open_ := serving.undecided w
  cases idled with
  | getNextTimer at_ executed =>
    obtain ⟨timers, -, rfl⟩ := timer_eq_some executed
    exact ⟨serving.running, serving.goto rfl (by split <;> rfl)⟩
  | readPending at_ => exact ⟨serving.running, serving.goto rfl (by split <;> rfl)⟩
  | stopping at_ =>
    have no : s.base.stopping = false := by simp [Stoppable.stopping, serving.running]
    rw [no]
    exact ⟨serving.running, serving.goto rfl rfl⟩
  | exit at_ => rw [at_] at open_; cases open_
  | finish at_ => rw [at_] at open_; cases open_
  | epoll_wait at_ => exact ⟨serving.running, serving.goto rfl rfl⟩
  | listExpiredCb at_ executed =>
    obtain ⟨timers, -, rfl⟩ := timer_eq_some executed
    exact ⟨serving.running, serving.goto rfl (by split <;> rfl)⟩
  | schedule at_ called | swapOut at_ called =>
    obtain ⟨-, -, -, idle, stopping⟩ := call_eq_some called
    exact ⟨stopping.trans serving.running, serving.goto idle rfl⟩
  | report at_ fired =>
    obtain ⟨idle, stopping⟩ := event_eq_some fired
    exact ⟨stopping.trans serving.running, idle ▸ serving.undecided⟩

theorem Serving.step (serving : s.Serving) (step : s.Step ep self n a t) : t.Serving := by
  have sane : t.Sane := by
    refine serving.sane.step step fun w _ _ ended => ?_
    have open_ := serving.undecided w
    rw [ended] at open_
    cases open_
  obtain ⟨allowed, done⟩ := step
  have frame : (t.idle = s.idle ∧ t.base.m_stopping = s.base.m_stopping) → t.Serving := fun same =>
    ⟨sane, same.2.trans serving.running, same.1 ▸ serving.undecided⟩
  cases a with
  | run w | switch w | leave w b => exact frame (call_eq_some done).2.2.2
  | idle w b =>
    simp only [act] at done
    split at done
    · obtain ⟨running, undecided⟩ := serving.idled (idleAct_idled done)
      exact ⟨sane, running, undecided⟩
    · cases done
  | submit w x =>
    obtain ⟨job, f, -, -, -, submitted⟩ := submit_eq_some allowed done
    exact frame (submit_frame submitted)
  | outside caller x => exact frame (submit_frame done)
  | autoStop =>
    cases done
    exact ⟨sane, serving.running, serving.undecided⟩

theorem Init.serving (init : s.Init) : s.Serving := by
  refine ⟨init.sane, ?_, ?_⟩
  · rw [init.base]
  · rw [init.idle]
    exact fun _ => rfl

theorem serving_of_reach (reach : Reach Init (Step ep self n) s) : s.Serving := by
  induction reach with
  | start init => exact init.serving
  | next _ step serving => exact serving.step step

/-- After `stop()`, as long as the workers are among themselves. -/
structure Draining (n : Nat) (s : Reactor K κ ω) : Prop where
  sane : s.Sane
  watched : s.Watched n

theorem Draining.step (draining : s.Draining n) (step : Guarded (WorkerStep ep self n) Prompt s a t) :
    t.Draining n := by
  refine ⟨draining.sane.step step.1.1 ?_, draining.watched.step draining.sane step.1 step.2⟩
  rintro w rfl
  exact step.2

/-- After `stop()` the workers leave nothing behind: at that moment a timer that is set or an event
that is registered has a worker that has yet to read them, and from then on no worker takes an entry
off the queue once its idle fiber has terminated. -/
theorem drained {as : List (Act κ ω)} (reach : Reach Init (Step ep self n) s) (some : 0 < n)
    (timers : s.timers.m_timers = [] ∨ ∃ w < n, (s.idle w).readsTimers)
    (pending : s.events.m_pendingEventCount = 0 ∨ ∃ w < n, (s.idle w).readsPending)
    (run : Run (Guarded (WorkerStep ep self n) Prompt) s.stop as t)
    (left : ∀ w < n, (t.worker w).pc = .stopped) :
    t.timers.m_timers = [] ∧ t.events.m_pendingEventCount = 0 ∧ t.scheduler.m_fibers = [] := by
  have serving := serving_of_reach reach
  have sane := serving.sane
  have start : s.stop.Draining n := by
    refine ⟨⟨sane.posted, sane.registered, sane.good, sane.queues, sane.wf⟩, timers, pending, ?_⟩
    exact .inr ⟨0, some, serving.undecided 0⟩
  have ended : t.Draining n := Run.invariant (fun _ _ _ => Draining.step) start run
  have done : ∀ w < n, t.idle w = .done := fun w member => ended.sane.posted.left w (left w member)
  refine ⟨ended.watched.timers.resolve_right ?_, ended.watched.pending.resolve_right ?_,
    ended.watched.queue.resolve_right ?_⟩ <;>
  · rintro ⟨w, member, reads⟩
    rw [done w member] at reads
    cases reads

/-- An `IOManager` after its constructor and `start()`. -/
def fresh : Reactor (Nat → Option Mask) Nat Unit where
  base := { m_stopping := false }
  timers := ⟨[], false, 10, fun _ => none⟩
  events := ⟨contextResize (fun i => { fd := i }) [] 32, 0, fun _ => none, fun _ => []⟩
  idle := fun _ => .head

theorem fresh_init : fresh.Init := ⟨rfl, ⟨rfl, rfl, rfl⟩, ⟨rfl, rfl⟩, rfl, rfl⟩

/-- A check that is enough for `Allowed`, for steps that submit nothing but timers. -/
def may (n : Nat) (s : Reactor K κ ω) : Act κ ω → Bool
  | .run w | .switch w => w < n
  | .idle w (.listExpiredCb now_ms now_timer) => w < n ∧ s.timers.Enabled (.listExpiredCb now_ms now_timer)
  | .idle w _ => w < n
  | .leave w a => w < n ∧ a.writes.isSome ∧ (s.worker w).pc ≠ .running .idle
  | .submit w (.timer op) => w < n ∧ (s.worker w).pc = .running .callback ∧ (s.worker w).cb_fiber.isSome ∧
      s.timers.Enabled op
  | .outside _ (.timer op) => s.timers.Enabled op
  | .submit _ _ | .outside _ _ | .autoStop => false

theorem may_allowed (self : SchedId) (may : s.may n a) : s.Allowed n self a := by
  cases a with
  | run | switch | leave =>
    have held := of_decide_eq_true may
    exact held
  | idle w b =>
    cases b <;>
    · have held := of_decide_eq_true may
      exact held
  | submit w x =>
    cases x with
    | timer op =>
      obtain ⟨member, pc, fiber, enabled⟩ := of_decide_eq_true may
      obtain ⟨f, fiber⟩ := Option.isSome_iff_exists.mp fiber
      exact ⟨member, .callback, f, pc, nofun, fiber, enabled⟩
    | _ => cases may
  | outside caller x =>
    cases x with
    | timer op =>
      have held := of_decide_eq_true may
      exact held
    | _ => cases may
  | autoStop => cases may

/-- A check that is enough for `Prompt`. -/
def isPrompt (s : Reactor K κ ω) : Act κ ω → Bool
  | .run w =>
    match s.idle w with
    | .done => s.scheduler.m_fibers.isEmpty
    | _ => true
  | .idle _ (.getNextTimer now_ms) => now_ms ≠ 0
  | _ => true

theorem prompt_of_isPrompt (prompt : s.isPrompt a) : s.Prompt a t := by
  cases a with
  | run w =>
    rintro ⟨-, -, ft, rest, found⟩ ended
    simp only [isPrompt, ended, List.isEmpty_iff] at prompt
    rw [prompt] at found
    cases found
  | idle w b =>
    cases b with
    | getNextTimer now_ms =>
      have past := of_decide_eq_true prompt
      exact past
    | _ => trivial
  | _ => trivial

/-- Not a step of another thread. -/
def Act.inside : Act κ ω → Bool
  | .outside _ _ | .autoStop => false
  | _ => true

/-- A step with the checks. -/
def perform (n : Nat) (check : Reactor (Nat → Option Mask) κ ω → Act κ ω → Bool)
    (s : Reactor (Nat → Option Mask) κ ω) (a : Act κ ω) : Option (Reactor (Nat → Option Mask) κ ω) :=
  if s.may n a && check s a then s.act interestList 0 a else none

theorem perform_eq_some {check : Reactor (Nat → Option Mask) κ ω → Act κ ω → Bool}
    {s t : Reactor (Nat → Option Mask) κ ω} (done : perform n check s a = some t) :
    s.Step interestList 0 n a t ∧ check s a := by
  rw [perform] at done
  split at done
  · rename_i checks
    rw [Bool.and_eq_true] at checks
    exact ⟨⟨may_allowed 0 checks.1, done⟩, checks.2⟩
  · cases done

theorem Step.inside (step : s.Step ep self n a t) (inside : a.inside) : s.WorkerStep ep self n a t := by
  refine ⟨step, ?_, ?_⟩
  · rintro rfl
    cases inside
  · rintro caller x rfl
    cases inside

/-- The worker goes into its idle fiber and finds no timer. -/
def enters (w : Nat) : List (Act Nat Unit) := [.run w, .run w, .run w, .run w, .idle w (.getNextTimer 20)]

/-- It finds nothing else to wait for, and leaves. -/
def leaves (w : Nat) : List (Act Nat Unit) :=
  [.idle w .readPending, .idle w .stopping, .idle w (.getNextTimer 20), .idle w .finish, .switch w, .run w, .run w,
   .run w, .run w]

/-- A timer has been set, and the worker 0 waits for it. -/
def waiting : List (Act Nat Unit) :=
  [.outside ⟨none, 0, .EXEC⟩ (.timer (.addTimer 1 5 (some (.plain 7)) false 10)), .run 0, .run 0, .run 0, .run 0,
   .idle 0 (.getNextTimer 12), .idle 0 .epoll_wait]

/-- The worker 1 schedules the function of the timer, and the worker 0 runs it, which sets another timer. -/
def setsAnother : List (Act Nat Unit) :=
  [.run 1, .run 1, .run 1, .run 1, .idle 1 (.getNextTimer 20), .idle 1 .epoll_wait, .idle 1 (.listExpiredCb 20 9),
   .idle 1 .schedule, .idle 1 .swapOut, .switch 1, .run 1, .run 1, .run 1,
   .idle 0 (.listExpiredCb 20 9), .idle 0 .swapOut, .switch 0, .run 0, .run 0, .run 0, .run 0, .run 0, .run 0,
   .run 1, .run 1, .run 1, .submit 0 (.timer (.addTimer 2 5 (some (.plain 8)) false 20)), .leave 0 .finish, .switch 0,
   .run 0, .run 0, .run 0]

/-- The worker 0 reads that no timer is left when the worker 1 has the function of the other in its hands,
but it does not find the queue empty. The worker 1 runs the function. -/
def runsAnother : List (Act Nat Unit) :=
  [.idle 1 (.getNextTimer 30), .idle 1 .epoll_wait, .idle 1 (.listExpiredCb 30 9), .run 0, .run 0, .run 0,
   .idle 0 (.getNextTimer 30), .idle 0 .readPending, .idle 1 .schedule, .idle 0 .stopping, .idle 0 .epoll_wait,
   .idle 1 .swapOut, .switch 1, .run 1, .run 1, .run 1, .run 1, .run 1, .run 1,
   .idle 0 (.listExpiredCb 30 9), .idle 0 .swapOut, .switch 0, .run 0, .run 0, .run 0,
   .leave 1 .finish, .switch 1, .run 1, .run 1, .run 1]

/-- Then both leave. -/
def drains : List (Act Nat Unit) :=
  setsAnother ++ runsAnother ++ [.run 0, .run 0, .run 0, .idle 0 (.getNextTimer 30)] ++ leaves 0 ++
  [.run 1, .run 1, .run 1, .idle 1 (.getNextTimer 30)] ++ leaves 1

theorem drained_waiting : ∃ s t : Reactor (Nat → Option Mask) Nat Unit, Reach Init (Step interestList 0 2) s ∧
    s.timers.m_timers = [1] ∧ Run (Guarded (WorkerStep interestList 0 2) Prompt) s.stop drains t ∧
    (∀ w < 2, (t.worker w).pc = .stopped) ∧
    t.timers.m_timers = [] ∧ t.events.m_pendingEventCount = 0 ∧ t.scheduler.m_fibers = [] := by
  have run : ∃ s t : Reactor (Nat → Option Mask) Nat Unit, acts (perform 2 fun _ _ => true) fresh waiting = some s ∧
      acts (perform 2 fun s a => s.isPrompt a && a.inside) s.stop drains = some t ∧ s.timers.m_timers = [1] ∧
      s.events.m_pendingEventCount = 0 ∧ (s.idle 1).readsTimers ∧ (t.worker 0).pc = .stopped ∧
      (t.worker 1).pc = .stopped := ⟨_, _, rfl, rfl, rfl, rfl, rfl, rfl, rfl⟩
  obtain ⟨s, t, before, done, timers, pending, reads, first, second⟩ := run
  have reach : Reach Init (Step interestList 0 2) s := by
    refine (Reach.start fresh_init).run ((run_of_acts _ before).mono fun _ _ _ performed => ?_)
    exact (perform_eq_some performed).1
  have steps : Run (Guarded (WorkerStep interestList 0 2) Prompt) s.stop drains t := by
    refine (run_of_acts _ done).mono fun s a t performed => ?_
    obtain ⟨step, checks⟩ := perform_eq_some performed
    rw [Bool.and_eq_true] at checks
    exact ⟨step.inside checks.2, prompt_of_isPrompt checks.1⟩
  have left : ∀ w < 2, (t.worker w).pc = .stopped := by
    intro w member
    rcases Nat.lt_succ_iff_lt_or_eq.mp member with zero | rfl
    · exact Nat.lt_one_iff.mp zero ▸ first
    · exact second
  exact ⟨s, t, reach, timers, steps, left,
    drained reach (by decide) (.inr ⟨1, by decide, reads⟩) (.inl pending) steps left⟩

/-- Another thread sets a timer when the worker 0 has read that there is none. -/
def setEarly : List (Act Nat Unit) :=
  enters 0 ++ [.outside ⟨none, 0, .EXEC⟩ (.timer (.addTimer 1 5 (some (.plain 7)) false 10))]

/-- The worker 1 has the function of an expired timer in its hands while the worker 0 is about to read. -/
def expired : List (Act Nat Unit) :=
  [.outside ⟨none, 0, .EXEC⟩ (.timer (.addTimer 1 5 (some (.plain 7)) false 10)), .run 1, .run 1, .run 1, .run 1,
   .idle 1 (.getNextTimer 20), .idle 1 .epoll_wait, .idle 1 (.listExpiredCb 20 9), .run 0, .run 0, .run 0, .run 0]

/-- The idle fiber of the worker 0 terminates; then the worker 1 schedules the function, and the
worker 0 runs it, which sets a timer after the worker 1 has read that there is none. -/
def pickedUpLate : List (Act Nat Unit) :=
  [.idle 0 (.getNextTimer 20), .idle 0 .readPending, .idle 0 .stopping, .idle 0 (.getNextTimer 20), .idle 0 .finish,
   .switch 0, .run 0, .run 0,
   .idle 1 .schedule, .idle 1 .swapOut, .switch 1, .run 1, .run 1, .run 1,
   .run 0, .run 1, .run 1, .run 1, .idle 1 (.getNextTimer 20), .run 0, .run 0,
   .submit 0 (.timer (.addTimer 2 5 (some (.plain 8)) false 20)), .leave 0 .finish, .switch 0, .run 0, .run 0, .run 0] ++
  leaves 1 ++ [.run 0, .run 0]

/-- The workers leave a timer behind: one that was set between the reads of a worker before `stop()`,
and one that was set by a task that a worker took after its idle fiber had terminated. -/
theorem not_drained :
    (∃ s t : Reactor (Nat → Option Mask) Nat Unit, Reach Init (Step interestList 0 1) s ∧
      Run (WorkerStep interestList 0 1) s.stop (leaves 0) t ∧ (∀ w < 1, (t.worker w).pc = .stopped) ∧
      t.timers.m_timers = [1]) ∧
    ∃ s t : Reactor (Nat → Option Mask) Nat Unit, Reach Init (Step interestList 0 2) s ∧
      Run (WorkerStep interestList 0 2) s.stop pickedUpLate t ∧ (∀ w < 2, (t.worker w).pc = .stopped) ∧
      t.timers.m_timers = [2] := by
  have early : ∃ s t : Reactor (Nat → Option Mask) Nat Unit,
      acts (perform 1 fun _ _ => true) fresh setEarly = some s ∧
      acts (perform 1 fun _ a => a.inside) s.stop (leaves 0) = some t ∧
      (t.worker 0).pc = .stopped ∧ t.timers.m_timers = [1] := ⟨_, _, rfl, rfl, rfl, rfl⟩
  have late : ∃ s t : Reactor (Nat → Option Mask) Nat Unit,
      acts (perform 2 fun _ _ => true) fresh expired = some s ∧
      acts (perform 2 fun _ a => a.inside) s.stop pickedUpLate = some t ∧
      (t.worker 0).pc = .stopped ∧ (t.worker 1).pc = .stopped ∧ t.timers.m_timers = [2] :=
    ⟨_, _, rfl, rfl, rfl, rfl, rfl⟩
  have reached : ∀ {n as} {s : Reactor (Nat → Option Mask) Nat Unit},
      acts (perform n fun _ _ => true) fresh as = some s → Reach Init (Step interestList 0 n) s := by
    intro n as s done
    exact (Reach.start fresh_init).run ((run_of_acts _ done).mono fun _ _ _ performed => (perform_eq_some performed).1)
  have ran : ∀ {n as} {s t : Reactor (Nat → Option Mask) Nat Unit},
      acts (perform n fun _ a => a.inside) s as = some t → Run (WorkerStep interestList 0 n) s as t := by
    intro n as s t done
    refine (run_of_acts _ done).mono fun _ _ _ performed => ?_
    obtain ⟨step, inside⟩ := perform_eq_some performed
    exact step.inside inside
  obtain ⟨s, t, before, after, stopped, timers⟩ := early
  obtain ⟨u, v, beforeLate, afterLate, first, second, timersLate⟩ := late
  refine ⟨⟨s, t, reached before, ran after, ?_, timers⟩, u, v, reached beforeLate, ran afterLate, ?_, timersLate⟩
  · exact fun w member => Nat.lt_one_iff.mp member ▸ stopped
  · intro w member
    rcases Nat.lt_succ_iff_lt_or_eq.mp member with zero | rfl
    · exact Nat.lt_one_iff.mp zero ▸ first
    · exact second

end Sylar.Reactor
