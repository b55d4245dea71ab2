import Sylar.ReactorDrain

/-! The thread that `schedule(fc, thread)` names. It is a field of the queue entry, and the entries
that `Scheduler::run` and `FdContext::triggerEvent` make name no thread. -/

namespace Sylar
open Machine

variable {K κ ω : Type}

namespace Scheduler

variable {s t : Scheduler κ} {me after : Worker κ} {thread : Int} {a : Act κ}

/-- The selection loop takes no entry that names another thread. -/
theorem selectFrom_thread {m_state : FiberId → FiberState} {queue rest : List (FiberAndThread κ)}
    {ft : FiberAndThread κ} (found : selectFrom m_state thread queue = .entry ft rest) :
    ft.thread = -1 ∨ ft.thread = thread := by
  induction queue generalizing rest with
  | nil => cases found
  | cons it queue ih =>
    have deeper : ∀ {other}, (selectFrom m_state thread queue).skip it = .entry ft other →
        ft.thread = -1 ∨ ft.thread = thread := by
      intro other skipped
      cases tail : selectFrom m_state thread queue with
      | nothing | assertion => rw [tail] at skipped; cases skipped
      | entry head back =>
        rw [tail] at skipped
        cases skipped
        exact ih tail
    rw [selectFrom] at found
    split at found
    · exact deeper found
    rename_i mine
    split at found
    · cases found
    split at found
    · exact deeper found
    · cases found
      by_contra foreign
      rw [not_or] at foreign
      exact mine foreign

/-- A worker keeps its entry, drops it, or takes one off the queue that names no other thread. -/
theorem Acted.ft_taken (acted : s.Acted thread me a t after) :
    after.ft = me.ft ∨ after.ft = {} ∨
      after.ft ∈ s.m_fibers ∧ (after.ft.thread = -1 ∨ after.ft.thread = thread) := by
  cases acted with
  | run ran =>
    cases ran with
    | entry _ found =>
      exact .inr (.inr ⟨(selectFrom_entry found).mem_iff.mpr List.mem_cons_self, selectFrom_thread found⟩)
    | start | resetCallback | newCallback | drop | ended | reschedule | hold => exact .inr (.inl rfl)
    | _ => exact .inl rfl
  | leave | swapOut | switch | newFiber | schedule => exact .inl rfl

theorem select_m_fibers (select : me.pc = .select) (done : s.act thread me .run = some (t, after)) :
    t.m_fibers ⊆ s.m_fibers ∧ t.m_fibers.length ≤ s.m_fibers.length := by
  simp only [act, runStep, select] at done
  split at done
  · cases done
  · cases done
    exact ⟨fun _ member => member, Nat.le_refl _⟩
  · rename_i ft rest found
    cases done
    have perm := selectFrom_entry found
    have shorter : rest.length < s.m_fibers.length := by
      rw [perm.length_eq, List.length_cons]
      exact Nat.lt_succ_self _
    exact ⟨fun _ member => perm.mem_iff.mpr (List.mem_cons_of_mem _ member), Nat.le_of_lt shorter⟩

/-- An entry that is made without a call of `schedule(fc, thread)` names no thread. -/
theorem offered_thread {c : Call κ} {ft : FiberAndThread κ} (member : ft ∈ offered me c) :
    ft.thread = -1 ∨ c = .act (.schedule ft) ∨ ∃ fc thread, c = .schedule fc thread ∧ ft = (fc.entry thread).1 := by
  cases c with
  | act a =>
    cases a with
    | run =>
      simp only [offered] at member
      split at member
      · rw [List.mem_singleton.mp member]
        exact .inl rfl
      · cases member
    | schedule other =>
      rw [List.mem_singleton.mp member]
      exact .inr (.inl rfl)
    | _ => cases member
  | schedule fc thread => exact .inr (.inr ⟨fc, thread, rfl, List.mem_singleton.mp member⟩)
  | scheduleRange range =>
    cases range <;>
    · obtain ⟨task, -, rfl⟩ := List.mem_map.mp member
      exact .inl rfl

end Scheduler

namespace Reactor

/-- What a step has put at the back of `m_fibers`. -/
def appended (s t : Reactor K κ ω) : List (FiberAndThread (Callback κ ω)) :=
  t.scheduler.m_fibers.drop s.scheduler.m_fibers.length

/-- The entry that a call of `schedule(fc, thread)` makes. -/
def Act.asks : Act κ ω → Option (FiberAndThread (Callback κ ω))
  | .submit _ (.schedule fc thread) | .outside _ (.schedule fc thread) => some (fc.entry thread).1
  | _ => none

/-- The step is the `swapIn` of the fiber on the worker `w`. -/
def SwapsIn (s : Reactor K κ ω) (a : Act κ ω) (w : Nat) (f : FiberId) : Prop :=
  a = .run w ∧ ∃ job, (s.worker w).pc = .swapIn job ∧ (s.worker w).jobFiber job = some f

/-- Every queue entry of the fiber names the thread `T`, and no other worker has the fiber. -/
structure Bound (s : Reactor K κ ω) (f : FiberId) (T : Int) : Prop where
  born : f < s.scheduler.fibers
  queue : ∀ ft ∈ s.scheduler.m_fibers, ft.fiber = some f → ft.thread = T
  hands : ∀ w job, (s.worker w).jobFiber job = some f → (w : Int) = T

/-- Nothing has been done with the fiber yet: it is in no queue entry and no worker has it. -/
structure Unused (s : Reactor K κ ω) (f : FiberId) : Prop where
  born : f < s.scheduler.fibers
  queue : ∀ ft ∈ s.scheduler.m_fibers, ft.fiber ≠ some f
  hands : ∀ w job, (s.worker w).jobFiber job ≠ some f

variable {ep : Epoll K} {self : SchedId} {n : Nat} {s t : Reactor K κ ω} {w : Nat} {a : Act κ ω}
variable {f : FiberId} {T : Int}

theorem Unused.bound (unused : s.Unused f) (T : Int) : s.Bound f T where
  born := unused.born
  queue ft member fiber := absurd fiber (unused.queue ft member)
  hands w job fiber := absurd fiber (unused.hands w job)

/-- What a step does to the workers and the queue: it is a call on the scheduler, or it appends
continuations of events, or it does nothing to them. -/
inductive Moves (s : Reactor K κ ω) (a : Act κ ω) (t : Reactor K κ ω) : Prop
  | call {w c} : s.base.workers.call w c = some t.base.workers → (∀ ft, c ≠ .act (.schedule ft)) →
      (∀ fc thread, c = .schedule fc thread → a.asks = some (fc.entry thread).1) → Moves s a t
  | event {new} : t.base.workers.worker = s.base.workers.worker → t.scheduler.fibers = s.scheduler.fibers →
      t.scheduler.m_fibers = s.scheduler.m_fibers ++ new → (∀ ft ∈ new, ft.thread = -1) → Moves s a t
  | still : t.base.workers = s.base.workers → Moves s a t

theorem moves_event {op : EventOp (Callback κ ω)} (sane : s.Sane) (done : s.event ep self op = some t) :
    s.Moves a t := by
  rw [Reactor.event] at done
  split at done
  · rename_i out events executed
    cases done
    have refines := sane.good.refines ep (l := (op, out)) executed
    refine .event rfl rfl rfl fun ft member => ?_
    rw [refines.queues, sane.queues] at member
    obtain ⟨change, -, appended⟩ := List.mem_filterMap.mp member
    obtain ⟨slot, x, -, -, rfl⟩ := Change.appended_eq_some appended
    cases x.task <;> rfl
  · cases done

theorem moves_timer {op : TimerOp κ ω} {out : TimerOut κ ω} (done : s.timer op = some (out, t)) : s.Moves a t := by
  obtain ⟨timers, -, rfl⟩ := timer_eq_some done
  exact .still rfl

theorem moves_submit {caller : Caller} {x : Submit κ ω} (sane : s.Sane)
    (asks : ∀ fc thread, x = .schedule fc thread → a.asks = some (fc.entry thread).1)
    (done : s.submit ep self w caller x = some t) : s.Moves a t := by
  cases x with
  | timer op =>
    obtain ⟨⟨out, u⟩, executed, same⟩ := Option.map_eq_some_iff.mp done
    cases same
    exact moves_timer executed
  | addEvent | delEvent | cancelEvent | cancelAll => exact moves_event sane done
  | schedule fc thread =>
    refine .call (c := .schedule fc thread) (call_eq_some done).1 nofun ?_
    rintro _ _ ⟨⟩
    exact asks fc thread rfl
  | scheduleRange range => exact .call (c := .scheduleRange range) (call_eq_some done).1 nofun nofun
  | newFiber => exact .call (c := .act .newFiber) (call_eq_some done).1 nofun nofun

theorem moves_idled {b : IdleAct} (sane : s.Sane) (idled : s.Idled ep self w b t) : s.Moves a t := by
  cases idled with
  | getNextTimer _ executed | exit _ executed | listExpiredCb _ executed =>
    obtain ⟨timers, -, rfl⟩ := timer_eq_some executed
    exact .still rfl
  | readPending | stopping | epoll_wait => exact .still rfl
  | schedule _ called => exact .call (call_eq_some called).1 nofun nofun
  | finish _ called | swapOut _ called => exact .call (call_eq_some called).1 nofun nofun
  | report _ fired => exact moves_event sane fired

theorem Step.moves (sane : s.Sane) (step : s.Step ep self n a t) : s.Moves a t := by
  obtain ⟨allowed, done⟩ := step
  cases a with
  | run w | switch w =>
    exact .call (call_eq_some done).1 (fun _ label => by cases label) fun _ _ label => by cases label
  | idle w b =>
    simp only [act] at done
    split at done
    · exact moves_idled sane (idleAct_idled done)
    · cases done
  | leave w b =>
    refine .call (call_eq_some done).1 ?_ fun _ _ label => by cases label
    rintro ft ⟨⟩
    cases allowed.2.1
  | submit w x =>
    obtain ⟨job, f, -, -, -, submitted⟩ := submit_eq_some allowed done
    refine moves_submit sane ?_ submitted
    rintro fc thread rfl
    rfl
  | outside caller x =>
    refine moves_submit sane ?_ done
    rintro fc thread rfl
    rfl
  | autoStop =>
    cases done
    exact .still rfl

/-- The queue loses the entry that a selection takes, or it grows by entries that name no thread and
by the one that `schedule(fc, thread)` is asked for. -/
theorem Moves.m_fibers (moves : s.Moves a t) :
    (t.scheduler.m_fibers ⊆ s.scheduler.m_fibers ∧ t.scheduler.m_fibers.length ≤ s.scheduler.m_fibers.length) ∨
    ∃ new, t.scheduler.m_fibers = s.scheduler.m_fibers ++ new ∧ ∀ ft ∈ new, ft.thread = -1 ∨ a.asks = some ft := by
  cases moves with
  | @call w c called notSchedule asks =>
    by_cases selects : s.base.workers.Selects (w, c)
    · match c, selects, called with
      | .act .run, select, called =>
        exact .inl (Scheduler.select_m_fibers select (Workers.act_eq_some called).1)
    · refine .inr ⟨_, Workers.call_m_fibers (l := (w, c)) called selects, fun ft member => ?_⟩
      rcases Scheduler.offered_thread (List.mem_filter.mp member).1 with none | act | ⟨fc, thread, rfl, rfl⟩
      · exact .inl none
      · exact absurd act (notSchedule ft)
      · exact .inr (asks fc thread rfl)
  | event _ _ queue none => exact .inr ⟨_, queue, fun ft member => .inl (none ft member)⟩
  | still same =>
    refine .inl ?_
    rw [scheduler, same]
    exact ⟨fun _ member => member, Nat.le_refl _⟩

/-- What is in the queue after a step was there before or is appended by it. -/
theorem Moves.mem (moves : s.Moves a t) {ft : FiberAndThread (Callback κ ω)} (member : ft ∈ t.scheduler.m_fibers) :
    ft ∈ s.scheduler.m_fibers ∨ ft ∈ s.appended t := by
  rcases moves.m_fibers with ⟨old, -⟩ | ⟨new, queue, -⟩
  · exact .inl (old member)
  · rw [queue] at member
    rw [appended, queue, List.drop_left]
    exact List.mem_append.mp member

/-- The entries that `Scheduler::run` and the events make name no thread. -/
theorem Moves.appended (moves : s.Moves a t) {ft : FiberAndThread (Callback κ ω)} (member : ft ∈ s.appended t) :
    ft.thread = -1 ∨ a.asks = some ft := by
  rcases moves.m_fibers with ⟨-, short⟩ | ⟨new, queue, names⟩
  · rw [Reactor.appended, List.drop_eq_nil_of_le short] at member
    cases member
  · rw [Reactor.appended, queue, List.drop_left] at member
    exact names ft member

theorem Moves.fibers (moves : s.Moves a t) : s.scheduler.fibers ≤ t.scheduler.fibers := by
  cases moves with
  | @call w c called =>
    cases c with
    | act b => exact Workers.act_fibers called
    | schedule fc thread => exact Workers.act_fibers (a := .schedule (fc.entry thread).1) called
    | scheduleRange range =>
      rw [scheduler, scheduler, Workers.scheduleRange_eq_some called]
      rfl
  | event _ fibers => exact fibers ▸ Nat.le_refl _
  | still same =>
    rw [scheduler, scheduler, same]

/-- A worker is left alone or takes a step. -/
theorem Moves.worker (moves : s.Moves a t) (v : Nat) :
    t.worker v = s.worker v ∨ ∃ b, s.scheduler.Acted v (s.worker v) b t.scheduler (t.worker v) := by
  have acted : ∀ {w : Nat} {b}, s.base.workers.act w b = some t.base.workers →
      t.worker v = s.worker v ∨ ∃ b, s.scheduler.Acted v (s.worker v) b t.scheduler (t.worker v) := by
    intro w b done
    obtain ⟨mine, others⟩ := Workers.act_eq_some done
    by_cases same : v = w
    · subst same
      exact .inr ⟨b, Scheduler.act_acted mine⟩
    · exact .inl (others v same)
  cases moves with
  | @call w c called =>
    cases c with
    | act b => exact acted called
    | schedule fc thread => exact acted (b := .schedule (fc.entry thread).1) called
    | scheduleRange range =>
      refine .inl ?_
      rw [Reactor.worker, Reactor.worker, Workers.scheduleRange_eq_some called]
  | event workers => exact .inl (congrFun workers v)
  | still same =>
    refine .inl ?_
    rw [Reactor.worker, Reactor.worker, same]

/-- A worker that has an older fiber after a step had it before, or takes an entry of it that names no
other thread. -/
theorem Moves.jobFiber (moves : s.Moves a t) (born : f < s.scheduler.fibers) {v : Nat} {job : Job}
    (fiber : (t.worker v).jobFiber job = some f) : (s.worker v).jobFiber job = some f ∨
      ∃ ft ∈ s.scheduler.m_fibers, ft.fiber = some f ∧ (ft.thread = -1 ∨ ft.thread = v) := by
  rcases moves.worker v with same | ⟨b, acted⟩
  · exact .inl (same ▸ fiber)
  cases job with
  | fiber =>
    simp only [Worker.jobFiber] at fiber ⊢
    rcases acted.ft_taken with kept | dropped | ⟨member, thread⟩
    · exact .inl (kept ▸ fiber)
    · rw [dropped] at fiber
      cases fiber
    · exact .inr ⟨_, member, fiber, thread⟩
  | callback =>
    rcases acted.cb_fiber fiber with kept | ⟨fresh, -⟩
    · exact .inl kept
    · exact absurd fresh (Nat.ne_of_lt born)
  | idle =>
    rcases acted.idle_fiber with ⟨kept, -⟩ | ⟨fresh, -⟩
    · exact .inl (kept.symm.trans fiber)
    · exact absurd (Option.some.inj (fiber.symm.trans fresh)) (Nat.ne_of_lt born)

/-- A bound fiber stays bound over a step exactly when every entry of it that the step appends names
the thread. -/
theorem Bound.step (bound : s.Bound f T) (named : 0 ≤ T) (moves : s.Moves a t) :
    t.Bound f T ↔ ∀ ft ∈ s.appended t, ft.fiber = some f → ft.thread = T := by
  constructor
  · intro after ft member fiber
    exact after.queue ft (List.mem_of_mem_drop member) fiber
  · intro appended
    refine ⟨Nat.lt_of_lt_of_le bound.born moves.fibers, ?_, ?_⟩
    · intro ft member fiber
      rcases moves.mem member with old | new
      · exact bound.queue ft old fiber
      · exact appended ft new fiber
    · intro v job fiber
      rcases moves.jobFiber bound.born fiber with old | ⟨ft, member, fiber, thread⟩
      · exact bound.hands v job old
      · have mine := bound.queue ft member fiber
        omega

/-- A worker has only taken entries that name no thread or its own. -/
theorem ft_thread_of_reach (reach : Reach Init (Step ep self n) s) (w : Nat) :
    (s.worker w).ft.thread = -1 ∨ (s.worker w).ft.thread = w := by
  induction reach with
  | start init =>
    rw [worker, init.base]
    exact .inl rfl
  | next before step ih =>
    have moves := step.moves (serving_of_reach before).sane
    rcases moves.worker w with same | ⟨b, acted⟩
    · exact same ▸ ih
    · rcases acted.ft_taken with kept | dropped | ⟨-, thread⟩
      · exact kept ▸ ih
      · rw [dropped]
        exact .inl rfl
      · exact thread

/-- The affinity is that of a queue entry: only the worker that it names takes it, and every entry
that is made other than by `schedule(fc, thread)` names no thread. A fiber that is bound to the thread
`T`, as an unused one is, remains so, and is swapped in by the worker `T` only, in exactly those runs
in which every entry that is made of it names `T`. -/
theorem affinity_of_entries (reach : Reach Init (Step ep self n) s) :
    (∀ w, (s.worker w).ft.thread = -1 ∨ (s.worker w).ft.thread = w) ∧
    (∀ a t, s.Step ep self n a t → ∀ ft ∈ s.appended t, ft.thread = -1 ∨ a.asks = some ft) ∧
    ∀ f T as t, s.Bound f T → 0 ≤ T →
      (Run (Guarded (Step ep self n) fun u _ v => ∀ ft ∈ u.appended v, ft.fiber = some f → ft.thread = T) s as t ↔
      Run (Guarded (Step ep self n) fun u a v => (∀ w, u.SwapsIn a w f → w = T) ∧ v.Bound f T) s as t) := by
  have serving := serving_of_reach reach
  refine ⟨ft_thread_of_reach reach, fun a t step ft => (step.moves serving.sane).appended, ?_⟩
  intro f T as t bound named
  refine Run.guarded_congr (fun u => u.Serving ∧ u.Bound f T) ?_ ?_ ⟨serving, bound⟩
  · rintro u a v ⟨serving, bound⟩ step
    rw [← bound.step named (step.moves serving.sane)]
    refine ⟨fun after => ⟨?_, after⟩, And.right⟩
    rintro w ⟨-, job, -, fiber⟩
    exact bound.hands w job fiber
  · rintro u a v ⟨serving, bound⟩ step names
    exact ⟨serving.step step, (bound.step named (step.moves serving.sane)).mpr names⟩

/-- A fresh manager for which somebody has made the fiber 0. -/
def made : Reactor (Nat → Option Mask) Nat Unit :=
  { fresh with base := { m_stopping := false, workers := { scheduler := ({} : Scheduler _).newFiber.2 } } }

/-- The fiber 0 is scheduled with a thread. -/
def handed (thread : Int) : Reactor (Nat → Option Mask) Nat Unit :=
  made.setWorkers { scheduler := made.scheduler.schedule { fiber := some 0, thread := thread } }

def scheduled (thread : Int) : Act Nat Unit := .outside ⟨none, 0, .EXEC⟩ (.schedule (.fiber (some 0)) thread)

theorem made_reach (n : Nat) : Reach Init (Step interestList 0 n) made := by
  have done : fresh.act interestList 0 (.outside ⟨none, 0, .EXEC⟩ .newFiber) = some made :=
    congrArg (fun worker => some (fresh.setWorkers { scheduler := made.scheduler, worker := worker }))
      (Function.update_eq_self 0 fresh.worker)
  have step : fresh.Step interestList 0 n (.outside ⟨none, 0, .EXEC⟩ .newFiber) made := ⟨trivial, done⟩
  exact .next (.start fresh_init) step

theorem made_unused : made.Unused 0 := by
  refine ⟨by decide, nofun, fun w job => ?_⟩
  cases job <;> nofun

theorem made_handed (n : Nat) (thread : Int) : made.Step interestList 0 n (scheduled thread) (handed thread) := by
  constructor
  · rintro f ⟨⟩
    exact ⟨by decide, fun w => nofun⟩
  · exact congrArg (fun worker => some (made.setWorkers { scheduler := (handed thread).scheduler, worker := worker }))
      (Function.update_eq_self 0 made.worker)

/-- The worker begins and swaps in the first entry that it may take. -/
def swapsIn (w : Nat) : List (Act Nat Unit) := [.run w, .run w, .run w, .run w]

/-- Every entry of the fiber 0 that the step makes names the thread 1. -/
def handsToOne (s : Reactor (Nat → Option Mask) Nat Unit) (a : Act Nat Unit) : Bool :=
  (s.act interestList 0 a).all fun t => (s.appended t).all fun ft => ft.fiber ≠ some 0 || ft.thread = 1

theorem hands_of_performed {s t : Reactor (Nat → Option Mask) Nat Unit} {a : Act Nat Unit}
    (performed : perform 2 handsToOne s a = some t) :
    Guarded (Step interestList 0 2) (fun u _ v => ∀ ft ∈ u.appended v, ft.fiber = some 0 → ft.thread = 1) s a t := by
  obtain ⟨step, hands⟩ := perform_eq_some performed
  rw [handsToOne, step.2, Option.all_some, List.all_eq_true] at hands
  exact ⟨step, fun ft member fiber => by simpa [fiber] using hands ft member⟩

/-- The fiber yields HOLD, and the worker puts it down. -/
def holds (w : Nat) : List (Act Nat Unit) := [.leave w .YieldToHold, .switch w, .run w, .run w, .run w]

/-- The fiber has run on the worker 1 and waits; it is woken with that thread, the worker 0 passes its entry over, and
the worker 1 goes on with it. -/
theorem affinity_of_entries_woken : ∃ t : Reactor (Nat → Option Mask) Nat Unit,
    Run (Guarded (Step interestList 0 2) fun u a v => (∀ w, u.SwapsIn a w 0 → w = (1 : Int)) ∧ v.Bound 0 1) made
      (scheduled 1 :: (swapsIn 1 ++ holds 1) ++ scheduled 1 :: (enters 0 ++ [.run 1, .run 1, .run 1])) t ∧
    t.base.workers.Executing 1 0 := by
  have run : ∃ s t u : Reactor (Nat → Option Mask) Nat Unit,
      acts (perform 2 handsToOne) (handed 1) (swapsIn 1 ++ holds 1) = some s ∧ s.Named 0 ∧
      s.act interestList 0 (scheduled 1) = some t ∧ (s.appended t).map FiberAndThread.thread = [1] ∧
      acts (perform 2 handsToOne) t (enters 0 ++ [.run 1, .run 1, .run 1]) = some u ∧
      u.base.workers.Executing 1 0 := by
    refine ⟨_, _, _, rfl, ⟨by decide, fun w => ?_⟩, rfl, rfl, rfl, .fiber, .inl rfl, rfl⟩
    match w with
    | 0 | 1 | w + 2 => nofun
  obtain ⟨s, t, u, first, named, woken, entries, rest, executing⟩ := run
  refine ⟨u, ((affinity_of_entries (made_reach 2)).2.2 0 1 _ u (made_unused.bound 1) (by decide)).mp ?_, executing⟩
  refine .append (.cons ⟨made_handed 2 1, by decide⟩ ((run_of_acts _ first).mono fun _ _ _ => hands_of_performed))
    (.cons ⟨⟨?_, woken⟩, fun ft member _ => ?_⟩ ((run_of_acts _ rest).mono fun _ _ _ => hands_of_performed))
  · rintro f ⟨⟩
    exact named
  · have threads := List.mem_map_of_mem (f := FiberAndThread.thread) member
    rw [entries] at threads
    exact List.mem_singleton.mp threads

/-- The fiber yields READY, and `Scheduler::run` schedules it again. -/
def yields : List (Act Nat Unit) := [.leave 0 .YieldToReady, .switch 0, .run 0, .run 0, .run 0]

/-- The fiber waits for an event, which the worker 1 reports. -/
def waits : List (Act Nat Unit) :=
  holds 0 ++ enters 1 ++
  [.idle 1 .readPending, .idle 1 .epoll_wait, .idle 1 (.listExpiredCb 20 9), .idle 1 (.report 5 Event.READ.bits),
   .idle 1 .swapOut, .switch 1, .run 1, .run 1, .run 1]

/-- A fiber that was scheduled with the thread 0 alone is swapped in on the worker 1, after it has
yielded READY on the worker 0, and after it has waited for an event there. -/
theorem not_affine : made.Unused 0 ∧ Reach Init (Step interestList 0 2) made ∧
    (∃ t, Run (Step interestList 0 2) made (scheduled 0 :: swapsIn 0 ++ yields ++ swapsIn 1) t ∧
      t.base.workers.Executing 1 0) ∧
    ∃ t, Run (Step interestList 0 2) made
      (scheduled 0 :: swapsIn 0 ++ [.submit 0 (.addEvent 5 .READ none)] ++ waits ++ [.run 1, .run 1, .run 1]) t ∧
      t.base.workers.Executing 1 0 := by
  have ran : ∀ {as} {s t : Reactor (Nat → Option Mask) Nat Unit}, acts (perform 2 fun _ _ => true) s as = some t →
      Run (Step interestList 0 2) s as t := fun done =>
    (run_of_acts _ done).mono fun _ _ _ performed => (perform_eq_some performed).1
  refine ⟨made_unused, made_reach 2, ?_, ?_⟩
  · have run : ∃ t : Reactor (Nat → Option Mask) Nat Unit,
        acts (perform 2 fun _ _ => true) (handed 0) (swapsIn 0 ++ yields ++ swapsIn 1) = some t ∧
        t.base.workers.Executing 1 0 := ⟨_, rfl, .fiber, .inl rfl, rfl⟩
    obtain ⟨t, done, executing⟩ := run
    exact ⟨t, .cons (made_handed 2 0) (ran done), executing⟩
  · have run : ∃ s t u : Reactor (Nat → Option Mask) Nat Unit,
        acts (perform 2 fun _ _ => true) (handed 0) (swapsIn 0) = some s ∧
        (s.worker 0).pc = .running .fiber ∧ (s.worker 0).ft.fiber = some 0 ∧
        s.act interestList 0 (.submit 0 (.addEvent 5 .READ none)) = some t ∧
        acts (perform 2 fun _ _ => true) t (waits ++ [.run 1, .run 1, .run 1]) = some u ∧
        u.base.workers.Executing 1 0 := ⟨_, _, _, rfl, rfl, rfl, rfl, rfl, .fiber, .inl rfl, rfl⟩
    obtain ⟨s, t, u, first, pc, fiber, asked, rest, executing⟩ := run
    have begun : Run (Step interestList 0 2) made (scheduled 0 :: swapsIn 0) s := .cons (made_handed 2 0) (ran first)
    have named := (serving_of_reach ((made_reach 2).run begun)).sane.posted.apart.ft 0 0 fiber
    have adds : s.Step interestList 0 2 (.submit 0 (.addEvent 5 .READ none)) t :=
      ⟨⟨by decide, .fiber, 0, pc, nofun, fiber, named⟩, asked⟩
    have waited := (begun.next adds).append (ran rest)
    exact ⟨u, by simpa only [List.append_assoc, List.cons_append] using waited, executing⟩

end Reactor
end Sylar
