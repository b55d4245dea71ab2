import Sylar.SchedulerCounts

/-! `Scheduler::stopping` while the workers run: the queue, the counter of active workers and the
two flags are read together, and the steps of `run` change them one at a time. -/

namespace Sylar
open Machine

variable {κ : Type}

/-- The scheduler with its workers and the flags that `start` and `stop` write. -/
structure Stoppable (κ : Type) where
  workers : Workers κ := {}
  m_autoStop : Bool := false
  m_stopping : Bool := true

/-- `m_state` says that the fiber yielded with `YieldToReady`. -/
def Scheduler.Ready (s : Scheduler κ) (f : Option FiberId) : Prop := ∃ g, f = some g ∧ s.m_state g = .READY

/-- The worker has a task that has yielded with `YieldToReady`, and `run` has yet to put it back
into the queue. -/
inductive Worker.Owes (s : Scheduler κ) (me : Worker κ) : Prop
  | leaving {job} : me.pc = .leaving job → job ≠ .idle → s.Ready (me.jobFiber job) → Owes s me
  | returned {job} : me.pc = .returned job → job ≠ .idle → s.Ready (me.jobFiber job) → Owes s me
  | settle {job} : me.pc = .settle job → job ≠ .idle → s.Ready (me.jobFiber job) → Owes s me
  | reschedule {job} : me.pc = .reschedule job → job ≠ .idle → Owes s me

namespace Stoppable

/-- A call on a worker, `start`, and the two writes of `stop`. -/
inductive Act (κ : Type)
  | call (w : Nat) (c : Scheduler.Call κ)
  | start
  | autoStop
  | stopping

def act (s : Stoppable κ) : Act κ → Option (Stoppable κ)
  | .call w c => (s.workers.call w c).map fun workers => { s with workers := workers }
  | .start => some (if s.m_stopping then { s with m_stopping := false } else s)
  | .autoStop => some { s with m_autoStop := true }
  | .stopping => some { s with m_stopping := true }

/-- The idle functions never call `YieldToReady`. -/
def Step (s : Stoppable κ) (a : Act κ) (t : Stoppable κ) : Prop :=
  (∀ w, a = .call w (.act .YieldToReady) → (s.workers.worker w).pc ≠ .running .idle) ∧ s.act a = some t

/-- `Scheduler::stopping`. -/
def stopping (s : Stoppable κ) : Bool :=
  s.m_autoStop && s.m_stopping && s.workers.scheduler.m_fibers.isEmpty && s.workers.scheduler.m_activeThreadCount == 0

def Owes (s : Stoppable κ) (w : Nat) : Prop := (s.workers.worker w).Owes s.workers.scheduler

/-- When `stopping` returns true there is no task left to run. -/
def Sound (s : Stoppable κ) : Prop :=
  s.stopping → s.workers.scheduler.m_fibers = [] ∧ ∀ w, ¬ s.Owes w

/-- The step is the one after which `stopping` returns true: the last decrement of
`m_activeThreadCount`, or the write of a flag. -/
def Completes (s : Stoppable κ) : Act κ → Prop
  | .call w (.act .run) => s.m_autoStop ∧ s.m_stopping ∧ s.workers.scheduler.m_fibers = [] ∧
      s.workers.scheduler.m_activeThreadCount = 1 ∧
      ((∃ job, (s.workers.worker w).pc = .returned job ∧ job ≠ .idle) ∨
        (s.workers.worker w).pc = .selected true ∧ s.workers.scheduler.NoFiber (s.workers.worker w) ∧
          (s.workers.worker w).ft.cb = none)
  | .autoStop => s.m_stopping ∧ s.workers.scheduler.m_fibers = [] ∧ s.workers.scheduler.m_activeThreadCount = 0
  | .stopping => s.m_autoStop ∧ s.workers.scheduler.m_fibers = [] ∧ s.workers.scheduler.m_activeThreadCount = 0
  | _ => False

/-- The worker has executed `--m_activeThreadCount` for a task that is `READY`, and has yet to call `schedule`. -/
def Between (s : Stoppable κ) (w : Nat) : Prop :=
  ∃ job, job ≠ .idle ∧ ((s.workers.worker w).pc = .settle job ∧
      s.workers.scheduler.Ready ((s.workers.worker w).jobFiber job) ∨ (s.workers.worker w).pc = .reschedule job)

/-- `--m_activeThreadCount` and `schedule` of a `READY` task are in order with the other workers and with `stop`:
with both flags set and the queue empty, the last `--m_activeThreadCount` is not that of a task which is `READY`,
and no worker executes it while another one is between the two; nor does `stop` then write its second flag with
the queue empty and the counter 0. -/
def Ordered (s : Stoppable κ) (a : Act κ) (_ : Stoppable κ) : Prop :=
  match a with
  | .call w (.act .run) =>
    s.m_autoStop → s.m_stopping → s.workers.scheduler.m_fibers = [] → s.workers.scheduler.m_activeThreadCount = 1 →
      match (s.workers.worker w).pc with
      | .returned job => job ≠ .idle →
          ¬ s.workers.scheduler.Ready ((s.workers.worker w).jobFiber job) ∧ ∀ v, ¬ s.Between v
      | .selected true => s.workers.scheduler.NoFiber (s.workers.worker w) → (s.workers.worker w).ft.cb = none →
          ∀ v, ¬ s.Between v
      | _ => True
  | .autoStop => s.m_stopping → s.workers.scheduler.m_fibers = [] → s.workers.scheduler.m_activeThreadCount = 0 →
      ∀ v, ¬ s.Between v
  | .stopping => s.m_autoStop → s.workers.scheduler.m_fibers = [] → s.workers.scheduler.m_activeThreadCount = 0 →
      ∀ v, ¬ s.Between v
  | _ => True

end Stoppable

namespace Scheduler

variable {s t : Scheduler κ} {me after : Worker κ} {thread : Int} {a : Act κ}

/-- Only `YieldToReady` makes a fiber `READY`. -/
theorem Acted.ready {g : FiberId} (acted : s.Acted thread me a t after) (other : a ≠ .YieldToReady)
    (ready : t.m_state g = .READY) : s.m_state g = .READY := by
  cases acted with
  | run ran =>
    cases ran with
    | start | newCallback => exact m_state_of_newFiber ready (by decide)
    | resetCallback | swapIn | hold | recycle => exact (m_state_of_setState ready (by decide)).2
    | _ => exact ready
  | leave writes =>
    refine (m_state_of_setState ready ?_).2
    rintro rfl
    cases a with
    | YieldToReady => exact other rfl
    | _ => cases writes
  | newFiber => exact m_state_of_newFiber ready (by decide)
  | swapOut | switch | schedule => exact ready

theorem owes_mono {v : Worker κ} (ready : ∀ g, t.m_state g = .READY → s.m_state g = .READY) (owes : v.Owes t) :
    v.Owes s := by
  have keep : ∀ f, t.Ready f → s.Ready f := fun f ⟨g, fiber, state⟩ => ⟨g, fiber, ready g state⟩
  cases owes with
  | leaving pc notIdle state => exact .leaving pc notIdle (keep _ state)
  | returned pc notIdle state => exact .returned pc notIdle (keep _ state)
  | settle pc notIdle state => exact .settle pc notIdle (keep _ state)
  | reschedule pc notIdle => exact .reschedule pc notIdle

theorem Acted.owes {v : Worker κ} (acted : s.Acted thread me a t after) (other : a ≠ .YieldToReady)
    (owes : v.Owes t) : v.Owes s :=
  owes_mono (fun _ => acted.ready other) owes

/-- A task that a worker owes after a step it owed before. -/
theorem Acted.owes_self (acted : s.Acted thread me a t after) (other : a ≠ .YieldToReady) (owes : after.Owes t) :
    me.Owes s := by
  have back := acted.owes other owes
  cases acted with
  | run ran =>
    cases ran with
    | returned pc notIdle =>
      cases back with
      | settle settle _ ready => exact .returned pc notIdle (RunPc.settle.inj settle ▸ ready)
      | leaving settle | returned settle | reschedule settle => cases settle
    | ready pc fiber ready notIdle => exact .settle pc notIdle ⟨_, fiber, ready⟩
    | returnedIdle =>
      cases back with
      | settle settle notIdle => exact absurd (RunPc.settle.inj settle).symm notIdle
      | leaving settle | returned settle | reschedule settle => cases settle
    | _ => cases back with | leaving pc | returned pc | settle pc | reschedule pc => cases pc
  | @leave _ state job f writes pc fiber _ =>
    cases owes with
    | leaving leaving notIdle ready =>
      obtain ⟨g, same, state⟩ := ready
      cases RunPc.leaving.inj leaving
      cases fiber.symm.trans same
      simp only [setState, Function.update_self] at state
      subst state
      cases a with
      | YieldToReady => exact absurd rfl other
      | _ => cases writes
    | returned leaving | settle leaving | reschedule leaving => cases leaving
  | swapOut =>
    cases back with
    | leaving leaving notIdle => exact absurd (RunPc.leaving.inj leaving).symm notIdle
    | returned leaving | settle leaving | reschedule leaving => cases leaving
  | switch pc =>
    cases back with
    | returned returned notIdle ready =>
      cases RunPc.returned.inj returned
      exact .leaving pc notIdle ready
    | leaving returned | settle returned | reschedule returned => cases returned
  | newFiber | schedule => exact back

/-- The last decrement takes one off the counter and nothing else; every other step either adds one
to it, or leaves it alone and takes nothing off the queue. -/
theorem Acted.count (acted : s.Acted thread me a t after) :
    (a = .run ∧ t.m_activeThreadCount = s.m_activeThreadCount - 1 ∧ t.m_fibers = s.m_fibers ∧
      ((∃ job, me.pc = .returned job ∧ job ≠ .idle) ∨ me.pc = .selected true ∧ s.NoFiber me ∧ me.ft.cb = none)) ∨
    t.m_activeThreadCount = s.m_activeThreadCount + 1 ∨
    t.m_activeThreadCount = s.m_activeThreadCount ∧ s.m_fibers <+: t.m_fibers := by
  cases acted with
  | run ran =>
    cases ran with
    | drop pc noFiber noCb => exact .inl ⟨rfl, rfl, rfl, .inr ⟨pc, noFiber, noCb⟩⟩
    | returned pc notIdle => exact .inl ⟨rfl, rfl, rfl, .inl ⟨_, pc, notIdle⟩⟩
    | entry => exact .inr (.inl rfl)
    | reschedule => exact .inr (.inr ⟨rfl, m_fibers_schedule s _ ▸ List.prefix_append _ _⟩)
    | _ => exact .inr (.inr ⟨rfl, List.prefix_refl _⟩)
  | schedule => exact .inr (.inr ⟨rfl, m_fibers_schedule s _ ▸ List.prefix_append _ _⟩)
  | leave | swapOut | switch | newFiber => exact .inr (.inr ⟨rfl, List.prefix_refl _⟩)

theorem returned_step {job : Job} (pc : me.pc = .returned job) (notIdle : job ≠ .idle) :
    s.runStep thread me =
      some ({ s with m_activeThreadCount := s.m_activeThreadCount - 1 }, { me with pc := .settle job }) := by
  cases job with
  | idle => exact absurd rfl notIdle
  | fiber | callback => simp only [runStep, pc]

theorem drop_step (pc : me.pc = .selected true) (noFiber : s.NoFiber me) (noCb : me.ft.cb = none) :
    s.runStep thread me =
      some ({ s with m_activeThreadCount := s.m_activeThreadCount - 1 }, { me with pc := .select, ft := {} }) := by
  have dead := (s.noFiber_iff me).mp noFiber
  simp only [runStep, pc, if_neg dead, noCb, Option.isSome_none, Bool.false_eq_true, if_false, if_true]

end Scheduler

namespace Workers

variable {s t : Workers κ} {w : Nat}

theorem act_owes {a : Scheduler.Act κ} (done : s.act w a = some t) (other : a ≠ .YieldToReady) {v : Nat}
    (owes : (t.worker v).Owes t.scheduler) : (s.worker v).Owes s.scheduler := by
  obtain ⟨mine, others⟩ := act_eq_some done
  have acted := Scheduler.act_acted mine
  by_cases same : v = w
  · subst same
    exact acted.owes_self other owes
  · rw [others v same] at owes
    exact acted.owes other owes

theorem call_owes {c : Scheduler.Call κ} (done : s.call w c = some t) (other : c ≠ .act .YieldToReady) {v : Nat}
    (owes : (t.worker v).Owes t.scheduler) : (s.worker v).Owes s.scheduler := by
  cases c with
  | act a => exact act_owes done (fun yield => other (yield ▸ rfl)) owes
  | schedule fc thread => exact act_owes (a := .schedule (fc.entry thread).1) done nofun owes
  | scheduleRange range =>
    rw [scheduleRange_eq_some done] at owes
    exact Scheduler.owes_mono (t := s.scheduler.scheduleRange range) (fun _ ready => ready) owes

/-- The worker that yields keeps `m_activeThreadCount` above zero. -/
theorem Counted.yield_pos (counted : s.Counted) (done : s.act w .YieldToReady = some t)
    (notIdle : (s.worker w).pc ≠ .running .idle) : 0 < t.scheduler.m_activeThreadCount := by
  have after := counted.act done
  have acted := Scheduler.act_acted (act_eq_some done).1
  have task : (t.worker w).HasTask := by
    generalize t.worker w = me at acted ⊢
    generalize t.scheduler = scheduler at acted
    cases acted with
    | @leave _ _ job _ _ pc =>
      have other : job ≠ .idle := fun idle => notIdle (idle ▸ pc)
      simp [Worker.HasTask, RunPc.hasTask, other]
  exact after.active.pos task

end Workers

namespace Stoppable

variable {s t : Stoppable κ} {a : Act κ}

theorem stopping_iff (s : Stoppable κ) : s.stopping ↔ s.m_autoStop ∧ s.m_stopping ∧
    s.workers.scheduler.m_fibers = [] ∧ s.workers.scheduler.m_activeThreadCount = 0 := by
  simp [stopping, and_assoc]

theorem call_eq_some {w : Nat} {c : Scheduler.Call κ} (step : s.Step (.call w c) t) :
    s.workers.call w c = some t.workers ∧ t.m_autoStop = s.m_autoStop ∧ t.m_stopping = s.m_stopping := by
  obtain ⟨workers, done, same⟩ := Option.map_eq_some_iff.mp step.2
  cases same
  exact ⟨done, rfl, rfl⟩

/-- `start` and `stop` write their flags only. -/
theorem workers_of_flag (step : s.Step a t) (flag : ∀ w c, a ≠ .call w c) : t.workers = s.workers := by
  obtain ⟨-, done⟩ := step
  cases a with
  | call w c => exact absurd rfl (flag w c)
  | start =>
    cases done
    split <;> rfl
  | autoStop | stopping =>
    cases done
    rfl

/-- `stopping` comes to return true by one of the steps of `Completes`. -/
theorem completes_of_step (counted : s.workers.Counted) (step : s.Step a t) (after : t.stopping)
    (before : ¬ s.stopping) : s.Completes a := by
  rw [stopping_iff] at after before
  obtain ⟨autoStop, stopping, queue, count⟩ := after
  cases a with
  | start =>
    obtain ⟨-, done⟩ := step
    simp only [act, Option.some.injEq] at done
    subst done
    split at stopping
    · cases stopping
    · rename_i running
      exact absurd stopping running
  | autoStop =>
    obtain ⟨-, done⟩ := step
    cases done
    exact ⟨stopping, queue, count⟩
  | stopping =>
    obtain ⟨-, done⟩ := step
    cases done
    exact ⟨autoStop, queue, count⟩
  | call w c =>
    obtain ⟨done, autoSame, stoppingSame⟩ := call_eq_some step
    rw [autoSame] at autoStop
    rw [stoppingSame] at stopping
    have quiet : t.workers.scheduler.m_activeThreadCount = s.workers.scheduler.m_activeThreadCount →
        s.workers.scheduler.m_fibers <+: t.workers.scheduler.m_fibers → False := by
      intro same kept
      rw [queue, List.prefix_nil] at kept
      exact before ⟨autoStop, stopping, kept, same ▸ count⟩
    have nonneg := counted.active.nonneg
    have acts : ∀ b, s.workers.act w b = some t.workers → c = .act b ∨ b ≠ .run → s.Completes (.call w c) := by
      intro b acted which
      rcases (Scheduler.act_acted (Workers.act_eq_some acted).1).count with
        ⟨rfl, less, same, branch⟩ | more | ⟨same, kept⟩
      · obtain rfl : c = .act .run := which.resolve_right (absurd rfl)
        exact ⟨autoStop, stopping, same ▸ queue, by omega, branch⟩
      · omega
      · exact (quiet same kept).elim
    cases c with
    | act b => exact acts b done (.inl rfl)
    | schedule fc thread => exact acts _ done (.inr nofun)
    | scheduleRange range =>
      have same := Workers.scheduleRange_eq_some done
      refine (quiet (same ▸ rfl) ?_).elim
      rw [same, Scheduler.m_fibers_scheduleRange]
      exact List.prefix_append _ _

/-- After the last decrement `stopping` returns true, and whoever owed a task before owes it still. -/
theorem Completes.run {w : Nat} (completes : s.Completes (.call w (.act .run)))
    (step : s.Step (.call w (.act .run)) t) : t.stopping ∧ ∀ v, s.Owes v → t.Owes v := by
  obtain ⟨done, autoSame, stoppingSame⟩ := call_eq_some step
  obtain ⟨mine, others⟩ := Workers.act_eq_some done
  obtain ⟨autoStop, stopping, queue, count, branch⟩ := completes
  have after : t.workers.scheduler = { s.workers.scheduler with
      m_activeThreadCount := s.workers.scheduler.m_activeThreadCount - 1 } ∧
      ((s.workers.worker w).Owes s.workers.scheduler → (t.workers.worker w).Owes t.workers.scheduler) := by
    rcases branch with ⟨job, pc, notIdle⟩ | ⟨pc, noFiber, noCb⟩
    · rw [Scheduler.act, Scheduler.returned_step pc notIdle] at mine
      obtain ⟨scheduler, worker⟩ := Prod.mk.inj (Option.some.inj mine)
      refine ⟨scheduler.symm, fun owes => ?_⟩
      rw [← scheduler, ← worker]
      cases owes with
      | returned same _ ready =>
        cases RunPc.returned.inj (pc.symm.trans same)
        exact .settle rfl notIdle ready
      | leaving other | settle other | reschedule other => cases pc.symm.trans other
    · rw [Scheduler.act, Scheduler.drop_step pc noFiber noCb] at mine
      obtain ⟨scheduler, worker⟩ := Prod.mk.inj (Option.some.inj mine)
      refine ⟨scheduler.symm, fun owes => ?_⟩
      cases owes with
      | returned other | leaving other | settle other | reschedule other => cases pc.symm.trans other
  refine ⟨?_, fun v owes => ?_⟩
  · rw [stopping_iff, autoSame, stoppingSame, after.1]
    exact ⟨autoStop, stopping, queue, by simp only [count]; decide⟩
  · by_cases same : v = w
    · subst same
      exact after.2 owes
    · rw [Owes, others v same, after.1]
      exact Scheduler.owes_mono (t := s.workers.scheduler) (fun _ ready => ready) owes

theorem Completes.after (completes : s.Completes a) (step : s.Step a t) :
    t.stopping ∧ ∀ v, s.Owes v → t.Owes v := by
  cases a with
  | call w c =>
    cases c with
    | act b =>
      cases b with
      | run => exact completes.run step
      | _ => exact completes.elim
    | _ => exact completes.elim
  | start => exact completes.elim
  | autoStop =>
    obtain ⟨-, done⟩ := step
    cases done
    exact ⟨(stopping_iff _).mpr ⟨rfl, completes⟩, fun _ => id⟩
  | stopping =>
    obtain ⟨-, done⟩ := step
    cases done
    exact ⟨(stopping_iff _).mpr ⟨completes.1, rfl, completes.2⟩, fun _ => id⟩

theorem step_owes (step : s.Step a t) (other : ∀ w, a ≠ .call w (.act .YieldToReady)) {v : Nat}
    (owes : t.Owes v) : s.Owes v := by
  cases a with
  | call w c => exact Workers.call_owes (call_eq_some step).1 (fun yield => other w (yield ▸ rfl)) owes
  | start | autoStop | stopping =>
    rw [Owes, workers_of_flag step nofun] at owes
    exact owes

theorem sound_iff (s : Stoppable κ) : s.Sound ↔ (s.stopping → ∀ w, ¬ s.Owes w) :=
  imp_congr_right fun stopping => and_iff_right ((stopping_iff s).mp stopping).2.2.1

theorem step_counted (counted : s.workers.Counted) (step : s.Step a t) : t.workers.Counted := by
  cases a with
  | call w c => exact Workers.Counted.step (l := (w, c)) counted (call_eq_some step).1
  | start | autoStop | stopping =>
    rw [workers_of_flag step nofun]
    exact counted

theorem Between.owes {w : Nat} (between : s.Between w) : s.Owes w := by
  obtain ⟨job, notIdle, ⟨pc, ready⟩ | pc⟩ := between
  · exact .settle pc notIdle ready
  · exact .reschedule pc notIdle

/-- A worker that owes a task has not counted itself out yet, or it has and is on its way to `schedule`. -/
theorem Owes.cases {w : Nat} (owes : s.Owes w) : s.Between w ∨ (s.workers.worker w).HasTask ∧
    ∀ job, (s.workers.worker w).pc = .returned job → s.workers.scheduler.Ready ((s.workers.worker w).jobFiber job) := by
  cases owes with
  | settle pc notIdle ready => exact .inl ⟨_, notIdle, .inl ⟨pc, ready⟩⟩
  | reschedule pc notIdle => exact .inl ⟨_, notIdle, .inr pc⟩
  | leaving pc notIdle =>
    refine .inr ⟨by simp [Worker.HasTask, pc, RunPc.hasTask, notIdle], fun job returned => ?_⟩
    cases pc.symm.trans returned
  | returned pc notIdle ready =>
    refine .inr ⟨by simp [Worker.HasTask, pc, RunPc.hasTask, notIdle], fun job returned => ?_⟩
    cases RunPc.returned.inj (pc.symm.trans returned)
    exact ready

/-- While `m_activeThreadCount` is 0, no worker has a task that it has not counted out. -/
theorem between_of_zero (counted : s.workers.Counted) (zero : s.workers.scheduler.m_activeThreadCount = 0) {w : Nat}
    (owes : s.Owes w) : s.Between w :=
  owes.cases.resolve_right fun tasked => (counted.active.eq_zero_iff.mp zero) w tasked.1

/-- When `stopping` comes to return true in an ordered step, no task waits to be put back, and only then. -/
theorem ordered_iff (counted : s.workers.Counted) : s.Ordered a t ↔ (s.Completes a → ∀ w, ¬ s.Owes w) := by
  cases a with
  | start => exact iff_of_true trivial False.elim
  | autoStop | stopping =>
    refine ⟨fun ordered completes v owes => ?_, fun settled flag queue zero v between => ?_⟩
    · exact ordered completes.1 completes.2.1 completes.2.2 v (between_of_zero counted completes.2.2 owes)
    · exact settled ⟨flag, queue, zero⟩ v between.owes
  | call w c =>
    rcases c with a | _ | _
    case schedule | scheduleRange => exact iff_of_true trivial False.elim
    cases a with
    | run =>
      refine ⟨fun ordered completes v owes => ?_, fun settled autoStop stopping queue one => ?_⟩
      · obtain ⟨autoStop, stopping, queue, one, branch⟩ := completes
        have outside := ordered autoStop stopping queue one
        have tasked : (s.workers.worker w).HasTask := by
          rcases branch with ⟨job, pc, notIdle⟩ | ⟨pc, -, -⟩
          · simp [Worker.HasTask, pc, RunPc.hasTask, notIdle]
          · simp [Worker.HasTask, pc, RunPc.hasTask]
        have active := counted.active
        rw [one] at active
        rcases branch with ⟨job, pc, notIdle⟩ | ⟨pc, noFiber, noCb⟩
        · simp only [pc] at outside
          obtain ⟨unready, none⟩ := outside notIdle
          refine (owes.cases).elim (none v) fun both => ?_
          obtain rfl := active.unique tasked both.1
          exact unready (both.2 job pc)
        · simp only [pc] at outside
          refine (owes.cases).elim (outside noFiber noCb v) fun both => ?_
          obtain rfl := active.unique tasked both.1
          cases owes with
          | leaving other | returned other | settle other | reschedule other => cases pc.symm.trans other
      · have completes : ((∃ job, (s.workers.worker w).pc = .returned job ∧ job ≠ .idle) ∨
            (s.workers.worker w).pc = .selected true ∧ s.workers.scheduler.NoFiber (s.workers.worker w) ∧
              (s.workers.worker w).ft.cb = none) → s.Completes (.call w (.act .run)) :=
          fun branch => ⟨autoStop, stopping, queue, one, branch⟩
        split
        · rename_i job pc
          refine fun notIdle => ⟨fun ready => ?_, fun v between => ?_⟩
          · exact settled (completes (.inl ⟨job, pc, notIdle⟩)) w (.returned pc notIdle ready)
          · exact settled (completes (.inl ⟨job, pc, notIdle⟩)) v between.owes
        · rename_i pc
          exact fun noFiber noCb v between => settled (completes (.inr ⟨pc, noFiber, noCb⟩)) v between.owes
        · trivial
    | _ => exact iff_of_true trivial False.elim

/-- A step leaves `stopping` sound exactly when it is not the one that makes it true with a task
still to be put back. -/
theorem sound_iff_ordered (counted : s.workers.Counted) (sound : s.Sound) (step : s.Step a t) :
    t.Sound ↔ s.Ordered a t := by
  rw [ordered_iff counted]
  rw [sound_iff] at sound ⊢
  constructor
  · intro after completes v owes
    obtain ⟨stopping, keeps⟩ := completes.after step
    exact after stopping v (keeps v owes)
  · intro settled stopping v owes
    by_cases yield : ∃ w, a = .call w (.act .YieldToReady)
    · obtain ⟨w, rfl⟩ := yield
      have pos := counted.yield_pos (call_eq_some step).1 (step.1 w rfl)
      exact absurd ((stopping_iff t).mp stopping).2.2.2 (ne_of_gt pos)
    · have before := step_owes step (fun w same => yield ⟨w, same⟩) owes
      by_cases already : s.stopping
      · exact sound already v before
      · exact settled (completes_of_step counted step stopping already) v before

/-- Along a run `stopping` never returns true while there is work left if and only if the decrements of the
counter, the returns of `READY` tasks to the queue and the writes of `stop` are in order. -/
theorem run_sound_iff_ordered {t : Stoppable κ} {as : List (Act κ)} :
    Run (Guarded Step fun _ _ t => t.Sound) {} as t ↔ Run (Guarded Step Ordered) {} as t := by
  refine Run.guarded_congr (fun s => s.workers.Counted ∧ s.Sound) ?_ ?_ ?_
  · exact fun _ _ _ inv step => sound_iff_ordered inv.1 inv.2 step
  · exact fun _ _ _ inv step sound => ⟨step_counted inv.1 step, sound⟩
  · exact ⟨Workers.counted_init, nofun⟩

/-- The worker 0 runs a function that yields with `YieldToReady`, while the worker 1 is in its idle
fiber and `stop` has set the flags. -/
def yieldWhileStopping : List (Act Nat) :=
  [.start, .call 0 (.act .run), .call 1 (.act .run), .call 0 (.schedule (.cb (some 7)) (-1)), .call 0 (.act .run),
   .call 0 (.act .run), .call 0 (.act .run), .call 1 (.act .run), .call 1 (.act .run), .call 1 (.act .run),
   .autoStop, .stopping, .call 0 (.act .YieldToReady), .call 0 (.act .switch), .call 0 (.act .run)]

/-- The decrement comes before the task is put back: in between `stopping` returns true. -/
theorem not_sound_yieldWhileStopping : ∃ t : Stoppable Nat, Run Step {} yieldWhileStopping t ∧
    (t.workers.worker 1).pc = .running .idle ∧ t.stopping ∧ t.Owes 0 ∧ ¬ t.Sound := by
  have run : ∃ t : Stoppable Nat, Run Step {} yieldWhileStopping t ∧
      (t.workers.worker 1).pc = .running .idle ∧ t.stopping ∧ (t.workers.worker 0).pc = .settle .callback ∧
      t.workers.scheduler.Ready ((t.workers.worker 0).jobFiber .callback) := by
    refine ⟨_, .cons ⟨nofun, rfl⟩ <| .cons ⟨nofun, rfl⟩ <| .cons ⟨nofun, rfl⟩ <| .cons ⟨nofun, rfl⟩ <|
      .cons ⟨nofun, rfl⟩ <| .cons ⟨nofun, rfl⟩ <| .cons ⟨nofun, rfl⟩ <| .cons ⟨nofun, rfl⟩ <| .cons ⟨nofun, rfl⟩ <|
      .cons ⟨nofun, rfl⟩ <| .cons ⟨nofun, rfl⟩ <| .cons ⟨nofun, rfl⟩ <| .cons ⟨?_, rfl⟩ <| .cons ⟨nofun, rfl⟩ <|
      .cons ⟨nofun, rfl⟩ .start, rfl, rfl, rfl, 2, rfl, rfl⟩
    rintro w ⟨⟩
    exact fun running => Job.noConfusion (RunPc.running.inj running)
  obtain ⟨t, steps, idle, stopping, settle, ready⟩ := run
  have owes : t.Owes 0 := .settle settle (by decide) ready
  exact ⟨t, steps, idle, stopping, owes, fun sound => (sound stopping).2 0 owes⟩

end Stoppable
end Sylar
