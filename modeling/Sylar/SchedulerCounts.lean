import Sylar.Lib.Tally
import Sylar.SchedulerQueue

namespace Sylar
open Machine Tally

variable {κ : Type}

/-- Between the removal of an entry from `m_fibers` and `--m_activeThreadCount`. -/
def RunPc.hasTask : RunPc → Bool
  | .selected is_active => is_active
  | .swapIn job | .running job | .leaving job | .returned job => job ≠ .idle
  | _ => false

/-- Between `++m_idleThreadCount` and `--m_idleThreadCount`, that is in `idle_fiber->swapIn()`. -/
def RunPc.idling : RunPc → Bool
  | .swapIn job | .running job | .leaving job | .returned job => job = .idle
  | _ => false

/-- `ft` is in use. -/
def RunPc.usesFt : RunPc → Bool
  | .selected is_active => is_active
  | .swapIn job | .running job | .leaving job | .returned job | .settle job | .reschedule job | .hold job =>
    job = .fiber
  | _ => false

def Worker.HasTask (me : Worker κ) : Prop := me.pc.hasTask

def Worker.Idling (me : Worker κ) : Prop := me.pc.idling

/-- `ft` is reset by the time the selection loop starts over. -/
def Worker.Tidy (me : Worker κ) : Prop := me.pc.usesFt = false → me.ft = {}

namespace Scheduler

variable {s t : Scheduler κ} {me after : Worker κ} {thread : Int} {a : Act κ}

theorem Acted.tidy (acted : s.Acted thread me a t after) (tidy : me.Tidy) : after.Tidy := by
  cases acted with
  | run ran =>
    cases ran with
    | start | resetCallback | newCallback | drop | ended | reschedule | hold => exact fun _ => rfl
    | entry | fiber => exact fun unused => Bool.noConfusion unused
    | nothing pc | stop pc | idle pc | swapIn pc | returnedIdle pc | returned pc | ready pc | suspended pc
    | endedCallback pc | recycle pc => exact fun unused => tidy (pc ▸ unused)
  | leave _ pc | swapOut pc | switch pc => exact fun unused => tidy (pc ▸ unused)
  | newFiber | schedule => exact tidy

/-- A worker that found nothing goes to its idle fiber. -/
theorem active_of_task {is_active : Bool} (tidy : me.Tidy) (pc : me.pc = .selected is_active)
    (task : me.ft.fiber ≠ none ∨ me.ft.cb ≠ none) : is_active = true := by
  by_contra passive
  rw [Bool.not_eq_true] at passive
  subst passive
  have empty : me.ft = {} := tidy (pc ▸ rfl)
  rw [empty] at task
  rcases task with fiber | cb
  · exact fiber rfl
  · exact cb rfl

/-- The worker has a task from the removal of an entry up to the decrement, on whichever branch. -/
theorem Acted.active (acted : s.Acted thread me a t after) (tidy : me.Tidy) :
    Shift Worker.HasTask me after s.m_activeThreadCount t.m_activeThreadCount := by
  have same : ∀ p, me.pc = p → after.pc.hasTask = p.hasTask → (after.HasTask ↔ me.HasTask) := by
    intro p pc equal
    rw [Worker.HasTask, Worker.HasTask, pc, equal]
  cases acted with
  | run ran =>
    cases ran with
    | entry pc => exact .enter (by simp [Worker.HasTask, pc, RunPc.hasTask]) rfl rfl
    | drop pc => exact .leave (by simp [Worker.HasTask, pc, RunPc.hasTask]) nofun rfl
    | returned pc notIdle => exact .leave (by simp [Worker.HasTask, pc, RunPc.hasTask, notIdle]) nofun rfl
    | fiber pc fiber =>
      have active := active_of_task tidy pc (.inl (by simp [fiber]))
      exact .same (same _ pc (by rw [active]; rfl)) rfl
    | resetCallback pc _ cb | newCallback pc _ cb =>
      have active := active_of_task tidy pc (.inr (Option.isSome_iff_ne_none.mp cb))
      exact .same (same _ pc (by rw [active]; rfl)) rfl
    | start pc | nothing pc | stop pc | idle pc | swapIn pc | returnedIdle pc | ready pc | suspended pc | ended pc
    | endedCallback pc | reschedule pc | hold pc | recycle pc => exact .same (same _ pc rfl) rfl
  | leave _ pc | swapOut pc | switch pc => exact .same (same _ pc rfl) rfl
  | newFiber | schedule => exact .same Iff.rfl rfl

theorem Acted.idle (acted : s.Acted thread me a t after) :
    Shift Worker.Idling me after s.m_idleThreadCount t.m_idleThreadCount := by
  have same : ∀ p, me.pc = p → after.pc.idling = p.idling → (after.Idling ↔ me.Idling) := by
    intro p pc equal
    rw [Worker.Idling, Worker.Idling, pc, equal]
  cases acted with
  | run ran =>
    cases ran with
    | idle pc => exact .enter (by simp [Worker.Idling, pc, RunPc.idling]) rfl rfl
    | returnedIdle pc => exact .leave (by simp [Worker.Idling, pc, RunPc.idling]) nofun rfl
    | returned pc notIdle => exact .same (same _ pc (by simp [RunPc.idling, notIdle])) rfl
    | start pc | nothing pc | entry pc | fiber pc | resetCallback pc | newCallback pc | drop pc | stop pc | swapIn pc
    | ready pc | suspended pc | ended pc | endedCallback pc | reschedule pc | hold pc | recycle pc =>
      exact .same (same _ pc rfl) rfl
  | leave _ pc | swapOut pc | switch pc => exact .same (same _ pc rfl) rfl
  | newFiber | schedule => exact .same Iff.rfl rfl

end Scheduler

namespace Workers

/-- The counters are the numbers of the workers that have a task and of those in their idle fiber. -/
structure Counted (s : Workers κ) : Prop where
  tidy : ∀ w, (s.worker w).Tidy
  active : Counts Worker.HasTask s.worker s.scheduler.m_activeThreadCount
  idle : Counts Worker.Idling s.worker s.scheduler.m_idleThreadCount

theorem act_worker {s t : Workers κ} {w : Nat} {a : Scheduler.Act κ} (done : s.act w a = some t) :
    t.worker = Function.update s.worker w (t.worker w) := by
  funext v
  by_cases same : v = w
  · subst same
    rw [Function.update_self]
  · rw [Function.update_of_ne same, (act_eq_some done).2 v same]

theorem Counted.act {s t : Workers κ} {w : Nat} {a : Scheduler.Act κ} (counted : s.Counted)
    (done : s.act w a = some t) : t.Counted := by
  have acted := Scheduler.act_acted (act_eq_some done).1
  have worker := act_worker done
  refine ⟨?_, ?_, ?_⟩
  · intro v
    by_cases same : v = w
    · subst same
      exact acted.tidy (counted.tidy v)
    · rw [(act_eq_some done).2 v same]
      exact counted.tidy v
  · rw [worker]
    exact counted.active.shift (acted.active (counted.tidy w))
  · rw [worker]
    exact counted.idle.shift acted.idle

theorem Counted.step {s t : Workers κ} {l : Nat × Scheduler.Call κ} (counted : s.Counted) (step : s.CallStep l t) :
    t.Counted := by
  obtain ⟨w, c⟩ := l
  cases c with
  | act a => exact counted.act step
  | schedule fc thread => exact counted.act (a := .schedule (fc.entry thread).1) step
  | scheduleRange range =>
    rw [scheduleRange_eq_some step]
    exact ⟨counted.tidy, counted.active, counted.idle⟩

theorem counted_init : Counted ({} : Workers κ) where
  tidy _ _ := rfl
  active := counts_none fun _ => Bool.noConfusion
  idle := counts_none fun _ => Bool.noConfusion

/-- In every state reached, `m_activeThreadCount` is the number of workers that have taken an entry
off the queue and not yet counted themselves out, and `m_idleThreadCount` the number of workers in
their idle fiber, so that neither is ever below zero and each is zero when there is no such worker. -/
theorem counts_of_run {t : Workers κ} {ls : List (Nat × Scheduler.Call κ)} (run : Run CallStep {} ls t) :
    t.scheduler.m_activeThreadCount = {w | (t.worker w).HasTask}.ncard ∧ {w | (t.worker w).HasTask}.Finite ∧
    t.scheduler.m_idleThreadCount = {w | (t.worker w).Idling}.ncard ∧ {w | (t.worker w).Idling}.Finite ∧
    0 ≤ t.scheduler.m_activeThreadCount ∧ 0 ≤ t.scheduler.m_idleThreadCount ∧
    (t.scheduler.m_activeThreadCount = 0 ↔ ∀ w, ¬ (t.worker w).HasTask) ∧
    (t.scheduler.m_idleThreadCount = 0 ↔ ∀ w, ¬ (t.worker w).Idling) := by
  have counted : t.Counted := Run.invariant (fun _ _ _ => Counted.step) counted_init run
  exact ⟨counted.active.eq_ncard, counted.active.finite, counted.idle.eq_ncard, counted.idle.finite,
    counted.active.nonneg, counted.idle.nonneg, counted.active.eq_zero_iff, counted.idle.eq_zero_iff⟩

/-- The worker 0 takes a function off the queue, and the worker 1 finds nothing to do. -/
def oneEach : List (Nat × Scheduler.Call Nat) :=
  [(0, .act .run), (1, .act .run), (0, .schedule (.cb (some 7)) (-1)), (0, .act .run), (1, .act .run), (1, .act .run)]

theorem counts_of_run_oneEach : ∃ t : Workers Nat,
    Run CallStep {} oneEach t ∧ t.scheduler.m_activeThreadCount = {w | (t.worker w).HasTask}.ncard ∧
    t.scheduler.m_activeThreadCount = 1 ∧ t.scheduler.m_idleThreadCount = 1 := by
  have run : ∃ t : Workers Nat, acts (fun s l => s.call l.1 l.2) {} oneEach = some t ∧
      t.scheduler.m_activeThreadCount = 1 ∧ t.scheduler.m_idleThreadCount = 1 := ⟨_, rfl, rfl, rfl⟩
  obtain ⟨t, done, active, idle⟩ := run
  have steps : Run CallStep {} oneEach t := run_of_acts _ done
  exact ⟨t, steps, (counts_of_run steps).1, active, idle⟩

end Workers
end Sylar
