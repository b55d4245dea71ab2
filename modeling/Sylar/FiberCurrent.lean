import Sylar.FiberSwitch

namespace Sylar.Switches
open Machine

variable {s t : Switches} {w : Nat} {f : FiberId}

/-- `t_fiber` is right, and every fiber holds its own context. -/
structure Good (s : Switches) : Prop where
  denotes : s.Denotes
  m_ctx : ∀ f, s.m_ctx f = f
  scheduled : ∀ w, (s.thread w).t_scheduler_fiber ≠ none → (s.thread w).executing ≠ none

theorem good_init : Good {} := ⟨fun _ => rfl, fun _ => rfl, fun _ other => absurd rfl other⟩

@[simp] theorem thread_setThread_self (me : FiberThread) : (s.setThread w me).thread w = me := Function.update_self ..

theorem thread_setThread_of_ne {v : Nat} (me : FiberThread) (other : v ≠ w) :
    (s.setThread w me).thread v = s.thread v := Function.update_of_ne other ..

theorem denotes_setThread_iff {me : FiberThread} (denotes : s.Denotes) :
    (s.setThread w me).Denotes ↔ me.t_fiber = me.executing := by
  constructor
  · intro after
    have mine := after w
    rwa [thread_setThread_self] at mine
  · intro mine v
    by_cases same : v = w
    · rw [same, thread_setThread_self]
      exact mine
    · rw [thread_setThread_of_ne me same]
      exact denotes v

/-- A step of the thread `w` is right as soon as it is right for that thread. -/
theorem Good.setThread {me : FiberThread} (good : s.Good) (denotes : me.t_fiber = me.executing)
    (scheduled : me.t_scheduler_fiber ≠ none → me.executing ≠ none) : (s.setThread w me).Good := by
  refine ⟨(denotes_setThread_iff good.denotes).mpr denotes, good.m_ctx, fun v => ?_⟩
  by_cases same : v = w
  · rw [same, thread_setThread_self]
    exact scheduled
  · rw [thread_setThread_of_ne me same]
    exact good.scheduled v

theorem Good.setState (good : s.Good) (f : FiberId) (state : FiberState) : (s.setState f state).Good :=
  ⟨good.denotes, good.m_ctx, good.scheduled⟩

theorem update_own {m_ctx : FiberId → FiberId} (own : ∀ f, m_ctx f = f) (g f : FiberId) :
    Function.update m_ctx g g f = f := by
  by_cases same : f = g
  · rw [same, Function.update_self]
  · rw [Function.update_of_ne same]
    exact own f

/-- A switch with `t_fiber` set by hand. What is saved in the fiber that executes is its own context. -/
theorem setThis_swapcontext (good : s.Good) (current : Option FiberId) {oucp : FiberId} (ucp : FiberId)
    (executing : (s.thread w).executing = some oucp) : (s.SetThis w current).swapcontext w oucp ucp =
      some (s.setThread w { s.thread w with t_fiber := current, executing := some ucp }) := by
  have same : Function.update s.m_ctx oucp oucp = s.m_ctx := by
    rw [Function.update_eq_self_iff]
    exact (good.m_ctx oucp).symm
  have mine : ((s.SetThis w current).thread w).executing = some oucp := by
    rw [SetThis, thread_setThread_self]
    exact executing
  rw [swapcontext, mine]
  simp only [SetThis, Switches.setThread, Option.bind_eq_bind, Option.bind_some, same, good.m_ctx, Function.update_self,
    Function.update_idem]
  rfl

theorem Good.getThis (good : s.Good) (w : Nat) :
    (s.GetThis w).2.Good ∧ ((s.GetThis w).2.thread w).t_fiber = some (s.GetThis w).1 := by
  unfold GetThis
  split
  · rename_i f current
    exact ⟨good, current⟩
  · rename_i none
    have idle : (s.thread w).executing = .none := (good.denotes w).symm.trans none
    have made : Good { s with
        m_state := Function.update s.m_state s.fibers .EXEC
        m_ctx := Function.update s.m_ctx s.fibers s.fibers
        fibers := s.fibers + 1 } := ⟨good.denotes, update_own good.m_ctx s.fibers, good.scheduled⟩
    simp only [idle, Option.getD_none]
    exact ⟨made.setThread rfl fun _ => Option.some_ne_none _, by simp⟩

theorem Good.newFiber (good : s.Good) (entry : Entry) : (s.newFiber entry).2.Good :=
  ⟨good.denotes, update_own good.m_ctx s.fibers, good.scheduled⟩

theorem Good.reset (good : s.Good) (done : s.reset f = some t) : t.Good := by
  rw [Switches.reset] at done
  split at done
  · cases done
    exact ⟨good.denotes, update_own good.m_ctx f, good.scheduled⟩
  · cases done

theorem Good.useCaller (good : s.Good) (done : s.useCaller w = some t) : t.Good := by
  obtain ⟨main, current⟩ := good.getThis w
  unfold Switches.useCaller at done
  simp only at done
  split at done
  · cases done
  · cases done
    have executing := (main.denotes w).symm.trans current
    refine (main.newFiber .CallerMainFunc).setThread (main.denotes w) fun _ => ?_
    exact executing ▸ Option.some_ne_none _

theorem Good.run (good : s.Good) (w : Nat) : (s.run w).Good := by
  obtain ⟨main, current⟩ := good.getThis w
  have executing := (main.denotes w).symm.trans current
  exact main.setThread (main.denotes w) fun _ => executing ▸ Option.some_ne_none _

/-- A switch that sets `t_fiber` to the fiber which it resumes. -/
theorem Good.switch {oucp ucp : FiberId} (good : s.Good) (executing : (s.thread w).executing = some oucp)
    (done : (s.SetThis w (some ucp)).swapcontext w oucp ucp = some t) : t.Good := by
  rw [setThis_swapcontext good (some ucp) ucp executing] at done
  cases done
  exact good.setThread rfl fun _ => Option.some_ne_none _

theorem Good.call (good : s.Good) (caller : (s.thread w).executing = (s.thread w).t_threadFiber)
    (done : s.call w f = some t) : t.Good := by
  obtain ⟨threadFiber, main, done⟩ := Option.bind_eq_some_iff.mp done
  exact (good.setState f .EXEC).switch (caller.trans main) done

theorem Good.back (good : s.Good) (executing : (s.thread w).executing = some f) (done : s.back w f = some t) :
    t.Good := by
  obtain ⟨threadFiber, main, done⟩ := Option.bind_eq_some_iff.mp done
  exact good.switch executing done

theorem Good.swapIn (good : s.Good) (caller : (s.thread w).executing = (s.thread w).t_scheduler_fiber)
    (done : s.swapIn w f = some t) : t.Good := by
  obtain ⟨mainFiber, main, done⟩ := Option.bind_eq_some_iff.mp done
  split at done
  · cases done
  · exact (good.setState f .EXEC).switch (caller.trans main) done

/-- `swapOut` resumes the scheduler fiber and sets `t_fiber` to the main fiber of the thread. -/
theorem Good.swapOut (good : s.Good) (executing : (s.thread w).executing = some f) (done : s.swapOut w f = some t) :
    (t.Denotes ↔ (s.thread w).t_scheduler_fiber = (s.thread w).t_threadFiber) ∧ (t.Denotes → t.Good) := by
  obtain ⟨mainFiber, main, done⟩ := Option.bind_eq_some_iff.mp done
  rw [setThis_swapcontext good (s.thread w).t_threadFiber mainFiber executing] at done
  cases done
  rw [denotes_setThread_iff good.denotes, main]
  exact ⟨eq_comm, fun same => good.setThread same fun _ => Option.some_ne_none _⟩

/-- `swapOut` on the current fiber, which `GetThis` returns. -/
theorem Good.current (good : s.Good) (scheduled : (s.thread w).t_scheduler_fiber ≠ none) :
    ∃ f, s.GetThis w = (f, s) ∧ (s.thread w).executing = some f := by
  obtain ⟨f, executing⟩ := Option.ne_none_iff_exists'.mp (good.scheduled w scheduled)
  refine ⟨f, ?_, executing⟩
  unfold GetThis
  rw [good.denotes w, executing]

theorem scheduled_of_swapOut (done : s.swapOut w f = some t) : (s.thread w).t_scheduler_fiber ≠ none := by
  obtain ⟨mainFiber, main, -⟩ := Option.bind_eq_some_iff.mp done
  exact main ▸ Option.some_ne_none _

theorem getThis_scheduler_fiber (s : Switches) (w : Nat) :
    ((s.GetThis w).2.thread w).t_scheduler_fiber = (s.thread w).t_scheduler_fiber := by
  unfold GetThis
  split
  · rfl
  · simp

theorem Good.yieldTo {state : FiberState} (good : s.Good) (done : s.yieldTo w state = some t) :
    (t.Denotes ↔ (s.thread w).t_scheduler_fiber = (s.thread w).t_threadFiber) ∧ (t.Denotes → t.Good) := by
  unfold Switches.yieldTo at done
  simp only at done
  split at done
  · have scheduled := scheduled_of_swapOut done
    obtain ⟨f, current, executing⟩ := good.current (getThis_scheduler_fiber s w ▸ scheduled)
    rw [current] at done
    exact (good.setState f state).swapOut executing done
  · cases done

/-- From a good state, `t_fiber` is right after a paired step if and only if the step is not a `swapOut` to a
scheduler fiber other than the main fiber of the thread. -/
theorem Good.step {l : Nat × Op} (good : s.Good) (step : s.Step l t) (paired : s.Paired l t) :
    (t.Denotes ↔ s.Straight l t) ∧ (t.Denotes → t.Good) := by
  obtain ⟨w, op⟩ := l
  have other : t.Good → ¬ s.LeavesBySwapOut (w, op) → (t.Denotes ↔ s.Straight (w, op) t) ∧ (t.Denotes → t.Good) := by
    intro after stays
    exact ⟨⟨fun _ leaves => absurd leaves stays, fun _ => after.denotes⟩, fun _ => after⟩
  have leaves : s.LeavesBySwapOut (w, op) →
      (t.Denotes ↔ (s.thread w).t_scheduler_fiber = (s.thread w).t_threadFiber) ∧ (t.Denotes → t.Good) →
      (t.Denotes ↔ s.Straight (w, op) t) ∧ (t.Denotes → t.Good) := by
    intro leaves spec
    exact ⟨spec.1.trans ⟨fun same _ => same, fun straight => straight leaves⟩, spec.2⟩
  simp only [Step] at step
  cases op with
  | GetThis =>
    cases step
    exact other (good.getThis w).1 id
  | useCaller => exact other (good.useCaller step) id
  | run =>
    simp only [act] at step
    split at step
    · cases step
      exact other (good.run w) id
    · cases step
  | newFiber entry =>
    cases step
    exact other (good.newFiber entry) id
  | reset f => exact other (good.reset step) id
  | call f =>
    simp only [act] at step
    split at step
    · exact other (good.call paired step) id
    · cases step
  | back f =>
    simp only [act] at step
    split at step
    · exact other (good.back paired step) id
    · cases step
  | swapIn f =>
    simp only [act] at step
    split at step
    · exact other (good.swapIn paired step) id
    · cases step
  | swapOut f =>
    simp only [act] at step
    split at step
    · exact leaves trivial (good.swapOut paired step)
    · cases step
  | YieldToReady => exact leaves trivial (good.yieldTo step)
  | YieldToHold => exact leaves trivial (good.yieldTo step)
  | finish | throw =>
    obtain ⟨f, executing, step⟩ := Option.bind_eq_some_iff.mp step
    split at step
    · rename_i main
      exact leaves (by simp [LeavesBySwapOut, executing, main]) ((good.setState f _).swapOut executing step)
    · rename_i caller
      exact other ((good.setState f _).back executing step) (by simp [LeavesBySwapOut, executing, caller])
    · cases step

/-- On any number of threads, `t_fiber` is the fiber whose context executes in every state of a run in which the
switches are paired and no fiber is left with `swapOut` on a thread whose scheduler fiber is not its main fiber;
and among the runs with paired switches these are all. -/
theorem run_denotes_iff_straight {ls : List (Nat × Op)} :
    Run (Guarded Step fun s l t => s.Paired l t ∧ t.Denotes) {} ls t ↔
      Run (Guarded Step fun s l t => s.Paired l t ∧ s.Straight l t) {} ls t := by
  refine Run.guarded_congr Good (fun s l t good step => ?_) (fun s l t good step held => ?_) good_init
  · exact and_congr_right fun paired => (good.step step paired).1
  · exact (good.step step held.1).2 held.2

/-- The caller thread of a `use_caller` scheduler calls the root fiber, which swaps in fiber 2; that
one yields. -/
def yieldToRoot : List (Nat × Op) :=
  [(0, .useCaller), (0, .newFiber .MainFunc), (0, .call 1), (0, .swapIn 2), (0, .YieldToHold)]

/-- A thread calls fiber 1, fiber 1 calls fiber 2, and that one goes back. -/
def nestedCall : List (Nat × Op) :=
  [(0, .GetThis), (0, .newFiber .CallerMainFunc), (0, .newFiber .CallerMainFunc), (0, .call 1), (0, .call 2), (0, .back 2)]

/-- `Scheduler::run` goes on in the root fiber 1, while `t_fiber` is the main fiber 0; and so does fiber 1 when the
fiber 2 that it has called goes back, since its own `call` has saved its context in the main fiber. -/
theorem not_denotes_yieldToRoot :
    (∃ t, Run (Guarded Step Paired) {} yieldToRoot t ∧ (t.thread 0).executing = some 1 ∧
      (t.thread 0).t_fiber = some 0 ∧ ¬ t.Denotes) ∧
    ∃ t, Run (Guarded Step Straight) {} nestedCall t ∧ (t.thread 0).executing = some 1 ∧
      (t.thread 0).t_fiber = some 0 ∧ ¬ t.Denotes := by
  have wrong : ∀ t : Switches, (t.thread 0).executing = some 1 → (t.thread 0).t_fiber = some 0 → ¬ t.Denotes := by
    intro t executing current denotes
    have same := denotes 0
    rw [executing, current] at same
    cases same
  have yields : ∃ t, Run (Guarded Step Paired) {} yieldToRoot t ∧ (t.thread 0).executing = some 1 ∧
      (t.thread 0).t_fiber = some 0 :=
    ⟨_, .cons ⟨rfl, trivial⟩ <| .cons ⟨rfl, trivial⟩ <| .cons ⟨rfl, rfl⟩ <| .cons ⟨rfl, rfl⟩ <|
      .cons ⟨rfl, trivial⟩ .start, rfl, rfl⟩
  have nests : ∃ t, Run (Guarded Step Straight) {} nestedCall t ∧ (t.thread 0).executing = some 1 ∧
      (t.thread 0).t_fiber = some 0 :=
    ⟨_, .cons ⟨rfl, nofun⟩ <| .cons ⟨rfl, nofun⟩ <| .cons ⟨rfl, nofun⟩ <| .cons ⟨rfl, nofun⟩ <|
      .cons ⟨rfl, nofun⟩ <| .cons ⟨rfl, nofun⟩ .start, rfl, rfl⟩
  obtain ⟨t, steps, executing, current⟩ := yields
  obtain ⟨u, stepsNested, executingNested, currentNested⟩ := nests
  exact ⟨⟨t, steps, executing, current, wrong t executing current⟩,
    u, stepsNested, executingNested, currentNested, wrong u executingNested currentNested⟩

end Sylar.Switches
