import Sylar.FiberCurrent

namespace Sylar.Switches
open Machine

variable {s t : Switches} {w : Nat} {f : FiberId}

/-- The scheduler fiber of every thread is its main fiber. -/
def Plain (s : Switches) : Prop :=
  ∀ w, (s.thread w).t_scheduler_fiber = none ∨ (s.thread w).t_scheduler_fiber = (s.thread w).t_threadFiber

theorem Plain.setThread {me : FiberThread} (plain : s.Plain)
    (mine : me.t_scheduler_fiber = none ∨ me.t_scheduler_fiber = me.t_threadFiber) : (s.setThread w me).Plain := by
  intro v
  by_cases same : v = w
  · rw [same, thread_setThread_self]
    exact mine
  · rw [thread_setThread_of_ne me same]
    exact plain v

theorem Plain.swapcontext {current : Option FiberId} {oucp ucp : FiberId} (plain : s.Plain)
    (done : (s.SetThis w current).swapcontext w oucp ucp = some t) : t.Plain := by
  obtain ⟨executing, -, done⟩ := Option.bind_eq_some_iff.mp done
  cases done
  have set : (s.SetThis w current).Plain := plain.setThread (plain w)
  exact Plain.setThread (s := { s.SetThis w current with m_ctx := _ }) set (set w)

theorem Plain.swapOut (plain : s.Plain) (done : s.swapOut w f = some t) : t.Plain := by
  obtain ⟨mainFiber, -, done⟩ := Option.bind_eq_some_iff.mp done
  exact plain.swapcontext done

/-- The main fiber that `GetThis` makes is the first fiber of its thread. -/
theorem Plain.getThis (plain : s.Plain) (good : s.Good) (w : Nat) : (s.GetThis w).2.Plain := by
  unfold GetThis
  split
  · exact plain
  · rename_i current
    refine Plain.setThread (s := { s with m_state := _, m_ctx := _, fibers := _ }) plain (.inl ?_)
    by_contra scheduled
    exact good.scheduled w scheduled ((good.denotes w).symm.trans current)

theorem Plain.run (plain : s.Plain) (good : s.Good) (starts : (s.thread w).executing = (s.thread w).t_threadFiber) :
    (s.run w).Plain := by
  refine (plain.getThis good w).setThread (.inr ?_)
  have main : some (s.GetThis w).1 = ((s.GetThis w).2.thread w).t_threadFiber := by
    unfold GetThis
    split
    · rename_i f current
      rw [← starts, ← good.denotes w, current]
    · simp
  exact main

theorem Plain.step {l : Nat × Op} (plain : s.Plain) (good : s.Good) (step : s.Step l t) (worker : l.2 ≠ .useCaller) :
    t.Plain := by
  obtain ⟨w, op⟩ := l
  simp only [Step] at step
  cases op with
  | GetThis =>
    cases step
    exact plain.getThis good w
  | useCaller => exact absurd rfl worker
  | run =>
    simp only [act] at step
    split at step
    · rename_i starts
      cases step
      exact plain.run good starts
    · cases step
  | newFiber entry =>
    cases step
    exact plain
  | reset f =>
    simp only [act, Switches.reset] at step
    split at step
    · cases step
      exact plain
    · cases step
  | call f =>
    simp only [act] at step
    split at step
    · obtain ⟨threadFiber, -, step⟩ := Option.bind_eq_some_iff.mp step
      exact Plain.swapcontext (s := s.setState f .EXEC) plain step
    · cases step
  | back f =>
    simp only [act] at step
    split at step
    · obtain ⟨threadFiber, -, step⟩ := Option.bind_eq_some_iff.mp step
      exact plain.swapcontext step
    · cases step
  | swapIn f =>
    simp only [act] at step
    split at step
    · obtain ⟨mainFiber, -, step⟩ := Option.bind_eq_some_iff.mp step
      split at step
      · cases step
      · exact Plain.swapcontext (s := s.setState f .EXEC) plain step
    · cases step
  | swapOut f =>
    simp only [act] at step
    split at step
    · exact plain.swapOut step
    · cases step
  | YieldToReady | YieldToHold =>
    simp only [act, Switches.yieldTo] at step
    split at step
    · exact Plain.swapOut (s := (s.GetThis w).2.setState _ _) (plain.getThis good w) step
    · cases step
  | finish | throw =>
    obtain ⟨f, -, step⟩ := Option.bind_eq_some_iff.mp step
    split at step
    · exact Plain.swapOut (s := s.setState f _) plain step
    · obtain ⟨threadFiber, -, step⟩ := Option.bind_eq_some_iff.mp step
      exact Plain.swapcontext (s := s.setState f _) plain step
    · cases step

theorem scheduled_of_leaves {l : Nat × Op} (step : s.Step l t) (leaves : s.LeavesBySwapOut l) :
    (s.thread l.1).t_scheduler_fiber ≠ none := by
  obtain ⟨w, op⟩ := l
  simp only [Step] at step
  cases op with
  | YieldToReady | YieldToHold =>
    simp only [act, Switches.yieldTo] at step
    split at step
    · have scheduled := scheduled_of_swapOut step
      exact getThis_scheduler_fiber s w ▸ scheduled
    · cases step
  | swapOut f =>
    simp only [act] at step
    split at step
    · exact scheduled_of_swapOut step
    · cases step
  | finish | throw =>
    obtain ⟨f, executing, step⟩ := Option.bind_eq_some_iff.mp step
    have main : s.entry f = some .MainFunc := by simpa [LeavesBySwapOut, executing] using leaves
    simp only [main] at step
    have scheduled := scheduled_of_swapOut step
    exact scheduled
  | _ => exact absurd leaves id

/-- On worker threads, without a `use_caller` scheduler, `t_fiber` is always right if the switches are paired. -/
theorem workers_denote {ls : List (Nat × Op)}
    (run : Run (Guarded Step fun s l t => s.Paired l t ∧ l.2 ≠ .useCaller) {} ls t) : t.Denotes := by
  suffices both : t.Good ∧ t.Plain from both.1.denotes
  induction run with
  | start => exact ⟨good_init, fun _ => .inl rfl⟩
  | @next _ s l t _ step ih =>
    obtain ⟨good, plain⟩ := ih
    obtain ⟨made, paired, worker⟩ := step
    have straight : s.Straight l t := fun leaves => (plain l.1).resolve_left (scheduled_of_leaves made leaves)
    have spec := good.step made paired
    exact ⟨spec.2 (spec.1.mpr straight), plain.step good made worker⟩

end Sylar.Switches
