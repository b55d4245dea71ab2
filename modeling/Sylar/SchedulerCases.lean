import Sylar.Scheduler

namespace Sylar.Scheduler

variable {κ : Type}

/-- `selected` finds no fiber that can be swapped in. -/
def NoFiber (s : Scheduler κ) (me : Worker κ) : Prop :=
  ∀ f, me.ft.fiber = some f → s.m_state f = .TERM ∨ s.m_state f = .EXCEPT

/-- `Fiber::reset` accepts the fiber. -/
def Resettable (s : Scheduler κ) (f : FiberId) : Prop :=
  s.m_state f = .TERM ∨ s.m_state f = .INIT ∨ s.m_state f = .EXCEPT

section State
variable {s : Scheduler κ} {f g : FiberId} {state other : FiberState}

theorem m_state_setState_self : (s.setState f state).m_state f = state := Function.update_self ..

theorem m_state_setState_of_ne (apart : g ≠ f) : (s.setState f state).m_state g = s.m_state g :=
  Function.update_of_ne apart _ _

theorem m_state_newFiber_of_ne (apart : g ≠ s.fibers) : s.newFiber.2.m_state g = s.m_state g :=
  Function.update_of_ne apart _ _

/-- A fiber has a state other than the one that was written: it is another fiber and had it before. -/
theorem m_state_of_setState (now : (s.setState f state).m_state g = other) (differs : state ≠ other) :
    g ≠ f ∧ s.m_state g = other := by
  by_cases same : g = f
  · rw [same, m_state_setState_self] at now
    exact absurd now differs
  · rw [m_state_setState_of_ne same] at now
    exact ⟨same, now⟩

theorem m_state_of_newFiber (now : s.newFiber.2.m_state g = other) (differs : .INIT ≠ other) : s.m_state g = other :=
  (m_state_of_setState (f := s.fibers) now differs).2

end State

/-- The branches of `Scheduler::run`, each with the tests that lead to it. -/
inductive Ran (s : Scheduler κ) (thread : Int) (me : Worker κ) : Scheduler κ → Worker κ → Prop
  | start : me.pc = .start → Ran s thread me s.newFiber.2 { pc := .select, idle_fiber := some s.fibers }
  | nothing : me.pc = .select → selectFrom s.m_state thread s.m_fibers = .nothing →
      Ran s thread me s { me with pc := .selected false }
  | entry {ft rest} : me.pc = .select → selectFrom s.m_state thread s.m_fibers = .entry ft rest →
      Ran s thread me { s with m_fibers := rest, m_activeThreadCount := s.m_activeThreadCount + 1 }
        { me with pc := .selected true, ft := ft }
  | fiber {is_active f} : me.pc = .selected is_active → me.ft.fiber = some f → s.m_state f ≠ .TERM →
      s.m_state f ≠ .EXCEPT → Ran s thread me s { me with pc := .swapIn .fiber }
  | resetCallback {is_active f} : me.pc = .selected is_active → s.NoFiber me → me.ft.cb.isSome →
      me.cb_fiber = some f → s.Resettable f →
      Ran s thread me (s.setState f .INIT) { me with pc := .swapIn .callback, ft := {}, cb_fiber := some f }
  | newCallback {is_active} : me.pc = .selected is_active → s.NoFiber me → me.ft.cb.isSome → me.cb_fiber = none →
      Ran s thread me s.newFiber.2 { me with pc := .swapIn .callback, ft := {}, cb_fiber := some s.fibers }
  | drop : me.pc = .selected true → s.NoFiber me → me.ft.cb = none →
      Ran s thread me { s with m_activeThreadCount := s.m_activeThreadCount - 1 }
        { me with pc := .select, ft := {} }
  | stop {f} : me.pc = .selected false → s.NoFiber me → me.ft.cb = none → me.idle_fiber = some f →
      s.m_state f = .TERM → Ran s thread me s { me with pc := .stopped }
  | idle : me.pc = .selected false → s.NoFiber me → me.ft.cb = none →
      (∀ f, me.idle_fiber = some f → s.m_state f ≠ .TERM) →
      Ran s thread me { s with m_idleThreadCount := s.m_idleThreadCount + 1 } { me with pc := .swapIn .idle }
  | swapIn {job f} : me.pc = .swapIn job → me.jobFiber job = some f → s.m_state f ≠ .EXEC →
      Ran s thread me (s.setState f .EXEC) { me with pc := .running job }
  | returnedIdle : me.pc = .returned .idle →
      Ran s thread me { s with m_idleThreadCount := s.m_idleThreadCount - 1 } { me with pc := .settle .idle }
  | returned {job} : me.pc = .returned job → job ≠ .idle →
      Ran s thread me { s with m_activeThreadCount := s.m_activeThreadCount - 1 } { me with pc := .settle job }
  | ready {job f} : me.pc = .settle job → me.jobFiber job = some f → s.m_state f = .READY → job ≠ .idle →
      Ran s thread me s { me with pc := .reschedule job }
  | suspended {job f} : me.pc = .settle job → me.jobFiber job = some f → (s.m_state f = .READY → job = .idle) →
      s.m_state f ≠ .TERM → s.m_state f ≠ .EXCEPT → Ran s thread me s { me with pc := .hold job }
  | ended {job f} : me.pc = .settle job → me.jobFiber job = some f →
      s.m_state f = .TERM ∨ s.m_state f = .EXCEPT → job ≠ .callback →
      Ran s thread me s { me with pc := .select, ft := {} }
  | endedCallback {f} : me.pc = .settle .callback → me.cb_fiber = some f →
      s.m_state f = .TERM ∨ s.m_state f = .EXCEPT → Ran s thread me s { me with pc := .recycle }
  | reschedule {job} : me.pc = .reschedule job →
      Ran s thread me (s.schedule { fiber := me.jobFiber job, thread := -1 })
        { me with pc := .select, ft := {}, cb_fiber := if job = .callback then none else me.cb_fiber }
  | hold {job f} : me.pc = .hold job → me.jobFiber job = some f →
      Ran s thread me (s.setState f .HOLD)
        { me with pc := .select, ft := {}, cb_fiber := if job = .callback then none else me.cb_fiber }
  | recycle {f} : me.pc = .recycle → me.cb_fiber = some f → s.Resettable f →
      Ran s thread me (s.setState f .INIT) { me with pc := .select }

/-- The state that the running fiber writes before it switches. -/
def Act.writes : Act κ → Option FiberState
  | .YieldToReady => some .READY
  | .YieldToHold => some .HOLD
  | .finish => some .TERM
  | .throw => some .EXCEPT
  | _ => none

/-- The steps of a thread, each with what it needs. -/
inductive Acted (s : Scheduler κ) (thread : Int) (me : Worker κ) : Act κ → Scheduler κ → Worker κ → Prop
  | run {t after} : Ran s thread me t after → Acted s thread me .run t after
  | leave {a state job f} : a.writes = some state → me.pc = .running job → me.jobFiber job = some f →
      (a = .YieldToReady ∨ a = .YieldToHold → s.m_state f = .EXEC) →
      Acted s thread me a (s.setState f state) { me with pc := .leaving job }
  | swapOut : me.pc = .running .idle → Acted s thread me .swapOut s { me with pc := .leaving .idle }
  | switch {job} : me.pc = .leaving job → Acted s thread me .switch s { me with pc := .returned job }
  | newFiber : Acted s thread me .newFiber s.newFiber.2 me
  | schedule {ft} : (∀ f, ft.fiber = some f → f < s.fibers) → Acted s thread me (.schedule ft) (s.schedule ft) me

variable {s t : Scheduler κ} {me after : Worker κ} {thread : Int}

theorem resetFiber_eq_some {f : FiberId} (done : s.resetFiber f = some t) :
    s.Resettable f ∧ t = s.setState f .INIT := by
  rw [resetFiber] at done
  split at done
  · rename_i ready
    exact ⟨ready, (Option.some.inj done).symm⟩
  · cases done

theorem noFiber_iff (s : Scheduler κ) (me : Worker κ) : s.NoFiber me ↔
    ¬ (me.ft.fiber.any fun f => s.m_state f ≠ .TERM ∧ s.m_state f ≠ .EXCEPT) = true := by
  cases fiber : me.ft.fiber with
  | none => simp [NoFiber, fiber]
  | some f => simp [NoFiber, fiber, or_iff_not_imp_left]

theorem selected_ran {is_active : Bool} (pc : me.pc = .selected is_active)
    (done : s.runStep thread me = some (t, after)) : s.Ran thread me t after := by
  simp only [runStep, pc] at done
  split at done
  · rename_i live
    obtain ⟨f, fiber, states⟩ := (Option.any_eq_true _ _).mp live
    have states := of_decide_eq_true states
    cases done
    exact .fiber pc fiber states.1 states.2
  rename_i dead
  have noFiber := (s.noFiber_iff me).mpr dead
  split at done
  · rename_i cb
    obtain ⟨⟨f, u⟩, prepared, done⟩ := Option.bind_eq_some_iff.mp done
    cases done
    cases old : me.cb_fiber with
    | some g =>
      rw [old] at prepared
      obtain ⟨v, reset, same⟩ := Option.map_eq_some_iff.mp prepared
      cases same
      obtain ⟨ready, rfl⟩ := resetFiber_eq_some reset
      exact .resetCallback pc noFiber cb old ready
    | none =>
      rw [old] at prepared
      cases prepared
      exact .newCallback pc noFiber cb old
  rename_i empty
  have noCb : me.ft.cb = none := by simpa using empty
  split at done
  · rename_i active
    subst active
    cases done
    exact .drop pc noFiber noCb
  rename_i passive
  rw [Bool.not_eq_true] at passive
  subst passive
  split at done
  · rename_i term
    obtain ⟨f, idle, term⟩ := (Option.any_eq_true _ _).mp term
    cases done
    exact .stop pc noFiber noCb idle (of_decide_eq_true term)
  · rename_i live
    cases done
    refine .idle pc noFiber noCb fun f idle term => live ?_
    simp [idle, term]

theorem settle_ran {job : Job} (pc : me.pc = .settle job) (done : s.runStep thread me = some (t, after)) :
    s.Ran thread me t after := by
  simp only [runStep, pc] at done
  obtain ⟨f, fiber, done⟩ := Option.bind_eq_some_iff.mp done
  split at done
  · rename_i ready
    cases done
    exact .ready pc fiber ready.1 ready.2
  rename_i notReady
  split at done
  · rename_i live
    cases done
    exact .suspended pc fiber (fun ready => by_contra fun other => notReady ⟨ready, other⟩) live.1 live.2
  rename_i dead
  have ended : s.m_state f = .TERM ∨ s.m_state f = .EXCEPT := by
    rw [not_and_or] at dead
    exact dead.imp not_not.mp not_not.mp
  split at done
  · rename_i callback
    cases done
    rw [callback] at pc fiber
    exact .endedCallback pc fiber ended
  · rename_i other
    cases done
    exact .ended pc fiber ended other

/-- Every step of `run` is one of its branches. -/
theorem runStep_ran (done : s.runStep thread me = some (t, after)) : s.Ran thread me t after := by
  cases pc : me.pc with
  | start =>
    simp only [runStep, pc] at done
    cases done
    exact .start pc
  | select =>
    simp only [runStep, pc] at done
    split at done
    · cases done
    · rename_i none
      cases done
      exact .nothing pc none
    · rename_i found
      cases done
      exact .entry pc found
  | selected is_active => exact selected_ran pc done
  | swapIn job =>
    simp only [runStep, pc] at done
    obtain ⟨f, fiber, done⟩ := Option.bind_eq_some_iff.mp done
    split at done
    · cases done
    · rename_i notExec
      cases done
      exact .swapIn pc fiber notExec
  | returned job =>
    cases job with
    | idle =>
      simp only [runStep, pc] at done
      cases done
      exact .returnedIdle pc
    | fiber | callback =>
      simp only [runStep, pc] at done
      cases done
      exact .returned pc (by decide)
  | settle job => exact settle_ran pc done
  | reschedule job =>
    simp only [runStep, pc] at done
    cases done
    exact .reschedule pc
  | hold job =>
    simp only [runStep, pc] at done
    obtain ⟨f, fiber, done⟩ := Option.bind_eq_some_iff.mp done
    cases done
    exact .hold pc fiber
  | recycle =>
    simp only [runStep, pc] at done
    obtain ⟨f, fiber, done⟩ := Option.bind_eq_some_iff.mp done
    obtain ⟨u, reset, done⟩ := Option.bind_eq_some_iff.mp done
    cases done
    obtain ⟨ready, rfl⟩ := resetFiber_eq_some reset
    exact .recycle pc fiber ready
  | running job => simp only [runStep, pc] at done; cases done
  | leaving job => simp only [runStep, pc] at done; cases done
  | stopped => simp only [runStep, pc] at done; cases done

theorem leave_eq_some {asserts : Bool} {state : FiberState} (done : s.leave me asserts state = some (t, after)) :
    ∃ job f, me.pc = .running job ∧ me.jobFiber job = some f ∧ (asserts → s.m_state f = .EXEC) ∧
      t = s.setState f state ∧ after = { me with pc := .leaving job } := by
  rw [leave] at done
  split at done
  · rename_i job pc
    obtain ⟨f, fiber, done⟩ := Option.bind_eq_some_iff.mp done
    split at done
    · cases done
    · rename_i holds
      cases done
      exact ⟨job, f, pc, fiber, fun asserts => by_contra fun other => holds ⟨asserts, other⟩, rfl, rfl⟩
  · cases done

theorem act_acted {a : Act κ} (done : s.act thread me a = some (t, after)) : s.Acted thread me a t after := by
  cases a with
  | run => exact .run (runStep_ran done)
  | YieldToReady | YieldToHold =>
    obtain ⟨job, f, pc, fiber, exec, rfl, rfl⟩ := leave_eq_some done
    exact .leave rfl pc fiber fun _ => exec rfl
  | finish | throw =>
    obtain ⟨job, f, pc, fiber, exec, rfl, rfl⟩ := leave_eq_some done
    exact .leave rfl pc fiber nofun
  | swapOut =>
    simp only [act] at done
    split at done
    · rename_i pc
      cases done
      exact .swapOut pc
    · cases done
  | switch =>
    simp only [act] at done
    split at done
    · rename_i pc
      cases done
      exact .switch pc
    · cases done
  | newFiber =>
    cases done
    exact .newFiber
  | schedule ft =>
    simp only [act] at done
    split at done
    · rename_i born
      cases done
      refine .schedule fun f fiber => ?_
      simpa [fiber] using born
    · cases done

end Sylar.Scheduler
