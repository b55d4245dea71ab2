import Sylar.SoloLife

namespace Sylar.Scheduler

variable {κ : Type}

variable {s t : Scheduler κ} {me after : Worker κ} {thread : Int} {a : Act κ} {f g : FiberId}

/-- The worker has the fiber of its job, and with no other worker around no fiber is `EXEC` but the
one on whose stack it is. -/
structure Steady (s : Scheduler κ) (me : Worker κ) : Prop where
  first : me.pc = .start → me.cb_fiber = none
  fresh : me.pc = .start → me.idle_fiber = none
  idle : me.pc ≠ .start → me.idle_fiber ≠ none
  held : ∀ job, me.pc.job = some job → me.jobFiber job ≠ none
  exec : ∀ f, s.m_state f = .EXEC → ∃ job, me.pc.onStack = some job ∧ me.jobFiber job = some f
  running : ∀ job f, me.pc = .running job → me.jobFiber job = some f → s.m_state f = .EXEC

/-- No step of the worker leads back to the start. -/
theorem Acted.of_start (acted : s.Acted thread me a t after) (pc : after.pc = .start) : after = me := by
  cases acted with
  | run ran => cases ran <;> cases pc
  | leave | swapOut | switch => cases pc
  | newFiber | schedule => rfl

namespace Steady

variable (steady : s.Steady me)
include steady

/-- Away from the stack of a fiber no fiber is `EXEC`. -/
theorem not_exec (away : me.pc.onStack = none) (f : FiberId) : s.m_state f ≠ .EXEC := by
  intro exec
  obtain ⟨job, stack, -⟩ := steady.exec f exec
  cases away.symm.trans stack

/-- On the stack of a fiber no other is `EXEC`. -/
theorem exec_eq {job : Job} (stack : me.pc.onStack = some job) (fiber : me.jobFiber job = some f)
    (exec : s.m_state g = .EXEC) : g = f := by
  obtain ⟨job', stack', fiber'⟩ := steady.exec g exec
  cases stack.symm.trans stack'
  exact Option.some.inj (fiber'.symm.trans fiber)

theorem acted_exec (acted : s.Acted thread me a t after) (exec : t.m_state g = .EXEC) :
    ∃ job, after.pc.onStack = some job ∧ after.jobFiber job = some g := by
  have away : ∀ p, me.pc = p → p.onStack = none → ¬ s.m_state g = .EXEC := by
    intro p pc none
    exact steady.not_exec (by rw [pc]; exact none) g
  have stays : ∀ p, me.pc = p → p.onStack = after.pc.onStack → after.jobFiber = me.jobFiber → s.m_state g = .EXEC →
      ∃ job, after.pc.onStack = some job ∧ after.jobFiber job = some g := by
    intro p pc same jobs exec
    obtain ⟨job, stack, fiber⟩ := steady.exec g exec
    rw [pc, same] at stack
    exact ⟨job, stack, jobs ▸ fiber⟩
  -- a state other than `EXEC` is written to the fiber of the stack
  have leaves : ∀ job f state, me.pc.onStack = some job → me.jobFiber job = some f → state ≠ .EXEC →
      ¬ (s.setState f state).m_state g = .EXEC := by
    intro job f state stack fiber other exec
    obtain ⟨ne, before⟩ := m_state_of_setState exec other
    exact ne (steady.exec_eq stack fiber before)
  have settles : ∀ job f, me.pc = .settle job → me.jobFiber job = some f → s.m_state f ≠ .EXEC →
      ¬ s.m_state g = .EXEC := by
    intro job f pc fiber other exec
    exact other (steady.exec_eq (by rw [pc]; rfl) fiber exec ▸ exec)
  cases acted with
  | run ran =>
    cases ran with
    | start pc | newCallback pc => exact absurd (m_state_of_newFiber exec (by decide)) (away _ pc rfl)
    | nothing pc | entry pc | fiber pc | drop pc | stop pc | idle pc | reschedule pc => exact absurd exec (away _ pc rfl)
    | resetCallback pc => exact absurd (m_state_of_setState exec (by decide)).2 (away _ pc rfl)
    | recycle pc => exact absurd (m_state_of_setState exec (by decide)).2 (away _ pc rfl)
    | @swapIn job f pc fiber =>
      by_cases same : g = f
      · exact ⟨job, rfl, same ▸ fiber⟩
      · rw [m_state_setState_of_ne same] at exec
        exact absurd exec (away _ pc rfl)
    | returnedIdle pc | returned pc | suspended pc => exact stays _ pc rfl rfl exec
    | ready pc fiber ready => exact absurd exec (settles _ _ pc fiber (by rw [ready]; nofun))
    | ended pc fiber ended => exact absurd exec (settles _ _ pc fiber (by rcases ended with h | h <;> rw [h] <;> nofun))
    | endedCallback pc fiber ended =>
      exact absurd exec (settles .callback _ pc fiber (by rcases ended with h | h <;> rw [h] <;> nofun))
    | hold pc fiber => exact absurd exec (leaves _ _ _ (by rw [pc]; rfl) fiber (by decide))
  | @leave _ state _ _ writes pc fiber =>
    have other : state ≠ .EXEC := by
      cases a <;> cases writes <;> decide
    exact absurd exec (leaves _ _ _ (by rw [pc]; rfl) fiber other)
  | swapOut pc | switch pc => exact stays _ pc rfl rfl exec
  | newFiber => exact steady.exec g (m_state_of_newFiber exec (by decide))
  | schedule => exact steady.exec g exec

theorem acted_held (acted : s.Acted thread me a t after) {job : Job} (at_ : after.pc.job = some job) :
    after.jobFiber job ≠ none := by
  have stays : ∀ p, me.pc = p → p.job = after.pc.job → after.jobFiber = me.jobFiber → after.jobFiber job ≠ none := by
    intro p pc same jobs
    rw [jobs]
    exact steady.held job (by rw [pc, same]; exact at_)
  cases acted with
  | run ran =>
    cases ran with
    | start | nothing | entry | drop | stop | ended | reschedule | hold | recycle => cases at_
    | fiber pc fiber =>
      cases at_
      simp only [Worker.jobFiber, fiber]
      exact Option.some_ne_none _
    | resetCallback | newCallback =>
      cases at_
      exact Option.some_ne_none _
    | idle pc =>
      cases at_
      exact steady.idle (by rw [pc]; exact RunPc.noConfusion)
    | swapIn pc | returnedIdle pc | returned pc | ready pc | suspended pc | endedCallback pc =>
      exact stays _ pc rfl rfl
  | leave _ pc | swapOut pc | switch pc => exact stays _ pc rfl rfl
  | newFiber | schedule => exact steady.held job at_

theorem acted_running (acted : s.Acted thread me a t after) (born : ∀ job f, me.jobFiber job = some f → f < s.fibers)
    {job : Job} (pc : after.pc = .running job) (fiber : after.jobFiber job = some f) : t.m_state f = .EXEC := by
  cases acted with
  | run ran =>
    cases ran with
    | swapIn _ mine =>
      cases pc
      cases mine.symm.trans fiber
      exact m_state_setState_self
    | _ => cases pc
  | leave | swapOut | switch => cases pc
  | newFiber =>
    rw [m_state_newFiber_of_ne (Nat.ne_of_lt (born job f fiber))]
    exact steady.running job f pc fiber
  | schedule => exact steady.running job f pc fiber

theorem acted (acted : s.Acted thread me a t after) (born : ∀ job f, me.jobFiber job = some f → f < s.fibers) :
    t.Steady after where
  first pc := by
    obtain rfl := acted.of_start pc
    exact steady.first pc
  fresh pc := by
    obtain rfl := acted.of_start pc
    exact steady.fresh pc
  idle := by
    intro other
    cases acted with
    | run ran =>
      cases ran with
      | start => nofun
      | nothing pc | entry pc | fiber pc | resetCallback pc | newCallback pc | drop pc | stop pc | idle pc | swapIn pc
      | returnedIdle pc | returned pc | ready pc | suspended pc | ended pc | endedCallback pc | reschedule pc | hold pc
      | recycle pc => exact steady.idle (by rw [pc]; exact RunPc.noConfusion)
    | leave _ pc | swapOut pc | switch pc => exact steady.idle (by rw [pc]; exact RunPc.noConfusion)
    | newFiber | schedule => exact steady.idle other
  held _ at_ := steady.acted_held acted at_
  exec _ exec := steady.acted_exec acted exec
  running _ _ pc fiber := steady.acted_running acted born pc fiber

/-- The idle fiber of a worker stays its idle fiber. -/
theorem acted_idle_fiber (acted : s.Acted thread me a t after) (idle : me.idle_fiber = some g) :
    after.idle_fiber = some g := by
  cases acted with
  | run ran =>
    cases ran with
    | start pc => cases (steady.fresh pc).symm.trans idle
    | _ => exact idle
  | _ => exact idle

end Steady

theorem Acted.fibers_le (acted : s.Acted thread me a t after) : t.fibers ≤ s.fibers + 1 := by
  cases acted with
  | run ran =>
    cases ran with
    | start | newCallback => exact Nat.le_refl _
    | _ => exact Nat.le_succ _
  | newFiber => exact Nat.le_refl _
  | _ => exact Nat.le_succ _

/-- `scheduleNoLock` lets no empty entry into the queue. -/
theorem Acted.accepted (acted : s.Acted thread me a t after) (accepted : ∀ ft ∈ s.m_fibers, ft.accepted) :
    ∀ ft ∈ t.m_fibers, ft.accepted := by
  have appended : ∀ ft, ∀ it ∈ (s.schedule ft).m_fibers, it.accepted := by
    intro ft it member
    rw [m_fibers_schedule] at member
    rcases List.mem_append.mp member with old | new
    · exact accepted it old
    · exact (List.mem_filter.mp new).2
  cases acted with
  | run ran =>
    cases ran with
    | entry _ found =>
      intro ft member
      exact accepted ft ((selectFrom_entry found).mem_iff.mpr (List.mem_cons_of_mem _ member))
    | reschedule => exact appended _
    | _ => exact accepted
  | schedule => exact appended _
  | leave | swapOut | switch | newFiber => exact accepted

end Sylar.Scheduler
