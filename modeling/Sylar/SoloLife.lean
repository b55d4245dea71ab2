import Sylar.Solo

/-! How a fiber stands with the only worker: at work, kept as the spare `cb_fiber`, or at rest. -/

namespace Sylar

variable {κ : Type}

theorem RunPc.job_of_eq {p q : RunPc} {job : Job} (same : p = q) (at_ : p.job = some job) : q.job = some job :=
  same ▸ at_

/-- The worker is not at the fiber. -/
def Worker.Off (me : Worker κ) (g : FiberId) : Prop := ∀ job, me.pc.job = some job → me.jobFiber job ≠ some g

namespace Scheduler

variable {s t : Scheduler κ} {me after : Worker κ} {thread : Int} {a : Act κ} {f g : FiberId}

theorem off_ne (job : Job) (off : me.Off g) (at_ : me.pc.job = some job) (fiber : me.jobFiber job = some f) : g ≠ f :=
  fun same => off job at_ (same ▸ fiber)

/-- A step writes the state of the fiber that the worker is at, before or after, and of no other. -/
theorem Acted.m_state_off (acted : s.Acted thread me a t after) (off : me.Off g) (offAfter : after.Off g)
    (born : g < s.fibers) : t.m_state g = s.m_state g := by
  have old : g ≠ s.fibers := Nat.ne_of_lt born
  cases acted with
  | run ran =>
    cases ran with
    | start | newCallback => exact m_state_newFiber_of_ne old
    | resetCallback => exact m_state_setState_of_ne (off_ne _ offAfter rfl rfl)
    | swapIn pc fiber | hold pc fiber => exact m_state_setState_of_ne (off_ne _ off (by rw [pc]; rfl) fiber)
    | recycle pc fiber => exact m_state_setState_of_ne (off_ne .callback off (by rw [pc]; rfl) fiber)
    | _ => rfl
  | leave _ pc fiber => exact m_state_setState_of_ne (off_ne _ off (by rw [pc]; rfl) fiber)
  | newFiber => exact m_state_newFiber_of_ne old
  | swapOut | switch | schedule => rfl

/-- `cb_fiber` changes hands only while the worker is at it. -/
theorem Acted.cb_fiber_off (acted : s.Acted thread me a t after) (off : me.Off g) (born : g < s.fibers)
    (first : me.pc = .start → me.cb_fiber = none) : after.cb_fiber = some g ↔ me.cb_fiber = some g := by
  have dropped : ∀ job, me.pc.job = some job →
      ((if job = .callback then none else me.cb_fiber) = some g ↔ me.cb_fiber = some g) := by
    intro job at_
    split
    · rename_i callback
      subst callback
      exact ⟨nofun, fun mine => absurd mine (off .callback at_)⟩
    · exact Iff.rfl
  cases acted with
  | run ran =>
    cases ran with
    | start pc => simp [first pc]
    | resetCallback _ _ _ cb => simp [cb]
    | newCallback _ _ _ cb =>
      have other : s.fibers ≠ g := (Nat.ne_of_lt born).symm
      simp [cb, other]
    | reschedule pc | hold pc => exact dropped _ (by rw [pc]; rfl)
    | _ => exact Iff.rfl
  | _ => exact Iff.rfl

/-- The worker takes up a fiber with the entry that it has found, or with the callback of the entry. -/
inductive Enters (s : Scheduler κ) (me : Worker κ) (g : FiberId) : Act κ → Scheduler κ → Worker κ → Prop
  | fiber {is_active} : me.pc = .selected is_active → me.ft.fiber = some g → s.m_state g ≠ .TERM →
      s.m_state g ≠ .EXCEPT → Enters s me g .run s { me with pc := .swapIn .fiber }
  | callback {is_active} : me.pc = .selected is_active → s.NoFiber me → me.ft.cb.isSome → me.cb_fiber = some g →
      Enters s me g .run (s.setState g .INIT) { me with pc := .swapIn .callback, ft := {}, cb_fiber := some g }

theorem Acted.enters (acted : s.Acted thread me a t after) (off : me.Off g) (notOff : ¬ after.Off g)
    (born : g < s.fibers) (notIdle : me.idle_fiber ≠ some g) : s.Enters me g a t after := by
  obtain ⟨job, at_, mine⟩ : ∃ job, after.pc.job = some job ∧ after.jobFiber job = some g := by
    by_contra none
    exact notOff fun job at_ mine => none ⟨job, at_, mine⟩
  -- a step inside of a branch was at the fiber before
  have stays : ∀ p, me.pc = p → p.job = after.pc.job → after.jobFiber = me.jobFiber → False := by
    intro p pc same jobs
    refine off job ?_ (jobs ▸ mine)
    rw [pc, same]
    exact at_
  cases acted with
  | run ran =>
    cases ran with
    | start | nothing | entry | drop | stop | ended | reschedule | hold => cases at_
    | fiber pc fiber notTerm notExcept =>
      cases at_
      cases fiber.symm.trans mine
      exact .fiber pc fiber notTerm notExcept
    | resetCallback pc noFiber cb old ready =>
      cases at_
      cases mine
      exact .callback pc noFiber cb old
    | newCallback =>
      cases at_
      exact absurd (Option.some.inj mine) (Nat.ne_of_gt born)
    | idle =>
      cases at_
      exact absurd mine notIdle
    | swapIn pc | returnedIdle pc | returned pc | ready pc | suspended pc | endedCallback pc =>
      exact (stays _ pc rfl rfl).elim
    | recycle => cases at_
  | leave _ pc | swapOut pc | switch pc => exact (stays _ pc rfl rfl).elim
  | newFiber | schedule => exact absurd mine (off job at_)

end Scheduler

/-- How a fiber stands with the worker, given its state, the task in it and whether anything refers to
it. A fiber that the worker is at has a task under way or one that has ended, and a `cb_fiber` that
has ended has no wake-up left. A `cb_fiber` between two callbacks is spare: nobody but the worker
knows it. Any other fiber has a task, or has ended for good. -/
inductive Life (me : Worker κ) (g : FiberId) (state : FiberState) (task : Option Nat) (refers : Prop) : Prop
  | busy {job} : me.pc.job = some job → me.jobFiber job = some g → (me.cb_fiber = some g → job = .callback) →
      me.pc ≠ .recycle → task ≠ none → ¬ state.Ended → Life me g state task refers
  | ended {job} : me.pc.job = some job → me.jobFiber job = some g → me.pc.ending → state.Ended →
      (me.cb_fiber = some g → job = .callback ∧ ¬ refers) → Life me g state task refers
  | spare : me.Off g → me.cb_fiber = some g → state = .INIT → task = none → ¬ refers → me.ft.fiber ≠ some g →
      Life me g state task refers
  | rest : me.Off g → me.cb_fiber ≠ some g → task ≠ none ∨ state.Ended → Life me g state task refers

/-- Fewer references do no harm. -/
theorem Life.refers {me : Worker κ} {g : FiberId} {state : FiberState} {task : Option Nat} {before after : Prop}
    (life : Life me g state task before)
    (fewer : me.cb_fiber = some g → task = none ∨ state.Ended → after → before) : Life me g state task after := by
  cases life with
  | busy at_ mine only notRecycle task live => exact .busy at_ mine only notRecycle task live
  | ended at_ mine ending ended only =>
    exact .ended at_ mine ending ended fun cb => ⟨(only cb).1, fun now => (only cb).2 (fewer cb (.inr ended) now)⟩
  | spare off mine init empty free apart =>
    exact .spare off mine init empty (fun now => free (fewer mine (.inl empty) now)) apart
  | rest off other lives => exact .rest off other lives

namespace Solo

variable {s : Solo κ} {t : Scheduler κ} {after : Worker κ} {thread : Int} {a : Scheduler.Act κ} {f g : FiberId}

theorem cbAfter_of_none (none : s.writesCb a = none) : s.cbAfter a = s.m_cb := by
  rw [cbAfter, none]

theorem cbAfter_of_some {task : Option Nat} (writes : s.writesCb a = some (f, task)) :
    s.cbAfter a = Function.update s.m_cb f task := by
  rw [cbAfter, writes]

theorem cbAfter_of_ne {task : Option Nat} (writes : s.writesCb a = some (f, task)) (other : g ≠ f) :
    s.cbAfter a g = s.m_cb g := by
  rw [cbAfter_of_some writes, Function.update_of_ne other]

theorem cbAfter_self {task : Option Nat} (writes : s.writesCb a = some (f, task)) : s.cbAfter a f = task := by
  rw [cbAfter_of_some writes, Function.update_self]

/-- The callback branch of `run` puts a task into `cb_fiber`. -/
theorem writesCb_callback {is_active : Bool} (pc : s.me.pc = .selected is_active)
    (noFiber : s.scheduler.NoFiber s.me) (cb : s.me.ft.cb.isSome) :
    s.writesCb .run = some (s.me.cb_fiber.getD s.scheduler.fibers, some s.tasks) := by
  have dead := (s.scheduler.noFiber_iff s.me).mp noFiber
  simp only [writesCb, pc]
  rw [if_neg dead, if_pos cb]

theorem writesCb_recycle (pc : s.me.pc = .recycle) (cb : s.me.cb_fiber = some f) :
    s.writesCb .run = some (f, none) := by
  simp only [writesCb, pc, cb, Option.map_some]

theorem writesCb_finish {job : Job} (pc : s.me.pc = .running job) (fiber : s.me.jobFiber job = some f) :
    s.writesCb .finish = some (f, none) := by
  simp only [writesCb, pc, fiber, Option.map_some]

theorem writesCb_fiber {is_active : Bool} (pc : s.me.pc = .selected is_active) (fiber : s.me.ft.fiber = some f)
    (notTerm : s.scheduler.m_state f ≠ .TERM) (notExcept : s.scheduler.m_state f ≠ .EXCEPT) :
    s.writesCb .run = none := by
  simp [writesCb, pc, fiber, notTerm, notExcept]

/-- The other steps write no `m_cb`. -/
theorem writesCb_run_eq_none (ran : s.scheduler.Ran thread s.me t after) (start : s.me.pc ≠ .start)
    (recycle : s.me.pc ≠ .recycle) (callback : after.pc ≠ .swapIn .callback) : s.writesCb .run = none := by
  cases ran with
  | start pc => exact absurd pc start
  | recycle pc => exact absurd pc recycle
  | resetCallback | newCallback => exact absurd rfl callback
  | fiber pc fiber notTerm notExcept => exact writesCb_fiber pc fiber notTerm notExcept
  | drop pc _ cb | stop pc _ cb | idle pc _ cb => simp [writesCb, pc, cb]
  | nothing pc | entry pc | swapIn pc | returnedIdle pc | returned pc | ready pc | suspended pc | ended pc
  | endedCallback pc | reschedule pc | hold pc => simp [writesCb, pc]

/-- A step writes the function of the fiber that the worker is at, before or after, and of no other. -/
theorem cbAfter_off (acted : s.scheduler.Acted thread s.me a t after) (off : s.me.Off g) (offAfter : after.Off g)
    (born : g < s.scheduler.fibers) : s.cbAfter a g = s.m_cb g := by
  have old : g ≠ s.scheduler.fibers := Nat.ne_of_lt born
  cases acted with
  | run ran =>
    have still := writesCb_run_eq_none ran
    cases ran with
    | start pc => exact cbAfter_of_ne (by simp only [writesCb, pc]; rfl) old
    | resetCallback pc noFiber cb mine =>
      refine cbAfter_of_ne (writesCb_callback pc noFiber cb) ?_
      rw [mine]
      exact Scheduler.off_ne _ offAfter rfl rfl
    | newCallback pc noFiber cb mine =>
      refine cbAfter_of_ne (writesCb_callback pc noFiber cb) ?_
      rwa [mine]
    | recycle pc mine =>
      exact cbAfter_of_ne (writesCb_recycle pc mine) (Scheduler.off_ne .callback off (by rw [pc]; rfl) mine)
    | nothing pc | entry pc | fiber pc | drop pc | stop pc | idle pc | swapIn pc | returnedIdle pc | returned pc
    | ready pc | suspended pc | ended pc | endedCallback pc | reschedule pc | hold pc =>
      rw [cbAfter_of_none (still (by rw [pc]; nofun) (by rw [pc]; nofun) nofun)]
  | @leave _ _ job f writes pc fiber =>
    have other : g ≠ f := Scheduler.off_ne _ off (by rw [pc]; rfl) fiber
    cases a with
    | finish => exact cbAfter_of_ne (writesCb_finish pc fiber) other
    | YieldToReady | YieldToHold | throw => rw [cbAfter_of_none rfl]
    | _ => cases writes
  | newFiber => exact cbAfter_of_ne rfl old
  | swapOut | switch | schedule => rw [cbAfter_of_none rfl]

/-- What a fiber needs from a step: a wake-up of a `cb_fiber` is asked for only while a task is under
way in it, and a task that ends in its `cb_fiber` leaves no wake-up behind. -/
structure Allows (s : Solo κ) (a : Scheduler.Act κ) (g : FiberId) : Prop where
  asks : a.woken = some g → s.me.cb_fiber = some g → s.Busy g
  ends : a = .finish ∨ a = .throw → s.me.pc = .running .callback → s.me.cb_fiber = some g → ¬ s.Refers g

def LifeOf (s : Solo κ) (g : FiberId) : Prop := Life s.me g (s.scheduler.m_state g) (s.m_cb g) (s.Refers g)

section Acted
variable {refers : Prop} (acted : s.scheduler.Acted thread s.me a t after) (born : g < s.scheduler.fibers)
  (notIdle : s.me.idle_fiber ≠ some g) (allows : s.Allows a g)
  (refs : refers → s.Refers g ∨ a.woken = some g ∨ ∃ job, s.me.pc = .reschedule job ∧ s.me.jobFiber job = some g)

include refs allows in
theorem unreferred_of_not_busy (mine : s.me.cb_fiber = some g) (before : ¬ s.Refers g) (notBusy : ¬ s.Busy g)
    (other : ∀ job, s.me.pc = .reschedule job → s.me.jobFiber job ≠ some g) : ¬ refers := by
  intro after
  rcases refs after with old | asked | ⟨job, pc, fiber⟩
  · exact before old
  · exact notBusy (allows.asks asked mine)
  · exact other job pc fiber

include acted born allows refs in
theorem LifeOf.off (life : s.LifeOf g) (off : s.me.Off g) (offAfter : after.Off g)
    (first : s.me.pc = .start → s.me.cb_fiber = none) : Life after g (t.m_state g) (s.cbAfter a g) refers := by
  rw [acted.m_state_off off offAfter born, cbAfter_off acted off offAfter born]
  have same := acted.cb_fiber_off off born first
  cases life with
  | busy at_ mine => exact absurd mine (off _ at_)
  | ended at_ mine => exact absurd mine (off _ at_)
  | spare _ mine init empty free apart =>
    refine .spare offAfter (same.mpr mine) init empty ?_ ?_
    · exact unreferred_of_not_busy allows refs mine free (fun busy => busy.1 empty)
        fun job pc => off job (by rw [pc]; rfl)
    · intro fiber
      rcases acted.ft_fiber fiber with old | queued
      · exact apart old
      · exact free (.inl queued)
  | rest _ other lives => exact .rest offAfter (fun mine => other (same.mp mine)) lives

theorem LifeOf.enters (life : s.LifeOf g) (off : s.me.Off g) (enters : s.scheduler.Enters s.me g a t after) :
    Life after g (t.m_state g) (s.cbAfter a g) refers := by
  cases enters with
  | fiber pc fiber notTerm notExcept =>
    have live : ¬ (s.scheduler.m_state g).Ended := fun ended => ended.elim notTerm notExcept
    rw [cbAfter_of_none (writesCb_fiber pc fiber notTerm notExcept)]
    cases life with
    | busy at_ mine => exact absurd mine (off _ at_)
    | ended at_ mine => exact absurd mine (off _ at_)
    | spare _ _ _ _ _ apart => exact absurd fiber apart
    | rest _ other lives => exact .busy rfl fiber (fun mine => absurd mine other) nofun (lives.resolve_right live) live
  | callback pc noFiber cb mine =>
    have writes := writesCb_callback pc noFiber cb
    rw [mine, Option.getD_some] at writes
    rw [cbAfter_self writes, Scheduler.m_state_setState_self]
    exact .busy rfl rfl (fun _ => rfl) nofun nofun (by simp [FiberState.Ended])

include acted born notIdle allows refs in
/-- A task that is under way goes on, is put back, or ends. -/
theorem busy_acted {job : Job} (at_ : s.me.pc.job = some job) (mine : s.me.jobFiber job = some g)
    (only : s.me.cb_fiber = some g → job = .callback) (notRecycle : s.me.pc ≠ .recycle) (task : s.m_cb g ≠ none)
    (live : ¬ (s.scheduler.m_state g).Ended) : Life after g (t.m_state g) (s.cbAfter a g) refers := by
  have old : g ≠ s.scheduler.fibers := Nat.ne_of_lt born
  have otherCb : (if job = .callback then none else s.me.cb_fiber) ≠ some g := by
    split
    · nofun
    · rename_i other
      exact fun cb => other (only cb)
  have offSelect : ∀ {ft cb_fiber idle_fiber}, ({ pc := .select, ft, cb_fiber, idle_fiber } : Worker κ).Off g := nofun
  cases acted with
  | run ran =>
    have still := writesCb_run_eq_none ran
    cases ran with
    | start pc | nothing pc | entry pc | fiber pc | resetCallback pc | newCallback pc | drop pc | stop pc | idle pc =>
      cases RunPc.job_of_eq pc at_
    | recycle pc => exact absurd pc notRecycle
    | swapIn pc fiber =>
      rw [cbAfter_of_none (still (by rw [pc]; nofun) notRecycle nofun)]
      cases RunPc.job_of_eq pc at_
      cases fiber.symm.trans mine
      rw [Scheduler.m_state_setState_self]
      exact .busy rfl mine only nofun task (by simp [FiberState.Ended])
    | returnedIdle pc =>
      cases RunPc.job_of_eq pc at_
      exact absurd mine notIdle
    | returned pc | ready pc | suspended pc =>
      rw [cbAfter_of_none (still (by rw [pc]; nofun) notRecycle nofun)]
      cases RunPc.job_of_eq pc at_
      exact .busy rfl mine only nofun task live
    | ended pc fiber ended =>
      cases RunPc.job_of_eq pc at_
      cases fiber.symm.trans mine
      exact absurd ended live
    | endedCallback pc fiber ended =>
      cases RunPc.job_of_eq pc at_
      cases fiber.symm.trans mine
      exact absurd ended live
    | reschedule pc =>
      rw [cbAfter_of_none (still (by rw [pc]; nofun) notRecycle nofun)]
      cases RunPc.job_of_eq pc at_
      exact .rest offSelect otherCb (.inl task)
    | hold pc =>
      rw [cbAfter_of_none (still (by rw [pc]; nofun) notRecycle nofun)]
      cases RunPc.job_of_eq pc at_
      exact .rest offSelect otherCb (.inl task)
  | @leave _ state job' f writes pc fiber =>
    cases RunPc.job_of_eq pc at_
    cases fiber.symm.trans mine
    rw [Scheduler.m_state_setState_self]
    have left : a = .finish ∨ a = .throw → s.me.cb_fiber = some g → ¬ refers := by
      intro how cb after
      rcases refs after with before | asked | ⟨_, back, _⟩
      · exact allows.ends how (only cb ▸ pc) cb before
      · rcases how with rfl | rfl <;> cases asked
      · cases pc.symm.trans back
    cases a with
    | YieldToReady | YieldToHold =>
      cases writes
      rw [cbAfter_of_none rfl]
      exact .busy rfl mine only nofun task (by simp [FiberState.Ended])
    | finish =>
      cases writes
      exact .ended rfl mine rfl (.inl rfl) fun cb => ⟨only cb, left (.inl rfl) cb⟩
    | throw =>
      cases writes
      exact .ended rfl mine rfl (.inr rfl) fun cb => ⟨only cb, left (.inr rfl) cb⟩
    | _ => cases writes
  | swapOut pc =>
    cases RunPc.job_of_eq pc at_
    exact absurd mine notIdle
  | switch pc =>
    rw [cbAfter_of_none rfl]
    cases RunPc.job_of_eq pc at_
    exact .busy rfl mine only nofun task live
  | newFiber =>
    rw [cbAfter_of_ne rfl old, Scheduler.m_state_newFiber_of_ne old]
    exact .busy at_ mine only notRecycle task live
  | schedule =>
    rw [cbAfter_of_none rfl]
    exact .busy at_ mine only notRecycle task live

include acted born notIdle allows refs in
/-- A task that has ended is put down for good, or its `cb_fiber` becomes the spare one. -/
theorem ended_acted {job : Job} (at_ : s.me.pc.job = some job) (mine : s.me.jobFiber job = some g)
    (ending : s.me.pc.ending) (ended : (s.scheduler.m_state g).Ended)
    (only : s.me.cb_fiber = some g → job = .callback ∧ ¬ s.Refers g) (tidy : s.me.Tidy) :
    Life after g (t.m_state g) (s.cbAfter a g) refers := by
  have old : g ≠ s.scheduler.fibers := Nat.ne_of_lt born
  have left : s.me.cb_fiber = some g → ¬ refers := by
    intro cb
    refine unreferred_of_not_busy allows refs cb (only cb).2 (fun busy => busy.2 ended) fun job pc => ?_
    rw [pc] at ending
    cases ending
  have onlyAfter : s.me.cb_fiber = some g → job = .callback ∧ ¬ refers := fun cb => ⟨(only cb).1, left cb⟩
  cases acted with
  | run ran =>
    cases ran with
    | start pc | nothing pc | entry pc | fiber pc | resetCallback pc | newCallback pc | drop pc | stop pc | idle pc
    | swapIn pc | reschedule pc | hold pc =>
      rw [pc] at ending
      cases ending
    | returnedIdle pc =>
      cases RunPc.job_of_eq pc at_
      exact absurd mine notIdle
    | returned pc =>
      cases RunPc.job_of_eq pc at_
      exact .ended rfl mine rfl ended onlyAfter
    | ready pc fiber ready =>
      cases RunPc.job_of_eq pc at_
      cases fiber.symm.trans mine
      rw [ready] at ended
      rcases ended with term | except
      · cases term
      · cases except
    | suspended pc fiber _ notTerm notExcept =>
      cases RunPc.job_of_eq pc at_
      cases fiber.symm.trans mine
      exact (ended.elim notTerm notExcept).elim
    | ended pc _ _ other =>
      cases RunPc.job_of_eq pc at_
      exact .rest nofun (fun cb => other (only cb).1) (.inr ended)
    | endedCallback pc =>
      cases RunPc.job_of_eq pc at_
      exact .ended rfl mine rfl ended onlyAfter
    | recycle pc fiber =>
      rw [cbAfter_of_some (writesCb_recycle pc fiber)]
      cases RunPc.job_of_eq pc at_
      cases fiber.symm.trans mine
      have empty : s.me.ft = {} := tidy (by rw [pc]; rfl)
      rw [Scheduler.m_state_setState_self, Function.update_self]
      refine .spare nofun mine rfl rfl (left mine) fun fiber => ?_
      rw [empty] at fiber
      cases fiber
  | leave _ pc =>
    rw [pc] at ending
    cases ending
  | swapOut pc =>
    rw [pc] at ending
    cases ending
  | switch pc =>
    cases RunPc.job_of_eq pc at_
    exact .ended rfl mine rfl ended onlyAfter
  | newFiber =>
    rw [Scheduler.m_state_newFiber_of_ne old]
    exact .ended at_ mine ending ended onlyAfter
  | schedule => exact .ended at_ mine ending ended onlyAfter

include acted born notIdle allows refs in
/-- Every step leaves every fiber that there was in one of these standings. -/
theorem LifeOf.step (life : s.LifeOf g) (tidy : s.me.Tidy) (first : s.me.pc = .start → s.me.cb_fiber = none) :
    Life after g (t.m_state g) (s.cbAfter a g) refers := by
  by_cases off : s.me.Off g
  · by_cases offAfter : after.Off g
    · exact LifeOf.off acted born allows refs life off offAfter first
    · exact LifeOf.enters life off (acted.enters off offAfter born notIdle)
  cases life with
  | busy at_ mine only notRecycle task live =>
    exact busy_acted acted born notIdle allows refs at_ mine only notRecycle task live
  | ended at_ mine ending ended only =>
    exact ended_acted acted born notIdle allows refs at_ mine ending ended only tidy
  | spare off' => exact absurd off' off
  | rest off' => exact absurd off' off

end Acted

end Solo
end Sylar
