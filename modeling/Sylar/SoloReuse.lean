import Sylar.SoloSound

namespace Sylar.Solo
open Machine

variable {κ : Type} {s t : Solo κ} {f : FiberId}

/-- `Scheduler::run` is at the entry of its callback branch. -/
def EntersCallback (s : Solo κ) : Prop :=
  (∃ is_active, s.me.pc = .selected is_active) ∧ s.scheduler.NoFiber s.me ∧ s.me.ft.cb.isSome

/-- The next step of `run` initialises the stack of the fiber again. -/
def Resets (s : Solo κ) (f : FiberId) : Prop := s.me.cb_fiber = some f ∧ (s.EntersCallback ∨ s.me.pc = .recycle)

/-- `cb_fiber` can be used for the next callback, no assertion on the way of the worker or of the fiber
that it runs fails, and no stack is initialised again while a task is under way on it. -/
structure Safe (s : Solo κ) : Prop where
  entry : s.EntersCallback → ∀ f, s.me.cb_fiber = some f →
    s.scheduler.m_state f = .INIT ∧ s.m_cb f = none ∧ ¬ s.Refers f
  runs : (∀ job, s.me.pc ≠ .running job) → (∀ job, s.me.pc ≠ .leaving job) → s.me.pc ≠ .stopped →
    s.workers.act 0 .run ≠ none
  yields : ∀ job, s.me.pc = .running job → s.workers.act 0 .YieldToReady ≠ none ∧ s.workers.act 0 .YieldToHold ≠ none
  keeps : ∀ f, s.Resets f → ¬ s.Busy f

theorem Sound.spare (sound : s.Sound) {is_active : Bool} (pc : s.me.pc = .selected is_active)
    (cb : s.me.cb_fiber = some f) : s.scheduler.m_state f = .INIT ∧ s.m_cb f = none ∧ ¬ s.Refers f := by
  cases sound.cb_fiber cb with
  | busy at_ | ended at_ =>
    cases RunPc.job_of_eq pc at_
  | spare _ _ init empty free _ => exact ⟨init, empty, free⟩
  | rest _ other => exact absurd cb other

theorem Sound.recycled (sound : s.Sound) (pc : s.me.pc = .recycle) (cb : s.me.cb_fiber = some f) : s.Ended f := by
  cases sound.cb_fiber cb with
  | busy _ _ _ notRecycle => exact absurd pc notRecycle
  | ended _ _ _ ended => exact ended
  | spare off | rest off => exact absurd cb (off .callback (by rw [pc]; rfl))

theorem resetFiber_ne_none {s : Scheduler κ} (ready : s.Resettable f) : s.resetFiber f ≠ none := by
  rw [Scheduler.resetFiber]
  split
  · exact Option.some_ne_none _
  · rename_i other
    exact absurd ready other

/-- `cb_fiber->reset(ft.cb)` does not fail. -/
theorem Sound.prepareCallback (sound : s.Sound) {is_active : Bool} (pc : s.me.pc = .selected is_active) :
    s.scheduler.prepareCallback s.me.cb_fiber ≠ none := by
  cases cb : s.me.cb_fiber with
  | none => exact Option.some_ne_none _
  | some f =>
    have ready : s.scheduler.Resettable f := .inr (.inl (sound.spare pc cb).1)
    simp only [Scheduler.prepareCallback, ne_eq, Option.map_eq_none_iff]
    exact resetFiber_ne_none ready

theorem Sound.jobFiber (sound : s.Sound) (job : Job) (at_ : s.me.pc.job = some job) :
    ∃ f, s.me.jobFiber job = some f :=
  Option.ne_none_iff_exists'.mp (sound.steady.held job at_)

/-- No step of `run` fails. -/
theorem Sound.runs (sound : s.Sound) (notRunning : ∀ job, s.me.pc ≠ .running job)
    (notLeaving : ∀ job, s.me.pc ≠ .leaving job) (notStopped : s.me.pc ≠ .stopped) :
    s.scheduler.runStep (0 : Nat) s.me ≠ none := by
  cases pc : s.me.pc with
  | running job => exact absurd pc (notRunning job)
  | leaving job => exact absurd pc (notLeaving job)
  | stopped => exact absurd pc notStopped
  | start | reschedule => simp [Scheduler.runStep, pc]
  | returned job => cases job <;> simp [Scheduler.runStep, pc]
  | select =>
    have finds := Scheduler.selectFrom_finds s.scheduler.m_state (0 : Nat) sound.accepted
    simp only [Scheduler.runStep, pc]
    generalize Scheduler.selectFrom s.scheduler.m_state (0 : Nat) s.scheduler.m_fibers = found at finds ⊢
    cases finds <;> exact Option.some_ne_none _
  | selected is_active =>
    have prepared := sound.prepareCallback pc
    obtain ⟨⟨f, u⟩, prepared⟩ := Option.ne_none_iff_exists'.mp prepared
    simp only [Scheduler.runStep, pc, prepared]
    split
    · exact Option.some_ne_none _
    split
    · exact Option.some_ne_none _
    split
    · exact Option.some_ne_none _
    · split <;> exact Option.some_ne_none _
  | swapIn job =>
    obtain ⟨f, fiber⟩ := sound.jobFiber _ (by rw [pc]; rfl)
    have free := sound.steady.not_exec (by rw [pc]; rfl) f
    simp [Scheduler.runStep, pc, fiber, free]
  | settle job =>
    obtain ⟨f, fiber⟩ := sound.jobFiber _ (by rw [pc]; rfl)
    simp only [Scheduler.runStep, pc, fiber, Option.bind_eq_bind, Option.bind_some]
    split
    · exact Option.some_ne_none _
    split
    · exact Option.some_ne_none _
    split <;> exact Option.some_ne_none _
  | hold job =>
    obtain ⟨f, fiber⟩ := sound.jobFiber _ (by rw [pc]; rfl)
    simp [Scheduler.runStep, pc, fiber]
  | recycle =>
    obtain ⟨f, fiber⟩ := sound.jobFiber .callback (by rw [pc]; rfl)
    have cb : s.me.cb_fiber = some f := fiber
    have ready : s.scheduler.Resettable f := (sound.recycled pc cb).imp id .inr
    obtain ⟨u, reset⟩ := Option.ne_none_iff_exists'.mp (resetFiber_ne_none ready)
    simp [Scheduler.runStep, pc, cb, reset]

theorem Sound.yields (sound : s.Sound) {job : Job} (pc : s.me.pc = .running job) (state : FiberState) :
    s.scheduler.leave s.me true state ≠ none := by
  obtain ⟨f, fiber⟩ := sound.jobFiber _ (by rw [pc]; rfl)
  have exec := sound.steady.running job f pc fiber
  simp [Scheduler.leave, pc, fiber, exec]

theorem act_ne_none {a : Scheduler.Act κ} (some : s.scheduler.act (0 : Nat) s.me a ≠ none) :
    s.workers.act 0 a ≠ none := by
  rw [Workers.act, ne_eq, Option.map_eq_none_iff]
  exact some

theorem Sound.safe (sound : s.Sound) : s.Safe where
  entry enters f cb := by
    obtain ⟨⟨is_active, pc⟩, -⟩ := enters
    exact sound.spare pc cb
  runs notRunning notLeaving notStopped := act_ne_none (sound.runs notRunning notLeaving notStopped)
  yields job pc := ⟨act_ne_none (sound.yields pc .READY), act_ne_none (sound.yields pc .HOLD)⟩
  keeps f := by
    rintro ⟨cb, ⟨⟨is_active, pc⟩, -⟩ | pc⟩ busy
    · exact busy.1 (sound.spare pc cb).2.1
    · exact busy.2 (sound.recycled pc cb)

theorem sound_init : Sound ({} : Solo κ) where
  apart := Workers.private_init
  alone _ _ := rfl
  steady := ⟨fun _ => rfl, fun _ => rfl, fun other => absurd rfl other, nofun, nofun, nofun⟩
  accepted := nofun
  regs := nofun
  life _ born := absurd born (Nat.not_lt_zero _)

/-- In every run of a scheduler with one worker in which everybody keeps to the rules, `cb_fiber` is
safe to use again whenever it is used again. -/
theorem run_safe_of_disciplined {ls : List (Op κ)} (run : Run (Guarded Step Disciplined) {} ls t) : t.Safe :=
  (Run.invariant (fun _ _ _ sound step => sound.op step.1 step.2) sound_init run).safe

instance (s : Solo κ) (f : FiberId) : Decidable (s.MayAsk f) :=
  inferInstanceAs (Decidable (_ ∧ _ ∧ (_ → _)))

instance (s : Solo κ) (l : Op κ) (t : Solo κ) : Decidable (s.Settles l t) :=
  decidable_of_iff (l.ends → s.me.pc = .running .callback → s.me.cb_fiber.all fun f => ¬ s.Refers f) <| by
    cases cb : s.me.cb_fiber <;> simp [Settles, cb]

instance (s : Solo κ) (l : Op κ) (t : Solo κ) : Decidable (s.Disciplined l t) :=
  decidable_of_iff ((l.asks.all fun f => s.MayAsk f) ∧ s.Settles l t) <| by
    cases asks : l.asks <;> simp [Disciplined, asks]

/-- A step of somebody who keeps to the rules. -/
def obey (s : Solo κ) (l : Op κ) : Option (Solo κ) := if s.Disciplined l s then s.op l else none

theorem guarded_of_obey {l : Op κ} (done : s.obey l = some t) : Guarded Step Disciplined s l t := by
  rw [obey] at done
  split at done
  · rename_i obeys
    exact ⟨done, obeys⟩
  · cases done

/-- The callback in fiber 1 asks for its wake-up, schedules another callback and yields. That one runs
in fiber 2, which the worker keeps. Fiber 1 is resumed and ends, and the next callback is up. -/
def heldAndWoken : List (Op Nat) :=
  [.act .run, .act (.schedule { cb := some 7 }), .act .run, .act .run, .act .run,
   .addEvent 1, .act (.schedule { cb := some 8 }), .act .YieldToHold, .act .switch, .act .run, .act .run, .act .run,
   .act .run, .act .run, .act .run, .triggerEvent 0, .act (.schedule { cb := some 9 }), .act .finish, .act .switch,
   .act .run, .act .run, .act .run,
   .act .run, .act .run, .act .run, .act .finish, .act .switch, .act .run, .act .run, .act .run]

theorem run_safe_of_disciplined_heldAndWoken : ∃ t : Solo Nat, Run (Guarded Step Disciplined) {} heldAndWoken t ∧
    t.me.pc = .selected true ∧ t.me.ft = { cb := some 9 } ∧ t.me.cb_fiber = some 2 ∧ t.Safe := by
  have run : ∃ t : Solo Nat, acts obey {} heldAndWoken = some t ∧ t.me.pc = .selected true ∧
      t.me.ft = { cb := some 9 } ∧ t.me.cb_fiber = some 2 := ⟨_, rfl, rfl, rfl, rfl⟩
  obtain ⟨t, done, pc, ft, cb⟩ := run
  have run := (run_of_acts obey done).mono fun _ _ _ => guarded_of_obey
  exact ⟨t, run, pc, ft, cb, run_safe_of_disciplined run⟩

end Sylar.Solo
