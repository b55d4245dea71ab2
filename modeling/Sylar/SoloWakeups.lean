import Sylar.SoloNotes

/-! The wake-up of a fiber is meant for the task that was in it when somebody asked for it. -/

namespace Sylar.Solo
open Machine

variable {κ : Type} {s t : Solo κ} {f : FiberId}

/-- The fiber of the task that runs, which is what `Fiber::GetThis()` returns to it. -/
def task (s : Solo κ) : Option FiberId :=
  match s.me.pc with
  | .running .fiber => s.me.ft.fiber
  | .running .callback => s.me.cb_fiber
  | _ => none

/-- The tasks ask for wake-ups of their own fibers only, with `schedule(Fiber::GetThis())` and with
`addEvent`. -/
def OwnStep (s : Solo κ) (l : Op κ) (t : Solo κ) : Prop := s.Step l t ∧ ∀ f, l.asks = some f → s.task = some f

/-- A fiber that is swapped in for a wake-up has that task in it which asked for the wake-up. -/
def RightTask (s : Solo κ) : Prop :=
  ∀ f, s.me.pc = .swapIn .fiber → s.me.ft.fiber = some f → s.woken ≠ none ∧ s.m_cb f = s.woken

theorem Noted.rightTask (noted : s.Noted) : s.RightTask := by
  intro f pc fiber
  have named := noted.sound.apart.ft 0 f fiber
  cases noted.sound.life f named.1 (named.2 0) with
  | busy _ _ _ _ _ live => exact (noted.woken f fiber).resolve_right live
  | ended _ _ ending =>
    rw [pc] at ending
    cases ending
  | spare off | rest off => exact absurd fiber (off .fiber (by rw [pc]; rfl))

theorem Noted.op {l : Op κ} (noted : s.Noted) (done : s.op l = some t) (obeys : s.Disciplined l t) : t.Noted := by
  have sound := noted.sound.op done obeys
  cases l with
  | act a => exact noted.perform done sound obeys.1
  | addEvent f =>
    cases addEvent_eq_some done
    refine ⟨sound, noted.queue, noted.notes, fun r member => ?_, noted.woken⟩
    rcases List.mem_append.mp member with old | new
    · exact noted.registered r old
    · obtain ⟨born, notIdle, busy⟩ := obeys.1 f rfl
      rw [List.mem_singleton.mp new]
      exact noted.sound.carries born notIdle busy
  | triggerEvent i =>
    obtain ⟨f, k, workers, registration, step, rfl⟩ := triggerEvent_eq_some done
    obtain ⟨scheduler, me⟩ := act_schedule step
    -- the entry gets the note of the registration
    have carry : ∀ g n notes registered, s.Carries g n →
        Carries { s with workers := workers, notes := notes, registered := registered } g n := by
      intro g n notes registered carries
      rw [Carries, Ended, Solo.scheduler, scheduler]
      exact carries
    refine ⟨sound, ?_, ?_, ?_, ?_⟩
    · rw [Solo.scheduler, scheduler, Scheduler.m_fibers_schedule, List.map_append, noted.queue]
      rfl
    · intro n member g fiber
      rcases List.mem_append.mp member with old | new
      · exact carry g n.2 _ _ (noted.notes n old g fiber)
      · rw [List.mem_singleton.mp new] at fiber ⊢
        cases fiber
        exact carry f k _ _ (noted.registered _ registration)
    · intro r member
      exact carry r.1 r.2 _ _ (noted.registered r (List.mem_of_mem_eraseIdx member))
    · intro g fiber
      rw [Solo.me, me] at fiber
      exact carry g _ _ _ (noted.woken g fiber)
  | delEvent i =>
    cases delEvent_eq_some done
    exact ⟨sound, noted.queue, noted.notes, fun r member => noted.registered r (List.mem_of_mem_eraseIdx member),
      noted.woken⟩

/-- A task that runs may ask for a wake-up of its own fiber. -/
theorem Sound.mayAsk (sound : s.Sound) (mine : s.task = some f) : s.MayAsk f := by
  obtain ⟨job, pc, notIdle, fiber⟩ : ∃ job, s.me.pc = .running job ∧ job ≠ .idle ∧ s.me.jobFiber job = some f := by
    unfold task at mine
    split at mine
    · rename_i pc
      exact ⟨.fiber, pc, nofun, mine⟩
    · rename_i pc
      exact ⟨.callback, pc, nofun, mine⟩
    · cases mine
  have named := sound.apart.jobFiber notIdle fiber
  refine ⟨named.1, named.2 0, fun cb => ?_⟩
  cases sound.cb_fiber cb with
  | busy _ _ _ _ task live => exact ⟨task, live⟩
  | ended _ _ ending =>
    rw [pc] at ending
    cases ending
  | spare off | rest off => exact absurd fiber (off job (by rw [pc]; rfl))

theorem noted_init : Noted ({} : Solo κ) := ⟨sound_init, rfl, nofun, nofun, nofun⟩

/-- In every run of tasks on one worker in which no callback that has not yielded ends while a queue
entry or a registration refers to its fiber, every wake-up reaches the task that asked for it. -/
theorem run_rightTask_of_settles {ls : List (Op κ)} (run : Run (Guarded OwnStep Settles) {} ls t) : t.RightTask := by
  refine (Run.invariant (fun s l t noted step => ?_) noted_init run).rightTask
  obtain ⟨⟨done, own⟩, settles⟩ := step
  exact Noted.op noted done ⟨fun f asked => noted.sound.mayAsk (own f asked), settles⟩

/-- A step of a task that asks for wake-ups of its own fiber only. -/
def own (s : Solo κ) (l : Op κ) : Option (Solo κ) := if l.asks.all fun f => s.task = some f then s.op l else none

theorem ownStep_of_own {l : Op κ} (done : s.own l = some t) : s.OwnStep l t := by
  rw [own] at done
  split at done
  · rename_i mine
    refine ⟨done, fun f asked => ?_⟩
    simpa [asked] using mine
  · cases done

theorem run_rightTask_of_settles_heldAndWoken : ∃ t : Solo Nat,
    Run (Guarded OwnStep Settles) {} (heldAndWoken.take 24) t ∧ t.me.pc = .swapIn .fiber ∧ t.me.ft.fiber = some 1 ∧
    t.m_cb 1 = some 3 ∧ t.RightTask := by
  have run : ∃ t : Solo Nat,
      acts (fun s l => if s.Settles l s then s.own l else none) {} (heldAndWoken.take 24) = some t ∧
      t.me.pc = .swapIn .fiber ∧ t.me.ft.fiber = some 1 ∧ t.m_cb 1 = some 3 := ⟨_, rfl, rfl, rfl, rfl⟩
  obtain ⟨t, done, pc, fiber, task⟩ := run
  have run : Run (Guarded OwnStep Settles) {} (heldAndWoken.take 24) t := by
    refine (run_of_acts _ done).mono fun s l t done => ?_
    split at done
    · rename_i settles
      exact ⟨ownStep_of_own done, settles⟩
    · cases done
  exact ⟨t, run, pc, fiber, task, run_rightTask_of_settles run⟩

/-- A callback asks for a wake-up of its own fiber 1 and returns, in front of a callback `next` that is
in the queue already. -/
def endsWoken (next : Option Nat) : List (Op Nat) :=
  [.act .run, .act (.schedule { cb := some 7 }), .act .run, .act .run, .act .run,
   .act (.schedule { cb := next }), .act (.schedule { fiber := some 1 }), .act .finish, .act .switch,
   .act .run, .act .run, .act .run]

/-- The worker has recycled the fiber. Where no other callback is in the queue it swaps in a fiber
whose function is empty; where there is one that yields, the wake-up resumes that one. -/
theorem not_rightTask_endsWoken :
    (∃ t : Solo Nat, Run OwnStep {} (endsWoken none ++ [.act .run, .act .run]) t ∧
      t.me.pc = .swapIn .fiber ∧ t.me.ft.fiber = some 1 ∧ t.woken = some 3 ∧ t.m_cb 1 = none ∧ ¬ t.RightTask) ∧
    (∃ t : Solo Nat, Run OwnStep {} (endsWoken (some 8) ++ [.act .run, .act .run, .act .run, .act .YieldToHold,
        .act .switch, .act .run, .act .run, .act .run, .act .run, .act .run]) t ∧
      t.me.pc = .swapIn .fiber ∧ t.me.ft.fiber = some 1 ∧ t.woken = some 3 ∧ t.m_cb 1 = some 13 ∧ ¬ t.RightTask) := by
  have wrong : ∀ {t : Solo Nat}, t.me.pc = .swapIn .fiber → t.me.ft.fiber = some 1 → t.m_cb 1 ≠ t.woken →
      ¬ t.RightTask := fun pc fiber other right => other (right 1 pc fiber).2
  constructor
  · have run : ∃ t : Solo Nat, acts own {} (endsWoken none ++ [.act .run, .act .run]) = some t ∧
        t.me.pc = .swapIn .fiber ∧ t.me.ft.fiber = some 1 ∧ t.woken = some 3 ∧ t.m_cb 1 = none :=
      ⟨_, rfl, rfl, rfl, rfl, rfl⟩
    obtain ⟨t, done, pc, fiber, woken, empty⟩ := run
    have run := (run_of_acts own done).mono fun _ _ _ => ownStep_of_own
    exact ⟨t, run, pc, fiber, woken, empty, wrong pc fiber (by rw [woken, empty]; nofun)⟩
  · have run : ∃ t : Solo Nat, acts own {} (endsWoken (some 8) ++ [.act .run, .act .run, .act .run, .act .YieldToHold,
          .act .switch, .act .run, .act .run, .act .run, .act .run, .act .run]) = some t ∧
        t.me.pc = .swapIn .fiber ∧ t.me.ft.fiber = some 1 ∧ t.woken = some 3 ∧ t.m_cb 1 = some 13 :=
      ⟨_, rfl, rfl, rfl, rfl, rfl⟩
    obtain ⟨t, done, pc, fiber, woken, other⟩ := run
    have run := (run_of_acts own done).mono fun _ _ _ => ownStep_of_own
    exact ⟨t, run, pc, fiber, woken, other, wrong pc fiber (by rw [woken, other]; decide)⟩

end Sylar.Solo
