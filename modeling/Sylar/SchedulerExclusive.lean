import Sylar.Lib.Machine
import Sylar.SchedulerHolds

namespace Sylar.Workers
open Machine Custody

variable {κ : Type}

/-- No worker takes a fiber off the queue that some worker has in its hands: from when that worker
took it off the queue to the last thing that `run` does with it. -/
def Untaken (s : Workers κ) (l : Nat × Scheduler.Act κ) (_ : Workers κ) : Prop :=
  ∀ f, s.scheduler.taken l.1 (s.worker l.1) l.2 = some f → ∀ w, f ∉ (s.worker w).holds

/-- Whoever calls `schedule` with a fiber does so when the fiber is neither in the queue nor in the
hands of a worker. -/
def AtRest (s : Workers κ) (l : Nat × Scheduler.Act κ) (_ : Workers κ) : Prop :=
  ∀ f, l.2.woken = some f → f ∉ s.scheduler.queued ∧ ∀ w, f ∉ (s.worker w).holds

/-- Where the fibers are. -/
def store (s : Workers κ) : Store Nat := ⟨s.scheduler.queued, fun w => (s.worker w).holds, s.scheduler.fibers⟩

def NotIdle (s : Workers κ) : Prop := ∀ w, (s.worker w).pc ≠ .reschedule .idle

theorem act_eq_some {s t : Workers κ} {w : Nat} {a : Scheduler.Act κ} (done : s.act w a = some t) :
    s.scheduler.act w (s.worker w) a = some (t.scheduler, t.worker w) ∧ ∀ v, v ≠ w → t.worker v = s.worker v := by
  obtain ⟨⟨after, me⟩, acted, same⟩ := Option.map_eq_some_iff.mp done
  cases same
  refine ⟨?_, fun v other => Function.update_of_ne other _ _⟩
  simp only [Function.update_self]
  exact acted

theorem NotIdle.step {s t : Workers κ} {l : Nat × Scheduler.Act κ} (notIdle : s.NotIdle) (step : s.Step l t) :
    t.NotIdle := by
  obtain ⟨done, others⟩ := act_eq_some step
  intro w
  by_cases same : w = l.1
  · subst same
    exact Scheduler.act_notIdle (notIdle _) done
  · rw [others w same]
    exact notIdle w

/-- A step of a worker moves fibers between the queue and its hands. -/
theorem NotIdle.moves {s t : Workers κ} {l : Nat × Scheduler.Act κ} (notIdle : s.NotIdle) (step : s.Step l t) :
    s.store.Moves (fun f => s.scheduler.taken l.1 (s.worker l.1) l.2 = some f) (fun f => l.2.woken = some f)
      l.1 t.store := by
  obtain ⟨done, others⟩ := act_eq_some step
  exact ⟨Scheduler.act_effect (notIdle _) done, fun v other => congrArg Worker.holds (others v other)⟩

theorem notIdle_init : NotIdle ({} : Workers κ) := fun _ pc => RunPc.noConfusion pc

theorem placed_init : ({} : Workers κ).store.Placed where
  queueBorn x queued := by cases queued
  handsBorn w x held := by cases held
  nodup w := List.nodup_nil
  once v w x held := by cases held
  queueNodup := List.nodup_nil
  apart x queued := by cases queued

/-- As long as every fiber is at rest when it is scheduled, no worker takes a fiber that is in
somebody's hands. -/
theorem untaken_of_atRest {t : Workers κ} {ls : List (Nat × Scheduler.Act κ)}
    (run : Run (Guarded Step AtRest) {} ls t) : Run (Guarded Step Untaken) {} ls t := by
  suffices (t.NotIdle ∧ t.store.Placed) ∧ Run (Guarded Step Untaken) {} ls t from this.2
  induction run with
  | start => exact ⟨⟨notIdle_init, placed_init⟩, .start⟩
  | @next ls s l t _ step ih =>
    obtain ⟨⟨notIdle, placed⟩, run⟩ := ih
    have queued : ∀ f, s.scheduler.taken l.1 (s.worker l.1) l.2 = some f → f ∈ s.store.queue :=
      fun f takes => Scheduler.taken_queued takes
    refine ⟨⟨notIdle.step step.1, placed.moves (notIdle.moves step.1) queued ?_⟩, .next run ⟨step.1, ?_⟩⟩
    · intro f wakes
      obtain ⟨notQueued, free⟩ := step.2 f wakes
      exact ⟨notQueued, fun held => held.elim free⟩
    · intro f takes w held
      exact placed.apart f (queued f takes) ⟨w, held⟩

theorem Executing.held {s : Workers κ} {w : Nat} {f : FiberId} (executing : s.Executing w f) :
    f ∈ (s.worker w).holds := by
  obtain ⟨job, -, runs⟩ := executing
  cases job <;> simp only [Worker.jobFiber] at runs <;> simp [Worker.holds, runs]

/-- No fiber is in the hands of two workers. -/
structure Apart (s : Workers κ) : Prop where
  notIdle : s.NotIdle
  single : s.store.Single

theorem Apart.step {s t : Workers κ} {l : Nat × Scheduler.Act κ} (apart : s.Apart)
    (step : Guarded Step Untaken s l t) : t.Apart := by
  refine ⟨apart.notIdle.step step.1, apart.single.moves (apart.notIdle.moves step.1) ?_⟩
  rintro f takes ⟨w, held⟩
  exact step.2 f takes w held

/-- In every run in which no worker takes a fiber that is still in the hands of a worker, no fiber
ever executes on two workers. -/
theorem exclusive_of_untaken {t : Workers κ} {ls : List (Nat × Scheduler.Act κ)}
    (run : Run (Guarded Step Untaken) {} ls t) : t.Exclusive := by
  have apart : t.Apart := Run.invariant (fun _ _ _ => Apart.step) ⟨notIdle_init, placed_init.toSingle⟩ run
  intro f v w onV onW
  exact apart.single.once v w f onV.held onW.held

/-- Fiber 2 runs on the worker 0, the worker 1 wakes it before it yields, and takes it after the worker 0 has put it
down. -/
def wokenInTime : List (Nat × Scheduler.Act Nat) :=
  [(0, .run), (1, .run), (0, .newFiber), (0, .schedule { fiber := some 2 }), (0, .run), (0, .run), (0, .run),
   (1, .run), (1, .run), (1, .run), (1, .schedule { fiber := some 2 }), (0, .YieldToHold), (0, .switch), (0, .run),
   (0, .run), (0, .run), (1, .swapOut), (1, .switch), (1, .run), (1, .run), (1, .run), (1, .run), (1, .run), (1, .run)]

theorem exclusive_of_untaken_yield : ∃ t : Workers Nat,
    Run (Guarded Step Untaken) {} wokenInTime t ∧ t.Executing 1 2 ∧ t.Exclusive := by
  have untaken : ∀ (w : Nat) (s t : Workers Nat), s.scheduler.taken w (s.worker w) .run = some 2 →
      (s.worker 0).holds = [0] → (s.worker 1).holds = [1] → (∀ v, (s.worker (v + 2)).holds = []) →
      s.Untaken (w, .run) t := by
    intro w s t takes first second others f takesF v held
    cases Option.some.inj (takes.symm.trans takesF)
    match v with
    | 0 => rw [first] at held; exact absurd held (by decide)
    | 1 => rw [second] at held; exact absurd held (by decide)
    | v + 2 => rw [others v] at held; cases held
  have run : ∃ t : Workers Nat, Run (Guarded Step Untaken) {} wokenInTime t ∧ t.Executing 1 2 := by
    refine ⟨_, .cons ⟨rfl, nofun⟩ <| .cons ⟨rfl, nofun⟩ <| .cons ⟨rfl, nofun⟩ <| .cons ⟨rfl, nofun⟩ <|
      .cons ⟨rfl, untaken 0 _ _ rfl rfl rfl fun _ => rfl⟩ <| .cons ⟨rfl, nofun⟩ <| .cons ⟨rfl, nofun⟩ <|
      .cons ⟨rfl, nofun⟩ <| .cons ⟨rfl, nofun⟩ <| .cons ⟨rfl, nofun⟩ <| .cons ⟨rfl, nofun⟩ <|
      .cons ⟨rfl, nofun⟩ <| .cons ⟨rfl, nofun⟩ <| .cons ⟨rfl, nofun⟩ <| .cons ⟨rfl, nofun⟩ <|
      .cons ⟨rfl, nofun⟩ <| .cons ⟨rfl, nofun⟩ <| .cons ⟨rfl, nofun⟩ <| .cons ⟨rfl, nofun⟩ <|
      .cons ⟨rfl, nofun⟩ <| .cons ⟨rfl, nofun⟩ <| .cons ⟨rfl, untaken 1 _ _ rfl rfl rfl fun _ => rfl⟩ <|
      .cons ⟨rfl, nofun⟩ <| .cons ⟨rfl, nofun⟩ .start, .fiber, .inl rfl, rfl⟩
  obtain ⟨t, run, executing⟩ := run
  exact ⟨t, run, executing, exclusive_of_untaken run⟩

/-- Fiber 2 runs on the worker 0 and has registered itself for a wake-up, which comes on the worker
1 before it yields. -/
def wokenEarly : List (Nat × Scheduler.Act Nat) :=
  [(0, .run), (1, .run), (0, .newFiber), (0, .schedule { fiber := some 2 }),
   (0, .run), (0, .run), (0, .run),
   (1, .run), (1, .run), (1, .run), (1, .schedule { fiber := some 2 }), (1, .swapOut), (1, .switch),
   (1, .run), (1, .run), (1, .run)]

/-- `YieldToHold` has published the state, and the worker 1 swaps the fiber in before the worker 0
has saved its context. -/
theorem not_exclusive_woken_early : ∃ t : Workers Nat,
    Run Step {} (wokenEarly ++ [(0, .YieldToHold), (1, .run), (1, .run), (1, .run)]) t ∧
    (t.worker 0).pc = .leaving .fiber ∧ (t.worker 1).pc = .running .fiber ∧
    t.Executing 0 2 ∧ t.Executing 1 2 ∧ ¬ t.Exclusive := by
  have run : ∃ t : Workers Nat,
      acts (fun s l => s.act l.1 l.2) {} (wokenEarly ++ [(0, .YieldToHold), (1, .run), (1, .run), (1, .run)]) =
        some t ∧
      (t.worker 0).pc = .leaving .fiber ∧ (t.worker 1).pc = .running .fiber ∧
      (t.worker 0).jobFiber .fiber = some 2 ∧ (t.worker 1).jobFiber .fiber = some 2 :=
    ⟨_, rfl, rfl, rfl, rfl, rfl⟩
  obtain ⟨t, done, leaving, running, first, second⟩ := run
  have onFirst : t.Executing 0 2 := ⟨.fiber, .inr leaving, first⟩
  have onSecond : t.Executing 1 2 := ⟨.fiber, .inl running, second⟩
  exact ⟨t, run_of_acts _ done, leaving, running, onFirst, onSecond,
    fun exclusive => absurd (exclusive 2 0 1 onFirst onSecond) (by decide)⟩

end Sylar.Workers
