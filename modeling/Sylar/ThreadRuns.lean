import Sylar.ThreadSteps

/-! Every run of `start`, `stop` and the threads of the pool. -/

namespace Sylar.ThreadPool
open Machine

variable {s t : ThreadPool} {home : Nat → Home}

/-- `Thread::~Thread` and `Thread::run` have nothing to do with the pool. -/
theorem deleteThread_frame (s : ThreadPool) (i : Nat) :
    (s.deleteThread i).m_threads = s.m_threads ∧ (s.deleteThread i).callers = s.callers := by
  rw [deleteThread]
  split
  · rw [pthread_detach]
    split
    · exact ⟨rfl, rfl⟩
    · split <;> exact ⟨rfl, rfl⟩
  · exact ⟨rfl, rfl⟩

theorem threadStep_frame {i : Nat} {tid : Int} (done : s.threadStep i tid = some t) :
    t.m_threads = s.m_threads ∧ t.callers = s.callers := by
  rw [ThreadPool.threadStep] at done
  cases pc : (s.started i).pc with
  | done => simp [pc] at done
  | inside =>
    simp only [pc] at done
    split at done
    · cases done
      split <;> exact ⟨rfl, rfl⟩
    · cases done
      exact ⟨rfl, rfl⟩
  | _ =>
    simp only [pc, Option.ite_none_right_eq_some, Option.some.injEq] at done
    exact done.2 ▸ ⟨rfl, rfl⟩

/-- No pointer is null. -/
def Whole (s : ThreadPool) : Prop := none ∉ s.m_threads ∧ ∀ c, none ∉ (s.callers c).left

theorem Whole.at_ {c : Nat} {pc : PoolPc} (pool : none ∉ s.m_threads) (others : ∀ c, none ∉ (s.callers c).left)
    (mine : none ∉ pc.left) : (s.at_ c pc).Whole := by
  refine ⟨pool, fun d => ?_⟩
  by_cases here : d = c
  · rwa [here, callers_at_self]
  · rw [callers_at_of_ne here]
    exact others d

theorem Whole.callerStep {c : Nat} (whole : s.Whole) (done : s.callerStep c = some t) : t.Whole := by
  obtain ⟨pool, lefts⟩ := whole
  have mine := lefts c
  rw [ThreadPool.callerStep] at done
  cases pc : s.callers c with
  | idle => simp [pc] at done
  | locked =>
    simp only [pc, Option.some.injEq] at done
    subst done
    split
    · exact Whole.at_ pool lefts List.not_mem_nil
    · exact Whole.at_ pool lefts List.not_mem_nil
  | tested | creating =>
    simp only [pc, Option.ite_none_right_eq_some, Option.some.injEq] at done
    exact done.2 ▸ Whole.at_ pool lefts List.not_mem_nil
  | made =>
    simp only [pc, Option.some.injEq] at done
    exact done ▸ Whole.at_ pool lefts List.not_mem_nil
  | stopping =>
    simp only [pc, Option.ite_none_right_eq_some, Option.some.injEq] at done
    exact done.2 ▸ Whole.at_ List.not_mem_nil lefts pool
  | joining joined left =>
    rcases left with _ | ⟨_ | i, left⟩
    · simp only [pc, Option.some.injEq] at done
      exact done ▸ Whole.at_ pool lefts List.not_mem_nil
    · simp [pc] at done
    · rw [pc] at mine
      have rest : none ∉ left := fun mem => mine (List.mem_cons_of_mem _ mem)
      simp only [pc] at done
      split at done
      · cases done
        exact Whole.at_ pool lefts rest
      · split at done
        · cases done
        · cases done
          exact Whole.at_ pool lefts rest
        · cases done
          exact Whole.at_ pool lefts List.not_mem_nil
  | destroying thrs =>
    rcases thrs with _ | ⟨_ | i, thrs⟩
    · simp only [pc, Option.some.injEq] at done
      exact done ▸ Whole.at_ pool lefts List.not_mem_nil
    · simp only [pc, Option.some.injEq] at done
      exact done ▸ Whole.at_ pool lefts List.not_mem_nil
    · simp only [pc, Option.some.injEq] at done
      have same := s.deleteThread_frame i
      refine done ▸ Whole.at_ ?_ ?_ List.not_mem_nil
      · rwa [same.1]
      · rwa [same.2]

theorem Whole.step {o : Op} (whole : s.Whole) (succeeds : ∀ c, o ≠ .create c none) (done : s.op o = some t) :
    t.Whole := by
  cases o with
  | start c =>
    rw [op] at done
    split at done
    · cases done
      exact Whole.at_ whole.1 whole.2 List.not_mem_nil
    · cases done
  | create c handle =>
    cases handle with
    | none => exact absurd rfl (succeeds c)
    | some h =>
      rw [op] at done
      split at done
      · simp only [Option.ite_none_right_eq_some, Option.some.injEq] at done
        obtain ⟨-, -, rfl⟩ := done
        refine Whole.at_ ?_ whole.2 List.not_mem_nil
        show none ∉ s.m_threads ++ [some s.next]
        simpa using whole.1
      · cases done
  | stop c =>
    rw [op] at done
    split at done
    · cases done
      exact Whole.at_ whole.1 whole.2 List.not_mem_nil
    · cases done
  | stopped c =>
    rw [op] at done
    split at done
    · simp only [Option.ite_none_right_eq_some, Option.some.injEq] at done
      exact done.2 ▸ whole
    · cases done
  | step c => exact whole.callerStep done
  | run i tid =>
    simp only [op, Option.ite_none_right_eq_some] at done
    have same := threadStep_frame done.2
    exact ⟨same.1 ▸ whole.1, same.2 ▸ whole.2⟩
  | SetName i name =>
    simp only [op, Option.ite_none_right_eq_some, Option.some.injEq] at done
    exact done.2 ▸ whole

/-- What the threads, `start` and `stop` can rely on. -/
structure Sound (s : ThreadPool) : Prop where
  uses : ∀ i, i < s.next → (s.started i).pc ≠ .done → s.alive i = true
  calls : ∀ i, i < s.next → (s.started i).calls = if (s.started i).pc = .inside ∨ (s.started i).pc = .done then 1 else 0
  names : ∀ i, i < s.next → (s.started i).pc ≠ .start → (s.started i).t_thread_name = (s.threads i).m_name
  asserts : ∀ c, s.callers c = .tested → s.m_threads = []
  joins : ∀ c i joined left, s.callers c = .joining joined (some i :: left) →
    (s.threads i).m_thread ≠ 0 ∧ s.pthreads (s.threads i).m_thread = some { thread := i }
  detaches : ∀ c i thrs, s.callers c = .destroying (some i :: thrs) →
    (s.threads i).m_thread ≠ 0 ∧ s.pthreads (s.threads i).m_thread = none
  ends : s.m_threads = [] → (∀ c, ¬ (s.callers c).Stops) →
    (∀ i, i < s.next → (s.started i).pc = .done ∧ s.alive i = false) ∧ ∀ h, s.pthreads h = none

theorem Good.sound (good : s.Good home) : s.Sound where
  uses _ born runs := (good.running_alive born runs).1
  calls i born := (good.ran i born).calls
  names i born := (good.ran i born).name
  asserts := good.locking.tested
  joins _ _ _ _ := good.joinable
  detaches c i thrs pc := by
    have at_ : home i = .joined c := good.placed.mem_joined.mp (by rw [pc]; exact List.mem_cons_self ..)
    have meets := good.handles.meets i
    rw [at_] at meets
    exact ⟨meets.2.1, meets.2.2.1⟩
  ends empty settled := by
    have pool : ∀ i, home i ≠ .pool := by
      intro i at_
      have count := good.placed.pool i
      rw [empty, if_pos at_] at count
      cases count
    have lists : ∀ c, (s.callers c).left = [] ∧ (s.callers c).joined = [] := by
      intro c
      have here := settled c
      cases pc : s.callers c with
      | joining | destroying =>
        rw [pc] at here
        exact absurd trivial here
      | _ => exact ⟨rfl, rfl⟩
    have left : ∀ i c, home i ≠ .left c := by
      intro i c at_
      have mem := good.placed.mem_left.mpr at_
      rw [(lists c).1] at mem
      cases mem
    have joined : ∀ i c, home i ≠ .joined c := by
      intro i c at_
      have mem := good.placed.mem_joined.mpr at_
      rw [(lists c).2] at mem
      cases mem
    refine ⟨fun i born => ?_, fun h => ?_⟩
    · have meets := good.handles.meets i
      cases at_ : home i with
      | unborn => exact absurd ((good.placed.unborn i).mp at_) (Nat.not_le_of_lt born)
      | pool => exact absurd at_ (pool i)
      | left c => exact absurd at_ (left i c)
      | joined c => exact absurd at_ (joined i c)
      | gone =>
        rw [at_] at meets
        exact meets.symm
    · cases has : s.pthreads h with
      | none => rfl
      | some p =>
        obtain ⟨-, at_ | ⟨c, at_⟩⟩ := good.handles.owned h p has
        · exact absurd at_ (pool _)
        · exact absurd at_ (left _ c)

/-- The steps for which there is nothing to find out about `stop`. -/
def calm (s : ThreadPool) (o : Op) : Bool :=
  match o with
  | .step c => match s.callers c with
    | .locked => false
    | _ => true
  | _ => true

theorem settled_of_calm {o : Op} (calm : s.calm o = true) : Settled s o t := by
  rintro c rfl pc
  simp [ThreadPool.calm, pc] at calm

def perform (s : ThreadPool) (o : Op) : Option ThreadPool := if s.calm o then s.op o else none

theorem run_of_performs {os : List Op} (done : acts perform s os = some t) : Run (Guarded Step Settled) s os t := by
  refine (run_of_acts perform done).mono fun s o t performed => ?_
  rw [perform] at performed
  split at performed
  · rename_i calm
    exact ⟨performed, settled_of_calm calm⟩
  · cases performed

/-- One thread is started, runs, and is joined; its handle is 7. -/
def startsAndStops : List Op :=
  [.create 0 (some 7), .run 0 42, .step 0, .step 0, .run 0 42, .stop 0, .run 0 42, .run 0 42, .step 0, .run 0 42,
    .SetName 0 "worker", .run 0 42, .step 0, .step 0, .step 0, .step 0]

end Sylar.ThreadPool
