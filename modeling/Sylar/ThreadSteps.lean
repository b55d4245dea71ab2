import Sylar.ThreadHomes

/-! What every step of the callers of `start` and `stop` and of the threads of the pool preserves. -/

namespace Sylar.ThreadPool
open Machine

variable {s t : ThreadPool} {home : Nat → Home}

/-- What holds in every state of a run in which the steps are `Settled`. -/
structure Good (s : ThreadPool) (home : Nat → Home) : Prop where
  placed : s.Placed home
  handles : s.Handles home
  locking : s.Locking
  ran : ∀ i, i < s.next → Ran (s.threads i) (s.started i)

/-- A step of a caller that leaves the pointers where they are. -/
theorem Good.at_ {c : Nat} {pc : PoolPc} {mutex : Option Nat} {stopping autoStop : Bool} {ids : List Int}
    (good : s.Good home)
    (locking : ({ s with m_mutex := mutex, m_stopping := stopping, m_autoStop := autoStop, m_threadIds := ids }.at_ c
      pc).Locking)
    (left : ∀ i, pc.left.count (some i) = (s.callers c).left.count (some i))
    (joined : ∀ i, pc.joined.count (some i) = (s.callers c).joined.count (some i)) :
    ({ s with m_mutex := mutex, m_stopping := stopping, m_autoStop := autoStop, m_threadIds := ids }.at_ c pc).Good
      home where
  placed := by
    obtain ⟨unborn, pool, lefts, joineds⟩ := good.placed
    exact Placed.at_ ⟨unborn, pool, lefts, joineds⟩ left joined
  handles := good.handles.mono rfl (fun _ => rfl) rfl rfl (fun _ => rfl) fun _ done => done
  locking := locking
  ran := good.ran

theorem Good.free {c : Nat} (good : s.Good home) (mutex : s.m_mutex = none) : ¬ (s.callers c).Starts := by
  intro starts
  cases mutex.symm.trans ((good.locking.lock c).mpr starts)

/-- Nobody joins while a caller of `start` has found the scheduler stopped. -/
theorem Good.idle {c d : Nat} (good : s.Good home) (creates : (s.callers c).Creates) :
    (s.callers d).left = [] ∧ (s.callers d).joined = [] := by
  have alone := good.locking.alone c d creates
  cases pc : s.callers d with
  | joining | destroying =>
    rw [pc] at alone
    exact absurd trivial alone
  | _ => exact ⟨rfl, rfl⟩

theorem Good.start {c : Nat} (good : s.Good home) (pc : s.callers c = .idle) (mutex : s.m_mutex = none) :
    ({ s with m_mutex := some c }.at_ c .locked).Good home := by
  refine good.at_ ?_ (by simp [pc, PoolPc.left]) (by simp [pc, PoolPc.joined])
  refine Locking.holder (s := s) rfl callers_at_self (fun d => callers_at_of_ne) (fun d _ => good.free mutex)
    (.inl ⟨rfl, trivial⟩) nofun (fun several filled => ?_) nofun nofun nofun good.locking.few
  rcases good.locking.running several (filled.imp_right False.elim) with running | ⟨d, stopping⟩
  · exact .inl running
  · refine .inr ⟨d, fun here => ?_, stopping⟩
    rw [here, pc] at stopping
    cases stopping

/-- A caller of `start` that has the lock goes on in `start`. -/
theorem Good.holder {c : Nat} {pc : PoolPc} {mutex : Option Nat} {stopping : Bool} {ids : List Int}
    (good : s.Good home) (starts : (s.callers c).Starts)
    (next : mutex = some c ∧ pc.Starts ∨ mutex = none ∧ pc = .idle)
    (alone : pc.Creates → ∀ d, d ≠ c → ¬ (s.callers d).Joins)
    (running : 0 < s.m_threadCount → (s.m_threads ≠ [] ∨ pc.Fills) →
      stopping = false ∨ ∃ d, d ≠ c ∧ s.callers d = .stopping)
    (tested : pc = .tested → s.m_threads = []) (creating : ∀ i, pc = .creating i → s.m_threads.length = i)
    (made : ∀ i j, pc = .made i j → s.m_threads.length = i + 1) :
    ({ s with m_mutex := mutex, m_stopping := stopping, m_threadIds := ids }.at_ c pc).Good home := by
  have none : pc.left = [] ∧ pc.joined = [] := by
    rcases next with ⟨-, starts⟩ | ⟨-, rfl⟩
    · exact ⟨starts.left, starts.joined⟩
    · exact ⟨rfl, rfl⟩
  refine good.at_ ?_ (fun i => by rw [none.1, starts.left]) fun i => by rw [none.2, starts.joined]
  refine Locking.holder (s := s) rfl callers_at_self (fun d => callers_at_of_ne) (fun d => good.locking.sole starts)
    ?_ alone running tested creating made good.locking.few
  rcases next with next | ⟨released, rfl⟩
  · exact .inl next
  · exact .inr ⟨released, not_false⟩

/-- What was so before the step of a caller of `start`. -/
theorem Good.running {c : Nat} (good : s.Good home) (starts : (s.callers c).Starts) (several : 0 < s.m_threadCount)
    (filled : s.m_threads ≠ [] ∨ (s.callers c).Fills) :
    s.m_stopping = false ∨ ∃ d, d ≠ c ∧ s.callers d = .stopping := by
  refine (good.locking.running several (filled.imp_right fun fills => ⟨c, fills⟩)).imp_right ?_
  rintro ⟨d, stopping⟩
  refine ⟨d, fun here => ?_, stopping⟩
  rw [← here, stopping] at starts
  exact starts

/-- The caller of `start` finds the scheduler stopped. -/
theorem Good.test {c : Nat} (good : s.Good home) (pc : s.callers c = .locked) (stopping : s.m_stopping = true)
    (settled : ∀ d, ¬ (s.callers d).Stops) : (s.at_ c .tested).Good home := by
  have starts : (s.callers c).Starts := pc ▸ trivial
  have running : 0 < s.m_threadCount → (s.m_threads ≠ [] ∨ (s.callers c).Fills) → False := by
    intro several filled
    rcases good.running starts several filled with runs | ⟨d, -, stops⟩
    · cases runs.symm.trans stopping
    · exact settled d (stops ▸ trivial)
  have empty : s.m_threads = [] := by
    by_contra some
    have several : 0 < s.m_threadCount := by
      have few := good.locking.few
      have positive := List.length_pos_iff.mpr some
      omega
    exact running several (.inl some)
  exact good.holder starts (.inl ⟨(good.locking.lock c).mpr starts, trivial⟩)
    (fun _ d _ joins => settled d joins.stops)
    (fun several filled => (running several (filled.imp_right False.elim)).elim)
    (fun _ => empty) nofun nofun

theorem Good.clear {c : Nat} (good : s.Good home) (pc : s.callers c = .tested) :
    ({ s with m_stopping := false }.at_ c (.creating 0)).Good home := by
  have starts : (s.callers c).Starts := pc ▸ trivial
  have empty := good.locking.tested c pc
  refine good.holder starts (.inl ⟨(good.locking.lock c).mpr starts, trivial⟩)
    (fun _ d _ => good.locking.alone c d (pc ▸ trivial)) (fun _ _ => .inl rfl) nofun ?_ nofun
  rintro i ⟨⟩
  rw [empty, List.length_nil]

theorem Good.push {c i j : Nat} {ids : List Int} (good : s.Good home) (pc : s.callers c = .made i j) :
    ({ s with m_threadIds := ids }.at_ c (.creating (i + 1))).Good home := by
  have starts : (s.callers c).Starts := pc ▸ trivial
  refine good.holder starts (.inl ⟨(good.locking.lock c).mpr starts, trivial⟩)
    (fun _ d _ => good.locking.alone c d (pc ▸ trivial))
    (fun several _ => good.running starts several (.inr (pc ▸ trivial))) nofun ?_ nofun
  rintro k ⟨⟩
  exact good.locking.made c i j pc

theorem Good.unlock {c : Nat} (good : s.Good home) (starts : (s.callers c).Starts) :
    ({ s with m_mutex := none }.at_ c .idle).Good home :=
  good.holder starts (.inr ⟨rfl, rfl⟩) nofun
    (fun several filled => good.running starts several (filled.imp_right False.elim)) nofun nofun nofun

theorem Good.stop {c : Nat} (good : s.Good home) (pc : s.callers c = .idle) :
    ({ s with m_autoStop := true, m_stopping := true }.at_ c .stopping).Good home := by
  refine good.at_ ?_ (by simp [pc, PoolPc.left]) (by simp [pc, PoolPc.joined])
  have locking : (s.at_ c .stopping).Locking :=
    good.locking.at_ (pc ▸ not_false) (fun stops => by cases pc.symm.trans stops) not_false False.elim
  exact ⟨locking.lock, locking.alone, fun _ _ => .inr ⟨c, callers_at_self⟩, locking.tested, locking.creating,
    locking.made, locking.few⟩

/-- Without threads `stop` may return at once. -/
theorem Good.stopped (good : s.Good home) (few : s.m_threadCount = 0) :
    ({ s with m_autoStop := true, m_stopping := true }).Good home := by
  obtain ⟨⟨unborn, pool, left, joined⟩, handles, locking, ran⟩ := good
  refine ⟨⟨unborn, pool, left, joined⟩,
    handles.mono rfl (fun _ => rfl) rfl rfl (fun _ => rfl) fun _ done => done, ?_, ran⟩
  refine ⟨locking.lock, locking.alone, fun several => ?_, locking.tested, locking.creating, locking.made, locking.few⟩
  exact absurd few (Nat.ne_of_gt several)

/-- `pthread_create` succeeds. -/
theorem Good.create {c i h : Nat} {name : String} (good : s.Good home) (pc : s.callers c = .creating i)
    (few : i < s.m_threadCount) (valid : h ≠ 0) (new : s.pthreads h = none) :
    ((s.newThread name h).at_ c (.made i s.next)).Good (Function.update home s.next .pool) := by
  have starts : (s.callers c).Starts := pc ▸ trivial
  have nobody : ∀ j d, home j ≠ .joined d := by
    intro j d at_
    have mem := good.placed.mem_joined.mpr at_
    rw [(good.idle (d := d) (pc ▸ trivial : (s.callers c).Creates)).2] at mem
    cases mem
  have length : (s.m_threads ++ [some s.next]).length = i + 1 := by
    rw [List.length_append, good.locking.creating c i pc, List.length_singleton]
  have same : (s.newThread name h).callers c = s.callers c := rfl
  refine ⟨Placed.at_ good.placed.newThread (fun j => by rw [same, starts.left]; rfl)
    (fun j => by rw [same, starts.joined]; rfl),
    (good.handles.newThread good.placed nobody valid new).at_, ?_, fun j born => ?_⟩
  · refine Locking.holder (s := s) rfl callers_at_self (fun d => callers_at_of_ne)
      (fun d => good.locking.sole starts) (.inl ⟨(good.locking.lock c).mpr starts, trivial⟩)
      (fun _ d _ => good.locking.alone c d (pc ▸ trivial))
      (fun several _ => good.running starts several (.inr (pc ▸ trivial))) nofun nofun ?_ ?_
    · rintro _ _ ⟨⟩
      exact length
    · show (s.m_threads ++ [some s.next]).length ≤ _
      omega
  · by_cases here : j = s.next
    · show Ran (Function.update s.threads s.next _ j) (Function.update s.started s.next _ j)
      rw [here, Function.update_self, Function.update_self]
      exact ⟨rfl, fun _ => rfl, nofun, fun not => absurd rfl not⟩
    · have born : j < s.next + 1 := born
      have ran := good.ran j (by omega)
      show Ran (Function.update s.threads s.next _ j) (Function.update s.started s.next _ j)
      rwa [Function.update_of_ne here, Function.update_of_ne here]

/-- `pthread_create` fails, and the pointers that are left are null. -/
theorem Good.fail {c i : Nat} (good : s.Good home) (pc : s.callers c = .creating i) :
    ({ s with m_threads := s.m_threads ++ List.replicate (s.m_threadCount - i) none, m_mutex := none }.at_ c
      .idle).Good home := by
  have starts : (s.callers c).Starts := pc ▸ trivial
  have length := good.locking.creating c i pc
  have few := good.locking.few
  have more : ∀ j, (s.m_threads ++ List.replicate (s.m_threadCount - i) none).count (some j) =
      if home j = .pool then 1 else 0 := by
    intro j
    rw [List.count_append, good.placed.pool j, List.count_replicate]
    rfl
  refine ⟨Placed.at_ ⟨good.placed.unborn, more, good.placed.left, good.placed.joined⟩ (fun j => ?_) fun j => ?_,
    good.handles.mono rfl (fun _ => rfl) rfl rfl (fun _ => rfl) fun _ done => done, ?_, good.ran⟩
  · show List.count _ [] = (s.callers c).left.count _
    rw [starts.left]
  · show List.count _ [] = (s.callers c).joined.count _
    rw [starts.joined]
  · refine Locking.holder (s := s) rfl callers_at_self (fun d => callers_at_of_ne)
      (fun d => good.locking.sole starts) (.inr ⟨rfl, not_false⟩) nofun
      (fun several _ => good.running starts several (.inr (pc ▸ trivial))) nofun nofun nofun ?_
    show (s.m_threads ++ List.replicate (s.m_threadCount - i) none).length ≤ _
    rw [List.length_append, List.length_replicate]
    omega

/-- The caller of `stop` swaps the threads out. -/
theorem Good.swap {c : Nat} (good : s.Good home) (pc : s.callers c = .stopping) (mutex : s.m_mutex = none) :
    ({ s with m_threads := [] }.at_ c (.joining [] s.m_threads)).Good (takes home c) := by
  refine ⟨good.placed.swap pc, good.handles.takes.mono rfl (fun _ => rfl) rfl rfl (fun _ => rfl) fun _ done => done, ?_,
    good.ran⟩
  exact Locking.holder (s := s) rfl callers_at_self (fun d => callers_at_of_ne) (fun d _ => good.free mutex)
    (.inr ⟨mutex, not_false⟩) nofun (fun _ filled => absurd rfl (filled.resolve_right not_false)) nofun nofun nofun
    (Nat.zero_le _)

/-- `pthread_join` releases the handle of a thread that has ended. -/
theorem Good.join {c i : Nat} {joined left : List (Option Nat)} (good : s.Good home)
    (pc : s.callers c = .joining joined (some i :: left)) (done : (s.started i).pc = .done) :
    ((s.setPthread (s.threads i).m_thread none).at_ c (.joining (joined ++ [some i]) left)).Good
      (Function.update home i (.joined c)) := by
  have at_ : home i = .left c := good.placed.mem_left.mp (by rw [pc]; exact List.mem_cons_self ..)
  have lefts := good.placed.left c i
  have joineds := good.placed.joined c i
  rw [pc, at_, if_pos rfl] at lefts
  rw [pc, at_, if_neg nofun] at joineds
  simp only [PoolPc.left, PoolPc.joined, List.count_cons_self] at lefts joineds
  have placed : (s.at_ c (.joining (joined ++ [some i]) left)).Placed (Function.update home i (.joined c)) := by
    refine good.placed.move (.inl at_) (.inl rfl) (fun j => ?_) fun j => ?_
    · rw [pc]
      by_cases same : j = i
      · rw [if_pos same, same]
        exact Nat.succ.inj lefts
      · simp [PoolPc.left, same, Ne.symm same]
    · rw [pc]
      by_cases same : j = i
      · simp [PoolPc.joined, same, joineds]
      · simp [PoolPc.joined, same, Ne.symm same]
  have locking : (s.at_ c (.joining (joined ++ [some i]) left)).Locking :=
    good.locking.at_ (pc ▸ not_false) (fun stops => by cases pc.symm.trans stops) not_false fun _ => pc ▸ trivial
  exact ⟨⟨placed.unborn, placed.pool, placed.left, placed.joined⟩, (good.handles.join at_ done).at_,
    locking.of_eq rfl rfl rfl rfl rfl, good.ran⟩

/-- A `Thread` of a caller of `stop` is destroyed. Its handle has been released before. -/
theorem Good.delete {c i : Nat} {thrs : List (Option Nat)} (good : s.Good home)
    (pc : s.callers c = .destroying (some i :: thrs)) :
    ((s.deleteThread i).at_ c (.destroying thrs)).Good (Function.update home i .gone) := by
  have at_ : home i = .joined c := good.placed.mem_joined.mp (by rw [pc]; exact List.mem_cons_self ..)
  have meets := good.handles.meets i
  rw [at_] at meets
  obtain ⟨-, valid, released, done⟩ := meets
  have deleted : s.deleteThread i = { s with alive := Function.update s.alive i false } := by
    rw [deleteThread]
    exact (if_pos valid).trans (pthread_detach_of_none released)
  have joineds := good.placed.joined c i
  rw [pc, at_, if_pos rfl] at joineds
  simp only [PoolPc.joined, List.count_cons_self] at joineds
  have placed : (s.at_ c (.destroying thrs)).Placed (Function.update home i .gone) := by
    refine good.placed.move (.inr at_) (.inr rfl) (fun j => ?_) fun j => ?_
    · rw [pc]
      split <;> rfl
    · rw [pc]
      by_cases same : j = i
      · rw [if_pos same, same]
        exact Nat.succ.inj joineds
      · simp [PoolPc.joined, same, Ne.symm same]
  have locking : (s.at_ c (.destroying thrs)).Locking :=
    good.locking.at_ (pc ▸ not_false) (fun stops => by cases pc.symm.trans stops) not_false fun _ => pc ▸ trivial
  rw [deleted]
  refine ⟨⟨placed.unborn, placed.pool, placed.left, placed.joined⟩,
    Handles.at_ ⟨fun j => ?_, fun h p has => ?_, good.handles.self⟩,
    locking.of_eq rfl rfl rfl rfl rfl, good.ran⟩
  · by_cases same : j = i
    · rw [same, Function.update_self]
      exact ⟨Function.update_self .., done⟩
    · have meets := good.handles.meets j
      have alive : (Function.update s.alive i false) j = s.alive j := Function.update_of_ne same ..
      rw [Function.update_of_ne same]
      cases here : home j with
      | unborn => trivial
      | pool | left | joined | gone =>
        rw [here] at meets
        simp only [Home.Meets] at meets ⊢
        rwa [alive]
  · obtain ⟨same, place⟩ := good.handles.owned h p has
    have differs : p.thread ≠ i := by
      intro here
      rw [here, at_] at place
      rcases place with place | ⟨d, place⟩
      · cases place
      · cases place
    rw [Function.update_of_ne differs]
    exact ⟨same, place⟩

theorem Good.setThread {i : Nat} {thread : Thread} {me : Started} (good : s.Good home)
    (m_thread : thread.m_thread = (s.threads i).m_thread) (self : me.self = (s.started i).self)
    (done : (s.started i).pc ≠ .done) (ran : Ran thread me) : (s.setThread i thread me).Good home where
  placed := ⟨good.placed.unborn, good.placed.pool, good.placed.left, good.placed.joined⟩
  handles := by
    refine good.handles.mono rfl (fun j => ?_) rfl rfl (fun j => ?_) fun j ended => ?_
    · by_cases same : j = i
      · rw [same]
        exact (congrArg _ (Function.update_self ..)).trans m_thread
      · exact congrArg _ (Function.update_of_ne same ..)
    · by_cases same : j = i
      · rw [same]
        exact (congrArg _ (Function.update_self ..)).trans self
      · exact congrArg _ (Function.update_of_ne same ..)
    · have same : j ≠ i := fun same => done (same ▸ ended)
      exact (congrArg _ (Function.update_of_ne same ..)).trans ended
  locking := good.locking.of_eq rfl rfl rfl rfl rfl
  ran j born := by
    by_cases same : j = i
    · show Ran (Function.update s.threads i _ j) (Function.update s.started i _ j)
      rw [same, Function.update_self, Function.update_self]
      exact ran
    · show Ran (Function.update s.threads i _ j) (Function.update s.started i _ j)
      rw [Function.update_of_ne same, Function.update_of_ne same]
      exact good.ran j born

/-- A thread that has not ended still has its `Thread`, and its handle can be joined. -/
theorem Good.running_alive {i : Nat} (good : s.Good home) (born : i < s.next) (runs : (s.started i).pc ≠ .done) :
    s.alive i = true ∧ s.pthreads (s.started i).self = some { thread := i } := by
  have meets := good.handles.meets i
  rw [good.handles.self i born]
  cases at_ : home i with
  | unborn => exact absurd ((good.placed.unborn i).mp at_) (Nat.not_le_of_lt born)
  | pool | left =>
    rw [at_] at meets
    exact ⟨meets.1, meets.2.2⟩
  | joined =>
    rw [at_] at meets
    exact absurd meets.2.2.2 runs
  | gone =>
    rw [at_] at meets
    exact absurd meets.2 runs

theorem Good.threadStep {i : Nat} {tid : Int} (good : s.Good home) (born : i < s.next)
    (done : s.threadStep i tid = some t) : t.Good home := by
  have ran := good.ran i born
  obtain ⟨calls, cb, call, name⟩ := ran
  rw [ThreadPool.threadStep] at done
  cases pc : (s.started i).pc with
  | start =>
    simp only [pc, Option.ite_none_right_eq_some, Option.some.injEq] at done
    obtain ⟨-, rfl⟩ := done
    rw [pc] at calls
    exact good.setThread rfl rfl (pc ▸ nofun) ⟨calls, fun _ => cb (.inl pc), nofun, fun _ => rfl⟩
  | setId =>
    simp only [pc, Option.ite_none_right_eq_some, Option.some.injEq] at done
    obtain ⟨-, rfl⟩ := done
    rw [pc] at calls
    exact good.setThread rfl rfl (pc ▸ nofun)
      ⟨calls, fun _ => cb (.inr (.inl pc)), nofun, fun _ => name (pc ▸ nofun)⟩
  | setName =>
    simp only [pc, Option.ite_none_right_eq_some, Option.some.injEq] at done
    obtain ⟨-, rfl⟩ := done
    rw [pc] at calls
    exact good.setThread rfl rfl (pc ▸ nofun)
      ⟨calls, fun _ => cb (.inr (.inr (.inl pc))), nofun, fun _ => name (pc ▸ nofun)⟩
  | swap =>
    simp only [pc, Option.ite_none_right_eq_some, Option.some.injEq] at done
    obtain ⟨-, rfl⟩ := done
    rw [pc] at calls
    have here := cb (.inr (.inr (.inr pc)))
    exact good.setThread rfl rfl (pc ▸ nofun) ⟨calls, by simp, by simp [here], fun _ => name (pc ▸ nofun)⟩
  | call b =>
    simp only [pc, Option.ite_none_right_eq_some, Option.some.injEq] at done
    obtain ⟨-, rfl⟩ := done
    simp only [pc, reduceCtorEq, or_self, if_false] at calls
    exact good.setThread rfl rfl (pc ▸ nofun) ⟨by simp [calls], by simp, nofun, fun _ => name (pc ▸ nofun)⟩
  | inside =>
    have runs : (s.started i).pc ≠ .done := pc ▸ nofun
    have mine := (good.running_alive born runs).2
    simp only [pc] at done
    have same : (s.setThread i (s.threads i) { s.started i with pc := .done }).pthreads = s.pthreads := rfl
    rw [same, mine] at done
    cases done
    simp only [pc, true_or, if_true] at calls
    exact good.setThread rfl rfl runs ⟨by simp [calls], by simp, nofun, fun _ => name (pc ▸ nofun)⟩
  | done => simp [pc] at done

theorem Good.SetName {i : Nat} {name : String} (good : s.Good home) (born : i < s.next)
    (pc : (s.started i).pc = .inside) :
    (s.setThread i { s.threads i with m_name := name } { s.started i with t_thread_name := name }).Good home := by
  obtain ⟨calls, cb, call, -⟩ := good.ran i born
  exact good.setThread rfl rfl (pc ▸ nofun) ⟨calls, cb, call, fun _ => rfl⟩

/-- The thread that `stop` joins next has a handle of its own. -/
theorem Good.joinable {c i : Nat} {joined left : List (Option Nat)} (good : s.Good home)
    (pc : s.callers c = .joining joined (some i :: left)) :
    (s.threads i).m_thread ≠ 0 ∧ s.pthreads (s.threads i).m_thread = some { thread := i } := by
  have at_ : home i = .left c := good.placed.mem_left.mp (by rw [pc]; exact List.mem_cons_self ..)
  have meets := good.handles.meets i
  rw [at_] at meets
  exact meets.2

/-- A caller of `stop` that goes on with the same pointers. -/
theorem Good.stops {c : Nat} {pc : PoolPc} (good : s.Good home) (joins : (s.callers c).Joins) (after : ¬ pc.Starts)
    (left : ∀ i, pc.left.count (some i) = (s.callers c).left.count (some i))
    (joined : ∀ i, pc.joined.count (some i) = (s.callers c).joined.count (some i)) : (s.at_ c pc).Good home := by
  refine good.at_ (good.locking.at_ ?_ ?_ after fun _ => joins) left joined
  · intro starts
    cases pc : s.callers c <;> rw [pc] at joins starts <;> first | exact joins | exact starts
  · intro stopping
    rw [stopping] at joins
    exact joins

theorem Good.callerStep {c : Nat} (good : s.Good home)
    (settled : s.callers c = .locked → s.m_stopping = true → ∀ d, ¬ (s.callers d).Stops)
    (done : s.callerStep c = some t) : ∃ home, t.Good home := by
  rw [ThreadPool.callerStep] at done
  cases pc : s.callers c with
  | idle => simp [pc] at done
  | locked =>
    simp only [pc, Option.some.injEq] at done
    split at done
    · rename_i stopping
      exact ⟨home, done ▸ good.test pc stopping (settled pc stopping)⟩
    · exact ⟨home, done ▸ good.unlock (pc ▸ trivial)⟩
  | tested =>
    simp only [pc, Option.ite_none_right_eq_some, Option.some.injEq] at done
    exact ⟨home, done.2 ▸ good.clear pc⟩
  | creating i =>
    simp only [pc, Option.ite_none_right_eq_some, Option.some.injEq] at done
    exact ⟨home, done.2 ▸ good.unlock (pc ▸ trivial)⟩
  | made i j =>
    simp only [pc, Option.some.injEq] at done
    exact ⟨home, done ▸ good.push pc⟩
  | stopping =>
    simp only [pc, Option.ite_none_right_eq_some, Option.some.injEq] at done
    exact ⟨_, done.2 ▸ good.swap pc done.1⟩
  | joining joined left =>
    match left with
    | [] =>
      simp only [pc, Option.some.injEq] at done
      exact ⟨home, done ▸ good.stops (pc ▸ trivial) not_false (by simp [pc, PoolPc.left]) (by simp [pc, PoolPc.joined])⟩
    | none :: left => simp [pc] at done
    | some i :: left =>
      obtain ⟨valid, mine⟩ := good.joinable pc
      simp only [pc, if_neg valid, pthread_join, mine] at done
      by_cases ended : (s.started i).pc = .done
      · simp only [ended] at done
        cases done
        exact ⟨_, good.join pc ended⟩
      · simp [ended] at done
  | destroying thrs =>
    match thrs with
    | [] =>
      simp only [pc, Option.some.injEq] at done
      exact ⟨home, done ▸ good.stops (pc ▸ trivial) not_false (by simp [pc, PoolPc.left]) (by simp [pc, PoolPc.joined])⟩
    | none :: thrs =>
      simp only [pc, Option.some.injEq] at done
      exact ⟨home, done ▸ good.stops (pc ▸ trivial) not_false (by simp [pc, PoolPc.left]) (by simp [pc, PoolPc.joined])⟩
    | some i :: thrs =>
      simp only [pc, Option.some.injEq] at done
      exact ⟨_, done ▸ good.delete pc⟩

theorem Good.step {o : Op} (good : s.Good home) (step : Guarded Step Settled s o t) : ∃ home, t.Good home := by
  obtain ⟨done, settled⟩ := step
  cases o with
  | start c =>
    rw [Step, op] at done
    split at done
    · rename_i pc mutex
      cases done
      exact ⟨home, good.start pc mutex⟩
    · cases done
  | create c handle =>
    rw [Step, op] at done
    split at done
    · rename_i i pc
      split at done
      · rename_i few
        cases handle with
        | some h =>
          simp only [Option.ite_none_right_eq_some, Option.some.injEq] at done
          obtain ⟨⟨valid, new⟩, rfl⟩ := done
          exact ⟨_, good.create pc few valid new⟩
        | none =>
          cases done
          exact ⟨home, good.fail pc⟩
      · cases done
    · cases done
  | stop c =>
    rw [Step, op] at done
    split at done
    · rename_i pc
      cases done
      exact ⟨home, good.stop pc⟩
    · cases done
  | stopped c =>
    rw [Step, op] at done
    split at done
    · simp only [Option.ite_none_right_eq_some, Option.some.injEq] at done
      exact ⟨home, done.2 ▸ good.stopped done.1⟩
    · cases done
  | step c => exact good.callerStep (settled c rfl) done
  | run i tid =>
    simp only [Step, op, Option.ite_none_right_eq_some] at done
    exact ⟨home, good.threadStep done.1 done.2⟩
  | SetName i name =>
    simp only [Step, op, Option.ite_none_right_eq_some, Option.some.injEq] at done
    obtain ⟨⟨born, pc, -⟩, rfl⟩ := done
    exact ⟨home, good.SetName born pc⟩

theorem good_init {name : String} {count : Nat} :
    Good { m_name := name, m_threadCount := count } fun _ => .unborn where
  placed := ⟨fun _ => iff_of_true rfl (Nat.zero_le _), fun _ => rfl, fun _ _ => rfl, fun _ _ => rfl⟩
  handles := ⟨fun _ => trivial, nofun, nofun⟩
  locking := ⟨fun _ => iff_of_false nofun not_false, fun _ _ => False.elim,
    fun _ filled => absurd filled (by simp [PoolPc.Fills]), nofun, nofun, nofun, Nat.zero_le _⟩
  ran := nofun

end Sylar.ThreadPool
