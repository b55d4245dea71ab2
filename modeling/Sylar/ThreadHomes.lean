import Sylar.Threads

/-! Where the pointers to the threads of a pool are, what their handles are good for, and who has `m_mutex`. -/

namespace Sylar.ThreadPool

/-- Where the pointer to a `Thread` is. -/
inductive Home
  | unborn
  | pool
  | left (c : Nat)
  | joined (c : Nat)
  | gone
deriving DecidableEq

/-- Every `Thread` has one pointer, and it is where `home` says. -/
structure Placed (s : ThreadPool) (home : Nat → Home) : Prop where
  unborn : ∀ i, home i = .unborn ↔ s.next ≤ i
  pool : ∀ i, s.m_threads.count (some i) = if home i = .pool then 1 else 0
  left : ∀ c i, (s.callers c).left.count (some i) = if home i = .left c then 1 else 0
  joined : ∀ c i, (s.callers c).joined.count (some i) = if home i = .joined c then 1 else 0

/-- What the handle of a `Thread` is good for, where it is. -/
def Home.Meets : Home → ThreadPool → Nat → Prop
  | .unborn, _, _ => True
  | .pool, s, i | .left _, s, i =>
    s.alive i = true ∧ (s.threads i).m_thread ≠ 0 ∧ s.pthreads (s.threads i).m_thread = some { thread := i }
  | .joined _, s, i =>
    s.alive i = true ∧ (s.threads i).m_thread ≠ 0 ∧ s.pthreads (s.threads i).m_thread = none ∧ (s.started i).pc = .done
  | .gone, s, i => s.alive i = false ∧ (s.started i).pc = .done

structure Handles (s : ThreadPool) (home : Nat → Home) : Prop where
  meets : ∀ i, (home i).Meets s i
  owned : ∀ h p, s.pthreads h = some p →
    (s.threads p.thread).m_thread = h ∧ (home p.thread = .pool ∨ ∃ c, home p.thread = .left c)
  self : ∀ i, i < s.next → (s.started i).self = (s.threads i).m_thread

/-- Who has `m_mutex`, and what `m_stopping` says of the threads. -/
structure Locking (s : ThreadPool) : Prop where
  lock : ∀ c, s.m_mutex = some c ↔ (s.callers c).Starts
  alone : ∀ c d, (s.callers c).Creates → ¬ (s.callers d).Joins
  running : 0 < s.m_threadCount → (s.m_threads ≠ [] ∨ ∃ c, (s.callers c).Fills) →
    s.m_stopping = false ∨ ∃ d, s.callers d = .stopping
  tested : ∀ c, s.callers c = .tested → s.m_threads = []
  creating : ∀ c i, s.callers c = .creating i → s.m_threads.length = i
  made : ∀ c i t, s.callers c = .made i t → s.m_threads.length = i + 1
  few : s.m_threads.length ≤ s.m_threadCount

/-- What `Thread::run` has done so far. -/
structure Ran (thread : Thread) (me : Started) : Prop where
  calls : me.calls = if me.pc = .inside ∨ me.pc = .done then 1 else 0
  cb : me.pc = .start ∨ me.pc = .setId ∨ me.pc = .setName ∨ me.pc = .swap → thread.m_cb = true
  call : me.pc ≠ .call false
  name : me.pc ≠ .start → me.t_thread_name = thread.m_name

variable {s t : ThreadPool} {home : Nat → Home}

theorem pthread_detach_of_none {h : Nat} (released : s.pthreads h = none) : s.pthread_detach h = s := by
  rw [pthread_detach, released]

theorem Placed.of_lists (placed : s.Placed home) (next : t.next = s.next)
    (pool : ∀ i, t.m_threads.count (some i) = s.m_threads.count (some i))
    (left : ∀ c i, (t.callers c).left.count (some i) = (s.callers c).left.count (some i))
    (joined : ∀ c i, (t.callers c).joined.count (some i) = (s.callers c).joined.count (some i)) : t.Placed home where
  unborn i := by
    rw [next]
    exact placed.unborn i
  pool i := (pool i).trans (placed.pool i)
  left c i := (left c i).trans (placed.left c i)
  joined c i := (joined c i).trans (placed.joined c i)

/-- A caller goes on with the same pointers. -/
theorem Placed.at_ {c : Nat} {pc : PoolPc} (placed : s.Placed home)
    (left : ∀ i, pc.left.count (some i) = (s.callers c).left.count (some i))
    (joined : ∀ i, pc.joined.count (some i) = (s.callers c).joined.count (some i)) : (s.at_ c pc).Placed home := by
  refine placed.of_lists rfl (fun _ => rfl) (fun d i => ?_) fun d i => ?_
  · by_cases here : d = c
    · rw [here, callers_at_self]
      exact left i
    · rw [callers_at_of_ne here]
  · by_cases here : d = c
    · rw [here, callers_at_self]
      exact joined i
    · rw [callers_at_of_ne here]

theorem Handles.mono (handles : s.Handles home) (next : t.next = s.next)
    (m_thread : ∀ i, (t.threads i).m_thread = (s.threads i).m_thread) (alive : t.alive = s.alive)
    (pthreads : t.pthreads = s.pthreads) (self : ∀ i, (t.started i).self = (s.started i).self)
    (done : ∀ i, (s.started i).pc = .done → (t.started i).pc = .done) : t.Handles home where
  meets i := by
    have meets := handles.meets i
    cases here : home i with
    | unborn => trivial
    | pool | left =>
      rw [here] at meets
      simp only [Home.Meets] at meets ⊢
      rw [alive, m_thread, pthreads]
      exact meets
    | joined =>
      rw [here] at meets
      simp only [Home.Meets] at meets ⊢
      rw [alive, m_thread, pthreads]
      exact ⟨meets.1, meets.2.1, meets.2.2.1, done i meets.2.2.2⟩
    | gone =>
      rw [here] at meets
      simp only [Home.Meets] at meets ⊢
      rw [alive]
      exact ⟨meets.1, done i meets.2⟩
  owned h p has := by
    rw [pthreads] at has
    rw [m_thread]
    exact handles.owned h p has
  self i born := by
    rw [next] at born
    rw [self, m_thread]
    exact handles.self i born

theorem Handles.at_ {c : Nat} {pc : PoolPc} (handles : s.Handles home) :
    (s.at_ c pc).Handles home :=
  handles.mono rfl (fun _ => rfl) rfl rfl (fun _ => rfl) fun _ done => done

theorem Locking.of_eq (locking : s.Locking) (callers : t.callers = s.callers) (mutex : t.m_mutex = s.m_mutex)
    (stopping : t.m_stopping = s.m_stopping) (threads : t.m_threads = s.m_threads)
    (count : t.m_threadCount = s.m_threadCount) : t.Locking := by
  obtain ⟨lock, alone, running, tested, creating, made, few⟩ := locking
  constructor
  · rw [callers, mutex]
    exact lock
  · rw [callers]
    exact alone
  · rw [callers, stopping, threads, count]
    exact running
  · rw [callers, threads]
    exact tested
  · rw [callers, threads]
    exact creating
  · rw [callers, threads]
    exact made
  · rw [threads, count]
    exact few

/-- A caller that has not the lock, and is not about to take the threads, does not get there by its step. -/
theorem Locking.at_ {c : Nat} {pc : PoolPc} (locking : s.Locking) (before : ¬ (s.callers c).Starts)
    (swapped : s.callers c ≠ .stopping) (after : ¬ pc.Starts) (joins : pc.Joins → (s.callers c).Joins) :
    (s.at_ c pc).Locking := by
  have starts : ∀ d, ((s.at_ c pc).callers d).Starts ↔ (s.callers d).Starts := by
    intro d
    by_cases here : d = c
    · rw [here, callers_at_self]
      exact iff_of_false after before
    · rw [callers_at_of_ne here]
  have same : ∀ d, ((s.at_ c pc).callers d).Starts → (s.at_ c pc).callers d = s.callers d := by
    intro d started
    refine callers_at_of_ne fun here => after ?_
    rw [here, callers_at_self] at started
    exact started
  refine ⟨fun d => (locking.lock d).trans (starts d).symm, fun d e creates joined => ?_, fun several filled => ?_,
    fun d pc => ?_, fun d i pc => ?_, fun d i t pc => ?_, locking.few⟩
  · rw [same d creates.starts] at creates
    refine locking.alone d e creates ?_
    by_cases here : e = c
    · rw [here, callers_at_self] at joined
      exact here ▸ joins joined
    · rwa [callers_at_of_ne here] at joined
  · have found : s.m_stopping = false ∨ ∃ d, s.callers d = .stopping := by
      refine locking.running several (filled.imp_right ?_)
      rintro ⟨d, fills⟩
      rw [same d fills.creates.starts] at fills
      exact ⟨d, fills⟩
    refine found.imp_right ?_
    rintro ⟨d, stopping⟩
    have other : d ≠ c := by
      intro here
      rw [here] at stopping
      exact swapped stopping
    exact ⟨d, (callers_at_of_ne other).trans stopping⟩
  · exact locking.tested d ((same d (pc ▸ trivial)).symm.trans pc)
  · exact locking.creating d i ((same d (pc ▸ trivial)).symm.trans pc)
  · exact locking.made d i t ((same d (pc ▸ trivial)).symm.trans pc)

/-- The caller that has the lock is the only one in `start`. -/
theorem Locking.sole {c d : Nat} (locking : s.Locking) (mine : (s.callers c).Starts) (other : d ≠ c) :
    ¬ (s.callers d).Starts := by
  intro starts
  have held : some c = some d := ((locking.lock c).mpr mine).symm.trans ((locking.lock d).mpr starts)
  exact other (Option.some.inj held).symm

/-- A step of the caller that has the lock, or of one that finds it free. -/
theorem Locking.holder {c : Nat} {pc : PoolPc} (count : t.m_threadCount = s.m_threadCount)
    (self : t.callers c = pc) (others : ∀ d, d ≠ c → t.callers d = s.callers d)
    (free : ∀ d, d ≠ c → ¬ (s.callers d).Starts)
    (mutex : t.m_mutex = some c ∧ pc.Starts ∨ t.m_mutex = none ∧ ¬ pc.Starts)
    (alone : pc.Creates → ∀ d, d ≠ c → ¬ (s.callers d).Joins)
    (running : 0 < s.m_threadCount → (t.m_threads ≠ [] ∨ pc.Fills) →
      t.m_stopping = false ∨ ∃ d, d ≠ c ∧ s.callers d = .stopping)
    (tested : pc = .tested → t.m_threads = []) (creating : ∀ i, pc = .creating i → t.m_threads.length = i)
    (made : ∀ i j, pc = .made i j → t.m_threads.length = i + 1) (few : t.m_threads.length ≤ s.m_threadCount) :
    t.Locking := by
  have mine : ∀ d, (t.callers d).Starts → d = c := by
    intro d starts
    by_contra other
    rw [others d other] at starts
    exact free d other starts
  refine ⟨fun d => ?_, fun d e creates joined => ?_, fun several filled => ?_, fun d at_ => ?_, fun d i at_ => ?_,
    fun d i j at_ => ?_, count.symm ▸ few⟩
  · by_cases here : d = c
    · rw [here, self]
      rcases mutex with ⟨held, starts⟩ | ⟨released, idle⟩
      · exact iff_of_true held starts
      · exact iff_of_false (fun held => nomatch held.symm.trans released) idle
    · refine iff_of_false (fun held => ?_) fun starts => here (mine d starts)
      rcases mutex with ⟨taken, -⟩ | ⟨released, -⟩
      · exact here (Option.some.inj (held.symm.trans taken))
      · cases held.symm.trans released
  · have here := mine d creates.starts
    rw [here, self] at creates
    by_cases same : e = c
    · rw [same, self] at joined
      cases pc with
      | joining | destroying => exact creates
      | _ => exact joined
    · rw [others e same] at joined
      exact alone creates e same joined
  · have found : t.m_stopping = false ∨ ∃ d, d ≠ c ∧ s.callers d = .stopping := by
      refine running (count ▸ several) (filled.imp_right ?_)
      rintro ⟨d, fills⟩
      rw [mine d fills.creates.starts, self] at fills
      exact fills
    refine found.imp_right ?_
    rintro ⟨d, other, stopping⟩
    exact ⟨d, (others d other).trans stopping⟩
  · rw [mine d (at_ ▸ trivial), self] at at_
    exact tested at_
  · rw [mine d (at_ ▸ trivial), self] at at_
    exact creating i at_
  · rw [mine d (at_ ▸ trivial), self] at at_
    exact made i j at_

theorem Placed.mem_left {c i : Nat} (placed : s.Placed home) : some i ∈ (s.callers c).left ↔ home i = .left c := by
  rw [← List.count_pos_iff, placed.left c i]
  split <;> simp_all

theorem Placed.mem_joined {c i : Nat} (placed : s.Placed home) :
    some i ∈ (s.callers c).joined ↔ home i = .joined c := by
  rw [← List.count_pos_iff, placed.joined c i]
  split <;> simp_all

theorem Placed.newThread {name : String} {h : Nat} (placed : s.Placed home) :
    (s.newThread name h).Placed (Function.update home s.next .pool) := by
  have unborn : home s.next = .unborn := (placed.unborn _).mpr (Nat.le_refl _)
  refine ⟨fun i => ?_, fun i => ?_, fun d i => ?_, fun d i => ?_⟩
  · by_cases here : i = s.next
    · rw [here, Function.update_self]
      exact iff_of_false nofun (Nat.not_succ_le_self _)
    · rw [Function.update_of_ne here, placed.unborn i]
      show s.next ≤ i ↔ s.next + 1 ≤ i
      omega
  · show (s.m_threads ++ [some s.next]).count (some i) = _
    rw [List.count_append, placed.pool i]
    by_cases here : i = s.next
    · simp [here, unborn]
    · simp [here, Ne.symm here]
  · refine (placed.left d i).trans ?_
    by_cases here : i = s.next
    · simp [here, unborn]
    · simp [here]
  · refine (placed.joined d i).trans ?_
    by_cases here : i = s.next
    · simp [here, unborn]
    · simp [here]

theorem Handles.newThread {name : String} {h : Nat} (handles : s.Handles home) (placed : s.Placed home)
    (nobody : ∀ i c, home i ≠ .joined c) (valid : h ≠ 0) (new : s.pthreads h = none) :
    (s.newThread name h).Handles (Function.update home s.next .pool) := by
  have unborn : home s.next = .unborn := (placed.unborn _).mpr (Nat.le_refl _)
  have threads : ∀ i, i ≠ s.next → (s.newThread name h).threads i = s.threads i := fun i => (Function.update_of_ne · ..)
  have alive : ∀ i, i ≠ s.next → (s.newThread name h).alive i = s.alive i := fun i => (Function.update_of_ne · ..)
  have started : ∀ i, i ≠ s.next → (s.newThread name h).started i = s.started i := fun i => (Function.update_of_ne · ..)
  have pthreads : ∀ g, g ≠ h → (s.newThread name h).pthreads g = s.pthreads g := fun g => (Function.update_of_ne · ..)
  have thread : (s.newThread name h).threads s.next = { m_thread := h, m_name := threadName name } :=
    Function.update_self ..
  have taken : (s.newThread name h).pthreads h = some { thread := s.next } := Function.update_self ..
  refine ⟨fun i => ?_, fun g p has => ?_, fun i born => ?_⟩
  · by_cases here : i = s.next
    · rw [here, Function.update_self]
      simp only [Home.Meets]
      rw [thread]
      exact ⟨Function.update_self .., valid, taken⟩
    · rw [Function.update_of_ne here]
      have meets := handles.meets i
      have other : ∀ p, s.pthreads (s.threads i).m_thread = some p → (s.threads i).m_thread ≠ h := by
        intro p has same
        rw [same, new] at has
        cases has
      cases at_ : home i with
      | unborn => trivial
      | pool | left =>
        rw [at_] at meets
        simp only [Home.Meets] at meets ⊢
        rw [alive i here, threads i here, pthreads _ (other _ meets.2.2)]
        exact meets
      | joined c => exact absurd at_ (nobody i c)
      | gone =>
        rw [at_] at meets
        simp only [Home.Meets] at meets ⊢
        rw [alive i here, started i here]
        exact meets
  · by_cases same : g = h
    · rw [same, taken] at has
      cases has
      exact ⟨by rw [thread, same], .inl (Function.update_self ..)⟩
    · rw [pthreads g same] at has
      obtain ⟨mine, at_⟩ := handles.owned g p has
      have here : p.thread ≠ s.next := by
        intro here
        rw [here, unborn] at at_
        rcases at_ with at_ | ⟨c, at_⟩
        · cases at_
        · cases at_
      rw [threads _ here, Function.update_of_ne here]
      exact ⟨mine, at_⟩
  · by_cases here : i = s.next
    · rw [here, thread]
      show (Function.update s.started s.next _ s.next).self = h
      rw [Function.update_self]
    · rw [started i here, threads i here]
      have born : i < s.next + 1 := born
      exact handles.self i (by omega)

/-- The threads of the pool go to a caller of `stop`. -/
def takes (home : Nat → Home) (c : Nat) (i : Nat) : Home := if home i = .pool then .left c else home i

theorem takes_pool {c i : Nat} (at_ : home i = .pool) : takes home c i = .left c := if_pos at_

theorem takes_of_ne {c i : Nat} (at_ : home i ≠ .pool) : takes home c i = home i := if_neg at_

theorem Placed.swap {c : Nat} (placed : s.Placed home) (pc : s.callers c = .stopping) :
    ({ s with m_threads := [] }.at_ c (.joining [] s.m_threads)).Placed (takes home c) := by
  have mine : ∀ i, home i ≠ .left c := by
    intro i at_
    have mem := placed.mem_left.mpr at_
    rw [pc] at mem
    cases mem
  have theirs : ∀ i, home i ≠ .joined c := by
    intro i at_
    have mem := placed.mem_joined.mpr at_
    rw [pc] at mem
    cases mem
  refine ⟨fun i => Iff.trans ?_ (placed.unborn i), fun i => ?_, fun d i => ?_, fun d i => ?_⟩
  · by_cases at_ : home i = .pool
    · simp [takes, at_]
    · rw [takes_of_ne at_]
  · show 0 = _
    by_cases at_ : home i = .pool
    · simp [takes, at_]
    · simp [takes_of_ne at_, at_]
  · by_cases here : d = c
    · rw [here, callers_at_self]
      refine (placed.pool i).trans ?_
      by_cases at_ : home i = .pool
      · simp [takes, at_]
      · simp [takes_of_ne at_, at_, mine i]
    · rw [callers_at_of_ne here]
      refine (placed.left d i).trans ?_
      by_cases at_ : home i = .pool
      · simp [takes, at_, Ne.symm here]
      · rw [takes_of_ne at_]
  · by_cases here : d = c
    · rw [here, callers_at_self]
      show 0 = _
      by_cases at_ : home i = .pool
      · simp [takes, at_]
      · simp [takes_of_ne at_, theirs i]
    · rw [callers_at_of_ne here]
      refine (placed.joined d i).trans ?_
      by_cases at_ : home i = .pool
      · simp [takes, at_]
      · rw [takes_of_ne at_]

theorem Handles.takes {c : Nat} (handles : s.Handles home) : s.Handles (takes home c) where
  meets i := by
    have meets := handles.meets i
    by_cases at_ : home i = .pool
    · rw [takes_pool at_]
      rwa [at_] at meets
    · rwa [takes_of_ne at_]
  owned h p has := by
    obtain ⟨mine, at_ | ⟨d, at_⟩⟩ := handles.owned h p has
    · exact ⟨mine, .inr ⟨c, takes_pool at_⟩⟩
    · exact ⟨mine, .inr ⟨d, (takes_of_ne (by rw [at_]; nofun)).trans at_⟩⟩
  self := handles.self

/-- A `Thread` of a caller of `stop` goes from one of its lists to the next. -/
theorem Placed.move {c i : Nat} {pc : PoolPc} {place : Home} (placed : s.Placed home)
    (before : home i = .left c ∨ home i = .joined c) (after : place = .joined c ∨ place = .gone)
    (left : ∀ j, pc.left.count (some j) = if j = i then 0 else (s.callers c).left.count (some j))
    (joined : ∀ j, pc.joined.count (some j) =
      if j = i then if place = .joined c then 1 else 0 else (s.callers c).joined.count (some j)) :
    (s.at_ c pc).Placed (Function.update home i place) := by
  refine ⟨fun j => Iff.trans ?_ (placed.unborn j), fun j => (placed.pool j).trans ?_, fun d j => ?_, fun d j => ?_⟩
  · by_cases same : j = i
    · rw [same, Function.update_self]
      rcases before with before | before <;> rcases after with rfl | rfl <;> simp [before]
    · rw [Function.update_of_ne same]
  · by_cases same : j = i
    · rw [same, Function.update_self]
      rcases before with before | before <;> rcases after with rfl | rfl <;> simp [before]
    · rw [Function.update_of_ne same]
  · by_cases same : j = i
    · rw [same, Function.update_self]
      by_cases here : d = c
      · rw [here, callers_at_self, left i]
        rcases after with rfl | rfl <;> simp
      · rw [callers_at_of_ne here, placed.left d i]
        rcases before with before | before <;> rcases after with rfl | rfl <;> simp [before, Ne.symm here]
    · rw [Function.update_of_ne same, ← placed.left d j]
      by_cases here : d = c
      · rw [here, callers_at_self, left j, if_neg same]
      · rw [callers_at_of_ne here]
  · by_cases same : j = i
    · rw [same, Function.update_self]
      by_cases here : d = c
      · rw [here, callers_at_self, joined i, if_pos rfl]
      · rw [callers_at_of_ne here, placed.joined d i]
        rcases before with before | before <;> rcases after with rfl | rfl <;> simp [before, Ne.symm here]
    · rw [Function.update_of_ne same, ← placed.joined d j]
      by_cases here : d = c
      · rw [here, callers_at_self, joined j, if_neg same]
      · rw [callers_at_of_ne here]

theorem Handles.join {c i : Nat} (handles : s.Handles home) (at_ : home i = .left c)
    (done : (s.started i).pc = .done) :
    (s.setPthread (s.threads i).m_thread none).Handles (Function.update home i (.joined c)) := by
  have meets := handles.meets i
  rw [at_] at meets
  obtain ⟨alive, valid, mine⟩ := meets
  have other : ∀ h, h ≠ (s.threads i).m_thread →
      (s.setPthread (s.threads i).m_thread none).pthreads h = s.pthreads h := fun h => (Function.update_of_ne · ..)
  have released : (s.setPthread (s.threads i).m_thread none).pthreads (s.threads i).m_thread = none :=
    Function.update_self ..
  refine ⟨fun j => ?_, fun h p has => ?_, handles.self⟩
  · by_cases same : j = i
    · rw [same, Function.update_self]
      exact ⟨alive, valid, released, done⟩
    · rw [Function.update_of_ne same]
      have meets := handles.meets j
      cases here : home j with
      | unborn => trivial
      | pool | left =>
        rw [here] at meets
        obtain ⟨lives, valid, theirs⟩ := meets
        have differs : (s.threads j).m_thread ≠ (s.threads i).m_thread := by
          intro equal
          rw [equal, mine] at theirs
          exact same (congrArg Pthread.thread (Option.some.inj theirs)).symm
        exact ⟨lives, valid, (other _ differs).trans theirs⟩
      | joined =>
        rw [here] at meets
        obtain ⟨lives, valid, theirs, ended⟩ := meets
        refine ⟨lives, valid, ?_, ended⟩
        by_cases equal : (s.threads j).m_thread = (s.threads i).m_thread
        · exact (congrArg _ equal).trans released
        · exact (other _ equal).trans theirs
      | gone => rwa [here] at meets
  · by_cases equal : h = (s.threads i).m_thread
    · rw [equal, released] at has
      cases has
    · rw [other h equal] at has
      obtain ⟨same, place⟩ := handles.owned h p has
      have differs : p.thread ≠ i := fun here => equal (here ▸ same.symm)
      rw [Function.update_of_ne differs]
      exact ⟨same, place⟩

end Sylar.ThreadPool
