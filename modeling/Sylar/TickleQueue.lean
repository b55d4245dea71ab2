import Sylar.TickleAwake

/-! Whether a queue that is not empty is looked at again: some worker is on its way to it, or the pipe
will bring one out of `epoll_wait`. -/

namespace Sylar
open Machine

variable {κ : Type}

namespace Tickler

variable {K ω : Type} {ep : Epoll K} {self : SchedId} {n : Nat} {s t : Tickler K κ ω} {a : Act κ ω}

/-- Some worker is on its way to the queue, some thread is in `tickle()`, or the pipe will bring a worker
out of `epoll_wait`. -/
def Attended (n : Nat) (s : Tickler K κ ω) : Prop := (∃ w < n, s.io.Awake w) ∨ s.Calls ∨ s.Rings

/-- What holds in every state. -/
structure Sound (n : Nat) (s : Tickler K κ ω) : Prop where
  serving : s.io.Serving
  counted : s.io.base.workers.Counted
  held : s.io.base.workers.Held n

/-- The steps, each with what it needs. -/
inductive Stepped (ep : Epoll K) (self : SchedId) (n : Nat) (s : Tickler K κ ω) : Act κ ω → Tickler K κ ω → Prop
  | io {thread b io} : s.io.Step ep self n b io → s.tickling thread = none → (∀ w, b.thread = some w → thread = w) →
      Stepped ep self n s (.io thread b) { s with
        io := io
        tickling := if s.io.tickles b io then Function.update s.tickling thread (some .called) else s.tickling }
  | hasIdleThreads {thread} : s.tickling thread = some .called →
      Stepped ep self n s (.hasIdleThreads thread)
        (s.goto thread (if s.io.hasIdleThreads then some .writing else none))
  | write {thread} : s.tickling thread = some .writing →
      Stepped ep self n s (.write thread) { s.goto thread none with bytes := s.bytes + 1, ready := true }
  | epoll_wait {w io} : w < n → s.Rings → s.io.Step ep self n (.idle w .epoll_wait) io →
      Stepped ep self n s (.epoll_wait w)
        { s with io := io, ready := false, reported := Function.update s.reported w true }
  | read {w bytes reported} : w < n → s.io.idle w = .dispatch →
      Stepped ep self n s (.read w) { s with bytes := bytes, reported := reported }

theorem Step.stepped (step : s.Step ep self n a t) : s.Stepped ep self n a t := by
  obtain ⟨allowed, done⟩ := step
  cases a with
  | io thread b =>
    simp only [act] at done
    split at done
    · rename_i idle
      obtain ⟨io, stepped, rfl⟩ := Option.map_eq_some_iff.mp done
      exact .io ⟨allowed.1, stepped⟩ idle allowed.2.1
    · cases done
  | hasIdleThreads thread =>
    simp only [act] at done
    split at done
    · rename_i called
      cases done
      exact .hasIdleThreads called
    · cases done
  | write thread =>
    simp only [act] at done
    split at done
    · rename_i writing
      cases done
      exact .write writing
    · cases done
  | epoll_wait w =>
    simp only [act] at done
    split at done
    · rename_i rings
      obtain ⟨io, stepped, rfl⟩ := Option.map_eq_some_iff.mp done
      exact .epoll_wait allowed rings.2 ⟨allowed, stepped⟩
    · cases done
  | read w =>
    simp only [act] at done
    split at done
    · rename_i dispatch
      split at done
      · split at done
        · cases done
          exact .read allowed dispatch
        · cases done
          exact .read allowed dispatch
      · cases done
    · cases done

theorem Sound.io {io : Reactor K κ ω} {b : Reactor.Act κ ω} (positive : 0 < n) (sound : s.Sound n)
    (step : s.io.Step ep self n b io) : io.Serving ∧ io.base.workers.Counted ∧ io.base.workers.Held n :=
  ⟨sound.serving.step step,
    step.workers positive (fun _ _ w c _ counted done => counted.step (l := (w, c)) done)
      (fun _ _ counted => ⟨counted.tidy, counted.active, counted.idle⟩) sound.counted,
    step.workers positive (fun _ _ _ _ member held done => held.call member done) (fun _ _ held => held) sound.held⟩

theorem Sound.step (positive : 0 < n) (sound : s.Sound n) (step : s.Step ep self n a t) : t.Sound n := by
  cases step.stepped with
  | io stepped | epoll_wait _ _ stepped =>
    obtain ⟨serving, counted, held⟩ := sound.io positive stepped
    exact ⟨serving, counted, held⟩
  | hasIdleThreads | write | read => exact ⟨sound.serving, sound.counted, sound.held⟩

theorem Init.sound (init : s.Init) : s.Sound n := by
  refine ⟨init.io.serving, ?_, ?_⟩
  · rw [init.io.base]
    exact Workers.counted_init
  · rw [init.io.base]
    intro f exec
    cases exec

/-- A thread finds no idle worker in `tickle()`, and each worker stands between its look at the queue and
`++m_idleThreadCount`: nobody else calls `tickle()`, and the pipe is silent. -/
def Loses (n : Nat) (s : Tickler K κ ω) : Act κ ω → Prop
  | .hasIdleThreads thread => s.io.scheduler.m_idleThreadCount = 0 ∧ s.io.scheduler.m_fibers ≠ [] ∧
      (∀ w < n, (s.io.worker w).pc = .selected false) ∧ (∀ other, other ≠ thread → s.tickling other = none) ∧
      ¬ s.Rings
  | _ => False

/-- While no worker idles, a worker that is not on its way to the queue has just left it. -/
theorem asleep_of_idle_zero (sound : s.Sound n) (idle : s.io.scheduler.m_idleThreadCount = 0) {w : Nat}
    (asleep : ¬ s.io.Awake w) : (s.io.worker w).pc = .selected false := by
  have notIdling : ¬ (s.io.worker w).Idling := sound.counted.idle.eq_zero_iff.mp idle w
  have posted := sound.serving.sane.posted.left w
  have undecided := sound.serving.undecided w
  rw [Reactor.Awake] at asleep
  rw [Worker.Idling] at notIdling
  change (s.io.worker w).pc = .stopped → _ at posted
  generalize (s.io.worker w).pc = pc at asleep notIdling posted
  cases pc with
  | selected is_active =>
    cases is_active with
    | false => rfl
    | true => exact absurd trivial asleep
  | stopped =>
    rw [posted rfl] at undecided
    cases undecided
  | swapIn job | running job =>
    cases job with
    | idle => exact absurd rfl notIdling
    | fiber | callback => exact absurd trivial asleep
  | _ => exact absurd trivial asleep

theorem attended_step_iff (sound : s.Sound n)
    (attended : s.io.scheduler.m_fibers ≠ [] → s.Attended n) (step : s.Step ep self n a t) :
    (t.io.scheduler.m_fibers ≠ [] → t.Attended n) ↔ ¬ s.Loses n a := by
  cases step.stepped with
  | @io thread b io stepped free own =>
    refine iff_of_true (fun queue => ?_) id
    by_cases tickles : s.io.tickles b io
    · refine .inr (.inl ⟨thread, ?_⟩)
      simp [tickles]
    · rw [Bool.not_eq_true] at tickles
      rcases stepped.awake sound.serving sound.held tickles queue with awake | ⟨before, stay⟩
      · exact .inl awake
      · rcases attended before with ⟨w, member, awake⟩ | ⟨other, calls⟩ | rings
        · exact .inl ⟨w, member, stay w member awake⟩
        · exact .inr (.inl ⟨other, by simpa [tickles] using calls⟩)
        · exact .inr (.inr rings)
  | @hasIdleThreads thread called =>
    by_cases idle : s.io.hasIdleThreads
    · refine iff_of_true (fun _ => .inr (.inl ⟨thread, ?_⟩)) ?_
      · simp [goto, idle]
      · rintro ⟨zero, -⟩
        rw [Reactor.hasIdleThreads, zero] at idle
        cases idle
    · have zero : s.io.scheduler.m_idleThreadCount = 0 := by
        have nonneg := sound.counted.idle.nonneg
        rw [Reactor.hasIdleThreads, decide_eq_true_eq] at idle
        change 0 ≤ s.io.scheduler.m_idleThreadCount at nonneg
        omega
      rw [if_neg idle]
      constructor
      · rintro after ⟨-, queue, all, others, silent⟩
        rcases after queue with ⟨w, member, awake⟩ | ⟨other, calls⟩ | rings
        · change s.io.Awake w at awake
          rw [Reactor.Awake, all w member] at awake
          exact awake
        · by_cases here : other = thread
          · simp [goto, here] at calls
          · simp [goto, here, others other here] at calls
        · exact silent rings
      · intro kept queue
        by_contra lost
        refine kept ⟨zero, queue, ?_, ?_, fun rings => lost (.inr (.inr rings))⟩
        · exact fun w member => asleep_of_idle_zero sound zero fun awake => lost (.inl ⟨w, member, awake⟩)
        · intro other apart
          by_contra calls
          exact lost (.inr (.inl ⟨other, by simpa [goto, apart] using calls⟩))
  | @write thread => exact iff_of_true (fun _ => .inr (.inr ⟨rfl, Nat.succ_pos _⟩)) id
  | @epoll_wait w io member rings stepped =>
    refine iff_of_true (fun _ => .inl ⟨w, member, ?_⟩) id
    obtain ⟨pc, idled⟩ := Reactor.act_idled stepped.2
    cases idled with
    | epoll_wait at_ => exact Reactor.awake_of_polled pc (by simp only [Reactor.goto, Function.update_self]; rfl)
  | @read w bytes reported member dispatch =>
    refine iff_of_true (fun _ => .inl ⟨w, member, ?_⟩) id
    have running : (s.io.worker w).pc = .running .idle := by
      by_contra away
      rcases sound.serving.sane.posted.away w away with head | done
      · cases head.symm.trans dispatch
      · cases done.symm.trans dispatch
    exact Reactor.awake_of_polled running (by rw [dispatch]; rfl)

/-- A queue that is not empty is attended to in every state of a run, exactly when no thread loses its
wake-up in the run: then the last thread that has called `tickle()` finds no idle worker, although every
worker has already gone through the queue without its task and is about to wait. -/
theorem run_attended_iff {as : List (Act κ ω)} (positive : 0 < n) (init : s.Init) :
    Run (Guarded (Step ep self n) fun _ _ t => t.io.scheduler.m_fibers ≠ [] → t.Attended n) s as t ↔
    Run (Guarded (Step ep self n) fun s a _ => ¬ s.Loses n a) s as t := by
  refine Run.guarded_congr (fun s => s.Sound n ∧ (s.io.scheduler.m_fibers ≠ [] → s.Attended n))
    (fun _ _ _ held step => attended_step_iff held.1 held.2 step)
    (fun _ _ _ held step kept => ⟨held.1.step positive step, kept⟩) ⟨init.sound, fun queue => ?_⟩
  have empty : s.io.scheduler.m_fibers = [] := by
    rw [Reactor.scheduler, init.io.base]
  exact absurd empty queue

/-- An `IOManager` after its constructor. -/
def fresh : Tickler (Nat → Option Mask) Nat Unit := ⟨Reactor.fresh, fun _ => none, 0, false, fun _ => false⟩

theorem fresh_init : fresh.Init := ⟨Reactor.fresh_init, rfl, rfl, rfl, rfl⟩

/-- Another thread schedules a function. -/
def posts : Reactor.Act κ ω → Bool
  | .outside _ (.schedule (.cb _) _) => true
  | _ => false

/-- A check that is enough for `Allowed`, for steps that submit nothing but timers and functions. -/
def may (n : Nat) (s : Tickler K κ ω) : Act κ ω → Bool
  | .io thread b => (s.io.may n b || posts b) && match b.thread with
    | some w => thread == w && !s.reported w
    | none => decide (n ≤ thread)
  | .epoll_wait w | .read w => w < n
  | .hasIdleThreads _ | .write _ => true

theorem may_allowed (self : SchedId) (may : s.may n a) : s.Allowed n self a := by
  cases a with
  | io thread b =>
    obtain ⟨may, own⟩ := Bool.and_eq_true_iff.mp may
    have allowed : s.io.Allowed n self b := by
      rcases Bool.or_eq_true_iff.mp may with may | posted
      · exact Reactor.may_allowed self may
      · unfold posts at posted
        split at posted
        · intro f fiber
          cases fiber
        · cases posted
    refine ⟨allowed, fun w at_ => ?_, fun at_ => ?_, ?_⟩
    · simp only [at_, Bool.and_eq_true, beq_iff_eq] at own
      exact own.1
    · simp only [at_, decide_eq_true_eq] at own
      exact own
    · rintro w rfl
      simp only [Reactor.Act.thread, Bool.and_eq_true, Bool.not_eq_true'] at own
      exact own.2
  | epoll_wait w | read w =>
    have member : w < n := of_decide_eq_true may
    exact member
  | hasIdleThreads | write => trivial

/-- A step with the checks. -/
def perform (n : Nat) (check : Tickler (Nat → Option Mask) κ ω → Act κ ω → Bool)
    (s : Tickler (Nat → Option Mask) κ ω) (a : Act κ ω) : Option (Tickler (Nat → Option Mask) κ ω) :=
  if s.may n a && check s a then s.act interestList 0 a else none

theorem perform_eq_some {check : Tickler (Nat → Option Mask) κ ω → Act κ ω → Bool}
    {s t : Tickler (Nat → Option Mask) κ ω} (done : perform n check s a = some t) :
    s.Step interestList 0 n a t ∧ check s a := by
  rw [perform] at done
  split at done
  · rename_i checks
    rw [Bool.and_eq_true] at checks
    exact ⟨⟨may_allowed 0 checks.1, done⟩, checks.2⟩
  · cases done

/-- The worker 0 goes through the queue, and finds nothing. -/
def looks : List (Act Nat Unit) := [.io 0 (.run 0), .io 0 (.run 0)]

/-- It goes on to wait in `epoll_wait`. -/
def waits : List (Act Nat Unit) :=
  [.io 0 (.run 0), .io 0 (.run 0), .io 0 (.idle 0 (.getNextTimer 20)), .io 0 (.idle 0 .readPending),
   .io 0 (.idle 0 .stopping)]

/-- Another thread schedules a function and calls `tickle()`. -/
def schedules : List (Act Nat Unit) :=
  [.io 1 (.outside ⟨none, 0, .EXEC⟩ (.schedule (.cb (some (.plain 7))) (-1))), .hasIdleThreads 1]

/-- A worker idles when `tickle()` looks, or a worker has yet to go through the queue. -/
def keeps (s : Tickler K κ ω) : Act κ ω → Bool
  | .hasIdleThreads _ => s.io.hasIdleThreads
  | _ => true

theorem keeps_sound (keeps : s.keeps a) : ¬ s.Loses n a := by
  intro loses
  cases a with
  | hasIdleThreads thread =>
    rw [Tickler.keeps, Reactor.hasIdleThreads, loses.1] at keeps
    cases keeps
  | _ => exact loses

theorem run_attended_iff_waits : ∃ t : Tickler (Nat → Option Mask) Nat Unit,
    Run (Guarded (Step interestList 0 1) fun _ _ t => t.io.scheduler.m_fibers ≠ [] → t.Attended 1) fresh
      (looks ++ waits ++ schedules ++ [.write 1]) t ∧
    t.io.scheduler.m_fibers = [{ cb := some (.plain 7) }] ∧ t.Rings := by
  have run : ∃ t : Tickler (Nat → Option Mask) Nat Unit,
      acts (perform 1 keeps) fresh (looks ++ waits ++ schedules ++ [.write 1]) = some t ∧
      t.io.scheduler.m_fibers = [{ cb := some (.plain 7) }] ∧ t.ready = true ∧ t.bytes = 1 := ⟨_, rfl, rfl, rfl, rfl⟩
  obtain ⟨t, done, queue, ready, bytes⟩ := run
  have steps : Run (Guarded (Step interestList 0 1) fun s a _ => ¬ s.Loses 1 a) fresh
      (looks ++ waits ++ schedules ++ [.write 1]) t := by
    refine (run_of_acts _ done).mono fun s a t performed => ?_
    obtain ⟨step, checks⟩ := perform_eq_some performed
    exact ⟨step, keeps_sound checks⟩
  exact ⟨t, (run_attended_iff Nat.one_pos fresh_init).mpr steps, queue, ready, by omega⟩

/-- The function is scheduled between the look of the worker at the queue and `++m_idleThreadCount`: the
worker waits in `epoll_wait` while the function stands in the queue, and nothing is under way to wake it. -/
theorem not_attended : ∃ t : Tickler (Nat → Option Mask) Nat Unit,
    Run (Step interestList 0 1) fresh (looks ++ schedules ++ waits) t ∧
    t.io.scheduler.m_fibers = [{ cb := some (.plain 7) }] ∧ t.io.idle 0 = .wait ∧ ¬ t.Attended 1 := by
  have run : ∃ t : Tickler (Nat → Option Mask) Nat Unit,
      acts (perform 1 fun _ _ => true) fresh (looks ++ schedules ++ waits) = some t ∧
      t.io.scheduler.m_fibers = [{ cb := some (.plain 7) }] ∧ (t.io.worker 0).pc = .running .idle ∧
      t.io.idle 0 = .wait ∧ t.ready = false ∧
      t.tickling = Function.update (Function.update (fun _ => none) 1 (some .called)) 1 none :=
    ⟨_, rfl, rfl, rfl, rfl, rfl, rfl⟩
  obtain ⟨t, done, queue, pc, idle, silent, tickling⟩ := run
  refine ⟨t, (run_of_acts _ done).mono fun s a t performed => (perform_eq_some performed).1, queue, idle, ?_⟩
  rintro (⟨w, member, awake⟩ | ⟨thread, calls⟩ | rings)
  · obtain rfl : w = 0 := Nat.lt_one_iff.mp member
    rw [Reactor.Awake, pc, idle] at awake
    cases awake
  · refine calls ?_
    rw [tickling, Function.update_idem]
    by_cases here : thread = 1
    · rw [here, Function.update_self]
    · rw [Function.update_of_ne here]
  · rw [Rings, silent] at rings
    cases rings.1

end Tickler
end Sylar
