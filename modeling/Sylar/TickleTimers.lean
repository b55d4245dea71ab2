import Sylar.IdleTimeout
import Sylar.TickleQueue
import Sylar.TimerEarly
import Sylar.TimerFront

/-! No worker sleeps past a deadline: where a timer goes in front of those that a worker has read before
`epoll_wait`, the pipe will bring a worker out of it. -/

namespace Sylar
open Machine CInt

variable {K κ ω : Type}

/-- What `getNextTimer` has told the idle fiber of a worker: the clock, and `next_timeout`. -/
structure Poll where
  now_ms : UInt64 := 0
  next_timeout : UInt64 := 0

/-- The answer is that for a deadline, as `getNextTimer` computes it. -/
structure Poll.Meets (x : Poll) (reported : Option UInt64) : Prop where
  answer : x.next_timeout = match reported with
    | none => ~~~0
    | some next => if x.now_ms ≥ next then 0 else next - x.now_ms
  fits : FitsInt x.next_timeout

/-- The calls of `epoll_wait` for the answer return at once, or no later than the deadline. -/
theorem Poll.Meets.timeout {x : Poll} {deadline : UInt64} (meets : x.Meets (some deadline)) :
    (int (nextTimeout x.next_timeout)).toInt = 0 ∨
      x.now_ms.toNat + (int (nextTimeout x.next_timeout)).toInt ≤ deadline.toNat := by
  obtain ⟨nonneg, bound⟩ := meets.fits.int_nextTimeout
  have answer := meets.answer
  dsimp only at answer
  split at answer
  · rw [answer]
    exact .inl (by decide)
  · rename_i ahead
    right
    have past : x.now_ms ≤ deadline := UInt64.le_of_lt (UInt64.not_le.mp ahead)
    have left : x.next_timeout.toNat = deadline.toNat - x.now_ms.toNat := by
      rw [answer, UInt64.toNat_sub_of_le _ _ past]
    rw [UInt64.le_iff_toNat_le] at past
    omega

/-- The idle fiber will call `getNextTimer` before it next waits in `epoll_wait`. -/
def IdlePc.rereads : IdlePc κ ω → Bool
  | .head | .expire | .cbs _ | .dispatch => true
  | _ => false

/-- The idle fiber has called `getNextTimer` and goes on to `epoll_wait`, or is in it. -/
def IdlePc.waits : IdlePc κ ω → Bool
  | .pending | .stopping | .wait => true
  | _ => false

namespace TimerManager

variable {m m' : TimerManager κ ω} {reported : Option UInt64} {op : TimerOp κ ω} {out : TimerOut κ ω}

/-- The deadline of the first timer. -/
def first (m : TimerManager κ ω) : Option UInt64 := m.m_timers.head?.map m.heap.next

theorem Wf.not_dueBefore_first (wf : m.Wf) : ¬ m.DueBefore m.first := by
  rintro ⟨p, member, before⟩
  cases head : m.m_timers.head? with
  | none =>
    rw [List.head?_eq_none_iff.mp head] at member
    cases member
  | some x =>
    have below := before (m.heap.next x) (by rw [first, head]; rfl)
    exact UInt64.not_lt.mpr (wf.head_next_le member head) below

/-- A timer that comes to be due before the report of `getNextTimer` has put `m_tickled` up, and
`onTimerInsertedAtfront` has been called if it was down before. -/
theorem Front.of_step (wf : m.Wf) (step : m.Step (op, out) m')
    (other : ∀ now_ms now_timer, op ≠ .listExpiredCb now_ms now_timer)
    (covered : ¬ m.DueBefore reported) :
    (m'.DueBefore reported → m.m_tickled = true ∨ out.atFront = true) ∧
      (m'.m_tickled = true → m.m_tickled = true ∨ out.atFront = true) := by
  by_cases poll : ∃ now_ms, op = .getNextTimer now_ms
  · obtain ⟨now_ms, rfl⟩ := poll
    have executed := step.2
    simp only [exec, wf.getNextTimer_eq now_ms, ok_bind] at executed
    cases executed
    refine ⟨fun before => absurd before covered, fun up => ?_⟩
    cases up
  · have front : m.Front { reported := reported, notified := m.m_tickled } := ⟨fun before => absurd before covered, id⟩
    have range : m.NoWrap (op, out) := by
      cases op with
      | listExpiredCb now_ms now_timer => exact absurd rfl (other now_ms now_timer)
      | _ => trivial
    have after := front.step wf step range
    have watch : m.watch { reported := reported, notified := m.m_tickled } (op, out) =
        { reported := reported, notified := m.m_tickled || out.atFront } := by
      cases op with
      | getNextTimer now_ms => exact absurd ⟨now_ms, rfl⟩ poll
      | _ => rfl
    rw [watch] at after
    have told : m'.m_tickled = true → m.m_tickled = true ∨ out.atFront = true := fun up =>
      Bool.or_eq_true_iff.mp (after.notified up)
    exact ⟨fun before => told (after.tickled before), told⟩

end TimerManager

namespace Tickler

variable {ep : Epoll K} {self : SchedId} {n : Nat} {s t : Tickler K κ ω} {a : Act κ ω}

/-- Some worker will read the timers before it waits, some thread is in `tickle()`, or the pipe will bring a
worker out of `epoll_wait`. -/
def Alert (n : Nat) (s : Tickler K κ ω) : Prop := (∃ w < n, (s.io.idle w).rereads) ∨ s.Calls ∨ s.Rings

/-- The answers of `getNextTimer` that the workers hold. -/
def polls (s : Tickler K κ ω) (P : Nat → Poll) : Act κ ω → Nat → Poll
  | .io _ (.idle w (.getNextTimer now_ms)) =>
    match s.io.timers.getNextTimer now_ms with
    | .ok (next_timeout, _) => Function.update P w ⟨now_ms, next_timeout⟩
    | .error _ => P
  | _ => P

/-- Only an idle fiber calls `listExpiredCb`. -/
def Usual : Act κ ω → Prop
  | .io _ (.submit _ (.timer (.listExpiredCb _ _))) | .io _ (.outside _ (.timer (.listExpiredCb _ _))) => False
  | _ => True

/-- The time that `getNextTimer` finds left is no negative number as an `int`. -/
def Near (s : Tickler K κ ω) : Act κ ω → Prop
  | .io _ (.idle _ (.getNextTimer now_ms)) => FitsInt (s.io.timers.left now_ms)
  | _ => True

/-- The steps with the answers of `getNextTimer` along them. -/
def PollStep (ep : Epoll K) (self : SchedId) (n : Nat) (s : Tickler K κ ω × (Nat → Poll)) (a : Act κ ω)
    (t : Tickler K κ ω × (Nat → Poll)) : Prop :=
  s.1.Step ep self n a t.1 ∧ Usual a ∧ s.1.Near a ∧ t.2 = s.1.polls s.2 a

/-- The worker waits for a deadline that no timer is due before. -/
def Covers (s : Tickler K κ ω) (P : Nat → Poll) (w : Nat) : Prop :=
  (s.io.idle w).waits ∧ ∃ reported, (P w).Meets reported ∧ ¬ s.io.timers.DueBefore reported

structure Timely (n : Nat) (s : Tickler K κ ω) (P : Nat → Poll) : Prop where
  sound : s.Sound n
  tickled : s.io.timers.m_tickled = true → s.Alert n
  covered : s.Alert n ∨ ∃ w < n, s.Covers P w

/-- Where no worker idles, each has yet to read the timers. -/
theorem rereads_of_idle (sound : s.Sound n) (none : s.io.hasIdleThreads = false) (w : Nat) : (s.io.idle w).rereads := by
  have zero : s.io.scheduler.m_idleThreadCount = 0 := by
    have nonneg := sound.counted.idle.nonneg
    rw [Reactor.hasIdleThreads, decide_eq_false_iff_not] at none
    change 0 ≤ s.io.scheduler.m_idleThreadCount at nonneg
    omega
  have away : (s.io.worker w).pc ≠ .running .idle := by
    intro pc
    have notIdling : ¬ (s.io.worker w).Idling := sound.counted.idle.eq_zero_iff.mp zero w
    rw [Worker.Idling, pc] at notIdling
    exact notIdling rfl
  rcases sound.serving.sane.posted.away w away with head | done
  · rw [head]
    rfl
  · have undecided := sound.serving.undecided w
    rw [done] at undecided
    cases undecided

/-- A step that neither moves an idle fiber nor goes on to `tickle()`. -/
theorem Timely.submit {P : Nat → Poll} {io : Reactor K κ ω} (timely : s.Timely n P)
    (sound : ({ s with io := io } : Tickler K κ ω).Sound n)
    (idle : io.idle = s.io.idle)
    (told : ∀ reported, ¬ s.io.timers.DueBefore reported →
      (io.timers.DueBefore reported → s.io.timers.m_tickled = true) ∧
        (io.timers.m_tickled = true → s.io.timers.m_tickled = true)) :
    ({ s with io := io } : Tickler K κ ω).Timely n P := by
  have alert : s.Alert n → ({ s with io := io } : Tickler K κ ω).Alert n := by
    rintro (⟨w, member, rereads⟩ | calls | rings)
    · exact .inl ⟨w, member, idle ▸ rereads⟩
    · exact .inr (.inl calls)
    · exact .inr (.inr rings)
  have wf := timely.sound.serving.sane.wf
  refine ⟨sound, fun up => alert (timely.tickled ((told _ wf.not_dueBefore_first).2 up)), ?_⟩
  rcases timely.covered with now | ⟨w, member, waits, reported, meets, covered⟩
  · exact .inl (alert now)
  · by_cases before : io.timers.DueBefore reported
    · exact .inl (alert (timely.tickled ((told reported covered).1 before)))
    · exact .inr ⟨w, member, idle ▸ waits, reported, meets, before⟩

/-- A step after which some worker reads the timers again, some thread is in `tickle()`, or the pipe rings. -/
theorem Timely.of_alert {P : Nat → Poll} (sound : s.Sound n) (alert : s.Alert n) : s.Timely n P :=
  ⟨sound, fun _ => alert, .inl alert⟩

/-- What a thread asks of the manager. -/
theorem submit_told {u : Reactor K κ ω} {caller : Caller} {x : Submit κ ω} {w : Nat} {v : Reactor K κ ω}
    (wf : u.timers.Wf) (allowed : Reactor.Submit.Allowed u caller x)
    (usual : ∀ now_ms now_timer, x ≠ .timer (.listExpiredCb now_ms now_timer))
    (done : u.submit ep self w caller x = some v) (quiet : u.submitTickles v x = false) (reported : Option UInt64)
    (covered : ¬ u.timers.DueBefore reported) :
    (v.timers.DueBefore reported → u.timers.m_tickled = true) ∧
      (v.timers.m_tickled = true → u.timers.m_tickled = true) := by
  have same : v.timers = u.timers → (v.timers.DueBefore reported → u.timers.m_tickled = true) ∧
      (v.timers.m_tickled = true → u.timers.m_tickled = true) :=
    fun same => ⟨fun before => absurd (same ▸ before) covered, fun up => same ▸ up⟩
  cases x with
  | timer op =>
    obtain ⟨⟨out, v⟩, executed, rfl⟩ := Option.map_eq_some_iff.mp done
    obtain ⟨timers, ran, rfl⟩ := Reactor.timer_eq_some executed
    have silent : out.atFront = false := by simpa only [Reactor.submitTickles, ran] using quiet
    have step : u.timers.Step (op, out) timers := ⟨allowed, ran⟩
    obtain ⟨before, up⟩ := TimerManager.Front.of_step wf step
      (fun now_ms now_timer same => usual now_ms now_timer (same ▸ rfl)) covered
    rw [silent] at before up
    exact ⟨fun due => (before due).resolve_right Bool.false_ne_true,
      fun now => (up now).resolve_right Bool.false_ne_true⟩
  | addEvent | delEvent | cancelEvent | cancelAll =>
    refine same ?_
    simp only [Reactor.submit, Reactor.event] at done
    split at done
    · cases done
      rfl
    · cases done
  | schedule | scheduleRange | newFiber => exact same (Reactor.call_eq_some done).2.1

/-- The idle fiber of a worker goes through one statement, and `tickle()` is not called. -/
theorem Timely.idled {P : Nat → Poll} {io : Reactor K κ ω} {w thread : Nat} {b : IdleAct} (timely : s.Timely n P)
    (sound : ({ s with io := io } : Tickler K κ ω).Sound n) (member : w < n)
    (near : s.Near (.io thread (.idle w b))) (idled : s.io.Idled ep self w b io) :
    ({ s with io := io } : Tickler K κ ω).Timely n (s.polls P (.io thread (.idle w b))) := by
  have alert : (io.idle w).rereads →
      ({ s with io := io } : Tickler K κ ω).Timely n (s.polls P (.io thread (.idle w b))) :=
    fun rereads => .of_alert sound (.inl ⟨w, member, rereads⟩)
  have moved : ∀ (u : Reactor K κ ω) (q : IdlePc κ ω), io = u.goto w q → q.rereads → (io.idle w).rereads := by
    rintro u q rfl rereads
    simpa only [Reactor.goto, Function.update_self] using rereads
  have decided : ∀ p, s.io.idle w = p → p.decided = false := fun p at_ => at_ ▸ timely.sound.serving.undecided w
  -- from one position after `getNextTimer` to the next one before `epoll_wait`
  have onward : ∀ (p q : IdlePc κ ω), s.io.idle w = p → io = s.io.goto w q → p.rereads = false → q.waits →
      P = s.polls P (.io thread (.idle w b)) →
      ({ s with io := io } : Tickler K κ ω).Timely n (s.polls P (.io thread (.idle w b))) := by
    rintro p q at_ rfl unread waits same
    rw [← same]
    have others : ∀ v, v ≠ w → (s.io.goto w q).idle v = s.io.idle v := fun v apart => Function.update_of_ne apart _ _
    have carry : s.Alert n → ({ s with io := s.io.goto w q } : Tickler K κ ω).Alert n := by
      rintro (⟨v, inside, rereads⟩ | calls | rings)
      · refine .inl ⟨v, inside, ?_⟩
        have apart : v ≠ w := by
          rintro rfl
          rw [at_, unread] at rereads
          cases rereads
        exact (others v apart).symm ▸ rereads
      · exact .inr (.inl calls)
      · exact .inr (.inr rings)
    refine ⟨sound, fun up => carry (timely.tickled up), ?_⟩
    rcases timely.covered with now | ⟨v, inside, waiting, covers⟩
    · exact .inl (carry now)
    · refine .inr ⟨v, inside, ?_, covers⟩
      by_cases here : v = w
      · simpa only [here, Reactor.goto, Function.update_self] using waits
      · exact (others v here).symm ▸ waiting
  cases idled with
  | @getNextTimer now_ms out u at_ executed =>
    have wf := timely.sound.serving.sane.wf
    obtain ⟨timers, ran, rfl⟩ := Reactor.timer_eq_some executed
    simp only [TimerManager.exec, wf.getNextTimer_eq now_ms, ok_bind] at ran
    cases ran
    refine ⟨sound, fun up => absurd up Bool.false_ne_true,
      .inr ⟨w, member, ?_, s.io.timers.first, ?_, wf.not_dueBefore_first⟩⟩
    · have lands : ∀ (c : Prop) [Decidable c], (if c then .pending else .wait : IdlePc κ ω).waits := by
        intro c _
        split <;> rfl
      simp only [Reactor.goto, Function.update_self]
      exact lands _
    · have told : s.polls P (.io thread (.idle w (.getNextTimer now_ms))) w = ⟨now_ms, s.io.timers.left now_ms⟩ := by
        simp only [polls, wf.getNextTimer_eq now_ms, Function.update_self]
        rfl
      rw [told]
      refine ⟨?_, near⟩
      simp only [TimerManager.left, TimerManager.first]
      cases s.io.timers.m_timers.head? <;> rfl
  | readPending at_ => exact onward _ _ at_ rfl rfl (by split <;> rfl) rfl
  | stopping at_ =>
    refine onward _ _ at_ rfl rfl ?_ rfl
    have no : s.io.base.stopping = false := by simp [Stoppable.stopping, timely.sound.serving.running]
    rw [no]
    rfl
  | exit at_ | finish at_ => cases decided _ at_
  | epoll_wait at_ => exact alert (moved _ _ rfl rfl)
  | listExpiredCb at_ => exact alert (moved _ _ rfl (by split <;> rfl))
  | schedule at_ => exact alert (moved _ _ rfl rfl)
  | swapOut at_ => exact alert (moved _ _ rfl rfl)
  | report at_ fired => exact alert (by rw [(Reactor.event_eq_some fired).1, at_]; rfl)

theorem Timely.step {P Q : Nat → Poll} (positive : 0 < n) (timely : s.Timely n P)
    (step : PollStep ep self n (s, P) a (t, Q)) : t.Timely n Q := by
  obtain ⟨step, usual, near, polled⟩ := step
  change s.Step ep self n a t at step
  change s.Near a at near
  change Q = s.polls P a at polled
  have sound := timely.sound.step positive step
  subst polled
  cases step.stepped with
  | @io thread b io stepped free own =>
    by_cases tickles : s.io.tickles b io
    · refine .of_alert sound (.inr (.inl ⟨thread, ?_⟩))
      simp [tickles]
    rw [Bool.not_eq_true] at tickles
    simp only [tickles, Bool.false_eq_true, if_false] at sound ⊢
    have wf := timely.sound.serving.sane.wf
    have still : io.idle = s.io.idle → io.timers = s.io.timers →
        ({ s with io := io } : Tickler K κ ω).Timely n P := by
      intro idle timers
      refine timely.submit sound idle fun reported covered => ?_
      rw [timers]
      exact ⟨fun before => absurd before covered, id⟩
    obtain ⟨allowed, done⟩ := stepped
    cases b with
    | run w | switch w | leave w c =>
      have frame := Reactor.call_eq_some done
      exact still frame.2.2.2.1 frame.2.1
    | autoStop =>
      cases done
      exact still rfl rfl
    | submit w x =>
      obtain ⟨job, f, -, -, may, submitted⟩ := Reactor.submit_eq_some allowed done
      refine timely.submit sound (Reactor.submit_frame submitted).1 fun reported covered => ?_
      exact submit_told wf may (by rintro now_ms now_timer rfl; exact usual) submitted tickles reported covered
    | outside caller x =>
      refine timely.submit sound (Reactor.submit_frame done).1 fun reported covered => ?_
      exact submit_told wf allowed (by rintro now_ms now_timer rfl; exact usual) done tickles reported covered
    | idle w c =>
      have member : w < n := by
        cases c with
        | listExpiredCb => exact allowed.1
        | _ => exact allowed
      exact timely.idled sound member near (Reactor.act_idled done).2
  | @hasIdleThreads thread called =>
    cases none : s.io.hasIdleThreads with
    | false =>
      rw [none] at sound
      exact .of_alert sound (.inl ⟨0, positive, rereads_of_idle timely.sound none 0⟩)
    | true =>
      rw [none] at sound
      exact .of_alert sound (.inr (.inl ⟨thread, by simp [goto]⟩))
  | write => exact .of_alert sound (.inr (.inr ⟨rfl, Nat.succ_pos _⟩))
  | @epoll_wait w io member rings stepped =>
    refine .of_alert sound (.inl ⟨w, member, ?_⟩)
    cases (Reactor.act_idled stepped.2).2 with
    | epoll_wait at_ =>
      simp only [Reactor.goto, Function.update_self]
      rfl
  | @read w bytes reported member dispatch => exact .of_alert sound (.inl ⟨w, member, by rw [dispatch]; rfl⟩)

theorem Init.timely {P : Nat → Poll} (positive : 0 < n) (init : s.Init) : s.Timely n P := by
  refine .of_alert init.sound (.inl ⟨0, positive, ?_⟩)
  rw [init.io.idle]
  rfl

/-- A check that is enough for `Usual`. -/
def isUsual : Act κ ω → Bool
  | .io _ (.submit _ _) => false
  | .io _ (.outside _ (.timer (.addTimer _ _ _ _ _))) => true
  | .io _ (.outside _ _) => false
  | _ => true

theorem usual_of_isUsual (usual : isUsual a) : Usual a := by
  cases a with
  | io thread b =>
    cases b with
    | submit => cases usual
    | outside caller x =>
      cases x with
      | timer op =>
        cases op with
        | listExpiredCb => cases usual
        | _ => trivial
      | _ => trivial
    | _ => trivial
  | _ => trivial

/-- A check that is enough for `Near`. -/
def isNear (s : Tickler K κ ω) : Act κ ω → Bool
  | .io _ (.idle _ (.getNextTimer now_ms)) =>
    s.io.timers.left now_ms = ~~~0 || (s.io.timers.left now_ms).toNat % 2 ^ 32 < 2 ^ 31
  | _ => true

theorem near_of_isNear (near : s.isNear a) : s.Near a := by
  unfold isNear at near
  split at near
  · rw [Bool.or_eq_true, decide_eq_true_eq, decide_eq_true_eq] at near
    exact near
  · rename_i other
    unfold Near
    split
    · exact absurd rfl (other _ _ _)
    · trivial

def performPolls (n : Nat) (s : Tickler (Nat → Option Mask) κ ω × (Nat → Poll)) (a : Act κ ω) :
    Option (Tickler (Nat → Option Mask) κ ω × (Nat → Poll)) :=
  (perform n (fun s a => isUsual a && s.isNear a) s.1 a).map fun t => (t, s.1.polls s.2 a)

/-- While the worker 0 waits without a timer, another thread sets one. -/
def setsTimer : List (Act Nat Unit) :=
  [.io 1 (.outside ⟨none, 0, .EXEC⟩ (.timer (.addTimer 1 5 (some (.plain 7)) false 30))), .hasIdleThreads 1, .write 1]

end Tickler
end Sylar
