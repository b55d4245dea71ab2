import Sylar.ReactorSane

namespace Sylar
open Machine

variable {K κ ω : Type}

/-- The idle fiber will call `getNextTimer` before `stopping(next_timeout)` can return true. -/
def IdlePc.readsTimers : IdlePc κ ω → Bool
  | .head | .wait | .expire | .cbs _ | .dispatch => true
  | _ => false

/-- The idle fiber will read `m_pendingEventCount` before `stopping(next_timeout)` can return true. -/
def IdlePc.readsPending : IdlePc κ ω → Bool
  | .pending => true
  | p => p.readsTimers

namespace Reactor

variable {ep : Epoll K} {self : SchedId} {n : Nat} {s t : Reactor K κ ω} {w : Nat} {a : Act κ ω}

/-- What is left to do, some worker has yet to see: a timer, an event, an entry of the queue. -/
structure Watched (n : Nat) (s : Reactor K κ ω) : Prop where
  timers : s.timers.m_timers = [] ∨ ∃ w < n, (s.idle w).readsTimers
  pending : s.events.m_pendingEventCount = 0 ∨ ∃ w < n, (s.idle w).readsPending
  queue : s.scheduler.m_fibers = [] ∨ ∃ w < n, (s.idle w).decided = false

/-- A worker whose idle fiber has terminated takes no entry off the queue, and the clock is past its
epoch. -/
def Prompt (s : Reactor K κ ω) (a : Act κ ω) (_ : Reactor K κ ω) : Prop :=
  match a with
  | .run w => s.scheduler.Takes w (s.worker w) .run → s.idle w ≠ .done
  | .idle _ (.getNextTimer now_ms) => now_ms ≠ 0
  | _ => True

theorem readsPending_of_readsTimers {p : IdlePc κ ω} (reads : p.readsTimers) : p.readsPending := by
  cases p <;> first | rfl | cases reads

theorem undecided_of_readsPending {p : IdlePc κ ω} (reads : p.readsPending) : p.decided = false := by
  cases p <;> first | rfl | cases reads

/-- A worker that has yet to read the timers sees everything. -/
theorem watched_of_reads (member : w < n) (reads : (s.idle w).readsTimers) : s.Watched n :=
  ⟨.inr ⟨w, member, reads⟩, .inr ⟨w, member, readsPending_of_readsTimers reads⟩,
    .inr ⟨w, member, undecided_of_readsPending (readsPending_of_readsTimers reads)⟩⟩

/-- An idle fiber that passes one of its reads has found nothing there. -/
theorem Watched.goto (watched : s.Watched n) {p : IdlePc κ ω}
    (timers : (s.idle w).readsTimers → p.readsTimers ∨ s.timers.m_timers = [])
    (pending : (s.idle w).readsPending → p.readsPending ∨ s.events.m_pendingEventCount = 0)
    (queue : (s.idle w).decided = false → p.decided = false ∨ s.scheduler.m_fibers = []) :
    (s.goto w p).Watched n := by
  have keep : ∀ (Q : IdlePc κ ω → Prop) (Z : Prop), (Q (s.idle w) → Q p ∨ Z) → (Z ∨ ∃ v < n, Q (s.idle v)) →
      Z ∨ ∃ v < n, Q ((s.goto w p).idle v) := by
    intro Q Z passes seen
    rcases seen with none | ⟨v, member, reads⟩
    · exact .inl none
    · by_cases same : v = w
      · subst same
        rcases passes reads with still | none
        · exact .inr ⟨v, member, by simpa only [Reactor.goto, Function.update_self] using still⟩
        · exact .inl none
      · exact .inr ⟨v, member, by simpa only [Reactor.goto, Function.update_of_ne same] using reads⟩
  exact ⟨keep (fun q => q.readsTimers) _ timers watched.timers,
    keep (fun q => q.readsPending) _ pending watched.pending,
    keep (fun q => q.decided = false) _ queue watched.queue⟩

theorem call_eq_some {c : Scheduler.Call (Callback κ ω)} (done : s.call w c = some t) :
    s.base.workers.call w c = some t.base.workers ∧ t.timers = s.timers ∧ t.events = s.events ∧ t.idle = s.idle ∧
      t.base.m_stopping = s.base.m_stopping := by
  obtain ⟨workers, called, rfl⟩ := Option.map_eq_some_iff.mp done
  exact ⟨called, rfl, rfl, rfl, rfl⟩

theorem event_eq_some {op : EventOp (Callback κ ω)} (done : s.event ep self op = some t) :
    t.idle = s.idle ∧ t.base.m_stopping = s.base.m_stopping := by
  rw [Reactor.event] at done
  split at done
  · cases done
    exact ⟨rfl, rfl⟩
  · cases done

theorem submit_frame {caller : Caller} {x : Submit κ ω} (done : s.submit ep self w caller x = some t) :
    t.idle = s.idle ∧ t.base.m_stopping = s.base.m_stopping := by
  cases x with
  | timer op =>
    obtain ⟨⟨out, u⟩, executed, same⟩ := Option.map_eq_some_iff.mp done
    cases same
    obtain ⟨timers, -, rfl⟩ := timer_eq_some executed
    exact ⟨rfl, rfl⟩
  | addEvent | delEvent | cancelEvent | cancelAll => exact event_eq_some done
  | schedule | scheduleRange | newFiber => exact (call_eq_some done).2.2.2

theorem call_acted {b : Scheduler.Act (Callback κ ω)} (done : s.call w (.act b) = some t) :
    ∃ after me, s.scheduler.Acted w (s.worker w) b after me ∧ t.scheduler = after ∧ t.worker w = me :=
  ⟨_, _, Scheduler.act_acted (Workers.act_eq_some (call_eq_some done).1).1, rfl, rfl⟩

/-- The queue only loses the entry that a selection takes, and it only grows by a task that a worker
has in its hands. -/
theorem run_m_fibers (posted : Posted s.base.workers s.idle) (done : s.call w (.act .run) = some t)
    (free : (s.worker w).pc.tasked = false) (leaves : ¬ s.scheduler.Takes w (s.worker w) .run) :
    t.scheduler.m_fibers = s.scheduler.m_fibers := by
  obtain ⟨after, me, acted, scheduler, -⟩ := call_acted done
  rw [scheduler]
  cases acted with
  | run ran =>
    cases ran with
    | entry pc found => exact absurd ⟨rfl, pc, _, _, found⟩ leaves
    | @reschedule job pc =>
      have notIdle : job ≠ .idle := fun idle => posted.apart.notIdle w (idle ▸ pc)
      rw [pc, RunPc.tasked] at free
      simp [notIdle] at free
    | _ => rfl
  | leave writes => cases writes

/-- The switches and the writes of a state leave the queue alone. -/
theorem leave_m_fibers {b : Scheduler.Act (Callback κ ω)} (quiet : b.writes.isSome ∨ b = .switch)
    (done : s.call w (.act b) = some t) : t.scheduler.m_fibers = s.scheduler.m_fibers := by
  obtain ⟨after, me, acted, scheduler, -⟩ := call_acted done
  rw [scheduler]
  cases acted with
  | run | schedule => rcases quiet with quiet | quiet <;> cases quiet
  | _ => rfl

theorem Watched.same (watched : s.Watched n) (timers : t.timers.m_timers = s.timers.m_timers)
    (events : t.events = s.events) (idle : t.idle = s.idle) (queue : t.scheduler.m_fibers = s.scheduler.m_fibers) :
    t.Watched n := by
  refine ⟨?_, ?_, ?_⟩
  · rw [timers, idle]
    exact watched.timers
  · rw [events, idle]
    exact watched.pending
  · rw [queue, idle]
    exact watched.queue

theorem leave_pc {b : Scheduler.Act (Callback κ ω)} (writes : b.writes.isSome)
    (done : s.call w (.act b) = some t) : ∃ job, (s.worker w).pc = .running job := by
  obtain ⟨after, me, acted, -, -⟩ := call_acted done
  cases acted with
  | leave _ pc => exact ⟨_, pc⟩
  | _ => cases writes

theorem tasked_running {job : Job} (pc : (s.worker w).pc = .running job) (notIdle : job ≠ .idle) :
    (s.worker w).pc.tasked := by
  rw [pc, RunPc.tasked]
  exact decide_eq_true notIdle

/-- `getNextTimer` answers `~0ull` only when there is no timer, unless the clock stands at its epoch. -/
theorem getNextTimer_empty {now_ms : UInt64} {out : TimerOut κ ω} (wf : s.timers.Wf) (past : now_ms ≠ 0)
    (done : s.timer (.getNextTimer now_ms) = some (out, t)) :
    t.timers.m_timers = s.timers.m_timers ∧ (out.timeout = ~~~0 → s.timers.m_timers = []) := by
  obtain ⟨timers, executed, rfl⟩ := timer_eq_some done
  simp only [TimerManager.exec, wf.getNextTimer_eq now_ms, ok_bind] at executed
  cases executed
  refine ⟨rfl, fun never => ?_⟩
  cases shape : s.timers.m_timers with
  | nil => rfl
  | cons first rest =>
    simp only [shape, List.head?_cons] at never
    split at never
    · exact absurd never (by decide)
    · rename_i later
      have range := (s.timers.heap.next first).toNat_lt
      have positive : 0 < now_ms.toNat := by
        refine Nat.pos_of_ne_zero fun zero => past ?_
        exact UInt64.toNat_inj.mp zero
      have before : now_ms ≤ s.timers.heap.next first := by
        rw [UInt64.le_iff_toNat_le]
        rw [ge_iff_le, UInt64.le_iff_toNat_le] at later
        omega
      have gap := congrArg UInt64.toNat never
      rw [UInt64.toNat_sub_of_le _ _ before] at gap
      have whole : (~~~0 : UInt64).toNat = 2 ^ 64 - 1 := rfl
      omega

theorem watched_goto (member : w < n) {p : IdlePc κ ω} (reads : p.readsTimers) : (s.goto w p).Watched n :=
  watched_of_reads member (by simpa only [Reactor.goto, Function.update_self] using reads)

theorem Watched.idled {b : IdleAct} (watched : s.Watched n) (wf : s.timers.Wf) (member : w < n)
    (past : ∀ now_ms, b = .getNextTimer now_ms → now_ms ≠ 0) (idled : s.Idled ep self w b t) : t.Watched n := by
  cases idled with
  | getNextTimer at_ executed =>
    obtain ⟨same, empty⟩ := getNextTimer_empty wf (past _ rfl) executed
    split
    · rename_i never
      refine ⟨.inl (same.trans (empty never)), .inr ⟨w, member, ?_⟩, .inr ⟨w, member, ?_⟩⟩ <;>
        simp only [Reactor.goto, Function.update_self] <;> rfl
    · exact watched_goto member rfl
  | readPending at_ =>
    split
    · rename_i zero
      refine watched.goto ?_ (fun _ => .inr zero) (fun _ => .inl rfl)
      rw [at_]
      nofun
    · exact watched_goto member rfl
  | stopping at_ =>
    split
    · rename_i stopping
      refine watched.goto ?_ ?_ (fun _ => .inr ((Stoppable.stopping_iff _).mp stopping).2.2.1)
      · rw [at_]
        nofun
      · rw [at_]
        nofun
    · exact watched_goto member rfl
  | exit at_ executed =>
    obtain ⟨same, -⟩ := getNextTimer_empty wf (past _ rfl) executed
    obtain ⟨timers, -, rfl⟩ := timer_eq_some executed
    have after : (s.setTimers timers).Watched n := watched.same same rfl rfl rfl
    refine after.goto ?_ ?_ ?_ <;>
    · simp only [setTimers, at_]
      nofun
  | finish at_ called =>
    obtain ⟨-, timers, events, idle, -⟩ := call_eq_some called
    have after := watched.same (timers ▸ rfl) events idle (leave_m_fibers (.inl rfl) called)
    refine after.goto ?_ ?_ ?_ <;>
    · rw [idle, at_]
      nofun
  | epoll_wait | schedule | swapOut => exact watched_goto member rfl
  | listExpiredCb =>
    split
    · exact watched_goto member rfl
    · exact watched_goto member rfl
  | report at_ fired => exact watched_of_reads member (by rw [(event_eq_some fired).1, at_]; rfl)

/-- While the workers are among themselves, whatever is left to do has a worker that has yet to see
it: whoever adds to it is one. -/
theorem Watched.step (watched : s.Watched n) (sane : s.Sane) (step : s.WorkerStep ep self n a t)
    (prompt : s.Prompt a t) : t.Watched n := by
  obtain ⟨⟨allowed, done⟩, notAuto, inside⟩ := step
  cases a with
  | run w =>
    obtain ⟨-, timers, events, idle, -⟩ := call_eq_some done
    rcases sane.posted.away w (run_away done) with head | ended
    · exact watched_of_reads allowed (by rw [idle, head]; rfl)
    · have free : (s.worker w).pc.tasked = false := by
        rw [← Bool.not_eq_true]
        intro tasked
        cases ended.symm.trans (sane.posted.busy w tasked)
      exact watched.same (timers ▸ rfl) events idle
        (run_m_fibers sane.posted done free fun takes => prompt takes ended)
  | switch w =>
    obtain ⟨-, timers, events, idle, -⟩ := call_eq_some done
    exact watched.same (timers ▸ rfl) events idle (leave_m_fibers (.inr rfl) done)
  | idle w b =>
    have member : w < n := by
      cases b with
      | listExpiredCb => exact allowed.1
      | _ => exact allowed
    simp only [act] at done
    split at done
    · refine watched.idled sane.wf member ?_ (idleAct_idled done)
      rintro now_ms rfl
      exact prompt
    · cases done
  | leave w b =>
    obtain ⟨member, writes, away⟩ := allowed
    obtain ⟨job, pc⟩ := leave_pc writes done
    have head := sane.posted.busy w (tasked_running pc fun idle => away (idle ▸ pc))
    exact watched_of_reads member (by rw [(call_eq_some done).2.2.2.1, head]; rfl)
  | submit w x =>
    obtain ⟨job, f, pc, notIdle, -, submitted⟩ := submit_eq_some allowed done
    have head := sane.posted.busy w (tasked_running pc notIdle)
    exact watched_of_reads allowed.1 (by rw [(submit_frame submitted).1, head]; rfl)
  | outside caller x => exact absurd rfl (inside caller x)
  | autoStop => exact absurd rfl notAuto

end Reactor
end Sylar
