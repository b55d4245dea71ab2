import Sylar.ReactorPosted

namespace Sylar
open Machine

variable {K κ ω : Type}

namespace Reactor

/-- What holds in every state. -/
structure Sane (s : Reactor K κ ω) : Prop where
  posted : Posted s.base.workers s.idle
  registered : ∀ slot x, s.events.board slot = some x → ∀ f, x.task = .fiber f → s.Named f
  good : s.events.Good
  queues : s.events.queues = fun _ => []
  wf : s.timers.Wf

variable {ep : Epoll K} {self : SchedId} {s t : Reactor K κ ω} {w : Nat}

theorem Sane.event {op : EventOp (Callback κ ω)} (sane : s.Sane)
    (names : ∀ fd event cb caller, op = .addEvent fd event cb caller → s.Named caller.fiber)
    (done : s.event ep self op = some t) : t.Sane := by
  rw [Reactor.event] at done
  split at done
  · rename_i out events executed
    cases done
    have refines := sane.good.refines ep (l := (op, out)) executed
    have named := Board.run_forall (P := fun x => ∀ f, x.task = .fiber f → s.Named f) refines.run sane.registered (by
      intro slot x member f task
      obtain ⟨fd, event, cb, caller, rfl, rfl⟩ := IOManager.changes_put member
      cases cb with
      | some cb => cases task
      | none =>
        cases task
        exact names fd event none caller rfl)
    refine ⟨sane.posted.append ?_, named.1, ?_, rfl, sane.wf⟩
    · intro ft member f fiber
      rw [refines.queues, sane.queues] at member
      obtain ⟨change, inChanges, appended⟩ := List.mem_filterMap.mp member
      obtain ⟨slot, x, rfl, -, rfl⟩ := Change.appended_eq_some appended
      exact named.2 slot x .scheduled inChanges f (Continuation.eq_fiber fiber)
    · exact ⟨refines.good.size, refines.good.repr, refines.good.count⟩
  · cases done

theorem Sane.timer {op : TimerOp κ ω} {out : TimerOut κ ω} (sane : s.Sane) (enabled : s.timers.Enabled op)
    (done : s.timer op = some (out, t)) : t.Sane := by
  rw [Reactor.timer] at done
  split at done
  · rename_i out timers executed
    cases done
    exact ⟨sane.posted, sane.registered, sane.good, sane.queues, sane.wf.step (l := (op, out)) ⟨enabled, executed⟩⟩
  · cases done

theorem Sane.goto (sane : s.Sane) (pc : (s.worker w).pc = .running .idle) (unfinished : s.idle w ≠ .done)
    (p : IdlePc κ ω) : (s.goto w p).Sane :=
  ⟨sane.posted.goto pc unfinished p, sane.registered, sane.good, sane.queues, sane.wf⟩

theorem Sane.call {c : Scheduler.Call (Callback κ ω)} (sane : s.Sane) (done : s.call w c = some t)
    (names : ∀ f, Workers.wakes c f → s.Named f)
    (finishes : c = .act .finish → (s.worker w).pc = .running .idle → s.idle w = .done)
    (leaves : (s.worker w).pc = .running .idle → s.idle w = .head ∨ s.idle w = .done ∨ t.worker w = s.worker w)
    (prompt : ∀ a, c = .act a → s.scheduler.Takes w (s.worker w) a → s.idle w ≠ .done) : t.Sane := by
  obtain ⟨workers, called, same⟩ := Option.map_eq_some_iff.mp done
  cases same
  refine ⟨sane.posted.call called names finishes leaves prompt, ?_, sane.good, sane.queues, sane.wf⟩
  intro slot x registered f task
  exact (sane.registered slot x registered f task).call called

/-- `schedule` and `new Fiber` leave the worker where it is. -/
theorem schedule_worker {a : Scheduler.Act (Callback κ ω)} (quiet : a = .newFiber ∨ ∃ ft, a = .schedule ft)
    (done : s.call w (.act a) = some t) : t.worker w = s.worker w := by
  obtain ⟨workers, called, same⟩ := Option.map_eq_some_iff.mp done
  cases same
  have acted := Scheduler.act_acted (Workers.act_eq_some called).1
  simp only [worker, setWorkers]
  generalize workers.worker w = after at acted ⊢
  generalize workers.scheduler = scheduler at acted
  rcases quiet with rfl | ⟨ft, rfl⟩
  · cases acted with
    | leave writes => cases writes
    | newFiber => rfl
  · cases acted with
    | leave writes => cases writes
    | schedule => rfl

theorem scheduleRange_worker {range : TaskRange (Callback κ ω)} (done : s.call w (.scheduleRange range) = some t) :
    t.worker w = s.worker w := by
  obtain ⟨workers, called, same⟩ := Option.map_eq_some_iff.mp done
  cases same
  cases Workers.scheduleRange_eq_some called
  rfl

theorem Sane.submit {caller : Caller} {x : Submit κ ω} (sane : s.Sane) (allowed : Submit.Allowed s caller x)
    (done : s.submit ep self w caller x = some t) : t.Sane := by
  cases x with
  | timer op =>
    obtain ⟨⟨out, u⟩, executed, same⟩ := Option.map_eq_some_iff.mp done
    cases same
    exact sane.timer allowed executed
  | addEvent fd event cb =>
    refine sane.event ?_ done
    rintro _ _ _ _ ⟨⟩
    exact allowed
  | delEvent | cancelEvent | cancelAll =>
    refine sane.event ?_ done
    rintro _ _ _ _ ⟨⟩
  | schedule fc thread =>
    exact sane.call (c := .schedule fc thread) done allowed nofun
      (fun _ => .inr (.inr (schedule_worker (.inr ⟨_, rfl⟩) done))) nofun
  | scheduleRange range =>
    refine sane.call (c := .scheduleRange range) done ?_ nofun
      (fun _ => .inr (.inr (scheduleRange_worker done))) nofun
    rintro f ⟨ft, member, fiber⟩
    exact allowed ft member f fiber
  | newFiber =>
    refine sane.call (c := .act .newFiber) done nofun nofun
      (fun _ => .inr (.inr (schedule_worker (.inl rfl) done))) ?_
    rintro a ⟨⟩ takes
    cases takes.1

/-- The statements of `IOManager::idle`, each at its position. -/
inductive Idled (ep : Epoll K) (self : SchedId) (s : Reactor K κ ω) (w : Nat) : IdleAct → Reactor K κ ω → Prop
  | getNextTimer {now_ms out u} : s.idle w = .head → s.timer (.getNextTimer now_ms) = some (out, u) →
      Idled ep self s w (.getNextTimer now_ms) (u.goto w (if out.timeout = ~~~0 then .pending else .wait))
  | readPending : s.idle w = .pending →
      Idled ep self s w .readPending (s.goto w (if s.events.m_pendingEventCount = 0 then .stopping else .wait))
  | stopping : s.idle w = .stopping →
      Idled ep self s w .stopping (s.goto w (if s.base.stopping then .exit else .wait))
  | exit {now_ms out u} : s.idle w = .exit → s.timer (.getNextTimer now_ms) = some (out, u) →
      Idled ep self s w (.getNextTimer now_ms) (u.goto w .broken)
  | finish {u} : s.idle w = .broken → s.call w (.act .finish) = some u → Idled ep self s w .finish (u.goto w .done)
  | epoll_wait : s.idle w = .wait → Idled ep self s w .epoll_wait (s.goto w .expire)
  | listExpiredCb {now_ms now_timer out u} : s.idle w = .expire →
      s.timer (.listExpiredCb now_ms now_timer) = some (out, u) →
      Idled ep self s w (.listExpiredCb now_ms now_timer)
        (u.goto w (if out.cbs.isEmpty then .dispatch else .cbs out.cbs))
  | schedule {cbs u} : s.idle w = .cbs cbs → s.call w (.scheduleRange (.cbs cbs)) = some u →
      Idled ep self s w .schedule (u.goto w .dispatch)
  | report {fd events t} : s.idle w = .dispatch → s.event ep self (.report fd events) = some t →
      Idled ep self s w (.report fd events) t
  | swapOut {u} : s.idle w = .dispatch → s.call w (.act .swapOut) = some u →
      Idled ep self s w .swapOut (u.goto w .head)

theorem idleAct_idled {a : IdleAct} (done : s.idleAct ep self w a = some t) : s.Idled ep self w a t := by
  unfold idleAct at done
  split at done
  case h_1 at_ =>
    obtain ⟨⟨out, u⟩, executed, rfl⟩ := Option.map_eq_some_iff.mp done
    exact .getNextTimer at_ executed
  case h_2 at_ =>
    cases done
    exact .readPending at_
  case h_3 at_ =>
    cases done
    exact .stopping at_
  case h_4 at_ =>
    obtain ⟨⟨out, u⟩, executed, rfl⟩ := Option.map_eq_some_iff.mp done
    exact .exit at_ executed
  case h_5 at_ =>
    obtain ⟨u, called, rfl⟩ := Option.map_eq_some_iff.mp done
    exact .finish at_ called
  case h_6 at_ =>
    cases done
    exact .epoll_wait at_
  case h_7 at_ =>
    obtain ⟨⟨out, u⟩, executed, rfl⟩ := Option.map_eq_some_iff.mp done
    exact .listExpiredCb at_ executed
  case h_8 at_ =>
    obtain ⟨u, called, rfl⟩ := Option.map_eq_some_iff.mp done
    exact .schedule at_ called
  case h_9 at_ => exact .report at_ done
  case h_10 at_ =>
    obtain ⟨u, called, rfl⟩ := Option.map_eq_some_iff.mp done
    exact .swapOut at_ called
  case h_11 => cases done

/-- An operation on the timers changes nothing else. -/
theorem timer_eq_some {op : TimerOp κ ω} {out : TimerOut κ ω} (done : s.timer op = some (out, t)) :
    ∃ timers, s.timers.exec op = .ok (out, timers) ∧ t = s.setTimers timers := by
  rw [Reactor.timer] at done
  split at done
  · rename_i out timers executed
    cases done
    exact ⟨timers, executed, rfl⟩
  · cases done

theorem call_goto {c : Scheduler.Call (Callback κ ω)} (done : s.call w c = some t) (p : IdlePc κ ω) :
    (s.goto w p).call w c = some (t.goto w p) := by
  obtain ⟨workers, called, rfl⟩ := Option.map_eq_some_iff.mp done
  exact Option.map_eq_some_iff.mpr ⟨workers, called, rfl⟩

theorem Sane.idled {a : IdleAct} (sane : s.Sane) (pc : (s.worker w).pc = .running .idle)
    (enabled : ∀ now_ms now_timer, a = .listExpiredCb now_ms now_timer →
      s.timers.Enabled (.listExpiredCb now_ms now_timer))
    (idled : s.Idled ep self w a t) : t.Sane := by
  have timed : ∀ op out u p, s.timers.Enabled op → s.idle w ≠ .done → s.timer op = some (out, u) →
      (u.goto w p).Sane := by
    intro op out u p enabled unfinished executed
    have after := sane.timer enabled executed
    obtain ⟨timers, -, rfl⟩ := timer_eq_some executed
    exact after.goto pc unfinished p
  cases idled with
  | getNextTimer at_ executed | exit at_ executed =>
    exact timed (.getNextTimer _) _ _ _ trivial (by rw [at_]; nofun) executed
  | readPending at_ | stopping at_ | epoll_wait at_ => exact sane.goto pc (by rw [at_]; nofun) _
  | finish at_ called =>
    refine (sane.goto pc (by rw [at_]; nofun) .done).call (call_goto called .done) nofun ?_ ?_ ?_
    · exact fun _ _ => Function.update_self ..
    · exact fun _ => .inr (.inl (Function.update_self ..))
    · rintro a ⟨⟩ takes
      cases takes.1
  | listExpiredCb at_ executed => exact timed _ _ _ _ (enabled _ _ rfl) (by rw [at_]; nofun) executed
  | @schedule cbs u at_ called =>
    have after : u.Sane := by
      refine sane.call called ?_ nofun (fun _ => .inr (.inr (scheduleRange_worker called))) nofun
      rintro f ⟨ft, member, fiber⟩
      obtain ⟨cb, -, rfl⟩ := List.mem_map.mp member
      cases fiber
    have same := scheduleRange_worker called
    obtain ⟨workers, -, rfl⟩ := Option.map_eq_some_iff.mp called
    exact after.goto (same ▸ pc) (by simp only [setWorkers, at_]; nofun) _
  | report at_ fired =>
    refine sane.event ?_ fired
    rintro _ _ _ _ ⟨⟩
  | swapOut at_ called =>
    refine (sane.goto pc (by rw [at_]; nofun) .head).call (call_goto called .head) nofun nofun ?_ ?_
    · exact fun _ => .inl (Function.update_self ..)
    · rintro a ⟨⟩ takes
      cases takes.1

/-- `Scheduler::run` does not go on while the worker is on the stack of its idle fiber. -/
theorem run_away (done : s.call w (.act .run) = some t) : (s.worker w).pc ≠ .running .idle := by
  intro pc
  obtain ⟨workers, called, -⟩ := Option.map_eq_some_iff.mp done
  have mine := (Workers.act_eq_some called).1
  rw [worker] at pc
  simp only [Scheduler.act, Scheduler.runStep, pc] at mine
  cases mine

theorem switch_away (done : s.call w (.act .switch) = some t) : (s.worker w).pc ≠ .running .idle := by
  intro pc
  obtain ⟨workers, called, -⟩ := Option.map_eq_some_iff.mp done
  have mine := (Workers.act_eq_some called).1
  rw [worker] at pc
  simp only [Scheduler.act, pc] at mine
  cases mine

theorem submit_eq_some {n : Nat} {x : Submit κ ω} (allowed : s.Allowed n self (.submit w x))
    (done : s.act ep self (.submit w x) = some t) : ∃ job f, (s.worker w).pc = .running job ∧ job ≠ .idle ∧
      Submit.Allowed s (s.caller self f) x ∧ s.submit ep self w (s.caller self f) x = some t := by
  obtain ⟨-, job, f, pc, notIdle, fiber, may⟩ := allowed
  refine ⟨job, f, pc, notIdle, may, ?_⟩
  simp only [act, pc, fiber] at done
  exact done

/-- Every step keeps the invariant, provided that a worker whose idle fiber has terminated takes
nothing off the queue. -/
theorem Sane.step {n : Nat} {a : Act κ ω} (sane : s.Sane) (step : s.Step ep self n a t)
    (prompt : ∀ w, a = .run w → s.scheduler.Takes w (s.worker w) .run → s.idle w ≠ .done) : t.Sane := by
  obtain ⟨allowed, done⟩ := step
  cases a with
  | run w =>
    refine sane.call done nofun nofun (fun pc => absurd pc (run_away done)) ?_
    rintro a ⟨⟩
    exact prompt w rfl
  | switch w =>
    refine sane.call done nofun nofun (fun pc => absurd pc (switch_away done)) ?_
    rintro a ⟨⟩ takes
    cases takes.1
  | idle w a =>
    simp only [act] at done
    split at done
    · rename_i pc
      refine sane.idled pc ?_ (idleAct_idled done)
      rintro now_ms now_timer rfl
      exact allowed.2
    · cases done
  | leave w a =>
    obtain ⟨-, writes, away⟩ := allowed
    refine sane.call done ?_ (fun _ pc => absurd pc away) (fun pc => absurd pc away) ?_
    · intro f woken
      cases a with
      | schedule => cases writes
      | _ => cases woken
    · rintro b ⟨⟩ takes
      cases takes.1
      cases writes
  | submit w x =>
    obtain ⟨job, f, -, -, may, submitted⟩ := submit_eq_some allowed done
    exact sane.submit may submitted
  | outside caller x => exact sane.submit allowed done
  | autoStop =>
    cases done
    exact ⟨sane.posted, sane.registered, sane.good, sane.queues, sane.wf⟩

theorem Init.sane (init : s.Init) : s.Sane := by
  refine ⟨?_, ?_, init.events.good, init.queues, init.timers.wf⟩
  · rw [init.base, init.idle]
    refine ⟨Workers.private_init, ?_, fun _ _ => .inl rfl, fun _ _ => rfl, ?_⟩
    · intro w f held
      cases held
    · intro w stopped
      cases stopped
  · intro slot x registered
    rw [init.events.board_empty] at registered
    cases registered

end Reactor
end Sylar
