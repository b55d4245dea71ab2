import Sylar.SoloSteady

namespace Sylar.Solo
open Machine

variable {κ : Type}

variable {s t : Solo κ} {a : Scheduler.Act κ} {f g : FiberId}

/-- With the only worker, between two steps. -/
structure Sound (s : Solo κ) : Prop where
  apart : s.workers.Private
  alone : ∀ w, w ≠ 0 → (s.workers.worker w).idle_fiber = none
  steady : s.scheduler.Steady s.me
  accepted : ∀ ft ∈ s.scheduler.m_fibers, ft.accepted
  regs : ∀ r ∈ s.registered, s.workers.Named r.1
  life : ∀ g, g < s.scheduler.fibers → s.me.idle_fiber ≠ some g → s.LifeOf g

theorem Sound.named (sound : s.Sound) (born : f < s.scheduler.fibers) (notIdle : s.me.idle_fiber ≠ some f) :
    s.workers.Named f := by
  refine ⟨born, fun w idle => ?_⟩
  by_cases first : w = 0
  · subst first
    exact notIdle idle
  · cases (sound.alone w first).symm.trans idle

theorem Sound.alone_act {workers : Workers κ} (sound : s.Sound) (step : s.workers.act 0 a = some workers) (w : Nat)
    (other : w ≠ 0) : (workers.worker w).idle_fiber = none := by
  rw [(Workers.act_eq_some step).2 w other]
  exact sound.alone w other

theorem Sound.cb_fiber (sound : s.Sound) (cb : s.me.cb_fiber = some f) : s.LifeOf f := by
  have named := sound.apart.cb 0 f cb
  exact sound.life f named.1 (named.2 0)

theorem Sound.born (sound : s.Sound) (job : Job) (f : FiberId) (fiber : s.me.jobFiber job = some f) :
    f < s.scheduler.fibers := by
  cases job with
  | idle => exact sound.apart.born 0 f fiber
  | fiber => exact (sound.apart.ft 0 f fiber).1
  | callback => exact (sound.apart.cb 0 f fiber).1

/-- A new fiber has a task in it. -/
theorem Sound.fresh {t : Scheduler κ} {after : Worker κ} {thread : Int} {refers : Prop} (sound : s.Sound)
    (acted : s.scheduler.Acted thread s.me a t after) (fresh : g = s.scheduler.fibers) (made : g < t.fibers)
    (notIdle : after.idle_fiber ≠ some g) : Life after g (t.m_state g) (s.cbAfter a g) refers := by
  subst fresh
  cases acted with
  | run ran =>
    cases ran with
    | start => exact absurd rfl notIdle
    | newCallback pc noFiber cb none =>
      have writes := writesCb_callback pc noFiber cb
      rw [none, Option.getD_none] at writes
      rw [cbAfter_self writes]
      refine .busy rfl rfl (fun _ => rfl) nofun nofun ?_
      simp [Scheduler.newFiber, Scheduler.setState, FiberState.Ended]
    | _ => exact absurd made (Nat.lt_irrefl _)
  | newFiber =>
    have writes : s.writesCb .newFiber = some (s.scheduler.fibers, some s.tasks) := rfl
    rw [cbAfter_self writes]
    refine .rest (fun job _ mine => ?_) (fun mine => ?_) (.inl nofun)
    · exact Nat.lt_irrefl _ (sound.born job _ mine)
    · exact Nat.lt_irrefl _ (sound.born .callback _ mine)
  | leave | swapOut | switch | schedule => exact absurd made (Nat.lt_irrefl _)

/-- A wake-up can be asked for: the fiber is not the idle fiber, and if it is the `cb_fiber` then the
callback in it has not ended. -/
def MayAsk (s : Solo κ) (f : FiberId) : Prop :=
  f < s.scheduler.fibers ∧ s.me.idle_fiber ≠ some f ∧ (s.me.cb_fiber = some f → s.Busy f)

/-- A callback that has not yielded, so that it is still in the `cb_fiber`, ends only when nothing
refers to its fiber. -/
def Settles (s : Solo κ) (l : Op κ) (_ : Solo κ) : Prop :=
  l.ends → s.me.pc = .running .callback → ∀ f, s.me.cb_fiber = some f → ¬ s.Refers f

/-- Everybody keeps to the rules. A program in which the fiber of a task is woken at most once for each
of its `YieldToHold`, and in which no task ends before its wake-ups have come, keeps to them: nobody
ever asks for a wake-up of a callback that ends without a yield. How often a task that yields is woken
is left open here. -/
def Disciplined (s : Solo κ) (l : Op κ) (t : Solo κ) : Prop := (∀ f, l.asks = some f → s.MayAsk f) ∧ s.Settles l t

theorem perform_eq_some (done : s.perform a = some t) : s.workers.act 0 a = some t.workers ∧ t.m_cb = s.cbAfter a ∧
    t.registered = s.registered ∧
    t.notes = (if s.selects a then s.notes.eraseP s.eligible else s.notes ++ s.noted a) ∧
    t.woken = if s.selects a then (s.notes.find? s.eligible).bind (·.2) else s.woken := by
  obtain ⟨workers, acted, same⟩ := Option.map_eq_some_iff.mp done
  cases same
  exact ⟨acted, rfl, rfl, rfl, rfl⟩

theorem addEvent_eq_some (done : s.op (.addEvent f) = some t) :
    t = { s with registered := s.registered ++ [(f, s.m_cb f)] } := by
  simp only [Solo.op] at done
  split at done
  · exact (Option.some.inj done).symm
  · cases done

theorem delEvent_eq_some {i : Nat} (done : s.op (.delEvent i) = some t) :
    t = { s with registered := s.registered.eraseIdx i } := by
  simp only [Solo.op] at done
  split at done
  · exact (Option.some.inj done).symm
  · cases done

theorem triggerEvent_eq_some {i : Nat} (done : s.op (.triggerEvent i) = some t) : ∃ f task workers,
    (f, task) ∈ s.registered ∧ s.workers.act 0 (.schedule { fiber := some f }) = some workers ∧
    t = { s with
      workers := workers
      notes := s.notes ++ [({ fiber := some f }, task)]
      registered := s.registered.eraseIdx i } := by
  obtain ⟨⟨f, task⟩, found, done⟩ := Option.bind_eq_some_iff.mp done
  obtain ⟨workers, step, done⟩ := Option.bind_eq_some_iff.mp done
  exact ⟨f, task, workers, List.mem_of_getElem? found, step, (Option.some.inj done).symm⟩

theorem Sound.perform (sound : s.Sound) (done : s.perform a = some t)
    (named : ∀ f, a.woken = some f → s.workers.Named f) (allows : ∀ g, s.Allows a g) : t.Sound := by
  obtain ⟨step, cb, registered, -⟩ := perform_eq_some done
  have acted := Scheduler.act_acted (Workers.act_eq_some step).1
  have refs : ∀ g, t.Refers g →
      s.Refers g ∨ a.woken = some g ∨ ∃ job, s.me.pc = .reschedule job ∧ s.me.jobFiber job = some g := by
    rintro g (⟨ft, member, fiber⟩ | registration)
    · rcases acted.m_fibers member with old | scheduled | ⟨job, pc, back⟩
      · exact .inl (.inl ⟨ft, old, fiber⟩)
      · exact .inr (.inl (scheduled ▸ fiber))
      · exact .inr (.inr ⟨job, pc, back ▸ fiber⟩)
    · exact .inl (.inr (registered ▸ registration))
  refine ⟨sound.apart.act step named, sound.alone_act step, sound.steady.acted acted sound.born,
    acted.accepted sound.accepted, ?_, ?_⟩
  · intro r member
    exact (sound.regs r (registered ▸ member)).act step
  · intro g made notIdle
    rw [LifeOf, cb]
    by_cases born : g < s.scheduler.fibers
    · have other : s.me.idle_fiber ≠ some g := fun idle => notIdle (sound.steady.acted_idle_fiber acted idle)
      exact (sound.life g born other).step acted born other (allows g) (refs g) (sound.apart.tidy 0) sound.steady.first
    · refine sound.fresh acted ?_ made notIdle
      have grows : t.scheduler.fibers ≤ s.scheduler.fibers + 1 := acted.fibers_le
      exact Nat.le_antisymm (Nat.le_of_lt_succ (Nat.lt_of_lt_of_le made grows)) (Nat.le_of_not_lt born)

/-- A registration comes, or goes into the queue. -/
theorem Sound.refers (sound : s.Sound) (apart : t.workers.Private)
    (alone : ∀ w, w ≠ 0 → (t.workers.worker w).idle_fiber = none) (steady : t.scheduler.Steady t.me)
    (accepted : ∀ ft ∈ t.scheduler.m_fibers, ft.accepted) (regs : ∀ r ∈ t.registered, t.workers.Named r.1)
    (me : t.me = s.me) (fibers : t.scheduler.fibers = s.scheduler.fibers)
    (states : t.scheduler.m_state = s.scheduler.m_state) (cb : t.m_cb = s.m_cb)
    (refs : ∀ g, s.me.cb_fiber = some g → ¬ s.Busy g → t.Refers g → s.Refers g) : t.Sound := by
  refine ⟨apart, alone, steady, accepted, regs, fun g born notIdle => ?_⟩
  rw [LifeOf, me, states, cb]
  refine (sound.life g (fibers ▸ born) (me ▸ notIdle)).refers fun mine idle => refs g mine fun busy => ?_
  exact idle.elim busy.1 busy.2

theorem act_schedule {workers : Workers κ} {ft : FiberAndThread κ}
    (step : s.workers.act 0 (.schedule ft) = some workers) :
    workers.scheduler = s.scheduler.schedule ft ∧ workers.worker 0 = s.me := by
  have mine := (Workers.act_eq_some step).1
  simp only [Scheduler.act] at mine
  split at mine
  · obtain ⟨scheduler, me⟩ := Prod.mk.inj (Option.some.inj mine)
    exact ⟨scheduler.symm, me.symm⟩
  · cases mine

theorem Sound.op {l : Op κ} (sound : s.Sound) (done : s.op l = some t) (obeys : s.Disciplined l t) : t.Sound := by
  cases l with
  | act a =>
    refine sound.perform done (fun f asked => ?_) fun g => ⟨fun asked => (obeys.1 g asked).2.2, ?_⟩
    · obtain ⟨born, notIdle, -⟩ := obeys.1 f asked
      exact sound.named born notIdle
    rintro (rfl | rfl) pc mine
    · exact obeys.2 rfl pc g mine
    · exact obeys.2 rfl pc g mine
  | addEvent f =>
    cases addEvent_eq_some done
    obtain ⟨born, notIdle, busy⟩ := obeys.1 f rfl
    refine sound.refers sound.apart sound.alone sound.steady sound.accepted ?_ rfl rfl rfl rfl ?_
    · intro r member
      rcases List.mem_append.mp member with old | new
      · exact sound.regs r old
      · rw [List.mem_singleton.mp new]
        exact sound.named born notIdle
    · rintro g mine notBusy (queued | ⟨r, member, fiber⟩)
      · exact .inl queued
      · rcases List.mem_append.mp member with old | new
        · exact .inr ⟨r, old, fiber⟩
        · rw [List.mem_singleton.mp new] at fiber
          cases fiber
          exact absurd (busy mine) notBusy
  | triggerEvent i =>
    obtain ⟨f, task, workers, registered, step, rfl⟩ := triggerEvent_eq_some done
    obtain ⟨scheduler, me⟩ := act_schedule step
    have named := sound.regs _ registered
    have acted := Scheduler.act_acted (Workers.act_eq_some step).1
    have fibers : workers.scheduler.fibers = s.scheduler.fibers := by rw [scheduler]; rfl
    have states : workers.scheduler.m_state = s.scheduler.m_state := by rw [scheduler]; rfl
    refine sound.refers (sound.apart.act step ?_) (sound.alone_act step) (sound.steady.acted acted sound.born)
      (acted.accepted sound.accepted) ?_ me fibers states rfl ?_
    · intro g woken
      cases woken
      exact named
    · exact fun r member => (sound.regs r (List.mem_of_mem_eraseIdx member)).act step
    · rintro g - - (⟨ft, member, fiber⟩ | ⟨r, member, fiber⟩)
      · rw [Solo.scheduler, scheduler, Scheduler.m_fibers_schedule] at member
        rcases List.mem_append.mp member with old | new
        · exact .inl ⟨ft, old, fiber⟩
        · rw [List.mem_singleton.mp (List.mem_filter.mp new).1] at fiber
          cases fiber
          exact .inr ⟨_, registered, rfl⟩
      · exact .inr ⟨r, List.mem_of_mem_eraseIdx member, fiber⟩
  | delEvent i =>
    cases delEvent_eq_some done
    refine sound.refers sound.apart sound.alone sound.steady sound.accepted ?_ rfl rfl rfl rfl ?_
    · exact fun r member => sound.regs r (List.mem_of_mem_eraseIdx member)
    · rintro g - - (queued | ⟨r, member, fiber⟩)
      · exact .inl queued
      · exact .inr ⟨r, List.mem_of_mem_eraseIdx member, fiber⟩

end Sylar.Solo
