import Sylar.SoloReuse

namespace Sylar.Solo
open Machine

variable {κ : Type} {s t : Solo κ} {a : Scheduler.Act κ} {f g : FiberId} {k : Option Nat}

/-- The task of a note is still in the fiber, or the fiber has ended and is not swapped in again. -/
def Carries (s : Solo κ) (f : FiberId) (k : Option Nat) : Prop := (k ≠ none ∧ s.m_cb f = k) ∨ s.Ended f

/-- Somebody but the worker knows the fiber, or the worker has just learnt of it. -/
def Known (s : Solo κ) (f : FiberId) : Prop := s.Refers f ∨ s.me.ft.fiber = some f

/-- Every note is right. -/
structure Noted (s : Solo κ) : Prop where
  sound : s.Sound
  queue : s.notes.map Prod.fst = s.scheduler.m_fibers
  notes : ∀ n ∈ s.notes, ∀ f, n.1.fiber = some f → s.Carries f n.2
  registered : ∀ r ∈ s.registered, s.Carries r.1 r.2
  woken : ∀ f, s.me.ft.fiber = some f → s.Carries f s.woken

section Acted
variable {u : Scheduler κ} {after : Worker κ} {thread : Int} (acted : s.scheduler.Acted thread s.me a u after)
include acted

/-- While the worker is at a task, the task stays in its fiber until it ends. -/
theorem cbAfter_busy {job : Job} (born : f < s.scheduler.fibers) (at_ : s.me.pc.job = some job)
    (mine : s.me.jobFiber job = some f) (notRecycle : s.me.pc ≠ .recycle) :
    s.cbAfter a f = s.m_cb f ∨ (u.m_state f).Ended := by
  have old : f ≠ s.scheduler.fibers := Nat.ne_of_lt born
  cases acted with
  | run ran =>
    refine .inl ?_
    rw [cbAfter_of_none]
    refine writesCb_run_eq_none ran (fun pc => ?_) notRecycle fun callback => ?_
    · cases RunPc.job_of_eq pc at_
    · cases ran with
      | resetCallback pc | newCallback pc =>
        cases RunPc.job_of_eq pc at_
      | _ => cases callback
  | @leave _ state job' g writes pc fiber =>
    cases RunPc.job_of_eq pc at_
    cases fiber.symm.trans mine
    rw [Scheduler.m_state_setState_self]
    cases a with
    | YieldToReady | YieldToHold => exact .inl (by rw [cbAfter_of_none rfl])
    | finish | throw =>
      cases writes
      exact .inr (by simp [FiberState.Ended])
    | _ => cases writes
  | newFiber => exact .inl (cbAfter_of_ne rfl old)
  | swapOut | switch | schedule => exact .inl (by rw [cbAfter_of_none rfl])

/-- A fiber that has ended stays so until it is recycled. -/
theorem ended_stays (born : f < s.scheduler.fibers) (ending : s.me.pc.ending) (ended : s.Ended f)
    (notRecycle : s.me.pc ≠ .recycle) : (u.m_state f).Ended := by
  cases acted with
  | run ran =>
    cases ran with
    | start pc | resetCallback pc | newCallback pc | swapIn pc | hold pc =>
      rw [pc] at ending
      cases ending
    | recycle pc => exact absurd pc notRecycle
    | _ => exact ended
  | leave _ pc =>
    rw [pc] at ending
    cases ending
  | newFiber =>
    rw [Scheduler.m_state_newFiber_of_ne (Nat.ne_of_lt born)]
    exact ended
  | swapOut | switch | schedule => exact ended

/-- A note stays right. -/
theorem carries_acted (sound : s.Sound) (known : s.Known f) (born : f < s.scheduler.fibers)
    (notIdle : s.me.idle_fiber ≠ some f) (carries : s.Carries f k) :
    (k ≠ none ∧ s.cbAfter a f = k) ∨ (u.m_state f).Ended := by
  cases sound.life f born notIdle with
  | busy at_ mine _ notRecycle _ live =>
    obtain ⟨task, same⟩ := carries.resolve_right live
    exact (cbAfter_busy acted born at_ mine notRecycle).imp_left fun kept => ⟨task, kept.trans same⟩
  | @ended job at_ mine ending ended only =>
    by_cases recycle : s.me.pc = .recycle
    · have callback : job = .callback := by
        rw [recycle] at at_
        exact (Option.some.inj at_).symm
      subst callback
      have empty : s.me.ft = {} := sound.apart.tidy 0 (by rw [recycle]; rfl)
      rcases known with refers | fiber
      · exact absurd refers (only mine).2
      · rw [empty] at fiber
        cases fiber
    · exact .inr (ended_stays acted born ending ended recycle)
  | spare _ _ _ _ free apart => exact (known.elim free apart).elim
  | rest off other lives =>
    by_cases offAfter : after.Off f
    · rw [acted.m_state_off off offAfter born, cbAfter_off acted off offAfter born]
      exact carries
    · cases acted.enters off offAfter born notIdle with
      | fiber pc fiber notTerm notExcept =>
        rw [cbAfter_of_none (writesCb_fiber pc fiber notTerm notExcept)]
        exact carries
      | callback _ _ _ mine => exact absurd mine other

end Acted

/-- A wake-up that is asked for while a task is in the fiber is for that task. -/
theorem Sound.carries (sound : s.Sound) (born : f < s.scheduler.fibers) (notIdle : s.me.idle_fiber ≠ some f)
    (busy : s.me.cb_fiber = some f → s.Busy f) : s.Carries f (s.m_cb f) := by
  cases sound.life f born notIdle with
  | busy _ _ _ _ task => exact .inl ⟨task, rfl⟩
  | ended _ _ _ ended => exact .inr ended
  | spare _ mine _ empty => exact absurd empty (busy mine).1
  | rest _ _ lives => exact lives.imp (fun task => ⟨task, rfl⟩) id

/-- The first note that is eligible is that of the entry which the selection loop takes. -/
theorem find_of_entry {ft : FiberAndThread κ} {rest : List (FiberAndThread κ)} (noted : s.Noted)
    (found : Scheduler.selectFrom s.scheduler.m_state (0 : Nat) s.scheduler.m_fibers = .entry ft rest) :
    ∃ k, s.notes.find? s.eligible = some (ft, k) ∧ (s.notes.eraseP s.eligible).map Prod.fst = rest := by
  have finds := Scheduler.selectFrom_finds s.scheduler.m_state (0 : Nat) noted.sound.accepted
  rw [found] at finds
  cases finds with
  | @entry front _ back shape mine before =>
    rw [← noted.queue] at shape
    obtain ⟨front', tail, notes, rfl, tailShape⟩ := List.map_eq_append_iff.mp shape
    obtain ⟨⟨_, k⟩, back', rfl, rfl, rfl⟩ := List.map_eq_cons_iff.mp tailShape
    have skipped : ∀ n ∈ front', ¬ s.eligible n = true := by
      intro n member eligible
      exact before n.1 (List.mem_map_of_mem member) (of_decide_eq_true eligible)
    have first : s.eligible (_, k) = true := decide_eq_true mine
    refine ⟨k, ?_, ?_⟩
    · rw [notes, List.find?_append, List.find?_eq_none.mpr skipped, Option.none_or]
      exact List.find?_cons_of_pos first
    · rw [notes, List.eraseP_append_right _ skipped, List.eraseP_cons_of_pos first, List.map_append]

theorem eraseP_of_nothing (noted : s.Noted)
    (found : Scheduler.selectFrom s.scheduler.m_state (0 : Nat) s.scheduler.m_fibers = .nothing) :
    s.notes.eraseP s.eligible = s.notes := by
  have finds := Scheduler.selectFrom_finds s.scheduler.m_state (0 : Nat) noted.sound.accepted
  rw [found] at finds
  cases finds with
  | nothing none =>
    refine List.eraseP_of_forall_not fun n member eligible => ?_
    exact none n.1 (noted.queue ▸ List.mem_map_of_mem member) (of_decide_eq_true eligible)

theorem selects_eq_true (selects : s.selects a = true) : a = .run ∧ s.me.pc = .select := by
  unfold Solo.selects at selects
  split at selects
  · rename_i pc
    exact ⟨rfl, pc⟩
  · cases selects

theorem select_cases {workers : Workers κ} (step : s.workers.act 0 .run = some workers) (pc : s.me.pc = .select) :
    (Scheduler.selectFrom s.scheduler.m_state (0 : Nat) s.scheduler.m_fibers = .nothing ∧
      workers.scheduler.m_fibers = s.scheduler.m_fibers ∧ (workers.worker 0).ft = s.me.ft) ∨
    ∃ ft, Scheduler.selectFrom s.scheduler.m_state (0 : Nat) s.scheduler.m_fibers =
        .entry ft workers.scheduler.m_fibers ∧ (workers.worker 0).ft = ft := by
  have mine := (Workers.act_eq_some step).1
  simp only [Scheduler.act, Scheduler.runStep, pc] at mine
  split at mine
  · cases mine
  · rename_i nothing
    obtain ⟨scheduler, me⟩ := Prod.mk.inj (Option.some.inj mine)
    rw [← scheduler, ← me]
    exact .inl ⟨nothing, rfl, rfl⟩
  · rename_i ft rest found
    obtain ⟨scheduler, me⟩ := Prod.mk.inj (Option.some.inj mine)
    rw [← scheduler, ← me]
    exact .inr ⟨ft, found, rfl⟩

theorem ft_fiber_of_not_selects {u : Scheduler κ} {after : Worker κ} {thread : Int}
    (acted : s.scheduler.Acted thread s.me a u after) (other : ¬ s.selects a = true) (fiber : after.ft.fiber = some f) :
    s.me.ft.fiber = some f := by
  cases acted with
  | run ran =>
    cases ran with
    | start | resetCallback | newCallback | drop | ended | reschedule | hold => cases fiber
    | entry pc => exact absurd (by simp only [Solo.selects, pc]) other
    | _ => exact fiber
  | _ => exact fiber

/-- A step that puts an entry into the queue changes nothing else of the fibers. -/
theorem offered_still {u : Scheduler κ} {after : Worker κ} {thread : Int} {ft : FiberAndThread κ}
    (acted : s.scheduler.Acted thread s.me a u after) (offers : ft ∈ Scheduler.offered s.me (.act a)) :
    s.cbAfter a = s.m_cb ∧ u.m_state = s.scheduler.m_state ∧
      (a.woken = ft.fiber ∨ ∃ job, s.me.pc = .reschedule job ∧ ft.fiber = s.me.jobFiber job) := by
  cases acted with
  | run ran =>
    simp only [Scheduler.offered] at offers
    split at offers
    · rename_i job pc
      rw [List.mem_singleton.mp offers]
      have still := writesCb_run_eq_none ran (by rw [pc]; exact RunPc.noConfusion) (by rw [pc]; exact RunPc.noConfusion)
      cases ran with
      | reschedule => exact ⟨cbAfter_of_none (still RunPc.noConfusion), rfl, .inr ⟨job, pc, rfl⟩⟩
      | start pc' | nothing pc' | entry pc' | fiber pc' | resetCallback pc' | newCallback pc' | drop pc' | stop pc'
      | idle pc' | swapIn pc' | returnedIdle pc' | returned pc' | ready pc' | suspended pc' | ended pc'
      | endedCallback pc' | hold pc' | recycle pc' => cases pc.symm.trans pc'
    · cases offers
  | schedule =>
    rw [List.mem_singleton.mp offers]
    exact ⟨cbAfter_of_none rfl, rfl, .inl rfl⟩
  | leave writes =>
    cases a with
    | run | schedule => cases writes
    | _ => cases offers
  | swapOut | switch | newFiber => cases offers

theorem Noted.known_of_note (noted : s.Noted) {n : FiberAndThread κ × Option Nat} (member : n ∈ s.notes)
    (fiber : n.1.fiber = some f) : s.Known f :=
  .inl (.inl ⟨n.1, noted.queue ▸ List.mem_map_of_mem member, fiber⟩)

theorem Noted.named (noted : s.Noted) (known : s.Known f) : s.workers.Named f := by
  rcases known with (⟨ft, member, fiber⟩ | ⟨r, member, rfl⟩) | fiber
  · exact noted.sound.apart.queue ft member f fiber
  · exact noted.sound.regs r member
  · exact noted.sound.apart.ft 0 f fiber

/-- What the worker puts back into the queue has its task in it. -/
theorem Noted.reschedule (noted : s.Noted) {job : Job} (pc : s.me.pc = .reschedule job)
    (mine : s.me.jobFiber job = some f) : s.Carries f (s.m_cb f) := by
  have notIdle : job ≠ .idle := fun idle => noted.sound.apart.notIdle 0 (idle ▸ pc)
  have named := noted.sound.apart.jobFiber notIdle mine
  cases noted.sound.life f named.1 (named.2 0) with
  | busy _ _ _ _ task => exact .inl ⟨task, rfl⟩
  | ended _ _ _ ended => exact .inr ended
  | spare off | rest off => exact absurd mine (off job (by rw [pc]; rfl))

theorem Noted.perform (noted : s.Noted) (done : s.perform a = some t) (sound : t.Sound)
    (asked : ∀ f, a.woken = some f → s.MayAsk f) : t.Noted := by
  obtain ⟨step, cb, registered, notes, woken⟩ := perform_eq_some done
  have acted := Scheduler.act_acted (Workers.act_eq_some step).1
  have carry : ∀ f k, s.Known f → s.Carries f k → t.Carries f k := by
    intro f k known carries
    have named := noted.named known
    rw [Carries, cb]
    exact carries_acted acted noted.sound known named.1 (named.2 0) carries
  have regs : ∀ r ∈ t.registered, t.Carries r.1 r.2 := by
    intro r member
    rw [registered] at member
    exact carry r.1 r.2 (.inl (.inr ⟨r, member, rfl⟩)) (noted.registered r member)
  by_cases selects : s.selects a = true
  · rw [if_pos selects] at notes woken
    obtain ⟨rfl, pc⟩ := selects_eq_true selects
    rcases select_cases step pc with ⟨nothing, queue, ft⟩ | ⟨ft, found, same⟩
    · rw [eraseP_of_nothing noted nothing] at notes
      refine ⟨sound, by rw [notes, noted.queue]; exact queue.symm, ?_, regs, ?_⟩
      · intro n member f fiber
        rw [notes] at member
        exact carry f n.2 (noted.known_of_note member fiber) (noted.notes n member f fiber)
      · intro f fiber
        have empty : s.me.ft = {} := noted.sound.apart.tidy 0 (by rw [pc]; rfl)
        rw [Solo.me, ft, empty] at fiber
        cases fiber
    · obtain ⟨k, first, rest⟩ := find_of_entry noted found
      refine ⟨sound, by rw [notes, rest], ?_, regs, ?_⟩
      · intro n member f fiber
        rw [notes] at member
        have old := List.mem_of_mem_eraseP member
        exact carry f n.2 (noted.known_of_note old fiber) (noted.notes n old f fiber)
      · intro f fiber
        have old := List.mem_of_find?_eq_some first
        rw [Solo.me, same] at fiber
        rw [woken, first]
        exact carry f k (noted.known_of_note old fiber) (noted.notes _ old f fiber)
  · rw [if_neg selects] at notes woken
    have queue := Scheduler.act_m_fibers (fun run pc => selects (by subst run; simp only [Solo.selects, pc]))
      (Workers.act_eq_some step).1
    refine ⟨sound, ?_, ?_, regs, ?_⟩
    · rw [notes, List.map_append, noted.queue]
      simp only [Solo.noted, List.map_map, Function.comp_def, List.map_id']
      exact queue.symm
    · intro n member f fiber
      rw [notes] at member
      rcases List.mem_append.mp member with old | new
      · exact carry f n.2 (noted.known_of_note old fiber) (noted.notes n old f fiber)
      · obtain ⟨ft, offers, rfl⟩ := List.mem_map.mp new
        obtain ⟨sameCb, sameState, why⟩ := offered_still acted (List.mem_filter.mp offers).1
        simp only at fiber ⊢
        rw [fiber] at why ⊢
        rw [Carries, cb, sameCb, Ended, Solo.scheduler, sameState]
        rcases why with woken | ⟨job, pc, mine⟩
        · obtain ⟨born, notIdle, busy⟩ := asked f woken
          exact noted.sound.carries born notIdle busy
        · exact noted.reschedule pc mine.symm
    · intro f fiber
      have old := ft_fiber_of_not_selects acted selects fiber
      rw [woken]
      exact carry f _ (.inr old) (noted.woken f old)

end Sylar.Solo
