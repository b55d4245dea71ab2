import Sylar.SchedulerCounts

/-! The idle fiber of a worker is a local variable of `Scheduler::run`. As long as nobody schedules
it, it is in no queue entry and in the hands of no other worker. -/

namespace Sylar

variable {κ : Type}

namespace Scheduler

variable {s t : Scheduler κ} {me after : Worker κ} {thread : Int} {a : Act κ}

/-- A worker keeps the idle fiber that it made at the start. -/
theorem Acted.idle_fiber (acted : s.Acted thread me a t after) :
    (after.idle_fiber = me.idle_fiber ∧ s.fibers ≤ t.fibers) ∨
    (after.idle_fiber = some s.fibers ∧ t.fibers = s.fibers + 1 ∧ t.m_state s.fibers = .INIT ∧
      after.ft.fiber = none ∧ after.cb_fiber = none) := by
  cases acted with
  | run ran =>
    cases ran with
    | start => exact .inr ⟨rfl, rfl, Function.update_self .., rfl, rfl⟩
    | newCallback => exact .inl ⟨rfl, Nat.le_succ _⟩
    | _ => exact .inl ⟨rfl, Nat.le_refl _⟩
  | newFiber => exact .inl ⟨rfl, Nat.le_succ _⟩
  | leave | swapOut | switch | schedule => exact .inl ⟨rfl, Nat.le_refl _⟩

/-- The fiber of `ft` comes from the queue. -/
theorem Acted.ft_fiber {f : FiberId} (acted : s.Acted thread me a t after) (fiber : after.ft.fiber = some f) :
    me.ft.fiber = some f ∨ ∃ ft ∈ s.m_fibers, ft.fiber = some f := by
  cases acted with
  | run ran =>
    cases ran with
    | start | resetCallback | newCallback | drop | ended | reschedule | hold => cases fiber
    | entry _ found => exact .inr ⟨_, (selectFrom_entry found).mem_iff.mpr List.mem_cons_self, fiber⟩
    | _ => exact .inl fiber
  | leave | swapOut | switch | newFiber | schedule => exact .inl fiber

/-- A worker makes its `cb_fiber` itself. -/
theorem Acted.cb_fiber {f : FiberId} (acted : s.Acted thread me a t after) (fiber : after.cb_fiber = some f) :
    me.cb_fiber = some f ∨ f = s.fibers ∧ t.fibers = s.fibers + 1 ∧ after.idle_fiber = me.idle_fiber := by
  cases acted with
  | run ran =>
    cases ran with
    | start => cases fiber
    | resetCallback _ _ _ old => exact .inl (old.trans fiber)
    | newCallback => exact .inr ⟨(Option.some.inj fiber).symm, rfl, rfl⟩
    | reschedule | hold =>
      simp only at fiber
      split at fiber
      · cases fiber
      · exact .inl fiber
    | _ => exact .inl fiber
  | leave | swapOut | switch | newFiber | schedule => exact .inl fiber

/-- What a step puts into the queue the worker had in its hands, or it was handed to `schedule`. -/
theorem Acted.m_fibers {ft : FiberAndThread κ} (acted : s.Acted thread me a t after) (member : ft ∈ t.m_fibers) :
    ft ∈ s.m_fibers ∨ a = .schedule ft ∨ ∃ job, me.pc = .reschedule job ∧ ft.fiber = me.jobFiber job := by
  cases acted with
  | run ran =>
    cases ran with
    | entry _ found => exact .inl ((selectFrom_entry found).mem_iff.mpr (List.mem_cons_of_mem _ member))
    | reschedule pc =>
      rw [m_fibers_schedule] at member
      rcases List.mem_append.mp member with old | new
      · exact .inl old
      · rw [List.mem_singleton.mp (List.mem_filter.mp new).1]
        exact .inr (.inr ⟨_, pc, rfl⟩)
    | _ => exact .inl member
  | schedule =>
    rw [m_fibers_schedule] at member
    rcases List.mem_append.mp member with old | new
    · exact .inl old
    · exact .inr (.inl (by rw [List.mem_singleton.mp (List.mem_filter.mp new).1]))
  | leave | swapOut | switch | newFiber => exact .inl member

/-- Only a fiber that finishes becomes `TERM`. -/
theorem Acted.term {g : FiberId} (acted : s.Acted thread me a t after) (term : t.m_state g = .TERM) :
    s.m_state g = .TERM ∨ a = .finish ∧ ∃ job, me.pc = .running job ∧ me.jobFiber job = some g := by
  cases acted with
  | run ran =>
    cases ran with
    | start | newCallback => exact .inl (m_state_of_newFiber term (by decide))
    | resetCallback | recycle | swapIn | hold => exact .inl (m_state_of_setState term (by decide)).2
    | _ => exact .inl term
  | @leave _ state job f writes pc fiber =>
    by_cases same : g = f
    · cases a with
      | finish => exact .inr ⟨rfl, job, pc, same ▸ fiber⟩
      | YieldToReady | YieldToHold | throw =>
        cases writes
        exact .inl (m_state_of_setState term (by decide)).2
      | _ => cases writes
    · rw [m_state_setState_of_ne same] at term
      exact .inl term
  | newFiber => exact .inl (m_state_of_newFiber term (by decide))
  | swapOut | switch | schedule => exact .inl term

end Scheduler

namespace Workers

/-- A fiber that somebody but `Scheduler::run` can have a pointer to: it has been made, and it is
not the local `idle_fiber` of a worker, which the idle functions hand to nobody. -/
def Named (s : Workers κ) (f : FiberId) : Prop := f < s.scheduler.fibers ∧ ∀ w, (s.worker w).idle_fiber ≠ some f

/-- Only its own worker has an idle fiber. -/
structure Private (s : Workers κ) : Prop where
  notIdle : s.NotIdle
  tidy : ∀ w, (s.worker w).Tidy
  queue : ∀ ft ∈ s.scheduler.m_fibers, ∀ f, ft.fiber = some f → s.Named f
  ft : ∀ w f, (s.worker w).ft.fiber = some f → s.Named f
  cb : ∀ w f, (s.worker w).cb_fiber = some f → s.Named f
  born : ∀ w f, (s.worker w).idle_fiber = some f → f < s.scheduler.fibers
  once : ∀ v w f, (s.worker v).idle_fiber = some f → (s.worker w).idle_fiber = some f → v = w

variable {s t : Workers κ} {w : Nat} {a : Scheduler.Act κ}

theorem Private.jobFiber {s : Workers κ} (apart : s.Private) {w : Nat} {job : Job} {f : FiberId} (notIdle : job ≠ .idle)
    (fiber : (s.worker w).jobFiber job = some f) : s.Named f := by
  cases job with
  | fiber => exact apart.ft w f fiber
  | callback => exact apart.cb w f fiber
  | idle => exact absurd rfl notIdle

/-- An idle fiber is an old one, or the worker makes it with this step. -/
theorem act_idle_fiber (done : s.act w a = some t) {v : Nat} {f : FiberId}
    (held : (t.worker v).idle_fiber = some f) :
    (s.worker v).idle_fiber = some f ∨ v = w ∧ f = s.scheduler.fibers ∧
      t.scheduler.fibers = s.scheduler.fibers + 1 ∧ t.scheduler.m_state f = .INIT ∧
      (t.worker w).ft.fiber = none ∧ (t.worker w).cb_fiber = none := by
  obtain ⟨mine, others⟩ := act_eq_some done
  by_cases same : v = w
  · subst same
    rcases (Scheduler.act_acted mine).idle_fiber with ⟨kept, -⟩ | ⟨fresh, grows, init, ft, cb⟩
    · exact .inl (kept ▸ held)
    · cases Option.some.inj (fresh.symm.trans held)
      exact .inr ⟨rfl, rfl, grows, init, ft, cb⟩
  · exact .inl (others v same ▸ held)

theorem act_fibers (done : s.act w a = some t) : s.scheduler.fibers ≤ t.scheduler.fibers := by
  rcases (Scheduler.act_acted (act_eq_some done).1).idle_fiber with ⟨-, grows⟩ | ⟨-, grows, -⟩
  · exact grows
  · exact grows ▸ Nat.le_succ _

theorem Named.act {f : FiberId} (named : s.Named f) (done : s.act w a = some t) : t.Named f := by
  refine ⟨Nat.lt_of_lt_of_le named.1 (act_fibers done), fun v held => ?_⟩
  rcases act_idle_fiber done held with old | ⟨-, fresh, -⟩
  · exact named.2 v old
  · exact Nat.ne_of_lt named.1 fresh

theorem Private.act (apart : s.Private) (done : s.act w a = some t) (names : ∀ f, a.woken = some f → s.Named f) :
    t.Private := by
  obtain ⟨mine, others⟩ := act_eq_some done
  have acted := Scheduler.act_acted mine
  have keep : ∀ f, s.Named f → t.Named f := fun f named => named.act done
  refine ⟨NotIdle.step (l := (w, a)) apart.notIdle done, ?_, ?_, ?_, ?_, ?_, ?_⟩
  · intro v
    by_cases same : v = w
    · exact same ▸ acted.tidy (apart.tidy w)
    · exact others v same ▸ apart.tidy v
  · intro ft member f fiber
    rcases acted.m_fibers member with old | scheduled | ⟨job, pc, back⟩
    · exact keep f (apart.queue ft old f fiber)
    · exact keep f (names f (scheduled ▸ fiber))
    · have notIdle : job ≠ .idle := fun idle => apart.notIdle w (idle ▸ pc)
      exact keep f (apart.jobFiber notIdle (back ▸ fiber))
  · intro v f fiber
    by_cases same : v = w
    · subst same
      rcases acted.ft_fiber fiber with old | ⟨ft, member, taken⟩
      · exact keep f (apart.ft v f old)
      · exact keep f (apart.queue ft member f taken)
    · exact keep f (apart.ft v f (others v same ▸ fiber))
  · intro v f fiber
    by_cases same : v = w
    · subst same
      rcases acted.cb_fiber fiber with old | ⟨rfl, grows, kept⟩
      · exact keep f (apart.cb v f old)
      · refine ⟨grows ▸ Nat.lt_succ_self _, fun u held => ?_⟩
        -- the idle fibers were made before this one
        rcases act_idle_fiber done held with old | ⟨-, -, -, -, -, none⟩
        · exact Nat.lt_irrefl _ (apart.born u _ old)
        · cases none.symm.trans fiber
    · exact keep f (apart.cb v f (others v same ▸ fiber))
  · intro v f held
    rcases act_idle_fiber done held with old | ⟨-, fresh, grows, -⟩
    · exact Nat.lt_of_lt_of_le (apart.born v f old) (act_fibers done)
    · rw [fresh, grows]
      exact Nat.lt_succ_self _
  · intro u v f first second
    rcases act_idle_fiber done first with oldU | ⟨rfl, freshU, -⟩
    · rcases act_idle_fiber done second with oldV | ⟨-, freshV, -⟩
      · exact apart.once u v f oldU oldV
      · exact absurd freshV (Nat.ne_of_lt (apart.born u f oldU))
    · rcases act_idle_fiber done second with oldV | ⟨rfl, -⟩
      · exact absurd freshU (Nat.ne_of_lt (apart.born v f oldV))
      · rfl

/-- An idle fiber is `TERM` only once it has finished on its own worker. -/
theorem Private.idle_term (apart : s.Private) (done : s.act w a = some t) {v : Nat} {f : FiberId}
    (held : (t.worker v).idle_fiber = some f) (term : t.scheduler.m_state f = .TERM) :
    ((s.worker v).idle_fiber = some f ∧ s.scheduler.m_state f = .TERM) ∨
      v = w ∧ a = .finish ∧ (s.worker w).pc = .running .idle := by
  rcases act_idle_fiber done held with old | ⟨-, -, -, init, -⟩
  · rcases (Scheduler.act_acted (act_eq_some done).1).term term with before | ⟨rfl, job, pc, fiber⟩
    · exact .inl ⟨old, before⟩
    · cases job with
      | idle => exact .inr ⟨apart.once v w f old fiber, rfl, pc⟩
      | fiber | callback => exact absurd old ((apart.jobFiber (by decide) fiber).2 v)
  · cases init.symm.trans term

theorem private_init : Private ({} : Workers κ) where
  notIdle := notIdle_init
  tidy _ _ := rfl
  queue _ member := by cases member
  ft _ _ fiber := by cases fiber
  cb _ _ fiber := by cases fiber
  born _ _ held := by cases held
  once _ _ _ held := by cases held

/-- What a call puts into the queue. -/
def wakes (c : Scheduler.Call κ) (f : FiberId) : Prop :=
  match c with
  | .act a => a.woken = some f
  | .schedule fc thread => (fc.entry thread).1.fiber = some f
  | .scheduleRange range => ∃ ft ∈ range.entries, ft.fiber = some f

theorem Named.call {c : Scheduler.Call κ} {f : FiberId} (named : s.Named f) (done : s.call w c = some t) :
    t.Named f := by
  cases c with
  | act a => exact named.act done
  | schedule fc thread => exact named.act (a := .schedule (fc.entry thread).1) done
  | scheduleRange range =>
    rw [scheduleRange_eq_some done]
    exact named

theorem Private.call {c : Scheduler.Call κ} (apart : s.Private) (done : s.call w c = some t)
    (names : ∀ f, wakes c f → s.Named f) : t.Private := by
  cases c with
  | act a => exact apart.act done names
  | schedule fc thread => exact apart.act (a := .schedule (fc.entry thread).1) done names
  | scheduleRange range =>
    rw [scheduleRange_eq_some done]
    refine ⟨apart.notIdle, apart.tidy, ?_, apart.ft, apart.cb, apart.born, apart.once⟩
    intro ft member f fiber
    rw [Scheduler.m_fibers_scheduleRange] at member
    rcases List.mem_append.mp member with old | new
    · exact apart.queue ft old f fiber
    · exact names f ⟨ft, (List.mem_filter.mp new).1, fiber⟩

end Workers
end Sylar
