import Sylar.FiberLife
import Sylar.SchedulerTurn
import Sylar.SoloSteady

/-! The assertions on the way through `Scheduler::run`, and how long that way is. -/

namespace Sylar
open Machine Tickets

variable {κ : Type}

/-- The job whose fiber the worker has entered and has not settled yet. -/
def RunPc.inside : RunPc → Option Job
  | .running job | .leaving job | .returned job | .settle job | .reschedule job | .hold job => some job
  | _ => none

/-- A bound on the steps that the worker makes before it selects again. -/
def RunPc.rank : RunPc → Nat
  | .select | .stopped => 0
  | .start | .reschedule _ | .hold _ | .recycle => 1
  | .settle _ => 2
  | .returned _ => 3
  | .leaving _ => 4
  | .running _ => 5
  | .swapIn _ => 6
  | .selected _ => 7

theorem RunPc.rank_le (pc : RunPc) : pc.rank ≤ 7 := by
  cases pc <;> simp [RunPc.rank]

namespace Scheduler

/-- The fiber is as `run` finds the fiber of a job that it has not entered: the switch into it and, for the
`cb_fiber`, its `reset` are allowed. -/
def Rests (s : Scheduler κ) (job : Job) (f : FiberId) : Prop :=
  s.m_state f ≠ .EXEC ∧ (job = .callback → s.Resettable f)

/-- The worker has the fibers that it is going to use, and they are in the states that the assertions ask for. -/
structure Equipped (s : Scheduler κ) (me : Worker κ) : Prop where
  idle : me.pc ≠ .start → me.idle_fiber.isSome
  job : ∀ job, me.pc.job = some job → (me.jobFiber job).isSome
  rests : ∀ job f, me.jobFiber job = some f → me.pc.inside ≠ some job → s.Rests job f

/-- The steps of the worker's own way: those of `run`, and those of the fiber that it runs. -/
def Act.own : Act κ → Bool
  | .newFiber | .schedule _ => false
  | _ => true

variable {s t : Scheduler κ} {me after : Worker κ} {thread : Int} {a : Act κ} {f g : FiberId} {job : Job}

theorem Resettable.not_exec (ready : s.Resettable f) : s.m_state f ≠ .EXEC := by
  intro exec
  rcases ready with state | state | state <;> cases exec.symm.trans state

theorem Rests.of_eq (rests : s.Rests job f) (same : t.m_state f = s.m_state f) : t.Rests job f := by
  rw [Rests, Resettable, same]
  exact rests

/-- Two jobs of a worker have different fibers. -/
theorem job_eq_of_nodup (nodup : me.holds.Nodup) {other : Job} (mine : me.jobFiber job = some f)
    (also : me.jobFiber other = some f) : job = other := by
  rw [Worker.holds] at nodup
  cases job <;> cases other <;> simp only [Worker.jobFiber] at mine also <;> simp_all [List.nodup_append]

/-- The worker writes the state of the fiber of one job; the fibers of its other jobs rest as before. -/
theorem Rests.setState {other : Job} {state : FiberState} (rests : s.Rests job f) (nodup : me.holds.Nodup)
    (mine : me.jobFiber job = some f) (written : me.jobFiber other = some g) (apart : other ≠ job) :
    (s.setState g state).Rests job f := by
  refine rests.of_eq (m_state_setState_of_ne fun same => apart ?_)
  exact job_eq_of_nodup nodup written (same ▸ mine)

/-- The worker goes on with the fibers that it has. -/
theorem Equipped.goto {p : RunPc} (equipped : s.Equipped me) (same : t.m_state = s.m_state) (started : me.pc ≠ .start)
    (job : ∀ job, p.job = some job → (me.jobFiber job).isSome)
    (inside : ∀ job, p.inside ≠ some job → me.pc.inside ≠ some job) : t.Equipped { me with pc := p } :=
  ⟨fun _ => equipped.idle started, job,
    fun j f fiber outside => (equipped.rests j f fiber (inside j outside)).of_eq (congrFun same f)⟩

/-- The worker drops its `ft`, and its `cb_fiber` if that was the job, and selects again. -/
theorem Equipped.again {job : Job} (equipped : s.Equipped me) (nodup : me.holds.Nodup) (pc : me.pc.inside = some job)
    (started : me.pc ≠ .start) (t : Scheduler κ) (same : ∀ g, me.jobFiber job ≠ some g → t.m_state g = s.m_state g)
    (idle : job = .idle → ∀ f, me.idle_fiber = some f → t.m_state f ≠ .EXEC) :
    t.Equipped { me with pc := .select, ft := {}, cb_fiber := if job = .callback then none else me.cb_fiber } := by
  refine ⟨fun _ => equipped.idle started, nofun, fun other f fiber _ => ?_⟩
  by_cases mine : other = job
  · subst mine
    cases other with
    | fiber => cases fiber
    | callback => cases fiber
    | idle => exact ⟨idle rfl f fiber, nofun⟩
  · have before : me.jobFiber other = some f := by
      cases other with
      | fiber => cases fiber
      | callback =>
        simp only [Worker.jobFiber] at fiber ⊢
        split at fiber
        · cases fiber
        · exact fiber
      | idle => exact fiber
    have outside : me.pc.inside ≠ some other := fun inside => mine (Option.some.inj (inside.symm.trans pc))
    refine (equipped.rests other f before outside).of_eq (same f fun also => mine ?_)
    exact job_eq_of_nodup nodup before also

theorem outside_of_pc {p : RunPc} (pc : me.pc = p) (none : p.inside = none) (job : Job) : me.pc.inside ≠ some job := by
  rw [pc, none]
  nofun

theorem m_state_newFiber_self (s : Scheduler κ) : s.newFiber.2.m_state s.fibers = .INIT := m_state_setState_self

theorem equipped_start (s : Scheduler κ) : s.newFiber.2.Equipped { pc := .select, idle_fiber := some s.fibers } := by
  refine ⟨fun _ => rfl, nofun, fun job f fiber _ => ?_⟩
  cases job with
  | idle =>
    cases Option.some.inj fiber
    rw [Rests, s.m_state_newFiber_self]
    exact ⟨nofun, nofun⟩
  | fiber | callback => cases fiber

/-- The worker has taken an entry. -/
theorem Equipped.entry {ft : FiberAndThread κ} {rest : List (FiberAndThread κ)} (equipped : s.Equipped me)
    (pc : me.pc = .select) (found : selectFrom s.m_state thread s.m_fibers = .entry ft rest)
    (accepted : ∀ ft ∈ s.m_fibers, ft.accepted) (same : t.m_state = s.m_state) :
    t.Equipped { me with pc := .selected true, ft := ft } := by
  refine ⟨fun _ => equipped.idle (pc ▸ nofun), nofun, fun job f fiber _ => ?_⟩
  cases job with
  | fiber =>
    -- the selection loop skips the fibers that are executing
    have finds := selectFrom_finds s.m_state thread accepted
    rw [found] at finds
    cases finds with
    | entry _ eligible => exact ⟨congrFun same f ▸ eligible.2 f fiber, nofun⟩
  | callback => exact (equipped.rests .callback f fiber (outside_of_pc pc rfl _)).of_eq (congrFun same f)
  | idle => exact (equipped.rests .idle f fiber (outside_of_pc pc rfl _)).of_eq (congrFun same f)

theorem Equipped.drop {is_active : Bool} (equipped : s.Equipped me) (pc : me.pc = .selected is_active)
    (same : t.m_state = s.m_state) : t.Equipped { me with pc := .select, ft := {} } := by
  refine ⟨fun _ => equipped.idle (pc ▸ nofun), nofun, fun job f fiber _ => ?_⟩
  cases job with
  | fiber => cases fiber
  | callback => exact (equipped.rests .callback f fiber (outside_of_pc pc rfl _)).of_eq (congrFun same f)
  | idle => exact (equipped.rests .idle f fiber (outside_of_pc pc rfl _)).of_eq (congrFun same f)

/-- The `cb_fiber` is reset or made, and the idle fiber keeps its state. -/
theorem Equipped.callback {is_active : Bool} (equipped : s.Equipped me) (pc : me.pc = .selected is_active)
    (new : t.m_state f = .INIT) (idle : ∀ g, me.idle_fiber = some g → t.m_state g = s.m_state g) :
    t.Equipped { me with pc := .swapIn .callback, ft := {}, cb_fiber := some f } := by
  refine ⟨fun _ => equipped.idle (pc ▸ nofun), fun job at_ => ?_, fun job g fiber _ => ?_⟩
  · cases Option.some.inj at_
    rfl
  cases job with
  | fiber => cases fiber
  | callback =>
    cases Option.some.inj fiber
    rw [Rests, Resettable, new]
    exact ⟨nofun, fun _ => .inr (.inl rfl)⟩
  | idle => exact (equipped.rests .idle g fiber (outside_of_pc pc rfl _)).of_eq (idle g fiber)

/-- The state of the fiber that the worker enters, or runs, is written. -/
theorem Equipped.writes {p q : RunPc} {state : FiberState} (equipped : s.Equipped me) (nodup : me.holds.Nodup)
    (pc : me.pc = p) (started : p ≠ .start) (before : ∀ other, other ≠ job → p.inside ≠ some other)
    (inside : q.inside = some job) (goes : q.job = some job) (fiber : me.jobFiber job = some g) :
    (s.setState g state).Equipped { me with pc := q } := by
  refine ⟨fun _ => equipped.idle (pc ▸ started), fun other at_ => ?_, fun other f held apart => ?_⟩
  · cases goes.symm.trans at_
    exact Option.isSome_iff_exists.mpr ⟨g, fiber⟩
  · have differs : job ≠ other := fun same => apart (same ▸ inside)
    exact (equipped.rests other f held (pc ▸ before other differs.symm)).setState nodup held fiber differs

/-- The function of the `cb_fiber` has ended, and the fiber is reset next. -/
theorem Equipped.endedCallback (equipped : s.Equipped me) (pc : me.pc = .settle .callback)
    (fiber : me.cb_fiber = some g) (states : s.m_state g = .TERM ∨ s.m_state g = .EXCEPT) :
    s.Equipped { me with pc := .recycle } := by
  refine ⟨fun _ => equipped.idle (pc ▸ nofun), fun job at_ => ?_, fun job f held _ => ?_⟩
  · cases Option.some.inj at_
    exact Option.isSome_iff_exists.mpr ⟨g, fiber⟩
  · by_cases mine : job = .callback
    · subst mine
      cases fiber.symm.trans held
      have resettable : s.Resettable g := states.imp id .inr
      exact ⟨resettable.not_exec, fun _ => resettable⟩
    · exact equipped.rests job f held fun inside => mine (Option.some.inj (pc ▸ inside).symm)

theorem Equipped.recycle (equipped : s.Equipped me) (nodup : me.holds.Nodup) (pc : me.pc = .recycle)
    (fiber : me.cb_fiber = some g) : (s.setState g .INIT).Equipped { me with pc := .select } := by
  refine ⟨fun _ => equipped.idle (pc ▸ nofun), nofun, fun job f held _ => ?_⟩
  by_cases mine : job = .callback
  · subst mine
    cases fiber.symm.trans held
    rw [Rests, Resettable, m_state_setState_self]
    exact ⟨nofun, fun _ => .inr (.inl rfl)⟩
  · have written : me.jobFiber .callback = some g := fiber
    exact (equipped.rests job f held (outside_of_pc pc rfl _)).setState nodup held written (Ne.symm mine)

/-- The worker goes on inside the same fiber. -/
theorem Equipped.goes {p q : RunPc} (equipped : s.Equipped me) (pc : me.pc = p) (same : t.m_state = s.m_state)
    (started : p ≠ .start) (job : q.job = p.job) (inside : q.inside = p.inside) : t.Equipped { me with pc := q } :=
  equipped.goto same (pc ▸ started) (fun j at_ => equipped.job j (pc ▸ job ▸ at_)) fun _ apart => pc ▸ inside ▸ apart

theorem Ran.keepsEquipped (ran : s.Ran thread me t after) (equipped : s.Equipped me) (nodup : me.holds.Nodup)
    (born : ∀ f ∈ me.holds, f < s.fibers) (accepted : ∀ ft ∈ s.m_fibers, ft.accepted)
    (notIdle : me.pc ≠ .reschedule .idle) : t.Equipped after := by
  cases ran with
  | start => exact s.equipped_start
  | nothing pc | stop pc => exact equipped.goto rfl (pc ▸ nofun) nofun fun job _ => outside_of_pc pc rfl job
  | idle pc =>
    refine equipped.goto rfl (pc ▸ nofun) (fun job at_ => ?_) fun job _ => outside_of_pc pc rfl job
    cases Option.some.inj at_
    exact equipped.idle (pc ▸ nofun)
  | drop pc => exact equipped.drop pc rfl
  | entry pc found => exact equipped.entry pc found accepted rfl
  | fiber pc fiber =>
    refine equipped.goto rfl (pc ▸ nofun) (fun job at_ => ?_) fun job _ => outside_of_pc pc rfl job
    cases Option.some.inj at_
    exact Option.isSome_iff_exists.mpr ⟨_, fiber⟩
  | resetCallback pc _ _ old =>
    refine equipped.callback pc m_state_setState_self fun g idle => m_state_setState_of_ne ?_
    rintro rfl
    have mine : me.jobFiber .callback = some g := old
    have also : me.jobFiber .idle = some g := idle
    cases job_eq_of_nodup nodup mine also
  | newCallback pc =>
    refine equipped.callback pc s.m_state_newFiber_self fun g idle => m_state_newFiber_of_ne ?_
    exact (born g (@mem_holds_of_jobFiber _ me g .idle idle)).ne
  | swapIn pc fiber => exact equipped.writes nodup pc nofun (fun _ _ => nofun) rfl rfl fiber
  | returnedIdle pc | returned pc | ready pc | suspended pc => exact equipped.goes pc rfl nofun rfl rfl
  | @ended job g pc fiber states notCallback =>
    have inside : me.pc.inside = some job := by rw [pc]; rfl
    have again := equipped.again nodup inside (pc ▸ nofun) s (fun _ _ => rfl) fun idle f held => by
      subst idle
      cases fiber.symm.trans held
      exact Resettable.not_exec (states.imp id .inr)
    rwa [if_neg notCallback] at again
  | endedCallback pc fiber states => exact equipped.endedCallback pc fiber states
  | @reschedule job pc =>
    have inside : me.pc.inside = some job := by rw [pc]; rfl
    refine equipped.again nodup inside (pc ▸ nofun) _ (fun _ _ => rfl) fun idle => ?_
    exact absurd (idle ▸ pc) notIdle
  | @hold job g pc fiber =>
    have inside : me.pc.inside = some job := by rw [pc]; rfl
    refine equipped.again nodup inside (pc ▸ nofun) _ (fun f other => ?_) fun idle f held => ?_
    · exact m_state_setState_of_ne fun same => other (same ▸ fiber)
    · subst idle
      cases fiber.symm.trans held
      rw [m_state_setState_self]
      nofun
  | recycle pc fiber => exact equipped.recycle nodup pc fiber

theorem Acted.keepsEquipped (acted : s.Acted thread me a t after) (equipped : s.Equipped me) (nodup : me.holds.Nodup)
    (born : ∀ f ∈ me.holds, f < s.fibers) (accepted : ∀ ft ∈ s.m_fibers, ft.accepted)
    (notIdle : me.pc ≠ .reschedule .idle) : t.Equipped after := by
  cases acted with
  | run ran => exact ran.keepsEquipped equipped nodup born accepted notIdle
  | leave _ pc fiber =>
    exact equipped.writes nodup pc nofun (fun _ apart same => apart (Option.some.inj same).symm) rfl rfl fiber
  | swapOut pc | switch pc => exact equipped.goes pc rfl nofun rfl rfl
  | newFiber =>
    refine ⟨equipped.idle, equipped.job, fun job f held apart => (equipped.rests job f held apart).of_eq ?_⟩
    exact m_state_newFiber_of_ne (born f (mem_holds_of_jobFiber held)).ne
  | schedule => exact ⟨equipped.idle, equipped.job, equipped.rests⟩

/-- The next step of the worker can be made: no assertion on its way fails, and no null pointer is used. -/
def Enabled (s : Scheduler κ) (thread : Int) (me : Worker κ) : Prop :=
  match me.pc with
  | .stopped => True
  | .running job => (∀ a : Act κ, a.writes.isSome → (s.act thread me a).isSome) ∧
      (job = .idle → (s.act thread me .swapOut).isSome)
  | .leaving _ => (s.act thread me .switch).isSome
  | _ => (s.act thread me .run).isSome

theorem Equipped.selected {is_active : Bool} (equipped : s.Equipped me) (pc : me.pc = .selected is_active) :
    (s.runStep thread me).isSome := by
  simp only [runStep, pc]
  split
  · rfl
  split
  · cases old : me.cb_fiber with
    | none => rfl
    | some f =>
      have rests := equipped.rests .callback f old (pc ▸ fun same => by cases same)
      have resettable : s.m_state f = .TERM ∨ s.m_state f = .INIT ∨ s.m_state f = .EXCEPT := rests.2 rfl
      simp [prepareCallback, resetFiber, resettable]
  split
  · rfl
  split <;> rfl

theorem Equipped.enabled (equipped : s.Equipped me) (accepted : ∀ ft ∈ s.m_fibers, ft.accepted)
    (exec : ∀ job f, me.pc = .running job → me.jobFiber job = some f → s.m_state f = .EXEC) : s.Enabled thread me := by
  have fiber : ∀ job p, me.pc = p → p.job = some job → ∃ f, me.jobFiber job = some f :=
    fun job p pc at_ => Option.isSome_iff_exists.mp (equipped.job job (pc ▸ at_))
  rw [Enabled]
  cases pc : me.pc with
  | start => simp [act, runStep, pc]
  | select =>
    have finds := selectFrom_finds s.m_state thread accepted
    simp only [act, runStep, pc]
    split
    · rename_i assertion
      rw [assertion] at finds
      cases finds
    · rfl
    · rfl
  | selected is_active => exact equipped.selected pc
  | swapIn job =>
    obtain ⟨f, held⟩ := fiber job _ pc rfl
    have notExec := (equipped.rests job f held (pc ▸ fun same => by cases same)).1
    simp [act, runStep, pc, held, notExec]
  | running job =>
    obtain ⟨f, held⟩ := fiber job _ pc rfl
    have executing := exec job f pc held
    refine ⟨fun a writes => ?_, ?_⟩
    · cases a with
      | YieldToReady | YieldToHold | finish | throw => simp [act, leave, pc, held, executing]
      | run | swapOut | switch | newFiber | schedule => cases writes
    · rintro rfl
      simp [act, pc]
  | leaving job => simp [act, pc]
  | returned job => cases job <;> simp [act, runStep, pc]
  | settle job =>
    obtain ⟨f, held⟩ := fiber job _ pc rfl
    simp only [act, runStep, pc, held, Option.bind_eq_bind, Option.bind_some]
    split
    · rfl
    split
    · rfl
    split <;> rfl
  | reschedule job => simp [act, runStep, pc]
  | hold job =>
    obtain ⟨f, held⟩ := fiber job _ pc rfl
    simp [act, runStep, pc, held]
  | recycle =>
    obtain ⟨f, held⟩ := fiber .callback _ pc rfl
    have rests := equipped.rests .callback f held (pc ▸ fun same => by cases same)
    have resettable : s.m_state f = .TERM ∨ s.m_state f = .INIT ∨ s.m_state f = .EXCEPT := rests.2 rfl
    have cb : me.cb_fiber = some f := held
    simp [act, runStep, pc, cb, resetFiber, resettable]
  | stopped => trivial

/-- Every step brings the worker nearer to its next selection. -/
theorem Acted.rank_lt (acted : s.Acted thread me a t after) (own : a.own) (other : me.pc ≠ .select) :
    after.pc.rank < me.pc.rank := by
  cases acted with
  | run ran =>
    cases ran with
    | nothing pc | entry pc => exact absurd pc other
    | start pc | fiber pc | resetCallback pc | newCallback pc | drop pc | stop pc | idle pc | swapIn pc | returnedIdle pc
    | returned pc | ready pc | suspended pc | ended pc | endedCallback pc | reschedule pc | hold pc | recycle pc =>
      rw [pc]
      simp [RunPc.rank]
  | leave _ pc | swapOut pc | switch pc =>
    rw [pc]
    simp [RunPc.rank]
  | newFiber | schedule => cases own

theorem Acted.run_of_select (acted : s.Acted thread me a t after) (own : a.own) (pc : me.pc = .select) : a = .run := by
  cases acted with
  | run => rfl
  | leave _ at_ | swapOut at_ | switch at_ => cases pc.symm.trans at_
  | newFiber | schedule => cases own

theorem Acted.pc_of_not_own (acted : s.Acted thread me a t after) (foreign : ¬ a.own) : after.pc = me.pc := by
  cases acted with
  | newFiber | schedule => rfl
  | @leave a _ _ _ writes =>
    have own : a.own = true := by
      cases a with
      | newFiber | schedule => cases writes
      | _ => rfl
    exact absurd own foreign
  | run | swapOut | switch => exact absurd rfl foreign

end Scheduler

namespace Workers

/-- Every worker has what it needs for its next step. -/
structure Secure (s : Workers κ) : Prop where
  apart : s.Apart
  expected : s.Expected
  accepted : ∀ ft ∈ s.scheduler.m_fibers, ft.accepted
  equipped : ∀ w, s.scheduler.Equipped (s.worker w)

/-- The worker `w` does not come to its selection. -/
def Unselected (w : Nat) (s : Workers κ) (l : Nat × Scheduler.Act κ) (_ : Workers κ) : Prop :=
  l.1 = w → (s.worker w).pc ≠ .select

variable {s t : Workers κ} {l : Nat × Scheduler.Act κ} {w : Nat}

theorem Secure.step (secure : s.Secure) (step : Guarded Step Untaken s l t) : t.Secure := by
  obtain ⟨mine, others⟩ := act_eq_some step.1
  have acted := Scheduler.act_acted mine
  refine ⟨secure.apart.step step, secure.expected.act secure.apart step.1, acted.accepted secure.accepted, fun v => ?_⟩
  by_cases here : v = l.1
  · subst here
    exact acted.keepsEquipped (secure.equipped _) (secure.apart.single.nodup _) (secure.apart.single.handsBorn _)
      secure.accepted (secure.apart.notIdle _)
  · rw [others v here]
    have equipped := secure.equipped v
    refine ⟨equipped.idle, equipped.job, fun job f fiber outside => (equipped.rests job f fiber outside).of_eq ?_⟩
    exact secure.apart.m_state_of_held step.1 here (Scheduler.mem_holds_of_jobFiber fiber)

theorem secure_init : Secure ({} : Workers κ) where
  apart := ⟨notIdle_init, placed_init.toSingle⟩
  expected _ _ _ _ := trivial
  accepted _ member := by cases member
  equipped _ := ⟨fun started => absurd rfl started, nofun, fun job _ fiber => by cases job <;> cases fiber⟩

theorem Secure.enabled (secure : s.Secure) (w : Nat) : s.scheduler.Enabled w (s.worker w) := by
  refine (secure.equipped w).enabled secure.accepted fun job f pc fiber => ?_
  have expects := secure.expected w job f fiber
  rw [pc] at expects
  exact expects rfl

/-- The steps of a worker up to its next selection. -/
theorem steps_le {ms : List (Nat × Scheduler.Act κ)} (run : Run (Guarded Step (Unselected w)) s ms t) :
    (ms.countP fun l => l.1 = w ∧ l.2.own) + (t.worker w).pc.rank ≤ (s.worker w).pc.rank := by
  induction run with
  | start => simp
  | @next ms t l u _ step ih =>
    obtain ⟨mine, others⟩ := act_eq_some step.1
    rw [List.countP_append, List.countP_singleton]
    by_cases here : w = l.1
    · subst here
      split
      · rename_i own
        have nearer := (Scheduler.act_acted mine).rank_lt (of_decide_eq_true own).2 (step.2 rfl)
        omega
      · rename_i foreign
        rw [(Scheduler.act_acted mine).pc_of_not_own fun own => foreign (decide_eq_true ⟨rfl, own⟩)]
        exact ih
    · rw [others w here, if_neg fun own => here (of_decide_eq_true own).1.symm]
      exact ih

/-- A function is scheduled, and the worker 0 enters it. -/
def entersCallback : List (Nat × Scheduler.Act Nat) :=
  [(0, .run), (0, .schedule { cb := some 7 }), (0, .run), (0, .run), (0, .run)]

/-- The steps of a worker's own way among the calls. -/
def ownCall : Scheduler.Call κ → Bool
  | .act a => a.own
  | _ => false

/-- Whenever the worker `w` selects, it could take the entry. -/
def Serves (w : Nat) (ft : FiberAndThread κ) (s : Workers κ) (l : Nat × Scheduler.Call κ) (_ : Workers κ) : Prop :=
  l.1 = w → s.Selects l → ft.Eligible s.scheduler.m_state w

section
variable {ft : FiberAndThread κ} {c : Scheduler.Call κ} {v : Nat}

theorem worker_of_call (done : s.call v c = some t) (foreign : ¬ (v = w ∧ ownCall c)) :
    (t.worker w).pc = (s.worker w).pc := by
  have act : ∀ a, s.act v a = some t → ¬ (v = w ∧ a.own) → (t.worker w).pc = (s.worker w).pc := by
    intro a done foreign
    obtain ⟨mine, others⟩ := act_eq_some done
    by_cases here : w = v
    · subst here
      exact (Scheduler.act_acted mine).pc_of_not_own fun own => foreign ⟨rfl, own⟩
    · rw [others w here]
  cases c with
  | act a => exact act a done foreign
  | schedule fc thread => exact act (.schedule (fc.entry thread).1) done nofun
  | scheduleRange range => rw [scheduleRange_eq_some done]

theorem pc_of_selects {a : Scheduler.Act κ} (selects : s.Selects (v, .act a)) : (s.worker v).pc = .select := by
  cases a with
  | run => exact selects
  | _ => cases selects

/-- A worker selects once in eight steps of its own, and each of its selections is a chance. -/
theorem steps_le_chances {ms : List (Nat × Scheduler.Call κ)} (run : Run (Guarded CallStep (Serves w ft)) s ms t) :
    ∃ k, Run (ChanceStep ft) (s, 0) ms (t, k) ∧
      (ms.countP fun l => l.1 = w ∧ ownCall l.2) + (t.worker w).pc.rank ≤ (s.worker w).pc.rank + 8 * k := by
  induction run with
  | start => exact ⟨0, .start, by simp⟩
  | @next ms t l u _ step ih =>
    obtain ⟨k, run, bound⟩ := ih
    obtain ⟨v, c⟩ := l
    have above := (u.worker w).pc.rank_le
    rw [List.countP_append, List.countP_singleton]
    by_cases own : v = w ∧ ownCall c
    · obtain ⟨rfl, ownStep⟩ := own
      have counted : decide (v = v ∧ ownCall c = true) = true := decide_eq_true ⟨rfl, ownStep⟩
      rw [if_pos counted]
      cases c with
      | act a =>
        have acted := Scheduler.act_acted (act_eq_some step.1).1
        by_cases pc : (t.worker v).pc = .select
        · have select : a = .run := acted.run_of_select ownStep pc
          subst select
          have least : (t.worker v).pc.rank = 0 := by rw [pc]; rfl
          exact ⟨k + 1, .next run (.chance step.1 ⟨pc, step.2 rfl pc⟩), by omega⟩
        · have nearer := acted.rank_lt ownStep pc
          have other : ¬ t.Chance (v, .act a) ft := fun chance => pc (pc_of_selects chance.1)
          refine ⟨k, .next run (.other step.1 other), ?_⟩
          simp only at nearer ⊢
          omega
      | schedule | scheduleRange => cases ownStep
    · rw [if_neg (by simpa using own), worker_of_call step.1 own]
      by_cases chance : t.Chance (v, c) ft
      · exact ⟨k + 1, .next run (.chance step.1 chance), by omega⟩
      · exact ⟨k, .next run (.other step.1 chance), by omega⟩

/-- Every task gets its turn. From a reachable state on, however the steps of the workers and the calls of `schedule`
are interleaved, an entry with `p` entries before it has been taken by the time that some worker has made `8 * (p + 1)`
steps of its own, if this worker could take the entry whenever it selected: for an entry with a function that is, if it
is meant for this worker or for any. -/
theorem taken_of_steps {ls ms : List (Nat × Scheduler.Call κ)} {front back : List (FiberAndThread κ)}
    (reach : Run CallStep {} ls s) (shape : s.scheduler.m_fibers = front ++ ft :: back)
    (run : Run (Guarded CallStep (Serves w ft)) s ms t)
    (steps : 8 * (front.length + 1) ≤ ms.countP fun l => l.1 = w ∧ ownCall l.2) :
    ∃ b n c, Run Booked ({}, {}) ls (s, b) ∧ b.queue[front.length]? = some (ft, n) ∧ Run Booked (s, b) ms (t, c) ∧
      n ∈ c.taken.map Prod.fst := by
  obtain ⟨k, counted, bound⟩ := steps_le_chances run
  have before := (s.worker w).pc.rank_le
  obtain ⟨b, n, c, booked, ticket, more, -, turn⟩ := exists_turn reach shape counted
  exact ⟨b, n, c, booked, ticket, more, turn.taken_of_lt (by omega)⟩

end

/-- The worker 0 is in its loop when a function is put into the queue. -/
def oneQueued : List (Nat × Scheduler.Call Nat) := [(0, .act .run), (0, .schedule (.cb (some 7)) (-1))]

/-- Eight steps, up to the decrement and a bit further. -/
def eightSteps : List (Nat × Scheduler.Call Nat) :=
  [(0, .act .run), (0, .act .run), (0, .act .run), (0, .act .finish), (0, .act .switch), (0, .act .run), (0, .act .run),
   (0, .act .run)]

theorem taken_of_steps_callback : ∃ (s t : Workers Nat) (b c : Book (FiberAndThread Nat) Nat) (n : Nat),
    Run Booked ({}, {}) oneQueued (s, b) ∧ b.queue[0]? = some ({ cb := some 7 }, n) ∧
      Run Booked (s, b) eightSteps (t, c) ∧ n ∈ c.taken.map Prod.fst := by
  have runs : ∃ s t : Workers Nat, acts (fun s l => s.call l.1 l.2) {} oneQueued = some s ∧
      acts (fun s l => s.call l.1 l.2) s eightSteps = some t ∧
      s.scheduler.m_fibers = [] ++ { cb := some 7 } :: [] := ⟨_, _, rfl, rfl, rfl⟩
  obtain ⟨s, t, queued, done, shape⟩ := runs
  have served : Run (Guarded CallStep (Serves 0 { cb := some 7 })) s eightSteps t :=
    (run_of_acts _ done).mono fun u l v step => ⟨step, fun _ _ => ⟨.inl rfl, nofun⟩⟩
  obtain ⟨b, n, c, booked, ticket, more, taken⟩ := taken_of_steps (run_of_acts _ queued) shape served (by decide)
  exact ⟨s, t, b, c, n, booked, ticket, more, taken⟩

end Workers
end Sylar
