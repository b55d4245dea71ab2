import Sylar.Lib.Tally
import Sylar.SchedulerExclusive
import Sylar.SchedulerPrivate

/-! The pointers to the fibers: when a fiber is destroyed, and what `Fiber::TotalFibers` counts. -/

namespace Sylar
open Machine Tally

variable {κ : Type}

/-- The function of the fiber has been entered and has not come to its end. -/
def FiberState.Live (state : FiberState) : Prop := state = .EXEC ∨ state = .HOLD ∨ state = .READY

theorem FiberState.not_live {state : FiberState} (dead : state = .INIT ∨ state = .TERM ∨ state = .EXCEPT)
    : ¬ state.Live := by
  rintro (live | live | live) <;> rcases dead with dead | dead | dead <;> cases live.symm.trans dead

/-- What the state of the fiber of a job is while the worker is at it. -/
def RunPc.Expects : RunPc → Job → FiberState → Prop
  | .running j, job, state => j = job → state = .EXEC
  | .leaving j, job, state | .returned j, job, state | .settle j, job, state => j = job → state ≠ .INIT
  | .hold j, job, state => j = job → state.Live
  | _, _, _ => True

/-- The fiber into whose context the worker switches. -/
def Worker.switches (me : Worker κ) : Scheduler.Act κ → Option FiberId
  | .run =>
    match me.pc with
    | .swapIn job => me.jobFiber job
    | _ => none
  | _ => none

theorem Worker.switches_eq_some {me : Worker κ} {a : Scheduler.Act κ} {f : FiberId} (entered : me.switches a = some f) :
    ∃ job, me.pc = .swapIn job ∧ me.jobFiber job = some f := by
  cases a with
  | run =>
    simp only [Worker.switches] at entered
    split at entered
    · rename_i job pc
      exact ⟨job, pc, entered⟩
    · cases entered
  | _ => cases entered

/-- The fiber that comes to the end of `Fiber::MainFunc`. -/
def Worker.ends (me : Worker κ) : Scheduler.Act κ → Option FiberId
  | .finish | .throw =>
    match me.pc with
    | .running job => me.jobFiber job
    | _ => none
  | _ => none

/-- The scheduler with the pointers to fibers that are not in its queue and not local to `Scheduler::run`:
the `cur` of `Fiber::MainFunc`, and those that tasks, events and callers keep. -/
structure FiberLife (κ : Type) where
  workers : Workers κ := {}
  cur : FiberId → Bool := fun _ => false
  kept : FiberId → Nat := fun _ => 0
  alive : FiberId → Bool := fun _ => false
  s_fiber_count : Int := 0

namespace FiberLife

abbrev scheduler (s : FiberLife κ) : Scheduler κ := s.workers.scheduler

/-- Somebody has a `Fiber::ptr` to the fiber. The local variables of `Scheduler::run` go with its end. -/
def Referenced (s : FiberLife κ) (f : FiberId) : Prop :=
  f ∈ s.scheduler.queued ∨ (∃ w, (s.workers.worker w).pc ≠ .stopped ∧ f ∈ (s.workers.worker w).holds) ∨
    s.cur f = true ∨ 0 < s.kept f

/-- A step of a worker or of a caller; a pointer is copied; a copy goes out of scope; and the destructor. -/
inductive Op (κ : Type)
  | act (w : Nat) (a : Scheduler.Act κ)
  | keep (f : FiberId)
  | drop (f : FiberId)
  | destroy (f : FiberId)

/-- `MainFunc` takes `cur` when it starts, and resets it when it ends. -/
def curAfter (s : FiberLife κ) (w : Nat) (a : Scheduler.Act κ) : FiberId → Bool :=
  match (s.workers.worker w).switches a, (s.workers.worker w).ends a with
  | some f, _ => Function.update s.cur f true
  | none, some f => Function.update s.cur f false
  | none, none => s.cur

/-- Behind the end of `MainFunc` an assertion fails. -/
def Resumable (s : FiberLife κ) (w : Nat) (a : Scheduler.Act κ) : Prop :=
  ∀ f, (s.workers.worker w).switches a = some f → s.scheduler.m_state f ≠ .TERM ∧ s.scheduler.m_state f ≠ .EXCEPT

instance (s : FiberLife κ) (w : Nat) (a : Scheduler.Act κ) : Decidable (s.Resumable w a) :=
  match switched : (s.workers.worker w).switches a with
  | none => isTrue fun f same => by rw [switched] at same; cases same
  | some f => decidable_of_iff (s.scheduler.m_state f ≠ .TERM ∧ s.scheduler.m_state f ≠ .EXCEPT) <| by
      rw [Resumable, switched]
      exact ⟨fun live g same => Option.some.inj same ▸ live, fun all => all f rfl⟩

/-- A fiber that is not made by `Scheduler::run` is kept by who has made it. -/
def keptAfter (s : FiberLife κ) : Scheduler.Act κ → FiberId → Nat
  | .newFiber => Function.update s.kept s.scheduler.fibers 1
  | _ => s.kept

/-- The constructor of `Fiber` counts the fiber, and the destructor asserts that it is not suspended. -/
def op (s : FiberLife κ) : Op κ → Option (FiberLife κ)
  | .act w a =>
    if s.Resumable w a then do
      let workers ← s.workers.act w a
      let t := { s with workers, cur := s.curAfter w a }
      if workers.scheduler.fibers = s.scheduler.fibers then return t
      else return { t with
        alive := Function.update s.alive s.scheduler.fibers true
        s_fiber_count := s.s_fiber_count + 1
        kept := s.keptAfter a }
    else none
  | .keep f => some { s with kept := Function.update s.kept f (s.kept f + 1) }
  | .drop f => some { s with kept := Function.update s.kept f (s.kept f - 1) }
  | .destroy f =>
    if s.scheduler.m_state f = .TERM ∨ s.scheduler.m_state f = .INIT ∨ s.scheduler.m_state f = .EXCEPT then
      some { s with alive := Function.update s.alive f false, s_fiber_count := s.s_fiber_count - 1 }
    else none

/-- A pointer comes from a pointer, and the last one to go destroys the fiber. -/
def Allowed (s : FiberLife κ) : Op κ → Prop
  | .act _ (.schedule ft) => ∀ f, ft.fiber = some f → s.Referenced f
  | .act _ _ => True
  | .keep f => s.Referenced f
  | .drop f => 0 < s.kept f
  | .destroy f => s.alive f = true ∧ ¬ s.Referenced f

def Step (s : FiberLife κ) (o : Op κ) (t : FiberLife κ) : Prop := s.Allowed o ∧ s.op o = some t

/-- No worker takes a fiber off the queue that some worker has in its hands. -/
def Untaken (s : FiberLife κ) (o : Op κ) (t : FiberLife κ) : Prop :=
  match o with
  | .act w a => s.workers.Untaken (w, a) t.workers
  | _ => True

end FiberLife

namespace Scheduler
variable {s t : Scheduler κ} {me after : Worker κ} {thread : Int} {a : Act κ} {f g : FiberId} {job : Job}

theorem mem_holds_of_jobFiber (fiber : me.jobFiber job = some f) : f ∈ me.holds := by
  cases job <;> simp only [Worker.jobFiber] at fiber <;> simp [Worker.holds, fiber]

/-- A worker that has left `run` does not come back. -/
theorem Acted.stays_stopped (acted : s.Acted thread me a t after) (pc : me.pc = .stopped) : after = me := by
  cases acted with
  | run ran => cases ran <;> simp_all
  | leave _ at_ => cases pc.symm.trans at_
  | swapOut at_ => cases pc.symm.trans at_
  | switch at_ => cases pc.symm.trans at_
  | newFiber | schedule => rfl

/-- A step makes no fiber or one. -/
theorem Acted.fibers (acted : s.Acted thread me a t after) : t.fibers = s.fibers ∨ t.fibers = s.fibers + 1 := by
  cases acted with
  | run ran =>
    cases ran with
    | start | newCallback => exact .inr rfl
    | _ => exact .inl rfl
  | newFiber => exact .inr rfl
  | _ => exact .inl rfl

/-- A step writes the state of a fiber that the worker has in its hands, or of one that it makes. -/
theorem Acted.m_state (acted : s.Acted thread me a t after) (free : g ∉ me.holds) :
    t.m_state g = s.m_state g ∨ g = s.fibers ∧ t.fibers = s.fibers + 1 ∧ t.m_state g = .INIT := by
  have mine : ∀ {f : FiberId} {state : FiberState}, f ∈ me.holds → (s.setState f state).m_state g = s.m_state g :=
    fun held => m_state_setState_of_ne fun same => free (same ▸ held)
  have made : s.newFiber.2.m_state g = s.m_state g ∨
      g = s.fibers ∧ s.newFiber.2.fibers = s.fibers + 1 ∧ s.newFiber.2.m_state g = .INIT := by
    by_cases new : g = s.fibers
    · exact .inr ⟨new, rfl, new ▸ m_state_setState_self⟩
    · exact .inl (m_state_newFiber_of_ne new)
  cases acted with
  | run ran =>
    cases ran with
    | start | newCallback => exact made
    | resetCallback _ _ _ old | recycle _ old => exact .inl (mine (@mem_holds_of_jobFiber _ _ _ .callback old))
    | swapIn _ fiber | hold _ fiber => exact .inl (mine (mem_holds_of_jobFiber fiber))
    | _ => exact .inl rfl
  | leave _ _ fiber => exact .inl (mine (mem_holds_of_jobFiber fiber))
  | newFiber => exact made
  | _ => exact .inl rfl

/-- The worker finds the fiber of its job as it expects it, if it did so before. -/
theorem Acted.expects (acted : s.Acted thread me a t after) (born : ∀ f ∈ me.holds, f < s.fibers)
    (expects : ∀ job f, me.jobFiber job = some f → me.pc.Expects job (s.m_state f)) :
    ∀ job f, after.jobFiber job = some f → after.pc.Expects job (t.m_state f) := by
  intro job f fiber
  cases acted with
  | run ran =>
    cases ran with
    | swapIn pc held =>
      rintro rfl
      cases held.symm.trans fiber
      exact m_state_setState_self
    | returnedIdle pc =>
      have before := expects job f fiber
      rw [pc] at before
      exact before
    | returned pc =>
      have before := expects job f fiber
      rw [pc] at before
      exact before
    | suspended pc held _ notTerm notExcept =>
      rintro rfl
      have before := expects _ f fiber
      rw [pc] at before
      have notInit := before rfl
      cases held.symm.trans fiber
      rw [FiberState.Live]
      cases state : s.m_state f with
      | INIT => exact absurd state notInit
      | TERM => exact absurd state notTerm
      | EXCEPT => exact absurd state notExcept
      | EXEC => exact .inl rfl
      | HOLD => exact .inr (.inl rfl)
      | READY => exact .inr (.inr rfl)
    | _ => trivial
  | @leave _ state job' g writes pc held =>
    rintro rfl
    cases held.symm.trans fiber
    rw [m_state_setState_self]
    cases a <;> cases writes <;> exact nofun
  | swapOut pc =>
    rintro rfl
    have before := expects .idle f fiber
    rw [pc] at before
    rw [before rfl]
    exact nofun
  | switch pc =>
    have before := expects job f fiber
    rw [pc] at before
    exact before
  | newFiber =>
    rw [m_state_newFiber_of_ne (born f (mem_holds_of_jobFiber fiber)).ne]
    exact expects job f fiber
  | schedule => exact expects job f fiber

theorem live_newFiber (s : Scheduler κ) (f : FiberId) :
    (s.newFiber.2.m_state f).Live ↔ (s.m_state f).Live ∧ (s.newFiber.2.fibers = s.fibers ∨ f ≠ s.fibers) := by
  by_cases new : f = s.fibers
  · have init : s.newFiber.2.m_state f = .INIT := new ▸ m_state_setState_self
    have more : s.newFiber.2.fibers ≠ s.fibers := Nat.succ_ne_self _
    refine iff_of_false ?_ fun old => old.2.elim more fun other => other new
    rw [init]
    exact FiberState.not_live (.inl rfl)
  · rw [m_state_newFiber_of_ne new]
    exact (and_iff_left (.inr new)).symm

/-- A write of a state that leaves it open whether the fiber is live. -/
theorem live_setState (s : Scheduler κ) (g : FiberId) (state : FiberState) (same : state.Live ↔ (s.m_state g).Live)
    (f : FiberId) : ((s.setState g state).m_state f).Live ↔
      (s.m_state f).Live ∧ ((s.setState g state).fibers = s.fibers ∨ f ≠ s.fibers) := by
  refine Iff.trans ?_ (and_iff_left (.inl rfl)).symm
  by_cases here : f = g
  · rw [here, m_state_setState_self, same]
  · rw [m_state_setState_of_ne here]

/-- A step enters a fiber, ends one, or leaves it open which of them are live; a new one is not. -/
theorem Acted.live (acted : s.Acted thread me a t after)
    (expects : ∀ job f, me.jobFiber job = some f → me.pc.Expects job (s.m_state f)) (f : FiberId) :
    me.switches a = some f ∧ (t.m_state f).Live ∨
    me.switches a = none ∧ me.ends a = some f ∧ ¬ (t.m_state f).Live ∨
    me.switches a ≠ some f ∧ me.ends a ≠ some f ∧
      ((t.m_state f).Live ↔ (s.m_state f).Live ∧ (t.fibers = s.fibers ∨ f ≠ s.fibers)) := by
  have init : ∀ {g : FiberId}, s.Resettable g → (FiberState.INIT.Live ↔ (s.m_state g).Live) :=
    fun ready => iff_of_false (FiberState.not_live (.inl rfl)) (FiberState.not_live (or_left_comm.mp ready))
  have same : (s.m_state f).Live ↔ (s.m_state f).Live ∧ (s.fibers = s.fibers ∨ f ≠ s.fibers) :=
    (and_iff_left (.inl rfl)).symm
  cases acted with
  | run ran =>
    cases ran with
    | start pc => exact .inr (.inr ⟨by simp [Worker.switches, pc], nofun, s.live_newFiber f⟩)
    | newCallback pc => exact .inr (.inr ⟨by simp [Worker.switches, pc], nofun, s.live_newFiber f⟩)
    | resetCallback pc _ _ _ ready =>
      exact .inr (.inr ⟨by simp [Worker.switches, pc], nofun, s.live_setState _ _ (init ready) f⟩)
    | recycle pc _ ready => exact .inr (.inr ⟨by simp [Worker.switches, pc], nofun, s.live_setState _ _ (init ready) f⟩)
    | @swapIn job g pc fiber =>
      have switches : me.switches .run = some g := by simp [Worker.switches, pc, fiber]
      by_cases here : f = g
      · refine .inl ⟨here ▸ switches, ?_⟩
        rw [here, m_state_setState_self]
        exact .inl rfl
      · refine .inr (.inr ⟨fun other => here (Option.some.inj (other.symm.trans switches)), nofun, ?_⟩)
        rw [m_state_setState_of_ne here]
        exact same
    | @hold job g pc fiber =>
      have before := expects job g fiber
      rw [pc] at before
      have held : FiberState.HOLD.Live ↔ (s.m_state g).Live := iff_of_true (.inr (.inl rfl)) (before rfl)
      exact .inr (.inr ⟨by simp [Worker.switches, pc], nofun, s.live_setState _ _ held f⟩)
    | nothing pc | entry pc | fiber pc | drop pc | stop pc | idle pc | returnedIdle pc | returned pc | ready pc
    | suspended pc | ended pc | endedCallback pc | reschedule pc =>
      exact .inr (.inr ⟨by simp [Worker.switches, pc], nofun, same⟩)
  | @leave _ state job g writes pc fiber =>
    have before := expects job g fiber
    rw [pc] at before
    have yields : state.Live → ((state).Live ↔ (s.m_state g).Live) := fun live => iff_of_true live (.inl (before rfl))
    have ends : ¬ state.Live → me.ends a = some g → me.switches a = none →
        me.switches a = some f ∧ ((s.setState g state).m_state f).Live ∨
        me.switches a = none ∧ me.ends a = some f ∧ ¬ ((s.setState g state).m_state f).Live ∨
        me.switches a ≠ some f ∧ me.ends a ≠ some f ∧ (((s.setState g state).m_state f).Live ↔
          (s.m_state f).Live ∧ ((s.setState g state).fibers = s.fibers ∨ f ≠ s.fibers)) := by
      intro dead ends switches
      by_cases here : f = g
      · refine .inr (.inl ⟨switches, here ▸ ends, ?_⟩)
        rw [here, m_state_setState_self]
        exact dead
      · refine .inr (.inr ⟨?_, fun other => here (Option.some.inj (other.symm.trans ends)), ?_⟩)
        · rw [switches]
          exact nofun
        · rw [m_state_setState_of_ne here]
          exact same
    cases a with
    | YieldToReady =>
      cases writes
      exact .inr (.inr ⟨nofun, nofun, s.live_setState g _ (yields (.inr (.inr rfl))) f⟩)
    | YieldToHold =>
      cases writes
      exact .inr (.inr ⟨nofun, nofun, s.live_setState g _ (yields (.inr (.inl rfl))) f⟩)
    | finish =>
      cases writes
      exact ends (FiberState.not_live (.inr (.inl rfl))) (by simp [Worker.ends, pc, fiber]) rfl
    | throw =>
      cases writes
      exact ends (FiberState.not_live (.inr (.inr rfl))) (by simp [Worker.ends, pc, fiber]) rfl
    | _ => cases writes
  | swapOut | switch | schedule => exact .inr (.inr ⟨nofun, nofun, same⟩)
  | newFiber => exact .inr (.inr ⟨nofun, nofun, s.live_newFiber f⟩)

end Scheduler

namespace Workers
variable {s t : Workers κ} {v w : Nat} {a : Scheduler.Act κ} {f : FiberId}

/-- A worker leaves the fibers in the hands of the others as they are. -/
theorem Apart.m_state_of_held (apart : s.Apart) (done : s.act w a = some t) (other : v ≠ w)
    (held : f ∈ (s.worker v).holds) : t.scheduler.m_state f = s.scheduler.m_state f := by
  have free : f ∉ (s.worker w).holds := fun also => other (apart.single.once v w f held also)
  rcases (Scheduler.act_acted (act_eq_some done).1).m_state free with same | ⟨new, -, -⟩
  · exact same
  · exact absurd (apart.single.handsBorn v f held) (new ▸ Nat.lt_irrefl _)

/-- Every worker finds the fiber of its job as it expects it. -/
def Expected (s : Workers κ) : Prop :=
  ∀ w job f, (s.worker w).jobFiber job = some f → (s.worker w).pc.Expects job (s.scheduler.m_state f)

theorem Expected.act (expected : s.Expected) (apart : s.Apart) (done : s.act w a = some t) : t.Expected := by
  obtain ⟨mine, others⟩ := act_eq_some done
  intro v job f fiber
  by_cases here : v = w
  · subst here
    exact (Scheduler.act_acted mine).expects (apart.single.handsBorn v) (expected v) job f fiber
  · rw [others v here] at fiber ⊢
    rw [apart.m_state_of_held done here (Scheduler.mem_holds_of_jobFiber fiber)]
    exact expected v job f fiber

end Workers

namespace FiberLife
variable {s t : FiberLife κ} {w : Nat} {a : Scheduler.Act κ} {f : FiberId}

/-- The pointers in their places: what there is a pointer to has not been destroyed, and a fiber has its `cur`
from when it is entered until it ends. -/
structure Good (s : FiberLife κ) : Prop where
  apart : s.workers.Apart
  expects : ∀ w job f, (s.workers.worker w).jobFiber job = some f →
    (s.workers.worker w).pc.Expects job (s.scheduler.m_state f)
  cur : ∀ f, s.cur f = true ↔ (s.scheduler.m_state f).Live
  alive : ∀ f, s.Referenced f → s.alive f = true
  born : ∀ f, s.alive f = true → f < s.scheduler.fibers
  counts : Counts (· = true) s.alive s.s_fiber_count

/-- What a step of a worker does to the pointers. -/
structure Acts (s : FiberLife κ) (w : Nat) (a : Scheduler.Act κ) (t : FiberLife κ) : Prop where
  resumable : s.Resumable w a
  done : s.workers.act w a = some t.workers
  cur : t.cur = s.curAfter w a
  made : t.scheduler.fibers = s.scheduler.fibers ∧ t.alive = s.alive ∧ t.s_fiber_count = s.s_fiber_count ∧
    t.kept = s.kept ∨
    t.scheduler.fibers ≠ s.scheduler.fibers ∧ t.alive = Function.update s.alive s.scheduler.fibers true ∧
      t.s_fiber_count = s.s_fiber_count + 1 ∧ ∀ f ≠ s.scheduler.fibers, t.kept f = s.kept f

theorem keptAfter_of_ne (s : FiberLife κ) (a : Scheduler.Act κ) (other : f ≠ s.scheduler.fibers) :
    s.keptAfter a f = s.kept f := by
  cases a with
  | newFiber => exact Function.update_of_ne other ..
  | _ => rfl

theorem acts_of_op (done : s.op (.act w a) = some t) : s.Acts w a t := by
  rw [op] at done
  split at done
  · rename_i resumable
    obtain ⟨workers, acted, done⟩ := Option.bind_eq_some_iff.mp done
    split at done
    · rename_i same
      cases done
      exact ⟨resumable, acted, rfl, .inl ⟨same, rfl, rfl, rfl⟩⟩
    · rename_i new
      cases done
      exact ⟨resumable, acted, rfl, .inr ⟨new, rfl, rfl, fun f other => s.keptAfter_of_ne a other⟩⟩
  · cases done

/-- `cur` is taken and given back with the state of its fiber. -/
theorem Good.cur_act (good : s.Good) (acts : s.Acts w a t) (f : FiberId) :
    t.cur f = true ↔ (t.scheduler.m_state f).Live := by
  have acted := Scheduler.act_acted (Workers.act_eq_some acts.done).1
  rw [acts.cur, curAfter]
  rcases acted.live (good.expects w) f with ⟨switches, live⟩ | ⟨switches, ends, dead⟩ | ⟨switches, ends, same⟩
  · rw [switches]
    exact iff_of_true (Function.update_self ..) live
  · rw [switches, ends]
    refine iff_of_false ?_ dead
    simp
  · have still : s.cur f = true ↔ (t.scheduler.m_state f).Live := by
      rw [same, ← good.cur f]
      refine (and_iff_left_of_imp fun held => ?_).symm
      refine .inr fun new => Nat.lt_irrefl s.scheduler.fibers ?_
      exact good.born _ (good.alive _ (.inr (.inr (.inl (new ▸ held)))))
    cases entered : (s.workers.worker w).switches a with
    | some g =>
      have other : f ≠ g := fun here => switches (here ▸ entered)
      simpa only [Function.update_of_ne other] using still
    | none =>
      cases ended : (s.workers.worker w).ends a with
      | some g =>
        have other : f ≠ g := fun here => ends (here ▸ ended)
        simpa only [Function.update_of_ne other] using still
      | none => exact still

theorem curAfter_eq_true (held : s.curAfter w a f = true) :
    s.cur f = true ∨ (s.workers.worker w).switches a = some f := by
  rw [curAfter] at held
  cases entered : (s.workers.worker w).switches a with
  | some g =>
    by_cases here : f = g
    · exact .inr (congrArg some here.symm)
    · simp only [entered, Function.update_of_ne here] at held
      exact .inl held
  | none =>
    cases ended : (s.workers.worker w).ends a with
    | some g =>
      by_cases here : f = g
      · simp [entered, ended, here] at held
      · simp only [entered, ended, Function.update_of_ne here] at held
        exact .inl held
    | none =>
      simp only [entered, ended] at held
      exact .inl held

/-- A pointer in the local variables of a worker. -/
theorem referenced_of_holds (runs : (s.workers.worker w).pc ≠ .stopped) (held : f ∈ (s.workers.worker w).holds) :
    s.Referenced f :=
  .inr (.inl ⟨w, runs, held⟩)

/-- A pointer comes from a pointer, or it is the first one to a new fiber. -/
theorem Good.referenced_act (good : s.Good) (allowed : s.Allowed (.act w a)) (acts : s.Acts w a t)
    (pointed : t.Referenced f) :
    s.Referenced f ∨ f = s.scheduler.fibers ∧ t.scheduler.fibers ≠ s.scheduler.fibers := by
  obtain ⟨mine, others⟩ := Workers.act_eq_some acts.done
  have acted := Scheduler.act_acted mine
  have effect := Scheduler.act_effect (good.apart.notIdle w) mine
  have runs : (t.workers.worker w).pc ≠ .stopped → (s.workers.worker w).pc ≠ .stopped := by
    intro runs pc
    rw [acted.stays_stopped pc] at runs
    exact runs pc
  have old : f ∈ (s.workers.worker w).holds → (t.workers.worker w).pc ≠ .stopped → s.Referenced f :=
    fun held now => referenced_of_holds (runs now) held
  rcases pointed with queued | ⟨v, runsV, held⟩ | cur | kept
  · rcases effect with ⟨queue, -, -⟩ | ⟨queue, -, -, -⟩ | ⟨-, queue, -, -, -⟩ | ⟨queue, hand, -⟩ |
        ⟨wakes, queue, -, -, -⟩ <;>
      simp only [Scheduler.view] at queue
    · exact .inl (.inl (queue.mem_iff.mpr queued))
    · exact .inl (.inl (queue ▸ queued))
    · exact .inl (.inl (queue.mem_iff.mpr (List.mem_cons_of_mem _ queued)))
    · rw [queue, List.mem_append, List.mem_singleton] at queued
      rcases queued with before | rfl
      · exact .inl (.inl before)
      · simp only [Scheduler.view] at hand
        refine .inl (referenced_of_holds (fun pc => ?_) (hand.subset List.mem_cons_self))
        rw [acted.stays_stopped pc] at hand
        exact absurd hand.length_le (by simp)
    · rw [queue, List.mem_append, List.mem_singleton] at queued
      rcases queued with before | rfl
      · exact .inl (.inl before)
      · cases a with
        | schedule ft => exact .inl (allowed f wakes)
        | _ => cases wakes
  · by_cases here : v = w
    · subst here
      rcases effect with ⟨-, hand, -⟩ | ⟨-, hand, kept, next⟩ | ⟨-, queue, hand, kept, -⟩ | ⟨-, hand, -⟩ |
          ⟨-, -, hand, -, -⟩ <;>
        simp only [Scheduler.view] at *
      · exact .inl (old (hand.subset held) runsV)
      · rw [hand, List.mem_cons] at held
        rcases held with new | held
        · exact .inr ⟨new, by rw [next]; exact Nat.succ_ne_self _⟩
        · exact .inl (old (kept.subset held) runsV)
      · rw [hand, List.mem_cons] at held
        rcases held with new | held
        · exact .inl (.inl (queue.mem_iff.mpr (new ▸ List.mem_cons_self)))
        · exact .inl (old (kept.subset held) runsV)
      · exact .inl (old (hand.subset (List.mem_cons_of_mem _ held)) runsV)
      · exact .inl (old (hand ▸ held) runsV)
    · rw [others v here] at runsV held
      exact .inl (referenced_of_holds runsV held)
  · rw [acts.cur] at cur
    rcases curAfter_eq_true cur with before | entered
    · exact .inl (.inr (.inr (.inl before)))
    · obtain ⟨job, pc, fiber⟩ := Worker.switches_eq_some entered
      refine .inl (referenced_of_holds (fun stopped => ?_) (Scheduler.mem_holds_of_jobFiber fiber))
      cases stopped.symm.trans pc
  · rcases acts.made with ⟨-, -, -, same⟩ | ⟨new, -, -, same⟩
    · exact .inl (.inr (.inr (.inr (same ▸ kept))))
    · by_cases here : f = s.scheduler.fibers
      · exact .inr ⟨here, new⟩
      · exact .inl (.inr (.inr (.inr (same f here ▸ kept))))

theorem Good.act (good : s.Good) (allowed : s.Allowed (.act w a)) (untaken : s.workers.Untaken (w, a) t.workers)
    (acts : s.Acts w a t) : t.Good := by
  have apart : t.workers.Apart := good.apart.step (l := (w, a)) ⟨acts.done, untaken⟩
  have expected : t.workers.Expected := Workers.Expected.act good.expects good.apart acts.done
  have unborn : s.alive s.scheduler.fibers = false := by
    rw [← Bool.not_eq_true]
    exact fun alive => Nat.lt_irrefl _ (good.born _ alive)
  refine ⟨apart, expected, good.cur_act acts, fun f pointed => ?_, fun f alive => ?_, ?_⟩
  · rcases good.referenced_act allowed acts pointed with before | ⟨here, new⟩
    · have alive := good.alive f before
      rcases acts.made with ⟨-, same, -, -⟩ | ⟨-, same, -, -⟩
      · rw [same]
        exact alive
      · rw [same, Function.update_of_ne (good.born f alive).ne]
        exact alive
    · rcases acts.made with ⟨same, -, -, -⟩ | ⟨-, made, -, -⟩
      · exact absurd same new
      · rw [made, here, Function.update_self]
  · have more : s.scheduler.fibers ≤ t.scheduler.fibers := Workers.act_fibers acts.done
    rcases acts.made with ⟨-, same, -, -⟩ | ⟨new, made, -, -⟩
    · rw [same] at alive
      exact (good.born f alive).trans_le more
    · by_cases here : f = s.scheduler.fibers
      · have grown : s.scheduler.fibers < t.scheduler.fibers := lt_of_le_of_ne more (Ne.symm new)
        rw [here]
        exact grown
      · rw [made, Function.update_of_ne here] at alive
        exact (good.born f alive).trans_le more
  · rcases acts.made with ⟨-, same, count, -⟩ | ⟨-, made, count, -⟩
    · rw [same, count]
      exact good.counts
    · rw [made, count]
      exact good.counts.enter (by simp [unborn]) rfl

/-- What becomes of the pointers when a copy is made or goes. -/
theorem Good.referenced_update (n : Nat) (more : n = 0 ∨ s.Referenced f) {g : FiberId}
    (pointed : Referenced { s with kept := Function.update s.kept f n } g) : s.Referenced g := by
  rcases pointed with queued | held | cur | kept
  · exact .inl queued
  · exact .inr (.inl held)
  · exact .inr (.inr (.inl cur))
  · by_cases here : g = f
    · subst here
      simp only [Function.update_self] at kept
      exact more.resolve_left (Nat.ne_of_gt kept)
    · simp only [Function.update_of_ne here] at kept
      exact .inr (.inr (.inr kept))

theorem Good.copies (good : s.Good) (n : Nat) (more : n = 0 ∨ s.Referenced f) :
    Good { s with kept := Function.update s.kept f n } :=
  ⟨good.apart, good.expects, good.cur, fun g pointed => good.alive g (Good.referenced_update n more pointed), good.born,
    good.counts⟩

theorem Good.destroy (good : s.Good) (alive : s.alive f = true) (free : ¬ s.Referenced f) :
    Good { s with alive := Function.update s.alive f false, s_fiber_count := s.s_fiber_count - 1 } := by
  refine ⟨good.apart, good.expects, good.cur, fun g pointed => ?_, fun g left => ?_,
    good.counts.leave alive Bool.false_ne_true⟩
  · have other : g ≠ f := fun here => free (here ▸ pointed)
    simp only [Function.update_of_ne other]
    exact good.alive g pointed
  · by_cases here : g = f
    · simp only [here, Function.update_self] at left
      cases left
    · simp only [Function.update_of_ne here] at left
      exact good.born g left

theorem Good.step {o : Op κ} (good : s.Good) (step : Guarded Step Untaken s o t) : t.Good := by
  obtain ⟨⟨allowed, done⟩, untaken⟩ := step
  cases o with
  | act w a => exact good.act allowed untaken (acts_of_op done)
  | keep f =>
    cases done
    exact good.copies _ (.inr allowed)
  | drop f =>
    cases done
    exact good.copies _ (.inr (.inr (.inr (.inr allowed))))
  | destroy f =>
    rw [op] at done
    split at done
    · cases done
      exact good.destroy allowed.1 allowed.2
    · cases done

theorem good_init : Good ({} : FiberLife κ) where
  apart := ⟨Workers.notIdle_init, Workers.placed_init.toSingle⟩
  expects _ _ _ _ := trivial
  cur _ := iff_of_false Bool.false_ne_true (FiberState.not_live (.inl rfl))
  alive f pointed := by
    rcases pointed with queued | ⟨w, -, held⟩ | cur | kept
    · cases queued
    · cases held
    · cases cur
    · cases kept
  born _ alive := by cases alive
  counts := counts_none fun _ => Bool.false_ne_true

/-- A fiber to which there is no pointer has not been entered or has ended. -/
theorem Good.destroys (good : s.Good) (free : ¬ s.Referenced f) : (s.op (.destroy f)).isSome := by
  have dead : ¬ (s.scheduler.m_state f).Live := fun live => free (.inr (.inr (.inl ((good.cur f).mpr live))))
  rw [op]
  split
  · rfl
  · rename_i asserts
    refine absurd ?_ dead
    cases state : s.scheduler.m_state f with
    | INIT => exact absurd (.inr (.inl state)) asserts
    | TERM => exact absurd (.inl state) asserts
    | EXCEPT => exact absurd (.inr (.inr state)) asserts
    | EXEC => exact .inl rfl
    | HOLD => exact .inr (.inl rfl)
    | READY => exact .inr (.inr rfl)

/-- In every run in which no worker takes a fiber that is still in the hands of a worker: whatever executes or
can be reached through a pointer has not been destroyed; the assertion of the destructor never fails; a fiber
that has been entered and has not ended is not destroyed, even if nobody but itself points to it; and
`TotalFibers` is the number of those that have not been destroyed. -/
theorem run_good {os : List (Op κ)} (run : Run (Guarded Step Untaken) {} os s) :
    (∀ w f, s.workers.Executing w f → s.alive f = true) ∧ (∀ f, s.Referenced f → s.alive f = true) ∧
      (∀ f, s.Allowed (.destroy f) → (s.op (.destroy f)).isSome) ∧
      (∀ f, (s.scheduler.m_state f).Live → ¬ s.Allowed (.destroy f)) ∧ Counts (· = true) s.alive s.s_fiber_count := by
  have good : s.Good := Run.invariant (fun _ _ _ => Good.step) good_init run
  refine ⟨fun w f executing => ?_, good.alive, fun f allowed => good.destroys allowed.2, fun f live allowed => ?_,
    good.counts⟩
  · refine good.alive f (referenced_of_holds (fun stopped => ?_) executing.held)
    obtain ⟨job, pc | pc, -⟩ := executing
    · cases stopped.symm.trans pc
    · cases stopped.symm.trans pc
  · exact allowed.2 (.inr (.inr (.inl ((good.cur f).mpr live))))

/-- What a step needs, where worker 0 is the only one. -/
def allows (s : FiberLife Nat) : Op Nat → Bool
  | .act 0 (.schedule ft) => ft.fiber.all fun f => decide (0 < s.kept f)
  | .act 0 a => (s.scheduler.taken (0 : Nat) (s.workers.worker 0) a).all fun f => decide (f ∉ (s.workers.worker 0).holds)
  | .act (_ + 1) _ | .keep _ => false
  | .drop f => decide (0 < s.kept f)
  | .destroy f =>
    decide (s.alive f = true ∧ f ∉ s.scheduler.queued ∧ f ∉ (s.workers.worker 0).holds ∧ s.cur f = false ∧ s.kept f = 0)

def perform (s : FiberLife Nat) (o : Op Nat) : Option (FiberLife Nat) := if s.allows o then s.op o else none

theorem step_of_perform {s t : FiberLife Nat} {o : Op Nat} (sole : ∀ w, s.workers.worker (w + 1) = {})
    (performed : s.perform o = some t) :
    Guarded Step Untaken s o t ∧ ∀ w, t.workers.worker (w + 1) = {} := by
  rw [perform] at performed
  split at performed
  · rename_i allows
    have none : ∀ w f, f ∉ (s.workers.worker (w + 1)).holds := by
      intro w f held
      rw [sole w] at held
      cases held
    have actStep : ∀ a, s.Allowed (.act 0 a) → s.op (.act 0 a) = some t →
        (∀ f, s.scheduler.taken (0 : Nat) (s.workers.worker 0) a = some f → f ∉ (s.workers.worker 0).holds) →
        Guarded Step Untaken s (.act 0 a) t ∧ ∀ w, t.workers.worker (w + 1) = {} := by
      intro a allowed done mine
      obtain ⟨-, others⟩ := Workers.act_eq_some (acts_of_op done).done
      refine ⟨⟨⟨allowed, done⟩, fun f takes w held => ?_⟩,
        fun w => (others (w + 1) (Nat.succ_ne_zero w)).trans (sole w)⟩
      cases w with
      | zero => exact mine f takes held
      | succ w => exact none w f held
    have mine : ∀ a, (s.scheduler.taken (0 : Nat) (s.workers.worker 0) a).all
        (fun f => decide (f ∉ (s.workers.worker 0).holds)) = true →
        ∀ f, s.scheduler.taken (0 : Nat) (s.workers.worker 0) a = some f → f ∉ (s.workers.worker 0).holds := by
      intro a free f takes
      rw [takes] at free
      exact of_decide_eq_true free
    cases o with
    | act w a =>
      cases w with
      | zero =>
        cases a with
        | schedule ft =>
          refine actStep _ (fun f fiber => ?_) performed nofun
          simp only [FiberLife.allows, fiber] at allows
          exact .inr (.inr (.inr (of_decide_eq_true allows)))
        | _ => exact actStep _ trivial performed (mine _ allows)
      | succ w => cases allows
    | keep f => cases allows
    | drop f =>
      have positive : 0 < s.kept f := of_decide_eq_true allows
      cases performed
      exact ⟨⟨⟨positive, rfl⟩, trivial⟩, sole⟩
    | destroy f =>
      obtain ⟨alive, queued, held, cur, kept⟩ := of_decide_eq_true allows
      have free : ¬ s.Referenced f := by
        rintro (inQueue | ⟨w, -, inHands⟩ | entered | more)
        · exact queued inQueue
        · cases w with
          | zero => exact held inHands
          | succ w => exact none w f inHands
        · rw [cur] at entered
          cases entered
        · omega
      have workers : t.workers = s.workers := by
        rw [op] at performed
        split at performed
        · cases performed
          rfl
        · cases performed
      exact ⟨⟨⟨⟨alive, free⟩, performed⟩, trivial⟩, workers ▸ sole⟩
  · cases performed

theorem run_of_performs {s t : FiberLife Nat} {os : List (Op Nat)} (sole : ∀ w, s.workers.worker (w + 1) = {})
    (done : acts perform s os = some t) : Run (Guarded Step Untaken) s os t := by
  induction os generalizing s with
  | nil =>
    cases done
    exact .start
  | cons o os ih =>
    rw [acts, List.foldlM_cons] at done
    obtain ⟨u, first, rest⟩ := Option.bind_eq_some_iff.mp done
    obtain ⟨step, sole⟩ := step_of_perform sole first
    exact (ih sole rest).cons step

/-- Fiber 1 is scheduled, runs to its end, and goes with the last pointer to it; the idle fiber stays. -/
def runsOnce : List (Op Nat) :=
  [.act 0 .run, .act 0 .newFiber, .act 0 (.schedule { fiber := some 1 }), .drop 1, .act 0 .run, .act 0 .run, .act 0 .run,
    .act 0 .finish, .act 0 .switch, .act 0 .run, .act 0 .run, .destroy 1]

theorem run_good_runsOnce : ∃ t : FiberLife Nat, Run (Guarded Step Untaken) {} runsOnce t ∧
    t.alive 0 = true ∧ t.alive 1 = false ∧ t.s_fiber_count = 1 ∧ Counts (· = true) t.alive 1 := by
  have done : ∃ t, acts perform {} runsOnce = some t ∧ t.alive 0 = true ∧ t.alive 1 = false ∧ t.s_fiber_count = 1 :=
    ⟨_, rfl, rfl, rfl, rfl⟩
  obtain ⟨t, done, idle, gone, count⟩ := done
  have run := run_of_performs (fun _ => rfl) done
  exact ⟨t, run, idle, gone, count, count ▸ (run_good run).2.2.2.2⟩

end FiberLife
end Sylar
