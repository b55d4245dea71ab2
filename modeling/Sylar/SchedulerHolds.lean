import Sylar.Lib.Custody
import Sylar.SchedulerCases

namespace Sylar
open Machine

variable {κ : Type}

/-- The fibers that a worker has in its hands. -/
def Worker.holds (me : Worker κ) : List FiberId :=
  me.ft.fiber.toList ++ me.cb_fiber.toList ++ me.idle_fiber.toList

namespace Scheduler

/-- The fibers of the queue entries. -/
def queued (s : Scheduler κ) : List FiberId := s.m_fibers.filterMap (·.fiber)

/-- The fiber that a step takes off the queue. -/
def taken (s : Scheduler κ) (thread : Int) (me : Worker κ) : Act κ → Option FiberId
  | .run =>
    match me.pc, selectFrom s.m_state thread s.m_fibers with
    | .select, .entry ft _ => ft.fiber
    | _, _ => none
  | _ => none

/-- The fiber that a call of `schedule` puts into the queue. -/
def Act.woken : Act κ → Option FiberId
  | .schedule ft => ft.fiber
  | _ => none

/-- What the worker sees of the queue and has in its hands. -/
def view (s : Scheduler κ) (me : Worker κ) : Custody.View := ⟨s.queued, me.holds, s.fibers⟩

/-- What a step of a worker does to the fibers in the queue and in its hands. -/
def Effect (takes wakes : FiberId → Prop) (s : Scheduler κ) (me : Worker κ) (t : Scheduler κ)
    (after : Worker κ) : Prop :=
  Custody.Move takes wakes (s.view me) (t.view after)

variable {takes wakes : FiberId → Prop} {s t : Scheduler κ} {me after : Worker κ} {thread : Int}

theorem selectFrom_entry {m_state : FiberId → FiberState} {thread : Int} {queue rest : List (FiberAndThread κ)}
    {ft : FiberAndThread κ} (found : selectFrom m_state thread queue = .entry ft rest) :
    queue.Perm (ft :: rest) := by
  induction queue generalizing rest with
  | nil => cases found
  | cons it queue ih =>
    have skipped : (selectFrom m_state thread queue).skip it = .entry ft rest → (it :: queue).Perm (ft :: rest) := by
      intro skip
      cases tail : selectFrom m_state thread queue with
      | nothing => rw [tail] at skip; cases skip
      | assertion => rw [tail] at skip; cases skip
      | entry ft' rest' =>
        rw [tail] at skip
        cases skip
        exact ((ih tail).cons it).trans (List.Perm.swap ft it rest')
    rw [selectFrom] at found
    split at found
    · exact skipped found
    split at found
    · cases found
    split at found
    · exact skipped found
    · cases found
      exact .refl _

theorem taken_queued {a : Act κ} {f : FiberId} (takes : s.taken thread me a = some f) : f ∈ s.queued := by
  cases a with
  | run =>
    simp only [taken] at takes
    split at takes
    · rename_i ft rest _ found
      rw [queued, List.mem_filterMap]
      exact ⟨ft, (selectFrom_entry found).mem_iff.mpr List.mem_cons_self, takes⟩
    · cases takes
  | _ => cases takes

theorem holds_sublist {me other : Worker κ} (ft : other.ft.fiber = none ∨ other.ft.fiber = me.ft.fiber)
    (cb : other.cb_fiber = none ∨ other.cb_fiber = me.cb_fiber) (idle : other.idle_fiber = me.idle_fiber) :
    other.holds.Sublist me.holds := by
  rw [Worker.holds, Worker.holds, idle]
  refine List.Sublist.append_right (List.Sublist.append ?_ ?_) _
  · rcases ft with none | same
    · rw [none]
      exact List.nil_sublist _
    · rw [same]
  · rcases cb with none | same
    · rw [none]
      exact List.nil_sublist _
    · rw [same]

theorem holds_tail_sublist (me : Worker κ) : (me.cb_fiber.toList ++ me.idle_fiber.toList).Sublist me.holds := by
  rw [Worker.holds, List.append_assoc]
  exact List.sublist_append_right _ _

/-- A step that leaves the queue alone and makes no fiber. -/
theorem Effect.still (queue : t.m_fibers = s.m_fibers)
    (fibers : t.fibers = s.fibers) (holds : after.holds.Sublist me.holds) : Effect takes wakes s me t after :=
  .quiet (.of_eq (congrArg (List.filterMap _) queue).symm) holds (Nat.le_of_eq fibers.symm)

/-- The worker goes on with what it has. -/
theorem Effect.goto (queue : t.m_fibers = s.m_fibers)
    (fibers : t.fibers = s.fibers) (same : after.holds = me.holds) : Effect takes wakes s me t after :=
  .still queue fibers (same ▸ List.Sublist.refl _)

theorem queued_schedule (s : Scheduler κ) (ft : FiberAndThread κ) :
    (s.schedule ft).queued = s.queued ++ ft.fiber.toList := by
  rcases ft with ⟨_ | f, _ | cb, thread⟩ <;> simp [queued, schedule, scheduleNoLock]

theorem entry_effect {ft : FiberAndThread κ} {rest : List (FiberAndThread κ)} (pc : me.pc = .select)
    (found : selectFrom s.m_state thread s.m_fibers = .entry ft rest)
    (allowed : ∀ f, s.taken thread me .run = some f → takes f) :
    Effect takes wakes s me { s with m_fibers := rest, m_activeThreadCount := s.m_activeThreadCount + 1 }
      { me with pc := .selected true, ft := ft } := by
  have perm := (selectFrom_entry found).filterMap (·.fiber)
  rw [List.filterMap_cons] at perm
  cases fiber : ft.fiber with
  | none =>
    rw [fiber] at perm
    exact .quiet perm (holds_sublist (.inl fiber) (.inr rfl) rfl) (Nat.le_refl _)
  | some f =>
    rw [fiber] at perm
    refine .take (allowed f ?_) perm ?_ (holds_tail_sublist _) rfl
    · simp only [taken, pc, found, fiber]
    · simp only [view, Worker.holds, fiber]
      rfl

/-- The fiber goes from the hands of the worker back into the queue. -/
theorem reschedule_effect {job : Job} (notIdle : job ≠ .idle) :
    Effect takes wakes s me (s.schedule { fiber := me.jobFiber job, thread := -1 })
      { me with pc := .select, ft := {}, cb_fiber := if job = .callback then none else me.cb_fiber } := by
  have queued := queued_schedule s { fiber := me.jobFiber job, thread := -1 }
  cases job with
  | idle => exact absurd rfl notIdle
  | fiber =>
    cases fiber : me.ft.fiber with
    | none =>
      simp only [Worker.jobFiber, fiber, Option.toList_none, List.append_nil] at queued ⊢
      exact .quiet (.of_eq queued.symm) (holds_sublist (.inl rfl) (.inr rfl) rfl) (Nat.le_refl _)
    | some f =>
      simp only [Worker.jobFiber, fiber] at queued ⊢
      refine .release queued ?_ rfl
      simp only [view, Worker.holds, fiber]
      exact List.Sublist.refl _
  | callback =>
    cases fiber : me.cb_fiber with
    | none =>
      simp only [Worker.jobFiber, fiber, Option.toList_none, List.append_nil] at queued ⊢
      exact .quiet (.of_eq queued.symm) (holds_sublist (.inl rfl) (.inl rfl) rfl) (Nat.le_refl _)
    | some f =>
      simp only [Worker.jobFiber, fiber] at queued ⊢
      refine .release queued ?_ rfl
      have before : me.holds = me.ft.fiber.toList ++ f :: me.idle_fiber.toList := by
        rw [Worker.holds, fiber, List.append_assoc]
        rfl
      simp only [view, before]
      exact List.sublist_append_right _ _

/-- What one step of `run` does. -/
theorem Ran.effect (ran : s.Ran thread me t after) (notIdle : me.pc ≠ .reschedule .idle)
    (allowed : ∀ f, s.taken thread me .run = some f → takes f) : Effect takes wakes s me t after := by
  cases ran with
  | start => exact .fresh rfl rfl (List.nil_sublist _) rfl
  | entry pc found => exact entry_effect pc found allowed
  | nothing | fiber | stop | idle | swapIn | returnedIdle | returned | ready | suspended | endedCallback | recycle =>
    exact .goto rfl rfl rfl
  | resetCallback _ _ _ old => exact .still rfl rfl (holds_sublist (.inl rfl) (.inr old.symm) rfl)
  | newCallback => exact .fresh rfl rfl (List.sublist_append_right _ _) rfl
  | drop | ended => exact .still rfl rfl (holds_sublist (.inl rfl) (.inr rfl) rfl)
  | reschedule pc => exact reschedule_effect fun idle => notIdle (idle ▸ pc)
  | @hold job =>
    refine .still rfl rfl (holds_sublist (.inl rfl) ?_ rfl)
    by_cases callback : job = .callback
    · exact .inl (if_pos callback)
    · exact .inr (if_neg callback)

/-- What a step does. -/
theorem act_effect {a : Act κ} (notIdle : me.pc ≠ .reschedule .idle) (done : s.act thread me a = some (t, after)) :
    Effect (fun f => s.taken thread me a = some f) (fun f => a.woken = some f) s me t after := by
  cases act_acted done with
  | run ran => exact ran.effect notIdle fun _ => id
  | leave | swapOut | switch => exact .goto rfl rfl rfl
  | newFiber => exact .quiet (.refl _) (List.Sublist.refl _) (Nat.le_succ _)
  | @schedule ft born =>
    have queued := queued_schedule s ft
    cases fiber : ft.fiber with
    | none =>
      rw [fiber, Option.toList_none, List.append_nil] at queued
      exact .quiet (.of_eq queued.symm) (List.Sublist.refl _) (Nat.le_refl _)
    | some f =>
      rw [fiber] at queued
      exact .wake fiber queued rfl (born f fiber) rfl

/-- No worker ever puts its idle fiber into the queue. -/
theorem act_notIdle {a : Act κ} (notIdle : me.pc ≠ .reschedule .idle) (done : s.act thread me a = some (t, after)) :
    after.pc ≠ .reschedule .idle := by
  cases act_acted done with
  | run ran =>
    cases ran with
    | ready _ _ _ other => exact fun same => other (RunPc.reschedule.inj same)
    | _ => exact RunPc.noConfusion
  | leave | swapOut | switch => exact RunPc.noConfusion
  | newFiber | schedule => exact notIdle

end Scheduler
end Sylar
