import Sylar.Lib.Tickets
import Sylar.SchedulerExclusive

/-! The queue `m_fibers` under every call that touches it: the overloads of `schedule`, the batch
overload, and `Scheduler::run`. -/

namespace Sylar
open Machine Tickets

variable {κ : Type}

/-- The argument of `schedule(FiberOrCb fc, int thread)`. A null pointer and an empty function are
`none`. -/
inductive FiberOrCb (κ : Type)
  | fiber (f : Option FiberId)
  | fiberPtr (f : Option FiberId)
  | cb (f : Option κ)
  | cbPtr (f : Option κ)

/-- The constructors of `FiberAndThread`: the entry, and what is left in the caller's variable. -/
def FiberOrCb.entry (fc : FiberOrCb κ) (thr : Int) : FiberAndThread κ × FiberOrCb κ :=
  match fc with
  | .fiber f => ({ fiber := f, thread := thr }, .fiber f)
  | .fiberPtr f => (FiberAndThread.swapFiber f thr).map id .fiberPtr
  | .cb f => ({ cb := f, thread := thr }, .cb f)
  | .cbPtr f => (FiberAndThread.swapCb f thr).map id .cbPtr

/-- `schedule(InputIterator begin, InputIterator end)` takes the address of each element of the range. -/
inductive TaskRange (κ : Type)
  | fibers (range : List (Option FiberId))
  | cbs (range : List (Option κ))

def TaskRange.entries : TaskRange κ → List (FiberAndThread κ)
  | .fibers range => range.map fun f => (FiberAndThread.swapFiber f (-1)).1
  | .cbs range => range.map fun f => (FiberAndThread.swapCb f (-1)).1

/-- `scheduleNoLock` keeps an entry that has a fiber or a function. -/
def FiberAndThread.accepted (ft : FiberAndThread κ) : Bool := ft.fiber.isSome || ft.cb.isSome

/-- The selection loop takes an entry that no other thread is named for and whose fiber is not
executing. -/
def FiberAndThread.Eligible (m_state : FiberId → FiberState) (thread : Int) (ft : FiberAndThread κ) : Prop :=
  (ft.thread = -1 ∨ ft.thread = thread) ∧ ∀ f, ft.fiber = some f → m_state f ≠ .EXEC

namespace Scheduler

def scheduleRange (s : Scheduler κ) (range : TaskRange κ) : Scheduler κ :=
  { s with m_fibers := range.entries.foldl (fun m_fibers ft => (scheduleNoLock m_fibers ft).2) s.m_fibers }

/-- What threads do: a step of `run` or of the fiber that runs, or one of the calls of `schedule`. -/
inductive Call (κ : Type)
  | act (a : Act κ)
  | schedule (fc : FiberOrCb κ) (thread : Int)
  | scheduleRange (range : TaskRange κ)

/-- What a step hands to `scheduleNoLock`. -/
def offered (me : Worker κ) : Call κ → List (FiberAndThread κ)
  | .act (.schedule ft) => [ft]
  | .act .run =>
    match me.pc with
    | .reschedule job => [{ fiber := me.jobFiber job, thread := -1 }]
    | _ => []
  | .act _ => []
  | .schedule fc thread => [(fc.entry thread).1]
  | .scheduleRange range => range.entries

theorem m_fibers_schedule (s : Scheduler κ) (ft : FiberAndThread κ) :
    (s.schedule ft).m_fibers = s.m_fibers ++ [ft].filter (·.accepted) := by
  rcases ft with ⟨_ | f, _ | cb, thread⟩ <;> simp [schedule, scheduleNoLock, FiberAndThread.accepted]

theorem m_fibers_scheduleRange (s : Scheduler κ) (range : TaskRange κ) :
    (s.scheduleRange range).m_fibers = s.m_fibers ++ range.entries.filter (·.accepted) := by
  simp only [scheduleRange]
  generalize s.m_fibers = queue
  induction range.entries generalizing queue with
  | nil => simp
  | cons ft fts ih =>
    rw [List.foldl_cons, ih, List.filter_cons]
    cases accepted : ft.accepted
    · have same : (scheduleNoLock queue ft).2 = queue := by
        rw [FiberAndThread.accepted] at accepted
        simp [scheduleNoLock, accepted]
      rw [same]
      rfl
    · have appended : (scheduleNoLock queue ft).2 = queue ++ [ft] := by
        rw [FiberAndThread.accepted] at accepted
        simp only [scheduleNoLock, accepted, if_true]
      rw [appended, List.append_assoc]
      rfl

/-- What the selection loop is to find: the first entry that is eligible. -/
inductive Finds (m_state : FiberId → FiberState) (thread : Int) (queue : List (FiberAndThread κ)) :
    Selection κ → Prop
  | nothing : (∀ ft ∈ queue, ¬ ft.Eligible m_state thread) → Finds m_state thread queue .nothing
  | entry {front ft back} : queue = front ++ ft :: back → ft.Eligible m_state thread →
      (∀ other ∈ front, ¬ other.Eligible m_state thread) → Finds m_state thread queue (.entry ft (front ++ back))

theorem Finds.skip {m_state : FiberId → FiberState} {thread : Int} {it : FiberAndThread κ}
    {queue : List (FiberAndThread κ)} {found : Selection κ} (finds : Finds m_state thread queue found)
    (ineligible : ¬ it.Eligible m_state thread) : Finds m_state thread (it :: queue) (found.skip it) := by
  cases finds with
  | nothing none => exact .nothing (List.forall_mem_cons.mpr ⟨ineligible, none⟩)
  | @entry front ft back shape mine before =>
    have longer : it :: queue = (it :: front) ++ ft :: back := by rw [shape]; rfl
    exact .entry longer mine (List.forall_mem_cons.mpr ⟨ineligible, before⟩)

theorem selectFrom_finds (m_state : FiberId → FiberState) (thread : Int) {queue : List (FiberAndThread κ)}
    (accepted : ∀ ft ∈ queue, ft.accepted) : Finds m_state thread queue (selectFrom m_state thread queue) := by
  induction queue with
  | nil => exact .nothing nofun
  | cons it queue ih =>
    obtain ⟨itAccepted, tailAccepted⟩ := List.forall_mem_cons.mp accepted
    have tail := ih tailAccepted
    rw [selectFrom]
    split
    · rename_i foreign
      refine tail.skip fun eligible => ?_
      rcases eligible.1 with any | mine
      · exact foreign.1 any
      · exact foreign.2 mine
    rename_i mine
    split
    · rename_i empty
      simp_all [FiberAndThread.accepted]
    split
    · rename_i executing
      refine tail.skip fun eligible => ?_
      obtain ⟨f, fiber, exec⟩ := (Option.any_eq_true _ _).mp executing
      exact eligible.2 f fiber (of_decide_eq_true exec)
    · rename_i executing
      have first : it :: queue = [] ++ it :: queue := rfl
      refine .entry first ⟨?_, ?_⟩ nofun
      · by_contra foreign
        rw [not_or] at foreign
        exact mine foreign
      · intro f fiber exec
        simp [fiber, exec] at executing

/-- A step that is not a selection changes the queue by what it hands to `scheduleNoLock` only. -/
theorem act_m_fibers {s t : Scheduler κ} {me after : Worker κ} {thread : Int} {a : Act κ}
    (other : a = .run → me.pc ≠ .select) (done : s.act thread me a = some (t, after)) :
    t.m_fibers = s.m_fibers ++ (offered me (.act a)).filter (·.accepted) := by
  have still : ∀ pc, me.pc = pc → (∀ job, pc ≠ .reschedule job) →
      s.m_fibers = s.m_fibers ++ (offered me (.act .run)).filter (·.accepted) := by
    intro pc same notBack
    simp only [offered]
    split
    · rename_i job back
      exact absurd (same.symm.trans back) (notBack job)
    · exact (List.append_nil _).symm
  cases act_acted done with
  | run ran =>
    cases ran with
    | nothing pc | entry pc => exact absurd pc (other rfl)
    | reschedule pc =>
      rw [m_fibers_schedule]
      simp only [offered, pc]
    | start pc | fiber pc | resetCallback pc | newCallback pc | drop pc | stop pc | idle pc | swapIn pc
    | returnedIdle pc | returned pc | ready pc | suspended pc | ended pc | endedCallback pc | hold pc | recycle pc =>
      exact still _ pc nofun
  | @leave a state _ _ writes =>
    have none : offered me (.act a) = [] := by
      cases a with
      | run | schedule => cases writes
      | _ => rfl
    rw [none]
    exact (List.append_nil _).symm
  | swapOut | switch | newFiber => exact (List.append_nil _).symm
  | schedule => exact m_fibers_schedule _ _

end Scheduler

namespace Workers

def call (s : Workers κ) (w : Nat) : Scheduler.Call κ → Option (Workers κ)
  | .act a => s.act w a
  | .schedule fc thread => s.act w (.schedule (fc.entry thread).1)
  | .scheduleRange range =>
    if range.entries.all fun ft => ft.fiber.all fun f => f < s.scheduler.fibers then
      some { s with scheduler := s.scheduler.scheduleRange range }
    else none

theorem scheduleRange_eq_some {s t : Workers κ} {w : Nat} {range : TaskRange κ}
    (done : s.call w (.scheduleRange range) = some t) :
    t = { s with scheduler := s.scheduler.scheduleRange range } := by
  simp only [call] at done
  split at done
  · exact (Option.some.inj done).symm
  · cases done

def CallStep (s : Workers κ) (l : Nat × Scheduler.Call κ) (t : Workers κ) : Prop := s.call l.1 l.2 = some t

/-- The step is the selection of `Scheduler::run`. -/
def Selects (s : Workers κ) : Nat × Scheduler.Call κ → Prop
  | (w, .act .run) => (s.worker w).pc = .select
  | _ => False

/-- A step of the workers together with the book that is kept of the queue. A selection takes the
first entry that is eligible for the worker into its `ft`; every other step leaves the entries where
they are and appends those that it hands to `scheduleNoLock` and that have a task. -/
inductive Booked : Workers κ × Book (FiberAndThread κ) Nat → Nat × Scheduler.Call κ →
    Workers κ × Book (FiberAndThread κ) Nat → Prop
  | select {s t l b c found} : s.CallStep l t → s.Selects l →
      b.Takes (fun ft => ft.Eligible s.scheduler.m_state l.1) l.1 found c →
      (t.worker l.1).pc = .selected found.isSome → (∀ ft, found = some ft → (t.worker l.1).ft = ft) →
      Booked (s, b) l (t, c)
  | other {s t l b} : s.CallStep l t → ¬ s.Selects l →
      Booked (s, b) l (t, b.accept ((Scheduler.offered (s.worker l.1) l.2).filter (·.accepted)))

/-- The book is sound and its queue is `m_fibers`. -/
structure Kept (s : Workers κ) (b : Book (FiberAndThread κ) Nat) : Prop where
  sound : b.Sound
  queue : b.queue.map Prod.fst = s.scheduler.m_fibers
  accepted : ∀ ft ∈ s.scheduler.m_fibers, ft.accepted
  thread : b.TakenBy fun (w : Nat) ft => ft.thread = -1 ∨ ft.thread = (w : Int)

theorem call_m_fibers {s t : Workers κ} {l : Nat × Scheduler.Call κ} (step : s.CallStep l t)
    (other : ¬ s.Selects l) :
    t.scheduler.m_fibers = s.scheduler.m_fibers ++ (Scheduler.offered (s.worker l.1) l.2).filter (·.accepted) := by
  obtain ⟨w, c⟩ := l
  cases c with
  | act a =>
    refine Scheduler.act_m_fibers (fun run => ?_) (act_eq_some step).1
    subst run
    exact other
  | schedule fc thread => exact Scheduler.act_m_fibers (a := .schedule (fc.entry thread).1) nofun (act_eq_some step).1
  | scheduleRange range =>
    rw [scheduleRange_eq_some step]
    exact Scheduler.m_fibers_scheduleRange _ _

theorem Kept.select {s t : Workers κ} {w : Nat} {b : Book (FiberAndThread κ) Nat} (kept : s.Kept b)
    (pc : (s.worker w).pc = .select) (step : s.act w .run = some t) : ∃ found c,
      b.Takes (fun ft => ft.Eligible s.scheduler.m_state w) w found c ∧
      (t.worker w).pc = .selected found.isSome ∧ (∀ ft, found = some ft → (t.worker w).ft = ft) ∧
      c.queue.map Prod.fst = t.scheduler.m_fibers := by
  have done := (act_eq_some step).1
  have finds := Scheduler.selectFrom_finds s.scheduler.m_state w kept.accepted
  simp only [Scheduler.act, Scheduler.runStep, pc] at done
  generalize Scheduler.selectFrom s.scheduler.m_state w s.scheduler.m_fibers = selection at done finds
  cases finds with
  | nothing none =>
    obtain ⟨same, me⟩ := Prod.mk.inj (Option.some.inj done)
    refine ⟨.none, b, .nothing ?_, by rw [← me]; rfl, ?_, by rw [← same]; exact kept.queue⟩
    · intro e member
      exact none e.1 (kept.queue ▸ List.mem_map_of_mem member)
    · intro ft found
      cases found
  | @entry front ft back shape mine before =>
    obtain ⟨same, me⟩ := Prod.mk.inj (Option.some.inj done)
    rw [← kept.queue] at shape
    obtain ⟨front', rest, queue, rfl, tail⟩ := List.map_eq_append_iff.mp shape
    obtain ⟨⟨_, n⟩, back', rfl, rfl, rfl⟩ := List.map_eq_cons_iff.mp tail
    refine ⟨some _, _, .first queue mine ?_, by rw [← me]; rfl, ?_, ?_⟩
    · intro e member
      exact before e.1 (List.mem_map_of_mem member)
    · intro ft' found
      rw [← me, ← Option.some.inj found]
    · rw [← same]
      simp

/-- Every step of the workers is a step with the book. -/
theorem Kept.booked {s t : Workers κ} {l : Nat × Scheduler.Call κ} {b : Book (FiberAndThread κ) Nat}
    (kept : s.Kept b) (step : s.CallStep l t) : ∃ c, Booked (s, b) l (t, c) ∧ t.Kept c := by
  obtain ⟨w, call⟩ := l
  by_cases selects : s.Selects (w, call)
  · match call, selects with
    | .act .run, pc =>
      obtain ⟨found, c, takes, selected, ft, queue⟩ := kept.select pc step
      refine ⟨c, .select step pc takes selected ft, kept.sound.takes takes, queue, ?_, ?_⟩
      · intro ft member
        rw [← queue] at member
        exact kept.accepted ft (kept.queue ▸ (takes.queue_sublist.map _).subset member)
      · exact kept.thread.takes kept.sound takes fun ft eligible => eligible.1
  · have queue := call_m_fibers step selects
    refine ⟨_, .other step selects, kept.sound.accept _, ?_, ?_, kept.thread.accept _⟩
    · rw [queue]
      simp [Book.accept, List.zipIdx_map_fst, kept.queue]
    · intro ft member
      rw [queue] at member
      rcases List.mem_append.mp member with old | new
      · exact kept.accepted ft old
      · exact (List.mem_filter.mp new).2

theorem kept_init : Kept ({} : Workers κ) {} := ⟨Book.sound_empty, rfl, nofun, nofun⟩

/-- Every run of the workers and of the calls of `schedule` is a run with the book, whose queue is
`m_fibers` all along: each accepted entry has one ticket and is in the queue or has been taken, never
both and never twice, only workers that may take it take it, the first eligible entry is the one that
is taken, and the entries left behind keep their order. -/
theorem run_booked {t : Workers κ} {ls : List (Nat × Scheduler.Call κ)} (run : Run CallStep {} ls t) :
    ∃ b, Run Booked ({}, {}) ls (t, b) ∧ t.Kept b := by
  induction run with
  | start => exact ⟨{}, .start, kept_init⟩
  | next _ step ih =>
    obtain ⟨b, before, kept⟩ := ih
    obtain ⟨c, booked, after⟩ := kept.booked step
    exact ⟨c, .next before booked, after⟩

/-- Two functions go in as a range and a third one is pinned to the worker 1; the worker 0 leaves
that one where it is. -/
def pinned : List (Nat × Scheduler.Call Nat) :=
  [(0, .act .run), (0, .schedule (.cb (some 7)) 1), (0, .scheduleRange (.cbs [some 8, none, some 9])),
   (0, .act .run)]

theorem run_booked_pinned : ∃ t b, Run Booked (({} : Workers Nat), {}) pinned (t, b) ∧ t.Kept b ∧
    (t.worker 0).ft = { cb := some 8 } ∧
    t.scheduler.m_fibers = [{ cb := some 7, thread := 1 }, { cb := some 9 }] := by
  have run : ∃ t : Workers Nat, acts (fun s l => s.call l.1 l.2) {} pinned = some t ∧
      (t.worker 0).ft = { cb := some 8 } ∧
      t.scheduler.m_fibers = [{ cb := some 7, thread := 1 }, { cb := some 9 }] := ⟨_, rfl, rfl, rfl⟩
  obtain ⟨t, done, taken, left⟩ := run
  obtain ⟨b, booked, kept⟩ := run_booked (run_of_acts _ done)
  exact ⟨t, b, booked, kept, taken, left⟩

end Workers
end Sylar
