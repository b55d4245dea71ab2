import Sylar.HookEffect
import Sylar.IOManagerKernel

/-! `close` of `hook.cc` with its effects on the `IOManager` of the calling thread, on `FdManager` and on
the kernel, which forgets a descriptor that is closed. -/

namespace Sylar
open Machine

variable {κ : Type}

/-- `epoll_ctl` fails for a descriptor that is not open. -/
def openOnly (files : Kernel) : Epoll (Nat → Option Mask) where
  ctl list op fd events := if (files fd).isNone then (-1, list) else interestList.ctl list op fd events

/-- A process with one `IOManager`. -/
structure Host (κ : Type) where
  process : Process
  iom : IOManager (Nat → Option Mask) κ

namespace Host

/-- The hooked `close` on a thread of the `IOManager`. What it does to the contexts of `FdManager` and to
the file is `Process.close`. -/
def close (s : Host κ) (fd : Nat) : Option (Host κ) := do
  let iom ← match ← s.process.get fd with
    | some _ => (s.iom.cancelAll (openOnly s.process.kernel) fd).toOption.map (·.2.2)
    | none => some s.iom
  let process ← s.process.close true fd
  return { process := process, iom := { iom with kernel := Function.update iom.kernel fd none } }

/-- The calls that make and use descriptors, other than `close`, the hooked `close`, and the operations on
events. -/
inductive Act (κ : Type)
  | call (op : Process.Op)
  | close (fd : Nat)
  | event (op : EventOp κ) (out : EventOut)

variable (refuses : BitVec 32 → Bool)

def act (s : Host κ) : Act κ → Option (Host κ)
  | .call (.close _ _) => none
  | .call op => (s.process.act refuses op).map fun process => { s with process := process }
  | .close fd => s.close fd
  | .event op out =>
    match s.iom.exec (openOnly s.process.kernel) op with
    | .ok (rt, iom) => if rt = out then some { s with iom := iom } else none
    | .error _ => none

def Step (s : Host κ) (l : Act κ) (t : Host κ) : Prop := s.act refuses l = some t

/-- The descriptor has a context in `FdManager`. -/
def Tracked (s : Host κ) (fd : Int) : Prop := ∃ ctx, s.process.get fd = some (some ctx)

/-- What the continuations waiting on a descriptor append to the queue of a scheduler. -/
def waiting (s : Host κ) (fd : Nat) (scheduler : SchedId) : List (FiberAndThread κ) :=
  [Event.READ, .WRITE].filterMap fun event => ((s.iom.regs fd).get event).bind fun x =>
    if x.scheduler = some scheduler then some x.task.entry else none

/-- The hooked `close` schedules what waits on the descriptor, clears the descriptor everywhere, and leaves
all other descriptors as they are. -/
structure Closed (s : Host κ) (fd : Nat) (t : Host κ) : Prop where
  queues : ∀ scheduler, t.iom.queues scheduler = s.iom.queues scheduler ++ s.waiting fd scheduler
  context : ∀ c : FdContext κ, t.iom.m_FdContexts[fd]? = some c → c.events = 0 ∧ c.read = {} ∧ c.write = {}
  pending : t.iom.m_pendingEventCount = s.iom.m_pendingEventCount - (s.iom.regs fd).count
  deleted : t.process.get fd = some none
  forgotten : t.process.kernel fd = none ∧ t.iom.kernel fd = none
  contexts : ∀ other, other ≠ fd →
    t.iom.m_FdContexts[other]? = s.iom.m_FdContexts[other]? ∧ t.iom.kernel other = s.iom.kernel other
  others : ∀ other : Int, other ≠ fd →
    t.process.get other = s.process.get other ∧ t.process.kernel other = s.process.kernel other

def Closes (s : Host κ) (fd : Nat) : Prop := ∃ t, s.close fd = some t ∧ s.Closed fd t

/-- Nothing waits on the descriptor, or it is in the interest list and whoever waits has a scheduler. -/
def Ready (s : Host κ) (fd : Nat) : Prop :=
  s.iom.eventsAt fd = 0 ∨
    (s.iom.kernel fd).isSome ∧ ∀ event x, (s.iom.regs fd).get event = some x → x.scheduler.isSome

end Host

namespace IOManager

variable {K : Type} {s t : IOManager K κ} {fd : Nat}

/-- Triggers take the registrations of one descriptor away, and lower the counter by their number. -/
theorem fireEach_frame {events : List Event} (done : s.fireEach fd events = .ok t) :
    (∀ other, other ≠ fd → t.m_FdContexts[other]? = s.m_FdContexts[other]?) ∧
      t.m_pendingEventCount = s.m_pendingEventCount + ((t.regs fd).count - (s.regs fd).count) := by
  induction events generalizing s with
  | nil =>
    cases done
    exact ⟨fun _ _ => rfl, by omega⟩
  | cons event events ih =>
    obtain ⟨u, first, rest⟩ := bind_eq_ok.mp done
    obtain ⟨scheduler, task, taken, rfl⟩ := fire_ok first
    obtain ⟨others, count⟩ := ih rest
    refine ⟨fun other different => ?_, ?_⟩
    · rw [others other different]
      exact List.getElem?_set_ne different.symm
    · have here : IOManager.regs { s.setReg fd event none with queues := schedule s.queues scheduler task.entry } fd =
          (s.regs fd).put event none := regs_setReg_self (inside_of_get taken) event none
      rw [count, here]
      simp only [IOManager.setReg]
      omega

/-- Triggers go through if every registration has a scheduler. -/
theorem fireEach_total {events : List Event} (distinct : events.Nodup)
    (owned : ∀ event ∈ events, ∃ scheduler task, (s.regs fd).get event = some ⟨some scheduler, task⟩) :
    ∃ t, s.fireEach fd events = .ok t := by
  induction events generalizing s with
  | nil => exact ⟨s, rfl⟩
  | cons event events ih =>
    obtain ⟨fresh, distinct⟩ := List.nodup_cons.mp distinct
    obtain ⟨scheduler, task, taken⟩ := owned event (List.mem_cons_self ..)
    have fired : s.fire fd event =
        .ok { s.setReg fd event none with queues := schedule s.queues scheduler task.entry } := by
      simp only [fire, taken]
    obtain ⟨t, rest⟩ := ih (s := { s.setReg fd event none with queues := schedule s.queues scheduler task.entry })
      distinct fun other member => by
        obtain ⟨scheduler', task', taken'⟩ := owned other (List.mem_cons_of_mem _ member)
        refine ⟨scheduler', task', ?_⟩
        have different : other ≠ event := fun same => fresh (same ▸ member)
        have regs := regs_setReg_self (inside_of_get taken) event none
        exact (congrArg (Regs.get · other) regs).trans ((Regs.get_put_ne _ different none).trans taken')
    exact ⟨t, by rw [fireEach, fired]; exact rest⟩

end IOManager

theorem Regs.eq_empty {r : Regs κ} (empty : r.mask = 0) : r = {} := by
  refine Regs.ext_get fun event => ?_
  rw [Regs.get_empty]
  exact (r.mask_and_bits event).mp (by simp [empty])

/-- `Regs.events` are the events that are registered. -/
theorem Regs.mem_events {r : Regs κ} {event : Event} : event ∈ r.events ↔ (r.get event).isSome := by
  rcases r with ⟨_ | _, _ | _⟩ <;> cases event <;> simp [Regs.events, Regs.get]

namespace Host

variable {s t : Host κ} {fd : Nat}

theorem waiting_eq (s : Host κ) (fd : Nat) (scheduler : SchedId) :
    s.waiting fd scheduler =
      (s.iom.takes fd (s.iom.regs fd).events .scheduled).filterMap (Change.appended scheduler) := by
  have appended (x : Registration κ) (event : Event) : Change.appended scheduler (.take (fd, event) x .scheduled) =
      if x.scheduler = some scheduler then some x.task.entry else none := rfl
  unfold waiting IOManager.takes
  rcases shape : s.iom.regs fd with ⟨_ | x, _ | y⟩ <;>
    simp [Regs.events, Regs.get, List.filterMap_cons, appended]

section OpenOnly
variable {files : Kernel} {list : Nat → Option Mask} {op : EpollOp} {events : Mask}

theorem openOnly_open (opened : (files fd).isSome) :
    (openOnly files).ctl list op fd events = interestList.ctl list op fd events := by
  obtain ⟨file, atFd⟩ := Option.isSome_iff_exists.mp opened
  simp [openOnly, atFd]

theorem openOnly_closed (closed : files fd = none) : (openOnly files).ctl list op fd events = (-1, list) := by
  simp [openOnly, closed]

theorem openOnly_frame {other : Nat} (different : other ≠ fd) :
    ((openOnly files).ctl list op fd events).2 other = list other := by
  unfold openOnly interestList
  dsimp only
  split
  · rfl
  split
  all_goals first | exact Function.update_of_ne different _ _ | rfl

end OpenOnly

/-- The part of a hooked `close` that concerns `FdManager` and the file. -/
theorem process_close {p : Process} {ctx : FdCtx} (found : p.get fd = some (some ctx)) :
    ∃ q, p.close true fd = some q ∧ q.kernel = Function.update p.kernel fd none ∧
      q.get = Function.update p.get (fd : Int) (some none) := by
  have positive := Process.positive_of_get found
  have inside := Process.inside_of_get found
  refine ⟨{ kernel := p.kernel.close fd, m_datas := p.m_datas.set (fd : Int).toNat none }, ?_, rfl, ?_⟩
  · simp only [Process.close, if_true, found, Process.del, if_neg inside, if_neg positive]
    rfl
  · exact Process.get_set inside positive _ _

/-- The hooked `close` of a descriptor with a context returns exactly if `cancelAll` does. -/
theorem close_eq_some_iff (tracked : s.Tracked fd) :
    s.close fd = some t ↔ ∃ success rt iom,
      s.iom.cancelAll (openOnly s.process.kernel) fd = .ok (success, rt, iom) ∧
      s.process.close true fd = some t.process ∧
      t.iom = { iom with kernel := Function.update iom.kernel fd none } := by
  obtain ⟨ctx, found⟩ := tracked
  obtain ⟨q, closed, -⟩ := process_close found
  cases called : s.iom.cancelAll (openOnly s.process.kernel) fd with
  | error reason => simp [close, found, called, Except.toOption]
  | ok result =>
    obtain ⟨success, rt, iom⟩ := result
    simp only [close, found, called, closed, Except.toOption, Option.bind_eq_bind, Option.bind_some,
      Option.map_some, Option.pure_def, Except.ok.injEq, Prod.mk.injEq]
    constructor
    · intro same
      cases same
      exact ⟨_, _, _, ⟨rfl, rfl, rfl⟩, rfl, rfl⟩
    · rintro ⟨_, _, _, ⟨rfl, rfl, rfl⟩, same, iom⟩
      cases t
      cases same
      cases iom
      rfl

/-- The frame of `close`, for what `cancelAll` has to leave behind. -/
theorem closed_of_cancelAll {ctx : FdCtx} (found : s.process.get fd = some (some ctx))
    {iom : IOManager (Nat → Option Mask) κ} (good : iom.Good)
    (queues : ∀ scheduler, iom.queues scheduler = s.iom.queues scheduler ++ s.waiting fd scheduler)
    (empty : iom.regs fd = {})
    (pending : iom.m_pendingEventCount = s.iom.m_pendingEventCount - (s.iom.regs fd).count)
    (contexts : ∀ other, other ≠ fd →
      iom.m_FdContexts[other]? = s.iom.m_FdContexts[other]? ∧ iom.kernel other = s.iom.kernel other)
    {t : Host κ} (closed : s.process.close true fd = some t.process)
    (same : t.iom = { iom with kernel := Function.update iom.kernel fd none }) : s.Closed fd t := by
  obtain ⟨q, closed', kernel, get⟩ := process_close found
  cases Option.some.inj (closed'.symm.trans closed)
  refine ⟨?_, ?_, ?_, ?_, ⟨?_, ?_⟩, ?_, ?_⟩
  · rw [same]
    exact queues
  · intro c atFd
    rw [same] at atFd
    have shape := good.repr fd c atFd
    have regs : c.regs = {} := by
      rw [← empty, IOManager.regs, atFd]
    rw [regs] at shape
    rw [shape]
    exact ⟨Regs.mask_empty, rfl, rfl⟩
  · rw [same]
    exact pending
  · rw [get, Function.update_self]
  · rw [kernel, Function.update_self]
  · rw [same]
    exact Function.update_self ..
  · intro other different
    rw [same]
    exact ⟨(contexts other different).1, (Function.update_of_ne different _ _).trans (contexts other different).2⟩
  · intro other different
    rw [get, kernel, Function.update_of_ne different, Function.update_of_ne different]
    exact ⟨rfl, rfl⟩

theorem mem_takes {K : Type} {s : IOManager K κ} {event : Event} {x : Registration κ}
    (registered : (s.regs fd).get event = some x) :
    .take (fd, event) x .scheduled ∈ s.takes fd (s.regs fd).events .scheduled := by
  refine List.mem_filterMap.mpr ⟨event, Regs.mem_events.mpr (by simp [registered]), ?_⟩
  rw [registered, Option.map_some]

/-- `cancelAll` triggers what waits, if the descriptor is in the interest list and whoever waits has a
scheduler. -/
theorem cancelAll_total (good : s.iom.Good) (opened : (s.process.kernel fd).isSome)
    (waits : (s.iom.regs fd).mask ≠ 0) (listed : (s.iom.kernel fd).isSome)
    (owned : ∀ event x, (s.iom.regs fd).get event = some x → x.scheduler.isSome) :
    ∃ iom, s.iom.cancelAll (openOnly s.process.kernel) fd = .ok (true, some 0, iom) := by
  have fires : ∃ iom, { s.iom with kernel := Function.update s.iom.kernel fd none }.fireEach fd
      (s.iom.regs fd).events = .ok iom := by
    refine IOManager.fireEach_total (IOManager.nodup_directions _ _) fun event member => ?_
    obtain ⟨⟨scheduler, task⟩, registered⟩ := Option.isSome_iff_exists.mp (Regs.mem_events.mp member)
    obtain ⟨scheduler, rfl⟩ := Option.isSome_iff_exists.mp (owned event _ registered)
    exact ⟨scheduler, task, registered⟩
  obtain ⟨iom, fired⟩ := fires
  refine ⟨iom, ?_⟩
  rw [good.cancelAll_eq, openOnly_open opened, interestList.del_taken listed, IOManager.removal, if_neg waits]
  simp only [ne_eq, not_true_eq_false, if_false, fired]
  rfl

/-- The hooked `close` of an open descriptor with a context does its work exactly if it is ready for it. -/
theorem closes_iff (good : s.iom.Good) (tracked : s.Tracked fd) (opened : (s.process.kernel fd).isSome) :
    s.Closes fd ↔ s.Ready fd := by
  obtain ⟨ctx, found⟩ := id tracked
  unfold Ready
  rw [good.eventsAt_eq]
  constructor
  · rintro ⟨t, done, closed⟩
    by_cases empty : (s.iom.regs fd).mask = 0
    · exact Or.inl empty
    obtain ⟨success, rt, iom, called, -, same⟩ := (close_eq_some_iff tracked).mp done
    have refines := good.cancelAll_refines _ called
    rw [good.cancelAll_eq, openOnly_open opened] at called
    rcases IOManager.removal_cases called with ⟨idle, -⟩ | ⟨-, -, -, -, rfl⟩ | ⟨-, agreed, rfl, rfl, -⟩
    · exact absurd idle empty
    · have atFd := good.context_eq (IOManager.inside_of_mask empty)
      have kept : t.iom.m_FdContexts = s.iom.m_FdContexts := by rw [same]
      rw [← kept] at atFd
      exact absurd (closed.context _ atFd).1 empty
    · refine Or.inr ⟨?_, fun event x registered => refines.owner (fd, event) x (mem_takes registered)⟩
      by_contra missing
      simp only [Bool.not_eq_true, Option.isSome_eq_false_iff, Option.isNone_iff_eq_none] at missing
      simp [interestList, missing] at agreed
  · intro ready
    by_cases empty : (s.iom.regs fd).mask = 0
    · have called : s.iom.cancelAll (openOnly s.process.kernel) fd = .ok (false, none, s.iom) := by
        rw [good.cancelAll_eq, IOManager.removal, if_pos empty]
      obtain ⟨q, closed, -⟩ := process_close found
      have none := Regs.eq_empty empty
      refine ⟨⟨q, _⟩, (close_eq_some_iff tracked).mpr ⟨_, _, _, called, closed, rfl⟩, ?_⟩
      refine closed_of_cancelAll found good ?_ none ?_ (fun _ _ => ⟨rfl, rfl⟩) closed rfl
      · intro scheduler
        simp [waiting, none]
      · rw [none]
        exact (Int.sub_zero _).symm
    · obtain ⟨listed, owned⟩ := ready.resolve_left empty
      obtain ⟨iom, called⟩ := cancelAll_total good opened empty listed owned
      obtain ⟨q, closed, -⟩ := process_close found
      have refines := good.cancelAll_refines _ called
      refine ⟨⟨q, _⟩, (close_eq_some_iff tracked).mpr ⟨_, _, _, called, closed, rfl⟩, ?_⟩
      rw [good.cancelAll_eq, openOnly_open opened, interestList.del_taken listed] at called
      rcases IOManager.removal_cases called with ⟨-, no, -⟩ | ⟨-, failed, -⟩ | ⟨-, -, -, -, fired⟩
      · cases no
      · exact absurd rfl failed
      · obtain ⟨others, count⟩ := IOManager.fireEach_frame fired
        have inside := IOManager.inside_of_mask empty
        have regs := ((good.withKernel _).after_fireEach (by exact inside) fired).2.2
        have gone : iom.regs fd = {} := regs.trans (Regs.clear_events _)
        have kernel := IOManager.fireEach_kernel fired
        refine closed_of_cancelAll found refines.good ?_ gone ?_ ?_ closed rfl
        · intro scheduler
          rw [refines.queues, waiting_eq]
          rfl
        · rw [count, gone]
          change s.iom.m_pendingEventCount + (0 - (s.iom.regs fd).count) = _
          omega
        · intro other different
          exact ⟨others other different, by rw [kernel]; exact Function.update_of_ne different _ _⟩

end Host
end Sylar
