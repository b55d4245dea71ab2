import Sylar.Lib.Board
import Sylar.IOManagerSpec

namespace Sylar
open Machine

variable {K κ : Type}

/-- The operations on the events of one `IOManager`. `report` is one turn of the loop in `idle`,
for a report of `epoll_wait` that carries the context of `fd`. -/
inductive EventOp (κ : Type)
  | addEvent (fd : Nat) (event : Event) (cb : Option κ) (caller : Caller)
  | delEvent (fd : Nat) (event : Event)
  | cancelEvent (fd : Nat) (event : Event)
  | cancelAll (fd : Nat)
  | report (fd : Nat) (events : Mask)
  deriving DecidableEq, Repr

/-- The operation ends what is registered in the slot, if it succeeds. -/
def EventOp.Removes (slot : Nat × Event) : EventOp κ → Prop
  | .addEvent _ _ _ _ => False
  | .delEvent fd event | .cancelEvent fd event => (fd, event) = slot
  | .cancelAll fd => fd = slot.1
  | .report fd events => fd = slot.1 ∧ slot.2 ∈ IOManager.reported events

/-- Whether the operation did what it is for, and what its call of `epoll_ctl` returned. -/
structure EventOut where
  success : Bool
  rt : Option Int
  deriving DecidableEq, Repr

/-- How a registration ends. -/
inductive Way
  | scheduled
  | discarded
  deriving DecidableEq, Repr

/-- A registration made or ended. -/
abbrev Change (κ : Type) := Board.Act (Nat × Event) (Registration κ) Way

/-- What a registration that ends appends to the queue of a scheduler. -/
def Change.appended (scheduler : SchedId) : Change κ → Option (FiberAndThread κ)
  | .take _ x .scheduled => if x.scheduler = some scheduler then some x.task.entry else none
  | _ => none

theorem Change.appended_eq_some {scheduler : SchedId} {a : Change κ} {ft : FiberAndThread κ}
    (appended : a.appended scheduler = some ft) :
    ∃ slot x, a = .take slot x .scheduled ∧ x.scheduler = some scheduler ∧ ft = x.task.entry := by
  cases a with
  | put => cases appended
  | take slot x way =>
    cases way with
    | discarded => cases appended
    | scheduled =>
      simp only [Change.appended] at appended
      split at appended
      · rename_i owner
        exact ⟨slot, x, rfl, owner, (Option.some.inj appended).symm⟩
      · cases appended

theorem Continuation.eq_fiber {task : Continuation κ} {f : FiberId} (fiber : task.entry.fiber = some f) :
    task = .fiber f := by
  cases task with
  | callback cb => cases fiber
  | fiber g => cases fiber; rfl

namespace IOManager

variable (ep : Epoll K)

def exec (s : IOManager K κ) : EventOp κ → Except Abort (EventOut × IOManager K κ)
  | .addEvent fd event cb caller => do
    let (ret, rt, s) ← s.addEvent ep fd event cb caller
    return ({ success := ret == 0, rt := rt }, s)
  | .delEvent fd event => do
    let (success, rt, s) ← s.delEvent ep fd event
    return ({ success := success, rt := rt }, s)
  | .cancelEvent fd event => do
    let (success, rt, s) ← s.cancelEvent ep fd event
    return ({ success := success, rt := rt }, s)
  | .cancelAll fd => do
    let (success, rt, s) ← s.cancelAll ep fd
    return ({ success := success, rt := rt }, s)
  | .report fd events => do
    let (rt, s) ← s.dispatch ep fd events
    return ({ success := rt == some 0, rt := rt }, s)

/-- A step is an operation that does not abort, with its results. -/
def Step (s : IOManager K κ) (l : EventOp κ × EventOut) (t : IOManager K κ) : Prop :=
  s.exec ep l.1 = .ok (l.2, t)

/-- What the constructor leaves behind. -/
structure Init (s : IOManager K κ) : Prop where
  contexts : s.m_FdContexts = contextResize (fun i => { fd := i }) [] 32
  pending : s.m_pendingEventCount = 0

/-- The registrations as a board with two slots for every descriptor. -/
def board (s : IOManager K κ) (slot : Nat × Event) : Option (Registration κ) := (s.regs slot.1).get slot.2

/-- The end of the registrations of several events of one descriptor. -/
def takes (s : IOManager K κ) (fd : Nat) (events : List Event) (way : Way) : List (Change κ) :=
  events.filterMap fun event => ((s.regs fd).get event).map fun x => .take (fd, event) x way

/-- The registration that a successful `addEvent` makes. -/
def registration (cb : Option κ) (caller : Caller) : Registration κ where
  scheduler := caller.scheduler
  task := match cb with
    | some cb => .callback cb
    | none => .fiber caller.fiber

/-- What an operation with the given results has done to the registrations. -/
def changes (s : IOManager K κ) (op : EventOp κ) (out : EventOut) : List (Change κ) :=
  if out.success then
    match op with
    | .addEvent fd event cb caller => [.put (fd, event) (registration cb caller)]
    | .delEvent fd event => s.takes fd [event] .discarded
    | .cancelEvent fd event => s.takes fd [event] .scheduled
    | .cancelAll fd => s.takes fd (s.regs fd).events .scheduled
    | .report fd events => s.takes fd (reported events) .scheduled
  else []

/-- The registrations that an operation makes. -/
theorem changes_put {s : IOManager K κ} {op : EventOp κ} {out : EventOut} {slot : Nat × Event} {x : Registration κ}
    (member : .put slot x ∈ s.changes op out) : ∃ fd event cb caller, op = .addEvent fd event cb caller ∧
      x = registration cb caller := by
  have takes : ∀ fd events way, .put slot x ∉ s.takes fd events way := by
    intro fd events way member
    obtain ⟨event, -, taken⟩ := List.mem_filterMap.mp member
    obtain ⟨y, -, same⟩ := Option.map_eq_some_iff.mp taken
    cases same
  simp only [changes] at member
  split at member
  · cases op with
    | addEvent fd event cb caller =>
      cases List.mem_singleton.mp member
      exact ⟨fd, event, cb, caller, rfl, rfl⟩
    | _ => exact absurd member (takes _ _ _)
  · cases member

/-- The registrations that an operation ends. -/
theorem changes_take {s : IOManager K κ} {op : EventOp κ} {out : EventOut} {slot : Nat × Event} {x : Registration κ}
    {way : Way} (member : .take slot x way ∈ s.changes op out) :
    out.success ∧ op.Removes slot ∧ (way = .scheduled ∨ op = .delEvent slot.1 slot.2) := by
  have takes : ∀ fd events other, .take slot x way ∈ s.takes fd events other →
      fd = slot.1 ∧ slot.2 ∈ events ∧ way = other := by
    intro fd events other member
    obtain ⟨event, listed, taken⟩ := List.mem_filterMap.mp member
    obtain ⟨y, -, same⟩ := Option.map_eq_some_iff.mp taken
    cases same
    exact ⟨rfl, listed, rfl⟩
  simp only [changes] at member
  split at member
  · rename_i success
    refine ⟨success, ?_⟩
    cases op with
    | addEvent => cases List.mem_singleton.mp member
    | delEvent fd event =>
      obtain ⟨rfl, listed, -⟩ := takes _ _ _ member
      cases List.mem_singleton.mp listed
      exact ⟨rfl, .inr rfl⟩
    | cancelEvent fd event =>
      obtain ⟨same, listed, scheduled⟩ := takes _ _ _ member
      exact ⟨Prod.ext same (List.mem_singleton.mp listed).symm, .inl scheduled⟩
    | cancelAll fd =>
      obtain ⟨same, -, scheduled⟩ := takes _ _ _ member
      exact ⟨same, .inl scheduled⟩
    | report fd events =>
      obtain ⟨same, listed, scheduled⟩ := takes _ _ _ member
      exact ⟨⟨same, listed⟩, .inl scheduled⟩
  · cases member

/-- The faithful state `t` comes from `s` by the changes on the board, and nothing but the
continuations of the scheduled registrations was appended to the queues. -/
structure Refines (s : IOManager K κ) (acts : List (Change κ)) (t : IOManager K κ) : Prop where
  good : t.Good
  run : Run Board.Step s.board acts t.board
  queues : ∀ scheduler, t.queues scheduler = s.queues scheduler ++ acts.filterMap (Change.appended scheduler)
  owner : ∀ slot x, .take slot x .scheduled ∈ acts → x.scheduler.isSome

theorem Refines.trans {s t u : IOManager K κ} {acts more : List (Change κ)} (first : Refines s acts t)
    (second : Refines t more u) : Refines s (acts ++ more) u where
  good := second.good
  run := first.run.append second.run
  queues scheduler := by
    rw [second.queues, first.queues, List.filterMap_append, List.append_assoc]
  owner slot x member := by
    rcases List.mem_append.mp member with early | late
    · exact first.owner slot x early
    · exact second.owner slot x late

/-- A change of the kernel or of the length of the table only. -/
theorem Refines.silent {s t : IOManager K κ} (good : t.Good) (regs : ∀ fd, t.regs fd = s.regs fd)
    (queues : t.queues = s.queues) : Refines s [] t where
  good := good
  run := by
    have same : t.board = s.board := by
      funext slot
      rw [board, regs]
      rfl
    rw [same]
    exact .start
  queues scheduler := by simp [queues]
  owner slot x member := by cases member

theorem takes_slot {s : IOManager K κ} {fd : Nat} {events : List Event} {way : Way} :
    ∀ a ∈ s.takes fd events way, a.slot.1 = fd := by
  intro a member
  obtain ⟨event, -, taken⟩ := List.mem_filterMap.mp member
  obtain ⟨x, -, rfl⟩ := Option.map_eq_some_iff.mp taken
  rfl

theorem board_setReg {s : IOManager K κ} {fd : Nat} (inside : fd < s.m_FdContexts.length) {event : Event}
    (real : event ≠ .NONE) (x : Option (Registration κ)) :
    (s.setReg fd event x).board = Function.update s.board (fd, event) x := by
  funext ⟨other, dir⟩
  by_cases same : other = fd
  · subst same
    rw [board, regs_setReg_self inside]
    by_cases same : dir = event
    · subst same
      rw [Function.update_self, Regs.get_put_self _ real]
    · rw [Function.update_of_ne (by simp [same]), Regs.get_put_ne _ same]
      rfl
  · rw [board, regs_setReg_ne same, Function.update_of_ne (by simp [same])]
    rfl

theorem inside_of_get {s : IOManager K κ} {fd : Nat} {event : Event} {x : Registration κ}
    (taken : (s.regs fd).get event = some x) : fd < s.m_FdContexts.length := by
  rcases Nat.lt_or_ge fd s.m_FdContexts.length with inside | outside
  · exact inside
  · simp [regs_outside outside] at taken

theorem inside_of_mask {s : IOManager K κ} {fd : Nat} (some : (s.regs fd).mask ≠ 0) :
    fd < s.m_FdContexts.length := by
  rcases Nat.lt_or_ge fd s.m_FdContexts.length with inside | outside
  · exact inside
  · simp [regs_outside outside] at some

theorem Good.refines_put {s : IOManager K κ} (good : s.Good) {fd : Nat} (inside : fd < s.m_FdContexts.length)
    {event : Event} (real : event ≠ .NONE) (free : (s.regs fd).get event = none) (x : Registration κ) (kernel : K) :
    Refines s [.put (fd, event) x] { s.setReg fd event (some x) with kernel := kernel } where
  good := (good.setReg inside event _).withKernel kernel
  run := by
    have step : Board.Step s.board (.put (fd, event) x : Change κ) _ := .put free
    rw [← board_setReg inside real] at step
    exact .next .start step
  queues scheduler := by simp [Change.appended, IOManager.setReg]
  owner slot x member := by simp at member

theorem Good.refines_take {s : IOManager K κ} (good : s.Good) {fd : Nat} {event : Event} {x : Registration κ}
    (taken : (s.regs fd).get event = some x) (way : Way) :
    (s.setReg fd event none).Good ∧
      Run Board.Step s.board [.take (fd, event) x way] (s.setReg fd event none).board := by
  have inside := inside_of_get taken
  have step : Board.Step s.board (.take (fd, event) x way) _ := .take taken
  rw [← board_setReg inside (Regs.real_of_get taken)] at step
  exact ⟨good.setReg inside event none, .next .start step⟩

theorem Good.refines_discard {s : IOManager K κ} (good : s.Good) {fd : Nat} {event : Event} {x : Registration κ}
    (taken : (s.regs fd).get event = some x) (kernel : K) :
    Refines s [.take (fd, event) x .discarded] { s.setReg fd event none with kernel := kernel } where
  good := (good.refines_take taken .discarded).1.withKernel kernel
  run := (good.refines_take taken .discarded).2
  queues scheduler := by simp [Change.appended, IOManager.setReg]
  owner slot x member := by simp at member

theorem Good.refines_fire {s t : IOManager K κ} (good : s.Good) {fd : Nat} {event : Event}
    (done : s.fire fd event = .ok t) :
    ∃ x, (s.regs fd).get event = some x ∧ Refines s [.take (fd, event) x .scheduled] t := by
  obtain ⟨scheduler, task, taken, rfl⟩ := fire_ok done
  obtain ⟨after, run⟩ := good.refines_take taken .scheduled
  refine ⟨_, taken, ⟨after.size, after.repr, after.count⟩, run, ?_, by simp⟩
  intro other
  rw [schedule_entry]
  by_cases same : scheduler = other
  · subst same
    simp [Change.appended]
  · simp [Change.appended, same, Function.update_of_ne (Ne.symm same)]

theorem Good.refines_fireEach {s t : IOManager K κ} (good : s.Good) {fd : Nat} {events : List Event}
    (distinct : events.Nodup) (done : s.fireEach fd events = .ok t) :
    Refines s (s.takes fd events .scheduled) t := by
  induction events generalizing s with
  | nil =>
    cases done
    exact .silent good (fun _ => rfl) rfl
  | cons event events ih =>
    obtain ⟨u, first, rest⟩ := bind_eq_ok.mp done
    obtain ⟨x, taken, refines⟩ := good.refines_fire first
    obtain ⟨fresh, distinct⟩ := List.nodup_cons.mp distinct
    have same : u.takes fd events .scheduled = s.takes fd events .scheduled := by
      apply List.filterMap_congr
      intro other member
      rw [(good.after_fire (inside_of_get taken) first).2.2, Regs.get_put_ne]
      rintro rfl
      exact fresh member
    have whole := refines.trans (ih refines.good distinct rest)
    rw [same] at whole
    simpa only [takes, List.filterMap_cons, taken, Option.map_some, List.singleton_append] using whole

theorem Good.addEvent_refines {s t : IOManager K κ} (good : s.Good) {fd : Nat} {event : Event} {cb : Option κ}
    {caller : Caller} {ret : Int} {rt : Option Int} (done : s.addEvent ep fd event cb caller = .ok (ret, rt, t)) :
    Refines s (s.changes (.addEvent fd event cb caller) { success := ret == 0, rt := rt }) t := by
  rw [good.addEvent_eq] at done
  rcases call : ep.ctl s.kernel (addOp (s.regs fd)) fd (EPOLLET ||| (s.regs fd).mask ||| event.bits) with ⟨r, after⟩
  simp only [call] at done
  have grown := good.grow fd
  have silent : ∀ kernel, Refines s [] { s.grow fd with kernel := kernel } := fun kernel =>
    .silent (grown.withKernel kernel) (good.grow_regs fd) (grow_queues s fd)
  split at done
  · cases done
  rename_i free
  split at done
  · cases done
    exact silent after
  split at done
  · cases done
  rename_i real
  obtain ⟨task, stored, done⟩ := bind_eq_ok.mp done
  cases done
  have same : registration cb caller = ⟨caller.scheduler, task⟩ := by
    cases cb with
    | some cb => cases stored; rfl
    | none =>
      rw [continuation] at stored
      split at stored
      · cases stored; rfl
      · cases stored
  have put := grown.refines_put (good.grow_length fd).1 real
    ((congrArg (Regs.get · event) (good.grow_regs fd fd)).trans (not_not.mp free)) ⟨caller.scheduler, task⟩ after
  simp only [changes, beq_self_eq_true, if_true, same]
  exact (silent (s.grow fd).kernel).trans put

theorem Good.kernel_refines {s : IOManager K κ} (good : s.Good) (kernel : K) :
    Refines s [] { s with kernel := kernel } :=
  .silent (good.withKernel kernel) (fun _ => rfl) rfl

theorem Good.delEvent_refines {s t : IOManager K κ} (good : s.Good) {fd : Nat} {event : Event} {success : Bool}
    {rt : Option Int} (done : s.delEvent ep fd event = .ok (success, rt, t)) :
    Refines s (s.changes (.delEvent fd event) { success := success, rt := rt }) t := by
  rw [good.delEvent_eq] at done
  rcases removal_cases done with ⟨-, rfl, -, rfl⟩ | ⟨-, -, rfl, -, rfl⟩ | ⟨taken, -, rfl, -, discarded⟩
  · exact good.kernel_refines _
  · exact good.kernel_refines _
  · obtain ⟨x, taken⟩ := Option.ne_none_iff_exists'.mp taken
    cases discarded
    simpa [changes, takes, taken] using good.refines_discard taken _

theorem Good.cancelEvent_refines {s t : IOManager K κ} (good : s.Good) {fd : Nat} {event : Event} {success : Bool}
    {rt : Option Int} (done : s.cancelEvent ep fd event = .ok (success, rt, t)) :
    Refines s (s.changes (.cancelEvent fd event) { success := success, rt := rt }) t := by
  rw [good.cancelEvent_eq] at done
  rcases removal_cases done with ⟨-, rfl, -, rfl⟩ | ⟨-, -, rfl, -, rfl⟩ | ⟨-, -, rfl, -, fired⟩
  · exact good.kernel_refines _
  · exact good.kernel_refines _
  · obtain ⟨x, taken, refines⟩ := (good.withKernel _).refines_fire fired
    rw [regs_withKernel] at taken
    simpa [changes, takes, taken] using (good.kernel_refines _).trans refines

theorem nodup_directions (p q : Prop) [Decidable p] [Decidable q] :
    ((if p then [Event.READ] else []) ++ (if q then [Event.WRITE] else [])).Nodup := by
  by_cases p <;> by_cases q <;> simp [*]

theorem Good.cancelAll_refines {s t : IOManager K κ} (good : s.Good) {fd : Nat} {success : Bool}
    {rt : Option Int} (done : s.cancelAll ep fd = .ok (success, rt, t)) :
    Refines s (s.changes (.cancelAll fd) { success := success, rt := rt }) t := by
  rw [good.cancelAll_eq] at done
  rcases removal_cases done with ⟨-, rfl, -, rfl⟩ | ⟨-, -, rfl, -, rfl⟩ | ⟨-, -, rfl, -, fired⟩
  · exact good.kernel_refines _
  · exact good.kernel_refines _
  · have refines := (good.withKernel _).refines_fireEach (nodup_directions _ _) fired
    exact (good.kernel_refines _).trans refines

theorem Good.dispatch_refines {s t : IOManager K κ} (good : s.Good) {fd : Nat} {events : Mask}
    {rt : Option Int} (done : s.dispatch ep fd events = .ok (rt, t)) :
    Refines s (s.changes (.report fd events) { success := rt == some 0, rt := rt }) t := by
  rw [good.dispatch_eq] at done
  obtain ⟨⟨success, rt', t'⟩, removed, same⟩ := bind_eq_ok.mp done
  cases same
  rcases removal_cases removed with ⟨-, -, rfl, rfl⟩ | ⟨-, failed, -, rfl, rfl⟩ | ⟨-, -, -, rfl, fired⟩
  · exact good.kernel_refines _
  · simp only [changes, beq_eq_false_iff_ne.mpr (fun zero => failed (Option.some.inj zero))]
    exact good.kernel_refines _
  · have refines := (good.withKernel _).refines_fireEach (nodup_directions _ _) fired
    exact (good.kernel_refines _).trans refines

/-- A step is one of the five operations. -/
theorem exec_cases {s : IOManager K κ} {P : EventOp κ → EventOut → IOManager K κ → Prop}
    (add : ∀ fd event cb caller ret rt t, s.addEvent ep fd event cb caller = .ok (ret, rt, t) →
      P (.addEvent fd event cb caller) { success := ret == 0, rt := rt } t)
    (del : ∀ fd event success rt t, s.delEvent ep fd event = .ok (success, rt, t) →
      P (.delEvent fd event) { success := success, rt := rt } t)
    (cancel : ∀ fd event success rt t, s.cancelEvent ep fd event = .ok (success, rt, t) →
      P (.cancelEvent fd event) { success := success, rt := rt } t)
    (all : ∀ fd success rt t, s.cancelAll ep fd = .ok (success, rt, t) →
      P (.cancelAll fd) { success := success, rt := rt } t)
    (report : ∀ fd events rt t, s.dispatch ep fd events = .ok (rt, t) →
      P (.report fd events) { success := rt == some 0, rt := rt } t)
    {op : EventOp κ} {out : EventOut} {t : IOManager K κ} (done : s.exec ep op = .ok (out, t)) : P op out t := by
  cases op with
  | addEvent fd event cb caller =>
    obtain ⟨⟨ret, rt, u⟩, done, same⟩ := bind_eq_ok.mp done
    cases same
    exact add fd event cb caller ret rt t done
  | delEvent fd event =>
    obtain ⟨⟨success, rt, u⟩, done, same⟩ := bind_eq_ok.mp done
    cases same
    exact del fd event success rt t done
  | cancelEvent fd event =>
    obtain ⟨⟨success, rt, u⟩, done, same⟩ := bind_eq_ok.mp done
    cases same
    exact cancel fd event success rt t done
  | cancelAll fd =>
    obtain ⟨⟨success, rt, u⟩, done, same⟩ := bind_eq_ok.mp done
    cases same
    exact all fd success rt t done
  | report fd events =>
    obtain ⟨⟨rt, u⟩, done, same⟩ := bind_eq_ok.mp done
    cases same
    exact report fd events rt t done

/-- Every operation that does not abort makes exactly its changes on the board. -/
theorem Good.refines {s t : IOManager K κ} (good : s.Good) {l : EventOp κ × EventOut} (step : s.Step ep l t) :
    Refines s (s.changes l.1 l.2) t := by
  refine exec_cases (P := fun op out t => Refines s (s.changes op out) t) ep ?_ ?_ ?_ ?_ ?_ step
  · exact fun _ _ _ _ _ _ _ done => good.addEvent_refines ep done
  · exact fun _ _ _ _ _ done => good.delEvent_refines ep done
  · exact fun _ _ _ _ _ done => good.cancelEvent_refines ep done
  · exact fun _ _ _ _ done => good.cancelAll_refines ep done
  · exact fun _ _ _ _ done => good.dispatch_refines ep done

theorem Init.good {s : IOManager K κ} (init : s.Init) : s.Good := by
  have grows : ([] : List (FdContext κ)).length ≤ 32 := Nat.zero_le _
  refine ⟨?_, ?_, ?_⟩
  · refine Nat.le_of_eq ?_
    rw [init.contexts, length_contextResize]
  · rw [init.contexts]
    exact contextResize_repr grows (fun i c atI => by simp at atI)
  · rw [init.contexts, sum_contextResize grows, init.pending]
    rfl

theorem Init.regs_eq {s : IOManager K κ} (init : s.Init) (fd : Nat) : s.regs fd = {} := by
  rcases Nat.lt_or_ge fd 32 with inside | outside
  · rw [regs, init.contexts, contextResize_new _ (Nat.zero_le _) inside]
    simp only [Regs.context_empty, Regs.regs_context]
  · apply regs_outside
    rw [init.contexts, length_contextResize]
    exact outside

theorem Init.board_empty {s : IOManager K κ} (init : s.Init) (slot : Nat × Event) : s.board slot = none := by
  rw [board, init.regs_eq, Regs.get_empty]

theorem good_of_reach {s : IOManager K κ} (reach : Reach Init (Step ep) s) : s.Good :=
  reach.invariant (fun _ init => init.good) (fun _ _ _ good step => (good.refines ep step).good)

section
variable {ep} {s t : IOManager K κ}

/-- What a step has left registered was registered before, or by its `addEvent`. -/
theorem Good.registered_before (good : s.Good) {l : EventOp κ × EventOut} (step : s.Step ep l t)
    {slot : Nat × Event} {x : Registration κ} (lies : t.board slot = some x) :
    s.board slot = some x ∨ ∃ cb caller, l.1 = .addEvent slot.1 slot.2 cb caller ∧ l.2.success ∧
      x = registration cb caller := by
  rcases Board.lay_or_put (good.refines ep step).run lies with old | put
  · exact .inl old
  have taken : ∀ fd events way, .put slot x ∉ s.takes fd events way := by
    intro fd events way member
    obtain ⟨event, -, same⟩ := List.mem_filterMap.mp member
    obtain ⟨y, -, same⟩ := Option.map_eq_some_iff.mp same
    cases same
  obtain ⟨op, out⟩ := l
  unfold changes at put
  split at put
  · rename_i success
    cases op with
    | addEvent fd event cb caller =>
      cases List.mem_singleton.mp put
      exact .inr ⟨cb, caller, rfl, success, rfl⟩
    | delEvent | cancelEvent | cancelAll | report => exact absurd put (taken _ _ _)
  · cases put

/-- A registration stays unless an operation that succeeds ends it. -/
theorem Good.registered_after (good : s.Good) {l : EventOp κ × EventOut} (step : s.Step ep l t)
    {slot : Nat × Event} {x : Registration κ} (lay : s.board slot = some x) :
    t.board slot = some x ∨ l.2.success ∧ l.1.Removes slot := by
  rcases Board.lies_or_taken (good.refines ep step).run lay with lies | ⟨way, taken⟩
  · exact .inl lies
  · obtain ⟨success, removes, -⟩ := changes_take taken
    exact .inr ⟨success, removes⟩

/-- A registration that `delEvent` does not discard stays, or its continuation is queued. -/
theorem Good.released (good : s.Good) {l : EventOp κ × EventOut} (step : s.Step ep l t) {slot : Nat × Event}
    {x : Registration κ} (lay : s.board slot = some x) (kept : l.1 ≠ .delEvent slot.1 slot.2) :
    t.board slot = some x ∨ ∃ scheduler, x.task.entry ∈ t.queues scheduler := by
  have refines := good.refines ep step
  rcases Board.lies_or_taken refines.run lay with lies | ⟨way, taken⟩
  · exact .inl lies
  · obtain ⟨-, -, scheduled | discarded⟩ := changes_take taken
    · subst scheduled
      obtain ⟨scheduler, owner⟩ := Option.isSome_iff_exists.mp (refines.owner slot x taken)
      refine .inr ⟨scheduler, ?_⟩
      rw [refines.queues]
      refine List.mem_append_right _ (List.mem_filterMap.mpr ⟨_, taken, ?_⟩)
      simp only [Change.appended, owner, if_true]
    · exact absurd discarded kept

theorem Good.addEvent_board (good : s.Good) {fd : Nat} {event : Event} {cb : Option κ} {caller : Caller}
    {out : EventOut} (step : s.Step ep (.addEvent fd event cb caller, out) t) (success : out.success) :
    t.board (fd, event) = some (registration cb caller) := by
  have run := (good.refines ep step).run
  simp only [changes, success, if_true] at run
  have put := Board.fate run (i := 0) rfl
  rcases put with ⟨lies, -⟩ | ⟨j, way, later, taken, -⟩
  · exact lies
  · rw [List.getElem?_eq_none (Nat.succ_le_of_lt later)] at taken
    cases taken

variable (ep) in
/-- `epoll_ctl` does what `addEvent` asks it for. -/
def Accepts (s : IOManager K κ) (fd : Nat) (event : Event) : Prop :=
  (ep.ctl s.kernel (if s.eventsAt fd ≠ 0 then .EPOLL_CTL_MOD else .EPOLL_CTL_ADD) fd
    (EPOLLET ||| s.eventsAt fd ||| event.bits)).1 = 0

theorem Good.addEvent_success_iff (good : s.Good) {fd : Nat} {event : Event} {cb : Option κ} {caller : Caller}
    {out : EventOut} (step : s.Step ep (.addEvent fd event cb caller, out) t) :
    out.success ↔ s.Accepts ep fd event := by
  obtain ⟨⟨ret, rt, u⟩, done, same⟩ := bind_eq_ok.mp step
  cases same
  rw [good.addEvent_eq] at done
  rcases call : ep.ctl s.kernel (addOp (s.regs fd)) fd (EPOLLET ||| (s.regs fd).mask ||| event.bits) with ⟨r, after⟩
  have answer : s.Accepts ep fd event ↔ r = 0 := by
    simp only [Accepts, good.eventsAt_eq]
    rw [← addOp, call]
  simp only [call] at done
  rw [answer]
  split at done
  · cases done
  split at done
  · rename_i failed
    cases done
    exact iff_of_false (fun success => by cases success) failed
  split at done
  · cases done
  · rename_i agreed _
    obtain ⟨task, -, done⟩ := bind_eq_ok.mp done
    cases done
    exact iff_of_true rfl (Decidable.not_not.mp agreed)

/-- A fiber can add an event that is not set, whatever `epoll_ctl` answers. -/
theorem Good.addEvent_enabled (good : s.Good) {fd : Nat} {event : Event} {caller : Caller}
    (free : (s.regs fd).get event = none) (real : event ≠ .NONE) (running : caller.state = .EXEC) :
    ∃ out t, s.Step ep (.addEvent fd event none caller, out) t := by
  have added : ∃ ret rt t, s.addEvent ep fd event none caller = .ok (ret, rt, t) := by
    rcases call : ep.ctl s.kernel (addOp (s.regs fd)) fd (EPOLLET ||| (s.regs fd).mask ||| event.bits) with ⟨r, after⟩
    rw [good.addEvent_eq, if_neg (not_not.mpr free), call]
    simp only [if_neg real, continuation, if_pos running, ok_bind, pure_eq_ok]
    split
    · exact ⟨_, _, _, rfl⟩
    · exact ⟨_, _, _, rfl⟩
  obtain ⟨ret, rt, t, added⟩ := added
  refine ⟨⟨ret == 0, rt⟩, t, ?_⟩
  simp only [Step, exec, added, ok_bind]
  rfl

/-- `cancelEvent` takes the registration away unless `epoll_ctl` refuses. -/
theorem Good.cancelEvent_board (good : s.Good) {fd : Nat} {event : Event} {out : EventOut}
    (step : s.Step ep (.cancelEvent fd event, out) t) :
    t.board (fd, event) = if out.rt = some 0 then none else s.board (fd, event) := by
  obtain ⟨⟨success, rt, u⟩, done, same⟩ := bind_eq_ok.mp step
  cases same
  rw [good.cancelEvent_eq] at done
  rcases removal_cases done with ⟨free, -, rfl, rfl⟩ | ⟨-, failed, -, rfl, rfl⟩ | ⟨-, -, -, rfl, fired⟩
  · rfl
  · rw [if_neg fun zero => failed (Option.some.inj zero)]
    rfl
  · obtain ⟨_, _, taken, rfl⟩ := fire_ok fired
    have board := board_setReg (inside_of_get taken) (Regs.real_of_get taken) none
    exact (congrFun board (fd, event)).trans (by rw [Function.update_self, if_pos rfl])

end

/-- What the constructor leaves behind, with an empty interest list. -/
def fresh : IOManager (Nat → Option Mask) Nat where
  m_FdContexts := contextResize (fun i => { fd := i }) [] 32
  m_pendingEventCount := 0
  kernel := fun _ => none
  queues := fun _ => []

theorem fresh_init : fresh.Init := ⟨rfl, rfl⟩

end IOManager
end Sylar
