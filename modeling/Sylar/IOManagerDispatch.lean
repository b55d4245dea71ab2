import Mathlib.Algebra.Order.BigOperators.Group.List
import Sylar.IOManagerKernel

/-! The loop in `idle` over what `epoll_wait` has reported. -/

namespace Sylar
open Machine

variable {K κ : Type}

theorem Regs.get_put_none (r : Regs κ) (event other : Event) :
    (r.put event none).get other = if other = event then none else r.get other := by
  cases event <;> cases other <;> rfl

theorem Regs.get_clear (r : Regs κ) (events : List Event) (event : Event) :
    (r.clear events).get event = if event ∈ events then none else r.get event := by
  induction events generalizing r with
  | nil => simp [clear]
  | cons first events ih =>
    have step : r.clear (first :: events) = (r.put first none).clear events := rfl
    rw [step, ih, get_put_none]
    by_cases member : event ∈ events <;> by_cases same : event = first <;> simp [member, same]

namespace IOManager

/-- The descriptors with events are in the interest list. -/
def Watched (s : IOManager (Nat → Option Mask) κ) : Prop :=
  ∀ fd, (s.regs fd).mask ≠ 0 → (s.kernel fd).isSome

theorem Good.watched_step {s t : IOManager (Nat → Option Mask) κ} (good : s.Good) (watched : s.Watched)
    {l : EventOp κ × EventOut} (step : s.Step interestList l t) : t.Watched := by
  have kernelStep := good.kernelStep (watched l.1.fd) step
  intro fd some
  by_cases same : fd = l.1.fd
  · subst same
    cases kernelStep with
    | silent kernel regs _ =>
      rw [kernel]
      rw [regs] at some
      exact watched _ some
    | set _ _ kernel _ => rw [kernel, Function.update_self]; rfl
    | delete _ regs _ empty _ => exact absurd (regs ▸ empty) some
  · rw [kernelStep.kernel_frame same]
    rw [good.regs_frame step same] at some
    exact watched fd some

theorem watched_of_reach {s : IOManager (Nat → Option Mask) κ} (reach : Reach Init (Step interestList) s) :
    s.Watched := by
  induction reach with
  | start init =>
    intro fd some
    rw [init.regs_eq, Regs.mask_empty] at some
    exact absurd rfl some
  | next previous step ih => exact (good_of_reach interestList previous).watched_step ih step

theorem fireEach_pending {s t : IOManager K κ} {fd : Nat} {events : List Event}
    (done : s.fireEach fd events = .ok t) :
    t.m_pendingEventCount = s.m_pendingEventCount - events.length := by
  induction events generalizing s with
  | nil =>
    cases done
    simp
  | cons event events ih =>
    obtain ⟨u, fired, rest⟩ := bind_eq_ok.mp done
    obtain ⟨scheduler, task, taken, rfl⟩ := fire_ok fired
    rw [ih rest, setReg_none taken]
    simp only [List.length_cons]
    omega

theorem Good.fireEach_ok_iff {s : IOManager K κ} (good : s.Good) (fd : Nat) {events : List Event}
    (distinct : events.Nodup) :
    (∃ t, s.fireEach fd events = .ok t) ↔
      ∀ event ∈ events, ∃ scheduler task, (s.regs fd).get event = some ⟨some scheduler, task⟩ := by
  induction events generalizing s with
  | nil => exact iff_of_true ⟨s, rfl⟩ (by simp)
  | cons event events ih =>
    obtain ⟨fresh, distinct⟩ := List.nodup_cons.mp distinct
    constructor
    · rintro ⟨t, done⟩
      obtain ⟨u, fired, rest⟩ := bind_eq_ok.mp done
      obtain ⟨scheduler, task, taken, -⟩ := fire_ok fired
      have after := good.after_fire (inside_of_get taken) fired
      have others := (ih after.1 distinct).mp ⟨t, rest⟩
      intro other member
      rcases List.mem_cons.mp member with rfl | member
      · exact ⟨scheduler, task, taken⟩
      · have different : other ≠ event := fun same => fresh (same ▸ member)
        have kept := others other member
        rw [after.2.2, Regs.get_put_ne _ different] at kept
        exact kept
    · intro all
      obtain ⟨scheduler, task, taken⟩ := all event (List.mem_cons_self ..)
      obtain ⟨u, fired⟩ : ∃ u, s.fire fd event = .ok u := ⟨_, by simp only [fire, taken]; rfl⟩
      have after := good.after_fire (inside_of_get taken) fired
      have others : ∀ other ∈ events, ∃ scheduler task, (u.regs fd).get other = some ⟨some scheduler, task⟩ := by
        intro other member
        have different : other ≠ event := fun same => fresh (same ▸ member)
        rw [after.2.2, Regs.get_put_ne _ different]
        exact all other (List.mem_cons_of_mem _ member)
      obtain ⟨t, done⟩ := (ih after.1 distinct).mpr others
      exact ⟨t, by rw [fireEach, fired]; exact done⟩

theorem Good.board_fireEach {s t : IOManager K κ} (good : s.Good) {fd : Nat} {events : List Event}
    (inside : fd < s.m_FdContexts.length) (distinct : events.Nodup) (done : s.fireEach fd events = .ok t)
    (slot : Nat × Event) : t.board slot = if slot.1 = fd ∧ slot.2 ∈ events then none else s.board slot := by
  rcases slot with ⟨other, event⟩
  by_cases same : other = fd
  · subst same
    rw [board, (good.after_fireEach inside done).2.2, Regs.get_clear]
    simp only [true_and]
    rfl
  · rw [if_neg (fun both => same both.1)]
    refine Board.frame (good.refines_fireEach distinct done).run ?_
    intro a member onSlot
    exact same ((congrArg Prod.fst onSlot).symm.trans (takes_slot a member))

theorem Good.pending_nonneg {s : IOManager K κ} (good : s.Good) : 0 ≤ s.m_pendingEventCount := by
  rw [good.count]
  apply List.sum_nonneg
  intro n member
  obtain ⟨c, -, rfl⟩ := List.mem_map.mp member
  rw [FdContext.bitCount]
  split <;> split <;> decide

/-- The events that are set in the context and reported. -/
def hits (s : IOManager K κ) (fd : Nat) (events : Mask) : List Event :=
  [Event.READ, .WRITE].filter fun event => s.eventsAt fd &&& realEvents events &&& event.bits ≠ 0

/-- The turn of the loop for this report does what it should: no assertion fails, exactly the
continuations of the events that are set and reported are scheduled, every other registration
stays, and the counter drops by the number of these events. -/
def DispatchExact (s : IOManager (Nat → Option Mask) κ) (fd : Nat) (events : Mask) : Prop :=
  ∃ rt t, s.dispatch interestList fd events = .ok (rt, t) ∧
    (∀ slot, t.board slot = if slot.1 = fd ∧ slot.2 ∈ s.hits fd events then none else s.board slot) ∧
    (∀ scheduler, t.queues scheduler = s.queues scheduler ++
      (s.takes fd (s.hits fd events) .scheduled).filterMap (Change.appended scheduler)) ∧
    t.m_pendingEventCount = s.m_pendingEventCount - (s.hits fd events).length ∧ 0 ≤ t.m_pendingEventCount

/-- None of the reported events is set, or all of them are, with a scheduler to go to. -/
def Covered (s : IOManager (Nat → Option Mask) κ) (fd : Nat) (events : Mask) : Prop :=
  s.eventsAt fd &&& realEvents events = 0 ∨
    ∀ event ∈ reported events, ∃ scheduler task, s.board (fd, event) = some ⟨some scheduler, task⟩

theorem Good.hits_eq {s : IOManager K κ} (good : s.Good) (fd : Nat) (events : Mask) :
    s.hits fd events = (reported events).filter fun event => ((s.regs fd).get event).isSome := by
  rw [hits, reported, good.eventsAt_eq]
  rcases realEvents_cases events with real | real | real | real <;> rw [real] <;>
    rcases s.regs fd with ⟨_ | _, _ | _⟩ <;> simp [Regs.mask, Regs.get, Event.bits]

theorem hits_nil {s : IOManager K κ} {fd : Nat} {events : Mask}
    (idle : s.eventsAt fd &&& realEvents events = 0) : s.hits fd events = [] := by
  simp [hits, idle]

theorem nodup_reported (events : Mask) : (reported events).Nodup := nodup_directions _ _

theorem Good.mask_of_hit {s : IOManager K κ} (good : s.Good) {fd : Nat} {events : Mask}
    (hit : s.eventsAt fd &&& realEvents events ≠ 0) : (s.regs fd).mask ≠ 0 := by
  rw [← good.eventsAt_eq]
  intro empty
  exact hit (by rw [empty]; exact BitVec.zero_and)

/-- What `idle` does with a report for a descriptor some of whose reported events are set. -/
theorem Good.dispatch_hit {s : IOManager (Nat → Option Mask) κ} (good : s.Good) (watched : s.Watched) {fd : Nat}
    {events : Mask} (hit : s.eventsAt fd &&& realEvents events ≠ 0) : ∃ kernel,
    s.dispatch interestList fd events = (do
      let t ← fireEach { s with kernel := kernel } fd (reported events)
      return (some 0, t)) := by
  have some := good.mask_of_hit hit
  rw [good.eventsAt_eq] at hit
  obtain ⟨kernel, answer⟩ := leftOp_answer (watched fd some) ((s.regs fd).mask &&& ~~~realEvents events)
    (EPOLLET ||| ((s.regs fd).mask &&& ~~~realEvents events))
  refine ⟨kernel, ?_⟩
  rw [good.dispatch_eq, answer, removal, if_neg hit, if_neg (not_not.mpr rfl)]
  cases fireEach { s with kernel := kernel } fd (reported events) <;> rfl

theorem Good.dispatchExact_iff {s : IOManager (Nat → Option Mask) κ} (good : s.Good) (watched : s.Watched)
    (fd : Nat) (events : Mask) : s.DispatchExact fd events ↔ s.Covered fd events := by
  by_cases idle : s.eventsAt fd &&& realEvents events = 0
  · refine iff_of_true ?_ (.inl idle)
    have done : s.dispatch interestList fd events = .ok (none, s) := by
      rw [good.dispatch_eq, ← good.eventsAt_eq, removal, if_pos idle]
      rfl
    refine ⟨none, s, done, ?_⟩
    simp [hits_nil idle, takes, good.pending_nonneg]
  · obtain ⟨kernel, equation⟩ := good.dispatch_hit watched idle
    have goodK := good.withKernel kernel
    have ok_iff := goodK.fireEach_ok_iff fd (nodup_reported events)
    constructor
    · rintro ⟨rt, t, done, -⟩
      rw [equation] at done
      obtain ⟨u, fired, -⟩ := bind_eq_ok.mp done
      exact .inr (ok_iff.mp ⟨u, fired⟩)
    · intro covered
      have all := covered.resolve_left idle
      obtain ⟨t, fired⟩ := ok_iff.mpr all
      have refines := goodK.refines_fireEach (nodup_reported events) fired
      have every : s.hits fd events = reported events := by
        rw [good.hits_eq, List.filter_eq_self]
        intro event member
        obtain ⟨scheduler, task, taken⟩ := all event member
        exact Option.isSome_iff_exists.mpr ⟨_, taken⟩
      have count := fireEach_pending fired
      refine ⟨some 0, t, by rw [equation, fired]; rfl, ?_, ?_, ?_, refines.good.pending_nonneg⟩
      · rw [every]
        exact goodK.board_fireEach (inside_of_mask (good.mask_of_hit idle)) (nodup_reported events) fired
      · rw [every]
        exact refines.queues
      · rw [every]
        exact count

/-- Operations of other threads, none of which aborts. -/
def Performs (s : IOManager (Nat → Option Mask) κ) (ops : List (EventOp κ)) (t : IOManager (Nat → Option Mask) κ) :
    Prop :=
  ∃ ls, ls.map Prod.fst = ops ∧ Run (Step interestList) s ls t

/-- A property of every report of a batch and of the state in which the loop comes to it. Before
each report other threads may have performed operations. -/
def AtEachReport (P : IOManager (Nat → Option Mask) κ → Nat → Mask → Prop) :
    IOManager (Nat → Option Mask) κ → List (List (EventOp κ) × Nat × Mask) → Prop
  | _, [] => True
  | s, (others, fd, events) :: batch => ∀ t, Performs s others t →
      P t fd events ∧ ∀ rt u, t.dispatch interestList fd events = .ok (rt, u) → AtEachReport P u batch

theorem Performs.reach {s t : IOManager (Nat → Option Mask) κ} {ops : List (EventOp κ)}
    (reach : Reach Init (Step interestList) s) (performs : Performs s ops t) : Reach Init (Step interestList) t := by
  obtain ⟨ls, -, run⟩ := performs
  exact run.invariant (fun _ _ _ before step => .next before step) reach

theorem Performs.refl (s : IOManager (Nat → Option Mask) κ) : Performs s [] s := ⟨[], rfl, .start⟩

theorem Performs.eq_of_nil {s t : IOManager (Nat → Option Mask) κ} (performs : Performs s [] t) : t = s := by
  obtain ⟨ls, none, run⟩ := performs
  cases run with
  | start => rfl
  | next _ _ => simp at none

theorem reach_dispatch {s t : IOManager (Nat → Option Mask) κ} {fd : Nat} {events : Mask} {rt : Option Int}
    (reach : Reach Init (Step interestList) s) (done : s.dispatch interestList fd events = .ok (rt, t)) :
    Reach Init (Step interestList) t := by
  refine .next (l := (.report fd events, { success := rt == some 0, rt := rt })) reach ?_
  simp only [Step, exec, done, ok_bind, pure_eq_ok]

/-- The loop in `idle` handles a batch of reports as it should if and only if at each report
either none of the reported events is set or all of them are, with a scheduler to go to. -/
theorem batch_exact_iff {s : IOManager (Nat → Option Mask) κ} (reach : Reach Init (Step interestList) s)
    (batch : List (List (EventOp κ) × Nat × Mask)) :
    AtEachReport DispatchExact s batch ↔ AtEachReport Covered s batch := by
  induction batch generalizing s with
  | nil => exact Iff.rfl
  | cons report batch ih =>
    refine forall_congr' fun t => forall_congr' fun performs => ?_
    have reachT := performs.reach reach
    have good := good_of_reach interestList reachT
    refine and_congr (good.dispatchExact_iff (watched_of_reach reachT) _ _) ?_
    exact forall_congr' fun rt => forall_congr' fun u => forall_congr' fun done => ih (reach_dispatch reachT done)

theorem batch_exact_input : ∃ s : IOManager (Nat → Option Mask) Nat, s.eventsAt 3 = Event.READ.bits ∧
    AtEachReport DispatchExact s [([], 3, EPOLLIN)] := by
  have add : fresh.Step interestList (.addEvent 3 .READ (some 7) ⟨some 0, 1, .EXEC⟩, ⟨true, some 0⟩) _ := rfl
  refine ⟨_, rfl, (batch_exact_iff (.next (.start fresh_init) add) _).mpr ?_⟩
  intro t performs
  cases performs.eq_of_nil
  refine ⟨.inr ?_, fun _ _ _ => trivial⟩
  intro event member
  have only : reported EPOLLIN = [.READ] := by decide
  rw [only, List.mem_singleton] at member
  subst member
  exact ⟨0, .callback 7, rfl⟩

/-- A hang-up on a descriptor of which only reading is registered: the loop triggers writing as
well, and the assertion of `triggerEvent` ends the process. -/
theorem not_batch_exact_hangup : ∃ s : IOManager (Nat → Option Mask) Nat, Reach Init (Step interestList) s ∧
    s.eventsAt 3 = Event.READ.bits ∧ s.dispatch interestList 3 EPOLLHUP = .error .triggerEvent ∧
    ¬ AtEachReport DispatchExact s [([], 3, EPOLLHUP)] := by
  have add : fresh.Step interestList (.addEvent 3 .READ (some 7) ⟨some 0, 1, .EXEC⟩, ⟨true, some 0⟩) _ := rfl
  refine ⟨_, .next (.start fresh_init) add, rfl, rfl, ?_⟩
  intro exact'
  obtain ⟨⟨rt, t, done, -⟩, -⟩ := exact' _ (.refl _)
  cases done

end IOManager
end Sylar
