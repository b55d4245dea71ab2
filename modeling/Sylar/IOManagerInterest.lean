import Sylar.IOManagerKernel

namespace Sylar
open Machine

variable {κ : Type}

namespace IOManager

/-- What the constructor leaves behind: only the read end of the pipe is in the interest list. -/
structure InterestInit (tickle : Nat) (s : IOManager (Nat → Option Mask) κ) : Prop where
  init : s.Init
  kernel : s.kernel = Function.update (fun _ => none) tickle (some (EPOLLIN ||| EPOLLET))

/-- A descriptor is in the interest list if and only if it has events, and with these events. -/
def Registered (tickle : Nat) (s : IOManager (Nat → Option Mask) κ) : Prop :=
  ∀ fd, fd ≠ tickle → ((s.kernel fd).isSome ↔ s.eventsAt fd ≠ 0) ∧
    ∀ mask, s.kernel fd = some mask → mask = EPOLLET ||| s.eventsAt fd

/-- Every event that is not set can be added. -/
def AddSucceeds (tickle : Nat) (s : IOManager (Nat → Option Mask) κ) : Prop :=
  ∀ fd event (cb : Option κ) (caller : Caller), fd ≠ tickle → event ≠ .NONE → s.eventsAt fd &&& event.bits = 0 →
    (cb.isSome ∨ caller.state = .EXEC) → ∃ t, s.addEvent interestList fd event cb caller = .ok (0, some 0, t)

structure Consistent (tickle : Nat) (s : IOManager (Nat → Option Mask) κ) : Prop where
  registered : s.Registered tickle
  addSucceeds : s.AddSucceeds tickle

/-- The same as an equation, in terms of registrations. -/
def Synced (s : IOManager (Nat → Option Mask) κ) (fd : Nat) : Prop :=
  s.kernel fd = if (s.regs fd).mask = 0 then none else some (EPOLLET ||| (s.regs fd).mask)

theorem Good.registered_iff {s : IOManager (Nat → Option Mask) κ} (good : s.Good) (tickle : Nat) :
    s.Registered tickle ↔ ∀ fd, fd ≠ tickle → s.Synced fd := by
  refine forall_congr' fun fd => forall_congr' fun _ => ?_
  rw [good.eventsAt_eq, Synced]
  by_cases empty : (s.regs fd).mask = 0
  · rw [if_pos empty]
    cases s.kernel fd <;> simp [empty]
  · rw [if_neg empty]
    simp only [BitVec.ofNat_eq_ofNat] at empty
    cases s.kernel fd <;> simp [empty]

theorem Synced.watched {s : IOManager (Nat → Option Mask) κ} {fd : Nat} (synced : s.Synced fd)
    (some : (s.regs fd).mask ≠ 0) : (s.kernel fd).isSome := by
  rw [Synced, if_neg some] at synced
  simp [synced]

theorem Good.addSucceeds {s : IOManager (Nat → Option Mask) κ} (good : s.Good) {tickle : Nat}
    (synced : ∀ fd, fd ≠ tickle → s.Synced fd) : s.AddSucceeds tickle := by
  intro fd event cb caller other real clear running
  have free : (s.regs fd).get event = none := by
    rw [good.eventsAt_eq] at clear
    exact ((s.regs fd).mask_and_bits event).mp clear
  have answer : interestList.ctl s.kernel (addOp (s.regs fd)) fd (EPOLLET ||| (s.regs fd).mask ||| event.bits) =
      (0, Function.update s.kernel fd (some (EPOLLET ||| (s.regs fd).mask ||| event.bits))) := by
    rw [addOp]
    split
    · rename_i some
      exact interestList.mod_taken ((synced fd other).watched some) _
    · rename_i none
      have atFd := synced fd other
      rw [Synced, if_pos (not_not.mp none)] at atFd
      exact interestList.add_free atFd _
  have stored : ∃ task, continuation cb caller = .ok task := by
    cases cb with
    | some cb => exact ⟨_, rfl⟩
    | none =>
      have exec : caller.state = .EXEC := running.resolve_left (by simp)
      exact ⟨_, by rw [continuation, if_pos exec]⟩
  obtain ⟨task, stored⟩ := stored
  rw [good.addEvent_eq, free, answer]
  simp only [ne_eq, not_true_eq_false, if_false, if_neg real, stored, ok_bind, pure_eq_ok]
  exact ⟨_, rfl⟩

theorem Good.consistent_iff {s : IOManager (Nat → Option Mask) κ} (good : s.Good) (tickle : Nat) :
    s.Consistent tickle ↔ ∀ fd, fd ≠ tickle → s.Synced fd := by
  rw [← good.registered_iff]
  refine ⟨Consistent.registered, fun registered => ⟨registered, ?_⟩⟩
  exact good.addSucceeds ((good.registered_iff tickle).mp registered)

theorem KernelStep.synced_iff {s t : IOManager (Nat → Option Mask) κ} {op : EventOp κ} (step : KernelStep s op t)
    (synced : s.Synced op.fd) : t.Synced op.fd ↔ ¬ s.RemovesLast op := by
  cases step with
  | silent kernel regs keeps =>
    refine iff_of_true ?_ keeps
    rw [Synced, kernel, regs]
    exact synced
  | set _ regs kernel last =>
    rw [Synced, kernel, regs, ← last, Function.update_self]
    split <;> simp_all
  | delete _ regs kernel empty keeps =>
    refine iff_of_true ?_ keeps
    rw [Synced, kernel, regs, if_pos empty, Function.update_self]

/-- A registered descriptor without events is left alone: it cannot be added. -/
theorem KernelStep.silent_of_stale {s t : IOManager (Nat → Option Mask) κ} {op : EventOp κ}
    (step : KernelStep s op t) (empty : (s.regs op.fd).mask = 0) (taken : (s.kernel op.fd).isSome) :
    t.kernel = s.kernel ∧ t.regs op.fd = s.regs op.fd ∧ ¬ s.RemovesLast op := by
  cases step with
  | silent kernel regs keeps => exact ⟨kernel, regs, keeps⟩
  | set new _ _ _ => simp [new empty] at taken
  | delete some _ _ _ _ => exact absurd empty some

/-- The interest list agrees with the registrations, and the pipe was left alone. -/
structure InterestInv (tickle : Nat) (s : IOManager (Nat → Option Mask) κ) : Prop where
  good : s.Good
  synced : ∀ fd, fd ≠ tickle → s.Synced fd
  pipe : (s.kernel tickle).isSome ∧ (s.regs tickle).mask = 0

theorem InterestInit.inv {tickle : Nat} {s : IOManager (Nat → Option Mask) κ} (first : s.InterestInit tickle) :
    s.InterestInv tickle where
  good := first.init.good
  synced fd other := by
    rw [Synced, first.init.regs_eq, Regs.mask_empty, if_pos rfl, first.kernel, Function.update_of_ne other]
  pipe := by
    rw [first.init.regs_eq, Regs.mask_empty, first.kernel, Function.update_self]
    exact ⟨rfl, rfl⟩

theorem InterestInv.watched {tickle : Nat} {s : IOManager (Nat → Option Mask) κ} (inv : s.InterestInv tickle)
    (fd : Nat) (some : (s.regs fd).mask ≠ 0) : (s.kernel fd).isSome := by
  by_cases pipe : fd = tickle
  · exact pipe ▸ inv.pipe.1
  · exact (inv.synced fd pipe).watched some

theorem InterestInv.synced_iff {tickle : Nat} {s t : IOManager (Nat → Option Mask) κ} (inv : s.InterestInv tickle)
    {l : EventOp κ × EventOut} (step : s.Step interestList l t) :
    (∀ fd, fd ≠ tickle → t.Synced fd) ↔ ¬ s.RemovesLast l.1 := by
  have kernelStep := inv.good.kernelStep (inv.watched l.1.fd) step
  have others : ∀ fd, fd ≠ tickle → fd ≠ l.1.fd → t.Synced fd := by
    intro fd pipe other
    rw [Synced, kernelStep.kernel_frame other, inv.good.regs_frame step other]
    exact inv.synced fd pipe
  by_cases pipe : l.1.fd = tickle
  · refine iff_of_true (fun fd other => others fd other (pipe ▸ other)) ?_
    exact (kernelStep.silent_of_stale (pipe ▸ inv.pipe.2) (pipe ▸ inv.pipe.1)).2.2
  · rw [← kernelStep.synced_iff (inv.synced _ pipe)]
    refine ⟨fun all => all _ pipe, fun atFd fd other => ?_⟩
    by_cases same : fd = l.1.fd
    · exact same ▸ atFd
    · exact others fd other same

theorem InterestInv.step {tickle : Nat} {s t : IOManager (Nat → Option Mask) κ} (inv : s.InterestInv tickle)
    {l : EventOp κ × EventOut} (step : s.Step interestList l t) (synced : ∀ fd, fd ≠ tickle → t.Synced fd) :
    t.InterestInv tickle where
  good := (inv.good.refines interestList step).good
  synced := synced
  pipe := by
    have kernelStep := inv.good.kernelStep (inv.watched l.1.fd) step
    by_cases pipe : tickle = l.1.fd
    · obtain ⟨kernel, regs, -⟩ := kernelStep.silent_of_stale (pipe ▸ inv.pipe.2) (pipe ▸ inv.pipe.1)
      rw [kernel, pipe, regs, ← pipe]
      exact inv.pipe
    · rw [kernelStep.kernel_frame pipe, inv.good.regs_frame step pipe]
      exact inv.pipe

/-- The interest list agrees with the contexts along a run, so that events can be added, exactly
as long as no `delEvent` or `cancelEvent` takes the last event of a descriptor away. -/
theorem consistent_run_iff {tickle : Nat} {s t : IOManager (Nat → Option Mask) κ} (first : s.InterestInit tickle)
    {ls : List (EventOp κ × EventOut)} :
    s.Consistent tickle ∧ Run (Guarded (Step interestList) fun _ _ t => t.Consistent tickle) s ls t ↔
      Run (Guarded (Step interestList) fun s l _ => ¬ s.RemovesLast l.1) s ls t := by
  have start : s.Consistent tickle := (first.inv.good.consistent_iff tickle).mpr first.inv.synced
  rw [and_iff_right start]
  refine Run.guarded_congr (InterestInv tickle) ?_ ?_ first.inv
  · intro s l t inv step
    rw [(inv.good.refines interestList step).good.consistent_iff]
    exact inv.synced_iff step
  · intro s l t inv step consistent
    exact inv.step step (((inv.good.refines interestList step).good.consistent_iff tickle).mp consistent)

/-- What the constructor leaves behind if the pipe has the descriptor 5. -/
def freshPipe : IOManager (Nat → Option Mask) Nat :=
  { fresh with kernel := Function.update (fun _ => none) 5 (some (EPOLLIN ||| EPOLLET)) }

theorem freshPipe_init : freshPipe.InterestInit 5 := ⟨⟨rfl, rfl⟩, rfl⟩

theorem consistent_run_cancelAll : ∃ t, freshPipe.Consistent 5 ∧
    Run (Guarded (Step interestList) fun _ _ t => t.Consistent 5) freshPipe
      [(.addEvent 3 .READ (some 7) ⟨some 0, 1, .EXEC⟩, ⟨true, some 0⟩), (.cancelAll 3, ⟨true, some 0⟩)] t := by
  have add : freshPipe.Step interestList (.addEvent 3 .READ (some 7) ⟨some 0, 1, .EXEC⟩, ⟨true, some 0⟩) _ := rfl
  have added : Run (Guarded (Step interestList) fun s l _ => ¬ s.RemovesLast l.1) freshPipe _ _ :=
    .next .start ⟨add, id⟩
  have cancelled := added.next (l := (EventOp.cancelAll 3, EventOut.mk true (some 0))) ⟨rfl, id⟩
  exact ⟨_, (consistent_run_iff freshPipe_init).mpr cancelled⟩

/-- After `delEvent` has removed the only event, the descriptor stays in the interest list, and
the next `addEvent` asks to add it once more. -/
theorem not_consistent_delEvent : ∃ t,
    Run (Step interestList) freshPipe
      [(.addEvent 3 .READ (some 7) ⟨some 0, 1, .EXEC⟩, ⟨true, some 0⟩), (.delEvent 3 .READ, ⟨true, some 0⟩)] t ∧
    t.kernel 3 = some EPOLLET ∧ t.eventsAt 3 = 0 ∧ ¬ t.Consistent 5 ∧
    ∃ u, t.addEvent interestList 3 .READ (some 7) ⟨some 0, 1, .EXEC⟩ = .ok (-1, some (-1), u) := by
  have add : freshPipe.Step interestList (.addEvent 3 .READ (some 7) ⟨some 0, 1, .EXEC⟩, ⟨true, some 0⟩) _ := rfl
  have added : Run (Step interestList) freshPipe _ _ := .next .start add
  have deleted := added.next (l := (EventOp.delEvent 3 .READ, EventOut.mk true (some 0))) rfl
  refine ⟨_, deleted, rfl, rfl, ?_, _, rfl⟩
  intro consistent
  obtain ⟨u, success⟩ :=
    consistent.addSucceeds 3 .READ (some 7) ⟨some 0, 1, .EXEC⟩ (by decide) (by decide) rfl (.inl rfl)
  cases success

end IOManager
end Sylar
