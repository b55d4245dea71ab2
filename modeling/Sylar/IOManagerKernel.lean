import Sylar.IOManagerStep

/-! The registrations against the interest list of the kernel. -/

namespace Sylar
open Machine

variable {κ : Type}

namespace interestList

variable {list : Nat → Option Mask} {fd : Nat}

theorem add_free (free : list fd = none) (events : Mask) :
    interestList.ctl list .EPOLL_CTL_ADD fd events = (0, Function.update list fd (some events)) := by
  simp only [interestList, free]

theorem add_taken (taken : (list fd).isSome) (events : Mask) :
    interestList.ctl list .EPOLL_CTL_ADD fd events = (-1, list) := by
  obtain ⟨old, atFd⟩ := Option.isSome_iff_exists.mp taken
  simp only [interestList, atFd]

theorem mod_taken (taken : (list fd).isSome) (events : Mask) :
    interestList.ctl list .EPOLL_CTL_MOD fd events = (0, Function.update list fd (some events)) := by
  obtain ⟨old, atFd⟩ := Option.isSome_iff_exists.mp taken
  simp only [interestList, atFd]

theorem del_taken (taken : (list fd).isSome) (events : Mask) :
    interestList.ctl list .EPOLL_CTL_DEL fd events = (0, Function.update list fd none) := by
  obtain ⟨old, atFd⟩ := Option.isSome_iff_exists.mp taken
  simp only [interestList, atFd]

end interestList

def EventOp.fd : EventOp κ → Nat
  | .addEvent fd .. => fd
  | .delEvent fd _ => fd
  | .cancelEvent fd _ => fd
  | .cancelAll fd => fd
  | .report fd _ => fd

namespace IOManager

/-- The operation takes the last event of a descriptor away without deleting the descriptor
from the interest list. -/
def RemovesLast (s : IOManager (Nat → Option Mask) κ) : EventOp κ → Prop
  | .delEvent fd event => s.eventsAt fd &&& event.bits ≠ 0 ∧ s.eventsAt fd &&& ~~~event.bits = 0
  | .cancelEvent fd event => s.eventsAt fd &&& event.bits ≠ 0 ∧ s.eventsAt fd &&& ~~~event.bits = 0
  | _ => False

/-- What a step does to the interest list at the descriptor of its operation. -/
inductive KernelStep (s : IOManager (Nat → Option Mask) κ) (op : EventOp κ) (t : IOManager (Nat → Option Mask) κ) :
    Prop
  | silent : t.kernel = s.kernel → t.regs op.fd = s.regs op.fd → ¬ s.RemovesLast op → KernelStep s op t
  | set {r} : ((s.regs op.fd).mask = 0 → s.kernel op.fd = none) → t.regs op.fd = r →
      t.kernel = Function.update s.kernel op.fd (some (EPOLLET ||| r.mask)) →
      (r.mask = 0 ↔ s.RemovesLast op) → KernelStep s op t
  | delete {r} : (s.regs op.fd).mask ≠ 0 → t.regs op.fd = r → t.kernel = Function.update s.kernel op.fd none →
      r.mask = 0 → ¬ s.RemovesLast op → KernelStep s op t

theorem addOp_answer {list : Nat → Option Mask} {fd : Nat} {r : Regs κ}
    (watched : r.mask ≠ 0 → (list fd).isSome) (events : Mask) :
    interestList.ctl list (addOp r) fd events = (-1, list) ∨
      (r.mask = 0 → list fd = none) ∧
        interestList.ctl list (addOp r) fd events = (0, Function.update list fd (some events)) := by
  rw [addOp]
  split
  · rename_i some
    exact .inr ⟨fun none => absurd none some, interestList.mod_taken (watched some) events⟩
  · cases taken : list fd with
    | none => exact .inr ⟨fun _ => rfl, interestList.add_free taken events⟩
    | some old => exact .inl (interestList.add_taken (by simp [taken]) events)

theorem leftOp_answer {list : Nat → Option Mask} {fd : Nat} (taken : (list fd).isSome) (left events : Mask) :
    ∃ after, interestList.ctl list (leftOp left) fd events = (0, after) := by
  rw [leftOp]
  split
  · exact ⟨_, interestList.mod_taken taken events⟩
  · exact ⟨_, interestList.del_taken taken events⟩

theorem Good.addEvent_kernel {s t : IOManager (Nat → Option Mask) κ} (good : s.Good) {fd : Nat} {event : Event}
    {cb : Option κ} {caller : Caller} {ret : Int} {rt : Option Int}
    (watched : (s.regs fd).mask ≠ 0 → (s.kernel fd).isSome)
    (done : s.addEvent interestList fd event cb caller = .ok (ret, rt, t)) :
    KernelStep s (.addEvent fd event cb caller) t := by
  rw [good.addEvent_eq] at done
  split at done
  · cases done
  rename_i free
  rcases addOp_answer watched (EPOLLET ||| (s.regs fd).mask ||| event.bits) with answer | ⟨new, answer⟩
  · simp only [answer, ne_eq, reduceCtorEq, not_false_eq_true, if_true] at done
    cases done
    exact .silent rfl (good.grow_regs fd fd) id
  · simp only [answer, ne_eq, not_true_eq_false, if_false] at done
    split at done
    · cases done
    rename_i real
    obtain ⟨task, -, done⟩ := bind_eq_ok.mp done
    cases done
    have regs := regs_setReg_self (good.grow_length fd).1 event (some ⟨caller.scheduler, task⟩)
    rw [good.grow_regs] at regs
    have mask := (s.regs fd).mask_put_some real ⟨caller.scheduler, task⟩
    refine .set new regs ?_ ?_
    · rw [← mask, ← BitVec.or_assoc]
      rfl
    · exact iff_of_false (Regs.mask_ne_zero (Regs.get_put_self _ real _)) id

theorem removesLast_iff {s : IOManager (Nat → Option Mask) κ} (good : s.Good) {fd : Nat} {event : Event}
    {x : Registration κ} (taken : (s.regs fd).get event = some x) :
    (s.eventsAt fd &&& event.bits ≠ 0 ∧ s.eventsAt fd &&& ~~~event.bits = 0) ↔
      ((s.regs fd).put event none).mask = 0 := by
  rw [good.eventsAt_eq, (s.regs fd).mask_put_none, ne_eq, (s.regs fd).mask_and_bits, taken]
  simp

theorem not_removesLast {s : IOManager (Nat → Option Mask) κ} (good : s.Good) {fd : Nat} {event : Event}
    (free : (s.regs fd).get event = none) :
    ¬ (s.eventsAt fd &&& event.bits ≠ 0 ∧ s.eventsAt fd &&& ~~~event.bits = 0) := by
  rw [good.eventsAt_eq, ne_eq, (s.regs fd).mask_and_bits, free]
  simp

/-- `epoll_ctl` takes an event that is registered out of the mask. -/
theorem removal_answer {s : IOManager (Nat → Option Mask) κ} {fd : Nat} {event : Event}
    (watched : (s.regs fd).mask ≠ 0 → (s.kernel fd).isSome) (taken : (s.regs fd).get event ≠ none) (events : Mask) :
    interestList.ctl s.kernel .EPOLL_CTL_MOD fd events = (0, Function.update s.kernel fd (some events)) := by
  obtain ⟨x, registered⟩ := Option.ne_none_iff_exists'.mp taken
  exact interestList.mod_taken (watched (Regs.mask_ne_zero registered)) events

theorem Good.delEvent_kernel {s t : IOManager (Nat → Option Mask) κ} (good : s.Good) {fd : Nat} {event : Event}
    {success : Bool} {rt : Option Int} (watched : (s.regs fd).mask ≠ 0 → (s.kernel fd).isSome)
    (done : s.delEvent interestList fd event = .ok (success, rt, t)) : KernelStep s (.delEvent fd event) t := by
  rw [good.delEvent_eq] at done
  rcases removal_cases done with ⟨free, -, -, rfl⟩ | ⟨taken, failed, -⟩ | ⟨taken, -, -, -, discarded⟩
  · exact .silent rfl rfl (not_removesLast good free)
  · exact absurd (congrArg Prod.fst (removal_answer watched taken _)) failed
  · rw [removal_answer watched taken] at discarded
    cases discarded
    obtain ⟨x, taken⟩ := Option.ne_none_iff_exists'.mp taken
    have regs := regs_setReg_self (inside_of_get taken) event none
    exact .set (fun none => absurd none (Regs.mask_ne_zero taken)) regs rfl (removesLast_iff good taken).symm

theorem Good.cancelEvent_kernel {s t : IOManager (Nat → Option Mask) κ} (good : s.Good) {fd : Nat} {event : Event}
    {success : Bool} {rt : Option Int} (watched : (s.regs fd).mask ≠ 0 → (s.kernel fd).isSome)
    (done : s.cancelEvent interestList fd event = .ok (success, rt, t)) :
    KernelStep s (.cancelEvent fd event) t := by
  rw [good.cancelEvent_eq] at done
  rcases removal_cases done with ⟨free, -, -, rfl⟩ | ⟨taken, failed, -⟩ | ⟨taken, -, -, -, fired⟩
  · exact .silent rfl rfl (not_removesLast good free)
  · exact absurd (congrArg Prod.fst (removal_answer watched taken _)) failed
  · rw [removal_answer watched taken] at fired
    obtain ⟨x, taken⟩ := Option.ne_none_iff_exists'.mp taken
    have inside := inside_of_get taken
    have regs := ((good.withKernel _).after_fire (by exact inside) fired).2.2
    exact .set (fun none => absurd none (Regs.mask_ne_zero taken)) regs (fire_kernel fired)
      (removesLast_iff good taken).symm

theorem Good.cancelAll_kernel {s t : IOManager (Nat → Option Mask) κ} (good : s.Good) {fd : Nat}
    {success : Bool} {rt : Option Int} (watched : (s.regs fd).mask ≠ 0 → (s.kernel fd).isSome)
    (done : s.cancelAll interestList fd = .ok (success, rt, t)) : KernelStep s (.cancelAll fd) t := by
  rw [good.cancelAll_eq] at done
  rcases removal_cases done with ⟨-, -, -, rfl⟩ | ⟨some, failed, -⟩ | ⟨some, -, -, -, fired⟩
  · exact .silent rfl rfl id
  · exact absurd (congrArg Prod.fst (interestList.del_taken (watched some) 0)) failed
  · rw [interestList.del_taken (watched some)] at fired
    have inside := inside_of_mask some
    have regs : t.regs fd = (s.regs fd).clear (s.regs fd).events :=
      ((good.withKernel _).after_fireEach (by exact inside) fired).2.2
    rw [Regs.clear_events] at regs
    exact .delete some regs (fireEach_kernel fired) Regs.mask_empty id

theorem Good.dispatch_kernel {s t : IOManager (Nat → Option Mask) κ} (good : s.Good) {fd : Nat} {events : Mask}
    {rt : Option Int} (watched : (s.regs fd).mask ≠ 0 → (s.kernel fd).isSome)
    (done : s.dispatch interestList fd events = .ok (rt, t)) : KernelStep s (.report fd events) t := by
  rw [good.dispatch_eq] at done
  obtain ⟨⟨success, rt', t'⟩, removed, same⟩ := bind_eq_ok.mp done
  cases same
  rcases removal_cases removed with ⟨-, -, -, rfl⟩ | ⟨hit, failed, -⟩ | ⟨hit, -, -, -, fired⟩
  · exact .silent rfl rfl id
  all_goals have some : (s.regs fd).mask ≠ 0 := fun empty => hit (by rw [empty]; exact BitVec.zero_and)
  · obtain ⟨after, answer⟩ := leftOp_answer (watched some) ((s.regs fd).mask &&& ~~~realEvents events)
      (EPOLLET ||| ((s.regs fd).mask &&& ~~~realEvents events))
    exact absurd (congrArg Prod.fst answer) failed
  · have inside := inside_of_mask some
    have regs := ((good.withKernel _).after_fireEach (by exact inside) fired).2.2
    have kernel := fireEach_kernel fired
    have mask := mask_clear_reported (s.regs fd) events
    -- `idle` deletes the descriptor if and only if nothing is left, so it never removes the last event by `MOD`
    by_cases left : (s.regs fd).mask &&& ~~~realEvents events = 0
    · rw [leftOp, if_neg (not_not.mpr left), interestList.del_taken (watched some)] at kernel
      exact .delete some regs kernel (mask.trans left) id
    · rw [leftOp, if_pos left, interestList.mod_taken (watched some), ← mask] at kernel
      exact .set (fun none => absurd none some) regs kernel (iff_of_false (fun none => left (mask ▸ none)) id)

/-- One step at the descriptor of its operation, if that is in the interest list whenever it has
events. -/
theorem Good.kernelStep {s t : IOManager (Nat → Option Mask) κ} (good : s.Good) {l : EventOp κ × EventOut}
    (watched : (s.regs l.1.fd).mask ≠ 0 → (s.kernel l.1.fd).isSome) (step : s.Step interestList l t) :
    KernelStep s l.1 t := by
  revert watched
  refine exec_cases (P := fun op _ t => ((s.regs op.fd).mask ≠ 0 → (s.kernel op.fd).isSome) → KernelStep s op t)
    interestList ?_ ?_ ?_ ?_ ?_ step
  · exact fun _ _ _ _ _ _ _ done watched => good.addEvent_kernel watched done
  · exact fun _ _ _ _ _ done watched => good.delEvent_kernel watched done
  · exact fun _ _ _ _ _ done watched => good.cancelEvent_kernel watched done
  · exact fun _ _ _ _ done watched => good.cancelAll_kernel watched done
  · exact fun _ _ _ _ done watched => good.dispatch_kernel watched done

theorem KernelStep.kernel_frame {s t : IOManager (Nat → Option Mask) κ} {op : EventOp κ} (step : KernelStep s op t)
    {fd : Nat} (other : fd ≠ op.fd) : t.kernel fd = s.kernel fd := by
  cases step with
  | silent kernel _ _ => rw [kernel]
  | set _ _ kernel _ => rw [kernel, Function.update_of_ne other]
  | delete _ _ kernel _ _ => rw [kernel, Function.update_of_ne other]

theorem changes_slot {K : Type} (s : IOManager K κ) (op : EventOp κ) (out : EventOut) :
    ∀ a ∈ s.changes op out, a.slot.1 = op.fd := by
  intro a member
  unfold changes at member
  split at member
  · cases op with
    | addEvent fd event cb caller =>
      cases List.mem_singleton.mp member
      rfl
    | _ => exact takes_slot a member
  · cases member

/-- The other descriptors keep their registrations. -/
theorem Good.regs_frame {K : Type} {ep : Epoll K} {s t : IOManager K κ} (good : s.Good) {l : EventOp κ × EventOut}
    (step : s.Step ep l t) {fd : Nat} (other : fd ≠ l.1.fd) : t.regs fd = s.regs fd := by
  have same (event : Event) : t.board (fd, event) = s.board (fd, event) := by
    refine Board.frame (good.refines ep step).run ?_
    intro a member onSlot
    exact other ((congrArg Prod.fst onSlot).symm.trans (s.changes_slot l.1 l.2 a member))
  exact Regs.ext_get same

end IOManager
end Sylar
