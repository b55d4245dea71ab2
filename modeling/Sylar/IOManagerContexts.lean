import Mathlib.Logic.Basic
import Sylar.IOManagerStep

namespace Sylar
open Machine

variable {K κ : Type}

/-- The bit of an event and the three fields of its `EventContext` say the same. -/
structure EventContext.Agrees (ctx : EventContext κ) (bit : Mask) : Prop where
  set : bit ≠ 0 ↔ ctx.scheduler.isSome ∧ Xor (ctx.fiber.isSome) (ctx.cb.isSome)
  clear : bit = 0 ↔ ctx.scheduler = none ∧ ctx.fiber = none ∧ ctx.cb = none

theorem EventContext.agrees_of {x : Option (Registration κ)} {bit : Mask} (same : bit = 0 ↔ x = none)
    (scheduled : ∀ r, x = some r → r.scheduler.isSome) : (EventContext.of x).Agrees bit := by
  refine ⟨?_, ?_⟩
  · rw [ne_eq, same]
    rcases x with _ | ⟨scheduler, _ | _⟩
    · simp [EventContext.of]
    · simp [EventContext.of, Xor, show scheduler.isSome from scheduled _ rfl]
    · simp [EventContext.of, Xor, show scheduler.isSome from scheduled _ rfl]
  · rw [same]
    rcases x with _ | ⟨scheduler, _ | _⟩ <;> simp [EventContext.of]

namespace IOManager

/-- `addEvent` is called on a thread that has a current scheduler. -/
def OnScheduler (_ : IOManager K κ) (l : EventOp κ × EventOut) (_ : IOManager K κ) : Prop :=
  match l.1 with
  | .addEvent _ _ _ caller => caller.scheduler.isSome
  | _ => True

/-- Every registration knows its scheduler. -/
def Scheduled (s : IOManager K κ) : Prop := ∀ slot x, s.board slot = some x → x.scheduler.isSome

/-- The contexts and the counter are as they were; contexts that were added are empty. -/
structure SameContexts (s t : IOManager K κ) : Prop where
  count : t.m_pendingEventCount = s.m_pendingEventCount
  old : ∀ (i : Nat) (c : FdContext κ), s.m_FdContexts[i]? = some c → t.m_FdContexts[i]? = some c
  added : ∀ (i : Nat) (c : FdContext κ), t.m_FdContexts[i]? = some c → s.m_FdContexts[i]? = none → c = { fd := i }

variable (ep : Epoll K)

theorem Scheduled.step {s t : IOManager K κ} {l : EventOp κ × EventOut} (good : s.Good) (scheduled : s.Scheduled)
    (step : s.Step ep l t) (caller : OnScheduler s l t) : t.Scheduled := by
  have run := (good.refines ep step).run
  refine Board.contents run scheduled ?_
  intro slot x put
  rcases l with ⟨op, out⟩
  simp only [changes] at put
  split at put
  · cases op with
    | addEvent fd event cb caller' =>
      simp only [List.mem_singleton, Board.Act.put.injEq] at put
      rw [put.2]
      exact caller
    | _ => simp [takes] at put
  · cases put

theorem scheduled_of_reach {s : IOManager K κ} (reach : Reach Init (Guarded (Step ep) OnScheduler) s) :
    s.Good ∧ s.Scheduled := by
  induction reach with
  | start init =>
    refine ⟨init.good, ?_⟩
    intro slot x lies
    simp [init.board_empty] at lies
  | next _ step ih => exact ⟨(ih.1.refines ep step.1).good, ih.2.step ep ih.1 step.1 step.2⟩

theorem SameContexts.refl (s : IOManager K κ) (kernel : K) : SameContexts s { s with kernel := kernel } where
  count := rfl
  old _ _ atI := atI
  added i c atI outside := by simp [outside] at atI

theorem Good.sameContexts_grow {s : IOManager K κ} (good : s.Good) (fd : Nat) (kernel : K) :
    SameContexts s { s.grow fd with kernel := kernel } := by
  have size := good.size
  refine ⟨grow_pending s fd, ?_, ?_⟩
  all_goals
    intro i c
    rw [IOManager.grow, fdContext]
    split
  · exact id
  · intro atI
    have inside := (List.getElem?_eq_some_iff.mp atI).1
    exact (contextResize_old _ (by omega) inside).trans atI
  · intro atI outside
    simp [outside] at atI
  · intro atI outside
    have added := List.getElem?_eq_none_iff.mp outside
    have inside := (List.getElem?_eq_some_iff.mp atI).1
    rw [length_contextResize] at inside
    rw [contextResize_new _ added inside] at atI
    exact (Option.some.inj atI).symm

/-- An operation that takes events away changes no context before `epoll_ctl` has agreed. -/
theorem SameContexts.of_removal {s t : IOManager K κ} {idle : Prop} [Decidable idle] {call : Int × K}
    {take : K → Except Abort (IOManager K κ)} {success : Bool} {rt : Option Int} {r : Int}
    (done : s.removal idle call take = .ok (success, rt, t)) (answer : rt = some r) (failed : r ≠ 0) :
    SameContexts s t := by
  rcases removal_cases done with ⟨-, -, silent, -⟩ | ⟨-, -, -, -, rfl⟩ | ⟨-, -, -, agreed, -⟩
  · rw [silent] at answer
    cases answer
  · exact .refl s _
  · rw [agreed] at answer
    cases answer
    contradiction

theorem Good.failed_same {s t : IOManager K κ} (good : s.Good) {op : EventOp κ} {out : EventOut} {r : Int}
    (step : s.exec ep op = .ok (out, t)) (answer : out.rt = some r) (failed : r ≠ 0) : SameContexts s t := by
  revert answer
  refine exec_cases (P := fun _ out t => out.rt = some r → SameContexts s t) ep ?_ ?_ ?_ ?_ ?_ step
  · intro fd event cb caller ret rt t done answer
    rw [good.addEvent_eq] at done
    split at done
    · cases done
    split at done
    split at done
    · cases done
      exact good.sameContexts_grow fd _
    split at done
    · cases done
    obtain ⟨task, -, done⟩ := bind_eq_ok.mp done
    cases done
    cases answer
    contradiction
  · intro fd event success rt t done answer
    rw [good.delEvent_eq] at done
    exact .of_removal done answer failed
  · intro fd event success rt t done answer
    rw [good.cancelEvent_eq] at done
    exact .of_removal done answer failed
  · intro fd success rt t done answer
    rw [good.cancelAll_eq] at done
    exact .of_removal done answer failed
  · intro fd events rt t done answer
    rw [good.dispatch_eq] at done
    obtain ⟨⟨success, rt', t'⟩, removed, same⟩ := bind_eq_ok.mp done
    cases same
    exact .of_removal removed answer failed

theorem Good.addEvent_context_free {s : IOManager K κ} (good : s.Good) (fd : Nat) (event : Event) (cb : Option κ)
    (caller : Caller) : s.addEvent ep fd event cb caller ≠ .error .contextInUse := by
  rw [good.addEvent_eq]
  rcases call : ep.ctl s.kernel (addOp (s.regs fd)) fd (EPOLLET ||| (s.regs fd).mask ||| event.bits) with ⟨r, after⟩
  simp only
  intro abort
  split at abort
  · cases abort
  split at abort
  · cases abort
  split at abort
  · cases abort
  cases stored : continuation cb caller with
  | error reason =>
    rw [stored] at abort
    cases cb with
    | some cb => cases stored
    | none =>
      rw [continuation] at stored
      split at stored
      · cases stored
      · cases stored
        cases abort
  | ok task =>
    rw [stored] at abort
    cases abort

theorem Good.context_agrees {s : IOManager K κ} (good : s.Good) (scheduled : s.Scheduled) {i : Nat}
    {c : FdContext κ} {event : Event} {ctx : EventContext κ} (atI : s.m_FdContexts[i]? = some c)
    (context : c.getContext event = .ok ctx) : ctx.Agrees (c.events &&& event.bits) := by
  have real : event ≠ .NONE := by
    rintro rfl
    cases context
  have inside := (List.getElem?_eq_some_iff.mp atI).1
  have same := Option.some.inj (atI.symm.trans (good.context_eq inside))
  have fields := getContext_context (s.regs i) i (s.regs i).mask real
  rw [same] at context ⊢
  cases fields.symm.trans context
  exact EventContext.agrees_of ((s.regs i).mask_and_bits event) (scheduled (i, event))

/-- In every state reached, the events of a descriptor agree with its contexts and the counter
with the events. So the assertion of `addEvent` holds, and a failed `epoll_ctl` changes nothing. -/
theorem contexts_agree {s : IOManager K κ} (reach : Reach Init (Guarded (Step ep) OnScheduler) s) :
    (∀ (i : Nat) (c : FdContext κ) event ctx, s.m_FdContexts[i]? = some c → c.getContext event = .ok ctx →
      ctx.Agrees (c.events &&& event.bits)) ∧
    (∀ (i : Nat) (c : FdContext κ), s.m_FdContexts[i]? = some c →
      c.events &&& ~~~(Event.READ.bits ||| Event.WRITE.bits) = 0) ∧
    s.m_pendingEventCount = (s.m_FdContexts.map FdContext.bitCount).sum ∧
    (∀ fd event cb caller, s.addEvent ep fd event cb caller ≠ .error .contextInUse) ∧
    (∀ op out t r, s.exec ep op = .ok (out, t) → out.rt = some r → r ≠ 0 → SameContexts s t) := by
  obtain ⟨good, scheduled⟩ := scheduled_of_reach ep reach
  refine ⟨?_, ?_, good.count, good.addEvent_context_free ep, ?_⟩
  · intro i c event ctx atI context
    exact good.context_agrees scheduled atI context
  · intro i c atI
    rw [good.repr i c atI]
    exact c.regs.mask_only
  · intro op out t r step answer failed
    exact good.failed_same ep step answer failed

theorem contexts_agree_one_event : ∃ s : IOManager (Nat → Option Mask) Nat,
    s.eventsAt 40 = Event.READ.bits ∧ s.m_pendingEventCount = 1 ∧
    (s.m_FdContexts.map FdContext.bitCount).sum = 1 := by
  have step : fresh.Step interestList (.addEvent 40 .READ (some 7) ⟨some 0, 1, .EXEC⟩, ⟨true, some 0⟩) _ := rfl
  have reach : Reach Init (Guarded (Step interestList) OnScheduler) _ := .next (.start fresh_init) ⟨step, rfl⟩
  exact ⟨_, rfl, rfl, (contexts_agree interestList reach).2.2.1.symm⟩

end IOManager
end Sylar
