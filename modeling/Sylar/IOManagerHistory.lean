import Sylar.IOManagerStep

namespace Sylar
open Machine

variable {K κ : Type}

namespace IOManager

variable (ep : Epoll K)

/-- The states reached from `start`, with the history of what became of the registrations. -/
inductive LoggedReach (start : IOManager K κ) : IOManager K κ → List (Change κ) → Prop
  | start : start.Init → LoggedReach start start []
  | next {s t log l} : LoggedReach start s log → s.Step ep l t →
      LoggedReach start t (log ++ s.changes l.1 l.2)

theorem LoggedReach.forget {start s : IOManager K κ} {log : List (Change κ)} (reach : LoggedReach ep start s log) :
    Reach Init (Step ep) s := by
  induction reach with
  | start init => exact .start init
  | next _ step ih => exact .next ih step

/-- Every reachable state has a history, so the history is no restriction on the runs. -/
theorem reach_iff_logged {s : IOManager K κ} :
    Reach Init (Step ep) s ↔ ∃ start log, LoggedReach ep start s log := by
  refine ⟨fun reach => ?_, fun ⟨_, _, reach⟩ => reach.forget⟩
  induction reach with
  | start init => exact ⟨_, [], .start init⟩
  | next _ step ih =>
    obtain ⟨start, log, previous⟩ := ih
    exact ⟨start, _, .next previous step⟩

/-- A whole run refines the run of its history on the board. -/
theorem LoggedReach.refines {start s : IOManager K κ} {log : List (Change κ)} (reach : LoggedReach ep start s log) :
    start.Init ∧ Refines start log s := by
  induction reach with
  | start init => exact ⟨init, .silent init.good (fun _ => rfl) rfl⟩
  | next _ step ih => exact ⟨ih.1, ih.2.trans (ih.2.good.refines ep step)⟩

/-- Where the continuation of a registration is. The numbers are positions in the history. -/
inductive Place
  | stored
  | scheduled (j : Nat)
  | discarded (j : Nat)
  deriving DecidableEq, Repr

/-- The registration made at the `i`th place of the history is there. -/
def LiesAt (s : IOManager K κ) (log : List (Change κ)) (i : Nat) (slot : Nat × Event) (x : Registration κ) :
    Place → Prop
  | .stored => (∃ c : FdContext κ, s.m_FdContexts[slot.1]? = some c ∧ c.events &&& slot.2.bits ≠ 0 ∧
      c.getContext slot.2 = .ok (.of (some x))) ∧ Board.Quiet log slot i log.length
  | .scheduled j => i < j ∧ log[j]? = some (.take slot x .scheduled) ∧ Board.Quiet log slot i j
  | .discarded j => i < j ∧ log[j]? = some (.take slot x .discarded) ∧ Board.Quiet log slot i j

theorem Good.stored {s : IOManager K κ} (good : s.Good) {fd : Nat} {event : Event} {x : Registration κ}
    (lies : (s.regs fd).get event = some x) :
    ∃ c : FdContext κ, s.m_FdContexts[fd]? = some c ∧ c.events &&& event.bits ≠ 0 ∧
      c.getContext event = .ok (.of (some x)) := by
  have context := getContext_context (s.regs fd) fd (s.regs fd).mask (Regs.real_of_get lies)
  rw [lies] at context
  refine ⟨_, good.context_eq (inside_of_get lies), ?_, context⟩
  intro clear
  have free := ((s.regs fd).mask_and_bits event).mp clear
  simp [lies] at free

theorem LiesAt.unique {s : IOManager K κ} {log : List (Change κ)} {i : Nat} {slot : Nat × Event}
    {x : Registration κ} {p q : Place} (atP : LiesAt s log i slot x p) (atQ : LiesAt s log i slot x q) : p = q := by
  have still {j : Nat} {way : Way} (quiet : Board.Quiet log slot i log.length) (after : i < j)
      (taken : log[j]? = some (.take slot x way)) : False :=
    quiet j _ after (List.getElem?_eq_some_iff.mp taken).1 taken rfl
  cases p with
  | stored =>
    cases q with
    | stored => rfl
    | scheduled j => exact (still atP.2 atQ.1 atQ.2.1).elim
    | discarded j => exact (still atP.2 atQ.1 atQ.2.1).elim
  | scheduled j =>
    cases q with
    | stored => exact (still atQ.2 atP.1 atP.2.1).elim
    | scheduled k =>
      exact congrArg _ (atP.2.2.next_unique atQ.2.2 atP.1 atQ.1 atP.2.1 atQ.2.1 rfl rfl)
    | discarded k =>
      cases atP.2.2.next_unique atQ.2.2 atP.1 atQ.1 atP.2.1 atQ.2.1 rfl rfl
      cases atP.2.1.symm.trans atQ.2.1
  | discarded j =>
    cases q with
    | stored => exact (still atQ.2 atP.1 atP.2.1).elim
    | scheduled k =>
      cases atP.2.2.next_unique atQ.2.2 atP.1 atQ.1 atP.2.1 atQ.2.1 rfl rfl
      cases atP.2.1.symm.trans atQ.2.1
    | discarded k =>
      exact congrArg _ (atP.2.2.next_unique atQ.2.2 atP.1 atQ.1 atP.2.1 atQ.2.1 rfl rfl)

/-- Every continuation accepted by `addEvent` is in exactly one place at every later moment;
what was appended to the queues are exactly the continuations that were scheduled, in order; and
whatever was scheduled or discarded had been accepted once for the same event of the same
descriptor. -/
theorem LoggedReach.one_place {start s : IOManager K κ} {log : List (Change κ)}
    (reach : LoggedReach ep start s log) :
    (∀ i slot x, log[i]? = some (.put slot x) → ∃! place, LiesAt s log i slot x place) ∧
    (∀ scheduler, s.queues scheduler = start.queues scheduler ++ log.filterMap (Change.appended scheduler)) ∧
    (∀ (j : Nat) slot x way, log[j]? = some (.take slot x way) →
      (way = .scheduled → x.scheduler.isSome) ∧
      ∃! i, i < j ∧ log[i]? = some (.put slot x) ∧ Board.Quiet log slot i j) := by
  obtain ⟨init, refines⟩ := reach.refines
  refine ⟨?_, refines.queues, ?_⟩
  · intro i slot x put
    rcases Board.fate refines.run put with ⟨lies, quiet⟩ | ⟨j, way, later, taken, quiet⟩
    · have there : LiesAt s log i slot x .stored := ⟨refines.good.stored lies, quiet⟩
      exact ⟨_, there, fun _ other => LiesAt.unique other there⟩
    · cases way with
      | scheduled =>
        have there : LiesAt s log i slot x (.scheduled j) := ⟨later, taken, quiet⟩
        exact ⟨_, there, fun _ other => LiesAt.unique other there⟩
      | discarded =>
        have there : LiesAt s log i slot x (.discarded j) := ⟨later, taken, quiet⟩
        exact ⟨_, there, fun _ other => LiesAt.unique other there⟩
  · intro j slot x way taken
    refine ⟨?_, ?_⟩
    · rintro rfl
      exact refines.owner slot x (List.mem_of_getElem? taken)
    · obtain ⟨i, before, put, quiet⟩ := Board.origin refines.run init.board_empty taken
      refine ⟨i, ⟨before, put, quiet⟩, ?_⟩
      rintro k ⟨beforeK, putK, quietK⟩
      exact quietK.last_unique quiet beforeK before putK put rfl rfl

theorem one_place_cancelled : ∃ s : IOManager (Nat → Option Mask) Nat,
    LoggedReach interestList fresh s
      [.put (3, .READ) ⟨some 5, .callback 7⟩, .take (3, .READ) ⟨some 5, .callback 7⟩ .scheduled] ∧
    s.queues 5 = [{ cb := some 7 }] := by
  have add : fresh.Step interestList (.addEvent 3 .READ (some 7) ⟨some 5, 1, .EXEC⟩, ⟨true, some 0⟩) _ := rfl
  have added := LoggedReach.next (.start fresh_init) add
  have reach := LoggedReach.next (l := (.cancelEvent 3 .READ, ⟨true, some 0⟩)) added rfl
  exact ⟨_, reach, (reach.one_place interestList).2.1 5⟩

end IOManager
end Sylar
