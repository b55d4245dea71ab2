import Sylar.TimerArming
import Sylar.TimerHistory

namespace Sylar
open Machine

variable {κ ω : Type}

namespace TimerManager

def Pending (m : TimerManager κ ω) (p : Ptr) : Prop := p ∈ m.m_timers ∧ (m.heap.cb p).isSome

instance (m : TimerManager κ ω) (p : Ptr) : Decidable (m.Pending p) := inferInstanceAs (Decidable (_ ∧ _))

theorem Wf.pending_iff {m : TimerManager κ ω} (wf : m.Wf) {p : Ptr} {timer : Timer κ ω}
    (atP : m.heap p = some timer) : m.Pending p ↔ timer.m_cb.isSome := by
  have cb : m.heap.cb p = timer.m_cb := by simp [Heap.cb, atP]
  rw [Pending, cb]
  exact ⟨And.right, fun armed => ⟨wf.armed p timer atP armed, armed⟩⟩

/-- The timer at `p` has become `timer` and is in the set once; nothing else has changed,
neither in memory nor in the set. -/
structure Rearms (m m' : TimerManager κ ω) (p : Ptr) (timer : Timer κ ω) : Prop where
  once : m'.m_timers.count p = 1
  heap : m'.heap = Function.update m.heap p (some timer)
  others : m'.m_timers.erase p = m.m_timers.erase p

theorem Wf.rearms {m : TimerManager κ ω} (wf : m.Wf) {p : Ptr} {timer : Timer κ ω}
    (atP : m.heap p = some timer) (armed : timer.m_cb.isSome) (ms start : UInt64) :
    m.Rearms ((m.rearmed p timer ms start).addTimerLocked p).2 p
      { timer with m_ms := ms, m_next := start + ms } := by
  have outside : p ∉ (m.rearmed p timer ms start).m_timers := (wf.erase p).outside
  have real : p ≠ 0 := fun null => wf.nonnull (null ▸ wf.armed p timer atP armed)
  have wf' := ((wf.erase p).write { timer with m_ms := ms, m_next := start + ms }).insert real
    (Function.update_self ..)
  refine ⟨?_, rfl, OrderedSet.erase_insert outside⟩
  exact List.count_eq_one_of_mem wf'.sorted.nodup ((OrderedSet.mem_insert outside).mpr (Or.inl rfl))

/-- A timer that keeps what it has is rearmed with it. -/
theorem Wf.rearms_self {m : TimerManager κ ω} (wf : m.Wf) {p : Ptr} {timer : Timer κ ω}
    (atP : m.heap p = some timer) (armed : timer.m_cb.isSome) : m.Rearms m p timer where
  once := List.count_eq_one_of_mem wf.sorted.nodup (wf.armed p timer atP armed)
  heap := by rw [← atP, Function.update_eq_self]
  others := rfl

/-- `refresh` succeeds on a pending timer, which then counts again from now, and on no other. -/
def RefreshLaw (m : TimerManager κ ω) (p : Ptr) (now : UInt64) : Prop :=
  ∃ ret m', Timer.refresh m p now = .ok (ret, m') ∧ (ret = true ↔ m.Pending p) ∧
    (ret = true → ∃ timer, m.heap p = some timer ∧
      m.Rearms m' p { timer with m_next := now + timer.m_ms }) ∧
    (ret = false → m' = m)

/-- In every reachable state `refresh` keeps its law for the timers that are not pending, and
for no other. -/
theorem refreshLaw_iff {m : TimerManager κ ω} (reach : Reach Init Step m) (p : Ptr) (now : UInt64)
    (enabled : m.Enabled (.refresh p now)) : m.RefreshLaw p now ↔ ¬ m.Pending p := by
  obtain ⟨timer, atP⟩ := Option.isSome_iff_exists.mp enabled
  have call := (wf_of_reach reach).refresh_eq now atP
  constructor
  · rintro ⟨ret, m', run, success, _, _⟩ pending
    cases Except.ok.inj (run.symm.trans call)
    exact absurd (success.mpr pending) Bool.false_ne_true
  · intro dead
    exact ⟨false, m, call, iff_of_false Bool.false_ne_true dead, nofun, fun _ => rfl⟩

theorem refreshLaw_cancelled :
    ∃ m : TimerManager Unit Unit, Reach Init Step m ∧ m.heap 16 = some ⟨false, 5, 15, none⟩ ∧ m.RefreshLaw 16 20 := by
  have reach := fresh10_addTimer_reach 16 5 (some (.plain ())) false 10 (by decide)
  have cancelled : Reach Init Step _ := .next reach (l := (.cancel 16, { ret := true })) ⟨by decide, rfl⟩
  exact ⟨_, cancelled, rfl, (refreshLaw_iff cancelled 16 20 (by decide)).mpr (by decide)⟩

theorem not_refreshLaw :
    ∃ m : TimerManager Unit Unit, Reach Init Step m ∧ m.Enabled (.refresh 16 20) ∧ ¬ m.RefreshLaw 16 20 := by
  refine ⟨_, fresh10_addTimer_reach 16 5 (some (.plain ())) false 10 (by decide), by decide, ?_⟩
  rintro ⟨ret, m', run, success, _, _⟩
  have refused : ret = false := (congrArg Prod.fst (Except.ok.inj run)).symm
  exact absurd (success.mpr (by decide)) (by rw [refused]; exact Bool.false_ne_true)

/-- What a run says of its timers besides how it armed them. -/
def labels (ls : List (TimerOp κ ω × TimerOut κ ω)) : TimerLabels := ls.foldl TimerLabels.next {}

theorem labeledReach_of_run {m₀ m : TimerManager κ ω} {ls : List (TimerOp κ ω × TimerOut κ ω)}
    (init : m₀.Init) (run : Run Step m₀ ls m) : m.LabeledReach (labels ls) := by
  induction run with
  | start => exact .start init
  | next _ step ih =>
    rw [labels, List.foldl_append]
    exact .next ih step

/-- `reset` succeeds on a pending timer, which then counts `ms` from now or from the reading at
which it was last armed, and on no other. -/
def ResetLaw (m : TimerManager κ ω) (A : Armings) (L : TimerLabels) (p : Ptr) (ms : UInt64) (from_now : Bool)
    (now : UInt64) : Prop :=
  ∃ ret atFront m', Timer.reset m p ms from_now now = .ok (ret, atFront, m') ∧ (ret = true ↔ m.Pending p) ∧
    (ret = true → ∃ timer, m.heap p = some timer ∧
      m.Rearms m' p { timer with m_ms := ms, m_next := (if from_now then now else (A p).start) + ms }) ∧
    (L.cancelled p = true ∨ (A p).recurring = false ∧ 0 < L.fired p → ret = false) ∧
    (ret = false → m' = m)

/-- A timer that has been cancelled or has fired as one-shot is not pending. -/
theorem AgreesAt.gone_or_spent {timer : Timer κ ω} {member : Prop} {born cancelled : Bool} {fired : Nat}
    (agrees : AgreesAt timer member born fired cancelled)
    (finished : cancelled = true ∨ timer.m_recurring = false ∧ 0 < fired) : ¬ member := by
  rcases finished with gone | ⟨oneShot, spent⟩
  · exact agrees.gone gone
  · intro inside
    rw [agrees.unfired oneShot inside] at spent
    exact absurd spent (Nat.lt_irrefl 0)

/-- In every state that a run reaches, `reset` keeps its law unless it is asked to leave a timer
that is not pending with the period it has. -/
theorem resetLaw_iff {m₀ m : TimerManager κ ω} {ls : List (TimerOp κ ω × TimerOut κ ω)} (init : m₀.Init)
    (run : Run Step m₀ ls m) {p : Ptr} {timer : Timer κ ω} (atP : m.heap p = some timer) (ms : UInt64)
    (from_now : Bool) (now : UInt64) :
    m.ResetLaw (armings ls) (labels ls) p ms from_now now ↔
      m.Pending p ∨ ms ≠ timer.m_ms ∨ from_now = true := by
  obtain ⟨wf, shows_⟩ := shows_of_run init run
  have armed := shows_ p timer atP
  have agrees := (labeledReach_of_run init run).agrees p timer atP
  have finished : (labels ls).cancelled p = true ∨ (armings ls p).recurring = false ∧ 0 < (labels ls).fired p →
      ¬ m.Pending p := by
    rw [← armed.kind]
    exact fun finished pending => agrees.gone_or_spent finished pending.1
  have call := wf.reset_eq ms from_now now atP
  by_cases early : (ms == timer.m_ms && !from_now) = true
  · rw [if_pos early] at call
    simp only [Bool.and_eq_true, beq_iff_eq, Bool.not_eq_true'] at early
    obtain ⟨rfl, rfl⟩ := early
    simp only [ne_eq, not_true_eq_false, Bool.false_eq_true, or_false]
    constructor
    · rintro ⟨ret, atFront, m', call', success, _⟩
      cases Except.ok.inj (call'.symm.trans call)
      exact success.mp rfl
    · intro pending
      refine ⟨true, false, m, call, iff_of_true rfl pending, fun _ => ⟨timer, atP, ?_⟩, ?_, nofun⟩
      · have next : (armings ls p).start + timer.m_ms = timer.m_next := by rw [armed.next, armed.ms]
        simpa only [Bool.false_eq_true, if_false, next] using
          wf.rearms_self atP ((wf.pending_iff atP).mp pending)
      · exact fun gone => absurd pending (finished gone)
  · rw [if_neg early] at call
    have asked : ms ≠ timer.m_ms ∨ from_now = true := by
      simpa [imp_iff_not_or] using early
    refine iff_of_true ?_ (Or.inr asked)
    cases cb : timer.m_cb with
    | none =>
      have dead : ¬ m.Pending p := by simp [wf.pending_iff atP, cb]
      rw [cb] at call
      exact ⟨false, false, m, call, iff_of_false Bool.false_ne_true dead, nofun, fun _ => rfl, fun _ => rfl⟩
    | some f =>
      have pending : m.Pending p := by simp [wf.pending_iff atP, cb]
      rw [cb] at call
      refine ⟨true, _, _, call, iff_of_true rfl pending, fun _ => ⟨timer, atP, ?_⟩, ?_, nofun⟩
      · rw [← resetStart_eq armed from_now now]
        exact wf.rearms atP (by simp [cb]) ms _
      · exact fun gone => absurd pending (finished gone)

theorem resetLaw_new_period :
    ∃ (m : TimerManager Unit Unit) (ls : _), Run Step fresh10 ls m ∧
      m.ResetLaw (armings ls) (labels ls) 16 7 false 20 := by
  have run : Run Step fresh10 _ _ :=
    .next .start (l := (.addTimer 16 5 (some (.plain ())) false 10, { atFront := true })) ⟨by decide, rfl⟩
  exact ⟨_, _, run, (resetLaw_iff ⟨rfl, rfl, rfl⟩ run (p := 16) rfl 7 false 20).mpr (Or.inr (Or.inl (by decide)))⟩

/-- A cancelled timer that is asked for the period it had. -/
theorem not_resetLaw :
    ∃ (m : TimerManager Unit Unit) (ls : _), Run Step fresh10 ls m ∧ m.Enabled (.reset 16 5 false 20) ∧
      (labels ls).cancelled 16 = true ∧ ¬ m.ResetLaw (armings ls) (labels ls) 16 5 false 20 := by
  have run : Run Step fresh10 _ _ :=
    .next (.next .start (l := (.addTimer 16 5 (some (.plain ())) false 10, { atFront := true })) ⟨by decide, rfl⟩)
      (l := (.cancel 16, { ret := true })) ⟨by decide, rfl⟩
  refine ⟨_, _, run, by decide, rfl, ?_⟩
  rintro ⟨ret, atFront, m', call, success, _⟩
  have succeeded : ret = true := (congrArg Prod.fst (Except.ok.inj call)).symm
  exact absurd (success.mp succeeded) (by decide)

end TimerManager
end Sylar
