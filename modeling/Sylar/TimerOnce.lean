import Sylar.Lib.Board
import Sylar.TimerRace

/-! A timer that does not recur, from the moment it is made: it has its function, or it is out of the set
for good. -/

namespace Sylar.TimerManager

variable {κ ω : Type}

/-- The timer does not recur, and it is in the set only with its function. -/
structure Once (m : TimerManager κ ω) (p : Ptr) (timer : Timer κ ω) : Prop where
  lives : m.heap p = some timer
  single : timer.m_recurring = false
  spent : timer.m_cb = none → p ∉ m.m_timers

variable {m m' : TimerManager κ ω} {p : Ptr} {timer : Timer κ ω}

theorem Once.congr (once : m.Once p timer) (lives : m'.heap p = m.heap p) (members : p ∈ m'.m_timers → p ∈ m.m_timers) :
    m'.Once p timer :=
  ⟨lives.trans once.lives, once.single, fun none member => once.spent none (members member)⟩

/-- It keeps its function or loses it, unless it is destroyed. -/
theorem Wf.once_step (wf : m.Wf) (once : m.Once p timer) {op : TimerOp κ ω} {out : TimerOut κ ω}
    (step : m.Step (op, out) m') (alive : op ≠ .destroy p) :
    ∃ timer', m'.Once p timer' ∧ (timer'.m_cb = timer.m_cb ∨ timer'.m_cb = none) := by
  cases wf.effect step with
  | @addTimer q _ _ _ _ real fresh | @addConditionTimer q _ _ _ _ _ real fresh =>
    have apart : p ≠ q := fun same => by cases (same ▸ fresh).symm.trans once.lives
    refine ⟨timer, once.congr (Function.update_of_ne apart _ _) fun member => ?_, .inl rfl⟩
    exact (OrderedSet.mem_of_mem_insert member).resolve_left apart
  | @cancel q timer' atQ armed =>
    by_cases same : p = q
    · subst same
      cases atQ.symm.trans once.lives
      have outside := (wf.erase p).outside
      exact ⟨_, ⟨Function.update_self .., once.single, fun _ => outside⟩, .inr rfl⟩
    · exact ⟨timer, once.congr (Function.update_of_ne same _ _) List.mem_of_mem_erase, .inl rfl⟩
  | cancelNothing | refresh | resetNothing | getNextTimer => exact ⟨timer, once.congr rfl id, .inl rfl⟩
  | @reset q timer' ms from_now now atQ member =>
    by_cases same : p = q
    · subst same
      cases atQ.symm.trans once.lives
      have armed : timer.m_cb ≠ none := fun none => once.spent none member
      exact ⟨_, ⟨Function.update_self .., once.single, fun none => absurd none armed⟩, .inl rfl⟩
    · refine ⟨timer, once.congr (Function.update_of_ne same _ _) fun member => ?_, .inl rfl⟩
      exact List.mem_of_mem_erase ((OrderedSet.mem_of_mem_insert member).resolve_left same)
  | @listExpiredCb now_ms now_timer timers sorted perm =>
    have single : m.heap.recurring p = false := by simp [Heap.recurring, once.lives, once.single]
    have left : p ∈ timers → p ∈ m.m_timers.drop (m.expiredCount now_ms) := by
      intro member
      rcases List.mem_append.mp (perm.mem_iff.mp member) with back | rest
      · rw [(List.mem_filter.mp back).2] at single
        cases single
      · exact rest
    by_cases expired : p ∈ m.m_timers.take (m.expiredCount now_ms)
    · refine ⟨settle now_ms timer, ⟨?_, ?_, fun _ member => ?_⟩, .inr ?_⟩
      · simp [TimerManager.afterExpire, expireHeap, expired, once.lives]
      · simp [settle, once.single]
      · exact List.disjoint_take_drop wf.sorted.nodup (Nat.le_refl _) expired (left member)
      · simp [settle, once.single]
    · refine ⟨timer, once.congr ?_ fun member => List.mem_of_mem_drop (left member), .inl rfl⟩
      simp [TimerManager.afterExpire, expireHeap, expired]
  | @destroy q outside =>
    have apart : p ≠ q := fun same => alive (same ▸ rfl)
    exact ⟨timer, once.congr (Function.update_of_ne apart _ _) id, .inl rfl⟩

/-- The operation makes the timer with the function. -/
inductive Makes (p : Ptr) (f : Callback κ ω) : TimerOp κ ω → Prop
  | addTimer {ms recuring now} : Makes p f (.addTimer p ms (some f) recuring now)
  | addConditionTimer {ms cb weak_cond recurring now} : f = .onTimer weak_cond cb →
      Makes p f (.addConditionTimer p ms cb weak_cond recurring now)

/-- No operation gives a timer another function. -/
theorem Wf.cb_before (wf : m.Wf) {op : TimerOp κ ω} {out : TimerOut κ ω} (step : m.Step (op, out) m')
    {f : Callback κ ω} (lives : m'.heap p = some timer) (armed : timer.m_cb = some f) :
    (∃ before, m.heap p = some before ∧ before.m_cb = some f) ∨ Makes p f op := by
  cases wf.effect step with
  | addTimer =>
    rcases Board.update_eq_some rfl lives with ⟨rfl, rfl⟩ | ⟨-, old⟩
    · cases armed
      exact .inr .addTimer
    · exact .inl ⟨timer, old, armed⟩
  | addConditionTimer =>
    rcases Board.update_eq_some rfl lives with ⟨rfl, rfl⟩ | ⟨-, old⟩
    · exact .inr (.addConditionTimer (Option.some.inj armed).symm)
    · exact .inl ⟨timer, old, armed⟩
  | cancel =>
    rcases Board.update_eq_some rfl lives with ⟨rfl, rfl⟩ | ⟨-, old⟩
    · cases armed
    · exact .inl ⟨timer, old, armed⟩
  | cancelNothing | refresh | resetNothing | getNextTimer => exact .inl ⟨timer, lives, armed⟩
  | reset atQ =>
    rcases Board.update_eq_some rfl lives with ⟨rfl, rfl⟩ | ⟨-, old⟩
    · exact .inl ⟨_, atQ, armed⟩
    · exact .inl ⟨timer, old, armed⟩
  | listExpiredCb =>
    refine .inl ?_
    simp only [TimerManager.afterExpire, expireHeap] at lives
    split at lives
    · obtain ⟨before, old, rfl⟩ := Option.map_eq_some_iff.mp lives
      refine ⟨before, old, ?_⟩
      unfold settle at armed
      split at armed
      · exact armed
      · cases armed
    · exact ⟨timer, lives, armed⟩
  | @destroy q =>
    have lives : Function.update m.heap q none p = some timer := lives
    exact .inl ⟨timer, (Board.clear_eq_some lives).2, armed⟩

/-- A timer that has been cancelled has no function. -/
theorem Wf.cancel_cb (wf : m.Wf) {out : TimerOut κ ω} (step : m.Step (.cancel p, out) m')
    (lives : m'.heap p = some timer) : timer.m_cb = none := by
  cases wf.effect step with
  | cancel =>
    cases (Function.update_self ..).symm.trans lives
    rfl
  | cancelNothing atP none =>
    cases atP.symm.trans lives
    exact none

/-- The part of `listExpiredCb` under the write lock, when it returns: the set is empty and stays so, or it
is the whole of `listExpiredCb`. -/
theorem locked_cases {now_ms : UInt64} {now_timer : Ptr} {cbs : List (Option (Callback κ ω))} {expired : List Ptr}
    (enabled : m.Enabled (.listExpiredCb now_ms now_timer))
    (done : m.listExpiredCbLocked now_ms now_timer [] = .ok (cbs, expired, m')) :
    cbs = [] ∧ m'.m_timers = m.m_timers ∧ m'.heap = m.heap ∨
      m.Step (.listExpiredCb now_ms now_timer, { cbs := cbs, expired := expired }) m' := by
  cases shape : m.m_timers.isEmpty with
  | true =>
    have empty := List.isEmpty_iff.mp shape
    by_cases rolled : Rolled m.m_previouseTime now_ms
    · rw [m.listExpiredCbLocked_empty now_timer empty rolled] at done
      cases done
      exact .inl ⟨rfl, rfl, rfl⟩
    · rw [(m.listExpiredCbLocked_derefEnd now_ms now_timer []).mpr ⟨empty, rolled⟩] at done
      cases done
  | false =>
    refine .inr ⟨enabled, ?_⟩
    simp only [exec, listExpiredCb, shape, Bool.false_eq_true, if_false, done]
    rfl

end Sylar.TimerManager
