import Sylar.TimerStep

namespace Sylar
open Machine

variable {κ ω : Type}

/-- The clock reading from which a timer counts, what it was asked to count, and its kind. -/
structure Arming where
  start : UInt64 := 0
  ms : UInt64 := 0
  recurring : Bool := false

/-- The end of the period, computed without overflow. -/
def Arming.deadline (a : Arming) : Nat := a.start.toNat + a.ms.toNat

abbrev Armings := Ptr → Arming

/-- A reset that does not count from now keeps the reading from which the timer has counted
so far, and a call of `listExpiredCb` arms the recurring timers among those that it returns. -/
def Armings.next (A : Armings) (l : TimerOp κ ω × TimerOut κ ω) : Armings :=
  match l.1 with
  | .addTimer p ms _ recurring now | .addConditionTimer p ms _ _ recurring now =>
    Function.update A p ⟨now, ms, recurring⟩
  | .refresh p now => if l.2.ret then Function.update A p { A p with start := now } else A
  | .reset p ms from_now now =>
    if l.2.ret then Function.update A p ⟨if from_now then now else (A p).start, ms, (A p).recurring⟩ else A
  | .listExpiredCb now_ms _ => fun p =>
    if p ∈ l.2.expired ∧ (A p).recurring then { A p with start := now_ms } else A p
  | _ => A

/-- How the timers have been armed in the course of a run. -/
def armings (ls : List (TimerOp κ ω × TimerOut κ ω)) : Armings := ls.foldl Armings.next fun _ => {}

@[simp] theorem armings_concat (ls : List (TimerOp κ ω × TimerOut κ ω)) (l : TimerOp κ ω × TimerOut κ ω) :
    armings (ls ++ [l]) = (armings ls).next l := by
  simp [armings]

/-- A timer shows how it was armed. -/
structure Arming.Shows (a : Arming) (timer : Timer κ ω) : Prop where
  kind : timer.m_recurring = a.recurring
  ms : timer.m_ms = a.ms
  next : timer.m_next = a.start + a.ms

namespace TimerManager

def Shows (m : TimerManager κ ω) (A : Armings) : Prop :=
  ∀ p timer, m.heap p = some timer → (A p).Shows timer

theorem Shows.update {m m' : TimerManager κ ω} {A : Armings} (shows_ : m.Shows A) {p : Ptr}
    {timer : Timer κ ω} {a : Arming} (heap : m'.heap = Function.update m.heap p (some timer))
    (fits : a.Shows timer) : m'.Shows (Function.update A p a) := by
  intro q timer' atQ
  rw [heap] at atQ
  by_cases same : q = p
  · subst same
    rw [Function.update_self] at atQ ⊢
    cases atQ
    exact fits
  · rw [Function.update_of_ne same] at atQ ⊢
    exact shows_ q timer' atQ

theorem Shows.afterExpire {m : TimerManager κ ω} {A : Armings} (shows_ : m.Shows A) (now_ms : UInt64)
    (timers : List Ptr) : (m.afterExpire now_ms timers).Shows fun p =>
      if p ∈ m.m_timers.take (m.expiredCount now_ms) ∧ (A p).recurring then { A p with start := now_ms }
      else A p := by
  intro p timer' atP
  simp only [TimerManager.afterExpire, expireHeap] at atP
  by_cases expired : p ∈ m.m_timers.take (m.expiredCount now_ms)
  · rw [if_pos expired] at atP
    obtain ⟨timer, old, settled⟩ := Option.map_eq_some_iff.mp atP
    subst settled
    have before := shows_ p timer old
    cases kind : (A p).recurring
    · have oneShot : timer.m_recurring = false := before.kind.trans kind
      simp only [expired, kind, Bool.false_eq_true, and_false, if_false, settle, oneShot]
      exact ⟨kind.symm, before.ms, before.next⟩
    · have recurring : timer.m_recurring = true := before.kind.trans kind
      simp only [expired, kind, and_self, if_true, settle, recurring]
      exact ⟨rfl, before.ms, by rw [before.ms]⟩
  · rw [if_neg expired] at atP
    simp only [expired, false_and, if_false]
    exact shows_ p timer' atP

theorem resetStart_eq {a : Arming} {timer : Timer κ ω} (shows_ : a.Shows timer)
    (from_now : Bool) (now : UInt64) : resetStart timer from_now now = if from_now then now else a.start := by
  simp [resetStart, shows_.next, shows_.ms]

/-- The three ways out of `reset`. -/
theorem Wf.reset_step {m m' : TimerManager κ ω} {p : Ptr} {ms now : UInt64} {from_now : Bool}
    {out : TimerOut κ ω} (wf : m.Wf) (step : m.Step (.reset p ms from_now now, out) m') :
    ∃ timer, m.heap p = some timer ∧
      (ms = timer.m_ms ∧ from_now = false ∧ out.ret = true ∧ m' = m ∨
        timer.m_cb = none ∧ out.ret = false ∧ m' = m ∨
        timer.m_cb.isSome ∧ out.ret = true ∧
          m' = ((m.rearmed p timer ms (resetStart timer from_now now)).addTimerLocked p).2) := by
  obtain ⟨timer, atP⟩ := Option.isSome_iff_exists.mp step.1
  obtain ⟨r, run, out_eq⟩ := bind_eq_ok.mp step.2
  rw [wf.reset_eq ms from_now now atP] at run
  refine ⟨timer, atP, ?_⟩
  split at run
  · rename_i same
    cases run
    cases out_eq
    simp only [Bool.and_eq_true, beq_iff_eq, Bool.not_eq_true'] at same
    exact Or.inl ⟨same.1, same.2, rfl, rfl⟩
  split at run
  · rename_i empty
    cases run
    cases out_eq
    exact Or.inr (Or.inl ⟨Option.isNone_iff_eq_none.mp empty, rfl, rfl⟩)
  · rename_i armed
    cases run
    cases out_eq
    exact Or.inr (Or.inr ⟨by simpa [Option.isSome_iff_ne_none] using armed, rfl, rfl⟩)

theorem Shows.reset {m m' : TimerManager κ ω} {A : Armings} {p : Ptr} {ms now : UInt64} {from_now : Bool}
    {out : TimerOut κ ω} (shows_ : m.Shows A) (wf : m.Wf) (step : m.Step (.reset p ms from_now now, out) m') :
    m'.Shows (A.next (.reset p ms from_now now, out)) := by
  obtain ⟨timer, atP, early | refused | rearmed⟩ := wf.reset_step step
  · obtain ⟨rfl, rfl, ret, rfl⟩ := early
    have same : (⟨(A p).start, timer.m_ms, (A p).recurring⟩ : Arming) = A p := by
      rw [(shows_ p timer atP).ms]
    simpa only [Armings.next, ret, if_true, Bool.false_eq_true, if_false, same, Function.update_eq_self]
      using shows_
  · obtain ⟨_, ret, rfl⟩ := refused
    simpa only [Armings.next, ret, Bool.false_eq_true, if_false] using shows_
  · obtain ⟨_, ret, rfl⟩ := rearmed
    simp only [Armings.next, ret, if_true]
    refine shows_.update rfl ⟨(shows_ p timer atP).kind, rfl, ?_⟩
    rw [resetStart_eq (shows_ p timer atP)]

theorem Shows.step {m m' : TimerManager κ ω} {A : Armings} {l : TimerOp κ ω × TimerOut κ ω}
    (shows_ : m.Shows A) (wf : m.Wf) (step : m.Step l m') : m'.Shows (A.next l) := by
  have effect := wf.effect step
  obtain ⟨op, out⟩ := l
  cases effect with
  | addTimer _ fresh | addConditionTimer _ fresh => exact shows_.update rfl ⟨rfl, rfl, rfl⟩
  | @cancel p timer atP _ =>
    have shown := shows_ p timer atP
    have kept : (({ m with m_timers := m.m_timers.erase p } : TimerManager κ ω).write p { timer with m_cb := none }).Shows
        (Function.update A p (A p)) := shows_.update rfl ⟨shown.kind, shown.ms, shown.next⟩
    rwa [Function.update_eq_self] at kept
  | cancelNothing | refresh | getNextTimer => exact shows_
  | resetNothing | reset => exact shows_.reset wf step
  | listExpiredCb => exact shows_.afterExpire _ _
  | @destroy p _ =>
    intro q timer atQ
    by_cases same : q = p
    · simp [same] at atQ
    · exact shows_ q timer (by simpa only [Function.update_of_ne same] using atQ)

/-- In every state that a run reaches, each timer shows how the run has armed it. -/
theorem shows_of_run {m₀ m : TimerManager κ ω} {ls : List (TimerOp κ ω × TimerOut κ ω)} (init : m₀.Init)
    (run : Run Step m₀ ls m) : m.Wf ∧ m.Shows (armings ls) := by
  induction run with
  | start => exact ⟨init.wf, fun p timer atP => by simp [init.2.2] at atP⟩
  | next _ step ih =>
    rw [armings_concat]
    exact ⟨ih.1.step step, ih.2.step ih.1 step⟩

end TimerManager
end Sylar
