import Sylar.TimerArming

/-! The reading from which a timer counts is not stored: `reset` takes it to be `m_next - m_ms`. -/

namespace Sylar
open Machine

variable {κ ω : Type}

/-- The reading at which a call arms the timer at `p`: it creates the timer, resets it from now, or, if the
timer is recurring, returns it as expired. -/
def arms (recurring : Bool) (p : Ptr) (l : TimerOp κ ω × TimerOut κ ω) : Option UInt64 :=
  match l.1 with
  | .addTimer q _ _ _ now | .addConditionTimer q _ _ _ _ now => if q = p then some now else none
  | .reset q _ from_now now => if q = p ∧ from_now = true ∧ l.2.ret = true then some now else none
  | .listExpiredCb now_ms _ => if recurring = true ∧ p ∈ l.2.expired then some now_ms else none
  | _ => none

/-- The reading at which the last of the calls that arm the timer has armed it. -/
def lastArmed (recurring : Bool) (p : Ptr) (ls : List (TimerOp κ ω × TimerOut κ ω)) : Option UInt64 :=
  ls.reverse.findSome? (arms recurring p)

theorem lastArmed_concat (recurring : Bool) (p : Ptr) (ls : List (TimerOp κ ω × TimerOut κ ω))
    (l : TimerOp κ ω × TimerOut κ ω) :
    lastArmed recurring p (ls ++ [l]) = (arms recurring p l).or (lastArmed recurring p ls) := by
  rw [lastArmed, List.reverse_concat, List.findSome?_cons, lastArmed]
  cases arms recurring p l <;> rfl

/-- The timer with another period and the same start. A timer without a callback is left alone. -/
def Timer.restart (timer : Timer κ ω) (ms : UInt64) : Timer κ ω :=
  if timer.m_cb.isSome then { timer with m_ms := ms, m_next := timer.m_next - timer.m_ms + ms } else timer

theorem Timer.restart_self (timer : Timer κ ω) : timer.restart timer.m_ms = timer := by
  unfold Timer.restart
  split
  · rw [UInt64.sub_add_cancel]
  · rfl

/-- Only the last of several periods counts. -/
theorem Timer.restart_restart (timer : Timer κ ω) (ms ms' : UInt64) :
    (timer.restart ms).restart ms' = timer.restart ms' := by
  by_cases armed : timer.m_cb.isSome
  · simp only [Timer.restart, armed, if_true, UInt64.add_sub_cancel]
  · simp only [Timer.restart, armed, Bool.false_eq_true, if_false]

namespace TimerManager

/-- Every timer counts from the reading at which it was last armed. -/
def Counts (m : TimerManager κ ω) (armed : Bool → Ptr → Option UInt64) : Prop :=
  ∀ p timer, m.heap p = some timer → armed timer.m_recurring p = some (timer.m_next - timer.m_ms)

section
variable {m m' : TimerManager κ ω} {armed : Bool → Ptr → Option UInt64}

theorem Counts.create (counts : m.Counts armed) {p : Ptr} {timer : Timer κ ω} {now : UInt64}
    (heap : m'.heap = Function.update m.heap p (some timer)) (start : timer.m_next - timer.m_ms = now) :
    m'.Counts fun r q => (if p = q then some now else none).or (armed r q) := by
  intro q timer' atQ
  rw [heap] at atQ
  by_cases same : p = q
  · subst same
    rw [Function.update_self] at atQ
    cases atQ
    simp only [if_true, start, Option.some_or]
  · rw [Function.update_of_ne (Ne.symm same)] at atQ
    simp only [if_neg same, Option.none_or]
    exact counts q timer' atQ

/-- A change that leaves the start of a timer alone. -/
theorem Counts.update (counts : m.Counts armed) {p : Ptr} {old timer : Timer κ ω} (atP : m.heap p = some old)
    (heap : m'.heap = Function.update m.heap p (some timer)) (kind : timer.m_recurring = old.m_recurring)
    (start : timer.m_next - timer.m_ms = old.m_next - old.m_ms) : m'.Counts armed := by
  intro q timer' atQ
  rw [heap] at atQ
  by_cases same : q = p
  · subst same
    rw [Function.update_self] at atQ
    cases atQ
    rw [kind, start]
    exact counts q old atP
  · rw [Function.update_of_ne same] at atQ
    exact counts q timer' atQ

theorem Counts.afterExpire (counts : m.Counts armed) (now_ms : UInt64) (timers : List Ptr) :
    (m.afterExpire now_ms timers).Counts fun r p =>
      (if r = true ∧ p ∈ m.m_timers.take (m.expiredCount now_ms) then some now_ms else none).or (armed r p) := by
  intro p timer' atP
  simp only [TimerManager.afterExpire, expireHeap] at atP
  by_cases expired : p ∈ m.m_timers.take (m.expiredCount now_ms)
  · rw [if_pos expired] at atP
    obtain ⟨timer, old, settled⟩ := Option.map_eq_some_iff.mp atP
    subst settled
    have before := counts p timer old
    cases kind : timer.m_recurring
    · simp only [settle, kind, Bool.false_eq_true, false_and, if_false, Option.none_or]
      rw [← kind]
      exact before
    · simp only [settle, kind, expired, and_self, if_true, Option.some_or, UInt64.add_sub_cancel]
  · rw [if_neg expired] at atP
    simp only [expired, and_false, if_false, Option.none_or]
    exact counts p timer' atP

theorem Counts.reset {p : Ptr} {ms now : UInt64} {from_now : Bool} {out : TimerOut κ ω} (counts : m.Counts armed)
    (wf : m.Wf) (step : m.Step (.reset p ms from_now now, out) m') :
    m'.Counts fun r q => (arms r q (.reset p ms from_now now, out)).or (armed r q) := by
  obtain ⟨timer, atP, early | refused | rearmed⟩ := wf.reset_step step
  · obtain ⟨-, rfl, -, rfl⟩ := early
    simpa only [arms, Bool.false_eq_true, false_and, and_false, if_false, Option.none_or] using counts
  · obtain ⟨-, ret, rfl⟩ := refused
    simpa only [arms, ret, Bool.false_eq_true, and_false, if_false, Option.none_or] using counts
  · obtain ⟨-, ret, rfl⟩ := rearmed
    cases from_now with
    | true =>
      simp only [arms, ret, and_true]
      have start : ({ timer with m_ms := ms, m_next := now + ms } : Timer κ ω).m_next - ms = now :=
        UInt64.add_sub_cancel ..
      exact counts.create rfl start
    | false =>
      simp only [arms, Bool.false_eq_true, false_and, and_false, if_false, Option.none_or]
      refine counts.update atP rfl rfl ?_
      exact UInt64.add_sub_cancel ..

theorem Counts.step {l : TimerOp κ ω × TimerOut κ ω} (counts : m.Counts armed) (wf : m.Wf) (step : m.Step l m') :
    m'.Counts fun r p => (arms r p l).or (armed r p) := by
  have effect := wf.effect step
  obtain ⟨op, out⟩ := l
  cases effect with
  | addTimer _ fresh | addConditionTimer _ fresh => exact counts.create rfl (UInt64.add_sub_cancel ..)
  | cancel atP => exact counts.update atP rfl rfl rfl
  | cancelNothing | refresh | getNextTimer => exact counts
  | resetNothing | reset => exact counts.reset wf step
  | listExpiredCb => exact counts.afterExpire _ _
  | @destroy p _ =>
    intro q timer atQ
    by_cases same : q = p
    · simp [same] at atQ
    · exact counts q timer (by simpa only [Function.update_of_ne same] using atQ)

end

theorem wf_counts {m₀ m : TimerManager κ ω} {ls : List (TimerOp κ ω × TimerOut κ ω)} (init : m₀.Init)
    (run : Run Step m₀ ls m) : m.Wf ∧ m.Counts fun r p => lastArmed r p ls := by
  induction run with
  | start => exact ⟨init.wf, fun p timer atP => by simp [init.2.2] at atP⟩
  | next _ step ih =>
    simp only [lastArmed_concat]
    exact ⟨ih.1.step step, ih.2.step ih.1 step⟩

/-- `reset` on a timer that does not count from now, which gives it another period and nothing else. -/
theorem Wf.reset_restart {m : TimerManager κ ω} (wf : m.Wf) {p : Ptr} {timer : Timer κ ω}
    (atP : m.heap p = some timer) (ms now : UInt64) : ∃ ret atFront m',
      Timer.reset m p ms false now = .ok (ret, atFront, m') ∧ m'.Wf ∧
        m'.heap = Function.update m.heap p (some (timer.restart ms)) := by
  have live : (m.heap p).isSome := by rw [atP]; rfl
  have enabled : m.Enabled (.reset p ms false now) := live
  obtain ⟨out, m', run, -⟩ := wf.exec_effect enabled
  obtain ⟨⟨ret, atFront, m₁⟩, call, same⟩ := bind_eq_ok.mp run
  cases same
  have step : m.Step (.reset p ms false now, { ret := ret, atFront := atFront }) m₁ := ⟨live, run⟩
  refine ⟨ret, atFront, m₁, call, wf.step step, ?_⟩
  obtain ⟨timer', atP', early | refused | rearmed⟩ := wf.reset_step step
  · obtain ⟨rfl, -, -, rfl⟩ := early
    cases atP.symm.trans atP'
    rw [Timer.restart_self, ← atP, Function.update_eq_self]
  · obtain ⟨empty, -, rfl⟩ := refused
    cases atP.symm.trans atP'
    have kept : timer.restart ms = timer := by simp [Timer.restart, empty]
    rw [kept, ← atP, Function.update_eq_self]
  · obtain ⟨some, -, rfl⟩ := rearmed
    cases atP.symm.trans atP'
    have other : timer.restart ms = { timer with m_ms := ms, m_next := timer.m_next - timer.m_ms + ms } :=
      if_pos some
    rw [other]
    rfl

/-- Calls of `reset(ms, false)` on one timer, each with its period and the reading of the clock. -/
def resets (m : TimerManager κ ω) (p : Ptr) (calls : List (UInt64 × UInt64)) : Except Fault (TimerManager κ ω) :=
  calls.foldlM (fun m call => (Timer.reset m p call.1 false call.2).map fun r => r.2.2) m

/-- Only the last of the calls counts. -/
theorem Wf.resets_restart {m : TimerManager κ ω} (wf : m.Wf) {p : Ptr} {timer : Timer κ ω}
    (atP : m.heap p = some timer) (calls : List (UInt64 × UInt64)) (last : UInt64 × UInt64) : ∃ m',
      m.resets p (calls ++ [last]) = .ok m' ∧
        m'.heap = Function.update m.heap p (some (timer.restart last.1)) := by
  induction calls generalizing m timer with
  | nil =>
    obtain ⟨ret, atFront, m', call, -, heap⟩ := wf.reset_restart atP last.1 last.2
    refine ⟨m', ?_, heap⟩
    simp [resets, call, Except.map]
  | cons first calls ih =>
    obtain ⟨ret, atFront, m₁, call, wf₁, heap⟩ := wf.reset_restart atP first.1 first.2
    have at₁ : m₁.heap p = some (timer.restart first.1) := by rw [heap, Function.update_self]
    obtain ⟨m', rest, heap'⟩ := ih wf₁ at₁
    refine ⟨m', ?_, ?_⟩
    · rw [resets, List.cons_append, List.foldlM_cons, call]
      exact rest
    · rw [heap', heap, Function.update_idem, Timer.restart_restart]

/-- In every state that a run reaches, `m_next - m_ms` is the reading at which a timer of the set was last
armed. So the start from which `reset` counts is this reading, and of several calls of `reset` that do not
count from now only the last one shows. -/
theorem start_of_run {m₀ m : TimerManager κ ω} {ls : List (TimerOp κ ω × TimerOut κ ω)} (init : m₀.Init)
    (run : Run Step m₀ ls m) {p : Ptr} (member : p ∈ m.m_timers) : ∃ timer start,
      m.heap p = some timer ∧ lastArmed timer.m_recurring p ls = some start ∧ timer.m_next - timer.m_ms = start ∧
      (∀ ms now, ∃ ret atFront m', Timer.reset m p ms false now = .ok (ret, atFront, m') ∧
        (timer.m_cb.isSome → m'.heap p = some { timer with m_ms := ms, m_next := start + ms })) ∧
      ∀ calls ms now now', ∃ several ret atFront single, m.resets p (calls ++ [(ms, now)]) = .ok several ∧
        Timer.reset m p ms false now' = .ok (ret, atFront, single) ∧ several.heap = single.heap := by
  obtain ⟨wf, counts⟩ := wf_counts init run
  obtain ⟨timer, atP⟩ := wf.live p member
  refine ⟨timer, _, atP, counts p timer atP, rfl, fun ms now => ?_, fun calls ms now now' => ?_⟩
  · obtain ⟨ret, atFront, m', call, -, heap⟩ := wf.reset_restart atP ms now
    refine ⟨ret, atFront, m', call, fun armed => ?_⟩
    rw [heap, Function.update_self, Timer.restart, if_pos armed]
  · obtain ⟨several, all, heap⟩ := wf.resets_restart atP calls (ms, now)
    obtain ⟨ret, atFront, single, call, -, heap'⟩ := wf.reset_restart atP ms now'
    exact ⟨several, ret, atFront, single, all, call, heap.trans heap'.symm⟩

/-- Beside another timer, one with a period with which the end wraps around is re-armed and then reset. -/
theorem start_of_run_wrapped : ∃ (m : TimerManager Unit Unit) (ls : _), Run Step fresh10 ls m ∧
    m.m_timers = [16, 32] ∧ m.heap.next 16 = 27 ∧ lastArmed true 16 ls = some 20 := by
  have wrapped : Run Step fresh10 _ _ :=
    .next .start (l := (.addTimer 16 (~~~0) (some (.plain ())) true 10, { atFront := true })) ⟨by decide, rfl⟩
  have other : Run Step fresh10 _ _ :=
    .next wrapped (l := (.addTimer 32 50 (some (.plain ())) false 10, { atFront := false })) ⟨by decide, rfl⟩
  have rearmed : Run Step fresh10 _ _ :=
    .next other (l := (.listExpiredCb 20 48, { cbs := [some (.plain ())], expired := [16] })) ⟨by decide, rfl⟩
  have run : Run Step fresh10 _ _ := .next rearmed (l := (.reset 16 7 false 30, { ret := true })) ⟨by decide, rfl⟩
  obtain ⟨timer, start, atP, armed, counted, -⟩ := start_of_run ⟨rfl, rfl, rfl⟩ run (p := 16) (by decide)
  cases atP
  rw [← counted] at armed
  exact ⟨_, _, run, rfl, rfl, armed⟩

end TimerManager
end Sylar
