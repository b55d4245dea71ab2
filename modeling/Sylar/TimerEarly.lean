import Mathlib.Algebra.Order.Ring.Int
import Sylar.TimerArming
import Sylar.TimerDue

namespace Sylar
open Machine

variable {κ ω : Type}

/-- The clock reading that an operation takes. -/
def TimerOp.reading : TimerOp κ ω → Option UInt64
  | .addTimer _ _ _ _ now | .addConditionTimer _ _ _ _ _ now | .refresh _ now | .reset _ _ _ now => some now
  | .getNextTimer now_ms | .listExpiredCb now_ms _ => some now_ms
  | .cancel _ | .destroy _ => none

namespace TimerManager

/-- A step together with the last clock reading: the clock does not go back. -/
def TickStep (s : TimerManager κ ω × UInt64) (l : TimerOp κ ω × TimerOut κ ω) (t : TimerManager κ ω × UInt64) :
    Prop :=
  s.1.Step l t.1 ∧ t.2 = l.1.reading.getD s.2 ∧ s.2 ≤ t.2

theorem run_of_ticks {s t : TimerManager κ ω × UInt64} {ls : List (TimerOp κ ω × TimerOut κ ω)}
    (run : Run TickStep s ls t) : Run Step s.1 ls t.1 := by
  induction run with
  | start => exact .start
  | next _ step ih => exact .next ih step.1

/-- A timer starts to count at a reading that the clock has shown. -/
theorem start_le_clock {s t : TimerManager κ ω × UInt64} {ls : List (TimerOp κ ω × TimerOut κ ω)}
    (run : Run TickStep s ls t) (p : Ptr) : (armings ls p).start ≤ t.2 := by
  induction run with
  | start => exact UInt64.le_iff_toNat_le.mpr (Nat.zero_le _)
  | @next ls t l u _ step ih =>
    obtain ⟨_, clock, forward⟩ := step
    have kept := UInt64.le_trans ih forward
    have fresh : ∀ now, l.1.reading = some now → now ≤ u.2 := by
      intro now read
      rw [clock, read]
      exact UInt64.le_refl _
    rw [armings_concat]
    obtain ⟨op, out⟩ := l
    cases op with
    | addTimer q ms cb recuring now | addConditionTimer q ms cb weak_cond recurring now =>
      simp only [Armings.next, Function.update_apply]
      split
      · exact fresh now rfl
      · exact kept
    | refresh q now =>
      simp only [Armings.next]
      split
      · rw [Function.update_apply]
        split
        · exact fresh now rfl
        · exact kept
      · exact kept
    | reset q ms from_now now =>
      simp only [Armings.next]
      split
      · rw [Function.update_apply]
        split
        · rename_i same
          subst same
          cases from_now
          · exact kept
          · exact fresh now rfl
        · exact kept
      · exact kept
    | listExpiredCb now_ms now_timer =>
      simp only [Armings.next]
      split
      · exact fresh now_ms rfl
      · exact kept
    | cancel q | getNextTimer now_ms | destroy q => exact kept

/-- The manager has recorded no later reading than the last one. -/
theorem previouseTime_le_clock {m₀ : TimerManager κ ω} {t : TimerManager κ ω × UInt64}
    {ls : List (TimerOp κ ω × TimerOut κ ω)} (init : m₀.Init) (run : Run TickStep (m₀, m₀.m_previouseTime) ls t) :
    t.1.m_previouseTime ≤ t.2 := by
  induction run with
  | start => exact UInt64.le_refl _
  | @next ls t l u before step ih =>
    have wf := (shows_of_run init (run_of_ticks before)).1
    obtain ⟨step, clock, forward⟩ := step
    have kept := UInt64.le_trans ih forward
    have effect := wf.effect step
    obtain ⟨op, out⟩ := l
    obtain ⟨m', now⟩ := u
    cases effect with
    | addTimer | addConditionTimer | cancel | cancelNothing | refresh | resetNothing | reset | getNextTimer
    | destroy => exact kept
    | listExpiredCb =>
      dsimp only
      split
      · exact kept
      · exact UInt64.le_of_eq clock.symm

theorem steady_clock {m : TimerManager κ ω} {now_ms : UInt64} (forward : m.m_previouseTime ≤ now_ms) :
    (m.detectClockRollover now_ms).1 = false := by
  have notBack : ¬ now_ms < m.m_previouseTime := UInt64.not_lt.mpr forward
  simp [detectClockRollover, notBack]

theorem Wf.head_next_le {m : TimerManager κ ω} (wf : m.Wf) {p first : Ptr} (member : p ∈ m.m_timers)
    (head : m.m_timers.head? = some first) : m.heap.next first ≤ m.heap.next p := by
  obtain ⟨rest, shape⟩ : ∃ rest, m.m_timers = first :: rest := List.head?_eq_some_iff.mp head
  have sorted := wf.sorted
  have real : first ≠ 0 := fun null => wf.nonnull (by rw [shape, null]; exact List.mem_cons_self ..)
  rw [shape] at member sorted
  rcases List.mem_cons.mp member with same | behind
  · rw [same]
    exact UInt64.le_refl _
  · exact next_le_of_comparator real (sorted.head_lt behind)

/-- Whatever the reading from now on, one call of `listExpiredCb` returns the timer only when
its period is over. -/
def NeverEarly (m : TimerManager κ ω) (now : UInt64) (a : Arming) (p now_timer : Ptr) : Prop :=
  ∀ now_ms, now ≤ now_ms → ∀ cbs expired m', m.listExpiredCb now_ms now_timer [] = .ok (cbs, expired, m') →
    p ∈ expired → a.deadline ≤ now_ms.toNat

/-- In every state of every run with a clock that does not go back, a timer in the set is never
returned early if and only if the end of its period is a clock reading. -/
theorem neverEarly_iff {m₀ m : TimerManager κ ω} {ls : List (TimerOp κ ω × TimerOut κ ω)} {now : UInt64}
    (init : m₀.Init) (run : Run TickStep (m₀, m₀.m_previouseTime) ls (m, now)) {p now_timer : Ptr}
    (member : p ∈ m.m_timers) (enabled : m.Enabled (.listExpiredCb now now_timer)) :
    m.NeverEarly now (armings ls p) p now_timer ↔ (armings ls p).deadline < 2 ^ 64 := by
  obtain ⟨wf, shows_⟩ := shows_of_run init (run_of_ticks run)
  obtain ⟨timer, atP⟩ := wf.live p member
  have next : m.heap.next p = (armings ls p).start + (armings ls p).ms :=
    (Heap.next_eq atP).trans (shows_ p timer atP).next
  have started := start_le_clock run p
  have recorded := previouseTime_le_clock init run
  have call := fun now_ms => wf.listExpiredCb_eq now_ms [] enabled.1 (Option.isNone_iff_eq_none.mp enabled.2)
  constructor
  · intro punctual
    by_contra overflow
    have wrapped : (m.heap.next p).toNat < (armings ls p).start.toNat := by
      have startBound := (armings ls p).start.toNat_lt
      have msBound := (armings ls p).ms.toNat_lt
      simp only [Arming.deadline] at overflow
      rw [next, UInt64.toNat_add]
      omega
    have due : m.heap.next p < now := UInt64.lt_iff_toNat_lt.mpr
      (Nat.lt_of_lt_of_le wrapped (UInt64.le_iff_toNat_le.mp started))
    obtain ⟨timers, returned, _⟩ := call now
    have expired : p ∈ m.m_timers.take (m.expiredCount now) := by
      rcases wf.expired_cases now with ⟨rollover, _⟩ | ⟨_, exactly, _⟩ | ⟨_, _, all⟩
      · rw [steady_clock recorded] at rollover
        exact absurd rollover Bool.false_ne_true
      · obtain ⟨first, head, atNow⟩ := Option.map_eq_some_iff.mp exactly
        have order := wf.head_next_le member head
        rw [atNow] at order
        exact absurd due (UInt64.not_lt.mpr order)
      · rw [all]
        exact List.mem_filter.mpr ⟨member, decide_eq_true (UInt64.le_of_lt due)⟩
    have late := punctual now (UInt64.le_refl _) _ _ _ returned expired
    have bound := now.toNat_lt
    omega
  · intro fits now_ms forward cbs expired m' returned inside
    obtain ⟨timers, returned', _⟩ := call now_ms
    cases Except.ok.inj (returned.symm.trans returned')
    have steady := steady_clock (UInt64.le_trans recorded forward)
    have exact_ : (m.heap.next p).toNat = (armings ls p).deadline := by
      rw [next, UInt64.toNat_add]
      exact Nat.mod_eq_of_lt fits
    rcases wf.expired_cases now_ms with ⟨rollover, _⟩ | ⟨_, _, none⟩ | ⟨_, _, all⟩
    · rw [steady] at rollover
      exact absurd rollover Bool.false_ne_true
    · rw [none] at inside
      exact absurd inside List.not_mem_nil
    · rw [all] at inside
      have due : m.heap.next p ≤ now_ms := of_decide_eq_true (List.mem_filter.mp inside).2
      rw [← exact_]
      exact UInt64.le_iff_toNat_le.mp due

theorem neverEarly_five :
    ∃ (m : TimerManager Unit Unit) (ls : _), Run TickStep (fresh10, 10) ls (m, 10) ∧ 16 ∈ m.m_timers ∧
      m.NeverEarly 10 (armings ls 16) 16 32 := by
  have run : Run TickStep (fresh10, fresh10.m_previouseTime) _ (_, 10) :=
    .next .start (l := (.addTimer 16 5 (some (.plain ())) false 10, { atFront := true }))
      ⟨⟨by decide, rfl⟩, rfl, by decide⟩
  exact ⟨_, _, run, by decide, (neverEarly_iff ⟨rfl, rfl, rfl⟩ run (by decide) (by decide)).mpr (by decide)⟩

/-- A period of 2^64 - 1 milliseconds that starts at 10 is over at 10. -/
theorem not_neverEarly :
    ∃ (m m' : TimerManager Unit Unit) (ls : _) (cbs : _), Run TickStep (fresh10, 10) ls (m, 10) ∧
      armings ls 16 = ⟨10, 0xffffffffffffffff, false⟩ ∧
      m.listExpiredCb 10 32 [] = .ok (cbs, [16], m') ∧ cbs = [some (.plain ())] ∧
      ¬ m.NeverEarly 10 (armings ls 16) 16 32 := by
  have run : Run TickStep (fresh10, fresh10.m_previouseTime) _ (_, 10) :=
    .next .start (l := (.addTimer 16 0xffffffffffffffff (some (.plain ())) false 10, { atFront := true }))
      ⟨⟨by decide, rfl⟩, rfl, by decide⟩
  refine ⟨_, _, _, _, run, rfl, rfl, rfl, fun punctual => ?_⟩
  exact absurd (punctual 10 (by decide) _ _ _ rfl (List.mem_singleton_self 16)) (by decide)

end TimerManager
end Sylar
