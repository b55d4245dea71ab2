import Sylar.TimerStep

namespace Sylar
open Machine

variable {κ ω : Type}

namespace TimerManager

/-- One hour of clock readings, the span that `detectClockRollover` tolerates. -/
def hour : Nat := 3600000

/-- The rollover test subtracts without regard to the sign, so that a recorded time below
one hour turns every step backwards into a rollover. -/
theorem detectClockRollover_iff (m : TimerManager κ ω) (now_ms : UInt64) :
    (m.detectClockRollover now_ms).1 = true ↔
      now_ms.toNat + hour < m.m_previouseTime.toNat ∨
        now_ms < m.m_previouseTime ∧ m.m_previouseTime.toNat < hour := by
  have span : ((60 : UInt64) * 60 * 1000).toNat = hour := rfl
  have range := m.m_previouseTime.toNat_lt
  simp only [detectClockRollover, Bool.and_eq_true, decide_eq_true_eq, UInt64.lt_iff_toNat_lt,
    UInt64.toNat_sub, span, hour]
  omega

/-- The callbacks of one `listExpiredCb` are those of the due timers in the order of the set,
and there is one whenever `getNextTimer` finds a deadline that has passed; after a step of
the clock of more than one hour backwards they are those of all timers. -/
def FiresExactlyDue (m : TimerManager κ ω) (now_ms : UInt64) (now_timer : Ptr) : Prop :=
  ∃ cbs expired after timeout polled,
    m.listExpiredCb now_ms now_timer [] = .ok (cbs, expired, after) ∧
      m.getNextTimer now_ms = .ok (timeout, polled) ∧
      OrderedSet.Sorted (Timer.Comparator m.heap) m.m_timers ∧
      (m.m_previouseTime.toNat ≤ now_ms.toNat + hour →
        cbs = (m.m_timers.filter fun p => m.heap.next p ≤ now_ms).map m.heap.cb ∧
          (timeout = 0 → cbs ≠ [])) ∧
      (now_ms.toNat + hour < m.m_previouseTime.toNat → cbs = m.m_timers.map m.heap.cb)

/-- The boundary is drawn right unless the first deadline is exactly now, or the clock has
stepped back below a recorded time of less than one hour while some timer is not yet due. -/
def DueBoundary (m : TimerManager κ ω) (now_ms : UInt64) : Prop :=
  m.m_timers = [] ∨ now_ms.toNat + hour < m.m_previouseTime.toNat ∨
    if now_ms < m.m_previouseTime ∧ m.m_previouseTime.toNat < hour then
      ∀ p ∈ m.m_timers, m.heap.next p ≤ now_ms
    else m.m_timers.head?.map m.heap.next ≠ some now_ms

theorem Wf.takeWhile_due {m : TimerManager κ ω} (wf : m.Wf) (now_ms : UInt64) :
    (m.m_timers.takeWhile fun p => m.heap.next p ≤ now_ms) =
      m.m_timers.filter fun p => m.heap.next p ≤ now_ms := by
  refine wf.sorted.takeWhile_eq_filter fun x inX y _ before due => ?_
  have real : x ≠ 0 := fun null => wf.nonnull (null ▸ inX)
  have order := next_le_of_comparator real before
  simp only [decide_eq_true_eq] at due ⊢
  grind

/-- The callbacks that `listExpiredCb` returns, by the three ways in which it draws the boundary. -/
theorem Wf.expired_cases {m : TimerManager κ ω} (wf : m.Wf) (now_ms : UInt64) :
    ((m.detectClockRollover now_ms).1 = true ∧ m.m_timers.take (m.expiredCount now_ms) = m.m_timers) ∨
      ((m.detectClockRollover now_ms).1 = false ∧ m.m_timers.head?.map m.heap.next = some now_ms ∧
        m.m_timers.take (m.expiredCount now_ms) = []) ∨
      ((m.detectClockRollover now_ms).1 = false ∧ m.m_timers.head?.map m.heap.next ≠ some now_ms ∧
        m.m_timers.take (m.expiredCount now_ms) = m.m_timers.filter fun p => m.heap.next p ≤ now_ms) := by
  cases rollover : (m.detectClockRollover now_ms).1
  · by_cases exactly : m.m_timers.head?.map m.heap.next = some now_ms
    · right; left
      exact ⟨rfl, exactly, by simp [expiredCount, rollover, exactly]⟩
    · right; right
      refine ⟨rfl, exactly, ?_⟩
      rw [← wf.takeWhile_due now_ms]
      simp only [expiredCount, rollover, exactly, Bool.false_eq_true, if_false]
      exact (List.prefix_iff_eq_take.mp (List.takeWhile_prefix _)).symm
  · left
    exact ⟨rfl, by simp [expiredCount, rollover]⟩

/-- `getNextTimer` returns 0 exactly when the first deadline has passed. -/
theorem Wf.timeout_zero_iff {m polled : TimerManager κ ω} (wf : m.Wf) {now_ms timeout : UInt64}
    (poll : m.getNextTimer now_ms = .ok (timeout, polled)) :
    timeout = 0 ↔ ∃ p, m.m_timers.head? = some p ∧ m.heap.next p ≤ now_ms := by
  rw [wf.getNextTimer_eq now_ms] at poll
  have value := congrArg Prod.fst (Except.ok.inj poll)
  simp only at value
  subst value
  cases m.m_timers.head? with
  | none => simp
  | some p =>
    simp only [Option.some.injEq, exists_eq_left']
    constructor
    · intro zero
      by_cases due : now_ms ≥ m.heap.next p
      · exact due
      · simp only [due, if_false] at zero
        grind
    · intro due
      simp [due]

/-- Both calls return, so the property is one about the expired prefix alone. -/
theorem Wf.firesExactlyDue_iff_prefix {m : TimerManager κ ω} (wf : m.Wf) (now_ms : UInt64) {now_timer : Ptr}
    (real : now_timer ≠ 0) (fresh : m.heap now_timer = none) :
    m.FiresExactlyDue now_ms now_timer ↔
      (m.m_previouseTime.toNat ≤ now_ms.toNat + hour →
        (m.m_timers.take (m.expiredCount now_ms)).map m.heap.cb =
            (m.m_timers.filter fun p => m.heap.next p ≤ now_ms).map m.heap.cb ∧
          ((∃ p, m.m_timers.head? = some p ∧ m.heap.next p ≤ now_ms) →
            m.m_timers.take (m.expiredCount now_ms) ≠ [])) ∧
      (now_ms.toNat + hour < m.m_previouseTime.toNat →
        (m.m_timers.take (m.expiredCount now_ms)).map m.heap.cb = m.m_timers.map m.heap.cb) := by
  obtain ⟨timers, call, _, _⟩ := wf.listExpiredCb_eq now_ms [] real fresh
  rw [List.nil_append] at call
  have poll := wf.getNextTimer_eq now_ms
  constructor
  · rintro ⟨cbs, expired, after, timeout, polled, called, polled', _, near, far⟩
    cases Except.ok.inj (called.symm.trans call)
    rw [wf.timeout_zero_iff polled'] at near
    simpa using And.intro near far
  · rintro ⟨near, far⟩
    refine ⟨_, _, _, _, _, call, poll, wf.sorted, ?_, far⟩
    rw [wf.timeout_zero_iff poll]
    simpa using near

theorem filter_due_of_map_eq {m : TimerManager κ ω} {now_ms : UInt64}
    (same : m.m_timers.map m.heap.cb = (m.m_timers.filter fun p => m.heap.next p ≤ now_ms).map m.heap.cb) :
    ∀ p ∈ m.m_timers, m.heap.next p ≤ now_ms := by
  have length := congrArg List.length same
  rw [List.length_map, List.length_map] at length
  have all := List.length_filter_eq_length_iff.mp length.symm
  exact fun p member => by simpa using all p member

/-- In every reachable state and for every clock reading, `listExpiredCb` fires exactly the due
timers, in agreement with `getNextTimer`, if and only if the boundary condition holds. -/
theorem firesExactlyDue_iff {m : TimerManager κ ω} (reach : Reach Init Step m) (now_ms : UInt64)
    (now_timer : Ptr) (enabled : m.Enabled (.listExpiredCb now_ms now_timer)) :
    m.FiresExactlyDue now_ms now_timer ↔ m.DueBoundary now_ms := by
  have wf := wf_of_reach reach
  rw [wf.firesExactlyDue_iff_prefix now_ms enabled.1 (Option.isNone_iff_eq_none.mp enabled.2)]
  cases shape : m.m_timers with
  | nil => simp [DueBoundary, shape]
  | cons first rest =>
    rw [← shape]
    have head : m.m_timers.head? = some first := by simp [shape]
    have nonempty : m.m_timers ≠ [] := by simp [shape]
    have test := m.detectClockRollover_iff now_ms
    by_cases far : now_ms.toNat + hour < m.m_previouseTime.toNat
    · have near : ¬ m.m_previouseTime.toNat ≤ now_ms.toNat + hour := by omega
      rcases wf.expired_cases now_ms with ⟨_, all⟩ | ⟨steady, _⟩ | ⟨steady, _⟩
      · simp [DueBoundary, far, near, all]
      · simp [steady, far] at test
      · simp [steady, far] at test
    · have near : m.m_previouseTime.toNat ≤ now_ms.toNat + hour := by omega
      simp only [DueBoundary, nonempty, far, near, false_or, true_implies, false_implies, and_true]
      simp only [far, false_or] at test
      rcases wf.expired_cases now_ms with ⟨rollover, all⟩ | ⟨steady, exactly, none⟩ | ⟨steady, different, due⟩
      · rw [if_pos (test.mp rollover), all]
        constructor
        · exact fun holds => filter_due_of_map_eq holds.1
        · intro allDue
          refine ⟨?_, fun _ => nonempty⟩
          rw [List.filter_eq_self.mpr fun p member => by simpa using allDue p member]
      · rw [if_neg (by rw [← test]; simp [steady]), none]
        refine iff_of_false ?_ (fun different => different exactly)
        intro holds
        have atNow : m.heap.next first = now_ms := by simpa [head] using exactly
        exact holds.2 ⟨first, head, by rw [atNow]; exact UInt64.le_refl _⟩ rfl
      · rw [if_neg (by rw [← test]; simp [steady]), due]
        refine iff_of_true ⟨rfl, ?_⟩ different
        rintro ⟨p, atHead, dueP⟩ empty
        have member := List.mem_of_mem_head? atHead
        have absent := List.filter_eq_nil_iff.mp empty p member
        simp [dueP] at absent

theorem firesExactlyDue_past_deadline :
    (fresh10.addTimer 16 5 (some (.plain ())) false 10).2.FiresExactlyDue 20 32 :=
  (firesExactlyDue_iff (fresh10_addTimer_reach 16 5 _ false 10 (by decide)) 20 32 (by decide)).mpr
    (Or.inr (Or.inr (by decide)))

/-- A timer due exactly now is not fired although `getNextTimer` returns 0 for it, and a step
of one millisecond back from a recorded time of 10 fires a timer that is due at 1000. -/
theorem not_firesExactlyDue :
    (∃ m : TimerManager Unit Unit, Reach Init Step m ∧ m.Enabled (.listExpiredCb 15 32) ∧
      m.m_previouseTime.toNat ≤ (15 : UInt64).toNat + hour ∧ ¬ m.FiresExactlyDue 15 32) ∧
    ∃ m : TimerManager Unit Unit, Reach Init Step m ∧ m.Enabled (.listExpiredCb 9 32) ∧
      m.m_previouseTime.toNat ≤ (9 : UInt64).toNat + hour ∧ ¬ m.FiresExactlyDue 9 32 := by
  constructor
  · refine ⟨_, fresh10_addTimer_reach 16 5 (some (.plain ())) false 10 (by decide), by decide, by decide, ?_⟩
    rintro ⟨cbs, expired, after, timeout, polled, call, _, _, near, _⟩
    have returned : cbs = [] := (congrArg Prod.fst (Except.ok.inj call)).symm
    have wanted := (near (by decide)).1
    rw [returned] at wanted
    exact absurd wanted (by decide)
  · refine ⟨_, fresh10_addTimer_reach 16 990 (some (.plain ())) false 10 (by decide), by decide, by decide, ?_⟩
    rintro ⟨cbs, expired, after, timeout, polled, call, _, _, near, _⟩
    have returned : cbs = [some (.plain ())] := (congrArg Prod.fst (Except.ok.inj call)).symm
    have wanted := (near (by decide)).1
    rw [returned] at wanted
    exact absurd wanted (by decide)

end TimerManager
end Sylar
