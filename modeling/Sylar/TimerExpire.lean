import Sylar.TimerSet

namespace Sylar
open Machine

variable {κ ω : Type}

namespace TimerManager

/-- How many timers one call of `listExpiredCb` takes off the front of the set. -/
def expiredCount (m : TimerManager κ ω) (now_ms : UInt64) : Nat :=
  if (m.detectClockRollover now_ms).1 then m.m_timers.length
  else if m.m_timers.head?.map m.heap.next = some now_ms then 0
  else (m.m_timers.takeWhile fun p => m.heap.next p ≤ now_ms).length

theorem next_le_of_comparator {heap : Heap κ ω} {x y : Ptr} (nonnull : x ≠ 0)
    (before : Timer.Comparator heap x y = true) : heap.next x ≤ heap.next y := by
  rcases (Timer.comparator_iff _ _ _).mp before with ⟨null, _⟩ | ⟨_, _, less | ⟨equal, _⟩⟩
  · exact absurd null nonnull
  · grind
  · grind

/-- Seen from the front of the set, `lower_bound` stops at the first timer that is not
before `(now_ms, now_timer)`; together with the loop that skips the timers due exactly now
it stops at the first timer due later, wherever `now_timer` lies in memory. -/
theorem lowerBound_skip_eq {heap : Heap κ ω} {l : List Ptr} {now_ms : UInt64} {now_timer : Ptr}
    (sorted : OrderedSet.Sorted (Timer.Comparator heap) l) (nonnull : 0 ∉ l) (apart : now_timer ∉ l)
    (real : now_timer ≠ 0) :
    let it := OrderedSet.lowerBound
      (Timer.Comparator (Function.update heap now_timer (some { m_next := now_ms }))) l now_timer
    it + ((l.drop it).takeWhile fun p => heap.next p == now_ms).length =
      (l.takeWhile fun p => heap.next p ≤ now_ms).length := by
  induction l with
  | nil => rfl
  | cons x l ih =>
    obtain ⟨nonnullX, nonnullTail⟩ := List.ne_and_not_mem_of_not_mem_cons nonnull
    obtain ⟨apartX, apartTail⟩ := List.ne_and_not_mem_of_not_mem_cons apart
    have key : Heap.next (Function.update heap now_timer (some { m_next := now_ms })) now_timer = now_ms :=
      Heap.next_eq (Function.update_self ..)
    have keyX := Heap.next_update_of_ne heap (some { m_next := now_ms }) apartX.symm
    have test := Timer.comparator_iff (Function.update heap now_timer (some { m_next := now_ms })) x now_timer
    simp only [key, keyX, nonnullX.symm, false_and, real, ne_eq, not_false_eq_true, true_and, false_or] at test
    have tail := ih sorted.tail nonnullTail apartTail
    simp only [OrderedSet.lowerBound_cons]
    by_cases before : Timer.Comparator (Function.update heap now_timer (some { m_next := now_ms })) x now_timer
    · have due : heap.next x ≤ now_ms := by grind
      simp only [before, if_true, List.drop_succ_cons, List.takeWhile_cons, due, decide_true,
        List.length_cons]
      simp only at tail
      omega
    · simp only [before, Bool.false_eq_true, if_false, List.drop_zero, Nat.zero_add]
      -- everything from here on is due now or later, so "exactly now" and "at most now" agree
      have late : now_ms ≤ heap.next x := by grind
      have lateAll : ∀ y ∈ x :: l, now_ms ≤ heap.next y := by
        intro y member
        rcases List.mem_cons.mp member with same | inTail
        · rw [same]; exact late
        · have order := next_le_of_comparator nonnullX.symm (sorted.head_lt inTail)
          grind
      rw [OrderedSet.takeWhile_congr fun y member => ?_]
      have bound := lateAll y member
      rw [Bool.eq_iff_iff]
      simp only [beq_iff_eq, decide_eq_true_eq]
      grind

theorem Wf.expiredEnd_eq {m : TimerManager κ ω} (wf : m.Wf) (now_ms : UInt64) {now_timer : Ptr}
    (real : now_timer ≠ 0) (fresh : m.heap now_timer = none) :
    m.expiredEnd false now_ms now_timer =
      (m.m_timers.takeWhile fun p => m.heap.next p ≤ now_ms).length := by
  refine lowerBound_skip_eq wf.sorted wf.nonnull ?_ real
  intro member
  obtain ⟨timer, atTimer⟩ := wf.live now_timer member
  simp [fresh] at atTimer

/-- The loop over a prefix of the set, after that prefix has been erased from it. -/
theorem Wf.settle_front {m : TimerManager κ ω} (wf : m.Wf) (now_ms : UInt64) (k : Nat)
    (cbs : List (Option (Callback κ ω))) :
    ∃ timers, (m.m_timers.take k).foldlM (expireOne now_ms) (cbs, { m with m_timers := m.m_timers.drop k }) =
        .ok (cbs ++ (m.m_timers.take k).map m.heap.cb,
          { m with m_timers := timers, heap := expireHeap m.heap now_ms (m.m_timers.take k) }) ∧
      OrderedSet.Sorted (Timer.Comparator (expireHeap m.heap now_ms (m.m_timers.take k))) timers ∧
      timers.Perm ((m.m_timers.take k).filter m.heap.recurring ++ m.m_timers.drop k) := by
  have nodup := wf.sorted.nodup
  refine expire_loop (m := { m with m_timers := m.m_timers.drop k }) cbs ?_ ?_ ?_ ?_
  · exact List.Pairwise.sublist (List.drop_sublist _ _) wf.sorted
  · exact fun p member => wf.live p (List.mem_of_mem_take member)
  · exact nodup.sublist (List.take_sublist _ _)
  · intro p inPrefix inRest
    exact List.disjoint_take_drop nodup (Nat.le_refl k) inPrefix inRest

theorem wf_previouseTime {m : TimerManager κ ω} (wf : m.Wf) (time : UInt64) :
    ({ m with m_previouseTime := time } : TimerManager κ ω).Wf :=
  ⟨wf.sorted, wf.nonnull, wf.live, wf.armed⟩

theorem listExpiredCbLocked_early {m : TimerManager κ ω} {now_ms : UInt64} {now_timer first : Ptr}
    {timer : Timer κ ω} (cbs : List (Option (Callback κ ω))) (head : m.m_timers.head? = some first)
    (atFirst : m.heap first = some timer) (steady : (m.detectClockRollover now_ms).1 = false)
    (exactly : timer.m_next = now_ms) :
    m.listExpiredCbLocked now_ms now_timer cbs = .ok (cbs, [], { m with m_previouseTime := now_ms }) := by
  simp only [listExpiredCbLocked, steady]
  simp [detectClockRollover, firstDueNow, begin, head, deref, atFirst, exactly, Except.map]

theorem listExpiredCbLocked_late {m : TimerManager κ ω} {now_ms : UInt64} {now_timer first : Ptr}
    {timer : Timer κ ω} (cbs : List (Option (Callback κ ω))) (head : m.m_timers.head? = some first)
    (atFirst : m.heap first = some timer)
    (late : (m.detectClockRollover now_ms).1 = true ∨ timer.m_next ≠ now_ms) {k : Nat}
    (count : m.expiredEnd (m.detectClockRollover now_ms).1 now_ms now_timer = k) :
    m.listExpiredCbLocked now_ms now_timer cbs =
      ((m.m_timers.take k).foldlM (expireOne now_ms)
        (cbs, { m with m_previouseTime := now_ms, m_timers := m.m_timers.drop k })).bind
          fun result => .ok (result.1, m.m_timers.take k, result.2) := by
  obtain ⟨rollover, detected⟩ : ∃ rollover, (m.detectClockRollover now_ms).1 = rollover := ⟨_, rfl⟩
  have recorded : m.detectClockRollover now_ms = (rollover, { m with m_previouseTime := now_ms }) := by
    rw [← detected]; rfl
  have test : ({ m with m_previouseTime := now_ms } : TimerManager κ ω).firstDueNow rollover now_ms = .ok false := by
    rw [detected] at late
    rcases late with rolled | different
    · rw [firstDueNow, if_pos rolled]
    · simp [firstDueNow, begin, head, deref, atFirst, Except.map, different]
  rw [detected] at count
  subst count
  simp only [listExpiredCbLocked, recorded, test, ok_bind, Bool.false_eq_true, if_false]
  rfl

/-- The manager after the expired timers have been settled, with `timers` as its set. -/
def afterExpire (m : TimerManager κ ω) (now_ms : UInt64) (timers : List Ptr) : TimerManager κ ω where
  m_timers := timers
  m_tickled := m.m_tickled
  m_previouseTime := if m.m_timers.isEmpty then m.m_previouseTime else now_ms
  heap := expireHeap m.heap now_ms (m.m_timers.take (m.expiredCount now_ms))

/-- One call of `listExpiredCb`, whatever the address of its search key: it never meets
undefined behaviour, the expired timers are a prefix of the set and are settled one by one,
and everything else stays as it was. -/
theorem Wf.listExpiredCb_eq {m : TimerManager κ ω} (wf : m.Wf) (now_ms : UInt64) {now_timer : Ptr}
    (cbs : List (Option (Callback κ ω))) (real : now_timer ≠ 0) (fresh : m.heap now_timer = none) :
    ∃ timers, m.listExpiredCb now_ms now_timer cbs =
        .ok (cbs ++ (m.m_timers.take (m.expiredCount now_ms)).map m.heap.cb,
          m.m_timers.take (m.expiredCount now_ms), m.afterExpire now_ms timers) ∧
      OrderedSet.Sorted (Timer.Comparator (m.afterExpire now_ms timers).heap) timers ∧
      timers.Perm ((m.m_timers.take (m.expiredCount now_ms)).filter m.heap.recurring ++
        m.m_timers.drop (m.expiredCount now_ms)) := by
  have untouched : expireHeap m.heap now_ms [] = m.heap := by funext p; simp [expireHeap]
  cases shape : m.m_timers with
  | nil =>
    refine ⟨[], ?_, ?_, ?_⟩
    · cases m
      simp_all [listExpiredCb, afterExpire]
    · exact List.Pairwise.nil
    · simp
  | cons first rest =>
    obtain ⟨timer, atFirst⟩ := wf.live first (by simp [shape])
    have nextFirst := Heap.next_eq atFirst
    have head : m.m_timers.head? = some first := by simp [shape]
    have nonempty : m.m_timers.isEmpty = false := by simp [shape]
    rw [← shape]
    by_cases early : (m.detectClockRollover now_ms).1 = false ∧ timer.m_next = now_ms
    · have count : m.expiredCount now_ms = 0 := by
        simp [expiredCount, head, nextFirst, early.1, early.2]
      refine ⟨m.m_timers, ?_, ?_, ?_⟩
      · simp [listExpiredCb, nonempty, listExpiredCbLocked_early cbs head atFirst early.1 early.2,
          count, afterExpire, untouched]
      · simpa [afterExpire, count, untouched] using wf.sorted
      · simp [count]
    · have count : m.expiredEnd (m.detectClockRollover now_ms).1 now_ms now_timer =
          m.expiredCount now_ms := by
        cases rollover : (m.detectClockRollover now_ms).1
        · have different : timer.m_next ≠ now_ms := fun same => early ⟨rollover, same⟩
          rw [wf.expiredEnd_eq now_ms real fresh]
          simp [expiredCount, rollover, head, nextFirst, different]
        · simp [expiredCount, expiredEnd, rollover]
      have late : (m.detectClockRollover now_ms).1 = true ∨ timer.m_next ≠ now_ms := by
        rw [not_and_or, Bool.not_eq_false] at early
        exact early
      obtain ⟨timers, loop, sorted, perm⟩ :=
        (wf_previouseTime wf now_ms).settle_front now_ms (m.expiredCount now_ms) cbs
      refine ⟨timers, ?_, sorted, perm⟩
      simp only [listExpiredCb, nonempty, listExpiredCbLocked_late cbs head atFirst late count]
      simp only at loop
      rw [loop]
      simp [afterExpire, nonempty]
      rfl

end TimerManager
end Sylar
