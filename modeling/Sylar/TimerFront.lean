import Mathlib.Algebra.Order.Ring.Int
import Mathlib.Data.List.TakeWhile
import Sylar.TimerStep

namespace Sylar
open Machine

variable {κ ω : Type}

/-- What an idle worker knows: the earliest deadline at the latest `getNextTimer` call, if there
has been one and the set was not empty, and whether `onTimerInsertedAtfront` was called since. -/
structure Watch where
  reported : Option UInt64 := none
  notified : Bool := false

/-- Comparison of deadlines, with the missing one as infinity. -/
def Earlier : Option UInt64 → Option UInt64 → Prop
  | some x, some y => x < y
  | some _, none => True
  | none, _ => False

namespace TimerManager

/-- The smallest `m_next` in the set. -/
def earliest (m : TimerManager κ ω) : Option UInt64 := (m.m_timers.map m.heap.next).min?

def watch (m : TimerManager κ ω) (W : Watch) (l : TimerOp κ ω × TimerOut κ ω) : Watch :=
  match l.1 with
  | .getNextTimer _ => { reported := m.earliest, notified := false }
  | _ => { W with notified := W.notified || l.2.atFront }

/-- The call of `listExpiredCb` detects no rollover, and no deadline at which it re-arms a
recurring timer exceeds the range of `uint64_t`. -/
def NoWrap (m : TimerManager κ ω) (l : TimerOp κ ω × TimerOut κ ω) : Prop :=
  match l.1 with
  | .listExpiredCb now_ms _ =>
    (m.m_timers ≠ [] → (m.detectClockRollover now_ms).1 = false) ∧
      ∀ p ∈ l.2.expired, ∀ timer, m.heap p = some timer → timer.m_recurring = true →
        now_ms.toNat + timer.m_ms.toNat < 2 ^ 64
  | _ => True

/-- The runs from an empty manager, with what the idle workers know along them. -/
inductive WatchedReach : TimerManager κ ω → Watch → Prop
  | start {m} : m.Init → WatchedReach m {}
  | next {m m' W l} : WatchedReach m W → m.Step l m' → m.NoWrap l → WatchedReach m' (m.watch W l)

theorem WatchedReach.forget {m : TimerManager κ ω} {W : Watch} (reach : WatchedReach m W) :
    Reach Init Step m := by
  induction reach with
  | start init => exact .start init
  | next _ step _ ih => exact .next ih step

/-- Some timer is due before the reported deadline. -/
def DueBefore (m : TimerManager κ ω) (reported : Option UInt64) : Prop :=
  ∃ p ∈ m.m_timers, ∀ deadline, reported = some deadline → m.heap.next p < deadline

theorem earlier_earliest_iff (m : TimerManager κ ω) (reported : Option UInt64) :
    Earlier m.earliest reported ↔ m.DueBefore reported := by
  unfold earliest DueBefore
  cases least : (m.m_timers.map m.heap.next).min? with
  | none =>
    have empty : m.m_timers = [] := by simpa using least
    simp [Earlier, empty]
  | some x =>
    obtain ⟨member, bound⟩ := List.min?_eq_some_iff.mp least
    obtain ⟨p, inP, atP⟩ := List.mem_map.mp member
    cases reported with
    | none => simpa [Earlier] using ⟨p, inP⟩
    | some deadline =>
      constructor
      · intro earlier
        exact ⟨p, inP, fun d same => by cases same; rw [atP]; exact earlier⟩
      · rintro ⟨q, inQ, below⟩
        have least' := bound (m.heap.next q) (List.mem_map_of_mem inQ)
        have less := below deadline rfl
        change x < deadline
        grind

/-- Deadlines that only move away keep every report valid. -/
theorem DueBefore.of_later {m m' : TimerManager κ ω} {reported : Option UInt64}
    (later : ∀ p ∈ m'.m_timers, p ∈ m.m_timers ∧ m.heap.next p ≤ m'.heap.next p)
    (before : m'.DueBefore reported) : m.DueBefore reported := by
  obtain ⟨p, member, below⟩ := before
  obtain ⟨old, bound⟩ := later p member
  refine ⟨p, old, fun deadline same => ?_⟩
  have less := below deadline same
  grind

/-- The link between the set, the flag and the notifications. -/
structure Front (m : TimerManager κ ω) (W : Watch) : Prop where
  tickled : m.DueBefore W.reported → m.m_tickled = true
  notified : m.m_tickled = true → W.notified = true

/-- An insertion through `addTimer` either puts the flag up or leaves a timer in front
that is due no later. -/
theorem Front.addTimerLocked {m : TimerManager κ ω} {W : Watch} {p : Ptr} (front : m.Front W)
    (wf : m.WfExcept p) :
    (m.addTimerLocked p).2.Front { W with notified := W.notified || (m.addTimerLocked p).1 } := by
  by_cases first : (OrderedSet.insert (Timer.Comparator m.heap) m.m_timers p).2 = 0
  · have flag : (m.addTimerLocked p).1 = !m.m_tickled := by simp [TimerManager.addTimerLocked, first]
    have up : (m.addTimerLocked p).2.m_tickled = true := by simp [TimerManager.addTimerLocked, first]
    refine ⟨fun _ => up, fun _ => ?_⟩
    simp only [flag, Bool.or_eq_true, Bool.not_eq_true']
    cases tickled : m.m_tickled
    · exact Or.inr rfl
    · exact Or.inl (front.notified tickled)
  · have flag : (m.addTimerLocked p).1 = false := by simp [TimerManager.addTimerLocked, first]
    have kept : (m.addTimerLocked p).2.m_tickled = m.m_tickled := by simp [TimerManager.addTimerLocked, first]
    rw [flag, Bool.or_false]
    refine ⟨fun before => ?_, fun tickled => front.notified (kept ▸ tickled)⟩
    rw [kept]
    obtain ⟨q, member, below⟩ := before
    rcases (OrderedSet.mem_insert wf.outside).mp member with same | old
    · -- the new timer is not in front, so the one that is answers for it
      obtain ⟨x, head, lower⟩ := OrderedSet.insert_position_pos first
      have inX := List.mem_of_mem_head? head
      have real : x ≠ 0 := fun null => wf.nonnull (null ▸ inX)
      have order := next_le_of_comparator real lower
      refine front.tickled ⟨x, inX, fun deadline reported => ?_⟩
      have less := below deadline reported
      rw [same] at less
      exact UInt64.lt_of_le_of_lt order less
    · exact front.tickled ⟨q, old, below⟩

/-- Taking a timer out of the set and writing it does not bring a deadline closer. -/
theorem Front.detach {m : TimerManager κ ω} {W : Watch} (front : m.Front W) (wf : m.Wf) (p : Ptr)
    (timer : Timer κ ω) :
    (({ m with m_timers := m.m_timers.erase p } : TimerManager κ ω).write p timer).Front W := by
  refine ⟨fun before => front.tickled (before.of_later fun q member => ?_), front.notified⟩
  have different : q ≠ p := fun same => (wf.erase p).outside (same ▸ member)
  refine ⟨List.mem_of_mem_erase member, ?_⟩
  have same := Heap.next_update_of_ne m.heap (some timer) different
  exact UInt64.le_of_eq same.symm

theorem Front.allocate {m : TimerManager κ ω} {W : Watch} {p : Ptr} (front : m.Front W)
    (outside : p ∉ m.m_timers) (timer : Timer κ ω) : (m.write p timer).Front W := by
  refine ⟨fun before => front.tickled (before.of_later fun q member => ?_), front.notified⟩
  have different : q ≠ p := fun same => outside (same ▸ member)
  have same := Heap.next_update_of_ne m.heap (some timer) different
  exact ⟨member, UInt64.le_of_eq same.symm⟩

/-- Without a rollover, everything that `listExpiredCb` takes out of the set was due. -/
theorem expired_due {m : TimerManager κ ω} {now_ms : UInt64} {p : Ptr}
    (steady : (m.detectClockRollover now_ms).1 = false)
    (expired : p ∈ m.m_timers.take (m.expiredCount now_ms)) : m.heap.next p ≤ now_ms := by
  simp only [expiredCount, steady, Bool.false_eq_true, if_false] at expired
  split at expired
  · simp at expired
  · rw [← List.prefix_iff_eq_take.mp (List.takeWhile_prefix _)] at expired
    simpa using List.mem_takeWhile_imp expired

theorem Front.afterExpire {m : TimerManager κ ω} {W : Watch} (front : m.Front W) {now_ms : UInt64}
    {timers : List Ptr} (live : ∀ p ∈ m.m_timers, ∃ timer, m.heap p = some timer)
    (steady : m.m_timers ≠ [] → (m.detectClockRollover now_ms).1 = false)
    (range : ∀ p ∈ m.m_timers.take (m.expiredCount now_ms), ∀ timer, m.heap p = some timer →
      timer.m_recurring = true → now_ms.toNat + timer.m_ms.toNat < 2 ^ 64)
    (perm : timers.Perm ((m.m_timers.take (m.expiredCount now_ms)).filter m.heap.recurring ++
      m.m_timers.drop (m.expiredCount now_ms))) :
    (m.afterExpire now_ms timers).Front W := by
  refine ⟨fun before => front.tickled (before.of_later fun p member => ?_), front.notified⟩
  by_cases expired : p ∈ m.m_timers.take (m.expiredCount now_ms)
  · have old := List.mem_of_mem_take expired
    obtain ⟨timer, atP⟩ := live p old
    have due := expired_due (steady (List.ne_nil_of_mem old)) expired
    have settled : (m.afterExpire now_ms timers).heap p = some (settle now_ms timer) := by
      simp [TimerManager.afterExpire, expireHeap, expired, atP]
    refine ⟨old, ?_⟩
    rw [Heap.next_eq settled]
    cases kind : timer.m_recurring
    · simp only [settle, kind, Bool.false_eq_true, if_false, Heap.next_eq atP]
      exact UInt64.le_refl _
    · have bound := range p expired timer atP kind
      simp only [settle, kind, if_true, UInt64.le_iff_toNat_le, UInt64.toNat_add] at due ⊢
      omega
  · have rest : p ∈ m.m_timers.drop (m.expiredCount now_ms) := by
      rcases List.mem_append.mp (perm.mem_iff.mp member) with back | rest
      · exact absurd (List.mem_filter.mp back).1 expired
      · exact rest
    have same : (m.afterExpire now_ms timers).heap.next p = m.heap.next p := by
      simp [TimerManager.afterExpire, expireHeap, expired, Heap.next]
    exact ⟨List.mem_of_mem_drop rest, UInt64.le_of_eq same.symm⟩

theorem Front.step {m m' : TimerManager κ ω} {W : Watch} {l : TimerOp κ ω × TimerOut κ ω}
    (front : m.Front W) (wf : m.Wf) (step : m.Step l m') (range : m.NoWrap l) :
    m'.Front (m.watch W l) := by
  have effect := wf.effect step
  obtain ⟨op, out⟩ := l
  cases effect with
  | addTimer _ fresh =>
    have except := wf.allocate fresh
    exact (front.allocate except.outside _).addTimerLocked (except.write _)
  | addConditionTimer _ fresh =>
    have except := wf.allocate fresh
    exact (front.allocate except.outside _).addTimerLocked (except.write _)
  | @cancel p _ _ _ =>
    simp only [watch, Bool.or_false]
    exact front.detach wf p _
  | cancelNothing | refresh | resetNothing => simpa only [watch, Bool.or_false] using front
  | @reset p _ _ _ _ _ _ => exact (front.detach wf p _).addTimerLocked ((wf.erase p).write _)
  | getNextTimer =>
    refine ⟨fun before => ?_, fun tickled => by simp at tickled⟩
    have earlier := (earlier_earliest_iff m m.earliest).mpr before
    cases least : m.earliest with
    | none => simp [least, Earlier] at earlier
    | some x => simp [least, Earlier] at earlier
  | listExpiredCb _ perm =>
    simp only [watch, Bool.or_false]
    exact front.afterExpire wf.live range.1 range.2 perm
  | @destroy p outside =>
    simp only [watch, Bool.or_false]
    refine ⟨fun before => front.tickled (before.of_later fun q member => ?_), front.notified⟩
    have different : q ≠ p := fun same => outside (same ▸ member)
    exact ⟨member, UInt64.le_of_eq (Heap.next_update_of_ne m.heap none different).symm⟩

theorem WatchedReach.front {m : TimerManager κ ω} {W : Watch} (reach : WatchedReach m W) : m.Front W := by
  induction reach with
  | start init =>
    refine ⟨fun before => ?_, fun tickled => ?_⟩
    · obtain ⟨p, member, _⟩ := before
      simp [init.1] at member
    · simp [init.2.1] at tickled
  | next previous step range ih => exact ih.step (wf_of_reach previous.forget) step range

/-- No front wake-up is lost: whenever the earliest deadline lies before the one reported by the
latest `getNextTimer`, `onTimerInsertedAtfront` has been called since that report. -/
theorem WatchedReach.front_notified {m : TimerManager κ ω} {W : Watch} (reach : WatchedReach m W)
    (earlier : Earlier m.earliest W.reported) : W.notified = true := by
  have before := (earlier_earliest_iff m W.reported).mp earlier
  exact reach.front.notified (reach.front.tickled before)

/-- Two timers come before the one whose deadline has been reported: the first insertion is notified, and the second
one, which is the earlier, is not. -/
theorem front_notified_suppressed : ∃ (m : TimerManager Unit Unit) (W : Watch), WatchedReach m W ∧
    W.reported = some 110 ∧ m.earliest = some 23 ∧ W.notified = true := by
  have first : WatchedReach _ _ := .next (.start (m := fresh10) ⟨rfl, rfl, rfl⟩)
    (l := (.addTimer 16 100 (some (.plain ())) false 10, { atFront := true })) ⟨by decide, rfl⟩ trivial
  have reports : WatchedReach _ _ := .next first (l := (.getNextTimer 12, { timeout := 98 })) ⟨trivial, rfl⟩ trivial
  have notifies : WatchedReach _ _ := .next reports
    (l := (.addTimer 32 5 (some (.plain ())) false 20, { atFront := true })) ⟨by decide, rfl⟩ trivial
  have reach : WatchedReach _ _ := .next notifies
    (l := (.addTimer 48 2 (some (.plain ())) false 21, { atFront := false })) ⟨by decide, rfl⟩ trivial
  have earlier : (23 : UInt64) < 110 := by decide
  exact ⟨_, _, reach, rfl, rfl, WatchedReach.front_notified reach earlier⟩

end TimerManager
end Sylar
