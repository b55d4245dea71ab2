import Sylar.Timer

namespace Sylar
open Machine

variable {κ ω : Type}

namespace Timer

/-- The comparator orders by `(m_next, pointer)`, with the null pointer in front. -/
theorem comparator_iff (heap : Heap κ ω) (x y : Ptr) :
    Comparator heap x y = true ↔
      x = 0 ∧ y ≠ 0 ∨ x ≠ 0 ∧ y ≠ 0 ∧
        (heap.next x < heap.next y ∨ heap.next x = heap.next y ∧ x < y) := by
  unfold Comparator
  grind

theorem comparator_strictTotal (heap : Heap κ ω) :
    IsStrictTotalOrder Ptr fun x y => Comparator heap x y = true where
  irrefl x := by
    rw [comparator_iff]
    grind
  trans x y z := by
    simp only [comparator_iff]
    grind
  trichotomous x y := by
    simp only [comparator_iff]
    grind

instance (heap : Heap κ ω) : IsStrictTotalOrder Ptr fun x y => Comparator heap x y = true :=
  comparator_strictTotal heap

end Timer

theorem Heap.next_eq {heap : Heap κ ω} {p : Ptr} {timer : Timer κ ω} (atP : heap p = some timer) :
    heap.next p = timer.m_next := by
  simp [Heap.next, atP]

theorem Heap.next_update_of_ne (heap : Heap κ ω) {p q : Ptr} (timer : Option (Timer κ ω))
    (different : q ≠ p) : Heap.next (Function.update heap p timer) q = heap.next q := by
  simp [Heap.next, Function.update_of_ne different]

def Heap.cb (heap : Heap κ ω) (p : Ptr) : Option (Callback κ ω) := (heap p).bind Timer.m_cb

def Heap.recurring (heap : Heap κ ω) (p : Ptr) : Bool := (heap p).any Timer.m_recurring

/-- Writing a timer outside the set does not disturb the order of the set. -/
theorem sorted_update {heap : Heap κ ω} {l : List Ptr} {p : Ptr} (timer : Option (Timer κ ω))
    (sorted : OrderedSet.Sorted (Timer.Comparator heap) l) (outside : p ∉ l) :
    OrderedSet.Sorted (Timer.Comparator (Function.update heap p timer)) l := by
  refine List.Pairwise.imp_of_mem ?_ sorted
  intro x y inX inY before
  have neX : x ≠ p := fun same => outside (same ▸ inX)
  have neY : y ≠ p := fun same => outside (same ▸ inY)
  rw [Timer.comparator_iff] at before ⊢
  rwa [Heap.next_update_of_ne heap timer neX, Heap.next_update_of_ne heap timer neY]

/-- Writing a timer without touching its key leaves the comparator as it is. -/
theorem comparator_update_same_next {heap : Heap κ ω} {p : Ptr} {timer timer' : Timer κ ω}
    (atP : heap p = some timer) (same : timer'.m_next = timer.m_next) :
    Timer.Comparator (Function.update heap p (some timer')) = Timer.Comparator heap := by
  have next : ∀ q, Heap.next (Function.update heap p (some timer')) q = heap.next q := by
    intro q
    by_cases equal : q = p
    · subst equal
      simp [Heap.next, atP, same]
    · exact Heap.next_update_of_ne heap _ equal
  funext x y
  simp only [Timer.Comparator, next]

namespace TimerManager

/-- The representation invariant of the timer set. -/
structure Wf (m : TimerManager κ ω) : Prop where
  sorted : OrderedSet.Sorted (Timer.Comparator m.heap) m.m_timers
  nonnull : 0 ∉ m.m_timers
  live : ∀ p ∈ m.m_timers, ∃ timer, m.heap p = some timer
  armed : ∀ p timer, m.heap p = some timer → timer.m_cb.isSome → p ∈ m.m_timers

theorem deref_eq {m : TimerManager κ ω} {p : Ptr} {timer : Timer κ ω} (atP : m.heap p = some timer) :
    m.deref p = .ok timer := by
  simp [deref, atP]

theorem erase_find_eq {m : TimerManager κ ω} {p : Ptr}
    (sorted : OrderedSet.Sorted (Timer.Comparator m.heap) m.m_timers) (member : p ∈ m.m_timers) :
    m.erase (m.find p) = .ok { m with m_timers := m.m_timers.erase p } := by
  simp only [erase, find, sorted.erase_find member]

theorem setNext_eq {m : TimerManager κ ω} {p : Ptr} {timer : Timer κ ω} (next : UInt64)
    (outside : p ∉ m.m_timers) (atP : m.heap p = some timer) :
    m.setNext p next = .ok (m.write p { timer with m_next := next }) := by
  simp only [setNext, outside, if_false, deref_eq atP]
  rfl

/-- What the loop of `listExpiredCb` makes of an expired timer. -/
def settle (now_ms : UInt64) (timer : Timer κ ω) : Timer κ ω :=
  if timer.m_recurring then { timer with m_next := now_ms + timer.m_ms }
  else { timer with m_cb := none }

def expireHeap (heap : Heap κ ω) (now_ms : UInt64) (expired : List Ptr) : Heap κ ω :=
  fun p => if p ∈ expired then (heap p).map (settle now_ms) else heap p

theorem expireHeap_cons {heap : Heap κ ω} (now_ms : UInt64) {p : Ptr} {expired : List Ptr}
    {timer : Timer κ ω} (atP : heap p = some timer) (apart : p ∉ expired) :
    expireHeap (Function.update heap p (some (settle now_ms timer))) now_ms expired =
      expireHeap heap now_ms (p :: expired) := by
  funext q
  by_cases same : q = p
  · subst same
    simp [expireHeap, apart, atP]
  · simp [expireHeap, same]

/-- One round takes an expired timer off the caller's hands: its callback is appended,
a recurring timer is back in the set, a one-shot timer has lost its callback. -/
theorem expireOne_eq {m : TimerManager κ ω} {now_ms : UInt64} {p : Ptr} {timer : Timer κ ω}
    (cbs : List (Option (Callback κ ω))) (outside : p ∉ m.m_timers) (atP : m.heap p = some timer) :
    expireOne now_ms (cbs, m) p = .ok (cbs ++ [timer.m_cb],
      if timer.m_recurring then (m.write p (settle now_ms timer)).insert p
      else m.write p (settle now_ms timer)) := by
  cases recurring : timer.m_recurring
  · simp [expireOne, deref_eq atP, settle, recurring]
  · simp [expireOne, setNext_eq _ outside atP, deref_eq atP, settle, recurring]

theorem expire_loop {now_ms : UInt64} {expired : List Ptr} {m : TimerManager κ ω}
    (cbs : List (Option (Callback κ ω)))
    (sorted : OrderedSet.Sorted (Timer.Comparator m.heap) m.m_timers)
    (live : ∀ p ∈ expired, ∃ timer, m.heap p = some timer) (nodup : expired.Nodup)
    (apart : ∀ p ∈ expired, p ∉ m.m_timers) :
    ∃ timers, expired.foldlM (expireOne now_ms) (cbs, m) =
        .ok (cbs ++ expired.map m.heap.cb,
          { m with m_timers := timers, heap := expireHeap m.heap now_ms expired }) ∧
      OrderedSet.Sorted (Timer.Comparator (expireHeap m.heap now_ms expired)) timers ∧
      timers.Perm (expired.filter m.heap.recurring ++ m.m_timers) := by
  induction expired generalizing m cbs with
  | nil =>
    have same : expireHeap m.heap now_ms [] = m.heap := by funext p; simp [expireHeap]
    exact ⟨m.m_timers, by simp [same], by rwa [same], by simp⟩
  | cons p expired ih =>
    obtain ⟨timer, atP⟩ := live p (List.mem_cons_self ..)
    obtain ⟨apartP, nodupTail⟩ := List.nodup_cons.mp nodup
    have outside := apart p (List.mem_cons_self ..)
    have heapTail := expireHeap_cons now_ms atP apartP
    have sortedWritten := sorted_update (some (settle now_ms timer)) sorted outside
    have keep : ∀ q ∈ expired, m.heap q = Function.update m.heap p (some (settle now_ms timer)) q := by
      intro q member
      have different : q ≠ p := fun same => apartP (same ▸ member)
      rw [Function.update_of_ne different]
    have liveTail : ∀ q ∈ expired,
        ∃ timer', Function.update m.heap p (some (settle now_ms timer)) q = some timer' := by
      intro q member
      rw [← keep q member]
      exact live q (List.mem_cons_of_mem _ member)
    have cbTail : expired.map (Heap.cb (Function.update m.heap p (some (settle now_ms timer)))) =
        expired.map m.heap.cb :=
      List.map_congr_left fun q member => by simp only [Heap.cb, keep q member]
    have recurringTail :
        expired.filter (Heap.recurring (Function.update m.heap p (some (settle now_ms timer)))) =
          expired.filter m.heap.recurring :=
      List.filter_congr fun q member => by simp only [Heap.recurring, keep q member]
    have cbP : m.heap.cb p = timer.m_cb := by simp [Heap.cb, atP]
    have recurringP : m.heap.recurring p = timer.m_recurring := by simp [Heap.recurring, atP]
    rw [List.foldlM_cons, expireOne_eq cbs outside atP]
    cases recurring : timer.m_recurring
    · obtain ⟨timers, run, sorted', perm⟩ := ih (m := m.write p (settle now_ms timer))
        (cbs ++ [timer.m_cb]) sortedWritten liveTail nodupTail
        (fun q member => apart q (List.mem_cons_of_mem _ member))
      refine ⟨timers, ?_, ?_, ?_⟩
      · simp only [write, heapTail, cbTail] at run
        simp only [List.append_assoc, List.singleton_append] at run
        simp only [List.map_cons, cbP, ok_bind, Bool.false_eq_true, if_false]
        exact run
      · simpa only [write, heapTail] using sorted'
      · simp only [write, recurringTail] at perm
        simpa only [List.filter_cons, recurringP, recurring, Bool.false_eq_true, if_false] using perm
    · have outsideInsert : ∀ q ∈ expired, q ∉ ((m.write p (settle now_ms timer)).insert p).m_timers := by
        intro q member inside
        rcases (OrderedSet.mem_insert outside).mp inside with same | old
        · exact apartP (same ▸ member)
        · exact apart q (List.mem_cons_of_mem _ member) old
      obtain ⟨timers, run, sorted', perm⟩ := ih (m := (m.write p (settle now_ms timer)).insert p)
        (cbs ++ [timer.m_cb]) (sortedWritten.insert outside) liveTail nodupTail outsideInsert
      refine ⟨timers, ?_, ?_, ?_⟩
      · simp only [insert, write, heapTail, cbTail] at run
        simp only [List.append_assoc, List.singleton_append] at run
        simp only [List.map_cons, cbP, ok_bind, if_true]
        exact run
      · simpa only [insert, write, heapTail] using sorted'
      · simp only [insert, write, recurringTail] at perm
        simp only [List.filter_cons, recurringP, recurring, if_true, List.cons_append]
        exact perm.trans (((OrderedSet.insert_perm outside).append_left _).trans List.perm_middle)

end TimerManager
end Sylar
