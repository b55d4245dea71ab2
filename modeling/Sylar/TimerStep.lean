import Sylar.TimerExpire

namespace Sylar
open Machine

variable {κ ω : Type}

/-- The operations on one timer manager. `destroy` is the end of a timer whose last
`Timer::ptr` is gone, after which its address may be handed out again. -/
inductive TimerOp (κ ω : Type)
  | addTimer (timer : Ptr) (ms : UInt64) (cb : Option (Callback κ ω)) (recuring : Bool) (now : UInt64)
  | addConditionTimer (timer : Ptr) (ms : UInt64) (cb : Option κ) (weak_cond : ω) (recurring : Bool) (now : UInt64)
  | cancel (timer : Ptr)
  | refresh (timer : Ptr) (now : UInt64)
  | reset (timer : Ptr) (ms : UInt64) (from_now : Bool) (now : UInt64)
  | getNextTimer (now_ms : UInt64)
  | listExpiredCb (now_ms : UInt64) (now_timer : Ptr)
  | destroy (timer : Ptr)

/-- What an operation hands back: the results of `cancel`, `refresh` and `reset`, of
`getNextTimer`, the vectors filled by `listExpiredCb`, and whether the operation
called `onTimerInsertedAtfront`. -/
structure TimerOut (κ ω : Type) where
  ret : Bool := false
  timeout : UInt64 := 0
  cbs : List (Option (Callback κ ω)) := []
  expired : List Ptr := []
  atFront : Bool := false

namespace TimerManager

def exec (m : TimerManager κ ω) : TimerOp κ ω → Except Fault (TimerOut κ ω × TimerManager κ ω)
  | .addTimer timer ms cb recuring now =>
    let r := m.addTimer timer ms cb recuring now
    .ok ({ atFront := r.1 }, r.2)
  | .addConditionTimer timer ms cb weak_cond recurring now =>
    let r := m.addConditionTimer timer ms cb weak_cond recurring now
    .ok ({ atFront := r.1 }, r.2)
  | .cancel timer => do
    let r ← Timer.cancel m timer
    return ({ ret := r.1 }, r.2)
  | .refresh timer now => do
    let r ← Timer.refresh m timer now
    return ({ ret := r.1 }, r.2)
  | .reset timer ms from_now now => do
    let r ← Timer.reset m timer ms from_now now
    return ({ ret := r.1, atFront := r.2.1 }, r.2.2)
  | .getNextTimer now_ms => do
    let r ← m.getNextTimer now_ms
    return ({ timeout := r.1 }, r.2)
  | .listExpiredCb now_ms now_timer => do
    let r ← m.listExpiredCb now_ms now_timer []
    return ({ cbs := r.1, expired := r.2.1 }, r.2.2)
  | .destroy timer => .ok ({}, { m with heap := Function.update m.heap timer none })

/-- What the caller and the allocator guarantee: `new` returns an address that is not null
and not in use, a method is called on a live timer, and a timer in the set is not destroyed. -/
def Enabled (m : TimerManager κ ω) : TimerOp κ ω → Prop
  | .addTimer timer .. | .addConditionTimer timer .. => timer ≠ 0 ∧ (m.heap timer).isNone
  | .cancel timer | .refresh timer _ | .reset timer .. => (m.heap timer).isSome
  | .getNextTimer _ => True
  | .listExpiredCb _ now_timer => now_timer ≠ 0 ∧ (m.heap now_timer).isNone
  | .destroy timer => (m.heap timer).isSome ∧ timer ∉ m.m_timers

instance (m : TimerManager κ ω) (op : TimerOp κ ω) : Decidable (m.Enabled op) :=
  match op with
  | .addTimer .. | .addConditionTimer .. => inferInstanceAs (Decidable (_ ∧ _))
  | .cancel _ | .refresh .. | .reset .. => inferInstanceAs (Decidable (_ = _))
  | .getNextTimer _ => inferInstanceAs (Decidable True)
  | .listExpiredCb .. => inferInstanceAs (Decidable (_ ∧ _))
  | .destroy _ => inferInstanceAs (Decidable (_ ∧ _))

def Step (m : TimerManager κ ω) (l : TimerOp κ ω × TimerOut κ ω) (m' : TimerManager κ ω) : Prop :=
  m.Enabled l.1 ∧ m.exec l.1 = .ok (l.2, m')

/-- A manager as its constructor leaves it. -/
def Init (m : TimerManager κ ω) : Prop :=
  m.m_timers = [] ∧ m.m_tickled = false ∧ m.heap = fun _ => none

/-- The invariant with one timer taken out of the set, as within an operation on it. -/
structure WfExcept (m : TimerManager κ ω) (p : Ptr) : Prop where
  sorted : OrderedSet.Sorted (Timer.Comparator m.heap) m.m_timers
  nonnull : 0 ∉ m.m_timers
  live : ∀ q ∈ m.m_timers, ∃ timer, m.heap q = some timer
  armed : ∀ q timer, q ≠ p → m.heap q = some timer → timer.m_cb.isSome → q ∈ m.m_timers
  outside : p ∉ m.m_timers

theorem Wf.erase {m : TimerManager κ ω} (wf : m.Wf) (p : Ptr) :
    ({ m with m_timers := m.m_timers.erase p } : TimerManager κ ω).WfExcept p where
  sorted := wf.sorted.erase p
  nonnull member := wf.nonnull (List.mem_of_mem_erase member)
  live q member := wf.live q (List.mem_of_mem_erase member)
  armed q timer different atQ some :=
    (List.mem_erase_of_ne different).mpr (wf.armed q timer atQ some)
  outside := List.Nodup.not_mem_erase wf.sorted.nodup

theorem Wf.allocate {m : TimerManager κ ω} (wf : m.Wf) {p : Ptr} (fresh : m.heap p = none) :
    m.WfExcept p where
  sorted := wf.sorted
  nonnull := wf.nonnull
  live := wf.live
  armed q timer _ := wf.armed q timer
  outside member := by
    obtain ⟨timer, atP⟩ := wf.live p member
    simp [fresh] at atP

theorem WfExcept.write {m : TimerManager κ ω} {p : Ptr} (wf : m.WfExcept p) (timer : Timer κ ω) :
    (m.write p timer).WfExcept p where
  sorted := sorted_update _ wf.sorted wf.outside
  nonnull := wf.nonnull
  live q member := by
    have different : q ≠ p := fun same => wf.outside (same ▸ member)
    simpa only [TimerManager.write, Function.update_of_ne different] using wf.live q member
  armed q timer' different atQ := by
    simp only [TimerManager.write, Function.update_of_ne different] at atQ
    exact wf.armed q timer' different atQ
  outside := wf.outside

theorem WfExcept.insert {m : TimerManager κ ω} {p : Ptr} (wf : m.WfExcept p) (real : p ≠ 0)
    {timer : Timer κ ω} (atP : m.heap p = some timer) : (m.insert p).Wf where
  sorted := wf.sorted.insert wf.outside
  nonnull member := by
    rcases (OrderedSet.mem_insert wf.outside).mp member with null | old
    · exact real null.symm
    · exact wf.nonnull old
  live q member := by
    rcases (OrderedSet.mem_insert wf.outside).mp member with same | old
    · exact ⟨timer, by rw [same]; exact atP⟩
    · exact wf.live q old
  armed q timer' atQ some := by
    refine (OrderedSet.mem_insert wf.outside).mpr ?_
    by_cases same : q = p
    · exact Or.inl same
    · exact Or.inr (wf.armed q timer' same atQ some)

theorem WfExcept.done {m : TimerManager κ ω} {p : Ptr} (wf : m.WfExcept p)
    (disarmed : ∀ timer, m.heap p = some timer → timer.m_cb = none) : m.Wf where
  sorted := wf.sorted
  nonnull := wf.nonnull
  live := wf.live
  armed q timer atQ some := by
    by_cases same : q = p
    · rw [disarmed timer (same ▸ atQ)] at some
      simp at some
    · exact wf.armed q timer same atQ some

theorem wf_tickled {m : TimerManager κ ω} (wf : m.Wf) (tickled : Bool) :
    ({ m with m_tickled := tickled } : TimerManager κ ω).Wf :=
  ⟨wf.sorted, wf.nonnull, wf.live, wf.armed⟩

theorem WfExcept.addTimerLocked {m : TimerManager κ ω} {p : Ptr} (wf : m.WfExcept p) (real : p ≠ 0)
    {timer : Timer κ ω} (atP : m.heap p = some timer) : (m.addTimerLocked p).2.Wf :=
  wf_tickled (wf.insert real atP) _

/-- A timer with a callback is found, so `cancel` erases it. -/
theorem Wf.cancel_eq {m : TimerManager κ ω} (wf : m.Wf) {p : Ptr} {timer : Timer κ ω}
    (atP : m.heap p = some timer) :
    Timer.cancel m p = .ok (timer.m_cb.isSome,
      if timer.m_cb.isSome then
        ({ m with m_timers := m.m_timers.erase p } : TimerManager κ ω).write p { timer with m_cb := none }
      else m) := by
  cases armed : timer.m_cb.isSome
  · simp [Timer.cancel, deref_eq atP, armed]
  · have sorted : OrderedSet.Sorted (Timer.Comparator (m.write p { timer with m_cb := none }).heap)
        (m.write p { timer with m_cb := none }).m_timers := by
      have same : Timer.Comparator (Function.update m.heap p (some { timer with m_cb := none })) =
          Timer.Comparator m.heap := comparator_update_same_next atP rfl
      simpa only [write, same] using wf.sorted
    simp only [Timer.cancel, deref_eq atP, armed, ok_bind, if_true,
      erase_find_eq sorted (wf.armed p timer atP armed)]
    rfl

/-- `refresh` has no effect: a timer with a callback is always found, and then it gives up. -/
theorem Wf.refresh_eq {m : TimerManager κ ω} (wf : m.Wf) {p : Ptr} {timer : Timer κ ω} (now : UInt64)
    (atP : m.heap p = some timer) : Timer.refresh m p now = .ok (false, m) := by
  cases armed : timer.m_cb with
  | none => simp [Timer.refresh, deref_eq atP, armed]
  | some cb =>
    have found := wf.sorted.find_lt_length (wf.armed p timer atP (by simp [armed]))
    have notEnd : m.find p ≠ m.m_timers.length := Nat.ne_of_lt found
    simp [Timer.refresh, deref_eq atP, notEnd]

/-- The clock value from which `reset` counts. -/
def resetStart (timer : Timer κ ω) (from_now : Bool) (now : UInt64) : UInt64 :=
  if from_now then now else timer.m_next - timer.m_ms

/-- The manager as `reset` hands it to `addTimer`: the timer is out of the set and re-armed. -/
def rearmed (m : TimerManager κ ω) (p : Ptr) (timer : Timer κ ω) (ms start : UInt64) : TimerManager κ ω :=
  ({ m with m_timers := m.m_timers.erase p } : TimerManager κ ω).write p
    { timer with m_ms := ms, m_next := start + ms }

theorem Wf.reset_eq {m : TimerManager κ ω} (wf : m.Wf) {p : Ptr} {timer : Timer κ ω} (ms : UInt64)
    (from_now : Bool) (now : UInt64) (atP : m.heap p = some timer) :
    Timer.reset m p ms from_now now =
      if ms == timer.m_ms && !from_now then .ok (true, false, m)
      else if timer.m_cb.isNone then .ok (false, false, m)
      else .ok (true, (m.rearmed p timer ms (resetStart timer from_now now)).addTimerLocked p) := by
  by_cases same : (ms == timer.m_ms && !from_now) = true
  · simp only [Timer.reset, deref_eq atP, ok_bind, same, if_true]
    rfl
  cases empty : timer.m_cb.isNone
  · have member := wf.armed p timer atP (by simpa [Option.isSome_iff_ne_none] using empty)
    have notEnd : m.find p ≠ m.m_timers.length := Nat.ne_of_lt (wf.sorted.find_lt_length member)
    have outside := ((wf.erase p).write { timer with m_ms := ms }).outside
    simp only [Timer.reset, deref_eq atP, ok_bind, same, empty, notEnd, erase_find_eq wf.sorted member,
      Bool.false_eq_true, if_false]
    rw [setNext_eq _ outside (Function.update_self ..)]
    simp only [ok_bind, write, Function.update_idem]
    rfl
  · simp only [Timer.reset, deref_eq atP, ok_bind, same, empty, if_true, Bool.false_eq_true, if_false]
    rfl

theorem Wf.getNextTimer_eq {m : TimerManager κ ω} (wf : m.Wf) (now_ms : UInt64) :
    m.getNextTimer now_ms =
      .ok (match m.m_timers.head? with
        | none => ~~~0
        | some p => if now_ms ≥ m.heap.next p then 0 else m.heap.next p - now_ms,
        { m with m_tickled := false }) := by
  cases shape : m.m_timers with
  | nil => simp [getNextTimer, shape]
  | cons first rest =>
    obtain ⟨timer, atFirst⟩ := wf.live first (by simp [shape])
    simp [getNextTimer, shape, deref, atFirst, Heap.next_eq atFirst]

theorem Wf.afterExpire {m : TimerManager κ ω} (wf : m.Wf) {now_ms : UInt64} {timers : List Ptr}
    (sorted : OrderedSet.Sorted (Timer.Comparator (m.afterExpire now_ms timers).heap) timers)
    (perm : timers.Perm ((m.m_timers.take (m.expiredCount now_ms)).filter m.heap.recurring ++
      m.m_timers.drop (m.expiredCount now_ms))) : (m.afterExpire now_ms timers).Wf where
  sorted := sorted
  nonnull member := by
    rcases List.mem_append.mp (perm.mem_iff.mp member) with back | rest
    · exact wf.nonnull (List.mem_of_mem_take (List.mem_filter.mp back).1)
    · exact wf.nonnull (List.mem_of_mem_drop rest)
  live p member := by
    have old : p ∈ m.m_timers := by
      rcases List.mem_append.mp (perm.mem_iff.mp member) with back | rest
      · exact List.mem_of_mem_take (List.mem_filter.mp back).1
      · exact List.mem_of_mem_drop rest
    obtain ⟨timer, atP⟩ := wf.live p old
    simp only [TimerManager.afterExpire, expireHeap]
    split
    · exact ⟨settle now_ms timer, by simp [atP]⟩
    · exact ⟨timer, atP⟩
  armed p timer atP some := by
    simp only [TimerManager.afterExpire, expireHeap] at atP
    refine perm.mem_iff.mpr (List.mem_append.mpr ?_)
    split at atP
    · rename_i inPrefix
      obtain ⟨old, atOld, same⟩ := Option.map_eq_some_iff.mp atP
      left
      refine List.mem_filter.mpr ⟨inPrefix, ?_⟩
      cases recurring : old.m_recurring
      · simp [← same, settle, recurring] at some
      · simp [Heap.recurring, atOld, recurring]
    · rename_i outside
      right
      have member := wf.armed p timer atP some
      rw [← List.take_append_drop (m.expiredCount now_ms) m.m_timers] at member
      exact (List.mem_append.mp member).resolve_left outside

/-- What a step does, by its operation and its results. -/
inductive Effect (m : TimerManager κ ω) : TimerOp κ ω → TimerOut κ ω → TimerManager κ ω → Prop
  | addTimer {p ms cb recuring now} : p ≠ 0 → m.heap p = none →
      Effect m (.addTimer p ms cb recuring now) { atFront := (m.addTimer p ms cb recuring now).1 }
        (m.addTimer p ms cb recuring now).2
  | addConditionTimer {p ms cb weak_cond recurring now} : p ≠ 0 → m.heap p = none →
      Effect m (.addConditionTimer p ms cb weak_cond recurring now)
        { atFront := (m.addConditionTimer p ms cb weak_cond recurring now).1 }
        (m.addConditionTimer p ms cb weak_cond recurring now).2
  | cancel {p timer} : m.heap p = some timer → timer.m_cb.isSome → Effect m (.cancel p) { ret := true }
      (({ m with m_timers := m.m_timers.erase p } : TimerManager κ ω).write p { timer with m_cb := none })
  | cancelNothing {p timer} : m.heap p = some timer → timer.m_cb = none → Effect m (.cancel p) { ret := false } m
  | refresh {p now} : Effect m (.refresh p now) { ret := false } m
  | resetNothing {p ms from_now now ret} : Effect m (.reset p ms from_now now) { ret := ret } m
  | reset {p timer ms from_now now} : m.heap p = some timer → p ∈ m.m_timers →
      Effect m (.reset p ms from_now now)
        { ret := true, atFront := ((m.rearmed p timer ms (resetStart timer from_now now)).addTimerLocked p).1 }
        ((m.rearmed p timer ms (resetStart timer from_now now)).addTimerLocked p).2
  | getNextTimer {now_ms timeout} :
      Effect m (.getNextTimer now_ms) { timeout := timeout } { m with m_tickled := false }
  | listExpiredCb {now_ms now_timer timers} :
      OrderedSet.Sorted (Timer.Comparator (m.afterExpire now_ms timers).heap) timers →
      timers.Perm ((m.m_timers.take (m.expiredCount now_ms)).filter m.heap.recurring ++
        m.m_timers.drop (m.expiredCount now_ms)) →
      Effect m (.listExpiredCb now_ms now_timer)
        { cbs := (m.m_timers.take (m.expiredCount now_ms)).map m.heap.cb
          expired := m.m_timers.take (m.expiredCount now_ms) }
        (m.afterExpire now_ms timers)
  | destroy {p} : p ∉ m.m_timers → Effect m (.destroy p) {} { m with heap := Function.update m.heap p none }

/-- No operation meets undefined behaviour. -/
theorem Wf.exec_effect {m : TimerManager κ ω} (wf : m.Wf) {op : TimerOp κ ω} (enabled : m.Enabled op) :
    ∃ out m', m.exec op = .ok (out, m') ∧ m.Effect op out m' := by
  cases op with
  | addTimer p ms cb recuring now =>
    exact ⟨_, _, rfl, .addTimer enabled.1 (Option.isNone_iff_eq_none.mp enabled.2)⟩
  | addConditionTimer p ms cb weak_cond recurring now =>
    exact ⟨_, _, rfl, .addConditionTimer enabled.1 (Option.isNone_iff_eq_none.mp enabled.2)⟩
  | cancel p =>
    obtain ⟨timer, atP⟩ := Option.isSome_iff_exists.mp enabled
    refine ⟨_, _, by simp only [exec, wf.cancel_eq atP, ok_bind]; rfl, ?_⟩
    cases armed : timer.m_cb.isSome
    · exact .cancelNothing atP (by simpa using armed)
    · exact .cancel atP armed
  | refresh p now =>
    obtain ⟨timer, atP⟩ := Option.isSome_iff_exists.mp enabled
    exact ⟨_, _, by simp only [exec, wf.refresh_eq now atP, ok_bind]; rfl, .refresh⟩
  | reset p ms from_now now =>
    obtain ⟨timer, atP⟩ := Option.isSome_iff_exists.mp enabled
    simp only [exec, wf.reset_eq ms from_now now atP]
    split
    · exact ⟨_, _, rfl, .resetNothing⟩
    split
    · exact ⟨_, _, rfl, .resetNothing⟩
    · rename_i armed
      have member := wf.armed p timer atP (by simpa [Option.isSome_iff_ne_none] using armed)
      exact ⟨_, _, rfl, .reset atP member⟩
  | getNextTimer now_ms =>
    exact ⟨_, _, by simp only [exec, wf.getNextTimer_eq now_ms, ok_bind]; rfl, .getNextTimer⟩
  | listExpiredCb now_ms now_timer =>
    have fresh := Option.isNone_iff_eq_none.mp enabled.2
    obtain ⟨timers, run, sorted, perm⟩ := wf.listExpiredCb_eq now_ms [] enabled.1 fresh
    exact ⟨_, _, by simp only [exec, run, ok_bind]; rfl, .listExpiredCb sorted perm⟩
  | destroy p => exact ⟨_, _, rfl, .destroy enabled.2⟩

theorem Wf.effect {m m' : TimerManager κ ω} {l : TimerOp κ ω × TimerOut κ ω} (wf : m.Wf)
    (step : m.Step l m') : m.Effect l.1 l.2 m' := by
  obtain ⟨out, after, run, effect⟩ := wf.exec_effect step.1
  have same := step.2.symm.trans run
  cases Except.ok.inj same
  exact effect

theorem Wf.destroy {m : TimerManager κ ω} (wf : m.Wf) {p : Ptr} (outside : p ∉ m.m_timers) :
    ({ m with heap := Function.update m.heap p none } : TimerManager κ ω).Wf where
  sorted := sorted_update none wf.sorted outside
  nonnull := wf.nonnull
  live q member := by
    have different : q ≠ p := fun same => outside (same ▸ member)
    simpa only [Function.update_of_ne different] using wf.live q member
  armed q timer atQ armed := by
    by_cases same : q = p
    · simp [same] at atQ
    · simp only [Function.update_of_ne same] at atQ
      exact wf.armed q timer atQ armed

/-- Every operation keeps the invariant. -/
theorem Wf.step {m m' : TimerManager κ ω} {l : TimerOp κ ω × TimerOut κ ω} (wf : m.Wf)
    (step : m.Step l m') : m'.Wf := by
  have effect := wf.effect step
  obtain ⟨op, out⟩ := l
  cases effect with
  | addTimer real fresh => exact ((wf.allocate fresh).write _).addTimerLocked real (Function.update_self ..)
  | addConditionTimer real fresh => exact ((wf.allocate fresh).write _).addTimerLocked real (Function.update_self ..)
  | @cancel p timer _ _ =>
    refine ((wf.erase p).write _).done fun timer' atP' => ?_
    simp only [write, Function.update_self, Option.some.injEq] at atP'
    simp [← atP']
  | cancelNothing | refresh | resetNothing => exact wf
  | @reset p _ _ _ _ _ member =>
    have real : p ≠ 0 := fun null => wf.nonnull (null ▸ member)
    exact ((wf.erase p).write _).addTimerLocked real (Function.update_self ..)
  | getNextTimer => exact wf_tickled wf false
  | listExpiredCb sorted perm => exact wf.afterExpire sorted perm
  | destroy outside => exact wf.destroy outside

theorem Init.wf {m : TimerManager κ ω} (init : m.Init) : m.Wf := by
  obtain ⟨empty, _, unused⟩ := init
  refine ⟨?_, ?_, ?_, ?_⟩
  · rw [empty]; exact List.Pairwise.nil
  · simp [empty]
  · simp [empty]
  · simp [unused]

theorem wf_of_reach {m : TimerManager κ ω} (reach : Reach Init Step m) : m.Wf :=
  reach.invariant (fun _ init => init.wf) fun _ _ _ wf step => wf.step step

/-- A manager without timers, as its constructor leaves it at clock reading 10. -/
def fresh10 : TimerManager Unit Unit := ⟨[], false, 10, fun _ => none⟩

theorem fresh10_addTimer_reach (p : Ptr) (ms : UInt64) (cb : Option (Callback Unit Unit)) (recuring : Bool)
    (now : UInt64) (real : p ≠ 0) : Reach Init Step (fresh10.addTimer p ms cb recuring now).2 := by
  have enabled : fresh10.Enabled (.addTimer p ms cb recuring now) := ⟨real, rfl⟩
  exact .next (.start (s := fresh10) ⟨rfl, rfl, rfl⟩) (l := (.addTimer p ms cb recuring now, _)) ⟨enabled, rfl⟩

end TimerManager
end Sylar
