import Mathlib.Data.List.Nodup
import Sylar.TimerStep

namespace Sylar
open Machine

variable {κ ω : Type}

/-- What has happened to each timer since it was created: whether it was created with a
callback, how often `listExpiredCb` has returned it, and whether `cancel` has returned true. -/
structure TimerLabels where
  born : Ptr → Bool := fun _ => false
  fired : Ptr → Nat := fun _ => 0
  cancelled : Ptr → Bool := fun _ => false

/-- A new timer starts a new history at its address. -/
def TimerLabels.create (L : TimerLabels) (p : Ptr) (callback : Bool) : TimerLabels where
  born := Function.update L.born p callback
  fired := Function.update L.fired p 0
  cancelled := Function.update L.cancelled p false

def TimerLabels.next (L : TimerLabels) (l : TimerOp κ ω × TimerOut κ ω) : TimerLabels :=
  match l.1 with
  | .addTimer p _ cb _ _ => L.create p cb.isSome
  | .addConditionTimer p .. => L.create p true
  | .cancel p => if l.2.ret then { L with cancelled := Function.update L.cancelled p true } else L
  | .listExpiredCb .. => { L with fired := fun p => L.fired p + l.2.expired.count p }
  | _ => L

namespace TimerManager

/-- The reachable managers, with the history of every timer retained. -/
inductive LabeledReach : TimerManager κ ω → TimerLabels → Prop
  | start {m} : m.Init → LabeledReach m {}
  | next {m m' L l} : LabeledReach m L → m.Step l m' → LabeledReach m' (L.next l)

theorem LabeledReach.forget {m : TimerManager κ ω} {L : TimerLabels} (reach : LabeledReach m L) :
    Reach Init Step m := by
  induction reach with
  | start init => exact .start init
  | next _ step ih => exact .next ih step

/-- Every reachable manager has a history, so labels are no restriction on the runs. -/
theorem reach_iff_labeled {m : TimerManager κ ω} : Reach Init Step m ↔ ∃ L, LabeledReach m L := by
  refine ⟨fun reach => ?_, fun ⟨_, reach⟩ => reach.forget⟩
  induction reach with
  | start init => exact ⟨{}, .start init⟩
  | next _ step ih =>
    obtain ⟨L, previous⟩ := ih
    exact ⟨_, .next previous step⟩

/-- How the history of one live timer shows in it and in its membership of the set. -/
structure AgreesAt (timer : Timer κ ω) (member : Prop) (born : Bool) (fired : Nat) (cancelled : Bool) :
    Prop where
  callback : born → member → timer.m_cb.isSome
  unfired : timer.m_recurring = false → member → fired = 0
  once : timer.m_recurring = false → fired ≤ 1
  gone : cancelled → ¬ member
  stays : timer.m_recurring = true → cancelled = false → member

def Agrees (m : TimerManager κ ω) (L : TimerLabels) : Prop :=
  ∀ p timer, m.heap p = some timer →
    AgreesAt timer (p ∈ m.m_timers) (L.born p) (L.fired p) (L.cancelled p)

/-- An operation that keeps the members of the set, the callbacks and the kinds of timers
has no part in the history. -/
theorem Agrees.congr {m m' : TimerManager κ ω} {L : TimerLabels} (agrees : m.Agrees L)
    (members : ∀ p, p ∈ m'.m_timers ↔ p ∈ m.m_timers)
    (kept : ∀ p timer', m'.heap p = some timer' → ∃ timer, m.heap p = some timer ∧
      timer.m_recurring = timer'.m_recurring ∧ timer.m_cb = timer'.m_cb) : m'.Agrees L := by
  intro p timer' atP
  obtain ⟨timer, old, kind, cb⟩ := kept p timer' atP
  have before := agrees p timer old
  rw [members p]
  refine ⟨?_, ?_, ?_, before.gone, ?_⟩
  · rw [← cb]; exact before.callback
  · rw [← kind]; exact before.unfired
  · rw [← kind]; exact before.once
  · rw [← kind]; exact before.stays

theorem Agrees.create {m : TimerManager κ ω} {L : TimerLabels} (agrees : m.Agrees L) {p : Ptr}
    {timer : Timer κ ω} (outside : p ∉ m.m_timers) :
    ((m.write p timer).addTimerLocked p).2.Agrees (L.create p timer.m_cb.isSome) := by
  have members : ∀ q, q ∈ ((m.write p timer).addTimerLocked p).2.m_timers ↔ q = p ∨ q ∈ m.m_timers :=
    fun q => OrderedSet.mem_insert outside
  intro q timer' atQ
  change Function.update m.heap p (some timer) q = some timer' at atQ
  rw [members q]
  by_cases same : q = p
  · subst same
    simp only [Function.update_self, Option.some.injEq] at atQ
    subst atQ
    exact ⟨by simp [TimerLabels.create], by simp [TimerLabels.create], by simp [TimerLabels.create],
      by simp [TimerLabels.create], by simp⟩
  · rw [Function.update_of_ne same] at atQ
    simp only [TimerLabels.create, Function.update_of_ne same, same, false_or]
    exact agrees q timer' atQ

theorem Agrees.cancel {m : TimerManager κ ω} {L : TimerLabels} (agrees : m.Agrees L) (wf : m.Wf) {p : Ptr}
    {timer : Timer κ ω} (atP : m.heap p = some timer) :
    (({ m with m_timers := m.m_timers.erase p } : TimerManager κ ω).write p
      { timer with m_cb := none }).Agrees
        { L with cancelled := Function.update L.cancelled p true } := by
  intro q timer' atQ
  change Function.update m.heap p (some { timer with m_cb := none }) q = some timer' at atQ
  change AgreesAt timer' (q ∈ m.m_timers.erase p) _ _ (Function.update L.cancelled p true q)
  by_cases same : q = p
  · subst same
    simp only [Function.update_self, Option.some.injEq] at atQ
    subst atQ
    have outside : q ∉ m.m_timers.erase q := (wf.erase q).outside
    exact ⟨fun _ member => absurd member outside, fun _ member => absurd member outside,
      (agrees q timer atP).once, fun _ => outside, by simp⟩
  · rw [Function.update_of_ne same] at atQ
    rw [Function.update_of_ne same, List.mem_erase_of_ne same]
    exact agrees q timer' atQ

/-- A call of `listExpiredCb` adds one to the count of each timer that it returns. -/
theorem Agrees.afterExpire {m : TimerManager κ ω} {L : TimerLabels} (agrees : m.Agrees L) (wf : m.Wf)
    {now_ms : UInt64} {timers : List Ptr}
    (perm : timers.Perm ((m.m_timers.take (m.expiredCount now_ms)).filter m.heap.recurring ++
      m.m_timers.drop (m.expiredCount now_ms))) :
    (m.afterExpire now_ms timers).Agrees { L with
      fired := fun p => L.fired p + (m.m_timers.take (m.expiredCount now_ms)).count p } := by
  intro p timer' atP
  change expireHeap m.heap now_ms (m.m_timers.take (m.expiredCount now_ms)) p = some timer' at atP
  change AgreesAt timer' (p ∈ timers) _ (L.fired p + (m.m_timers.take (m.expiredCount now_ms)).count p) _
  generalize m.expiredCount now_ms = k at *
  have nodup := wf.sorted.nodup
  have members : p ∈ timers ↔
      (p ∈ m.m_timers.take k ∧ m.heap.recurring p = true) ∨ p ∈ m.m_timers.drop k := by
    rw [perm.mem_iff, List.mem_append, List.mem_filter]
  by_cases expired : p ∈ m.m_timers.take k
  · simp only [expireHeap, expired, if_true] at atP
    obtain ⟨timer, old, settled⟩ := Option.map_eq_some_iff.mp atP
    subst settled
    have before := agrees p timer old
    have member := List.mem_of_mem_take expired
    have notRest : p ∉ m.m_timers.drop k :=
      fun rest => List.disjoint_take_drop nodup (Nat.le_refl k) expired rest
    have count : (m.m_timers.take k).count p = 1 :=
      List.count_eq_one_of_mem (nodup.sublist (List.take_sublist _ _)) expired
    have running : L.cancelled p = false := by
      rw [Bool.eq_false_iff]
      exact fun cancelled => before.gone cancelled member
    rw [count, members]
    cases kind : timer.m_recurring
    · have outside : ¬ ((p ∈ m.m_timers.take k ∧ m.heap.recurring p = true) ∨ p ∈ m.m_timers.drop k) := by
        simp [notRest, Heap.recurring, old, kind]
      exact ⟨fun _ inside => absurd inside outside, fun _ inside => absurd inside outside,
        fun _ => by have first := before.unfired kind member; omega,
        fun _ => outside, by simp [settle, kind]⟩
    · have inside : (p ∈ m.m_timers.take k ∧ m.heap.recurring p = true) ∨ p ∈ m.m_timers.drop k :=
        Or.inl ⟨expired, by simp [Heap.recurring, old, kind]⟩
      exact ⟨fun born _ => by simpa [settle, kind] using before.callback born member,
        by simp [settle, kind], by simp [settle, kind], by simp [running], fun _ _ => inside⟩
  · simp only [expireHeap, expired, if_false] at atP
    have same : p ∈ timers ↔ p ∈ m.m_timers := by
      conv_rhs => rw [← List.take_append_drop k m.m_timers, List.mem_append]
      rw [members]
      simp only [expired, false_and]
    rw [same, List.count_eq_zero_of_not_mem expired, Nat.add_zero]
    exact agrees p timer' atP

/-- A timer that `reset` has taken out of the set is back in it, with its callback. -/
theorem Agrees.rearm {m : TimerManager κ ω} {L : TimerLabels} (agrees : m.Agrees L) (wf : m.Wf) {p : Ptr}
    {timer : Timer κ ω} (atP : m.heap p = some timer) (member : p ∈ m.m_timers) (ms start : UInt64) :
    ((m.rearmed p timer ms start).addTimerLocked p).2.Agrees L := by
  refine agrees.congr ?_ ?_
  · intro q
    refine (OrderedSet.mem_insert (wf.erase p).outside).trans ?_
    by_cases same : q = p
    · simp [same, member]
    · simp [same]
  · intro q timer' atQ
    change Function.update m.heap p _ q = some timer' at atQ
    by_cases same : q = p
    · subst same
      simp only [Function.update_self, Option.some.injEq] at atQ
      exact ⟨timer, atP, by simp [← atQ], by simp [← atQ]⟩
    · rw [Function.update_of_ne same] at atQ
      exact ⟨timer', atQ, rfl, rfl⟩

theorem Agrees.step {m m' : TimerManager κ ω} {L : TimerLabels} {l : TimerOp κ ω × TimerOut κ ω}
    (agrees : m.Agrees L) (wf : m.Wf) (step : m.Step l m') : m'.Agrees (L.next l) := by
  have effect := wf.effect step
  obtain ⟨op, out⟩ := l
  cases effect with
  | addTimer _ fresh => exact agrees.create (wf.allocate fresh).outside
  | addConditionTimer _ fresh => exact agrees.create (wf.allocate fresh).outside
  | cancel atP _ => exact agrees.cancel wf atP
  | cancelNothing | refresh | resetNothing | getNextTimer => exact agrees
  | reset atP member => exact agrees.rearm wf atP member _ _
  | listExpiredCb _ perm => exact agrees.afterExpire wf perm
  | @destroy p _ =>
    refine agrees.congr (fun _ => Iff.rfl) ?_
    intro q timer' atQ
    by_cases same : q = p
    · simp [same] at atQ
    · exact ⟨timer', by simpa only [Function.update_of_ne same] using atQ, rfl, rfl⟩

theorem LabeledReach.wf {m : TimerManager κ ω} {L : TimerLabels} (reach : LabeledReach m L) : m.Wf :=
  wf_of_reach reach.forget

theorem LabeledReach.agrees {m : TimerManager κ ω} {L : TimerLabels} (reach : LabeledReach m L) :
    m.Agrees L := by
  induction reach with
  | start init =>
    intro p timer atP
    simp [init.2.2] at atP
  | next previous step ih => exact ih.step previous.wf step

/-- The representation invariant of the timer set, in every reachable state. No operation
meets a `Fault`, so `cancel`, `refresh` and `reset` never erase the end iterator and no key
is written while its timer is in the set. -/
theorem LabeledReach.set_invariant {m : TimerManager κ ω} {L : TimerLabels} (reach : LabeledReach m L) :
    IsStrictTotalOrder Ptr (fun x y => Timer.Comparator m.heap x y = true) ∧
      (∀ x y, x ≠ 0 → y ≠ 0 → (Timer.Comparator m.heap x y = true ↔
        m.heap.next x < m.heap.next y ∨ m.heap.next x = m.heap.next y ∧ x < y)) ∧
      m.m_timers.Pairwise (fun x y => Timer.Comparator m.heap x y = true) ∧
      m.m_timers.Nodup ∧
      (∀ p timer, m.heap p = some timer → timer.m_cb.isSome → p ∈ m.m_timers) ∧
      (∀ p timer, m.heap p = some timer → L.born p → p ∈ m.m_timers → timer.m_cb.isSome) ∧
      (∀ p timer, m.heap p = some timer → timer.m_cb.isSome → m.find p < m.m_timers.length) ∧
      ∀ op, m.Enabled op → ∃ out m', m.exec op = .ok (out, m') := by
  have wf := reach.wf
  refine ⟨Timer.comparator_strictTotal m.heap, ?_, wf.sorted, wf.sorted.nodup, wf.armed, ?_, ?_, ?_⟩
  · intro x y realX realY
    simp [Timer.comparator_iff, realX, realY]
  · exact fun p timer atP => (reach.agrees p timer atP).callback
  · exact fun p timer atP armed => wf.sorted.find_lt_length (wf.armed p timer atP armed)
  · intro op enabled
    obtain ⟨out, m', run, _⟩ := wf.exec_effect enabled
    exact ⟨out, m', run⟩

/-- A recurring timer is re-armed behind another one, which is then reset to come first. -/
theorem set_invariant_rearmed : ∃ (m : TimerManager Unit Unit) (L : TimerLabels), LabeledReach m L ∧
    m.m_timers = [32, 16] ∧ m.heap.next 16 = 22 ∧ m.find 16 < m.m_timers.length := by
  have one : LabeledReach _ _ := .next (.start (m := fresh10) ⟨rfl, rfl, rfl⟩)
    (l := (.addTimer 16 5 (some (.plain ())) true 10, { atFront := true })) ⟨by decide, rfl⟩
  have two : LabeledReach _ _ :=
    .next one (l := (.addTimer 32 20 (some (.plain ())) false 10, { atFront := false })) ⟨by decide, rfl⟩
  have expires : LabeledReach _ _ :=
    .next two (l := (.listExpiredCb 17 48, { cbs := [some (.plain ())], expired := [16] })) ⟨by decide, rfl⟩
  have reach : LabeledReach _ _ := .next expires (l := (.reset 32 3 true 18, { ret := true })) ⟨by decide, rfl⟩
  exact ⟨_, _, reach, rfl, rfl, (LabeledReach.set_invariant reach).2.2.2.2.2.2.1 16 _ rfl rfl⟩

/-- The history of callbacks along every run, and the effect of each single call of
`listExpiredCb` from any state that a run reaches. -/
theorem LabeledReach.callbacks {m : TimerManager κ ω} {L : TimerLabels} (reach : LabeledReach m L) :
    (∀ p timer, m.heap p = some timer → timer.m_recurring = false → L.fired p ≤ 1) ∧
      (∀ p timer, m.heap p = some timer → timer.m_recurring = true → L.cancelled p = false → p ∈ m.m_timers) ∧
      ∀ now_ms now_timer cbs, m.Enabled (.listExpiredCb now_ms now_timer) →
        ∃ expired m', m.listExpiredCb now_ms now_timer cbs = .ok (cbs ++ expired.map m.heap.cb, expired, m') ∧
          expired <+: m.m_timers ∧
          (∀ p ∈ expired, L.cancelled p = false) ∧
          (∀ p ∈ expired, ∀ timer, m.heap p = some timer → timer.m_recurring = true →
            m'.heap p = some { timer with m_next := now_ms + timer.m_ms } ∧ m'.m_timers.count p = 1) ∧
          (∀ p ∈ expired, ∀ timer, m.heap p = some timer → timer.m_recurring = false →
            m'.heap p = some { timer with m_cb := none } ∧ p ∉ m'.m_timers) ∧
          ∀ p, p ∉ expired → m'.heap p = m.heap p ∧ (p ∈ m'.m_timers ↔ p ∈ m.m_timers) := by
  have wf := reach.wf
  have agrees := reach.agrees
  refine ⟨fun p timer atP => (agrees p timer atP).once, fun p timer atP => (agrees p timer atP).stays, ?_⟩
  intro now_ms now_timer cbs enabled
  obtain ⟨timers, call, sorted, perm⟩ :=
    wf.listExpiredCb_eq now_ms cbs enabled.1 (Option.isNone_iff_eq_none.mp enabled.2)
  have nodup : timers.Nodup := sorted.nodup
  have heap : ∀ p, (m.afterExpire now_ms timers).heap p =
      if p ∈ m.m_timers.take (m.expiredCount now_ms) then (m.heap p).map (settle now_ms) else m.heap p :=
    fun _ => rfl
  have members : ∀ p, p ∈ timers ↔ (p ∈ m.m_timers.take (m.expiredCount now_ms) ∧ m.heap.recurring p = true) ∨
      p ∈ m.m_timers.drop (m.expiredCount now_ms) := by
    intro p
    rw [perm.mem_iff, List.mem_append, List.mem_filter]
  refine ⟨_, _, call, List.take_prefix _ _, ?_, ?_, ?_, ?_⟩
  · intro p expired
    have member := List.mem_of_mem_take expired
    obtain ⟨timer, atP⟩ := wf.live p member
    rw [Bool.eq_false_iff]
    exact fun cancelled => (agrees p timer atP).gone cancelled member
  · intro p expired timer atP kind
    refine ⟨by rw [heap, if_pos expired, atP]; simp [settle, kind], ?_⟩
    refine List.count_eq_one_of_mem nodup ((members p).mpr (Or.inl ⟨expired, ?_⟩))
    simp [Heap.recurring, atP, kind]
  · intro p expired timer atP kind
    refine ⟨by rw [heap, if_pos expired, atP]; simp [settle, kind], fun inside => ?_⟩
    rcases (members p).mp inside with ⟨_, recurring⟩ | rest
    · simp [Heap.recurring, atP, kind] at recurring
    · exact List.disjoint_take_drop wf.sorted.nodup (Nat.le_refl _) expired rest
  · intro p kept
    refine ⟨by rw [heap, if_neg kept], (members p).trans ?_⟩
    conv_rhs => rw [← List.take_append_drop (m.expiredCount now_ms) m.m_timers, List.mem_append]
    simp only [kept, false_and]

theorem callbacks_one_timer :
    ∃ expired m', (fresh10.addTimer 16 5 (some (.plain ())) true 10).2.listExpiredCb 20 32 [] =
        .ok ([some (.plain ())], expired, m') ∧ m'.heap 16 = some ⟨true, 5, 25, some (.plain ())⟩ := by
  obtain ⟨_, _, call⟩ := LabeledReach.callbacks (.next (.start (m := fresh10) ⟨rfl, rfl, rfl⟩)
    (l := (.addTimer 16 5 (some (.plain ())) true 10, { atFront := true })) ⟨by decide, rfl⟩)
  obtain ⟨expired, m', run, _, _, recurring, _⟩ := call 20 32 [] (by decide)
  have known : expired = [16] := by
    have parts := Except.ok.inj run
    exact (congrArg (fun r => r.2.1) parts).symm
  subst known
  exact ⟨_, _, run, (recurring 16 (List.mem_singleton_self 16) _ rfl rfl).1⟩

end TimerManager
end Sylar
