import Sylar.TimerStep

/-! `listExpiredCb` as the other threads see it: the emptiness test under the read lock and the rest
under the write lock are two steps. -/

namespace Sylar
open Machine

variable {κ ω : Type}

/-- `now_ms` is an hour or more before the last reading, as `detectClockRollover` has it. -/
def Rolled (previouse now_ms : UInt64) : Prop := now_ms < previouse ∧ now_ms < previouse - 60 * 60 * 1000

/-- The manager, and for each thread that stands between the two parts of `listExpiredCb` its
`now_ms`. -/
structure Listers (κ ω : Type) where
  manager : TimerManager κ ω
  tested : Nat → Option UInt64

namespace TimerManager

theorem expireOne_ne_derefEnd (now_ms : UInt64) (acc : List (Option (Callback κ ω)) × TimerManager κ ω) (p : Ptr) :
    expireOne now_ms acc p ≠ .error .derefEnd := by
  intro failed
  simp only [expireOne, deref, setNext] at failed
  split at failed
  · simp only [ok_bind] at failed
    split at failed
    · split at failed
      · cases failed
      · cases failed
    · cases failed
  · cases failed

theorem expire_loop_ne_derefEnd (now_ms : UInt64) (l : List Ptr)
    (acc : List (Option (Callback κ ω)) × TimerManager κ ω) :
    l.foldlM (expireOne now_ms) acc ≠ .error .derefEnd := by
  induction l generalizing acc with
  | nil => exact fun failed => by cases failed
  | cons p l ih =>
    rw [List.foldlM_cons]
    cases one : expireOne now_ms acc p with
    | error fault =>
      intro failed
      cases failed
      exact expireOne_ne_derefEnd now_ms acc p one
    | ok next => exact ih next

theorem rollover_iff_rolled (m : TimerManager κ ω) (now_ms : UInt64) :
    (m.detectClockRollover now_ms).1 = true ↔ Rolled m.m_previouseTime now_ms := by
  simp [detectClockRollover, Rolled]

/-- The part under the write lock dereferences `begin()` of an empty set exactly when the set is
empty and the clock did not roll over. -/
theorem listExpiredCbLocked_derefEnd (m : TimerManager κ ω) (now_ms : UInt64) (now_timer : Ptr)
    (cbs : List (Option (Callback κ ω))) :
    m.listExpiredCbLocked now_ms now_timer cbs = .error .derefEnd ↔
      m.m_timers = [] ∧ ¬ Rolled m.m_previouseTime now_ms := by
  rw [← rollover_iff_rolled]
  have rest : ∀ n : TimerManager κ ω, ∀ l : List Ptr,
      (l.foldlM (expireOne now_ms) (cbs, n) >>= fun r => .ok (r.1, l, r.2)) ≠ .error .derefEnd := by
    intro n l failed
    cases loop : l.foldlM (expireOne now_ms) (cbs, n) with
    | error fault =>
      rw [loop] at failed
      cases failed
      exact expire_loop_ne_derefEnd now_ms l _ loop
    | ok result =>
      rw [loop] at failed
      cases failed
  cases rollover : (m.detectClockRollover now_ms).1
  · have recorded : m.detectClockRollover now_ms = (false, { m with m_previouseTime := now_ms }) := by
      rw [← rollover]; rfl
    cases shape : m.m_timers with
    | nil => simp [listExpiredCbLocked, recorded, firstDueNow, begin, shape, Except.map]
    | cons first later =>
      simp only [listExpiredCbLocked, recorded, firstDueNow, begin, shape, List.head?_cons, deref]
      cases m.heap first with
      | none => simp [Except.map]
      | some timer =>
        simp only [Except.map, Bool.false_eq_true, if_false, ok_bind, reduceCtorEq, false_and, iff_false]
        split
        · exact fun failed => by cases failed
        · exact rest _ _
  · have recorded : m.detectClockRollover now_ms = (true, { m with m_previouseTime := now_ms }) := by
      rw [← rollover]; rfl
    simp only [listExpiredCbLocked, recorded, firstDueNow, if_true, ok_bind, Bool.false_eq_true, if_false,
      not_true_eq_false, and_false, iff_false]
    exact rest _ _

/-- With no timer left, the part under the write lock only records the clock after a rollover. -/
theorem listExpiredCbLocked_empty {m : TimerManager κ ω} {now_ms : UInt64} (now_timer : Ptr)
    (empty : m.m_timers = []) (rolled : Rolled m.m_previouseTime now_ms) :
    m.listExpiredCbLocked now_ms now_timer [] = .ok ([], [], { m with m_previouseTime := now_ms }) := by
  have recorded : m.detectClockRollover now_ms = (true, { m with m_previouseTime := now_ms }) :=
    Prod.ext ((rollover_iff_rolled m now_ms).mpr rolled) rfl
  cases m
  subst empty
  simp [listExpiredCbLocked, recorded, firstDueNow]

theorem expiredCount_le (m : TimerManager κ ω) (now_ms : UInt64) : m.expiredCount now_ms ≤ m.m_timers.length := by
  unfold expiredCount
  split
  · exact Nat.le_refl _
  split
  · exact Nat.zero_le _
  · exact (List.takeWhile_sublist _).length_le

/-- The expired timers were all the timers there were, and none of them is put back. -/
theorem afterExpire_nil {m : TimerManager κ ω} {now_ms : UInt64} {timers : List Ptr}
    (perm : timers.Perm ((m.m_timers.take (m.expiredCount now_ms)).filter m.heap.recurring ++
      m.m_timers.drop (m.expiredCount now_ms))) :
    timers = [] ↔ m.expiredCount now_ms = m.m_timers.length ∧ ∀ p ∈ m.m_timers, m.heap.recurring p = false := by
  have bound := m.expiredCount_le now_ms
  have same : timers = [] ↔ (m.m_timers.take (m.expiredCount now_ms)).filter m.heap.recurring ++
      m.m_timers.drop (m.expiredCount now_ms) = [] := by
    rw [List.eq_nil_iff_length_eq_zero, perm.length_eq, ← List.eq_nil_iff_length_eq_zero]
  rw [same, List.append_eq_nil_iff, List.filter_eq_nil_iff, List.drop_eq_nil_iff]
  constructor
  · rintro ⟨none, all⟩
    rw [List.take_of_length_le all] at none
    exact ⟨Nat.le_antisymm bound all, fun p member => by simpa using none p member⟩
  · rintro ⟨all, none⟩
    rw [all]
    exact ⟨fun p member => by simp [none p (List.mem_of_mem_take member)], Nat.le_refl _⟩

end TimerManager

namespace Listers

/-- What a thread does: one of the two parts of `listExpiredCb`, or another operation on the timers. -/
inductive Act (κ ω : Type)
  | test (now_ms : UInt64)
  | expire (now_timer : Ptr)
  | op (op : TimerOp κ ω)

def act (s : Listers κ ω) (thread : Nat) : Act κ ω → Except Fault (Listers κ ω)
  | .test now_ms =>
    if s.manager.m_timers.isEmpty then .ok s
    else .ok { s with tested := Function.update s.tested thread (some now_ms) }
  | .expire now_timer =>
    match s.tested thread with
    | none => .ok s
    | some now_ms => do
      let r ← s.manager.listExpiredCbLocked now_ms now_timer []
      return { manager := r.2.2, tested := Function.update s.tested thread none }
  | .op op => do
    let r ← s.manager.exec op
    return { s with manager := r.2 }

/-- The write lock is taken after the test, and a thread does nothing else in between. -/
def Enabled (s : Listers κ ω) (thread : Nat) : Act κ ω → Prop
  | .test _ => s.tested thread = none
  | .expire now_timer => (s.tested thread).isSome ∧ now_timer ≠ 0 ∧ (s.manager.heap now_timer).isNone
  | .op op => s.tested thread = none ∧ (∀ now_ms now_timer, op ≠ .listExpiredCb now_ms now_timer) ∧
      s.manager.Enabled op

def Step (s : Listers κ ω) (l : Nat × Act κ ω) (t : Listers κ ω) : Prop :=
  s.Enabled l.1 l.2 ∧ s.act l.1 l.2 = .ok t

def Init (s : Listers κ ω) : Prop := s.manager.Init ∧ s.tested = fun _ => none

/-- No thread that has made its test finds the set empty under the write lock and dereferences
`begin()`. -/
def Safe (s : Listers κ ω) : Prop :=
  ∀ thread now_timer, s.act thread (.expire now_timer) ≠ .error .derefEnd

/-- The step leaves no timer in the set. -/
def LeavesEmpty (s : Listers κ ω) : Nat × Act κ ω → Prop
  | (_, .op (.addTimer ..)) | (_, .op (.addConditionTimer ..)) => False
  | (_, .op (.cancel p)) =>
    s.manager.m_timers = [] ∨ s.manager.m_timers = [p] ∧ (s.manager.heap.cb p).isSome
  | (thread, .expire _) => ∀ now_ms, s.tested thread = some now_ms →
      s.manager.expiredCount now_ms = s.manager.m_timers.length ∧
      ∀ p ∈ s.manager.m_timers, s.manager.heap.recurring p = false
  | _ => s.manager.m_timers = []

/-- The clock reading that the step leaves in `m_previouseTime`. -/
def clock (s : Listers κ ω) : Nat × Act κ ω → UInt64
  | (thread, .expire _) => (s.tested thread).getD s.manager.m_previouseTime
  | _ => s.manager.m_previouseTime

/-- A step that leaves no timer in the set is taken only when no other thread stands between its
test and its write lock, rollovers of the clock apart. -/
def Spared (s : Listers κ ω) (l : Nat × Act κ ω) (_ : Listers κ ω) : Prop :=
  s.LeavesEmpty l → ∀ thread now_ms, thread ≠ l.1 → s.tested thread = some now_ms → Rolled (s.clock l) now_ms

theorem safe_iff (s : Listers κ ω) : s.Safe ↔ (s.manager.m_timers = [] →
    ∀ thread now_ms, s.tested thread = some now_ms → Rolled s.manager.m_previouseTime now_ms) := by
  constructor
  · intro safe empty thread now_ms tested
    by_contra steady
    refine safe thread 0 ?_
    simp only [act, tested]
    rw [(s.manager.listExpiredCbLocked_derefEnd now_ms 0 []).mpr ⟨empty, steady⟩]
    rfl
  · intro rolled thread now_timer failed
    simp only [act] at failed
    split at failed
    · cases failed
    · rename_i now_ms tested
      cases locked : s.manager.listExpiredCbLocked now_ms now_timer [] with
      | ok result => rw [locked] at failed; cases failed
      | error fault =>
        rw [locked] at failed
        cases failed
        obtain ⟨empty, steady⟩ := (s.manager.listExpiredCbLocked_derefEnd now_ms now_timer []).mp locked
        exact steady (rolled empty thread now_ms tested)

/-- What a step does to what the threads between their two parts depend on. -/
structure After (s : Listers κ ω) (l : Nat × Act κ ω) (t : Listers κ ω) : Prop where
  wf : t.manager.Wf
  empty : t.manager.m_timers = [] ↔ s.LeavesEmpty l
  clock : t.manager.m_previouseTime = s.clock l
  others : ∀ thread, thread ≠ l.1 → t.tested thread = s.tested thread
  self : t.tested l.1 = none ∨ t.manager.m_timers ≠ []

theorem insert_ne_nil {m : TimerManager κ ω} {p : Ptr} (wf : m.WfExcept p) : (m.insert p).m_timers ≠ [] :=
  List.ne_nil_of_mem ((OrderedSet.mem_insert wf.outside).mpr (.inl rfl))

theorem after_op {s : Listers κ ω} {m : TimerManager κ ω} {out : TimerOut κ ω} {thread : Nat} {op : TimerOp κ ω}
    (wf : s.manager.Wf) (enabled : s.Enabled thread (.op op)) (done : s.manager.exec op = .ok (out, m)) :
    s.After (thread, .op op) { s with manager := m } := by
  have step : s.manager.Step (op, out) m := ⟨enabled.2.2, done⟩
  have quiet : (m.m_timers = [] ↔ s.LeavesEmpty (thread, .op op)) ∧
      m.m_previouseTime = s.manager.m_previouseTime := by
    cases wf.effect step with
    | addTimer real fresh =>
      exact ⟨iff_false_intro (insert_ne_nil ((wf.allocate fresh).write _)), rfl⟩
    | addConditionTimer real fresh =>
      exact ⟨iff_false_intro (insert_ne_nil ((wf.allocate fresh).write _)), rfl⟩
    | @cancel p timer atP armed =>
      have member := wf.armed p timer atP armed
      have cb : (s.manager.heap.cb p).isSome := by simpa [Heap.cb, atP] using armed
      refine ⟨?_, rfl⟩
      simp only [LeavesEmpty, TimerManager.write, cb, and_true, List.erase_eq_nil_iff]
    | @cancelNothing p timer atP disarmed =>
      have cb : s.manager.heap.cb p = none := by simpa [Heap.cb, atP] using disarmed
      simp [LeavesEmpty, cb]
    | refresh | resetNothing | getNextTimer | destroy => exact ⟨Iff.rfl, rfl⟩
    | @reset p timer ms from_now now atP member =>
      exact ⟨iff_of_false (insert_ne_nil ((wf.erase p).write _)) (List.ne_nil_of_mem member), rfl⟩
    | listExpiredCb => exact absurd rfl (enabled.2.1 _ _)
  exact ⟨wf.step step, quiet.1, quiet.2, fun _ _ => rfl, .inl enabled.1⟩

theorem after_expire {s : Listers κ ω} {now_ms : UInt64} {now_timer : Ptr} {thread : Nat}
    {r : List (Option (Callback κ ω)) × List Ptr × TimerManager κ ω}
    (wf : s.manager.Wf) (enabled : s.Enabled thread (.expire now_timer)) (tested : s.tested thread = some now_ms)
    (done : s.manager.listExpiredCbLocked now_ms now_timer [] = .ok r) :
    s.After (thread, .expire now_timer)
      { manager := r.2.2, tested := Function.update s.tested thread none } := by
  have facts : r.2.2.Wf ∧ (r.2.2.m_timers = [] ↔ s.LeavesEmpty (thread, .expire now_timer)) ∧
      r.2.2.m_previouseTime = now_ms := by
    by_cases empty : s.manager.m_timers = []
    · have rolled : Rolled s.manager.m_previouseTime now_ms := by
        by_contra steady
        rw [(s.manager.listExpiredCbLocked_derefEnd now_ms now_timer []).mpr ⟨empty, steady⟩] at done
        cases done
      rw [TimerManager.listExpiredCbLocked_empty now_timer empty rolled] at done
      cases done
      refine ⟨TimerManager.wf_previouseTime wf now_ms, iff_of_true empty ?_, rfl⟩
      intro now same
      simp [TimerManager.expiredCount, empty]
    · have whole : s.manager.exec (.listExpiredCb now_ms now_timer) =
          .ok ({ cbs := r.1, expired := r.2.1 }, r.2.2) := by
        simp only [TimerManager.exec, TimerManager.listExpiredCb, List.isEmpty_iff, empty, if_false, done]
        rfl
      have step : s.manager.Step (.listExpiredCb now_ms now_timer, { cbs := r.1, expired := r.2.1 }) r.2.2 :=
        ⟨enabled.2, whole⟩
      refine ⟨wf.step step, ?_⟩
      obtain ⟨cbs, expired, m⟩ := r
      cases wf.effect step with
      | @listExpiredCb _ _ timers sorted perm =>
        refine ⟨(TimerManager.afterExpire_nil perm).trans ?_, by simp [empty]⟩
        simp only [LeavesEmpty, tested, Option.some.injEq, forall_eq']
  refine ⟨facts.1, facts.2.1, ?_, fun v other => Function.update_of_ne other _ _, .inl (Function.update_self ..)⟩
  rw [facts.2.2]
  simp [Listers.clock, tested]

theorem after_step {s t : Listers κ ω} {l : Nat × Act κ ω} (wf : s.manager.Wf) (step : s.Step l t) :
    s.After l t := by
  obtain ⟨thread, a⟩ := l
  obtain ⟨enabled, done⟩ := step
  cases a with
  | test now_ms =>
    simp only [act] at done
    split at done
    · cases done
      exact ⟨wf, Iff.rfl, rfl, fun _ _ => rfl, .inl enabled⟩
    · rename_i nonempty
      cases done
      exact ⟨wf, Iff.rfl, rfl, fun v other => Function.update_of_ne other _ _,
        .inr fun empty => nonempty (List.isEmpty_iff.mpr empty)⟩
  | expire now_timer =>
    obtain ⟨now_ms, tested⟩ := Option.isSome_iff_exists.mp enabled.1
    simp only [act, tested] at done
    obtain ⟨r, locked, done⟩ := bind_eq_ok.mp done
    cases done
    exact after_expire wf enabled tested locked
  | op op =>
    obtain ⟨r, executed, done⟩ := bind_eq_ok.mp done
    cases done
    exact after_op wf enabled executed

/-- A step leaves the threads safe exactly when it spares those between their two parts. -/
theorem After.safe_iff_spared {s t : Listers κ ω} {l : Nat × Act κ ω} (after : s.After l t) :
    t.Safe ↔ s.Spared l t := by
  rw [safe_iff, Spared, after.empty]
  refine imp_congr_right fun leaves => ?_
  have gone : t.tested l.1 = none := after.self.resolve_right fun some => some (after.empty.mpr leaves)
  constructor
  · intro rolled thread now_ms other tested
    rw [← after.clock]
    exact rolled thread now_ms (after.others thread other ▸ tested)
  · intro rolled thread now_ms tested
    by_cases same : thread = l.1
    · rw [same, gone] at tested
      cases tested
    · rw [after.clock]
      exact rolled thread now_ms same (after.others thread same ▸ tested)

/-- Along a run no thread ever dereferences `begin()` of an empty set if and only if every step that
leaves the set empty spares the threads between their test and their write lock. -/
theorem run_safe_iff_spared {s t : Listers κ ω} {ls : List (Nat × Act κ ω)} (init : s.Init) :
    Run (Guarded Step fun _ _ t => t.Safe) s ls t ↔ Run (Guarded Step Spared) s ls t :=
  Run.guarded_congr (fun s => s.manager.Wf) (fun _ _ _ wf step => (after_step wf step).safe_iff_spared)
    (fun _ _ _ wf step _ => (after_step wf step).wf) init.1.wf

def fresh : Listers Unit Unit := ⟨TimerManager.fresh10, fun _ => none⟩

/-- The thread 0 is between its two parts while the thread 1 adds a second timer and cancels the first. -/
def twoTimers : List (Nat × Act Unit Unit) :=
  [(1, .op (.addTimer 1 5 (some (.plain ())) false 10)), (0, .test 20),
   (1, .op (.addTimer 2 5 (some (.plain ())) false 10)), (1, .op (.cancel 1)), (0, .expire 3)]

theorem run_safe_iff_spared_twoTimers : ∃ t : Listers Unit Unit,
    (Run (Guarded Step fun _ _ t => t.Safe) fresh twoTimers t ↔ Run (Guarded Step Spared) fresh twoTimers t) ∧
    Run (Guarded Step Spared) fresh twoTimers t := by
  have run : ∃ t : Listers Unit Unit, Run (Guarded Step Spared) fresh twoTimers t := by
    refine ⟨_, .cons ⟨⟨⟨rfl, nofun, by decide⟩, rfl⟩, nofun⟩ <| .cons ⟨⟨rfl, rfl⟩, nofun⟩ <|
      .cons ⟨⟨⟨rfl, nofun, by decide⟩, rfl⟩, nofun⟩ <| .cons ⟨⟨⟨rfl, nofun, by decide⟩, rfl⟩, ?_⟩ <|
      .cons ⟨⟨⟨rfl, by decide, rfl⟩, rfl⟩, ?_⟩ .start⟩
    · rintro (none | ⟨one, -⟩)
      · cases none
      · cases one
    · intro _ thread now_ms other tested
      cases (Function.update_of_ne other _ _).symm.trans tested
  obtain ⟨t, run⟩ := run
  exact ⟨t, run_safe_iff_spared ⟨⟨rfl, rfl, rfl⟩, rfl⟩, run⟩

/-- The thread 1 cancels the only timer after the thread 0 has seen it. -/
theorem not_safe_cancel_between : ∃ t : Listers Unit Unit,
    Run Step fresh [(1, .op (.addTimer 1 5 (some (.plain ())) false 10)), (0, .test 20), (1, .op (.cancel 1))] t ∧
    t.Enabled 0 (.expire 2) ∧ t.act 0 (.expire 2) = .error .derefEnd ∧ ¬ t.Safe := by
  have run : ∃ t : Listers Unit Unit,
      Run Step fresh [(1, .op (.addTimer 1 5 (some (.plain ())) false 10)), (0, .test 20), (1, .op (.cancel 1))] t ∧
      t.Enabled 0 (.expire 2) ∧ t.act 0 (.expire 2) = .error .derefEnd :=
    ⟨_, .cons ⟨⟨rfl, nofun, by decide⟩, rfl⟩ <| .cons ⟨rfl, rfl⟩ <| .cons ⟨⟨rfl, nofun, by decide⟩, rfl⟩ .start,
      ⟨rfl, by decide, rfl⟩, rfl⟩
  obtain ⟨t, steps, enabled, fails⟩ := run
  exact ⟨t, steps, enabled, fails, fun safe => safe 0 2 fails⟩

end Listers
end Sylar
