import Mathlib.Data.List.Induction
import Sylar.DoIoWoken

/-! What a call of `do_io` returns, and what it leaves behind, after any number of waits. -/

namespace Sylar
open Machine

variable {K κ : Type}

namespace IoWorkers

/-- What the underlying call has returned in this step, with `errno`. -/
def outcome (call : CallId) : Act K κ → Option (Int × Int)
  | .io b (.call n errno) => if b = call then some (n, errno) else none
  | _ => none

/-- What the underlying calls have returned, in order. -/
def outcomes (call : CallId) (ls : List (Act K κ)) : List (Int × Int) := ls.filterMap (outcome call)

/-- `addEvent` has failed for the call. -/
def Refused (call : CallId) (ls : List (Act K κ)) : Prop :=
  ∃ scheduler out, .io call (.addEvent scheduler out) ∈ ls ∧ out.success = false

/-- The timers that the call has made, if it has a timeout, and that nobody has destroyed. -/
def created (call : CallId) (ls : List (Act K κ)) : List Ptr :=
  ls.foldl (fun timers l =>
    match l with
    | .io b (.addConditionTimer timer _) => if b = call then timer :: timers else timers
    | .timer (.destroy timer) => timers.filter (· ≠ timer)
    | _ => timers) []

section Labels
variable {call : CallId} {ls : List (Act K κ)} {l : Act K κ}

theorem outcomes_concat : outcomes call (ls ++ [l]) = outcomes call ls ++ (outcome call l).toList := by
  rw [outcomes, List.filterMap_append]
  cases found : outcome call l <;> simp [outcomes, found]

theorem outcomes_of_other (other : ∀ n errno, l ≠ .io call (.call n errno)) :
    outcomes call (ls ++ [l]) = outcomes call ls := by
  have none : outcome call l = none := by
    unfold outcome
    split
    · split
      · rename_i same
        subst same
        exact absurd rfl (other _ _)
      · rfl
    · rfl
  rw [outcomes_concat, none]
  exact List.append_nil _

theorem refused_concat : Refused call (ls ++ [l]) ↔
    Refused call ls ∨ ∃ scheduler out, l = .io call (.addEvent scheduler out) ∧ out.success = false := by
  simp only [Refused, List.mem_append, List.mem_singleton, or_and_right, exists_or, eq_comm]

theorem refused_of_other (other : ∀ scheduler out, l ≠ .io call (.addEvent scheduler out)) :
    Refused call (ls ++ [l]) ↔ Refused call ls := by
  rw [refused_concat, or_iff_left]
  rintro ⟨scheduler, out, same, -⟩
  exact other scheduler out same

theorem mem_created_concat {p : Ptr} (member : p ∈ created call (ls ++ [l])) :
    p ∈ created call ls ∧ l ≠ .timer (.destroy p) ∨ ∃ now, l = .io call (.addConditionTimer p now) := by
  rw [created, List.foldl_append] at member
  simp only [List.foldl_cons, List.foldl_nil] at member
  split at member
  · split at member
    · rename_i same
      rcases List.mem_cons.mp member with rfl | old
      · subst same
        exact .inr ⟨_, rfl⟩
      · exact .inl ⟨old, nofun⟩
    · exact .inl ⟨member, nofun⟩
  · obtain ⟨old, apart⟩ := List.mem_filter.mp member
    refine .inl ⟨old, ?_⟩
    rintro ⟨⟩
    simp at apart
  · rename_i other
    exact .inl ⟨member, fun same => other p same⟩

theorem made_of_created {p : Ptr} (member : p ∈ created call ls) : ∃ now, .io call (.addConditionTimer p now) ∈ ls := by
  induction ls using List.reverseRecOn with
  | nil => cases member
  | append_singleton ls l ih =>
    rcases mem_created_concat member with ⟨old, -⟩ | ⟨now, rfl⟩
    · obtain ⟨now, made⟩ := ih old
      exact ⟨now, List.mem_append_left _ made⟩
    · exact ⟨now, List.mem_append_right _ List.mem_cons_self⟩

end Labels

/-- What a call has come to, by what its underlying calls and its `addEvent` have returned. -/
inductive Told (call : CallId) (ls : List (Act K κ)) (fired : Prop) : IoPc → Prop
  | going {pc} : pc.active → (∀ timer, pc ≠ .failed timer) → (∀ o ∈ outcomes call ls, Retried o) →
      ¬ Refused call ls → Told call ls fired pc
  | failed {timer} : (∀ o ∈ outcomes call ls, Retried o) → Refused call ls → Told call ls fired (.failed timer)
  | refused : (∀ o ∈ outcomes call ls, Retried o) → Refused call ls → Told call ls fired (.returned (-1) none)
  | final {n errno before} : outcomes call ls = before ++ [(n, errno)] → (∀ o ∈ before, Retried o) →
      ¬ Retried (n, errno) → ¬ Refused call ls → Told call ls fired (.returned n none)
  | timedOut : (∀ o ∈ outcomes call ls, Retried o) → ¬ Refused call ls → fired →
      Told call ls fired (.returned (-1) (some ETIMEDOUT))

section Told
variable {call : CallId} {ls ms : List (Act K κ)} {l : Act K κ} {fired later : Prop} {pc next : IoPc}

theorem Told.congr (told : Told call ls fired pc) (same : outcomes call ms = outcomes call ls)
    (refused : Refused call ms ↔ Refused call ls) (still : fired → later) : Told call ms later pc := by
  cases told with
  | going active other retried fine =>
    exact .going active other (same ▸ retried) (mt refused.mp fine)
  | failed retried failed => exact .failed (same ▸ retried) (refused.mpr failed)
  | refused retried failed => exact .refused (same ▸ retried) (refused.mpr failed)
  | final shape retried last fine => exact .final (same.trans shape) retried last (mt refused.mp fine)
  | timedOut retried fine fires => exact .timedOut (same ▸ retried) (mt refused.mp fine) (still fires)

theorem Told.of_going (told : Told call ls fired pc) (active : pc.active) (other : ∀ timer, pc ≠ .failed timer) :
    (∀ o ∈ outcomes call ls, Retried o) ∧ ¬ Refused call ls := by
  cases told with
  | going _ _ retried fine => exact ⟨retried, fine⟩
  | failed => exact absurd rfl (other _)
  | refused | final | timedOut => cases active

/-- The call goes on to a place from where it does not return at once. -/
theorem Told.go (told : Told call ls fired pc) (active : pc.active) (other : ∀ timer, pc ≠ .failed timer)
    (same : outcomes call ms = outcomes call ls) (refused : Refused call ms ↔ Refused call ls) (goes : next.active)
    (goesOn : ∀ timer, next ≠ .failed timer) : Told call ms later next := by
  obtain ⟨retried, fine⟩ := told.of_going active other
  exact .going goes goesOn (same ▸ retried) (mt refused.mp fine)

theorem Told.of_last (told : Told call ls fired pc) {n errno : Int} (member : (n, errno) ∈ outcomes call ls)
    (last : ¬ Retried (n, errno)) :
    pc = .returned n none ∧ ∃ before, outcomes call ls = before ++ [(n, errno)] ∧ ∀ o ∈ before, Retried o := by
  cases told with
  | going _ _ retried | failed retried | refused retried | timedOut retried => exact absurd (retried _ member) last
  | @final m e before shape retried =>
    rw [shape] at member
    rcases List.mem_append.mp member with old | new
    · exact absurd (retried _ old) last
    · cases List.mem_singleton.mp new
      exact ⟨rfl, before, shape, retried⟩

theorem Told.of_refused (told : Told call ls fired pc) (refused : Refused call ls) :
    (∃ timer, pc = .failed timer) ∨ pc = .returned (-1) none := by
  cases told with
  | going _ _ _ fine | final _ _ _ fine | timedOut _ fine => exact absurd refused fine
  | failed => exact .inl ⟨_, rfl⟩
  | refused => exact .inr rfl

theorem Told.of_returned {n : Int} (told : Told call ls fired (.returned n none)) :
    (∃ errno, (n, errno) ∈ outcomes call ls ∧ ¬ Retried (n, errno)) ∨ n = -1 ∧ Refused call ls := by
  cases told with
  | going active => cases active
  | refused _ refused => exact .inr ⟨rfl, refused⟩
  | final shape _ last =>
    refine .inl ⟨_, ?_, last⟩
    rw [shape]
    exact List.mem_append_right _ List.mem_cons_self

theorem Told.of_timedOut {n errno : Int} (told : Told call ls fired (.returned n (some errno))) :
    n = -1 ∧ errno = ETIMEDOUT ∧ fired := by
  cases told with
  | going active => cases active
  | timedOut _ _ fires => exact ⟨rfl, rfl, fires⟩

end Told

variable {ep : Epoll K} {s t s₀ : IoWorkers K κ} {call : CallId} {ls : List (Act K κ)} {l : Act K κ}

theorem Told.called {c : IoCall} {a : CallAct} {fired later : Prop} (told : Told call ls fired c.pc)
    (atCall : s.calls call = some c) (called : Called ep s call c a t)
    (expires : c.cancelled ≠ 0 → c.cancelled = ETIMEDOUT ∧ later) {d : IoCall} (after : t.calls call = some d) :
    Told call (ls ++ [.io call a]) later d.pc := by
  have silent : (∀ n errno, a ≠ .call n errno) → outcomes call (ls ++ [.io call a]) = outcomes call ls := by
    intro other
    refine outcomes_of_other ?_
    rintro n errno ⟨⟩
    exact other n errno rfl
  have unasked : (∀ scheduler out, a ≠ .addEvent scheduler out) →
      (Refused call (ls ++ [.io call a]) ↔ Refused call ls) := by
    intro other
    refine refused_of_other ?_
    rintro scheduler out ⟨⟩
    exact other scheduler out rfl
  have heard : ∀ n errno, outcomes call (ls ++ [.io call (.call n errno)] : List (Act K κ)) =
      outcomes call ls ++ [(n, errno)] := by
    intro n errno
    simp [outcomes_concat, outcome]
  have again : ∀ n errno, c.pc = .retry → Retried (n, errno) →
      ∀ o ∈ outcomes call (ls ++ [.io call (.call n errno)] : List (Act K κ)), Retried o := by
    intro n errno pc last o member
    rw [heard] at member
    rcases List.mem_append.mp member with old | new
    · exact (told.of_going (by rw [pc]; rfl) (by rw [pc]; nofun)).1 o old
    · exact List.mem_singleton.mp new ▸ last
  cases called with
  | interrupted pc minus eintr =>
    cases atCall.symm.trans after
    rw [pc] at told ⊢
    exact .going rfl nofun (again _ _ pc ⟨minus, .inl eintr⟩)
      (mt (unasked nofun).mp (told.of_going rfl nofun).2)
  | blocked pc minus eagain =>
    cases (Function.update_self ..).symm.trans after
    rw [pc] at told
    exact .going rfl nofun (again _ _ pc ⟨minus, .inr eagain⟩)
      (mt (unasked nofun).mp (told.of_going rfl nofun).2)
  | done pc last =>
    cases (Function.update_self ..).symm.trans after
    rw [pc] at told
    obtain ⟨retried, fine⟩ := told.of_going rfl nofun
    exact .final (heard _ _) retried last (mt (unasked nofun).mp fine)
  | arm pc | unlimited pc | yielded pc | resumed pc | again pc =>
    cases (Function.update_self ..).symm.trans after
    rw [pc] at told
    exact told.go rfl nofun (silent nofun) (unasked nofun) rfl nofun
  | added pc _ success =>
    cases (Function.update_self ..).symm.trans after
    rw [pc] at told
    refine told.go rfl nofun (silent nofun) (refused_concat.trans (or_iff_left ?_)) rfl nofun
    rintro ⟨_, _, ⟨⟩, failure⟩
    cases success.symm.trans failure
  | refused pc _ failure =>
    cases (Function.update_self ..).symm.trans after
    rw [pc] at told
    exact .failed (silent nofun ▸ (told.of_going rfl nofun).1) (refused_concat.mpr (.inr ⟨_, _, rfl, failure⟩))
  | failed pc cancelled =>
    obtain ⟨timers, rfl⟩ := cancelTimer_eq_some cancelled
    cases (Function.update_self ..).symm.trans after
    rw [pc] at told
    cases told with
    | going _ other => exact absurd rfl (other _)
    | failed retried refused => exact .refused (silent nofun ▸ retried) ((unasked nofun).mpr refused)
  | cancelled pc cancelled =>
    obtain ⟨timers, rfl⟩ := cancelTimer_eq_some cancelled
    cases (Function.update_self ..).symm.trans after
    rw [pc] at told
    exact told.go rfl nofun (silent nofun) (unasked nofun) rfl nofun
  | expired pc set =>
    cases (Function.update_self ..).symm.trans after
    rw [pc] at told
    obtain ⟨retried, fine⟩ := told.of_going rfl nofun
    obtain ⟨same, fires⟩ := expires set
    rw [same]
    exact .timedOut (silent nofun ▸ retried) (mt (unasked nofun).mp fine) fires

variable (ep) in
/-- What a run has made of its calls. -/
structure Traced (s₀ : IoWorkers K κ) (ls : List (Act K κ)) (s : IoWorkers K κ) : Prop where
  inv : s.Inv
  timed : s.Timed
  tasks : s.Tasks fun call => Happens (Step ep) (Fires call) s₀ ls s
  unknown : ∀ call, s.calls call = none → ∀ a, .io call a ∉ ls
  told : ∀ call c, s.calls call = some c → Told call ls (Happens (Step ep) (Fires call) s₀ ls s) c.pc
  spent : ∀ call c, s.calls call = some c → c.to_ ≠ -1 → ∀ p ∈ created call ls, c.pc.timer = some p ∨
    ∃ timer, s.timers.Once p timer ∧ timer.m_cb = none

/-- A call stays the call that it is. -/
theorem Turn.before (turn : Turn ep s l t call) {c : IoCall} (atCall : s.calls call = some c) :
    ∃ d, t.calls call = some d ∧ d.to_ = c.to_ := by
  cases turn with
  | same calls => exact ⟨c, calls.trans atCall, rfl⟩
  | enter _ unused => cases unused.symm.trans atCall
  | io _ old called =>
    cases old.symm.trans atCall
    obtain ⟨⟨pc, after⟩, -⟩ := called.calls atCall
    exact ⟨_, after, rfl⟩
  | mark _ _ old now | fired _ _ old now =>
    cases old.symm.trans atCall
    exact ⟨_, now, rfl⟩

/-- A call that cancels its timer has used it up. -/
theorem Timed.cancelled (timed : s.Timed) (step : s.Step ep l t) (label : l = .io call .cancelTimer) {c : IoCall}
    (atCall : s.calls call = some c) {p : Ptr} (holds : c.pc.timer = some p) :
    ∃ timer, t.timers.Once p timer ∧ timer.m_cb = none := by
  obtain ⟨-, timer, once, -⟩ := timed.held call c p atCall holds
  cases step.clocked with
  | still _ _ none => cases (none call c label atCall).symm.trans holds
  | op causes operated =>
    subst label
    cases causes with
    | cancel atD held =>
      cases atCall.symm.trans atD
      cases holds.symm.trans held
      obtain ⟨timer', once', -⟩ := timed.wf.once_step once operated nofun
      exact ⟨timer', once', timed.wf.cancel_cb operated once'.lives⟩

theorem Traced.unknown_step (traced : Traced ep s₀ ls s) (step : s.Step ep l t) (none : t.calls call = none)
    (a : CallAct) :
    .io call a ∉ ls ++ [l] := by
  intro member
  cases before : s.calls call with
  | some c =>
    obtain ⟨d, after, -⟩ := (step.turn call).before before
    cases none.symm.trans after
  | none =>
    rcases List.mem_append.mp member with old | new
    · exact traced.unknown call before a old
    · cases List.mem_singleton.mp new
      obtain ⟨-, done⟩ := step
      simp only [act, before] at done
      cases done

/-- A call that has not begun has no outcomes yet. -/
theorem outcomes_of_unknown (silent : ∀ a, .io call a ∉ ls) : outcomes call ls = [] := by
  refine List.filterMap_eq_nil_iff.mpr fun m member => ?_
  unfold outcome
  split
  · split
    · rename_i same
      exact absurd (same ▸ member) (silent _)
    · rfl
  · rfl

theorem Traced.told_step (traced : Traced ep s₀ ls s) (step : s.Step ep l t) {c : IoCall}
    (after : t.calls call = some c) :
    Told call (ls ++ [l]) (Happens (Step ep) (Fires call) s₀ (ls ++ [l]) t) c.pc := by
  have still : Happens (Step ep) (Fires call) s₀ ls s → Happens (Step ep) (Fires call) s₀ (ls ++ [l]) t :=
    fun happens => happens.next step
  cases step.turn call with
  | same calls other =>
    exact (traced.told call c (calls ▸ after)).congr (outcomes_of_other fun _ _ => other _)
      (refused_of_other fun _ _ => other _) still
  | enter label unused fresh =>
    cases fresh.symm.trans after
    have silent := traced.unknown call unused
    have other : ∀ a, l ≠ .io call a := by
      rintro a rfl
      cases label
    refine .going rfl nofun ?_ ?_
    · rw [outcomes_of_other fun _ _ => other _, outcomes_of_unknown silent]
      exact fun o member => by cases member
    · rw [refused_of_other fun _ _ => other _]
      rintro ⟨scheduler, out, member, -⟩
      exact silent _ member
  | io label before called =>
    subst label
    refine (traced.told call _ before).called before called (fun set => ?_) after
    exact (traced.tasks.cancelled call _ before set).imp_right still
  | mark label _ before now | fired label _ before now =>
    have other : ∀ a, l ≠ .io call a := by
      rintro a rfl
      cases label
    cases now.symm.trans after
    exact (traced.told call _ before).congr (outcomes_of_other fun _ _ => other _)
      (refused_of_other fun _ _ => other _) still

theorem Traced.spent_step (traced : Traced ep s₀ ls s) (step : s.Step ep l t) {c : IoCall} {p : Ptr}
    (after : t.calls call = some c) (limited : c.to_ ≠ -1) (member : p ∈ created call (ls ++ [l])) :
    c.pc.timer = some p ∨ ∃ timer, t.timers.Once p timer ∧ timer.m_cb = none := by
  rcases mem_created_concat member with ⟨old, alive⟩ | ⟨now, rfl⟩
  · obtain ⟨d, before, same⟩ : ∃ d, s.calls call = some d ∧ d.to_ = c.to_ := by
      cases before : s.calls call with
      | some d =>
        obtain ⟨e, now, same⟩ := (step.turn call).before before
        cases now.symm.trans after
        exact ⟨d, rfl, same.symm⟩
      | none =>
        obtain ⟨now, made⟩ := made_of_created old
        exact absurd made (traced.unknown call before _)
    rcases traced.spent call d before (same ▸ limited) p old with holds | ⟨timer, once, none⟩
    · rcases (step.turn call).keeps before holds with ⟨e, now, held⟩ | label
      · cases now.symm.trans after
        exact .inl held
      · exact .inr (traced.timed.cancelled step label before holds)
    · obtain ⟨timer', once', kept | lost⟩ := traced.timed.once_step step once alive
      · exact .inr ⟨timer', once', kept.trans none⟩
      · exact .inr ⟨timer', once', lost⟩
  · cases step.turn call with
    | io label before called =>
      cases label
      cases called with
      | arm =>
        cases (Function.update_self ..).symm.trans after
        exact .inl rfl
      | unlimited _ unlimited =>
        cases (Function.update_self ..).symm.trans after
        exact absurd unlimited limited
    | same _ other => exact absurd rfl (other _)
    | enter label | mark label | fired label => cases label

theorem Traced.step (traced : Traced ep s₀ ls s) (run : Run (Step ep) s₀ ls s) (step : s.Step ep l t) :
    Traced ep s₀ (ls ++ [l]) t where
  inv := step.effect.inv traced.inv
  timed := traced.timed.step step
  tasks := (traced.tasks.mono fun _ happens => happens.next step).step traced.inv.good traced.timed step
    fun _ fires => run.happens step fires
  unknown _ none a := traced.unknown_step step none a
  told _ _ after := traced.told_step step after
  spent _ _ after limited _ member := traced.spent_step step after limited member

theorem traced_of_run {self : SchedId} {kernel : K} {now : UInt64} (run : Run (Step ep) (start self kernel now) ls s) :
    Traced ep (start self kernel now) ls s := by
  induction run with
  | start =>
    refine ⟨inv_start self kernel now, timed_start self kernel now, tasks_start self kernel now, ?_, ?_, ?_⟩
    · exact fun _ _ _ member => by cases member
    · exact fun _ _ atC => by cases atC
    · exact fun _ _ atC => by cases atC
  | next run step ih => exact ih.step run step

/-- A call whose timer has fired has a timeout. -/
theorem limited_of_happens {self : SchedId} {kernel : K} {now : UInt64}
    (fired : Happens (Step ep) (Fires call) (start self kernel now) ls s) :
    ∃ c, s.calls call = some c ∧ c.to_ ≠ -1 := by
  obtain ⟨before, l, after, u, v, -, run, step, fires, rest⟩ := fired
  have timed : u.Timed := Run.invariant (fun _ _ _ timed step => timed.step step) (timed_start self kernel now) run
  let Limited (s : IoWorkers K κ) : Prop := ∃ c, s.calls call = some c ∧ c.to_ ≠ -1
  have kept : ∀ s l t, Limited s → s.Step ep l t → Limited t := by
    rintro s l t ⟨c, atCall, limited⟩ step
    obtain ⟨d, after, same⟩ := (step.turn call).before atCall
    exact ⟨d, after, same ▸ limited⟩
  have limited : Limited s := Run.invariant kept (fires.limited timed step) (Run.cons step rest)
  exact limited

/-- When a call returns, nothing resumes its fiber. -/
theorem Attended.returns (attended : s.Attended) (step : s.Step ep l t) {c d : IoCall} (atCall : s.calls call = some c)
    (active : c.pc.active) (after : t.calls call = some d) (done : d.pc.active = false) : t.iom.Away d.fiber := by
  have away := attended.away call c atCall active
  cases step.turn call with
  | same calls =>
    cases (calls.symm.trans after).symm.trans atCall
    cases done.symm.trans active
  | enter _ unused => cases unused.symm.trans atCall
  | mark _ _ old now | fired _ _ old now =>
    cases now.symm.trans after
    cases old.symm.trans atCall
    cases done.symm.trans active
  | io _ old called =>
    cases old.symm.trans atCall
    cases called with
    | interrupted =>
      cases after.symm.trans atCall
      cases done.symm.trans active
    | done pc | expired pc =>
      cases (Function.update_self ..).symm.trans after
      exact away (by rw [pc]; rfl)
    | failed pc cancelled =>
      obtain ⟨timers, rfl⟩ := cancelTimer_eq_some cancelled
      cases (Function.update_self ..).symm.trans after
      exact away (by rw [pc]; rfl)
    | cancelled pc cancelled =>
      obtain ⟨timers, rfl⟩ := cancelTimer_eq_some cancelled
      cases (Function.update_self ..).symm.trans after
      cases done
    | blocked | arm | unlimited | added | refused | yielded | resumed | again =>
      cases (Function.update_self ..).symm.trans after
      cases done

variable (ep) in
/-- A call of `do_io` behaves as a blocking call, in the state `t` that the run `ls` from `s₀` has reached. -/
structure Blocks (s₀ : IoWorkers K κ) (ls : List (Act K κ)) (t : IoWorkers K κ) (call : CallId) (c : IoCall) :
    Prop where
  /-- The first outcome that is neither `EINTR` nor `EAGAIN` is the last, and it is returned. -/
  final : ∀ n errno, (n, errno) ∈ outcomes call ls → ¬ Retried (n, errno) → c.pc = .returned n none ∧
    ∃ before, outcomes call ls = before ++ [(n, errno)] ∧ ∀ o ∈ before, Retried o
  refused : Refused call ls → (∃ timer, c.pc = .failed timer) ∨ c.pc = .returned (-1) none
  returned : ∀ n, c.pc = .returned n none →
    (∃ errno, (n, errno) ∈ outcomes call ls ∧ ¬ Retried (n, errno)) ∨ n = -1 ∧ Refused call ls
  timedOut : ∀ n errno, c.pc = .returned n (some errno) →
    n = -1 ∧ errno = ETIMEDOUT ∧ c.to_ ≠ -1 ∧ Happens (Step ep) (Fires call) s₀ ls t
  timers : c.pc.active = false → c.to_ ≠ -1 → ∀ p ∈ created call ls, p ∉ t.timers.m_timers
  /-- On its return its event is not registered for its fiber, nor is any other. -/
  event : ∀ l u d, t.Step ep l u → c.pc.active → u.calls call = some d → d.pc.active = false → u.iom.Away d.fiber
  /-- It does not get stuck: it can always go on, unless it waits and its event is still registered. -/
  goesOn : t.Ready ep call c
  /-- Every step leaves it where it is or brings it closer to its next underlying call or its return, which
  is at most six steps of its own away. -/
  closer : ∀ l u d, t.Step ep l u → u.calls call = some d →
    d.pc = c.pc ∨ (∃ n errno, l = .io call (.call n errno)) ∨ d.pc.rank < c.pc.rank

/-- Every call that waits has its event registered, or it has been woken. -/
theorem woken_of_run {self : SchedId} {kernel : K} {now : UInt64}
    (run : Run (Guarded (Step ep) Sole) (start self kernel now) ls s) : s.Woken := by
  induction run with
  | start => exact woken_start self kernel now
  | next run step ih =>
    have traced := traced_of_run (run.mono fun _ _ _ => And.left)
    exact ih.step traced.inv traced.tasks step

/-- With a single worker, for which `YieldToHold` is one step, every call of `do_io` behaves as a blocking
call, whatever the underlying calls return and whenever and however the waits end. -/
theorem do_io_blocks (self : SchedId) (kernel : K) (now : UInt64) {ls : List (Act K κ)} {t : IoWorkers K κ}
    {call : CallId} {c : IoCall} (run : Run (Guarded (Step ep) Sole) (start self kernel now) ls t)
    (atCall : t.calls call = some c) : Blocks ep (start self kernel now) ls t call c := by
  have attended : t.Attended := Run.invariant (fun _ _ _ => Attended.step) (attended_start self kernel now) run
  have traced := traced_of_run (run.mono fun _ _ _ => And.left)
  have told := traced.told call c atCall
  refine ⟨fun n errno => told.of_last, told.of_refused, ?_, ?_, ?_, ?_, ?_, ?_⟩
  · intro n returned
    rw [returned] at told
    exact told.of_returned
  · intro n errno returned
    rw [returned] at told
    obtain ⟨minus, same, fired⟩ := told.of_timedOut
    obtain ⟨d, atD, limited⟩ := limited_of_happens fired
    cases atCall.symm.trans atD
    exact ⟨minus, same, limited, fired⟩
  · intro done limited p made
    rcases traced.spent call c atCall limited p made with holds | ⟨timer, once, none⟩
    · cases (IoPc.timer_of_done done).symm.trans holds
    · exact once.spent none
  · exact fun l u d step active after done => attended.returns step atCall active after done
  · exact (woken_of_run run).ready traced.inv traced.timed atCall
  · exact fun l u d step after => step.closer atCall after

/-- The fiber 7 reads from the descriptor 3 with a timeout of 5. It waits until the event is reported, and
then reads 4 bytes. -/
def reads : List (Act (Nat → Option Mask) Unit) :=
  [.enter 0 3 .READ 5 7, .io 0 (.call (-1) EINTR), .io 0 (.call (-1) EAGAIN), .io 0 (.addConditionTimer 1 10),
   .io 0 (.addEvent (some 5) ⟨true, some 0⟩), .io 0 .YieldToHold, .event (.report 3 Event.READ.bits) ⟨true, some 0⟩,
   .io 0 (.resume 5 0), .io 0 .cancelTimer, .io 0 .check, .io 0 (.call 4 EAGAIN)]

theorem do_io_blocks_reads : ∃ t : IoWorkers (Nat → Option Mask) Unit,
    ∃ c, t.calls 0 = some c ∧ c.pc = .returned 4 none ∧
      Blocks interestList (start 5 (fun _ => none) 10) reads t 0 c := by
  have run : ∃ t : IoWorkers (Nat → Option Mask) Unit,
      Run (Guarded (Step interestList) Sole) (start 5 (fun _ => none) 10) reads t ∧
      t.calls 0 = some ⟨3, .READ, 5, 7, .returned 4 none, 0, false⟩ := by
    refine ⟨_, .cons ⟨⟨⟨rfl, ?_⟩, rfl⟩, away_start ..⟩ <| .cons ⟨⟨trivial, rfl⟩, trivial⟩ <|
      .cons ⟨⟨trivial, rfl⟩, trivial⟩ <| .cons ⟨⟨⟨by decide, rfl⟩, rfl⟩, trivial⟩ <|
      .cons ⟨⟨trivial, rfl⟩, trivial⟩ <| .cons ⟨⟨trivial, rfl⟩, trivial⟩ <| .cons ⟨⟨trivial, rfl⟩, trivial⟩ <|
      .cons ⟨⟨trivial, rfl⟩, trivial⟩ <| .cons ⟨⟨trivial, rfl⟩, trivial⟩ <| .cons ⟨⟨trivial, rfl⟩, trivial⟩ <|
      .cons ⟨⟨trivial, rfl⟩, trivial⟩ .start, rfl⟩
    rintro ⟨_, _, atC, -⟩
    cases atC
  obtain ⟨t, steps, atCall⟩ := run
  exact ⟨t, _, atCall, rfl, do_io_blocks 5 (fun _ => none) 10 steps atCall⟩

/-- The system call itself fails with `ETIMEDOUT`, as that of a connection whose peer has gone silent does,
on a descriptor without a timeout. -/
def silent : List (Act (Nat → Option Mask) Unit) := [.enter 0 3 .READ (-1) 7, .io 0 (.call (-1) ETIMEDOUT)]

/-- `do_io` returns -1 with `ETIMEDOUT` though there is no timeout and no timer was ever made. -/
theorem not_timedOut_only : ∃ t : IoWorkers (Nat → Option Mask) Unit,
    Run (Guarded (Step interestList) Sole) (start 5 (fun _ => none) 10) silent t ∧
    t.calls 0 = some ⟨3, .READ, -1, 7, .returned (-1) none, 0, false⟩ ∧
    outcomes 0 silent = [(-1, ETIMEDOUT)] ∧ created 0 silent = [] ∧ t.timers.heap = fun _ => none := by
  refine ⟨_, .cons ⟨⟨⟨rfl, ?_⟩, rfl⟩, away_start ..⟩ <| .cons ⟨⟨trivial, rfl⟩, trivial⟩ .start, rfl, rfl, rfl, rfl⟩
  rintro ⟨_, _, atC, -⟩
  cases atC

end IoWorkers
end Sylar
