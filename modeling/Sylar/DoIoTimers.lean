import Sylar.DoIoCalls
import Sylar.TimerOnce

/-! The timers that the calls of `do_io` make. A call makes one for each wait and cancels it itself, so
none is in the set that the call does not hold. -/

namespace Sylar
open Machine

variable {K κ : Type}

namespace IoWorkers

/-- What `addConditionTimer` makes of the lambda of a call. -/
def lambda (call : CallId) : Callback (IoTask κ) CallId := .onTimer call (some (.timeout call))

/-- The operation on the timers that a step makes. -/
inductive Causes (s : IoWorkers K κ) : Act K κ → TimerOp (IoTask κ) CallId → Prop
  | arm {call c timer now} : s.calls call = some c → c.pc = .arm → c.to_ ≠ -1 →
      Causes s (.io call (.addConditionTimer timer now))
        (.addConditionTimer timer c.to_ (some (.timeout call)) call false now)
  | cancel {call c timer} : s.calls call = some c → c.pc.timer = some timer →
      Causes s (.io call .cancelTimer) (.cancel timer)
  | expire {now_ms now_timer} : Causes s (.listExpiredCb now_ms now_timer) (.listExpiredCb now_ms now_timer)
  | other {op} : s.Others op → Causes s (.timer op) op

/-- What a step does to the timers. -/
inductive Clocked (s : IoWorkers K κ) (l : Act K κ) (t : IoWorkers K κ) : Prop
  | still : t.timers.m_timers = s.timers.m_timers → t.timers.heap = s.timers.heap →
      (∀ call c, l = .io call .cancelTimer → s.calls call = some c → c.pc.timer = none) → Clocked s l t
  | op {op out} : s.Causes l op → s.timers.Step (op, out) t.timers → Clocked s l t

variable {ep : Epoll K} {s t : IoWorkers K κ} {l : Act K κ} {call : CallId} {c : IoCall} {p : Ptr}

theorem timeout_timers (weak_cond winfo : CallId) : (s.timeout weak_cond winfo).timers = s.timers := by
  unfold timeout
  split
  · rfl
  split
  · rfl
  split <;> rfl

theorem cancelTimer_clocked {timer : Option Ptr} {u : IoWorkers K κ} (atCall : s.calls call = some c)
    (holds : c.pc.timer = timer) (done : s.cancelTimer timer = some u) (same : t.timers = u.timers) :
    s.Clocked (.io call .cancelTimer) t := by
  unfold cancelTimer at done
  split at done
  · cases done
    refine .still (congrArg _ same) (congrArg _ same) ?_
    rintro _ d ⟨⟩ atD
    cases atCall.symm.trans atD
    exact holds
  · rename_i p
    split at done
    · rename_i ret timers cancelled
      cases done
      have causes : s.Causes (.io call .cancelTimer) (.cancel p) := .cancel atCall holds
      suffices operated : s.timers.Step (.cancel p, { ret := ret }) t.timers from .op causes operated
      constructor
      · obtain ⟨timer, found, -⟩ := bind_eq_ok.mp cancelled
        cases lives : s.timers.heap p with
        | none => simp [TimerManager.deref, lives] at found
        | some timer => exact Option.isSome_iff_exists.mpr ⟨timer, lives⟩
      · simp only [TimerManager.exec, cancelled, ok_bind, same]
        rfl
    · cases done

theorem Step.clocked (step : s.Step ep l t) : s.Clocked l t := by
  obtain ⟨enabled, done⟩ := step
  cases l with
  | io call a =>
    obtain ⟨c, atCall, done⟩ := Option.bind_eq_some_iff.mp done
    cases ioAct_called done with
    | arm pc limited => exact .op (.arm atCall pc limited) ⟨enabled, rfl⟩
    | failed pc cancelled | cancelled pc cancelled =>
      exact cancelTimer_clocked atCall (by rw [pc]; rfl) cancelled rfl
    | _ => exact .still rfl rfl fun _ _ label => by cases label
  | listExpiredCb now_ms now_timer =>
    simp only [act] at done
    split at done
    · rename_i cbs expired timers locked
      cases done
      rcases TimerManager.locked_cases enabled locked with ⟨-, members, heap⟩ | step
      · exact .still members heap fun _ _ label => by cases label
      · exact .op .expire step
    · cases done
  | timeout scheduler i =>
    simp only [act] at done
    split at done <;> cases done
    have timers := (s.take scheduler i).timeout_timers
    exact .still (congrArg _ (timers _ _)) (congrArg _ (timers _ _)) fun _ _ label => by cases label
  | setCancelled j =>
    obtain ⟨_, _, -, -, rfl⟩ := setCancelled_eq_some done
    exact .still rfl rfl fun _ _ label => by cases label
  | cancelEvent j out =>
    obtain ⟨_, _, _, -, -, -, rfl⟩ := cancelEvent_eq_some done
    exact .still rfl rfl fun _ _ label => by cases label
  | event op out =>
    obtain ⟨iom, executed, rfl⟩ := event_eq_some done
    exact .still rfl rfl fun _ _ label => by cases label
  | timer op =>
    simp only [act] at done
    split at done
    · rename_i out timers executed
      cases done
      exact .op (.other enabled.2) ⟨enabled.1, executed⟩
    · cases done
  | enter | schedule | run | kernel =>
    cases done
    exact .still rfl rfl fun _ _ label => by cases label

/-- The function of a call is in the timer that the call holds, and a timer that a call holds does not
recur and is in the set only with that function. -/
structure Timed (s : IoWorkers K κ) : Prop where
  wf : s.timers.Wf
  lambdas : ∀ p timer f, s.timers.heap p = some timer → timer.m_cb = some f → f.foreign = false →
    ∃ call c, f = lambda call ∧ s.calls call = some c ∧ c.pc.timer = some p
  held : ∀ call c p, s.calls call = some c → c.pc.timer = some p → c.to_ ≠ -1 ∧
    ∃ timer, s.timers.Once p timer ∧ (timer.m_cb = some (lambda call) ∨ timer.m_cb = none)

/-- A call that holds a timer after a step held it before, or it has made it. -/
theorem Turn.holds (turn : Turn ep s l t call) (after : t.calls call = some c) (holds : c.pc.timer = some p) :
    (∃ d, s.calls call = some d ∧ d.pc.timer = some p ∧ d.to_ = c.to_) ∨
      ∃ now, s.calls call = some { c with pc := .arm } ∧ c.to_ ≠ -1 ∧
        t.timers = (s.timers.addConditionTimer p c.to_ (some (.timeout call)) call false now).2 := by
  cases turn with
  | same calls => exact .inl ⟨c, calls ▸ after, holds, rfl⟩
  | enter _ _ fresh =>
    cases fresh.symm.trans after
    cases holds
  | mark _ _ old now | fired _ _ old now =>
    cases now.symm.trans after
    exact .inl ⟨_, old, holds, rfl⟩
  | @io a d label old called =>
    cases called with
    | interrupted => exact .inl ⟨c, after, holds, rfl⟩
    | failed _ cancelled | cancelled _ cancelled =>
      obtain ⟨timers, rfl⟩ := cancelTimer_eq_some cancelled
      cases (Function.update_self ..).symm.trans after
      cases holds
    | blocked | done | unlimited | expired | again =>
      cases (Function.update_self ..).symm.trans after
      cases holds
    | arm pc limited =>
      cases (Function.update_self ..).symm.trans after
      cases holds
      exact .inr ⟨_, by rw [old, ← pc], limited, rfl⟩
    | added pc | refused pc | yielded pc | resumed pc =>
      cases (Function.update_self ..).symm.trans after
      exact .inl ⟨d, old, by rw [pc]; exact holds, rfl⟩

/-- A call keeps its timer until it cancels it. -/
theorem Turn.keeps (turn : Turn ep s l t call) (before : s.calls call = some c) (holds : c.pc.timer = some p) :
    (∃ d, t.calls call = some d ∧ d.pc.timer = some p) ∨ l = .io call .cancelTimer := by
  cases turn with
  | same calls => exact .inl ⟨c, calls.trans before, holds⟩
  | enter _ unused => cases unused.symm.trans before
  | mark _ _ old now | fired _ _ old now =>
    cases old.symm.trans before
    exact .inl ⟨_, now, holds⟩
  | @io a d label old called =>
    cases old.symm.trans before
    cases called with
    | interrupted => exact .inl ⟨c, before, holds⟩
    | failed | cancelled => exact .inr label
    | blocked pc | done pc | unlimited pc | arm pc | expired pc | again pc =>
      rw [pc] at holds
      cases holds
    | added pc | refused pc | yielded pc | resumed pc =>
      rw [pc] at holds
      exact .inl ⟨_, Function.update_self .., holds⟩

/-- A timer of a call keeps its function or loses it, unless it is destroyed. -/
theorem Timed.once_step (timed : s.Timed) (step : s.Step ep l t) {timer : Timer (IoTask κ) CallId}
    (once : s.timers.Once p timer) (alive : l ≠ .timer (.destroy p)) :
    ∃ timer', t.timers.Once p timer' ∧ (timer'.m_cb = timer.m_cb ∨ timer'.m_cb = none) := by
  cases step.clocked with
  | still members heap => exact ⟨timer, once.congr (congrFun heap p) (fun member => members ▸ member), .inl rfl⟩
  | op causes operated =>
    refine timed.wf.once_step once operated ?_
    rintro rfl
    cases causes with
    | other => exact alive rfl

theorem Timed.wf_step (timed : s.Timed) (step : s.Step ep l t) : t.timers.Wf := by
  cases step.clocked with
  | still members heap =>
    have wf := timed.wf
    exact ⟨by rw [members, heap]; exact wf.sorted, members ▸ wf.nonnull, by rw [members, heap]; exact wf.live,
      by rw [members, heap]; exact wf.armed⟩
  | op _ step => exact timed.wf.step step

/-- The function of a call comes into a timer only when the call makes it. -/
theorem Causes.makes {op : TimerOp (IoTask κ) CallId} (causes : s.Causes l op) (step : s.Step ep l t)
    {f : Callback (IoTask κ) CallId} (makes : TimerManager.Makes p f op) (own : f.foreign = false) :
    ∃ call c, f = lambda call ∧ t.calls call = some c ∧ c.pc.timer = some p := by
  cases causes with
  | @arm call c _ now atCall pc limited =>
    cases makes with
    | addConditionTimer same =>
      cases step.turn call with
      | io label atD called =>
        cases label
        cases atCall.symm.trans atD
        cases called with
        | arm => exact ⟨call, _, same, Function.update_self .., rfl⟩
        | unlimited _ unlimited => exact absurd unlimited limited
      | same _ other => exact absurd rfl (other _)
      | enter label | mark label | fired label => cases label
  | cancel | expire => cases makes
  | other others =>
    cases makes with
    | addTimer =>
      have foreign := others f rfl
      rw [own] at foreign
      cases foreign
    | addConditionTimer same =>
      have foreign : Callback.foreign _ = true := others
      rw [← same, own] at foreign
      cases foreign

theorem Timed.lambdas_step (timed : s.Timed) (step : s.Step ep l t) {timer : Timer (IoTask κ) CallId}
    {f : Callback (IoTask κ) CallId} (lives : t.timers.heap p = some timer) (armed : timer.m_cb = some f)
    (own : f.foreign = false) : ∃ call c, f = lambda call ∧ t.calls call = some c ∧ c.pc.timer = some p := by
  have kept : ∀ before, s.timers.heap p = some before → before.m_cb = some f →
      (∀ call c, l = .io call .cancelTimer → s.calls call = some c → c.pc.timer ≠ some p) →
      ∃ call c, f = lambda call ∧ t.calls call = some c ∧ c.pc.timer = some p := by
    intro before old armed other
    obtain ⟨call, c, rfl, atCall, holds⟩ := timed.lambdas p before f old armed own
    rcases (step.turn call).keeps atCall holds with ⟨d, after, still⟩ | label
    · exact ⟨call, d, rfl, after, still⟩
    · exact absurd holds (other call c label atCall)
  cases step.clocked with
  | still _ heap none =>
    refine kept timer (heap ▸ lives) armed fun call c label atCall holds => ?_
    cases (none call c label atCall).symm.trans holds
  | @op op out causes operated =>
    rcases timed.wf.cb_before operated lives armed with ⟨before, old, same⟩ | makes
    · refine kept before old same ?_
      rintro call c rfl atCall holds
      cases causes with
      | cancel atD held =>
        cases atCall.symm.trans atD
        cases holds.symm.trans held
        cases (timed.wf.cancel_cb operated lives).symm.trans armed
    · exact causes.makes step makes own

theorem Timed.held_step (timed : s.Timed) (step : s.Step ep l t) (after : t.calls call = some c)
    (holds : c.pc.timer = some p) : c.to_ ≠ -1 ∧
      ∃ timer, t.timers.Once p timer ∧ (timer.m_cb = some (lambda call) ∨ timer.m_cb = none) := by
  rcases (step.turn call).holds after holds with ⟨d, before, held, same⟩ | ⟨now, before, limited, timers⟩
  · obtain ⟨limited, timer, once, armed⟩ := timed.held call d p before held
    have alive : l ≠ .timer (.destroy p) := by
      rintro rfl
      exact step.1.2 ⟨call, d, before, held⟩
    obtain ⟨timer', after, kept | lost⟩ := timed.once_step step once alive
    · exact ⟨same ▸ limited, timer', after, kept ▸ armed⟩
    · exact ⟨same ▸ limited, timer', after, .inr lost⟩
  · have lives : t.timers.heap p =
        some { m_recurring := false, m_ms := c.to_, m_next := now + c.to_, m_cb := some (lambda call) } := by
      rw [timers]
      exact Function.update_self ..
    exact ⟨limited, _, ⟨lives, rfl, nofun⟩, .inl rfl⟩

theorem Timed.step (timed : s.Timed) (step : s.Step ep l t) : t.Timed where
  wf := timed.wf_step step
  lambdas _ _ _ lives armed own := timed.lambdas_step step lives armed own
  held _ _ _ after holds := timed.held_step step after holds

end IoWorkers
end Sylar
