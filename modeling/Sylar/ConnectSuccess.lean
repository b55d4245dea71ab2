import Sylar.Connect

/-! When a call of `connect_with_timeout` that reports success has connected. -/

namespace Sylar
open Machine

variable {K κ : Type}

section Waits
variable {ep : Epoll K} {workers after : IoWorkers K κ} {call : CallId} {w d : IoCall}

namespace IoWorkers

/-- A step that is not one of the call leaves its wait where it is, and `cancelled` set. -/
theorem Turn.kept {l : Act K κ} (turn : Turn ep workers l after call) (other : ∀ a, l ≠ .io call a)
    (atCall : workers.calls call = some w) :
    ∃ d, after.calls call = some d ∧ d.pc = w.pc ∧ (w.cancelled = ETIMEDOUT → d.cancelled = ETIMEDOUT) := by
  cases turn with
  | same calls => exact ⟨w, calls.trans atCall, rfl, id⟩
  | enter _ unused => cases unused.symm.trans atCall
  | io label => exact absurd label (other _)
  | mark _ _ old now =>
    cases old.symm.trans atCall
    exact ⟨_, now, rfl, fun _ => rfl⟩
  | fired _ _ old now =>
    cases old.symm.trans atCall
    exact ⟨_, now, rfl, id⟩

/-- A step of the others leaves what the call waits for as it is. -/
theorem Turn.awaited {l : Act K κ} (turn : Turn ep workers l after call) (foreign : l.caller ≠ some call)
    (now : after.calls call = some d) :
    ∃ w, workers.calls call = some w ∧ d.pc = w.pc ∧ d.fiber = w.fiber ∧ d.fd = w.fd ∧ d.event = w.event := by
  cases turn with
  | same calls => exact ⟨d, calls ▸ now, rfl, rfl, rfl, rfl⟩
  | enter label | io label =>
    subst label
    exact absurd rfl foreign
  | mark _ _ old fresh | fired _ _ old fresh =>
    cases fresh.symm.trans now
    exact ⟨_, old, rfl, rfl, rfl, rfl⟩

theorem registered_iff : workers.registered w = true ↔ workers.Registered w := by
  unfold registered Registered
  split
  · rename_i owner f lies
    rw [lies]
    simp only [decide_eq_true_eq, Option.some.injEq, Registration.mk.injEq, Continuation.fiber.injEq, exists_and_right,
      exists_eq', true_and]
  · rename_i other
    exact iff_of_false (fun found => by cases found) fun ⟨owner, lies⟩ => other owner w.fiber lies

/-- The event of a call stays registered unless an operation that succeeds ends the registration, which
may be the `cancelEvent` of a timeout callback. -/
theorem Step.registered_after {l : Act K κ} (good : workers.iom.Good) (step : workers.Step ep l after)
    (registered : workers.Registered w) : after.Registered w ∨
      (∃ op out, l = .event op out ∧ out.success ∧ op.Removes (w.fd, w.event)) ∨
      ∃ j out winfo c, l = .cancelEvent j out ∧ out.success ∧ workers.running[j]? = some (winfo, .set) ∧
        workers.calls winfo = some c ∧ c.fd = w.fd ∧ c.event = w.event := by
  have same : workers.SameTable after → after.Registered w := fun table => (table.registered w).mpr registered
  obtain ⟨owner, lay⟩ := registered
  have board : workers.iom.board (w.fd, w.event) = some ⟨owner, .fiber w.fiber⟩ := lay
  have made : ∀ op out iom, workers.iom.Step ep (op, out) iom →
      (∃ owner, (iom.regs w.fd).get w.event = some ⟨owner, .fiber w.fiber⟩) ∨
        out.success ∧ op.Removes (w.fd, w.event) :=
    fun op out iom executed => (good.registered_after executed board).imp_left fun lies => ⟨owner, lies⟩
  cases step.effect with
  | quiet _ table | move _ _ _ _ table => exact .inl (same table)
  | enter | mark => exact .inl ⟨owner, lay⟩
  | register _ _ executed => exact .inl ((made _ _ _ executed).resolve_right And.right)
  | cancel set atC executed =>
    refine (made _ _ _ executed).imp_right fun ⟨success, removes⟩ => .inr ⟨_, _, _, _, rfl, success, set, atC, ?_⟩
    exact Prod.ext_iff.mp removes
  | event executed => exact (made _ _ _ executed).imp_right fun ended => .inl ⟨_, _, rfl, ended⟩

/-- Its own timeout callback ends the wait of a call only after it has set `cancelled`. -/
theorem cancelled_of_taker (inv : workers.Inv) {l : Act K κ} (timeout : workers.taker call l = .timeout)
    (atCall : workers.calls call = some w) : w.cancelled = ETIMEDOUT := by
  unfold taker at timeout
  split at timeout
  · cases timeout
  · split at timeout
    · rename_i set
      exact inv.set call w atCall (List.mem_of_getElem? set)
    · cases timeout
  · cases timeout

end IoWorkers

namespace Connect
open IoWorkers (CallAct ETIMEDOUT Called cancelTimer_eq_some)

variable {c : Connect}

/-- What is recorded of a call at each position of its wait. -/
def Waits (c : Connect) (w : IoCall) : Prop :=
  match w.pc with
  | .arm | .addEvent _ => c.waker = none
  | .failed _ => c.added = some false
  | .yield _ | .suspended _ =>
    c.added = some true ∧ (c.waker = some .timeout → w.cancelled = ETIMEDOUT)
  | .resumed _ | .check =>
    c.added = some true ∧ c.waker.isSome ∧ (c.waker = some .timeout → w.cancelled = ETIMEDOUT)
  | _ => False

theorem Waits.active (waits : c.Waits w) : w.pc.active := by
  cases pc : w.pc with
  | returned =>
    rw [Waits, pc] at waits
    cases waits
  | _ => rfl

/-- The first to end the wait is recorded. -/
theorem waker_of_woken {first waker : Waker} (recorded : (c.woken waker).waker = some first) :
    c.waker = some first ∨ waker = first := by
  cases before : c.waker with
  | none =>
    simp only [woken, before, Option.none_or, Option.some.injEq] at recorded
    exact .inr recorded
  | some first =>
    simp only [woken, before, Option.some_or] at recorded
    exact .inl recorded

theorem woken_isSome (waker : Waker) : (c.woken waker).waker.isSome := by
  simp [woken]

theorem woken_of_told (told : c.waker ≠ none) (waker : Waker) : c.woken waker = c := by
  obtain ⟨first, recorded⟩ := Option.ne_none_iff_exists'.mp told
  simp only [woken, recorded, Option.some_or]
  exact congrArg (fun waker => { c with waker := waker }) recorded.symm

/-- The wait stays where it is, and `cancelled` stays set. -/
theorem Waits.congr (waits : c.Waits w) (pc : d.pc = w.pc)
    (cancelled : w.cancelled = ETIMEDOUT → d.cancelled = ETIMEDOUT) : c.Waits d := by
  unfold Waits at waits ⊢
  rw [pc]
  cases position : w.pc with
  | arm | addEvent | failed =>
    rw [position] at waits
    exact waits
  | yield | suspended =>
    rw [position] at waits
    exact ⟨waits.1, fun timeout => cancelled (waits.2 timeout)⟩
  | resumed | check =>
    rw [position] at waits
    exact ⟨waits.1, waits.2.1, fun timeout => cancelled (waits.2.2 timeout)⟩
  | retry | returned =>
    rw [position] at waits
    cases waits

/-- Somebody ends the wait: its own timeout callback only after it has set `cancelled`. -/
theorem Waits.woken (waits : c.Waits w) (ends : w.pc.waits) {waker : Waker}
    (timeout : waker = .timeout → w.cancelled = ETIMEDOUT) : (c.woken waker).Waits w := by
  unfold Waits at waits ⊢
  cases position : w.pc with
  | yield | suspended =>
    rw [position] at waits
    exact ⟨waits.1, fun told => (waker_of_woken told).elim waits.2 timeout⟩
  | retry | arm | addEvent | failed | resumed | check | returned =>
    rw [position] at ends
    cases ends

/-- A step of the wait. -/
theorem Waits.called {a : CallAct} (waits : c.Waits w) (called : Called ep workers call w a after)
    (unfailed : ∀ timer, w.pc = .failed timer → a ≠ .cancelTimer) (unchecked : w.pc = .check → a ≠ .check) :
    ∃ d, after.calls call = some d ∧ (c.record a).Waits d := by
  unfold Waits at waits
  cases called with
  | interrupted pc | blocked pc | done pc =>
    rw [pc] at waits
    cases waits
  | arm pc | unlimited pc =>
    rw [pc] at waits
    exact ⟨_, Function.update_self .., waits⟩
  | added pc _ success =>
    rw [pc] at waits
    refine ⟨_, Function.update_self .., congrArg some success, fun timeout => ?_⟩
    cases (show c.waker = none from waits).symm.trans timeout
  | refused pc _ failure => exact ⟨_, Function.update_self .., congrArg some failure⟩
  | failed pc => exact absurd rfl (unfailed _ pc)
  | yielded pc =>
    rw [pc] at waits
    exact ⟨_, Function.update_self .., waits⟩
  | resumed pc =>
    rw [pc] at waits
    refine ⟨_, Function.update_self .., waits.1, woken_isSome _, fun timeout => ?_⟩
    exact (waker_of_woken timeout).elim waits.2 nofun
  | cancelled pc cancelled =>
    rw [pc] at waits
    obtain ⟨timers, rfl⟩ := cancelTimer_eq_some cancelled
    exact ⟨_, Function.update_self .., waits⟩
  | expired pc | again pc => exact absurd rfl (unchecked pc)

theorem Genuine.woken {waker : Waker} (genuine : c.Genuine) : (c.woken waker).Genuine := by
  rcases genuine with connected | ⟨connected, added, event, error⟩
  · exact .inl connected
  · refine .inr ⟨connected, added, ?_, error⟩
    rw [Connect.woken, event]
    rfl

end Connect

end Waits

namespace Connects
open IoWorkers (Act CallAct Called ioAct_called cancelTimer_eq_some cancelled_of_taker)

/-- A call that has returned 0 has connected. -/
def Honest (s : Connects K κ) : Prop :=
  ∀ call c errno, s.connects call = some c → c.pc = .returned 0 errno → c.Genuine

/-- A wake-up of its fiber would end the wait of the call, now or once it has begun. -/
def Exposed (s : Connects K κ) (w : IoCall) : Prop :=
  match w.pc with
  | .arm | .addEvent _ => True
  | .yield _ | .suspended _ => s.workers.registered w
  | _ => False

/-- The step schedules the fiber of the call, or it ends the wait, not for its event nor for its timeout. -/
def Disturbs (s : Connects K κ) (call : CallId) (w : IoCall) : Act K κ → Prop
  | .schedule _ ft => ft.fiber = some w.fiber
  | .event op out => w.pc.waits ∧ out.success ∧ op.Removes (w.fd, w.event) ∧ ∀ fd events, op ≠ .report fd events
  | .cancelEvent j out => w.pc.waits ∧ out.success ∧ ∃ winfo c, s.workers.running[j]? = some (winfo, .set) ∧
      winfo ≠ call ∧ s.workers.calls winfo = some c ∧ c.fd = w.fd ∧ c.event = w.event
  | _ => False

variable (ep : Epoll K) in
/-- Nothing is on its way to the fiber when a call begins to wait, `epoll_ctl` accepts its event, and others
leave it alone until it is woken. -/
def Undisturbed (s : Connects K κ) (l : ConnectAct K κ) (_ : Connects K κ) : Prop :=
  match l with
  | .connect _ _ _ fiber t_hook_enable ctx n errno =>
    connect_with_timeout t_hook_enable ctx n errno = none → s.workers.iom.Away fiber
  | .wait call (.addEvent _ _) => ∀ w, s.workers.calls call = some w → s.workers.iom.Accepts ep w.fd w.event
  | .other l => ∀ call c w, s.connects call = some c → s.workers.calls call = some w → s.Exposed w →
      ¬ s.Disturbs call w l
  | _ => True

/-- The call has returned, or its connection is in progress. -/
inductive Placed (s : Connects K κ) (call : CallId) (c : Connect) : Prop
  | returned {n errno} : c.pc = .returned n errno → Placed s call c
  | waiting {w} : c.pc = .waiting → c.connected = (-1, EINPROGRESS) → s.workers.calls call = some w → c.Waits w →
      Placed s call c
  | reads {w} : c.pc = .getsockopt → c.connected = (-1, EINPROGRESS) → s.workers.calls call = some w →
      w.pc = .check → (c.added = some false ∨ c.added = some true ∧ (c.waker = some .event ∨ c.waker = some .other)) →
      Placed s call c

structure Inv (s : Connects K κ) : Prop where
  workers : s.workers.Inv
  placed : ∀ call c, s.connects call = some c → s.Placed call c

variable (ep : Epoll K)

/-- The steps one by one. -/
inductive Effect (s : Connects K κ) : ConnectAct K κ → Connects K κ → Prop
  | returns {call fd timeout_ms fiber t_hook_enable ctx n errno m} :
      connect_with_timeout t_hook_enable ctx n errno = some m → s.workers.calls call = none →
      Effect s (.connect call fd timeout_ms fiber t_hook_enable ctx n errno)
        (s.setConnect call { connected := (n, errno), pc := .returned m none })
  | begins {call fd timeout_ms fiber t_hook_enable ctx n errno} :
      connect_with_timeout t_hook_enable ctx n errno = none → s.workers.calls call = none →
      ¬ s.workers.InDoIo fiber →
      Effect s (.connect call fd timeout_ms fiber t_hook_enable ctx n errno)
        { s.setConnect call { connected := (n, errno) } with
          workers := s.workers.setCall call
            { fd := fd, event := .WRITE, to_ := timeout_ms, fiber := fiber, pc := .arm } }
  | waits {call c w a workers} : s.connects call = some c → s.workers.calls call = some w → c.pc = .waiting →
      (∀ timer, w.pc = .failed timer → a ≠ .cancelTimer) → (w.pc = .check → a ≠ .check) →
      s.workers.Step ep (.io call a) workers →
      Called ep s.workers call w a workers →
      Effect s (.wait call a) { s.setConnect call (c.record a) with workers := workers }
  | refused {call c w timer workers} : s.connects call = some c → s.workers.calls call = some w →
      c.pc = .waiting → w.pc = .failed timer → s.workers.cancelTimer timer = some workers →
      Effect s (.wait call .cancelTimer)
        { s.setConnect call { c with pc := .getsockopt } with workers := workers.goto call w .check }
  | expired {call c w} : s.connects call = some c → s.workers.calls call = some w → c.pc = .waiting →
      w.pc = .check → w.cancelled ≠ 0 →
      Effect s (.wait call .check) (s.finish call c w (-1) (some w.cancelled))
  | woken {call c w} : s.connects call = some c → s.workers.calls call = some w → c.pc = .waiting →
      w.pc = .check → w.cancelled = 0 →
      Effect s (.wait call .check) (s.setConnect call { c with pc := .getsockopt })
  | fails {call c w n error d errno} : s.connects call = some c → s.workers.calls call = some w →
      c.pc = .getsockopt → ¬ (n ≠ -1 ∧ error = 0) →
      Effect s (.getsockopt call n error) (s.finish call d w (-1) errno)
  | connects {call c w n} : s.connects call = some c → s.workers.calls call = some w → c.pc = .getsockopt →
      n ≠ -1 → Effect s (.getsockopt call n 0) (s.finish call { c with error := some 0 } w 0 none)
  | other {l workers} : s.workers.Step ep l workers → (∀ call, l.caller = some call → s.connects call = none) →
      Effect s (.other l) { workers := workers, connects := s.watch l workers }

variable {ep} {s t : Connects K κ}

theorem Step.effect {l : ConnectAct K κ} (step : s.Step ep l t) : Effect ep s l t := by
  obtain ⟨enabled, done⟩ := step
  cases l with
  | connect call fd timeout_ms fiber t_hook_enable ctx n errno =>
    simp only [act] at done
    split at done
    · rename_i returns
      cases done
      exact .returns returns enabled.2.1
    · rename_i begins
      cases done
      exact .begins begins enabled.2.1 enabled.2.2
  | wait call a =>
    simp only [act] at done
    split at done
    · rename_i c w atConnect atCall
      split at done
      · rename_i waiting
        unfold waitAct at done
        split at done
        · rename_i timer pc
          obtain ⟨workers, cancelled, rfl⟩ := Option.map_eq_some_iff.mp done
          exact .refused atConnect atCall waiting pc cancelled
        · rename_i pc
          split at done
          · rename_i set
            cases done
            exact .expired atConnect atCall waiting pc set
          · rename_i fresh
            cases done
            exact .woken atConnect atCall waiting pc (Decidable.not_not.mp fresh)
        · rename_i a _ _ unfailed unchecked
          obtain ⟨workers, waited, rfl⟩ := Option.map_eq_some_iff.mp done
          have made : s.workers.Step ep (.io call a) workers := by
            refine ⟨enabled, ?_⟩
            simp only [IoWorkers.act, atCall, Option.bind_some]
            exact waited
          exact .waits atConnect atCall waiting unfailed unchecked made (ioAct_called waited)
      · cases done
    · cases done
  | getsockopt call n error =>
    simp only [act] at done
    split at done
    · rename_i c w atConnect atCall
      split at done
      · rename_i pc
        split at done
        · rename_i minus
          cases done
          exact .fails atConnect atCall pc fun read => read.1 minus
        rename_i read
        split at done
        · rename_i zero
          subst zero
          cases done
          exact .connects atConnect atCall pc read
        · rename_i set
          cases done
          exact .fails atConnect atCall pc fun read => set read.2
      · cases done
    · cases done
  | other l =>
    obtain ⟨workers, acted, rfl⟩ := Option.map_eq_some_iff.mp done
    exact .other ⟨enabled.1, acted⟩ enabled.2

theorem Placed.congr {call : CallId} {c : Connect} (placed : s.Placed call c)
    (calls : t.workers.calls call = s.workers.calls call) : t.Placed call c := by
  cases placed with
  | returned returned => exact .returned returned
  | waiting pc connected atCall waits => exact .waiting pc connected (calls.trans atCall) waits
  | reads pc connected atCall check told => exact .reads pc connected (calls.trans atCall) check told

/-- One call has taken a step, and the others stay where they are. -/
theorem Inv.setConnect (inv : s.Inv) {call : CallId} {c : Connect} (workers : t.workers.Inv)
    (connects : t.connects = Function.update s.connects call (some c)) (own : t.Placed call c)
    (others : ∀ b, b ≠ call → t.workers.calls b = s.workers.calls b) : t.Inv := by
  refine ⟨workers, fun b d atB => ?_⟩
  rcases Board.update_eq_some connects atB with ⟨rfl, rfl⟩ | ⟨other, old⟩
  · exact own
  · exact (inv.placed b d old).congr (others b other)

/-- The wait of a call goes to another place. -/
theorem goto_inv {workers : IoWorkers K κ} (inv : workers.Inv) {call : CallId} {w : IoCall} {pc : IoPc}
    (atCall : workers.calls call = some w) (active : pc.active → w.pc.active) : (workers.goto call w pc).Inv :=
  inv.setCall atCall rfl rfl active (.inl rfl) .inl inv.good fun _ => .inl

theorem Inv.finish (inv : s.Inv) {call : CallId} {w : IoCall} (atCall : s.workers.calls call = some w) (c : Connect)
    (n : Int) (errno : Option Int) : (s.finish call c w n errno).Inv := by
  refine inv.setConnect (goto_inv inv.workers atCall nofun) rfl (.returned rfl) fun b other => ?_
  exact Function.update_of_ne other _ _

/-- What is recorded of a call in a step of the others. -/
theorem watch_eq_some {l : Act K κ} {workers : IoWorkers K κ} {call : CallId} {c : Connect}
    (watched : s.watch l workers call = some c) :
    s.connects call = some c ∨ ∃ d w, s.connects call = some d ∧ s.workers.calls call = some w ∧
      w.pc.waits ∧ c = d.woken (s.workers.taker call l) := by
  unfold watch at watched
  split at watched
  · rename_i d w atConnect atCall
    split at watched
    · rename_i ends
      cases watched
      exact .inr ⟨d, w, atConnect, atCall, ends.1, rfl⟩
    · cases watched
      exact .inl atConnect
  · exact .inl watched

theorem Inv.waits (inv : s.Inv) {call : CallId} {c : Connect} {w : IoCall} (atConnect : s.connects call = some c)
    (atCall : s.workers.calls call = some w) (pc : c.pc = .waiting) :
    c.connected = (-1, EINPROGRESS) ∧ c.Waits w := by
  cases inv.placed call c atConnect with
  | returned returned => cases pc.symm.trans returned
  | waiting _ connected old waits =>
    cases old.symm.trans atCall
    exact ⟨connected, waits⟩
  | reads reads => cases pc.symm.trans reads

theorem Inv.reads (inv : s.Inv) {call : CallId} {c : Connect} (atConnect : s.connects call = some c)
    (pc : c.pc = .getsockopt) :
    c.connected = (-1, EINPROGRESS) ∧
      (c.added = some false ∨ c.added = some true ∧ (c.waker = some .event ∨ c.waker = some .other)) := by
  cases inv.placed call c atConnect with
  | returned returned => cases pc.symm.trans returned
  | waiting waiting => cases pc.symm.trans waiting
  | reads _ connected _ _ told => exact ⟨connected, told⟩

/-- `connect_with_timeout` returns what `connect_f` has returned, or it goes on because the connection is in
progress. -/
theorem connect_with_timeout_cases (t_hook_enable : Bool) (ctx : Option FdCtx) (n errno : Int) :
    connect_with_timeout t_hook_enable ctx n errno = some n ∨
      connect_with_timeout t_hook_enable ctx n errno = none ∧ (n, errno) = (-1, EINPROGRESS) := by
  unfold connect_with_timeout
  split
  · split
    · exact .inl rfl
    split
    · exact .inl rfl
    split
    · exact .inl rfl
    split
    · rename_i zero
      exact .inl (congrArg some zero.symm)
    split
    · exact .inl rfl
    · rename_i going
      rw [not_or, Decidable.not_not, Decidable.not_not] at going
      exact .inr ⟨rfl, Prod.ext going.1 going.2⟩
  · exact .inl rfl

/-- A step of the others leaves every call where it is, and records who has ended its wait. -/
theorem Inv.watched (inv : s.Inv) {l : Act K κ} {workers : IoWorkers K κ} (made : s.workers.Step ep l workers)
    (apart : ∀ call, l.caller = some call → s.connects call = none) {call : CallId} {c : Connect}
    (watched : s.watch l workers call = some c) :
    ({ workers := workers, connects := s.watch l workers } : Connects K κ).Placed call c := by
  have alien : ∀ d, s.connects call = some d → ∀ a, l ≠ .io call a := by
    rintro d atConnect a rfl
    cases atConnect.symm.trans (apart call rfl)
  rcases watch_eq_some watched with atConnect | ⟨d, w, atConnect, atCall, ends, rfl⟩
  · cases inv.placed call c atConnect with
    | returned returned => exact .returned returned
    | waiting pc connected atCall waits =>
      obtain ⟨w, after, same, cancelled⟩ := (made.turn call).kept (alien c atConnect) atCall
      exact .waiting pc connected after (waits.congr same cancelled)
    | reads pc connected atCall check told =>
      obtain ⟨w, after, same, -⟩ := (made.turn call).kept (alien c atConnect) atCall
      exact .reads pc connected after (same.trans check) told
  · cases inv.placed call d atConnect with
    | returned returned => exact .returned returned
    | waiting pc connected old waits =>
      cases old.symm.trans atCall
      obtain ⟨w', after, same, cancelled⟩ := (made.turn call).kept (alien d atConnect) atCall
      have ended : (d.woken (s.workers.taker call l)).Waits w :=
        waits.woken ends fun timeout => cancelled_of_taker inv.workers timeout atCall
      exact .waiting pc connected after (ended.congr same cancelled)
    | reads pc connected old check told =>
      cases old.symm.trans atCall
      rw [check] at ends
      cases ends

theorem Effect.inv (inv : s.Inv) {l : ConnectAct K κ} (effect : Effect ep s l t) : t.Inv := by
  cases effect with
  | returns returns => exact inv.setConnect inv.workers rfl (.returned rfl) fun _ _ => rfl
  | @begins call fd timeout_ms fiber t_hook_enable ctx n errno begins unused outside =>
    let w : IoCall := { fd := fd, event := .WRITE, to_ := timeout_ms, fiber := fiber }
    have entering : IoWorkers.Effect ep s.workers (.enter call fd .WRITE timeout_ms fiber) (s.workers.setCall call w) :=
      .enter unused outside
    have armed : ((s.workers.setCall call w).goto call w .arm).Inv :=
      goto_inv (entering.inv inv.workers) (Function.update_self ..) fun _ => rfl
    simp only [IoWorkers.goto, IoWorkers.setCall, Function.update_idem] at armed
    refine inv.setConnect armed rfl ?_ fun b other => Function.update_of_ne other _ _
    rcases connect_with_timeout_cases t_hook_enable ctx n errno with returns | ⟨-, inProgress⟩
    · cases begins.symm.trans returns
    · exact .waiting rfl inProgress (Function.update_self ..) rfl
  | @waits call c w a workers atConnect atCall pc unfailed unchecked made called =>
    obtain ⟨connected, waits⟩ := inv.waits atConnect atCall pc
    obtain ⟨d, after, now⟩ := waits.called called unfailed unchecked
    have same : (c.record a).pc = c.pc ∧ (c.record a).connected = c.connected := by
      cases a <;> exact ⟨rfl, rfl⟩
    refine inv.setConnect (made.effect.inv inv.workers) rfl ?_ (called.calls atCall).2
    exact .waiting (same.1.trans pc) (same.2.trans connected) after now
  | @refused call c w timer workers atConnect atCall pc failed cancelled =>
    obtain ⟨connected, waits⟩ := inv.waits atConnect atCall pc
    unfold Connect.Waits at waits
    rw [failed] at waits
    obtain ⟨timers, rfl⟩ := cancelTimer_eq_some cancelled
    have cleaned : ({ s.workers with timers := timers } : IoWorkers K κ).Inv :=
      inv.workers.congr inv.workers.good rfl fun _ member => member
    refine inv.setConnect (goto_inv cleaned atCall fun _ => by rw [failed]; rfl) rfl ?_ fun b other => ?_
    · exact .reads rfl connected (Function.update_self ..) rfl (.inl waits)
    · exact Function.update_of_ne other _ _
  | @expired call c w atConnect atCall => exact inv.finish atCall c (-1) (some w.cancelled)
  | @woken call c w atConnect atCall pc check fresh =>
    obtain ⟨connected, waits⟩ := inv.waits atConnect atCall pc
    unfold Connect.Waits at waits
    rw [check] at waits
    obtain ⟨added, ended, timeout⟩ := waits
    refine inv.setConnect inv.workers rfl (.reads rfl connected atCall check (.inr ⟨added, ?_⟩)) fun _ _ => rfl
    obtain ⟨waker, ended⟩ := Option.isSome_iff_exists.mp ended
    cases waker with
    | event => exact .inl ended
    | timeout => cases fresh.symm.trans (timeout ended)
    | other => exact .inr ended
  | @fails call c w n error d errno atConnect atCall => exact inv.finish atCall d (-1) errno
  | @connects call c w n atConnect atCall => exact inv.finish atCall { c with error := some 0 } 0 none
  | other made apart => exact ⟨made.effect.inv inv.workers, fun _ _ => inv.watched made apart⟩

/-- Only the report of its event and its own timeout callback have ended the wait of the call, and nothing
else is on its way to its fiber. -/
structure Alone (s : Connects K κ) (c : Connect) (w : IoCall) : Prop where
  added : c.added ≠ some false
  waker : c.waker ≠ some .other
  away : w.pc = .arm ∨ (∃ timer, w.pc = .addEvent timer) → s.workers.iom.Away w.fiber
  awaits : w.pc.waits → c.waker = none → s.workers.Registered w ∧ s.workers.iom.Awaits w.fiber w.fd w.event

/-- Every call that has not returned is alone. -/
def AllAlone (s : Connects K κ) : Prop :=
  ∀ call c w, s.connects call = some c → s.workers.calls call = some w → w.pc.active → s.Alone c w

variable {call : CallId} {c : Connect} {w d : IoCall}

/-- Only the position of the call and what it waits for matter. -/
theorem Alone.moved (alone : s.Alone c w) (pc : d.pc = w.pc) (fiber : d.fiber = w.fiber) (fd : d.fd = w.fd)
    (event : d.event = w.event) : s.Alone c d := by
  refine ⟨alone.added, alone.waker, ?_, ?_⟩
  · rw [pc, fiber]
    exact alone.away
  · simp only [IoWorkers.Registered, pc, fiber, fd, event]
    exact alone.awaits

/-- A call that neither waits nor is about to wait has only its record to keep. -/
theorem Alone.leave (alone : s.Alone c w) (left : d.pc.waits = false) (unarmed : d.pc ≠ .arm)
    (unadded : ∀ timer, d.pc ≠ .addEvent timer) : t.Alone c d where
  added := alone.added
  waker := alone.waker
  away position := by
    rcases position with arm | ⟨timer, added⟩
    · exact absurd arm unarmed
    · exact absurd added (unadded timer)
  awaits waits := by
    rw [left] at waits
    cases waits

/-- A step adds no wake-up of the fiber, and leaves the event registered. -/
theorem Alone.keep (alone : s.Alone c w) (keeps : s.workers.Keeps t.workers w.fiber)
    (registered : w.pc.waits → s.workers.Registered w → t.workers.Registered w) : t.Alone c w where
  added := alone.added
  waker := alone.waker
  away position := keeps.away (alone.away position)
  awaits waits none := by
    obtain ⟨old, awaits⟩ := alone.awaits waits none
    exact ⟨registered waits old, keeps.awaits _ _ awaits⟩

theorem exposed_of_registered (waits : w.pc.waits) (registered : s.workers.Registered w) : s.Exposed w := by
  cases pc : w.pc with
  | yield | suspended =>
    rw [Exposed, pc]
    exact IoWorkers.registered_iff.mpr registered
  | retry | arm | addEvent | failed | resumed | check | returned =>
    rw [pc] at waits
    cases waits

/-- A call that is not exposed does not wait, or somebody has woken it. -/
theorem Alone.unexposed (alone : s.Alone c w) (unexposed : ¬ s.Exposed w) : t.Alone c w := by
  have told : w.pc.waits → c.waker ≠ none := fun waits none =>
    unexposed (exposed_of_registered waits (alone.awaits waits none).1)
  refine ⟨alone.added, alone.waker, fun position => ?_, fun waits none => absurd none (told waits)⟩
  refine absurd ?_ unexposed
  rcases position with arm | ⟨timer, added⟩
  · rw [Exposed, arm]
    trivial
  · rw [Exposed, added]
    trivial

/-- The wake-up of a fiber that only its event can wake lies with the event. -/
theorem Alone.unqueued (alone : s.Alone c w) (waits : w.pc.waits) (none : c.waker = none) :
    Unqueued s.workers.iom.queues w.fiber := by
  obtain ⟨⟨owner, lies⟩, awaits⟩ := alone.awaits waits none
  cases awaits with
  | registered _ _ unqueued => exact unqueued
  | released unregistered => exact absurd rfl (unregistered (w.fd, w.event) _ lies)

/-- A step of the wait itself. -/
theorem Alone.called {a : CallAct} {workers : IoWorkers K κ} (inv : s.workers.Inv) (alone : s.Alone c w)
    (waits : c.Waits w) (called : Called ep s.workers call w a workers)
    (accepts : ∀ scheduler out, a = .addEvent scheduler out → s.workers.iom.Accepts ep w.fd w.event)
    (after : t.workers = workers) (now : workers.calls call = some d) : t.Alone (c.record a) d := by
  unfold Connect.Waits at waits
  cases called with
  | interrupted pc | blocked pc | done pc =>
    rw [pc] at waits
    cases waits
  | arm pc | unlimited pc =>
    cases (Function.update_self ..).symm.trans now
    refine ⟨alone.added, alone.waker, fun _ => ?_, fun waits => by cases waits⟩
    rw [after]
    exact alone.away (.inl pc)
  | added pc executed success =>
    rw [pc] at waits
    cases (Function.update_self ..).symm.trans now
    have away := alone.away (.inr ⟨_, pc⟩)
    have awaits := IOManager.Away.addEvent inv.good away executed
    rw [if_pos success] at awaits
    refine ⟨fun refused => ?_, alone.waker, fun position => ?_, fun _ _ => ?_⟩
    · cases success.symm.trans (Option.some.inj refused)
    · rcases position with arm | ⟨timer, added⟩
      · cases arm
      · cases added
    · rw [after]
      exact ⟨⟨_, inv.good.addEvent_board executed success⟩, awaits⟩
  | refused pc executed failure =>
    have success := (inv.good.addEvent_success_iff executed).mpr (accepts _ _ rfl)
    cases failure.symm.trans success
  | yielded pc =>
    cases (Function.update_self ..).symm.trans now
    refine ⟨alone.added, alone.waker, fun position => ?_, fun _ none => ?_⟩
    · rcases position with arm | ⟨timer, added⟩
      · cases arm
      · cases added
    · rw [after]
      exact alone.awaits (by rw [pc]; rfl) none
  | @resumed timer scheduler i ft pc found fiber =>
    cases (Function.update_self ..).symm.trans now
    -- a fiber that is resumed lay in a queue, and so its event has been taken
    have told : c.waker ≠ none := fun none => by
      have unqueued := alone.unqueued (by rw [pc]; rfl) none
      exact unqueued_iff.mp unqueued _ _ (List.mem_of_getElem? found) fiber
    rw [Connect.record, Connect.woken_of_told told]
    exact alone.leave rfl (fun arm => by cases arm) fun _ added => by cases added
  | failed pc =>
    rw [pc] at waits
    exact absurd waits alone.added
  | cancelled _ cancelled =>
    obtain ⟨timers, rfl⟩ := cancelTimer_eq_some cancelled
    cases (Function.update_self ..).symm.trans now
    exact alone.leave rfl (fun arm => by cases arm) fun _ added => by cases added
  | expired | again =>
    cases (Function.update_self ..).symm.trans now
    exact alone.leave rfl (fun arm => by cases arm) fun _ added => by cases added

/-- What ends the wait of a call that nobody disturbs is the report of its event, or its own timeout callback. -/
theorem taker_of_undisturbed (inv : s.workers.Inv) {l : Act K κ} {workers : IoWorkers K κ}
    (made : s.workers.Step ep l workers) (waits : w.pc.waits) (registered : s.workers.Registered w)
    (ended : ¬ workers.Registered w) (undisturbed : ¬ s.Disturbs call w l) : s.workers.taker call l ≠ .other := by
  rcases made.registered_after inv.good registered with
    still | ⟨op, out, rfl, success, removes⟩ | ⟨j, out, winfo, c, rfl, success, set, atC, fd, event⟩
  · exact absurd still ended
  · cases op with
    | report => nofun
    | _ => exact absurd ⟨waits, success, removes, fun _ _ same => by cases same⟩ undisturbed
  · by_cases own : winfo = call
    · rw [IoWorkers.taker, set, own, if_pos rfl]
      nofun
    · exact absurd ⟨waits, success, winfo, c, set, own, atC, fd, event⟩ undisturbed

/-- A step of the others that does not disturb the call. -/
theorem Alone.watched (inv : s.workers.Inv) {l : Act K κ} {workers : IoWorkers K κ} {old : Connect}
    (made : s.workers.Step ep l workers) (alien : ∀ a, l ≠ .io call a) (atConnect : s.connects call = some old)
    (atCall : s.workers.calls call = some w) (active : w.pc.active) (alone : s.Alone old w)
    (undisturbed : s.Exposed w → ¬ s.Disturbs call w l) (watched : s.watch l workers call = some c) :
    ({ workers := workers, connects := s.watch l workers } : Connects K κ).Alone c w := by
  simp only [watch, atConnect, atCall] at watched
  by_cases exposed : s.Exposed w
  · have spares := undisturbed exposed
    have keeps := inv.keeps made atCall active alien fun scheduler ft label fiber => spares (label ▸ fiber)
    split at watched
    · rename_i ended
      cases watched
      obtain ⟨waits, was, now⟩ := ended
      rw [IoWorkers.registered_iff] at was now
      have own := taker_of_undisturbed inv made waits was now spares
      refine ⟨alone.added, fun other => ?_, fun position => keeps.away (alone.away position), fun _ none => ?_⟩
      · exact (Connect.waker_of_woken other).elim alone.waker own
      · have told := Connect.woken_isSome (c := old) (s.workers.taker call l)
        rw [none] at told
        cases told
    · rename_i kept
      cases watched
      refine alone.keep keeps fun waits registered => ?_
      by_contra ended
      exact kept ⟨waits, IoWorkers.registered_iff.mpr registered,
        fun still => ended (IoWorkers.registered_iff.mp still)⟩
  · split at watched
    · rename_i ended
      exact absurd (exposed_of_registered ended.1 (IoWorkers.registered_iff.mp ended.2.1)) exposed
    · cases watched
      exact alone.unexposed exposed

theorem AllAlone.setConnect (all : s.AllAlone) {call : CallId} {c : Connect}
    (connects : t.connects = Function.update s.connects call (some c))
    (own : ∀ d, t.workers.calls call = some d → d.pc.active → t.Alone c d)
    (others : ∀ b x w, b ≠ call → s.connects b = some x → t.workers.calls b = some w → w.pc.active → s.Alone x w →
      t.Alone x w)
    (calls : ∀ b, b ≠ call → t.workers.calls b = s.workers.calls b) : t.AllAlone := by
  intro b x w atB atW active
  rcases Board.update_eq_some connects atB with ⟨rfl, rfl⟩ | ⟨other, old⟩
  · exact own w atW active
  · exact others b x w other old atW active (all b x w old ((calls b other).symm.trans atW) active)

/-- The calls stay alone in a step that does not disturb them. -/
theorem Effect.allAlone (inv : s.Inv) (all : s.AllAlone) {l : ConnectAct K κ} (effect : Effect ep s l t)
    (undisturbed : s.Undisturbed ep l t) : t.AllAlone := by
  cases effect with
  | returns _ unused =>
    refine all.setConnect rfl (fun d atD => ?_) (fun _ _ _ _ _ _ _ alone => ?_) fun _ _ => rfl
    · cases unused.symm.trans atD
    · exact alone.keep (.of_iom rfl) fun _ => id
  | begins goesOn =>
    refine all.setConnect rfl (fun d atD _ => ?_) (fun _ _ _ _ _ _ _ alone => ?_) fun b other =>
      Function.update_of_ne other _ _
    · cases (Function.update_self ..).symm.trans atD
      exact ⟨nofun, nofun, fun _ => undisturbed goesOn, fun waits => by cases waits⟩
    · exact alone.keep (.of_iom rfl) fun _ => id
  | @waits call c w a workers atConnect atCall pc unfailed unchecked made called =>
    obtain ⟨-, waits⟩ := inv.waits atConnect atCall pc
    have apart := (called.calls atCall).2
    refine all.setConnect rfl (fun d atD active => ?_) (fun b x v other _ atV active alone => ?_) apart
    · have alone := all call c w atConnect atCall waits.active
      refine alone.called inv.workers waits called ?_ rfl atD
      rintro scheduler out rfl
      exact undisturbed w atCall
    · have old := (apart b other).symm.trans atV
      have keeps := inv.workers.keeps made old active (fun a' label => by cases label; exact other rfl)
        fun _ _ label => by cases label
      refine alone.keep keeps fun _ registered => ?_
      rcases made.registered_after inv.workers.good registered with still | ⟨_, _, label, -⟩ | ⟨_, _, _, _, label, -⟩
      · exact still
      · cases label
      · cases label
  | @refused call c w timer workers atConnect atCall pc failed =>
    obtain ⟨-, waits⟩ := inv.waits atConnect atCall pc
    unfold Connect.Waits at waits
    rw [failed] at waits
    exact absurd waits (all call c w atConnect atCall (by rw [failed]; rfl)).added
  | @expired call c w atConnect atCall | @fails call c w n error d errno atConnect atCall
  | @connects call c w n atConnect atCall =>
    refine all.setConnect rfl (fun d atD active => ?_) (fun _ _ _ _ _ _ _ alone => ?_)
      fun b other => Function.update_of_ne other _ _
    · cases (Function.update_self ..).symm.trans atD
      cases active
    · exact alone.keep (.of_iom rfl) fun _ => id
  | @woken call c w atConnect atCall pc check =>
    refine all.setConnect rfl (fun d atD active => ?_) (fun _ _ _ _ _ _ _ alone => ?_) fun _ _ => rfl
    · cases atCall.symm.trans atD
      have left : (s.setConnect call { c with pc := .getsockopt }).Alone c w := by
        refine (all call c w atConnect atCall active).leave ?_ ?_ ?_ <;> rw [check]
        · rfl
        · nofun
        · nofun
      exact ⟨left.added, left.waker, left.away, left.awaits⟩
    · exact alone.keep (.of_iom rfl) fun _ => id
  | @other l workers made apart =>
    intro call c w watched now active
    obtain ⟨old, atConnect⟩ : ∃ old, s.connects call = some old :=
      (watch_eq_some watched).elim (fun same => ⟨c, same⟩) fun ⟨old, _, same, _⟩ => ⟨old, same⟩
    have foreign : l.caller ≠ some call := by
      intro its
      cases atConnect.symm.trans (apart call its)
    obtain ⟨w₀, atCall, pc, fiber, fd, event⟩ := (made.turn call).awaited foreign now
    have alive : w₀.pc.active := pc ▸ active
    have alien : ∀ a, l ≠ .io call a := by
      rintro a rfl
      exact foreign rfl
    refine Alone.moved ?_ pc fiber fd event
    exact (all call old w₀ atConnect atCall alive).watched inv.workers made alien atConnect atCall alive
      (undisturbed call old w₀ atConnect atCall) watched

/-- The calls stay honest in a step that does not disturb them. -/
theorem Effect.honest (inv : s.Inv) (all : s.AllAlone) (honest : s.Honest) {l : ConnectAct K κ}
    (effect : Effect ep s l t) : t.Honest := by
  have update : ∀ call d, t.connects = Function.update s.connects call (some d) →
      (∀ errno, d.pc = .returned 0 errno → d.Genuine) → t.Honest := by
    intro call d connects own b e errno atB returned
    rcases Board.update_eq_some connects atB with ⟨rfl, rfl⟩ | ⟨-, old⟩
    · exact own errno returned
    · exact honest b e errno old returned
  cases effect with
  | @returns call fd timeout_ms fiber t_hook_enable ctx n errno m returns =>
    refine update call _ rfl ?_
    rintro _ ⟨⟩
    rcases connect_with_timeout_cases t_hook_enable ctx n errno with same | ⟨none, -⟩
    · exact .inl (Option.some.inj (same.symm.trans returns))
    · cases none.symm.trans returns
  | @waits call c w a workers _ _ pc =>
    refine update call _ rfl fun errno returned => ?_
    have same : (c.record a).pc = c.pc := by cases a <;> rfl
    cases (same.trans pc).symm.trans returned
  | begins | refused | expired | woken | fails => exact update _ _ rfl fun _ returned => by cases returned
  | @connects call c w n atConnect atCall pc =>
    refine update call _ rfl fun _ _ => ?_
    obtain ⟨connected, told⟩ := inv.reads atConnect pc
    have alone : s.Alone c w := by
      cases inv.placed call c atConnect with
      | returned returned => cases pc.symm.trans returned
      | waiting waiting => cases pc.symm.trans waiting
      | reads _ _ old check =>
        cases old.symm.trans atCall
        exact all call c w atConnect atCall (by rw [check]; rfl)
    rcases told with failed | ⟨added, event | other⟩
    · exact absurd failed alone.added
    · exact .inr ⟨connected, added, event, rfl⟩
    · exact absurd other alone.waker
  | other =>
    intro call c errno watched returned
    rcases watch_eq_some watched with old | ⟨d, w, old, -, -, rfl⟩
    · exact honest call c errno old returned
    · exact (honest call d errno old returned).woken

/-- What the constructors of the `IOManager` leave behind at the clock reading `now`, before any call. -/
def start (self : SchedId) (kernel : K) (now : UInt64) : Connects K κ where
  workers := IoWorkers.start self kernel now
  connects := fun _ => none

/-- Along every run of calls of `connect_with_timeout` and `do_io`, of their timeout callbacks and of other
threads that leaves the waits undisturbed, every call that returns 0 has connected. -/
theorem run_honest_of_undisturbed (self : SchedId) (kernel : K) (now : UInt64) (ls : List (ConnectAct K κ))
    (t : Connects K κ) (run : Run (Guarded (Step ep) (Undisturbed ep)) (start self kernel now) ls t) : t.Honest := by
  let Kept (s : Connects K κ) : Prop := s.Inv ∧ s.AllAlone ∧ s.Honest
  have first : Kept (start self kernel now) := by
    refine ⟨⟨IoWorkers.inv_start self kernel now, ?_⟩, ?_, ?_⟩
    · exact fun _ _ atC => by cases atC
    · exact fun _ _ _ atC => by cases atC
    · exact fun _ _ _ atC => by cases atC
  have kept : ∀ s l t, Kept s → Guarded (Step ep) (Undisturbed ep) s l t → Kept t := by
    rintro s l t ⟨inv, all, honest⟩ ⟨step, undisturbed⟩
    have effect := step.effect
    exact ⟨effect.inv inv, effect.allAlone inv all undisturbed, effect.honest inv all honest⟩
  exact (Run.invariant kept first run).2.2

/-- The context of a socket that the program takes for blocking. -/
def blocking : FdCtx := { m_isInit := true, m_isSocket := true, m_sysNonblock := true }

/-- The connection of the fiber 7 to the socket 3 is in progress, with a timeout of 5. While it waits another
thread schedules the fiber 9, until `WRITE` is reported. -/
def accepted : List (ConnectAct (Nat → Option Mask) Unit) :=
  [.connect 0 3 5 7 true (some blocking) (-1) EINPROGRESS, .wait 0 (.addConditionTimer 1 10),
   .wait 0 (.addEvent (some 5) ⟨true, some 0⟩), .wait 0 .YieldToHold, .other (.schedule 5 ⟨some 9, none, -1⟩),
   .other (.event (.report 3 Event.WRITE.bits) ⟨true, some 0⟩), .wait 0 (.resume 5 1), .wait 0 .cancelTimer,
   .wait 0 .check, .getsockopt 0 0 0]

theorem run_honest_of_undisturbed_accepted : ∃ t : Connects (Nat → Option Mask) Unit,
    t.connects 0 = some ⟨(-1, EINPROGRESS), .returned 0 none, some true, some .event, some 0⟩ ∧ t.Honest := by
  have run : ∃ t : Connects (Nat → Option Mask) Unit,
      t.connects 0 = some ⟨(-1, EINPROGRESS), .returned 0 none, some true, some .event, some 0⟩ ∧
      Run (Guarded (Step interestList) (Undisturbed interestList)) (start 5 (fun _ => none) 10) accepted t := by
    refine ⟨_, rfl, .cons ⟨⟨⟨rfl, rfl, ?_⟩, rfl⟩, fun _ => IoWorkers.away_start ..⟩ <|
      .cons ⟨⟨⟨by decide, rfl⟩, rfl⟩, trivial⟩ <| .cons ⟨⟨trivial, rfl⟩, ?_⟩ <| .cons ⟨⟨trivial, rfl⟩, trivial⟩ <|
      .cons ⟨⟨⟨nofun, nofun⟩, rfl⟩, ?_⟩ <| .cons ⟨⟨⟨trivial, nofun⟩, rfl⟩, ?_⟩ <| .cons ⟨⟨trivial, rfl⟩, trivial⟩ <|
      .cons ⟨⟨trivial, rfl⟩, trivial⟩ <| .cons ⟨⟨trivial, rfl⟩, trivial⟩ <| .cons ⟨⟨trivial, rfl⟩, trivial⟩ .start⟩
    · rintro ⟨_, _, atC, -⟩
      cases atC
    · rintro _ ⟨⟩
      rfl
    · rintro call c w atConnect atCall - disturbs
      by_cases own : call = 0
      · subst own
        cases atCall
        cases disturbs
      · simp [setConnect, Function.update_of_ne own, start] at atConnect
    · exact fun _ _ _ _ _ _ disturbs => disturbs.2.2.2 _ _ rfl
  obtain ⟨t, atConnect, steps⟩ := run
  exact ⟨t, atConnect, run_honest_of_undisturbed 5 (fun _ => none) 10 accepted t steps⟩

/-- Another fiber has added `WRITE` for the descriptor 3, `delEvent` has removed it and left the descriptor in
the interest list. The connection of the fiber 7 to 3 is in progress, with no timeout. -/
def refused : List (ConnectAct (Nat → Option Mask) Unit) :=
  [.other (.event (.addEvent 3 .WRITE none ⟨some 5, 6, .EXEC⟩) ⟨true, some 0⟩),
   .other (.event (.delEvent 3 .WRITE) ⟨true, some 0⟩),
   .connect 0 3 (-1) 7 true (some blocking) (-1) EINPROGRESS,
   .wait 0 (.addConditionTimer 1 10), .wait 0 (.addEvent (some 5) ⟨false, some (-1)⟩), .wait 0 .cancelTimer,
   .getsockopt 0 0 0]

/-- The fiber 7 waits for the connection of 3, and another thread calls `cancelAll` for 3. -/
def disturbed : List (ConnectAct (Nat → Option Mask) Unit) :=
  [.connect 0 3 (-1) 7 true (some blocking) (-1) EINPROGRESS, .wait 0 (.addConditionTimer 1 10),
   .wait 0 (.addEvent (some 5) ⟨true, some 0⟩), .wait 0 .YieldToHold,
   .other (.event (.cancelAll 3) ⟨true, some 0⟩), .wait 0 (.resume 5 0), .wait 0 .cancelTimer, .wait 0 .check,
   .getsockopt 0 0 0]

theorem run_refused : ∃ t : Connects (Nat → Option Mask) Unit,
    Run (Step interestList) (start 5 (fun _ => none) 10) refused t ∧
    t.connects 0 = some ⟨(-1, EINPROGRESS), .returned 0 none, some false, none, some 0⟩ := by
  refine ⟨_, .cons ⟨⟨⟨?_, nofun⟩, nofun⟩, rfl⟩ <| .cons ⟨⟨trivial, nofun⟩, rfl⟩ <|
    .cons ⟨⟨rfl, rfl, ?_⟩, rfl⟩ <| .cons ⟨⟨by decide, rfl⟩, rfl⟩ <| .cons ⟨trivial, rfl⟩ <| .cons ⟨trivial, rfl⟩ <|
    .cons ⟨trivial, rfl⟩ .start, rfl⟩
  · rintro ⟨_, _, atC, -⟩
    cases atC
  · rintro ⟨_, _, atC, -⟩
    cases atC

theorem run_disturbed : ∃ t : Connects (Nat → Option Mask) Unit,
    Run (Step interestList) (start 5 (fun _ => none) 10) disturbed t ∧
    t.connects 0 = some ⟨(-1, EINPROGRESS), .returned 0 none, some true, some .other, some 0⟩ := by
  refine ⟨_, .cons ⟨⟨rfl, rfl, ?_⟩, rfl⟩ <| .cons ⟨⟨by decide, rfl⟩, rfl⟩ <| .cons ⟨trivial, rfl⟩ <|
    .cons ⟨trivial, rfl⟩ <| .cons ⟨⟨trivial, nofun⟩, rfl⟩ <| .cons ⟨trivial, rfl⟩ <| .cons ⟨trivial, rfl⟩ <|
    .cons ⟨trivial, rfl⟩ <| .cons ⟨trivial, rfl⟩ .start, rfl⟩
  rintro ⟨_, _, atC, -⟩
  cases atC

/-- `connect_with_timeout` reports success without having waited when `addEvent` fails, and it does so when
its wait is cancelled. -/
theorem not_honest_refused :
    (∃ t : Connects (Nat → Option Mask) Unit, Run (Step interestList) (start 5 (fun _ => none) 10) refused t ∧
      t.connects 0 = some ⟨(-1, EINPROGRESS), .returned 0 none, some false, none, some 0⟩ ∧ ¬ t.Honest) ∧
    ∃ t : Connects (Nat → Option Mask) Unit, Run (Step interestList) (start 5 (fun _ => none) 10) disturbed t ∧
      t.connects 0 = some ⟨(-1, EINPROGRESS), .returned 0 none, some true, some .other, some 0⟩ ∧ ¬ t.Honest := by
  obtain ⟨t, steps, atConnect⟩ := run_refused
  obtain ⟨u, more, atOther⟩ := run_disturbed
  refine ⟨⟨t, steps, atConnect, fun honest => ?_⟩, u, more, atOther, fun honest => ?_⟩
  · rcases honest 0 _ none atConnect rfl with zero | ⟨-, added, -⟩
    · cases zero
    · cases added
  · rcases honest 0 _ none atOther rfl with zero | ⟨-, -, event, -⟩
    · cases zero
    · cases event

end Connects
end Sylar
