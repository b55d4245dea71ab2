import Sylar.DoIo

/-! The timeout of a call of `do_io` against the registration of its event. -/

namespace Sylar
open Machine

variable {K κ : Type}

namespace IoWorkers

/-- The event of the call is set in the context of its descriptor, for the fiber of the call. -/
def Registered (s : IoWorkers K κ) (c : IoCall) : Prop :=
  ∃ scheduler, (s.iom.regs c.fd).get c.event = some ⟨scheduler, .fiber c.fiber⟩

/-- No call is suspended with its event registered after a timeout callback of it has completed. -/
def Safe (s : IoWorkers K κ) : Prop :=
  ∀ call c timer, s.calls call = some c → c.pc = .suspended timer → c.cancelled = ETIMEDOUT → c.fired →
    ¬ s.Registered c

variable (ep : Epoll K)

/-- It is safe, also after a call that stands before `YieldToHold` has suspended its fiber. -/
def Settled (s : IoWorkers K κ) : Prop :=
  s.Safe ∧ ∀ call t, s.Step ep (.io call .YieldToHold) t → t.Safe

/-- `do_io` does not register the event of a call after a timeout callback of that call has made its
`cancelEvent`, and `epoll_ctl` does not refuse such a `cancelEvent` while the call waits. -/
def Timely (s : IoWorkers K κ) (l : Act K κ) (_ : IoWorkers K κ) : Prop :=
  match l with
  | .io call (.addEvent _ out) => out.success → ∀ c, s.calls call = some c → ¬ c.fired
  | .cancelEvent j out => ∀ winfo c, s.running[j]? = some (winfo, .set) → s.calls winfo = some c →
      c.pc.waits → s.Registered c → out.rt = some 0
  | _ => True

/-- No call that waits has its event registered after a timeout callback of it has completed. -/
def Clear (s : IoWorkers K κ) : Prop :=
  ∀ call c, s.calls call = some c → c.pc.waits → c.fired → ¬ s.Registered c

/-- The table is good, a fiber is in one call, and a callback that goes on to `cancelEvent` has set
`cancelled`. -/
structure Inv (s : IoWorkers K κ) : Prop where
  good : s.iom.Good
  apart : ∀ a b c d, s.calls a = some c → s.calls b = some d → c.pc.active → d.pc.active → c.fiber = d.fiber → a = b
  set : ∀ winfo c, s.calls winfo = some c → (winfo, .set) ∈ s.running → c.cancelled = ETIMEDOUT
  known : ∀ winfo, (winfo, .set) ∈ s.running → (s.calls winfo).isSome
  fired : ∀ call c, s.calls call = some c → c.fired → c.cancelled = ETIMEDOUT

/-- The registrations are as they were. -/
structure SameTable (s t : IoWorkers K κ) : Prop where
  contexts : t.iom.m_FdContexts = s.iom.m_FdContexts
  pending : t.iom.m_pendingEventCount = s.iom.m_pendingEventCount

/-- What a step does to the calls, to the callbacks that have set `cancelled`, and to the registrations. -/
inductive Effect (s : IoWorkers K κ) : Act K κ → IoWorkers K κ → Prop
  | quiet {l t} : s.Timely l t → s.SameTable t → t.calls = s.calls →
      (∀ winfo, (winfo, .set) ∈ t.running → (winfo, .set) ∈ s.running) → Effect s l t
  | move {l t call c pc} : s.Timely l t → s.calls call = some c → c.pc.active → (pc.waits → c.pc.waits) →
      s.SameTable t → t.calls = Function.update s.calls call (some { c with pc := pc }) →
      t.running = s.running → Effect s l t
  | enter {call fd event to_ fiber} : s.calls call = none → ¬ s.InDoIo fiber →
      Effect s (.enter call fd event to_ fiber)
        (s.setCall call { fd := fd, event := event, to_ := to_, fiber := fiber })
  | register {call c timer scheduler out iom} : s.calls call = some c → c.pc = .addEvent timer →
      s.iom.Step ep (.addEvent c.fd c.event none ⟨scheduler, c.fiber, .EXEC⟩, out) iom →
      Effect s (.io call (.addEvent scheduler out))
        { s.goto call c (if out.success then .yield timer else .failed timer) with iom := iom }
  | mark {j winfo c} : s.running[j]? = some (winfo, .tested) → s.calls winfo = some c →
      Effect s (.setCancelled j)
        { s.setCall winfo { c with cancelled := ETIMEDOUT } with running := s.running.set j (winfo, .set) }
  | cancel {j winfo c out iom} : s.running[j]? = some (winfo, .set) → s.calls winfo = some c →
      s.iom.Step ep (.cancelEvent c.fd c.event, out) iom →
      Effect s (.cancelEvent j out)
        { s.setCall winfo { c with fired := true } with running := s.running.eraseIdx j, iom := iom }
  | event {op out iom} : s.iom.Step ep (op, out) iom →
      (∀ fd event cb caller, op = .addEvent fd event cb caller → ¬ s.InDoIo caller.fiber) →
      Effect s (.event op out) { s with iom := iom }

variable {ep} {s t : IoWorkers K κ}

theorem event_eq_some {op : EventOp (Callback (IoTask κ) CallId)} {out : EventOut}
    (done : s.event ep op out = some t) :
    ∃ iom, s.iom.Step ep (op, out) iom ∧ t = { s with iom := iom } := by
  unfold event at done
  split at done
  · rename_i rt iom executed
    split at done
    · rename_i same
      cases done
      exact ⟨iom, same ▸ executed, rfl⟩
    · cases done
  · cases done

theorem setCancelled_eq_some {j : Nat} (done : s.act ep (.setCancelled j) = some t) : ∃ winfo c,
    s.running[j]? = some (winfo, .tested) ∧ s.calls winfo = some c ∧
    t = { s.setCall winfo { c with cancelled := ETIMEDOUT } with running := s.running.set j (winfo, .set) } := by
  simp only [act] at done
  split at done
  · rename_i winfo tested
    obtain ⟨c, atCall, done⟩ := Option.map_eq_some_iff.mp done
    exact ⟨winfo, c, tested, atCall, done.symm⟩
  · cases done

theorem cancelEvent_eq_some {j : Nat} {out : EventOut} (done : s.act ep (.cancelEvent j out) = some t) :
    ∃ winfo c iom, s.running[j]? = some (winfo, .set) ∧ s.calls winfo = some c ∧
    s.iom.exec ep (.cancelEvent c.fd c.event) = .ok (out, iom) ∧
    t = { ({ s with iom := iom } : IoWorkers K κ).setCall winfo { c with fired := true } with
      running := s.running.eraseIdx j } := by
  simp only [act] at done
  split at done
  · rename_i winfo set
    obtain ⟨c, atCall, done⟩ := Option.bind_eq_some_iff.mp done
    obtain ⟨u, cancelled, done⟩ := Option.bind_eq_some_iff.mp done
    obtain ⟨iom, executed, rfl⟩ := event_eq_some cancelled
    exact ⟨winfo, c, iom, set, atCall, executed, (Option.some.inj done).symm⟩
  · cases done

theorem cancelTimer_eq_some {timer : Option Ptr} (done : s.cancelTimer timer = some t) :
    ∃ timers, t = { s with timers := timers } := by
  unfold cancelTimer at done
  split at done
  · cases done
    exact ⟨_, rfl⟩
  · split at done
    · cases done
      exact ⟨_, rfl⟩
    · cases done

/-- A call goes to another place, with nothing new registered. -/
theorem Effect.goto {u : IoWorkers K κ} {l : Act K κ} {call : CallId} {c : IoCall} {pc : IoPc}
    (timely : s.Timely l (u.goto call c pc)) (atCall : s.calls call = some c) (active : c.pc.active)
    (waits : pc.waits → c.pc.waits) (table : s.SameTable u) (calls : u.calls = s.calls)
    (running : u.running = s.running) : Effect ep s l (u.goto call c pc) :=
  .move timely atCall active waits ⟨table.contexts, table.pending⟩
    (congrArg (fun calls => Function.update calls call _) calls) running

theorem active_of_ioAct {call : CallId} {c : IoCall} {a : CallAct} (done : s.ioAct ep call c a = some t) :
    c.pc.active := by
  cases pc : c.pc with
  | returned n errno => simp [ioAct, pc] at done
  | retry | arm | addEvent | failed | yield | suspended | resumed | check => rfl

theorem ioAct_effect {call : CallId} {c : IoCall} {a : CallAct} (atCall : s.calls call = some c)
    (done : s.ioAct ep call c a = some t) : Effect ep s (.io call a) t := by
  have active := active_of_ioAct done
  unfold ioAct at done
  split at done
  · split at done
    · cases done
      exact .quiet trivial ⟨rfl, rfl⟩ rfl fun _ member => member
    · split at done <;> cases done <;> exact .goto trivial atCall active nofun ⟨rfl, rfl⟩ rfl rfl
  · split at done
    · cases done
      exact .move trivial atCall active (fun waits => by cases waits) ⟨rfl, rfl⟩ rfl rfl
    · cases done
      exact .goto trivial atCall active nofun ⟨rfl, rfl⟩ rfl rfl
  · rename_i pc
    split at done
    · split at done
      · rename_i executed same
        cases done
        exact .register atCall pc (same ▸ executed)
      · cases done
    · cases done
  · obtain ⟨u, cancelled, rfl⟩ := Option.map_eq_some_iff.mp done
    obtain ⟨timers, rfl⟩ := cancelTimer_eq_some cancelled
    exact .goto trivial atCall active nofun ⟨rfl, rfl⟩ rfl rfl
  · rename_i pc
    cases done
    exact .goto trivial atCall active (fun _ => by rw [pc]; rfl) ⟨rfl, rfl⟩ rfl rfl
  · split at done
    · split at done
      · cases done
        exact .goto trivial atCall active nofun ⟨rfl, rfl⟩ rfl rfl
      · cases done
    · cases done
  · obtain ⟨u, cancelled, rfl⟩ := Option.map_eq_some_iff.mp done
    obtain ⟨timers, rfl⟩ := cancelTimer_eq_some cancelled
    exact .goto trivial atCall active nofun ⟨rfl, rfl⟩ rfl rfl
  · split at done <;> cases done <;> exact .goto trivial atCall active nofun ⟨rfl, rfl⟩ rfl rfl
  · cases done

/-- A callback that a worker begins has not set `cancelled` yet. -/
theorem timeout_running (weak_cond winfo : CallId) :
    (s.timeout weak_cond winfo).iom = s.iom ∧ (s.timeout weak_cond winfo).calls = s.calls ∧
      ∀ w, (w, .set) ∈ (s.timeout weak_cond winfo).running → (w, .set) ∈ s.running := by
  unfold timeout
  split
  · exact ⟨rfl, rfl, fun _ member => member⟩
  split
  · exact ⟨rfl, rfl, fun _ member => member⟩
  split
  · exact ⟨rfl, rfl, fun _ member => member⟩
  · refine ⟨rfl, rfl, fun w member => ?_⟩
    simpa using member

theorem Step.effect {l : Act K κ} (step : s.Step ep l t) : Effect ep s l t := by
  obtain ⟨enabled, done⟩ := step
  cases l with
  | enter call fd event to_ fiber =>
    cases done
    exact .enter enabled.1 enabled.2
  | io call a =>
    obtain ⟨c, atCall, done⟩ := Option.bind_eq_some_iff.mp done
    exact ioAct_effect atCall done
  | listExpiredCb now_ms now_timer =>
    simp only [act] at done
    split at done <;> cases done
    exact .quiet trivial ⟨rfl, rfl⟩ rfl fun _ member => member
  | timeout scheduler i =>
    simp only [act] at done
    split at done <;> cases done
    obtain ⟨iom, calls, running⟩ := (s.take scheduler i).timeout_running _ _
    exact .quiet trivial ⟨by rw [iom]; rfl, by rw [iom]; rfl⟩ calls running
  | setCancelled j =>
    obtain ⟨winfo, c, tested, atCall, rfl⟩ := setCancelled_eq_some done
    exact .mark tested atCall
  | cancelEvent j out =>
    obtain ⟨winfo, c, iom, set, atCall, executed, rfl⟩ := cancelEvent_eq_some done
    exact .cancel set atCall executed
  | event op out =>
    obtain ⟨iom, executed, rfl⟩ := event_eq_some done
    refine .event executed ?_
    rintro fd event cb caller rfl
    exact enabled.1
  | timer op =>
    simp only [act] at done
    split at done <;> cases done
    exact .quiet trivial ⟨rfl, rfl⟩ rfl fun _ member => member
  | schedule | run | kernel =>
    cases done
    exact .quiet trivial ⟨rfl, rfl⟩ rfl fun _ member => member

theorem SameTable.good (same : s.SameTable t) (good : s.iom.Good) : t.iom.Good :=
  ⟨same.contexts ▸ good.size, same.contexts ▸ good.repr, by rw [same.contexts, same.pending]; exact good.count⟩

theorem SameTable.registered (same : s.SameTable t) (c : IoCall) : t.Registered c ↔ s.Registered c := by
  simp only [Registered, IOManager.regs, same.contexts]

/-- A call goes on, and its fiber stays in it. -/
theorem Inv.setCall (inv : s.Inv) {call : CallId} {c d : IoCall} (atCall : s.calls call = some c)
    (calls : t.calls = Function.update s.calls call (some d)) (fiber : d.fiber = c.fiber)
    (active : d.pc.active → c.pc.active) (cancelled : d.cancelled = c.cancelled ∨ d.cancelled = ETIMEDOUT)
    (fired : d.fired → c.fired ∨ d.cancelled = ETIMEDOUT) (good : t.iom.Good)
    (running : ∀ winfo, (winfo, .set) ∈ t.running →
      (winfo, .set) ∈ s.running ∨ winfo = call ∧ d.cancelled = ETIMEDOUT) : t.Inv where
  good := good
  apart a b x y atA atB activeA activeB same := by
    rcases Board.update_eq_some calls atA with ⟨rfl, rfl⟩ | ⟨otherA, oldA⟩ <;>
      rcases Board.update_eq_some calls atB with ⟨rfl, rfl⟩ | ⟨otherB, oldB⟩
    · rfl
    · exact inv.apart _ _ _ _ atCall oldB (active activeA) activeB (fiber ▸ same)
    · exact inv.apart _ _ _ _ oldA atCall activeA (active activeB) (fiber ▸ same)
    · exact inv.apart _ _ _ _ oldA oldB activeA activeB same
  set winfo x atX member := by
    rcases Board.update_eq_some calls atX with ⟨rfl, rfl⟩ | ⟨other, old⟩
    · rcases running winfo member with before | ⟨-, now⟩
      · exact cancelled.elim (fun same => same.trans (inv.set winfo c atCall before)) id
      · exact now
    · rcases running winfo member with before | ⟨same, -⟩
      · exact inv.set winfo x old before
      · exact absurd same other
  known winfo member := by
    rw [calls]
    by_cases same : winfo = call
    · simp [same]
    · rw [Function.update_of_ne same]
      exact (running winfo member).elim (inv.known winfo) fun now => absurd now.1 same
  fired b x atB hasFired := by
    rcases Board.update_eq_some calls atB with ⟨rfl, rfl⟩ | ⟨-, old⟩
    · rcases fired hasFired with before | now
      · exact cancelled.elim (fun same => same.trans (inv.fired _ c atCall before)) id
      · exact now
    · exact inv.fired b x old hasFired

/-- The calls stay as they are. -/
theorem Inv.congr (inv : s.Inv) (good : t.iom.Good) (calls : t.calls = s.calls)
    (running : ∀ winfo, (winfo, .set) ∈ t.running → (winfo, .set) ∈ s.running) : t.Inv where
  good := good
  apart := calls ▸ inv.apart
  set winfo c atC member := inv.set winfo c (calls ▸ atC) (running winfo member)
  known winfo member := calls ▸ inv.known winfo (running winfo member)
  fired := calls ▸ inv.fired

theorem Effect.inv (inv : s.Inv) {l : Act K κ} (effect : Effect ep s l t) : t.Inv := by
  cases effect with
  | quiet _ table calls running => exact inv.congr (table.good inv.good) calls running
  | move _ atCall active _ table calls running =>
    exact inv.setCall atCall calls rfl (fun _ => active) (.inl rfl) .inl (table.good inv.good)
      fun winfo member => .inl (running ▸ member)
  | @enter call fd event to_ fiber fresh outside =>
    have alone : ∀ b d, s.calls b = some d → d.pc.active → d.fiber ≠ fiber :=
      fun b d atB active same => outside ⟨b, d, atB, active, same⟩
    refine ⟨inv.good, ?_, ?_, ?_, ?_⟩
    · intro a b x y atA atB activeA activeB same
      rcases Board.update_eq_some rfl atA with ⟨rfl, rfl⟩ | ⟨otherA, oldA⟩ <;>
        rcases Board.update_eq_some rfl atB with ⟨rfl, rfl⟩ | ⟨otherB, oldB⟩
      · rfl
      · exact absurd same.symm (alone _ _ oldB activeB)
      · exact absurd same (alone _ _ oldA activeA)
      · exact inv.apart _ _ _ _ oldA oldB activeA activeB same
    · intro winfo x atX member
      rcases Board.update_eq_some rfl atX with ⟨rfl, -⟩ | ⟨-, old⟩
      · have known := inv.known _ member
        simp [fresh] at known
      · exact inv.set winfo x old member
    · intro winfo member
      have known := inv.known winfo member
      by_cases same : winfo = call
      · simp [same, fresh] at known
      · simpa only [IoWorkers.setCall, Function.update_of_ne same] using known
    · intro b x atB fired
      rcases Board.update_eq_some rfl atB with ⟨-, rfl⟩ | ⟨-, old⟩
      · cases fired
      · exact inv.fired b x old fired
  | register atCall pc step =>
    exact inv.setCall atCall rfl rfl (fun _ => by rw [pc]; rfl) (.inl rfl) .inl (inv.good.refines ep step).good
      fun _ => .inl
  | @mark j winfo c tested atCall =>
    refine inv.setCall atCall rfl rfl id (.inr rfl) .inl inv.good fun w member => ?_
    rcases List.mem_or_eq_of_mem_set member with old | new
    · exact .inl old
    · exact .inr ⟨congrArg Prod.fst new, rfl⟩
  | cancel set atCall step =>
    have cancelled := inv.set _ _ atCall (List.mem_of_getElem? set)
    exact inv.setCall atCall rfl rfl id (.inl rfl) (fun _ => .inr cancelled) (inv.good.refines ep step).good
      fun w member => .inl (List.mem_of_mem_eraseIdx member)
  | event step _ => exact inv.congr (inv.good.refines ep step).good rfl fun _ member => member

/-- One call changed: only its own registration is left to look at. -/
theorem Clear.setCall_iff (clear : s.Clear) {call : CallId} {c : IoCall}
    (calls : t.calls = Function.update s.calls call (some c))
    (others : ∀ b d, b ≠ call → s.calls b = some d → d.pc.waits → t.Registered d → s.Registered d) :
    t.Clear ↔ (c.pc.waits → c.fired → ¬ t.Registered c) := by
  constructor
  · intro all
    exact all call c (by rw [calls, Function.update_self])
  · intro own b d atB waits fired registered
    rcases Board.update_eq_some calls atB with ⟨rfl, rfl⟩ | ⟨other, old⟩
    · exact own waits fired registered
    · exact clear b d old waits fired (others b d other old waits registered)

section Registrations
variable {iom : IOManager K (Callback (IoTask κ) CallId)} {out : EventOut} {c d : IoCall}

/-- The event of a call that is registered after an operation was so before, or its fiber has just added it. -/
theorem Inv.registered_before (inv : s.Inv) {op : EventOp (Callback (IoTask κ) CallId)}
    (step : s.iom.Step ep (op, out) iom) {owner : Option SchedId}
    (lies : (iom.regs d.fd).get d.event = some ⟨owner, .fiber d.fiber⟩) :
    s.Registered d ∨ ∃ caller, op = .addEvent d.fd d.event none caller ∧ d.fiber = caller.fiber := by
  have board : iom.board (d.fd, d.event) = some ⟨owner, .fiber d.fiber⟩ := lies
  rcases inv.good.registered_before step board with old | ⟨cb, caller, added, -, its⟩
  · exact .inl ⟨owner, old⟩
  · have task := congrArg Registration.task its
    cases cb with
    | some cb => cases task
    | none => exact .inr ⟨caller, added, Continuation.fiber.inj task⟩

/-- `cancelEvent` leaves the event of a call registered if `epoll_ctl` refuses. -/
theorem Inv.registered_cancelled (inv : s.Inv) (step : s.iom.Step ep (.cancelEvent c.fd c.event, out) iom) :
    (∃ owner, (iom.regs c.fd).get c.event = some ⟨owner, .fiber c.fiber⟩) ↔ out.rt ≠ some 0 ∧ s.Registered c := by
  have board : (iom.regs c.fd).get c.event = if out.rt = some 0 then none else (s.iom.regs c.fd).get c.event :=
    inv.good.cancelEvent_board step
  rw [board]
  split <;> simp [Registered, *]

end Registrations

/-- A step keeps the calls clear exactly when it is timely. -/
theorem Effect.clear_iff (inv : s.Inv) (clear : s.Clear) {l : Act K κ} (effect : Effect ep s l t) :
    t.Clear ↔ s.Timely l t := by
  cases effect with
  | quiet timely table calls _ =>
    refine iff_of_true (fun b d atB waits fired registered => ?_) timely
    exact clear b d (calls ▸ atB) waits fired ((table.registered d).mp registered)
  | @move _ _ call c pc timely atCall _ waits table calls _ =>
    refine (clear.setCall_iff calls fun b d _ _ _ => (table.registered d).mp).trans (iff_of_true ?_ timely)
    exact fun now fired registered => clear call c atCall (waits now) fired ((table.registered c).mp registered)
  | enter fresh outside =>
    refine Iff.trans (clear.setCall_iff rfl fun _ _ _ _ _ => id) (iff_of_true ?_ trivial)
    exact fun waits => by cases waits
  | @register call c timer scheduler out iom atCall pc step =>
    refine Iff.trans (clear.setCall_iff rfl ?_) ⟨?_, ?_⟩
    · rintro b d other atB waits ⟨owner, lies⟩
      rcases inv.registered_before step lies with before | ⟨caller, added, fiber⟩
      · exact before
      · obtain ⟨-, -, -, rfl⟩ := EventOp.addEvent.inj added
        have active : c.pc.active := by rw [pc]; rfl
        exact absurd (inv.apart b call d c atB atCall (IoPc.active_of_waits waits) active fiber) other
    · intro own success d atD fired
      cases atCall.symm.trans atD
      exact own (by rw [success]; rfl) fired ⟨_, inv.good.addEvent_board step success⟩
    · intro timely waits fired
      cases success : out.success with
      | false => simp [success, IoPc.waits] at waits
      | true => exact absurd fired (timely success c atCall)
  | @mark j winfo c tested atCall =>
    refine Iff.trans (clear.setCall_iff rfl fun _ _ _ _ _ => id) (iff_of_true ?_ trivial)
    exact clear winfo c atCall
  | @cancel j winfo c out iom set atCall step =>
    refine Iff.trans (clear.setCall_iff rfl ?_) ⟨?_, ?_⟩
    · rintro b d other atB waits ⟨owner, lies⟩
      rcases inv.registered_before step lies with before | ⟨caller, added, -⟩
      · exact before
      · cases added
    · intro own w d atJ atD waits was
      cases set.symm.trans atJ
      cases atCall.symm.trans atD
      by_contra refused
      exact own waits rfl ((inv.registered_cancelled step).mpr ⟨refused, was⟩)
    · intro timely waits _ still
      obtain ⟨refused, was⟩ := (inv.registered_cancelled step).mp still
      exact refused (timely winfo c set atCall waits was)
  | event step outside =>
    refine iff_of_true (fun b d atB waits fired registered => ?_) trivial
    obtain ⟨owner, lies⟩ := registered
    rcases inv.registered_before step lies with before | ⟨caller, added, fiber⟩
    · exact clear b d atB waits fired before
    · exact outside _ _ _ _ added ⟨b, d, atB, IoPc.active_of_waits waits, fiber⟩

/-- A fiber that is about to suspend with its event registered does so. -/
theorem Inv.settled_iff_clear (inv : s.Inv) : s.Settled ep ↔ s.Clear := by
  constructor
  · rintro ⟨safe, suspending⟩ call c atCall waits fired registered
    have cancelled := inv.fired call c atCall fired
    cases pc : c.pc with
    | suspended timer => exact safe call c timer atCall pc cancelled fired registered
    | yield timer =>
      have step : s.Step ep (.io call .YieldToHold) (s.goto call c (.suspended timer)) := by
        refine ⟨trivial, ?_⟩
        simp only [act, atCall, Option.bind_some, ioAct, pc]
      exact suspending call _ step call _ timer (Function.update_self ..) rfl cancelled fired registered
    | retry | arm | addEvent | failed | resumed | check | returned =>
      rw [pc] at waits
      cases waits
  · intro clear
    have safe : ∀ {u : IoWorkers K κ}, u.Clear → u.Safe := fun all call c timer atCall pc _ fired =>
      all call c atCall (by rw [pc]; rfl) fired
    exact ⟨safe clear, fun call t step => safe ((step.effect.clear_iff inv clear).mpr trivial)⟩

/-- What the constructors of the `IOManager` leave behind at the clock reading `now`, before any call. -/
def start (self : SchedId) (kernel : K) (now : UInt64) : IoWorkers K κ where
  self := self
  iom := {
    m_FdContexts := contextResize (fun i => { fd := i }) [] 32
    m_pendingEventCount := 0
    kernel := kernel
    queues := fun _ => [] }
  timers := { m_timers := [], m_tickled := false, m_previouseTime := now, heap := fun _ => none }
  calls := fun _ => none
  running := []

theorem inv_start (self : SchedId) (kernel : K) (now : UInt64) : (start (κ := κ) self kernel now).Inv where
  good := IOManager.Init.good ⟨rfl, rfl⟩
  apart := fun _ _ _ _ atA => by cases atA
  set := fun _ _ atC => by cases atC
  known := fun _ member => by cases member
  fired := fun _ _ atC => by cases atC

variable (ep)

/-- Along every run of calls of `do_io`, of their timeout callbacks and of other threads, no call is left
suspended with its event registered after its timeout callback has completed, and none is about to be, if
and only if every step is timely. -/
theorem run_settled_iff_timely (self : SchedId) (kernel : K) (now : UInt64) (ls : List (Act K κ))
    (t : IoWorkers K κ) :
    Run (Guarded (Step ep) fun _ _ t => t.Settled ep) (start self kernel now) ls t ↔
      Run (Guarded (Step ep) Timely) (start self kernel now) ls t := by
  refine Run.guarded_congr (fun s => s.Inv ∧ s.Clear) ?_ ?_ ⟨inv_start self kernel now, fun _ _ atC => by cases atC⟩
  · rintro s l t ⟨inv, clear⟩ step
    exact (step.effect.inv inv).settled_iff_clear.trans (step.effect.clear_iff inv clear)
  · rintro s l t ⟨inv, -⟩ step settled
    have after := step.effect.inv inv
    exact ⟨after, after.settled_iff_clear.mp settled⟩

/-- The fiber 7 reads from the descriptor 3 with a timeout of 5. Its timer expires, and another worker
runs the callback to its end, before the fiber has come to `addEvent`. -/
def overtaken : List (Act (Nat → Option Mask) Unit) :=
  [.enter 0 3 .READ 5 7, .io 0 (.call (-1) EAGAIN), .io 0 (.addConditionTimer 1 10), .listExpiredCb 20 2,
   .timeout 5 0, .setCancelled 0, .cancelEvent 0 ⟨false, none⟩, .io 0 (.addEvent (some 5) ⟨true, some 0⟩),
   .io 0 .YieldToHold]

/-- `cancelEvent` finds nothing to cancel, and afterwards the fiber suspends for good. -/
theorem not_safe_overtaken : ∃ t : IoWorkers (Nat → Option Mask) Unit,
    Run (Step interestList) (start 5 (fun _ => none) 10) overtaken t ∧
    t.timers.m_timers = [] ∧ t.iom.queues 5 = [] ∧ t.running = [] ∧ ¬ t.Safe := by
  have run : ∃ t : IoWorkers (Nat → Option Mask) Unit,
      Run (Step interestList) (start 5 (fun _ => none) 10) overtaken t ∧
      t.timers.m_timers = [] ∧ t.iom.queues 5 = [] ∧ t.running = [] ∧
      t.calls 0 = some ⟨3, .READ, 5, 7, .suspended (some 1), ETIMEDOUT, true⟩ ∧
      (t.iom.regs 3).get .READ = some ⟨some 5, .fiber 7⟩ := by
    refine ⟨_, .cons ⟨⟨rfl, ?_⟩, rfl⟩ <| .cons ⟨trivial, rfl⟩ <| .cons ⟨⟨by decide, rfl⟩, rfl⟩ <|
      .cons ⟨⟨by decide, rfl⟩, rfl⟩ <| .cons ⟨trivial, rfl⟩ <| .cons ⟨trivial, rfl⟩ <| .cons ⟨trivial, rfl⟩ <|
      .cons ⟨trivial, rfl⟩ <| .cons ⟨trivial, rfl⟩ .start, rfl, rfl, rfl, rfl, rfl⟩
    rintro ⟨_, _, atC, -⟩
    cases atC
  obtain ⟨t, steps, timers, queues, running, atCall, registered⟩ := run
  exact ⟨t, steps, timers, queues, running, fun safe => safe 0 _ (some 1) atCall rfl rfl rfl ⟨_, registered⟩⟩

end IoWorkers
end Sylar
