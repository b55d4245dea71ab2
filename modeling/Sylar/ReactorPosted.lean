import Sylar.Reactor

namespace Sylar

variable {κ ω : Type}

/-- Between the removal of an entry from `m_fibers` and the last thing that `run` does with it. -/
def RunPc.tasked : RunPc → Bool
  | .selected is_active => is_active
  | .swapIn job | .running job | .leaving job | .returned job | .settle job | .reschedule job | .hold job =>
    job ≠ .idle
  | .recycle => true
  | _ => false

namespace Scheduler

variable {s t : Scheduler κ} {me after : Worker κ} {thread : Int} {a : Act κ}

/-- The step takes an entry off the queue. -/
def Takes (s : Scheduler κ) (thread : Int) (me : Worker κ) (a : Act κ) : Prop :=
  a = .run ∧ me.pc = .select ∧ ∃ ft rest, selectFrom s.m_state thread s.m_fibers = .entry ft rest

theorem Acted.tasked (acted : s.Acted thread me a t after) (tidy : me.Tidy) (tasked : after.pc.tasked) :
    me.pc.tasked ∨ s.Takes thread me a := by
  cases acted with
  | run ran =>
    cases ran with
    | entry pc found => exact .inr ⟨rfl, pc, _, _, found⟩
    | fiber pc fiber =>
      have active := active_of_task tidy pc (.inl (by simp [fiber]))
      exact .inl (by rw [pc, active]; rfl)
    | resetCallback pc _ cb | newCallback pc _ cb =>
      have active := active_of_task tidy pc (.inr (Option.isSome_iff_ne_none.mp cb))
      exact .inl (by rw [pc, active]; rfl)
    | endedCallback pc => exact .inl (by rw [pc]; rfl)
    | start | nothing | drop | stop | idle | returnedIdle | ended | reschedule | hold | recycle => cases tasked
    | swapIn pc | returned pc | ready pc | suspended pc => exact .inl (pc ▸ tasked)
  | leave _ pc | switch pc => exact .inl (pc ▸ tasked)
  | swapOut => cases tasked
  | newFiber | schedule => exact .inl tasked

theorem Acted.stopped (acted : s.Acted thread me a t after) (stopped : after.pc = .stopped) :
    me.pc = .stopped ∨ ∃ f, me.idle_fiber = some f ∧ s.m_state f = .TERM := by
  cases acted with
  | run ran =>
    cases ran with
    | stop _ _ _ idle term => exact .inr ⟨_, idle, term⟩
    | _ => cases stopped
  | leave | swapOut | switch => cases stopped
  | newFiber | schedule => exact .inl stopped

end Scheduler

/-- How the position of a worker in `Scheduler::run` and that of its idle fiber in
`IOManager::idle` go together. -/
structure Posted (ws : Workers (Callback κ ω)) (idle : Nat → IdlePc κ ω) : Prop where
  apart : ws.Private
  finished : ∀ w f, (ws.worker w).idle_fiber = some f → ws.scheduler.m_state f = .TERM → idle w = .done
  away : ∀ w, (ws.worker w).pc ≠ .running .idle → idle w = .head ∨ idle w = .done
  busy : ∀ w, (ws.worker w).pc.tasked → idle w = .head
  left : ∀ w, (ws.worker w).pc = .stopped → idle w = .done

namespace Posted

variable {ws vs : Workers (Callback κ ω)} {idle : Nat → IdlePc κ ω} {w : Nat}

/-- The idle fiber goes on in `IOManager::idle`. -/
theorem goto (posted : Posted ws idle) (pc : (ws.worker w).pc = .running .idle) (unfinished : idle w ≠ .done)
    (p : IdlePc κ ω) : Posted ws (Function.update idle w p) := by
  refine ⟨posted.apart, ?_, ?_, ?_, ?_⟩
  · intro v f held term
    by_cases same : v = w
    · subst same
      exact absurd (posted.finished v f held term) unfinished
    · rw [Function.update_of_ne same]
      exact posted.finished v f held term
  · intro v away
    by_cases same : v = w
    · exact absurd (same ▸ pc) away
    · rw [Function.update_of_ne same]
      exact posted.away v away
  · intro v tasked
    by_cases same : v = w
    · rw [same, pc] at tasked
      cases tasked
    · rw [Function.update_of_ne same]
      exact posted.busy v tasked
  · intro v stopped
    by_cases same : v = w
    · rw [same, pc] at stopped
      cases stopped
    · rw [Function.update_of_ne same]
      exact posted.left v stopped

/-- A step of a worker. One whose idle fiber has decided takes no entry off the queue. -/
theorem act {a : Scheduler.Act (Callback κ ω)} (posted : Posted ws idle) (done : ws.act w a = some vs)
    (names : ∀ f, a.woken = some f → ws.Named f)
    (finishes : a = .finish → (ws.worker w).pc = .running .idle → idle w = .done)
    (leaves : (ws.worker w).pc = .running .idle → idle w = .head ∨ idle w = .done ∨ vs.worker w = ws.worker w)
    (prompt : ws.scheduler.Takes w (ws.worker w) a → idle w ≠ .done) : Posted vs idle := by
  obtain ⟨mine, others⟩ := Workers.act_eq_some done
  have acted := Scheduler.act_acted mine
  have away : ∀ v, (vs.worker v).pc ≠ .running .idle → idle v = .head ∨ idle v = .done := by
    intro v outside
    by_cases same : v = w
    · subst same
      by_cases before : (ws.worker v).pc = .running .idle
      · rcases leaves before with head | done | same
        · exact .inl head
        · exact .inr done
        · exact absurd (same ▸ before) outside
      · exact posted.away v before
    · exact posted.away v (others v same ▸ outside)
  have finished : ∀ v f, (vs.worker v).idle_fiber = some f → vs.scheduler.m_state f = .TERM → idle v = .done := by
    intro v f held term
    rcases posted.apart.idle_term done held term with ⟨old, before⟩ | ⟨rfl, finish, pc⟩
    · exact posted.finished v f old before
    · exact finishes finish pc
  refine ⟨posted.apart.act done names, finished, away, ?_, ?_⟩
  · intro v tasked
    by_cases same : v = w
    · subst same
      rcases acted.tasked (posted.apart.tidy v) tasked with before | takes
      · exact posted.busy v before
      · have select := takes.2.1
        rcases posted.away v (by rw [select]; nofun) with head | done
        · exact head
        · exact absurd done (prompt takes)
    · exact posted.busy v (others v same ▸ tasked)
  · intro v stopped
    by_cases same : v = w
    · subst same
      rcases acted.stopped stopped with before | ⟨f, held, term⟩
      · exact posted.left v before
      · exact posted.finished v f held term
    · exact posted.left v (others v same ▸ stopped)

/-- Entries of named fibers are appended to the queue. -/
theorem append (posted : Posted ws idle) {new : List (FiberAndThread (Callback κ ω))}
    (names : ∀ ft ∈ new, ∀ f, ft.fiber = some f → ws.Named f) :
    Posted { ws with scheduler := { ws.scheduler with m_fibers := ws.scheduler.m_fibers ++ new } } idle := by
  have apart := posted.apart
  refine ⟨⟨apart.notIdle, apart.tidy, ?_, apart.ft, apart.cb, apart.born, apart.once⟩, posted.finished,
    posted.away, posted.busy, posted.left⟩
  intro ft member f fiber
  rcases List.mem_append.mp member with old | added
  · exact apart.queue ft old f fiber
  · exact names ft added f fiber

theorem call {c : Scheduler.Call (Callback κ ω)} (posted : Posted ws idle) (done : ws.call w c = some vs)
    (names : ∀ f, Workers.wakes c f → ws.Named f)
    (finishes : c = .act .finish → (ws.worker w).pc = .running .idle → idle w = .done)
    (leaves : (ws.worker w).pc = .running .idle → idle w = .head ∨ idle w = .done ∨ vs.worker w = ws.worker w)
    (prompt : ∀ a, c = .act a → ws.scheduler.Takes w (ws.worker w) a → idle w ≠ .done) : Posted vs idle := by
  cases c with
  | act a => exact posted.act done names (fun finish => finishes (finish ▸ rfl)) leaves (prompt a rfl)
  | schedule fc thread =>
    exact posted.act (a := .schedule (fc.entry thread).1) done names nofun leaves fun takes => nomatch takes.1
  | scheduleRange range =>
    have named : ∀ ft ∈ range.entries.filter (·.accepted), ∀ f, ft.fiber = some f → ws.Named f :=
      fun ft member f fiber => names f ⟨ft, (List.mem_filter.mp member).1, fiber⟩
    have appended := posted.append named
    rw [← Scheduler.m_fibers_scheduleRange] at appended
    rw [Workers.scheduleRange_eq_some done]
    exact appended

end Posted

end Sylar
