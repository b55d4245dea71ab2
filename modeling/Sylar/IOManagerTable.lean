import Sylar.IOManagerGood

/-! Concurrent calls of `addEvent`. The lock of the table is released between the test of its
size and the call of `contextResize`, so these are separate steps, as is the rest of the
function under the lock of the context. -/

namespace Sylar
open Machine

variable {K κ : Type}

/-- The arguments of a call of `addEvent`. -/
structure AddCall (κ : Type) where
  fd : Nat
  event : Event
  cb : Option κ
  caller : Caller
  deriving DecidableEq, Repr

/-- Where a thread is in `addEvent`: before the read lock, before the write lock, before the
lock of its `fd_ctx`, or past an index outside the table. -/
inductive AddPc (κ : Type)
  | idle
  | called (call : AddCall κ)
  | missed (call : AddCall κ)
  | found (call : AddCall κ) (fd_ctx : Nat)
  | outside (call : AddCall κ)
  deriving DecidableEq, Repr

/-- The table holds pointers, and `heap` has every context that was ever created. -/
structure AddState (K κ : Type) where
  m_FdContexts : List Nat
  heap : Nat → Option (FdContext κ)
  next : Nat
  m_pendingEventCount : Int
  kernel : K
  threads : Nat → AddPc κ

inductive AddAct (κ : Type)
  | call (call : AddCall κ)
  | look
  | resize
  | register
  deriving DecidableEq, Repr

namespace AddState

def goto (s : AddState K κ) (thread : Nat) (pc : AddPc κ) : AddState K κ :=
  { s with threads := Function.update s.threads thread pc }

/-- `contextResize` on the table of pointers. -/
def resize (s : AddState K κ) (size : Nat) : AddState K κ :=
  { s with
    m_FdContexts := contextResize (fun i => s.next + i) s.m_FdContexts size
    heap := fun p => if s.next + s.m_FdContexts.length ≤ p ∧ p < s.next + size then some { fd := p - s.next }
      else s.heap p
    next := s.next + size }

/-- `fd_ctx = m_FdContexts[fd]`. -/
def acquire (s : AddState K κ) (call : AddCall κ) : AddPc κ :=
  match s.m_FdContexts[call.fd]? with
  | some fd_ctx => .found call fd_ctx
  | none => .outside call

variable (ep : Epoll K)

/-- One atomic step of a thread. A step that is not possible, or that aborts, is `none`. -/
def act (s : AddState K κ) (thread : Nat) : AddAct κ → Option (AddState K κ)
  | .call call =>
    match s.threads thread with
    | .idle => some (s.goto thread (.called call))
    | _ => none
  | .look =>
    match s.threads thread with
    | .called call =>
      some (s.goto thread (if s.m_FdContexts.length > call.fd then s.acquire call else .missed call))
    | _ => none
  | .resize =>
    match s.threads thread with
    | .missed call =>
      let s := s.resize (call.fd * 3 / 2)
      some (s.goto thread (s.acquire call))
    | _ => none
  | .register =>
    match s.threads thread with
    | .found call fd_ctx =>
      match s.heap fd_ctx with
      | none => none
      | some c =>
        match IOManager.addEventLocked ep c s.m_pendingEventCount s.kernel call.fd call.event call.cb call.caller with
        | .error _ => none
        | .ok (_, _, c, pending, kernel) =>
          some ({ s with
            heap := Function.update s.heap fd_ctx (some c)
            m_pendingEventCount := pending
            kernel := kernel }.goto thread .idle)
    | _ => none

def Step (s : AddState K κ) (l : Nat × AddAct κ) (t : AddState K κ) : Prop := s.act ep l.1 l.2 = some t

/-- What the constructor leaves behind. -/
def initial (kernel : K) : AddState K κ :=
  resize
    { m_FdContexts := []
      heap := fun _ => none
      next := 0
      m_pendingEventCount := 0
      kernel := kernel
      threads := fun _ => .idle } 32

/-- The table keeps every context at its index, every index in use is inside, and every context
with events is in the table. -/
structure Kept (s : AddState K κ) (_ : Nat × AddAct κ) (t : AddState K κ) : Prop where
  longer : s.m_FdContexts.length ≤ t.m_FdContexts.length
  same : ∀ (i p : Nat), s.m_FdContexts[i]? = some p → t.m_FdContexts[i]? = some p
  inside : ∀ thread call, t.threads thread ≠ .outside call
  registered : ∀ (p : Nat) (c : FdContext κ), t.heap p = some c → c.events ≠ 0 → t.m_FdContexts[c.fd]? = some p

/-- No thread resizes the table to less than it has. -/
def NoShrink (s : AddState K κ) (l : Nat × AddAct κ) (_ : AddState K κ) : Prop :=
  ∀ call, l.2 = .resize → s.threads l.1 = .missed call → s.m_FdContexts.length ≤ call.fd * 3 / 2

theorem setContext_fd (c : FdContext κ) (event : Event) (ctx : EventContext κ) :
    (c.setContext event ctx).fd = c.fd := by
  cases event <;> rfl

theorem addEventLocked_fd {c c' : FdContext κ} {pending pending' : Int} {kernel kernel' : K} {fd : Nat}
    {event : Event} {cb : Option κ} {caller : Caller} {ret rt : Int}
    (done : IOManager.addEventLocked ep c pending kernel fd event cb caller = .ok (ret, rt, c', pending', kernel')) :
    c'.fd = c.fd := by
  unfold IOManager.addEventLocked at done
  split at done
  · cases done
  extract_lets op at done
  split at done
  split at done
  · cases done
    rfl
  obtain ⟨ctx, -, done⟩ := bind_eq_ok.mp done
  split at done
  · cases done
  split at done
  · cases done
    exact setContext_fd _ _ _
  split at done
  · cases done
  · cases done
    exact setContext_fd _ _ _

/-- What a step can be. -/
theorem act_cases {s t : AddState K κ} {thread : Nat} {a : AddAct κ} (done : s.act ep thread a = some t) :
    (∃ call, a = .call call ∧ t = s.goto thread (.called call)) ∨
    (∃ call, a = .look ∧ call.fd < s.m_FdContexts.length ∧ t = s.goto thread (s.acquire call)) ∨
    (∃ call, a = .look ∧ s.m_FdContexts.length ≤ call.fd ∧ t = s.goto thread (.missed call)) ∨
    (∃ call, a = .resize ∧ s.threads thread = .missed call ∧
      t = (s.resize (call.fd * 3 / 2)).goto thread ((s.resize (call.fd * 3 / 2)).acquire call)) ∨
    (∃ p c c' pending kernel, a = .register ∧ s.heap p = some c ∧ c'.fd = c.fd ∧
      t = { s with heap := Function.update s.heap p (some c'), m_pendingEventCount := pending,
                   kernel := kernel }.goto thread .idle) := by
  cases a with
  | call call =>
    simp only [act] at done
    split at done
    · cases done
      exact .inl ⟨call, rfl, rfl⟩
    · cases done
  | look =>
    simp only [act] at done
    split at done
    · rename_i call _
      cases done
      split
      · exact .inr (.inl ⟨call, rfl, by assumption, rfl⟩)
      · exact .inr (.inr (.inl ⟨call, rfl, by omega, rfl⟩))
    · cases done
  | resize =>
    simp only [act] at done
    split at done
    · rename_i call missed
      cases done
      exact .inr (.inr (.inr (.inl ⟨call, rfl, missed, rfl⟩)))
    · cases done
  | register =>
    simp only [act] at done
    split at done
    · split at done
      · cases done
      · rename_i c atP
        split at done
        · cases done
        · rename_i added
          cases done
          exact .inr (.inr (.inr (.inr ⟨_, c, _, _, _, rfl, atP, addEventLocked_fd ep added, rfl⟩)))
    · cases done

/-- Every context that was created is in the table at its index. -/
structure Inv (s : AddState K κ) : Prop where
  size : 32 ≤ s.m_FdContexts.length
  missed : ∀ thread call, s.threads thread = .missed call → 32 ≤ call.fd
  inside : ∀ thread call, s.threads thread ≠ .outside call
  fresh : ∀ p, s.next ≤ p → s.heap p = none
  atIndex : ∀ (p : Nat) (c : FdContext κ), s.heap p = some c → s.m_FdContexts[c.fd]? = some p

theorem goto_self {s : AddState K κ} {thread : Nat} {pc : AddPc κ} : (s.goto thread pc).threads thread = pc :=
  Function.update_self _ _ _

theorem goto_ne {s : AddState K κ} {thread other : Nat} {pc : AddPc κ} (different : other ≠ thread) :
    (s.goto thread pc).threads other = s.threads other :=
  Function.update_of_ne different _ _

theorem Inv.goto {s : AddState K κ} (inv : s.Inv) {thread : Nat} {pc : AddPc κ}
    (missed : ∀ call, pc = .missed call → 32 ≤ call.fd) (inside : ∀ call, pc ≠ .outside call) :
    (s.goto thread pc).Inv where
  size := inv.size
  missed other call atOther := by
    by_cases same : other = thread
    · subst same
      rw [goto_self] at atOther
      exact missed call atOther
    · rw [goto_ne same] at atOther
      exact inv.missed other call atOther
  inside other call atOther := by
    by_cases same : other = thread
    · subst same
      rw [goto_self] at atOther
      exact inside call atOther
    · rw [goto_ne same] at atOther
      exact inv.inside other call atOther
  fresh := inv.fresh
  atIndex := inv.atIndex

theorem acquire_found {s : AddState K κ} {call : AddCall κ} (inside : call.fd < s.m_FdContexts.length) :
    ∃ p, s.acquire call = .found call p :=
  ⟨s.m_FdContexts[call.fd], by rw [acquire, List.getElem?_eq_getElem inside]⟩

theorem Inv.resize {s : AddState K κ} (inv : s.Inv) {size : Nat} (grows : s.m_FdContexts.length ≤ size) :
    (s.resize size).Inv where
  size := by
    have old := inv.size
    rw [AddState.resize, length_contextResize]
    omega
  missed := inv.missed
  inside := inv.inside
  fresh p later := by
    simp only [AddState.resize] at later ⊢
    rw [if_neg (by omega)]
    exact inv.fresh p (by omega)
  atIndex p c atP := by
    simp only [AddState.resize] at atP ⊢
    split at atP
    · rename_i added
      cases atP
      rw [contextResize_new _ (by simp only; omega) (by simp only; omega)]
      congr 1
      simp only
      omega
    · have before := inv.atIndex p c atP
      rw [contextResize_old _ grows (List.getElem?_eq_some_iff.mp before).1]
      exact before

theorem Inv.heap_update {s : AddState K κ} (inv : s.Inv) {p : Nat} {c c' : FdContext κ} (atP : s.heap p = some c)
    (sameFd : c'.fd = c.fd) (pending : Int) (kernel : K) :
    Inv { s with heap := Function.update s.heap p (some c'), m_pendingEventCount := pending, kernel := kernel } where
  size := inv.size
  missed := inv.missed
  inside := inv.inside
  fresh q later := by
    have different : q ≠ p := by
      rintro rfl
      rw [inv.fresh q later] at atP
      cases atP
    simp only [Function.update_of_ne different]
    exact inv.fresh q later
  atIndex q d atQ := by
    by_cases same : q = p
    · subst same
      simp only [Function.update_self] at atQ
      cases atQ
      rw [sameFd]
      exact inv.atIndex q c atP
    · simp only [Function.update_of_ne same] at atQ
      exact inv.atIndex q d atQ

theorem initial_inv (kernel : K) : (initial kernel : AddState K κ).Inv where
  size := Nat.le_of_eq (length_contextResize _ _ _).symm
  missed thread call atThread := by cases atThread
  inside thread call atThread := by cases atThread
  fresh p later := if_neg (fun added => absurd added.2 (Nat.not_lt.mpr later))
  atIndex p c atP := by
    simp only [initial, AddState.resize] at atP ⊢
    split at atP
    · rename_i added
      cases atP
      rw [contextResize_new _ (Nat.zero_le _) (by simp only; omega)]
      simp
    · cases atP

/-- A step that does not shrink the table keeps it. -/
theorem Inv.step {s t : AddState K κ} {l : Nat × AddAct κ} (inv : s.Inv) (step : s.Step ep l t)
    (noShrink : s.NoShrink l t) :
    t.Inv ∧ s.m_FdContexts.length ≤ t.m_FdContexts.length ∧
      ∀ (i p : Nat), s.m_FdContexts[i]? = some p → t.m_FdContexts[i]? = some p := by
  rcases act_cases ep step with ⟨call, -, rfl⟩ | ⟨call, -, inside, rfl⟩ | ⟨call, -, short, rfl⟩ |
    ⟨call, resize, missed, rfl⟩ | ⟨p, c, c', pending, kernel, -, atP, sameFd, rfl⟩
  · exact ⟨inv.goto (by simp) (by simp), Nat.le_refl _, fun _ _ => id⟩
  · obtain ⟨p, found⟩ := acquire_found inside
    rw [found]
    exact ⟨inv.goto (by simp) (by simp), Nat.le_refl _, fun _ _ => id⟩
  · have size := inv.size
    refine ⟨inv.goto ?_ (by simp), Nat.le_refl _, fun _ _ => id⟩
    rintro other ⟨⟩
    omega
  · have grows := noShrink call resize missed
    have big := inv.missed _ _ missed
    have length : (s.resize (call.fd * 3 / 2)).m_FdContexts.length = call.fd * 3 / 2 := length_contextResize _ _ _
    have inside : call.fd < (s.resize (call.fd * 3 / 2)).m_FdContexts.length := by omega
    obtain ⟨p, found⟩ := acquire_found inside
    rw [found]
    refine ⟨(inv.resize grows).goto (by simp) (by simp), Nat.le_trans grows (Nat.le_of_eq length.symm), ?_⟩
    intro i p atI
    exact (contextResize_old _ grows (List.getElem?_eq_some_iff.mp atI).1).trans atI
  · exact ⟨(inv.heap_update atP sameFd pending kernel).goto (by simp) (by simp), Nat.le_refl _, fun _ _ => id⟩

theorem Inv.kept_iff {s t : AddState K κ} {l : Nat × AddAct κ} (inv : s.Inv) (step : s.Step ep l t) :
    s.Kept l t ↔ s.NoShrink l t := by
  constructor
  · intro kept call resize missed
    rcases l with ⟨thread, a⟩
    cases resize
    simp only [Step, act, missed] at step
    cases step
    exact Nat.le_trans kept.longer (Nat.le_of_eq (length_contextResize _ _ _))
  · intro noShrink
    obtain ⟨invT, longer, same⟩ := inv.step ep step noShrink
    exact ⟨longer, same, invT.inside, fun p c atP _ => invT.atIndex p c atP⟩

/-- Along a run of concurrent calls of `addEvent` the table keeps every context exactly as long as
no `contextResize` comes after another one has made the table longer than it will make it. -/
theorem kept_run_iff {kernel : K} {t : AddState K κ} {ls : List (Nat × AddAct κ)} :
    Run (Guarded (Step ep) Kept) (initial kernel) ls t ↔ Run (Guarded (Step ep) NoShrink) (initial kernel) ls t := by
  refine Run.guarded_congr Inv ?_ ?_ (initial_inv kernel)
  · intro s l t inv step
    exact inv.kept_iff ep step
  · intro s l t inv step kept
    exact (inv.step ep step ((inv.kept_iff ep step).mp kept)).1

def readCall (fd : Nat) : AddCall Nat := ⟨fd, .READ, some 7, ⟨some 0, 1, .EXEC⟩⟩

/-- Two threads add events of the descriptors 80 and 40 at once, both have seen a table of 32,
and the first one finishes. -/
def racing : List (Nat × AddAct Nat) :=
  [(0, .call (readCall 80)), (1, .call (readCall 40)), (0, .look), (1, .look), (0, .resize), (0, .register)]

theorem racing_before : ∃ s : AddState (Nat → Option Mask) Nat,
    Run (Step interestList) (initial fun _ => none) racing s ∧
    s.threads 1 = .missed (readCall 40) ∧ s.m_FdContexts.length = 120 ∧
    ∃ c, s.m_FdContexts[80]? = some 112 ∧ s.heap 112 = some c ∧ c.events = Event.READ.bits :=
  ⟨_, run_of_acts (fun s (l : Nat × AddAct Nat) => act interestList s l.1 l.2) rfl, rfl, rfl, _, rfl, rfl, rfl⟩

/-- The second thread cuts the table to 60 contexts, after the first has made 120 and registered
an event in the 80th. -/
theorem not_kept_race : ∃ s t : AddState (Nat → Option Mask) Nat,
    Run (Step interestList) (initial fun _ => none) racing s ∧ s.Step interestList (1, .resize) t ∧
    s.m_FdContexts.length = 120 ∧ t.m_FdContexts.length = 60 ∧
    (∃ p c, s.m_FdContexts[80]? = some p ∧ s.heap p = some c ∧ c.events = Event.READ.bits ∧
      t.heap p = some c ∧ t.m_FdContexts[80]? = none) ∧
    ¬ s.Kept (1, .resize) t := by
  obtain ⟨s, run, missed, long, c, at80, ctx, events⟩ := racing_before
  have step : s.Step interestList (1, .resize) ((s.resize 60).goto 1 ((s.resize 60).acquire (readCall 40))) := by
    simp only [Step, act, missed]
    rfl
  have short : (s.resize 60).m_FdContexts.length = 60 := length_contextResize _ _ _
  refine ⟨s, _, run, step, long, short, ⟨112, c, at80, ctx, events, ?_, ?_⟩, ?_⟩
  · exact (if_neg (by omega)).trans ctx
  · exact List.getElem?_eq_none (Nat.le_trans (Nat.le_of_eq short) (by decide))
  · intro kept
    have longer := kept.longer
    rw [long] at longer
    exact absurd (Nat.le_trans longer (Nat.le_of_eq short)) (by decide)

end AddState
end Sylar
