import Sylar.HookClose
import Sylar.HookNonblock
import Sylar.IOManagerInterest

namespace Sylar
open Machine

variable {κ : Type}

namespace IOManager

variable {K : Type} {ep : Epoll K} {s t : IOManager K κ}

/-- A step makes at most one call of `epoll_ctl`, on the descriptor of its operation. -/
theorem Good.kernel_call (good : s.Good) {l : EventOp κ × EventOut} (step : s.Step ep l t) :
    t.kernel = s.kernel ∨ ∃ op events, t.kernel = (ep.ctl s.kernel op l.1.fd events).2 := by
  refine exec_cases (P := fun op _ t => t.kernel = s.kernel ∨
    ∃ ctl events, t.kernel = (ep.ctl s.kernel ctl op.fd events).2) ep ?_ ?_ ?_ ?_ ?_ step
  · intro fd event cb caller ret rt t done
    rw [good.addEvent_eq] at done
    split at done
    · cases done
    simp only at done
    split at done
    · cases done
      exact Or.inr ⟨_, _, rfl⟩
    split at done
    · cases done
    obtain ⟨task, -, done⟩ := bind_eq_ok.mp done
    cases done
    exact Or.inr ⟨_, _, rfl⟩
  · intro fd event success rt t done
    rw [good.delEvent_eq] at done
    rcases removal_cases done with ⟨-, -, -, rfl⟩ | ⟨-, -, -, -, rfl⟩ | ⟨-, -, -, -, discarded⟩
    · exact Or.inl rfl
    · exact Or.inr ⟨_, _, rfl⟩
    · cases discarded
      exact Or.inr ⟨_, _, rfl⟩
  · intro fd event success rt t done
    rw [good.cancelEvent_eq] at done
    rcases removal_cases done with ⟨-, -, -, rfl⟩ | ⟨-, -, -, -, rfl⟩ | ⟨-, -, -, -, fired⟩
    · exact Or.inl rfl
    · exact Or.inr ⟨_, _, rfl⟩
    · exact Or.inr ⟨_, _, fire_kernel fired⟩
  · intro fd success rt t done
    rw [good.cancelAll_eq] at done
    rcases removal_cases done with ⟨-, -, -, rfl⟩ | ⟨-, -, -, -, rfl⟩ | ⟨-, -, -, -, fired⟩
    · exact Or.inl rfl
    · exact Or.inr ⟨_, _, rfl⟩
    · exact Or.inr ⟨_, _, fireEach_kernel fired⟩
  · intro fd events rt t done
    rw [good.dispatch_eq] at done
    obtain ⟨⟨success, rt', t'⟩, removed, same⟩ := bind_eq_ok.mp done
    cases same
    rcases removal_cases removed with ⟨-, -, -, rfl⟩ | ⟨-, -, -, -, rfl⟩ | ⟨-, -, -, -, fired⟩
    · exact Or.inl rfl
    · exact Or.inr ⟨_, _, rfl⟩
    · exact Or.inr ⟨_, _, fireEach_kernel fired⟩

end IOManager

/-- The call makes a descriptor with a context. -/
def Process.Op.tracks : Process.Op → Bool
  | .socket t_hook_enable _ _ => t_hook_enable
  | .accept _ => true
  | _ => false

namespace Host

/-- `epoll_ctl` behaves for an open descriptor as it does for all of them. -/
theorem exec_open {s : IOManager (Nat → Option Mask) κ} (good : s.Good) {files : Kernel} {op : EventOp κ}
    (opened : (files op.fd).isSome) : s.exec (openOnly files) op = s.exec interestList op := by
  cases op with
  | addEvent fd event cb caller =>
    simp only [IOManager.exec, good.addEvent_eq, openOnly_open (show (files fd).isSome from opened)]
  | delEvent fd event =>
    simp only [IOManager.exec, good.delEvent_eq, openOnly_open (show (files fd).isSome from opened)]
  | cancelEvent fd event =>
    simp only [IOManager.exec, good.cancelEvent_eq, openOnly_open (show (files fd).isSome from opened)]
  | cancelAll fd =>
    simp only [IOManager.exec, good.cancelAll_eq, openOnly_open (show (files fd).isSome from opened)]
  | report fd events =>
    simp only [IOManager.exec, good.dispatch_eq, openOnly_open (show (files fd).isSome from opened)]

variable {refuses : BitVec 32 → Bool} {s t : Host κ} {fd : Nat}

/-- Every tracked descriptor that is open is closed as it should be. -/
def Correct (s : Host κ) : Prop :=
  ∀ fd : Nat, s.Tracked fd → (s.process.kernel fd).isSome → s.Closes fd

/-- The tables are good, and what has a context or is in the interest list is open. -/
structure Base (s : Host κ) : Prop where
  good : s.iom.Good
  proper : s.process.Proper
  opened : ∀ fd : Int, s.Tracked fd → (s.process.kernel fd).isSome
  listed : ∀ fd : Nat, (s.iom.kernel fd).isSome → (s.process.kernel fd).isSome

theorem Base.correct_iff (base : s.Base) : s.Correct ↔ ∀ fd : Nat, s.Tracked fd → s.Ready fd := by
  constructor
  · exact fun correct fd tracked => (closes_iff base.good tracked (base.opened fd tracked)).mp
      (correct fd tracked (base.opened fd tracked))
  · exact fun ready fd tracked opened => (closes_iff base.good tracked opened).mpr (ready fd tracked)

theorem ready_congr (goodS : s.iom.Good) (goodT : t.iom.Good) (regs : t.iom.regs fd = s.iom.regs fd)
    (kernel : t.iom.kernel fd = s.iom.kernel fd) : t.Ready fd ↔ s.Ready fd := by
  unfold Ready
  rw [goodS.eventsAt_eq, goodT.eventsAt_eq, regs, kernel]

theorem tracks_asSocket (op : Process.Op) : op.tracks = op.asSocket.tracks := by
  cases op <;> rfl

theorem fd_asSocket (op : Process.Op) : op.fd = op.asSocket.fd := by
  cases op <;> rfl

/-- What a call leaves at its descriptor, unless it closes it: a file if there was one, a context only
with a file, and a context that was not there before only for a number that was free. -/
theorem slot_of_effect {p : Process} {op : Process.Op} {file : Option KernelFile} {slot : Option (Option FdCtx)}
    (opened : ∀ ctx, p.get op.fd = some (some ctx) → (p.kernel op.fd).isSome)
    (effect : Process.Effect refuses p op file slot) (notClose : ∀ hook fd, op ≠ .close hook fd) :
    ((p.kernel op.fd).isSome → file.isSome) ∧
      ((∃ ctx, slot = some (some ctx)) → file.isSome ∧
        (op.tracks ∧ p.kernel op.fd = none ∨ ¬ op.tracks ∧ ∃ ctx, p.get op.fd = some (some ctx))) ∧
      (op.tracks → ∃ ctx, slot = some (some ctx)) := by
  cases effect with
  | @stale hook type fd ctx free found =>
    have there := opened ctx found
    have free : p.kernel (Process.Op.socket hook type fd).fd = none := free
    simp [free] at there
  | fresh free none socket set => exact ⟨fun _ => rfl, fun _ => ⟨rfl, Or.inl ⟨rfl, free⟩⟩, fun _ => ⟨_, rfl⟩⟩
  | untracked free none =>
    exact ⟨fun _ => rfl, fun ⟨ctx, found⟩ => absurd found (none ctx), nofun⟩
  | @open_ flags fd free =>
    refine ⟨fun _ => rfl, fun ⟨ctx, found⟩ => ?_, nofun⟩
    exact ⟨rfl, Or.inr ⟨Bool.false_ne_true, ctx, found⟩⟩
  | @close hook fd => exact absurd rfl (notClose hook fd)
  | @setfl fd arg ctx found | @fionbio fd v ctx found =>
    have there := opened ctx found
    refine ⟨fun old => by rw [Option.isSome_map]; exact old, fun _ => ?_, nofun⟩
    exact ⟨by rw [Option.isSome_map]; exact there, Or.inr ⟨Bool.false_ne_true, ctx, found⟩⟩
  | setflPlain | fionbioPlain =>
    exact ⟨fun old => by rw [Option.isSome_map]; exact old, nofun, nofun⟩

/-- A call that makes a context needs a number without events. -/
theorem Base.call (base : s.Base) (ready : ∀ fd : Nat, s.Tracked fd → s.Ready fd) {op : Process.Op}
    (notClose : ∀ hook fd, op ≠ .close hook fd) {p : Process} (done : s.process.act refuses op = some p) :
    Base { s with process := p } ∧
      ((∀ fd : Nat, Tracked { s with process := p } fd → Ready { s with process := p } fd) ↔
        (op.tracks → s.iom.eventsAt op.fd.toNat = 0)) := by
  obtain ⟨file, slot, effect, changed⟩ := Process.act_effect base.proper done
  rw [fd_asSocket] at changed
  have still : ∀ hook fd, op.asSocket ≠ .close hook fd := by
    cases op <;> first | exact notClose | exact nofun
  obtain ⟨files, slots, makes⟩ :=
    slot_of_effect (fun ctx found => base.opened _ ⟨ctx, found⟩) effect still
  have tracked : ∀ g : Int, (∃ ctx, p.get g = some (some ctx)) →
      g = op.asSocket.fd ∧ (∃ ctx, slot = some (some ctx)) ∨ g ≠ op.asSocket.fd ∧ s.Tracked g := by
    rintro g ⟨ctx, found⟩
    rw [changed.get] at found
    by_cases same : g = op.asSocket.fd
    · rw [same, Function.update_self] at found
      exact Or.inl ⟨same, ctx, found⟩
    · rw [Function.update_of_ne same] at found
      exact Or.inr ⟨same, ctx, found⟩
  have kept : ∀ g : Int, (s.process.kernel g).isSome → (p.kernel g).isSome := by
    intro g old
    rw [changed.kernel]
    by_cases same : g = op.asSocket.fd
    · rw [same, Function.update_self]
      exact files (same ▸ old)
    · rwa [Function.update_of_ne same]
  refine ⟨⟨base.good, base.proper.step done, ?_, fun fd inList => kept fd (base.listed fd inList)⟩, ?_⟩
  · intro g found
    rcases tracked g found with ⟨same, slot⟩ | ⟨different, old⟩
    · change (p.kernel g).isSome
      rw [changed.kernel, same, Function.update_self]
      exact (slots slot).1
    · exact kept g (base.opened g old)
  · rw [tracks_asSocket, fd_asSocket]
    have fresh : s.process.kernel op.asSocket.fd = none → ∀ fd : Nat, (fd : Int) = op.asSocket.fd →
        (s.Ready fd ↔ s.iom.eventsAt fd = 0) := by
      intro free fd same
      refine ⟨fun ready => ready.resolve_right fun listed => ?_, Or.inl⟩
      have there := base.listed fd listed.1
      simp [same, free] at there
    constructor
    · intro all making
      obtain ⟨ctx, atSlot⟩ := makes making
      have found : p.get op.asSocket.fd = some (some ctx) := by
        rw [changed.get, Function.update_self, atSlot]
      have positive := Process.positive_of_get found
      have number : ((op.asSocket.fd.toNat : Nat) : Int) = op.asSocket.fd := by omega
      rcases (slots ⟨ctx, atSlot⟩).2 with ⟨-, free⟩ | ⟨notMaking, -⟩
      · exact (fresh free _ number).mp (all _ ⟨ctx, number ▸ found⟩)
      · exact absurd making notMaking
    · intro clean fd found
      rcases tracked fd found with ⟨same, slot⟩ | ⟨-, old⟩
      · rcases (slots slot).2 with ⟨making, free⟩ | ⟨-, ctx, old⟩
        · have number : op.asSocket.fd.toNat = fd := by omega
          exact (fresh free fd same).mpr (number ▸ clean making)
        · exact ready fd ⟨ctx, same ▸ old⟩
      · exact ready fd old

theorem close_cases (done : s.close fd = some t) :
    ∃ iom, (iom = s.iom ∨ ∃ out, s.iom.Step (openOnly s.process.kernel) (.cancelAll fd, out) iom) ∧
      t.process.kernel = Function.update s.process.kernel fd none ∧
      t.process.get = Function.update s.process.get (fd : Int) (some none) ∧
      s.process.close true fd = some t.process ∧
      t.iom = { iom with kernel := Function.update iom.kernel fd none } := by
  obtain ⟨slot, found, done'⟩ := Option.bind_eq_some_iff.mp done
  cases slot with
  | some ctx =>
    obtain ⟨success, rt, iom, called, closed, same⟩ := (close_eq_some_iff ⟨ctx, found⟩).mp done
    obtain ⟨q, closed', kernel, get⟩ := process_close found
    cases Option.some.inj (closed'.symm.trans closed)
    exact ⟨iom, Or.inr ⟨⟨success, rt⟩, by simp only [IOManager.Step, IOManager.exec, called]; rfl⟩, kernel, get,
      closed, same⟩
  | none =>
    have closed : s.process.close true fd = some { s.process with kernel := s.process.kernel.close fd } := by
      simp only [Process.close, if_true, found]
      rfl
    simp only [Option.bind_eq_bind, closed] at done'
    cases done'
    exact ⟨s.iom, Or.inl rfl, rfl, (Function.update_eq_self_iff.mpr found.symm).symm, closed, rfl⟩

/-- An operation on one descriptor leaves the other ones alone, and puts none in the interest list that is
not open. -/
theorem event_frame {files : Kernel} {s t : IOManager (Nat → Option Mask) κ} (good : s.Good)
    {l : EventOp κ × EventOut} (step : s.Step (openOnly files) l t) :
    (∀ fd, fd ≠ l.1.fd → t.kernel fd = s.kernel fd) ∧
      ((t.kernel l.1.fd).isSome → (s.kernel l.1.fd).isSome ∨ (files l.1.fd).isSome) := by
  rcases good.kernel_call step with same | ⟨op, events, called⟩
  · rw [same]
    exact ⟨fun _ _ => rfl, Or.inl⟩
  · rw [called]
    refine ⟨fun fd different => openOnly_frame different, fun listed => ?_⟩
    cases file : files l.1.fd with
    | none =>
      rw [openOnly_closed file] at listed
      exact Or.inl listed
    | some f => exact Or.inr rfl

theorem Base.close (base : s.Base) (ready : ∀ fd : Nat, s.Tracked fd → s.Ready fd) (done : s.close fd = some t) :
    t.Base ∧ ∀ fd : Nat, t.Tracked fd → t.Ready fd := by
  obtain ⟨iom, work, kernel, get, closed, same⟩ := close_cases done
  have after : iom.Good ∧ ∀ g, g ≠ fd → iom.regs g = s.iom.regs g ∧ iom.kernel g = s.iom.kernel g := by
    rcases work with rfl | ⟨out, step⟩
    · exact ⟨base.good, fun _ _ => ⟨rfl, rfl⟩⟩
    · exact ⟨(base.good.refines _ step).good, fun g different =>
        ⟨base.good.regs_frame step different, (event_frame base.good step).1 g different⟩⟩
  have goodT : t.iom.Good := same ▸ after.1.withKernel _
  have tracked : ∀ g : Int, t.Tracked g → g ≠ fd ∧ s.Tracked g := by
    rintro g ⟨ctx, found⟩
    rw [get] at found
    by_cases here : g = fd
    · rw [here, Function.update_self] at found
      cases found
    · rw [Function.update_of_ne here] at found
      exact ⟨here, ctx, found⟩
  have acted : s.process.act (fun _ => false) (.close true fd) = some t.process := closed
  have proper : t.process.Proper := base.proper.step acted
  refine ⟨⟨goodT, proper, ?_, ?_⟩, ?_⟩
  · intro g found
    obtain ⟨different, old⟩ := tracked g found
    rw [kernel, Function.update_of_ne different]
    exact base.opened g old
  · intro g inList
    rw [same] at inList
    by_cases here : g = fd
    · rw [here] at inList
      simp at inList
    · simp only [Function.update_of_ne here, (after.2 g here).2] at inList
      rw [kernel, Function.update_of_ne (by exact_mod_cast here)]
      exact base.listed g inList
  · intro g found
    obtain ⟨different, old⟩ := tracked g found
    have here : g ≠ fd := by exact_mod_cast different
    refine (ready_congr base.good goodT ?_ ?_).mpr (ready g old)
    · rw [same]
      exact (after.2 g here).1
    · rw [same]
      exact (Function.update_of_ne here _ _).trans (after.2 g here).2

/-- The operation does not register an event of a tracked descriptor on a thread without a scheduler. -/
def Owned (s : Host κ) : EventOp κ → EventOut → Prop
  | .addEvent fd _ _ caller, out => out.success → s.Tracked fd → caller.scheduler.isSome
  | _, _ => True

/-- At an open descriptor that is ready, an operation leaves one that is ready exactly if it is owned. -/
theorem ready_event (base : s.Base) {l : EventOp κ × EventOut} (tracked : s.Tracked l.1.fd)
    (ready : s.Ready l.1.fd) {iom : IOManager (Nat → Option Mask) κ}
    (step : s.iom.Step (openOnly s.process.kernel) l iom) :
    Ready { s with iom := iom } l.1.fd ↔ s.Owned l.1 l.2 := by
  have opened := base.opened _ tracked
  have goodT := (base.good.refines _ step).good
  have plain : s.iom.Step interestList l iom := (exec_open base.good opened).symm.trans step
  have watched : (s.iom.regs l.1.fd).mask ≠ 0 → (s.iom.kernel l.1.fd).isSome := by
    intro waits
    rw [← base.good.eventsAt_eq] at waits
    exact (ready.resolve_left waits).1
  have scheduled : ∀ event x, (s.iom.regs l.1.fd).get event = some x → x.scheduler.isSome := by
    intro event x registered
    have waits := Regs.mask_ne_zero registered
    rw [← base.good.eventsAt_eq] at waits
    exact (ready.resolve_left waits).2 event x registered
  have listed : (iom.regs l.1.fd).mask = 0 ∨ (iom.kernel l.1.fd).isSome := by
    cases base.good.kernelStep watched plain with
    | silent kernel regs _ =>
      rw [kernel, regs]
      exact or_iff_not_imp_left.mpr watched
    | set _ regs kernel _ =>
      rw [kernel, Function.update_self]
      exact Or.inr rfl
    | delete _ regs _ empty _ =>
      rw [regs]
      exact Or.inl empty
  constructor
  · intro after
    obtain ⟨op, out⟩ := l
    cases op with
    | addEvent fd event cb caller =>
      intro success _
      have lies : (iom.regs fd).get event = some (IOManager.registration cb caller) :=
        base.good.addEvent_board plain success
      have waits := Regs.mask_ne_zero lies
      rw [← goodT.eventsAt_eq] at waits
      exact (after.resolve_left waits).2 event _ lies
    | delEvent | cancelEvent | cancelAll | report => trivial
  · intro owned
    unfold Ready
    rw [goodT.eventsAt_eq]
    refine listed.imp id fun inList => ⟨inList, fun event x registered => ?_⟩
    have lies : iom.board (l.1.fd, event) = some x := registered
    rcases base.good.registered_before plain lies with old | ⟨cb, caller, added, success, its⟩
    · exact scheduled event x old
    · rw [added] at owned
      rw [its]
      exact owned success tracked

theorem Base.event (base : s.Base) (ready : ∀ fd : Nat, s.Tracked fd → s.Ready fd) {l : EventOp κ × EventOut}
    {iom : IOManager (Nat → Option Mask) κ} (step : s.iom.Step (openOnly s.process.kernel) l iom) :
    Base { s with iom := iom } ∧
      ((∀ fd : Nat, Tracked { s with iom := iom } fd → Ready { s with iom := iom } fd) ↔ s.Owned l.1 l.2) := by
  have goodT := (base.good.refines _ step).good
  obtain ⟨others, here⟩ := event_frame base.good step
  refine ⟨⟨goodT, base.proper, base.opened, fun fd inList => ?_⟩, ?_⟩
  · by_cases same : fd = l.1.fd
    · rw [same] at inList ⊢
      exact (here inList).elim (base.listed _) id
    · exact base.listed fd (others fd same ▸ inList)
  · have elsewhere : ∀ fd : Nat, fd ≠ l.1.fd → (Ready { s with iom := iom } fd ↔ s.Ready fd) := fun fd different =>
      ready_congr base.good goodT (base.good.regs_frame step different) (others fd different)
    constructor
    · intro all
      by_cases tracked : s.Tracked l.1.fd
      · exact (ready_event base tracked (ready _ tracked) step).mp (all _ tracked)
      · obtain ⟨op, out⟩ := l
        cases op with
        | addEvent fd event cb caller => exact fun _ its => absurd its tracked
        | delEvent | cancelEvent | cancelAll | report => trivial
    · intro owned fd tracked
      by_cases same : fd = l.1.fd
      · subst same
        exact (ready_event base tracked (ready _ tracked) step).mpr owned
      · exact (elsewhere fd same).mpr (ready fd tracked)

/-- A call that makes a context finds no events under its number, and no event of a tracked descriptor is
registered on a thread without a scheduler. -/
def Admissible (s : Host κ) (l : Act κ) (_ : Host κ) : Prop :=
  match l with
  | .call op => op.tracks → s.iom.eventsAt op.fd.toNat = 0
  | .event op out => s.Owned op out
  | .close _ => True

theorem Base.step (base : s.Base) (ready : ∀ fd : Nat, s.Tracked fd → s.Ready fd) {l : Act κ}
    (step : s.Step refuses l t) : t.Base ∧ ((∀ fd : Nat, t.Tracked fd → t.Ready fd) ↔ s.Admissible l t) := by
  cases l with
  | call op =>
    have notClose : ∀ hook fd, op ≠ .close hook fd := by
      rintro hook fd rfl
      cases step
    have done : (s.process.act refuses op).map (fun process => { s with process := process }) = some t := by
      cases op <;> first | exact step | exact absurd rfl (notClose _ _)
    obtain ⟨p, called, rfl⟩ := Option.map_eq_some_iff.mp done
    exact base.call ready notClose called
  | close fd =>
    obtain ⟨after, closed⟩ := base.close ready step
    exact ⟨after, iff_of_true closed trivial⟩
  | event op out =>
    simp only [Step, act] at step
    split at step
    · rename_i rt iom executed
      split at step
      · rename_i same
        cases step
        exact base.event ready (l := (op, out)) (same ▸ executed)
      · cases step
    · cases step

/-- The process when the constructor of the `IOManager` has made its pipe. -/
structure Init (tickle : Nat) (s : Host κ) : Prop where
  iom : s.iom.InterestInit tickle
  datas : s.process.m_datas = List.replicate 64 none
  pipe : (s.process.kernel tickle).isSome

theorem Init.base {tickle : Nat} (first : s.Init tickle) : s.Base ∧ ∀ fd : Int, ¬ s.Tracked fd := by
  have get : s.process.get = ({} : Process).get := by
    funext fd
    simp only [Process.get, first.datas]
  have proper : s.process.Proper := fun fd ctx found => Process.proper_init fd ctx (get ▸ found)
  have untracked : ∀ fd : Int, ¬ s.Tracked fd := by
    rintro fd ⟨ctx, found⟩
    rw [get] at found
    unfold Process.get at found
    split at found
    · cases found
    split at found
    · cases found
    · obtain ⟨bound, same⟩ := List.getElem?_eq_some_iff.mp found
      rw [List.getElem_replicate] at same
      cases same
  refine ⟨⟨first.iom.init.good, proper, fun fd found => absurd found (untracked fd), fun fd listed => ?_⟩, untracked⟩
  rw [first.iom.kernel] at listed
  by_cases same : fd = tickle
  · exact same ▸ first.pipe
  · rw [Function.update_of_ne same] at listed
    cases listed

/-- Along a run, every tracked descriptor that is open is closed as it should be, in every state, exactly
as long as the steps are admissible. -/
theorem correct_run_iff {tickle : Nat} (first : s.Init tickle) {ls : List (Act κ)} :
    s.Correct ∧ Run (Guarded (Step refuses) fun _ _ t => t.Correct) s ls t ↔
      Run (Guarded (Step refuses) Admissible) s ls t := by
  obtain ⟨base, untracked⟩ := first.base
  have start : s.Correct := fun fd found => absurd found (untracked fd)
  rw [and_iff_right start]
  refine Run.guarded_congr (fun s => s.Base ∧ ∀ fd : Nat, s.Tracked fd → s.Ready fd) ?_ ?_
    ⟨base, fun fd found => absurd found (untracked fd)⟩
  · rintro s l t ⟨base, ready⟩ step
    obtain ⟨after, exactly⟩ := base.step ready step
    exact after.correct_iff.trans exactly
  · rintro s l t ⟨base, ready⟩ step correct
    obtain ⟨after, -⟩ := base.step ready step
    exact ⟨after, after.correct_iff.mp correct⟩

/-- A process whose `IOManager` has the pipe 5. -/
def fresh : Host Nat where
  process := { kernel := Function.update (fun _ => none) 5 (some { isSocket := false, flags := O_NONBLOCK }) }
  iom := IOManager.freshPipe

theorem fresh_init : fresh.Init 5 := ⟨IOManager.freshPipe_init, rfl, rfl⟩

/-- A socket is made, waited for, and closed. -/
theorem correct_run_socket : ∃ t,
    fresh.Correct ∧ Run (Guarded (Step fun _ => false) fun _ _ t => t.Correct) fresh
      [.call (.socket true 0 3), .event (.addEvent 3 .READ (some 7) ⟨some 0, 1, .EXEC⟩) ⟨true, some 0⟩,
       .close 3] t :=
  ⟨_, (correct_run_iff fresh_init).mpr <| .cons ⟨rfl, fun _ => rfl⟩ <| .cons ⟨rfl, fun _ _ => rfl⟩ <|
    .cons ⟨rfl, trivial⟩ .start⟩

/-- The pipe 3 is closed while its read end is waited for. It has no context, so that its event stays set,
and a socket that is made with the same number cannot be cleared of it. -/
theorem not_correct_reused : ∃ t,
    Run (Step fun _ => false) fresh
      [.call (.open_ 0 3), .event (.addEvent 3 .READ (some 7) ⟨some 0, 1, .EXEC⟩) ⟨true, some 0⟩, .close 3,
       .call (.socket true 0 3)] t ∧
    t.Tracked 3 ∧ (t.process.kernel 3).isSome ∧ t.iom.eventsAt 3 = Event.READ.bits ∧ ¬ t.Closes 3 := by
  refine ⟨_, .cons rfl <| .cons rfl <| .cons rfl <| .cons rfl .start, ⟨_, rfl⟩, rfl, rfl, ?_⟩
  rintro ⟨u, done, closed⟩
  cases done
  exact absurd (closed.context _ rfl).1 (by decide)

end Host
end Sylar
