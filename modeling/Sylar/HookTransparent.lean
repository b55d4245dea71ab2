import Sylar.HookNonblock

/-! The hooked process beside a kernel that gets the same calls without the hooks. -/

namespace Sylar.Process
open Machine

variable {refuses : BitVec 32 → Bool} {s t : Process} {k k' : Kernel} {l : Op} {fd : Int} {file : KernelFile}
  {ctx : FdCtx}

/-- The same call, with the hooks and without them. -/
def Paired (refuses : BitVec 32 → Bool) (p : Process × Kernel) (l : Op) (q : Process × Kernel) : Prop :=
  p.1.act refuses l = some q.1 ∧ plain refuses p.2 l = some q.2

/-- For every tracked socket, the hooked `F_GETFL` reports the bit that the kernel without hooks reports,
and `do_io` hands calls to the system if and only if that bit is set. -/
def Transparent (p : Process × Kernel) : Prop :=
  ∀ fd file ctx, p.1.Tracks fd file ctx →
    (∃ flags, p.1.getfl fd = some flags ∧ nonblock flags = nonblock (p.2.getfl fd)) ∧
    (p.1.do_io true fd = some .passThrough ↔ nonblock (p.2.getfl fd))

/-- What the kernel without hooks has at the descriptor of the call. -/
def plainFile (refuses : BitVec 32 → Bool) (k : Kernel) : Op → Option KernelFile
  | .socket _ type _ => some (.new type)
  | .accept _ => some (.new 0)
  | .open_ flags _ => some { isSocket := false, flags := flags }
  | .close _ _ => none
  | .setfl fd arg => (k fd).map (·.setfl refuses arg)
  | .fionbio fd v => (k fd).map (·.fionbio v)

theorem plain_eq_some (done : plain refuses k l = some k') :
    k' = Function.update k l.fd (plainFile refuses k l.asSocket) := by
  cases l with
  | socket hook type fd => exact (Kernel.open_eq_some done).2
  | accept fd =>
    rw [plain, Kernel.accept_eq] at done
    exact (Kernel.open_eq_some done).2
  | open_ flags fd => exact (Kernel.open_eq_some done).2
  | close hook fd => exact (Option.some.inj done).symm
  | setfl fd arg => exact (Option.some.inj done).symm.trans (Kernel.setfl_snd ..)
  | fionbio fd v => exact (Option.some.inj done).symm.trans (Kernel.fionbio_snd ..)

/-- `m_userNonblock` decides what the user sees. -/
theorem getfl_of_tracks (proper : s.Proper) (tracks : s.Tracks fd file ctx) :
    ∃ flags, s.getfl fd = some flags ∧ nonblock flags = ctx.m_userNonblock := by
  obtain ⟨socket, notClosed⟩ := proper fd ctx tracks.2.2
  unfold getfl
  cases user : ctx.m_userNonblock <;> simp [tracks.2.2, socket, notClosed, user]

theorem do_io_of_tracks (proper : s.Proper) (tracks : s.Tracks fd file ctx) :
    s.do_io true fd = some .passThrough ↔ ctx.m_userNonblock := by
  obtain ⟨socket, notClosed⟩ := proper fd ctx tracks.2.2
  unfold do_io
  cases user : ctx.m_userNonblock <;> simp [tracks.2.2, socket, notClosed, user]

theorem transparent_iff (proper : s.Proper) :
    Transparent (s, k) ↔ ∀ fd file ctx, s.Tracks fd file ctx → ctx.m_userNonblock = nonblock (k.getfl fd) := by
  refine forall_congr' fun fd => forall_congr' fun file => forall_congr' fun ctx => ?_
  refine imp_congr_right fun tracks => ?_
  obtain ⟨flags, got, bit⟩ := getfl_of_tracks proper tracks
  rw [do_io_of_tracks proper tracks]
  constructor
  · rintro ⟨⟨flags', got', same⟩, -⟩
    cases got.symm.trans got'
    exact bit.symm.trans same
  · intro same
    exact ⟨⟨flags, got, bit.trans same⟩, by rw [same]⟩

/-- Both kernels have the same descriptors open. -/
def Twin (s : Process) (k : Kernel) : Prop := ∀ fd, (k fd).map (·.isSocket) = (s.kernel fd).map (·.isSocket)

/-- The call shows the user what the kernel without hooks shows. A new socket has to be blocking, or as
the context says that is left over from an earlier socket; and `F_SETFL` with flags that the kernel
refuses has to leave `O_NONBLOCK` as it is. -/
def Shows (refuses : BitVec 32 → Bool) (p : Process × Kernel) (l : Op) (_ : Process × Kernel) : Prop :=
  match l with
  | .socket t_hook_enable type fd =>
    (∀ ctx, p.1.get fd = some (some ctx) → ctx.m_userNonblock = nonblock type) ∧
    (t_hook_enable → p.1.get fd = some none → nonblock type = false)
  | .accept fd => ∀ ctx, p.1.get fd = some (some ctx) → ctx.m_userNonblock = false
  | .setfl fd arg => ∀ file ctx, p.1.Tracks fd file ctx → Kernel.refused refuses arg →
      ctx.m_userNonblock = nonblock arg
  | .open_ _ _ | .close _ _ | .fionbio _ _ => True

theorem shows_asSocket (p q : Process × Kernel) (l : Op) : Shows refuses p l q ↔ Shows refuses p l.asSocket q := by
  cases l with
  | accept fd =>
    have clear : nonblock 0#32 = false := by decide
    simp [Shows, Op.asSocket, clear]
  | _ => exact Iff.rfl

theorem Twin.step (twin : s.Twin k) (proper : s.Proper) (done : s.act refuses l = some t)
    (donePlain : plain refuses k l = some k') : t.Twin k' := by
  obtain ⟨file, slot, effect, changed⟩ := act_effect proper done
  have same : (plainFile refuses k l.asSocket).map (·.isSocket) = file.map (·.isSocket) := by
    generalize l.asSocket = l' at effect
    cases effect with
    | stale | untracked | open_ | close => rfl
    | fresh _ _ socket => exact congrArg some socket.symm
    | setfl | setflPlain | fionbio | fionbioPlain => simpa [plainFile, Function.comp_def] using twin _
  intro g
  rw [plain_eq_some donePlain, changed.kernel]
  by_cases here : g = l.fd
  · rw [here, Function.update_self, Function.update_self, same]
  · rw [Function.update_of_ne here, Function.update_of_ne here]
    exact twin g

theorem Twin.plain (twin : s.Twin k) (tracks : s.Tracks fd file ctx) : ∃ plain, k fd = some plain := by
  have same := twin fd
  rw [tracks.1] at same
  obtain ⟨plain, here, -⟩ := Option.map_eq_some_iff.mp same
  exact ⟨plain, here⟩

/-- From a state in which the hooks are transparent, they are so after a call if and only if the call
shows the user what the kernel without hooks shows. -/
theorem transparent_step (proper : s.Proper) (twin : s.Twin k) (before : Transparent (s, k))
    (done : s.act refuses l = some t) (donePlain : plain refuses k l = some k') :
    Transparent (t, k') ↔ Shows refuses (s, k) l (t, k') := by
  obtain ⟨file, slot, effect, changed⟩ := act_effect proper done
  have agrees := (transparent_iff proper).mp before
  have plainStep := plain_eq_some donePlain
  have elsewhere : ∀ g (f : KernelFile) (ctx : FdCtx), g ≠ l.fd →
      (ctx.m_userNonblock = nonblock (k'.getfl g) ↔ ctx.m_userNonblock = nonblock (k.getfl g)) := by
    intro g f ctx other
    rw [plainStep, Kernel.getfl, Function.update_of_ne other, ← Kernel.getfl]
  have here : ∀ f, plainFile refuses k l.asSocket = some f → nonblock (k'.getfl l.fd) = nonblock f.flags := by
    intro f file
    rw [plainStep, Kernel.getfl, Function.update_self, file]
  rw [transparent_iff (proper.step done), shows_asSocket, changed.forall_tracks agrees elsewhere]
  generalize k'.getfl l.fd = bits at here
  generalize l.asSocket = l' at effect here
  cases effect with
  | @stale hook type fd ctx free found =>
    rw [here _ rfl, KernelFile.nonblock_new]
    constructor
    · intro mine
      refine ⟨fun ctx' found' => ?_, fun _ none => ?_⟩
      · cases found.symm.trans found'
        exact mine _ _ rfl rfl rfl
      · cases found.symm.trans none
    · rintro shows f ctx' - - ⟨⟩
      exact shows.1 _ found
  | @fresh type fd made free none socket set =>
    rw [here _ rfl, KernelFile.nonblock_new]
    constructor
    · intro mine
      refine ⟨fun ctx found => ?_, fun _ _ => (mine _ _ rfl socket rfl).symm⟩
      cases none.symm.trans found
    · rintro shows f ctx - - ⟨⟩
      exact (shows.2 rfl none).symm
  | untracked free none =>
    constructor
    · exact fun _ => ⟨fun ctx found => absurd found (none ctx), fun hook => absurd hook Bool.false_ne_true⟩
    · exact fun _ f ctx _ _ found => absurd found (none ctx)
  | open_ =>
    refine ⟨fun _ => trivial, ?_⟩
    rintro - f ctx ⟨⟩ socket -
    cases socket
  | close =>
    refine ⟨fun _ => trivial, ?_⟩
    rintro - f ctx ⟨⟩
  | @setfl fd arg ctx found =>
    have old : ∀ file plain, s.Tracks fd file ctx → k fd = some plain → ctx.m_userNonblock = nonblock plain.flags := by
      intro file plain tracks atPlain
      have shown := agrees fd file ctx tracks
      rwa [Kernel.getfl, atPlain] at shown
    constructor
    · intro mine file ctx' tracks refused
      cases found.symm.trans tracks.2.2
      obtain ⟨plain, atPlain⟩ := twin.plain tracks
      have same := mine _ _ (by rw [tracks.1]; rfl) (by simpa using tracks.2.1) rfl
      rw [here (plain.setfl refuses arg) (by simp [plainFile, atPlain]), KernelFile.nonblock_setfl,
        if_pos refused] at same
      exact (old file plain tracks atPlain).trans same.symm
    · rintro shows f ctx' atFile socket ⟨⟩
      obtain ⟨file, opened, rfl⟩ := Option.map_eq_some_iff.mp atFile
      have tracks : s.Tracks fd file ctx := ⟨opened, by simpa using socket, found⟩
      obtain ⟨plain, atPlain⟩ := twin.plain tracks
      rw [here (plain.setfl refuses arg) (by simp [plainFile, atPlain]), KernelFile.nonblock_setfl]
      split
      · rename_i refused
        exact (shows file ctx tracks refused).symm.trans (old file plain tracks atPlain)
      · rfl
  | setflPlain none =>
    constructor
    · rintro - file ctx ⟨-, -, found⟩
      cases none.symm.trans found
    · rintro - f ctx - - ⟨⟩
  | @fionbio fd v ctx found =>
    refine ⟨fun _ => trivial, ?_⟩
    rintro - f ctx' atFile socket ⟨⟩
    obtain ⟨file, opened, rfl⟩ := Option.map_eq_some_iff.mp atFile
    obtain ⟨plain, atPlain⟩ := twin.plain ⟨opened, socket, found⟩
    rw [here (plain.fionbio v) (by simp [plainFile, atPlain]), KernelFile.nonblock_fionbio]
  | fionbioPlain none =>
    refine ⟨fun _ => trivial, ?_⟩
    rintro - f ctx - - ⟨⟩

theorem transparent_init : Transparent ({}, fun _ => none) := by
  rintro fd file ctx ⟨none, -⟩
  cases none

/-- In every run, the hooks are transparent all along if and only if every call shows the user what the
kernel without hooks shows. -/
theorem run_transparent_iff_shows {q : Process × Kernel} {ls : List Op} :
    Run (Guarded (Paired refuses) fun _ _ q => Transparent q) ({}, fun _ => none) ls q ↔
      Run (Guarded (Paired refuses) (Shows refuses)) ({}, fun _ => none) ls q :=
  Run.guarded_congr (fun p => p.1.Proper ∧ p.1.Twin p.2 ∧ Transparent p)
    (fun _ _ _ good step => transparent_step good.1 good.2.1 good.2.2 step.1 step.2)
    (fun _ _ _ good step after => ⟨good.1.step step.1, good.2.1.step good.1 step.1 step.2, after⟩)
    ⟨proper_init, fun _ => rfl, transparent_init⟩

/-- A step of both, for runs that are given as lists. -/
def both (refuses : BitVec 32 → Bool) (p : Process × Kernel) (l : Op) : Option (Process × Kernel) := do
  let t ← p.1.act refuses l
  let k ← plain refuses p.2 l
  return (t, k)

theorem paired_of_both {p q : Process × Kernel} (done : both refuses p l = some q) : Paired refuses p l q := by
  obtain ⟨t, acted, done⟩ := Option.bind_eq_some_iff.mp done
  obtain ⟨k, plainActed, done⟩ := Option.bind_eq_some_iff.mp done
  cases done
  exact ⟨acted, plainActed⟩

def O_DIRECT : BitVec 32 := 0x4000

/-- A socket that is made with `SOCK_NONBLOCK` shows as blocking, also to `do_io`. One that is made
blocking shows as nonblocking after an `F_SETFL` that the kernel has refused. -/
theorem not_transparent :
    (∃ q, Run (Paired fun _ => false) ({}, fun _ => none) [.socket true SOCK_NONBLOCK 3] q ∧ ¬ Transparent q) ∧
    (∃ q, Run (Paired fun flags => flags = O_DIRECT) ({}, fun _ => none)
      [.socket true 0 3, .setfl 3 (O_NONBLOCK ||| O_DIRECT)] q ∧ ¬ Transparent q) := by
  have differs : ∀ {refuses : BitVec 32 → Bool} {ls : List Op} {q file ctx flags},
      acts (both refuses) ({}, fun _ => none) ls = some q → q.1.Tracks 3 file ctx → q.1.getfl 3 = some flags →
      nonblock flags ≠ nonblock (q.2.getfl 3) →
      ∃ q, Run (Paired refuses) ({}, fun _ => none) ls q ∧ ¬ Transparent q := by
    intro refuses ls q file ctx flags done tracks got other
    refine ⟨q, (run_of_acts _ done).mono fun _ _ _ => paired_of_both, fun transparent => ?_⟩
    obtain ⟨⟨flags', got', same⟩, -⟩ := transparent 3 file ctx tracks
    cases got.symm.trans got'
    exact other same
  constructor
  · exact differs rfl ⟨rfl, rfl, rfl⟩ rfl (by decide)
  · exact differs rfl ⟨rfl, rfl, rfl⟩ rfl (by decide)

end Sylar.Process
