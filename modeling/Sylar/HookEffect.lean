import Sylar.Hook

/-! What each call does to the file and the context of its descriptor. -/

namespace Sylar

variable (refuses : BitVec 32 → Bool)

/-- The socket that the kernel makes. -/
def KernelFile.new (type : BitVec 32) : KernelFile :=
  { isSocket := true, flags := O_RDWR ||| (type &&& SOCK_NONBLOCK) }

def KernelFile.setfl (file : KernelFile) (arg : BitVec 32) : KernelFile :=
  if Kernel.refused refuses arg then file
  else { file with flags := (file.flags &&& ~~~ SETFL_MASK) ||| (arg &&& SETFL_MASK) }

def KernelFile.fionbio (file : KernelFile) (v : BitVec 32) : KernelFile :=
  { file with flags := if v ≠ 0 then file.flags ||| O_NONBLOCK else file.flags &&& ~~~ O_NONBLOCK }

/-- The context that `FdCtx::init` makes for a socket. -/
def FdCtx.new (type : BitVec 32) : FdCtx :=
  { m_isInit := true, m_isSocket := true, m_sysNonblock := ! nonblock type }

variable {refuses} {file : KernelFile} {type arg v : BitVec 32} {fd : Int}

@[simp] theorem KernelFile.isSocket_setfl : (file.setfl refuses arg).isSocket = file.isSocket := by
  unfold setfl
  split <;> rfl

@[simp] theorem KernelFile.nonblock_setfl : nonblock (file.setfl refuses arg).flags =
    if Kernel.refused refuses arg then nonblock file.flags else nonblock arg := by
  unfold setfl
  split <;> simp

@[simp] theorem KernelFile.isSocket_fionbio : (file.fionbio v).isSocket = file.isSocket := rfl

@[simp] theorem KernelFile.nonblock_fionbio : nonblock (file.fionbio v).flags = decide (v ≠ 0) := by
  unfold fionbio
  by_cases zero : v = 0#32 <;> simp [zero]

@[simp] theorem KernelFile.nonblock_new : nonblock (KernelFile.new type).flags = nonblock type := by
  simp [new]

namespace Kernel

variable {k : Kernel}

theorem setfl_snd (k : Kernel) (fd : Int) (arg : BitVec 32) :
    (k.setfl refuses fd arg).2 = Function.update k fd ((k fd).map (·.setfl refuses arg)) := by
  unfold setfl
  cases file : k fd with
  | none => exact (Function.update_eq_self_iff.mpr file.symm).symm
  | some f =>
    simp only [Option.map_some, KernelFile.setfl]
    split
    · exact (Function.update_eq_self_iff.mpr file.symm).symm
    · rfl

theorem fionbio_snd (k : Kernel) (fd : Int) (v : BitVec 32) :
    (k.fionbio fd v).2 = Function.update k fd ((k fd).map (·.fionbio v)) := by
  unfold fionbio
  cases file : k fd with
  | none => exact (Function.update_eq_self_iff.mpr file.symm).symm
  | some f => rfl

theorem open_eq_some {k' : Kernel} (done : k.open_ fd file = some k') :
    k fd = none ∧ k' = Function.update k fd (some file) := by
  unfold open_ at done
  split at done
  · rename_i free
    exact ⟨free.2, (Option.some.inj done).symm⟩
  · cases done

theorem accept_eq (k : Kernel) (fd : Int) : k.accept fd = k.socket 0 fd := by
  have same : O_RDWR ||| (0 &&& SOCK_NONBLOCK) = O_RDWR := by decide
  rw [accept, socket, same]

end Kernel

/-- `FdCtx::init` on a new socket: the kernel has `O_NONBLOCK` set afterwards. -/
theorem FdCtx.init_new {k : Kernel} (file : k fd = some (.new type)) : ∃ made : KernelFile,
    FdCtx.init refuses k fd = (.new type, Function.update k fd (some made)) ∧ made.isSocket ∧ nonblock made.flags := by
  have flags : k.getfl fd = (KernelFile.new type).flags := by simp [Kernel.getfl, file]
  have socket : (KernelFile.new type).isSocket = true := rfl
  simp only [init, file, socket, if_true, flags, KernelFile.nonblock_new]
  cases set : nonblock type with
  | true =>
    refine ⟨.new type, ?_, rfl, by rw [KernelFile.nonblock_new, set]⟩
    have same : Function.update k fd (some (.new type)) = k := Function.update_eq_self_iff.mpr file.symm
    simp [FdCtx.new, set, same]
  | false =>
    have accepted : Kernel.refused refuses ((KernelFile.new type).flags ||| O_NONBLOCK) = false := by
      have empty : type &&& SOCK_NONBLOCK = 0 := by simpa [nonblock, SOCK_NONBLOCK] using set
      have plain : (KernelFile.new type).flags = O_RDWR := by
        rw [KernelFile.new, empty]
        decide
      rw [Kernel.refused_or, plain]
      rfl
    refine ⟨(KernelFile.new type).setfl refuses ((KernelFile.new type).flags ||| O_NONBLOCK), ?_, ?_, ?_⟩
    · simp [FdCtx.new, set, Kernel.setfl_snd, file]
    · simp [socket]
    · simp [accepted]

namespace Process

variable {s t : Process}

/-- Every context is that of a socket and none is closed. -/
def Proper (s : Process) : Prop := ∀ fd ctx, s.get fd = some (some ctx) → ctx.m_isSocket ∧ ¬ ctx.m_isClosed

/-- The step changes the file and the context of one descriptor. -/
structure ChangedAt (s t : Process) (fd : Int) (file : Option KernelFile) (slot : Option (Option FdCtx)) : Prop where
  kernel : t.kernel = Function.update s.kernel fd file
  get : t.get = Function.update s.get fd slot

/-- A call that leaves the contexts alone. -/
theorem changedAt_kernel {kernel : Kernel} {file : Option KernelFile}
    (same : kernel = Function.update s.kernel fd file) :
    s.ChangedAt { s with kernel := kernel } fd file (s.get fd) :=
  ⟨same, (Function.update_eq_self fd s.get).symm⟩

theorem Proper.live {ctx : FdCtx} (proper : s.Proper) (found : s.get fd = some (some ctx)) :
    ¬ (ctx.m_isClosed = true ∨ ¬ ctx.m_isSocket = true) := by
  obtain ⟨socket, notClosed⟩ := proper fd ctx found
  exact fun dead => dead.elim notClosed (· socket)

theorem get_set (inside : ¬ (s.m_datas.length : Int) ≤ fd) (positive : ¬ fd < 0) (kernel : Kernel)
    (slot : Option FdCtx) :
    get { kernel := kernel, m_datas := s.m_datas.set fd.toNat slot } = Function.update s.get fd (some slot) := by
  funext g
  by_cases same : g = fd
  · subst same
    have bound : g.toNat < s.m_datas.length := by omega
    simp [get, inside, positive, bound]
  · rw [Function.update_of_ne same]
    simp only [get, List.length_set]
    split
    · rfl
    split
    · rfl
    · rename_i notNegative
      rw [List.getElem?_set_ne]
      omega

/-- A descriptor that `m_datas` can be read at is not negative, and one with a context has a place. -/
theorem positive_of_get {slot : Option FdCtx} (found : s.get fd = some slot) : ¬ fd < 0 := by
  intro negative
  have inside : ¬ (s.m_datas.length : Int) ≤ fd := by omega
  rw [get, if_neg inside, if_pos negative] at found
  cases found

theorem inside_of_get {ctx : FdCtx} (found : s.get fd = some (some ctx)) : ¬ (s.m_datas.length : Int) ≤ fd := by
  intro outside
  rw [get, if_pos outside] at found
  cases found

/-- What a call leaves at its descriptor: the file of the kernel and the context. A descriptor that is
made anew can still have the context of a socket that was closed without the hook. -/
inductive Effect (refuses : BitVec 32 → Bool) (s : Process) : Op → Option KernelFile → Option (Option FdCtx) → Prop
  | stale {hook : Bool} {type : BitVec 32} {fd : Int} {ctx : FdCtx} : s.kernel fd = none → s.get fd = some (some ctx) →
      Effect refuses s (.socket hook type fd) (some (.new type)) (some (some ctx))
  | fresh {type : BitVec 32} {fd : Int} {file : KernelFile} : s.kernel fd = none → s.get fd = some none →
      file.isSocket → nonblock file.flags →
      Effect refuses s (.socket true type fd) (some file) (some (some (.new type)))
  | untracked {type : BitVec 32} {fd : Int} : s.kernel fd = none → (∀ ctx, s.get fd ≠ some (some ctx)) →
      Effect refuses s (.socket false type fd) (some (.new type)) (s.get fd)
  | open_ {flags : BitVec 32} {fd : Int} : s.kernel fd = none →
      Effect refuses s (.open_ flags fd) (some { isSocket := false, flags := flags }) (s.get fd)
  | close {hook : Bool} {fd : Int} {slot : Option (Option FdCtx)} : slot = s.get fd ∨ slot = some none →
      Effect refuses s (.close hook fd) none slot
  | setfl {fd : Int} {arg : BitVec 32} {ctx : FdCtx} : s.get fd = some (some ctx) → Effect refuses s (.setfl fd arg)
      ((s.kernel fd).map
        (·.setfl refuses (if ctx.m_sysNonblock then arg ||| O_NONBLOCK else arg &&& ~~~ O_NONBLOCK)))
      (some (some { ctx with m_userNonblock := nonblock arg }))
  | setflPlain {fd : Int} {arg : BitVec 32} : s.get fd = some none →
      Effect refuses s (.setfl fd arg) ((s.kernel fd).map (·.setfl refuses arg)) (some none)
  | fionbio {fd : Int} {v : BitVec 32} {ctx : FdCtx} : s.get fd = some (some ctx) → Effect refuses s (.fionbio fd v)
      ((s.kernel fd).map (·.fionbio v)) (some (some { ctx with m_userNonblock := v ≠ 0 }))
  | fionbioPlain {fd : Int} {v : BitVec 32} : s.get fd = some none →
      Effect refuses s (.fionbio fd v) ((s.kernel fd).map (·.fionbio v)) (some none)

/-- `accept` returns a socket as `socket` without flags does. -/
def Op.asSocket : Op → Op
  | .accept fd => .socket true 0 fd
  | l => l

theorem socket_effect {hook : Bool} (done : s.socket refuses hook type fd = some t) :
    ∃ file slot, Effect refuses s (.socket hook type fd) file slot ∧ s.ChangedAt t fd file slot := by
  obtain ⟨kernel, made, done⟩ := Option.bind_eq_some_iff.mp done
  have made : s.kernel.open_ fd (.new type) = some kernel := made
  obtain ⟨free, rfl⟩ := Kernel.open_eq_some made
  have kept : ChangedAt s { s with kernel := Function.update s.kernel fd (some (.new type)) } fd (some (.new type))
      (s.get fd) := changedAt_kernel rfl
  cases hook with
  | false =>
    cases done
    cases found : s.get fd with
    | none => exact ⟨_, _, .untracked free (by rw [found]; nofun), kept⟩
    | some slot =>
      cases slot with
      | none => exact ⟨_, _, .untracked free (by rw [found]; nofun), kept⟩
      | some ctx => exact ⟨_, _, .stale free found, found ▸ kept⟩
  | true =>
    obtain ⟨⟨ctx, u⟩, created, done⟩ := Option.bind_eq_some_iff.mp done
    cases done
    obtain ⟨slot, found, created⟩ := Option.bind_eq_some_iff.mp created
    have found : s.get fd = some slot := found
    cases slot with
    | some ctx' =>
      cases created
      exact ⟨_, _, .stale free found, found ▸ kept⟩
    | none =>
      simp only at created
      split at created
      · cases created
      · rename_i inside
        obtain ⟨made, init, socket, set⟩ := FdCtx.init_new (Function.update_self fd (some (.new type)) s.kernel)
        rw [init] at created
        cases created
        refine ⟨_, _, .fresh free found socket set, ⟨Function.update_idem .., ?_⟩⟩
        exact get_set inside (positive_of_get found) _ _

theorem setCtx_changedAt {ctx ctx' : FdCtx} {file : Option KernelFile} {kernel : Kernel}
    (found : s.get fd = some (some ctx)) (same : kernel = Function.update s.kernel fd file) :
    s.ChangedAt { s.setCtx fd ctx' with kernel := kernel } fd file (some (some ctx')) :=
  ⟨same, get_set (inside_of_get found) (positive_of_get found) _ _⟩

theorem setfl_effect (proper : s.Proper) {rt : Int} (done : s.setfl refuses fd arg = some (rt, t)) :
    ∃ file slot, Effect refuses s (.setfl fd arg) file slot ∧ s.ChangedAt t fd file slot := by
  obtain ⟨slot, found, done⟩ := Option.bind_eq_some_iff.mp done
  cases slot with
  | none =>
    cases done
    exact ⟨_, _, .setflPlain found, found ▸ changedAt_kernel (Kernel.setfl_snd ..)⟩
  | some ctx =>
    simp only [if_neg (proper.live found)] at done
    cases done
    exact ⟨_, _, .setfl found, setCtx_changedAt found (Kernel.setfl_snd ..)⟩

theorem fionbio_effect (proper : s.Proper) {rt : Int} (done : s.fionbio fd v = some (rt, t)) :
    ∃ file slot, Effect refuses s (.fionbio fd v) file slot ∧ s.ChangedAt t fd file slot := by
  obtain ⟨slot, found, done⟩ := Option.bind_eq_some_iff.mp done
  cases slot with
  | none =>
    cases done
    exact ⟨_, _, .fionbioPlain found, found ▸ changedAt_kernel (Kernel.fionbio_snd ..)⟩
  | some ctx =>
    simp only [if_neg (proper.live found)] at done
    cases done
    exact ⟨_, _, .fionbio found, setCtx_changedAt found (Kernel.fionbio_snd ..)⟩

theorem close_effect {hook : Bool} (done : s.close hook fd = some t) :
    ∃ file slot, Effect refuses s (.close hook fd) file slot ∧ s.ChangedAt t fd file slot := by
  have kept : ChangedAt s { s with kernel := s.kernel.close fd } fd none (s.get fd) :=
    changedAt_kernel rfl
  cases hook with
  | false =>
    cases done
    exact ⟨_, _, .close (.inl rfl), kept⟩
  | true =>
    obtain ⟨slot, found, done⟩ := Option.bind_eq_some_iff.mp done
    cases slot with
    | none =>
      cases done
      exact ⟨_, _, .close (.inl rfl), kept⟩
    | some ctx =>
      have positive := positive_of_get found
      have inside := inside_of_get found
      obtain ⟨u, deleted, done⟩ := Option.bind_eq_some_iff.mp done
      rw [del, if_neg inside, if_neg positive] at deleted
      cases deleted
      cases done
      exact ⟨_, _, .close (.inr rfl), rfl, get_set inside positive _ _⟩

theorem act_asSocket (s : Process) (l : Op) : s.act refuses l = s.act refuses l.asSocket := by
  cases l with
  | accept fd => simp only [act, Op.asSocket, accept, socket, Kernel.accept_eq, if_true]
  | _ => rfl

/-- Every call has one of these effects. -/
theorem act_effect {l : Op} (proper : s.Proper) (done : s.act refuses l = some t) :
    ∃ file slot, Effect refuses s l.asSocket file slot ∧ s.ChangedAt t l.fd file slot := by
  rw [act_asSocket] at done
  cases l with
  | socket hook type fd => exact socket_effect done
  | accept fd => exact socket_effect done
  | open_ flags fd =>
    obtain ⟨kernel, made, same⟩ := Option.map_eq_some_iff.mp done
    obtain ⟨free, rfl⟩ := Kernel.open_eq_some made
    cases same
    exact ⟨_, _, .open_ free, changedAt_kernel rfl⟩
  | close hook fd => exact close_effect done
  | setfl fd arg =>
    obtain ⟨⟨rt, u⟩, called, rfl⟩ := Option.map_eq_some_iff.mp done
    exact setfl_effect proper called
  | fionbio fd v =>
    obtain ⟨⟨rt, u⟩, called, rfl⟩ := Option.map_eq_some_iff.mp done
    exact fionbio_effect proper called

end Process
end Sylar
