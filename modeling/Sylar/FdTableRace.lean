import Sylar.FdTable
import Sylar.HookEffect

/-! `FdManager::get` as several threads see it: the lookup under the read lock and the creation under
the write lock are two steps. -/

namespace Sylar
open Machine

/-- The manager, for each thread between the two parts of `get(fd, true)` its `fd`, and the contexts
that the calls have returned. -/
structure FdGets where
  table : FdTable
  pending : Nat → Option Int := fun _ => none
  returned : List (Int × CtxPtr) := []

namespace FdGets

inductive Act
  | lookup (fd : Int) (auto_create : Bool)
  | create
  deriving DecidableEq, Repr

variable (refuses : BitVec 32 → Bool)

def act (s : FdGets) (thread : Nat) : Act → Option FdGets
  | .lookup fd auto_create => do
    match ← s.table.lookup fd auto_create with
    | .returns ctx => return { s with returned := s.returned ++ ctx.toList.map fun c => (fd, c) }
    | .creates => return { s with pending := Function.update s.pending thread (some fd) }
  | .create => do
    let fd ← s.pending thread
    let (ctx, table) ← s.table.create refuses fd
    return {
      table := table
      pending := Function.update s.pending thread none
      returned := s.returned ++ [(fd, ctx)] }

/-- A thread does nothing else between the two parts of its call. -/
def Step (s : FdGets) (l : Nat × Act) (t : FdGets) : Prop :=
  (l.2 ≠ .create → s.pending l.1 = none) ∧ s.act refuses l.1 l.2 = some t

/-- Over the kernel `k` as it was at the start: for each descriptor all calls have returned one context,
`FdCtx::init` has run at most once, and a blocking socket is recorded as made nonblocking. -/
structure Once (k : Kernel) (s : FdGets) : Prop where
  same : ∀ fd c d, (fd, c) ∈ s.returned → (fd, d) ∈ s.returned → c = d
  inits : ∀ c d, c < s.table.made → d < s.table.made → s.table.m_fd c = s.table.m_fd d → c = d
  recorded : ∀ c < s.table.made, ∀ file, k (s.table.m_fd c) = some file → file.isSocket →
    nonblock file.flags = false → (s.table.heap c).m_sysNonblock

/-- The vector has no context for the descriptor by the time the thread has the write lock. -/
def Alone (s : FdGets) (l : Nat × Act) (_ : FdGets) : Prop :=
  l.2 = .create → ∀ fd, s.pending l.1 = some fd → s.table.slot fd = none

end FdGets

section Init
variable {refuses : BitVec 32 → Bool} {k : Kernel} {fd : Int}

theorem FdCtx.init_of_ne {g : Int} (other : g ≠ fd) : (FdCtx.init refuses k fd).2 g = k g := by
  unfold FdCtx.init
  split
  · rfl
  split
  · simp only
    split
    · rw [Kernel.setfl_snd, Function.update_of_ne other]
    · rfl
  · rfl

theorem FdCtx.init_blocking {file : KernelFile} (opened : k fd = some file) (socket : file.isSocket)
    (blocking : nonblock file.flags = false) : (FdCtx.init refuses k fd).1.m_sysNonblock := by
  have flags : k.getfl fd = file.flags := by simp [Kernel.getfl, opened]
  simp [FdCtx.init, opened, socket, flags, blocking]

end Init

namespace FdGets

variable {refuses : BitVec 32 → Bool} {k : Kernel} {s t : FdGets} {thread : Nat} {fd : Int}

/-- Every context that has been made is in the vector, under its descriptor, and is what the calls
have returned for it; a descriptor without a context has its file as it was. -/
structure Good (k : Kernel) (s : FdGets) : Prop where
  once : s.Once k
  kept : ∀ c < s.table.made, s.table.slot (s.table.m_fd c) = some c
  slots : ∀ fd c, s.table.slot fd = some c → c < s.table.made ∧ s.table.m_fd c = fd
  returned : ∀ fd c, (fd, c) ∈ s.returned → c < s.table.made ∧ s.table.m_fd c = fd
  kernel : ∀ fd, s.table.slot fd = none → s.table.kernel fd = k fd

/-- The calls return what the vector holds. -/
theorem Good.lookup (good : s.Good k) {returned : List (Int × CtxPtr)} {pending : Nat → Option Int}
    (found : ∀ fd c, (fd, c) ∈ returned → s.table.slot fd = some c ∨ (fd, c) ∈ s.returned) :
    Good k { table := s.table, pending := pending, returned := returned } := by
  have all : ∀ fd c, (fd, c) ∈ returned → c < s.table.made ∧ s.table.m_fd c = fd := by
    intro fd c member
    rcases found fd c member with held | old
    · exact good.slots fd c held
    · exact good.returned fd c old
  refine ⟨⟨?_, good.once.inits, good.once.recorded⟩, good.kept, good.slots, all, good.kernel⟩
  intro fd c d first second
  obtain ⟨madeC, fdC⟩ := all fd c first
  obtain ⟨madeD, fdD⟩ := all fd d second
  exact good.once.inits c d madeC madeD (fdC.trans fdD.symm)

theorem slot_of_lookup {table : FdTable} {ctx : Option CtxPtr} {auto_create : Bool} {c : CtxPtr}
    (looked : table.lookup fd auto_create = some (.returns ctx)) (member : c ∈ ctx.toList) :
    table.slot fd = some c := by
  have held : ctx = some c := Option.mem_toList.mp member
  subst held
  by_cases outside : (table.m_datas.length : Int) ≤ fd
  · rw [FdTable.lookup_outside outside] at looked
    cases auto_create <;> cases looked
  · by_cases negative : fd < 0
    · rw [FdTable.lookup_negative negative] at looked
      cases looked
    · rw [FdTable.lookup_inside (by omega) (by omega)] at looked
      split at looked
      · exact Found.returns.inj (Option.some.inj looked)
      · cases looked

/-- What `create` changes. -/
structure Created (refuses : BitVec 32 → Bool) (fd : Int) (table after : FdTable) : Prop where
  made : after.made = table.made + 1
  slot : after.slot = Function.update table.slot fd (some table.made)
  m_fd : after.m_fd = Function.update table.m_fd table.made fd
  heap : after.heap = Function.update table.heap table.made (FdCtx.init refuses table.kernel fd).1
  kernel : after.kernel = (FdCtx.init refuses table.kernel fd).2

theorem create_eq_some {table after : FdTable} {c : CtxPtr} (created : table.create refuses fd = some (c, after)) :
    c = table.made ∧ Created refuses fd table after := by
  simp only [FdTable.create] at created
  split at created
  · rename_i inside
    cases created
    exact ⟨rfl, rfl, FdTable.slot_set inside.1 inside.2 rfl rfl, rfl, rfl, rfl⟩
  · cases created

section Create
variable {table : FdTable}

theorem Created.grows (created : Created refuses fd s.table table) : s.table.made < table.made :=
  created.made ▸ Nat.lt_succ_self _

theorem Created.made_cases (created : Created refuses fd s.table table) {d : CtxPtr} (before : d < table.made) :
    d < s.table.made ∨ d = s.table.made := by
  rw [created.made] at before
  exact Nat.lt_or_eq_of_le (Nat.le_of_lt_succ before)

theorem Created.fd_new (created : Created refuses fd s.table table) : table.m_fd s.table.made = fd := by
  rw [created.m_fd, Function.update_self]

theorem Created.fd_old (created : Created refuses fd s.table table) {d : CtxPtr} (older : d < s.table.made) :
    table.m_fd d = s.table.m_fd d := by
  rw [created.m_fd, Function.update_of_ne (Nat.ne_of_lt older)]

theorem Good.slots_created (good : s.Good k) (created : Created refuses fd s.table table) (g : Int) (d : CtxPtr)
    (held : table.slot g = some d) : d < table.made ∧ table.m_fd d = g := by
  rw [created.slot] at held
  by_cases same : g = fd
  · subst same
    rw [Function.update_self] at held
    cases held
    exact ⟨created.grows, created.fd_new⟩
  · rw [Function.update_of_ne same] at held
    obtain ⟨older, its⟩ := good.slots g d held
    exact ⟨Nat.lt_trans older created.grows, (created.fd_old older).trans its⟩

/-- The new context takes the place of none. -/
theorem Good.kept_created (good : s.Good k) (empty : s.table.slot fd = none)
    (created : Created refuses fd s.table table) (d : CtxPtr) (before : d < table.made) :
    table.slot (table.m_fd d) = some d := by
  rw [created.slot]
  rcases created.made_cases before with older | rfl
  · have held := good.kept d older
    have other : s.table.m_fd d ≠ fd := by
      intro same
      rw [same, empty] at held
      cases held
    rw [created.fd_old older, Function.update_of_ne other]
    exact held
  · rw [created.fd_new, Function.update_self]

theorem Good.returned_created (good : s.Good k) (created : Created refuses fd s.table table) (g : Int) (d : CtxPtr)
    (member : (g, d) ∈ s.returned ++ [(fd, s.table.made)]) : d < table.made ∧ table.m_fd d = g := by
  rcases List.mem_append.mp member with before | new
  · obtain ⟨older, its⟩ := good.returned g d before
    exact ⟨Nat.lt_trans older created.grows, (created.fd_old older).trans its⟩
  · cases List.mem_singleton.mp new
    exact ⟨created.grows, created.fd_new⟩

theorem Good.recorded_created (good : s.Good k) (empty : s.table.slot fd = none)
    (created : Created refuses fd s.table table) (d : CtxPtr) (before : d < table.made) (file : KernelFile)
    (opened : k (table.m_fd d) = some file) (socket : file.isSocket) (blocking : nonblock file.flags = false) :
    (table.heap d).m_sysNonblock := by
  rw [created.heap]
  rcases created.made_cases before with older | rfl
  · rw [created.fd_old older] at opened
    rw [Function.update_of_ne (Nat.ne_of_lt older)]
    exact good.once.recorded d older file opened socket blocking
  · rw [created.fd_new, ← good.kernel fd empty] at opened
    rw [Function.update_self]
    exact FdCtx.init_blocking opened socket blocking

/-- The first context of a descriptor. -/
theorem Good.create (good : s.Good k) (empty : s.table.slot fd = none) {c : CtxPtr}
    (done : s.table.create refuses fd = some (c, table)) (pending : Nat → Option Int) :
    Good k { table := table, pending := pending, returned := s.returned ++ [(fd, c)] } := by
  obtain ⟨rfl, created⟩ := create_eq_some done
  have kept := good.kept_created empty created
  have inits : ∀ d e, d < table.made → e < table.made → table.m_fd d = table.m_fd e → d = e := by
    intro d e madeD madeE same
    have held := kept d madeD
    rw [same, kept e madeE] at held
    exact (Option.some.inj held).symm
  refine ⟨⟨?_, inits, good.recorded_created empty created⟩, kept, good.slots_created created,
    good.returned_created created, ?_⟩
  · intro g d e first second
    obtain ⟨madeD, its⟩ := good.returned_created created g d first
    obtain ⟨madeE, itsE⟩ := good.returned_created created g e second
    exact inits d e madeD madeE (its.trans itsE.symm)
  · intro g free
    simp only [created.slot] at free
    by_cases same : g = fd
    · rw [same, Function.update_self] at free
      cases free
    · rw [Function.update_of_ne same] at free
      simp only [created.kernel, FdCtx.init_of_ne same]
      exact good.kernel g free

/-- A second context for a descriptor is one too many. -/
theorem Good.not_once (good : s.Good k) {c d : CtxPtr} (taken : s.table.slot fd = some d)
    (done : s.table.create refuses fd = some (c, table)) (pending : Nat → Option Int) :
    ¬ Once k { table := table, pending := pending, returned := s.returned ++ [(fd, c)] } := by
  intro once
  obtain ⟨rfl, created⟩ := create_eq_some done
  obtain ⟨before, its⟩ := good.slots fd d taken
  refine Nat.ne_of_lt before (once.inits d s.table.made (Nat.lt_trans before created.grows) created.grows ?_)
  exact (created.fd_old before).trans (its.trans created.fd_new.symm)

end Create

/-- A step leaves every descriptor with one context exactly when it does not make a second one. -/
theorem Good.step {l : Nat × Act} (good : s.Good k) (step : s.Step refuses l t) :
    (t.Once k ↔ s.Alone l t) ∧ (t.Once k → t.Good k) := by
  obtain ⟨thread, a⟩ := l
  obtain ⟨-, done⟩ := step
  cases a with
  | lookup fd auto_create =>
    have after : t.Good k := by
      obtain ⟨found, looked, done⟩ := Option.bind_eq_some_iff.mp done
      cases found with
      | returns ctx =>
        cases done
        refine good.lookup fun g c member => ?_
        rcases List.mem_append.mp member with old | new
        · exact .inr old
        · obtain ⟨d, held, same⟩ := List.mem_map.mp new
          cases same
          exact .inl (slot_of_lookup looked held)
      | creates =>
        cases done
        exact good.lookup fun _ _ member => .inr member
    exact ⟨⟨fun _ => nofun, fun _ => after.once⟩, fun _ => after⟩
  | create =>
    obtain ⟨fd, waits, done⟩ := Option.bind_eq_some_iff.mp done
    obtain ⟨⟨c, table⟩, created, done⟩ := Option.bind_eq_some_iff.mp done
    cases done
    cases taken : s.table.slot fd with
    | none =>
      have after := good.create taken created (Function.update s.pending thread none)
      refine ⟨⟨fun _ _ g waits' => ?_, fun _ => after.once⟩, fun _ => after⟩
      cases waits.symm.trans waits'
      exact taken
    | some d =>
      have twice := good.not_once taken created (Function.update s.pending thread none)
      refine ⟨⟨fun once => absurd once twice, fun alone => ?_⟩, fun once => absurd once twice⟩
      cases taken.symm.trans (alone rfl fd waits)

theorem good_init (k : Kernel) : Good k { table := { kernel := k } } := by
  have empty : ∀ fd, FdTable.slot { kernel := k } fd = none := by
    intro fd
    rw [(FdTable.shows_init k).slot]
  refine ⟨⟨nofun, nofun, nofun⟩, nofun, ?_, nofun, fun _ _ => rfl⟩
  intro fd c held
  rw [empty] at held
  cases held

/-- Along every run of calls of `get` on any number of threads, each descriptor has one context, made
once, if and only if no thread makes a context for a descriptor that has got one since its lookup. -/
theorem run_once_iff_alone {ls : List (Nat × Act)} :
    Run (Guarded (Step refuses) fun _ _ t => t.Once k) { table := { kernel := k } } ls t ↔
      Run (Guarded (Step refuses) Alone) { table := { kernel := k } } ls t :=
  Run.guarded_congr (Good k) (fun _ _ _ good step => (good.step step).1) (fun _ _ _ good step => (good.step step).2)
    (good_init k)

/-- A blocking socket at descriptor 3. -/
def blockingSocket : Kernel := Function.update (fun _ => none) 3 (some { isSocket := true, flags := O_RDWR })

/-- Two threads look the socket up before either has made its context. -/
def bothCreate : List (Nat × Act) := [(0, .lookup 3 true), (1, .lookup 3 true), (0, .create), (1, .create)]

/-- They get two contexts, and the one that stays in the vector says that the library has not made the
socket nonblocking. -/
theorem not_once_bothCreate : ∃ t, Run (Step fun _ => false) { table := { kernel := blockingSocket } } bothCreate t ∧
    t.returned = [(3, 0), (3, 1)] ∧ t.table.slot 3 = some 1 ∧ (t.table.heap 1).m_sysNonblock = false ∧
    ¬ t.Once blockingSocket := by
  have run : ∃ t, Run (Step fun _ => false) { table := { kernel := blockingSocket } } bothCreate t ∧
      t.returned = [(3, 0), (3, 1)] ∧ t.table.slot 3 = some 1 ∧ (t.table.heap 1).m_sysNonblock = false :=
    ⟨_, .cons ⟨fun _ => rfl, rfl⟩ <| .cons ⟨fun _ => rfl, rfl⟩ <| .cons ⟨fun other => absurd rfl other, rfl⟩ <|
      .cons ⟨fun other => absurd rfl other, rfl⟩ .start, rfl, rfl, rfl⟩
  obtain ⟨t, steps, returned, slot, unrecorded⟩ := run
  refine ⟨t, steps, returned, slot, unrecorded, fun once => ?_⟩
  have same := once.same 3 0 1 (by rw [returned]; decide) (by rw [returned]; decide)
  cases same

end FdGets
end Sylar
