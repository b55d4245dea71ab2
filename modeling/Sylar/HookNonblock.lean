import Sylar.HookEffect

namespace Sylar.Process
open Machine

variable {refuses : BitVec 32 → Bool} {s t : Process} {l : Op} {fd : Int}

theorem ChangedAt.tracks_of_ne {file : Option KernelFile} {slot : Option (Option FdCtx)} {g : Int} {f : KernelFile}
    {ctx : FdCtx} (changed : s.ChangedAt t fd file slot) (other : g ≠ fd) : t.Tracks g f ctx ↔ s.Tracks g f ctx := by
  rw [Tracks, Tracks, changed.kernel, changed.get, Function.update_of_ne other, Function.update_of_ne other]

theorem ChangedAt.tracks {file : Option KernelFile} {slot : Option (Option FdCtx)} {f : KernelFile} {ctx : FdCtx}
    (changed : s.ChangedAt t fd file slot) :
    t.Tracks fd f ctx ↔ file = some f ∧ f.isSocket ∧ slot = some (some ctx) := by
  rw [Tracks, changed.kernel, changed.get, Function.update_self, Function.update_self]

/-- A property of every tracked socket is kept if it holds of the descriptor of the call. -/
theorem ChangedAt.forall_tracks {file : Option KernelFile} {slot : Option (Option FdCtx)}
    {P Q : Int → KernelFile → FdCtx → Prop} (changed : s.ChangedAt t fd file slot)
    (before : ∀ g f ctx, s.Tracks g f ctx → P g f ctx) (same : ∀ g f ctx, g ≠ fd → (Q g f ctx ↔ P g f ctx)) :
    (∀ g f ctx, t.Tracks g f ctx → Q g f ctx) ↔
      ∀ f ctx, file = some f → f.isSocket → slot = some (some ctx) → Q fd f ctx := by
  constructor
  · intro all f ctx atFile socket atSlot
    exact all fd f ctx (changed.tracks.mpr ⟨atFile, socket, atSlot⟩)
  · intro mine g f ctx tracks
    by_cases other : g = fd
    · subst other
      obtain ⟨atFile, socket, atSlot⟩ := changed.tracks.mp tracks
      exact mine f ctx atFile socket atSlot
    · exact (same g f ctx other).mpr (before g f ctx ((changed.tracks_of_ne other).mp tracks))

theorem proper_init : Proper {} := by
  intro fd ctx found
  unfold get at found
  split at found
  · cases found
  split at found
  · cases found
  · obtain ⟨bound, same⟩ := List.getElem?_eq_some_iff.mp found
    rw [List.getElem_replicate] at same
    cases same

/-- A context that is new or that was there before is that of a socket. -/
theorem Proper.step (proper : s.Proper) (done : s.act refuses l = some t) : t.Proper := by
  obtain ⟨file, slot, effect, changed⟩ := act_effect proper done
  have mine : ∀ ctx, slot = some (some ctx) → ctx.m_isSocket ∧ ¬ ctx.m_isClosed := by
    intro ctx same
    generalize l.asSocket = l' at effect
    cases effect with
    | stale _ found =>
      cases same
      exact proper _ ctx found
    | fresh =>
      cases same
      exact ⟨rfl, Bool.false_ne_true⟩
    | untracked _ none => exact absurd same (none ctx)
    | open_ => exact proper _ ctx same
    | close kept =>
      rcases kept with old | gone
      · exact proper _ ctx (old ▸ same)
      · cases gone.symm.trans same
    | setfl found | fionbio found =>
      cases same
      have old := proper _ _ found
      exact old
    | setflPlain | fionbioPlain => cases same
  intro g ctx found
  rw [changed.get] at found
  by_cases same : g = l.fd
  · subst same
    rw [Function.update_self] at found
    exact mine ctx found
  · rw [Function.update_of_ne same] at found
    exact proper g ctx found

/-- No call clears `O_NONBLOCK` for a socket with a context. A descriptor that is made anew and still
has the context of an earlier socket needs the flag from the start; `F_SETFL` needs a context that has
set the flag itself, or is refused; and `FIONBIO` is not called with zero. -/
def Spares (refuses : BitVec 32 → Bool) (s : Process) (l : Op) (_ : Process) : Prop :=
  match l with
  | .socket _ type fd => ∀ ctx, s.get fd = some (some ctx) → nonblock type
  | .accept fd => ∀ ctx, s.get fd ≠ some (some ctx)
  | .setfl fd arg => ∀ file ctx, s.Tracks fd file ctx → Kernel.refused refuses arg ∨ ctx.m_sysNonblock
  | .fionbio fd v => ∀ file ctx, s.Tracks fd file ctx → v ≠ 0
  | .open_ _ _ | .close _ _ => True

theorem spares_asSocket (l : Op) : s.Spares refuses l t ↔ s.Spares refuses l.asSocket t := by
  cases l with
  | accept fd =>
    have clear : nonblock 0#32 = false := by decide
    simp [Spares, Op.asSocket, clear]
  | _ => exact Iff.rfl

/-- From a state in which the flag is set for every tracked socket, it is set after a call if and only
if the call spares it. -/
theorem nonblocking_step (proper : s.Proper) (nonblocking : s.Nonblocking) (done : s.act refuses l = some t) :
    t.Nonblocking ↔ s.Spares refuses l t := by
  obtain ⟨file, slot, effect, changed⟩ := act_effect proper done
  rw [spares_asSocket, Nonblocking, changed.forall_tracks nonblocking fun _ _ _ _ => Iff.rfl]
  generalize l.asSocket = l' at effect
  cases effect with
  | @stale hook type fd ctx free found =>
    constructor
    · intro mine ctx' _
      simpa using mine _ ctx rfl rfl rfl
    · rintro spares f ctx' ⟨⟩ - -
      simpa using spares ctx found
  | fresh free none socket set =>
    constructor
    · intro _ ctx found
      cases none.symm.trans found
    · rintro - f ctx ⟨⟩ - -
      exact set
  | untracked free none =>
    constructor
    · exact fun _ ctx found => absurd found (none ctx)
    · exact fun _ f ctx _ _ found => absurd found (none ctx)
  | open_ =>
    refine ⟨fun _ => trivial, ?_⟩
    rintro - f ctx ⟨⟩ socket -
    cases socket
  | close =>
    refine ⟨fun _ => trivial, ?_⟩
    rintro - f ctx ⟨⟩
  | @setfl fd arg ctx found =>
    have forced : Kernel.refused refuses (if ctx.m_sysNonblock then arg ||| O_NONBLOCK else arg &&& ~~~ O_NONBLOCK) =
        Kernel.refused refuses arg := by
      split
      · exact Kernel.refused_or refuses arg
      · exact Kernel.refused_and_not refuses arg
    constructor
    · rintro mine file ctx' ⟨atFile, socket, found'⟩
      cases found.symm.trans found'
      have set := mine (file.setfl refuses _) _ (by rw [atFile]; rfl) (by simpa using socket) rfl
      rw [KernelFile.nonblock_setfl, forced] at set
      split at set
      · rename_i refused
        exact .inl refused
      · right
        by_contra clear
        simp [clear] at set
    · rintro spares f ctx' atFile socket -
      obtain ⟨file, before, rfl⟩ := Option.map_eq_some_iff.mp atFile
      have tracks : s.Tracks fd file ctx := ⟨before, by simpa using socket, found⟩
      rw [KernelFile.nonblock_setfl, forced]
      split
      · exact nonblocking fd file ctx tracks
      · rename_i accepted
        simp [(spares file ctx tracks).resolve_left accepted]
  | @fionbio fd v ctx found =>
    constructor
    · rintro mine file ctx' ⟨atFile, socket, -⟩
      have set := mine (file.fionbio v) _ (by rw [atFile]; rfl) socket rfl
      rw [KernelFile.nonblock_fionbio] at set
      exact of_decide_eq_true set
    · rintro spares f ctx' atFile socket -
      obtain ⟨file, before, rfl⟩ := Option.map_eq_some_iff.mp atFile
      rw [KernelFile.nonblock_fionbio]
      exact decide_eq_true (spares file ctx ⟨before, socket, found⟩)
  | setflPlain none | fionbioPlain none =>
    constructor
    · rintro - file ctx ⟨-, -, found⟩
      cases none.symm.trans found
    · rintro - f ctx - - ⟨⟩

theorem nonblocking_init : Nonblocking {} := by
  rintro fd file ctx ⟨none, -⟩
  cases none

/-- In every run of the calls, the kernel has `O_NONBLOCK` set for every tracked socket all along if and
only if every call spares it. -/
theorem run_nonblocking_iff_spares {ls : List Op} :
    Run (Guarded (Step refuses) fun _ _ t => t.Nonblocking) {} ls t ↔
      Run (Guarded (Step refuses) (Spares refuses)) {} ls t :=
  Run.guarded_congr (fun s => s.Proper ∧ s.Nonblocking) (fun _ _ _ good step => nonblocking_step good.1 good.2 step)
    (fun _ _ _ good step after => ⟨good.1.step step, after⟩) ⟨proper_init, nonblocking_init⟩

/-- A socket that is made with `SOCK_NONBLOCK` loses the flag with the first `F_SETFL`, even with one that
asks for `O_NONBLOCK`; a socket that is made blocking loses it with `FIONBIO` and zero. -/
theorem not_nonblocking :
    (∃ t, Run (Step fun _ => false) {} [.socket true SOCK_NONBLOCK 3, .setfl 3 O_NONBLOCK] t ∧ ¬ t.Nonblocking) ∧
    (∃ t, Run (Step fun _ => false) {} [.socket true 0 3, .fionbio 3 0] t ∧ ¬ t.Nonblocking) := by
  have blocks : ∀ {ls : List Op} {t file ctx}, acts (act fun _ => false) {} ls = some t → t.Tracks 3 file ctx →
      nonblock file.flags = false → ∃ t, Run (Step fun _ => false) {} ls t ∧ ¬ t.Nonblocking := by
    intro ls t file ctx done tracks clear
    refine ⟨t, run_of_acts _ done, fun nonblocking => ?_⟩
    cases clear.symm.trans (nonblocking 3 file ctx tracks)
  constructor
  · exact blocks rfl ⟨rfl, rfl, rfl⟩ rfl
  · exact blocks rfl ⟨rfl, rfl, rfl⟩ rfl

end Sylar.Process
