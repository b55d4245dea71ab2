import Sylar.Lib.LockOrder

/-! The guards of `thread.h`. `ScopedLockImpl`, `ReadScopedLockImpl` and `WriteScopedLockImpl` differ in
the function that takes the lock: `lock` and `wrlock` take it exclusively, `rdlock` shares it. -/

namespace Sylar
open LockOrder

variable {L : Type}

structure ScopedLockImpl (L : Type) where
  m_mutex : L
  mode : Mode
  m_locked : Bool

/-- What is done in the scope of a guard: the two calls on the guard, and operations on other locks. -/
inductive InScope (L : Type)
  | lock
  | unlock
  | ops (inner : List (Op L))

namespace ScopedLockImpl

/-- The constructor. -/
def new (mode : Mode) (mutex : L) : ScopedLockImpl L × List (Op L) := (⟨mutex, mode, true⟩, [.acquire mode mutex])

def lock (g : ScopedLockImpl L) : ScopedLockImpl L × List (Op L) :=
  if !g.m_locked then ({ g with m_locked := true }, [.acquire g.mode g.m_mutex]) else (g, [])

def unlock (g : ScopedLockImpl L) : ScopedLockImpl L × List (Op L) :=
  if g.m_locked then ({ g with m_locked := false }, [.release g.m_mutex]) else (g, [])

/-- The rest of the scope of a guard, up to its destructor. -/
def rest (g : ScopedLockImpl L) : List (InScope L) → List (Op L)
  | [] => g.unlock.2
  | .lock :: body => g.lock.2 ++ g.lock.1.rest body
  | .unlock :: body => g.unlock.2 ++ g.unlock.1.rest body
  | .ops inner :: body => inner ++ g.rest body

/-- The scope of a guard. -/
def scope (mode : Mode) (mutex : L) (body : List (InScope L)) : List (Op L) :=
  (new mode mutex).2 ++ (new mode mutex).1.rest body

/-- The operations on other locks have higher ranks while the guard is locked, and fit the outside while it
is not. -/
def Above [DecidableEq L] (rank : L → Nat) (k : Nat) (mutex : L) : Bool → List (InScope L) → Prop
  | _, [] => True
  | _, .lock :: body => Above rank k mutex true body
  | _, .unlock :: body => Above rank k mutex false body
  | m_locked, .ops inner :: body =>
    Fits rank (if m_locked then rank mutex + 1 else k) inner ∧ Above rank k mutex m_locked body

variable [DecidableEq L] {rank : L → Nat} {k : Nat} {mutex : L} {mode : Mode} {body : List (InScope L)}

/-- Whatever is called on a guard, it takes its lock only when it does not hold it, releases it only when
it does, and holds nothing after its destructor. -/
theorem rest_ordered (g : ScopedLockImpl L) {held : List (L × Mode)} {after : List (Op L)} (le : k ≤ rank g.m_mutex)
    (above : Above rank k g.m_mutex g.m_locked body) (below : ∀ h ∈ held, rank h.1 < k) (ordered : Ordered rank held after) :
    Ordered rank (if g.m_locked then (g.m_mutex, g.mode) :: held else held) (g.rest body ++ after) := by
  have lower : ∀ h ∈ held, rank h.1 < rank g.m_mutex := fun h member => (below h member).trans_le le
  have released : ∀ ops, Ordered rank held ops → Ordered rank ((g.m_mutex, g.mode) :: held) (.release g.m_mutex :: ops) := by
    intro ops ordered
    refine ⟨⟨g.mode, List.mem_cons_self⟩, ?_⟩
    rw [List.eraseP_cons_of_pos (by simp)]
    exact ordered
  induction body generalizing g with
  | nil =>
    cases locked : g.m_locked with
    | true => simpa [rest, unlock, locked] using released after ordered
    | false => simpa [rest, unlock, locked] using ordered
  | cons statement body ih =>
    cases statement with
    | lock =>
      cases locked : g.m_locked with
      | true =>
        have onward := ih g le (by rw [locked]; exact above) lower released
        simpa [rest, lock, locked] using onward
      | false =>
        have onward := ih { g with m_locked := true } le above lower released
        simp only [rest, lock, locked, Bool.not_false, if_true]
        exact ⟨lower, onward⟩
    | unlock =>
      cases locked : g.m_locked with
      | true =>
        have onward := ih { g with m_locked := false } le above lower released
        simp only [rest, unlock, locked, if_true]
        exact released _ onward
      | false =>
        have onward := ih g le (by rw [locked]; exact above) lower released
        simpa [rest, unlock, locked] using onward
    | ops inner =>
      have onward := ih g le above.2 lower released
      rw [rest, List.append_assoc]
      refine above.1 _ _ ?_ onward
      cases locked : g.m_locked with
      | true => exact List.forall_mem_cons.mpr ⟨Nat.lt_succ_self _, fun h member => Nat.lt_succ_of_lt (lower h member)⟩
      | false => exact below

theorem scope_fits (le : k ≤ rank mutex) (above : Above rank k mutex true body) : Fits rank k
    (scope mode mutex body) := by
  intro held after below ordered
  exact ⟨fun h member => (below h member).trans_le le, rest_ordered ⟨mutex, mode, true⟩ le above below ordered⟩

end ScopedLockImpl
end Sylar
