import Mathlib.Algebra.BigOperators.Group.Finset.Basic
import Mathlib.Algebra.Order.BigOperators.Group.Finset
import Mathlib.Data.Fintype.Basic
import Mathlib.Data.Fintype.EquivFin
import Mathlib.Data.Fintype.Lattice
import Sylar.Lib.Machine
import Sylar.Lib.Tally

/-! Threads that take locks in the order of a rank: they exclude each other, and none of them waits
forever. -/

namespace LockOrder
open Machine Tally

inductive Mode
  | shared
  | exclusive
  deriving DecidableEq, Repr

/-- A lock that nobody holds, that `n + 1` holders share, or that one holder has for itself. -/
inductive LockState
  | free
  | shared (n : Nat)
  | exclusive
  deriving DecidableEq, Repr

def LockState.acquire : LockState → Mode → Option LockState
  | .free, .shared => some (.shared 0)
  | .shared n, .shared => some (.shared (n + 1))
  | .free, .exclusive => some .exclusive
  | _, _ => none

/-- The release of a free lock is undefined. -/
def LockState.release : LockState → Option LockState
  | .exclusive | .shared 0 => some .free
  | .shared (n + 1) => some (.shared n)
  | .free => none

/-- The number of those that hold the lock in the given way. -/
def LockState.holders : LockState → Mode → Int
  | .shared n, .shared => n + 1
  | .exclusive, .exclusive => 1
  | _, _ => 0

theorem LockState.holders_acquire {state after : LockState} {mode : Mode} (acquired : state.acquire mode = some after)
    (other : Mode) : after.holders other = state.holders other + if other = mode then 1 else 0 := by
  cases state <;> cases mode <;> cases acquired <;> cases other <;> rfl

theorem LockState.holders_release {state after : LockState} {mode : Mode} (released : state.release = some after)
    (held : 0 < state.holders mode) (other : Mode) :
    after.holders other = state.holders other - if other = mode then 1 else 0 := by
  match state, mode, other with
  | .shared 0, .shared, .shared | .shared 0, .shared, .exclusive => cases released; rfl
  | .shared (n + 1), .shared, .shared =>
    cases released
    simp only [holders, if_true]
    omega
  | .shared (n + 1), .shared, .exclusive => cases released; rfl
  | .exclusive, .exclusive, .shared | .exclusive, .exclusive, .exclusive => cases released; rfl

inductive Op (L : Type)
  | acquire (mode : Mode) (l : L)
  | release (l : L)
  deriving DecidableEq, Repr

/-- The locks, what each thread has yet to do, and what it holds, the latest first. -/
structure System (L T : Type) where
  locks : L → LockState
  todo : T → List (Op L)
  holds : T → List (L × Mode)

variable {L T : Type} [DecidableEq L]

namespace System

/-- A thread that waits for a lock takes no step. -/
def act [DecidableEq T] (s : System L T) (t : T) : Option (System L T) :=
  match s.todo t with
  | [] => none
  | .acquire mode l :: rest =>
    ((s.locks l).acquire mode).map fun state =>
      { locks := Function.update s.locks l state
        todo := Function.update s.todo t rest
        holds := Function.update s.holds t ((l, mode) :: s.holds t) }
  | .release l :: rest =>
    ((s.locks l).release).map fun state =>
      { locks := Function.update s.locks l state
        todo := Function.update s.todo t rest
        holds := Function.update s.holds t ((s.holds t).eraseP fun held => held.1 = l) }

def Step [DecidableEq T] (s : System L T) (t : T) (u : System L T) : Prop := s.act t = some u

/-- All locks are free, and each thread is about to do its part. -/
def start (todo : T → List (Op L)) : System L T := ⟨fun _ => .free, todo, fun _ => []⟩

end System

section Scripts
variable (rank : L → Nat)

/-- The operations, done while the locks of `held` are held, take locks of higher and higher ranks, release
what is held, and leave nothing behind. -/
def Ordered : List (L × Mode) → List (Op L) → Prop
  | held, [] => held = []
  | held, .acquire mode l :: rest => (∀ h ∈ held, rank h.1 < rank l) ∧ Ordered ((l, mode) :: held) rest
  | held, .release l :: rest => (∃ mode, (l, mode) ∈ held) ∧ Ordered (held.eraseP fun h => h.1 = l) rest

/-- The operations can stand where all locks held have a rank below `k`, and they release what they take. -/
def Fits (k : Nat) (ops : List (Op L)) : Prop :=
  ∀ held rest, (∀ h ∈ held, rank h.1 < k) → Ordered rank held rest → Ordered rank held (ops ++ rest)

variable {rank : L → Nat} {k j : Nat} {ops more : List (Op L)} {l : L} {mode : Mode}

theorem Fits.nil : Fits rank k [] := fun _ _ _ ordered => ordered

theorem Fits.append (first : Fits rank k ops) (second : Fits rank k more) : Fits rank k (ops ++ more) := by
  intro held rest below ordered
  rw [List.append_assoc]
  exact first held _ below (second held rest below ordered)

theorem Fits.mono (fits : Fits rank k ops) (le : j ≤ k) : Fits rank j ops :=
  fun held rest below => fits held rest fun h member => (below h member).trans_le le

theorem Fits.flatMap {α : Type} {f : α → List (Op L)} {xs : List α} (each : ∀ x ∈ xs, Fits rank k (f x)) :
    Fits rank k (xs.flatMap f) := by
  induction xs with
  | nil => exact .nil
  | cons x xs ih =>
    obtain ⟨first, others⟩ := List.forall_mem_cons.mp each
    exact first.append (ih others)

/-- A critical section. -/
theorem Fits.section (le : k ≤ rank l) (inner : Fits rank (rank l + 1) ops) :
    Fits rank k (.acquire mode l :: ops ++ [.release l]) := by
  intro held rest below ordered
  have above : ∀ h ∈ held, rank h.1 < rank l := fun h member => (below h member).trans_le le
  refine ⟨above, ?_⟩
  change Ordered rank _ (ops ++ [.release l] ++ rest)
  rw [List.append_assoc]
  refine inner _ _ (List.forall_mem_cons.mpr ⟨Nat.lt_succ_self _, fun h member => Nat.lt_succ_of_lt (above h member)⟩) ?_
  refine ⟨⟨mode, List.mem_cons_self⟩, ?_⟩
  rw [List.eraseP_cons_of_pos (by simp)]
  exact ordered

theorem Fits.ordered (fits : Fits rank k ops) : Ordered rank [] ops := by
  have whole := fits [] [] nofun rfl
  rwa [List.append_nil] at whole

end Scripts

/-- The locks are in the state that the holders make, and each thread goes on in the order of the ranks. -/
structure Sound (rank : L → Nat) (s : System L T) : Prop where
  ordered : ∀ t, Ordered rank (s.holds t) (s.todo t)
  sorted : ∀ t, (s.holds t).Pairwise fun x y => rank y.1 < rank x.1
  counts : ∀ l mode, Counts (fun held => (l, mode) ∈ held) s.holds ((s.locks l).holders mode)

namespace Sound

variable {rank : L → Nat} {s u : System L T} {t v : T} {l : L} {mode : Mode} {rest : List (Op L)}

theorem start {todo : T → List (Op L)} (ordered : ∀ t, Ordered rank [] (todo t)) : Sound rank (.start todo) :=
  ⟨ordered, fun _ => .nil, fun _ mode => by cases mode <;> exact counts_none fun _ => List.not_mem_nil⟩

/-- What is held has not been taken twice. -/
theorem mem_eraseP {held : List (L × Mode)} (sorted : held.Pairwise fun x y => rank y.1 < rank x.1) {m : L}
    {other : Mode} :
    (m, other) ∈ held.eraseP (fun h => h.1 = l) ↔ m ≠ l ∧ (m, other) ∈ held := by
  induction held with
  | nil => simp
  | cons h held ih =>
    obtain ⟨above, tail⟩ := List.pairwise_cons.mp sorted
    by_cases here : h.1 = l
    · rw [List.eraseP_cons_of_pos (by simpa using here)]
      constructor
      · intro member
        have less := above _ member
        refine ⟨fun same => ?_, List.mem_cons_of_mem _ member⟩
        rw [here, ← same] at less
        exact Nat.lt_irrefl _ less
      · rintro ⟨apart, member⟩
        rcases List.mem_cons.mp member with first | later
        · rw [← first] at here
          exact absurd here apart
        · exact later
    · rw [List.eraseP_cons_of_neg (by simpa using here), List.mem_cons, List.mem_cons, ih tail]
      constructor
      · rintro (first | ⟨apart, later⟩)
        · refine ⟨fun same => here ?_, .inl first⟩
          rw [← first, same]
        · exact ⟨apart, .inr later⟩
      · rintro ⟨apart, first | later⟩
        · exact .inl first
        · exact .inr ⟨apart, later⟩

/-- A thread holds a lock in one way only. -/
theorem mode_unique (sound : Sound rank s) {one two : Mode} (first : (l, one) ∈ s.holds t)
    (second : (l, two) ∈ s.holds t) :
    one = two := by
  have sorted := sound.sorted t
  generalize s.holds t = held at sorted first second
  induction held with
  | nil => cases first
  | cons h held ih =>
    obtain ⟨above, tail⟩ := List.pairwise_cons.mp sorted
    rcases List.mem_cons.mp first with rfl | firstBelow
    · rcases List.mem_cons.mp second with same | secondBelow
      · exact (Prod.mk.inj same).2.symm
      · exact absurd (above _ secondBelow) (Nat.lt_irrefl _)
    · rcases List.mem_cons.mp second with rfl | secondBelow
      · exact absurd (above _ firstBelow) (Nat.lt_irrefl _)
      · exact ih tail firstBelow secondBelow

theorem locks_of_shared (sound : Sound rank s) (held : (l, .shared) ∈ s.holds t) : ∃ n, s.locks l = .shared n := by
  have positive := (sound.counts l .shared).pos held
  generalize s.locks l = state at positive
  cases state with
  | shared n => exact ⟨n, rfl⟩
  | free | exclusive => exact absurd positive (Int.lt_irrefl 0)

theorem locks_of_exclusive (sound : Sound rank s) (held : (l, .exclusive) ∈ s.holds t) : s.locks l = .exclusive := by
  have positive := (sound.counts l .exclusive).pos held
  generalize s.locks l = state at positive
  cases state with
  | exclusive => rfl
  | free | shared => exact absurd positive (Int.lt_irrefl 0)

/-- Only the exclusive holder of a lock holds it. -/
theorem exclusive (sound : Sound rank s) (owner : (l, .exclusive) ∈ s.holds t) (held : (l, mode) ∈ s.holds v) :
    v = t ∧ mode = .exclusive := by
  have state := sound.locks_of_exclusive owner
  cases mode with
  | shared =>
    obtain ⟨n, shared⟩ := sound.locks_of_shared held
    cases state.symm.trans shared
  | exclusive =>
    refine ⟨?_, rfl⟩
    have counts := sound.counts l .exclusive
    rw [state] at counts
    have one : {x | (l, .exclusive) ∈ s.holds x}.ncard = 1 := by
      have number := counts.eq_ncard
      simp only [LockState.holders] at number
      omega
    exact ((Set.ncard_le_one counts.finite).mp one.le) v held t owner

/-- The thread that is about to release a lock holds it. -/
theorem release_isSome (sound : Sound rank s) (next : s.todo t = .release l :: rest) :
    ((s.locks l).release).isSome := by
  have ordered := sound.ordered t
  rw [next] at ordered
  obtain ⟨⟨mode, held⟩, -⟩ := ordered
  cases mode with
  | shared =>
    obtain ⟨n, state⟩ := sound.locks_of_shared held
    rw [state]
    cases n <;> rfl
  | exclusive =>
    rw [sound.locks_of_exclusive held]
    rfl

/-- A lock that cannot be taken is held. -/
theorem held_of_blocked (sound : Sound rank s) (blocked : (s.locks l).acquire mode = none) :
    ∃ t mode, (l, mode) ∈ s.holds t := by
  by_contra nobody
  have none : ∀ mode, (s.locks l).holders mode = 0 := fun mode =>
    (sound.counts l mode).eq_zero_iff.mpr fun t held => nobody ⟨t, mode, held⟩
  generalize s.locks l = state at blocked none
  cases state with
  | free => cases mode <;> cases blocked
  | shared n =>
    have sharers := none .shared
    simp only [LockState.holders] at sharers
    omega
  | exclusive => cases none .exclusive

section Steps
variable [DecidableEq T]

theorem step (sound : Sound rank s) (step : s.Step t u) : Sound rank u := by
  have ordered := sound.ordered t
  rw [System.Step, System.act] at step
  split at step
  · cases step
  · rename_i mode l rest next
    obtain ⟨state, acquired, rfl⟩ := Option.map_eq_some_iff.mp step
    rw [next] at ordered
    obtain ⟨above, ordered⟩ := ordered
    have new : ∀ mode, (l, mode) ∉ s.holds t := fun mode held => Nat.lt_irrefl _ (above _ held)
    refine ⟨fun v => ?_, fun v => ?_, fun m other => ?_⟩
    · by_cases same : v = t
      · simpa only [same, Function.update_self] using ordered
      · simpa only [Function.update_of_ne same] using sound.ordered v
    · by_cases same : v = t
      · simpa only [same, Function.update_self] using List.pairwise_cons.mpr ⟨above, sound.sorted t⟩
      · simpa only [Function.update_of_ne same] using sound.sorted v
    · refine (sound.counts m other).shift ?_
      by_cases here : m = l
      · subst here
        have number := LockState.holders_acquire acquired other
        simp only [Function.update_self]
        by_cases way : other = mode
        · rw [if_pos way] at number
          exact .enter (new other) (way ▸ List.mem_cons_self) number
        · rw [if_neg way, Int.add_zero] at number
          exact .same (by simp [way]) number
      · exact .same (by simp [here]) (by simp only [Function.update_of_ne here])
  · rename_i l rest next
    obtain ⟨state, released, rfl⟩ := Option.map_eq_some_iff.mp step
    rw [next] at ordered
    obtain ⟨⟨mode, held⟩, ordered⟩ := ordered
    have sorted := sound.sorted t
    refine ⟨fun v => ?_, fun v => ?_, fun m other => ?_⟩
    · by_cases same : v = t
      · simpa only [same, Function.update_self] using ordered
      · simpa only [Function.update_of_ne same] using sound.ordered v
    · by_cases same : v = t
      · simpa only [same, Function.update_self] using sorted.sublist List.eraseP_sublist
      · simpa only [Function.update_of_ne same] using sound.sorted v
    · refine (sound.counts m other).shift ?_
      by_cases here : m = l
      · subst here
        have number := LockState.holders_release released ((sound.counts m mode).pos held) other
        simp only [Function.update_self]
        by_cases way : other = mode
        · rw [if_pos way] at number
          exact .leave (way ▸ held) (fun left => ((mem_eraseP sorted).mp left).1 rfl) number
        · rw [if_neg way, Int.sub_zero] at number
          refine .same ⟨fun left => absurd rfl ((mem_eraseP sorted).mp left).1, fun also => ?_⟩ number
          exact absurd (sound.mode_unique also held) way
      · refine .same ?_ (by simp only [Function.update_of_ne here])
        simp [mem_eraseP sorted, here]

theorem todo_length (step : s.Step t u) : (∀ v, v ≠ t → u.todo v = s.todo v) ∧ (s.todo t).length =
    (u.todo t).length + 1 := by
  rw [System.Step, System.act] at step
  split at step
  · cases step
  · rename_i next
    obtain ⟨state, -, rfl⟩ := Option.map_eq_some_iff.mp step
    exact ⟨fun v other => Function.update_of_ne other _ _, by simp only [next, Function.update_self, List.length_cons]⟩
  · rename_i next
    obtain ⟨state, -, rfl⟩ := Option.map_eq_some_iff.mp step
    exact ⟨fun v other => Function.update_of_ne other _ _, by simp only [next, Function.update_self, List.length_cons]⟩

/-- The rank of the lock that a thread is about to take. -/
def wanted (rank : L → Nat) (s : System L T) (t : T) : Nat :=
  match s.todo t with
  | .acquire _ l :: _ => rank l + 1
  | _ => 0

/-- A thread that cannot go on waits for a lock, and so does its holder if it cannot go on either: for one
of a higher rank. -/
theorem wanted_lt (sound : Sound rank s) (unfinished : s.todo t ≠ []) (stuck : ∀ t, s.act t = none) :
    ∃ v, s.todo v ≠ [] ∧ wanted rank s t < wanted rank s v := by
  have waits : ∀ v, s.todo v ≠ [] → ∃ mode l rest, s.todo v = .acquire mode l :: rest ∧ (s.locks l).acquire mode = none := by
    intro v unfinished
    have blocked := stuck v
    rw [System.act] at blocked
    split at blocked
    · rename_i finished
      exact absurd finished unfinished
    · rename_i mode l rest next
      exact ⟨mode, l, rest, next, Option.map_eq_none_iff.mp blocked⟩
    · rename_i l rest next
      have some := sound.release_isSome next
      rw [Option.map_eq_none_iff.mp blocked] at some
      cases some
  obtain ⟨mode, l, rest, next, blocked⟩ := waits t unfinished
  obtain ⟨v, way, held⟩ := sound.held_of_blocked blocked
  have goesOn : s.todo v ≠ [] := by
    intro finished
    have ordered := sound.ordered v
    rw [finished] at ordered
    have nothing : s.holds v = [] := ordered
    rw [nothing] at held
    cases held
  obtain ⟨other, m, more, nextV, -⟩ := waits v goesOn
  have ordered := sound.ordered v
  rw [nextV] at ordered
  have above : rank l < rank m := ordered.1 _ held
  refine ⟨v, goesOn, ?_⟩
  simp only [wanted, next, nextV]
  omega

/-- Not all threads wait. -/
theorem progress [Finite T] (sound : Sound rank s) (unfinished : ∃ t, s.todo t ≠ []) : ∃ t u, s.Step t u := by
  by_contra stop
  have stuck : ∀ t, s.act t = none := fun t => Option.eq_none_iff_forall_ne_some.mpr fun u done => stop ⟨t, u, done⟩
  have threads : Nonempty {t // s.todo t ≠ []} := by
    obtain ⟨t, goesOn⟩ := unfinished
    exact ⟨⟨t, goesOn⟩⟩
  obtain ⟨⟨t, goesOn⟩, highest⟩ := Finite.exists_max fun t : {t // s.todo t ≠ []} => wanted rank s t
  obtain ⟨v, also, higher⟩ := sound.wanted_lt goesOn stuck
  exact Nat.lt_irrefl _ (higher.trans_le (highest ⟨v, also⟩))

/-- Whatever the threads have done, they can all come to their end, and then all locks are free. -/
theorem completes [Fintype T] (sound : Sound rank s) :
    ∃ ts u, Run System.Step s ts u ∧ (∀ t, u.todo t = []) ∧ ∀ l, u.locks l = .free := by
  induction left : ∑ t, (s.todo t).length generalizing s with
  | zero =>
    have finished : ∀ t, s.todo t = [] := fun t =>
      List.length_eq_zero_iff.mp (Finset.sum_eq_zero_iff.mp left t (Finset.mem_univ t))
    refine ⟨[], s, .start, finished, fun l => ?_⟩
    have nobody : ∀ mode, (s.locks l).holders mode = 0 := by
      refine fun mode => (sound.counts l mode).eq_zero_iff.mpr fun t held => ?_
      have ordered := sound.ordered t
      rw [finished t] at ordered
      have nothing : s.holds t = [] := ordered
      rw [nothing] at held
      cases held
    generalize s.locks l = state at nobody
    cases state with
    | free => rfl
    | shared n =>
      have sharers := nobody .shared
      simp only [LockState.holders] at sharers
      omega
    | exclusive => cases nobody .exclusive
  | succ k ih =>
    have unfinished : ∃ t, s.todo t ≠ [] := by
      by_contra none
      have all : ∀ t, s.todo t = [] := fun t => by_contra fun goesOn => none ⟨t, goesOn⟩
      simp [all] at left
    obtain ⟨t, u, step⟩ := sound.progress unfinished
    have fewer : ∑ v, (u.todo v).length = k := by
      obtain ⟨others, one⟩ := todo_length step
      have here := Finset.add_sum_erase Finset.univ (fun v => (s.todo v).length) (Finset.mem_univ t)
      have there := Finset.add_sum_erase Finset.univ (fun v => (u.todo v).length) (Finset.mem_univ t)
      have same : ∑ v ∈ Finset.univ.erase t, (u.todo v).length = ∑ v ∈ Finset.univ.erase t, (s.todo v).length :=
        Finset.sum_congr rfl fun v member => by rw [others v (Finset.ne_of_mem_erase member)]
      omega
    obtain ⟨ts, v, run, finished, free⟩ := ih (sound.step step) fewer
    exact ⟨t :: ts, v, run.cons step, finished, free⟩

theorem run {ts : List T} (sound : Sound rank s) (run : Run System.Step s ts u) : Sound rank u :=
  Run.invariant (fun _ _ _ sound step => Sound.step sound step) sound run

end Steps

end Sound

end LockOrder
