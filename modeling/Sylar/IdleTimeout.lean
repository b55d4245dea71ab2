import Sylar.Lib.CInt
import Sylar.TimerStep

/-! The timeout that `IOManager::idle` gives to `epoll_wait`. -/

namespace Sylar
open Machine CInt

variable {κ ω : Type}

def MAX_TIMEOUT : UInt64 := 3000

/-- The assignment to `next_timeout` in front of `epoll_wait`. -/
def nextTimeout (next_timeout : UInt64) : UInt64 :=
  if next_timeout ≠ ~~~0 then
    if (int next_timeout).toInt > MAX_TIMEOUT.toNat then MAX_TIMEOUT else next_timeout
  else MAX_TIMEOUT

/-- The loop around `epoll_wait`, for the results of its calls (`rt`, and whether `errno` is `EINTR`): the
timeouts that the calls are given. -/
def epollTimeouts (next_timeout : UInt64) : List (Int × Bool) → List Int32
  | [] => []
  | (rt, eintr) :: results =>
    int (nextTimeout next_timeout) ::
      if rt < 0 ∧ eintr then epollTimeouts (nextTimeout next_timeout) results else []

/-- The number of milliseconds is passed on as it is, or cut to three seconds. -/
def PassedOn (next_timeout : UInt64) : Prop :=
  next_timeout.toNat ≤ 3000 ∨ 3000 ≤ (next_timeout.toNat : Int).bmod (2 ^ 32) ∨ next_timeout.toNat = 2 ^ 64 - 1

theorem max_timeout_toNat : MAX_TIMEOUT.toNat = 3000 := rfl

theorem nextTimeout_idem (next_timeout : UInt64) :
    nextTimeout (nextTimeout next_timeout) = nextTimeout next_timeout := by
  have fixed : nextTimeout MAX_TIMEOUT = MAX_TIMEOUT := by decide
  by_cases none : next_timeout ≠ ~~~0
  · by_cases far : (int next_timeout).toInt > MAX_TIMEOUT.toNat
    · have cut : nextTimeout next_timeout = MAX_TIMEOUT := by rw [nextTimeout, if_pos none, if_pos far]
      rw [cut, fixed]
    · have kept : nextTimeout next_timeout = next_timeout := by rw [nextTimeout, if_pos none, if_neg far]
      rw [kept, kept]
  · have cut : nextTimeout next_timeout = MAX_TIMEOUT := by rw [nextTimeout, if_neg none]
    rw [cut, fixed]

/-- Every retry is given the timeout of the first call. -/
theorem mem_epollTimeouts {next_timeout : UInt64} {results : List (Int × Bool)} {timeout : Int32}
    (member : timeout ∈ epollTimeouts next_timeout results) : timeout = int (nextTimeout next_timeout) := by
  induction results generalizing next_timeout with
  | nil => exact absurd member List.not_mem_nil
  | cons result results ih =>
    rcases List.mem_cons.mp member with first | retry
    · exact first
    · split at retry
      · rw [ih retry, nextTimeout_idem]
      · exact absurd retry List.not_mem_nil

/-- What is left of the number as an `int` is not negative, or there is no timer. -/
def FitsInt (next_timeout : UInt64) : Prop := next_timeout = ~~~0 ∨ next_timeout.toNat % 2 ^ 32 < 2 ^ 31

/-- A number that fits is never turned into a longer wait. -/
theorem FitsInt.int_nextTimeout {next_timeout : UInt64} (fits : FitsInt next_timeout) :
    0 ≤ (int (nextTimeout next_timeout)).toInt ∧ (int (nextTimeout next_timeout)).toInt ≤ next_timeout.toNat := by
  have longest : (int MAX_TIMEOUT).toInt = 3000 := by decide
  by_cases none : next_timeout = ~~~0
  · have cut : nextTimeout next_timeout = MAX_TIMEOUT := by rw [nextTimeout, if_neg (not_not.mpr none)]
    have value : next_timeout.toNat = 2 ^ 64 - 1 := by rw [none]; rfl
    rw [cut, longest, value]
    exact ⟨by decide, by decide⟩
  · have narrowed := toInt_int next_timeout
    have small : (next_timeout.toNat : Int).bmod (2 ^ 32) = next_timeout.toNat % 2 ^ 32 := by
      have positive := fits.resolve_left none
      rw [Int.bmod_def]
      split <;> omega
    have below : next_timeout.toNat % 2 ^ 32 ≤ next_timeout.toNat := Nat.mod_le _ _
    rw [nextTimeout, if_pos none]
    split
    · rename_i far
      rw [max_timeout_toNat] at far
      rw [longest]
      omega
    · omega

theorem int_nextTimeout_iff (next_timeout : UInt64) :
    (int (nextTimeout next_timeout)).toInt = min next_timeout.toNat 3000 ↔ PassedOn next_timeout := by
  have bound := next_timeout.toNat_lt
  have longest : (int MAX_TIMEOUT).toInt = 3000 := by decide
  have narrowed := toInt_int next_timeout
  unfold PassedOn
  by_cases none : next_timeout = ~~~0
  · have cut : nextTimeout next_timeout = MAX_TIMEOUT := by rw [nextTimeout, if_neg (not_not.mpr none)]
    have value : next_timeout.toNat = 2 ^ 64 - 1 := by rw [none]; rfl
    rw [cut, longest]
    exact iff_of_true (by omega) (by omega)
  · have value : next_timeout.toNat ≠ 2 ^ 64 - 1 := fun same => none (UInt64.toNat_inj.mp same)
    by_cases far : (int next_timeout).toInt > MAX_TIMEOUT.toNat
    · have cut : nextTimeout next_timeout = MAX_TIMEOUT := by rw [nextTimeout, if_pos none, if_pos far]
      rw [max_timeout_toNat] at far
      have large : 3000 ≤ next_timeout.toNat := by
        rw [narrowed, Int.bmod_def] at far
        split at far <;> omega
      rw [cut, longest, ← narrowed]
      exact iff_of_true (by omega) (by omega)
    · have kept : nextTimeout next_timeout = next_timeout := by rw [nextTimeout, if_pos none, if_neg far]
      rw [max_timeout_toNat] at far
      rw [kept, ← narrowed]
      rw [Int.bmod_def] at narrowed
      split at narrowed <;> omega

namespace TimerManager

/-- Each call of `epoll_wait` is told to wait for the earliest deadline, or for three seconds if that is
later or missing. -/
def WaitsForDeadline (m : TimerManager κ ω) (now : UInt64) : Prop :=
  ∃ next_timeout polled, m.getNextTimer now = .ok (next_timeout, polled) ∧
    ∀ results timeout, timeout ∈ epollTimeouts next_timeout results →
      timeout.toInt = min next_timeout.toNat 3000

/-- The milliseconds from now to the earliest deadline, with none left for one that has passed. -/
def left (m : TimerManager κ ω) (now : UInt64) : UInt64 :=
  match m.m_timers.head? with
  | none => ~~~0
  | some p => if now ≥ m.heap.next p then 0 else m.heap.next p - now

/-- In every reachable state and for every clock reading, `idle` waits for the earliest deadline if and
only if the time left is at most three seconds, or as an `int` at least that, or is missing. -/
theorem waitsForDeadline_iff {m : TimerManager κ ω} (reach : Reach Init Step m) (now : UInt64) :
    m.WaitsForDeadline now ↔ PassedOn (m.left now) := by
  have poll : m.getNextTimer now = .ok (m.left now, { m with m_tickled := false }) :=
    (wf_of_reach reach).getNextTimer_eq now
  rw [← int_nextTimeout_iff]
  constructor
  · rintro ⟨next_timeout, polled, polled', right⟩
    cases Except.ok.inj (polled'.symm.trans poll)
    exact right [(0, false)] _ (List.mem_cons_self ..)
  · intro right
    refine ⟨_, _, poll, fun results timeout member => ?_⟩
    rw [mem_epollTimeouts member]
    exact right

theorem waitsForDeadline_five_seconds :
    (fresh10.addTimer 16 5000 (some (.plain ())) false 10).2.WaitsForDeadline 10 :=
  (waitsForDeadline_iff (fresh10_addTimer_reach 16 5000 _ false 10 (by decide)) 10).mpr (Or.inr (Or.inl (by decide)))

/-- With 2^31 milliseconds left `idle` passes a negative timeout, and waits without limit. -/
theorem not_waitsForDeadline :
    ∃ m : TimerManager Unit Unit, Reach Init Step m ∧ ¬ m.WaitsForDeadline 10 := by
  refine ⟨_, fresh10_addTimer_reach 16 0x80000000 (some (.plain ())) false 10 (by decide), ?_⟩
  rintro ⟨next_timeout, polled, poll, right⟩
  have value : next_timeout = 0x80000000 := (congrArg Prod.fst (Except.ok.inj poll)).symm
  subst value
  exact absurd (right [(0, false)] _ (List.mem_cons_self ..)) (by decide)

end TimerManager
end Sylar
