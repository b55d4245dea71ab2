import Sylar.SchedulerQueue

/-! How often a queue entry can be passed over: the selections at which it is eligible are counted. -/

namespace Sylar.Workers
open Machine Tickets

variable {κ : Type}

/-- A selection at which the worker could take the entry. -/
def Chance (s : Workers κ) (l : Nat × Scheduler.Call κ) (ft : FiberAndThread κ) : Prop :=
  s.Selects l ∧ ft.Eligible s.scheduler.m_state l.1

/-- A step of the workers, with the number of chances that the entry has had. -/
inductive ChanceStep (ft : FiberAndThread κ) : Workers κ × Nat → Nat × Scheduler.Call κ → Workers κ × Nat → Prop
  | chance {s l t k} : s.CallStep l t → s.Chance l ft → ChanceStep ft (s, k) l (t, k + 1)
  | other {s l t k} : s.CallStep l t → ¬ s.Chance l ft → ChanceStep ft (s, k) l (t, k)

/-- The entry with the ticket has been taken by a worker that it is meant for, or it still waits
behind some of those that were before it, one less for every chance. -/
inductive Turn (front : List (FiberAndThread κ)) (ft : FiberAndThread κ) (n k : Nat) (c : Book (FiberAndThread κ) Nat) :
    Prop
  | taken {w} : (n, w) ∈ c.taken → ft.thread = -1 ∨ ft.thread = (w : Int) → Turn front ft n k c
  | waits {before back} : c.queue = before ++ (ft, n) :: back → (before.map Prod.fst).Sublist front →
      before.length + k ≤ front.length → Turn front ft n k c

variable {front : List (FiberAndThread κ)} {ft : FiberAndThread κ} {n k : Nat} {s t : Workers κ}
  {b c : Book (FiberAndThread κ) Nat} {l : Nat × Scheduler.Call κ}

theorem Turn.chance (turn : Turn front ft n k b) (booked : Booked (s, b) l (t, c)) (chance : s.Chance l ft) :
    Turn front ft n (k + 1) c := by
  cases booked with
  | other _ passes => exact absurd chance.1 passes
  | select _ _ takes =>
    cases turn with
    | taken gone meant => exact .taken (takes.taken_subset gone) meant
    | waits shape sublist bound =>
      rcases takes.turn shape with ⟨gone, eligible⟩ | ⟨before, back, left, fewer, less⟩
      · exact .taken gone eligible.1
      · have shorter := less chance.2
        exact .waits left ((fewer.map _).trans sublist) (by omega)

theorem Turn.other (turn : Turn front ft n k b) (booked : Booked (s, b) l (t, c)) : Turn front ft n k c := by
  cases booked with
  | other =>
    cases turn with
    | taken gone meant => exact .taken gone meant
    | @waits before back shape sublist bound =>
      have longer : ∀ new, (b.accept new).queue = before ++ (ft, n) :: (back ++ new.zipIdx b.issued.length) := by
        intro new
        simp [Book.accept, shape]
      exact .waits (longer _) sublist bound
  | select _ _ takes =>
    cases turn with
    | taken gone meant => exact .taken (takes.taken_subset gone) meant
    | waits shape sublist bound =>
      rcases takes.turn shape with ⟨gone, eligible⟩ | ⟨before, back, left, fewer, -⟩
      · exact .taken gone eligible.1
      · have shorter := fewer.length_le
        exact .waits left ((fewer.map _).trans sublist) (by omega)

theorem Kept.turn {x : Workers κ × Nat} {ms : List (Nat × Scheduler.Call κ)} (kept : s.Kept b)
    (turn : Turn front ft n 0 b)
    (run : Run (ChanceStep ft) (s, 0) ms x) :
    ∃ c, Run Booked (s, b) ms (x.1, c) ∧ x.1.Kept c ∧ Turn front ft n x.2 c := by
  induction run with
  | start => exact ⟨b, .start, kept, turn⟩
  | next _ step ih =>
    obtain ⟨c, run, kept, turn⟩ := ih
    cases step with
    | chance step chance =>
      obtain ⟨d, booked, kept⟩ := kept.booked step
      exact ⟨d, .next run booked, kept, turn.chance booked chance⟩
    | other step =>
      obtain ⟨d, booked, kept⟩ := kept.booked step
      exact ⟨d, .next run booked, kept, turn.other booked⟩

theorem Turn.taken_of_lt (turn : Turn front ft n k c) (late : front.length < k) : n ∈ c.taken.map Prod.fst := by
  cases turn with
  | taken gone => exact List.mem_map_of_mem gone
  | waits _ _ bound => omega

theorem exists_turn {ls ms : List (Nat × Scheduler.Call κ)} {back : List (FiberAndThread κ)}
    (reach : Run CallStep {} ls s)
    (shape : s.scheduler.m_fibers = front ++ ft :: back) (run : Run (ChanceStep ft) (s, 0) ms (t, k)) :
    ∃ b n c, Run Booked ({}, {}) ls (s, b) ∧ b.queue[front.length]? = some (ft, n) ∧ Run Booked (s, b) ms (t, c) ∧
      t.Kept c ∧ Turn front ft n k c := by
  obtain ⟨b, booked, kept⟩ := run_booked reach
  have queue := kept.queue
  rw [shape] at queue
  obtain ⟨before, rest, split, fronts, tail⟩ := List.map_eq_append_iff.mp queue
  obtain ⟨⟨_, n⟩, after, rfl, rfl, -⟩ := List.map_eq_cons_iff.mp tail
  have same : before.length = front.length := by rw [← fronts, List.length_map]
  have first : Turn front _ n 0 b := .waits split (fronts ▸ .refl _) (by omega)
  obtain ⟨c, run, kept, turn⟩ := kept.turn first run
  refine ⟨b, n, c, booked, ?_, run, kept, turn⟩
  rw [split, List.getElem?_append_right (by omega), same, Nat.sub_self]
  rfl

/-- Nobody starves in the queue. Whatever the workers and the callers of `schedule` do from a reachable state
on, an entry is passed over at most once for each entry that stands before it: with `k` chances behind it, at least
`k` of those are gone, the others are in their order, and nothing new has come before it; with more chances
than entries before it, it has been taken, by a worker that it is meant for. -/
theorem run_turn {ls ms : List (Nat × Scheduler.Call κ)} {back : List (FiberAndThread κ)} (reach : Run CallStep {} ls s)
    (shape : s.scheduler.m_fibers = front ++ ft :: back) (run : Run (ChanceStep ft) (s, 0) ms (t, k)) :
    ∃ b n c, Run Booked ({}, {}) ls (s, b) ∧ b.queue[front.length]? = some (ft, n) ∧ Run Booked (s, b) ms (t, c) ∧
      t.Kept c ∧ Turn front ft n k c ∧ (front.length < k → n ∈ c.taken.map Prod.fst) := by
  obtain ⟨b, n, c, booked, ticket, more, kept, turn⟩ := exists_turn reach shape run
  exact ⟨b, n, c, booked, ticket, more, kept, turn, turn.taken_of_lt⟩

/-- The worker 0 is about to select, with two functions in the queue. -/
def twoQueued : List (Nat × Scheduler.Call Nat) :=
  [(0, .act .run), (0, .schedule (.cb (some 7)) (-1)), (0, .schedule (.cb (some 8)) (-1))]

/-- It runs the first function to its end and selects again. -/
def bothTaken : List (Nat × Scheduler.Call Nat) :=
  [(0, .act .run), (0, .act .run), (0, .act .run), (0, .act .finish), (0, .act .switch), (0, .act .run), (0, .act .run),
   (0, .act .run), (0, .act .run)]

theorem run_turn_bothTaken : ∃ (s t : Workers Nat) (b c : Book (FiberAndThread Nat) Nat) (n : Nat),
    Run Booked ({}, {}) twoQueued (s, b) ∧ b.queue[1]? = some ({ cb := some 8 }, n) ∧
      Run Booked (s, b) bothTaken (t, c) ∧ n ∈ c.taken.map Prod.fst := by
  have reach : ∃ s : Workers Nat, acts (fun s l => s.call l.1 l.2) {} twoQueued = some s := ⟨_, rfl⟩
  obtain ⟨s, queued⟩ := reach
  have shape : s.scheduler.m_fibers = [{ cb := some 7 }] ++ { cb := some 8 } :: [] := by
    cases queued
    rfl
  have eligible : ∀ u : Workers Nat, ({ cb := some 8 } : FiberAndThread Nat).Eligible u.scheduler.m_state (0 : Nat) :=
    fun u => ⟨.inl rfl, nofun⟩
  have run : ∃ t, Run (ChanceStep { cb := some 8 }) (s, 0) bothTaken (t, 2) := by
    cases queued
    exact ⟨_, .cons (.chance rfl ⟨rfl, eligible _⟩) <| .cons (.other rfl nofun) <| .cons (.other rfl nofun) <|
      .cons (.other rfl nofun) <| .cons (.other rfl nofun) <| .cons (.other rfl nofun) <| .cons (.other rfl nofun) <|
      .cons (.other rfl nofun) <| .cons (.chance rfl ⟨rfl, eligible _⟩) .start⟩
  obtain ⟨t, counted⟩ := run
  obtain ⟨b, n, c, booked, ticket, more, -, -, late⟩ := run_turn (run_of_acts _ queued) shape counted
  exact ⟨s, t, b, c, n, booked, ticket, more, late (Nat.lt_succ_self 1)⟩

end Sylar.Workers
