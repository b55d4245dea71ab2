import Mathlib.Logic.Function.Basic
import Sylar.Lib.Machine

/-! A board of slots, each of which holds at most one content, and the histories of what was put
into the slots and taken out of them. -/

namespace Board
open Machine

variable {ι ρ ε : Type}

/-- A content put into a slot, or taken out of it in one of several ways. -/
inductive Act (ι ρ ε : Type)
  | put (slot : ι) (x : ρ)
  | take (slot : ι) (x : ρ) (way : ε)
  deriving DecidableEq, Repr

def Act.slot : Act ι ρ ε → ι
  | .put slot _ => slot
  | .take slot _ _ => slot

/-- The slot is left alone after the `i`th act and before the `j`th. -/
def Quiet (acts : List (Act ι ρ ε)) (slot : ι) (i j : Nat) : Prop :=
  ∀ k a, i < k → k < j → acts[k]? = some a → a.slot ≠ slot

/-- The next act on a slot is one act. -/
theorem Quiet.next_unique {acts : List (Act ι ρ ε)} {slot : ι} {i j k : Nat} {a b : Act ι ρ ε}
    (quietJ : Quiet acts slot i j) (quietK : Quiet acts slot i k) (afterJ : i < j) (afterK : i < k)
    (atJ : acts[j]? = some a) (atK : acts[k]? = some b) (slotA : a.slot = slot) (slotB : b.slot = slot) : j = k := by
  rcases Nat.lt_trichotomy j k with less | same | more
  · exact absurd slotA (quietK j a afterJ less atJ)
  · exact same
  · exact absurd slotB (quietJ k b afterK more atK)

/-- The last act on a slot before another is one act. -/
theorem Quiet.last_unique {acts : List (Act ι ρ ε)} {slot : ι} {i k j : Nat} {a b : Act ι ρ ε}
    (quietI : Quiet acts slot i j) (quietK : Quiet acts slot k j) (beforeI : i < j) (beforeK : k < j)
    (atI : acts[i]? = some a) (atK : acts[k]? = some b) (slotA : a.slot = slot) (slotB : b.slot = slot) : i = k := by
  rcases Nat.lt_trichotomy i k with less | same | more
  · exact absurd slotB (quietI k b less beforeK atK)
  · exact same
  · exact absurd slotA (quietK i a more beforeI atI)

theorem getElem?_snoc {α : Type} {xs : List α} {a b : α} {k : Nat} :
    (xs ++ [a])[k]? = some b ↔ xs[k]? = some b ∨ k = xs.length ∧ b = a := by
  rcases Nat.lt_trichotomy k xs.length with inside | last | outside
  · rw [List.getElem?_append_left inside]
    exact ⟨.inl, fun h => h.elim id (fun h => absurd h.1 (Nat.ne_of_lt inside))⟩
  · subst last
    simp [eq_comm]
  · have longer : (xs ++ [a]).length ≤ k := by rw [List.length_append]; exact outside
    rw [List.getElem?_eq_none longer, List.getElem?_eq_none (Nat.le_of_lt outside)]
    simp [Nat.ne_of_gt outside]

theorem Quiet.append {acts : List (Act ι ρ ε)} {slot : ι} {i j : Nat} (quiet : Quiet acts slot i j)
    (inside : j ≤ acts.length) (a : Act ι ρ ε) : Quiet (acts ++ [a]) slot i j := by
  intro k b after before atK
  rcases getElem?_snoc.mp atK with old | ⟨last, -⟩
  · exact quiet k b after before old
  · omega

theorem Quiet.extend {acts : List (Act ι ρ ε)} {slot : ι} {i : Nat} (quiet : Quiet acts slot i acts.length)
    {a : Act ι ρ ε} (other : a.slot ≠ slot) : Quiet (acts ++ [a]) slot i (acts ++ [a]).length := by
  intro k b after _ atK
  rcases getElem?_snoc.mp atK with old | ⟨-, same⟩
  · exact quiet k b after (List.getElem?_eq_some_iff.mp old).1 old
  · exact same ▸ other

theorem quiet_last (acts : List (Act ι ρ ε)) (a : Act ι ρ ε) (slot : ι) :
    Quiet (acts ++ [a]) slot acts.length (acts ++ [a]).length := by
  intro k b after bound
  rw [List.length_append, List.length_singleton] at bound
  omega

variable [DecidableEq ι]

/-- A slot that is full after one was filled. -/
theorem update_eq_some {board after : ι → Option ρ} {slot other : ι} {x y : ρ}
    (filled : after = Function.update board slot (some x)) (full : after other = some y) :
    other = slot ∧ y = x ∨ other ≠ slot ∧ board other = some y := by
  rw [filled] at full
  by_cases same : other = slot
  · rw [same, Function.update_self] at full
    exact .inl ⟨same, (Option.some.inj full).symm⟩
  · rw [Function.update_of_ne same] at full
    exact .inr ⟨same, full⟩

/-- A slot that is full after one was emptied. -/
theorem clear_eq_some {board : ι → Option ρ} {slot other : ι} {y : ρ}
    (full : Function.update board slot none other = some y) : other ≠ slot ∧ board other = some y := by
  by_cases same : other = slot
  · rw [same, Function.update_self] at full
    cases full
  · rw [Function.update_of_ne same] at full
    exact ⟨same, full⟩

/-- Only an empty slot is filled, and only the content of a slot is taken out. -/
inductive Step : (ι → Option ρ) → Act ι ρ ε → (ι → Option ρ) → Prop
  | put {board slot x} : board slot = none → Step board (.put slot x) (Function.update board slot (some x))
  | take {board slot x way} : board slot = some x →
      Step board (.take slot x way) (Function.update board slot none)

theorem Step.frame {board after : ι → Option ρ} {a : Act ι ρ ε} (step : Step board a after) {slot : ι}
    (other : a.slot ≠ slot) : after slot = board slot := by
  cases step with
  | put _ => exact Function.update_of_ne (Ne.symm other) _ _
  | take _ => exact Function.update_of_ne (Ne.symm other) _ _

/-- The only act on a full slot is to take its content out. -/
theorem Step.of_full {board after : ι → Option ρ} {a : Act ι ρ ε} (step : Step board a after) {slot : ι} {x : ρ}
    (same : a.slot = slot) (full : board slot = some x) : ∃ way, a = .take slot x way := by
  cases step with
  | put free =>
    cases same
    rw [Act.slot, free] at full
    cases full
  | take content =>
    cases same
    rw [Act.slot, content] at full
    cases full
    exact ⟨_, rfl⟩

/-- A content that was put into a slot lies there still, or it was the next to be taken out. -/
theorem fate {start board : ι → Option ρ} {acts : List (Act ι ρ ε)} (run : Run Step start acts board)
    {i : Nat} {slot : ι} {x : ρ} (put : acts[i]? = some (.put slot x)) :
    (board slot = some x ∧ Quiet acts slot i acts.length) ∨
      ∃ j way, i < j ∧ acts[j]? = some (.take slot x way) ∧ Quiet acts slot i j := by
  induction run with
  | start => simp at put
  | @next acts before a board run step ih =>
    rcases getElem?_snoc.mp put with old | ⟨rfl, rfl⟩
    · have inside := (List.getElem?_eq_some_iff.mp old).1
      rcases ih old with ⟨lies, quiet⟩ | ⟨j, way, later, taken, quiet⟩
      · by_cases same : a.slot = slot
        · obtain ⟨way, rfl⟩ := step.of_full same lies
          exact .inr ⟨acts.length, way, inside, getElem?_snoc.mpr (.inr ⟨rfl, rfl⟩),
            quiet.append (Nat.le_refl _) _⟩
        · exact .inl ⟨(step.frame same).trans lies, quiet.extend same⟩
      · have bound := (List.getElem?_eq_some_iff.mp taken).1
        exact .inr ⟨j, way, later, getElem?_snoc.mpr (.inl taken), quiet.append (Nat.le_of_lt bound) a⟩
    · cases step with
      | put _ => exact .inl ⟨Function.update_self _ _ _, quiet_last acts _ slot⟩

theorem frame {start board : ι → Option ρ} {acts : List (Act ι ρ ε)} (run : Run Step start acts board) {slot : ι}
    (others : ∀ a ∈ acts, a.slot ≠ slot) : board slot = start slot := by
  induction run with
  | start => rfl
  | next _ step ih =>
    have last := others _ (List.mem_append_right _ (List.mem_singleton_self _))
    exact (step.frame last).trans (ih fun a member => others a (List.mem_append_left _ member))

/-- A content that lies in a slot lay there at the start, or it was put there. -/
theorem lay_or_put {start board : ι → Option ρ} {acts : List (Act ι ρ ε)} (run : Run Step start acts board)
    {slot : ι} {x : ρ} (lies : board slot = some x) : start slot = some x ∨ .put slot x ∈ acts := by
  induction run with
  | start => exact .inl lies
  | @next acts before a board run step ih =>
    by_cases same : a.slot = slot
    · cases step with
      | put _ =>
        cases same
        rw [Act.slot, Function.update_self] at lies
        cases lies
        exact .inr (List.mem_append_right _ (List.mem_singleton_self _))
      | take _ =>
        cases same
        rw [Act.slot, Function.update_self] at lies
        cases lies
    · rcases ih ((step.frame same).symm.trans lies) with first | put
      · exact .inl first
      · exact .inr (List.mem_append_left _ put)

/-- A content that lay in a slot at the start lies there still, or it was taken out. -/
theorem lies_or_taken {start board : ι → Option ρ} {acts : List (Act ι ρ ε)} (run : Run Step start acts board)
    {slot : ι} {x : ρ} (lay : start slot = some x) : board slot = some x ∨ ∃ way, .take slot x way ∈ acts := by
  induction run with
  | start => exact .inl lay
  | @next acts before a board run step ih =>
    rcases ih with lies | ⟨way, taken⟩
    · by_cases same : a.slot = slot
      · obtain ⟨way, rfl⟩ := step.of_full same lies
        exact .inr ⟨way, List.mem_append_right _ (List.mem_singleton_self _)⟩
      · exact .inl ((step.frame same).trans lies)
    · exact .inr ⟨way, List.mem_append_left _ taken⟩

/-- What holds of every content that is put somewhere holds of every content. -/
theorem contents {start board : ι → Option ρ} {acts : List (Act ι ρ ε)} {P : ρ → Prop}
    (run : Run Step start acts board) (first : ∀ slot x, start slot = some x → P x)
    (puts : ∀ slot x, .put slot x ∈ acts → P x) : ∀ slot x, board slot = some x → P x :=
  fun slot x lies => (lay_or_put run lies).elim (first slot x) (puts slot x)

/-- What holds of the contents at the start and of those put in holds of those taken out and of
those that lie there at the end. -/
theorem run_forall {P : ρ → Prop} {start board : ι → Option ρ} {acts : List (Act ι ρ ε)}
    (run : Run Step start acts board) (first : ∀ slot x, start slot = some x → P x)
    (puts : ∀ slot x, .put slot x ∈ acts → P x) :
    (∀ slot x, board slot = some x → P x) ∧ ∀ slot x way, .take slot x way ∈ acts → P x := by
  refine ⟨contents run first puts, ?_⟩
  induction run with
  | start => exact fun _ _ _ member => by cases member
  | @next acts before a board run step ih =>
    have earlier : ∀ slot x, .put slot x ∈ acts → P x :=
      fun slot x member => puts slot x (List.mem_append_left _ member)
    intro slot x way member
    rcases List.mem_append.mp member with old | last
    · exact ih earlier slot x way old
    · cases List.mem_singleton.mp last
      cases step with
      | take content => exact contents run first earlier slot x content

/-- A content of a slot was put there, and the slot was left alone since. -/
theorem content {start board : ι → Option ρ} {acts : List (Act ι ρ ε)} (run : Run Step start acts board)
    (empty : ∀ slot, start slot = none) {slot : ι} {x : ρ} (lies : board slot = some x) :
    ∃ i, acts[i]? = some (.put slot x) ∧ Quiet acts slot i acts.length := by
  induction run with
  | start => simp [empty] at lies
  | @next acts before a board run step ih =>
    by_cases same : a.slot = slot
    · cases step with
      | put _ =>
        cases same
        rw [Act.slot, Function.update_self] at lies
        cases lies
        exact ⟨acts.length, getElem?_snoc.mpr (.inr ⟨rfl, rfl⟩), quiet_last acts _ _⟩
      | take _ =>
        cases same
        rw [Act.slot, Function.update_self] at lies
        cases lies
    · obtain ⟨i, put, quiet⟩ := ih ((step.frame same).symm.trans lies)
      exact ⟨i, getElem?_snoc.mpr (.inl put), quiet.extend same⟩

/-- What was taken out of a slot was the last to be put there. -/
theorem origin {start board : ι → Option ρ} {acts : List (Act ι ρ ε)} (run : Run Step start acts board)
    (empty : ∀ slot, start slot = none) {j : Nat} {slot : ι} {x : ρ} {way : ε}
    (taken : acts[j]? = some (.take slot x way)) :
    ∃ i, i < j ∧ acts[i]? = some (.put slot x) ∧ Quiet acts slot i j := by
  induction run with
  | start => simp at taken
  | @next acts before a board run step ih =>
    rcases getElem?_snoc.mp taken with old | ⟨rfl, rfl⟩
    · have inside := (List.getElem?_eq_some_iff.mp old).1
      obtain ⟨i, before, put, quiet⟩ := ih old
      exact ⟨i, before, getElem?_snoc.mpr (.inl put), quiet.append (Nat.le_of_lt inside) a⟩
    · cases step with
      | take lies =>
        obtain ⟨i, put, quiet⟩ := content run empty lies
        have inside := (List.getElem?_eq_some_iff.mp put).1
        exact ⟨i, inside, getElem?_snoc.mpr (.inl put), quiet.append (Nat.le_refl _) _⟩

end Board
