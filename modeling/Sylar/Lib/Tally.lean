import Mathlib.Data.Set.Card
import Mathlib.Logic.Function.Basic

namespace Tally

variable {ι σ : Type} {P : σ → Prop} {f : ι → σ} {n : Int}

/-- Finitely many members of the family satisfy `P`, and `n` is their number. -/
structure Counts (P : σ → Prop) (f : ι → σ) (n : Int) : Prop where
  finite : {i | P (f i)}.Finite
  eq_ncard : n = {i | P (f i)}.ncard

theorem Counts.nonneg (counts : Counts P f n) : 0 ≤ n := by
  rw [counts.eq_ncard]
  exact Int.natCast_nonneg _

theorem Counts.eq_zero_iff (counts : Counts P f n) : n = 0 ↔ ∀ i, ¬ P (f i) := by
  rw [counts.eq_ncard, Int.natCast_eq_zero, Set.ncard_eq_zero counts.finite, Set.eq_empty_iff_forall_notMem]
  rfl

theorem Counts.pos (counts : Counts P f n) {i : ι} (inside : P (f i)) : 0 < n := by
  have nonneg := counts.nonneg
  have nonzero : n ≠ 0 := fun zero => counts.eq_zero_iff.mp zero i inside
  omega

/-- One is the number of at most one. -/
theorem Counts.unique (counts : Counts P f 1) {i j : ι} (first : P (f i)) (second : P (f j)) : i = j := by
  have one : {i | P (f i)}.ncard = 1 := by
    have number := counts.eq_ncard
    omega
  obtain ⟨k, only⟩ := Set.ncard_eq_one.mp one
  have at_ : ∀ l, P (f l) → l = k := fun l inside => by
    have member : l ∈ {i | P (f i)} := inside
    rwa [only] at member
  exact (at_ i first).trans (at_ j second).symm

theorem counts_none (none : ∀ i, ¬ P (f i)) : Counts P f 0 := by
  have empty : {i | P (f i)} = ∅ := Set.eq_empty_iff_forall_notMem.mpr none
  exact ⟨empty ▸ Set.finite_empty, by rw [empty, Set.ncard_empty]; rfl⟩

variable [DecidableEq ι]

theorem Counts.same (counts : Counts P f n) {i : ι} {x : σ} (same : P x ↔ P (f i)) :
    Counts P (Function.update f i x) n := by
  have members : {j | P (Function.update f i x j)} = {j | P (f j)} := by
    ext j
    by_cases here : j = i
    · subst here
      simpa using same
    · simp [Function.update_of_ne here]
  exact ⟨members ▸ counts.finite, members ▸ counts.eq_ncard⟩

theorem Counts.enter (counts : Counts P f n) {i : ι} {x : σ} (out : ¬ P (f i)) (inside : P x) :
    Counts P (Function.update f i x) (n + 1) := by
  have members : {j | P (Function.update f i x j)} = insert i {j | P (f j)} := by
    ext j
    by_cases here : j = i
    · subst here
      simpa using inside
    · simp [here]
  refine ⟨members ▸ counts.finite.insert i, ?_⟩
  have absent : i ∉ {j | P (f j)} := out
  rw [members, Set.ncard_insert_of_notMem absent counts.finite, counts.eq_ncard]
  rfl

theorem Counts.leave (counts : Counts P f n) {i : ι} {x : σ} (inside : P (f i)) (out : ¬ P x) :
    Counts P (Function.update f i x) (n - 1) := by
  have members : insert i {j | P (Function.update f i x j)} = {j | P (f j)} := by
    ext j
    by_cases here : j = i
    · subst here
      simpa using inside
    · simp [here]
  have finite : {j | P (Function.update f i x j)}.Finite :=
    counts.finite.subset (members ▸ Set.subset_insert i _)
  refine ⟨finite, ?_⟩
  have absent : i ∉ {j | P (Function.update f i x j)} := by simpa using out
  rw [counts.eq_ncard, ← members, Set.ncard_insert_of_notMem absent finite]
  omega

/-- One member goes from `x` to `y`, and the number from `n` to `m`. -/
inductive Shift (P : σ → Prop) (x y : σ) (n m : Int) : Prop
  | same : (P y ↔ P x) → m = n → Shift P x y n m
  | enter : ¬ P x → P y → m = n + 1 → Shift P x y n m
  | leave : P x → ¬ P y → m = n - 1 → Shift P x y n m

theorem Counts.shift (counts : Counts P f n) {i : ι} {y : σ} {m : Int} (shift : Shift P (f i) y n m) :
    Counts P (Function.update f i y) m := by
  cases shift with
  | same same number => exact number ▸ counts.same same
  | enter out inside number => exact number ▸ counts.enter out inside
  | leave inside out number => exact number ▸ counts.leave inside out

end Tally
