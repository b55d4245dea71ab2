import Mathlib.Data.List.Basic

/-! Two lists are compared element by element as far as both go, and then by their lengths: this is the
lexicographic order. -/

namespace Lexicographic

variable {α : Type*} [LT α] [DecidableLT α]

/-- The comparison at the first difference among the first `n` elements. -/
def compareFirst : List α → List α → Nat → Ordering
  | a :: l, b :: m, n + 1 => if a < b then .lt else if b < a then .gt else compareFirst l m n
  | _, _, _ => .eq

def less (l m : List α) : Bool :=
  match compareFirst l m (min l.length m.length) with
  | .lt => true
  | .gt => false
  | .eq => decide (l.length < m.length)

/-- Elements behind the first `n` have no part in it. -/
theorem compareFirst_take {n i j : Nat} (left : n ≤ i) (right : n ≤ j) (l m : List α) :
    compareFirst (l.take i) (m.take j) n = compareFirst l m n := by
  induction n generalizing i j l m with
  | zero => cases l.take i <;> cases m.take j <;> cases l <;> cases m <;> rfl
  | succ n ih =>
    obtain ⟨i, rfl⟩ := Nat.exists_eq_add_of_lt (Nat.lt_of_lt_of_le (Nat.zero_lt_succ n) left)
    obtain ⟨j, rfl⟩ := Nat.exists_eq_add_of_lt (Nat.lt_of_lt_of_le (Nat.zero_lt_succ n) right)
    cases l with
    | nil => rw [List.take_nil, compareFirst, compareFirst] <;> nofun
    | cons a l =>
      cases m with
      | nil => rw [List.take_nil, compareFirst, compareFirst] <;> nofun
      | cons b m =>
        simp only [Nat.zero_add, List.take_succ_cons, compareFirst]
        rw [ih (by omega) (by omega)]

theorem less_cons (a b : α) (l m : List α) :
    less (a :: l) (b :: m) = if a < b then true else if b < a then false else less l m := by
  rw [less, List.length_cons, List.length_cons, Nat.succ_min_succ, compareFirst]
  by_cases smaller : a < b
  · simp only [smaller, if_true]
  · by_cases greater : b < a
    · simp only [smaller, greater, if_true, if_false]
    · simp only [smaller, greater, if_false, less, Nat.add_lt_add_iff_right]

variable [LE α] [Std.IsLinearOrder α] [Std.LawfulOrderLT α]

omit [Std.IsLinearOrder α] in
theorem compareFirst_self (l : List α) (n : Nat) : compareFirst l l n = .eq := by
  induction l generalizing n with
  | nil => rfl
  | cons a l ih =>
    cases n with
    | zero => rfl
    | succ n => rw [compareFirst, if_neg Std.lt_irrefl, if_neg Std.lt_irrefl, ih]

/-- Without a difference the first elements are the same. -/
theorem compareFirst_eq {l m : List α} {n : Nat} (left : n ≤ l.length) (right : n ≤ m.length) :
    compareFirst l m n = .eq ↔ l.take n = m.take n := by
  refine ⟨fun same => ?_, fun same => ?_⟩
  · induction l generalizing m n with
    | nil =>
      rw [Nat.le_zero.mp left]
      rfl
    | cons a l ih =>
      cases n with
      | zero => rfl
      | succ n =>
        cases m with
        | nil => cases right
        | cons b m =>
          rw [compareFirst] at same
          split at same
          · cases same
          split at same
          · cases same
          rename_i notLess notGreater
          have equal : a = b := by
            rcases Std.lt_trichotomy a b with less | equal | greater
            · exact absurd less notLess
            · exact equal
            · exact absurd greater notGreater
          rw [List.take_succ_cons, List.take_succ_cons, equal,
            ih (Nat.le_of_succ_le_succ left) (Nat.le_of_succ_le_succ right) same]
  · rw [← compareFirst_take (Nat.le_refl n) (Nat.le_refl n), same, compareFirst_self]

theorem less_iff (l m : List α) : less l m = true ↔ l < m := by
  induction l generalizing m with
  | nil =>
    cases m with
    | nil => simp [less, compareFirst]
    | cons b m => simp [less, compareFirst]
  | cons a l ih =>
    cases m with
    | nil => simp [less, compareFirst]
    | cons b m =>
      rw [less_cons, List.cons_lt_cons_iff, ← ih]
      rcases Std.lt_trichotomy a b with smaller | rfl | greater
      · simp [smaller]
      · simp [Std.lt_irrefl]
      · have other : a ≠ b := fun same => Std.lt_irrefl (same ▸ greater)
        have notLess : ¬ a < b := fun smaller => Std.lt_irrefl (Std.lt_trans smaller greater)
        simp [notLess, greater, other]

end Lexicographic
