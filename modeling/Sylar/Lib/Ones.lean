import Mathlib.Algebra.BigOperators.Intervals
import Mathlib.Algebra.Order.BigOperators.Group.Finset
import Mathlib.Algebra.Order.Ring.Int

/-! The number of one bits of a word. -/

namespace Ones

variable {v w : Nat}

/-- The number of one bits. -/
def ones (x : BitVec w) : Nat := ∑ i ∈ Finset.range w, (x.getLsbD i).toNat

theorem ones_zero : ones (0#w) = 0 := by
  refine Finset.sum_eq_zero fun i _ => ?_
  rw [BitVec.getLsbD_zero]
  rfl

theorem ones_le (x : BitVec w) : ones x ≤ w := by
  have each : ∀ i ∈ Finset.range w, (x.getLsbD i).toNat ≤ 1 := fun i _ => Bool.toNat_le _
  calc
    ones x ≤ ∑ _i ∈ Finset.range w, 1 := Finset.sum_le_sum each
    _ = w := by rw [← Finset.card_eq_sum_ones, Finset.card_range]

/-- The bits that a number has in common with the one before it are all of its bits but one. -/
theorem exists_lowest {n : Nat} (positive : 0 < n) :
    ∃ t, n.testBit t = true ∧ ∀ i, (n &&& (n - 1)).testBit i = (n.testBit i && decide (i ≠ t)) := by
  induction n using Nat.strongRecOn with
  | ind n ih =>
    rcases Nat.mod_two_eq_zero_or_one n with even | odd
    · obtain ⟨t, bit, cleared⟩ := ih (n / 2) (by omega) (by omega)
      have half : (n - 1) / 2 = n / 2 - 1 := by omega
      refine ⟨t + 1, by rw [Nat.testBit_succ, bit], fun i => ?_⟩
      cases i with
      | zero => simp [Nat.testBit_zero, even]
      | succ i =>
        have inHalf := cleared i
        rw [Nat.testBit_and] at inHalf ⊢
        rw [Nat.testBit_succ, Nat.testBit_succ, half, inHalf]
        simp
    · have half : (n - 1) / 2 = n / 2 := by omega
      have low : (n - 1) % 2 = 0 := by omega
      refine ⟨0, by simp [Nat.testBit_zero, odd], fun i => ?_⟩
      cases i with
      | zero => simp [Nat.testBit_zero, low]
      | succ i =>
        rw [Nat.testBit_and, Nat.testBit_succ, Nat.testBit_succ, half]
        simp

theorem toNat_sub_one {x : BitVec w} (nonzero : x ≠ 0#w) : (x - 1#w).toNat = x.toNat - 1 := by
  have positive : x.toNat ≠ 0 := fun zero => nonzero (BitVec.eq_of_toNat_eq zero)
  have bound := x.isLt
  have one : (1#w).toNat = 1 := by rw [BitVec.toNat_ofNat, Nat.mod_eq_of_lt (by omega)]
  rw [BitVec.toNat_sub_of_le (BitVec.le_def.mpr (by omega)), one]

theorem getLsbD_clear {x : BitVec w} (nonzero : x ≠ 0#w) :
    ∃ t < w, x.getLsbD t = true ∧ ∀ i, (x &&& (x - 1#w)).getLsbD i = (x.getLsbD i && decide (i ≠ t)) := by
  have positive : 0 < x.toNat := Nat.pos_of_ne_zero fun zero => nonzero (BitVec.eq_of_toNat_eq zero)
  obtain ⟨t, bit, cleared⟩ := exists_lowest positive
  refine ⟨t, BitVec.lt_of_getLsbD bit, bit, fun i => ?_⟩
  rw [BitVec.getLsbD, BitVec.toNat_and, toNat_sub_one nonzero, cleared]
  rfl

/-- A step of the count clears one bit. -/
theorem ones_clear {x : BitVec w} (nonzero : x ≠ 0#w) : ones (x &&& (x - 1#w)) + 1 = ones x := by
  obtain ⟨t, inside, bit, cleared⟩ := getLsbD_clear nonzero
  have member := Finset.mem_range.mpr inside
  have others : ∑ i ∈ (Finset.range w).erase t, ((x &&& (x - 1#w)).getLsbD i).toNat =
      ∑ i ∈ (Finset.range w).erase t, (x.getLsbD i).toNat := by
    refine Finset.sum_congr rfl fun i there => ?_
    rw [cleared, decide_eq_true (Finset.ne_of_mem_erase there), Bool.and_true]
  have gone : (x &&& (x - 1#w)).getLsbD t = false := by
    rw [cleared, decide_eq_false (fun other => other rfl), Bool.and_false]
  rw [ones, ones, ← Finset.sum_erase_add _ _ member, ← Finset.sum_erase_add _ _ member, others, gone, bit]
  rfl

theorem ones_append (x : BitVec v) (y : BitVec w) : ones (x ++ y) = ones x + ones y := by
  have width : Finset.range (v + w) = Finset.range (w + v) := congrArg Finset.range (Nat.add_comm v w)
  rw [ones, width, Finset.sum_range_add, Nat.add_comm (ones x)]
  refine congrArg₂ (· + ·) (Finset.sum_congr rfl fun i member => ?_) (Finset.sum_congr rfl fun i _ => ?_)
  · rw [BitVec.getLsbD_append, if_pos (Finset.mem_range.mp member)]
  · rw [BitVec.getLsbD_append, if_neg (by omega), Nat.add_sub_cancel_left]

/-- The order of the bits does not matter. -/
theorem ones_places {x y : BitVec w} {place : Nat → Nat} (inverse : ∀ i < w, place i < w ∧ place (place i) = i)
    (moved : ∀ i < w, y.getLsbD i = x.getLsbD (place i)) : ones y = ones x := by
  refine Finset.sum_nbij' place place ?_ ?_ ?_ ?_ ?_
  · exact fun i member => Finset.mem_range.mpr (inverse i (Finset.mem_range.mp member)).1
  · exact fun i member => Finset.mem_range.mpr (inverse i (Finset.mem_range.mp member)).1
  · exact fun i member => (inverse i (Finset.mem_range.mp member)).2
  · exact fun i member => (inverse i (Finset.mem_range.mp member)).2
  · intro i member
    rw [moved i (Finset.mem_range.mp member)]

/-- A word of which the highest `c` bits are ones and the others are not. -/
theorem ones_leading {x : BitVec w} {c : Nat} (leading : ∀ i < w, x.getLsbD (w - 1 - i) = decide (i < c)) :
    ones x = min w c := by
  have below : ∀ n, ∑ i ∈ Finset.range n, (decide (i < c)).toNat = min n c := by
    intro n
    induction n with
    | zero => rw [Finset.sum_range_zero, Nat.zero_min]
    | succ n ih =>
      rw [Finset.sum_range_succ, ih]
      by_cases less : n < c
      · rw [decide_eq_true less, Bool.toNat_true]
        omega
      · rw [decide_eq_false less, Bool.toNat_false]
        omega
  rw [ones, ← Finset.sum_range_reflect, ← below w]
  refine Finset.sum_congr rfl fun i member => ?_
  rw [leading i (Finset.mem_range.mp member)]

end Ones
