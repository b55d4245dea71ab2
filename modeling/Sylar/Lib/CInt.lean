import Mathlib.Algebra.Order.Ring.Int

/-! The integer types of C where `int` has 32 bits and `long` has 64. -/

namespace CInt

/-- The value of an expression of type `long`. Signed overflow is undefined. -/
def long (x : Int) : Option Int64 :=
  if -2 ^ 63 ≤ x ∧ x < 2 ^ 63 then some (Int64.ofInt x) else none

theorem long_eq_some_iff {x : Int} {n : Int64} : long x = some n ↔ n.toInt = x := by
  unfold long
  split
  · rename_i inside
    have value := Int64.toInt_ofInt_of_le inside.1 inside.2
    rw [Option.some.injEq, ← Int64.toInt_inj, value, eq_comm]
  · rename_i outside
    refine iff_of_false nofun fun same => outside ?_
    rw [← same]
    exact ⟨n.le_toInt, n.toInt_lt⟩

theorem long_eq_none_iff {x : Int} : long x = none ↔ ¬ (-2 ^ 63 ≤ x ∧ x < 2 ^ 63) := by
  simp [long]

/-- `long` to `uint64_t`. -/
theorem toNat_toUInt64 (x : Int64) : (x.toUInt64.toNat : Int) = x.toInt % 2 ^ 64 := by
  have signed : x.toInt = x.toBitVec.toInt := rfl
  have bound : x.toBitVec.toNat < 2 ^ 64 := x.toBitVec.isLt
  rw [signed, BitVec.toInt_eq_toNat_bmod]
  change (x.toBitVec.toNat : Int) = _
  rw [Int.bmod_def]
  split <;> omega

/-- `int` to `uint64_t`, with the sign extended. -/
def uint64 (x : Int32) : UInt64 := x.toInt64.toUInt64

theorem toNat_uint64 (x : Int32) : ((uint64 x).toNat : Int) = x.toInt % 2 ^ 64 := by
  rw [uint64, toNat_toUInt64, Int32.toInt_toInt64]

/-- `uint64_t` to `int`. -/
def int (x : UInt64) : Int32 := x.toInt64.toInt32

theorem toInt_int (x : UInt64) : (int x).toInt = (x.toNat : Int).bmod (2 ^ 32) := by
  have signed : x.toInt64.toInt = (x.toNat : Int).bmod (2 ^ 64) := x.toInt64.toBitVec.toInt_eq_toNat_bmod
  rw [int, Int64.toInt_toInt32, signed]
  exact Int.bmod_bmod_of_dvd (by decide)

end CInt
