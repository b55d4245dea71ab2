import Mathlib.Algebra.Order.Ring.Int
import Mathlib.Logic.Function.Basic

/-! The socket addresses of `IPv4Address` and `IPv6Address`, their byte order, and `CreateMask`. -/

namespace Sylar

/-- `BYTE_ORDER` of the machine. -/
inductive ByteOrder
  | little
  | big
  deriving DecidableEq, Repr

/-- The widths that `byteswap` is there for. It turns the order of the bytes. -/
class Byteswap (w : Nat) where
  byteswap : BitVec w → BitVec w
  getLsbD_byteswap : ∀ t i, i < w → (byteswap t).getLsbD i = t.getLsbD (8 * (w / 8 - 1 - i / 8) + i % 8)
  bytes : w % 8 = 0

/-- `bswap_16` -/
instance : Byteswap 16 where
  byteswap t := t.extractLsb' 0 8 ++ t.extractLsb' 8 8
  getLsbD_byteswap t i inside := by
    simp only [BitVec.getLsbD_append, BitVec.getLsbD_extractLsb']
    split
    · have place : 8 * (16 / 8 - 1 - i / 8) + i % 8 = 8 + i := by omega
      simp_all
    · have place : 8 * (16 / 8 - 1 - i / 8) + i % 8 = 0 + (i - 8) := by omega
      have low : i - 8 < 8 := by omega
      simp_all
  bytes := rfl

theorem byteswap_append (b c : BitVec 8) : Byteswap.byteswap (w := 16) (b ++ c) = c ++ b := by
  have low : (b ++ c).extractLsb' 0 8 = c := BitVec.extractLsb'_append_eq_right
  have high : (b ++ c).extractLsb' 8 8 = b := BitVec.extractLsb'_append_eq_left
  have turned : Byteswap.byteswap (w := 16) (b ++ c) = (b ++ c).extractLsb' 0 8 ++ (b ++ c).extractLsb' 8 8 := rfl
  rw [turned, low, high]

/-- `bswap_32` -/
instance : Byteswap 32 where
  byteswap t := t.extractLsb' 0 8 ++ t.extractLsb' 8 8 ++ t.extractLsb' 16 8 ++ t.extractLsb' 24 8
  getLsbD_byteswap t i inside := by
    simp only [BitVec.getLsbD_append, BitVec.getLsbD_extractLsb']
    split
    · have place : 8 * (32 / 8 - 1 - i / 8) + i % 8 = 24 + i := by omega
      simp_all
    split
    · have place : 8 * (32 / 8 - 1 - i / 8) + i % 8 = 16 + (i - 8) := by omega
      simp_all
    split
    · have place : 8 * (32 / 8 - 1 - i / 8) + i % 8 = 8 + (i - 8 - 8) := by omega
      simp_all
    · have place : 8 * (32 / 8 - 1 - i / 8) + i % 8 = 0 + (i - 8 - 8 - 8) := by omega
      have low : i - 8 - 8 - 8 < 8 := by omega
      simp_all
  bytes := rfl

variable {w : Nat} [Byteswap w]

def byteswapOnLittleEndian (order : ByteOrder) (t : BitVec w) : BitVec w :=
  match order with
  | .little => Byteswap.byteswap t
  | .big => t

/-- The bits change their places and nothing else. -/
theorem exists_place (order : ByteOrder) : ∃ place : Nat → Nat, (∀ i < w, place i < w ∧ place (place i) = i) ∧
    ∀ (t : BitVec w) i, i < w → (byteswapOnLittleEndian order t).getLsbD i = t.getLsbD (place i) := by
  cases order with
  | little =>
    have whole : w % 8 = 0 := Byteswap.bytes
    refine ⟨fun i => 8 * (w / 8 - 1 - i / 8) + i % 8, fun i inside => ?_, Byteswap.getLsbD_byteswap⟩
    have byte : i / 8 ≤ w / 8 - 1 := by omega
    have turned : (8 * (w / 8 - 1 - i / 8) + i % 8) / 8 = w / 8 - 1 - i / 8 := by omega
    simp only [turned]
    omega
  | big => exact ⟨id, fun i inside => ⟨inside, rfl⟩, fun t i _ => rfl⟩

@[simp] theorem byteswapOnLittleEndian_twice (order : ByteOrder) (t : BitVec w) :
    byteswapOnLittleEndian order (byteswapOnLittleEndian order t) = t := by
  obtain ⟨place, inside, moved⟩ := exists_place (w := w) order
  refine BitVec.eq_of_getLsbD_eq fun i range => ?_
  rw [moved _ i range, moved _ _ (inside i range).1, (inside i range).2]

theorem byteswapOnLittleEndian_and (order : ByteOrder) (s t : BitVec w) :
    byteswapOnLittleEndian order (s &&& t) = byteswapOnLittleEndian order s &&& byteswapOnLittleEndian order t := by
  obtain ⟨place, -, moved⟩ := exists_place (w := w) order
  refine BitVec.eq_of_getLsbD_eq fun i range => ?_
  rw [BitVec.getLsbD_and, moved _ i range, moved _ i range, moved _ i range, BitVec.getLsbD_and]

theorem byteswapOnLittleEndian_or (order : ByteOrder) (s t : BitVec w) :
    byteswapOnLittleEndian order (s ||| t) = byteswapOnLittleEndian order s ||| byteswapOnLittleEndian order t := by
  obtain ⟨place, -, moved⟩ := exists_place (w := w) order
  refine BitVec.eq_of_getLsbD_eq fun i range => ?_
  rw [BitVec.getLsbD_or, moved _ i range, moved _ i range, moved _ i range, BitVec.getLsbD_or]

def AF_INET : BitVec 16 := 2

def AF_INET6 : BitVec 16 := 10

structure sockaddr_in where
  sin_family : BitVec 16
  sin_port : BitVec 16
  sin_addr : BitVec 32
  deriving DecidableEq

structure sockaddr_in6 where
  sin6_family : BitVec 16
  sin6_port : BitVec 16
  sin6_flowinfo : BitVec 32
  sin6_addr : Fin 16 → BitVec 8
  sin6_scope_id : BitVec 32

/-- `CreateMask<T>(bits)` for a `T` of `width` bits. The shift count is a `size_t`, and what is shifted is an
`int`: there is no value when the count reaches its width, or when the subtraction leaves its range. -/
def CreateMask (width bits : Nat) : Option (BitVec width) :=
  let count := (width + 2 ^ 64 - bits) % 2 ^ 64
  if count ≥ 32 then none
  else
    let shifted := (1#32 <<< count).toInt
    if shifted - 1 < -2 ^ 31 then none else some (BitVec.ofInt width (shifted - 1))

theorem toInt_one_shiftLeft {count : Nat} (range : count < 31) : (1#32 <<< count).toInt = ((2 ^ count : Nat) : Int) := by
  have bound : 2 ^ count ≤ 2 ^ 30 := Nat.pow_le_pow_right (by omega) (by omega)
  have value : (1#32 <<< count).toNat = 2 ^ count := by
    have one : (1#32).toNat = 1 := rfl
    rw [BitVec.toNat_shiftLeft, one, Nat.shiftLeft_eq, Nat.one_mul, Nat.mod_eq_of_lt (by omega)]
  rw [BitVec.toInt_eq_toNat_of_lt (by omega), value]

/-- Where the shift stays in the range of an `int`, the mask has the low bits. -/
theorem CreateMask_eq {width bits : Nat} (small : bits ≤ width) (range : width - bits < 31) :
    CreateMask width bits = some (BitVec.ofNat width (2 ^ (width - bits) - 1)) := by
  have count : (width + 2 ^ 64 - bits) % 2 ^ 64 = width - bits := by omega
  have positive : 1 ≤ 2 ^ (width - bits) := Nat.one_le_two_pow
  have less : ((2 ^ (width - bits) : Nat) : Int) - 1 = ((2 ^ (width - bits) - 1 : Nat) : Int) := by omega
  simp only [CreateMask, count, toInt_one_shiftLeft range, less]
  rw [if_neg (by omega), if_neg (by omega), BitVec.ofInt_natCast]

theorem getLsbD_mask (width count : Nat) {i : Nat} (inside : i < width) :
    (BitVec.ofNat width (2 ^ count - 1)).getLsbD i = decide (i < count) := by
  rw [BitVec.getLsbD_ofNat, decide_eq_true inside, Bool.true_and, Nat.testBit_two_pow_sub_one]

end Sylar
