import Mathlib.Order.Defs.Unbundled
import Sylar.AddressKind
import Sylar.Lib.Lexicographic

/-! The order of addresses: that of the byte strings that `getAddr()` and `getAddrLen()` stand for. -/

namespace Sylar
namespace Address
open Lexicographic

/-- `memcmp(s1, s2, n)`, of which only the sign is used. -/
def memcmp (s1 s2 : List (BitVec 8)) (n : Nat) : Int :=
  match compareFirst s1 s2 n with
  | .lt => -1
  | .eq => 0
  | .gt => 1

variable (order : ByteOrder)

/-- `operator<` -/
def less (lhs rhs : Address) : Bool :=
  let minlen := min lhs.getAddrLen rhs.getAddrLen
  let result := memcmp (lhs.getAddr order) (rhs.getAddr order) minlen
  if result < 0 then true
  else if result > 0 then false
  else if lhs.getAddrLen < rhs.getAddrLen then true
  else false

/-- `operator==` -/
def equal (lhs rhs : Address) : Bool :=
  lhs.getAddrLen == rhs.getAddrLen && memcmp (lhs.getAddr order) (rhs.getAddr order) lhs.getAddrLen == 0

/-- `operator!=` -/
def notEqual (lhs rhs : Address) : Bool := !equal order lhs rhs

/-- The byte string of an address. -/
def raw (a : Address) : List (BitVec 8) := (a.getAddr order).take a.getAddrLen

theorem length_raw (a : Address) : (a.raw order).length = a.getAddrLen := by
  rw [raw, List.length_take, Nat.min_eq_left (a.getAddrLen_le order)]

/-- The order of addresses is the lexicographic order of their byte strings. -/
theorem less_iff_raw (a b : Address) : less order a b = true ↔ a.raw order < b.raw order := by
  have first : compareFirst (a.getAddr order) (b.getAddr order) (min a.getAddrLen b.getAddrLen) =
      compareFirst (a.raw order) (b.raw order) (min (a.raw order).length (b.raw order).length) := by
    rw [length_raw, length_raw]
    exact (compareFirst_take (Nat.min_le_left _ _) (Nat.min_le_right _ _) _ _).symm
  rw [← Lexicographic.less_iff, Lexicographic.less, ← first, length_raw, length_raw]
  cases common : compareFirst (a.getAddr order) (b.getAddr order) (min a.getAddrLen b.getAddrLen) with
  | lt => simp [less, memcmp, common]
  | eq => simp [less, memcmp, common]
  | gt => simp [less, memcmp, common]

theorem equal_iff_raw (a b : Address) : equal order a b = true ↔ a.raw order = b.raw order := by
  rw [equal, Bool.and_eq_true, beq_iff_eq, beq_iff_eq]
  have zero : ∀ n, memcmp (a.getAddr order) (b.getAddr order) n = 0 ↔
      compareFirst (a.getAddr order) (b.getAddr order) n = .eq := by
    intro n
    unfold memcmp
    cases compareFirst (a.getAddr order) (b.getAddr order) n <;> simp
  rw [zero]
  constructor
  · rintro ⟨lengths, same⟩
    have inside := b.getAddrLen_le order
    rw [raw, raw, ← lengths]
    exact (compareFirst_eq (a.getAddrLen_le order) (lengths ▸ inside)).mp same
  · intro same
    have lengths : a.getAddrLen = b.getAddrLen := by rw [← length_raw order a, ← length_raw order b, same]
    refine ⟨lengths, (compareFirst_eq (a.getAddrLen_le order) ?_).mpr ?_⟩
    · rw [lengths]
      exact b.getAddrLen_le order
    · rw [raw, raw, ← lengths] at same
      exact same

theorem take_ofFn_getD {bytes : List (BitVec 8)} {n : Nat} (fits : bytes.length ≤ n) :
    (List.ofFn fun i : Fin n => bytes.getD i 0).take bytes.length = bytes := by
  refine List.ext_getElem ?_ fun i _ inside => ?_
  · rw [List.length_take, List.length_ofFn, Nat.min_eq_left fits]
  · rw [List.getElem_take, List.getElem_ofFn, List.getD_eq_getElem?_getD, List.getElem?_eq_getElem inside,
      Option.getD_some]

/-- The byte string of a `UnixAddress` is the family and the path with its NUL. -/
theorem raw_ofPath {path : List (BitVec 8)} {u : UnixAddress} (made : UnixAddress.ofPath path = some u)
    (range : path.length + 1 < 2 ^ 32) : (unix u).raw order =
      bytes16 order AF_UNIX ++ UnixAddress.bytesOf path := by
  obtain ⟨length, family, bytes⟩ := UnixAddress.ofPath_bytes made range
  have fits := u.inside
  have shown : List.ofFn u.m_addr.sun_path = List.ofFn fun i : Fin 108 => (UnixAddress.bytesOf path).getD i 0 :=
    congrArg List.ofFn (funext bytes)
  rw [raw, getAddr, getAddrLen, family, shown, List.take_append, length_bytes16, length, Nat.add_sub_cancel]
  rw [List.take_of_length_le (by rw [length_bytes16]; omega), take_ofFn_getD (by omega)]

/-- Of two addresses one is less than the other or they are equal, and no two of these hold. -/
theorem trichotomy (a b : Address) :
    less order a b = true ∧ less order b a = false ∧ equal order a b = false ∨
      less order a b = false ∧ less order b a = true ∧ equal order a b = false ∨
        less order a b = false ∧ less order b a = false ∧ equal order a b = true := by
  simp only [Bool.eq_false_iff, ne_eq, less_iff_raw, equal_iff_raw]
  rcases Std.lt_trichotomy (a.raw order) (b.raw order) with less | same | greater
  · have other : a.raw order ≠ b.raw order := fun same => Std.lt_irrefl (same ▸ less)
    exact .inl ⟨less, fun greater => Std.lt_irrefl (Std.lt_trans less greater), other⟩
  · rw [same]
    exact .inr (.inr ⟨Std.lt_irrefl, Std.lt_irrefl, rfl⟩)
  · have other : a.raw order ≠ b.raw order := fun same => Std.lt_irrefl (same ▸ greater)
    exact .inr (.inl ⟨fun less => Std.lt_irrefl (Std.lt_trans less greater), greater, other⟩)

theorem less_trans {a b c : Address} (first : less order a b = true) (second : less order b c = true) :
    less order a c = true := by
  rw [less_iff_raw] at first second ⊢
  exact Std.lt_trans first second

/-- What `std::set` and `std::map` ask of a comparison. -/
theorem strictWeakOrder : IsStrictWeakOrder Address fun a b => less order a b = true where
  irrefl a self := by
    rw [less_iff_raw] at self
    exact Std.lt_irrefl self
  trans a b c := less_trans order
  incomp_trans a b c first second := by
    simp only [less_iff_raw] at first second ⊢
    have same : a.raw order = b.raw order := by
      rcases Std.lt_trichotomy (a.raw order) (b.raw order) with less | same | greater
      · exact absurd less first.1
      · exact same
      · exact absurd greater first.2
    rw [same]
    exact second

/-- `operator<` is a strict total order of addresses up to `operator==`, and this compares the byte strings. So
addresses can be the keys of a `std::set` or a `std::map`. -/
theorem less_total : (∀ a b : Address,
      less order a b = true ∧ less order b a = false ∧ equal order a b = false ∨
        less order a b = false ∧ less order b a = true ∧ equal order a b = false ∨
          less order a b = false ∧ less order b a = false ∧ equal order a b = true) ∧
    (∀ a b c : Address, less order a b = true → less order b c = true → less order a c = true) ∧
    (∀ a b : Address, equal order a b = true ↔ a.raw order = b.raw order) ∧
    (∀ a b : Address, notEqual order a b = true ↔ a.raw order ≠ b.raw order) ∧
    IsStrictWeakOrder Address fun a b => less order a b = true := by
  refine ⟨trichotomy order, fun a b c => less_trans order, equal_iff_raw order, fun a b => ?_, strictWeakOrder order⟩
  rw [notEqual, Bool.not_eq_true', Bool.eq_false_iff, ne_eq, equal_iff_raw]

end Address
end Sylar
