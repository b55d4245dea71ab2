import Mathlib.Data.List.TakeWhile
import Sylar.AddressOrder

/-! `UnixAddress` from a path to its text. -/

namespace Sylar
namespace UnixAddress

/-- The characters of a `const char*` into an array, where `none` is one that runs over its end. -/
def cString (chars : List (BitVec 8)) : Option (List (BitVec 8)) :=
  if 0 ∈ chars then some (chars.takeWhile (· ≠ 0)) else none

/-- The characters `\\` and `0`. -/
def escape : List (BitVec 8) := [0x5C, 0x30]

/-- `insert(os)`: the characters that go into the stream. -/
def insert (u : UnixAddress) : Option (List (BitVec 8)) :=
  let sun_path := List.ofFn u.m_addr.sun_path
  if u.m_length > 2 ∧ u.m_addr.sun_path 0 = 0 then some (escape ++ (sun_path.drop 1).take (u.m_length - 2 - 1))
  else cString sun_path

/-- The text of a path. -/
def text (path : List (BitVec 8)) : List (BitVec 8) :=
  if path.head? = some 0 ∨ path = [] then escape ++ path.tail else path.takeWhile (· ≠ 0)

variable {path other : List (BitVec 8)} {u v : UnixAddress}

theorem length_bytesOf (path : List (BitVec 8)) :
    (bytesOf path).length = if path.head? = some 0 then path.length else path.length + 1 := by
  rw [bytesOf]
  split
  · rfl
  · rw [List.length_append, List.length_singleton]

/-- A string ends at its first NUL. -/
theorem takeWhile_append_zero (path behind : List (BitVec 8)) :
    (path ++ 0 :: behind).takeWhile (· ≠ 0) = path.takeWhile (· ≠ 0) := by
  induction path with
  | nil => rfl
  | cons c rest ih =>
    rw [List.cons_append, List.takeWhile_cons, List.takeWhile_cons, ih]

theorem insert_ofPath (made : ofPath path = some u) (range : path.length + 1 < 2 ^ 32) : u.insert = some
    (text path) := by
  obtain ⟨length, -, bytes⟩ := ofPath_bytes made range
  have fits := u.inside
  have stored : (List.ofFn u.m_addr.sun_path).take (bytesOf path).length = bytesOf path := by
    have shown : List.ofFn u.m_addr.sun_path = List.ofFn fun i : Fin 108 => (bytesOf path).getD i 0 :=
      congrArg List.ofFn (funext bytes)
    rw [shown, Address.take_ofFn_getD (by omega)]
  have first := bytes 0
  rw [getD_bytesOf] at first
  rw [insert, length]
  cases path with
  | nil => exact if_pos ⟨Nat.lt_succ_self 2, first⟩
  | cons c rest =>
    have begins : u.m_addr.sun_path 0 = c := first
    by_cases abstract : c = 0
    · subst abstract
      have whole : bytesOf (0 :: rest) = 0 :: rest := if_pos rfl
      rw [whole, List.length_cons] at stored ⊢
      have tail : ((List.ofFn u.m_addr.sun_path).drop 1).take rest.length = rest := by
        have behind := congrArg (List.drop 1) stored
        rwa [List.drop_take, Nat.add_sub_cancel, List.drop_one, List.drop_one] at behind
      have count : rest.length + 1 + 2 - 2 - 1 = rest.length := by omega
      rw [if_pos ⟨by omega, begins⟩, text, if_pos (.inl rfl), count, tail]
      rfl
    · have named : (c :: rest).head? ≠ some 0 := fun head => abstract (Option.some.inj head)
      have whole : bytesOf (c :: rest) = c :: rest ++ [0] := if_neg named
      have chars := List.take_append_drop (bytesOf (c :: rest)).length (List.ofFn u.m_addr.sun_path)
      rw [stored, whole, List.append_assoc, List.singleton_append] at chars
      have ends : (0 : BitVec 8) ∈ List.ofFn u.m_addr.sun_path :=
        chars ▸ List.mem_append_right _ List.mem_cons_self
      rw [if_neg fun both => abstract (begins ▸ both.2), text, if_neg (not_or.mpr ⟨named, nofun⟩), cString, if_pos ends,
        ← chars, takeWhile_append_zero]

theorem isSome_ofPath (range : path.length + 1 < 2 ^ 32) : (ofPath path).isSome ↔ (bytesOf path).length ≤ 108 := by
  have length : (if path.head? = some 0 then BitVec.ofNat 32 (path.length + 1) - 1 else
      BitVec.ofNat 32 (path.length + 1)).toNat = (bytesOf path).length := by
    rw [length_bytesOf]
    split
    · have less : BitVec.ofNat 32 path.length + 1#32 - 1 = BitVec.ofNat 32 path.length := BitVec.add_sub_cancel _ _
      rw [BitVec.ofNat_add, less, BitVec.toNat_ofNat, Nat.mod_eq_of_lt (by omega)]
    · rw [BitVec.toNat_ofNat, Nat.mod_eq_of_lt range]
  simp only [ofPath, length]
  split
  · rename_i long
    exact iff_of_false Bool.false_ne_true (Nat.not_le.mpr long)
  · rename_i fits
    exact iff_of_true rfl (Nat.not_lt.mp fits)

theorem text_eq_iff : text path = path ↔ path ≠ [] ∧ 0 ∉ path := by
  cases path with
  | nil => simp [text, escape]
  | cons c rest =>
    by_cases abstract : c = 0
    · subst abstract
      simp [text, escape]
    · have named : (c :: rest).head? ≠ some 0 := fun head => abstract (Option.some.inj head)
      rw [text, if_neg (not_or.mpr ⟨named, nofun⟩), List.takeWhile_eq_self_iff]
      refine ⟨fun all => ⟨nofun, fun zero => ?_⟩, fun none x member => ?_⟩
      · exact of_decide_eq_true (all 0 zero) rfl
      · exact decide_eq_true fun zero => none.2 (zero ▸ member)

theorem bytesOf_eq_iff : bytesOf path = bytesOf other ↔
    path = other ∨ path = [] ∧ other = [0] ∨ path = [0] ∧ other = [] := by
  -- a path that begins with a NUL has the bytes of another one only if that one is empty
  have mixed : ∀ {p q : List (BitVec 8)}, p.head? = some 0 → q.head? ≠ some 0 → p = q ++ [0] → p = [0] ∧ q = [] := by
    intro p q abstract named same
    cases q with
    | nil => exact ⟨same, rfl⟩
    | cons c rest =>
      rw [same] at abstract
      exact absurd abstract named
  constructor
  · intro same
    rw [bytesOf, bytesOf] at same
    by_cases mine : path.head? = some 0 <;> by_cases its : other.head? = some 0
    · rw [if_pos mine, if_pos its] at same
      exact .inl same
    · rw [if_pos mine, if_neg its] at same
      exact .inr (.inr (mixed mine its same))
    · rw [if_neg mine, if_pos its] at same
      exact .inr (.inl (mixed its mine same.symm).symm)
    · rw [if_neg mine, if_neg its] at same
      exact .inl (List.append_cancel_right same)
  · rintro (rfl | ⟨rfl, rfl⟩ | ⟨rfl, rfl⟩)
    · rfl
    · rfl
    · rfl

/-- A path of at most 107 characters, or 108 with a NUL at its front, makes an address. The text of the address is the
path exactly when that is not empty and has no NUL: one that begins with a NUL shows it as an escape, as the empty path
does, and any other one is cut at its first NUL; reading it never leaves the array. Two addresses are equal exactly
when their paths are, but for the empty path and the single NUL, which make the same address. -/
theorem text_of_path (order : ByteOrder) (range : path.length + 1 < 2 ^ 32) :
    ((ofPath path).isSome ↔ path.length ≤ if path.head? = some 0 then 108 else 107) ∧
      ∀ u, ofPath path = some u → u.insert = some (text path) ∧ (u.insert = some path ↔ path ≠ [] ∧ 0 ∉ path) ∧
        ∀ other v, other.length + 1 < 2 ^ 32 → ofPath other = some v →
          (Address.equal order (.unix u) (.unix v) = true ↔
            path = other ∨ path = [] ∧ other = [0] ∨ path = [0] ∧ other = []) := by
  refine ⟨?_, fun u made => ⟨insert_ofPath made range, ?_, fun other v range' its => ?_⟩⟩
  · rw [isSome_ofPath range, length_bytesOf]
    split
    · exact Iff.rfl
    · exact Nat.succ_le_succ_iff
  · rw [insert_ofPath made range, Option.some.injEq, text_eq_iff]
  · rw [Address.equal_iff_raw, Address.raw_ofPath order made range, Address.raw_ofPath order its range',
      List.append_cancel_left_eq, bytesOf_eq_iff]

/-- The path `"\0a"`. -/
theorem text_of_path_abstract : ∃ u, ofPath [0, 97] = some u ∧ u.insert = some [0x5C, 0x30, 97] := by
  have accepted := @text_of_path [0, 97] .little (by decide)
  obtain ⟨u, made⟩ := Option.isSome_iff_exists.mp (accepted.1.mpr (by decide))
  exact ⟨u, made, (accepted.2 u made).1⟩

end UnixAddress
end Sylar
