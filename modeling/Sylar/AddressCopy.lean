import Mathlib.Data.List.OfFn
import Sylar.AddressOrder

/-! `Address::Create` on the bytes of an address: what of the address comes back. -/

namespace Sylar

/-- The bytes stand at the beginning of the memory. -/
def Memory.Holds (memory : Memory) (bytes : List (BitVec 8)) : Prop := (List.range bytes.length).map memory = bytes

theorem Memory.holds_getD (bytes : List (BitVec 8)) : Memory.Holds (fun i => bytes.getD i 0) bytes := by
  refine List.ext_getElem (by simp) fun i _ inside => ?_
  rw [List.getElem_map, List.getElem_range, List.getD_eq_getElem?_getD, List.getElem?_eq_getElem inside,
    Option.getD_some]

section
variable (order : ByteOrder)

theorem bytes16_injective : Function.Injective (bytes16 order) := by
  have joined : ∀ t : BitVec 16, t.extractLsb' 8 8 ++ t.extractLsb' 0 8 = t := by
    intro t
    rw [BitVec.extractLsb'_append_extractLsb'_eq_extractLsb' (by omega)]
    exact BitVec.extractLsb'_eq_self
  intro s t same
  rw [← joined s, ← joined t]
  cases order with
  | little =>
    simp only [bytes16, List.cons.injEq, and_true] at same
    rw [same.1, same.2]
  | big =>
    simp only [bytes16, List.cons.injEq, and_true] at same
    rw [same.1, same.2]

theorem bytes32_injective : Function.Injective (bytes32 order) := by
  have joined : ∀ t : BitVec 32,
      t.extractLsb' 24 8 ++ t.extractLsb' 16 8 ++ t.extractLsb' 8 8 ++ t.extractLsb' 0 8 = t := by
    intro t
    rw [BitVec.extractLsb'_append_extractLsb'_eq_extractLsb' (by omega),
      BitVec.extractLsb'_append_extractLsb'_eq_extractLsb' (by omega),
      BitVec.extractLsb'_append_extractLsb'_eq_extractLsb' (by omega)]
    exact BitVec.extractLsb'_eq_self
  intro s t same
  rw [← joined s, ← joined t]
  cases order with
  | little =>
    simp only [bytes32, List.cons.injEq, and_true] at same
    rw [same.1, same.2.1, same.2.2.1, same.2.2.2]
  | big =>
    simp only [bytes32, List.cons.injEq, and_true] at same
    rw [same.1, same.2.1, same.2.2.1, same.2.2.2]

end

namespace Address

/-- `getFamily()`, which reads the first member of the object, whatever its kind. -/
def getFamily : Address → BitVec 16
  | ipv4 m_addr _ => m_addr.sin_family
  | ipv6 m_addr => m_addr.sin6_family
  | unix address => address.m_addr.sun_family
  | unknown m_addr => m_addr.sa_family

/-- The kind of the address is the one that `Create` has for its family. -/
def Tagged : Address → Prop
  | ipv4 m_addr _ => m_addr.sin_family = AF_INET
  | ipv6 m_addr => m_addr.sin6_family = AF_INET6
  | unix _ => False
  | unknown m_addr => m_addr.sa_family ≠ AF_INET ∧ m_addr.sa_family ≠ AF_INET6

variable (order : ByteOrder) {memory : Memory}

/-- The object begins with the family. -/
theorem getAddr_eq (a : Address) : ∃ rest, a.getAddr order = bytes16 order a.getFamily ++ rest := by
  cases a with
  | ipv4 => exact ⟨_, by rw [getAddr, List.append_assoc, List.append_assoc]; rfl⟩
  | ipv6 => exact ⟨_, by rw [getAddr, List.append_assoc, List.append_assoc, List.append_assoc]; rfl⟩
  | unix | unknown => exact ⟨_, rfl⟩

theorem read_family (a : Address) (holds : memory.Holds (a.getAddr order)) : read16 order memory 0 = a.getFamily := by
  obtain ⟨rest, shape⟩ := a.getAddr_eq order
  have two : (a.getAddr order).take 2 = bytes16 order a.getFamily := by
    rw [shape, List.take_left' (length_bytes16 order _)]
  have length : 2 ≤ (a.getAddr order).length := by
    rw [shape, List.length_append, length_bytes16]
    omega
  rw [← holds, ← List.map_take, List.take_range, Nat.min_eq_left length] at two
  refine bytes16_injective order ?_
  rw [bytes16_read16, ← two]
  rfl

theorem getAddrLen_Create : (Create order memory).getAddrLen = if read16 order memory 0 = AF_INET6 then 28 else 16 := by
  have apart : AF_INET ≠ AF_INET6 := by decide
  rw [Create]
  by_cases inet : read16 order memory 0 = AF_INET
  · rw [if_pos inet, if_neg (inet ▸ apart)]
    rfl
  rw [if_neg inet]
  split <;> rfl

/-- The byte string of what `Create` makes. -/
theorem raw_Create : (Create order memory).raw order = (List.range (Create order memory).getAddrLen).map memory := by
  rw [raw, getAddr_Create, List.take_of_length_le (by simp)]

theorem raw_of_holds {a : Address} (holds : memory.Holds (a.getAddr order)) :
    a.raw order = (List.range a.getAddrLen).map memory := by
  rw [raw, ← holds, ← List.map_take, List.take_range, Nat.min_eq_left (a.getAddrLen_le order)]

/-- The copy has the kind that `Create` has for the family. -/
theorem tagged_Create : (Create order memory).Tagged := by
  rw [Create]
  by_cases inet : read16 order memory 0 = AF_INET
  · rw [if_pos inet]
    exact inet
  rw [if_neg inet]
  by_cases inet6 : read16 order memory 0 = AF_INET6
  · rw [if_pos inet6]
    exact inet6
  · rw [if_neg inet6]
    exact ⟨inet, inet6⟩

section
variable {zs ws : List (BitVec 8)}

theorem append_inj_bytes16 {t u : BitVec 16} (same : bytes16 order t ++ zs = bytes16 order u ++ ws)
    : t = u ∧ zs = ws := by
  obtain ⟨first, rest⟩ := List.append_inj same (by rw [length_bytes16, length_bytes16])
  exact ⟨bytes16_injective order first, rest⟩

theorem append_inj_bytes32 {t u : BitVec 32} (same : bytes32 order t ++ zs = bytes32 order u ++ ws)
    : t = u ∧ zs = ws := by
  obtain ⟨first, rest⟩ := List.append_inj same (by rw [length_bytes32, length_bytes32])
  exact ⟨bytes32_injective order first, rest⟩

end

theorem ipv4_eq_of_getAddr {m m' : sockaddr_in} {z z' : Fin 8 → BitVec 8}
    (same : (ipv4 m z).getAddr order = (ipv4 m' z').getAddr order) : ipv4 m z = ipv4 m' z' := by
  rw [getAddr, getAddr, List.append_assoc, List.append_assoc, List.append_assoc, List.append_assoc] at same
  obtain ⟨family, same⟩ := append_inj_bytes16 order same
  obtain ⟨port, same⟩ := append_inj_bytes16 order same
  obtain ⟨addr, same⟩ := append_inj_bytes32 order same
  have zero := List.ofFn_injective same
  cases m
  cases m'
  simp_all only

theorem ipv6_eq_of_getAddr {m m' : sockaddr_in6} (same : (ipv6 m).getAddr order = (ipv6 m').getAddr order) :
    ipv6 m = ipv6 m' := by
  rw [getAddr, getAddr, List.append_assoc, List.append_assoc, List.append_assoc, List.append_assoc, List.append_assoc,
    List.append_assoc] at same
  obtain ⟨family, same⟩ := append_inj_bytes16 order same
  obtain ⟨port, same⟩ := append_inj_bytes16 order same
  obtain ⟨flowinfo, same⟩ := append_inj_bytes32 order same
  obtain ⟨same, last⟩ := List.append_inj same (by rw [List.length_ofFn, List.length_ofFn])
  have addr := List.ofFn_injective same
  have scope := bytes32_injective order last
  cases m
  cases m'
  simp_all only

theorem unknown_eq_of_getAddr {m m' : sockaddr} (same : (unknown m).getAddr order = (unknown m').getAddr order) :
    unknown m = unknown m' := by
  obtain ⟨family, same⟩ := append_inj_bytes16 order same
  have data := List.ofFn_injective same
  cases m
  cases m'
  simp_all only

/-- Of the kind that `Create` has for their family, two addresses with the same bytes are the same. -/
theorem eq_of_getAddr {a b : Address} (mine : a.Tagged) (other : b.Tagged) (family : a.getFamily = b.getFamily)
    (bytes : a.getAddr order = b.getAddr order) : a = b := by
  have apart : AF_INET ≠ AF_INET6 := by decide
  cases a with
  | unix => cases mine
  | ipv4 m z =>
    simp only [Tagged, getFamily] at mine family
    rw [mine] at family
    cases b with
    | unix => cases other
    | ipv4 => exact ipv4_eq_of_getAddr order bytes
    | ipv6 => exact absurd (family.trans other) apart
    | unknown => exact absurd family.symm other.1
  | ipv6 m =>
    simp only [Tagged, getFamily] at mine family
    rw [mine] at family
    cases b with
    | unix => cases other
    | ipv4 => exact absurd (family.trans other).symm apart
    | ipv6 => exact ipv6_eq_of_getAddr order bytes
    | unknown => exact absurd family.symm other.2
  | unknown m =>
    simp only [Tagged, getFamily] at mine family
    cases b with
    | unix => cases other
    | ipv4 => exact absurd (family.trans other) mine.1
    | ipv6 => exact absurd (family.trans other) mine.2
    | unknown => exact unknown_eq_of_getAddr order bytes

theorem getAddrLen_of_tagged {a : Address} (tagged : a.Tagged) :
    a.getAddrLen = (if a.getFamily = AF_INET6 then 28 else 16) ∧ (a.getAddr order).length = a.getAddrLen := by
  have apart : AF_INET ≠ AF_INET6 := by decide
  cases a with
  | unix => cases tagged
  | ipv4 m z =>
    refine ⟨(if_neg fun inet6 => apart (tagged.symm.trans inet6)).symm, ?_⟩
    simp [getAddr, getAddrLen, length_bytes16, length_bytes32]
  | ipv6 m =>
    refine ⟨(if_pos tagged).symm, ?_⟩
    simp [getAddr, getAddrLen, length_bytes16, length_bytes32]
  | unknown m =>
    refine ⟨(if_neg tagged.2).symm, ?_⟩
    simp [getAddr, getAddrLen, length_bytes16]

/-- `Create` on the bytes of an address makes an equal one exactly when the address is as long as the structure of
its family, and the very same one, with its kind, exactly when its kind is that of its family. So a `UnixAddress` comes
back as an `UnknownAddress`, and unless it is 16 bytes long as another address. -/
theorem Create_getAddr {a : Address} (holds : memory.Holds (a.getAddr order)) :
    (equal order (Create order memory) a = true ↔ a.getAddrLen = if a.getFamily = AF_INET6 then 28 else 16) ∧
      (Create order memory = a ↔ a.Tagged) := by
  have family := a.read_family order holds
  have length := @getAddrLen_Create order memory
  rw [family] at length
  refine ⟨?_, fun same => same ▸ tagged_Create order, fun tagged => ?_⟩
  · rw [equal_iff_raw, raw_Create, raw_of_holds order holds, ← length]
    constructor
    · intro same
      have lengths := congrArg List.length same
      simpa using lengths.symm
    · intro same
      rw [same]
  · obtain ⟨size, whole⟩ := getAddrLen_of_tagged order tagged
    have bytes : (Create order memory).getAddr order = a.getAddr order := by
      rw [getAddr_Create, length, ← size, ← whole, holds]
    have same : (Create order memory).getFamily = a.getFamily := by
      rw [← family]
      exact ((Create order memory).read_family order (bytes ▸ holds)).symm
    exact eq_of_getAddr order (tagged_Create order) tagged same bytes

/-- The path has 13 characters: the copy is equal to the address, and of another kind. -/
theorem Create_getAddr_unix : ∃ u, UnixAddress.ofPath (List.replicate 13 97) = some u ∧
    ∃ memory : Memory, equal .little (Create .little memory) (unix u) = true ∧ Create .little memory ≠ unix u := by
  have made : ∃ u, UnixAddress.ofPath (List.replicate 13 97) = some u ∧ u.m_length = 16 ∧
      u.m_addr.sun_family = AF_UNIX := ⟨_, rfl, rfl, rfl⟩
  obtain ⟨u, made, length, family⟩ := made
  have holds := Memory.holds_getD ((unix u).getAddr .little)
  have copy := Create_getAddr .little holds
  have other : (unix u).getFamily ≠ AF_INET6 := by
    rw [getFamily, family]
    decide
  refine ⟨u, made, _, copy.1.mpr ?_, fun same => copy.2.mp same⟩
  rw [if_neg other]
  exact length

end Address
end Sylar
