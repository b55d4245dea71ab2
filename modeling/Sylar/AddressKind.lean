import Sylar.Address

/-! The kinds of `Address`, the bytes that they are stored as, and `Address::Create`, which makes one from
memory. -/

namespace Sylar

/-- The memory from a pointer on. -/
abbrev Memory := Nat → BitVec 8

/-- The bytes of a machine word. -/
def bytes16 (order : ByteOrder) (t : BitVec 16) : List (BitVec 8) :=
  match order with
  | .little => [t.extractLsb' 0 8, t.extractLsb' 8 8]
  | .big => [t.extractLsb' 8 8, t.extractLsb' 0 8]

def bytes32 (order : ByteOrder) (t : BitVec 32) : List (BitVec 8) :=
  match order with
  | .little => [t.extractLsb' 0 8, t.extractLsb' 8 8, t.extractLsb' 16 8, t.extractLsb' 24 8]
  | .big => [t.extractLsb' 24 8, t.extractLsb' 16 8, t.extractLsb' 8 8, t.extractLsb' 0 8]

/-- The machine word that stands at an index. -/
def read16 (order : ByteOrder) (memory : Memory) (i : Nat) : BitVec 16 :=
  match order with
  | .little => memory (i + 1) ++ memory i
  | .big => memory i ++ memory (i + 1)

def read32 (order : ByteOrder) (memory : Memory) (i : Nat) : BitVec 32 :=
  match order with
  | .little => memory (i + 3) ++ memory (i + 2) ++ memory (i + 1) ++ memory i
  | .big => memory i ++ memory (i + 1) ++ memory (i + 2) ++ memory (i + 3)

def AF_UNIX : BitVec 16 := 1

structure sockaddr where
  sa_family : BitVec 16
  sa_data : Fin 14 → BitVec 8

structure sockaddr_un where
  sun_family : BitVec 16
  sun_path : Fin 108 → BitVec 8

/-- The length does not exceed the size of `m_addr`. -/
structure UnixAddress where
  m_addr : sockaddr_un
  m_length : Nat
  inside : m_length ≤ 110

namespace UnixAddress

def new : UnixAddress where
  m_addr := { sun_family := AF_UNIX, sun_path := fun _ => 0 }
  m_length := 2 + 107
  inside := by omega

/-- `UnixAddress(path)`, where `none` is a path that is too long. The length is narrowed to a `socklen_t`
before it is tested. -/
def ofPath (path : List (BitVec 8)) : Option UnixAddress :=
  let m_length : BitVec 32 := BitVec.ofNat 32 (path.length + 1)
  let m_length := if path.head? = some 0 then m_length - 1 else m_length
  if long : m_length.toNat > 108 then none
  else some
    { m_addr := { sun_family := AF_UNIX, sun_path := fun i => if i < m_length.toNat then path.getD i 0 else 0 }
      m_length := m_length.toNat + 2
      inside := by omega }

/-- A path with the NUL that ends it, unless it begins with one. -/
def bytesOf (path : List (BitVec 8)) : List (BitVec 8) := if path.head? = some 0 then path else path ++ [0]

theorem getD_bytesOf (path : List (BitVec 8)) (i : Nat) : (bytesOf path).getD i 0 = path.getD i 0 := by
  rw [bytesOf]
  split
  · rfl
  · rw [List.getD_eq_getElem?_getD, List.getD_eq_getElem?_getD, List.getElem?_append]
    split
    · rfl
    · rename_i behind
      rw [List.getElem?_eq_none (Nat.not_lt.mp behind)]
      cases i - path.length <;> rfl

/-- What is stored of a path that fits. -/
theorem ofPath_bytes {path : List (BitVec 8)} {u : UnixAddress} (made : ofPath path = some u)
    (range : path.length + 1 < 2 ^ 32) : u.m_length = (bytesOf path).length + 2 ∧ u.m_addr.sun_family = AF_UNIX ∧
      ∀ i : Fin 108, u.m_addr.sun_path i = (bytesOf path).getD i 0 := by
  have length : (if path.head? = some 0 then BitVec.ofNat 32 (path.length + 1) - 1 else
      BitVec.ofNat 32 (path.length + 1)).toNat = (bytesOf path).length := by
    rw [bytesOf]
    split
    · rw [BitVec.ofNat_add]
      have less : BitVec.ofNat 32 path.length + 1#32 - 1 = BitVec.ofNat 32 path.length := BitVec.add_sub_cancel _ _
      rw [less, BitVec.toNat_ofNat, Nat.mod_eq_of_lt (by omega)]
    · rw [BitVec.toNat_ofNat, Nat.mod_eq_of_lt range, List.length_append, List.length_singleton]
  simp only [ofPath, length] at made
  split at made
  · cases made
  · cases made
    refine ⟨rfl, rfl, fun i => ?_⟩
    by_cases inside : i.val < (bytesOf path).length
    · rw [getD_bytesOf]
      exact if_pos inside
    · rw [List.getD_eq_getElem?_getD, List.getElem?_eq_none (Nat.not_lt.mp inside), Option.getD_none]
      exact if_neg inside

end UnixAddress

/-- The bytes `sin_zero` stand beside the other fields of `sockaddr_in`. -/
inductive Address
  | ipv4 (m_addr : sockaddr_in) (sin_zero : Fin 8 → BitVec 8)
  | ipv6 (m_addr : sockaddr_in6)
  | unix (address : UnixAddress)
  | unknown (m_addr : sockaddr)

namespace Address

/-- The bytes of the object that `getAddr()` points to. -/
def getAddr (order : ByteOrder) : Address → List (BitVec 8)
  | ipv4 m_addr sin_zero => bytes16 order m_addr.sin_family ++ bytes16 order m_addr.sin_port ++
      bytes32 order m_addr.sin_addr ++ List.ofFn sin_zero
  | ipv6 m_addr => bytes16 order m_addr.sin6_family ++ bytes16 order m_addr.sin6_port ++
      bytes32 order m_addr.sin6_flowinfo ++ List.ofFn m_addr.sin6_addr ++ bytes32 order m_addr.sin6_scope_id
  | unix address => bytes16 order address.m_addr.sun_family ++ List.ofFn address.m_addr.sun_path
  | unknown m_addr => bytes16 order m_addr.sa_family ++ List.ofFn m_addr.sa_data

def getAddrLen : Address → Nat
  | ipv4 .. => 16
  | ipv6 _ => 28
  | unix address => address.m_length
  | unknown _ => 16

/-- `Create(addr, addrlen)`: the family says what the memory is. -/
def Create (order : ByteOrder) (addr : Memory) : Address :=
  let sa_family := read16 order addr 0
  if sa_family = AF_INET then
    ipv4 { sin_family := sa_family, sin_port := read16 order addr 2, sin_addr := read32 order addr 4 }
      fun i => addr (8 + i)
  else if sa_family = AF_INET6 then
    ipv6 { sin6_family := sa_family, sin6_port := read16 order addr 2, sin6_flowinfo := read32 order addr 4
           sin6_addr := fun i => addr (8 + i), sin6_scope_id := read32 order addr 24 }
  else unknown { sa_family := sa_family, sa_data := fun i => addr (2 + i) }

end Address

section
variable (order : ByteOrder)

theorem length_bytes16 (t : BitVec 16) : (bytes16 order t).length = 2 := by
  cases order <;> rfl

theorem length_bytes32 (t : BitVec 32) : (bytes32 order t).length = 4 := by
  cases order <;> rfl

/-- What has been read is stored as the bytes that it was read from. -/
theorem bytes16_read16 (memory : Memory) (i : Nat) :
    bytes16 order (read16 order memory i) = [memory i, memory (i + 1)] := by
  have halves : ∀ b c : BitVec 8, (b ++ c).extractLsb' 0 8 = c ∧ (b ++ c).extractLsb' 8 8 = b :=
    fun b c => ⟨BitVec.extractLsb'_append_eq_right, BitVec.extractLsb'_append_eq_left⟩
  cases order with
  | little =>
    obtain ⟨low, high⟩ := halves (memory (i + 1)) (memory i)
    rw [read16, bytes16, low, high]
  | big =>
    obtain ⟨low, high⟩ := halves (memory i) (memory (i + 1))
    rw [read16, bytes16, low, high]

/-- The bytes of four that are joined. -/
theorem extract_joined (a b c d : BitVec 8) : (a ++ b ++ c ++ d).extractLsb' 0 8 = d ∧
    (a ++ b ++ c ++ d).extractLsb' 8 8 = c ∧ (a ++ b ++ c ++ d).extractLsb' 16 8 = b ∧
    (a ++ b ++ c ++ d).extractLsb' 24 8 = a := by
  refine ⟨BitVec.extractLsb'_append_eq_right, ?_, ?_, ?_⟩
  · rw [BitVec.extractLsb'_append_eq_of_le (by omega)]
    exact BitVec.extractLsb'_append_eq_right
  · rw [BitVec.extractLsb'_append_eq_of_le (by omega), BitVec.extractLsb'_append_eq_of_le (by omega)]
    exact BitVec.extractLsb'_append_eq_right
  · rw [BitVec.extractLsb'_append_eq_of_le (by omega), BitVec.extractLsb'_append_eq_of_le (by omega)]
    exact BitVec.extractLsb'_append_eq_left

/-- A word that has been read, with the first byte as the highest one. -/
theorem byteswap_read32 (memory : Memory) (i : Nat) : byteswapOnLittleEndian order (read32 order memory i) =
    memory i ++ memory (i + 1) ++ memory (i + 2) ++ memory (i + 3) := by
  cases order with
  | little =>
    obtain ⟨first, second, third, fourth⟩ := extract_joined (memory (i + 3)) (memory (i + 2)) (memory (i + 1)) (memory i)
    have turned : byteswapOnLittleEndian .little (read32 .little memory i) =
        (read32 .little memory i).extractLsb' 0 8 ++ (read32 .little memory i).extractLsb' 8 8 ++
          (read32 .little memory i).extractLsb' 16 8 ++ (read32 .little memory i).extractLsb' 24 8 := rfl
    rw [turned, read32, first, second, third, fourth]
  | big => rfl

theorem bytes32_read32 (memory : Memory) (i : Nat) :
    bytes32 order (read32 order memory i) = [memory i, memory (i + 1), memory (i + 2), memory (i + 3)] := by
  cases order with
  | little =>
    obtain ⟨first, second, third, fourth⟩ := extract_joined (memory (i + 3)) (memory (i + 2)) (memory (i + 1)) (memory i)
    rw [read32, bytes32, first, second, third, fourth]
  | big =>
    obtain ⟨fourth, third, second, first⟩ := extract_joined (memory i) (memory (i + 1)) (memory (i + 2)) (memory (i + 3))
    rw [read32, bytes32, first, second, third, fourth]

end

namespace Address
variable (order : ByteOrder)

theorem getAddrLen_le (a : Address) : a.getAddrLen ≤ (a.getAddr order).length := by
  cases a with
  | ipv4 m_addr sin_zero =>
    simp only [getAddr, getAddrLen, List.length_append, length_bytes16, length_bytes32, List.length_ofFn]
    omega
  | ipv6 m_addr =>
    simp only [getAddr, getAddrLen, List.length_append, length_bytes16, length_bytes32, List.length_ofFn]
    omega
  | unix address =>
    have inside := address.inside
    simp only [getAddr, getAddrLen, List.length_append, length_bytes16, List.length_ofFn]
    omega
  | unknown m_addr =>
    simp only [getAddr, getAddrLen, List.length_append, length_bytes16, List.length_ofFn]
    omega

/-- An address has the bytes of the memory that it is made from. -/
theorem getAddr_Create (addr : Memory) : (Create order addr).getAddr order =
    (List.range (Create order addr).getAddrLen).map addr := by
  rw [Create]
  by_cases inet : read16 order addr 0 = AF_INET
  · rw [if_pos inet, getAddr, bytes16_read16, bytes16_read16, bytes32_read32]
    rfl
  rw [if_neg inet]
  by_cases inet6 : read16 order addr 0 = AF_INET6
  · rw [if_pos inet6, getAddr, bytes16_read16, bytes16_read16, bytes32_read32, bytes32_read32]
    rfl
  · rw [if_neg inet6, getAddr, bytes16_read16]
    rfl

end Address
end Sylar
