import Sylar.AddressOrder
import Sylar.Lib.Dotted

/-! The text that `IPv4Address::insert` writes, `IPv4Address::Create`, which reads one, and the port. -/

namespace Sylar
namespace IPv4Address
open Inet

variable (order : ByteOrder)

/-- `IPv4Address(address, port)` -/
def new (address : BitVec 32) (port : BitVec 16) : sockaddr_in where
  sin_family := AF_INET
  sin_port := byteswapOnLittleEndian order port
  sin_addr := byteswapOnLittleEndian order address

/-- What `memset` leaves in `sin_zero`. -/
def sin_zero : Fin 8 → BitVec 8 := fun _ => 0

def insert (m_addr : sockaddr_in) : List Char :=
  let addr := byteswapOnLittleEndian order m_addr.sin_addr
  Nat.toDigits 10 ((addr >>> 24) &&& 0xff).toNat ++ '.' :: (Nat.toDigits 10 ((addr >>> 16) &&& 0xff).toNat ++
    '.' :: (Nat.toDigits 10 ((addr >>> 8) &&& 0xff).toNat ++ '.' :: (Nat.toDigits 10 (addr &&& 0xff).toNat ++
      ':' :: Nat.toDigits 10 (byteswapOnLittleEndian order m_addr.sin_port).toNat)))

def toString (m_addr : sockaddr_in) : List Char := insert order m_addr

/-- `inet_pton(AF_INET, address)` stores the first number first. -/
def inet_pton (address : List Char) : Option (BitVec 32) :=
  (octets address).map fun bytes => read32 order (fun i => BitVec.ofNat 8 (bytes.getD i 0)) 0

/-- `Create(address, port)`, which gives `nullptr` for a text that `inet_pton` does not read. -/
def Create (address : List Char) (port : BitVec 16) : Option sockaddr_in :=
  let rt := { new order 0 0 with sin_port := byteswapOnLittleEndian order port }
  (inet_pton order address).map fun sin_addr => { rt with sin_addr := sin_addr }

def getPort (m_addr : sockaddr_in) : BitVec 32 := (byteswapOnLittleEndian order m_addr.sin_port).setWidth 32

def setPort (m_addr : sockaddr_in) (v : BitVec 16) : sockaddr_in :=
  { m_addr with sin_port := byteswapOnLittleEndian order v }

/-- The octets of an address, the most significant first. -/
def octetsOf (address : BitVec 32) : List Nat := [24, 16, 8, 0].map fun i => (address.extractLsb' i 8).toNat

theorem shift_and (address : BitVec 32) (i : Nat) :
    ((address >>> i) &&& 0xff).toNat = (address.extractLsb' i 8).toNat := by
  have mask : (0xff : BitVec 32).toNat = 2 ^ 8 - 1 := rfl
  rw [BitVec.toNat_and, mask, Nat.and_two_pow_sub_one_eq_mod, BitVec.toNat_ushiftRight, BitVec.extractLsb'_toNat]

/-- What is written for an address and a port. -/
theorem toString_new (address : BitVec 32) (port : BitVec 16) : toString order (new order address port) =
    dotted (octetsOf address) ++ ':' :: Nat.toDigits 10 port.toNat := by
  have last : (address &&& 0xff).toNat = (address.extractLsb' 0 8).toNat := shift_and address 0
  simp only [toString, insert, new, byteswapOnLittleEndian_twice, shift_and, last, dotted, octetsOf, List.map_cons,
    List.map_nil, List.intercalate_cons_cons, List.intercalate_singleton, List.append_assoc, List.cons_append,
    List.nil_append]

theorem octetsOf_le (address : BitVec 32) : ∀ n ∈ octetsOf address, n ≤ 255 := by
  intro n member
  obtain ⟨i, -, rfl⟩ := List.mem_map.mp member
  have small := (address.extractLsb' i 8).isLt
  omega

/-- The octets in memory are the word with its bytes turned. -/
theorem read32_octets (address : BitVec 32) :
    read32 order (fun i => BitVec.ofNat 8 ((octetsOf address).getD i 0)) 0 = byteswapOnLittleEndian order address := by
  have byte : ∀ i, BitVec.ofNat 8 (address.extractLsb' i 8).toNat = address.extractLsb' i 8 := by
    intro i
    rw [BitVec.ofNat_toNat, BitVec.setWidth_eq]
  have first : BitVec.ofNat 8 ((octetsOf address).getD 0 0) = address.extractLsb' 24 8 := byte 24
  have second : BitVec.ofNat 8 ((octetsOf address).getD 1 0) = address.extractLsb' 16 8 := byte 16
  have third : BitVec.ofNat 8 ((octetsOf address).getD 2 0) = address.extractLsb' 8 8 := byte 8
  have fourth : BitVec.ofNat 8 ((octetsOf address).getD 3 0) = address.extractLsb' 0 8 := byte 0
  have two : address.extractLsb' 24 8 ++ address.extractLsb' 16 8 = address.extractLsb' 16 16 :=
    BitVec.extractLsb'_append_extractLsb'_eq_extractLsb' rfl
  have three : address.extractLsb' 16 16 ++ address.extractLsb' 8 8 = address.extractLsb' 8 24 :=
    BitVec.extractLsb'_append_extractLsb'_eq_extractLsb' rfl
  have four : address.extractLsb' 8 24 ++ address.extractLsb' 0 8 = address.extractLsb' 0 32 :=
    BitVec.extractLsb'_append_extractLsb'_eq_extractLsb' rfl
  rw [← byteswapOnLittleEndian_twice order (read32 ..), byteswap_read32]
  simp only [Nat.zero_add, first, second, third, fourth]
  rw [two, three, four]
  exact congrArg _ BitVec.extractLsb'_eq_self

theorem inet_pton_dotted (address : BitVec 32) :
    inet_pton order (dotted (octetsOf address)) = some (byteswapOnLittleEndian order address) := by
  rw [inet_pton, octets_dotted (octetsOf_le address) rfl, Option.map_some, read32_octets]

theorem Create_dotted (address : BitVec 32) (port : BitVec 16) :
    Create order (dotted (octetsOf address)) port = some (new order address port) := by
  rw [Create, inet_pton_dotted]
  rfl

theorem splitOn_toString (address : BitVec 32) (port : BitVec 16) :
    (toString order (new order address port)).splitOn ':' =
      [dotted (octetsOf address), Nat.toDigits 10 port.toNat] := by
  have dots : ':' ∉ dotted (octetsOf address) := not_mem_dotted rfl (by decide) _
  rw [toString_new, List.splitOn_append_cons_self_of_not_mem dots,
    List.splitOn_eq_singleton (not_mem_toDigits rfl port.toNat)]

/-- The text of an address and a port is the dotted decimal of the octets and the decimal port. From its two
parts an equal address is made, another address or port has another text, and a port that is set is read
again. -/
theorem text_and_port :
    (∀ address port, toString order (new order address port) =
      dotted (octetsOf address) ++ ':' :: Nat.toDigits 10 port.toNat) ∧
    (∀ address port, ∃ text digits made,
      (toString order (new order address port)).splitOn ':' = [text, digits] ∧
      Nat.ofDigitChars 10 digits 0 = port.toNat ∧
      Create order text (BitVec.ofNat 16 (Nat.ofDigitChars 10 digits 0)) = some made ∧
      Address.equal order (.ipv4 made sin_zero) (.ipv4 (new order address port) sin_zero) = true) ∧
    (∀ m_addr v, getPort order (setPort order m_addr v) = v.setWidth 32) ∧
    ∀ address port address' port',
      toString order (new order address port) = toString order (new order address' port') →
        address = address' ∧ port = port' := by
  refine ⟨toString_new order, fun address port => ?_, fun m_addr v => ?_, fun address port address' port' same => ?_⟩
  · refine ⟨_, _, new order address port, splitOn_toString order address port, Nat.ofDigitChars_ten_toDigits, ?_, ?_⟩
    · rw [Nat.ofDigitChars_ten_toDigits, BitVec.ofNat_toNat, BitVec.setWidth_eq, Create_dotted]
    · rw [Address.equal_iff_raw]
  · rw [getPort, setPort, byteswapOnLittleEndian_twice]
  · have split := congrArg (List.splitOn ':') same
    rw [splitOn_toString, splitOn_toString, List.cons.injEq, List.cons.injEq] at split
    obtain ⟨texts, digits, -⟩ := split
    have made := Create_dotted order address port
    rw [texts, Create_dotted, Option.some.injEq] at made
    have words := congrArg (byteswapOnLittleEndian order ·.sin_addr) made
    simp only [new, byteswapOnLittleEndian_twice] at words
    exact ⟨words.symm, BitVec.eq_of_toNat_eq (toDigits_injective digits)⟩

end IPv4Address
end Sylar
