import Mathlib.Logic.Function.Iterate
import Sylar.IPv4Subnet
import Sylar.IPv4Text
import Sylar.Lib.Multimap
import Sylar.Lib.Ones

/-! `CountBytes`, and `Address::GetInterfaceAddresses`, which counts the ones of a netmask with it. -/

namespace Sylar
open Ones

section
variable {w : Nat}

/-- `value & (value - 1)`. What is narrower than an `int` is widened to one, and the result is narrowed. -/
def clearLowest (value : BitVec w) : BitVec w :=
  (value.setWidth (max w 32) &&& (value.setWidth (max w 32) - 1#(max w 32))).setWidth w

/-- The widening makes no difference. -/
theorem clearLowest_eq {value : BitVec w} (nonzero : value ≠ 0#w) : clearLowest value = value &&& (value - 1#w) := by
  have wide : w ≤ max w 32 := Nat.le_max_left w 32
  have bound := value.isLt
  have wider : 2 ^ w ≤ 2 ^ max w 32 := Nat.pow_le_pow_right (by omega) wide
  have same : (value.setWidth (max w 32)).toNat = value.toNat := by
    rw [BitVec.toNat_setWidth, Nat.mod_eq_of_lt (by omega)]
  have nonzeroWide : value.setWidth (max w 32) ≠ 0#(max w 32) := by
    intro zero
    rw [zero, BitVec.toNat_zero] at same
    exact nonzero (BitVec.eq_of_toNat_eq same.symm)
  have less : (value.setWidth (max w 32) - 1#(max w 32)).setWidth w = value - 1#w := by
    refine BitVec.eq_of_toNat_eq ?_
    rw [BitVec.toNat_setWidth, toNat_sub_one nonzeroWide, toNat_sub_one nonzero, same, Nat.mod_eq_of_lt (by omega)]
  rw [clearLowest, BitVec.setWidth_and, BitVec.setWidth_setWidth_of_le _ wide, BitVec.setWidth_eq, less]

theorem ones_clearLowest {value : BitVec w} (nonzero : value ≠ 0#w) : ones (clearLowest value) + 1 = ones value := by
  rw [clearLowest_eq nonzero, ones_clear nonzero]

/-- The loop of `CountBytes`, which goes on until no one is left. -/
def countFrom (value : BitVec w) (result : BitVec 32) : BitVec 32 :=
  if nonzero : value ≠ 0#w then countFrom (clearLowest value) (result + 1) else result
termination_by ones value
decreasing_by
  have less := ones_clearLowest nonzero
  omega

def CountBytes (value : BitVec w) : BitVec 32 := countFrom value 0

theorem countFrom_eq (value : BitVec w) (result : BitVec 32) :
    countFrom value result = result + BitVec.ofNat 32 (ones value) := by
  fun_induction countFrom value result with
  | case1 value result nonzero ih =>
    rw [ih, ← ones_clearLowest nonzero, BitVec.ofNat_add, BitVec.add_assoc]
    exact congrArg (result + ·) (BitVec.add_comm _ _)
  | case2 value result zero =>
    rw [Classical.not_not.mp zero, ones_zero]
    exact (BitVec.add_zero result).symm

theorem CountBytes_eq (value : BitVec w) : CountBytes value = BitVec.ofNat 32 (ones value) := by
  rw [CountBytes, countFrom_eq]
  exact BitVec.zero_add _

/-- The passes of the loop. -/
theorem ones_iterate (value : BitVec w) {k : Nat} (few : k ≤ ones value) :
    ones (clearLowest^[k] value) = ones value - k := by
  induction k with
  | zero => rfl
  | succ k ih =>
    have before := ih (Nat.le_of_succ_le few)
    have nonzero : clearLowest^[k] value ≠ 0#w := by
      intro zero
      rw [zero, ones_zero] at before
      omega
    have step := ones_clearLowest nonzero
    rw [Function.iterate_succ_apply']
    omega

/-- `CountBytes` makes as many passes as there are ones, and counts them. -/
structure Counted (value : BitVec w) : Prop where
  count : (CountBytes value).toNat = ones value
  goesOn : ∀ k < ones value, clearLowest^[k] value ≠ 0#w
  ends : clearLowest^[ones value] value = 0#w

theorem counted (value : BitVec w) (narrow : w ≤ 32) : Counted value := by
  refine ⟨?_, fun k less zero => ?_, ?_⟩
  · have bound := ones_le value
    rw [CountBytes_eq, BitVec.toNat_ofNat, Nat.mod_eq_of_lt (by omega)]
  · have left := ones_iterate value (Nat.le_of_lt less)
    rw [zero, ones_zero] at left
    omega
  · have left := ones_iterate value (Nat.le_refl _)
    by_contra nonzero
    have step := ones_clearLowest nonzero
    omega

theorem ones_byteswap [Byteswap w] (order : ByteOrder) (value : BitVec w) :
    ones (byteswapOnLittleEndian order value) = ones value := by
  obtain ⟨place, inverse, moved⟩ := exists_place (w := w) order
  exact ones_places inverse (moved value)

theorem CountBytes_byteswap [Byteswap w] (value : BitVec w) :
    CountBytes (Byteswap.byteswap value) = CountBytes value := by
  rw [CountBytes_eq, CountBytes_eq]
  exact congrArg _ (ones_byteswap .little value)

end

structure ifaddrs where
  ifa_name : List (BitVec 8)
  ifa_addr : Option Memory
  ifa_netmask : Option Memory

/-- `sa_family` of a `sockaddr`. -/
def sa_family (order : ByteOrder) (addr : Memory) : BitVec 16 := read16 order addr 0

namespace Address

def AF_UNSPEC : Int := 0

/-- The names of interfaces with their addresses and prefix lengths. -/
abbrev Interfaces := Multimap (List (BitVec 8)) (Address × BitVec 32)

variable (order : ByteOrder)

/-- What is inserted for one interface. The outer `none` is a null pointer that is followed, and the inner one
an interface that is passed over. -/
def interface (family : Int) (next : ifaddrs) : Option (Option (Address × BitVec 32)) := do
  let ifa_addr ← next.ifa_addr
  if family ≠ AF_UNSPEC ∧ family ≠ (sa_family order ifa_addr).toNat then some none
  else if sa_family order ifa_addr = AF_INET then
    let ifa_netmask ← next.ifa_netmask
    let netmask := read32 order ifa_netmask 4
    some (some (Create order ifa_addr, CountBytes netmask))
  else if sa_family order ifa_addr = AF_INET6 then
    let ifa_netmask ← next.ifa_netmask
    let netmask := fun i => ifa_netmask (8 + i)
    some (some (Create order ifa_addr,
      (List.range 16).foldl (fun prefix_len i => prefix_len + CountBytes (netmask i)) 0))
  else some none

def insertInterface (family : Int) (result : Interfaces) (next : ifaddrs) : Option Interfaces :=
  (interface order family next).map fun entry => (entry.map (result.insert next.ifa_name)).getD result

/-- `GetInterfaceAddresses(result, family)`, where `getifaddrs` fails or gives the interfaces. -/
def GetInterfaceAddresses (getifaddrs : Option (List ifaddrs)) (result : Interfaces) (family : Int) :
    Option (Bool × Interfaces) :=
  match getifaddrs with
  | none => some (false, result)
  | some results => (results.foldlM (insertInterface order family) result).map fun result => (true, result)

/-- `GetInterfaceAddresses(result, iface, family)`, where `iface` may stand for all interfaces. -/
def GetInterfaceAddressesOf (getifaddrs : Option (List ifaddrs)) (result : List (Address × BitVec 32))
    (iface : List (BitVec 8)) (family : Int) : Option (Bool × List (Address × BitVec 32)) :=
  if iface.isEmpty ∨ iface = [42] then
    let inet := if family = AF_INET.toNat ∨ family = AF_UNSPEC then
      [(ipv4 (IPv4Address.new order 0 0) IPv4Address.sin_zero, 0)] else []
    let inet6 := if family = AF_INET6.toNat ∨ family = AF_UNSPEC then
      [(ipv6 { sin6_family := AF_INET6, sin6_port := 0, sin6_flowinfo := 0, sin6_addr := fun _ => 0
               sin6_scope_id := 0 }, 0)] else []
    some (true, result ++ inet ++ inet6)
  else
    (GetInterfaceAddresses order getifaddrs { entries := [], sorted := .nil } family).map fun found =>
      if found.1 then (true, result ++ found.2.equal_range iface) else (false, result)

/-- The first `p` bits of a netmask are ones, and the others are not, in the order in which they are sent. -/
def LeadingOnes (netmask : Memory) (start width p : Nat) : Prop :=
  ∀ i < width, (netmask (start + i / 8)).getLsbD (7 - i % 8) = decide (i < p)

section
variable {order} {netmask : Memory} {start width p : Nat}

/-- The bits of four bytes that are joined, from the highest on. -/
theorem getLsbD_joined (m : Memory) {i : Nat} (inside : i < 32) :
    (m 0 ++ m 1 ++ m 2 ++ m 3).getLsbD (31 - i) = (m (i / 8)).getLsbD (7 - i % 8) := by
  have byte : i / 8 = 0 ∨ i / 8 = 1 ∨ i / 8 = 2 ∨ i / 8 = 3 := by omega
  simp only [BitVec.getLsbD_append]
  rcases byte with first | second | third | fourth
  · have place : 31 - i - 8 - 8 - 8 = 7 - i % 8 := by omega
    rw [if_neg (by omega), if_neg (by omega), if_neg (by omega), first, place]
  · have place : 31 - i - 8 - 8 = 7 - i % 8 := by omega
    rw [if_neg (by omega), if_neg (by omega), if_pos (by omega), second, place]
  · have place : 31 - i - 8 = 7 - i % 8 := by omega
    rw [if_neg (by omega), if_pos (by omega), third, place]
  · have place : 31 - i = 7 - i % 8 := by omega
    rw [if_pos (by omega), fourth, place]

/-- For IPv4 this is the mask of the prefix length, in the order of the network. -/
theorem leadingOnes_iff : LeadingOnes netmask 4 32 p ↔
    byteswapOnLittleEndian order (read32 order netmask 4) = IPv4Address.netmask p := by
  have bits : ∀ i < 32, (byteswapOnLittleEndian order (read32 order netmask 4)).getLsbD (31 - i) =
      (netmask (4 + i / 8)).getLsbD (7 - i % 8) := by
    intro i inside
    rw [byteswap_read32]
    exact getLsbD_joined (fun k => netmask (4 + k)) inside
  have mask : ∀ i < 32, (IPv4Address.netmask p).getLsbD (31 - i) = decide (i < p) := by
    intro i inside
    rw [IPv4Address.getLsbD_netmask (by omega), decide_eq_decide]
    omega
  constructor
  · intro leading
    refine BitVec.eq_of_getLsbD_eq fun i inside => ?_
    have bit := (bits (31 - i) (by omega)).trans ((leading (31 - i) (by omega)).trans (mask (31 - i) (by omega)).symm)
    have back : 31 - (31 - i) = i := by omega
    rwa [back] at bit
  · intro same i inside
    rw [← bits i inside, same, mask i inside]

/-- The ones of a byte of such a netmask. -/
theorem LeadingOnes.byte (leading : LeadingOnes netmask start width p) {k : Nat} (inside : 8 * k + 8 ≤ width) :
    ones (netmask (start + k)) = min 8 (p - 8 * k) := by
  refine ones_leading fun i less => ?_
  have bit := leading (8 * k + i) (by omega)
  have byte : (8 * k + i) / 8 = k := by omega
  have place : (8 * k + i) % 8 = i := by omega
  rw [byte, place] at bit
  have same : 8 * k + i < p ↔ i < p - 8 * k := by omega
  rw [bit, decide_eq_decide]
  exact same

theorem LeadingOnes.count_ipv4 (leading : LeadingOnes netmask 4 32 p) (bound : p ≤ 32) :
    CountBytes (read32 order netmask 4) = BitVec.ofNat 32 p := by
  have first := leading.byte (k := 0) (by omega)
  have second := leading.byte (k := 1) (by omega)
  have third := leading.byte (k := 2) (by omega)
  have fourth := leading.byte (k := 3) (by omega)
  rw [Nat.add_zero] at first
  have all : ones (read32 order netmask 4) = p := by
    rw [← ones_byteswap order, byteswap_read32, ones_append, ones_append, ones_append]
    omega
  rw [CountBytes_eq, all]

theorem LeadingOnes.count_ipv6 (leading : LeadingOnes netmask 8 128 p) (bound : p ≤ 128) :
    (List.range 16).foldl (fun prefix_len i => prefix_len + CountBytes (netmask (8 + i))) 0 = BitVec.ofNat 32 p := by
  have front : ∀ n ≤ 16, (List.range n).foldl (fun prefix_len i => prefix_len + CountBytes (netmask (8 + i))) 0 =
      BitVec.ofNat 32 (min (8 * n) p) := by
    intro n few
    induction n with
    | zero => rw [Nat.mul_zero, Nat.zero_min, List.range_zero, List.foldl_nil]; rfl
    | succ n ih =>
      have next := leading.byte (k := n) (by omega)
      have sum : min (8 * (n + 1)) p = min (8 * n) p + min 8 (p - 8 * n) := by omega
      rw [List.range_succ, List.foldl_append, ih (by omega), List.foldl_cons, List.foldl_nil, CountBytes_eq, next, sum,
        BitVec.ofNat_add]
  have all : min (8 * 16) p = p := by omega
  rw [front 16 (Nat.le_refl 16), all]

end

section
variable {order} {family : Int}

/-- What is inserted for an interface, with its name. -/
def entry (order : ByteOrder) (family : Int) (next : ifaddrs) : Option (List (BitVec 8) × Address × BitVec 32) :=
  ((interface order family next).getD none).map (Prod.mk next.ifa_name)

/-- The interfaces are inserted one after another. -/
theorem foldlM_insertInterface {results : List ifaddrs} {result out : Interfaces}
    (run : results.foldlM (insertInterface order family) result = some out) :
    out = (results.filterMap (entry order family)).foldl (fun m e => m.insert e.1 e.2) result := by
  induction results generalizing result with
  | nil => exact (Option.some.inj run).symm
  | cons next results ih =>
    rw [List.foldlM_cons] at run
    obtain ⟨first, step, rest⟩ := Option.bind_eq_some_iff.mp run
    obtain ⟨found, computed, rfl⟩ := Option.map_eq_some_iff.mp step
    rw [ih rest, List.filterMap_cons, entry, computed]
    cases found <;> rfl

/-- There is a result unless a null pointer is followed. -/
theorem exists_foldlM_insertInterface {results : List ifaddrs} (result : Interfaces)
    (sound : ∀ next ∈ results, (interface order family next).isSome) :
    ∃ out, results.foldlM (insertInterface order family) result = some out := by
  induction results generalizing result with
  | nil => exact ⟨result, rfl⟩
  | cons next results ih =>
    obtain ⟨found, computed⟩ := Option.isSome_iff_exists.mp (sound next List.mem_cons_self)
    rw [List.foldlM_cons, insertInterface, computed]
    exact ih _ fun next member => sound next (List.mem_cons_of_mem _ member)

/-- The values that are found under a name are those of the interfaces of this name, in their order. -/
theorem GetInterfaceAddressesOf_eq {results : List ifaddrs} {iface : List (BitVec 8)}
    (one : ¬ (iface.isEmpty ∨ iface = [42])) (sound : ∀ next ∈ results, (interface order family next).isSome)
    (result : List (Address × BitVec 32)) :
    GetInterfaceAddressesOf order (some results) result iface family = some (true, result ++
      ((results.filterMap (entry order family)).filter fun e => e.1 = iface).map Prod.snd) := by
  obtain ⟨out, run⟩ := exists_foldlM_insertInterface { entries := [], sorted := .nil } sound
  rw [GetInterfaceAddressesOf, if_neg one, GetInterfaceAddresses, run, foldlM_insertInterface run]
  simp only [Option.map_some, if_true, Multimap.equal_range_foldl]
  rfl

/-- The interface is one that is asked for, and it has an address and a netmask. -/
structure Has (order : ByteOrder) (family : Int) (next : ifaddrs) (addr netmask : Memory) : Prop where
  ifa_addr : next.ifa_addr = some addr
  ifa_netmask : next.ifa_netmask = some netmask
  wanted : family = AF_UNSPEC ∨ family = (sa_family order addr).toNat

variable {next : ifaddrs} {addr netmask : Memory} {p : Nat}

theorem Has.not_passed (has : Has order family next addr netmask) :
    ¬ (family ≠ AF_UNSPEC ∧ family ≠ (sa_family order addr).toNat) :=
  fun other => has.wanted.elim other.1 other.2

theorem Has.ipv4 (has : Has order family next addr netmask) (inet : sa_family order addr = AF_INET)
    (leading : LeadingOnes netmask 4 32 p) (bound : p ≤ 32) :
    entry order family next = some (next.ifa_name, Create order addr, BitVec.ofNat 32 p) := by
  have computed : interface order family next = some (some (Create order addr, BitVec.ofNat 32 p)) := by
    have count : CountBytes (read32 order netmask 4) = BitVec.ofNat 32 p := leading.count_ipv4 bound
    rw [interface, has.ifa_addr, has.ifa_netmask, ← count]
    simp only [Option.bind_eq_bind, Option.bind_some, if_neg has.not_passed, if_pos inet]
  rw [entry, computed]
  rfl

theorem Has.ipv6 (has : Has order family next addr netmask) (inet6 : sa_family order addr = AF_INET6)
    (leading : LeadingOnes netmask 8 128 p) (bound : p ≤ 128) :
    entry order family next = some (next.ifa_name, Create order addr, BitVec.ofNat 32 p) := by
  have other : ¬ sa_family order addr = AF_INET := by
    rw [inet6]
    decide
  have computed : interface order family next = some (some (Create order addr, BitVec.ofNat 32 p)) := by
    rw [interface, has.ifa_addr, has.ifa_netmask, ← leading.count_ipv6 bound]
    simp only [Option.bind_eq_bind, Option.bind_some, if_neg has.not_passed, if_neg other, if_pos inet6]
  rw [entry, computed]
  rfl

end

/-- `CountBytes` counts the ones of a word in as many passes, and they are as many when the bytes are swapped. So
the prefix length that is inserted for an interface is the number of leading ones of its netmask. -/
theorem prefix_len_eq : (∀ value : BitVec 32, Counted value) ∧ (∀ value : BitVec 8, Counted value) ∧
    (∀ value : BitVec 32, CountBytes (Byteswap.byteswap value) = CountBytes value) ∧
    ∀ family results result,
      ((∀ next ∈ results, (interface order family next).isSome) →
        ∃ out, GetInterfaceAddresses order (some results) result family = some (true, out)) ∧
      (∀ out, GetInterfaceAddresses order (some results) result family = some (true, out) →
        out.entries.Perm (results.filterMap (entry order family) ++ result.entries)) ∧
      ∀ next ∈ results, ∀ addr netmask, Has order family next addr netmask →
        (sa_family order addr = AF_INET → ∀ p ≤ 32, LeadingOnes netmask 4 32 p →
          entry order family next = some (next.ifa_name, Create order addr, BitVec.ofNat 32 p)) ∧
        (sa_family order addr = AF_INET6 → ∀ p ≤ 128, LeadingOnes netmask 8 128 p →
          entry order family next = some (next.ifa_name, Create order addr, BitVec.ofNat 32 p)) := by
  refine ⟨fun value => counted value (Nat.le_refl 32), fun value => counted value (by omega), CountBytes_byteswap,
    fun family results result => ⟨fun sound => ?_, fun out run => ?_, fun next _ addr netmask has => ⟨?_, ?_⟩⟩⟩
  · obtain ⟨out, run⟩ := exists_foldlM_insertInterface result sound
    exact ⟨out, by rw [GetInterfaceAddresses, run]; rfl⟩
  · obtain ⟨inserted, folded, same⟩ := Option.map_eq_some_iff.mp run
    rw [← (Prod.mk.inj same).2, foldlM_insertInterface folded]
    exact Multimap.foldl_perm _ _
  · exact fun inet p bound leading => has.ipv4 inet leading bound
  · exact fun inet6 p bound leading => has.ipv6 inet6 leading bound

/-- The netmask `255.255.240.0`. -/
theorem prefix_len_eq_20 : ∃ addr netmask : Memory, entry .little AF_UNSPEC ⟨[101, 48], some addr, some netmask⟩ =
    some ([101, 48], Create .little addr, 20#32) := by
  let addr : Memory := fun i => [2, 0, 0, 0, 10, 0, 0, 1].getD i 0
  let netmask : Memory := fun i => [2, 0, 0, 0, 255, 255, 240, 0].getD i 0
  let next : ifaddrs := ⟨[101, 48], some addr, some netmask⟩
  have has : Has .little AF_UNSPEC next addr netmask := ⟨rfl, rfl, .inl rfl⟩
  have leading : LeadingOnes netmask 4 32 20 := by
    unfold LeadingOnes
    decide
  obtain ⟨-, -, -, all⟩ := prefix_len_eq .little
  obtain ⟨-, -, each⟩ := all AF_UNSPEC [next] { entries := [], sorted := .nil }
  exact ⟨addr, netmask, (each next List.mem_cons_self addr netmask has).1 (by decide) 20 (by omega) leading⟩

end Address
end Sylar
