import Sylar.Address

/-! The subnet operations of `IPv4Address`: all three are made of the mask of the host bits. -/

namespace Sylar
namespace IPv4Address

variable (order : ByteOrder)

/-- `broadcastAddress(prefix_len)`: the outer `none` is an operation without a value, the inner one `nullptr`. -/
def broadcastAddress (m_addr : sockaddr_in) (prefix_len : Nat) : Option (Option sockaddr_in) :=
  if prefix_len > 32 then some none
  else
    (CreateMask 32 prefix_len).map fun mask =>
      some { m_addr with sin_addr := m_addr.sin_addr ||| byteswapOnLittleEndian order mask }

def networdAress (m_addr : sockaddr_in) (prefix_len : Nat) : Option (Option sockaddr_in) :=
  if prefix_len > 32 then some none
  else
    (CreateMask 32 prefix_len).map fun mask =>
      some { m_addr with sin_addr := m_addr.sin_addr &&& byteswapOnLittleEndian order mask }

/-- `subnetMask(prefix_len)`, which does not look at the address, nor at the range of the prefix length. -/
def subnetMask (prefix_len : Nat) : Option sockaddr_in :=
  (CreateMask 32 prefix_len).map fun mask =>
    { sin_family := AF_INET, sin_port := 0, sin_addr := byteswapOnLittleEndian order mask }

/-- The address in the order of the host. -/
def host (m_addr : sockaddr_in) : BitVec 32 := byteswapOnLittleEndian order m_addr.sin_addr

/-- The mask that a prefix length stands for. -/
def netmask (p : Nat) : BitVec 32 := BitVec.ofNat 32 (2 ^ 32 - 2 ^ (32 - p))

def MaskRight (p : Nat) : Prop := ∃ m, subnetMask order p = some m ∧ host order m = netmask p

def NetworkRight (a : sockaddr_in) (p : Nat) : Prop :=
  ∃ n, networdAress order a p = some (some n) ∧ host order n = host order a &&& netmask p

def BroadcastRight (a : sockaddr_in) (p : Nat) : Prop :=
  ∃ b, broadcastAddress order a p = some (some b) ∧ host order b = host order a ||| ~~~ netmask p

/-- The three operations agree with the mask, and what follows from it: the address lies between the two
others, the network of the network is itself, and it is that of the addresses with the same first bits. -/
structure SubnetAlgebra (a : sockaddr_in) (p : Nat) : Prop where
  mask : MaskRight order p
  network : NetworkRight order a p
  broadcast : BroadcastRight order a p
  between : ∀ n b, networdAress order a p = some (some n) → broadcastAddress order a p = some (some b) →
    host order n ≤ host order a ∧ host order a ≤ host order b
  idempotent : ∀ n, networdAress order a p = some (some n) → networdAress order n p = some (some n)
  same : ∀ a' n n', networdAress order a p = some (some n) → networdAress order a' p = some (some n') →
    (n.sin_addr = n'.sin_addr ↔ ∀ i < 32, 32 - p ≤ i → (host order a).getLsbD i = (host order a').getLsbD i)

variable {order} {a : sockaddr_in} {p : Nat}

/-- The host bits. -/
theorem not_netmask (p : Nat) : ~~~ netmask p = BitVec.ofNat 32 (2 ^ (32 - p) - 1) := by
  have bound : 2 ^ (32 - p) ≤ 2 ^ 32 := Nat.pow_le_pow_right (by omega) (by omega)
  have positive : 1 ≤ 2 ^ (32 - p) := Nat.one_le_two_pow
  refine BitVec.eq_of_toNat_eq ?_
  rw [BitVec.toNat_not, netmask, BitVec.toNat_ofNat, BitVec.toNat_ofNat, Nat.mod_eq_of_lt (by omega),
    Nat.mod_eq_of_lt (by omega)]
  omega

theorem getLsbD_netmask {i : Nat} (inside : i < 32) : (netmask p).getLsbD i = decide (32 - p ≤ i) := by
  have host := getLsbD_mask 32 (32 - p) inside
  rw [← not_netmask, BitVec.getLsbD_not, decide_eq_true inside, Bool.true_and] at host
  have same := congrArg (!·) host
  simp only [Bool.not_not] at same
  rw [same, ← decide_not, decide_eq_decide]
  omega

/-- A mask of all bits but the first is out of the range of an `int`, and one of all bits is out of that of
the shift. -/
theorem CreateMask_32 (range : p ≤ 32) : CreateMask 32 p = if 2 ≤ p then some (~~~ netmask p) else none := by
  by_cases two : 2 ≤ p
  · rw [if_pos two, not_netmask, CreateMask_eq range (by omega)]
  · have few : p = 0 ∨ p = 1 := by omega
    rw [if_neg two]
    rcases few with rfl | rfl
    · decide
    · decide

theorem host_and (mask : BitVec 32) :
    host order { a with sin_addr := a.sin_addr &&& byteswapOnLittleEndian order mask } = host order a &&& mask := by
  rw [host, byteswapOnLittleEndian_and, byteswapOnLittleEndian_twice]
  rfl

theorem host_or (mask : BitVec 32) :
    host order { a with sin_addr := a.sin_addr ||| byteswapOnLittleEndian order mask } = host order a ||| mask := by
  rw [host, byteswapOnLittleEndian_or, byteswapOnLittleEndian_twice]
  rfl

/-- What is masked by a mask and by its complement alike is zero. -/
theorem and_eq_and_not {h m : BitVec 32} : h &&& ~~~ m = h &&& m ↔ h = 0#32 := by
  refine ⟨fun same => ?_, fun zero => by rw [zero, BitVec.zero_and, BitVec.zero_and]⟩
  refine BitVec.eq_of_getLsbD_eq fun i inside => ?_
  have bit := congrArg (·.getLsbD i) same
  simp only [BitVec.getLsbD_and, BitVec.getLsbD_not, decide_eq_true inside, Bool.true_and] at bit
  rw [BitVec.getLsbD_zero]
  cases left : h.getLsbD i with
  | false => rfl
  | true =>
    rw [left] at bit
    cases right : m.getLsbD i <;> rw [right] at bit <;> cases bit

theorem not_maskRight (range : p ≤ 32) : ¬ MaskRight order p := by
  rintro ⟨m, made, right⟩
  rw [subnetMask, CreateMask_32 range] at made
  split at made
  · cases made
    rw [host, byteswapOnLittleEndian_twice] at right
    have bit := congrArg (·.getLsbD 0) right
    simp only [BitVec.getLsbD_not] at bit
    cases left : (netmask p).getLsbD 0 <;> rw [left] at bit <;> cases bit
  · cases made

theorem networkRight_iff (range : p ≤ 32) : NetworkRight order a p ↔ 2 ≤ p ∧ host order a = 0#32 := by
  rw [NetworkRight, networdAress, if_neg (Nat.not_lt.mpr range), CreateMask_32 range]
  by_cases two : 2 ≤ p
  · rw [if_pos two]
    constructor
    · rintro ⟨n, made, right⟩
      cases made
      rw [host_and] at right
      exact ⟨two, and_eq_and_not.mp right⟩
    · rintro ⟨-, zero⟩
      exact ⟨_, rfl, by rw [host_and, and_eq_and_not.mpr zero]⟩
  · rw [if_neg two]
    refine ⟨?_, fun both => absurd both.1 two⟩
    rintro ⟨n, made, -⟩
    cases made

theorem broadcastRight_iff (range : p ≤ 32) : BroadcastRight order a p ↔ 2 ≤ p := by
  rw [BroadcastRight, broadcastAddress, if_neg (Nat.not_lt.mpr range), CreateMask_32 range]
  by_cases two : 2 ≤ p
  · rw [if_pos two]
    exact ⟨fun _ => two, fun _ => ⟨_, rfl, host_or _⟩⟩
  · rw [if_neg two]
    refine ⟨?_, fun both => absurd both two⟩
    rintro ⟨n, made, -⟩
    cases made

variable (order a)

/-- The operations never agree: the mask is wrong for every prefix length, the network for every address but
zero, and the broadcast address for the lengths 0 and 1, for which there is no mask. -/
theorem not_subnetAlgebra (range : p ≤ 32) :
    ¬ SubnetAlgebra order a p ∧ ¬ MaskRight order p ∧ (NetworkRight order a p ↔ 2 ≤ p ∧ host order a = 0#32) ∧
      (BroadcastRight order a p ↔ 2 ≤ p) :=
  ⟨fun algebra => not_maskRight range algebra.mask, not_maskRight range, networkRight_iff range,
    broadcastRight_iff range⟩

theorem not_subnetAlgebra_24 : ¬ SubnetAlgebra .little ⟨AF_INET, 0, 0x0101A8C0⟩ 24 ∧ ¬ MaskRight .little 24 ∧
    (NetworkRight .little ⟨AF_INET, 0, 0x0101A8C0⟩ 24 ↔ 2 ≤ 24 ∧ host .little ⟨AF_INET, 0, 0x0101A8C0⟩ = 0#32) ∧
    (BroadcastRight .little ⟨AF_INET, 0, 0x0101A8C0⟩ 24 ↔ 2 ≤ 24) :=
  not_subnetAlgebra .little _ (by omega)

/-- The mask of 24 bits is 0.0.0.255. -/
theorem subnetMask_24 : ¬ SubnetAlgebra .little ⟨AF_INET, 0, 0x0101A8C0⟩ 24 ∧
    (subnetMask .little 24).map (host .little) = some 0x000000FF := by
  have made : (subnetMask .little 24).map (host .little) = some 0x000000FF := by decide
  refine ⟨fun algebra => ?_, made⟩
  obtain ⟨m, mask, right⟩ := algebra.mask
  rw [mask] at made
  exact absurd ((Option.some.inj made).symm.trans right) (by decide)

end IPv4Address
end Sylar
