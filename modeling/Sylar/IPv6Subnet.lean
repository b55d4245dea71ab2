import Sylar.Address

/-! The subnet operations of `IPv6Address`: one byte is masked, and a loop fills some of the others. -/

namespace Sylar
namespace IPv6Address

/-- `s6_addr[i]`, which reads a byte of the address for the first 16 indices only. -/
def byteAt (s6_addr : Fin 16 → BitVec 8) (i : Nat) : Option (BitVec 8) :=
  if inside : i < 16 then some (s6_addr ⟨i, inside⟩) else none

def setByte (s6_addr : Fin 16 → BitVec 8) (i : Nat) (v : BitVec 8) : Option (Fin 16 → BitVec 8) :=
  if inside : i < 16 then some (Function.update s6_addr ⟨i, inside⟩ v) else none

/-- The loop `for(int i = first; i < bound; i++)` that sets the bytes. -/
def fill (v : BitVec 8) (first bound : Nat) (s6_addr : Fin 16 → BitVec 8) : Option (Fin 16 → BitVec 8) :=
  (List.range' first (bound - first)).foldlM (fun s6_addr i => setByte s6_addr i v) s6_addr

/-- `broadcastAddress(prefix_len)`: `none` is an access to a byte that is not one of the address. -/
def broadcastAddress (m_addr : sockaddr_in6) (prefix_len : Nat) : Option sockaddr_in6 := do
  let byte ← byteAt m_addr.sin6_addr (prefix_len / 8)
  let mask ← CreateMask 8 (prefix_len % 8)
  let baddr ← setByte m_addr.sin6_addr (prefix_len / 8) (byte ||| mask)
  let baddr ← fill 0xff (prefix_len / 8 + 1) 16 baddr
  return { m_addr with sin6_addr := baddr }

def networdAress (m_addr : sockaddr_in6) (prefix_len : Nat) : Option sockaddr_in6 := do
  let byte ← byteAt m_addr.sin6_addr (prefix_len / 8)
  let mask ← CreateMask 8 (prefix_len % 8)
  let baddr ← setByte m_addr.sin6_addr (prefix_len / 8) (byte &&& mask)
  return { m_addr with sin6_addr := baddr }

def subnetMask (prefix_len : Nat) : Option sockaddr_in6 := do
  let mask ← CreateMask 8 (prefix_len % 8)
  let subnet ← setByte (fun _ => 0) (prefix_len / 8) (~~~ mask)
  let subnet ← fill 0xff (prefix_len / 8 + 1) 8 subnet
  return { sin6_family := AF_INET6, sin6_port := 0, sin6_flowinfo := 0, sin6_addr := subnet, sin6_scope_id := 0 }

/-- The bits of an address, the highest of each byte first. -/
def bit (s6_addr : Fin 16 → BitVec 8) (i : Fin 128) : Bool := (s6_addr ⟨i / 8, by omega⟩).getLsbD (7 - i % 8)

theorem getLsbD_eq_bit (s6_addr : Fin 16 → BitVec 8) (j : Fin 16) {k : Nat} (inside : k < 8) :
    (s6_addr j).getLsbD k = bit s6_addr ⟨8 * j + (7 - k), by omega⟩ := by
  have byte : (8 * j.val + (7 - k)) / 8 = j.val := by omega
  have place : 7 - (8 * j.val + (7 - k)) % 8 = k := by omega
  simp only [bit, byte, place]

theorem bytes_ext {s t : Fin 16 → BitVec 8} (same : ∀ i, bit s i = bit t i) : s = t := by
  funext j
  refine BitVec.eq_of_getLsbD_eq fun k inside => ?_
  rw [getLsbD_eq_bit s j inside, getLsbD_eq_bit t j inside]
  exact same _

theorem fill_eq (v : BitVec 8) (first : Nat) {bound : Nat} (range : bound ≤ 16) (s6_addr : Fin 16 → BitVec 8) :
    fill v first bound s6_addr = some fun j => if first ≤ j.val ∧ j.val < bound then v else s6_addr j := by
  have loop : ∀ n first s6_addr, first + n ≤ 16 →
      (List.range' first n).foldlM (fun s6_addr i => setByte s6_addr i v) s6_addr =
        some fun j => if first ≤ j.val ∧ j.val < first + n then v else s6_addr j := by
    intro n
    induction n with
    | zero =>
      intro first s6_addr _
      have none : ∀ j : Fin 16, ¬ (first ≤ j.val ∧ j.val < first + 0) := fun j => by omega
      simp only [none, if_false]
      rfl
    | succ n ih =>
      intro first s6_addr inside
      have here : first < 16 := by omega
      rw [List.range'_succ, List.foldlM_cons, setByte, dif_pos here]
      refine (ih (first + 1) _ (by omega)).trans (congrArg some (funext fun j => ?_))
      by_cases own : j.val = first
      · have same : j = ⟨first, here⟩ := Fin.ext own
        rw [if_neg (by omega), if_pos (by omega), same, Function.update_self]
      · have other : j ≠ ⟨first, here⟩ := fun same => own (congrArg Fin.val same)
        rw [Function.update_of_ne other]
        by_cases later : first + 1 ≤ j.val ∧ j.val < first + 1 + n
        · rw [if_pos later, if_pos (by omega)]
        · rw [if_neg later, if_neg (by omega)]
  by_cases order : first ≤ bound
  · rw [fill, loop _ _ _ (by omega), Nat.add_sub_cancel' order]
  · have none : ∀ j : Fin 16, ¬ (first ≤ j.val ∧ j.val < bound) := fun j => by omega
    rw [fill, Nat.sub_eq_zero_of_le (by omega)]
    simp only [none, if_false]
    rfl

/-- The mask of a byte has the bits behind the first `r`. -/
theorem CreateMask_8 (p : Nat) : CreateMask 8 (p % 8) = some (BitVec.ofNat 8 (2 ^ (8 - p % 8) - 1)) :=
  CreateMask_eq (by omega) (by omega)

/-- The mask of the byte that the prefix ends in. -/
def hostMask (p : Nat) : BitVec 8 := BitVec.ofNat 8 (2 ^ (8 - p % 8) - 1)

theorem getLsbD_hostMask (p i : Nat) : (hostMask p).getLsbD (7 - i % 8) = decide (p % 8 ≤ i % 8) := by
  rw [hostMask, getLsbD_mask 8 _ (by omega)]
  exact decide_eq_decide.mpr (by omega)

variable {a : sockaddr_in6} {p : Nat}

/-- The bytes of the broadcast address. -/
def broadcastBytes (s6_addr : Fin 16 → BitVec 8) (p : Nat) (j : Fin 16) : BitVec 8 :=
  if p / 8 < j.val then 0xff else if p / 8 = j.val then s6_addr j ||| hostMask p else s6_addr j

theorem broadcastAddress_eq (range : p < 128) :
    broadcastAddress a p = some { a with sin6_addr := broadcastBytes a.sin6_addr p } := by
  have here : p / 8 < 16 := by omega
  simp only [broadcastAddress, byteAt, dif_pos here, CreateMask_8, setByte, fill_eq _ _ (Nat.le_refl 16),
    Option.bind_eq_bind, Option.bind_some, Option.pure_def]
  refine congrArg (fun s6_addr => some { a with sin6_addr := s6_addr }) (funext fun j => ?_)
  rw [broadcastBytes]
  by_cases later : p / 8 < j.val
  · rw [if_pos (by omega), if_pos later]
  · rw [if_neg (by omega), if_neg later]
    by_cases own : p / 8 = j.val
    · have same : j = ⟨p / 8, here⟩ := Fin.ext own.symm
      rw [if_pos own, same, Function.update_self]
      rfl
    · have other : j ≠ ⟨p / 8, here⟩ := fun same => own (congrArg Fin.val same).symm
      rw [if_neg own, Function.update_of_ne other]

/-- The bits behind the prefix are set, and the others are left. -/
theorem bit_broadcastBytes (s6_addr : Fin 16 → BitVec 8) (p : Nat) (i : Fin 128) :
    bit (broadcastBytes s6_addr p) i = if i < p then bit s6_addr i else true := by
  have inByte : 7 - i.val % 8 < 8 := by omega
  simp only [bit, broadcastBytes]
  by_cases later : p / 8 < i.val / 8
  · have ones : ∀ k < 8, (0xff : BitVec 8).getLsbD k = true := by decide
    rw [if_pos later, if_neg (by omega), ones _ inByte]
  · rw [if_neg later]
    by_cases own : p / 8 = i.val / 8
    · rw [if_pos own, BitVec.getLsbD_or, getLsbD_hostMask]
      by_cases before : i.val < p
      · rw [if_pos before, decide_eq_false (by omega), Bool.or_false]
      · rw [if_neg before, decide_eq_true (by omega), Bool.or_true]
    · rw [if_neg own, if_pos (by omega)]

/-- For a prefix of up to 127 bits the broadcast address keeps the prefix and has ones behind it, with the
family, the port and the other fields of the address. Its own broadcast address is itself, and a longer prefix
leaves what a shorter one leaves. -/
theorem broadcastAddress_spec (a : sockaddr_in6) (range : p ≤ 127) :
    ∃ b, broadcastAddress a p = some b ∧
      (∀ i : Fin 128, bit b.sin6_addr i = if i < p then bit a.sin6_addr i else true) ∧
      (b.sin6_family = a.sin6_family ∧ b.sin6_port = a.sin6_port ∧ b.sin6_flowinfo = a.sin6_flowinfo ∧
        b.sin6_scope_id = a.sin6_scope_id) ∧
      broadcastAddress b p = some b ∧
      ∀ q b', p ≤ q → q ≤ 127 → broadcastAddress a q = some b' →
        ∀ i, bit b.sin6_addr i = bit a.sin6_addr i → bit b'.sin6_addr i = bit a.sin6_addr i := by
  have inside : p < 128 := by omega
  have bits := bit_broadcastBytes a.sin6_addr p
  refine ⟨_, broadcastAddress_eq inside, bits, ⟨rfl, rfl, rfl, rfl⟩, ?_, ?_⟩
  · have same : broadcastBytes (broadcastBytes a.sin6_addr p) p = broadcastBytes a.sin6_addr p := by
      refine bytes_ext fun i => ?_
      rw [bit_broadcastBytes, bits]
      by_cases before : i.val < p
      · rw [if_pos before, if_pos before]
      · rw [if_neg before, if_neg before]
    rw [broadcastAddress_eq inside, same]
  · intro q b' longer fits made i left
    rw [broadcastAddress_eq (by omega)] at made
    cases made
    rw [bits] at left
    rw [bit_broadcastBytes]
    by_cases before : i.val < q
    · rw [if_pos before]
    · rw [if_neg before]
      rwa [if_neg (by omega)] at left

/-- `2001:db8::` with port 80. -/
def db8 : sockaddr_in6 := ⟨AF_INET6, 80, 0, fun j => [0x20, 0x01, 0x0d, 0xb8].getD j 0, 0⟩

/-- Of the byte `b8` the prefix keeps five bits. -/
theorem broadcastAddress_spec_29 : ∃ b, broadcastAddress db8 29 = some b ∧ b.sin6_port = 80 ∧ b.sin6_addr 3 = 0xbf ∧
    ∀ i : Fin 128, bit b.sin6_addr i = if i.val < 29 then bit db8.sin6_addr i else true := by
  obtain ⟨b, made, bits, ⟨-, port, -⟩, -⟩ := broadcastAddress_spec db8 (by omega : 29 ≤ 127)
  have byte : b.sin6_addr 3 = 0xbf := by
    rw [← Option.some.inj made]
    rfl
  exact ⟨b, made, port, byte, bits⟩

/-- The mask has the first bits and port 0. -/
def MaskRight (p : Nat) : Prop :=
  ∃ m, subnetMask p = some m ∧ (∀ i : Fin 128, bit m.sin6_addr i = decide (i < p)) ∧ m.sin6_port = 0

/-- The network keeps the first bits of the address and its port, and clears the other bits. -/
def NetworkRight (a : sockaddr_in6) (p : Nat) : Prop :=
  ∃ n, networdAress a p = some n ∧ (∀ i : Fin 128, bit n.sin6_addr i = (decide (i < p) && bit a.sin6_addr i)) ∧
    n.sin6_port = a.sin6_port

/-- The network and the mask are right, and so the network is what the mask leaves of the address, and its own
network. -/
structure Subnet (a : sockaddr_in6) (p : Nat) : Prop where
  mask : MaskRight p
  network : NetworkRight a p
  masked : ∀ n m, networdAress a p = some n → subnetMask p = some m →
    ∀ j, n.sin6_addr j = a.sin6_addr j &&& m.sin6_addr j
  idempotent : ∀ n, networdAress a p = some n → networdAress n p = some n

/-- A prefix of 128 bits has no byte of its own. -/
theorem byteAt_128 (s6_addr : Fin 16 → BitVec 8) : byteAt s6_addr (128 / 8) = none := dif_neg (by omega)

theorem networdAress_eq (range : p < 128) : networdAress a p = some { a with
    sin6_addr := Function.update a.sin6_addr ⟨p / 8, by omega⟩ (a.sin6_addr ⟨p / 8, by omega⟩ &&& hostMask p) } := by
  have here : p / 8 < 16 := by omega
  simp only [networdAress, byteAt, dif_pos here, CreateMask_8, setByte, Option.bind_eq_bind, Option.bind_some,
    Option.pure_def]
  rfl

theorem subnetMask_eq (range : p < 128) : ∃ m, subnetMask p = some m ∧
    ∀ j : Fin 16, j.val ≠ p / 8 → m.sin6_addr j = if p / 8 < j.val ∧ j.val < 8 then 0xff else 0 := by
  have here : p / 8 < 16 := by omega
  simp only [subnetMask, CreateMask_8, setByte, dif_pos here, fill_eq _ _ (by omega : 8 ≤ 16), Option.bind_eq_bind,
    Option.bind_some, Option.pure_def]
  refine ⟨_, rfl, fun j other => ?_⟩
  have apart : j ≠ ⟨p / 8, here⟩ := fun same => other (congrArg Fin.val same)
  simp only [Function.update_of_ne apart]
  by_cases filled : p / 8 < j.val ∧ j.val < 8
  · rw [if_pos filled, if_pos (by omega)]
  · rw [if_neg filled, if_neg (by omega)]

/-- The first byte behind that of the prefix has ones, or the first byte of all has none. -/
theorem not_maskRight (range : p ≤ 128) : ¬ MaskRight p := by
  rintro ⟨m, made, bits, -⟩
  by_cases last : p = 128
  · subst last
    cases made
  obtain ⟨m', made', bytes⟩ := subnetMask_eq (by omega : p < 128)
  cases made.symm.trans made'
  by_cases first : p < 8
  · have ones : m.sin6_addr 1 = 0xff := by
      have one : (1 : Fin 16).val = 1 := rfl
      rw [bytes 1 (by omega), if_pos (by omega)]
    have set : bit m.sin6_addr 8 = true := (congrArg (·.getLsbD 7) ones).trans (by decide)
    have right : bit m.sin6_addr 8 = false := (bits 8).trans (decide_eq_false (by simp; omega))
    rw [set] at right
    cases right
  · have zeros : m.sin6_addr 0 = 0 := by
      have zero : (0 : Fin 16).val = 0 := rfl
      rw [bytes 0 (by omega), if_neg (by omega)]
    have clear : bit m.sin6_addr 0 = false := (congrArg (·.getLsbD 7) zeros).trans (by decide)
    have right : bit m.sin6_addr 0 = true := (bits 0).trans (decide_eq_true (by simp; omega))
    rw [clear] at right
    cases right

/-- Of the byte that the prefix ends in the bits behind it are left, and of the other bytes all. -/
theorem bit_networdAress (range : p < 128) {n : sockaddr_in6} (made : networdAress a p = some n) (i : Fin 128) :
    bit n.sin6_addr i = ((decide (i.val / 8 ≠ p / 8) || decide (p ≤ i.val)) && bit a.sin6_addr i) := by
  rw [networdAress_eq range] at made
  cases made
  simp only [bit]
  by_cases own : i.val / 8 = p / 8
  · have same : (⟨i.val / 8, by omega⟩ : Fin 16) = ⟨p / 8, by omega⟩ := Fin.ext own
    have behind : decide (p % 8 ≤ i.val % 8) = decide (p ≤ i.val) := decide_eq_decide.mpr (by omega)
    rw [same, Function.update_self, BitVec.getLsbD_and, getLsbD_hostMask, behind, Bool.and_comm]
    simp [own]
  · have other : (⟨i.val / 8, by omega⟩ : Fin 16) ≠ ⟨p / 8, by omega⟩ := fun same => own (congrArg Fin.val same)
    rw [Function.update_of_ne other]
    simp [own]

/-- The bytes from that of the prefix on are zero exactly when their bits are. -/
theorem bytes_zero_iff {s6_addr : Fin 16 → BitVec 8} {k : Nat} :
    (∀ j : Fin 16, k ≤ j.val → s6_addr j = 0#8) ↔ ∀ i : Fin 128, k ≤ i.val / 8 → bit s6_addr i = false := by
  constructor
  · intro zero i inside
    rw [bit, zero _ inside, BitVec.getLsbD_zero]
  · intro clear j inside
    refine BitVec.eq_of_getLsbD_eq fun l range => ?_
    rw [getLsbD_eq_bit s6_addr j range, BitVec.getLsbD_zero]
    exact clear _ (by simp; omega)

/-- The network is right where there was nothing to clear and nothing to keep from the byte of the prefix on. -/
theorem networkRight_iff (range : p ≤ 128) :
    NetworkRight a p ↔ p < 128 ∧ ∀ j : Fin 16, p / 8 ≤ j.val → a.sin6_addr j = 0#8 := by
  rw [bytes_zero_iff]
  constructor
  · rintro ⟨n, made, bits, -⟩
    by_cases last : p = 128
    · subst last
      rw [networdAress, byteAt_128] at made
      cases made
    have inside : p < 128 := by omega
    refine ⟨inside, fun i behind => ?_⟩
    have right := bits i
    rw [bit_networdAress inside made] at right
    cases value : bit a.sin6_addr i with
    | false => rfl
    | true =>
      rw [value, Bool.and_true, Bool.and_true] at right
      by_cases before : i.val < p
      · rw [decide_eq_true before, decide_eq_false (by omega), decide_eq_false (by omega)] at right
        cases right
      · rw [decide_eq_false before, decide_eq_true (by omega : p ≤ i.val), Bool.or_true] at right
        cases right
  · rintro ⟨inside, zero⟩
    refine ⟨_, networdAress_eq inside, fun i => ?_, rfl⟩
    rw [bit_networdAress inside (networdAress_eq inside)]
    by_cases behind : p / 8 ≤ i.val / 8
    · rw [zero i behind, Bool.and_false, Bool.and_false]
    · rw [decide_eq_true (by omega : i.val / 8 ≠ p / 8), decide_eq_true (by omega : i.val < p), Bool.true_or]

variable (a)

/-- The two operations are never both right: the mask is wrong for every prefix length, and the network unless
the bytes from that of the prefix on are zero. -/
theorem not_subnet (range : p ≤ 128) : ¬ Subnet a p ∧ ¬ MaskRight p ∧
    (NetworkRight a p ↔ p < 128 ∧ ∀ j : Fin 16, p / 8 ≤ j.val → a.sin6_addr j = 0#8) :=
  ⟨fun right => not_maskRight range right.mask, not_maskRight range, networkRight_iff range⟩

theorem not_subnet_64 : ¬ Subnet ⟨AF_INET6, 0, 0, fun _ => 1, 0⟩ 64 ∧ ¬ MaskRight 64 ∧
    (NetworkRight ⟨AF_INET6, 0, 0, fun _ => 1, 0⟩ 64 ↔
      64 < 128 ∧ ∀ j : Fin 16, 64 / 8 ≤ j.val → (1 : BitVec 8) = 0#8) :=
  not_subnet _ (by omega)

/-- The mask of 64 bits has no bit, and the network of 64 bits keeps all bits. -/
theorem subnetMask_64 : ¬ Subnet ⟨AF_INET6, 0, 0, fun _ => 1, 0⟩ 64 ∧
    (subnetMask 64).map (fun m => List.ofFn m.sin6_addr) = some (List.replicate 16 0) ∧
    (networdAress ⟨AF_INET6, 0, 0, fun _ => 1, 0⟩ 64).map (fun n => List.ofFn n.sin6_addr) =
      some (List.replicate 16 1) :=
  ⟨fun right => not_maskRight (by omega) right.mask, by decide +kernel, by decide +kernel⟩

end IPv6Address
end Sylar
