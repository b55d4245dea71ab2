import Sylar.Address
import Sylar.Lib.Inet

/-! The text that `IPv6Address::insert` writes, and `IPv6Address::Create`, which reads one. -/

namespace Sylar
namespace IPv6Address
open Inet

/-- The `i`th group of the address, in the order of the network. -/
def groupAt (m_addr : sockaddr_in6) (i : Fin 8) : BitVec 16 :=
  m_addr.sin6_addr ⟨2 * i, by omega⟩ ++ m_addr.sin6_addr ⟨2 * i + 1, by omega⟩

/-- `addr[i]`, as the machine reads two bytes. -/
def word (order : ByteOrder) (m_addr : sockaddr_in6) (i : Fin 8) : BitVec 16 :=
  match order with
  | .little => m_addr.sin6_addr ⟨2 * i + 1, by omega⟩ ++ m_addr.sin6_addr ⟨2 * i, by omega⟩
  | .big => m_addr.sin6_addr ⟨2 * i, by omega⟩ ++ m_addr.sin6_addr ⟨2 * i + 1, by omega⟩

/-- The loop over the words from `addr[i]` on, where `previous` is `addr[i - 1]` if there is one: what it
writes, and `used_zero` behind it. -/
def insertWords (order : ByteOrder) (previous : Option (BitVec 16)) (used_zero : Bool) :
    List (BitVec 16) → List Char × Bool
  | [] => ([], used_zero)
  | addr :: rest =>
    if addr = 0 ∧ used_zero = false then insertWords order (some addr) used_zero rest
    else
      let zeros := previous = some 0 ∧ used_zero = false
      let os := (if zeros then [':'] else []) ++ (if previous.isSome then [':'] else []) ++
        Nat.toDigits 16 (byteswapOnLittleEndian order addr).toNat
      let (more, used_zero) := insertWords order (some addr) (if zeros then true else used_zero) rest
      (os ++ more, used_zero)

def getPort (order : ByteOrder) (m_addr : sockaddr_in6) : BitVec 16 := byteswapOnLittleEndian order m_addr.sin6_port

/-- What stands between the brackets. -/
def addressText (order : ByteOrder) (m_addr : sockaddr_in6) : List Char :=
  let (os, used_zero) := insertWords order none false (List.ofFn (word order m_addr))
  if used_zero ∧ word order m_addr 7 = 0 then os ++ [':', ':'] else os

def insert (order : ByteOrder) (m_addr : sockaddr_in6) : List Char :=
  '[' :: (addressText order m_addr ++ ']' :: ':' :: Nat.toDigits 10 (getPort order m_addr).toNat)

/-- The bytes of the groups, each with its high byte first. -/
def bytesOf (groups : List Nat) (k : Fin 16) : BitVec 8 :=
  BitVec.ofNat 8 (if k.val % 2 = 0 then groups.getD (k / 2) 0 / 256 else groups.getD (k / 2) 0)

/-- `inet_pton(AF_INET6, address)` -/
def inet_pton (address : List Char) : Option (Fin 16 → BitVec 8) := (parse address).map bytesOf

/-- `Create(address, port)`, which gives `nullptr` for a text that `inet_pton` does not read. -/
def Create (order : ByteOrder) (address : List Char) (port : BitVec 16) : Option sockaddr_in6 :=
  (inet_pton address).map fun sin6_addr =>
    { sin6_family := AF_INET6, sin6_port := byteswapOnLittleEndian order port, sin6_flowinfo := 0
      sin6_addr := sin6_addr, sin6_scope_id := 0 }

def groups (m_addr : sockaddr_in6) : List Nat := List.ofFn fun i => (groupAt m_addr i).toNat

/-- The text between the brackets is one of the address, from which `Create` makes the address again, and
another address or port has another text. -/
def Faithful (order : ByteOrder) (m_addr : sockaddr_in6) : Prop :=
  ∃ text, insert order m_addr = '[' :: (text ++ ']' :: ':' :: Nat.toDigits 10 (getPort order m_addr).toNat) ∧
    parse text = some (groups m_addr) ∧
    (∃ made, Create order text (getPort order m_addr) = some made ∧ made.sin6_addr = m_addr.sin6_addr ∧
      made.sin6_port = m_addr.sin6_port) ∧
    ∀ other, insert order other = insert order m_addr →
      other.sin6_addr = m_addr.sin6_addr ∧ other.sin6_port = m_addr.sin6_port

section
variable (order : ByteOrder)

theorem byteswap_word (m_addr : sockaddr_in6) (i : Fin 8) :
    byteswapOnLittleEndian order (word order m_addr i) = groupAt m_addr i := by
  cases order with
  | little => exact byteswap_append _ _
  | big => rfl

theorem byteswap_zero : byteswapOnLittleEndian order (0 : BitVec 16) = 0 := by
  cases order with
  | little => decide
  | big => rfl

theorem word_eq_zero {m_addr : sockaddr_in6} {i : Fin 8} : word order m_addr i = 0 ↔ groupAt m_addr i = 0 := by
  rw [← byteswap_word order]
  refine ⟨fun same => by rw [same, byteswap_zero], fun same => ?_⟩
  rw [← byteswapOnLittleEndian_twice order (word order m_addr i), same, byteswap_zero]

/-- What the words are written as. -/
def shown (ws : List (BitVec 16)) : List Nat := ws.map fun addr => (byteswapOnLittleEndian order addr).toNat

theorem shown_cons (addr : BitVec 16) (ws : List (BitVec 16)) :
    shown order (addr :: ws) = (byteswapOnLittleEndian order addr).toNat :: shown order ws := rfl

/-- Once `used_zero` is set, every further word is written behind a colon. -/
theorem insertWords_used (previous addr : BitVec 16) (rest : List (BitVec 16)) :
    insertWords order (some previous) true (addr :: rest) = (':' :: join (shown order (addr :: rest)), true) := by
  induction rest generalizing previous addr with
  | nil => simp [insertWords, shown, join_singleton, hex]
  | cons next rest ih =>
    have more : shown order (next :: rest) ≠ [] := List.cons_ne_nil _ _
    rw [insertWords, shown_cons, join_cons _ more]
    simp [ih, hex]

/-- The zeros of the first run are passed over. -/
theorem insertWords_zeros {run : List (BitVec 16)} (zeros : ∀ addr ∈ run, addr = 0) (previous : Option (BitVec 16))
    (nonempty : run ≠ []) (rest : List (BitVec 16)) :
    insertWords order previous false (run ++ rest) = insertWords order (some 0) false rest := by
  induction run generalizing previous with
  | nil => exact absurd rfl nonempty
  | cons addr run ih =>
    have zero := zeros addr List.mem_cons_self
    subst zero
    rw [List.cons_append, insertWords, if_pos ⟨rfl, rfl⟩]
    by_cases last : run = []
    · rw [last]
      rfl
    · exact ih (fun addr member => zeros addr (List.mem_cons_of_mem _ member)) _ last

/-- The first word behind a run of zeros is written behind `::`. -/
theorem insertWords_behind {addr : BitVec 16} (nonzero : addr ≠ 0) (rest : List (BitVec 16)) :
    insertWords order (some 0) false (addr :: rest) = (':' :: ':' :: join (shown order (addr :: rest)), true) := by
  have stops : ¬ (addr = 0 ∧ false = false) := fun both => nonzero both.1
  cases rest with
  | nil =>
    rw [insertWords, if_neg stops]
    simp [insertWords, shown, join_singleton, hex]
  | cons next rest =>
    have more : shown order (next :: rest) ≠ [] := List.cons_ne_nil _ _
    rw [insertWords, if_neg stops, shown_cons, join_cons _ more]
    simp [insertWords_used, hex]

/-- A word before the first zero. -/
theorem insertWords_nonzero {addr : BitVec 16} (nonzero : addr ≠ 0) {previous : Option (BitVec 16)}
    (apart : previous ≠ some 0) (rest : List (BitVec 16)) :
    insertWords order previous false (addr :: rest) =
      ((if previous.isSome then [':'] else []) ++ hex (byteswapOnLittleEndian order addr).toNat ++
        (insertWords order (some addr) false rest).1, (insertWords order (some addr) false rest).2) := by
  have other : ¬ previous = some 0#16 := apart
  rw [insertWords, if_neg (fun both => nonzero both.1)]
  simp [other, hex]

/-- The words before the first zero are joined. -/
theorem insertWords_front {front rest : List (BitVec 16)} (nonzero : ∀ addr ∈ front, addr ≠ 0) (nonempty : front ≠ [])
    {out : List Char × Bool} (behind : ∀ previous, insertWords order previous false rest = out)
    {previous : Option (BitVec 16)} (apart : previous ≠ some 0) :
    insertWords order previous false (front ++ rest) =
      ((if previous.isSome then [':'] else []) ++ join (shown order front) ++ out.1, out.2) := by
  induction front generalizing previous with
  | nil => exact absurd rfl nonempty
  | cons addr front ih =>
    have first := nonzero addr List.mem_cons_self
    rw [List.cons_append, insertWords_nonzero order first apart, shown_cons]
    by_cases last : front = []
    · subst last
      rw [List.nil_append, behind]
      simp [shown, join_singleton]
    · have others := ih (fun addr member => nonzero addr (List.mem_cons_of_mem _ member)) last
        (fun same : some addr = some 0 => first (Option.some.inj same))
      have more : shown order front ≠ [] := by simpa [shown] using last
      rw [others, join_cons _ more]
      simp

/-- The first run of zeros, with what stands before and behind it. -/
theorem exists_zeros (ws : List (BitVec 16)) : ∃ front run back, ws = front ++ (run ++ back) ∧
    (∀ addr ∈ front, addr ≠ 0) ∧ (∀ addr ∈ run, addr = 0) ∧ (run = [] → back = []) ∧
    ∀ addr ∈ back.head?, addr ≠ 0 := by
  refine ⟨ws.takeWhile (· ≠ 0), (ws.dropWhile (· ≠ 0)).takeWhile (· = 0), (ws.dropWhile (· ≠ 0)).dropWhile (· = 0),
    ?_, ?_, ?_, ?_, ?_⟩
  · rw [List.takeWhile_append_dropWhile, List.takeWhile_append_dropWhile]
  · intro addr member
    simpa using List.mem_takeWhile_imp member
  · intro addr member
    simpa using List.mem_takeWhile_imp member
  · intro empty
    cases behind : ws.dropWhile (· ≠ 0) with
    | nil => rfl
    | cons addr rest =>
      have zero : addr = 0 := by
        have first := List.head?_dropWhile_not (fun addr : BitVec 16 => decide (addr ≠ 0)) ws
        rw [behind] at first
        simpa using first
      rw [behind, List.takeWhile_cons_of_pos (by simpa using zero)] at empty
      cases empty
  · intro addr member
    have first := List.head?_dropWhile_not (fun addr : BitVec 16 => decide (addr = 0)) (ws.dropWhile (· ≠ 0))
    rw [Option.mem_def.mp member] at first
    simpa using first

/-- What the loop writes: the groups around the first run of zeros, if this ends, and `used_zero` then. -/
theorem insertWords_cases {front run back : List (BitVec 16)} (nonzero : ∀ addr ∈ front, addr ≠ 0)
    (zeros : ∀ addr ∈ run, addr = 0) (whole : run = [] → back = []) (stops : ∀ addr ∈ back.head?, addr ≠ 0) :
    insertWords order none false (front ++ (run ++ back)) =
      if back = [] then (join (shown order front), false)
      else (join (shown order front) ++ ':' :: ':' :: join (shown order back), true) := by
  have behind : ∀ previous, insertWords order previous false (run ++ back) =
      if back = [] then ([], false) else (':' :: ':' :: join (shown order back), true) := by
    intro previous
    by_cases empty : run = []
    · rw [empty, whole empty]
      rfl
    · rw [insertWords_zeros order zeros previous empty]
      cases back with
      | nil => rfl
      | cons addr back => exact insertWords_behind order (stops addr rfl) back
  by_cases empty : front = []
  · rw [empty, List.nil_append, behind]
    rfl
  · have first : (none : Option (BitVec 16)) ≠ some 0 := nofun
    rw [insertWords_front order nonzero empty behind first]
    by_cases ends : back = []
    · simp [ends]
    · simp [ends]

theorem shown_words (m_addr : sockaddr_in6) : shown order (List.ofFn (word order m_addr)) = groups m_addr := by
  rw [shown, groups, List.map_ofFn]
  exact congrArg List.ofFn (funext fun i => congrArg BitVec.toNat (byteswap_word order m_addr i))

theorem shown_lt {ws : List (BitVec 16)} : ∀ g ∈ shown order ws, g < 2 ^ 16 := by
  intro g member
  obtain ⟨addr, -, rfl⟩ := List.mem_map.mp member
  exact BitVec.isLt _

theorem shown_zeros {run : List (BitVec 16)} (zeros : ∀ addr ∈ run, addr = 0) :
    shown order run = List.replicate run.length 0 := by
  rw [List.eq_replicate_iff]
  refine ⟨List.length_map _, fun g member => ?_⟩
  obtain ⟨addr, there, rfl⟩ := List.mem_map.mp member
  rw [zeros addr there, byteswap_zero]
  rfl

/-- The text is read as the groups unless the last of them is zero, and then it is not read at all. -/
theorem parse_addressText (m_addr : sockaddr_in6) :
    parse (addressText order m_addr) = if groupAt m_addr 7 = 0 then none else some (groups m_addr) := by
  obtain ⟨front, run, back, words, nonzero, zeros, whole, stops⟩ := exists_zeros (List.ofFn (word order m_addr))
  have eight : front.length + (run.length + back.length) = 8 := by
    rw [← List.length_append, ← List.length_append, ← words, List.length_ofFn]
  have last : (front ++ (run ++ back)).getLast? = some (word order m_addr 7) := by
    rw [← words, List.getLast?_eq_getElem?, List.length_ofFn]
    rfl
  have all : groups m_addr = shown order front ++ (shown order run ++ shown order back) := by
    rw [← shown_words order, words, shown, List.map_append, List.map_append]
    rfl
  have lengths : ∀ ws, (shown order ws).length = ws.length := fun ws => List.length_map _
  rw [addressText, words, insertWords_cases order nonzero zeros whole stops]
  by_cases ends : back = []
  · subst ends
    simp only [if_true, Bool.false_eq_true, false_and, if_false]
    rw [parse_join (shown_lt order), lengths]
    by_cases empty : run = []
    · subst empty
      rw [List.append_nil, List.append_nil] at last
      have other := nonzero _ (List.mem_of_getLast? last)
      have full : front.length = 8 := eight
      rw [if_pos full, if_neg (mt (word_eq_zero order).mpr other), all]
      exact congrArg some (List.append_nil _).symm
    · have short : ¬ front.length = 8 := by
        have more := List.length_pos_iff.mpr empty
        omega
      rw [List.append_nil, List.getLast?_append, List.getLast?_eq_some_getLast empty, Option.some_or] at last
      have zero : word order m_addr 7 = 0 := by
        rw [← Option.some.inj last]
        exact zeros _ (List.getLast_mem empty)
      rw [if_neg short, if_pos ((word_eq_zero order).mp zero)]
  · have more := List.length_pos_iff.mpr (mt whole ends)
    simp only [if_neg ends, true_and]
    by_cases zero : word order m_addr 7 = 0
    · rw [if_pos zero, if_pos ((word_eq_zero order).mp zero), List.append_assoc]
      exact parse_twice
    · rw [if_neg zero, if_neg (mt (word_eq_zero order).mpr zero), all, shown_zeros order zeros]
      have fits : (shown order front).length + (shown order back).length ≤ 7 := by
        rw [lengths, lengths]
        omega
      have left : 8 - (shown order front).length - (shown order back).length = run.length := by
        rw [lengths, lengths]
        omega
      rw [parse_compressed (shown_lt order) (shown_lt order) fits, left, List.append_assoc]

/-- There are only digits and colons in the text. -/
theorem not_mem_insertWords {c : Char} (other : hexDigit c = none) (colon : c ≠ ':') (ws : List (BitVec 16))
    (previous : Option (BitVec 16)) (used_zero : Bool) : c ∉ (insertWords order previous used_zero ws).1 := by
  induction ws generalizing previous used_zero with
  | nil => exact List.not_mem_nil
  | cons addr ws ih =>
    have digits : c ∉ Nat.toDigits 16 (byteswapOnLittleEndian order addr).toNat := not_mem_hex other _
    rw [insertWords]
    split
    · exact ih _ _
    · simp only [List.mem_append, not_or]
      refine ⟨⟨⟨?_, ?_⟩, digits⟩, ih _ _⟩
      · split <;> simp [colon]
      · split <;> simp [colon]

theorem bracket_not_mem (m_addr : sockaddr_in6) : ']' ∉ addressText order m_addr := by
  have words := not_mem_insertWords order (c := ']') rfl (by decide) (List.ofFn (word order m_addr)) none false
  rw [addressText]
  simp only
  split
  · rw [List.mem_append, not_or]
    exact ⟨words, by decide⟩
  · exact words

end

theorem toNat_append (b c : BitVec 8) : (b ++ c).toNat = b.toNat * 256 + c.toNat := by
  have low := c.isLt
  rw [BitVec.toNat_append, ← Nat.shiftLeft_add_eq_or_of_lt low, Nat.shiftLeft_eq]

theorem bytesOf_groups (m_addr : sockaddr_in6) : bytesOf (groups m_addr) = m_addr.sin6_addr := by
  funext k
  have inside : k.val / 2 < 8 := by omega
  have value : (groups m_addr).getD (k / 2) 0 = (groupAt m_addr ⟨k / 2, inside⟩).toNat := by
    rw [groups, List.getD_eq_getElem?_getD, List.getElem?_ofFn, dif_pos inside]
    rfl
  rw [bytesOf, value, groupAt, toNat_append]
  have low := (m_addr.sin6_addr ⟨2 * (k / 2) + 1, by omega⟩).isLt
  have byte : ∀ j (range : j < 16), j = k.val →
      BitVec.ofNat 8 (m_addr.sin6_addr ⟨j, range⟩).toNat = m_addr.sin6_addr k := by
    rintro j range rfl
    rw [BitVec.ofNat_toNat, BitVec.setWidth_eq]
  by_cases even : k.val % 2 = 0
  · have high : ((m_addr.sin6_addr ⟨2 * (k / 2), by omega⟩).toNat * 256 +
        (m_addr.sin6_addr ⟨2 * (k / 2) + 1, by omega⟩).toNat) / 256 =
        (m_addr.sin6_addr ⟨2 * (k / 2), by omega⟩).toNat := by omega
    rw [if_pos even, high]
    exact byte _ _ (by omega)
  · have small : (m_addr.sin6_addr ⟨2 * (k / 2), by omega⟩).toNat * 256 +
        (m_addr.sin6_addr ⟨2 * (k / 2) + 1, by omega⟩).toNat =
        2 ^ 8 * (m_addr.sin6_addr ⟨2 * (k / 2), by omega⟩).toNat +
          (m_addr.sin6_addr ⟨2 * (k / 2) + 1, by omega⟩).toNat := by omega
    rw [if_neg even, small, ← byte (2 * (k / 2) + 1) (by omega) (by omega)]
    refine BitVec.eq_of_toNat_eq ?_
    rw [BitVec.toNat_ofNat, BitVec.toNat_ofNat, Nat.mul_add_mod]

/-- The printed address is faithful exactly when its last group is not zero. -/
theorem faithful_iff (order : ByteOrder) (m_addr : sockaddr_in6) :
    Faithful order m_addr ↔ groupAt m_addr 7 ≠ 0 := by
  constructor
  · rintro ⟨text, written, denotes, -⟩ zero
    have same : text = addressText order m_addr :=
      (List.append_cancel_right (List.cons.inj written).2).symm
    rw [same, parse_addressText, if_pos zero] at denotes
    cases denotes
  · intro nonzero
    have denotes : parse (addressText order m_addr) = some (groups m_addr) := by
      rw [parse_addressText, if_neg nonzero]
    refine ⟨addressText order m_addr, rfl, denotes, ?_, fun other same => ?_⟩
    · rw [Create, inet_pton, denotes]
      exact ⟨_, rfl, bytesOf_groups m_addr, byteswapOnLittleEndian_twice order _⟩
    · have behind := (List.cons.inj same).2
      have split := congrArg (List.splitOn ']') behind
      rw [List.splitOn_append_cons_self_of_not_mem (bracket_not_mem order other),
        List.splitOn_append_cons_self_of_not_mem (bracket_not_mem order m_addr)] at split
      have texts := (List.cons.inj split).1
      rw [texts] at behind
      have digits := (List.cons.inj (List.cons.inj (List.append_cancel_left behind)).2).2
      have ports := congrArg (byteswapOnLittleEndian order) (BitVec.eq_of_toNat_eq (toDigits_injective digits))
      simp only [getPort, byteswapOnLittleEndian_twice] at ports
      have read := parse_addressText order other
      rw [texts, denotes] at read
      refine ⟨?_, ports⟩
      split at read
      · cases read
      · rw [← bytesOf_groups other, ← bytesOf_groups m_addr, Option.some.inj read]

/-- The address of which all bytes are zero is printed as nothing between the brackets. -/
theorem not_faithful_any : ¬ Faithful .little ⟨AF_INET6, 0, 0, fun _ => 0, 0⟩ := by
  rintro ⟨text, written, denotes, -⟩
  have nothing : insert .little ⟨AF_INET6, 0, 0, fun _ => 0, 0⟩ = "[]:0".toList := by decide +kernel
  rw [nothing] at written
  have zero : Nat.toDigits 10 (getPort .little ⟨AF_INET6, 0, 0, fun _ => 0, 0⟩).toNat = ['0'] := by decide +kernel
  have empty : text = [] := by
    rw [zero] at written
    have length := congrArg List.length written
    simp only [List.length_cons, List.length_append, List.length_nil] at length
    refine List.eq_nil_of_length_eq_zero ?_
    have four : "[]:0".toList.length = 4 := rfl
    omega
  rw [empty] at denotes
  exact absurd denotes (by decide +kernel)

end IPv6Address
end Sylar
