import Sylar.Lib.Inet

/-! The dotted texts of IPv4 addresses: four decimal numbers up to 255 between dots. -/

namespace Inet

/-- The numbers between dots. -/
def dotted (bytes : List Nat) : List Char := ['.'].intercalate (bytes.map (Nat.toDigits 10))

/-- The four numbers that a text denotes. -/
def octets (text : List Char) : Option (List Nat) :=
  ((text.splitOn '.').mapM octet).filter fun bytes => bytes.length = 4

/-- Only zero is written with a leading zero. -/
theorem head_toDigits {n : Nat} (zero : (Nat.toDigits 10 n).head? = some '0') : n = 0 := by
  induction n using Nat.base_induction 10 (by omega) with
  | single m range =>
    rw [Nat.toDigits_of_lt_base range, List.head?_cons, Option.some.injEq] at zero
    have each : ∀ m < 10, Nat.digitChar m = '0' → m = 0 := by decide
    exact each m range zero
  | digit m k range positive ih =>
    rw [← Nat.toDigits_append_toDigits (by omega) positive range,
      List.head?_append_of_ne_nil _ Nat.toDigits_ne_nil] at zero
    have front := ih zero
    omega

theorem octet_toDigits {n : Nat} (range : n ≤ 255) : octet (Nat.toDigits 10 n) = some n := by
  have digits : (Nat.toDigits 10 n).all Char.isDigit = true :=
    List.all_eq_true.mpr fun c member => Nat.isDigit_of_mem_toDigits (by omega) (by omega) member
  have leading : (Nat.toDigits 10 n).head? = some '0' → Nat.toDigits 10 n = ['0'] := by
    intro zero
    rw [head_toDigits zero, Nat.toDigits_zero]
  rw [octet, Nat.ofDigitChars_ten_toDigits, if_pos ⟨Nat.toDigits_ne_nil, digits, leading, range⟩]

/-- A character that is no digit does not stand in a number. -/
theorem not_mem_toDigits {c : Char} (other : c.isDigit = false) (n : Nat) : c ∉ Nat.toDigits 10 n := by
  intro member
  rw [Nat.isDigit_of_mem_toDigits (by omega) (by omega) member] at other
  cases other

theorem mapM_octet_toDigits {bytes : List Nat} (range : ∀ n ∈ bytes, n ≤ 255) :
    (bytes.map (Nat.toDigits 10)).mapM octet = some bytes := by
  induction bytes with
  | nil => rfl
  | cons n bytes ih =>
    rw [List.map_cons, List.mapM_cons, octet_toDigits (range n List.mem_cons_self),
      ih fun n member => range n (List.mem_cons_of_mem _ member)]
    rfl

/-- The numbers are read from the text that they are written as. -/
theorem octets_dotted {bytes : List Nat} (range : ∀ n ∈ bytes, n ≤ 255) (four : bytes.length = 4) :
    octets (dotted bytes) = some bytes := by
  have apart : ∀ text ∈ bytes.map (Nat.toDigits 10), '.' ∉ text := by
    intro text member
    obtain ⟨n, -, rfl⟩ := List.mem_map.mp member
    exact not_mem_toDigits rfl n
  have nonempty : bytes.map (Nat.toDigits 10) ≠ [] := by
    intro empty
    rw [List.map_eq_nil_iff.mp empty] at four
    cases four
  rw [octets, dotted, List.splitOn_intercalate '.' apart nonempty, mapM_octet_toDigits range, Option.filter_some,
    if_pos (decide_eq_true four)]

/-- There are only digits and dots in the text. -/
theorem not_mem_dotted {c : Char} (other : c.isDigit = false) (dot : c ≠ '.') (bytes : List Nat) : c ∉ dotted bytes := by
  rw [dotted]
  induction bytes with
  | nil => exact List.not_mem_nil
  | cons n bytes ih =>
    cases bytes with
    | nil =>
      rw [List.map_singleton, List.intercalate_singleton]
      exact not_mem_toDigits other n
    | cons next bytes =>
      rw [List.map_cons] at ih ⊢
      rw [List.map_cons, List.intercalate_cons_cons, List.append_assoc, List.mem_append, List.mem_append, not_or,
        not_or]
      exact ⟨not_mem_toDigits other n, mt List.mem_singleton.mp dot, ih⟩

end Inet
