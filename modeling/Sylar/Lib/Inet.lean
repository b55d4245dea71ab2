import Mathlib.Algebra.Order.Ring.Int
import Mathlib.Data.List.Chain
import Mathlib.Data.List.TakeWhile

/-! The texts of IPv6 addresses: eight groups of up to four hexadecimal digits between colons, where `::` may
once stand for one or more groups of zeros, and where a dotted quad may stand for the last two groups. -/

namespace Inet

def hexDigit (c : Char) : Option Nat :=
  if c.isDigit then some (c.toNat - '0'.toNat)
  else if 'a' ≤ c ∧ c ≤ 'f' then some (c.toNat - 'a'.toNat + 10)
  else if 'A' ≤ c ∧ c ≤ 'F' then some (c.toNat - 'A'.toNat + 10)
  else none

def ofHex (acc : Nat) (text : List Char) : Option Nat :=
  text.foldlM (fun acc c => (hexDigit c).map (16 * acc + ·)) acc

def group (text : List Char) : Option Nat :=
  if text = [] ∨ 4 < text.length then none else ofHex 0 text

/-- A decimal number up to 255 without leading zeros. -/
def octet (text : List Char) : Option Nat :=
  if text ≠ [] ∧ text.all Char.isDigit ∧ (text.head? = some '0' → text = ['0']) ∧ Nat.ofDigitChars 10 text 0 ≤ 255
  then some (Nat.ofDigitChars 10 text 0)
  else none

/-- A dotted quad is two groups. -/
def quad (text : List Char) : Option (List Nat) :=
  match (text.splitOn '.').mapM octet with
  | some [a, b, c, d] => some [256 * a + b, 256 * c + d]
  | _ => none

/-- The groups of what stands between the colons. -/
def groups : List (List Char) → Option (List Nat)
  | [] => some []
  | [p] => if '.' ∈ p then quad p else (group p).map fun g => [g]
  | p :: ps => do return (← group p) :: (← groups ps)

/-- What stands between the colons; nothing does in the empty text. -/
def side (text : List Char) : List (List Char) := if text = [] then [] else text.splitOn ':'

/-- What stands before and behind the first `::`. -/
def cut : List Char → Option (List Char × List Char)
  | [] => none
  | c :: rest =>
    if c = ':' ∧ rest.head? = some ':' then some ([], rest.tail)
    else (cut rest).map fun found => (c :: found.1, found.2)

/-- The eight groups that a text denotes. -/
def parse (text : List Char) : Option (List Nat) :=
  match cut text with
  | none => (groups (side text)).filter fun gs => gs.length = 8
  | some (left, right) => do
    let gl ← (side left).mapM group
    let gr ← groups (side right)
    if gl.length + gr.length ≤ 7 then some (gl ++ List.replicate (8 - gl.length - gr.length) 0 ++ gr) else none

/-- A group as it is usually written, without leading zeros. -/
def hex (g : Nat) : List Char := Nat.toDigits 16 g

/-- The groups between colons. -/
def join (gs : List Nat) : List Char := [':'].intercalate (gs.map hex)

/-- A decimal number is read back from its digits. -/
theorem toDigits_injective {m n : Nat} (digits : Nat.toDigits 10 m = Nat.toDigits 10 n) : m = n := by
  calc
    m = Nat.ofDigitChars 10 (Nat.toDigits 10 m) 0 := Nat.ofDigitChars_ten_toDigits.symm
    _ = Nat.ofDigitChars 10 (Nat.toDigits 10 n) 0 := by rw [digits]
    _ = n := Nat.ofDigitChars_ten_toDigits

theorem hexDigit_digitChar {d : Nat} (range : d < 16) : hexDigit (Nat.digitChar d) = some d := by
  have each : ∀ d < 16, hexDigit (Nat.digitChar d) = some d := by decide +kernel
  exact each d range

theorem mem_hex {g : Nat} {c : Char} (member : c ∈ hex g) : ∃ d < 16, c = Nat.digitChar d := by
  unfold hex at member
  induction g using Nat.base_induction 16 (by omega) with
  | single m range =>
    rw [Nat.toDigits_of_lt_base range] at member
    exact ⟨m, range, List.mem_singleton.mp member⟩
  | digit m k range positive ih =>
    rw [← Nat.toDigits_append_toDigits (by omega) positive range, Nat.toDigits_of_lt_base range] at member
    rcases List.mem_append.mp member with front | last
    · exact ih front
    · exact ⟨k, range, List.mem_singleton.mp last⟩

/-- A character that is no digit does not stand in a group. -/
theorem not_mem_hex {c : Char} (other : hexDigit c = none) (g : Nat) : c ∉ hex g := by
  intro member
  obtain ⟨d, range, rfl⟩ := mem_hex member
  rw [hexDigit_digitChar range] at other
  cases other

theorem colon_not_mem_hex (g : Nat) : ':' ∉ hex g := not_mem_hex rfl g

theorem ofHex_hex (g : Nat) : ofHex 0 (hex g) = some g := by
  unfold hex
  induction g using Nat.base_induction 16 (by omega) with
  | single m range =>
    rw [Nat.toDigits_of_lt_base range, ofHex, List.foldlM_cons, hexDigit_digitChar range]
    simp
  | digit m k range positive ih =>
    rw [← Nat.toDigits_append_toDigits (by omega) positive range, Nat.toDigits_of_lt_base range, ofHex,
      List.foldlM_append]
    unfold ofHex at ih
    rw [ih]
    simp [hexDigit_digitChar range]

theorem hex_ne_nil (g : Nat) : hex g ≠ [] := Nat.toDigits_ne_nil

theorem group_hex {g : Nat} (range : g < 2 ^ 16) : group (hex g) = some g := by
  have short : (hex g).length ≤ 4 := (Nat.length_toDigits_le_iff (by omega) (by omega)).mpr range
  rw [group, if_neg, ofHex_hex]
  rintro (empty | long)
  · exact hex_ne_nil g empty
  · omega

theorem join_eq_nil {gs : List Nat} : join gs = [] ↔ gs = [] := by
  refine ⟨fun empty => ?_, fun empty => by rw [empty]; rfl⟩
  cases gs with
  | nil => rfl
  | cons g gs =>
    cases gs with
    | nil =>
      rw [join, List.map_singleton, List.intercalate_singleton] at empty
      exact absurd empty (hex_ne_nil g)
    | cons next gs =>
      rw [join, List.map_cons, List.map_cons, List.intercalate_cons_cons] at empty
      simp at empty

theorem side_join (gs : List Nat) : side (join gs) = gs.map hex := by
  by_cases empty : gs = []
  · subst empty
    rfl
  · rw [side, if_neg (mt join_eq_nil.mp empty), join]
    refine List.splitOn_intercalate ':' (fun p member => ?_) (by simpa using empty)
    obtain ⟨g, -, rfl⟩ := List.mem_map.mp member
    exact colon_not_mem_hex g

theorem groups_hex {gs : List Nat} (range : ∀ g ∈ gs, g < 2 ^ 16) : groups (gs.map hex) = some gs := by
  induction gs with
  | nil => rfl
  | cons g gs ih =>
    have first := group_hex (range g List.mem_cons_self)
    have others := ih fun g member => range g (List.mem_cons_of_mem _ member)
    cases gs with
    | nil =>
      rw [List.map_singleton, groups, if_neg (not_mem_hex rfl g), first]
      rfl
    | cons next gs =>
      rw [List.map_cons] at others ⊢
      rw [List.map_cons, groups, first, others]
      · rfl
      · exact List.cons_ne_nil _ _

theorem mapM_group_hex {gs : List Nat} (range : ∀ g ∈ gs, g < 2 ^ 16) : (gs.map hex).mapM group = some gs := by
  induction gs with
  | nil => rfl
  | cons g gs ih =>
    rw [List.map_cons, List.mapM_cons, group_hex (range g List.mem_cons_self),
      ih fun g member => range g (List.mem_cons_of_mem _ member)]
    rfl

/-- There is nothing to read between two colons. -/
theorem groups_of_empty {ps : List (List Char)} (empty : [] ∈ ps) : groups ps = none := by
  induction ps with
  | nil => cases empty
  | cons p ps ih =>
    have nothing : group [] = none := rfl
    cases ps with
    | nil =>
      rw [← List.mem_singleton.mp empty]
      rfl
    | cons q ps =>
      rw [groups]
      · rcases List.mem_cons.mp empty with rfl | inTail
        · rw [nothing]
          rfl
        · rw [ih inTail]
          cases group p <;> rfl
      · nofun

/-- Two colons do not follow one another. -/
def Single (text : List Char) : Prop := text.IsChain fun a b => ¬ (a = ':' ∧ b = ':')

theorem single_of_absent {text : List Char} (absent : ':' ∉ text) : Single text := by
  induction text with
  | nil => exact .nil
  | cons c text ih =>
    rw [List.mem_cons, not_or] at absent
    refine List.isChain_cons.mpr ⟨fun _ _ both => absent.1 both.1.symm, ih absent.2⟩

theorem cut_of_single {text : List Char} (single : Single text) : cut text = none := by
  induction text with
  | nil => rfl
  | cons c rest ih =>
    obtain ⟨first, others⟩ := List.isChain_cons.mp single
    have apart : ¬ (c = ':' ∧ rest.head? = some ':') := fun both => first ':' both.2 ⟨both.1, rfl⟩
    rw [cut, if_neg apart, ih others]
    rfl

/-- The cut is at the first `::`. -/
theorem cut_append {text : List Char} (single : Single text) (ends : text.getLast? ≠ some ':') (behind : List Char) :
    cut (text ++ ':' :: ':' :: behind) = some (text, behind) := by
  induction text with
  | nil => exact if_pos ⟨rfl, rfl⟩
  | cons c rest ih =>
    obtain ⟨first, others⟩ := List.isChain_cons.mp single
    have apart : ¬ (c = ':' ∧ (rest ++ ':' :: ':' :: behind).head? = some ':') := by
      rintro ⟨rfl, next⟩
      cases rest with
      | nil => exact ends rfl
      | cons d rest => exact first d rfl ⟨rfl, Option.some.inj next⟩
    have last : rest.getLast? ≠ some ':' := by
      cases rest with
      | nil => nofun
      | cons d rest => rwa [List.getLast?_cons_cons] at ends
    rw [List.cons_append, cut, if_neg apart, ih others last]
    rfl

theorem join_cons (g : Nat) {gs : List Nat} (more : gs ≠ []) : join (g :: gs) = hex g ++ ':' :: join gs := by
  obtain ⟨next, gs, rfl⟩ := List.exists_cons_of_ne_nil more
  rw [join, join, List.map_cons, List.map_cons, List.intercalate_cons_cons, List.append_assoc]
  rfl

theorem join_singleton (g : Nat) : join [g] = hex g := List.intercalate_singleton

theorem getLast_hex (g : Nat) : (hex g).getLast? ≠ some ':' :=
  fun last => colon_not_mem_hex g (List.mem_of_getLast? last)

theorem getLast_join (gs : List Nat) : (join gs).getLast? ≠ some ':' := by
  induction gs with
  | nil => nofun
  | cons g gs ih =>
    by_cases last : gs = []
    · rw [last, join_singleton]
      exact getLast_hex g
    · obtain ⟨c, rest, more⟩ := List.exists_cons_of_ne_nil (mt join_eq_nil.mp last)
      rw [more] at ih
      rw [join_cons g last, more, List.getLast?_append, List.getLast?_cons_cons]
      cases ends : (c :: rest).getLast? with
      | none => cases List.getLast?_eq_none_iff.mp ends
      | some d => exact ends ▸ ih

theorem head_join (gs : List Nat) : (join gs).head? ≠ some ':' := by
  have first : ∀ g, (hex g).head? ≠ some ':' := fun g head => colon_not_mem_hex g (List.mem_of_mem_head? head)
  cases gs with
  | nil => nofun
  | cons g gs =>
    by_cases last : gs = []
    · rw [last, join_singleton]
      exact first g
    · obtain ⟨c, rest, more⟩ := List.exists_cons_of_ne_nil (hex_ne_nil g)
      have head := first g
      rw [more] at head
      rw [join_cons g last, more]
      exact head

theorem single_join (gs : List Nat) : Single (join gs) := by
  induction gs with
  | nil => exact .nil
  | cons g gs ih =>
    have first : Single (hex g) := single_of_absent (colon_not_mem_hex g)
    by_cases last : gs = []
    · rwa [last, join_singleton]
    · rw [join_cons g last]
      refine List.isChain_append.mpr ⟨first, List.isChain_cons.mpr ⟨?_, ih⟩, ?_⟩
      · exact fun d head both => head_join gs (both.2 ▸ head)
      · exact fun d ends _ _ both => getLast_hex g (both.1 ▸ ends)

variable {gs left right : List Nat}

/-- Eight groups are read from the text that joins them, and no address from another number of groups. -/
theorem parse_join (range : ∀ g ∈ gs, g < 2 ^ 16) : parse (join gs) = if gs.length = 8 then some gs else none := by
  rw [parse, cut_of_single (single_join gs), side_join, groups_hex range]
  by_cases eight : gs.length = 8
  · simp [Option.filter, eight]
  · simp [Option.filter, eight]

/-- The groups that `::` stands for. -/
theorem parse_compressed (rangeL : ∀ g ∈ left, g < 2 ^ 16) (rangeR : ∀ g ∈ right, g < 2 ^ 16)
    (fits : left.length + right.length ≤ 7) :
    parse (join left ++ ':' :: ':' :: join right) =
      some (left ++ List.replicate (8 - left.length - right.length) 0 ++ right) := by
  rw [parse, cut_append (single_join left) (getLast_join left)]
  simp only [side_join, mapM_group_hex rangeL, groups_hex rangeR, Option.bind_eq_bind, Option.bind_some, if_pos fits]

/-- A second `::` at the end is an error. -/
theorem parse_twice : parse (join left ++ ':' :: ':' :: (join right ++ [':', ':'])) = none := by
  have empty : [] ∈ side (join right ++ [':', ':']) := by
    rw [side, if_neg (by simp), List.splitOn_append_cons_self]
    exact List.mem_append_right _ (by decide)
  rw [parse, cut_append (single_join left) (getLast_join left)]
  simp only [groups_of_empty empty]
  cases (side (join left)).mapM group <;> rfl

end Inet
