import Sylar.Yaml

/-! An emission of node trees that some `Load` inverts, with chosen texts for chosen nodes. -/

namespace Sylar
namespace YAML

/-- The characters of a text, each behind a mark, up to a stop. -/
def quote (r : List Char) : List Char → List Char
  | [] => '.' :: r
  | c :: text => '+' :: c :: quote r text

mutual

/-- A node in front of the rest. -/
def Node.code (r : List Char) : Node → List Char
  | .Null => '~' :: r
  | .Scalar text => '"' :: quote r text.toList
  | .Sequence items => '[' :: codeItems r items
  | .Map entries => '{' :: codeEntries r entries

def codeItems (r : List Char) : List Node → List Char
  | [] => ']' :: r
  | n :: items => n.code (codeItems r items)

def codeEntries (r : List Char) : List (String × Node) → List Char
  | [] => '}' :: r
  | (key, n) :: entries => '?' :: quote (n.code (codeEntries r entries)) key.toList

end

theorem quote_inj {text text' r r' : List Char} (same : quote r text = quote r' text') : text = text' ∧ r = r' := by
  induction text generalizing text' with
  | nil =>
    cases text' with
    | nil => exact ⟨rfl, (List.cons.inj same).2⟩
    | cons c text' => cases same
  | cons c text ih =>
    cases text' with
    | nil => cases same
    | cons d text' =>
      obtain ⟨head, tail⟩ := List.cons.inj (List.cons.inj same).2
      obtain ⟨rest, left⟩ := ih tail
      exact ⟨congrArg₂ List.cons head rest, left⟩

theorem code_head (n : Node) (r : List Char) : ∃ c tail, n.code r = c :: tail ∧ c ≠ ']' := by
  cases n with
  | Null => exact ⟨_, _, rfl, by decide⟩
  | Scalar text => exact ⟨_, _, rfl, by decide⟩
  | Sequence items => exact ⟨_, _, rfl, by decide⟩
  | Map entries => exact ⟨_, _, rfl, by decide⟩

mutual

/-- The code of a node tells where it ends. -/
theorem Node.code_inj : ∀ {n m : Node} {r r' : List Char}, n.code r = m.code r' → n = m ∧ r = r'
  | .Null, m, _, _, same => by
    cases m with
    | Null => exact ⟨rfl, (List.cons.inj same).2⟩
    | _ => cases same
  | .Scalar text, m, _, _, same => by
    cases m with
    | Scalar text' =>
      obtain ⟨texts, left⟩ := quote_inj (List.cons.inj same).2
      exact ⟨congrArg _ (String.toList_inj.mp texts), left⟩
    | _ => cases same
  | .Sequence items, m, _, _, same => by
    cases m with
    | Sequence items' =>
      obtain ⟨same, left⟩ := codeItems_inj (List.cons.inj same).2
      exact ⟨congrArg _ same, left⟩
    | _ => cases same
  | .Map entries, m, _, _, same => by
    cases m with
    | Map entries' =>
      obtain ⟨same, left⟩ := codeEntries_inj (List.cons.inj same).2
      exact ⟨congrArg _ same, left⟩
    | _ => cases same

theorem codeItems_inj : ∀ {items items' : List Node} {r r' : List Char},
    codeItems r items = codeItems r' items' → items = items' ∧ r = r'
  | [], [], _, _, same => ⟨rfl, (List.cons.inj same).2⟩
  | [], n :: items', r, r', same => by
    obtain ⟨c, tail, head, other⟩ := code_head n (codeItems r' items')
    exact absurd (List.cons.inj (same.trans head)).1.symm other
  | n :: items, [], r, r', same => by
    obtain ⟨c, tail, head, other⟩ := code_head n (codeItems r items)
    exact absurd (List.cons.inj (head.symm.trans same)).1 other
  | n :: items, n' :: items', _, _, same => by
    obtain ⟨first, rest⟩ := n.code_inj same
    obtain ⟨others, left⟩ := codeItems_inj rest
    exact ⟨congrArg₂ List.cons first others, left⟩

theorem codeEntries_inj : ∀ {entries entries' : List (String × Node)} {r r' : List Char},
    codeEntries r entries = codeEntries r' entries' → entries = entries' ∧ r = r'
  | [], [], _, _, same => ⟨rfl, (List.cons.inj same).2⟩
  | [], (_, _) :: _, _, _, same => by cases same
  | (_, _) :: _, [], _, _, same => by cases same
  | (key, n) :: entries, (key', n') :: entries', _, _, same => by
    obtain ⟨keys, rest⟩ := quote_inj (List.cons.inj same).2
    obtain ⟨first, rest⟩ := n.code_inj rest
    obtain ⟨others, left⟩ := codeEntries_inj rest
    rw [String.toList_inj.mp keys, first, others]
    exact ⟨rfl, left⟩

end

/-- Texts for some nodes, none of which begins as the code does. -/
structure Texts where
  written : Node → Option String
  read : String → Option Node
  reads : ∀ {n text}, written n = some text → read text = some n
  apart : ∀ text, read ("#" ++ text) = none

namespace Texts

theorem coded_ne {text other : String} (head : other.toList.head? ≠ some '#') : "#" ++ text ≠ other := by
  intro same
  have coded : ("#" ++ text).toList = '#' :: text.toList := String.toList_append ..
  rw [← same, coded] at head
  exact head rfl

def emit (t : Texts) (n : Node) : String := (t.written n).getD ("#" ++ String.ofList (n.code []))

open Classical in
/-- The chosen texts, and the code of all other nodes. -/
noncomputable def cpp (t : Texts) : Cpp where
  emit := t.emit
  Load text := if h : ∃ n, t.emit n = text then some h.choose else none

theorem emit_injective (t : Texts) {n m : Node} (same : t.emit n = t.emit m) : n = m := by
  have coded : ∀ {n m : Node} {text : String}, t.written n = some text → t.written m = none → t.emit n ≠ t.emit m := by
    intro n m text first second same
    simp only [emit, first, second, Option.getD_some, Option.getD_none] at same
    cases (t.reads first).symm.trans (same ▸ t.apart _)
  cases first : t.written n with
  | some text =>
    cases second : t.written m with
    | none => exact absurd same (coded first second)
    | some text' =>
      simp only [emit, first, second, Option.getD_some] at same
      exact Option.some.inj ((t.reads first).symm.trans (same ▸ t.reads second))
  | none =>
    cases second : t.written m with
    | some text' => exact absurd same.symm (coded second first)
    | none =>
      simp only [emit, first, second, Option.getD_none] at same
      have codes := String.ofList_injective ((String.append_right_inj "#").mp same)
      exact (Node.code_inj codes).1

theorem inverse (t : Texts) : t.cpp.Inverse := by
  intro n
  have emitted : ∃ m, t.emit m = t.emit n := ⟨n, rfl⟩
  have loads : t.cpp.Load (t.cpp.emit n) = some emitted.choose := dif_pos emitted
  rw [loads, t.emit_injective emitted.choose_spec]

end Texts
end YAML
end Sylar
