import Sylar.LexicalCast

/-! A vector of strings: each element is loaded as a document of its own, and what its node is emitted as is
what comes back. -/

namespace Sylar
open YAML

namespace LexicalCast

/-- `boost::lexical_cast` from `std::string` to itself. -/
def string : LexicalCast String where
  toStr v := some v
  fromStr v := some v
  equal a b := a = b

variable {yaml : Cpp}

/-- The elements that can be loaded give nodes, and where one cannot the cast throws. -/
theorem loads_or_throws (v : List String) (node : Node) :
    (∃ nodes, List.Forall₂ (fun s n => yaml.Load s = some n) v nodes) ∨
      v.foldlM (fun (node : Node) i => do node.push_back (← yaml.Load (← string.toStr i))) node = none := by
  induction v generalizing node with
  | nil => exact .inl ⟨[], .nil⟩
  | cons s v ih =>
    cases loaded : yaml.Load s with
    | none =>
      right
      simp [string, loaded]
    | some n =>
      have pushes : (do node.push_back (← yaml.Load (← string.toStr s))) = node.push_back n := by
        simp [string, loaded]
      rw [List.foldlM_cons, pushes]
      cases pushed : node.push_back n with
      | none => exact .inr rfl
      | some node' =>
        rcases ih node' with ⟨nodes, all⟩ | throws
        · exact .inl ⟨n :: nodes, .cons loaded all⟩
        · exact .inr throws

/-- What comes back is what the nodes are emitted as. -/
theorem fromStr_toStr_of_loads (inverse : yaml.Inverse) {v : List String} {nodes : List Node}
    (loads : List.Forall₂ (fun s n => yaml.Load s = some n) v nodes) :
    (do (string.vector yaml).fromStr (← (string.vector yaml).toStr v)) = some (nodes.map yaml.emit) := by
  have pushed : v.foldlM (fun (node : Node) i => do node.push_back (← yaml.Load (← string.toStr i)))
      (.Sequence []) = some (.Sequence nodes) :=
    foldlM_push_back (loads.imp fun s n loaded node => by simp [string, loaded])
  have written : (string.vector yaml).toStr v = some (yaml.emit (.Sequence nodes)) := by
    simp only [vector, sequence, id_eq, pushed]
    rfl
  have inserts : List.Forall₂ (fun n w => ∀ vec : List String,
      (do return vec ++ [← string.fromStr (yaml.emit n)]) = some (vec ++ [w])) nodes (nodes.map yaml.emit) :=
    List.forall₂_map_right_iff.mpr (List.forall₂_same.mpr fun n _ vec => rfl)
  have read : (string.vector yaml).fromStr (yaml.emit (.Sequence nodes)) = some (nodes.map yaml.emit) := by
    simp only [vector, sequence, inverse (.Sequence nodes)]
    refine (Node.Holds.sequence.forEach _ []).trans ((foldlM_insert inserts []).trans ?_)
    rw [foldl_push, List.nil_append]
  rw [written]
  exact read

/-- A vector of strings comes back exactly when each of its elements is what some node is emitted as. -/
theorem vector_string_iff (inverse : yaml.Inverse) (v : List String) :
    (do (string.vector yaml).fromStr (← (string.vector yaml).toStr v)) = some v ↔
      ∀ s ∈ v, ∃ node, yaml.emit node = s := by
  constructor
  · intro same s member
    rcases loads_or_throws v (.Sequence []) with ⟨nodes, loads⟩ | throws
    · rw [fromStr_toStr_of_loads inverse loads] at same
      cases same
      obtain ⟨node, -, emitted⟩ := List.mem_map.mp member
      exact ⟨node, emitted⟩
    · have unwritten : (string.vector yaml).toStr v = none := by
        simp only [vector, sequence, id_eq, throws]
        rfl
      rw [unwritten] at same
      cases same
  · intro emitted
    have loads : ∃ nodes, List.Forall₂ (fun s n => yaml.Load s = some n) v nodes ∧ nodes.map yaml.emit = v := by
      induction v with
      | nil => exact ⟨[], .nil, rfl⟩
      | cons s v ih =>
        obtain ⟨nodes, loads, texts⟩ := ih fun s member => emitted s (List.mem_cons_of_mem _ member)
        obtain ⟨node, text⟩ := emitted s List.mem_cons_self
        exact ⟨node :: nodes, .cons (text ▸ inverse node) loads, by rw [List.map_cons, text, texts]⟩
    obtain ⟨nodes, loads, texts⟩ := loads
    rw [fromStr_toStr_of_loads inverse loads, texts]

/-- The texts of `~`, of a word, and of the sequences of one of these. -/
def wordTexts : Texts where
  written
    | .Null => some "~"
    | .Scalar "a" => some "a"
    | .Sequence [.Null] => some "- ~"
    | .Sequence [.Scalar "a"] => some "- a"
    | _ => none
  read text :=
    if text = "~" then some .Null
    else if text = "a" then some (.Scalar "a")
    else if text = "- ~" then some (.Sequence [.Null])
    else if text = "- a" then some (.Sequence [.Scalar "a"])
    else none
  reads := by
    intro n text written
    split at written
    · cases written
      rfl
    · cases written
      rfl
    · cases written
      rfl
    · cases written
      rfl
    · cases written
  apart text := by
    rw [if_neg (Texts.coded_ne (by decide)), if_neg (Texts.coded_ne (by decide)),
      if_neg (Texts.coded_ne (by decide)), if_neg (Texts.coded_ne (by decide))]

/-- The empty text is a document too, and denotes null. -/
noncomputable def documents : Cpp where
  emit := wordTexts.cpp.emit
  Load text := if text = "" then some .Null else wordTexts.cpp.Load text

theorem inverse_documents : documents.Inverse := by
  intro node
  have nonempty : documents.emit node ≠ "" := by
    intro empty
    have emitted : (wordTexts.written node).getD ("#" ++ String.ofList (node.code [])) = "" := empty
    cases written : wordTexts.written node with
    | some text =>
      rw [written, Option.getD_some] at emitted
      rw [emitted] at written
      cases wordTexts.reads written
    | none =>
      rw [written, Option.getD_none] at emitted
      exact Texts.coded_ne (by decide) emitted
  exact (if_neg nonempty).trans (wordTexts.inverse node)

theorem vector_string_word : (do (string.vector documents).fromStr (← (string.vector documents).toStr ["a"])) =
    some ["a"] := by
  refine (vector_string_iff inverse_documents ["a"]).mpr fun s member => ⟨.Scalar "a", ?_⟩
  rw [List.mem_singleton.mp member]
  rfl

/-- An empty string comes back as a tilde. -/
theorem vector_string_empty : documents.Inverse ∧ documents.Load "" = some .Null ∧ documents.emit .Null = "~" ∧
    (do (string.vector documents).fromStr (← (string.vector documents).toStr [""])) ≠ some [""] := by
  have loads : documents.Load "" = some .Null := by simp only [documents, if_true]
  have tilde : documents.emit .Null = "~" := rfl
  refine ⟨inverse_documents, loads, tilde, ?_⟩
  rw [fromStr_toStr_of_loads inverse_documents (.cons loads .nil), List.map_singleton, tilde]
  decide

end LexicalCast
end Sylar
