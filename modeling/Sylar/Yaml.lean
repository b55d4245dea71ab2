import Mathlib.Data.List.Basic

/-! The nodes of `yaml-cpp` as the configuration uses them. -/

namespace Sylar
namespace YAML

/-- A node tree. The keys of a map are kept as what `Scalar()` gives for them. -/
inductive Node
  | Null
  | Scalar (text : String)
  | Sequence (items : List Node)
  | Map (entries : List (String × Node))

namespace Node

/-- `node.push_back(item)`; it throws on a scalar and on a map. -/
def push_back (node item : Node) : Option Node :=
  match node with
  | Null => some (.Sequence [item])
  | Sequence items => some (.Sequence (items ++ [item]))
  | _ => none

/-- The value under a key, and where there is none `value` as a new entry. -/
def assign (key : String) (value : Node) : List (String × Node) → List (String × Node)
  | [] => [(key, value)]
  | entry :: rest => if entry.1 = key then (key, value) :: rest else entry :: assign key value rest

theorem assign_of_absent {key : String} {value : Node} {entries : List (String × Node)}
    (absent : key ∉ entries.map Prod.fst) : assign key value entries = entries ++ [(key, value)] := by
  induction entries with
  | nil => rfl
  | cons entry rest ih =>
    rw [List.map_cons, List.mem_cons, not_or] at absent
    rw [assign, if_neg (Ne.symm absent.1), ih absent.2, List.cons_append]

/-- `node[key] = value`; nodes that are neither null nor a map are left out. -/
def set (node : Node) (key : String) (value : Node) : Option Node :=
  match node with
  | Null => some (.Map [(key, value)])
  | Map entries => some (.Map (assign key value entries))
  | _ => none

def size : Node → Nat
  | Sequence items => items.length
  | Map entries => entries.length
  | _ => 0

/-- `node[i]`; an index is looked up in a sequence only. -/
def at? (node : Node) (i : Nat) : Option Node :=
  match node with
  | Sequence items => items[i]?
  | _ => none

/-- `node[key]` for reading: it throws on a scalar, and the inner `none` is a node that is not defined. -/
def get (node : Node) (key : String) : Option (Option Node) :=
  match node with
  | Scalar _ => none
  | Map entries => some (entries.lookup key)
  | _ => some none

/-- From `node.begin()` to `node.end()`, with `first.Scalar()`: the items of a sequence have no `first`. -/
def entries : Node → Option (List (String × Node))
  | Map entries => some entries
  | Sequence (_ :: _) => none
  | _ => some []

/-- `node.as<std::string>()` -/
def asString : Node → Option String
  | Scalar text => some text
  | _ => none

/-- The node that has the items, pushed one after the other or none at all. -/
inductive Holds : Node → List Node → Prop
  | null : Holds .Null []
  | sequence {items} : Holds (.Sequence items) items

end Node

variable {β : Type}

/-- The loop `for(size_t i=0; i<node.size(); ++i)`. -/
def forEach (node : Node) (body : β → Node → Option β) (start : β) : Option β :=
  (List.range node.size).foldlM (fun vec i => (node.at? i).bind (body vec)) start

/-- The loop over the indices behind those of `before`. -/
theorem foldlM_range' {α : Type} (before l : List α) (body : β → α → Option β) (start : β) :
    (List.range' before.length l.length).foldlM (fun b i => (before ++ l)[i]?.bind (body b)) start =
      l.foldlM body start := by
  induction l generalizing before start with
  | nil => rfl
  | cons x l ih =>
    have here : (before ++ x :: l)[before.length]? = some x := by simp
    rw [List.length_cons, List.range'_succ, List.foldlM_cons, List.foldlM_cons, here, Option.bind_some]
    refine congrArg (Option.bind (body start x)) (funext fun b => ?_)
    have next := ih (before ++ [x]) b
    rwa [List.append_assoc, List.singleton_append, List.length_append] at next

/-- The loop goes through the items. -/
theorem Node.Holds.forEach {node : Node} {items : List Node} (holds : node.Holds items) (body : β → Node → Option β)
    (start : β) : forEach node body start = items.foldlM body start := by
  cases holds with
  | null => rfl
  | sequence =>
    rw [YAML.forEach, Node.size, List.range_eq_range']
    exact foldlM_range' [] items body start

section
variable {α ω : Type}

/-- A loop that pushes one node for each value. -/
theorem foldlM_push_back {body : Node → α → Option Node} {vs : List α} {nodes acc : List Node}
    (pushes : List.Forall₂ (fun v n => ∀ node, body node v = node.push_back n) vs nodes) :
    vs.foldlM body (.Sequence acc) = some (.Sequence (acc ++ nodes)) := by
  induction pushes generalizing acc with
  | nil => rw [List.append_nil]; rfl
  | @cons v n vs nodes first _ ih =>
    rw [List.foldlM_cons, first]
    exact (@ih (acc ++ [n])).trans (by rw [List.append_assoc, List.singleton_append])

theorem foldlM_push_back_null {body : Node → α → Option Node} {vs : List α} {nodes : List Node}
    (pushes : List.Forall₂ (fun v n => ∀ node, body node v = node.push_back n) vs nodes) :
    ∃ node, vs.foldlM body .Null = some node ∧ node.Holds nodes := by
  cases pushes with
  | nil => exact ⟨.Null, rfl, .null⟩
  | @cons v n vs nodes first others =>
    refine ⟨.Sequence (n :: nodes), ?_, .sequence⟩
    rw [List.foldlM_cons, first]
    exact foldlM_push_back others

/-- A loop that inserts one element for each item. -/
theorem foldlM_insert {body : β → α → Option β} {insert : β → ω → β} {items : List α} {ws : List ω}
    (inserts : List.Forall₂ (fun x w => ∀ vec, body vec x = some (insert vec w)) items ws) (start : β) :
    items.foldlM body start = some (ws.foldl insert start) := by
  induction inserts generalizing start with
  | nil => rfl
  | @cons x w items ws first _ ih =>
    rw [List.foldlM_cons, List.foldl_cons, first]
    exact ih (insert start w)

end

/-- `YAML::Load`, which throws on a text that is not YAML, and `<<` of a node to a stream. -/
structure Cpp where
  Load : String → Option Node
  emit : Node → String

/-- A text that has been emitted is loaded as the node it came from. -/
def Cpp.Inverse (yaml : Cpp) : Prop := ∀ node, yaml.Load (yaml.emit node) = some node

end YAML
end Sylar
