import Mathlib
import Sylar.Lib.HashSet
import Sylar.Lib.OrderedSet
import Sylar.YamlText

/-! `LexicalCast` for the containers of the configuration: each level of a value is written as a text of
its own, which the level above loads again. -/

namespace Sylar
open YAML

/-- `LexicalCast<T, std::string>` and `LexicalCast<std::string, T>`, where `none` is an exception, and the
`operator==` of the type. -/
structure LexicalCast (T : Type) where
  toStr : T → Option String
  fromStr : String → Option T
  equal : T → T → Prop

/-- An `int`. -/
abbrev CInt := { i : Int // -2 ^ 31 ≤ i ∧ i < 2 ^ 31 }

/-- `boost::lexical_cast` between an `int` and a text. -/
structure Boost where
  ofInt : CInt → String
  toInt : String → Option CInt

namespace LexicalCast

variable {T C : Type}

/-- `std::set` and `std::map` in the order of `operator<`. -/
abbrev StdSet (T : Type) [LinearOrder T] := OrderedSet.Elements fun a b : T => decide (a < b)

abbrev StdMap (T : Type) := OrderedSet.Elements fun a b : String × T => decide (a.1 < b.1)

abbrev StdUnorderedSet (T : Type) [DecidableEq T] := HashSet.Elements fun a b : T => decide (a = b)

abbrev StdUnorderedMap (T : Type) := HashSet.Elements fun a b : String × T => decide (a.1 = b.1)

instance [LinearOrder T] : IsTrans T fun a b => decide (a < b) = true :=
  ⟨fun _ _ _ first second => by simpa using lt_trans (of_decide_eq_true first) (of_decide_eq_true second)⟩

instance : IsTrans (String × T) fun a b => decide (a.1 < b.1) = true :=
  ⟨fun _ _ _ first second => by simpa using lt_trans (of_decide_eq_true first) (of_decide_eq_true second)⟩

/-- Two pairs of a map are equal. -/
def equalPair (c : LexicalCast T) (a b : String × T) : Prop := a.1 = b.1 ∧ c.equal a.2 b.2

/-- Two hash tables are equal when they have one size and each element of the first is in the second. -/
def equalUnordered (equal : T → T → Prop) (a b : List T) : Prop :=
  a.length = b.length ∧ ∀ x ∈ a, ∃ y ∈ b, equal x y

section
variable (yaml : Cpp) (c : LexicalCast T)

/-- What the casts of the sequences share: the node to start with, the iteration, and the insertion. -/
def sequence (start : Node) (iterate : C → List T) (empty : C) (insert : C → T → C) (equal : C → C → Prop) :
    LexicalCast C where
  toStr v := do
    let node ← (iterate v).foldlM (fun node i => do node.push_back (← yaml.Load (← c.toStr i))) start
    return yaml.emit node
  fromStr v := do
    let node ← yaml.Load v
    forEach node (fun vec item => do return insert vec (← c.fromStr (yaml.emit item))) empty
  equal := equal

/-- What the casts of the maps share. -/
def mapping (iterate : C → List (String × T)) (empty : C) (insert : C → String × T → C) (equal : C → C → Prop) :
    LexicalCast C where
  toStr v := do
    let node ← (iterate v).foldlM (fun (node : Node) i => do node.set i.1 (← yaml.Load (← c.toStr i.2))) .Null
    return yaml.emit node
  fromStr v := do
    let node ← yaml.Load v
    (← node.entries).foldlM (fun vec it => do return insert vec (it.1, ← c.fromStr (yaml.emit it.2))) empty
  equal := equal

def int (boost : Boost) : LexicalCast CInt where
  toStr v := some (boost.ofInt v)
  fromStr v := boost.toInt v
  equal a b := a = b

def vector : LexicalCast (List T) :=
  c.sequence yaml (.Sequence []) id [] (fun vec x => vec ++ [x]) (List.Forall₂ c.equal)

def list : LexicalCast (List T) :=
  c.sequence yaml .Null id [] (fun vec x => vec ++ [x]) (List.Forall₂ c.equal)

def set [LinearOrder T] : LexicalCast (StdSet T) :=
  c.sequence yaml .Null (·.elems) .empty (·.insert ·) fun a b => List.Forall₂ c.equal a.elems b.elems

def unordered_set [DecidableEq T] : LexicalCast (StdUnorderedSet T) :=
  c.sequence yaml .Null (·.elems) .empty (·.insert ·) fun a b => equalUnordered c.equal a.elems b.elems

def map : LexicalCast (StdMap T) :=
  c.mapping yaml (·.elems) .empty (·.insert ·) fun a b => List.Forall₂ c.equalPair a.elems b.elems

def unordered_map : LexicalCast (StdUnorderedMap T) :=
  c.mapping yaml (·.elems) .empty (·.insert ·) fun a b => equalUnordered c.equalPair a.elems b.elems

end

/-- The types built from `int`, and whether they have an `operator<`. A set is built of elements that can be
compared, and a hash set, whose elements need a hash as well, of no more than these. -/
inductive Supported (yaml : Cpp) (boost : Boost) : Bool → {A : Type} → LexicalCast A → Prop
  | int : Supported yaml boost true (int boost)
  | vector {ordered} {A : Type} {c : LexicalCast A} : Supported yaml boost ordered c →
      Supported yaml boost ordered (c.vector yaml)
  | list {ordered} {A : Type} {c : LexicalCast A} : Supported yaml boost ordered c →
      Supported yaml boost ordered (c.list yaml)
  | set {A : Type} {c : LexicalCast A} [LinearOrder A] : Supported yaml boost true c →
      Supported yaml boost true (c.set yaml)
  | unordered_set {A : Type} {c : LexicalCast A} [DecidableEq A] : Supported yaml boost true c →
      Supported yaml boost false (c.unordered_set yaml)
  | map {ordered} {A : Type} {c : LexicalCast A} : Supported yaml boost ordered c →
      Supported yaml boost ordered (c.map yaml)
  | unordered_map {ordered} {A : Type} {c : LexicalCast A} : Supported yaml boost ordered c →
      Supported yaml boost false (c.unordered_map yaml)

/-- A value is written as the text of a node, and what is read from that text is equal to it. -/
def RoundTrips (yaml : Cpp) (c : LexicalCast T) : Prop :=
  ∀ v, ∃ node w, c.toStr v = some (yaml.emit node) ∧ c.fromStr (yaml.emit node) = some w ∧ c.equal w v

section Lists
variable {N : Type} {vs : List T} {ws : List T}

/-- What exists for each value exists for a list of them. -/
theorem forall₂_of_exists {P : T → N → Prop} {Q : N → T → Prop} {R : T → T → Prop}
    (each : ∀ v, ∃ n w, P v n ∧ Q n w ∧ R w v) (vs : List T) :
    ∃ ns ws, List.Forall₂ P vs ns ∧ List.Forall₂ Q ns ws ∧ List.Forall₂ R ws vs := by
  induction vs with
  | nil => exact ⟨[], [], .nil, .nil, .nil⟩
  | cons v vs ih =>
    obtain ⟨n, w, written, read, same⟩ := each v
    obtain ⟨ns, ws, others⟩ := ih
    exact ⟨n :: ns, w :: ws, .cons written others.1, .cons read others.2.1, .cons same others.2.2⟩

theorem foldl_push (ws vec : List T) : ws.foldl (fun vec x => vec ++ [x]) vec = vec ++ ws := by
  induction ws generalizing vec with
  | nil => exact (List.append_nil vec).symm
  | cons w ws ih => rw [List.foldl_cons, ih, List.append_assoc, List.singleton_append]

theorem equalUnordered_of_forall₂ {equal : T → T → Prop} (same : List.Forall₂ equal ws vs) :
    equalUnordered equal ws vs := by
  refine ⟨same.length_eq, ?_⟩
  induction same with
  | nil => exact nofun
  | cons first _ ih =>
    intro x member
    rcases List.mem_cons.mp member with rfl | inTail
    · exact ⟨_, List.mem_cons_self, first⟩
    · obtain ⟨y, there, equals⟩ := ih x inTail
      exact ⟨y, List.mem_cons_of_mem _ there, equals⟩

theorem eq_of_forall₂ {equal : T → T → Prop} (exactly : ∀ a b, equal a b → a = b)
    (same : List.Forall₂ equal ws vs) : ws = vs := by
  induction same with
  | nil => rfl
  | cons first _ ih => rw [exactly _ _ first, ih]

theorem keys_eq {P : String × T → String × N → Prop} {vs : List (String × T)} {ns : List (String × N)}
    (key : ∀ v n, P v n → v.1 = n.1) (same : List.Forall₂ P vs ns) : vs.map Prod.fst = ns.map Prod.fst := by
  induction same with
  | nil => rfl
  | cons first _ ih => rw [List.map_cons, List.map_cons, key _ _ first, ih]

end Lists

section Loops
variable {yaml : Cpp} {c : LexicalCast T}

/-- A sequence comes back when the elements do and inserting them in turn makes the container again. -/
theorem RoundTrips.sequence (inverse : yaml.Inverse) (trips : c.RoundTrips yaml) {start : Node}
    (starts : start = .Null ∨ start = .Sequence []) {iterate : C → List T} {empty : C} {insert : C → T → C}
    {equal : C → C → Prop}
    (rebuilds : ∀ v ws, List.Forall₂ c.equal ws (iterate v) → equal (ws.foldl insert empty) v) :
    (c.sequence yaml start iterate empty insert equal).RoundTrips yaml := by
  intro v
  have each : ∀ v, ∃ n w, (∀ node : Node, (do node.push_back (← yaml.Load (← c.toStr v))) = node.push_back n) ∧
      (∀ vec, (do return insert vec (← c.fromStr (yaml.emit n))) = some (insert vec w)) ∧ c.equal w v := by
    intro v
    obtain ⟨n, w, written, read, same⟩ := trips v
    exact ⟨n, w, fun node => by simp [written, inverse n], fun vec => by simp [read], same⟩
  obtain ⟨nodes, ws, pushes, inserts, same⟩ := forall₂_of_exists each (iterate v)
  have pushed : ∃ node, (iterate v).foldlM (fun (node : Node) i => do
      node.push_back (← yaml.Load (← c.toStr i))) start = some node ∧ node.Holds nodes := by
    rcases starts with rfl | rfl
    · exact foldlM_push_back_null pushes
    · exact ⟨_, foldlM_push_back pushes, .sequence⟩
  obtain ⟨node, pushed, holds⟩ := pushed
  refine ⟨node, ws.foldl insert empty, ?_, ?_, rebuilds v ws same⟩
  · simp only [LexicalCast.sequence, pushed]
    rfl
  · simp only [LexicalCast.sequence, inverse node]
    exact (holds.forEach _ empty).trans (foldlM_insert inserts empty)

/-- The entries that the encoder of a map makes, each under a key of its own. -/
theorem foldlM_set (inverse : yaml.Inverse) {vs : List (String × T)} {entries acc : List (String × Node)}
    (written : List.Forall₂ (fun v e => e.1 = v.1 ∧ c.toStr v.2 = some (yaml.emit e.2)) vs entries)
    (keys : ((acc ++ entries).map Prod.fst).Nodup) :
    vs.foldlM (fun (node : Node) i => do node.set i.1 (← yaml.Load (← c.toStr i.2))) (.Map acc) =
      some (.Map (acc ++ entries)) := by
  induction written generalizing acc with
  | nil => rw [List.append_nil]; rfl
  | @cons v e vs entries first _ ih =>
    have absent : e.1 ∉ acc.map Prod.fst := by
      intro there
      rw [List.map_append, List.nodup_append] at keys
      exact keys.2.2 _ there _ (List.mem_map_of_mem List.mem_cons_self) rfl
    have set : (do (Node.Map acc).set v.1 (← yaml.Load (← c.toStr v.2))) = some (Node.Map (acc ++ [e])) := by
      simp [first.2, inverse e.2, Node.set, ← first.1, Node.assign_of_absent absent]
    rw [← List.singleton_append, ← List.append_assoc] at keys
    rw [List.foldlM_cons, set]
    exact (ih keys).trans (by rw [List.append_assoc, List.singleton_append])

/-- The node that the encoder of a map makes has the entries in their order. -/
theorem foldlM_null (inverse : yaml.Inverse) {vs : List (String × T)} {entries : List (String × Node)}
    (written : List.Forall₂ (fun v e => e.1 = v.1 ∧ c.toStr v.2 = some (yaml.emit e.2)) vs entries)
    (keys : (vs.map Prod.fst).Nodup) :
    ∃ node, vs.foldlM (fun (node : Node) i => do node.set i.1 (← yaml.Load (← c.toStr i.2))) .Null = some node ∧
      node.entries = some entries := by
  rw [keys_eq (fun v e each => each.1.symm) written] at keys
  cases written with
  | nil => exact ⟨.Null, rfl, rfl⟩
  | @cons v e vs entries first others =>
    have set : (do Node.Null.set v.1 (← yaml.Load (← c.toStr v.2))) = some (Node.Map [e]) := by
      simp [first.2, inverse e.2, Node.set, ← first.1]
    refine ⟨.Map (e :: entries), ?_, rfl⟩
    rw [List.foldlM_cons, set]
    exact foldlM_set inverse others keys

/-- A map comes back when the values do and inserting the pairs in turn makes the container again. -/
theorem RoundTrips.mapping (inverse : yaml.Inverse) (trips : c.RoundTrips yaml) {iterate : C → List (String × T)}
    {empty : C} {insert : C → String × T → C} {equal : C → C → Prop}
    (keys : ∀ v, ((iterate v).map Prod.fst).Nodup)
    (rebuilds : ∀ v ws, List.Forall₂ c.equalPair ws (iterate v) → equal (ws.foldl insert empty) v) :
    (c.mapping yaml iterate empty insert equal).RoundTrips yaml := by
  intro v
  have each : ∀ p : String × T, ∃ (e : String × Node) (w : String × T),
      (e.1 = p.1 ∧ c.toStr p.2 = some (yaml.emit e.2)) ∧
      (∀ vec, (do return insert vec (e.1, ← c.fromStr (yaml.emit e.2))) = some (insert vec w)) ∧ c.equalPair w p := by
    intro p
    obtain ⟨node, w, written, read, same⟩ := trips p.2
    exact ⟨(p.1, node), (p.1, w), ⟨rfl, written⟩, fun vec => by simp [read], rfl, same⟩
  obtain ⟨entries, ws, written, inserts, same⟩ := forall₂_of_exists each (iterate v)
  obtain ⟨node, set, its⟩ := foldlM_null inverse written (keys v)
  refine ⟨node, ws.foldl insert empty, ?_, ?_, rebuilds v ws same⟩
  · simp only [LexicalCast.mapping, set]
    rfl
  · simp only [LexicalCast.mapping, inverse node]
    exact (congrArg (Option.bind · _) its).trans (foldlM_insert inserts empty)

end Loops

section Containers
variable {yaml : Cpp} {c : LexicalCast T}

theorem RoundTrips.vector (inverse : yaml.Inverse) (trips : c.RoundTrips yaml) : (c.vector yaml).RoundTrips yaml :=
  trips.sequence inverse (.inr rfl) fun v ws same => by rwa [foldl_push]

theorem RoundTrips.list (inverse : yaml.Inverse) (trips : c.RoundTrips yaml) : (c.list yaml).RoundTrips yaml :=
  trips.sequence inverse (.inl rfl) fun v ws same => by rwa [foldl_push]

theorem RoundTrips.set [LinearOrder T] (inverse : yaml.Inverse) (trips : c.RoundTrips yaml)
    (exactly : ∀ a b, c.equal a b → a = b) : (c.set yaml).RoundTrips yaml := by
  refine trips.sequence inverse (.inl rfl) fun v ws same => ?_
  have rebuilt : (ws.foldl OrderedSet.Elements.insert .empty).elems = ws :=
    OrderedSet.Elements.foldl_insert .empty (eq_of_forall₂ exactly same ▸ v.sorted)
  rwa [rebuilt]

theorem RoundTrips.unordered_set [DecidableEq T] (inverse : yaml.Inverse) (trips : c.RoundTrips yaml)
    (exactly : ∀ a b, c.equal a b → a = b) : (c.unordered_set yaml).RoundTrips yaml := by
  refine trips.sequence inverse (.inl rfl) fun v ws same => ?_
  have rebuilt : (ws.foldl HashSet.Elements.insert .empty).elems = ws :=
    HashSet.Elements.foldl_insert .empty (eq_of_forall₂ exactly same ▸ v.apart)
  rw [rebuilt]
  exact equalUnordered_of_forall₂ same

theorem RoundTrips.map (inverse : yaml.Inverse) (trips : c.RoundTrips yaml) : (c.map yaml).RoundTrips yaml := by
  have sorted : ∀ l : List (String × T), OrderedSet.Sorted (fun a b : String × T => decide (a.1 < b.1)) l ↔
      (l.map Prod.fst).Pairwise (· < ·) := by
    intro l
    simp only [OrderedSet.Sorted, decide_eq_true_eq, List.pairwise_map]
  refine trips.mapping inverse (fun v => ((sorted _).mp v.sorted).imp ne_of_lt) fun v ws same => ?_
  have keys := keys_eq (fun _ _ each => each.1) same
  have rebuilt : (ws.foldl OrderedSet.Elements.insert .empty).elems = ws :=
    OrderedSet.Elements.foldl_insert .empty ((sorted ws).mpr (keys ▸ (sorted _).mp v.sorted))
  rwa [rebuilt]

theorem RoundTrips.unordered_map (inverse : yaml.Inverse) (trips : c.RoundTrips yaml) :
    (c.unordered_map yaml).RoundTrips yaml := by
  have apart : ∀ l : List (String × T), l.Pairwise (fun a b => decide (a.1 = b.1) = false) ↔
      (l.map Prod.fst).Nodup := by
    intro l
    simp only [decide_eq_false_iff_not, List.Nodup, List.pairwise_map, ne_eq]
  refine trips.mapping inverse (fun v => (apart _).mp v.apart) fun v ws same => ?_
  have keys := keys_eq (fun _ _ each => each.1) same
  have rebuilt : (ws.foldl HashSet.Elements.insert .empty).elems = ws :=
    HashSet.Elements.foldl_insert .empty ((apart ws).mpr (keys ▸ (apart _).mp v.apart))
  rw [rebuilt]
  exact equalUnordered_of_forall₂ same

end Containers

/-- `boost::lexical_cast` reads the integers that it has written, and these are what a node of them is
emitted as. -/
structure Inverse (yaml : Cpp) (boost : Boost) : Prop where
  nodes : yaml.Inverse
  ints : ∀ i, boost.toInt (boost.ofInt i) = some i
  digits : ∀ i, yaml.emit (.Scalar (boost.ofInt i)) = boost.ofInt i

variable {yaml : Cpp} {boost : Boost} {ordered : Bool} {c : LexicalCast T}

/-- Equal values of a type with `operator<` are the same. -/
theorem Supported.exactly (supported : Supported yaml boost ordered c) (comparable : ordered = true) (a b : T)
    (equal : c.equal a b) : a = b := by
  induction supported with
  | int => exact equal
  | vector _ ih => exact eq_of_forall₂ (ih comparable) equal
  | list _ ih => exact eq_of_forall₂ (ih comparable) equal
  | set _ ih => exact OrderedSet.Elements.ext (eq_of_forall₂ (ih comparable) equal)
  | map _ ih =>
    exact OrderedSet.Elements.ext <|
      eq_of_forall₂ (fun p q each => Prod.ext each.1 (ih comparable p.2 q.2 each.2)) equal
  | unordered_set => cases comparable
  | unordered_map => cases comparable

theorem Supported.roundTrips (inverse : Inverse yaml boost) (supported : Supported yaml boost ordered c) :
    c.RoundTrips yaml := by
  induction supported with
  | int => exact fun v => ⟨.Scalar (boost.ofInt v), v, by rw [inverse.digits]; rfl, by
      rw [inverse.digits]; exact inverse.ints v, rfl⟩
  | vector _ ih => exact ih.vector inverse.nodes
  | list _ ih => exact ih.list inverse.nodes
  | set elements ih => exact ih.set inverse.nodes (elements.exactly rfl)
  | unordered_set elements ih => exact ih.unordered_set inverse.nodes (elements.exactly rfl)
  | map _ ih => exact ih.map inverse.nodes
  | unordered_map _ ih => exact ih.unordered_map inverse.nodes

/-- Every value of every supported type is read back from its text. -/
theorem fromStr_toStr (inverse : Inverse yaml boost) (supported : Supported yaml boost ordered c) (v : T) :
    ∃ text w, c.toStr v = some text ∧ c.fromStr text = some w ∧ c.equal w v := by
  obtain ⟨node, w, written, read, same⟩ := supported.roundTrips inverse v
  exact ⟨yaml.emit node, w, written, read, same⟩

/-- The digits of an `int`, and a sign. -/
def decimal (text : String) : Bool := text.toList.all fun c => c.isDigit || c == '-'

theorem decimal_repr (i : Int) : decimal i.repr = true := by
  have digits : ∀ n : Nat, ∀ c ∈ n.repr.toList, (c.isDigit || c == '-') = true := by
    intro n c member
    rw [Nat.toList_repr] at member
    rw [Nat.isDigit_of_mem_toDigits (by decide) (by decide) member]
    rfl
  cases i with
  | ofNat n => exact List.all_eq_true.mpr (digits n)
  | negSucc n =>
    have signed : (Int.negSucc n).repr = "-" ++ (n + 1).repr := rfl
    rw [decimal, signed, String.toList_append, List.all_append]
    exact Bool.and_eq_true_iff.mpr ⟨rfl, List.all_eq_true.mpr (digits (n + 1))⟩

/-- The texts of `[[], [5]]` and of its parts, and the integers. -/
def nestedTexts : Texts where
  written
    | .Null => some "~"
    | .Sequence [.Scalar "5"] => some "- 5"
    | .Sequence [.Null, .Sequence [.Scalar "5"]] => some "- ~\n-\n  - 5"
    | .Scalar text => if decimal text then some text else none
    | _ => none
  read text :=
    if text = "~" then some .Null
    else if text = "- 5" then some (.Sequence [.Scalar "5"])
    else if text = "- ~\n-\n  - 5" then some (.Sequence [.Null, .Sequence [.Scalar "5"]])
    else if decimal text then some (.Scalar text)
    else none
  reads := by
    intro n text written
    split at written
    · cases written
      rfl
    · cases written
      rfl
    · cases written
      rfl
    · split at written
      · rename_i text' other digits
        cases written
        have tilde : text ≠ "~" := fun same => absurd (same ▸ digits) (by decide)
        have five : text ≠ "- 5" := fun same => absurd (same ▸ digits) (by decide)
        have nested : text ≠ "- ~\n-\n  - 5" := fun same => absurd (same ▸ digits) (by decide)
        rw [if_neg tilde, if_neg five, if_neg nested, if_pos digits]
      · cases written
    · cases written
  apart text := by
    have digits : ¬ decimal ("#" ++ text) = true := by
      rw [decimal, String.toList_append, List.all_append]
      nofun
    rw [if_neg (Texts.coded_ne (by decide)), if_neg (Texts.coded_ne (by decide)),
      if_neg (Texts.coded_ne (by decide)), if_neg digits]

/-- `boost::lexical_cast` in decimal. -/
def decimals : Boost where
  ofInt i := i.val.repr
  toInt text := do
    let i ← text.toInt?
    if range : -2 ^ 31 ≤ i ∧ i < 2 ^ 31 then some ⟨i, range⟩ else none

theorem inverse_decimals : Inverse nestedTexts.cpp decimals := by
  refine ⟨nestedTexts.inverse, fun i => ?_, fun i => ?_⟩
  · have read : i.val.repr.toInt? = some i.val := Int.toInt?_repr i.val
    simp only [decimals, read]
    exact dif_pos i.property
  · have written : nestedTexts.written (.Scalar i.val.repr) = some i.val.repr := if_pos (decimal_repr i.val)
    change nestedTexts.emit (.Scalar i.val.repr) = i.val.repr
    rw [Texts.emit, written]
    rfl

/-- A vector of an empty list and of the list of 5. -/
theorem fromStr_toStr_nested : ∃ text w,
    ((int decimals).list nestedTexts.cpp |>.vector nestedTexts.cpp).toStr [[], [⟨5, by decide⟩]] = some text ∧
      ((int decimals).list nestedTexts.cpp |>.vector nestedTexts.cpp).fromStr text = some w ∧
      ((int decimals).list nestedTexts.cpp |>.vector nestedTexts.cpp).equal w [[], [⟨5, by decide⟩]] :=
  fromStr_toStr inverse_decimals (.vector (.list .int)) _

end LexicalCast
end Sylar
