import Mathlib.Data.List.Perm.Basic
import Sylar.Config
import Sylar.Lib.Keyed
import Sylar.Yaml

/-! `Config::LoadFromYaml`: the variables whose names are paths in a node tree are set from its nodes. -/

namespace Sylar

/-- What the configuration knows of a type: `typeid(T).name()`, `operator==`, and `LexicalCast` from a text,
where `none` is an exception. -/
structure ConfigType where
  name : String
  T : Type
  equal : BEq T
  FromStr : String → Option T

instance (type : ConfigType) : BEq type.T := type.equal

/-- `std::string`, for which `boost::lexical_cast` is a copy. -/
def ConfigType.string : ConfigType where
  name := "std::string"
  T := String
  equal := inferInstance
  FromStr := some

/-- A variable of any type, with its listeners. -/
structure ConfigVarBase where
  m_name : String
  m_description : String
  type : ConfigType
  var : ConfigVar type.T
  throws : Nat → type.T → type.T → Bool

namespace ConfigVarBase

/-- `new ConfigVar<T>(name, default_value, description)` -/
def new (type : ConfigType) (name : String) (default_value : type.T) (description : String) : ConfigVarBase where
  m_name := name.toLower
  m_description := description
  type := type
  var := { m_val := default_value, m_cbs := [], sorted := .nil }
  throws _ _ _ := false

def fromString (base : ConfigVarBase) (val : String) : ConfigVarBase :=
  { base with var := (base.var.fromString base.throws base.type.FromStr val).1 }

/-- The variable with another value. -/
def set (base : ConfigVarBase) (v : base.type.T) : ConfigVarBase :=
  { base with var := { base.var with m_val := v } }

/-- What a variable holds that is set to `v`: where `operator==` finds no difference, that is the value it
has had before. -/
def Takes (base : ConfigVarBase) (v w : base.type.T) : Prop :=
  w = v ∨ (v == base.var.m_val) = true ∧ w = base.var.m_val

variable {base : ConfigVarBase} {val : String}

theorem fromString_of_fails (failed : base.type.FromStr val = none) : base.fromString val = base := by
  rw [fromString, ConfigVar.fromString, failed]

theorem fromString_of_converts {v : base.type.T} (silent : base.var.m_cbs = [])
    (converted : base.type.FromStr val = some v) : ∃ w, base.Takes v w ∧ base.fromString val = base.set w := by
  have sets : base.var.fromString base.throws base.type.FromStr val = base.var.setValue base.throws v := by
    rw [ConfigVar.fromString, converted]
  by_cases same : (v == base.var.m_val) = true
  · refine ⟨base.var.m_val, .inr ⟨same, rfl⟩, ?_⟩
    rw [fromString, sets, ConfigVar.setValue, if_pos same]
    rfl
  · have told : ConfigVar.notify base.throws base.var.m_val v base.var.m_cbs = ([], true) := by
      rw [silent]
      rfl
    refine ⟨v, .inl rfl, ?_⟩
    rw [fromString, sets, ConfigVar.setValue, if_neg same, told]
    rfl

end ConfigVarBase

namespace YAML

mutual

/-- The nodes of a tree, each with the keys that lead to it. -/
def members : Node → List (List String × Node)
  | .Map entries => ([], .Map entries) :: membersOf entries
  | node => [([], node)]

def membersOf : List (String × Node) → List (List String × Node)
  | [] => []
  | (key, node) :: rest => (members node).map (fun m => (key :: m.1, m.2)) ++ membersOf rest

end

/-- The entries of the maps in a tree, wherever these are, change their places. -/
inductive Permuted : Node → Node → Prop
  | refl (node) : Permuted node node
  | trans {n m k} : Permuted n m → Permuted m k → Permuted n k
  | entries {es fs} : es.Perm fs → Permuted (.Map es) (.Map fs)
  | entry {before behind key n m} : Permuted n m →
      Permuted (.Map (before ++ (key, n) :: behind)) (.Map (before ++ (key, m) :: behind))
  | item {before behind n m} : Permuted n m →
      Permuted (.Sequence (before ++ n :: behind)) (.Sequence (before ++ m :: behind))

/-- The text of a scalar. -/
def Node.scalar? : Node → Option String
  | .Scalar text => some text
  | _ => none

theorem membersOf_eq (entries : List (String × Node)) :
    membersOf entries = entries.flatMap fun e => (members e.2).map fun m => (e.1 :: m.1, m.2) := by
  induction entries with
  | nil => rfl
  | cons entry rest ih => rw [membersOf, ih, List.flatMap_cons]

/-- The keys and the scalars of a permuted tree are the same in another order. -/
theorem Permuted.outline {n m : Node} (permuted : Permuted n m) :
    ((members n).map fun e => (e.1, e.2.scalar?)).Perm ((members m).map fun e => (e.1, e.2.scalar?)) := by
  induction permuted with
  | refl => exact .refl _
  | trans _ _ first second => exact first.trans second
  | entries perm =>
    rw [members, members, List.map_cons, List.map_cons, membersOf_eq, membersOf_eq]
    exact .cons _ ((perm.flatMap_right _).map _)
  | @entry before behind key n m _ ih =>
    have below := ih.map fun e => (key :: e.1, e.2)
    rw [List.map_map, List.map_map] at below
    simp only [members, List.map_cons, membersOf_eq, List.flatMap_append, List.flatMap_cons, List.map_append,
      List.map_map]
    exact .cons _ (.append_left _ (.append_right _ below))
  | item => exact .refl _

end YAML

namespace Config
open YAML

/-- `GetDatas()` -/
abbrev ConfigVarMap := String → Option ConfigVarBase

/-- The name of a key below a prefix. -/
def below (pre key : String) : String := if pre.isEmpty then key else pre ++ "." ++ key

mutual

/-- The nodes in the order in which they are put into `output`, each under its prefix. -/
def ListAllMember (pre : String) : Node → List (String × Node)
  | .Map entries => (pre, .Map entries) :: ListAllEntries pre entries
  | node => [(pre, node)]

def ListAllEntries (pre : String) : List (String × Node) → List (String × Node)
  | [] => []
  | (key, node) :: rest => ListAllMember (below pre key) node ++ ListAllEntries pre rest

end

def LookupBase (datas : ConfigVarMap) (name : String) : Option ConfigVarBase := datas name

/-- What a node is read from. -/
def text (yaml : Cpp) : Node → String
  | .Scalar text => text
  | node => yaml.emit node

/-- The body of the loop over `all_nodes`. -/
def loadNode (yaml : Cpp) (datas : ConfigVarMap) (i : String × Node) : ConfigVarMap :=
  let key := i.1.toLower
  if key.isEmpty then datas
  else
    match LookupBase datas key with
    | some var => Function.update datas key (some (var.fromString (text yaml i.2)))
    | none => datas

/-- The variables behind `LoadFromYaml(root)`. -/
def LoadFromYaml (yaml : Cpp) (root : Node) (datas : ConfigVarMap) : ConfigVarMap :=
  (ListAllMember "" root).foldl (loadNode yaml) datas

/-- The dotted path of a list of keys. -/
def path (keys : List String) : String := keys.foldl below ""

/-- The name under which a member is looked up. -/
def nameOf (m : List String × Node) : String := (path m.1).toLower

/-- The names under which the members of a tree are looked up. -/
def paths (root : Node) : List String :=
  ((members root).map nameOf).filter fun name => !name.isEmpty

mutual

/-- The prefix of a member is made of the keys that lead to it. -/
theorem ListAllMember_eq (pre : String) : ∀ node : Node,
    ListAllMember pre node = (members node).map fun m => (m.1.foldl below pre, m.2)
  | .Map entries => by
    rw [ListAllMember, members, List.map_cons, ListAllEntries_eq pre entries]
    rfl
  | .Null => rfl
  | .Scalar _ => rfl
  | .Sequence _ => rfl

theorem ListAllEntries_eq (pre : String) : ∀ entries : List (String × Node),
    ListAllEntries pre entries = (membersOf entries).map fun m => (m.1.foldl below pre, m.2)
  | [] => rfl
  | (key, node) :: rest => by
    rw [ListAllEntries, membersOf, List.map_append, List.map_map, ListAllMember_eq (below pre key) node,
      ListAllEntries_eq pre rest]
    rfl

end

variable {yaml : Cpp} {root : Node} {datas : ConfigVarMap}

/-- What a member does to the variable that it is for. -/
def assign (yaml : Cpp) (m : List String × Node) (var : Option ConfigVarBase) : Option ConfigVarBase :=
  var.map fun base => base.fromString (text yaml m.2)

theorem loadNode_eq (datas : ConfigVarMap) (m : List String × Node) :
    loadNode yaml datas (path m.1, m.2) =
      if (!(nameOf m).isEmpty) = true then Keyed.update nameOf (assign yaml) datas m else datas := by
  rw [loadNode, LookupBase, Keyed.update]
  by_cases unnamed : (nameOf m).isEmpty = true
  · rw [unnamed]
    exact if_pos unnamed
  · rw [Bool.eq_false_iff.mpr unnamed]
    refine (if_neg unnamed).trans ?_
    cases registered : datas (nameOf m) with
    | none =>
      have same : (none : Option ConfigVarBase) = datas (nameOf m) := registered.symm
      have left : Function.update datas (nameOf m) none = datas := Function.update_eq_self_iff.mpr same
      simp only [nameOf] at registered left
      rw [registered]
      exact left.symm
    | some base =>
      simp only [nameOf] at registered
      rw [registered]
      rfl

/-- The members that have a name are loaded in turn. -/
theorem LoadFromYaml_eq (yaml : Cpp) (root : Node) (datas : ConfigVarMap) :
    LoadFromYaml yaml root datas = ((members root).filter fun m => !(nameOf m).isEmpty).foldl
      (Keyed.update nameOf (assign yaml)) datas := by
  rw [LoadFromYaml, ListAllMember_eq, List.foldl_map, List.foldl_filter]
  exact congrArg (fun f => List.foldl f datas (members root)) (funext fun datas => funext (loadNode_eq datas))

/-- The names of a permuted tree are the same in another order. -/
theorem paths_perm {root' : Node} (permuted : Permuted root root') : (paths root).Perm (paths root') := by
  have named := permuted.outline.map fun e => (path e.1).toLower
  rw [List.map_map, List.map_map] at named
  exact named.filter _

theorem scalar_of_permuted {root' : Node} (permuted : Permuted root root') {keys : List String} {text : String}
    (member : (keys, .Scalar text) ∈ members root) : (keys, .Scalar text) ∈ members root' := by
  have there : (keys, some text) ∈ (members root').map fun e => (e.1, e.2.scalar?) :=
    permuted.outline.subset (List.mem_map.mpr ⟨_, member, rfl⟩)
  obtain ⟨⟨keys', node⟩, member', same⟩ := List.mem_map.mp there
  have sameKeys : keys' = keys := congrArg Prod.fst same
  have sameText : node.scalar? = some text := congrArg Prod.snd same
  subst sameKeys
  cases node with
  | Scalar text' =>
    cases sameText
    exact member'
  | Null => cases sameText
  | Sequence items => cases sameText
  | Map entries => cases sameText

/-- A variable is read from the only member of its name. -/
theorem LoadFromYaml_of_mem (distinct : (paths root).Nodup) {m : List String × Node} (member : m ∈ members root)
    (named : nameOf m ≠ "") (datas : ConfigVarMap) :
    LoadFromYaml yaml root datas (nameOf m) = assign yaml m (datas (nameOf m)) := by
  have keys : (((members root).filter fun m => !(nameOf m).isEmpty).map nameOf).Nodup := by
    rw [paths, List.filter_map] at distinct
    exact distinct
  rw [LoadFromYaml_eq]
  refine Keyed.foldl_update_of_mem keys (List.mem_filter.mpr ⟨member, ?_⟩) datas
  simpa using named

theorem LoadFromYaml_of_absent {name : String} (absent : name ∉ paths root) (datas : ConfigVarMap) :
    LoadFromYaml yaml root datas name = datas name := by
  rw [paths, List.filter_map] at absent
  rw [LoadFromYaml_eq]
  exact Keyed.foldl_update_of_absent absent datas

/-- Every variable without listeners that has the name of a scalar takes the conversion of that scalar or,
where there is none, keeps its value. One that has no such name stays as it is. What becomes of a variable
does not depend on the others, nor on the order of the entries. -/
theorem LoadFromYaml_frame (yaml : Cpp) (root : Node) (datas : ConfigVarMap)
    (silent : ∀ name base, datas name = some base → base.var.m_cbs = []) (distinct : (paths root).Nodup) :
    (∀ keys text base, (keys, .Scalar text) ∈ members root → (path keys).toLower ≠ "" →
      datas (path keys).toLower = some base →
      (base.type.FromStr text = none → LoadFromYaml yaml root datas (path keys).toLower = some base) ∧
      ∀ v, base.type.FromStr text = some v → ∃ w, base.Takes v w ∧
        LoadFromYaml yaml root datas (path keys).toLower = some (base.set w)) ∧
    (∀ name, name ∉ paths root → LoadFromYaml yaml root datas name = datas name) ∧
    (∀ datas' name, datas' name = datas name →
      LoadFromYaml yaml root datas' name = LoadFromYaml yaml root datas name) ∧
    ∀ root', Permuted root root' → ∀ keys text, (keys, .Scalar text) ∈ members root →
      LoadFromYaml yaml root' datas (path keys).toLower = LoadFromYaml yaml root datas (path keys).toLower := by
  refine ⟨?_, fun name absent => LoadFromYaml_of_absent absent datas, ?_, ?_⟩
  · intro keys text base member named registered
    have loaded : LoadFromYaml yaml root datas (path keys).toLower = some (base.fromString text) := by
      refine (LoadFromYaml_of_mem distinct member named datas).trans ?_
      rw [nameOf, registered]
      rfl
    refine ⟨fun failed => by rw [loaded, ConfigVarBase.fromString_of_fails failed], fun v converted => ?_⟩
    obtain ⟨w, takes, stored⟩ := ConfigVarBase.fromString_of_converts (silent _ base registered) converted
    exact ⟨w, takes, by rw [loaded, stored]⟩
  · intro datas' name same
    rw [LoadFromYaml_eq, LoadFromYaml_eq, Keyed.foldl_update, Keyed.foldl_update, same]
  · intro root' permuted keys text member
    have distinct' := (paths_perm permuted).nodup_iff.mp distinct
    by_cases named : nameOf (keys, .Scalar text) = ""
    · have unlisted : ∀ tree : Node, (path keys).toLower ∉ paths tree := by
        intro tree listed
        have nonempty := (List.mem_filter.mp listed).2
        rw [show (path keys).toLower = "" from named] at nonempty
        cases nonempty
      rw [LoadFromYaml_of_absent (unlisted root'), LoadFromYaml_of_absent (unlisted root)]
    · have there := scalar_of_permuted permuted member
      exact (LoadFromYaml_of_mem distinct' there named datas).trans
        (LoadFromYaml_of_mem distinct member named datas).symm

/-- A file that sets a string, with another case of letters. -/
theorem LoadFromYaml_frame_string :
    let base := ConfigVarBase.new .string "system.id" "none" ""
    ∃ w, base.Takes "7" w ∧ LoadFromYaml ⟨fun _ => none, fun _ => ""⟩ (.Map [("System", .Map [("ID", .Scalar "7")])])
      (fun name => if name = "system.id" then some base else none) "system.id" = some (base.set w) := by
  intro base
  have named : (path ["System", "ID"]).toLower = "system.id" := by decide +kernel
  have frame := LoadFromYaml_frame ⟨fun _ => none, fun _ => ""⟩ (.Map [("System", .Map [("ID", .Scalar "7")])])
    (fun name => if name = "system.id" then some base else none)
    (fun name other registered => by
      split at registered
      · cases registered
        rfl
      · cases registered)
    (by decide +kernel)
  have loaded := frame.1 ["System", "ID"] "7" base
  rw [named] at loaded
  exact (loaded (.tail _ (.tail _ (.head _))) (by decide) (if_pos rfl)).2 "7" rfl

end Config
end Sylar
