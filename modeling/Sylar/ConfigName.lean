import Sylar.ConfigLoad

/-! `Config::Lookup` of a new name, and the files that set the variable. -/

namespace Sylar
namespace Config
open YAML

/-- The characters that `find_first_not_of` is given. -/
def alphabet : List Char := "abcdefghijklmnopqrstuvwxyz._012345678".toList

/-- `Lookup(name, default_value, description)`: `none` where it throws `std::invalid_argument`, and otherwise
the variables and what is returned, which is no variable where the name belongs to another type. -/
def Lookup (type : ConfigType) (name : String) (default_value : type.T) (description : String)
    (datas : ConfigVarMap) : Option (ConfigVarMap × Option ConfigVarBase) :=
  match datas name with
  | some it => some (datas, if it.type.name = type.name then some it else none)
  | none =>
    if name.toList.any fun c => !alphabet.contains c then none
    else
      let v := ConfigVarBase.new type name default_value description
      some (Function.update datas name (some v), some v)

/-- What the comment allows in a name: lowercase letters, digits, dots and underscores. -/
def WellFormed (name : String) : Prop :=
  ∀ c ∈ name.toList, c.isLower = true ∨ c.isDigit = true ∨ c = '.' ∨ c = '_'

/-- A map in a map for each key, with a node under the last. -/
def nested (leaf : Node) : List String → Node
  | [] => leaf
  | key :: keys => .Map [(key, nested leaf keys)]

/-- The keys spell a name that is cut at some of its dots. -/
def Spells (keys : List String) (name : String) : Prop :=
  (∀ key ∈ keys, key ≠ "") ∧ ".".intercalate (keys.map String.toLower) = name

/-- The name can be given to a variable, and each file that spells it with a text that can be converted sets
this variable. -/
def Usable (datas : ConfigVarMap) (type : ConfigType) (name : String) (default_value : type.T)
    (description : String) : Prop :=
  ∃ datas', Lookup type name default_value description datas =
      some (datas', some (.new type name default_value description)) ∧
    datas' name = some (.new type name default_value description) ∧
    ∀ yaml keys text v, Spells keys name → type.FromStr text = some v →
      ∃ w, (ConfigVarBase.new type name default_value description).Takes v w ∧
        LoadFromYaml yaml (nested (.Scalar text) keys) datas' name =
          some ((ConfigVarBase.new type name default_value description).set w)

theorem below_of_ne {pre : String} (nonempty : pre ≠ "") (key : String) : below pre key = pre ++ "." ++ key :=
  if_neg fun empty => nonempty (String.isEmpty_iff.mp empty)

theorem foldl_below {pre : String} (nonempty : pre ≠ "") (keys : List String) :
    keys.foldl below pre = ".".intercalate (pre :: keys) := by
  induction keys generalizing pre with
  | nil => rw [List.foldl_nil, String.intercalate_singleton]
  | cons key keys ih =>
    have longer : pre ++ "." ++ key ≠ "" := by
      intro empty
      exact nonempty (String.append_eq_empty_iff.mp (String.append_eq_empty_iff.mp empty).1).1
    rw [List.foldl_cons, below_of_ne nonempty, ih longer, String.intercalate_cons_append,
      String.intercalate_cons_cons]

/-- The path of keys that are not empty is the name that they spell. -/
theorem path_eq {keys : List String} (nonempty : ∀ key ∈ keys, key ≠ "") : path keys = ".".intercalate keys := by
  cases keys with
  | nil => rfl
  | cons key keys => exact foldl_below (nonempty key List.mem_cons_self) keys

theorem toLower_append (s t : String) : (s ++ t).toLower = s.toLower ++ t.toLower := by
  have lower : ∀ text : String, text.toLower = text.map Char.toLower := fun _ => rfl
  apply String.toList_injective
  simp only [lower, String.toList_map, String.toList_append, List.map_append]

theorem toLower_intercalate (keys : List String) :
    (".".intercalate keys).toLower = ".".intercalate (keys.map String.toLower) := by
  have dot : ".".toLower = "." := by decide +kernel
  induction keys with
  | nil => decide +kernel
  | cons key keys ih =>
    cases keys with
    | nil => rw [List.map_singleton, String.intercalate_singleton, String.intercalate_singleton]
    | cons next keys =>
      rw [String.intercalate_cons_cons, toLower_append, toLower_append, dot, ih]
      simp only [List.map_cons, String.intercalate_cons_cons]

theorem Spells.path {keys : List String} {name : String} (spells : Spells keys name) :
    (path keys).toLower = name := by
  rw [path_eq spells.1, toLower_intercalate, spells.2]

theorem length_below {key : String} (nonempty : key ≠ "") (pre : String) : pre.length < (below pre key).length := by
  have some : 0 < key.length := Nat.pos_of_ne_zero fun zero => nonempty (String.length_eq_zero_iff.mp zero)
  by_cases empty : pre = ""
  · subst empty
    exact some
  · rw [below_of_ne empty, String.length_append, String.length_append]
    omega

/-- The prefixes on the way to the leaf grow. -/
theorem pairwise_nested {leaf : Node} (scalar : members leaf = [([], leaf)]) {keys : List String}
    (nonempty : ∀ key ∈ keys, key ≠ "") (pre : String) :
    ((members (nested leaf keys)).map fun m => (m.1.foldl below pre).length).Pairwise (· < ·) ∧
      ∀ m ∈ members (nested leaf keys), pre.length ≤ (m.1.foldl below pre).length := by
  induction keys generalizing pre with
  | nil =>
    rw [nested, scalar]
    refine ⟨List.pairwise_singleton .., fun m member => ?_⟩
    rw [List.mem_singleton.mp member]
    exact Nat.le_refl _
  | cons key keys ih =>
    have longer := length_below (nonempty key List.mem_cons_self) pre
    obtain ⟨sorted, above⟩ := ih (fun k member => nonempty k (List.mem_cons_of_mem _ member)) (below pre key)
    have members_eq : members (nested leaf (key :: keys)) = ([], nested leaf (key :: keys)) ::
        (members (nested leaf keys)).map fun m => (key :: m.1, m.2) := by
      rw [nested, members, membersOf, membersOf, List.append_nil]
    rw [members_eq]
    refine ⟨?_, fun m member => ?_⟩
    · rw [List.map_cons, List.map_map]
      refine List.pairwise_cons.mpr ⟨fun n member => ?_, sorted⟩
      obtain ⟨m, there, rfl⟩ := List.mem_map.mp member
      exact Nat.lt_of_lt_of_le longer (above m there)
    · rcases List.mem_cons.mp member with rfl | inTail
      · exact Nat.le_refl _
      · obtain ⟨n, there, rfl⟩ := List.mem_map.mp inTail
        exact Nat.le_trans (Nat.le_of_lt longer) (above n there)

theorem mem_nested {leaf : Node} (scalar : members leaf = [([], leaf)]) (keys : List String) :
    (keys, leaf) ∈ members (nested leaf keys) := by
  induction keys with
  | nil =>
    rw [nested, scalar]
    exact List.mem_singleton.mpr rfl
  | cons key keys ih =>
    rw [nested, members, membersOf, membersOf, List.append_nil]
    exact List.mem_cons_of_mem _ (List.mem_map.mpr ⟨_, ih, rfl⟩)

theorem paths_nested {leaf : Node} (scalar : members leaf = [([], leaf)]) {keys : List String}
    (nonempty : ∀ key ∈ keys, key ≠ "") : (paths (nested leaf keys)).Nodup := by
  have lengths := (pairwise_nested scalar nonempty "").1
  rw [List.pairwise_map] at lengths
  refine List.Nodup.filter _ (List.pairwise_map.mpr (lengths.imp fun {m n} shorter same => ?_))
  have lower : ∀ m : List String × Node, (nameOf m).length = (path m.1).length := fun m => String.length_map
  have same' := congrArg String.length same
  rw [lower, lower] at same'
  exact absurd same' (Nat.ne_of_lt shorter)

/-- A file that spells a name loads its leaf into the variable of that name. -/
theorem LoadFromYaml_nested {yaml : Cpp} {keys : List String} {name text : String} {datas : ConfigVarMap}
    {base : ConfigVarBase} (spells : Spells keys name) (nonempty : name ≠ "") (registered : datas name = some base) :
    LoadFromYaml yaml (nested (.Scalar text) keys) datas name = some (base.fromString text) := by
  have named : nameOf (keys, .Scalar text) = name := spells.path
  have distinct : (paths (nested (.Scalar text) keys)).Nodup := paths_nested rfl spells.1
  have loaded : LoadFromYaml yaml (nested (.Scalar text) keys) datas (nameOf (keys, .Scalar text)) = _ :=
    LoadFromYaml_of_mem distinct (mem_nested rfl keys) (named ▸ nonempty) datas
  rw [named, registered] at loaded
  exact loaded

/-- The literal has the characters of the comment but for one digit. -/
theorem mem_alphabet {c : Char} (formed : c.isLower = true ∨ c.isDigit = true ∨ c = '.' ∨ c = '_') :
    c ∈ alphabet ↔ c ≠ '9' := by
  have each : ∀ n < 128, ((Char.ofNat n).isLower = true ∨ (Char.ofNat n).isDigit = true ∨ Char.ofNat n = '.' ∨
      Char.ofNat n = '_') → (Char.ofNat n ∈ alphabet ↔ Char.ofNat n ≠ '9') := by decide +kernel
  have ascii : c.toNat < 128 := by
    rcases formed with lower | digit | rfl | rfl
    · have bounds : 'a'.val ≤ c.val ∧ c.val ≤ 'z'.val := by simpa using (Bool.and_eq_true ..).mp lower
      exact Nat.lt_of_le_of_lt (UInt32.le_iff_toNat_le.mp bounds.2) (by decide)
    · exact Nat.lt_of_le_of_lt (Char.isDigit_iff_toNat.mp digit).2 (by decide)
    · decide
    · decide
  have same : Char.ofNat c.toNat = c := Char.ofNat_toNat c
  have chosen := each c.toNat ascii
  rw [same] at chosen
  exact chosen formed

/-- A well-formed name that is not registered can be used exactly when it has no `9`. -/
theorem usable_iff {datas : ConfigVarMap} {name : String} (type : ConfigType) (default_value : type.T)
    (description : String) (formed : WellFormed name) (nonempty : name ≠ "") (unregistered : datas name = none) :
    Usable datas type name default_value description ↔ '9' ∉ name.toList := by
  constructor
  · rintro ⟨datas', created, -⟩ nine
    have refused : (name.toList.any fun c => !alphabet.contains c) = true :=
      List.any_eq_true.mpr ⟨'9', nine, by decide +kernel⟩
    rw [Lookup, unregistered] at created
    simp only [refused, if_true] at created
    cases created
  · intro noNine
    have accepted : (name.toList.any fun c => !alphabet.contains c) = false := by
      rw [List.any_eq_false]
      intro c member
      have other : c ≠ '9' := fun nine => noNine (nine ▸ member)
      simpa using (mem_alphabet (formed c member)).mpr other
    have registered : Function.update datas name (some (.new type name default_value description)) name =
        some (.new type name default_value description) := Function.update_self ..
    refine ⟨_, ?_, registered, ?_⟩
    · rw [Lookup, unregistered]
      exact if_neg (Bool.eq_false_iff.mp accepted)
    · intro yaml keys text v spells converted
      have silent : (ConfigVarBase.new type name default_value description).var.m_cbs = [] := rfl
      obtain ⟨w, takes, stored⟩ := ConfigVarBase.fromString_of_converts silent converted
      exact ⟨w, takes, by rw [LoadFromYaml_nested spells nonempty registered, stored]⟩

theorem usable_iff_port : Usable (fun _ => none) .string "tcp.port_8" "" "" ↔ '9' ∉ "tcp.port_8".toList :=
  usable_iff .string "" "" (by simp [WellFormed]) (by decide) rfl

theorem not_usable_nine : WellFormed "log9" ∧ ¬ Usable (fun _ => none) .string "log9" "" "" := by
  refine ⟨by simp [WellFormed], ?_⟩
  rintro ⟨datas', created, -⟩
  have refused : Lookup .string "log9" "" "" (fun _ => none) = none := by
    unfold Lookup
    exact if_pos (by decide +kernel)
  rw [refused] at created
  cases created

end Config
end Sylar
