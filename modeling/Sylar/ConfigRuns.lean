import Mathlib.Data.List.Induction
import Sylar.ConfigName

/-! The variables of the configuration over any history of lookups and files. -/

namespace Sylar

namespace ConfigVarBase

variable {base : ConfigVarBase}

theorem fromString_of_lawful {val : String} {v : base.type.T} (lawful : ∀ a b : base.type.T, (a == b) = true → a = b)
    (silent : base.var.m_cbs = []) (converted : base.type.FromStr val = some v) : base.fromString val = base.set v := by
  obtain ⟨w, takes, stored⟩ := fromString_of_converts silent converted
  have same : w = v := by
    rcases takes with same | ⟨found, same⟩
    · exact same
    · exact same.trans (lawful _ _ found).symm
  rw [stored, same]

/-- The last of the texts that can be converted is what counts. -/
theorem foldl_fromString (lawful : ∀ a b : base.type.T, (a == b) = true → a = b) (silent : base.var.m_cbs = [])
    (texts : List String) : texts.foldl fromString base =
      base.set ((texts.filterMap base.type.FromStr).getLast?.getD base.var.m_val) := by
  induction texts using List.reverseRecOn with
  | nil => rfl
  | append_singleton texts val ih =>
    rw [List.foldl_append, List.foldl_cons, List.foldl_nil, ih, List.filterMap_append]
    generalize texts.filterMap base.type.FromStr = earlier
    cases converted : base.type.FromStr val with
    | none =>
      have failed : (base.set (earlier.getLast?.getD base.var.m_val)).fromString val =
          base.set (earlier.getLast?.getD base.var.m_val) := fromString_of_fails converted
      rw [failed, List.filterMap_cons_none converted, List.filterMap_nil, List.append_nil]
    | some v =>
      have stored : (base.set (earlier.getLast?.getD base.var.m_val)).fromString val =
          (base.set (earlier.getLast?.getD base.var.m_val)).set v := fromString_of_lawful lawful silent converted
      rw [stored, List.filterMap_cons_some converted, List.filterMap_nil, List.getLast?_concat]
      rfl

end ConfigVarBase

namespace Config
open YAML

/-- What programs do with the configuration: `Lookup(name, default_value, description)`,
`LookupBase(name)->fromString(val)` where there is such a variable, and `LoadFromYaml(root)`. -/
inductive Op
  | Lookup (type : ConfigType) (name : String) (default_value : type.T) (description : String)
  | fromString (name val : String)
  | LoadFromYaml (root : Node)

def perform (yaml : Cpp) (datas : ConfigVarMap) : Op → ConfigVarMap
  | .Lookup type name default_value description =>
    match Lookup type name default_value description datas with
    | some (datas, _) => datas
    | none => datas
  | .fromString name val =>
    match LookupBase datas name with
    | some var => Function.update datas name (some (var.fromString val))
    | none => datas
  | .LoadFromYaml root => LoadFromYaml yaml root datas

/-- The name has none of the characters for which `Lookup` throws. -/
def Valid (name : String) : Prop := (name.toList.any fun c => !alphabet.contains c) = false

instance (name : String) : Decidable (Valid name) := inferInstanceAs (Decidable (_ = _))

/-- The variable that is made if the name is new. -/
def made (name : String) : Op → Option ConfigVarBase
  | .Lookup type n default_value description =>
    if n = name ∧ Valid n then some (.new type n default_value description) else none
  | _ => none

/-- The texts from which the variable of the name is read, in their order. -/
def texts (yaml : Cpp) (name : String) : Op → List String
  | .Lookup .. => []
  | .fromString n val => if n = name then [val] else []
  | .LoadFromYaml root =>
    if name = "" then [] else ((members root).filter fun m => nameOf m = name).map fun m => text yaml m.2

variable {yaml : Cpp} {name : String}

/-- What a file does to the variable under a name. -/
theorem LoadFromYaml_name (root : Node) (datas : ConfigVarMap) : LoadFromYaml yaml root datas name =
    (datas name).map fun base => (texts yaml name (.LoadFromYaml root)).foldl ConfigVarBase.fromString base := by
  have assigned : ∀ (ms : List (List String × Node)) (var : Option ConfigVarBase),
      ms.foldl (fun var m => assign yaml m var) var =
        var.map fun base => (ms.map fun m => text yaml m.2).foldl ConfigVarBase.fromString base := by
    intro ms
    induction ms with
    | nil =>
      intro var
      cases var <;> rfl
    | cons m ms ih =>
      intro var
      rw [List.foldl_cons, ih, assign, Option.map_map]
      rfl
  rw [LoadFromYaml_eq, Keyed.foldl_update, assigned, List.filter_filter]
  by_cases unnamed : name = ""
  · have none : ((members root).filter fun m => decide (nameOf m = name) && !(nameOf m).isEmpty) = [] := by
      rw [List.filter_eq_nil_iff]
      intro m _ both
      rw [Bool.and_eq_true, decide_eq_true_eq] at both
      rw [both.1, unnamed] at both
      exact absurd both.2 (by simp)
    rw [none, texts, if_pos unnamed]
    rfl
  · have same : ((members root).filter fun m => decide (nameOf m = name) && !(nameOf m).isEmpty) =
        (members root).filter fun m => nameOf m = name := by
      refine List.filter_congr fun m _ => ?_
      by_cases here : nameOf m = name
      · simp [here, unnamed]
      · simp [here]
    rw [same, texts, if_neg unnamed]

/-- What an operation does to a name depends on what is under this name only. -/
theorem perform_eq (datas : ConfigVarMap) (o : Op) : perform yaml datas o name =
    match datas name with
    | some base => some ((texts yaml name o).foldl ConfigVarBase.fromString base)
    | none => made name o := by
  cases o with
  | Lookup type n default_value description =>
    by_cases same : n = name
    · subst same
      rw [perform, Config.Lookup, made]
      cases registered : datas n with
      | some it => exact registered
      | none =>
        by_cases valid : Valid n
        · have accepted : ¬ (n.toList.any fun c => !alphabet.contains c) = true := Bool.eq_false_iff.mp valid
          simp only [if_neg accepted, Function.update_self]
          exact (if_pos ⟨trivial, valid⟩).symm
        · have refused : (n.toList.any fun c => !alphabet.contains c) = true := Bool.not_eq_false _ ▸ valid
          simp only [if_pos refused, registered]
          exact (if_neg fun both => valid both.2).symm
    · have still : perform yaml datas (.Lookup type n default_value description) name = datas name := by
        rw [perform, Config.Lookup]
        cases datas n with
        | some it => rfl
        | none =>
          by_cases refused : (n.toList.any fun c => !alphabet.contains c) = true
          · simp only [if_pos refused]
          · simp only [if_neg refused]
            exact Function.update_of_ne (Ne.symm same) _ _
      rw [still]
      cases datas name with
      | some base => rfl
      | none => exact (if_neg fun both => same both.1).symm
  | fromString n val =>
    rw [perform, LookupBase, texts]
    by_cases same : n = name
    · subst same
      rw [if_pos rfl]
      cases registered : datas n with
      | some base => exact Function.update_self ..
      | none => exact registered
    · rw [if_neg same]
      have still : (match datas n with
          | some var => Function.update datas n (some (var.fromString val))
          | none => datas) name = datas name := by
        cases datas n with
        | some base => exact Function.update_of_ne (Ne.symm same) _ _
        | none => rfl
      rw [still]
      cases datas name <;> rfl
  | LoadFromYaml root =>
    rw [perform, LoadFromYaml_name]
    cases datas name <;> rfl

/-- As long as no operation makes the variable there is none. -/
theorem unregistered_of_run {os : List Op} {datas : ConfigVarMap} (none : datas name = none)
    (unmade : ∀ o ∈ os, made name o = .none) : os.foldl (perform yaml) datas name = .none := by
  induction os generalizing datas with
  | nil => exact none
  | cons o os ih =>
    obtain ⟨first, rest⟩ := List.forall_mem_cons.mp unmade
    refine ih ?_ rest
    rw [perform_eq, none]
    exact first

/-- Once there is a variable it is the same one for ever, and it is read from one text after the other. -/
theorem registered_of_foldl (yaml : Cpp) (os : List Op) {datas : ConfigVarMap} {base : ConfigVarBase}
    (registered : datas name = some base) :
    os.foldl (perform yaml) datas name =
      some ((os.flatMap (texts yaml name)).foldl ConfigVarBase.fromString base) := by
  induction os generalizing datas base with
  | nil => exact registered
  | cons o os ih =>
    have next : perform yaml datas o name = some ((texts yaml name o).foldl ConfigVarBase.fromString base) := by
      rw [perform_eq, registered]
    rw [List.foldl_cons, ih next, List.flatMap_cons, List.foldl_append]

/-- The configuration is a product of independent registers. Over any history of lookups, assignments and files there
is a variable under a name if and only if some `Lookup` of the name is accepted; the first one of these decides its
type, its description and its default, and from then on its value is the conversion of the last text for its name that
can be converted, whatever happens to other names; a `Lookup` of the name under another type finds no variable and
changes nothing. -/
theorem registered_of_run (yaml : Cpp) (os : List Op) (name : String) :
    ((∀ o ∈ os, made name o = none) → os.foldl (perform yaml) (fun _ => none) name = none) ∧
      ∀ before type default_value description after,
        os = before ++ .Lookup type name default_value description :: after → (∀ o ∈ before, made name o = none) →
        Valid name → (∀ a b : type.T, (a == b) = true → a = b) →
        ∃ var, var = (ConfigVarBase.new type name default_value description).set
            (((after.flatMap (texts yaml name)).filterMap type.FromStr).getLast?.getD default_value) ∧
          os.foldl (perform yaml) (fun _ => none) name = some var ∧
          ∀ type' other text, Lookup type' name other text (os.foldl (perform yaml) fun _ => none) =
            some (os.foldl (perform yaml) fun _ => none, if type.name = type'.name then some var else none) := by
  refine ⟨unregistered_of_run rfl, ?_⟩
  rintro before type default_value description after rfl unmade valid lawful
  have first : perform yaml (before.foldl (perform yaml) fun _ => none)
      (.Lookup type name default_value description) name = some (.new type name default_value description) := by
    rw [perform_eq, unregistered_of_run rfl unmade]
    exact if_pos ⟨rfl, valid⟩
  have last := registered_of_foldl yaml after first
  rw [ConfigVarBase.foldl_fromString lawful rfl] at last
  rw [List.foldl_append, List.foldl_cons]
  refine ⟨_, rfl, last, fun type' other text => ?_⟩
  rw [Lookup, last]
  rfl

/-- A file that assigns to the variable, and then another assignment. -/
theorem registered_of_run_string :
    [.Lookup .string "a.b" "x" "", .LoadFromYaml (.Map [("A", .Map [("b", .Scalar "1")])]), .fromString "a.b" "2"].foldl
      (perform ⟨fun _ => none, fun _ => ""⟩) (fun _ => none) "a.b" =
        some ((ConfigVarBase.new .string "a.b" "x" "").set "2") := by
  have run := registered_of_run ⟨fun _ => none, fun _ => ""⟩
    [.Lookup .string "a.b" "x" "", .LoadFromYaml (.Map [("A", .Map [("b", .Scalar "1")])]), .fromString "a.b" "2"] "a.b"
  obtain ⟨var, value, registered, -⟩ := run.2 [] .string "x" ""
    [.LoadFromYaml (.Map [("A", .Map [("b", .Scalar "1")])]), .fromString "a.b" "2"] rfl nofun (by decide +kernel)
    fun a b same => @eq_of_beq String _ _ a b same
  rw [registered, value]
  simp [texts, ConfigType.string]

end Config
end Sylar
