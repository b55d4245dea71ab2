import Mathlib.Data.List.TakeWhile

/-! `Address::Lookup`: how the host argument is split into the node and the service for `getaddrinfo`. -/

namespace Sylar
namespace Address

/-- What stands before and behind the first `c`, as `memchr` finds it. -/
def memchr (c : Char) : List Char → Option (List Char × List Char)
  | [] => none
  | x :: l => if x = c then some ([], l) else (memchr c l).map fun found => (x :: found.1, found.2)

theorem memchr_append {c : Char} {before : List Char} (first : c ∉ before) (behind : List Char) :
    memchr c (before ++ c :: behind) = some (before, behind) := by
  induction before with
  | nil => exact if_pos rfl
  | cons x before ih =>
    rw [List.mem_cons, not_or] at first
    rw [List.cons_append, memchr, if_neg (Ne.symm first.1), ih first.2]
    rfl

theorem memchr_of_absent {c : Char} {l : List Char} (absent : c ∉ l) : memchr c l = none := by
  induction l with
  | nil => rfl
  | cons x l ih =>
    rw [List.mem_cons, not_or] at absent
    rw [memchr, if_neg (Ne.symm absent.1), ih absent.2]
    rfl

/-- A text as `getaddrinfo` reads it, up to a NUL. -/
def c_str (text : List Char) : List Char := text.takeWhile (· ≠ '\x00')

theorem c_str_of_absent {text : List Char} (absent : '\x00' ∉ text) : c_str text = text := by
  rw [c_str, List.takeWhile_eq_self_iff]
  intro c member
  simpa using fun same : c = '\x00' => absent (same ▸ member)

/-- `node` and `service` behind the first search, for a host that begins with a bracket. -/
def endipv6 (host : List Char) : List Char × Option (List Char) :=
  if host.head? = some '[' then
    match memchr ']' host.tail with
    | some (node, behind) => (node, if behind.head? = some ':' then some behind.tail else none)
    | none => ([], none)
  else ([], none)

/-- `node` and `service` behind the second search, which starts at the second character. Where a colon comes
after the bracket that it finds, `service` is left at this bracket. -/
def nodeService (host : List Char) : List Char × Option (List Char) :=
  match memchr ']' host.tail with
  | some (before, behind) =>
    if ':' ∈ behind then ([], some (']' :: behind)) else (host.take 1 ++ before, some behind)
  | none => ([], none)

/-- The node and the service that are passed to `getaddrinfo`. -/
def arguments (host : List Char) : List Char × Option (List Char) :=
  let (node, service) := endipv6 host
  let (node, service) := if node.isEmpty then nodeService host else (node, service)
  let node := if node.isEmpty then host else node
  (c_str node, service.map c_str)

/-- The fields of `hints` that are set. -/
structure Hints where
  ai_family : Int
  ai_socktype : Int
  ai_protocol : Int

/-- `Lookup(result, host, family, type, protocol)`: `getaddrinfo` fails or gives the addresses, from which
`Create` makes what is put behind `result`. -/
def Lookup {S A : Type} (getaddrinfo : List Char → Option (List Char) → Hints → Option (List S)) (Create : S → A)
    (result : List A) (host : List Char) (family type protocol : Int) : Bool × List A :=
  match getaddrinfo (arguments host).1 (arguments host).2 ⟨family, type, protocol⟩ with
  | none => (false, result)
  | some results => (!(result ++ results.map Create).isEmpty, result ++ results.map Create)

/-- No brackets, and no NUL, which ends a text. -/
def Unbracketed (text : List Char) : Prop := '[' ∉ text ∧ ']' ∉ text ∧ '\x00' ∉ text

/-- No brackets and no colon. -/
def Plain (text : List Char) : Prop := Unbracketed text ∧ ':' ∉ text

/-- What a host argument means: a host name, with a service or without, or an IPv6 literal, which needs the
brackets in front of a service. -/
inductive Means : List Char → List Char × Option (List Char) → Prop
  | host {h} : Plain h → Means h (h, none)
  | hostService {h s} : Plain h → Plain s → Means (h ++ ':' :: s) (h, some s)
  | literal {v} : v ≠ [] → Unbracketed v → Means ('[' :: (v ++ [']'])) (v, none)
  | literalService {v s} : v ≠ [] → Unbracketed v → Plain s → Means ('[' :: (v ++ ']' :: ':' :: s)) (v, some s)
  | bare {v} : Unbracketed v → 2 ≤ v.count ':' → Means v (v, none)

/-- Without brackets the whole host is the node. -/
theorem arguments_of_unbracketed {host : List Char} (plain : Unbracketed host) : arguments host = (host, none) := by
  obtain ⟨opening, closing, nul⟩ := plain
  have first : endipv6 host = ([], none) := by
    refine if_neg fun bracket => opening ?_
    exact List.mem_of_mem_head? bracket
  have second : nodeService host = ([], none) := by
    rw [nodeService, memchr_of_absent fun member => closing (List.mem_of_mem_tail member)]
  simp only [arguments, first, List.isEmpty_nil, if_true, second, Option.map_none]
  rw [c_str_of_absent nul]

/-- A literal in brackets is the node, and what follows a colon behind it is the service. -/
theorem arguments_of_literal {v : List Char} (nonempty : v ≠ []) (plain : Unbracketed v) (behind : List Char) :
    arguments ('[' :: (v ++ ']' :: behind)) =
      (v, (if behind.head? = some ':' then some behind.tail else none).map c_str) := by
  obtain ⟨-, closing, nul⟩ := plain
  have first : endipv6 ('[' :: (v ++ ']' :: behind)) =
      (v, if behind.head? = some ':' then some behind.tail else none) := by
    rw [endipv6, if_pos List.head?_cons, List.tail_cons, memchr_append closing]
  have some : v.isEmpty = false := by simpa using nonempty
  simp only [arguments, first, some, Bool.false_eq_true, if_false]
  rw [c_str_of_absent nul]

theorem unbracketed_hostService {h s : List Char} (host : Plain h) (service : Plain s) :
    Unbracketed (h ++ ':' :: s) := by
  obtain ⟨⟨openH, closeH, nulH⟩, -⟩ := host
  obtain ⟨⟨openS, closeS, nulS⟩, -⟩ := service
  refine ⟨?_, ?_, ?_⟩
  · simp [openH, openS]
  · simp [closeH, closeS]
  · simp [nulH, nulS]

theorem count_hostService {h s : List Char} (host : Plain h) (service : Plain s) : (h ++ ':' :: s).count ':' = 1 := by
  rw [List.count_append, List.count_cons_self, List.count_eq_zero_of_not_mem host.2,
    List.count_eq_zero_of_not_mem service.2]

/-- A host argument is split as it is meant unless it is a host name with a service. -/
theorem arguments_iff {host : List Char} {pair : List Char × Option (List Char)} (means : Means host pair) :
    arguments host = pair ↔ (host.head? = some '[' ∨ host.count ':' ≠ 1) := by
  cases means with
  | host plain =>
    refine ⟨fun _ => .inr ?_, fun _ => arguments_of_unbracketed plain.1⟩
    rw [List.count_eq_zero_of_not_mem plain.2]
    exact Nat.zero_ne_one
  | @hostService h s plain service =>
    have unbracketed := unbracketed_hostService plain service
    rw [arguments_of_unbracketed unbracketed]
    constructor
    · intro same
      cases (Prod.ext_iff.mp same).2
    · rintro (bracket | other)
      · exact absurd (List.mem_of_mem_head? bracket) unbracketed.1
      · exact absurd (count_hostService plain service) other
  | literal nonempty plain => exact ⟨fun _ => .inl rfl, fun _ => arguments_of_literal nonempty plain []⟩
  | @literalService v s nonempty plain service =>
    refine ⟨fun _ => .inl rfl, fun _ => (arguments_of_literal nonempty plain _).trans ?_⟩
    rw [if_pos List.head?_cons, List.tail_cons, Option.map_some, c_str_of_absent service.1.2.2]
  | bare plain many =>
    refine ⟨fun _ => .inr (by omega), fun _ => arguments_of_unbracketed plain⟩

theorem arguments_iff_bracketed : arguments "[::1]:80".toList = ("::1".toList, some "80".toList) ↔
    ("[::1]:80".toList.head? = some '[' ∨ "[::1]:80".toList.count ':' ≠ 1) := by
  have literal : Unbracketed "::1".toList := by simp [Unbracketed]
  have service : Plain "80".toList := by simp [Plain, Unbracketed]
  exact arguments_iff (.literalService (by decide) literal service)

/-- A host name with a service is looked up whole, without one. -/
theorem arguments_hostService : Means "localhost:80".toList ("localhost".toList, some "80".toList) ∧
    arguments "localhost:80".toList ≠ ("localhost".toList, some "80".toList) := by
  refine ⟨.hostService (h := "localhost".toList) (s := "80".toList) ?_ ?_, by decide +kernel⟩
  · simp [Plain, Unbracketed]
  · simp [Plain, Unbracketed]

end Address
end Sylar
