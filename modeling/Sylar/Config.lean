import Sylar.ConfigVar

/-! `ConfigVar::fromString` on one thread, with listeners that may throw. -/

namespace Sylar

variable {T : Type}

namespace ConfigVar

/-- The loop over `m_cbs`: the listeners that have been called, each with what it was told, and whether all
of them have returned. A listener that throws has been called and ends the loop. -/
def notify (throws : Nat → T → T → Bool) (old new : T) : List Nat → List (Nat × T × T) × Bool
  | [] => ([], true)
  | i :: rest =>
    if throws i old new then ([(i, old, new)], false)
    else ((i, old, new) :: (notify throws old new rest).1, (notify throws old new rest).2)

section
variable {throws : Nat → T → T → Bool} {old new : T}

theorem notify_of_silent {keys : List Nat} (silent : ∀ i ∈ keys, throws i old new = false) :
    notify throws old new keys = (keys.map fun i => (i, old, new), true) := by
  induction keys with
  | nil => rfl
  | cons i rest ih =>
    have returns := silent i List.mem_cons_self
    have others := ih fun j member => silent j (List.mem_cons_of_mem i member)
    rw [notify, others, returns]
    rfl

/-- The loop ends at the first listener that throws. -/
theorem notify_of_throws {told rest : List Nat} {i : Nat} (silent : ∀ j ∈ told, throws j old new = false)
    (thrown : throws i old new = true) :
    notify throws old new (told ++ i :: rest) = ((told ++ [i]).map fun j => (j, old, new), false) := by
  induction told with
  | nil =>
    rw [List.nil_append, notify, if_pos thrown]
    rfl
  | cons j told ih =>
    have returns := silent j List.mem_cons_self
    have others := ih fun k member => silent k (List.mem_cons_of_mem j member)
    rw [List.cons_append, notify, others, returns]
    rfl

end

variable [BEq T]

/-- The variable behind the call and the listeners that have been called. -/
def setValue (throws : Nat → T → T → Bool) (v : T) (var : ConfigVar T) : ConfigVar T × List (Nat × T × T) :=
  if v == var.m_val then (var, [])
  else
    match notify throws var.m_val v var.m_cbs with
    | (told, true) => ({ var with m_val := v }, told)
    | (told, false) => (var, told)

/-- `fromString`, which catches what the conversion and the listeners throw and returns true either way. -/
def fromString (throws : Nat → T → T → Bool) (FromStr : String → Option T) (val : String) (var : ConfigVar T) :
    ConfigVar T × List (Nat × T × T) :=
  match FromStr val with
  | some v => setValue throws v var
  | none => (var, [])

/-- Either the conversion is stored and every listener has been told of it once, or nothing has happened
because the conversion or a listener has thrown. -/
def AllOrNothing (throws : Nat → T → T → Bool) (FromStr : String → Option T) (val : String) (var : ConfigVar T) :
    Prop :=
  (∃ v, FromStr val = some v ∧
    fromString throws FromStr val var = ({ var with m_val := v }, var.m_cbs.map fun i => (i, var.m_val, v))) ∨
  (FromStr val = none ∨ ∃ v, FromStr val = some v ∧ ∃ i ∈ var.m_cbs, throws i var.m_val v = true) ∧
    fromString throws FromStr val var = (var, [])

/-- Without an exception the conversion is stored behind the last listener. The value stays when the text
cannot be converted, when the conversion is what is stored already, and then nobody is told, and when a
listener throws, but then the listeners up to that one have been told. -/
theorem fromString_cases (throws : Nat → T → T → Bool) (FromStr : String → Option T) (val : String)
    (var : ConfigVar T) :
    (FromStr val = none → fromString throws FromStr val var = (var, [])) ∧
    ∀ v, FromStr val = some v →
      ((v == var.m_val) = true → fromString throws FromStr val var = (var, [])) ∧
      ((v == var.m_val) = false → (∀ i ∈ var.m_cbs, throws i var.m_val v = false) →
        fromString throws FromStr val var =
          ({ var with m_val := v }, var.m_cbs.map fun i => (i, var.m_val, v))) ∧
      ((v == var.m_val) = false → ∀ told i rest, var.m_cbs = told ++ i :: rest →
        (∀ j ∈ told, throws j var.m_val v = false) → throws i var.m_val v = true →
        fromString throws FromStr val var = (var, (told ++ [i]).map fun j => (j, var.m_val, v))) := by
  refine ⟨fun failed => by rw [fromString, failed], fun v converted => ?_⟩
  have sets : fromString throws FromStr val var = setValue throws v var := by rw [fromString, converted]
  rw [sets, setValue]
  refine ⟨fun same => by rw [if_pos same], fun other silent => ?_, ?_⟩
  · rw [other, notify_of_silent silent]
    rfl
  · intro other told i rest keys silent thrown
    have called : notify throws var.m_val v var.m_cbs = ((told ++ [i]).map fun j => (j, var.m_val, v), false) := by
      rw [keys, notify_of_throws silent thrown]
    rw [other, called]
    rfl

/-- The second of two listeners throws, and the first has been told of a value that is never stored. -/
theorem not_allOrNothing : ¬ AllOrNothing (fun i _ new => i == 2 && new == "b") some "b"
    { m_val := "a", m_cbs := [1, 2], sorted := by decide } := by
  rintro (⟨v, -, stored⟩ | ⟨-, nothing⟩)
  · have told := congrArg (fun r => r.1.m_val) stored
    have value : v = "a" := told.symm
    have listeners := congrArg Prod.snd stored
    rw [value] at listeners
    exact absurd listeners (by decide)
  · exact absurd (congrArg Prod.snd nothing) (by decide)

end ConfigVar
end Sylar
