import Mathlib.Data.List.Basic

/-! A hash set in the manner of `std::unordered_set`: the elements in the order of some iteration, no two of
them with the same key. -/

namespace HashSet

universe u
variable {α : Type u} {same : α → α → Bool}

structure Elements (same : α → α → Bool) where
  elems : List α
  apart : elems.Pairwise fun x y => same x y = false

namespace Elements

def empty : Elements same := ⟨[], List.Pairwise.nil⟩

/-- An element whose key is there is not inserted; where a new one stands in the iteration is not specified. -/
def insert (s : Elements same) (k : α) : Elements same :=
  if there : s.elems.any (same · k) then s
  else ⟨s.elems ++ [k], by
    refine List.pairwise_append.mpr ⟨s.apart, List.pairwise_singleton _ _, fun x member y last => ?_⟩
    rw [List.mem_singleton.mp last]
    simpa using fun meets => there (List.any_eq_true.mpr ⟨x, member, meets⟩)⟩

/-- Elements without a common key are all inserted. -/
theorem foldl_insert (s : Elements same) {l : List α} (apart : (s.elems ++ l).Pairwise fun x y => same x y = false) :
    (l.foldl insert s).elems = s.elems ++ l := by
  induction l generalizing s with
  | nil => rw [List.append_nil]; rfl
  | cons k l ih =>
    have new : ¬ s.elems.any (same · k) = true := by
      intro there
      obtain ⟨x, member, meets⟩ := List.any_eq_true.mp there
      rw [(List.pairwise_append.mp apart).2.2 x member k List.mem_cons_self] at meets
      cases meets
    have last : (s.insert k).elems = s.elems ++ [k] := by rw [insert, dif_neg new]
    rw [List.foldl_cons, ih (s.insert k) (by rwa [last, List.append_assoc]), last, List.append_assoc]
    rfl

end Elements
end HashSet
