import Mathlib.Data.List.Nodup
import Mathlib.Logic.Function.Basic

/-! Updates of a map, each at the key it has. -/

namespace Keyed

variable {κ ι α : Type*} [DecidableEq κ]

/-- The update changes what is under its key and nothing else. -/
def update (key : ι → κ) (act : ι → α → α) (m : κ → α) (i : ι) : κ → α :=
  Function.update m (key i) (act i (m (key i)))

variable {key : ι → κ} {act : ι → α → α}

/-- What is under a key is made by the updates that have the key, in their order. -/
theorem foldl_update (is : List ι) (m : κ → α) (k : κ) :
    is.foldl (update key act) m k = (is.filter fun i => decide (key i = k)).foldl (fun a i => act i a) (m k) := by
  induction is generalizing m with
  | nil => rfl
  | cons i is ih =>
    rw [List.foldl_cons, ih]
    by_cases here : key i = k
    · subst here
      rw [List.filter_cons_of_pos (by simp), List.foldl_cons, update, Function.update_self]
    · rw [List.filter_cons_of_neg (by simpa using here), update, Function.update_of_ne (Ne.symm here)]

theorem foldl_update_of_absent {is : List ι} {k : κ} (absent : k ∉ is.map key) (m : κ → α) :
    is.foldl (update key act) m k = m k := by
  have none : (is.filter fun i => decide (key i = k)) = [] := by
    rw [List.filter_eq_nil_iff]
    intro i member here
    exact absent (List.mem_map.mpr ⟨i, member, of_decide_eq_true here⟩)
  rw [foldl_update, none, List.foldl_nil]

/-- One of the updates of distinct keys is the only one of its key. -/
theorem filter_key {is : List ι} {i : ι} (distinct : (is.map key).Nodup) (member : i ∈ is) :
    (is.filter fun j => decide (key j = key i)) = [i] := by
  induction is with
  | nil => cases member
  | cons j is ih =>
    rw [List.map_cons, List.nodup_cons] at distinct
    rcases List.mem_cons.mp member with rfl | inTail
    · have none : (is.filter fun j => decide (key j = key i)) = [] := by
        rw [List.filter_eq_nil_iff]
        intro j there same
        exact distinct.1 (List.mem_map.mpr ⟨j, there, of_decide_eq_true same⟩)
      rw [List.filter_cons_of_pos (by simp), none]
    · have other : key j ≠ key i := fun same => distinct.1 (same ▸ List.mem_map_of_mem inTail)
      rw [List.filter_cons_of_neg (by simpa using other), ih distinct.2 inTail]

theorem foldl_update_of_mem {is : List ι} {i : ι} (distinct : (is.map key).Nodup) (member : i ∈ is) (m : κ → α) :
    is.foldl (update key act) m (key i) = act i (m (key i)) := by
  rw [foldl_update, filter_key distinct member, List.foldl_cons, List.foldl_nil]

end Keyed
