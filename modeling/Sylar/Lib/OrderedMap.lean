import Mathlib.Data.List.Nodup
import Mathlib.Data.List.Pairwise
import Mathlib.Data.Prod.Basic
import Mathlib.Order.Lattice

/-! A map in the manner of `std::map`: one value for each key, the keys in increasing order. -/

universe u v

structure OrderedMap (κ : Type u) (ν : Type v) [LT κ] where
  entries : List (κ × ν)
  sorted : entries.Pairwise fun x y => x.1 < y.1

namespace OrderedMap

variable {κ : Type u} {ν : Type v} [LinearOrder κ]

def empty : OrderedMap κ ν := ⟨[], .nil⟩

def find (m : OrderedMap κ ν) (key : κ) : Option ν := (m.entries.find? fun e => e.1 = key).map Prod.snd

/-- An entry of the key is replaced, and otherwise the new one goes where its key belongs. -/
def put (key : κ) (value : ν) : List (κ × ν) → List (κ × ν)
  | [] => [(key, value)]
  | e :: rest =>
    if e.1 < key then e :: put key value rest
    else if e.1 = key then (key, value) :: rest
    else (key, value) :: e :: rest

theorem mem_put {key : κ} {value : ν} {l : List (κ × ν)} (sorted : l.Pairwise fun x y => x.1 < y.1) {e : κ × ν} :
    e ∈ put key value l ↔ e = (key, value) ∨ e.1 ≠ key ∧ e ∈ l := by
  induction l with
  | nil => simp [put]
  | cons first rest ih =>
    obtain ⟨least, tail⟩ := List.pairwise_cons.mp sorted
    rw [put]
    split
    · rename_i before
      have other : first.1 ≠ key := before.ne
      rw [List.mem_cons, ih tail, List.mem_cons]
      constructor
      · rintro (rfl | new | ⟨apart, old⟩)
        · exact .inr ⟨other, .inl rfl⟩
        · exact .inl new
        · exact .inr ⟨apart, .inr old⟩
      · rintro (new | ⟨apart, rfl | old⟩)
        · exact .inr (.inl new)
        · exact .inl rfl
        · exact .inr (.inr ⟨apart, old⟩)
    · split
      · rename_i same
        rw [List.mem_cons, List.mem_cons]
        constructor
        · rintro (new | old)
          · exact .inl new
          · exact .inr ⟨(same ▸ least e old).ne', .inr old⟩
        · rintro (new | ⟨apart, rfl | old⟩)
          · exact .inl new
          · exact absurd same apart
          · exact .inr old
      · rename_i notBefore other
        have above : key < first.1 := lt_of_le_of_ne (not_lt.mp notBefore) (Ne.symm other)
        rw [List.mem_cons]
        constructor
        · rintro (new | old)
          · exact .inl new
          · rcases List.mem_cons.mp old with rfl | later
            · exact .inr ⟨other, old⟩
            · exact .inr ⟨(above.trans (least e later)).ne', old⟩
        · rintro (new | ⟨-, old⟩)
          · exact .inl new
          · exact .inr old

theorem put_sorted (key : κ) (value : ν) {l : List (κ × ν)} (sorted : l.Pairwise fun x y => x.1 < y.1) :
    (put key value l).Pairwise fun x y => x.1 < y.1 := by
  induction l with
  | nil => exact List.pairwise_singleton _ _
  | cons first rest ih =>
    obtain ⟨least, tail⟩ := List.pairwise_cons.mp sorted
    rw [put]
    split
    · rename_i before
      refine List.pairwise_cons.mpr ⟨fun e member => ?_, ih tail⟩
      rcases (mem_put tail).mp member with rfl | ⟨-, old⟩
      · exact before
      · exact least e old
    · split
      · rename_i same
        exact List.pairwise_cons.mpr ⟨fun e old => same ▸ least e old, tail⟩
      · rename_i notBefore other
        have above : key < first.1 := lt_of_le_of_ne (not_lt.mp notBefore) (Ne.symm other)
        refine List.pairwise_cons.mpr ⟨fun e old => ?_, sorted⟩
        rcases List.mem_cons.mp old with rfl | later
        · exact above
        · exact above.trans (least e later)

/-- `m[key] = value` -/
def set (m : OrderedMap κ ν) (key : κ) (value : ν) : OrderedMap κ ν :=
  ⟨put key value m.entries, put_sorted key value m.sorted⟩

def erase (m : OrderedMap κ ν) (key : κ) : OrderedMap κ ν :=
  ⟨m.entries.filter fun e => e.1 ≠ key, m.sorted.sublist List.filter_sublist⟩

variable {m : OrderedMap κ ν} {key other : κ} {value : ν}

theorem keys_nodup (m : OrderedMap κ ν) : (m.entries.map Prod.fst).Nodup :=
  List.pairwise_map.mpr (m.sorted.imp fun less => less.ne)

theorem find_eq_some_iff : m.find key = some value ↔ (key, value) ∈ m.entries := by
  constructor
  · intro found
    obtain ⟨e, first, rfl⟩ := Option.map_eq_some_iff.mp found
    have same : e.1 = key := by simpa using List.find?_some first
    rw [← same]
    exact List.mem_of_find?_eq_some first
  · intro member
    cases found : m.entries.find? fun e => e.1 = key with
    | none => exact absurd (List.find?_eq_none.mp found (key, value) member) (by simp)
    | some e =>
      have same : e.1 = key := by simpa using List.find?_some found
      have inside : e ∈ m.entries := List.mem_of_find?_eq_some found
      have one : e = (key, value) := List.inj_on_of_nodup_map m.keys_nodup inside member same
      rw [find, found, one]
      rfl

theorem find_eq_none_iff : m.find key = none ↔ ∀ value, (key, value) ∉ m.entries := by
  rw [Option.eq_none_iff_forall_ne_some]
  exact forall_congr' fun value => not_congr find_eq_some_iff

@[simp] theorem find_empty : (empty : OrderedMap κ ν).find key = none := rfl

@[simp] theorem find_set_self : (m.set key value).find key = some value :=
  find_eq_some_iff.mpr ((mem_put m.sorted).mpr (.inl rfl))

theorem find_set_of_ne (apart : other ≠ key) : (m.set key value).find other = m.find other := by
  refine Option.ext fun found => ?_
  rw [find_eq_some_iff, find_eq_some_iff]
  refine (mem_put m.sorted).trans ⟨?_, fun old => .inr ⟨apart, old⟩⟩
  rintro (new | ⟨-, old⟩)
  · exact absurd (Prod.mk.inj new).1 apart
  · exact old

@[simp] theorem find_erase_self : (m.erase key).find key = none := by
  refine find_eq_none_iff.mpr fun value member => ?_
  simpa using (List.mem_filter.mp member).2

theorem find_erase_of_ne (apart : other ≠ key) : (m.erase key).find other = m.find other := by
  refine Option.ext fun found => ?_
  rw [find_eq_some_iff, find_eq_some_iff]
  exact List.mem_filter.trans (and_iff_left (by simpa using apart))

end OrderedMap
