import Sylar.Lib.OrderedSet

/-! A map that holds any number of values under a key, in the order in which they have been inserted. -/

/-- The entries are sorted by their keys. -/
structure Multimap (κ ν : Type*) [LT κ] where
  entries : List (κ × ν)
  sorted : entries.Pairwise fun x y => ¬ y.1 < x.1

namespace Multimap
open OrderedSet

variable {κ ν : Type*} [LT κ] [DecidableLT κ] [LE κ] [Std.IsLinearOrder κ] [Std.LawfulOrderLT κ]

omit [DecidableLT κ] in
theorem not_lt_trans {a b c : κ} (first : ¬ b < a) (second : ¬ c < b) : ¬ c < a := by
  rw [Std.not_lt] at first second ⊢
  exact Std.le_trans first second

/-- The entries whose keys do not come after a key are a prefix. -/
theorem closed_upper (m : Multimap κ ν) (k : κ) :
    m.entries.Pairwise fun x y => decide (¬ k < y.1) = true → decide (¬ k < x.1) = true := by
  refine m.sorted.imp fun {x y} ordered below => ?_
  rw [decide_eq_true_eq] at below ⊢
  exact not_lt_trans ordered below

/-- So are those whose keys come before it. -/
theorem closed_lower (m : Multimap κ ν) (k : κ) :
    m.entries.Pairwise fun x y => decide (y.1 < k) = true → decide (x.1 < k) = true := by
  refine m.sorted.imp fun {x y} ordered below => ?_
  rw [decide_eq_true_eq] at below ⊢
  exact Std.lt_of_le_of_lt (Std.not_lt.mp ordered) below

/-- A value is put behind those of its key. -/
def insert (m : Multimap κ ν) (k : κ) (v : ν) : Multimap κ ν where
  entries := m.entries.takeWhile (fun e => ¬ k < e.1) ++ (k, v) :: m.entries.dropWhile fun e => ¬ k < e.1
  sorted := by
    rw [takeWhile_eq_filter (m.closed_upper k), dropWhile_eq_filter (m.closed_upper k)]
    refine List.pairwise_append.mpr ⟨m.sorted.filter _, List.pairwise_cons.mpr ⟨?_, m.sorted.filter _⟩, ?_⟩
    · intro y member
      have above : k < y.1 := by simpa using (List.mem_filter.mp member).2
      exact fun below => Std.lt_irrefl (Std.lt_trans above below)
    · intro x before y behind
      have below : ¬ k < x.1 := by simpa using (List.mem_filter.mp before).2
      rcases List.mem_cons.mp behind with rfl | after
      · exact below
      · have above : k < y.1 := by simpa using (List.mem_filter.mp after).2
        exact fun less => below (Std.lt_trans above less)

/-- The values between the lower and the upper bound of a key. -/
def equal_range (m : Multimap κ ν) (k : κ) : List ν :=
  ((m.entries.dropWhile fun e => e.1 < k).takeWhile fun e => ¬ k < e.1).map Prod.snd

theorem insert_perm (m : Multimap κ ν) (k : κ) (v : ν) : (m.insert k v).entries.Perm ((k, v) :: m.entries) := by
  rw [insert]
  refine List.perm_middle.trans (.cons _ ?_)
  rw [List.takeWhile_append_dropWhile]

theorem foldl_perm (l : List (κ × ν)) (m : Multimap κ ν) :
    (l.foldl (fun m e => m.insert e.1 e.2) m).entries.Perm (l ++ m.entries) := by
  induction l generalizing m with
  | nil => exact .refl _
  | cons e l ih =>
    have others := ih (m.insert e.1 e.2)
    exact others.trans (((m.insert_perm e.1 e.2).append_left l).trans List.perm_middle)

theorem equal_range_eq (m : Multimap κ ν) (k : κ) :
    m.equal_range k = (m.entries.filter fun e => ¬ e.1 < k ∧ ¬ k < e.1).map Prod.snd := by
  rw [equal_range, dropWhile_eq_filter (m.closed_lower k), takeWhile_eq_filter, List.filter_filter]
  · simp [and_comm]
  · exact List.Pairwise.filter _ (m.closed_upper k)

/-- An insertion concerns the values of its key, where it comes last. -/
theorem equal_range_insert [DecidableEq κ] (m : Multimap κ ν) (k : κ) (v : ν) (k' : κ) :
    (m.insert k v).equal_range k' = m.equal_range k' ++ if k = k' then [v] else [] := by
  let test : κ × ν → Bool := fun e => ¬ e.1 < k' ∧ ¬ k' < e.1
  have whole : m.entries.filter test = (m.entries.takeWhile fun e => ¬ k < e.1).filter test ++
      (m.entries.dropWhile fun e => ¬ k < e.1).filter test := by
    rw [← List.filter_append, List.takeWhile_append_dropWhile]
  rw [equal_range_eq, equal_range_eq, insert, List.filter_append]
  by_cases here : k = k'
  · subst here
    have passes : test (k, v) = true := by simp [test, Std.lt_irrefl]
    have none : (m.entries.dropWhile fun e => ¬ k < e.1).filter test = [] := by
      rw [dropWhile_eq_filter (m.closed_upper k), List.filter_eq_nil_iff]
      intro e behind
      have above : k < e.1 := by simpa using (List.mem_filter.mp behind).2
      simp [test, above]
    rw [whole, List.filter_cons_of_pos passes, none, if_pos rfl, List.append_nil, List.map_append]
    rfl
  · have fails : ¬ test (k, v) = true := by
      rcases Std.lt_trichotomy k k' with less | same | greater
      · simp [test, less]
      · exact absurd same here
      · simp [test, greater]
    rw [whole, List.filter_cons_of_neg fails, if_neg here, List.append_nil]

/-- The values of a key, after any number of insertions. -/
theorem equal_range_foldl [DecidableEq κ] (l : List (κ × ν)) (m : Multimap κ ν) (k : κ) :
    (l.foldl (fun m e => m.insert e.1 e.2) m).equal_range k =
      m.equal_range k ++ (l.filter fun e => e.1 = k).map Prod.snd := by
  induction l generalizing m with
  | nil => exact (List.append_nil _).symm
  | cons e l ih =>
    rw [List.foldl_cons, ih, equal_range_insert, List.append_assoc]
    by_cases here : e.1 = k
    · simp [here]
    · simp [here]

end Multimap
