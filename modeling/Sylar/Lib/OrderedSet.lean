import Mathlib.Data.List.Basic
import Mathlib.Data.List.Perm.Basic
import Mathlib.Order.Defs.Unbundled

/-! An ordered set in the manner of `std::set`: the elements in increasing order of a
comparator, iterators as positions, and the end iterator as the length. -/

namespace OrderedSet

universe u
variable {α : Type u} (lt : α → α → Bool)

/-- The elements stand in strictly increasing order. -/
def Sorted (l : List α) : Prop := l.Pairwise fun x y => lt x y = true

/-- The first position whose element is not ordered before `k`. -/
def lowerBound (l : List α) (k : α) : Nat := l.findIdx fun x => !lt x k

/-- The position of the element equivalent to `k`, or the end. -/
def find (l : List α) (k : α) : Nat :=
  match l[lowerBound lt l k]? with
  | some x => if lt k x then l.length else lowerBound lt l k
  | none => l.length

/-- Insertion returns the new set and the position of `k`, or of the element that
was already there and is equivalent to it. -/
def insert (l : List α) (k : α) : List α × Nat :=
  match l[lowerBound lt l k]? with
  | some x =>
    if lt k x then (l.insertIdx (lowerBound lt l k) k, lowerBound lt l k)
    else (l, lowerBound lt l k)
  | none => (l.insertIdx (lowerBound lt l k) k, lowerBound lt l k)

/-- Erasing the end iterator is undefined. -/
def erase (l : List α) (it : Nat) : Option (List α) :=
  if it < l.length then some (l.eraseIdx it) else none

variable {lt}

@[simp] theorem lowerBound_nil (k : α) : lowerBound lt [] k = 0 := rfl

theorem lowerBound_cons (x : α) (l : List α) (k : α) :
    lowerBound lt (x :: l) k = if lt x k then lowerBound lt l k + 1 else 0 := by
  cases before : lt x k <;> simp [lowerBound, List.findIdx_cons, before]

theorem find_cons (x : α) (l : List α) (k : α) :
    find lt (x :: l) k =
      if lt x k then find lt l k + 1 else if lt k x then l.length + 1 else 0 := by
  cases before : lt x k
  · simp [find, lowerBound_cons, before]
  · simp only [find, lowerBound_cons, before, if_true, List.getElem?_cons_succ, List.length_cons]
    split
    · split <;> rfl
    · rfl

theorem insert_cons (x : α) (l : List α) (k : α) :
    insert lt (x :: l) k =
      if lt x k then (x :: (insert lt l k).1, (insert lt l k).2 + 1)
      else if lt k x then (k :: x :: l, 0) else (x :: l, 0) := by
  cases before : lt x k
  · simp [insert, lowerBound_cons, before]
  · simp only [insert, lowerBound_cons, before, if_true, List.getElem?_cons_succ]
    split
    · split <;> simp [List.insertIdx_succ_cons]
    · simp [List.insertIdx_succ_cons]

variable [order : IsStrictTotalOrder α fun x y => lt x y = true]

omit order in
theorem Sorted.tail {x : α} {l : List α} (sorted : Sorted lt (x :: l)) : Sorted lt l :=
  (List.pairwise_cons.mp sorted).2

omit order in
theorem Sorted.head_lt {x y : α} {l : List α} (sorted : Sorted lt (x :: l)) (member : y ∈ l) :
    lt x y = true :=
  (List.pairwise_cons.mp sorted).1 y member

theorem lt_irrefl (x : α) : lt x x = false := by
  simpa using order.irrefl x

theorem Sorted.nodup {l : List α} (sorted : Sorted lt l) : l.Nodup :=
  List.Pairwise.imp (fun before same => by simp [same, lt_irrefl] at before) sorted

/-- The search succeeds on every member, and erasing the position it returns removes
exactly that member. -/
theorem Sorted.erase_find [DecidableEq α] {l : List α} {k : α} (sorted : Sorted lt l)
    (member : k ∈ l) : erase l (find lt l k) = some (l.erase k) := by
  induction l with
  | nil => simp at member
  | cons x l ih =>
    rw [find_cons]
    by_cases same : x = k
    · subst same
      simp [lt_irrefl, erase]
    · have inTail : k ∈ l := by
        rcases List.mem_cons.mp member with equal | inTail
        · exact absurd equal.symm same
        · exact inTail
      have before := sorted.head_lt inTail
      have found := ih sorted.tail inTail
      simp only [erase, Option.ite_none_right_eq_some] at found ⊢
      obtain ⟨bound, rest⟩ := found
      have next : (x :: l).erase k = x :: l.erase k := by
        rw [List.erase_cons_tail (by simpa using same)]
      refine ⟨by simp only [before, if_true, List.length_cons]; omega, ?_⟩
      simp only [before, if_true, List.eraseIdx_cons_succ, next]
      exact congrArg (some ∘ List.cons x) (Option.some.inj rest)

theorem Sorted.find_lt_length {l : List α} {k : α} (sorted : Sorted lt l) (member : k ∈ l) :
    find lt l k < l.length := by
  classical
  have found := sorted.erase_find member
  simp only [erase, Option.ite_none_right_eq_some] at found
  exact found.1

omit order in
theorem Sorted.erase [DecidableEq α] {l : List α} (k : α) (sorted : Sorted lt l) :
    Sorted lt (l.erase k) :=
  List.Pairwise.sublist List.erase_sublist sorted

theorem insert_perm {l : List α} {k : α} (absent : k ∉ l) : (insert lt l k).1.Perm (k :: l) := by
  induction l with
  | nil => exact List.Perm.refl _
  | cons x l ih =>
    obtain ⟨different, absentTail⟩ := List.ne_and_not_mem_of_not_mem_cons absent
    rw [insert_cons]
    cases before : lt x k
    · cases after : lt k x
      · exact absurd (order.trichotomous k x (by simp [after]) (by simp [before])) different
      · exact List.Perm.refl _
    · simp only [if_true]
      exact ((ih absentTail).cons x).trans (List.Perm.swap k x l)

/-- Taking an element out again leaves the set as it was before the insertion. -/
theorem erase_insert [DecidableEq α] {l : List α} {k : α} (absent : k ∉ l) :
    (insert lt l k).1.erase k = l := by
  induction l with
  | nil => exact List.erase_cons_head ..
  | cons x l ih =>
    obtain ⟨different, absentTail⟩ := List.ne_and_not_mem_of_not_mem_cons absent
    rw [insert_cons]
    cases before : lt x k
    · cases after : lt k x
      · exact absurd (order.trichotomous k x (by simp [after]) (by simp [before])) different
      · exact List.erase_cons_head ..
    · simp only [if_true]
      rw [List.erase_cons_tail (by simpa using different.symm), ih absentTail]

theorem mem_insert {l : List α} {k x : α} (absent : k ∉ l) :
    x ∈ (insert lt l k).1 ↔ x = k ∨ x ∈ l := by
  rw [(insert_perm absent).mem_iff, List.mem_cons]

theorem Sorted.insert {l : List α} {k : α} (sorted : Sorted lt l) (absent : k ∉ l) :
    Sorted lt (insert lt l k).1 := by
  induction l with
  | nil => exact List.pairwise_singleton _ _
  | cons x l ih =>
    obtain ⟨different, absentTail⟩ := List.ne_and_not_mem_of_not_mem_cons absent
    rw [insert_cons]
    cases before : lt x k
    · cases after : lt k x
      · simpa using sorted
      · simp only [Bool.false_eq_true, if_false, if_true]
        refine List.pairwise_cons.mpr ⟨?_, sorted⟩
        intro y member
        rcases List.mem_cons.mp member with same | inTail
        · rw [same]; exact after
        · exact order.trans _ _ _ after (sorted.head_lt inTail)
    · simp only [if_true]
      refine List.pairwise_cons.mpr ⟨?_, ih sorted.tail absentTail⟩
      intro y member
      rcases (mem_insert absentTail).mp member with same | inTail
      · rw [same]; exact before
      · exact sorted.head_lt inTail

omit order in
/-- The inserted element stands first unless the old first element is ordered before it. -/
theorem insert_position_pos {l : List α} {k : α} (behind : (insert lt l k).2 ≠ 0) :
    ∃ x, l.head? = some x ∧ lt x k = true := by
  cases l with
  | nil => exact absurd rfl behind
  | cons x l =>
    refine ⟨x, rfl, ?_⟩
    rw [insert_cons] at behind
    cases before : lt x k
    · cases after : lt k x <;> simp [before, after] at behind
    · rfl

omit order in
theorem takeWhile_congr {l : List α} {p q : α → Bool} (same : ∀ x ∈ l, p x = q x) :
    l.takeWhile p = l.takeWhile q := by
  induction l with
  | nil => rfl
  | cons x l ih =>
    rw [List.takeWhile_cons, List.takeWhile_cons, same x (List.mem_cons_self ..),
      ih fun y member => same y (List.mem_cons_of_mem _ member)]

omit order in
/-- A test that is closed towards the front selects a prefix. -/
theorem takeWhile_eq_filter {l : List α} {p : α → Bool} (closed : l.Pairwise fun x y => p y = true → p x = true) :
    l.takeWhile p = l.filter p := by
  induction l with
  | nil => rfl
  | cons x l ih =>
    obtain ⟨first, others⟩ := List.pairwise_cons.mp closed
    cases test : p x with
    | true => rw [List.takeWhile_cons_of_pos test, List.filter_cons_of_pos test, ih others]
    | false =>
      have fails : ¬ p x = true := Bool.eq_false_iff.mp test
      rw [List.takeWhile_cons_of_neg fails, List.filter_cons_of_neg fails]
      exact (List.filter_eq_nil_iff.mpr fun y member passes => fails (first y member passes)).symm

omit order in
/-- What such a test leaves are the others. -/
theorem dropWhile_eq_filter {l : List α} {p : α → Bool} (closed : l.Pairwise fun x y => p y = true → p x = true) :
    l.dropWhile p = l.filter fun x => !p x := by
  induction l with
  | nil => rfl
  | cons x l ih =>
    obtain ⟨first, others⟩ := List.pairwise_cons.mp closed
    cases test : p x with
    | true =>
      have fails : ¬ (!p x) = true := by simp [test]
      rw [List.dropWhile_cons_of_pos test, ih others, eq_comm]
      exact List.filter_cons_of_neg fails
    | false =>
      have fails : ¬ p x = true := Bool.eq_false_iff.mp test
      rw [List.dropWhile_cons_of_neg fails, List.filter_eq_self.mpr]
      intro y member
      rcases List.mem_cons.mp member with rfl | inTail
      · simp [test]
      · simpa using fun passes => fails (first y inTail passes)

omit order in
theorem Sorted.takeWhile_eq_filter {l : List α} {p : α → Bool} (sorted : Sorted lt l)
    (closed : ∀ x ∈ l, ∀ y ∈ l, lt x y = true → p y = true → p x = true) :
    l.takeWhile p = l.filter p :=
  OrderedSet.takeWhile_eq_filter (List.Pairwise.imp_of_mem (fun inX inY => closed _ inX _ inY) sorted)

end OrderedSet

namespace OrderedSet

universe u
variable {α : Type u} {lt : α → α → Bool}

theorem mem_of_mem_insert {l : List α} {k x : α} (member : x ∈ (insert lt l k).1) : x = k ∨ x ∈ l := by
  induction l with
  | nil => exact .inl (List.mem_singleton.mp member)
  | cons y l ih =>
    rw [insert_cons] at member
    split at member
    · rcases List.mem_cons.mp member with same | inTail
      · exact .inr (same ▸ List.mem_cons_self)
      · rcases ih inTail with new | old
        · exact .inl new
        · exact .inr (List.mem_cons_of_mem _ old)
    split at member
    · rcases List.mem_cons.mp member with new | old
      · exact .inl new
      · exact .inr old
    · exact .inr member

/-- Insertion keeps the order of a comparator that is only transitive, such as one that compares keys. -/
theorem Sorted.insert_of_trans [trans : IsTrans α fun x y => lt x y = true] {l : List α} (k : α)
    (sorted : Sorted lt l) : Sorted lt (OrderedSet.insert lt l k).1 := by
  induction l with
  | nil => exact List.pairwise_singleton _ _
  | cons x l ih =>
    rw [insert_cons]
    split
    · rename_i before
      refine List.pairwise_cons.mpr ⟨fun y member => ?_, ih sorted.tail⟩
      rcases mem_of_mem_insert member with new | old
      · exact new ▸ before
      · exact sorted.head_lt old
    split
    · rename_i after
      refine List.pairwise_cons.mpr ⟨fun y member => ?_, sorted⟩
      rcases List.mem_cons.mp member with same | inTail
      · exact same ▸ after
      · exact trans.trans _ _ _ after (sorted.head_lt inTail)
    · exact sorted

/-- An element that comes after all others is put at the end. -/
theorem insert_last {l : List α} {k : α} (last : ∀ x ∈ l, lt x k = true) : (insert lt l k).1 = l ++ [k] := by
  induction l with
  | nil => rfl
  | cons x l ih =>
    rw [insert_cons, if_pos (last x List.mem_cons_self)]
    exact congrArg (List.cons x) (ih fun y member => last y (List.mem_cons_of_mem _ member))

/-- The elements of a set, in their order. -/
@[ext]
structure Elements (lt : α → α → Bool) where
  elems : List α
  sorted : Sorted lt elems
  deriving DecidableEq

namespace Elements

def empty : Elements lt := ⟨[], List.Pairwise.nil⟩

def insert [IsTrans α fun x y => lt x y = true] (s : Elements lt) (k : α) : Elements lt :=
  ⟨(OrderedSet.insert lt s.elems k).1, s.sorted.insert_of_trans k⟩

/-- Elements that are inserted in their order stay as they are. -/
theorem foldl_insert [IsTrans α fun x y => lt x y = true] (s : Elements lt) {l : List α}
    (sorted : Sorted lt (s.elems ++ l)) : (l.foldl insert s).elems = s.elems ++ l := by
  induction l generalizing s with
  | nil => rw [List.append_nil]; rfl
  | cons k l ih =>
    have last : (s.insert k).elems = s.elems ++ [k] :=
      insert_last fun x member => (List.pairwise_append.mp sorted).2.2 x member k List.mem_cons_self
    rw [List.foldl_cons, ih (s.insert k) (by rwa [last, List.append_assoc]), last, List.append_assoc]
    rfl

end Elements
end OrderedSet
