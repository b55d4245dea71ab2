import Mathlib.Data.List.Perm.Basic
import Mathlib.Data.List.Nodup

/-! Items that are either in a queue or in the hands of one of several parties. -/

namespace Custody

/-- What one party sees: the queue, its own hands, and the number of the next new item. -/
structure View where
  queue : List Nat
  hand : List Nat
  next : Nat

/-- What a party can do. It takes items off the queue, and it puts items into the queue
that it does not have, as far as `takes` and `wakes` allow it. -/
inductive Move (takes wakes : Nat → Prop) (before after : View) : Prop
  | quiet : before.queue.Perm after.queue → after.hand.Sublist before.hand → before.next ≤ after.next →
      Move takes wakes before after
  | fresh {kept} : after.queue = before.queue → after.hand = before.next :: kept → kept.Sublist before.hand →
      after.next = before.next + 1 → Move takes wakes before after
  | take {x kept} : takes x → before.queue.Perm (x :: after.queue) → after.hand = x :: kept →
      kept.Sublist before.hand → after.next = before.next → Move takes wakes before after
  | release {x} : after.queue = before.queue ++ [x] → (x :: after.hand).Sublist before.hand →
      after.next = before.next → Move takes wakes before after
  | wake {x} : wakes x → after.queue = before.queue ++ [x] → after.hand = before.hand → x < before.next →
      after.next = before.next → Move takes wakes before after

structure Store (ι : Type) where
  queue : List Nat
  hands : ι → List Nat
  next : Nat

namespace Store

variable {ι : Type}

def view (s : Store ι) (w : ι) : View := ⟨s.queue, s.hands w, s.next⟩

/-- The party `w` makes a move, and the hands of the others stay as they are. -/
structure Moves (takes wakes : Nat → Prop) (s : Store ι) (w : ι) (t : Store ι) : Prop where
  move : Move takes wakes (s.view w) (t.view w)
  others : ∀ v, v ≠ w → t.hands v = s.hands v

def InHands (s : Store ι) (x : Nat) : Prop := ∃ w, x ∈ s.hands w

/-- No item is in two hands. -/
structure Single (s : Store ι) : Prop where
  queueBorn : ∀ x ∈ s.queue, x < s.next
  handsBorn : ∀ w, ∀ x ∈ s.hands w, x < s.next
  nodup : ∀ w, (s.hands w).Nodup
  once : ∀ v w x, x ∈ s.hands v → x ∈ s.hands w → v = w

/-- No item is in two places. -/
structure Placed (s : Store ι) : Prop extends Single s where
  queueNodup : s.queue.Nodup
  apart : ∀ x ∈ s.queue, ¬ s.InHands x

/-- What the other parties have is a part of what they had, so only the hand of the party that
moved has to be looked at. -/
theorem Single.of_hand {takes wakes : Nat → Prop} {s t : Store ι} {w : ι} (single : s.Single)
    (moves : s.Moves takes wakes w t) (queueBorn : ∀ x ∈ t.queue, x < t.next) (later : s.next ≤ t.next)
    (nodup : (t.hands w).Nodup) (hand : ∀ x ∈ t.hands w, x < t.next ∧ ∀ v, v ≠ w → x ∉ s.hands v) :
    t.Single where
  queueBorn := queueBorn
  handsBorn v x inV := by
    by_cases same : v = w
    · subst same
      exact (hand x inV).1
    · rw [moves.others v same] at inV
      exact Nat.lt_of_lt_of_le (single.handsBorn v x inV) later
  nodup v := by
    by_cases same : v = w
    · subst same
      exact nodup
    · rw [moves.others v same]
      exact single.nodup v
  once u v x inU inV := by
    by_cases sameU : u = w
    · by_cases sameV : v = w
      · rw [sameU, sameV]
      · subst sameU
        rw [moves.others v sameV] at inV
        exact absurd inV ((hand x inU).2 v sameV)
    · rw [moves.others u sameU] at inU
      by_cases sameV : v = w
      · subst sameV
        exact absurd inU ((hand x inV).2 u sameU)
      · rw [moves.others v sameV] at inV
        exact single.once u v x inU inV

/-- An item of a hand is in no other hand. -/
theorem Single.held {s : Store ι} (single : s.Single) {w : ι} {x : Nat} (inW : x ∈ s.hands w) :
    x < s.next ∧ ∀ v, v ≠ w → x ∉ s.hands v :=
  ⟨single.handsBorn w x inW, fun v other inV => other (single.once v w x inV inW)⟩

theorem born_concat {queue : List Nat} {next x : Nat} (old : ∀ y ∈ queue, y < next) (new : x < next) :
    ∀ y ∈ queue ++ [x], y < next := by
  intro y queued
  rcases List.mem_append.mp queued with before | added
  · exact old y before
  · rw [List.mem_singleton.mp added]
    exact new

/-- Hands stay apart as long as nobody takes an item off the queue that is in somebody's hands. -/
theorem Single.moves {takes wakes : Nat → Prop} {s t : Store ι} {w : ι} (single : s.Single)
    (moves : s.Moves takes wakes w t) (untaken : ∀ x, takes x → ¬ s.InHands x) : t.Single := by
  rcases moves.move with ⟨queue, hand, later⟩ | ⟨queue, hand, kept, later⟩ | ⟨takes, queue, hand, kept, same⟩ |
    ⟨queue, hand, same⟩ | ⟨-, queue, hand, born, same⟩ <;> simp only [view] at *
  case quiet =>
    refine single.of_hand moves ?_ later ((single.nodup w).sublist hand) ?_
    · intro x queued
      exact Nat.lt_of_lt_of_le (single.queueBorn x (queue.mem_iff.mpr queued)) later
    · intro x inW
      obtain ⟨born, alone⟩ := single.held (hand.subset inW)
      exact ⟨Nat.lt_of_lt_of_le born later, alone⟩
  case fresh =>
    have unborn : ∀ v, s.next ∉ s.hands v := fun v inV => Nat.lt_irrefl _ (single.handsBorn v _ inV)
    refine single.of_hand moves ?_ (by omega) ?_ ?_
    · intro x queued
      rw [queue] at queued
      have := single.queueBorn x queued
      omega
    · rw [hand]
      exact List.nodup_cons.mpr ⟨fun inKept => unborn w (kept.subset inKept), (single.nodup w).sublist kept⟩
    · intro x inW
      rw [hand, List.mem_cons] at inW
      rcases inW with rfl | inKept
      · exact ⟨by omega, fun v _ => unborn v⟩
      · obtain ⟨born, alone⟩ := single.held (kept.subset inKept)
        exact ⟨by omega, alone⟩
  case take x _ =>
    have free := untaken x takes
    refine single.of_hand moves ?_ (by omega) ?_ ?_
    · intro y queued
      rw [same]
      exact single.queueBorn y (queue.mem_iff.mpr (List.mem_cons_of_mem _ queued))
    · rw [hand]
      exact List.nodup_cons.mpr ⟨fun inKept => free ⟨w, kept.subset inKept⟩, (single.nodup w).sublist kept⟩
    · intro y inW
      rw [hand, List.mem_cons] at inW
      rw [same]
      rcases inW with rfl | inKept
      · exact ⟨single.queueBorn y (queue.mem_iff.mpr List.mem_cons_self), fun v _ inV => free ⟨v, inV⟩⟩
      · exact single.held (kept.subset inKept)
  case release x =>
    refine single.of_hand moves ?_ (by omega) ((single.nodup w).sublist ((List.sublist_cons_self _ _).trans hand)) ?_
    · rw [queue, same]
      exact born_concat single.queueBorn (single.handsBorn w x (hand.subset List.mem_cons_self))
    · intro y inW
      rw [same]
      exact single.held (hand.subset (List.mem_cons_of_mem _ inW))
  case wake x =>
    refine single.of_hand moves ?_ (by omega) (hand ▸ single.nodup w) ?_
    · rw [queue, same]
      exact born_concat single.queueBorn born
    · intro y inW
      rw [hand] at inW
      rw [same]
      exact single.held inW

/-- Hands of the others after the move are what they were before. -/
theorem Moves.inHands {takes wakes : Nat → Prop} {s t : Store ι} {w : ι} (moves : s.Moves takes wakes w t) {x : Nat}
    (held : t.InHands x) : x ∈ t.hands w ∨ s.InHands x := by
  obtain ⟨v, inV⟩ := held
  by_cases same : v = w
  · exact .inl (same ▸ inV)
  · exact .inr ⟨v, moves.others v same ▸ inV⟩

/-- Items stay in one place each as long as only items in no place are put into the queue. -/
theorem Placed.moves {takes wakes : Nat → Prop} {s t : Store ι} {w : ι} (placed : s.Placed)
    (moves : s.Moves takes wakes w t) (queued : ∀ x, takes x → x ∈ s.queue)
    (atRest : ∀ x, wakes x → x ∉ s.queue ∧ ¬ s.InHands x) : t.Placed := by
  have single := placed.toSingle.moves moves (fun x takes => placed.apart x (queued x takes))
  suffices t.queue.Nodup ∧ ∀ x ∈ t.queue, ¬ t.InHands x from ⟨single, this.1, this.2⟩
  rcases moves.move with ⟨queue, hand, -⟩ | ⟨queue, hand, kept, -⟩ | ⟨takes, queue, hand, kept, -⟩ |
    ⟨queue, hand, -⟩ | ⟨wakes, queue, hand, -, -⟩ <;> simp only [view] at *
  case quiet =>
    refine ⟨queue.nodup_iff.mp placed.queueNodup, ?_⟩
    intro x inQueue held
    have before := placed.apart x (queue.mem_iff.mpr inQueue)
    rcases moves.inHands held with inW | held
    · exact before ⟨w, hand.subset inW⟩
    · exact before held
  case fresh =>
    rw [queue]
    refine ⟨placed.queueNodup, ?_⟩
    intro x inQueue held
    have before := placed.apart x inQueue
    rcases moves.inHands held with inW | held
    · rw [hand, List.mem_cons] at inW
      rcases inW with rfl | inKept
      · exact Nat.lt_irrefl _ (placed.queueBorn _ inQueue)
      · exact before ⟨w, kept.subset inKept⟩
    · exact before held
  case take x _ =>
    have nodup := queue.nodup_iff.mp placed.queueNodup
    refine ⟨(List.nodup_cons.mp nodup).2, ?_⟩
    intro y inQueue held
    have before := placed.apart y (queue.mem_iff.mpr (List.mem_cons_of_mem _ inQueue))
    rcases moves.inHands held with inW | held
    · rw [hand, List.mem_cons] at inW
      rcases inW with rfl | inKept
      · exact (List.nodup_cons.mp nodup).1 inQueue
      · exact before ⟨w, kept.subset inKept⟩
    · exact before held
  case release x =>
    have inHand : x ∈ s.hands w := hand.subset List.mem_cons_self
    have gone := (List.nodup_cons.mp ((placed.nodup w).sublist hand)).1
    refine ⟨?_, ?_⟩
    · rw [queue, ← List.concat_eq_append]
      exact placed.queueNodup.concat (fun inQueue => placed.apart x inQueue ⟨w, inHand⟩)
    · intro y inQueue held
      obtain ⟨v, inV⟩ := held
      rw [queue, List.mem_append, List.mem_singleton] at inQueue
      rcases inQueue with old | rfl
      · refine placed.apart y old ?_
        rcases moves.inHands ⟨v, inV⟩ with inW | held
        · exact ⟨w, hand.subset (List.mem_cons_of_mem _ inW)⟩
        · exact held
      · by_cases same : v = w
        · subst same
          exact gone inV
        · rw [moves.others v same] at inV
          exact (placed.toSingle.held inHand).2 v same inV
  case wake x =>
    obtain ⟨notQueued, free⟩ := atRest x wakes
    have before : ∀ y, t.InHands y → s.InHands y := by
      intro y held
      rcases moves.inHands held with inW | held
      · exact ⟨w, hand ▸ inW⟩
      · exact held
    refine ⟨?_, ?_⟩
    · rw [queue, ← List.concat_eq_append]
      exact placed.queueNodup.concat notQueued
    · intro y inQueue held
      rw [queue, List.mem_append, List.mem_singleton] at inQueue
      rcases inQueue with old | rfl
      · exact placed.apart y old (before y held)
      · exact free (before y held)

end Store
end Custody
