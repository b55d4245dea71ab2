import Mathlib.Data.List.Nodup
import Mathlib.Data.List.Basic

namespace Tickets

variable {α ω : Type}

/-- A queue whose entries carry the ticket under which they were accepted, with everything accepted
so far in order, and who has taken which ticket. -/
structure Book (α ω : Type) where
  issued : List α := []
  queue : List (α × Nat) := []
  taken : List (Nat × ω) := []

namespace Book

def accept (b : Book α ω) (new : List α) : Book α ω :=
  { b with issued := b.issued ++ new, queue := b.queue ++ new.zipIdx b.issued.length }

/-- `who` takes the first entry that is eligible for it, and the others keep their places. -/
inductive Takes (eligible : α → Prop) (who : ω) (b : Book α ω) : Option α → Book α ω → Prop
  | nothing : (∀ e ∈ b.queue, ¬ eligible e.1) → Takes eligible who b none b
  | first {front a n back} : b.queue = front ++ (a, n) :: back → eligible a →
      (∀ e ∈ front, ¬ eligible e.1) →
      Takes eligible who b (some a) { b with queue := front ++ back, taken := b.taken ++ [(n, who)] }

/-- Every ticket issued is either in the queue or taken, and only once; the queue is in the order
in which its entries were accepted. -/
structure Sound (b : Book α ω) : Prop where
  listed : ∀ e ∈ b.queue, b.issued[e.2]? = some e.1
  ordered : (b.queue.map Prod.snd).Pairwise (· < ·)
  takenOnce : (b.taken.map Prod.fst).Nodup
  somewhere : ∀ n, n < b.issued.length ↔ n ∈ b.queue.map Prod.snd ∨ n ∈ b.taken.map Prod.fst
  apart : ∀ n ∈ b.queue.map Prod.snd, n ∉ b.taken.map Prod.fst

theorem sound_empty : Sound ({} : Book α ω) where
  listed e member := by cases member
  ordered := .nil
  takenOnce := .nil
  somewhere n := by simp
  apart n member := by cases member

theorem Sound.accept {b : Book α ω} (sound : b.Sound) (new : List α) : (b.accept new).Sound := by
  have below : ∀ n, n ∈ b.queue.map Prod.snd → n < b.issued.length := fun n member =>
    (sound.somewhere n).mpr (.inl member)
  refine ⟨?_, ?_, sound.takenOnce, ?_, ?_⟩
  · rintro ⟨a, n⟩ member
    rcases List.mem_append.mp member with old | fresh
    · have bound := below n (List.mem_map_of_mem old)
      simp only [Book.accept]
      rw [List.getElem?_append_left bound]
      exact sound.listed _ old
    · obtain ⟨bound, at_⟩ := List.mem_zipIdx_iff_le_and_getElem?_sub.mp fresh
      simp only [Book.accept]
      rw [List.getElem?_append_right bound]
      exact at_
  · simp only [Book.accept, List.map_append, List.zipIdx_map_snd]
    refine List.pairwise_append.mpr ⟨sound.ordered, List.pairwise_lt_range', ?_⟩
    intro m old n fresh
    exact Nat.lt_of_lt_of_le (below m old) (List.mem_range'_1.mp fresh).1
  · intro n
    simp only [Book.accept, List.map_append, List.zipIdx_map_snd, List.length_append, List.mem_append, List.mem_range'_1]
    have old := sound.somewhere n
    by_cases bound : n < b.issued.length
    · have : n < b.issued.length + new.length := by omega
      rcases old.mp bound with queued | taken
      · simp only [this, queued, true_or]
      · simp only [this, taken, or_true]
    · have absent := mt old.mpr bound
      rw [not_or] at absent
      simp only [absent.1, absent.2, false_or, or_false]
      omega
  · intro n member
    simp only [Book.accept, List.map_append, List.zipIdx_map_snd, List.mem_append, List.mem_range'_1] at member ⊢
    rcases member with old | fresh
    · exact sound.apart n old
    · intro taken
      have bound := (sound.somewhere n).mpr (.inr taken)
      omega

/-- Whoever has taken a ticket was allowed to take the entry that was accepted under it. -/
def TakenBy (allowed : ω → α → Prop) (b : Book α ω) : Prop :=
  ∀ k ∈ b.taken, ∃ a, b.issued[k.1]? = some a ∧ allowed k.2 a

section
variable {eligible : α → Prop} {allowed : ω → α → Prop} {who : ω} {b c : Book α ω} {found : Option α}

theorem Takes.queue_sublist (takes : b.Takes eligible who found c) : c.queue.Sublist b.queue := by
  cases takes with
  | nothing => exact .refl _
  | first shape =>
    rw [shape]
    exact List.Sublist.append_left (List.sublist_cons_self _ _) _

theorem Sound.takes (sound : b.Sound) (takes : b.Takes eligible who found c) : c.Sound := by
  have kept := takes.queue_sublist
  cases takes with
  | nothing => exact sound
  | @first front a n back shape _ _ =>
    have tickets : b.queue.map Prod.snd = front.map Prod.snd ++ n :: back.map Prod.snd := by simp [shape]
    have nodup : (front.map Prod.snd ++ n :: back.map Prod.snd).Nodup :=
      tickets ▸ sound.ordered.imp (fun less => Nat.ne_of_lt less)
    have gone : n ∉ (front ++ back).map Prod.snd := by
      rw [List.map_append]
      exact (List.nodup_middle.mp nodup).notMem
    have fresh : n ∉ b.taken.map Prod.fst := sound.apart n (tickets ▸ by simp)
    refine ⟨fun e member => sound.listed e (kept.subset member), sound.ordered.sublist (kept.map _), ?_, ?_, ?_⟩
    · rw [List.map_append, List.map_singleton]
      refine List.nodup_append.mpr ⟨sound.takenOnce, by simp, ?_⟩
      rintro m taken _ last rfl
      have same : m = n := List.mem_singleton.mp last
      exact fresh (same ▸ taken)
    · intro m
      rw [sound.somewhere m, tickets]
      simp only [List.mem_append, List.mem_cons, List.map_append, List.map_cons, List.map_nil, List.not_mem_nil,
        or_false]
      grind
    · intro m member taken
      rw [List.map_append] at taken
      rcases List.mem_append.mp taken with old | last
      · exact sound.apart m ((kept.map _).subset member) old
      · have same : m = n := List.mem_singleton.mp last
        exact gone (same ▸ member)

theorem TakenBy.accept (by_ : b.TakenBy allowed) (new : List α) : (b.accept new).TakenBy allowed := by
  intro k member
  obtain ⟨a, at_, may⟩ := by_ k member
  exact ⟨a, List.getElem?_append_left (List.getElem?_eq_some_iff.mp at_).1 ▸ at_, may⟩

theorem TakenBy.takes (by_ : b.TakenBy allowed) (sound : b.Sound) (takes : b.Takes eligible who found c)
    (may : ∀ a, eligible a → allowed who a) : c.TakenBy allowed := by
  cases takes with
  | nothing => exact by_
  | @first front a n back shape mine _ =>
    intro k member
    rcases List.mem_append.mp member with old | last
    · exact by_ k old
    · rw [List.mem_singleton.mp last]
      exact ⟨a, sound.listed (a, n) (shape ▸ by simp), may a mine⟩

/-- An entry is taken, or it keeps its place behind some of those that were before it: fewer than
before, if it was eligible. -/
theorem Takes.turn {front back : List (α × Nat)} {a : α} {n : Nat} (takes : b.Takes eligible who found c)
    (shape : b.queue = front ++ (a, n) :: back) :
    (n, who) ∈ c.taken ∧ eligible a ∨ ∃ front' back', c.queue = front' ++ (a, n) :: back' ∧ front'.Sublist front ∧
      (eligible a → front'.length < front.length) := by
  cases takes with
  | nothing none =>
    have mine : (a, n) ∈ b.queue := shape ▸ List.mem_append_right _ List.mem_cons_self
    exact .inr ⟨front, back, shape, .refl _, fun eligible => absurd eligible (none (a, n) mine)⟩
  | @first before d m after first mine earlier =>
    rw [first] at shape
    rcases List.append_eq_append_iff.mp shape with ⟨mid, rfl, split⟩ | ⟨mid, rfl, split⟩
    · rcases List.cons_eq_append_iff.mp split with ⟨rfl, here⟩ | ⟨rest, rfl, rfl⟩
      · cases here
        exact .inl ⟨List.mem_append_right _ List.mem_cons_self, mine⟩
      · refine .inr ⟨before ++ rest, back, by simp, ?_, fun _ => ?_⟩
        · exact List.Sublist.append_left (List.sublist_cons_self _ _) _
        · rw [List.length_append, List.length_append, List.length_cons]
          omega
    · rcases List.cons_eq_append_iff.mp split with ⟨rfl, here⟩ | ⟨rest, rfl, rfl⟩
      · cases here
        exact .inl ⟨List.mem_append_right _ List.mem_cons_self, mine⟩
      · have passed : (a, n) ∈ front ++ (a, n) :: rest := List.mem_append_right _ List.mem_cons_self
        refine .inr ⟨front, rest ++ after, by simp, .refl _, fun eligible => absurd eligible (earlier _ passed)⟩

theorem Takes.taken_subset (takes : b.Takes eligible who found c) : b.taken ⊆ c.taken := by
  cases takes with
  | nothing => exact List.Subset.refl _
  | first => exact List.subset_append_left _ _

end
end Book
end Tickets
