import Sylar.IOManagerStep

/-! Where the wake-up of a fiber lies that waits for one event: with the registration of the event, or,
once the event has been triggered, in one entry of one queue. -/

namespace Sylar
open Machine

variable {K κ : Type}

/-- The number of entries of the fiber in the queue of a scheduler. -/
def entriesOf (queues : Queues κ) (f : FiberId) (scheduler : SchedId) : Nat :=
  (queues scheduler).countP fun ft => ft.fiber = some f

/-- No registration resumes the fiber. -/
def Unregistered (board : Nat × Event → Option (Registration κ)) (f : FiberId) : Prop :=
  ∀ slot x, board slot = some x → x.task ≠ .fiber f

def Unqueued (queues : Queues κ) (f : FiberId) : Prop := ∀ scheduler, entriesOf queues f scheduler = 0

/-- At most the registration in the slot, or one entry, resumes the fiber. -/
inductive OneWakeup (board : Nat × Event → Option (Registration κ)) (queues : Queues κ) (f : FiberId)
    (slot : Nat × Event) : Prop
  | registered {owner} : board slot = some ⟨owner, .fiber f⟩ →
      (∀ other x, board other = some x → x.task = .fiber f → other = slot) → Unqueued queues f →
      OneWakeup board queues f slot
  | released {scheduler} : Unregistered board f → entriesOf queues f scheduler ≤ 1 →
      (∀ other, other ≠ scheduler → entriesOf queues f other = 0) → OneWakeup board queues f slot

section Queues
variable {queues more : Queues κ} {f : FiberId} {scheduler : SchedId}

theorem unqueued_iff : Unqueued queues f ↔ ∀ scheduler, ∀ ft ∈ queues scheduler, ft.fiber ≠ some f := by
  simp [Unqueued, entriesOf, List.countP_eq_zero]

theorem entriesOf_append {new : List (FiberAndThread κ)} (appended : more scheduler = queues scheduler ++ new) :
    entriesOf more f scheduler = entriesOf queues f scheduler + new.countP fun ft => ft.fiber = some f := by
  rw [entriesOf, appended, List.countP_append, entriesOf]

/-- `triggerEvent` makes an entry of the fiber only from a registration of the fiber. -/
theorem countP_entry_of_ne {task : Continuation κ} (foreign : task ≠ .fiber f) :
    ([task.entry].countP fun ft => ft.fiber = some f) = 0 := by
  cases task with
  | callback cb => rfl
  | fiber g =>
    have apart : g ≠ f := fun same => foreign (same ▸ rfl)
    simp [Continuation.entry, apart]

/-- A worker takes an entry off a queue. -/
theorem entriesOf_eraseIdx {i : Nat} {ft : FiberAndThread κ} (found : (queues scheduler)[i]? = some ft)
    (erased : more scheduler = (queues scheduler).eraseIdx i) :
    entriesOf queues f scheduler = entriesOf more f scheduler + if ft.fiber = some f then 1 else 0 := by
  obtain ⟨inside, at_⟩ := List.getElem?_eq_some_iff.mp found
  have split : queues scheduler = (queues scheduler).take i ++ ft :: (queues scheduler).drop (i + 1) := by
    rw [← at_, List.getElem_cons_drop, List.take_append_drop]
  rw [entriesOf, entriesOf, erased, List.eraseIdx_eq_take_drop_succ]
  conv_lhs => rw [split]
  rw [List.countP_append, List.countP_append, List.countP_cons]
  simp only [decide_eq_true_eq]
  omega

end Queues

section OneWakeup
variable {board after : Nat × Event → Option (Registration κ)} {queues more : Queues κ} {f : FiberId}
  {slot : Nat × Event}

/-- A fiber that nothing resumes. -/
theorem OneWakeup.away (unregistered : Unregistered board f) (unqueued : Unqueued queues f) :
    OneWakeup board queues f slot := by
  have one : entriesOf queues f 0 ≤ 1 := (Nat.le_of_eq (unqueued 0)).trans (Nat.zero_le 1)
  exact .released unregistered one fun other _ => unqueued other

/-- The queues have no more entries of the fiber than before. -/
theorem OneWakeup.fewer (wakeup : OneWakeup board queues f slot)
    (fewer : ∀ scheduler, entriesOf more f scheduler ≤ entriesOf queues f scheduler) : OneWakeup board more f slot := by
  cases wakeup with
  | registered lies only unqueued =>
    exact .registered lies only fun scheduler => Nat.le_zero.mp (unqueued scheduler ▸ fewer scheduler)
  | released unregistered one others =>
    exact .released unregistered ((fewer _).trans one) fun other apart =>
      Nat.le_zero.mp (others other apart ▸ fewer other)

/-- Once the fiber has been taken off a queue, nothing resumes it again. -/
theorem OneWakeup.taken (wakeup : OneWakeup board queues f slot) {scheduler : SchedId}
    (one : entriesOf queues f scheduler = entriesOf more f scheduler + 1)
    (others : ∀ other, other ≠ scheduler → more other = queues other) : Unregistered board f ∧ Unqueued more f := by
  cases wakeup with
  | registered lies only unqueued =>
    rw [unqueued scheduler] at one
    omega
  | @released holder unregistered atMost none =>
    have same : scheduler = holder := by
      by_contra apart
      rw [none scheduler apart] at one
      omega
    subst same
    refine ⟨unregistered, fun other => ?_⟩
    by_cases here : other = scheduler
    · subst here
      omega
    · rw [entriesOf, others other here]
      exact none other here

/-- A change of the registrations, other than a new one of the fiber, moves its wake-up at most from
the registration to a queue. -/
theorem OneWakeup.change {a : Change κ} (wakeup : OneWakeup board queues f slot) (step : Board.Step board a after)
    (foreign : ∀ other x, a = .put other x → x.task ≠ .fiber f)
    (appended : ∀ scheduler, more scheduler = queues scheduler ++ (a.appended scheduler).toList) :
    OneWakeup after more f slot := by
  cases step with
  | @put other x free =>
    have same : more = queues := by
      funext scheduler
      exact (appended scheduler).trans (List.append_nil _)
    rw [same]
    cases wakeup with
    | @registered owner lies only unqueued =>
      have apart : slot ≠ other := fun here => by cases free.symm.trans (here ▸ lies)
      refine .registered ((Function.update_of_ne apart _ _).trans lies) (fun place y lies task => ?_) unqueued
      rcases Board.update_eq_some rfl lies with ⟨-, rfl⟩ | ⟨-, old⟩
      · exact absurd task (foreign _ _ rfl)
      · exact only place y old task
    | released unregistered one others =>
      refine .released (fun place y lies => ?_) one others
      rcases Board.update_eq_some rfl lies with ⟨-, rfl⟩ | ⟨-, old⟩
      · exact foreign _ _ rfl
      · exact unregistered place y old
  | @take other x way content =>
    have grown : ∀ scheduler, x.task ≠ .fiber f ∨ way = .discarded ∨ x.scheduler ≠ some scheduler →
        entriesOf more f scheduler = entriesOf queues f scheduler := by
      intro scheduler none
      rw [entriesOf_append (appended scheduler), Nat.add_eq_left]
      cases way with
      | discarded => rfl
      | scheduled =>
        simp only [Change.appended]
        split
        · rename_i owner
          rcases none with other | way | apart
          · exact countP_entry_of_ne other
          · cases way
          · exact absurd owner apart
        · rfl
    cases wakeup with
    | @registered owner lies only unqueued =>
      by_cases here : other = slot
      · subst here
        cases lies.symm.trans content
        have unregistered : Unregistered (Function.update board other none) f := fun place y lies task =>
          (Board.clear_eq_some lies).1 (only place y (Board.clear_eq_some lies).2 task)
        cases owner with
        | none =>
          refine .away unregistered fun scheduler => (grown scheduler (.inr (.inr ?_))).trans (unqueued scheduler)
          exact fun owner => by cases owner
        | some owner =>
          have one : entriesOf more f owner ≤ 1 := by
            rw [entriesOf_append (appended owner), unqueued owner, Nat.zero_add]
            refine List.countP_le_length.trans ?_
            cases Change.appended owner _ with
            | none => exact Nat.zero_le 1
            | some ft => exact Nat.le_refl 1
          refine .released unregistered one fun scheduler apart => ?_
          refine (grown scheduler (.inr (.inr fun same => ?_))).trans (unqueued scheduler)
          exact apart (Option.some.inj same).symm
      · refine .registered ((Function.update_of_ne (Ne.symm here) _ _).trans lies) ?_ ?_
        · exact fun place y lies task => only place y (Board.clear_eq_some lies).2 task
        · intro scheduler
          exact (grown scheduler (.inl fun task => here (only other x content task))).trans (unqueued scheduler)
    | released unregistered one others =>
      have same : ∀ scheduler, entriesOf more f scheduler = entriesOf queues f scheduler := fun scheduler =>
        grown scheduler (.inl (unregistered other x content))
      exact .released (fun place y lies => unregistered place y (Board.clear_eq_some lies).2) (same _ ▸ one)
        fun scheduler apart => (same scheduler).trans (others scheduler apart)

theorem OneWakeup.run {acts : List (Change κ)} (wakeup : OneWakeup board queues f slot)
    (run : Run Board.Step board acts after) (foreign : ∀ other x, .put other x ∈ acts → x.task ≠ .fiber f)
    (appended : ∀ scheduler, more scheduler = queues scheduler ++ acts.filterMap (Change.appended scheduler)) :
    OneWakeup after more f slot := by
  induction run generalizing more with
  | start =>
    have same : more = queues := by
      funext scheduler
      rw [appended, List.filterMap_nil, List.append_nil]
    exact same ▸ wakeup
  | @next acts before a after _ step ih =>
    have until_ : OneWakeup before (fun scheduler => queues scheduler ++ acts.filterMap (Change.appended scheduler))
        f slot := ih (fun other x member => foreign other x (List.mem_append_left _ member)) fun _ => rfl
    refine until_.change step ?_ ?_
    · rintro other x rfl
      exact foreign other x (List.mem_append_right _ (List.mem_singleton_self _))
    · intro scheduler
      rw [appended, List.filterMap_append, List.append_assoc]
      rfl

end OneWakeup

namespace IOManager

variable {ep : Epoll K} {s t : IOManager K κ} {f : FiberId}

/-- Nothing resumes the fiber. -/
structure Away (s : IOManager K κ) (f : FiberId) : Prop where
  unregistered : Unregistered s.board f
  unqueued : Unqueued s.queues f

/-- At most one wake-up is on its way to the fiber, and it is that of the event. -/
def Awaits (s : IOManager K κ) (f : FiberId) (fd : Nat) (event : Event) : Prop :=
  OneWakeup s.board s.queues f (fd, event)

/-- The operation does not register the fiber. -/
def Spares (op : EventOp κ) (f : FiberId) : Prop :=
  ∀ fd event caller, op = .addEvent fd event none caller → caller.fiber ≠ f

/-- The registrations that an operation makes. -/
theorem changes_foreign {op : EventOp κ} {out : EventOut} (spares : Spares op f) (slot : Nat × Event)
    (x : Registration κ) (member : .put slot x ∈ s.changes op out) : x.task ≠ .fiber f := by
  obtain ⟨fd, event, cb, caller, rfl, rfl⟩ := changes_put member
  cases cb with
  | some cb => nofun
  | none =>
    intro task
    exact spares fd event caller rfl (Continuation.fiber.inj task)

theorem Away.step (good : s.Good) {l : EventOp κ × EventOut} (away : s.Away f) (step : s.Step ep l t)
    (spares : Spares l.1 f) : t.Away f := by
  have refines := good.refines ep step
  have kept := Board.run_forall (P := fun (x : Registration κ) => x.task ≠ .fiber f) refines.run away.unregistered
    (changes_foreign spares)
  refine ⟨kept.1, unqueued_iff.mpr fun scheduler ft member fiber => ?_⟩
  rw [refines.queues] at member
  rcases List.mem_append.mp member with old | new
  · exact unqueued_iff.mp away.unqueued scheduler ft old fiber
  · obtain ⟨a, inChanges, appended⟩ := List.mem_filterMap.mp new
    obtain ⟨slot, x, rfl, -, rfl⟩ := Change.appended_eq_some appended
    exact kept.2 slot x .scheduled inChanges (Continuation.eq_fiber fiber)

theorem Awaits.step (good : s.Good) {l : EventOp κ × EventOut} {fd : Nat} {event : Event}
    (awaits : s.Awaits f fd event) (step : s.Step ep l t) (spares : Spares l.1 f) : t.Awaits f fd event := by
  have refines := good.refines ep step
  exact OneWakeup.run awaits refines.run (changes_foreign spares) refines.queues

/-- A fiber that adds an event for itself awaits it, if it succeeds. -/
theorem Away.addEvent (good : s.Good) {fd : Nat} {event : Event} {caller : Caller} {out : EventOut}
    (away : s.Away caller.fiber) (step : s.Step ep (.addEvent fd event none caller, out) t) :
    if out.success then t.Awaits caller.fiber fd event else t.Away caller.fiber := by
  have refines := good.refines ep step
  obtain ⟨run, queues⟩ := And.intro refines.run refines.queues
  simp only [changes] at run queues
  split
  · rename_i success
    rw [if_pos success] at run queues
    have same : t.queues = s.queues := by
      funext scheduler
      exact (queues scheduler).trans (List.append_nil _)
    have lies := good.addEvent_board step success
    refine .registered lies (fun other x at_ task => ?_) (same ▸ away.unqueued)
    rcases Board.lay_or_put run at_ with old | put
    · exact absurd task (away.unregistered other x old)
    · cases List.mem_singleton.mp put
      rfl
  · rename_i failure
    rw [if_neg failure] at run queues
    have same : t.queues = s.queues := by
      funext scheduler
      exact (queues scheduler).trans (List.append_nil _)
    refine ⟨fun other x lies => ?_, same ▸ away.unqueued⟩
    rcases Board.lay_or_put run lies with old | put
    · exact away.unregistered other x old
    · cases put

end IOManager
end Sylar
