import Mathlib.Logic.Function.Basic
import Sylar.Lib.Machine

/-! `ConfigVar::setValue` on several threads: the comparison and the listeners under the read lock, the
store under the write lock. -/

namespace Sylar
open Machine

variable {T : Type}

/-- A `ConfigVar`: its value, and the keys of `m_cbs` in their order. -/
structure ConfigVar (T : Type) where
  m_val : T
  m_cbs : List Nat
  sorted : m_cbs.Pairwise (· < ·)

/-- Where a thread is in `setValue(v)`: under the read lock with the listeners that are still to be
called, or before the store. -/
inductive Setting (T : Type)
  | idle
  | notifying (call : Nat) (v : T) (rest : List Nat)
  | storing (call : Nat) (v : T)
  deriving DecidableEq

/-- A listener has been called with the old and the new value. -/
structure Notification (T : Type) where
  listener : Nat
  call : Nat
  old_value : T
  new_value : T

/-- A call has stored its value over another one. -/
structure Assignment (T : Type) where
  call : Nat
  before : T
  new : T

/-- The variable, the threads, and what the listeners have been told and what has been stored so far.
Every call that finds another value has a number. -/
structure Setters (T : Type) where
  var : ConfigVar T
  thread : Nat → Setting T := fun _ => .idle
  notified : List (Notification T) := []
  stored : List (Assignment T) := []
  calls : Nat := 0

namespace Setters

inductive Act (T : Type)
  | setValue (v : T)
  | notify
  | unlock
  | store

/-- Nobody holds the read lock. -/
def Unread (s : Setters T) : Prop := ∀ w call v rest, s.thread w ≠ .notifying call v rest

variable [DecidableEq T]

def act (s : Setters T) (w : Nat) (a : Act T) : Option (Setters T) :=
  match a, s.thread w with
  | .setValue v, .idle =>
    if v = s.var.m_val then some s
    else some { s with
      thread := Function.update s.thread w (.notifying s.calls v s.var.m_cbs)
      calls := s.calls + 1 }
  | .notify, .notifying call v (i :: rest) =>
    some { s with
      thread := Function.update s.thread w (.notifying call v rest)
      notified := s.notified ++ [{ listener := i, call := call, old_value := s.var.m_val, new_value := v }] }
  | .unlock, .notifying call v [] => some { s with thread := Function.update s.thread w (.storing call v) }
  | .store, .storing call v =>
    some { s with
      var := { s.var with m_val := v }
      thread := Function.update s.thread w .idle
      stored := s.stored ++ [{ call := call, before := s.var.m_val, new := v }] }
  | _, _ => none

/-- The write lock is free only when nobody holds the read lock. -/
def Step (s : Setters T) (l : Nat × Act T) (t : Setters T) : Prop :=
  (l.2 = .store → s.Unread) ∧ s.act l.1 l.2 = some t

omit [DecidableEq T] in
/-- The last notification of the listener, if there is one, has the value. -/
def LastTold (s : Setters T) (i : Nat) (v : T) : Prop :=
  ∀ n, (s.notified.filter (·.listener = i)).getLast? = some n → n.new_value = v

/-- When no call is under way every listener has been told the stored value last, and whoever has been
told an old value has been told the one that the call of the notification has then replaced. -/
structure Mirrored (s : Setters T) : Prop where
  last : (∀ w, s.thread w = .idle) → ∀ i, s.LastTold i s.var.m_val
  old : ∀ n ∈ s.notified, ∀ st ∈ s.stored, n.call = st.call → n.old_value = st.before ∧ n.new_value = st.new

/-- No call finds another value while a different one is between its comparison and its store. -/
def Apart (s : Setters T) (l : Nat × Act T) (_ : Setters T) : Prop :=
  ∀ v, l.2 = .setValue v → v ≠ s.var.m_val → ∀ w, w ≠ l.1 → s.thread w = .idle

variable {s t : Setters T} {w : Nat}

/-- The thread `w` is the only one with a call under way, and it is the latest call. -/
structure Busy (s : Setters T) (w call : Nat) (v : T) : Prop where
  others : ∀ u, u ≠ w → s.thread u = .idle
  latest : call + 1 = s.calls
  told : ∀ n ∈ s.notified, n.call = call → n.old_value = s.var.m_val ∧ n.new_value = v
  before : ∀ st ∈ s.stored, st.call < call

/-- How far the listeners are with the only call that is under way. -/
inductive Phase (s : Setters T) : Prop
  | idle : (∀ w, s.thread w = .idle) → (∀ i, s.LastTold i s.var.m_val) → Phase s
  | notifying {w call v rest} : s.thread w = .notifying call v rest → s.Busy w call v → rest.Nodup →
      (∀ i ∈ rest, i ∈ s.var.m_cbs) → (∀ i, s.LastTold i (if i ∈ rest then s.var.m_val else v)) → Phase s
  | storing {w call v} : s.thread w = .storing call v → s.Busy w call v → (∀ i, s.LastTold i v) → Phase s

structure Good (s : Setters T) : Prop where
  phase : s.Phase
  known : ∀ n ∈ s.notified, n.listener ∈ s.var.m_cbs
  old : ∀ n ∈ s.notified, ∀ st ∈ s.stored, n.call = st.call → n.old_value = st.before ∧ n.new_value = st.new
  counted : ∀ n ∈ s.notified, n.call < s.calls
  countedStores : ∀ st ∈ s.stored, st.call < s.calls

omit [DecidableEq T] in
theorem lastTold_of_unknown {i : Nat} {v : T} (unknown : ∀ n ∈ s.notified, n.listener ≠ i) : s.LastTold i v := by
  intro n last
  have none : s.notified.filter (·.listener = i) = [] := by
    rw [List.filter_eq_nil_iff]
    intro n member
    simpa using unknown n member
  rw [none] at last
  cases last

omit [DecidableEq T] in
/-- One more notification is the last one of its listener, and the other listeners have theirs. -/
theorem LastTold.notify {i : Nat} {v : T} {n : Notification T} (notified : t.notified = s.notified ++ [n])
    (before : i ≠ n.listener → s.LastTold i v) (now : i = n.listener → n.new_value = v) : t.LastTold i v := by
  intro m last
  rw [notified, List.filter_append] at last
  by_cases mine : i = n.listener
  · have kept : [n].filter (·.listener = i) = [n] := by simp [mine]
    rw [kept, List.getLast?_concat] at last
    cases last
    exact now mine
  · have dropped : [n].filter (·.listener = i) = [] := by simp [Ne.symm mine]
    rw [dropped, List.append_nil] at last
    exact before mine m last

omit [DecidableEq T] in
theorem Good.mirrored (good : s.Good) : s.Mirrored := by
  refine ⟨fun quiet => ?_, good.old⟩
  cases good.phase with
  | idle _ last => exact last
  | notifying at_ => cases (quiet _).symm.trans at_
  | storing at_ => cases (quiet _).symm.trans at_

omit [DecidableEq T] in
theorem idle_update {x : Setting T} (idle : ∀ u, u ≠ w → s.thread u = .idle) :
    ∀ u, u ≠ w → Function.update s.thread w x u = .idle := by
  intro u other
  rw [Function.update_of_ne other]
  exact idle u other

omit [DecidableEq T] in
theorem idle_back (idle : ∀ u, u ≠ w → s.thread u = .idle) (u : Nat) :
    Function.update s.thread w .idle u = .idle := by
  by_cases same : u = w
  · rw [same, Function.update_self]
  · exact idle_update idle u same

theorem Good.setValue {v : T} (good : s.Good) (apart : s.Apart (w, .setValue v) t)
    (done : s.act w (.setValue v) = some t) : t.Good := by
  cases at_ : s.thread w with
  | notifying call v' rest => simp only [act, at_, reduceCtorEq] at done
  | storing call v' => simp only [act, at_, reduceCtorEq] at done
  | idle =>
    simp only [act, at_] at done
    split at done
    · cases done
      exact good
    rename_i differs
    cases done
    have others := apart v rfl differs
    have quiet : ∀ u, s.thread u = .idle := by
      intro u
      by_cases same : u = w
      · rw [same, at_]
      · exact others u same
    have last : ∀ i, s.LastTold i s.var.m_val := by
      cases good.phase with
      | idle _ last => exact last
      | notifying busy => cases (quiet _).symm.trans busy
      | storing busy => cases (quiet _).symm.trans busy
    have busy : Busy (T := T) { s with
        thread := Function.update s.thread w (.notifying s.calls v s.var.m_cbs), calls := s.calls + 1 } w s.calls v := {
      others := idle_update others
      latest := rfl
      told := fun n member same => absurd same (Nat.ne_of_lt (good.counted n member))
      before := good.countedStores }
    refine ⟨.notifying (Function.update_self ..) busy (s.var.sorted.imp Nat.ne_of_lt) (fun _ => id) ?_,
      good.known, good.old, ?_, ?_⟩
    · intro i
      split
      · exact last i
      · rename_i unknown
        exact lastTold_of_unknown (s := s) fun n member same => unknown (same ▸ good.known n member)
    · exact fun n member => Nat.lt_succ_of_lt (good.counted n member)
    · exact fun st member => Nat.lt_succ_of_lt (good.countedStores st member)

omit [DecidableEq T] in
/-- The thread with the call is the one that the phase names. -/
theorem Busy.eq {u call : Nat} {v : T} {x : Setting T} (busy : s.Busy u call v) (at_ : s.thread w = x)
    (other : x ≠ .idle) : w = u := by
  by_contra differs
  exact other (at_.symm.trans (busy.others w differs))

omit [DecidableEq T] in
/-- A thread that tells the listeners has the only call that is under way. -/
theorem Good.notifying (good : s.Good) {call : Nat} {v : T} {rest : List Nat}
    (at_ : s.thread w = .notifying call v rest) :
    s.Busy w call v ∧ rest.Nodup ∧ (∀ i ∈ rest, i ∈ s.var.m_cbs) ∧
      ∀ i, s.LastTold i (if i ∈ rest then s.var.m_val else v) := by
  cases good.phase with
  | idle quiet => cases (quiet w).symm.trans at_
  | storing stored busy =>
    cases busy.eq at_ nofun
    cases at_.symm.trans stored
  | notifying telling busy nodup known last =>
    cases busy.eq at_ nofun
    cases at_.symm.trans telling
    exact ⟨busy, nodup, known, last⟩

omit [DecidableEq T] in
/-- A thread that is about to store has told all listeners. -/
theorem Good.storing (good : s.Good) {call : Nat} {v : T} (at_ : s.thread w = .storing call v) :
    s.Busy w call v ∧ ∀ i, s.LastTold i v := by
  cases good.phase with
  | idle quiet => cases (quiet w).symm.trans at_
  | notifying telling busy =>
    cases busy.eq at_ nofun
    cases at_.symm.trans telling
  | storing stored busy last =>
    cases busy.eq at_ nofun
    cases at_.symm.trans stored
    exact ⟨busy, last⟩

theorem Good.notify (good : s.Good) (done : s.act w .notify = some t) : t.Good := by
  cases at_ : s.thread w with
  | idle => simp only [act, at_, reduceCtorEq] at done
  | storing call v => simp only [act, at_, reduceCtorEq] at done
  | notifying call v rest =>
    cases rest with
    | nil => simp only [act, at_, reduceCtorEq] at done
    | cons i rest =>
      simp only [act, at_] at done
      cases done
      obtain ⟨busy, nodup, known, last⟩ := good.notifying at_
      obtain ⟨once, nodup⟩ := List.nodup_cons.mp nodup
      have told : ∀ n ∈ s.notified ++ [⟨i, call, s.var.m_val, v⟩], n.call = call →
          n.old_value = s.var.m_val ∧ n.new_value = v :=
        List.forall_mem_append.mpr ⟨busy.told, List.forall_mem_singleton.mpr fun _ => ⟨rfl, rfl⟩⟩
      refine ⟨.notifying (Function.update_self ..) ⟨idle_update busy.others, busy.latest, told, busy.before⟩ nodup
        (fun j member => known j (List.mem_cons_of_mem _ member)) ?_, ?_, ?_, ?_, good.countedStores⟩
      · intro j
        refine LastTold.notify (s := s) rfl (fun other => ?_) (fun same => ?_)
        · have kept : j ∈ i :: rest ↔ j ∈ rest := List.mem_cons.trans (or_iff_right other)
          have lastTold := last j
          simp only [kept] at lastTold
          exact lastTold
        · rw [if_neg (same ▸ once)]
      · exact List.forall_mem_append.mpr ⟨good.known, List.forall_mem_singleton.mpr (known i List.mem_cons_self)⟩
      · refine List.forall_mem_append.mpr ⟨good.old, List.forall_mem_singleton.mpr fun st before same => ?_⟩
        exact absurd same.symm (Nat.ne_of_lt (busy.before st before))
      · refine List.forall_mem_append.mpr ⟨good.counted, List.forall_mem_singleton.mpr ?_⟩
        exact busy.latest ▸ Nat.lt_succ_self _

theorem Good.unlock (good : s.Good) (done : s.act w .unlock = some t) : t.Good := by
  cases at_ : s.thread w with
  | idle => simp only [act, at_, reduceCtorEq] at done
  | storing call v => simp only [act, at_, reduceCtorEq] at done
  | notifying call v rest =>
    cases rest with
    | cons i rest => simp only [act, at_, reduceCtorEq] at done
    | nil =>
      simp only [act, at_] at done
      cases done
      obtain ⟨busy, -, -, last⟩ := good.notifying at_
      refine ⟨.storing (Function.update_self ..) ⟨idle_update busy.others, busy.latest, busy.told, busy.before⟩ ?_,
        good.known, good.old, good.counted, good.countedStores⟩
      intro i
      have lastTold := last i
      rw [if_neg List.not_mem_nil] at lastTold
      exact lastTold

/-- The store gives the variable what the listeners have been told. -/
theorem Good.store (good : s.Good) (done : s.act w .store = some t) : t.Good := by
  cases at_ : s.thread w with
  | idle => simp only [act, at_, reduceCtorEq] at done
  | notifying call v rest => simp only [act, at_, reduceCtorEq] at done
  | storing call v =>
    simp only [act, at_] at done
    cases done
    obtain ⟨busy, last⟩ := good.storing at_
    refine ⟨.idle (idle_back busy.others) last, good.known, fun n member => ?_, good.counted, ?_⟩
    · refine List.forall_mem_append.mpr ⟨good.old n member, List.forall_mem_singleton.mpr fun same => ?_⟩
      exact busy.told n member same
    · refine List.forall_mem_append.mpr ⟨good.countedStores, List.forall_mem_singleton.mpr ?_⟩
      exact busy.latest ▸ Nat.lt_succ_self _

theorem Good.step {l : Nat × Act T} (good : s.Good) (step : Guarded Step Apart s l t) : t.Good := by
  obtain ⟨w, a⟩ := l
  obtain ⟨⟨-, done⟩, apart⟩ := step
  cases a with
  | setValue v => exact good.setValue apart done
  | notify => exact good.notify done
  | unlock => exact good.unlock done
  | store => exact good.store done

omit [DecidableEq T] in
theorem good_init (var : ConfigVar T) : Good { var := var } :=
  ⟨.idle (fun _ => rfl) fun _ => nofun, nofun, nofun, nofun, nofun⟩

/-- In every run in which no call finds another value while a different one is between its comparison
and its store, the listeners agree with the variable. -/
theorem run_mirrored {var : ConfigVar T} {ls : List (Nat × Act T)}
    (run : Run (Guarded Step Apart) { var := var } ls t) : t.Mirrored :=
  (Run.invariant (fun _ _ _ good step => good.step step) (good_init var) run).mirrored

/-- One call of `setValue` with one listener. -/
def aloneSet (w v : Nat) : List (Nat × Act Nat) := [(w, .setValue v), (w, .notify), (w, .unlock), (w, .store)]

/-- One listener of a variable of value 0. -/
def listened : ConfigVar Nat := { m_val := 0, m_cbs := [1], sorted := List.pairwise_singleton _ _ }

omit [DecidableEq T] in
theorem unread_of_storing (storing : ∀ u, s.thread u = .idle ∨ ∃ call v, s.thread u = .storing call v) :
    s.Unread := by
  intro u call v rest busy
  rcases storing u with idle | ⟨call', v', at_⟩
  · cases idle.symm.trans busy
  · cases at_.symm.trans busy

/-- A thread sets 1, and then another one sets 2. -/
theorem mirrored_oneAfterOther : ∃ t, Run (Guarded Step Apart) { var := listened } (aloneSet 0 1 ++ aloneSet 1 2) t ∧
    t.Mirrored := by
  have run : ∃ t, Run (Guarded Step Apart) { var := listened } (aloneSet 0 1 ++ aloneSet 1 2) t := by
    refine ⟨_, .cons ⟨⟨nofun, rfl⟩, ?_⟩ <| .cons ⟨⟨nofun, rfl⟩, nofun⟩ <| .cons ⟨⟨nofun, rfl⟩, nofun⟩ <|
      .cons ⟨⟨fun _ => unread_of_storing fun u => ?_, rfl⟩, nofun⟩ <| .cons ⟨⟨nofun, rfl⟩, ?_⟩ <|
      .cons ⟨⟨nofun, rfl⟩, nofun⟩ <| .cons ⟨⟨nofun, rfl⟩, nofun⟩ <|
      .cons ⟨⟨fun _ => unread_of_storing fun u => ?_, rfl⟩, nofun⟩ .start⟩
    · exact fun _ _ _ _ _ => rfl
    · by_cases same : u = 0
      · subst same
        exact .inr ⟨0, 1, rfl⟩
      · exact .inl (idle_update (idle_update (idle_update fun _ _ => rfl)) u same)
    · exact fun _ _ _ u _ => idle_back (idle_update (idle_update (idle_update fun _ _ => rfl))) u
    · by_cases same : u = 1
      · subst same
        exact .inr ⟨1, 2, rfl⟩
      · refine .inl (idle_update (idle_update (idle_update fun u _ => ?_)) u same)
        exact idle_back (idle_update (idle_update (idle_update fun _ _ => rfl))) u
  obtain ⟨t, run⟩ := run
  exact ⟨t, run, run_mirrored run⟩

/-- Two threads compare before either has stored. -/
def crossed : List (Nat × Act Nat) :=
  [(0, .setValue 1), (0, .notify), (1, .setValue 2), (1, .notify), (0, .unlock), (1, .unlock), (1, .store), (0, .store)]

/-- The listener has been told 2 last, and the variable has 1. -/
theorem not_mirrored_crossed : ∃ t, Run (Step (T := Nat)) { var := listened } crossed t ∧ t.var.m_val = 1 ∧
    ¬ t.Mirrored := by
  have run : ∃ t, Run (Step (T := Nat)) { var := listened } crossed t ∧ t.var.m_val = 1 ∧
      (∀ u, t.thread u = .idle) ∧ t.notified = [⟨1, 0, 0, 1⟩, ⟨1, 1, 0, 2⟩] := by
    refine ⟨_, .cons ⟨nofun, rfl⟩ <| .cons ⟨nofun, rfl⟩ <| .cons ⟨nofun, rfl⟩ <| .cons ⟨nofun, rfl⟩ <|
      .cons ⟨nofun, rfl⟩ <| .cons ⟨nofun, rfl⟩ <| .cons ⟨fun _ => unread_of_storing fun u => ?_, rfl⟩ <|
      .cons ⟨fun _ => unread_of_storing fun u => ?_, rfl⟩ .start, rfl, fun u => ?_, rfl⟩
    all_goals
      by_cases first : u = 0
      · subst first
        simp
      · by_cases second : u = 1
        · subst second
          simp
        · simp [first, second]
  obtain ⟨t, steps, value, quiet, notified⟩ := run
  refine ⟨t, steps, value, fun mirrored => ?_⟩
  have told := mirrored.last quiet 1 ⟨1, 1, 0, 2⟩ (by rw [notified]; rfl)
  rw [value] at told
  exact absurd told (by decide)

end Setters
end Sylar
