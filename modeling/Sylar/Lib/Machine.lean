import Mathlib.Data.List.Basic

namespace Machine

universe u v

section Fallible
variable {ε α β : Type}

@[simp] theorem ok_bind (a : α) (f : α → Except ε β) : (Except.ok a >>= f) = f a := rfl

@[simp] theorem error_bind (e : ε) (f : α → Except ε β) :
    ((Except.error e : Except ε α) >>= f) = .error e := rfl

@[simp] theorem pure_eq_ok (a : α) : (pure a : Except ε α) = .ok a := rfl

/-- A computation that returned has returned from each of its parts. -/
theorem bind_eq_ok {x : Except ε α} {f : α → Except ε β} {b : β} :
    (x >>= f) = .ok b ↔ ∃ a, x = .ok a ∧ f a = .ok b := by
  cases x <;> simp

end Fallible

variable {σ : Type u} {ℓ : Type v}

/-- The states reached from the initial ones. A label carries the operation
of its step together with everything the operation returned. -/
inductive Reach (Init : σ → Prop) (Step : σ → ℓ → σ → Prop) : σ → Prop
  | start {s} : Init s → Reach Init Step s
  | next {s l t} : Reach Init Step s → Step s l t → Reach Init Step t

theorem Reach.invariant {Init Inv : σ → Prop} {Step : σ → ℓ → σ → Prop}
    (initially : ∀ s, Init s → Inv s) (preserved : ∀ s l t, Inv s → Step s l t → Inv t)
    {s : σ} (reach : Reach Init Step s) : Inv s := by
  induction reach with
  | start first => exact initially _ first
  | next _ step ih => exact preserved _ _ _ ih step

/-- A finite run from `s`, with its labels in the order in which they occurred. -/
inductive Run (Step : σ → ℓ → σ → Prop) (s : σ) : List ℓ → σ → Prop
  | start : Run Step s [] s
  | next {ls t l u} : Run Step s ls t → Step t l u → Run Step s (ls ++ [l]) u

theorem Run.append {Step : σ → ℓ → σ → Prop} {s t u : σ} {ls ms : List ℓ} (run : Run Step s ls t)
    (more : Run Step t ms u) : Run Step s (ls ++ ms) u := by
  induction more with
  | start => rwa [List.append_nil]
  | next _ step ih =>
    rw [← List.append_assoc]
    exact .next ih step

theorem Run.cons {Step : σ → ℓ → σ → Prop} {s t u : σ} {l : ℓ} {ls : List ℓ} (step : Step s l t)
    (more : Run Step t ls u) : Run Step s (l :: ls) u :=
  Run.append (.next .start step) more

theorem Run.mono {Step More : σ → ℓ → σ → Prop} {s t : σ} {ls : List ℓ} (run : Run Step s ls t)
    (more : ∀ s l t, Step s l t → More s l t) : Run More s ls t := by
  induction run with
  | start => exact .start
  | next _ step ih => exact .next ih (more _ _ _ step)

theorem Reach.run {Init : σ → Prop} {Step : σ → ℓ → σ → Prop} {s t : σ} {ls : List ℓ} (reach : Reach Init Step s)
    (run : Run Step s ls t) : Reach Init Step t := by
  induction run with
  | start => exact reach
  | next _ step ih => exact .next ih step

/-- The steps of a list in turn. -/
def acts (act : σ → ℓ → Option σ) (s : σ) (ls : List ℓ) : Option σ := ls.foldlM act s

theorem run_of_acts (act : σ → ℓ → Option σ) {s t : σ} {ls : List ℓ} (done : acts act s ls = some t) :
    Run (fun s l t => act s l = some t) s ls t := by
  induction ls generalizing s with
  | nil =>
    cases done
    exact .start
  | cons l ls ih =>
    rw [acts, List.foldlM_cons] at done
    obtain ⟨u, first, rest⟩ := Option.bind_eq_some_iff.mp done
    exact Run.cons first (ih rest)

theorem Run.invariant {Step : σ → ℓ → σ → Prop} {Inv : σ → Prop} {s t : σ} {ls : List ℓ}
    (preserved : ∀ s l t, Inv s → Step s l t → Inv t) (first : Inv s) (run : Run Step s ls t) :
    Inv t := by
  induction run with
  | start => exact first
  | next _ step ih => exact preserved _ _ _ ih step

/-- The steps that meet a condition on the state before, the label and the state after.
A run of guarded steps is a run in which every step meets the condition. -/
def Guarded (Step A : σ → ℓ → σ → Prop) (s : σ) (l : ℓ) (t : σ) : Prop :=
  Step s l t ∧ A s l t

/-- Two conditions that agree on every step from a state with the invariant guard the
same runs, provided that the first condition carries the invariant along. -/
theorem Run.guarded_congr {Step A B : σ → ℓ → σ → Prop} (Inv : σ → Prop) {s t : σ} {ls : List ℓ}
    (exact' : ∀ s l t, Inv s → Step s l t → (A s l t ↔ B s l t))
    (preserved : ∀ s l t, Inv s → Step s l t → A s l t → Inv t) (first : Inv s) :
    Run (Guarded Step A) s ls t ↔ Run (Guarded Step B) s ls t := by
  constructor
  · intro run
    suffices both : Inv t ∧ Run (Guarded Step B) s ls t from both.2
    induction run with
    | start => exact ⟨first, .start⟩
    | next _ step ih =>
      exact ⟨preserved _ _ _ ih.1 step.1 step.2,
        .next ih.2 ⟨step.1, (exact' _ _ _ ih.1 step.1).mp step.2⟩⟩
  · intro run
    suffices both : Inv t ∧ Run (Guarded Step A) s ls t from both.2
    induction run with
    | start => exact ⟨first, .start⟩
    | next _ step ih =>
      have held := (exact' _ _ _ ih.1 step.1).mpr step.2
      exact ⟨preserved _ _ _ ih.1 step.1 held, .next ih.2 ⟨step.1, held⟩⟩

/-- Some step of the run meets the condition. -/
def Happens (Step E : σ → ℓ → σ → Prop) (s : σ) (ls : List ℓ) (t : σ) : Prop :=
  ∃ before l after u v, ls = before ++ l :: after ∧ Run Step s before u ∧ Step u l v ∧ E u l v ∧ Run Step v after t

theorem Happens.next {Step E : σ → ℓ → σ → Prop} {s t u : σ} {ls : List ℓ} {l : ℓ} (happens : Happens Step E s ls t)
    (step : Step t l u) : Happens Step E s (ls ++ [l]) u := by
  obtain ⟨before, m, after, x, y, rfl, run, at_, met, rest⟩ := happens
  exact ⟨before, m, after ++ [l], x, y, by simp, run, at_, met, rest.next step⟩

theorem Run.happens {Step E : σ → ℓ → σ → Prop} {s t u : σ} {ls : List ℓ} {l : ℓ} (run : Run Step s ls t)
    (step : Step t l u) (met : E t l u) : Happens Step E s (ls ++ [l]) u :=
  ⟨ls, l, [], t, u, rfl, run, step, met, .start⟩

end Machine
