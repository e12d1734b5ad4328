import Mathlib.Data.List.Basic

/-!
# Executions of an event-emitting transition system

A system is given by a partial step function: from a state and an action it
either is not enabled or yields the next state and the events it makes
visible.  A run is a list of actions.  These are the notions that all
developments share: to run a list of actions, to require a condition of every
step of a run, and to name the states that a run passes through.  A run is
unfolded from its first action, or split between two parts.
-/

namespace Transition

variable {σ α ε : Type*}

/-- Execute the actions in order, collecting the emitted events.  The run is
undefined as soon as one action is not enabled. -/
def run (step : σ → α → Option (σ × List ε)) :
    σ → List α → Option (σ × List ε)
  | s, [] => some (s, [])
  | s, a :: as =>
      match step s a with
      | none => none
      | some (s₁, es₁) =>
          match run step s₁ as with
          | none => none
          | some (s₂, es₂) => some (s₂, es₁ ++ es₂)

/-- Whether a step or a run is possible and ends in `P` is found by taking
it. -/
instance decidableExists (result : Option (σ × List ε)) (P : σ → List ε → Prop)
    [∀ s es, Decidable (P s es)] :
    Decidable (∃ s es, result = some (s, es) ∧ P s es) :=
  match result with
  | none => .isFalse (by simp)
  | some (s, es) => decidable_of_iff (P s es) (by simp)

/-- Every step of the run starts in a state that satisfies `P` for the action
taken there. -/
def Throughout (step : σ → α → Option (σ × List ε)) (P : σ → α → Prop) :
    σ → List α → Prop
  | _, [] => True
  | s, a :: as =>
      P s a ∧
        match step s a with
        | none => True
        | some (s₁, _) => Throughout step P s₁ as

/-- The run passes through the state. -/
def Visits (step : σ → α → Option (σ × List ε)) (s : σ) (as : List α)
    (s₁ : σ) : Prop :=
  ∃ as₁ as₂ es, as = as₁ ++ as₂ ∧ run step s as₁ = some (s₁, es)

/-- The run takes the action and is then in the given state. -/
def Takes (step : σ → α → Option (σ × List ε)) (s : σ) (as : List α) (a : α)
    (s₁ : σ) : Prop :=
  ∃ as₁ as₂ es, as = as₁ ++ a :: as₂ ∧
    run step s (as₁ ++ [a]) = some (s₁, es)

instance Throughout.decidable (step : σ → α → Option (σ × List ε))
    (P : σ → α → Prop) [∀ s a, Decidable (P s a)] :
    ∀ s as, Decidable (Throughout step P s as)
  | _, [] => .isTrue trivial
  | s, a :: as =>
      letI _tail : Decidable
          (match step s a with
            | none => True
            | some (s₁, _) => Throughout step P s₁ as) :=
        match step s a with
        | none => .isTrue trivial
        | some (s₁, _) => Throughout.decidable step P s₁ as
      inferInstanceAs (Decidable (P s a ∧ _))

/-! ## Unfolding a run -/

section Unfold

variable {step : σ → α → Option (σ × List ε)} {P : σ → α → Prop}

@[simp] theorem run_nil (s : σ) : run step s [] = some (s, []) := rfl

theorem run_cons_eq_some {s s' : σ} {a : α} {as : List α} {es : List ε} :
    run step s (a :: as) = some (s', es) ↔
      ∃ s₁ es₁ es₂, step s a = some (s₁, es₁) ∧
        run step s₁ as = some (s', es₂) ∧ es = es₁ ++ es₂ := by
  rw [run]
  cases hstep : step s a with
  | none => simp
  | some p =>
      obtain ⟨s₁, es₁⟩ := p
      cases hrest : run step s₁ as with
      | none =>
          simp only [hrest, reduceCtorEq, false_iff]
          rintro ⟨s₂, es₂, es₃, heq, hrun, -⟩
          obtain ⟨rfl, rfl⟩ : s₁ = s₂ ∧ es₁ = es₂ := by simpa using heq
          simp [hrest] at hrun
      | some q =>
          obtain ⟨s₂, es₂⟩ := q
          simp only [hrest, Option.some.injEq, Prod.mk.injEq]
          constructor
          · rintro ⟨rfl, rfl⟩
            exact ⟨s₁, es₁, es₂, ⟨rfl, rfl⟩, hrest, rfl⟩
          · rintro ⟨s₃, es₃, es₄, ⟨rfl, rfl⟩, hrun, rfl⟩
            obtain ⟨rfl, rfl⟩ : s₂ = s' ∧ es₂ = es₄ := by
              simpa [hrest] using hrun
            exact ⟨rfl, rfl⟩

theorem throughout_cons {s s₁ : σ} {a : α} {as : List α} {es : List ε}
    (hstep : step s a = some (s₁, es)) :
    Throughout step P s (a :: as) ↔
      P s a ∧ Throughout step P s₁ as := by
  rw [Throughout, hstep]

/-- A run of a concatenation is a run of the first part and then of the
second. -/
theorem run_append_eq_some {s s' : σ} {as bs : List α} {es : List ε} :
    run step s (as ++ bs) = some (s', es) ↔
      ∃ s₁ es₁ es₂, run step s as = some (s₁, es₁) ∧
        run step s₁ bs = some (s', es₂) ∧ es = es₁ ++ es₂ := by
  induction as generalizing s es with
  | nil => simp
  | cons a as ih =>
      rw [List.cons_append, run_cons_eq_some]
      constructor
      · rintro ⟨s₁, es₁, es₂, hstep, hrun, rfl⟩
        obtain ⟨s₂, es₃, es₄, hfirst, hbs, rfl⟩ := ih.mp hrun
        exact ⟨s₂, es₁ ++ es₃, es₄,
          run_cons_eq_some.mpr ⟨s₁, es₁, es₃, hstep, hfirst, rfl⟩, hbs,
          (List.append_assoc ..).symm⟩
      · rintro ⟨s₂, es₂, es₄, hfirst, hbs, rfl⟩
        obtain ⟨s₁, es₁, es₃, hstep, hrest, rfl⟩ := run_cons_eq_some.mp hfirst
        exact ⟨s₁, es₁, es₃ ++ es₄, hstep,
          ih.mpr ⟨s₂, es₃, es₄, hrest, hbs, rfl⟩, List.append_assoc ..⟩

theorem throughout_append {s s₁ : σ} {as bs : List α} {es : List ε}
    (hrun : run step s as = some (s₁, es)) :
    Throughout step P s (as ++ bs) ↔
      Throughout step P s as ∧ Throughout step P s₁ bs := by
  induction as generalizing s es with
  | nil =>
      obtain ⟨rfl, rfl⟩ : s = s₁ ∧ [] = es := by simpa using hrun
      simp [Throughout]
  | cons a as ih =>
      obtain ⟨s₂, es₁, es₂, hstep, hrest, rfl⟩ := run_cons_eq_some.mp hrun
      rw [List.cons_append, throughout_cons hstep, throughout_cons hstep,
        ih hrest, and_assoc]

end Unfold

end Transition
