import KVRaftStorage.Support.Transition

/-!
# Parts of a system

A system that is put together from smaller ones takes their steps: in each of
its steps a part takes one of its own or rests.  Then every run of the system
contains a run of the part, with the events that belong to it, and what holds
in every run of the part holds of it there.
-/

namespace Transition

variable {σ α ε σ' α' ε' : Type*}

/-- The system `step` has the part `step'`: `state` is its state, `action` the
step it takes in a step of the system, `event` what it makes visible. -/
structure IsPart (step : σ → α → Option (σ × List ε))
    (step' : σ' → α' → Option (σ' × List ε')) (state : σ → σ')
    (action : σ → α → Option α') (event : ε → Option ε') : Prop where
  moves : ∀ s a s₁ es b, step s a = some (s₁, es) → action s a = some b →
    step' (state s) b = some (state s₁, es.filterMap event)
  rests : ∀ s a s₁ es, step s a = some (s₁, es) → action s a = none →
    state s₁ = state s ∧ es.filterMap event = []

/-- The steps that a part takes in the steps of the system. -/
def partActions (step : σ → α → Option (σ × List ε))
    (action : σ → α → Option α') : σ → List α → List α'
  | _, [] => []
  | s, a :: as =>
      (action s a).toList ++
        match step s a with
        | none => []
        | some (s₁, _) => partActions step action s₁ as

variable {step : σ → α → Option (σ × List ε)}
  {step' : σ' → α' → Option (σ' × List ε')} {state : σ → σ'}
  {action : σ → α → Option α'} {event : ε → Option ε'}

theorem partActions_append {s s₁ : σ} {as bs : List α} {es : List ε}
    (hrun : run step s as = some (s₁, es)) :
    partActions step action s (as ++ bs) =
      partActions step action s as ++ partActions step action s₁ bs := by
  induction as generalizing s es with
  | nil =>
      obtain ⟨rfl, -⟩ : s = s₁ ∧ _ := by simpa using hrun
      rfl
  | cons a as ih =>
      obtain ⟨s₂, es₁, es₂, hfirst, hrest, -⟩ := run_cons_eq_some.mp hrun
      simp only [List.cons_append, partActions, hfirst, ih hrest,
        List.append_assoc]

namespace IsPart

/-- In a step of the system the part rests or takes a step of its own. -/
theorem step_cases (h : IsPart step step' state action event) {s s' : σ}
    {a : α} {es : List ε} (hstep : step s a = some (s', es)) :
    (action s a = none ∧ state s' = state s ∧ es.filterMap event = []) ∨
      ∃ b, action s a = some b ∧
        step' (state s) b = some (state s', es.filterMap event) := by
  cases haction : action s a with
  | none => exact .inl ⟨rfl, h.rests s a s' es hstep haction⟩
  | some b => exact .inr ⟨b, rfl, h.moves s a s' es b hstep haction⟩

/-- Every run of the system contains a run of the part. -/
theorem run (h : IsPart step step' state action event) {s s' : σ}
    {as : List α} {es : List ε}
    (hrun : Transition.run step s as = some (s', es)) :
    Transition.run step' (state s) (partActions step action s as) =
      some (state s', es.filterMap event) := by
  induction as generalizing s es with
  | nil =>
      obtain ⟨rfl, rfl⟩ : s = s' ∧ [] = es := by simpa using hrun
      exact run_nil _
  | cons a as ih =>
      obtain ⟨s₁, es₁, es₂, hfirst, hrest, rfl⟩ := run_cons_eq_some.mp hrun
      simp only [partActions, hfirst, List.filterMap_append]
      cases haction : action s a with
      | none =>
          obtain ⟨hstate, hevents⟩ := h.rests s a s₁ es₁ hfirst haction
          rw [← hstate, hevents]
          exact ih hrest
      | some b =>
          exact run_cons_eq_some.mpr ⟨_, _, _,
            h.moves s a s₁ es₁ b hfirst haction, ih hrest, rfl⟩

/-- A condition on the steps of the system that is one on the steps of the
part. -/
theorem throughout (h : IsPart step step' state action event)
    {P : σ → α → Prop} {P' : σ' → α' → Prop}
    (hP : ∀ s a b, P s a → action s a = some b → P' (state s) b) {s : σ}
    {as : List α} (hthroughout : Throughout step P s as) :
    Throughout step' P' (state s) (partActions step action s as) := by
  induction as generalizing s with
  | nil => trivial
  | cons a as ih =>
      obtain ⟨hfirst, hrest⟩ := hthroughout
      simp only [partActions]
      cases hstep : step s a with
      | none =>
          cases haction : action s a with
          | none => trivial
          | some b =>
              refine ⟨hP s a b hfirst haction, ?_⟩
              split <;> trivial
      | some x =>
          rw [hstep] at hrest
          cases haction : action s a with
          | none =>
              rw [← (h.rests s a x.1 x.2 hstep haction).1]
              exact ih hrest
          | some b =>
              exact (throughout_cons (h.moves s a x.1 x.2 b hstep haction)).mpr
                ⟨hP s a b hfirst haction, ih hrest⟩

end IsPart

end Transition
