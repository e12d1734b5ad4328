import KVRaftStorage.Support.Execution
import Mathlib.Data.List.Induction

/-!
# Rules for runs

The rules that turn a statement about one step into a statement about a whole
run, for transition systems given by a partial step function.
-/

namespace Transition

variable {σ α ε : Type*}

variable {step : σ → α → Option (σ × List ε)} {P : σ → α → Prop}

/-- The induction rule for runs.  A relation between the state and the events
so far that holds at the start and survives every step taken under `P`
holds at the end of every run taken under `P`. -/
theorem run_induction {I : σ → List ε → Prop}
    (hstep : ∀ s es a s' es', P s a → I s es → step s a = some (s', es') →
      I s' (es ++ es'))
    {s s' : σ} {as : List α} {es es' : List ε}
    (hP : Throughout step P s as) (hI : I s es)
    (hrun : run step s as = some (s', es')) :
    I s' (es ++ es') := by
  induction as generalizing s es es' with
  | nil =>
      obtain ⟨rfl, rfl⟩ : s = s' ∧ [] = es' := by simpa using hrun
      simpa using hI
  | cons a as ih =>
      obtain ⟨s₁, es₁, es₂, hfirst, hrest, rfl⟩ := run_cons_eq_some.mp hrun
      rw [throughout_cons hfirst] at hP
      rw [← List.append_assoc]
      exact ih hP.2 (hstep s es a s₁ es₁ hP.1 hI hfirst) hrest

/-- `run_induction` from a start without events. -/
theorem run_history {I : σ → List ε → Prop}
    (hstep : ∀ s es a s' es', P s a → I s es → step s a = some (s', es') →
      I s' (es ++ es'))
    {s s' : σ} {as : List α} {es : List ε}
    (hP : Throughout step P s as) (hI : I s [])
    (hrun : run step s as = some (s', es)) :
    I s' es :=
  run_induction hstep hP hI hrun

/-- The state part of `run_induction`, for invariants that do not look at the
events. -/
theorem run_invariant {I : σ → Prop}
    (hstep : ∀ s a s' es, P s a → I s → step s a = some (s', es) → I s')
    {s s' : σ} {as : List α} {es : List ε}
    (hP : Throughout step P s as) (hI : I s)
    (hrun : run step s as = some (s', es)) :
    I s' :=
  @run_induction _ _ _ step P (fun s _ => I s)
    (fun s _ a s' es' hp hi hs => hstep s a s' es' hp hi hs)
    s s' as [] es hP hI hrun

/-- The steps that meet a condition are exactly those that keep what is wanted
on the way, of the state and of what has been reported, if they keep an
invariant that ensures it and every other step spoils it at once. -/
theorem throughout_iff_history {J Good : σ → List ε → Prop}
    (hgood : ∀ s es, J s es → Good s es)
    (hkeep : ∀ s es a s' es', P s a → J s es → step s a = some (s', es') →
      J s' (es ++ es'))
    (hspoil : ∀ s es a s' es', ¬P s a → J s es → step s a = some (s', es') →
      ¬Good s' (es ++ es'))
    {s s' : σ} {as : List α} {es : List ε} (hJ : J s [])
    (hrun : run step s as = some (s', es)) :
    Throughout step P s as ↔
      ∀ as₁ as₂ s₁ es₁, as = as₁ ++ as₂ → run step s as₁ = some (s₁, es₁) →
        Good s₁ es₁ := by
  constructor
  · rintro hP as₁ as₂ s₁ es₁ rfl hfirst
    exact hgood s₁ es₁
      (run_history hkeep ((throughout_append hfirst).mp hP).1 hJ hfirst)
  · intro hall
    induction as using List.reverseRecOn generalizing s' es with
    | nil => trivial
    | append_singleton as a ih =>
        obtain ⟨s₁, es₁, es₂, hfirst, hlast, rfl⟩ := run_append_eq_some.mp hrun
        have hbefore : Throughout step P s as := by
          refine ih hfirst fun as₁ as₂ s₂ es₃ heq => ?_
          exact hall as₁ (as₂ ++ [a]) s₂ es₃ (by rw [heq, List.append_assoc])
        obtain ⟨s₂, es₃, es₄, hstep, hnil, rfl⟩ := run_cons_eq_some.mp hlast
        obtain ⟨rfl, rfl⟩ : s₂ = s' ∧ [] = es₄ := by simpa using hnil
        rw [List.append_nil] at hrun
        refine (throughout_append hfirst).mpr
          ⟨hbefore, (throughout_cons hstep).mpr ⟨?_, trivial⟩⟩
        by_contra hnot
        exact hspoil s₁ es₁ a s₂ es₃ hnot (run_history hkeep hbefore hJ hfirst)
          hstep (hall (as ++ [a]) [] s₂ _ (by simp) hrun)

/-- `throughout_iff_history` where only the states matter. -/
theorem throughout_iff_along {J Good : σ → Prop}
    (hgood : ∀ s, J s → Good s)
    (hkeep : ∀ s a s' es, P s a → J s → step s a = some (s', es) → J s')
    (hspoil : ∀ s a s' es, ¬P s a → J s → step s a = some (s', es) → ¬Good s')
    {s s' : σ} {as : List α} {es : List ε} (hJ : J s)
    (hrun : run step s as = some (s', es)) :
    Throughout step P s as ↔
      ∀ as₁ as₂ s₁ es₁, as = as₁ ++ as₂ → run step s as₁ = some (s₁, es₁) →
        Good s₁ :=
  throughout_iff_history (J := fun s _ => J s)
    (fun s _ => hgood s) (fun s _ a s' es' => hkeep s a s' es')
    (fun s _ a s' es' => hspoil s a s' es') hJ hrun

theorem throughout_true (s : σ) (as : List α) :
    Throughout step (fun _ _ => True) s as := by
  induction as generalizing s with
  | nil => trivial
  | cons a as ih =>
      refine ⟨trivial, ?_⟩
      cases step s a with
      | none => trivial
      | some p => exact ih p.1

theorem throughout_and {Q : σ → α → Prop} {s : σ} {as : List α}
    (hP : Throughout step P s as) (hQ : Throughout step Q s as) :
    Throughout step (fun s a => P s a ∧ Q s a) s as := by
  induction as generalizing s with
  | nil => trivial
  | cons a as ih =>
      refine ⟨⟨hP.1, hQ.1⟩, ?_⟩
      have hP := hP.2
      have hQ := hQ.2
      cases hstep : step s a with
      | none => trivial
      | some p =>
          rw [hstep] at hP hQ
          exact ih hP hQ

/-- A weaker condition. -/
theorem throughout_mono {Q : σ → α → Prop} (h : ∀ s a, P s a → Q s a) {s : σ}
    {as : List α} (hP : Throughout step P s as) : Throughout step Q s as := by
  induction as generalizing s with
  | nil => trivial
  | cons a as ih =>
      refine ⟨h s a hP.1, ?_⟩
      have hP := hP.2
      cases hstep : step s a with
      | none => trivial
      | some p =>
          rw [hstep] at hP
          exact ih hP

/-- A condition on the actions alone. -/
theorem throughout_of_mem {Q : α → Prop} {as : List α}
    (h : ∀ a ∈ as, Q a) (s : σ) :
    Throughout step (fun _ a => Q a) s as := by
  induction as generalizing s with
  | nil => trivial
  | cons a as ih =>
      refine ⟨h a (by simp), ?_⟩
      cases step s a with
      | none => trivial
      | some p => exact ih (fun b hb => h b (by simp [hb])) p.1

/-- The steps that meet a condition are exactly those that emit wanted events
only. -/
theorem throughout_iff_events {I : σ → Prop} {Q : ε → Prop}
    (hkeep : ∀ s a s' es, I s → step s a = some (s', es) → I s')
    (hevents : ∀ s a s' es, I s → step s a = some (s', es) →
      (P s a ↔ ∀ e ∈ es, Q e))
    {s s' : σ} {as : List α} {es : List ε} (hI : I s)
    (hrun : run step s as = some (s', es)) :
    Throughout step P s as ↔ ∀ e ∈ es, Q e := by
  induction as generalizing s es with
  | nil =>
      obtain ⟨-, rfl⟩ : s = s' ∧ [] = es := by simpa using hrun
      simp [Throughout]
  | cons a as ih =>
      obtain ⟨s₁, es₁, es₂, hstep, hrest, rfl⟩ := run_cons_eq_some.mp hrun
      rw [throughout_cons hstep, hevents s a s₁ es₁ hI hstep,
        ih (hkeep s a s₁ es₁ hI hstep) hrest]
      simp only [List.forall_mem_append]

/-! ## The states a run passes through -/

theorem Takes.visits {s s₁ : σ} {as : List α} {a : α}
    (h : Takes step s as a s₁) : Visits step s as s₁ := by
  obtain ⟨as₁, as₂, es, rfl, hrun⟩ := h
  exact ⟨as₁ ++ [a], as₂, es, by simp, hrun⟩

theorem Visits.concat {s s₁ : σ} {as : List α} (h : Visits step s as s₁)
    (a : α) : Visits step s (as ++ [a]) s₁ := by
  obtain ⟨as₁, as₂, es, rfl, hrun⟩ := h
  exact ⟨as₁, as₂ ++ [a], es, List.append_assoc .., hrun⟩

theorem Takes.concat {s s₁ : σ} {as : List α} {a : α}
    (h : Takes step s as a s₁) (b : α) : Takes step s (as ++ [b]) a s₁ := by
  obtain ⟨as₁, as₂, es, rfl, hrun⟩ := h
  exact ⟨as₁, as₂ ++ [b], es, by simp, hrun⟩

theorem Visits.last {s s' : σ} {as : List α} {es : List ε}
    (hrun : run step s as = some (s', es)) : Visits step s as s' :=
  ⟨as, [], es, (List.append_nil as).symm, hrun⟩

theorem Visits.nil {s s₁ : σ} (h : Visits step s [] s₁) : s = s₁ := by
  obtain ⟨as₁, as₂, es, has, hrun⟩ := h
  obtain ⟨rfl, -⟩ := List.append_eq_nil_iff.mp has.symm
  exact (Prod.mk.inj (Option.some.inj hrun)).1

/-- From a state on its way the run goes on to its end. -/
theorem Visits.rest {s s₁ s' : σ} {as : List α} {es : List ε}
    (h : Visits step s as s₁) (hrun : run step s as = some (s', es)) :
    ∃ bs es', run step s₁ bs = some (s', es') := by
  obtain ⟨as₁, as₂, es₁, rfl, hfirst⟩ := h
  obtain ⟨s₂, es₂, es₃, hfirst', hrest, -⟩ := run_append_eq_some.mp hrun
  obtain ⟨rfl, -⟩ : s₁ = s₂ ∧ es₁ = es₂ := by
    simpa using hfirst.symm.trans hfirst'
  exact ⟨as₂, es₃, hrest⟩

/-- The run followed by one more step. -/
theorem run_concat {s s₁ s' : σ} {as : List α} {a : α} {es es' : List ε}
    (hrun : run step s as = some (s₁, es))
    (hstep : step s₁ a = some (s', es')) :
    run step s (as ++ [a]) = some (s', es ++ es') :=
  run_append_eq_some.mpr ⟨s₁, es, es', hrun,
    run_cons_eq_some.mpr ⟨s', es', [], hstep, rfl, (List.append_nil es').symm⟩,
    rfl⟩

/-- The longer run passes through one more state. -/
theorem Visits.concat_cases {s s₁ s₂ s₃ : σ} {as : List α} {a : α}
    {es es' : List ε} (h : Visits step s (as ++ [a]) s₁)
    (hrun : run step s as = some (s₂, es))
    (hstep : step s₂ a = some (s₃, es')) :
    Visits step s as s₁ ∨ s₁ = s₃ := by
  obtain ⟨as₁, as₂, es₁, has, hfirst⟩ := h
  rcases List.eq_nil_or_concat as₂ with rfl | ⟨as₃, b, rfl⟩
  · right
    rw [List.append_nil] at has
    subst has
    exact (Prod.mk.inj (Option.some.inj
      (hfirst.symm.trans (run_concat hrun hstep)))).1
  · left
    rw [List.concat_eq_append, ← List.append_assoc] at has
    exact ⟨as₁, as₃, es₁, (List.append_inj' has rfl).1, hfirst⟩

theorem Takes.last {s s₁ s' : σ} {as : List α} {a : α} {es es' : List ε}
    (hrun : run step s as = some (s₁, es))
    (hstep : step s₁ a = some (s', es')) : Takes step s (as ++ [a]) a s' :=
  ⟨as, [], es ++ es', rfl, run_concat hrun hstep⟩

/-- The induction rule for relations between the run, its last state and its
events. -/
theorem run_trace {I : List α → σ → List ε → Prop} {s : σ} (hstart : I [] s [])
    (hstep : ∀ as s₁ es a s₂ es', P s₁ a → run step s as = some (s₁, es) →
      I as s₁ es → step s₁ a = some (s₂, es') → I (as ++ [a]) s₂ (es ++ es'))
    {s' : σ} {as : List α} {es : List ε} (hP : Throughout step P s as)
    (hrun : run step s as = some (s', es)) : I as s' es := by
  induction as using List.reverseRecOn generalizing s' es with
  | nil =>
      obtain ⟨rfl, rfl⟩ : s = s' ∧ [] = es := by simpa using hrun
      exact hstart
  | append_singleton as a ih =>
      obtain ⟨s₁, es₁, es₂, hfirst, hlast, rfl⟩ := run_append_eq_some.mp hrun
      obtain ⟨s₂, es₃, es₄, hnext, hnil, rfl⟩ := run_cons_eq_some.mp hlast
      obtain ⟨rfl, rfl⟩ : s₂ = s' ∧ [] = es₄ := by simpa using hnil
      obtain ⟨hbefore, hlast⟩ := (throughout_append hfirst).mp hP
      rw [List.append_nil]
      exact hstep as s₁ es₁ a s₂ es₃ hlast.1 hfirst (ih hbefore hfirst) hnext

/-- The induction rule for invariants that look back at the run. -/
theorem run_lookback {I : List α → σ → Prop} {s : σ} (hstart : I [] s)
    (hstep : ∀ as s₁ es a s₂ es', run step s as = some (s₁, es) → I as s₁ →
      step s₁ a = some (s₂, es') → I (as ++ [a]) s₂)
    {s' : σ} {as : List α} {es : List ε}
    (hrun : run step s as = some (s', es)) : I as s' :=
  run_trace (I := fun as s _ => I as s) hstart
    (fun as s₁ es a s₂ es' _ => hstep as s₁ es a s₂ es') (throughout_true s as)
    hrun

/-- A condition holds throughout a run if and only if it holds of every step
of it. -/
theorem throughout_iff_forall {s s' : σ} {as : List α} {es : List ε}
    (hrun : run step s as = some (s', es)) :
    Throughout step P s as ↔
      ∀ as₁ a as₂ s₁ es₁, as = as₁ ++ a :: as₂ →
        run step s as₁ = some (s₁, es₁) → P s₁ a := by
  constructor
  · rintro hP as₁ a as₂ s₁ es₁ rfl hfirst
    exact ((throughout_append hfirst).mp hP).2.1
  · intro hall
    induction as generalizing s es with
    | nil => trivial
    | cons a as ih =>
        obtain ⟨s₁, es₁, es₂, hstep, hrest, -⟩ := run_cons_eq_some.mp hrun
        refine (throughout_cons hstep).mpr
          ⟨hall [] a as s [] rfl (run_nil s), ih hrest ?_⟩
        rintro as₁ b as₂ s₂ es₃ rfl hfirst
        exact hall (a :: as₁) b as₂ s₂ (es₁ ++ es₃) rfl
          (run_cons_eq_some.mpr ⟨s₁, es₁, es₃, hstep, hfirst, rfl⟩)

/-- A condition holds throughout a run if and only if every step of it does
what the condition is good for. -/
theorem throughout_iff_steps {I : σ → Prop} {R : σ → α → σ → List ε → Prop}
    (hkeep : ∀ s a s' es, I s → step s a = some (s', es) → I s')
    (hsteps : ∀ s a s' es, I s → step s a = some (s', es) →
      (P s a ↔ R s a s' es))
    {s s' : σ} {as : List α} {es : List ε} (hI : I s)
    (hrun : run step s as = some (s', es)) :
    Throughout step P s as ↔
      ∀ as₁ a as₂ s₁ es₁ s₂ es₂, as = as₁ ++ a :: as₂ →
        run step s as₁ = some (s₁, es₁) → step s₁ a = some (s₂, es₂) →
        R s₁ a s₂ es₂ := by
  rw [throughout_iff_forall hrun]
  constructor
  · intro hall as₁ a as₂ s₁ es₁ s₂ es₂ has hfirst hstep
    have hI₁ : I s₁ := run_invariant (fun s a s' es _ => hkeep s a s' es)
      (throughout_true s as₁) hI hfirst
    exact (hsteps s₁ a s₂ es₂ hI₁ hstep).mp
      (hall as₁ a as₂ s₁ es₁ has hfirst)
  · intro hall as₁ a as₂ s₁ es₁ has hfirst
    have hI₁ : I s₁ := run_invariant (fun s a s' es _ => hkeep s a s' es)
      (throughout_true s as₁) hI hfirst
    have hrun' := hrun
    rw [has] at hrun'
    obtain ⟨s₂, es₂, es₃, hfirst', hrest, -⟩ := run_append_eq_some.mp hrun'
    obtain ⟨rfl, -⟩ : s₁ = s₂ ∧ es₁ = es₂ := by
      simpa using hfirst.symm.trans hfirst'
    obtain ⟨s₃, es₄, -, hstep, -⟩ := run_cons_eq_some.mp hrest
    exact (hsteps s₁ a s₃ es₄ hI₁ hstep).mpr
      (hall as₁ a as₂ s₁ es₁ s₃ es₄ has hfirst hstep)

end Transition
