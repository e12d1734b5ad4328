import KVRaftStorage.Support.Transition

/-!
# What a system can still reach

Safety says what no run does; this file is about the runs that exist.  A state
reaches another one by a run whose steps meet a condition, with the events of
that run.  Runs are put together one after the other, for each member of a list
in turn, and until a measure is used up.
-/

namespace Transition

variable {σ α ε : Type*}

/-- Some run leads from `s` to `s'` and emits `es`, and each of its steps meets
`P`. -/
def Reaches (step : σ → α → Option (σ × List ε)) (P : σ → α → Prop) (s : σ)
    (es : List ε) (s' : σ) : Prop :=
  ∃ as, Throughout step P s as ∧ run step s as = some (s', es)

namespace Reaches

variable {step : σ → α → Option (σ × List ε)} {P Q : σ → α → Prop}

theorem refl (s : σ) : Reaches step P s [] s :=
  ⟨[], trivial, rfl⟩

theorem trans {s₁ s₂ s₃ : σ} {es es' : List ε} (h₁ : Reaches step P s₁ es s₂)
    (h₂ : Reaches step P s₂ es' s₃) : Reaches step P s₁ (es ++ es') s₃ := by
  obtain ⟨as, hP, hrun⟩ := h₁
  obtain ⟨bs, hP', hrun'⟩ := h₂
  exact ⟨as ++ bs, (throughout_append hrun).mpr ⟨hP, hP'⟩,
    run_append_eq_some.mpr ⟨s₂, es, es', hrun, hrun', rfl⟩⟩

theorem single {s s' : σ} {a : α} {es : List ε}
    (hstep : step s a = some (s', es)) (hP : P s a) :
    Reaches step P s es s' :=
  ⟨[a], (throughout_cons hstep).mpr ⟨hP, trivial⟩,
    run_cons_eq_some.mpr ⟨s', es, [], hstep, rfl, (List.append_nil es).symm⟩⟩

/-- One more step. -/
theorem concat {s₁ s₂ s₃ : σ} {a : α} {es es' : List ε}
    (h : Reaches step P s₁ es s₂) (hstep : step s₂ a = some (s₃, es'))
    (hP : P s₂ a) : Reaches step P s₁ (es ++ es') s₃ :=
  h.trans (single hstep hP)

theorem mono {s s' : σ} {es : List ε} (h : Reaches step P s es s')
    (hQ : ∀ s a, P s a → Q s a) : Reaches step Q s es s' := by
  obtain ⟨as, hP, hrun⟩ := h
  refine ⟨as, ?_, hrun⟩
  rw [throughout_iff_forall hrun] at hP ⊢
  intro as₁ a as₂ s₁ es₁ has hfirst
  exact hQ s₁ a (hP as₁ a as₂ s₁ es₁ has hfirst)

theorem invariant {I : σ → Prop}
    (hstep : ∀ s a s' es, P s a → I s → step s a = some (s', es) → I s')
    {s s' : σ} {es : List ε} (h : Reaches step P s es s') (hI : I s) :
    I s' := by
  obtain ⟨as, hP, hrun⟩ := h
  exact run_invariant hstep hP hI hrun

/-- Serve the members of a list in turn.  The invariant knows who has been
served. -/
theorem each {ι : Type*} {I : List ι → σ → List ε → Prop} (is : List ι)
    (hstep : ∀ done i rest s es, is = done ++ i :: rest → I done s es →
      ∃ s' es', Reaches step P s es' s' ∧ I (done ++ [i]) s' (es ++ es'))
    {s : σ} (hI : I [] s []) :
    ∃ s' es, Reaches step P s es s' ∧ I is s' es := by
  have hserve : ∀ rest done s es, is = done ++ rest → I done s es →
      ∃ s' es', Reaches step P s es' s' ∧ I is s' (es ++ es') := by
    intro rest
    induction rest with
    | nil =>
        intro done s es his hdone
        obtain rfl : is = done := by simpa using his
        exact ⟨s, [], .refl s, by simpa using hdone⟩
    | cons i rest ih =>
        intro done s es his hdone
        obtain ⟨s₁, es₁, hfirst, hserved⟩ := hstep done i rest s es his hdone
        obtain ⟨s', es', hrest, hall⟩ :=
          ih (done ++ [i]) s₁ (es ++ es₁) (by simp [his]) hserved
        exact ⟨s', es₁ ++ es', hfirst.trans hrest,
          by simpa [List.append_assoc] using hall⟩
  simpa using hserve is [] s [] rfl hI

/-- Go on until the goal is met, as long as a measure falls. -/
theorem descend {I G : σ → Prop} (measure : σ → ℕ)
    (hstep : ∀ s, I s → ¬G s → ∃ s' es, Reaches step P s es s' ∧ I s' ∧
      (G s' ∨ measure s' < measure s))
    {s : σ} (hI : I s) :
    ∃ s' es, Reaches step P s es s' ∧ I s' ∧ G s' := by
  induction hm : measure s using Nat.strongRecOn generalizing s with
  | ind m ih =>
      by_cases hgoal : G s
      · exact ⟨s, [], .refl s, hI, hgoal⟩
      · obtain ⟨s₁, es₁, hfirst, hI₁, hgoal₁ | hless⟩ := hstep s hI hgoal
        · exact ⟨s₁, es₁, hfirst, hI₁, hgoal₁⟩
        · obtain ⟨s', es', hrest, hI', hgoal'⟩ :=
            ih (measure s₁) (hm ▸ hless) hI₁ rfl
          exact ⟨s', es₁ ++ es', hfirst.trans hrest, hI', hgoal'⟩

end Reaches

end Transition
