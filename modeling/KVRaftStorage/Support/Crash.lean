import Mathlib.Logic.Function.Basic

/-!
# Programs that are cut off

A program is a list of effects on a state, and a crash may come between any two
of them.  The state may also take internal steps of its own at any time, as an
output stream does when it passes on what is in its buffer.
-/

namespace Crash

variable {σ ε : Type}

/-- The program, started in the first state, is cut off in the second. -/
inductive Interrupts (perform : σ → ε → σ) (internal : σ → σ → Prop) :
    List ε → σ → σ → Prop where
  | here {es s} : Interrupts perform internal es s s
  | internal {es s s₁ s'} (hstep : internal s s₁)
      (h : Interrupts perform internal es s₁ s') :
      Interrupts perform internal es s s'
  | perform {e es s s'} (h : Interrupts perform internal es (perform s e) s') :
      Interrupts perform internal (e :: es) s s'

variable {perform : σ → ε → σ} {internal : σ → σ → Prop} {e : ε} {es : List ε}
  {s s' : σ}

theorem interrupts_cons (hquiet : ∀ s₁, internal s s₁ → s₁ = s) :
    Interrupts perform internal (e :: es) s s' ↔
      s' = s ∨ Interrupts perform internal es (perform s e) s' := by
  constructor
  · intro h
    generalize hes : e :: es = es' at h
    induction h with
    | here => exact .inl rfl
    | internal hstep _ ih =>
        obtain rfl := hquiet _ hstep
        exact ih hquiet hes
    | perform h =>
        obtain ⟨rfl, rfl⟩ := List.cons.inj hes
        exact .inr h
  · rintro (rfl | h)
    · exact .here
    · exact .perform h

end Crash
