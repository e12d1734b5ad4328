import KVRaftStorage.Support.Crash
import Mathlib.Data.List.Infix

/-!
# Output streams

Files that are written through buffers.  What a program writes goes into the
buffer of the stream.  The stream may pass on a first part of its buffer to the
file at any time, and passes on all of it when it is flushed or closed.
-/

namespace Streams

open Crash

variable {F B : Type} [DecidableEq F]

/-- The contents of the files and of the buffers. -/
structure State (F B : Type) where
  files : F → List B
  pending : F → List B

inductive Effect (F B : Type) where
  | close (f : F)
  /-- Opening the file with `std::ios::trunc`. -/
  | truncate (f : F)
  | write (f : F) (data : List B)
  | flush (f : F)

namespace State

/-- The stream passes on the next `k` bytes. -/
def drain (s : State F B) (f : F) (k : ℕ) : State F B where
  files := Function.update s.files f (s.files f ++ (s.pending f).take k)
  pending := Function.update s.pending f ((s.pending f).drop k)

def perform (s : State F B) : Effect F B → State F B
  | .close f | .flush f => s.drain f (s.pending f).length
  | .truncate f =>
      { files := Function.update s.files f []
        pending := Function.update s.pending f [] }
  | .write f data =>
      { s with pending := Function.update s.pending f (s.pending f ++ data) }

/-- Nothing is in the buffers. -/
def idle (files : F → List B) : State F B := ⟨files, fun _ => []⟩

/-- A step that no effect causes. -/
def Drains (s s₁ : State F B) : Prop := ∃ f k, s₁ = s.drain f k

/-- The program is cut off. -/
abbrev Interrupts (es : List (Effect F B)) (s s' : State F B) : Prop :=
  Crash.Interrupts perform Drains es s s'

variable {s s' s₁ : State F B} {files : F → List B} {es : List (Effect F B)}

@[simp] theorem drain_idle (files : F → List B) (f : F) (k : ℕ) :
    (idle files).drain f k = idle files := by
  simp [drain, idle]

theorem eq_idle_of_drains (h : (idle files).Drains s₁) : s₁ = idle files := by
  obtain ⟨f, k, rfl⟩ := h
  exact drain_idle files f k

@[simp] theorem perform_close_idle (files : F → List B) (f : F) :
    (idle files).perform (.close f) = idle files :=
  drain_idle files f _

@[simp] theorem perform_truncate_idle (files : F → List B) (f : F) :
    (idle files).perform (.truncate f) = idle (Function.update files f []) := by
  simp [perform, idle]

theorem interrupts_cons_idle {e : Effect F B} :
    (idle files).Interrupts (e :: es) s' ↔ s' = idle files ∨
      ((idle files).perform e).Interrupts es s' :=
  interrupts_cons fun _ => eq_idle_of_drains

/-! ## Programs that only append -/

/-- What the file holds once its buffer has been passed on. -/
def final (s : State F B) (f : F) : List B := s.files f ++ s.pending f

theorem final_drain (s : State F B) (f g : F) (k : ℕ) :
    (s.drain f k).final g = s.final g := by
  by_cases hg : g = f
  · subst hg
    simp [final, drain, List.append_assoc]
  · simp [final, drain, hg]

end State

/-- What the effect writes to the file. -/
def Effect.written (f : F) : Effect F B → List B
  | .write g data => if g = f then data else []
  | .close _ | .truncate _ | .flush _ => []

def Effect.Appends : Effect F B → Prop
  | .truncate _ => False
  | .close _ | .write _ _ | .flush _ => True

namespace State

variable {s s' : State F B} {es : List (Effect F B)}

theorem final_perform {e : Effect F B} (he : e.Appends) (s : State F B)
    (f : F) : (s.perform e).final f = s.final f ++ e.written f := by
  cases e with
  | close g | flush g =>
      rw [Effect.written, List.append_nil]
      exact final_drain s g f _
  | truncate g => exact he.elim
  | write g data =>
      by_cases hg : f = g
      · subst hg
        simp [final, perform, Effect.written]
      · simp [final, perform, Effect.written, hg, Ne.symm hg]

/-- Wherever it is cut off, each file holds a first part of what it is about to
hold. -/
theorem Interrupts.files_isPrefix (h : s.Interrupts es s')
    (hes : ∀ e ∈ es, e.Appends) (f : F) :
    s'.files f <+: s.final f ++ es.flatMap (Effect.written f) := by
  induction h with
  | here =>
      rw [final, List.append_assoc]
      exact List.prefix_append _ _
  | internal hstep _ ih =>
      obtain ⟨g, k, rfl⟩ := hstep
      rw [← final_drain _ g f k]
      exact ih hes
  | @perform e es s s' _ ih =>
      obtain ⟨he, hes⟩ := List.forall_mem_cons.mp hes
      rw [List.flatMap_cons, ← List.append_assoc, ← final_perform he]
      exact ih hes

theorem isPrefix_drain (s : State F B) (f g : F) (k : ℕ) :
    s.files f <+: (s.drain g k).files f := by
  by_cases hg : f = g
  · subst hg
    simp [drain]
  · simp [drain, hg]

/-- Nothing that is in a file is lost. -/
theorem Interrupts.isPrefix_files (h : s.Interrupts es s')
    (hes : ∀ e ∈ es, e.Appends) (f : F) : s.files f <+: s'.files f := by
  induction h with
  | here => exact List.prefix_rfl
  | internal hstep _ ih =>
      obtain ⟨g, k, rfl⟩ := hstep
      exact (isPrefix_drain _ f g k).trans (ih hes)
  | @perform e es s s' _ ih =>
      obtain ⟨he, hes⟩ := List.forall_mem_cons.mp hes
      refine List.IsPrefix.trans ?_ (ih hes)
      cases e with
      | close g | flush g => exact isPrefix_drain s f g _
      | truncate g => exact he.elim
      | write g data => exact List.prefix_rfl

end State

end Streams
