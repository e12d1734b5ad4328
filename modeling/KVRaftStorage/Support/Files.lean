import Mathlib.Algebra.Ring.Nat
import Mathlib.Data.List.Infix
import Mathlib.Logic.Function.Basic

/-!
# Files

A file system is the contents of its files, and a program is a list of effects
on single files.  A crash leaves what a first part of the program has done.
Writes succeed as long as no file gets longer than a limit.
-/

namespace Files

variable {F B : Type} [DecidableEq F]

/-- `none` is a file that does not exist. -/
abbrev FileSystem (F B : Type) := F → Option (List B)

inductive Effect (F B : Type) where
  /-- Open the file empty. -/
  | truncate (file : F)
  /-- Write behind what is there. -/
  | write (file : F) (data : List B)
  | remove (file : F)
deriving DecidableEq

def Effect.file : Effect F B → F
  | .truncate file | .write file _ | .remove file => file

def Effect.size : Effect F B → ℕ
  | .write _ data => data.length
  | .truncate _ | .remove _ => 0

namespace FileSystem

def perform (fs : FileSystem F B) : Effect F B → FileSystem F B
  | .truncate file => Function.update fs file (some [])
  | .write file data =>
      Function.update fs file (some ((fs file).getD [] ++ data))
  | .remove file => Function.update fs file none

def performAll (fs : FileSystem F B) (es : List (Effect F B)) :
    FileSystem F B :=
  es.foldl perform fs

variable {fs : FileSystem F B} {es es' done : List (Effect F B)}
  {e : Effect F B} {file : F} {limit : ℕ}

@[simp] theorem performAll_nil : fs.performAll [] = fs := rfl

@[simp] theorem performAll_cons :
    fs.performAll (e :: es) = (fs.perform e).performAll es := rfl

@[simp] theorem performAll_append :
    fs.performAll (es ++ es') = (fs.performAll es).performAll es' :=
  List.foldl_append

theorem perform_of_ne (h : file ≠ e.file) : fs.perform e file = fs file := by
  cases e with
  | truncate | write | remove => exact Function.update_of_ne h _ _

/-- The other files stay as they are. -/
theorem performAll_of_forall_ne (h : ∀ e ∈ es, file ≠ e.file) :
    fs.performAll es file = fs file := by
  induction es generalizing fs with
  | nil => rfl
  | cons e es ih =>
      obtain ⟨he, hes⟩ := List.forall_mem_cons.mp h
      rw [performAll_cons, ih hes, perform_of_ne he]

@[simp] theorem perform_truncate : fs.perform (.truncate file) file = some [] :=
  Function.update_self _ _ _

@[simp] theorem perform_write {data : List B} :
    fs.perform (.write file data) file = some ((fs file).getD [] ++ data) :=
  Function.update_self _ _ _

@[simp] theorem perform_remove : fs.perform (.remove file) file = none :=
  Function.update_self _ _ _

/-- Files that are removed are not there any more. -/
theorem performAll_remove_of_mem {files : List F} (h : file ∈ files) :
    fs.performAll (files.map .remove) file = none := by
  induction files generalizing fs with
  | nil => cases h
  | cons removed files ih =>
      rw [List.map_cons, performAll_cons]
      by_cases hfile : file ∈ files
      · exact ih hfile
      · have hremoved : file = removed := by simpa [hfile] using h
        rw [performAll_of_forall_ne, hremoved, perform_remove]
        intro e he
        obtain ⟨other, hother, rfl⟩ := List.mem_map.mp he
        exact fun heq => hfile (heq ▸ hother)

/-! ## Writes that succeed -/

def Fits (limit : ℕ) (fs : FileSystem F B) : Prop :=
  ∀ file data, fs file = some data → data.length ≤ limit

/-- Every write of the program succeeds. -/
def Succeeds (limit : ℕ) (fs : FileSystem F B) (es : List (Effect F B)) : Prop :=
  ∀ done, done <+: es → (fs.performAll done).Fits limit

theorem Succeeds.before (h : fs.Succeeds limit es) : fs.Fits limit :=
  h [] es.nil_prefix

theorem Succeeds.after (h : fs.Succeeds limit es) :
    (fs.performAll es).Fits limit :=
  h es List.prefix_rfl

theorem Succeeds.left (h : fs.Succeeds limit (es ++ es')) :
    fs.Succeeds limit es :=
  fun _ hdone => h _ (hdone.trans (List.prefix_append _ _))

theorem Succeeds.right (h : fs.Succeeds limit (es ++ es')) :
    (fs.performAll es).Succeeds limit es' := by
  intro done hdone
  rw [← performAll_append]
  exact h _ ((List.prefix_append_right_inj es).mpr hdone)

theorem Fits.perform (h : fs.Fits limit) (e : Effect F B) :
    (fs.perform e).Fits (limit + e.size) := by
  intro file data hdata
  by_cases hfile : file = e.file
  · subst hfile
    cases e with
    | truncate file =>
        rw [Effect.file, perform_truncate, Option.some.injEq] at hdata
        simp [← hdata]
    | write file new =>
        rw [Effect.file, perform_write, Option.some.injEq] at hdata
        have hold : ((fs file).getD []).length ≤ limit := by
          cases hfs : fs file with
          | none => simp
          | some old => exact h file old hfs
        rw [← hdata, List.length_append, Effect.size]
        omega
    | remove file =>
        rw [Effect.file, perform_remove] at hdata
        cases hdata
  · rw [perform_of_ne hfile] at hdata
    exact (h file data hdata).trans (Nat.le_add_right _ _)

theorem Fits.performAll (h : fs.Fits limit) (es : List (Effect F B)) :
    (fs.performAll es).Fits (limit + (es.map Effect.size).sum) := by
  induction es generalizing fs limit with
  | nil => exact h
  | cons e es ih =>
      have hrest := ih (h.perform e)
      rwa [List.map_cons, List.sum_cons, ← Nat.add_assoc]

/-- A program that writes less than the limit on an empty disk. -/
theorem succeeds_of_size (h : (es.map Effect.size).sum ≤ limit) :
    FileSystem.Succeeds limit (fun _ => none) es := by
  rintro done ⟨rest, rfl⟩ file data hdata
  have hempty : FileSystem.Fits 0 (fun _ => none : FileSystem F B) := by
    intro file data hnone
    cases hnone
  have hle := hempty.performAll done file data hdata
  rw [List.map_append, List.sum_append] at h
  omega

end FileSystem

/-- A first part of two programs ends in the first or in the second. -/
theorem prefix_append_cases {l l' done : List B} (h : done <+: l ++ l') :
    done <+: l ∨ ∃ done', done' ≠ [] ∧ done' <+: l' ∧ done = l ++ done' := by
  rcases List.prefix_or_prefix_of_prefix h (List.prefix_append l l') with
    hdone | ⟨done', rfl⟩
  · exact .inl hdone
  · by_cases hnil : done' = []
    · subst hnil
      rw [List.append_nil]
      exact .inl List.prefix_rfl
    · exact .inr ⟨done', hnil, (List.prefix_append_right_inj l).mp h, rfl⟩

end Files
