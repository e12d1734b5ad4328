import Mathlib.Data.List.Basic
import Mathlib.Logic.Function.Basic

/-!
# A log of writes

Writes of a map in the order in which they were made; `none` deletes the key.
Replaying a log over a map only depends on what the map says of keys that the
log does not have.
-/

namespace WriteLog

variable {K V : Type} [DecidableEq K]

def write (m : K → Option V) (w : K × Option V) : K → Option V :=
  Function.update m w.1 w.2

def replay (m : K → Option V) (log : List (K × Option V)) : K → Option V :=
  log.foldl write m

variable {m m' : K → Option V} {log log' : List (K × Option V)} {k : K}

theorem replay_append :
    replay m (log ++ log') = replay (replay m log) log' :=
  List.foldl_append

/-- The log decides about its keys. -/
theorem replay_congr (h : ∀ k, k ∉ log.map Prod.fst → m k = m' k) :
    replay m log = replay m' log := by
  induction log generalizing m m' with
  | nil =>
      funext k
      exact h k List.not_mem_nil
  | cons w log ih =>
      apply ih
      intro k hk
      by_cases hkey : k = w.1
      · subst hkey
        simp [write]
      · rw [write, write, Function.update_of_ne hkey,
          Function.update_of_ne hkey]
        apply h
        simp [hkey, hk]

end WriteLog
