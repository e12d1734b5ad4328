import Mathlib.Data.Option.Basic
import Mathlib.Data.List.Basic

/-!
# Layers of a map with tombstones

A map is kept as a list of layers, the newest first.  A layer says nothing of a
key, sets it, or deletes it with a tombstone `some none`.  The file says which
changes of the layers cannot be seen: an empty layer, and merging the oldest
layers into one without tombstones.
-/

namespace Layers

variable {K V : Type}

/-- What the newest layer that knows the key says. -/
def lookup (layers : List (K → Option (Option V))) (k : K) :
    Option (Option V) :=
  layers.findSome? (· k)

/-- The value of the key in the map. -/
def visible (layers : List (K → Option (Option V))) (k : K) : Option V :=
  (lookup layers k).join

variable {newer older older' layers : List (K → Option (Option V))}
  {layer : K → Option (Option V)} {k : K}

@[simp] theorem lookup_nil : lookup ([] : List (K → Option (Option V))) k = none :=
  rfl

theorem lookup_cons :
    lookup (layer :: layers) k = (layer k).or (lookup layers k) := by
  rw [lookup, List.findSome?_cons]
  cases layer k <;> rfl

theorem lookup_append :
    lookup (newer ++ older) k = (lookup newer k).or (lookup older k) :=
  List.findSome?_append

/-- A layer that sets or deletes a key decides about it. -/
theorem visible_cons_of_some {v : Option V} (h : layer k = some v) :
    visible (layer :: layers) k = v := by
  rw [visible, lookup_cons, h]
  rfl

theorem visible_cons_of_none (h : layer k = none) :
    visible (layer :: layers) k = visible layers k := by
  rw [visible, lookup_cons, h]
  rfl

/-- Older layers may be exchanged for others with the same map. -/
theorem visible_append_congr (h : visible older k = visible older' k) :
    visible (newer ++ older) k = visible (newer ++ older') k := by
  unfold visible at h ⊢
  rw [lookup_append, lookup_append]
  cases lookup newer k with
  | none => exact h
  | some v => rfl

/-- One layer without tombstones shows what it sets. -/
theorem visible_singleton {m : K → Option V}
    (h : ∀ k, layer k = (m k).map some) : visible [layer] k = m k := by
  rw [visible, lookup_cons, h]
  cases m k <;> rfl

/-- Changing the values of all layers changes the values of the map. -/
theorem visible_map {W : Type} (f : V → W) :
    visible (layers.map (fun layer k => (layer k).map (Option.map f))) k =
      (visible layers k).map f := by
  unfold visible
  induction layers with
  | nil => rfl
  | cons layer layers ih =>
      rw [List.map_cons, lookup_cons, lookup_cons]
      cases h : layer k with
      | none => simpa [h] using ih
      | some v => cases v <;> simp

end Layers
