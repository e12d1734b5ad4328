import Mathlib.Data.List.Basic

/-!
# Linked lists in a memory

`next x` is what the link of the cell `x` holds: `none` if there is no such
link, `some none` for the null pointer.  The lemmas give the effect of a change
of links on a list of cells, and the results of the two loops that follow the
links: one looks for the last cell before a condition fails, one collects the
cells up to the end.
-/

namespace LinkedList

variable {α : Type}

/-- The link of each cell points to the cell after it, the last to null. -/
def Linked (next : α → Option (Option α)) : List α → Prop
  | [] => True
  | x :: xs => next x = some xs.head? ∧ Linked next xs

/-- Move on while the condition holds of the cell behind the link. -/
def advance (next : α → Option (Option α)) (p : α → Option Bool) :
    ℕ → α → Option α
  | 0, _ => none
  | fuel + 1, x => do
      match ← next x with
      | none => some x
      | some y => if ← p y then advance next p fuel y else some x

/-- The cells from a pointer to the end. -/
def collect (next : α → Option (Option α)) : ℕ → Option α → Option (List α)
  | _, none => some []
  | 0, some _ => none
  | fuel + 1, some x => do
      let rest ← collect next fuel (← next x)
      some (x :: rest)

variable {next next' : α → Option (Option α)} {p : α → Option Bool}
  {pre post mid l : List α} {x y : α} {fuel : ℕ}

theorem Linked.of_append (h : Linked next (pre ++ post)) :
    Linked next post := by
  induction pre with
  | nil => exact h
  | cons z pre ih => exact ih h.2

theorem Linked.next_eq (h : Linked next (pre ++ x :: post)) :
    next x = some post.head? :=
  h.of_append.1

/-- Links of other cells do not matter. -/
theorem Linked.congr (h : Linked next l) (heq : ∀ z ∈ l, next' z = next z) :
    Linked next' l := by
  induction l with
  | nil => exact trivial
  | cons z l ih =>
      constructor
      · rw [heq z (by simp)]
        exact h.1
      · exact ih h.2 (fun w hw => heq w (List.mem_cons_of_mem _ hw))

/-- Put `y` behind `x`. -/
theorem Linked.insert (h : Linked next (pre ++ x :: post))
    (hx : next' x = some (some y)) (hy : next' y = next x)
    (hpre : ∀ z ∈ pre, next' z = next z)
    (hpost : ∀ z ∈ post, next' z = next z) :
    Linked next' (pre ++ x :: y :: post) := by
  induction pre with
  | nil => exact ⟨hx, hy.trans h.1, h.2.congr hpost⟩
  | cons z pre ih =>
      constructor
      · rw [hpre z (by simp), h.1]
        cases pre <;> rfl
      · exact ih h.2 (fun w hw => hpre w (List.mem_cons_of_mem _ hw))

/-- Take `y` out from behind `x`. -/
theorem Linked.remove (h : Linked next (pre ++ x :: y :: post))
    (hx : next' x = next y) (hpre : ∀ z ∈ pre, next' z = next z)
    (hpost : ∀ z ∈ post, next' z = next z) :
    Linked next' (pre ++ x :: post) := by
  induction pre with
  | nil => exact ⟨hx.trans h.2.1, h.2.2.congr hpost⟩
  | cons z pre ih =>
      constructor
      · rw [hpre z (by simp), h.1]
        cases pre <;> rfl
      · exact ih h.2 (fun w hw => hpre w (List.mem_cons_of_mem _ hw))

/-- The loop stops at the last cell of the cells that meet the condition. -/
theorem advance_eq (h : Linked next (pre ++ x :: (mid ++ post)))
    (hmid : ∀ z ∈ mid, p z = some true)
    (hpost : ∀ z ∈ post.head?, p z = some false) (hfuel : mid.length < fuel) :
    advance next p fuel x = (x :: mid).getLast? := by
  induction mid generalizing pre x fuel with
  | nil =>
      obtain ⟨fuel, rfl⟩ : ∃ n, fuel = n + 1 := ⟨fuel - 1, by omega⟩
      have hnext := h.next_eq
      rw [List.nil_append] at hnext
      rw [advance, hnext]
      cases post with
      | nil => rfl
      | cons z post => simp [hpost z (by simp)]
  | cons z mid ih =>
      obtain ⟨fuel, rfl⟩ : ∃ n, fuel = n + 1 := ⟨fuel - 1, by omega⟩
      have hnext := h.next_eq
      have hrest : Linked next ((pre ++ [x]) ++ z :: (mid ++ post)) := by
        simpa using h
      have hstep := ih hrest (fun w hw => hmid w (List.mem_cons_of_mem _ hw))
        (by simpa using hfuel)
      rw [advance, hnext]
      simp [hmid z (by simp), hstep]

theorem collect_eq (h : Linked next (pre ++ l)) (hfuel : l.length ≤ fuel) :
    collect next fuel l.head? = some l := by
  induction l generalizing pre fuel with
  | nil => cases fuel <;> rfl
  | cons x l ih =>
      obtain ⟨fuel, rfl⟩ : ∃ n, fuel = n + 1 :=
        ⟨fuel - 1, by simp at hfuel; omega⟩
      have hrest : Linked next ((pre ++ [x]) ++ l) := by simpa using h
      have hcollect := ih hrest (by simpa using hfuel)
      simp [collect, h.next_eq, hcollect]

end LinkedList
