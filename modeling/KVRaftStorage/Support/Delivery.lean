import Mathlib.Data.List.Range
import Mathlib.Order.Lattice

/-!
# Two producers and one consumer

A consumer counts the commands it has taken: it stands at a position, takes
the next command or a stale one that its last reset has covered, and a reset
moves it forward to a later position.  Commands come in one consecutive batch
and resets wait for delivery on their own.  The file says when every order of
delivery that a discipline allows keeps the consumer moving forward.

The discipline delivers the waiting resets in order, and no command before a
waiting reset to a smaller position.
-/

namespace Delivery

inductive Message where
  | command (i : ℕ)
  | reset (i : ℕ)

/-- The consumer at `p`, last reset to `s`, takes a message. -/
inductive Consumes : ℕ → ℕ → Message → ℕ → ℕ → Prop where
  | stale {p s i : ℕ} (h : i ≤ s) : Consumes p s (.command i) p s
  | next {p s : ℕ} (h : s ≤ p) : Consumes p s (.command (p + 1)) (p + 1) s
  | reset {p s i : ℕ} (h : p ≤ i) : Consumes p s (.reset i) i i

/-- The consumer takes a list of messages in order. -/
inductive Drains : ℕ → ℕ → List Message → ℕ → ℕ → Prop where
  | nil (p s : ℕ) : Drains p s [] p s
  | cons {p s p₁ s₁ p₂ s₂ : ℕ} {m : Message} {ms : List Message}
      (hm : Consumes p s m p₁ s₁) (hms : Drains p₁ s₁ ms p₂ s₂) :
      Drains p s (m :: ms) p₂ s₂

theorem Consumes.le {p s p' s' : ℕ} {m : Message}
    (h : Consumes p s m p' s') : p ≤ p' := by
  cases h with
  | stale => exact le_rfl
  | next => exact Nat.le_succ p
  | reset h => exact h

theorem Drains.le {p s p' s' : ℕ} {ms : List Message}
    (h : Drains p s ms p' s') : p ≤ p' := by
  induction h with
  | nil => exact le_rfl
  | cons hm _ ih => exact hm.le.trans ih

theorem Drains.concat {p s p₁ s₁ p₂ s₂ : ℕ} {ms : List Message} {m : Message}
    (h : Drains p s ms p₁ s₁) (hm : Consumes p₁ s₁ m p₂ s₂) :
    Drains p s (ms ++ [m]) p₂ s₂ := by
  induction h with
  | nil => exact .cons hm (.nil _ _)
  | cons hfirst _ ih => exact .cons hfirst (ih hm)

/-- The message can take a consumer from below `r` to `r` or behind. -/
def Message.Carries (r : ℕ) : Message → Prop
  | .command i => i = r
  | .reset i => r ≤ i

theorem Consumes.crosses {p s p' s' r : ℕ} {m : Message}
    (h : Consumes p s m p' s') (hp : p < r) (hr : r ≤ p') : m.Carries r := by
  cases h with
  | stale => omega
  | next => exact (Nat.le_antisymm hr hp).symm
  | reset => exact hr

theorem Drains.crosses {p s p' s' r : ℕ} {ms : List Message}
    (h : Drains p s ms p' s') (hp : p < r) (hr : r ≤ p') :
    ∃ m ∈ ms, m.Carries r := by
  induction h with
  | nil => omega
  | @cons _ _ p₁ _ _ _ m ms hm _ ih =>
      by_cases hp₁ : r ≤ p₁
      · exact ⟨m, by simp, hm.crosses hp hp₁⟩
      · obtain ⟨m', hm', hcarries⟩ := ih (by omega) hr
        exact ⟨m', by simp [hm'], hcarries⟩

/-- Every allowed delivery of the waiting resets and of the batch keeps the
consumer at `p`, last reset to `s`, moving forward until it stands at `e`. -/
inductive Schedulable (e : ℕ) : ℕ → ℕ → List ℕ → List ℕ → Prop where
  | intro {p s : ℕ} {resets batch : List ℕ} (hs : s ≤ p)
      (hend : resets = [] → batch = [] → p = e)
      (hforward : ∀ d ds, resets = d :: ds → p ≤ d)
      (hreset : ∀ d ds, resets = d :: ds → Schedulable e d d ds batch)
      (hnext : ∀ i is, batch = i :: is → (∀ d ∈ resets, i ≤ d) →
        (i ≤ s ∧ p = s) ∨ i = p + 1)
      (hcommand : ∀ i is, batch = i :: is → (∀ d ∈ resets, i ≤ d) →
        Schedulable e (max p i) s resets is) :
      Schedulable e p s resets batch

namespace Schedulable

variable {e p s : ℕ} {resets batch : List ℕ}

/-! ## Delivering -/

theorem deliver_reset {d : ℕ} (h : Schedulable e p s (d :: resets) batch) :
    Consumes p s (.reset d) d d ∧ Schedulable e d d resets batch := by
  obtain ⟨-, -, hforward, hreset, -, -⟩ := h
  exact ⟨.reset (hforward d resets rfl), hreset d resets rfl⟩

theorem deliver_command {i : ℕ} (h : Schedulable e p s resets (i :: batch))
    (hi : ∀ d ∈ resets, i ≤ d) :
    Consumes p s (.command i) (max p i) s ∧
      Schedulable e (max p i) s resets batch := by
  obtain ⟨hs, -, -, -, hnext, hcommand⟩ := h
  refine ⟨?_, hcommand i batch rfl hi⟩
  rcases hnext i batch rfl hi with ⟨hstale, rfl⟩ | rfl
  · rw [max_eq_left hstale]
    exact .stale hstale
  · rw [max_eq_right (Nat.le_succ p)]
    exact .next hs

/-! ## Bounds -/

theorem reset_le (h : Schedulable e p s resets batch) : s ≤ p := by
  obtain ⟨hs, -, -, -, -, -⟩ := h
  exact hs

theorem le_end (h : Schedulable e p s resets batch) : p ≤ e := by
  induction h with
  | @intro p s resets batch _ hend hforward _ _ _ ihreset ihcommand =>
      cases resets with
      | cons d ds => exact (hforward d ds rfl).trans (ihreset d ds rfl)
      | nil =>
          cases batch with
          | nil => exact (hend rfl rfl).le
          | cons i is =>
              exact (le_max_left p i).trans (ihcommand i is rfl (by simp))

/-- Without commands the end is the last reset, or the position itself. -/
theorem end_le {t : ℕ} (h : Schedulable e p s resets []) (hp : p ≤ t)
    (hresets : ∀ d ∈ resets, d ≤ t) : e ≤ t := by
  induction resets generalizing p s with
  | nil =>
      obtain ⟨-, hend, -, -, -, -⟩ := h
      exact (hend rfl rfl).symm.le.trans hp
  | cons d ds ih =>
      exact ih h.deliver_reset.2 (hresets d (by simp))
        fun d' hd' => hresets d' (List.mem_cons_of_mem d hd')

/-- To get from below `r` to `r` or behind, a message that carries `r` has to
be delivered. -/
theorem crosses {r : ℕ} (h : Schedulable e p s resets batch) (hp : p < r)
    (hr : r ≤ e) : (∃ d ∈ resets, r ≤ d) ∨ r ∈ batch := by
  induction h with
  | @intro p s resets batch hs hend _ _ hnext _ ihreset ihcommand =>
      cases resets with
      | cons d ds =>
          by_cases hd : r ≤ d
          · exact .inl ⟨d, by simp, hd⟩
          · rcases ihreset d ds rfl (by omega) with ⟨d', hd', hrd⟩ | hbatch
            · exact .inl ⟨d', by simp [hd'], hrd⟩
            · exact .inr hbatch
      | nil =>
          cases batch with
          | nil =>
              have := hend rfl rfl
              omega
          | cons i is =>
              by_cases hi : r ≤ i
              · rcases hnext i is rfl (by simp) with ⟨hstale, rfl⟩ | rfl
                · omega
                · exact .inr (by simp; omega)
              · rcases ihcommand i is rfl (by simp) (by omega) with
                  hresets | hbatch
                · exact .inl hresets
                · exact .inr (by simp [hbatch])

/-! ## Producing -/

theorem idle (hs : s ≤ p) : Schedulable p p s [] [] :=
  .intro hs (fun _ _ => rfl) (by simp) (by simp) (by simp) (by simp)

theorem batch_from (hs : s ≤ p) (m : ℕ) :
    Schedulable (p + m) p s [] (List.range' (p + 1) m) := by
  induction m generalizing p with
  | zero => exact idle hs
  | succ m ih =>
      rw [List.range'_succ]
      refine .intro hs (by simp) (by simp) (by simp) ?_ ?_
      · intro i is heq _
        obtain ⟨rfl, -⟩ := List.cons.inj heq
        exact .inr rfl
      · intro i is heq _
        obtain ⟨rfl, rfl⟩ := List.cons.inj heq
        rw [max_eq_right (Nat.le_succ p), show p + (m + 1) = p + 1 + m by omega]
        exact ih (hs.trans (Nat.le_succ p))

/-- A new batch starts where the last one ended. -/
theorem hand_out (h : Schedulable e p s resets []) (m : ℕ) :
    Schedulable (e + m) p s resets (List.range' (e + 1) m) := by
  induction resets generalizing p s with
  | nil =>
      obtain ⟨hs, hend, -, -, -, -⟩ := h
      obtain rfl := hend rfl rfl
      exact batch_from hs m
  | cons d ds ih =>
      obtain ⟨hs, -, hforward, hreset, -, -⟩ := h
      have hd := (hreset d ds rfl).le_end
      refine .intro hs (by simp) hforward ?_ ?_ ?_
      · intro d' ds' heq
        obtain ⟨rfl, rfl⟩ := List.cons.inj heq
        exact ih (hreset d ds rfl)
      -- the waiting reset keeps the new commands back
      all_goals
        intro i is heq hall
        have hi : i = e + 1 := by
          cases m with
          | zero => simp at heq
          | succ m =>
              rw [List.range'_succ] at heq
              exact (List.cons.inj heq).1.symm
        have := hall d (by simp)
        omega

/-- The last reset may have been a later one once the consumer is past it. -/
theorem raise_reset {t : ℕ} (h : Schedulable e p s [] batch) (hsp : s < p)
    (ht : t ≤ p) : Schedulable e p t [] batch := by
  induction batch generalizing p with
  | nil =>
      obtain ⟨-, hend, -, -, -, -⟩ := h
      exact .intro ht hend (by simp) (by simp) (by simp) (by simp)
  | cons i is ih =>
      obtain ⟨-, -, -, -, hnext, hcommand⟩ := h
      have hi : i = p + 1 := by
        rcases hnext i is rfl (by simp) with ⟨-, heq⟩ | heq <;> omega
      refine .intro ht (by simp) (by simp) (by simp) ?_ ?_
      · intro i' is' heq _
        obtain ⟨rfl, -⟩ := List.cons.inj heq
        exact .inr hi
      · intro i' is' heq _
        obtain ⟨rfl, rfl⟩ := List.cons.inj heq
        exact ih (hcommand i is rfl (by simp)) (by omega) (by omega)

/-- After a reset the rest of the batch continues from there. -/
theorem resume {t : ℕ} (h : Schedulable e p s [] batch) (hs : s ≤ t)
    (hp : p ≤ t) (hend : batch = [] → e ≤ t)
    (hstart : ∀ i is, batch = i :: is → i ≤ t + 1) :
    Schedulable (max e t) t t [] batch := by
  induction batch generalizing p with
  | nil =>
      rw [max_eq_right (hend rfl)]
      exact idle le_rfl
  | cons i is ih =>
      obtain ⟨-, -, -, -, hnext, hcommand⟩ := h
      have hrest := hcommand i is rfl (by simp)
      have hi := hstart i is rfl
      by_cases hstale : i ≤ t
      · have hp' : max p i ≤ t := max_le hp hstale
        have hthis : Schedulable (max e t) t t [] is := by
          refine ih hrest hp' (fun hnil => ?_) fun i' is' heq => ?_
          · subst hnil
            exact hrest.end_le hp' (by simp)
          · subst heq
            obtain ⟨-, -, -, -, hnext', -⟩ := hrest
            rcases hnext' i' is' rfl (by simp) with ⟨hle, -⟩ | heq <;> omega
        refine .intro le_rfl (by simp) (by simp) (by simp) ?_ ?_
        · intro i' is' heq _
          obtain ⟨rfl, -⟩ := List.cons.inj heq
          exact .inl ⟨hstale, rfl⟩
        · intro i' is' heq _
          obtain ⟨rfl, rfl⟩ := List.cons.inj heq
          rw [max_eq_left hstale]
          exact hthis
      · have hpt : p = t := by
          rcases hnext i is rfl (by simp) with ⟨hle, -⟩ | heq <;> omega
        subst hpt
        have hip : i = p + 1 := by omega
        rw [max_eq_right (by omega : p ≤ i)] at hrest
        have hle := hrest.le_end
        rw [max_eq_left (by omega : p ≤ e)]
        refine .intro le_rfl (by simp) (by simp) (by simp) ?_ ?_
        · intro i' is' heq _
          obtain ⟨rfl, -⟩ := List.cons.inj heq
          exact .inr hip
        · intro i' is' heq _
          obtain ⟨rfl, rfl⟩ := List.cons.inj heq
          rw [max_eq_right (by omega : p ≤ i)]
          exact hrest.raise_reset (by omega) (by omega)

/-- A new reset may wait behind the old ones when no command behind it has
been delivered. -/
theorem add_reset {t : ℕ} (h : Schedulable e p s resets batch) (hs : s ≤ t)
    (hresets : ∀ d ∈ resets, d ≤ t) (hbatch : ∃ i m, batch = List.range' i m)
    (hend : batch = [] → e ≤ t)
    (hstart : ∀ i is, batch = i :: is → i ≤ t + 1) :
    Schedulable (max e t) p s (resets ++ [t]) batch := by
  induction h with
  | @intro p s resets batch hsp hend' hforward hreset hnext hcommand ihreset
      ihcommand =>
      have hself : Schedulable e p s resets batch :=
        .intro hsp hend' hforward hreset hnext hcommand
      refine .intro hsp (by simp) ?_ ?_ ?_ ?_
      · intro d ds heq
        cases resets with
        | cons d₀ ds₀ =>
            obtain ⟨rfl, -⟩ := List.cons.inj heq
            exact hforward d₀ ds₀ rfl
        | nil =>
            obtain ⟨rfl, -⟩ : t = d ∧ [] = ds := by simpa using heq
            cases batch with
            | nil => exact hself.le_end.trans (hend rfl)
            | cons i is =>
                have := hstart i is rfl
                rcases hnext i is rfl (by simp) with ⟨-, heq⟩ | heq <;> omega
      · intro d ds heq
        cases resets with
        | cons d₀ ds₀ =>
            obtain ⟨rfl, rfl⟩ := List.cons.inj heq
            exact ihreset d₀ ds₀ rfl (hresets d₀ (by simp))
              (fun d hd => hresets d (List.mem_cons_of_mem d₀ hd)) hbatch hend
              hstart
        | nil =>
            obtain ⟨rfl, rfl⟩ : t = d ∧ [] = ds := by simpa using heq
            refine hself.resume hs ?_ hend hstart
            cases batch with
            | nil => exact hself.le_end.trans (hend rfl)
            | cons i is =>
                have := hstart i is rfl
                rcases hnext i is rfl (by simp) with ⟨-, heq⟩ | heq <;> omega
      · intro i is heq hall
        exact hnext i is heq fun d hd => hall d (by simp [hd])
      · intro i is heq hall
        have hold : ∀ d ∈ resets, i ≤ d := fun d hd => hall d (by simp [hd])
        have hit : i ≤ t := hall t (by simp)
        have hp : max p i ≤ t := by
          rcases hnext i is heq hold with ⟨-, hps⟩ | hip <;>
            exact max_le (by omega) hit
        subst heq
        obtain ⟨j, m, hrange⟩ := hbatch
        cases m with
        | zero => simp at hrange
        | succ m =>
            rw [List.range'_succ] at hrange
            obtain ⟨rfl, rfl⟩ := List.cons.inj hrange
            refine ihcommand i _ rfl hold hs hresets ⟨i + 1, m, rfl⟩ ?_ ?_
            · intro hnil
              exact (hnil ▸ hcommand i _ rfl hold).end_le hp hresets
            · intro i' is' heq'
              cases m with
              | zero => simp at heq'
              | succ m =>
                  rw [List.range'_succ] at heq'
                  have := (List.cons.inj heq').1
                  omega

end Schedulable

end Delivery
