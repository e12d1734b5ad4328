import Mathlib.Data.Fintype.Card
import Mathlib.Data.Finset.Card

/-!
# Majorities of a finite set of servers
-/

namespace Quorum

variable {S : Type*} [Fintype S] [DecidableEq S]

/-- More than half of all servers. -/
def IsMajority (Q : Finset S) : Prop :=
  Fintype.card S < 2 * Q.card

/-- A majority of the servers satisfies `p`. -/
def Most (p : S → Prop) : Prop :=
  ∃ Q : Finset S, IsMajority Q ∧ ∀ v ∈ Q, p v

omit [DecidableEq S] in
theorem Most.mono {p q : S → Prop} (h : Most p) (hpq : ∀ v, p v → q v) :
    Most q := by
  obtain ⟨Q, hQ, hp⟩ := h
  exact ⟨Q, hQ, fun v hv => hpq v (hp v hv)⟩

/-- Two majorities have a common member. -/
theorem Most.exists_both {p q : S → Prop} (hp : Most p) (hq : Most q) :
    ∃ v, p v ∧ q v := by
  obtain ⟨Q, hQ, hQp⟩ := hp
  obtain ⟨R, hR, hRq⟩ := hq
  have hunion : (Q ∪ R).card ≤ Fintype.card S := Finset.card_le_univ _
  have hsum := Finset.card_union_add_card_inter Q R
  have hinter : 0 < (Q ∩ R).card := by
    simp only [IsMajority] at hQ hR
    omega
  obtain ⟨v, hv⟩ := Finset.card_pos.mp hinter
  rw [Finset.mem_inter] at hv
  exact ⟨v, hQp v hv.1, hRq v hv.2⟩

/-- A counter that never exceeds one more than the number of servers other
than `s` that satisfy `p` certifies, once it passes half of all servers and
`s` satisfies `p` too, that a majority satisfies `p`. -/
theorem most_of_count {p : S → Prop} [DecidablePred p] {s : S} {k : ℕ}
    (hs : p s)
    (hcount : k ≤ 1 + (Finset.univ.filter fun v => v ≠ s ∧ p v).card)
    (hk : Fintype.card S / 2 + 1 ≤ k) :
    Most p := by
  refine ⟨insert s (Finset.univ.filter fun v => v ≠ s ∧ p v), ?_, ?_⟩
  · rw [IsMajority, Finset.card_insert_of_notMem (by simp)]
    omega
  · intro v hv
    rw [Finset.mem_insert, Finset.mem_filter] at hv
    rcases hv with rfl | hv
    · exact hs
    · exact hv.2.2

end Quorum
