import KVRaftStorage.Support.Quorum
import Mathlib.Logic.Function.Basic

/-!
# Votes and elections as a history

The record of one term-based voting protocol over an arbitrary finite set of
servers: the term each server has reached, every vote ever cast, and the
winner of every term.  The record only grows.  It is kept by three operations,
and each of them preserves soundness: a vote never lies above the voter's
term, and every winner has the votes of a majority.
-/

namespace Replication

open Quorum

/-- The terms reached, the votes cast and the terms won so far. -/
structure Ballots (S : Type*) where
  epoch : S → ℕ
  ballot : S → ℕ → Option S
  winner : ℕ → Option S

namespace Ballots

variable {S : Type*} [DecidableEq S]

/-- Nothing has happened yet. -/
def blank : Ballots S where
  epoch := fun _ => 0
  ballot := fun _ _ => none
  winner := fun _ => none

/-- Server `v` reaches term `T`. -/
def raise (B : Ballots S) (v : S) (T : ℕ) : Ballots S :=
  { B with epoch := Function.update B.epoch v T }

/-- Server `v` reaches term `T` and votes for `c` there. -/
def cast (B : Ballots S) (v : S) (T : ℕ) (c : S) : Ballots S :=
  { B with
    epoch := Function.update B.epoch v T
    ballot :=
      Function.update B.ballot v (Function.update (B.ballot v) T (some c)) }

/-- Candidate `c` wins term `T`. -/
def elect (B : Ballots S) (T : ℕ) (c : S) : Ballots S :=
  { B with winner := Function.update B.winner T (some c) }

/-- `B'` is a later record than `B`. -/
structure Extends (B B' : Ballots S) : Prop where
  epoch : ∀ v, B.epoch v ≤ B'.epoch v
  ballot : ∀ v T c, B.ballot v T = some c → B'.ballot v T = some c
  winner : ∀ T c, B.winner T = some c → B'.winner T = some c

/-- Votes lie in terms the voter has reached, and winners were elected. -/
structure Sound [Fintype S] (B : Ballots S) : Prop where
  ballot_le : ∀ v T c, B.ballot v T = some c → T ≤ B.epoch v
  winner_most : ∀ T c, B.winner T = some c → Most fun v => B.ballot v T = some c

omit [DecidableEq S] in
theorem Extends.refl (B : Ballots S) : B.Extends B :=
  ⟨fun _ => le_rfl, fun _ _ _ h => h, fun _ _ h => h⟩

omit [DecidableEq S] in
theorem Extends.trans {B₁ B₂ B₃ : Ballots S}
    (h₁ : B₁.Extends B₂) (h₂ : B₂.Extends B₃) : B₁.Extends B₃ :=
  ⟨fun v => (h₁.epoch v).trans (h₂.epoch v),
    fun v T c h => h₂.ballot v T c (h₁.ballot v T c h),
    fun T c h => h₂.winner T c (h₁.winner T c h)⟩

theorem extends_raise {B : Ballots S} {v : S} {T : ℕ} (hT : B.epoch v ≤ T) :
    B.Extends (B.raise v T) := by
  refine ⟨fun u => ?_, fun _ _ _ h => h, fun _ _ h => h⟩
  by_cases hu : u = v
  · subst hu
    simpa [raise] using hT
  · simp [raise, hu]

theorem ballot_cast {B : Ballots S} {v u : S} {T T' : ℕ} {c : S} :
    (B.cast v T c).ballot u T' =
      if u = v ∧ T' = T then some c else B.ballot u T' := by
  by_cases hu : u = v
  · subst hu
    by_cases hT : T' = T <;> simp [cast, hT]
  · simp [cast, hu]

theorem epoch_cast {B : Ballots S} {v u : S} {T : ℕ} {c : S} :
    (B.cast v T c).epoch u = if u = v then T else B.epoch u := by
  by_cases hu : u = v
  · subst hu
    simp [cast]
  · simp [cast, hu]

theorem epoch_raise {B : Ballots S} {v u : S} {T : ℕ} :
    (B.raise v T).epoch u = if u = v then T else B.epoch u := by
  by_cases hu : u = v
  · subst hu
    simp [raise]
  · simp [raise, hu]

theorem raise_self (B : Ballots S) (v : S) : B.raise v (B.epoch v) = B := by
  simp [raise]

omit [DecidableEq S] in
theorem winner_elect {B : Ballots S} {T T' : ℕ} {c : S} :
    (B.elect T c).winner T' = if T' = T then some c else B.winner T' := by
  by_cases hT : T' = T
  · subst hT
    simp [elect]
  · simp [elect, hT]

theorem extends_cast {B : Ballots S} {v : S} {T : ℕ} {c : S}
    (hT : B.epoch v ≤ T) (hfree : ∀ c', B.ballot v T = some c' → c' = c) :
    B.Extends (B.cast v T c) := by
  refine ⟨fun u => ?_, fun u T' c' h => ?_, fun _ _ h => h⟩
  · rw [epoch_cast]
    split
    · next hu => exact hu ▸ hT
    · exact le_rfl
  · rw [ballot_cast]
    split
    · next hu =>
        obtain ⟨rfl, rfl⟩ := hu
        rw [hfree c' h]
    · exact h

omit [DecidableEq S] in
theorem extends_elect {B : Ballots S} {T : ℕ} {c : S}
    (hfree : ∀ c', B.winner T = some c' → c' = c) :
    B.Extends (B.elect T c) := by
  refine ⟨fun _ => le_rfl, fun _ _ _ h => h, fun T' c' h => ?_⟩
  rw [winner_elect]
  split
  · next hT =>
      subst hT
      rw [hfree c' h]
  · exact h

section Sound

variable [Fintype S]

omit [DecidableEq S] in
theorem sound_blank : (blank : Ballots S).Sound where
  ballot_le := by simp [blank]
  winner_most := by simp [blank]

theorem Sound.raise {B : Ballots S} (h : B.Sound) {v : S} {T : ℕ}
    (hT : B.epoch v ≤ T) : (B.raise v T).Sound where
  ballot_le := fun u T' c hb =>
    (h.ballot_le u T' c hb).trans ((extends_raise hT).epoch u)
  winner_most := h.winner_most

theorem Sound.cast {B : Ballots S} (h : B.Sound) {v : S} {T : ℕ} {c : S}
    (hT : B.epoch v ≤ T) (hfree : ∀ c', B.ballot v T = some c' → c' = c) :
    (B.cast v T c).Sound where
  ballot_le := by
    intro u T' c' hb
    rw [ballot_cast] at hb
    rw [epoch_cast]
    by_cases hu : u = v
    · subst hu
      by_cases hT' : T' = T
      · simp [hT']
      · rw [if_neg (by simp [hT'])] at hb
        rw [if_pos rfl]
        exact (h.ballot_le u T' c' hb).trans hT
    · rw [if_neg (by simp [hu])] at hb
      rw [if_neg hu]
      exact h.ballot_le u T' c' hb
  winner_most := fun T' c' hw =>
    (h.winner_most T' c' hw).mono fun u hu =>
      (extends_cast hT hfree).ballot u T' c' hu

omit [DecidableEq S] in
theorem Sound.elect {B : Ballots S} (h : B.Sound) {T : ℕ} {c : S}
    (hmost : Most fun v => B.ballot v T = some c) : (B.elect T c).Sound where
  ballot_le := h.ballot_le
  winner_most := by
    intro T' c' hw
    rw [winner_elect] at hw
    split at hw
    · next hT =>
        subst hT
        obtain rfl : c = c' := by simpa using hw
        exact hmost
    · exact h.winner_most T' c' hw

/-- Two candidates with a majority each are the same candidate. -/
theorem most_unique {B : Ballots S} {T : ℕ} {c c' : S}
    (h : Most fun v => B.ballot v T = some c)
    (h' : Most fun v => B.ballot v T = some c') : c = c' := by
  obtain ⟨v, hv, hv'⟩ := h.exists_both h'
  exact Option.some.inj (hv.symm.trans hv')

end Sound

end Ballots

end Replication
