import KVRaftStorage.Replication.Ballots
import Mathlib.Data.List.Infix

/-!
# Replicated logs as a history

The record of a log replication protocol on top of the record of its
elections.  It keeps the log of every server, the log every voter had when it
voted, everything the winner of a term has minted in it (its log at the
election and every entry appended since), and how much of that each server has
acknowledged.

The first half of the argument is here.  A log is grounded when every
non-empty prefix of it is a prefix of what was minted in the term of its last
entry.  Grounded logs match: two prefixes of equal length with the same last
term are the same list.
-/

namespace Replication

open Quorum

variable {S E : Type*}

/-- What has happened so far: elections, logs, votes, leaders' logs and
acknowledgements. -/
structure Ledger (S E : Type*) extends Ballots S where
  log : S → List E
  voted : S → ℕ → List E
  minted : ℕ → List E
  acked : S → ℕ → ℕ

namespace Ledger

/-- Nothing has happened yet. -/
def blank : Ledger S E where
  toBallots := Ballots.blank
  log := fun _ => []
  voted := fun _ _ => []
  minted := fun _ => []
  acked := fun _ _ => 0

/-! ## Operations -/

section Operations

variable [DecidableEq S]

/-- Server `v` reaches term `T`. -/
def raise (G : Ledger S E) (v : S) (T : ℕ) : Ledger S E :=
  { G with toBallots := G.toBallots.raise v T }

/-- Server `v` reaches term `T` and votes for `c` there, with its log as it
is. -/
def cast (G : Ledger S E) (v : S) (T : ℕ) (c : S) : Ledger S E :=
  { G with
    toBallots := G.toBallots.cast v T c
    voted := Function.update G.voted v
      (Function.update (G.voted v) T (G.log v)) }

/-- Candidate `c` wins term `T`. -/
def elect (G : Ledger S E) (T : ℕ) (c : S) : Ledger S E :=
  { G with toBallots := G.toBallots.elect T c }

/-- The winner `c` of term `T` appends `e` to its log. -/
def mint (G : Ledger S E) (c : S) (T : ℕ) (e : E) : Ledger S E :=
  { G with
    log := Function.update G.log c (G.log c ++ [e])
    minted := Function.update G.minted T (G.log c ++ [e]) }

/-- The log of `v` becomes `l`. -/
def replace (G : Ledger S E) (v : S) (l : List E) : Ledger S E :=
  { G with log := Function.update G.log v l }

/-- Server `v` acknowledges the first `k` entries minted in term `T`. -/
def ack (G : Ledger S E) (v : S) (T k : ℕ) : Ledger S E :=
  { G with
    acked := Function.update G.acked v
      (Function.update (G.acked v) T (max (G.acked v T) k)) }

theorem voted_cast {G : Ledger S E} {v u : S} {T T' : ℕ} {c : S} :
    (G.cast v T c).voted u T' =
      if u = v ∧ T' = T then G.log v else G.voted u T' := by
  by_cases hu : u = v
  · subst hu
    by_cases hT : T' = T <;> simp [cast, hT]
  · simp [cast, hu]

theorem log_mint {G : Ledger S E} {c u : S} {T : ℕ} {e : E} :
    (G.mint c T e).log u = if u = c then G.log c ++ [e] else G.log u := by
  by_cases hu : u = c
  · subst hu
    simp [mint]
  · simp [mint, hu]

theorem minted_mint {G : Ledger S E} {c : S} {T T' : ℕ} {e : E} :
    (G.mint c T e).minted T' =
      if T' = T then G.log c ++ [e] else G.minted T' := by
  by_cases hT : T' = T
  · subst hT
    simp [mint]
  · simp [mint, hT]

theorem log_replace {G : Ledger S E} {v u : S} {l : List E} :
    (G.replace v l).log u = if u = v then l else G.log u := by
  by_cases hu : u = v
  · subst hu
    simp [replace]
  · simp [replace, hu]

theorem acked_ack {G : Ledger S E} {v u : S} {T T' k : ℕ} :
    (G.ack v T k).acked u T' =
      if u = v ∧ T' = T then max (G.acked v T) k else G.acked u T' := by
  by_cases hu : u = v
  · subst hu
    by_cases hT : T' = T <;> simp [ack, hT]
  · simp [ack, hu]

end Operations

/-! ## Growth -/

/-- `G'` is a later record than `G`. -/
structure Extends (G G' : Ledger S E) : Prop where
  ballots : G.toBallots.Extends G'.toBallots
  minted : ∀ T, G.minted T <+: G'.minted T
  acked : ∀ v T, G.acked v T ≤ G'.acked v T

theorem Extends.refl (G : Ledger S E) : G.Extends G :=
  ⟨.refl _, fun _ => List.prefix_rfl, fun _ _ => le_rfl⟩

theorem Extends.trans {G₁ G₂ G₃ : Ledger S E} (h₁ : G₁.Extends G₂)
    (h₂ : G₂.Extends G₃) : G₁.Extends G₃ :=
  ⟨h₁.ballots.trans h₂.ballots, fun T => (h₁.minted T).trans (h₂.minted T),
    fun v T => (h₁.acked v T).trans (h₂.acked v T)⟩

section Growth

variable [DecidableEq S] {G : Ledger S E}

theorem extends_raise {v : S} {T : ℕ} (hT : G.epoch v ≤ T) :
    G.Extends (G.raise v T) :=
  ⟨Ballots.extends_raise hT, fun _ => List.prefix_rfl, fun _ _ => le_rfl⟩

theorem extends_cast {v : S} {T : ℕ} {c : S}
    (hext : G.toBallots.Extends (G.toBallots.cast v T c)) :
    G.Extends (G.cast v T c) :=
  ⟨hext, fun _ => List.prefix_rfl, fun _ _ => le_rfl⟩

omit [DecidableEq S] in
theorem extends_elect {T : ℕ} {c : S}
    (hext : G.toBallots.Extends (G.toBallots.elect T c)) :
    G.Extends (G.elect T c) :=
  ⟨hext, fun _ => List.prefix_rfl, fun _ _ => le_rfl⟩

theorem extends_mint {c : S} {T : ℕ} {e : E}
    (hpre : G.minted T <+: G.log c) : G.Extends (G.mint c T e) := by
  refine ⟨.refl _, fun T' => ?_, fun _ _ => le_rfl⟩
  rw [minted_mint]
  split
  · next hT =>
      subst hT
      exact hpre.trans (List.prefix_append _ _)
  · exact List.prefix_rfl

theorem extends_replace {v : S} {l : List E} : G.Extends (G.replace v l) :=
  ⟨.refl _, fun _ => List.prefix_rfl, fun _ _ => le_rfl⟩

theorem extends_ack {v : S} {T k : ℕ} : G.Extends (G.ack v T k) := by
  refine ⟨.refl _, fun _ => List.prefix_rfl, fun u T' => ?_⟩
  rw [acked_ack]
  split
  · next h =>
      rw [h.1, h.2]
      exact Nat.le_max_left _ _
  · exact le_rfl

end Growth

end Ledger

/-! ## Grounded logs -/

/-- Entries that carry the term they were minted in. -/
class Termed (E : Type*) where
  term : E → ℕ

export Termed (term)

variable [Termed E]

/-- The term of the last entry, zero for the empty log. -/
def lastTerm (l : List E) : ℕ := (l.getLast?.map term).getD 0

@[simp] theorem lastTerm_nil : lastTerm ([] : List E) = 0 := rfl

@[simp] theorem lastTerm_concat (l : List E) (e : E) :
    lastTerm (l ++ [e]) = term e := by
  simp [lastTerm]

/-- The last term of a non-empty log is the term of one of its entries. -/
theorem exists_mem_lastTerm {l : List E} (h : l ≠ []) :
    ∃ e ∈ l, term e = lastTerm l := by
  refine ⟨l.getLast h, List.getLast_mem h, ?_⟩
  simp [lastTerm, List.getLast?_eq_some_getLast h]

/-- Extending a log leaves its first entries alone. -/
theorem take_of_isPrefix {α : Type*} {l l' : List α} (h : l <+: l') {k : ℕ}
    (hk : k ≤ l.length) : l'.take k = l.take k := by
  obtain ⟨s, rfl⟩ := h
  exact List.take_append_of_le_length hk

/-- Every non-empty prefix of `l` was minted in the term of its last entry. -/
def Grounded (m : ℕ → List E) (l : List E) : Prop :=
  ∀ p, p <+: l → p ≠ [] → p <+: m (lastTerm p)

namespace Grounded

variable {m m' : ℕ → List E} {l l' : List E}

theorem nil (m : ℕ → List E) : Grounded m [] := by
  intro p hp hne
  exact absurd (List.prefix_nil.mp hp) hne

theorem of_isPrefix (h : Grounded m l) (hl : l' <+: l) : Grounded m l' :=
  fun p hp hne => h p (hp.trans hl) hne

theorem mono (h : Grounded m l) (hm : ∀ T, m T <+: m' T) : Grounded m' l :=
  fun p hp hne => (h p hp hne).trans (hm _)

theorem concat (h : Grounded m l) {e : E} (he : l ++ [e] <+: m (term e)) :
    Grounded m (l ++ [e]) := by
  intro p hp hne
  rcases List.prefix_concat_iff.mp hp with rfl | hp
  · simpa using he
  · exact h p hp hne

/-- Log matching. -/
theorem eq_of_lastTerm (h : Grounded m l) (h' : Grounded m l')
    {p p' : List E} (hp : p <+: l) (hp' : p' <+: l')
    (hlen : p.length = p'.length) (hterm : lastTerm p = lastTerm p') :
    p = p' := by
  by_cases hne : p = []
  · subst hne
    exact (List.eq_nil_of_length_eq_zero (by simpa using hlen.symm)).symm
  · have hne' : p' ≠ [] := by
      rintro rfl
      exact hne (List.eq_nil_of_length_eq_zero hlen)
    have hmint := h p hp hne
    have hmint' := h' p' hp' hne'
    rw [← hterm] at hmint'
    exact (List.prefix_of_prefix_length_le hmint hmint' hlen.le).eq_of_length
      hlen

end Grounded

namespace Ledger

/-! ## Matching logs -/

/-- Everything on record is grounded, and terms are where they belong. -/
structure Matched (G : Ledger S E) : Prop where
  log : ∀ v, Grounded G.minted (G.log v)
  voted : ∀ v T, Grounded G.minted (G.voted v T)
  minted : ∀ T, Grounded G.minted (G.minted T)
  minted_le : ∀ T, ∀ e ∈ G.minted T, term e ≤ T
  minted_last : ∀ T, G.minted T ≠ [] → lastTerm (G.minted T) = T
  log_le : ∀ v, ∀ e ∈ G.log v, term e ≤ G.epoch v
  unminted : ∀ T, G.winner T = none → G.minted T = []

theorem matched_blank : (blank : Ledger S E).Matched where
  log := fun _ => .nil _
  voted := fun _ _ => .nil _
  minted := fun _ => .nil _
  minted_le := by simp [blank]
  minted_last := by simp [blank]
  log_le := by simp [blank]
  unminted := fun _ _ => rfl

namespace Matched

variable {G : Ledger S E}

/-- Entries of a minted prefix have at most the term of its last entry. -/
theorem term_le_lastTerm (h : G.Matched) {p : List E}
    (hp : p <+: G.minted (lastTerm p)) : ∀ e ∈ p, term e ≤ lastTerm p :=
  fun e he => h.minted_le _ e (hp.subset he)

theorem lastTerm_le (h : G.Matched) {l p : List E} (hl : Grounded G.minted l)
    (hp : p <+: l) : lastTerm p ≤ lastTerm l := by
  by_cases hne : p = []
  · simp [hne]
  · have hlne : l ≠ [] := by
      rintro rfl
      exact hne (List.prefix_nil.mp hp)
    obtain ⟨e, he, hterm⟩ := exists_mem_lastTerm hne
    rw [← hterm]
    exact h.term_le_lastTerm (hl l List.prefix_rfl hlne) e (hp.subset he)

variable [DecidableEq S]

theorem raise (h : G.Matched) {v : S} {T : ℕ} (hT : G.epoch v ≤ T) :
    (G.raise v T).Matched where
  log := h.log
  voted := h.voted
  minted := h.minted
  minted_le := h.minted_le
  minted_last := h.minted_last
  log_le := fun u e he => (h.log_le u e he).trans
    ((extends_raise hT).ballots.epoch u)
  unminted := h.unminted

theorem cast (h : G.Matched) {v : S} {T : ℕ} {c : S}
    (hext : G.toBallots.Extends (G.toBallots.cast v T c)) :
    (G.cast v T c).Matched where
  log := h.log
  voted := by
    intro u T'
    rw [voted_cast]
    split
    · exact h.log v
    · exact h.voted u T'
  minted := h.minted
  minted_le := h.minted_le
  minted_last := h.minted_last
  log_le := fun u e he => (h.log_le u e he).trans (hext.epoch u)
  unminted := h.unminted

omit [DecidableEq S] in
theorem elect (h : G.Matched) {T : ℕ} {c : S}
    (hext : G.toBallots.Extends (G.toBallots.elect T c)) :
    (G.elect T c).Matched where
  log := h.log
  voted := h.voted
  minted := h.minted
  minted_le := h.minted_le
  minted_last := h.minted_last
  log_le := h.log_le
  unminted := by
    intro T' hT'
    refine h.unminted T' ?_
    rw [Option.eq_none_iff_forall_ne_some]
    intro s hs
    have hnew : (G.elect T c).winner T' = some s := hext.winner T' s hs
    simp [hT'] at hnew

theorem mint (h : G.Matched) {c : S} {T : ℕ} {e : E}
    (hpre : G.minted T <+: G.log c) (he : term e = T)
    (hepoch : G.epoch c = T) (hwon : G.winner T ≠ none) :
    (G.mint c T e).Matched := by
  have hgrow := (extends_mint (e := e) hpre).minted
  have hnew : Grounded (G.mint c T e).minted (G.log c ++ [e]) := by
    refine ((h.log c).mono hgrow).concat ?_
    rw [he, minted_mint, if_pos rfl]
  have hle : ∀ x ∈ G.log c ++ [e], term x ≤ T := by
    intro x hx
    rcases List.mem_append.mp hx with hx | hx
    · exact hepoch ▸ h.log_le c x hx
    · rw [List.mem_singleton.mp hx, he]
  refine ⟨?_, fun v T' => (h.voted v T').mono hgrow, ?_, ?_, ?_, ?_, ?_⟩
  · intro v
    rw [log_mint]
    split
    · exact hnew
    · exact (h.log v).mono hgrow
  · intro T'
    rw [minted_mint]
    split
    · exact hnew
    · exact (h.minted T').mono hgrow
  · intro T' x hx
    rw [minted_mint] at hx
    split at hx
    · next hT => exact hT ▸ hle x hx
    · exact h.minted_le T' x hx
  · intro T' hne
    rw [minted_mint] at hne ⊢
    split
    · next hT => rw [lastTerm_concat, he, hT]
    · next hT =>
        rw [if_neg hT] at hne
        exact h.minted_last T' hne
  · intro v x hx
    rw [log_mint] at hx
    split at hx
    · next hv =>
        rw [hv]
        exact hepoch.symm ▸ hle x hx
    · exact h.log_le v x hx
  · intro T' hT'
    rw [minted_mint, if_neg]
    · exact h.unminted T' hT'
    · rintro rfl
      exact hwon hT'

theorem replace (h : G.Matched) {v : S} {l : List E}
    (hl : Grounded G.minted l) (hle : ∀ e ∈ l, term e ≤ G.epoch v) :
    (G.replace v l).Matched where
  log := by
    intro u
    rw [log_replace]
    split
    · exact hl
    · exact h.log u
  voted := h.voted
  minted := h.minted
  minted_le := h.minted_le
  minted_last := h.minted_last
  log_le := by
    intro u e he
    rw [log_replace] at he
    split at he
    · next hu => exact hu ▸ hle e he
    · exact h.log_le u e he
  unminted := h.unminted

theorem ack (h : G.Matched) {v : S} {T k : ℕ} : (G.ack v T k).Matched :=
  ⟨h.log, h.voted, h.minted, h.minted_le, h.minted_last, h.log_le, h.unminted⟩

end Matched

end Ledger

end Replication
