import KVRaftStorage.Replication.Ledger

/-!
# Leader completeness

A prefix is anchored when it ends with an entry of the term in which it was
minted, and it is decided when a majority has acknowledged it in that term.
Every later winner has minted at least the decided prefixes of the earlier
terms.

The invariant never speaks of decided prefixes.  It follows every single
acknowledgement: a server that acknowledged an anchored prefix still holds it,
unless a later term has minted a log without it.  At an election this passes
from the voters to the winner, and a decided prefix meets every electing
majority.
-/

namespace Replication

open Quorum

variable {S E : Type*} [Termed E]

/-- A log that is no more up to date than `l'`. -/
def NotNewer (l l' : List E) : Prop :=
  lastTerm l < lastTerm l' ∨
    (lastTerm l = lastTerm l' ∧ l.length ≤ l'.length)

namespace Ledger

/-- A minted prefix that ends in an entry of its own term. -/
def Anchored (G : Ledger S E) (p : List E) : Prop :=
  p ≠ [] ∧ p <+: G.minted (lastTerm p)

/-- `v` has acknowledged `p` in the term of its last entry. -/
def Acks (G : Ledger S E) (v : S) (p : List E) : Prop :=
  p.length ≤ G.acked v (lastTerm p)

/-- Some term after that of `p` and before `T` has minted a log without
`p`. -/
def Lost (G : Ledger S E) (p : List E) (T : ℕ) : Prop :=
  ∃ U, lastTerm p < U ∧ U < T ∧ G.minted U ≠ [] ∧ ¬p <+: G.minted U

/-- A majority has acknowledged `p`. -/
def Decided [Fintype S] (G : Ledger S E) (p : List E) : Prop :=
  G.Anchored p ∧ Most fun v => G.Acks v p

/-- `q` is contained in a prefix decided in term `T` or earlier. -/
def CommittedBy [Fintype S] (G : Ledger S E) (T : ℕ) (q : List E) : Prop :=
  q = [] ∨ ∃ p, G.Decided p ∧ lastTerm p ≤ T ∧ q <+: p

/-- The inductive invariant behind leader completeness. -/
structure Complete [Fintype S] (G : Ledger S E) : Prop where
  matched : G.Matched
  sound : G.toBallots.Sound
  self : ∀ v T c, G.ballot v T = some c → G.ballot c T = some c
  acked_le : ∀ v T, G.acked v T ≤ (G.minted T).length
  acked_epoch : ∀ v T, 0 < G.acked v T → T ≤ G.epoch v
  ack : ∀ v p, G.Anchored p → G.Acks v p →
    p <+: G.log v ∨ G.Lost p (G.epoch v + 1)
  vote : ∀ v T c p, G.minted T = [] → G.ballot v T = some c →
    G.Anchored p → G.Acks v p → lastTerm p < T →
      p <+: G.voted v T ∨ G.Lost p T
  upToDate : ∀ v T c, G.ballot v T = some c →
    NotNewer (G.voted v T) (G.voted c T)
  voted_lt : ∀ c T, G.ballot c T = some c → ∀ e ∈ G.voted c T, term e < T
  drift : ∀ c T p, G.minted T = [] → G.ballot c T = some c →
    G.epoch c = T → p ≠ [] → p <+: G.voted c T →
      p <+: G.log c ∨ G.Lost p T
  elected : ∀ T, G.minted T ≠ [] → Most fun v => T ≤ G.epoch v ∧
    ∀ p, G.Anchored p → G.Acks v p → lastTerm p < T →
      p <+: G.minted T ∨ G.Lost p T

/-! ## Growth -/

section Growth

variable {G G' : Ledger S E}

theorem Anchored.extend {p : List E} (h : G.Anchored p) (hext : G.Extends G') :
    G'.Anchored p :=
  ⟨h.1, h.2.trans (hext.minted _)⟩

theorem Lost.mono {p : List E} {T T' : ℕ} (h : G.Lost p T) (hT : T ≤ T') :
    G.Lost p T' := by
  obtain ⟨U, hlt, hU, hne, hnot⟩ := h
  exact ⟨U, hlt, by omega, hne, hnot⟩

/-- What a term has minted first decides whether it has `p`: every entry of
`p` is of an earlier term. -/
theorem prefix_of_extend (hG : G.Matched) (hG' : G'.Matched)
    (hext : G.Extends G') {p : List E} {T : ℕ}
    (hp : p <+: G'.minted (lastTerm p)) (hlt : lastTerm p < T)
    (hne : G.minted T ≠ []) (hT : p <+: G'.minted T) : p <+: G.minted T := by
  rcases List.prefix_or_prefix_of_prefix hT (hext.minted T) with h | h
  · exact h
  · obtain ⟨e, he, hterm⟩ := exists_mem_lastTerm hne
    have hle := hG'.term_le_lastTerm hp e (h.subset he)
    rw [hterm, hG.minted_last T hne] at hle
    omega

theorem Lost.extend (hG : G.Matched) (hG' : G'.Matched) (hext : G.Extends G')
    {p : List E} {T : ℕ} (hp : p <+: G'.minted (lastTerm p))
    (h : G.Lost p T) : G'.Lost p T := by
  obtain ⟨U, hlt, hU, hne, hnot⟩ := h
  refine ⟨U, hlt, hU, ?_, fun h' => hnot ?_⟩
  · intro hnil
    exact hne (List.prefix_nil.mp (hnil ▸ hext.minted U))
  · exact prefix_of_extend hG hG' hext hp hlt hne h'

/-- An acknowledged prefix was anchored when it was acknowledged. -/
theorem anchored_of_acks (hacked : ∀ v T, G.acked v T ≤ (G.minted T).length)
    (hext : G.Extends G') {v : S} {p : List E} (hp : G'.Anchored p)
    (hack : G.Acks v p) : G.Anchored p :=
  ⟨hp.1, List.prefix_of_prefix_length_le hp.2 (hext.minted _)
    (hack.trans (hacked v _))⟩

variable [Fintype S]

theorem Decided.extend {p : List E} (h : G.Decided p) (hext : G.Extends G') :
    G'.Decided p :=
  ⟨h.1.extend hext, h.2.mono fun v hv => hv.trans (hext.acked v _)⟩

theorem CommittedBy.extend {T : ℕ} {q : List E} (h : G.CommittedBy T q)
    (hext : G.Extends G') : G'.CommittedBy T q := by
  rcases h with rfl | ⟨p, hp, hle, hq⟩
  · exact .inl rfl
  · exact .inr ⟨p, hp.extend hext, hle, hq⟩

theorem CommittedBy.mono {T T' : ℕ} {q : List E} (h : G.CommittedBy T q)
    (hT : T ≤ T') : G.CommittedBy T' q := by
  rcases h with rfl | ⟨p, hp, hle, hq⟩
  · exact .inl rfl
  · exact .inr ⟨p, hp, hle.trans hT, hq⟩

theorem CommittedBy.of_isPrefix {T : ℕ} {q q' : List E} (h : G.CommittedBy T q)
    (hq' : q' <+: q) : G.CommittedBy T q' := by
  rcases h with rfl | ⟨p, hp, hle, hq⟩
  · exact .inl (List.prefix_nil.mp hq')
  · exact .inr ⟨p, hp, hle, hq'.trans hq⟩

end Growth

/-! ## The theorem -/

namespace Complete

variable [Fintype S] [DecidableEq S] {G : Ledger S E}

/-- Leader completeness. -/
theorem decided_prefix (h : G.Complete) {p : List E} (hp : G.Decided p) :
    ∀ T, lastTerm p < T → G.minted T ≠ [] → p <+: G.minted T := by
  intro T
  induction T using Nat.strong_induction_on with
  | _ T ih =>
      intro hlt hne
      obtain ⟨v, hack, -, hkeeps⟩ := hp.2.exists_both (h.elected T hne)
      rcases hkeeps p hp.1 hack hlt with hheld | ⟨U, hltU, hUT, hneU, hnot⟩
      · exact hheld
      · exact absurd (ih U hUT hltU hneU) hnot

theorem decided_prefix_of_le (h : G.Complete) {p : List E} (hp : G.Decided p)
    {T : ℕ} (hle : lastTerm p ≤ T) (hne : G.minted T ≠ []) :
    p <+: G.minted T := by
  rcases hle.lt_or_eq with hlt | heq
  · exact h.decided_prefix hp T hlt hne
  · exact heq ▸ hp.1.2

/-- Committed prefixes are in what every later winner mints. -/
theorem committed_prefix (h : G.Complete) {q : List E} {T : ℕ}
    (hq : G.CommittedBy T q) (hne : G.minted T ≠ []) : q <+: G.minted T := by
  rcases hq with rfl | ⟨p, hp, hle, hqp⟩
  · exact List.nil_prefix
  · exact hqp.trans (h.decided_prefix_of_le hp hle hne)

/-- A decided prefix is of a term that some server has reached. -/
theorem decided_le (h : G.Complete) {p : List E} (hp : G.Decided p) :
    ∃ v, lastTerm p ≤ G.epoch v := by
  obtain ⟨v, hacks, -⟩ := hp.2.exists_both hp.2
  have hpos := List.length_pos_iff.mpr hp.1.1
  exact ⟨v, h.acked_epoch v _ (hpos.trans_le hacks)⟩

/-- In a term that no server is beyond, everything committed is minted. -/
theorem committed_prefix_latest (h : G.Complete) {q : List E} {T U : ℕ}
    (hq : G.CommittedBy U q) (hlatest : ∀ v, G.epoch v ≤ T)
    (hne : G.minted T ≠ []) : q <+: G.minted T := by
  rcases hq with rfl | ⟨p, hp, -, hqp⟩
  · exact List.nil_prefix
  · obtain ⟨v, hv⟩ := h.decided_le hp
    exact hqp.trans (h.decided_prefix_of_le hp (hv.trans (hlatest v)) hne)

/-- Of two decided prefixes one contains the other. -/
theorem decided_comparable (h : G.Complete) {p p' : List E}
    (hp : G.Decided p) (hp' : G.Decided p') : p <+: p' ∨ p' <+: p := by
  have hne : ∀ {q : List E}, G.Decided q → G.minted (lastTerm q) ≠ [] := by
    intro q hq hnil
    have := hq.1.2
    rw [hnil] at this
    exact hq.1.1 (List.prefix_nil.mp this)
  rcases le_total (lastTerm p) (lastTerm p') with hle | hle
  · exact List.prefix_or_prefix_of_prefix
      (h.decided_prefix_of_le hp hle (hne hp')) hp'.1.2
  · exact List.prefix_or_prefix_of_prefix hp.1.2
      (h.decided_prefix_of_le hp' hle (hne hp))

/-- Committed prefixes of the same length are equal. -/
theorem committed_eq (h : G.Complete) {q q' : List E} {T T' : ℕ}
    (hq : G.CommittedBy T q) (hq' : G.CommittedBy T' q')
    (hlen : q.length = q'.length) : q = q' := by
  rcases hq with rfl | ⟨p, hp, -, hqp⟩
  · exact (List.eq_nil_of_length_eq_zero hlen.symm).symm
  rcases hq' with rfl | ⟨p', hp', -, hqp'⟩
  · exact List.eq_nil_of_length_eq_zero hlen
  rcases h.decided_comparable hp hp' with hpp | hpp
  · exact (List.prefix_of_prefix_length_le (hqp.trans hpp) hqp'
      hlen.le).eq_of_length hlen
  · exact (List.prefix_of_prefix_length_le hqp (hqp'.trans hpp)
      hlen.le).eq_of_length hlen

/-- Of two committed prefixes the shorter one starts the longer one. -/
theorem committed_prefix_of_le (h : G.Complete) {q q' : List E} {T T' : ℕ}
    (hq : G.CommittedBy T q) (hq' : G.CommittedBy T' q')
    (hlen : q.length ≤ q'.length) : q <+: q' := by
  have heq := h.committed_eq hq (hq'.of_isPrefix (List.take_prefix q.length q'))
    (List.length_take_of_le hlen).symm
  rw [heq]
  exact List.take_prefix _ _

omit [DecidableEq S] in
theorem committed_grounded (h : G.Complete) {q : List E} {T : ℕ}
    (hq : G.CommittedBy T q) :
    Grounded G.minted q ∧ ∀ e ∈ q, term e ≤ T := by
  rcases hq with rfl | ⟨p, hp, hle, hqp⟩
  · exact ⟨.nil _, by simp⟩
  · exact ⟨(h.matched.minted _).of_isPrefix (hqp.trans hp.1.2), fun e he =>
      (h.matched.term_le_lastTerm hp.1.2 e (hqp.subset he)).trans hle⟩

/-! ## The operations -/

omit [DecidableEq S] in
theorem blank : (Ledger.blank : Ledger S E).Complete where
  matched := matched_blank
  sound := Ballots.sound_blank
  self := by simp [Ledger.blank, Ballots.blank]
  acked_le := by simp [Ledger.blank]
  acked_epoch := by simp [Ledger.blank]
  ack := fun _ p hp _ => absurd (List.prefix_nil.mp hp.2) hp.1
  vote := fun _ _ _ p _ _ hp _ _ => absurd (List.prefix_nil.mp hp.2) hp.1
  upToDate := by simp [Ledger.blank, Ballots.blank]
  voted_lt := by simp [Ledger.blank]
  drift := by simp [Ledger.blank, Ballots.blank]
  elected := by simp [Ledger.blank]

/-- Raising an epoch. -/
theorem raise (h : G.Complete) {v : S} {T : ℕ} (hT : G.epoch v ≤ T) :
    (G.raise v T).Complete where
  matched := h.matched.raise hT
  sound := h.sound.raise hT
  self := h.self
  acked_le := h.acked_le
  acked_epoch := fun u T' hpos => (h.acked_epoch u T' hpos).trans
    ((extends_raise hT).ballots.epoch u)
  ack := fun u p hp hack => (h.ack u p hp hack).imp id fun hlost =>
    hlost.mono (Nat.add_le_add_right ((extends_raise hT).ballots.epoch u) 1)
  vote := h.vote
  upToDate := h.upToDate
  voted_lt := h.voted_lt
  drift := by
    intro c T' p hnil hballot hepoch hne hvoted
    refine h.drift c T' p hnil hballot ?_ hne hvoted
    -- a vote in the new term means that it is not new
    have hold := h.sound.ballot_le c T' c hballot
    have hnew := (extends_raise (G := G) hT).ballots.epoch c
    rw [hepoch] at hnew
    omega
  elected := fun T' hne => (h.elected T' hne).mono fun u hu =>
    ⟨hu.1.trans ((extends_raise hT).ballots.epoch u), hu.2⟩

/-- Casting a vote: the candidate votes for itself with an older log, any
other voter finds the candidate's log no less up to date than its own. -/
theorem cast (h : G.Complete) {v : S} {T : ℕ} {c : S} (hT : G.epoch v ≤ T)
    (hfree : ∀ c', G.ballot v T = some c' → c' = c)
    (hvoter : v ≠ c → G.ballot c T = some c ∧
      NotNewer (G.log v) (G.voted c T))
    (hcandidate : v = c → G.ballot v T = none ∧
      ∀ e ∈ G.log v, term e < T) :
    (G.cast v T c).Complete := by
  have hext := Ballots.extends_cast hT hfree
  have hepoch : ∀ u, G.epoch u ≤ (G.cast v T c).epoch u := hext.epoch
  have hself : v = c → ∀ u, G.ballot u T ≠ some c := by
    rintro rfl u hu
    have := h.self u T v hu
    simp [(hcandidate rfl).1] at this
  refine ⟨h.matched.cast hext, h.sound.cast hT hfree, ?_, h.acked_le, ?_, ?_,
    ?_, ?_, ?_, ?_, ?_⟩
  · intro u T' c' hu
    change (G.toBallots.cast v T c).ballot u T' = _ at hu
    change (G.toBallots.cast v T c).ballot c' T' = _
    rw [Ballots.ballot_cast] at hu
    split at hu
    · next hand =>
        obtain rfl : c = c' := Option.some.inj hu
        obtain ⟨-, rfl⟩ := hand
        by_cases hvc : v = c
        · rw [Ballots.ballot_cast, if_pos ⟨hvc.symm, rfl⟩]
        · exact hext.ballot _ _ _ (hvoter hvc).1
    · exact hext.ballot _ _ _ (h.self u T' c' hu)
  · exact fun u T' hpos => (h.acked_epoch u T' hpos).trans (hepoch u)
  · exact fun u p hp hack => (h.ack u p hp hack).imp id fun hlost =>
      hlost.mono (Nat.add_le_add_right (hepoch u) 1)
  · intro u T' c' p hnil hballot hp hack hlt
    change (G.toBallots.cast v T c).ballot u T' = _ at hballot
    rw [Ballots.ballot_cast] at hballot
    rw [voted_cast]
    by_cases hand : u = v ∧ T' = T
    · obtain ⟨rfl, rfl⟩ := hand
      rw [if_pos ⟨rfl, rfl⟩]
      refine (h.ack u p hp hack).imp id ?_
      rintro ⟨U, hltU, hU, hneU, hnot⟩
      have hne : U ≠ T' := fun heq => hneU (heq ▸ hnil)
      exact ⟨U, hltU, by omega, hneU, hnot⟩
    · rw [if_neg hand] at hballot ⊢
      exact h.vote u T' c' p hnil hballot hp hack hlt
  · intro u T' c' hballot
    change (G.toBallots.cast v T c).ballot u T' = _ at hballot
    rw [Ballots.ballot_cast] at hballot
    rw [voted_cast, voted_cast]
    by_cases hand : u = v ∧ T' = T
    · obtain ⟨rfl, rfl⟩ := hand
      rw [if_pos ⟨rfl, rfl⟩] at hballot
      obtain rfl : c = c' := Option.some.inj hballot
      rw [if_pos ⟨rfl, rfl⟩]
      split
      · exact .inr ⟨rfl, le_rfl⟩
      · next hne => exact (hvoter fun heq => hne ⟨heq.symm, rfl⟩).2
    · rw [if_neg hand] at hballot
      rw [if_neg hand, if_neg]
      · exact h.upToDate u T' c' hballot
      · -- a voter of `v` in this term would have `v` vote for itself
        rintro ⟨rfl, rfl⟩
        obtain rfl := hfree c' (h.self u T' c' hballot)
        exact hself rfl u hballot
  · intro c' T' hballot e he
    change (G.toBallots.cast v T c).ballot c' T' = _ at hballot
    rw [Ballots.ballot_cast] at hballot
    rw [voted_cast] at he
    by_cases hand : c' = v ∧ T' = T
    · obtain ⟨rfl, rfl⟩ := hand
      rw [if_pos ⟨rfl, rfl⟩] at hballot he
      exact (hcandidate (Option.some.inj hballot).symm).2 e he
    · rw [if_neg hand] at hballot he
      exact h.voted_lt c' T' hballot e he
  · intro c' T' p hnil hballot hepoch' hne hvoted
    change (G.toBallots.cast v T c).ballot c' T' = _ at hballot
    change (G.toBallots.cast v T c).epoch c' = _ at hepoch'
    rw [Ballots.ballot_cast] at hballot
    rw [Ballots.epoch_cast] at hepoch'
    rw [voted_cast] at hvoted
    by_cases hand : c' = v ∧ T' = T
    · rw [if_pos hand] at hvoted
      exact .inl (hand.1 ▸ hvoted)
    · rw [if_neg hand] at hballot hvoted
      have hcv : c' ≠ v := by
        rintro rfl
        rw [if_pos rfl] at hepoch'
        exact hand ⟨rfl, hepoch'.symm⟩
      rw [if_neg hcv] at hepoch'
      exact h.drift c' T' p hnil hballot hepoch' hne hvoted
  · exact fun T' hne => (h.elected T' hne).mono fun u hu =>
      ⟨hu.1.trans (hepoch u), hu.2⟩

omit [DecidableEq S] in
theorem elect (h : G.Complete) {T : ℕ} {c : S}
    (hext : G.toBallots.Extends (G.toBallots.elect T c))
    (hmost : Most fun v => G.ballot v T = some c) :
    (G.elect T c).Complete :=
  ⟨h.matched.elect hext, h.sound.elect hmost, h.self, h.acked_le,
    h.acked_epoch, h.ack, h.vote, h.upToDate, h.voted_lt, h.drift, h.elected⟩

/-- The first `k` entries of its term reach the log of `v`, which then
acknowledges them. -/
theorem ack_prefix (h : G.Complete) {v : S} {T k : ℕ} (hT : G.epoch v = T)
    (hk : k ≤ (G.minted T).length) (hlog : (G.minted T).take k <+: G.log v) :
    (G.ack v T k).Complete := by
  have hnew : ∀ {u p}, (G.ack v T k).Acks u p → G.Acks u p ∨
      (u = v ∧ lastTerm p = T ∧ p.length ≤ k) := by
    intro u p hack
    rw [Acks, acked_ack] at hack
    split at hack
    · next hand =>
        rcases le_max_iff.mp hack with hle | hle
        · exact .inl (by rw [Acks, hand.1, hand.2]; exact hle)
        · exact .inr ⟨hand.1, hand.2, hle⟩
    · exact .inl hack
  refine ⟨h.matched.ack, h.sound, h.self, ?_, ?_, ?_, ?_, h.upToDate,
    h.voted_lt, h.drift, ?_⟩
  · intro u T'
    rw [acked_ack]
    split
    · next hand => exact max_le (hand.2 ▸ h.acked_le v T) (hand.2 ▸ hk)
    · exact h.acked_le u T'
  · intro u T' hpos
    rw [acked_ack] at hpos
    split at hpos
    · next hand =>
        rw [hand.1, hand.2]
        exact hT.ge
    · exact h.acked_epoch u T' hpos
  · intro u p hp hack
    rcases hnew hack with hold | ⟨rfl, rfl, hlen⟩
    · exact h.ack u p hp hold
    · left
      refine List.IsPrefix.trans ?_ hlog
      exact List.prefix_take_iff.mpr ⟨hp.2, hlen⟩
  · intro u T' c p hnil hballot hp hack hlt
    rcases hnew hack with hold | ⟨rfl, rfl, -⟩
    · exact h.vote u T' c p hnil hballot hp hold hlt
    · have hle : T' ≤ G.epoch u := h.sound.ballot_le u T' c hballot
      omega
  · intro T' hne
    refine (h.elected T' hne).mono fun u hu => ⟨hu.1, ?_⟩
    intro p hp hack hlt
    rcases hnew hack with hold | ⟨rfl, rfl, -⟩
    · exact hu.2 p hp hold hlt
    · have hle : T' ≤ G.epoch u := hu.1
      omega

/-- Replacing a log by one that keeps every prefix not lost meanwhile. -/
theorem replace (h : G.Complete) {v : S} {l : List E}
    (hl : Grounded G.minted l) (hle : ∀ e ∈ l, term e ≤ G.epoch v)
    (hkeep : ∀ p, p ≠ [] → p <+: G.log v →
      p <+: l ∨ G.Lost p (G.epoch v + 1)) :
    (G.replace v l).Complete := by
  refine ⟨h.matched.replace hl hle, h.sound, h.self, h.acked_le,
    h.acked_epoch, ?_, h.vote, h.upToDate, h.voted_lt, ?_, h.elected⟩
  · intro u p hp hack
    rw [log_replace]
    rcases h.ack u p hp hack with hheld | hlost
    · split
      · next hu =>
          subst hu
          exact hkeep p hp.1 hheld
      · exact .inl hheld
    · exact .inr hlost
  · intro c T p hnil hballot hepoch hne hvoted
    rw [log_replace]
    rcases h.drift c T p hnil hballot hepoch hne hvoted with hheld | hlost
    · split
      · next hc =>
          subst hc
          refine (hkeep p hne hheld).imp id ?_
          rintro ⟨U, hltU, hU, hneU, hnot⟩
          have hne : U ≠ T := fun heq => hneU (heq ▸ hnil)
          have hU' : U < T + 1 := hepoch ▸ hU
          exact ⟨U, hltU, by omega, hneU, hnot⟩
      · exact .inl hheld
    · exact .inr hlost

/-- A follower adopts a minted prefix that its log does not start with. -/
theorem adopt (h : G.Complete) {v : S} {T : ℕ} {l : List E}
    (hT : G.epoch v = T) (hl : l <+: G.minted T) (hnot : ¬l <+: G.log v) :
    (G.replace v l).Complete := by
  refine h.replace ((h.matched.minted T).of_isPrefix hl)
    (fun e he => hT.symm ▸ h.matched.minted_le T e (hl.subset he)) ?_
  intro p hne hp
  have hcomparable : p <+: G.minted T → p <+: l := by
    intro hpT
    rcases List.prefix_or_prefix_of_prefix hpT hl with hpl | hlp
    · exact hpl
    · exact absurd (hlp.trans hp) hnot
  have hground := h.matched.log v p hp hne
  obtain ⟨e, he, hterm⟩ := exists_mem_lastTerm hne
  have hle : lastTerm p ≤ T := by
    rw [← hterm, ← hT]
    exact h.matched.log_le v e (hp.subset he)
  rcases hle.lt_or_eq with hlt | heq
  · by_cases hpT : p <+: G.minted T
    · exact .inl (hcomparable hpT)
    · refine .inr ⟨T, hlt, by omega, ?_, hpT⟩
      intro hnil
      rw [hnil, List.prefix_nil] at hl
      exact hnot (hl ▸ List.nil_prefix)
  · exact .inl (hcomparable (heq ▸ hground))

/-- A server installs a committed prefix at least as long as its log. -/
theorem install (h : G.Complete) {v : S} {l : List E}
    (hl : G.CommittedBy (G.epoch v) l)
    (hlen : (G.log v).length ≤ l.length) : (G.replace v l).Complete := by
  rcases hl with rfl | ⟨q, hq, hqle, hlq⟩
  · have hnil : G.log v = [] :=
      List.eq_nil_of_length_eq_zero (by simpa using hlen)
    refine h.replace (.nil _) (by simp) fun p _ hp => .inl (hnil ▸ hp)
  have hground : Grounded G.minted l :=
    (h.matched.minted _).of_isPrefix (hlq.trans hq.1.2)
  refine h.replace hground ?_ ?_
  · intro e he
    exact (h.matched.term_le_lastTerm hq.1.2 e (hlq.subset he)).trans hqle
  intro p hne hp
  have hcomparable : ∀ U, p <+: G.minted U → l <+: G.minted U → p <+: l :=
    fun U hpU hlU => List.prefix_of_prefix_length_le hpU hlU
      (hp.length_le.trans hlen)
  have hpground := h.matched.log v p hp hne
  have hpU : G.minted (lastTerm p) ≠ [] := by
    intro hnil
    rw [hnil] at hpground
    exact hne (List.prefix_nil.mp hpground)
  rcases Nat.lt_or_ge (lastTerm p) (lastTerm q) with hlt | hge
  · by_cases hpq : p <+: G.minted (lastTerm q)
    · exact .inl (hcomparable _ hpq (hlq.trans hq.1.2))
    · refine .inr ⟨lastTerm q, hlt, by omega, ?_, hpq⟩
      intro hnil
      have := hq.1.2
      rw [hnil] at this
      exact hq.1.1 (List.prefix_nil.mp this)
  · exact .inl (hcomparable _ hpground
      (hlq.trans (h.decided_prefix_of_le hq hge hpU)))

omit [DecidableEq S] in
/-- What the electing majority acknowledged, the winner holds. -/
theorem voter_prefix (h : G.Complete) {v c : S} {T : ℕ} {p : List E}
    (hnil : G.minted T = []) (hepoch : G.epoch c = T)
    (hballot : G.ballot v T = some c) (hp : G.Anchored p)
    (hack : G.Acks v p) (hlt : lastTerm p < T) :
    p <+: G.log c ∨ G.Lost p T := by
  have hself := h.self v T c hballot
  have hdrift : p <+: G.voted c T → p <+: G.log c ∨ G.Lost p T :=
    h.drift c T p hnil hself hepoch hp.1
  rcases h.vote v T c p hnil hballot hp hack hlt with hheld | hlost
  swap
  · exact .inr hlost
  have hle := h.matched.lastTerm_le (h.matched.voted v T) hheld
  have hcne : G.voted c T ≠ [] := by
    intro hempty
    rcases h.upToDate v T c hballot with hnew | ⟨-, hlen⟩
    · rw [hempty] at hnew
      exact Nat.not_lt_zero _ hnew
    · rw [hempty, List.length_nil, Nat.le_zero] at hlen
      rw [List.eq_nil_of_length_eq_zero hlen] at hheld
      exact hp.1 (List.prefix_nil.mp hheld)
  have hcground := h.matched.voted c T _ List.prefix_rfl hcne
  obtain ⟨e, he, hterm⟩ := exists_mem_lastTerm hcne
  have hcT : lastTerm (G.voted c T) < T := hterm ▸ h.voted_lt c T hself e he
  have hcle : lastTerm p ≤ lastTerm (G.voted c T) := by
    rcases h.upToDate v T c hballot with hnew | ⟨heq, -⟩ <;> omega
  rcases hcle.lt_or_eq with hclt | hceq
  · by_cases hpU : p <+: G.minted (lastTerm (G.voted c T))
    · -- the candidate's last entry lies behind `p`
      rcases List.prefix_or_prefix_of_prefix hpU hcground with hpc | hcp
      · exact hdrift hpc
      · have := h.matched.term_le_lastTerm hp.2 e (hcp.subset he)
        omega
    · refine .inr ⟨lastTerm (G.voted c T), hclt, hcT, ?_, hpU⟩
      intro hempty
      rw [hempty] at hcground
      exact hcne (List.prefix_nil.mp hcground)
  · refine hdrift (List.prefix_of_prefix_length_le (hceq ▸ hp.2) hcground ?_)
    rcases h.upToDate v T c hballot with hnew | ⟨-, hlen⟩
    · omega
    · exact hheld.length_le.trans hlen

/-- The winner of `T` appends an entry, the first one right after its
election. -/
theorem mint (h : G.Complete) {c : S} {T : ℕ} {e : E}
    (hpre : G.minted T <+: G.log c) (he : term e = T)
    (hepoch : G.epoch c = T) (hwon : G.winner T ≠ none)
    (hfirst : G.minted T = [] → Most fun v => G.ballot v T = some c) :
    (G.mint c T e).Complete := by
  have hext := extends_mint (e := e) hpre
  have hmatched := h.matched.mint hpre he hepoch hwon
  have hanchored : ∀ {v p}, (G.mint c T e).Anchored p → G.Acks v p →
      G.Anchored p :=
    fun hp hack => anchored_of_acks h.acked_le hext hp hack
  have hlost : ∀ {p U}, (G.mint c T e).Anchored p → G.Lost p U →
      (G.mint c T e).Lost p U :=
    fun hp hl => hl.extend h.matched hmatched hext hp.2
  have hnil : ∀ {T'}, (G.mint c T e).minted T' = [] →
      T' ≠ T ∧ G.minted T' = [] := by
    intro T' hT'
    rw [minted_mint] at hT'
    split at hT'
    · simp at hT'
    · next hne => exact ⟨hne, hT'⟩
  refine ⟨hmatched, h.sound, h.self, ?_, h.acked_epoch, ?_, ?_, h.upToDate,
    h.voted_lt, ?_, ?_⟩
  · exact fun v T' => (h.acked_le v T').trans (hext.minted T').length_le
  · intro v p hp hack
    rcases h.ack v p (hanchored hp hack) hack with hheld | hl
    · left
      rw [log_mint]
      split
      · next hv =>
          subst hv
          exact hheld.trans (List.prefix_append _ _)
      · exact hheld
    · exact .inr (hlost hp hl)
  · intro v T' c' p hT' hballot hp hack hlt
    exact (h.vote v T' c' p (hnil hT').2 hballot (hanchored hp hack) hack
      hlt).imp id (hlost hp)
  · intro c' T' p hT' hballot hepoch' hne hvoted
    obtain ⟨hT'T, hold⟩ := hnil hT'
    have hc' : c' ≠ c := by
      rintro rfl
      exact hT'T (hepoch'.symm.trans hepoch)
    rw [log_mint, if_neg hc']
    have hp : (G.mint c T e).Anchored p :=
      ⟨hne, hmatched.voted c' T' p hvoted hne⟩
    exact (h.drift c' T' p hold hballot hepoch' hne hvoted).imp id (hlost hp)
  · intro T' hne
    by_cases hTT : T' = T
    · subst hTT
      by_cases hempty : G.minted T' = []
      · refine (hfirst hempty).mono fun v hv =>
          ⟨h.sound.ballot_le v T' c hv, fun p hp hack hlt => ?_⟩
        rcases h.voter_prefix hempty hepoch hv (hanchored hp hack) hack hlt
          with hheld | hl
        · left
          rw [minted_mint, if_pos rfl]
          exact hheld.trans (List.prefix_append _ _)
        · exact .inr (hlost hp hl)
      · refine (h.elected T' hempty).mono fun v hv => ⟨hv.1, ?_⟩
        intro p hp hack hlt
        exact (hv.2 p (hanchored hp hack) hack hlt).imp
          (fun hheld => hheld.trans (hext.minted T')) (hlost hp)
    · have hold : G.minted T' ≠ [] := by
        rwa [minted_mint, if_neg hTT] at hne
      refine (h.elected T' hold).mono fun v hv => ⟨hv.1, ?_⟩
      intro p hp hack hlt
      exact (hv.2 p (hanchored hp hack) hack hlt).imp
        (fun hheld => hheld.trans (hext.minted T')) (hlost hp)

end Complete

end Ledger

end Replication
