import KVRaftStorage.Raft.Moves
import KVRaftStorage.Replication.Ballots
import Mathlib.Data.Fintype.Fin
import Mathlib.Data.List.Nodup

/-!
# Election safety

The cluster is related to a record of ballots.  A node's epoch is the term on
its disk, its vote in every term it has stored is on record, and a leader is
the recorded winner of its term.  The shared counter of an election never
exceeds the number of recorded votes for its candidate, and once the election
is won the remaining calls are too few to complete a second majority.

No condition on the run is needed.  In particular the term that
`sendAppendEntries` takes over without storing it does no harm, because the
vote is reset in memory and no vote of that term is on record.
-/

namespace KVRaftStorage

open Replication Quorum Transition

variable {n : ℕ} {Image : Type}

/-! ## The relation -/

/-- What the record says about one node. -/
structure NodeVotes (B : Ballots (Fin n)) (v : Fin n) (r : Raft n Image) :
    Prop where
  me : r.me = v
  epoch : B.epoch v = r.persister.stored.currentTerm
  le : B.epoch v ≤ r.currentTerm
  stored : B.ballot v (B.epoch v) = r.persister.stored.votedFor
  vote : B.ballot v r.currentTerm = r.votedFor
  leader : r.status = .leader →
    B.winner r.currentTerm = some v ∧ B.epoch v = r.currentTerm

namespace Election

/-- The calls that may still raise the counter. -/
def openCalls (e : Election n) : ℕ :=
  (Finset.univ.filter fun i => e.calls i ≠ .done).card

/-- The finished calls to servers that voted for the candidate. -/
def counted (B : Ballots (Fin n)) (e : Election n) : ℕ :=
  (Finset.univ.filter fun i => i ≠ e.candidate ∧ (e.calls i = .done ∧
    B.ballot i e.args.term = some e.candidate)).card

end Election

/-- What the record says about the threads of one `doElection`. -/
structure ElectionVotes (B : Ballots (Fin n)) (e : Election n) : Prop where
  candidateId : e.args.candidateId = e.candidate
  ballot : B.ballot e.candidate e.args.term = some e.candidate
  own : e.calls e.candidate = .done
  granted : ∀ i reply, e.calls i = .replied reply →
    reply.voteGranted = true →
      reply.term = e.args.term ∧ B.ballot i e.args.term = some e.candidate
  pending : B.winner e.args.term ≠ some e.candidate →
    e.votedNum ≤ 1 + e.counted B ∧ e.votedNum + e.openCalls ≤ n
  won : B.winner e.args.term = some e.candidate →
    e.votedNum + e.openCalls + (n / 2 + 1) ≤ n

/-- The cluster has the history of votes and elections recorded in `B`. -/
structure VotesTracked (B : Ballots (Fin n)) (c : Cluster n Image) :
    Prop where
  sound : B.Sound
  self : ∀ T s, B.winner T = some s → B.ballot s T = some s
  nodes : ∀ v, NodeVotes B v (c.nodes v)
  elections : ∀ e ∈ c.elections, ElectionVotes B e
  distinct : (c.elections.map fun e => (e.candidate, e.args.term)).Nodup

/-! ## Nodes -/

namespace NodeVotes

variable {B B' : Ballots (Fin n)} {v : Fin n} {r r' : Raft n Image}

theorem ballot_eq_none (hB : B.Sound) {T : ℕ} (hT : B.epoch v < T) :
    B.ballot v T = none := by
  rw [Option.eq_none_iff_forall_ne_some]
  intro c hc
  have := hB.ballot_le v T c hc
  omega

/-- A record that changed elsewhere says the same about this node. -/
theorem congr (h : NodeVotes B v r) (hepoch : B'.epoch v = B.epoch v)
    (hballot : B'.ballot v = B.ballot v) (hext : B.Extends B') :
    NodeVotes B' v r where
  me := h.me
  epoch := hepoch.trans h.epoch
  le := hepoch ▸ h.le
  stored := by
    rw [hepoch, hballot]
    exact h.stored
  vote := by
    rw [hballot]
    exact h.vote
  leader := fun hl =>
    ⟨hext.winner _ _ (h.leader hl).1, hepoch.trans (h.leader hl).2⟩

theorem epoch_le (h : NodeVotes B v r) (hfollows : r.Follows r')
    (hdisk : r'.Stored ∨ r'.persister.raftState = r.persister.raftState) :
    B.epoch v ≤ r'.persister.stored.currentTerm := by
  rcases hdisk with hstored | hsame
  · rw [hstored]
    exact h.le.trans hfollows.le
  · rw [Persister.stored, hsame, ← Persister.stored, h.epoch]

/-- Following a larger term, stored or not, raises the epoch to the term on
disk. -/
theorem follow (h : NodeVotes B v r) (hB : B.Sound)
    (hfollows : r.Follows r')
    (hdisk : r'.Stored ∨ r'.persister.raftState = r.persister.raftState) :
    NodeVotes (B.raise v r'.persister.stored.currentTerm) v r' := by
  have hepoch : (B.raise v r'.persister.stored.currentTerm).epoch v =
      r'.persister.stored.currentTerm := by
    simp [Ballots.raise]
  have hvote : B.ballot v r'.currentTerm = r'.votedFor := by
    rcases hfollows.term with ⟨hterm, hvote⟩ | ⟨hterm, hvote⟩
    · rw [hterm, hvote]
      exact h.vote
    · rw [hvote]
      exact ballot_eq_none hB (lt_of_le_of_lt h.le hterm)
  refine ⟨hfollows.me.trans h.me, hepoch, ?_, ?_, hvote, ?_⟩
  · rw [hepoch]
    rcases hdisk with hstored | hsame
    · rw [hstored]
      exact le_rfl
    · rw [Persister.stored, hsame, ← Persister.stored, ← h.epoch]
      exact h.le.trans hfollows.le
  · rw [hepoch]
    change B.ballot v _ = _
    rcases hdisk with hstored | hsame
    · rw [hstored]
      exact hvote
    · rw [Persister.stored, hsame, ← Persister.stored, ← h.epoch]
      exact h.stored
  · intro hl
    obtain ⟨hlead, hterm⟩ := hfollows.leader hl
    refine ⟨hterm ▸ (h.leader hlead).1, ?_⟩
    rw [hepoch]
    rcases hdisk with hstored | hsame
    · rw [hstored]
      rfl
    · rw [Persister.stored, hsame, ← Persister.stored, ← h.epoch, hterm]
      exact (h.leader hlead).2

theorem restart (h : NodeVotes B v r) {p : Persister n Image}
    (hp : p.raftState = r.persister.raftState) :
    NodeVotes B v (Raft.init v p) := by
  have hstored : (Raft.init v p).persister.stored = r.persister.stored := by
    rw [Raft.stored_init, Raft.persistData_init, Persister.stored, hp,
      ← Persister.stored]
  have hdata : (Raft.init v p).persistData = r.persister.stored := by
    rw [← hstored]
    exact (Raft.stored_init v p).symm
  have hterm : (Raft.init v p).currentTerm = B.epoch v :=
    (congrArg RaftState.currentTerm hdata).trans h.epoch.symm
  refine ⟨Raft.me_init v p, ?_, hterm.ge, ?_, ?_, by simp⟩
  · rw [hstored]
    exact h.epoch
  · rw [hstored]
    exact h.stored
  · rw [hterm, h.stored]
    exact (congrArg RaftState.votedFor hdata).symm

/-- Casting a vote and storing it. -/
theorem cast (h : NodeVotes B v r) {c : Fin n} (hstored : r'.Stored)
    (hme : r'.me = r.me) (hvote : r'.votedFor = some c)
    (hleader : r'.status = .leader →
      r.status = .leader ∧ r.currentTerm = r'.currentTerm) :
    NodeVotes (B.cast v r'.currentTerm c) v r' := by
  have hepoch : (B.cast v r'.currentTerm c).epoch v = r'.currentTerm := by
    simp [Ballots.cast]
  have hterm : r'.persister.stored.currentTerm = r'.currentTerm := by
    rw [hstored]
    rfl
  have hdisk : r'.persister.stored.votedFor = r'.votedFor := by
    rw [hstored]
    rfl
  refine ⟨hme.trans h.me, ?_, hepoch.le, ?_, ?_, ?_⟩
  · rw [hepoch, hterm]
  · rw [hepoch, hdisk, hvote, Ballots.ballot_cast, if_pos ⟨rfl, rfl⟩]
  · rw [hvote, Ballots.ballot_cast, if_pos ⟨rfl, rfl⟩]
  · intro hl
    obtain ⟨hlead, heq⟩ := hleader hl
    exact ⟨heq ▸ (h.leader hlead).1, hepoch⟩

/-- Winning the term of the node's own vote. -/
theorem elect (h : NodeVotes B v r) {T : ℕ} (hterm : T = r.currentTerm)
    (hepoch : B.epoch v = T) : NodeVotes (B.elect T v) v r.becomeLeader := by
  have hdisk : r.becomeLeader.persister.stored = r.becomeLeader.persistData :=
    rfl
  refine ⟨h.me, ?_, h.le, ?_, h.vote, fun _ => ⟨?_, hepoch.trans hterm⟩⟩
  · rw [hdisk]
    exact hepoch.trans hterm
  · rw [hdisk]
    change B.ballot v (B.epoch v) = r.votedFor
    rw [hepoch, hterm]
    exact h.vote
  · rw [Ballots.winner_elect]
    exact if_pos hterm.symm

end NodeVotes

/-! ## Elections -/

namespace ElectionVotes

variable {B B' : Ballots (Fin n)} {e e' : Election n}

theorem counted_le (hext : B.Extends B') (hcand : e'.candidate = e.candidate)
    (hargs : e'.args = e.args)
    (hdone : ∀ i, e.calls i = .done → e'.calls i = .done) :
    e.counted B ≤ e'.counted B' := by
  refine Finset.card_le_card fun i hi => ?_
  simp only [Finset.mem_filter, Finset.mem_univ, true_and] at hi ⊢
  rw [hcand, hargs]
  exact ⟨hi.1, hdone i hi.2.1, hext.ballot _ _ _ hi.2.2⟩

theorem openCalls_le (hdone : ∀ i, e.calls i = .done → e'.calls i = .done) :
    e'.openCalls ≤ e.openCalls := by
  refine Finset.card_le_card fun i hi => ?_
  simp only [Finset.mem_filter, Finset.mem_univ, true_and] at hi ⊢
  exact fun h => hi (hdone i h)

/-- A later record in which this election has the same outcome. -/
theorem extend (h : ElectionVotes B e) (hext : B.Extends B')
    (hwinner : B'.winner e.args.term = some e.candidate ↔
      B.winner e.args.term = some e.candidate) : ElectionVotes B' e where
  candidateId := h.candidateId
  ballot := hext.ballot _ _ _ h.ballot
  own := h.own
  granted := fun i reply hcall hgranted =>
    ⟨(h.granted i reply hcall hgranted).1,
      hext.ballot _ _ _ (h.granted i reply hcall hgranted).2⟩
  pending := by
    intro hw
    obtain ⟨hcount, hopen⟩ := h.pending fun hw' => hw (hwinner.mpr hw')
    have hle : e.counted B ≤ e.counted B' :=
      counted_le hext rfl rfl fun _ hd => hd
    exact ⟨by omega, hopen⟩
  won := fun hw => h.won (hwinner.mp hw)

theorem settle (h : ElectionVotes B e) (hs : e.Settles e') :
    ElectionVotes B e' := by
  have hdone : ∀ i, e.calls i = .done → e'.calls i = .done := by
    intro i hi
    rcases hs.calls i with hsame | hd | ⟨hsent, -⟩
    · rw [hsame, hi]
    · exact hd
    · simp [hsent] at hi
  have hopen := openCalls_le hdone
  have hcount := counted_le (Ballots.Extends.refl B) hs.candidate hs.args hdone
  refine ⟨?_, ?_, ?_, ?_, ?_, ?_⟩
  · rw [hs.args, hs.candidate]
    exact h.candidateId
  · rw [hs.args, hs.candidate]
    exact h.ballot
  · rw [hs.candidate]
    exact hdone _ h.own
  · intro i reply hcall hgranted
    rw [hs.args, hs.candidate]
    rcases hs.calls i with hsame | hd | ⟨-, reply', hreply, hno⟩
    · exact h.granted i reply (hsame ▸ hcall) hgranted
    · simp [hd] at hcall
    · obtain rfl : reply' = reply := by simpa [hreply] using hcall
      simp [hno] at hgranted
  · rw [hs.args, hs.candidate, hs.votedNum]
    intro hw
    have := h.pending hw
    omega
  · rw [hs.args, hs.candidate, hs.votedNum]
    intro hw
    have := h.won hw
    omega

theorem openCalls_finish {i : Fin n} (hcall : e.calls i ≠ .done) :
    (e.setCall i .done).openCalls + 1 = e.openCalls := by
  have heq : (Finset.univ.filter fun j => (e.setCall i .done).calls j ≠ .done)
      = (Finset.univ.filter fun j => e.calls j ≠ .done).erase i := by
    ext j
    simp only [Finset.mem_erase, Finset.mem_filter, Finset.mem_univ, true_and]
    by_cases hj : j = i <;> simp [Election.setCall, hj]
  rw [Election.openCalls, heq]
  exact Finset.card_erase_add_one (by simpa using hcall)

theorem counted_finish {i : Fin n} (hcall : e.calls i ≠ .done)
    (hne : i ≠ e.candidate)
    (hballot : B.ballot i e.args.term = some e.candidate) :
    e.counted B + 1 ≤ (e.setCall i .done).counted B := by
  have hnotin : i ∉ Finset.univ.filter fun j => j ≠ e.candidate ∧
      (e.calls j = .done ∧ B.ballot j e.args.term = some e.candidate) := by
    simp [hcall]
  rw [Election.counted, ← Finset.card_insert_of_notMem hnotin]
  refine Finset.card_le_card fun j hj => ?_
  simp only [Finset.mem_insert, Finset.mem_filter, Finset.mem_univ,
    true_and] at hj ⊢
  by_cases hji : j = i
  · subst hji
    exact ⟨hne, by simp [Election.setCall], hballot⟩
  · rcases hj with hj | hj
    · exact absurd hj hji
    · refine ⟨hj.1, ?_, hj.2.2⟩
      simpa [Election.setCall, hji] using hj.2.1

end ElectionVotes

/-! ## Moves -/

namespace VotesTracked

variable {B : Ballots (Fin n)} {c c' : Cluster n Image}

theorem start : VotesTracked Ballots.blank (Cluster.start n Image) where
  sound := Ballots.sound_blank
  self := by simp [Ballots.blank]
  nodes := fun v => ⟨Raft.me_init v _, rfl, Nat.le_refl 0, rfl, rfl, by
    simp [Cluster.start]⟩
  elections := by simp [Cluster.start]
  distinct := by simp [Cluster.start]

theorem settle (h : VotesTracked B c) (hs : c.Settles c') :
    VotesTracked B c' where
  sound := h.sound
  self := h.self
  nodes := hs.nodes ▸ h.nodes
  elections := by
    intro e' he'
    obtain ⟨e, he, hset⟩ := Cluster.exists_of_forall₂ hs.elections he'
    exact (h.elections e he).settle hset
  distinct := by
    have hmap : c'.elections.map (fun e => (e.candidate, e.args.term)) =
        c.elections.map fun e => (e.candidate, e.args.term) := by
      have hforall := hs.elections
      generalize c.elections = l at hforall
      generalize c'.elections = l' at hforall
      induction hforall with
      | nil => rfl
      | cons hset _ ih => simp [hset.candidate, hset.args, ih]
    rw [hmap]
    exact h.distinct

theorem of_nodes (h : VotesTracked B c) (hn : c'.nodes = c.nodes)
    (he : c'.elections = c.elections) : VotesTracked B c' :=
  ⟨h.sound, h.self, hn ▸ h.nodes, he ▸ h.elections, he ▸ h.distinct⟩

/-- One node changes together with the record of its own votes, and no
election is decided. -/
theorem update {B' : Ballots (Fin n)} (h : VotesTracked B c) {v : Fin n}
    {r' : Raft n Image} (hB' : B'.Sound) (hext : B.Extends B')
    (hepoch : ∀ u, u ≠ v → B'.epoch u = B.epoch u)
    (hballot : ∀ u, u ≠ v → B'.ballot u = B.ballot u)
    (hwinner : B'.winner = B.winner) (hnode : NodeVotes B' v r') :
    VotesTracked B' (c.setNode v r') where
  sound := hB'
  self := fun T s hs => hext.ballot _ _ _ (h.self T s (hwinner ▸ hs))
  nodes := by
    intro u
    by_cases hu : u = v
    · subst hu
      simpa [Cluster.setNode] using hnode
    · simpa [Cluster.setNode, hu] using
        (h.nodes u).congr (hepoch u hu) (hballot u hu) hext
  elections := fun e he => (h.elections e he).extend hext (by rw [hwinner])
  distinct := h.distinct

/-- Following a term. -/
theorem follow (h : VotesTracked B c) {v : Fin n} {r' : Raft n Image}
    (hfollows : (c.nodes v).Follows r')
    (hdisk : r'.Stored ∨
      r'.persister.raftState = (c.nodes v).persister.raftState) :
    VotesTracked (B.raise v r'.persister.stored.currentTerm)
      (c.setNode v r') := by
  have hle := (h.nodes v).epoch_le hfollows hdisk
  refine h.update (h.sound.raise hle) (Ballots.extends_raise hle) ?_
    (fun _ _ => rfl) rfl ((h.nodes v).follow h.sound hfollows hdisk)
  intro u hu
  rw [Ballots.epoch_raise, if_neg hu]

/-- A leader appends an entry; its term is on disk already. -/
theorem extend (h : VotesTracked B c) {v : Fin n} (command : Op)
    (hl : (c.nodes v).status = .leader) :
    VotesTracked B
      (c.setNode v ((c.nodes v).appendEntry command).persist) := by
  have hfollows :
      (c.nodes v).Follows ((c.nodes v).appendEntry command).persist :=
    ⟨rfl, .inl ⟨rfl, rfl⟩, fun hl => ⟨hl, rfl⟩⟩
  have hfollow := h.follow hfollows (.inl rfl)
  have hterm :
      ((c.nodes v).appendEntry command).persist.persister.stored.currentTerm =
        B.epoch v := ((h.nodes v).leader hl).2.symm
  rwa [hterm, Ballots.raise_self] at hfollow

theorem restart (h : VotesTracked B c) {v : Fin n} {p : Persister n Image}
    (hp : p.raftState = (c.nodes v).persister.raftState) :
    VotesTracked B (c.reboot v p) :=
  (h.update h.sound (.refl B) (fun _ _ => rfl) (fun _ _ => rfl) rfl
    ((h.nodes v).restart hp)).of_nodes rfl rfl

/-- Casting a vote for `s` in a term in which the node has no other vote. -/
theorem cast (h : VotesTracked B c) {v s : Fin n} {r' : Raft n Image}
    (hstored : r'.Stored) (hme : r'.me = (c.nodes v).me)
    (hvote : r'.votedFor = some s)
    (hle : (c.nodes v).currentTerm ≤ r'.currentTerm)
    (hfree : (c.nodes v).currentTerm = r'.currentTerm →
      (c.nodes v).votedFor = none ∨ (c.nodes v).votedFor = some s)
    (hleader : r'.status = .leader → (c.nodes v).status = .leader ∧
      (c.nodes v).currentTerm = r'.currentTerm) :
    B.Extends (B.cast v r'.currentTerm s) ∧
      VotesTracked (B.cast v r'.currentTerm s) (c.setNode v r') := by
  have hnode := h.nodes v
  have hepoch := hnode.le.trans hle
  have hopen : ∀ s', B.ballot v r'.currentTerm = some s' → s' = s := by
    intro s' hs'
    rcases hle.lt_or_eq with hlt | heq
    · have := h.sound.ballot_le v _ s' hs'
      have := hnode.le
      omega
    · rw [← heq, hnode.vote] at hs'
      rcases hfree heq with hnone | hsome
      · simp [hnone] at hs'
      · exact Option.some.inj (hs'.symm.trans hsome)
  have hext := Ballots.extends_cast hepoch hopen
  refine ⟨hext, h.update (h.sound.cast hepoch hopen) hext ?_ ?_ rfl
    (hnode.cast hstored hme hvote hleader)⟩
  · intro u hu
    rw [Ballots.epoch_cast, if_neg hu]
  · intro u hu
    funext T
    rw [Ballots.ballot_cast, if_neg (fun hand => hu hand.1)]

/-- One election changes. -/
theorem setElection (h : VotesTracked B c) {k : ℕ} {e : Election n}
    (e' : Election n) (he : c.elections[k]? = some e)
    (hcand : e'.candidate = e.candidate)
    (hargs : e'.args = e.args) (hvotes : ElectionVotes B e') :
    VotesTracked B (c.setElection k e') where
  sound := h.sound
  self := h.self
  nodes := h.nodes
  elections := by
    intro x hx
    rcases List.mem_or_eq_of_mem_set hx with hx | rfl
    · exact h.elections x hx
    · exact hvotes
  distinct := by
    have hmap : (c.elections.set k e').map
        (fun e => (e.candidate, e.args.term)) =
          c.elections.map fun e => (e.candidate, e.args.term) := by
      obtain ⟨hk, rfl⟩ := List.getElem?_eq_some_iff.mp he
      rw [List.map_set, hcand, hargs, ← List.getElem_map
        (fun e : Election n => (e.candidate, e.args.term))]
      · exact List.set_getElem_self _
      · simpa using hk
    simpa [Cluster.setElection, hmap] using h.distinct

theorem candidacy (h : VotesTracked B c) {v : Fin n} {r' : Raft n Image}
    {args : RequestVoteArgs n}
    (hstep : (c.nodes v).doElection = (r', some args)) :
    B.Extends (B.cast v args.term v) ∧
      VotesTracked (B.cast v args.term v) { c.setNode v r' with
        elections := c.elections ++ [.begun v (c.boots v) args] } := by
  obtain ⟨hstored, hme, hterm, hvote, hstatus, -, -, hargs⟩ :=
    Raft.doElection_eq_some hstep
  have hme' := (h.nodes v).me
  have hargsTerm : args.term = r'.currentTerm := by rw [hargs, hterm]
  have hlt : (c.nodes v).currentTerm < args.term := by omega
  have hfresh : ∀ s, B.ballot v args.term ≠ some s := by
    intro s hs
    have := h.sound.ballot_le v _ s hs
    have := (h.nodes v).le
    omega
  obtain ⟨hext, hcast⟩ := h.cast (s := v) hstored hme (hme' ▸ hvote)
    (by omega) (by omega) (by simp [hstatus])
  rw [← hargsTerm] at hext hcast
  refine ⟨hext, hcast.sound, hcast.self, hcast.nodes, ?_, ?_⟩
  · intro e he
    rcases List.mem_append.mp he with he | he
    · exact hcast.elections e he
    · obtain rfl : e = .begun v (c.boots v) args := by simpa using he
      have hlost : B.winner args.term ≠ some v := fun hw =>
        hfresh v (h.self _ v hw)
      refine ⟨?_, ?_, by simp [Election.begun], ?_, ?_, fun hw =>
        absurd hw hlost⟩
      · simp [Election.begun, hargs, hme']
      · simp [Election.begun, Ballots.ballot_cast]
      · intro i reply hcall
        by_cases hi : i = v <;> simp [Election.begun, hi] at hcall
      · intro _
        have hopen : (Election.begun v (c.boots v) args).openCalls =
            (Finset.univ.erase v).card := by
          rw [Election.openCalls]
          congr 1
          ext i
          by_cases hi : i = v <;> simp [Election.begun, hi]
        rw [hopen, Finset.card_erase_of_mem (Finset.mem_univ v),
          Finset.card_univ, Fintype.card_fin]
        have := v.pos
        refine ⟨Nat.le_add_right 1 _, ?_⟩
        simp only [Election.begun]
        omega
  · change ((c.elections ++ [_]).map _).Nodup
    rw [List.map_append, List.nodup_append]
    refine ⟨h.distinct, List.nodup_singleton _, ?_⟩
    intro x hx y hy hxy
    obtain ⟨e, he, rfl⟩ := List.mem_map.mp hx
    obtain rfl : y = (v, args.term) := by simpa [Election.begun] using hy
    obtain ⟨hcand, heterm⟩ := Prod.mk.inj hxy
    exact hfresh v (by
      have := (h.elections e he).ballot
      rwa [hcand, heterm] at this)

theorem grant (h : VotesTracked B c) {k : ℕ} {election : Election n}
    {i : Fin n} {r' : Raft n Image} {reply : RequestVoteReply}
    (he : c.elections[k]? = some election) (hcall : election.calls i = .sent)
    (hgrants : (c.nodes i).Grants r' election.args reply) :
    B.Extends (B.cast i election.args.term election.candidate) ∧
      VotesTracked (B.cast i election.args.term election.candidate)
        ((c.setElection k (election.setCall i (.replied reply))).setNode i
          r') := by
  have hvotes := h.elections election (List.mem_of_getElem? he)
  obtain ⟨hext, hcast⟩ := h.cast (s := election.candidate) hgrants.stored
    hgrants.me (hvotes.candidateId ▸ hgrants.vote)
    (hgrants.term ▸ hgrants.le)
    (fun heq => hvotes.candidateId ▸ hgrants.free (heq.trans hgrants.term))
    (fun hl => ⟨(hgrants.leader hl).1,
      (hgrants.leader hl).2.trans hgrants.term.symm⟩)
  rw [hgrants.term] at hext hcast
  refine ⟨hext, ?_⟩
  have hvotes' := hcast.elections election (List.mem_of_getElem? he)
  have hne : election.candidate ≠ i := by
    intro heq
    rw [← heq, hvotes.own] at hcall
    simp at hcall
  have hdone : ∀ j, election.calls j = .done →
      (election.setCall i (.replied reply)).calls j = .done := by
    intro j hj
    have hji : j ≠ i := by
      rintro rfl
      simp [hj] at hcall
    simpa [Election.setCall, hji] using hj
  refine (hcast.setElection (election.setCall i (.replied reply)) he rfl
    rfl ⟨hvotes'.candidateId, hvotes'.ballot, ?_, ?_, ?_, ?_⟩).of_nodes rfl rfl
  · simpa [Election.setCall, hne] using hvotes.own
  · intro j reply' hj hgranted
    by_cases hji : j = i
    · subst hji
      obtain rfl : reply = reply' := by simpa [Election.setCall] using hj
      exact ⟨hgrants.replyTerm, by simp [Election.setCall, Ballots.ballot_cast]⟩
    · exact hvotes'.granted j reply'
        (by simpa [Election.setCall, hji] using hj) hgranted
  · intro hw
    obtain ⟨hcount, hopen⟩ := hvotes'.pending hw
    have hle := ElectionVotes.openCalls_le hdone
    have hge : election.counted _ ≤
        (election.setCall i (.replied reply)).counted _ :=
      ElectionVotes.counted_le (.refl
        (B.cast i election.args.term election.candidate)) rfl rfl hdone
    simp only [Election.setCall] at hle hge ⊢
    omega
  · intro hw
    have hopen := hvotes'.won hw
    have hle := ElectionVotes.openCalls_le hdone
    simp only [Election.setCall] at hle ⊢
    omega

/-- A granted reply is processed: what is left of the bounds of its
election. -/
theorem replied (h : VotesTracked B c) {k : ℕ} {election : Election n}
    {i : Fin n} {reply : RequestVoteReply}
    (he : c.elections[k]? = some election)
    (hcall : election.calls i = .replied reply)
    (hgranted : reply.voteGranted = true) :
    election.counted B + 1 ≤ (election.setCall i .done).counted B ∧
      (election.setCall i .done).openCalls + 1 = election.openCalls ∧
      (election.setCall i .done).calls election.candidate = .done ∧
      (∀ j reply', (election.setCall i .done).calls j = .replied reply' →
        election.calls j = .replied reply') := by
  have hvotes := h.elections election (List.mem_of_getElem? he)
  have hopen : election.calls i ≠ .done := by simp [hcall]
  have hne : i ≠ election.candidate := by
    rintro rfl
    exact hopen hvotes.own
  refine ⟨ElectionVotes.counted_finish hopen hne
    (hvotes.granted i reply hcall hgranted).2,
    ElectionVotes.openCalls_finish hopen, ?_, ?_⟩
  · simpa [Election.setCall, hne.symm] using hvotes.own
  · intro j reply' hj
    by_cases hji : j = i
    · simp [Election.setCall, hji] at hj
    · simpa [Election.setCall, hji] using hj

theorem count (h : VotesTracked B c) {k : ℕ} {election : Election n}
    {i : Fin n} {reply : RequestVoteReply}
    (he : c.elections[k]? = some election)
    (hcall : election.calls i = .replied reply)
    (hcounts : (c.nodes election.candidate).CountsVote reply
      election.votedNum) :
    VotesTracked B (c.setElection k
      { election.setCall i .done with votedNum := election.votedNum + 1 }) := by
  have hvotes := h.elections election (List.mem_of_getElem? he)
  obtain ⟨hcounted, hopen, hown, hreplies⟩ :=
    h.replied he hcall hcounts.granted
  refine h.setElection _ he rfl rfl ⟨hvotes.candidateId, hvotes.ballot, hown,
    fun j reply' hj => hvotes.granted j reply' (hreplies j reply' hj), ?_, ?_⟩
  · intro hw
    obtain ⟨hcount, hle⟩ := hvotes.pending hw
    simp only [Election.counted, Election.openCalls, Election.setCall] at *
    omega
  · intro hw
    have := hvotes.won hw
    simp only [Election.openCalls, Election.setCall] at *
    omega

/-- The votes counted by a winner are those of a majority, and its term had
no winner before. -/
theorem win_most (h : VotesTracked B c) {k : ℕ} {election : Election n}
    {i : Fin n} {r' : Raft n Image} {reply : RequestVoteReply}
    (he : c.elections[k]? = some election)
    (hcall : election.calls i = .replied reply)
    (hwins : (c.nodes election.candidate).Wins r' reply election.votedNum) :
    election.args.term = (c.nodes election.candidate).currentTerm ∧
      B.epoch election.candidate = election.args.term ∧
      B.winner election.args.term = none ∧
      Most fun v => B.ballot v election.args.term =
        some election.candidate := by
  have hvotes := h.elections election (List.mem_of_getElem? he)
  have hnode := h.nodes election.candidate
  obtain ⟨hcounted, hopen, -, -⟩ := h.replied he hcall hwins.granted
  have hterm : election.args.term =
      (c.nodes election.candidate).currentTerm :=
    (hvotes.granted i reply hcall hwins.granted).1.symm.trans hwins.term
  have hepoch : B.epoch election.candidate = election.args.term := by
    have := h.sound.ballot_le _ _ _ hvotes.ballot
    have := hnode.le
    omega
  have hopen_pos : 0 < election.openCalls := by omega
  have hlost : B.winner election.args.term ≠ some election.candidate := by
    -- a second majority would need more calls than are left
    intro hw
    have := hvotes.won hw
    have := hwins.count
    omega
  obtain ⟨hcount, hle⟩ := hvotes.pending hlost
  have hmost : Most fun v => B.ballot v election.args.term =
      some election.candidate := by
    refine most_of_count (s := election.candidate) (k := election.votedNum + 1)
      hvotes.ballot ?_ ?_
    · have hsub : (election.setCall i .done).counted B ≤ (Finset.univ.filter
          fun v => v ≠ election.candidate ∧
            B.ballot v election.args.term = some election.candidate).card := by
        refine Finset.card_le_card fun v hv => ?_
        simp only [Finset.mem_filter, Finset.mem_univ, true_and] at hv ⊢
        exact ⟨hv.1, hv.2.2⟩
      omega
    · rw [Fintype.card_fin]
      exact hwins.count
  refine ⟨hterm, hepoch, ?_, hmost⟩
  rw [Option.eq_none_iff_forall_ne_some]
  intro s hs
  exact hlost (hs.trans (congrArg some
    (Ballots.most_unique (h.sound.winner_most _ s hs) hmost)))

/-- Deciding an election in favour of its candidate, after which too few of
its calls are left for a second majority. -/
theorem elect (h : VotesTracked B c) {e : Election n} {r' : Raft n Image}
    (he : e ∈ c.elections) (hnone : B.winner e.args.term = none)
    (hmost : Most fun v => B.ballot v e.args.term = some e.candidate)
    (hleft : e.votedNum + e.openCalls + (n / 2 + 1) ≤ n)
    (hnode : NodeVotes (B.elect e.args.term e.candidate) e.candidate r') :
    VotesTracked (B.elect e.args.term e.candidate)
      (c.setNode e.candidate r') := by
  have hext : B.Extends (B.elect e.args.term e.candidate) :=
    Ballots.extends_elect (by simp [hnone])
  have hvotes := h.elections e he
  refine ⟨h.sound.elect hmost, ?_, ?_, ?_, h.distinct⟩
  · intro T s hs
    rw [Ballots.winner_elect] at hs
    split at hs
    · next hT =>
        obtain rfl : e.candidate = s := Option.some.inj hs
        rw [hT]
        exact hvotes.ballot
    · exact h.self T s hs
  · intro u
    by_cases hu : u = e.candidate
    · subst hu
      simpa [Cluster.setNode] using hnode
    · have hnode : NodeVotes (B.elect e.args.term e.candidate) u (c.nodes u) :=
        (h.nodes u).congr rfl rfl hext
      simpa [Cluster.setNode, hu] using hnode
  · intro x hx
    by_cases hkey : (x.candidate, x.args.term) = (e.candidate, e.args.term)
    · obtain rfl := List.inj_on_of_nodup_map h.distinct hx he hkey
      refine ⟨hvotes.candidateId, hvotes.ballot, hvotes.own, hvotes.granted,
        fun hw => absurd ?_ hw, fun _ => hleft⟩
      simp [Ballots.winner_elect]
    · refine (h.elections x hx).extend hext ?_
      rw [Ballots.winner_elect]
      split
      · next hT =>
          have hne : e.candidate ≠ x.candidate := fun hcand =>
            hkey (by rw [hcand, hT])
          rw [hT, hnone]
          simp [hne]
      · rfl

theorem win (h : VotesTracked B c) {k : ℕ} {election : Election n}
    {i : Fin n} {r' : Raft n Image} {reply : RequestVoteReply}
    (he : c.elections[k]? = some election)
    (hcall : election.calls i = .replied reply)
    (hwins : (c.nodes election.candidate).Wins r' reply election.votedNum) :
    B.Extends (B.elect election.args.term election.candidate) ∧
      VotesTracked (B.elect election.args.term election.candidate)
        ((c.setElection k { election.setCall i .done with
          votedNum := 0 }).setNode election.candidate r') := by
  have hvotes := h.elections election (List.mem_of_getElem? he)
  have hnode := h.nodes election.candidate
  obtain ⟨-, hopen, hown, hreplies⟩ := h.replied he hcall hwins.granted
  obtain ⟨hterm, hepoch, hnone, hmost⟩ := h.win_most he hcall hwins
  have hlost : B.winner election.args.term ≠ some election.candidate := by
    simp [hnone]
  obtain ⟨-, hle⟩ := hvotes.pending hlost
  have hcount := hwins.count
  refine ⟨Ballots.extends_elect (by simp [hnone]), ?_⟩
  have hreset := h.setElection { election.setCall i .done with votedNum := 0 }
    he rfl rfl
    ⟨hvotes.candidateId, hvotes.ballot, hown,
      fun j reply' hj => hvotes.granted j reply' (hreplies j reply' hj),
      fun _ => ⟨Nat.zero_le _, ?_⟩, fun hw => absurd hw hlost⟩
  · refine hreset.elect (e := { election.setCall i .done with votedNum := 0 })
      ?_ hnone hmost ?_ ?_
    · have hk := (List.getElem?_eq_some_iff.mp he).1
      exact List.mem_of_getElem (h := by simpa [Cluster.setElection] using hk)
        (List.getElem_set_self _)
    · simp only [Election.openCalls, Election.setCall] at *
      omega
    · rw [hwins.eq]
      exact hnode.elect hterm hepoch
  · simp only [Election.openCalls, Election.setCall] at *
    omega

end VotesTracked

/-- What the record says about an event. -/
def EventVotes (B : Ballots (Fin n)) : Event n Image → Prop
  | .voted v T s => B.ballot v T = some s
  | .becameLeader s r => B.winner r.currentTerm = some s
  | .advanced _ _ | .handedOut _ _ _ | .readReturned _ _ => True

theorem EventVotes.extend {B B' : Ballots (Fin n)} {ev : Event n Image}
    (h : EventVotes B ev) (hext : B.Extends B') : EventVotes B' ev := by
  cases ev with
  | voted v T s => exact hext.ballot v T s h
  | becameLeader s r => exact hext.winner _ s h
  | advanced | handedOut | readReturned => trivial

/-- Every move extends the record. -/
theorem Move.votes {D : Discipline n Image} {c c' : Cluster n Image}
    {es : List (Event n Image)} (h : Move D c c' es) {B : Ballots (Fin n)}
    (hB : VotesTracked B c) :
    ∃ B', B.Extends B' ∧ VotesTracked B' c' ∧ ∀ ev ∈ es, EventVotes B' ev := by
  -- a move that leaves the elections alone and follows a term at one node
  have hfollow : ∀ {c : Cluster n Image} {B : Ballots (Fin n)} {v : Fin n}
      {r' : Raft n Image}, VotesTracked B c → (c.nodes v).Follows r' →
      (r'.Stored ∨
        r'.persister.raftState = (c.nodes v).persister.raftState) →
      ∃ B', B.Extends B' ∧ VotesTracked B' (c.setNode v r') := by
    intro c B v r' hB hfollows hdisk
    exact ⟨_, Ballots.extends_raise ((hB.nodes v).epoch_le hfollows hdisk),
      hB.follow hfollows hdisk⟩
  induction h generalizing B with
  | trans _ _ ih₁ ih₂ =>
      obtain ⟨B₁, hext₁, hB₁, hes₁⟩ := ih₁ hB
      obtain ⟨B₂, hext₂, hB₂, hes₂⟩ := ih₂ hB₁
      refine ⟨B₂, hext₁.trans hext₂, hB₂, fun ev hev => ?_⟩
      rcases List.mem_append.mp hev with hev | hev
      · exact (hes₁ ev hev).extend hext₂
      · exact hes₂ ev hev
  | settle hs => exact ⟨B, .refl B, hB.settle hs, by simp⟩
  | quiet v r' hquiet _ =>
      obtain ⟨B', hext, hB'⟩ := hfollow hB hquiet.follows hquiet.disk
      exact ⟨B', hext, hB', by simp⟩
  | restart v p hp => exact ⟨B, .refl B, hB.restart hp, by simp⟩
  | candidacy v r' args hstep =>
      obtain ⟨hext, hB'⟩ := hB.candidacy hstep
      refine ⟨_, hext, hB', ?_⟩
      simp [EventVotes, Ballots.ballot_cast]
  | grant e election i r' reply he hcall hgrants =>
      obtain ⟨hext, hB'⟩ := hB.grant he hcall hgrants
      refine ⟨_, hext, hB', ?_⟩
      have hcand := (hB.elections election (List.mem_of_getElem? he)).candidateId
      simp [EventVotes, Ballots.ballot_cast, hgrants.replyTerm, hcand]
  | count e election i reply he hcall hcounts =>
      exact ⟨B, .refl B, hB.count he hcall hcounts, by simp⟩
  | win e election i r' reply he hcall hwins =>
      obtain ⟨hext, hB'⟩ := hB.win he hcall hwins
      refine ⟨_, hext, hB', ?_⟩
      have hterm := (hB.win_most he hcall hwins).1
      have hterm' : r'.currentTerm = (_ : Raft n Image).currentTerm :=
        congrArg Raft.currentTerm hwins.eq
      simp only [List.mem_singleton, forall_eq, EventVotes]
      rw [hterm', Ballots.winner_elect]
      exact if_pos hterm.symm
  | extend v command hl =>
      exact ⟨B, .refl B, hB.extend command hl, by simp⟩
  | heartbeat v hl => exact ⟨B, .refl B, hB.of_nodes rfl rfl, by simp⟩
  | acceptRound k round i args r' reply _ _ _ haccepts =>
      obtain ⟨B', hext, hB'⟩ :=
        hfollow hB haccepts.follows (.inl haccepts.stored)
      exact ⟨B', hext, hB'.of_nodes rfl rfl, by simp⟩
  | acceptRead q read i args r' reply _ _ _ haccepts =>
      obtain ⟨B', hext, hB'⟩ :=
        hfollow hB haccepts.follows (.inl haccepts.stored)
      exact ⟨B', hext, hB'.of_nodes rfl rfl, by simp⟩
  | tally k round i args reply r' appendNums _ _ htallies =>
      obtain ⟨B', hext, hB'⟩ := hfollow hB htallies.follows
        (.inr (congrArg Persister.raftState htallies.disk))
      refine ⟨B', hext, hB'.of_nodes rfl rfl, ?_⟩
      split <;> simp [EventVotes]
  | offer => exact ⟨B, .refl B, hB.of_nodes rfl rfl, by simp⟩
  | install k round i args r' _ _ _ hinstalls =>
      obtain ⟨B', hext, hB'⟩ :=
        hfollow hB hinstalls.follows (.inl hinstalls.stored)
      exact ⟨B', hext, hB', by simp⟩
  | compact v index r' hcompacts =>
      obtain ⟨B', hext, hB'⟩ :=
        hfollow hB hcompacts.follows (.inl hcompacts.stored)
      exact ⟨B', hext, hB', by simp⟩
  | handOut v r' msgs hout =>
      obtain ⟨hfollows, -, hdisk⟩ := Raft.getApplyLogs_quiet hout
      obtain ⟨B', hext, hB'⟩ := hfollow hB hfollows (.inr hdisk)
      refine ⟨B', hext, hB', fun ev hev => ?_⟩
      obtain ⟨m, -, rfl⟩ := List.mem_map.mp hev
      trivial
  | beginRead => exact ⟨B, .refl B, hB.of_nodes rfl rfl, by simp⟩
  | sendRead => exact ⟨B, .refl B, hB.of_nodes rfl rfl, by simp⟩
  | confirm => exact ⟨B, .refl B, hB.of_nodes rfl rfl, by simp⟩
  | returnRead =>
      exact ⟨B, .refl B, hB.of_nodes rfl rfl, by simp [EventVotes]⟩

/-- The discipline every run keeps. -/
def Discipline.free : Discipline n Image :=
  ⟨fun _ _ => True, fun _ _ => True, fun _ _ => True⟩

theorem obeys_free (c : Cluster n Image) (a : Action n Image) :
    Cluster.Obeys .free c a :=
  ⟨fun _ _ => trivial, fun _ _ => trivial, fun _ _ _ => trivial⟩

theorem votes_tracked {as : List (Action n Image)} {c : Cluster n Image}
    {es : List (Event n Image)}
    (hrun : (Cluster.start n Image).run as = some (c, es)) :
    ∃ B, VotesTracked B c ∧ ∀ ev ∈ es, EventVotes B ev := by
  refine run_history (P := fun _ _ => True)
    (I := fun c es => ∃ B, VotesTracked B c ∧ ∀ ev ∈ es, EventVotes B ev)
    ?_ (throughout_true _ as) ⟨_, .start, by simp⟩ hrun
  rintro c es a c' es' - ⟨B, hB, hes⟩ hstep
  obtain ⟨B', hext, hB', hes'⟩ :=
    (Cluster.step_move (obeys_free c a) hstep).votes hB
  refine ⟨B', hB', fun ev hev => ?_⟩
  rcases List.mem_append.mp hev with hev | hev
  · exact (hes ev hev).extend hext
  · exact hes' ev hev

/-- In every run at most one server becomes leader of a term, and no server
votes for two candidates in a term. -/
theorem election_safety {as : List (Action n Image)} {c : Cluster n Image}
    {es : List (Event n Image)}
    (hrun : (Cluster.start n Image).run as = some (c, es)) :
    (∀ s r s' r', .becameLeader s r ∈ es → .becameLeader s' r' ∈ es →
        r.currentTerm = r'.currentTerm → s = s') ∧
      (∀ v T s s', .voted v T s ∈ es → .voted v T s' ∈ es → s = s') := by
  obtain ⟨B, -, hes⟩ := votes_tracked hrun
  constructor
  · intro s r s' r' hs hs' hterm
    have hwinner : B.winner r.currentTerm = some s := hes _ hs
    have hwinner' : B.winner r'.currentTerm = some s' := hes _ hs'
    rw [← hterm, hwinner] at hwinner'
    exact Option.some.inj hwinner'
  · intro v T s s' hs hs'
    have hballot : B.ballot v T = some s := hes _ hs
    exact Option.some.inj (hballot.symm.trans (hes _ hs'))

/-- Servers 0 and 1 stand in the same term, and server 1 wins the next one. -/
def Cluster.contestedRun : List (Action 3 Unit) :=
  [.doElection 0, .doElection 1, .requestVote 0 2, .requestVote 1 2,
    .sendRequestVote 0 2, .sendRequestVote 1 2, .doElection 1,
    .requestVote 2 2, .sendRequestVote 2 2]

theorem election_safety_contested :
    ∃ c es, (Cluster.start 3 Unit).run Cluster.contestedRun = some (c, es) ∧
      ((c.nodes 0).status = .leader ∧ (c.nodes 1).status = .leader) ∧
      ∀ s r s' r', .becameLeader s r ∈ es → .becameLeader s' r' ∈ es →
        r.currentTerm = r'.currentTerm → s = s' := by
  obtain ⟨c, es, hrun, hleaders⟩ : ∃ c es,
      (Cluster.start 3 Unit).run Cluster.contestedRun = some (c, es) ∧
        ((c.nodes 0).status = .leader ∧ (c.nodes 1).status = .leader) := by
    decide +kernel
  exact ⟨c, es, hrun, hleaders, (election_safety hrun).1⟩

end KVRaftStorage
