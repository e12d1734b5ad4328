import KVRaftStorage.Raft.Deviations
import KVRaftStorage.Raft.IndexOrder
import KVRaftStorage.Support.Reach
import Mathlib.Data.Fintype.Lattice
import Mathlib.Data.Prod.Lex

/-!
# A campaign that succeeds

Among the servers of a cluster there is always one whose log is at least as up
to date as every other.  Started again, it may call for elections until its
term is above all others; a majority then grants it its vote, and it leads.
The messages of earlier terms may stay in flight, and nothing of this leaves
the protocol.
-/

namespace KVRaftStorage

open Transition

variable {n : ℕ} {Image : Type}

/-- A granted vote as it is sent back. -/
def RequestVoteReply.granted (term : ℕ) : RequestVoteReply where
  term := term
  voteGranted := true
  voteState := .normal

namespace Raft

variable {r r' : Raft n Image}

/-- A node that starts again has the log it had. -/
theorem Ordered.init_sameLog (h : r.Ordered) (v : Fin n) :
    r.SameLog (Raft.init v r.persister) := by
  have hdata := persistData_init v r.persister
  exact ⟨(congrArg RaftState.logs hdata).trans h.logs,
    (congrArg RaftState.lastSnapshotIncludeIndex hdata).trans h.index,
    (congrArg RaftState.lastSnapshotIncludeTerm hdata).trans h.boundary⟩

/-- The log of `r` ends before that of `r'`, in the order in which votes are
granted. -/
theorem upToDate_iff (r : Raft n Image) (index term : ℕ) :
    r.upToDate index term = true ↔
      toLex (r.getLastLogTerm, r.getLastLogIndex) ≤ toLex (term, index) := by
  simp only [upToDate, Prod.Lex.toLex_le_toLex, Bool.or_eq_true,
    Bool.and_eq_true, decide_eq_true_eq]
  rw [@eq_comm _ term]

/-- A larger term and a log that is up to date get the vote. -/
theorem requestVote_of_upToDate {args : RequestVoteArgs n}
    (hlt : r.currentTerm < args.term)
    (hup : r.upToDate args.lastLogIndex args.lastLogTerm = true) :
    ∃ r', r.requestVote args = .ok (r', .granted args.term) ∧
      r'.currentTerm = args.term := by
  have hsame := r.observeTerm_sameLog args.term
  have hup' : (r.observeTerm args.term).upToDate args.lastLogIndex
      args.lastLogTerm = true := by
    rw [upToDate_iff, hsame.lastLogIndex, hsame.lastLogTerm, ← upToDate_iff]
    exact hup
  have hterm := currentTerm_observeTerm hlt.le
  have hfree : (r.observeTerm args.term).votedFor = none := by
    rw [observeTerm, if_pos hlt]
    rfl
  refine ⟨({ r.observeTerm args.term with
    votedFor := some args.candidateId } : Raft n Image).persist, ?_, hterm⟩
  rw [requestVote, if_neg (Nat.not_lt_of_lt hlt)]
  simp only [myAssert, hterm, if_true, hup', hfree, bind, Except.bind, pure,
    Except.pure]
  simp [RequestVoteReply.granted]

theorem sendRequestVote_counts {k : ℕ} (hfew : k + 1 < n / 2 + 1) :
    r.sendRequestVote k (.granted r.currentTerm) = .ok (r, k + 1) := by
  have hfew : ¬n / 2 ≤ k := by omega
  simp [sendRequestVote, RequestVoteReply.granted, myAssert, bind, Except.bind,
    pure, Except.pure, hfew]

theorem sendRequestVote_wins {k : ℕ} (hmost : n / 2 + 1 ≤ k + 1)
    (hstatus : r.status ≠ .leader) :
    r.sendRequestVote k (.granted r.currentTerm) =
      .ok (r.becomeLeader, 0) := by
  have hmost : n / 2 ≤ k := by omega
  simp [sendRequestVote, RequestVoteReply.granted, myAssert, bind, Except.bind,
    pure, Except.pure, hmost, hstatus]

/-- A new leader sends its `Noop` first. -/
theorem nextIndex_becomeLeader (r : Raft n Image) (server : Fin n) :
    r.becomeLeader.nextIndex server = r.becomeLeader.getLastLogIndex := by
  simp [becomeLeader, appendNoopEntryLocked, appendEntry, persist,
    getNewCommandIndex, getLastLogIndex, getLastLogIndexAndTerm]

theorem logs_becomeLeader_ne_nil (r : Raft n Image) :
    r.becomeLeader.logs ≠ [] := by
  simp [becomeLeader, appendNoopEntryLocked, appendEntry, persist]

end Raft

namespace Cluster

variable {c c' : Cluster n Image} {s : Fin n}

/-! ## Quiet steps -/

theorem followsProtocol_of_none {a : Action n Image}
    (happend : c.appendRequest? a = none)
    (hinstall : c.installRequest? a = none) : c.FollowsProtocol a := by
  simp [FollowsProtocol, TruncatesLogs, happend, hinstall]

theorem step_requestVote {e : ℕ} {election : Election n} {i : Fin n}
    (he : c.elections[e]? = some election) (hcall : election.calls i = .sent) :
    c.step (.requestVote e i) = some (c.requestVote e election i) := by
  simp only [step, he, hcall, bind, Option.bind]

theorem step_sendRequestVote {e : ℕ} {election : Election n} {i : Fin n}
    {reply : RequestVoteReply} (he : c.elections[e]? = some election)
    (hcall : election.calls i = .replied reply)
    (hboot : c.boots election.candidate = election.boot) :
    c.step (.sendRequestVote e i) =
      some (c.sendRequestVote e election i reply) := by
  simp only [step, he, hcall, hboot, bind, Option.bind, if_true]

/-- The log of `s` is at least as up to date as any other. -/
def Foremost (c : Cluster n Image) (s : Fin n) : Prop :=
  ∀ v, (c.nodes v).upToDate (c.nodes s).getLastLogIndex
    (c.nodes s).getLastLogTerm = true

theorem exists_foremost (hn : 0 < n) (c : Cluster n Image) :
    ∃ s, c.Foremost s := by
  have : Nonempty (Fin n) := ⟨⟨0, hn⟩⟩
  obtain ⟨s, hs⟩ := Finite.exists_max fun v =>
    toLex ((c.nodes v).getLastLogTerm, (c.nodes v).getLastLogIndex)
  exact ⟨s, fun v => (Raft.upToDate_iff _ _ _).mpr (hs v)⟩

/-- The other servers stay as they are, and `s` keeps its log. -/
structure OnlyMoves (s : Fin n) (c c' : Cluster n Image) : Prop where
  others : ∀ v, v ≠ s → c'.nodes v = c.nodes v
  log : (c.nodes s).SameLog (c'.nodes s)

theorem OnlyMoves.trans {c₁ c₂ c₃ : Cluster n Image}
    (h₁ : OnlyMoves s c₁ c₂) (h₂ : OnlyMoves s c₂ c₃) : OnlyMoves s c₁ c₃ :=
  ⟨fun v hv => (h₂.others v hv).trans (h₁.others v hv), h₁.log.trans h₂.log⟩

theorem Foremost.of_onlyMoves (h : c.Foremost s) (hmoves : OnlyMoves s c c') :
    c'.Foremost s := by
  have hlog : ∀ v, (c.nodes v).SameLog (c'.nodes v) := by
    intro v
    by_cases hv : v = s
    · exact hv ▸ hmoves.log
    · exact hmoves.others v hv ▸ .refl _
  intro v
  have hup := h v
  rw [Raft.upToDate_iff] at hup ⊢
  rwa [(hlog v).lastLogIndex, (hlog v).lastLogTerm, (hlog s).lastLogIndex,
    (hlog s).lastLogTerm]

/-! ## Before the election -/

/-- After a restart a server is no leader. -/
theorem reaches_follower (hc : c.Ordered) (s : Fin n) :
    ∃ c', Reaches Cluster.step Cluster.FollowsProtocol c [] c' ∧
      (c'.nodes s).status ≠ .leader ∧ OnlyMoves s c c' := by
  refine ⟨_, .single (a := .restart s) rfl (followsProtocol_of_none rfl rfl),
    ?_, ?_, ?_⟩
  · simp [reboot]
  · intro v hv
    simp [reboot, hv]
  · simpa [reboot] using (hc.nodes s).init_sameLog s

/-- A server that is not the leader starts an election. -/
theorem reaches_candidate (hs : (c.nodes s).status ≠ .leader) :
    ∃ c' es, Reaches Cluster.step Cluster.FollowsProtocol c es c' ∧
      (c'.nodes s).status = .candidate ∧
      (c'.nodes s).currentTerm = (c.nodes s).currentTerm + 1 ∧
      OnlyMoves s c c' ∧ c'.boots = c.boots ∧
      ∃ args : RequestVoteArgs n,
        c'.elections = c.elections ++ [.begun s (c.boots s) args] ∧
        args.term = (c'.nodes s).currentTerm ∧
        args.lastLogIndex = (c'.nodes s).getLastLogIndex ∧
        args.lastLogTerm = (c'.nodes s).getLastLogTerm := by
  obtain ⟨r, args, hdo⟩ :
      ∃ r args, (c.nodes s).doElection = (r, some args) := by
    rw [Raft.doElection, if_neg hs]
    exact ⟨_, _, rfl⟩
  obtain ⟨-, -, hterm, -, hstatus, hlog, -, hargs⟩ :=
    Raft.doElection_eq_some hdo
  have hstep : c.step (.doElection s) = some ({ c.setNode s r with
      elections := c.elections ++ [.begun s (c.boots s) args] },
        [.voted s args.term s]) := by
    simp only [step, doElection, hdo, Election.begun]
  have hself : (c.setNode s r).nodes s = r := by simp [setNode]
  refine ⟨_, _, .single hstep (followsProtocol_of_none rfl rfl), ?_⟩
  simp only [hself]
  refine ⟨hstatus, hterm, ⟨fun v hv => by simp [setNode, hv],
    hself.symm ▸ hlog⟩, rfl, args, rfl, ?_⟩
  rw [hlog.lastLogIndex, hlog.lastLogTerm, hargs, hterm]
  exact ⟨rfl, rfl, rfl⟩

/-- Election after election, the term of a server grows as far as it likes. -/
theorem reaches_term (hs : (c.nodes s).status ≠ .leader) (T : ℕ) :
    ∃ c' es, Reaches Cluster.step Cluster.FollowsProtocol c es c' ∧
      ((c'.nodes s).status ≠ .leader ∧ OnlyMoves s c c') ∧
      T ≤ (c'.nodes s).currentTerm := by
  refine Reaches.descend (I := fun c' => (c'.nodes s).status ≠ .leader ∧
    OnlyMoves s c c') (fun c' => T - (c'.nodes s).currentTerm) ?_
    ⟨hs, fun _ _ => rfl, .refl _⟩
  rintro c₁ ⟨hs₁, hmoves₁⟩ hlt
  obtain ⟨c₂, es, hreach, hstatus, hterm, hmoves₂, -⟩ := reaches_candidate hs₁
  refine ⟨c₂, es, hreach, ⟨by simp [hstatus], hmoves₁.trans hmoves₂⟩, ?_⟩
  right
  omega

/-! ## The poll -/

/-- The candidate `s` of election `k` has been granted the votes of the servers
in `done`, and every other server is still as it was in `c₀`. -/
structure Polling (c₀ : Cluster n Image) (s : Fin n) (args : RequestVoteArgs n)
    (k : ℕ) (done : List (Fin n)) (c : Cluster n Image) : Prop where
  election : ∃ election, c.elections[k]? = some election ∧
    election.candidate = s ∧ election.boot = c.boots s ∧
    election.args = args ∧ election.votedNum = 1 + done.length ∧
    ∀ i, i ≠ s → i ∉ done → election.calls i = .sent
  candidate : c.nodes s = c₀.nodes s
  others : ∀ i, i ≠ s → i ∉ done → c.nodes i = c₀.nodes i
  terms : ∀ i, (c.nodes i).currentTerm ≤ args.term

variable {c₀ : Cluster n Image} {args : RequestVoteArgs n} {k : ℕ}
  {done : List (Fin n)}

/-- One server is asked, and its vote is processed. -/
theorem Polling.ask (h : Polling c₀ s args k done c) {i : Fin n} (hi : i ≠ s)
    (hnot : i ∉ done) (hlt : (c₀.nodes i).currentTerm < args.term)
    (hup : (c₀.nodes i).upToDate args.lastLogIndex args.lastLogTerm = true)
    {r : Raft n Image} {votedNum : ℕ}
    (hsend : (c₀.nodes s).sendRequestVote (1 + done.length)
      (.granted args.term) = .ok (r, votedNum)) :
    ∃ c' es, Reaches Cluster.step Cluster.FollowsProtocol c es c' ∧
      c'.nodes s = r ∧ (∀ j, j ≠ s → j ≠ i → c'.nodes j = c.nodes j) ∧
      (c'.nodes i).currentTerm = args.term ∧
      ∃ election, c'.elections[k]? = some election ∧
        election.candidate = s ∧ election.boot = c'.boots s ∧
        election.args = args ∧ election.votedNum = votedNum ∧
        ∀ j, j ≠ s → j ∉ done ++ [i] → election.calls j = .sent := by
  obtain ⟨election, he, hcandidate, hboot, hargs, hnum, hcalls⟩ := h.election
  have hk := (List.getElem?_eq_some_iff.mp he).1
  rw [← h.others i hi hnot] at hlt hup
  obtain ⟨r', hvote, hterm⟩ := Raft.requestVote_of_upToDate hlt hup
  -- the vote
  let voted := election.setCall i (.replied (.granted args.term))
  let c₁ := (c.setElection k voted).setNode i r'
  have hstep₁ : c.step (.requestVote k i) =
      some (c₁, [.voted i args.term args.candidateId]) := by
    rw [step_requestVote he (hcalls i hi hnot), requestVote, hargs, hvote]
    rfl
  -- its reply
  have he₁ : c₁.elections[k]? = some voted := by
    simp [c₁, setNode, setElection, hk]
  have hs₁ : c₁.nodes s = c₀.nodes s := by
    simp [c₁, setNode, setElection, hi.symm, h.candidate]
  let counted : Election n :=
    { voted.setCall i .done with votedNum := votedNum }
  let c₂ := (c₁.setElection k counted).setNode s r
  have hstep₂ : ∃ es, c₁.step (.sendRequestVote k i) = some (c₂, es) := by
    have hs : voted.candidate = s := hcandidate
    have hvoted : voted.votedNum = 1 + done.length := hnum
    rw [step_sendRequestVote he₁ (Function.update_self i _ _)
      ((congrArg c.boots hs).trans hboot.symm)]
    simp only [sendRequestVote, hs, hs₁, hvoted, hsend]
    exact ⟨_, rfl⟩
  obtain ⟨es₂, hstep₂⟩ := hstep₂
  refine ⟨c₂, _ ++ es₂,
    (Reaches.single hstep₁ (followsProtocol_of_none rfl rfl)).concat hstep₂
      (followsProtocol_of_none rfl rfl), ?_, fun j hj hji => ?_, ?_, counted,
    ?_, hcandidate, hboot, hargs, rfl, fun j hj hnotin => ?_⟩
  · simp [c₂, setNode]
  · simp [c₂, c₁, setNode, setElection, hj, hji]
  · simp [c₂, c₁, setNode, setElection, hi, hterm]
  · simp [c₂, c₁, setNode, setElection, hk]
  · rw [List.mem_append, List.mem_singleton, not_or] at hnotin
    simp [counted, voted, Election.setCall, hnotin.2, hcalls j hj hnotin.1]

/-- A server of whom no majority is complete yet goes on polling. -/
theorem Polling.next (h : Polling c₀ s args k done c) {i : Fin n} (hi : i ≠ s)
    (hnot : i ∉ done) (hlt : (c₀.nodes i).currentTerm < args.term)
    (hup : (c₀.nodes i).upToDate args.lastLogIndex args.lastLogTerm = true)
    (hterm : args.term = (c₀.nodes s).currentTerm)
    (hfew : done.length + 1 < n / 2) :
    ∃ c' es, Reaches Cluster.step Cluster.FollowsProtocol c es c' ∧
      Polling c₀ s args k (done ++ [i]) c' := by
  obtain ⟨c', es, hreach, hself, hothers, hvoter, helection⟩ :=
    h.ask hi hnot hlt hup
      (hterm ▸ Raft.sendRequestVote_counts (by omega))
  refine ⟨c', es, hreach, ?_, hself, fun j hj hnotin => ?_, fun j => ?_⟩
  · simpa [add_assoc] using helection
  · rw [List.mem_append, List.mem_singleton, not_or] at hnotin
    exact (hothers j hj hnotin.2).trans (h.others j hj hnotin.1)
  · by_cases hj : j = s
    · rw [hj, hself, hterm]
    · by_cases hji : j = i
      · exact hji ▸ hvoter.le
      · exact hothers j hj hji ▸ h.terms j

/-- Peers of `s`, as many as there are at most. -/
theorem exists_peers (s : Fin n) {k : ℕ} (hk : k + 1 ≤ n) :
    ∃ is : List (Fin n), is.Nodup ∧ is.length = k ∧ ∀ i ∈ is, i ≠ s := by
  refine ⟨(Finset.univ.erase s).toList.take k,
    (Finset.nodup_toList _).sublist (List.take_sublist _ _), ?_, ?_⟩
  · rw [List.length_take, Finset.length_toList, Finset.card_erase_of_mem
      (Finset.mem_univ s), Finset.card_univ, Fintype.card_fin]
    omega
  · intro i hi
    have hmem := List.mem_of_mem_take hi
    rw [Finset.mem_toList] at hmem
    exact Finset.ne_of_mem_erase hmem

/-! ## The leader -/

/-- The leader `s` has just been elected, in a term that no server is
beyond. -/
structure Elected (c : Cluster n Image) (s : Fin n) : Prop where
  leads : (c.nodes s).status = .leader
  term_pos : 0 < (c.nodes s).currentTerm
  terms : ∀ v, (c.nodes v).currentTerm ≤ (c.nodes s).currentTerm
  entries : (c.nodes s).logs ≠ []
  next : ∀ v, (c.nodes s).nextIndex v = (c.nodes s).getLastLogIndex
  matched : ∀ v, (c.nodes s).matchIndex v = 0

/-- In a cluster of several servers one can be elected. -/
theorem reaches_elected (hn : 2 ≤ n) (hc : c.Ordered) :
    ∃ s c' es, Reaches Cluster.step Cluster.FollowsProtocol c es c' ∧
      c'.Elected s := by
  obtain ⟨s, hforemost⟩ := c.exists_foremost (by omega)
  obtain ⟨c₁, hreach₁, hs₁, hmoves₁⟩ := reaches_follower hc s
  have : Nonempty (Fin n) := ⟨s⟩
  obtain ⟨v, hv⟩ := Finite.exists_max fun v => (c₁.nodes v).currentTerm
  obtain ⟨c₂, es₂, hreach₂, ⟨hs₂, hmoves₂⟩, hlarge⟩ :=
    reaches_term hs₁ (c₁.nodes v).currentTerm
  obtain ⟨c₃, es₃, hreach₃, hstatus, hterm, hmoves₃, hboots, args, helections,
    hargs, hindex, hlast⟩ := reaches_candidate hs₂
  have hforemost₃ := hforemost.of_onlyMoves
    ((hmoves₁.trans hmoves₂).trans hmoves₃)
  have hlt : ∀ i, i ≠ s → (c₃.nodes i).currentTerm < args.term := by
    intro i hi
    have := hv i
    rw [hmoves₃.others i hi, hmoves₂.others i hi]
    omega
  have hup : ∀ i, (c₃.nodes i).upToDate args.lastLogIndex args.lastLogTerm =
      true := fun i => by
    rw [hindex, hlast]
    exact hforemost₃ i
  have hstart : Polling c₃ s args c₂.elections.length [] c₃ := by
    refine ⟨⟨_, by rw [helections, List.getElem?_concat_length], rfl,
      congrFun hboots.symm s, rfl, rfl, fun i hi _ => if_neg hi⟩, rfl,
      fun _ _ _ => rfl, fun i => ?_⟩
    by_cases hi : i = s
    · exact hi ▸ hargs.ge
    · exact (hlt i hi).le
  -- all votes but the last
  obtain ⟨is, hnodup, hlength, hpeers⟩ :=
    exists_peers s (show n / 2 + 1 ≤ n by omega)
  obtain ⟨is, i, rfl⟩ : ∃ is' i, is = is' ++ [i] := by
    rcases List.eq_nil_or_concat is with rfl | ⟨is', i, rfl⟩
    · simp only [List.length_nil] at hlength
      omega
    · exact ⟨is', i, List.concat_eq_append⟩
  rw [List.length_append, List.length_singleton] at hlength
  obtain ⟨c₄, es₄, hreach₄, hpolling⟩ := Reaches.each
    (I := fun done c _ => Polling c₃ s args c₂.elections.length done c)
    is (fun done j rest c _ his hpolling => by
      have hj : j ∈ is ++ [i] := by simp [his]
      have hnot : j ∉ done := by
        rw [his, List.append_assoc, List.nodup_append] at hnodup
        exact fun hmem => hnodup.2.2 j hmem j (by simp) rfl
      refine hpolling.next (hpeers j hj) hnot (hlt j (hpeers j hj)) (hup j)
        hargs ?_
      rw [his, List.length_append, List.length_cons] at hlength
      omega) hstart
  have hi : i ≠ s := hpeers i (by simp)
  obtain ⟨c₅, es₅, hreach₅, hself, hothers, hvoter, -⟩ := hpolling.ask hi
    (fun hmem => (List.nodup_append.mp hnodup).2.2 i hmem i (by simp) rfl)
    (hlt i hi) (hup i)
    (hargs ▸ Raft.sendRequestVote_wins (by omega) (by simp [hstatus]))
  refine ⟨s, c₅, _, hreach₁.trans (hreach₂.trans (hreach₃.trans
    (hreach₄.trans hreach₅))), ?_⟩
  have hleader : (c₅.nodes s).currentTerm = args.term := by
    rw [hself, hargs]
    rfl
  refine ⟨hself ▸ rfl, ?_, fun j => ?_, ?_, fun j => ?_, fun j => hself ▸ rfl⟩
  · rw [hleader]
    exact Nat.zero_lt_of_lt (hlt i hi)
  · rw [hleader]
    by_cases hj : j = s
    · exact hj ▸ hleader.le
    · by_cases hji : j = i
      · exact hji ▸ hvoter.le
      · exact hothers j hj hji ▸ hpolling.terms j
  · rw [hself]
    exact Raft.logs_becomeLeader_ne_nil _
  · rw [hself]
    exact Raft.nextIndex_becomeLeader _ j

end Cluster

end KVRaftStorage
