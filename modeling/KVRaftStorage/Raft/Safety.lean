import KVRaftStorage.Raft.Commitment

/-!
# State machine safety and leader completeness

Every move that keeps the protocol extends the ledger and keeps the committed
prefixes.  The events of a run then say what they should: whatever is handed
out is committed, a leader that advances its commit index has decided a prefix
of what its term has minted, and a node that wins an election does so with a
log that its term has minted.
-/

namespace KVRaftStorage

open Replication Quorum Transition

variable {n : ℕ} {Image : Type}

namespace CommitsTracked

variable {G G' : Ledger (Fin n) LogEntry} {c c' : Cluster n Image}

theorem start : CommitsTracked Ledger.blank (Cluster.start n Image) where
  complete := .blank
  nodes := fun v => by
    have hzero : CommittedUpTo Ledger.blank v 0 :=
      ⟨Nat.zero_le _, .inl rfl⟩
    exact ⟨hzero, hzero⟩
  rounds := by simp [Cluster.start]
  reads := by simp [Cluster.start]

theorem settle (h : CommitsTracked G c) (hs : c.Settles c') :
    CommitsTracked G c' where
  complete := h.complete
  nodes := hs.nodes ▸ h.nodes
  rounds := by
    intro round' hr'
    obtain ⟨round, hr, hset⟩ := Cluster.exists_of_forall₂ hs.rounds hr'
    exact (h.rounds round hr).settle hset
  reads := by
    intro read' hq' i args call hcall
    obtain ⟨read, hq, hset⟩ := Cluster.exists_of_forall₂ hs.reads hq'
    obtain ⟨call₀, hold⟩ := (hcall ▸ hset.threads i).exists_append
    exact h.reads read hq i args call₀ hold

theorem messages (h : CommitsTracked G c) (hn : c'.nodes = c.nodes)
    (hr : ∀ round ∈ c'.rounds, RoundCommits G round)
    (hq : ∀ read ∈ c'.reads, ReadCommits G read) : CommitsTracked G c' :=
  ⟨h.complete, hn ▸ h.nodes, hr, hq⟩

/-- The ledger grows while the nodes stay. -/
theorem extend (h : CommitsTracked G c) (hcomplete : G'.Complete)
    (hext : G.Extends G') (hlog : G'.log = G.log) : CommitsTracked G' c where
  complete := hcomplete
  nodes := fun v => ⟨(h.nodes v).commit.extend hext
      (hlog ▸ List.take_prefix _ _), (h.nodes v).boundary.extend hext
      (hlog ▸ List.take_prefix _ _)⟩
  rounds := fun round hr => (h.rounds round hr).extend hext
  reads := fun read hq i args call hcall =>
    (h.reads read hq i args call hcall).extend hext

/-- One node changes together with the ledger. -/
theorem update (h : CommitsTracked G c) {v : Fin n} {r' : Raft n Image}
    (hcomplete : G'.Complete) (hext : G.Extends G')
    (hlog : ∀ u, u ≠ v → G'.log u = G.log u) (hnode : NodeCommits G' v r') :
    CommitsTracked G' (c.setNode v r') where
  complete := hcomplete
  nodes := by
    intro u
    by_cases hu : u = v
    · subst hu
      simpa [Cluster.setNode] using hnode
    · have hsame : ∀ k, (G.log u).take k <+: G'.log u := fun k =>
        hlog u hu ▸ List.take_prefix _ _
      simpa [Cluster.setNode, hu] using
        (⟨(h.nodes u).commit.extend hext (hsame _),
          (h.nodes u).boundary.extend hext (hsame _)⟩ :
            NodeCommits G' u (c.nodes u))
  rounds := fun round hr => (h.rounds round hr).extend hext
  reads := fun read hq i args call hcall =>
    (h.reads read hq i args call hcall).extend hext

/-- Following a term, with the commit index and the boundary within the
committed ones. -/
theorem follow (h : CommitsTracked G c) {v : Fin n} {r' : Raft n Image}
    {T : ℕ} (hT : G.epoch v ≤ T)
    (hcommit : CommittedUpTo G v r'.commitIndex)
    (hboundary : CommittedUpTo G v r'.lastSnapshotIncludeIndex) :
    CommitsTracked (G.raise v T) (c.setNode v r') := by
  have hext := Ledger.extends_raise (G := G) hT
  exact h.update (h.complete.raise hT) hext (fun _ _ => rfl)
    ⟨hcommit.extend hext (List.take_prefix _ _),
      hboundary.extend hext (List.take_prefix _ _)⟩

theorem follow_same (h : CommitsTracked G c) {v : Fin n} {r' : Raft n Image}
    {T : ℕ} (hT : G.epoch v ≤ T) (hsame : (c.nodes v).SameLog r')
    (hcommit : r'.commitIndex = (c.nodes v).commitIndex) :
    CommitsTracked (G.raise v T) (c.setNode v r') :=
  h.follow hT (hcommit ▸ (h.nodes v).commit)
    (hsame.index ▸ (h.nodes v).boundary)

theorem restart (h : CommitsTracked G c) (hL : LogsTracked G c) {v : Fin n}
    {p : Persister n Image}
    (hp : p.raftState = (c.nodes v).persister.raftState) :
    CommitsTracked G (c.reboot v p) := by
  have hindex : (Raft.init v p).lastSnapshotIncludeIndex =
      (c.nodes v).lastSnapshotIncludeIndex := by
    have hdata := congrArg RaftState.lastSnapshotIncludeIndex
      (Raft.persistData_init v p)
    refine hdata.trans ?_
    rw [Persister.stored, hp, ← Persister.stored]
    exact (hL.nodes v).diskIndex
  have hupdate : CommitsTracked G (c.setNode v (Raft.init v p)) := by
    refine h.update h.complete (.refl G) (fun _ _ => rfl) ⟨?_, ?_⟩
    · rw [Raft.commitIndex_init]
      exact (h.nodes v).commit.of_le (Nat.zero_le _)
    · rw [hindex]
      exact (h.nodes v).boundary
  exact hupdate.messages rfl h.rounds h.reads

/-! ## Elections -/

/-- A vote is cast by a node with the same log. -/
theorem cast (h : CommitsTracked G c) {v s : Fin n} {T : ℕ}
    {r' : Raft n Image}
    (hext : G.toBallots.Extends (G.toBallots.cast v T s))
    (hcomplete : (G.cast v T s).Complete) (hsame : (c.nodes v).SameLog r')
    (hcommit : r'.commitIndex = (c.nodes v).commitIndex) :
    CommitsTracked (G.cast v T s) (c.setNode v r') := by
  have hext' := Ledger.extends_cast hext
  refine h.update hcomplete hext' (fun _ _ => rfl) ⟨?_, ?_⟩
  · rw [hcommit]
    exact (h.nodes v).commit.extend hext' (List.take_prefix _ _)
  · rw [hsame.index]
    exact (h.nodes v).boundary.extend hext' (List.take_prefix _ _)

/-- The new vote of a record does not contradict an old one. -/
theorem vote_free {B : Ballots (Fin n)} {v s : Fin n} {T : ℕ}
    (hext : B.Extends (B.cast v T s)) :
    B.epoch v ≤ T ∧ ∀ s', B.ballot v T = some s' → s' = s := by
  constructor
  · have := hext.epoch v
    rwa [Ballots.epoch_cast, if_pos rfl] at this
  · intro s' hs'
    have := hext.ballot v T s' hs'
    rw [Ballots.ballot_cast, if_pos ⟨rfl, rfl⟩] at this
    exact (Option.some.inj this).symm

theorem candidacy (h : CommitsTracked G c) (hV : VotesTracked G.toBallots c)
    {v : Fin n} {r' : Raft n Image} {args : RequestVoteArgs n}
    (hstep : (c.nodes v).doElection = (r', some args)) :
    CommitsTracked (G.cast v args.term v) { c.setNode v r' with
      elections := c.elections ++ [.begun v (c.boots v) args] } := by
  obtain ⟨-, -, -, -, -, hsame, hcommit, hargs⟩ :=
    Raft.doElection_eq_some hstep
  have hext := (hV.candidacy hstep).1
  obtain ⟨hle, hfree⟩ := vote_free hext
  have hlt : (c.nodes v).currentTerm < args.term := by
    rw [hargs]
    exact Nat.lt_succ_self _
  have hepoch := (hV.nodes v).le
  refine (h.cast hext (h.complete.cast hle hfree (fun hne => absurd rfl hne)
    fun _ => ⟨NodeVotes.ballot_eq_none hV.sound (by omega), ?_⟩) hsame
    hcommit).messages rfl
      (fun round hr => (h.rounds round hr).extend (Ledger.extends_cast hext))
      (fun read hq i args call hcall =>
        (h.reads read hq i args call hcall).extend (Ledger.extends_cast hext))
  intro e he
  have := h.complete.matched.log_le v e he
  omega

theorem grant (h : CommitsTracked G c) (hV : VotesTracked G.toBallots c)
    (hL : LogsTracked G c) {k : ℕ} {election : Election n} {i : Fin n}
    {r' : Raft n Image} {reply : RequestVoteReply}
    (he : c.elections[k]? = some election) (hcall : election.calls i = .sent)
    (hgrants : (c.nodes i).Grants r' election.args reply) :
    CommitsTracked (G.cast i election.args.term election.candidate)
      ((c.setElection k (election.setCall i (.replied reply))).setNode i
        r') := by
  have hext := (hV.grant he hcall hgrants).1
  obtain ⟨hle, hfree⟩ := vote_free hext
  have hvotes := hV.elections election (List.mem_of_getElem? he)
  obtain ⟨hindex, hterm⟩ := hL.elections election (List.mem_of_getElem? he)
  refine (h.cast hext (h.complete.cast hle hfree (fun _ => ⟨hvotes.ballot, ?_⟩)
    fun heq => ?_) hgrants.log hgrants.commit).messages rfl
      (fun round hr => (h.rounds round hr).extend (Ledger.extends_cast hext))
      (fun read hq i args call hcall =>
        (h.reads read hq i args call hcall).extend (Ledger.extends_cast hext))
  · have hholds := (hL.nodes i).holds
    have hup := hgrants.upToDate
    simp only [Raft.upToDate, hholds.getLastLogTerm, hholds.getLastLogIndex,
      hindex, hterm, Bool.or_eq_true, Bool.and_eq_true,
      decide_eq_true_eq] at hup
    rcases hup with hlt | ⟨heq, hlen⟩
    · exact .inl hlt
    · exact .inr ⟨heq.symm, hlen⟩
  · rw [heq, hvotes.own] at hcall
    simp at hcall

/-- A leader, new or old, appends an entry. -/
theorem mint (h : CommitsTracked G c) {v : Fin n} {T : ℕ} {e : LogEntry}
    {r' : Raft n Image} (hpre : G.minted T <+: G.log v)
    (hcomplete : (G.mint v T e).Complete)
    (hcommit : r'.commitIndex = (c.nodes v).commitIndex)
    (hindex : r'.lastSnapshotIncludeIndex =
      (c.nodes v).lastSnapshotIncludeIndex) :
    CommitsTracked (G.mint v T e) (c.setNode v r') := by
  have hext := Ledger.extends_mint (e := e) hpre
  have hkeep : ∀ k, (G.log v).take k <+: (G.mint v T e).log v := by
    intro k
    rw [Ledger.log_mint, if_pos rfl]
    exact (List.take_prefix _ _).trans (List.prefix_append _ _)
  refine h.update hcomplete hext ?_ ⟨?_, ?_⟩
  · intro u hu
    rw [Ledger.log_mint, if_neg hu]
  · rw [hcommit]
    exact (h.nodes v).commit.extend hext (hkeep _)
  · rw [hindex]
    exact (h.nodes v).boundary.extend hext (hkeep _)

theorem extendLog (h : CommitsTracked G c) (hV : VotesTracked G.toBallots c)
    (hL : LogsTracked G c) {v : Fin n} (command : Op)
    (hl : (c.nodes v).status = .leader) :
    CommitsTracked (G.mint v (c.nodes v).currentTerm
        (LogsTracked.nextEntry (G.log v) (c.nodes v).currentTerm command))
      (c.setNode v ((c.nodes v).appendEntry command).persist) := by
  obtain ⟨hwon, hepoch⟩ := (hV.nodes v).leader hl
  obtain ⟨hminted, hne⟩ := (hL.nodes v).leader hl
  refine h.mint (hminted ▸ List.prefix_rfl) (h.complete.mint
    (hminted ▸ List.prefix_rfl) rfl hepoch (by simp [hwon])
    fun hnil => absurd (hminted.symm.trans hnil) hne) rfl rfl

theorem win (h : CommitsTracked G c) (hV : VotesTracked G.toBallots c)
    (hL : LogsTracked G c) {k : ℕ} {election : Election n} {i : Fin n}
    {r' : Raft n Image} {reply : RequestVoteReply}
    (he : c.elections[k]? = some election)
    (hcall : election.calls i = .replied reply)
    (hwins : (c.nodes election.candidate).Wins r' reply election.votedNum) :
    CommitsTracked ((G.elect election.args.term election.candidate).mint
        election.candidate election.args.term
        (LogsTracked.nextEntry (G.log election.candidate) election.args.term
          (Raft.noop election.args.term)))
      ((c.setElection k { election.setCall i .done with
        votedNum := 0 }).setNode election.candidate r') := by
  obtain ⟨-, hepoch, hnone, hmost⟩ := hV.win_most he hcall hwins
  have hext := (hV.win he hcall hwins).1
  have helect := h.extend (h.complete.elect hext hmost)
    (Ledger.extends_elect hext) rfl
  have hpre : (G.elect election.args.term election.candidate).minted
      election.args.term <+: (G.elect election.args.term
        election.candidate).log election.candidate := by
    change G.minted _ <+: _
    rw [hL.matched.unminted _ hnone]
    exact List.nil_prefix
  obtain rfl := hwins.eq
  have hset : CommitsTracked (G.elect election.args.term election.candidate)
      (c.setElection k { election.setCall i .done with votedNum := 0 }) :=
    helect.messages rfl helect.rounds helect.reads
  exact hset.mint hpre (helect.complete.mint hpre rfl hepoch
        (by simp [Ledger.elect, Ballots.elect]) fun _ => hmost) rfl rfl

/-! ## Replication -/

/-- What a leader has committed backs the commit index of its requests. -/
theorem leader_backed (h : CommitsTracked G c) (hV : VotesTracked G.toBallots c)
    (hL : LogsTracked G c) {v : Fin n} (hl : (c.nodes v).status = .leader)
    {args : AppendEntriesArgs n}
    (hterm : args.term = (c.nodes v).currentTerm)
    (hcommit : args.leaderCommit = (c.nodes v).commitIndex) :
    CommitBacked G args := by
  obtain ⟨hle, hcommitted⟩ := (h.nodes v).commit
  rw [CommitBacked, hterm, hcommit, ((hL.nodes v).leader hl).1]
  exact ⟨hle, ((hV.nodes v).leader hl).2 ▸ hcommitted⟩

/-- The ledger right after a leader started a round: it acknowledges its own
log. -/
def beaten (G : Ledger (Fin n) LogEntry) (v : Fin n) (T : ℕ) :
    Ledger (Fin n) LogEntry :=
  G.ack v T (G.log v).length

theorem heartbeat (h : CommitsTracked G c) (hV : VotesTracked G.toBallots c)
    (hL : LogsTracked G c) {v : Fin n} (hl : (c.nodes v).status = .leader) :
    CommitsTracked (beaten G v (c.nodes v).currentTerm) { c with
      rounds := c.rounds ++ [
        { leader := v
          boot := c.boots v
          appendNums := 1
          threads := Cluster.heartBeatThread (c.nodes v) v }] } := by
  have hminted := ((hL.nodes v).leader hl).1
  have hcomplete : (beaten G v (c.nodes v).currentTerm).Complete := by
    refine h.complete.ack_prefix ((hV.nodes v).leader hl).2 ?_ ?_
    · rw [hminted]
    · rw [hminted]
      exact List.take_prefix _ _
  have hext : G.Extends (beaten G v (c.nodes v).currentTerm) :=
    Ledger.extends_ack
  have hbeaten := h.extend hcomplete hext rfl
  refine hbeaten.messages rfl (forall_mem_concat hbeaten.rounds ?_)
    hbeaten.reads
  have hthread : ∀ i args call,
      Cluster.heartBeatThread (c.nodes v) v i = .append args call →
        i ≠ v ∧ call = .sent ∧ args.term = (c.nodes v).currentTerm ∧
          args.leaderCommit = (c.nodes v).commitIndex ∧
          args.prevLogIndex + args.entries.length = (G.log v).length := by
    intro i args call hcall
    obtain ⟨hne, hsent, hstep⟩ :=
      LogsTracked.heartBeatThread_eq_append hcall
    obtain ⟨hterm, hcommit, hle, -, hentries⟩ :=
      (hL.nodes v).holds.heartBeatArgs_eq_ok
        (Raft.Holds.heartBeatTo_eq_some hstep)
    refine ⟨hne, hsent, hterm, hcommit, ?_⟩
    rw [hentries, List.length_drop]
    omega
  refine ⟨fun i => ?_, (c.nodes v).currentTerm, (G.log v).length, ?_, ?_, ?_,
    Nat.le_add_right 1 _⟩
  · change ThreadCommits _ (Cluster.heartBeatThread (c.nodes v) v i)
    cases heq : Cluster.heartBeatThread (c.nodes v) v i with
    | append args call =>
        obtain ⟨-, -, hterm, hcommit, -⟩ := hthread i args call heq
        exact (h.leader_backed hV hL hl hterm hcommit).extend hext
    | snapshot args call =>
        exact absurd heq LogsTracked.heartBeatThread_ne_snapshot
    | idle | waiting => trivial
  · change _ ≤ (G.ack v _ _).acked v _
    rw [Ledger.acked_ack, if_pos ⟨rfl, rfl⟩]
    exact Nat.le_max_right _ _
  · intro i args call hcall
    obtain ⟨hne, -, hterm, -, hlen⟩ := hthread i args call hcall
    exact ⟨hne, hterm, hlen⟩
  · intro i args reply hcall
    exact absurd (hthread i args _ hcall).2.1 (by simp)

/-- A committed prefix of the log of a follower survives the merge. -/
theorem merged_keeps (h : G.Complete) {i : Fin n} {args : AppendEntriesArgs n}
    {q : List LogEntry} (hne : G.minted args.term ≠ [])
    (hq : q <+: G.log i) (hcommitted : G.CommittedBy args.term q) :
    q <+: LogsTracked.merged G i args := by
  unfold LogsTracked.merged
  split
  · exact hq
  · next hnot =>
      rcases List.prefix_or_prefix_of_prefix (h.committed_prefix hcommitted hne)
        (List.take_prefix _ (G.minted args.term)) with hin | hout
      · exact hin
      · exact absurd (hout.trans hq) hnot

/-- The ledger right after a follower accepted a request and acknowledged
it. -/
def accepted (G : Ledger (Fin n) LogEntry) (i : Fin n)
    (args : AppendEntriesArgs n) (r' : Raft n Image) :
    Ledger (Fin n) LogEntry :=
  ((G.raise i r'.persister.stored.currentTerm).replace i
    (LogsTracked.merged G i args)).ack i args.term
      (args.prevLogIndex + args.entries.length)

theorem accepted_log {i : Fin n} {args : AppendEntriesArgs n}
    {r' : Raft n Image} {u : Fin n} :
    (accepted G i args r').log u =
      if u = i then LogsTracked.merged G i args else G.log u := by
  change ((G.raise i _).replace i _).log u = _
  rw [Ledger.log_replace]
  rfl

theorem accepted_extends
    (hle : G.epoch i ≤ (r' : Raft n Image).persister.stored.currentTerm)
    (args : AppendEntriesArgs n) : G.Extends (accepted G i args r') :=
  ((Ledger.extends_raise hle).trans Ledger.extends_replace).trans
    Ledger.extends_ack

/-- A follower accepts a request. -/
theorem accept (h : CommitsTracked G c) (hV : VotesTracked G.toBallots c)
    (hL : LogsTracked G c) {i : Fin n} {args : AppendEntriesArgs n}
    {r' : Raft n Image} {reply : AppendEntriesReply}
    (hcarries : Carries G.minted args) (hbacked : CommitBacked G args)
    (hclean : ¬(c.nodes i).KeepsStaleEntries args)
    (hverified : ¬(c.nodes i).CommitsUnverified args)
    (haccepts : (c.nodes i).Accepts args r' reply) :
    CommitsTracked (accepted G i args r') (c.setNode i r') := by
  have hle := (hV.nodes i).epoch_le haccepts.follows (.inl haccepts.stored)
  have hterm : r'.persister.stored.currentTerm = args.term :=
    (congrArg RaftState.currentTerm haccepts.stored).trans haccepts.term
  have hext := accepted_extends hle args
  have hne := hcarries.1
  obtain ⟨hlen, hround⟩ := (hL.nodes i).holds.accepts (hL.matched.log i)
    (hL.matched.minted args.term) (hL.indexed args.term) hcarries haccepts
    hclean
  have hholds : r'.Holds (LogsTracked.merged G i args) := hround
  have hraised := h.complete.raise hle
  have hepoch : (G.raise i r'.persister.stored.currentTerm).epoch i =
      args.term := by
    simp [Ledger.raise, Ballots.raise, hterm]
  have hepoch' : (accepted G i args r').epoch i = args.term := hepoch
  have hlogi : (accepted G i args r').log i = LogsTracked.merged G i args := by
    rw [accepted_log, if_pos rfl]
  have hsegment : (G.minted args.term).take
      (args.prevLogIndex + args.entries.length) <+:
        LogsTracked.merged G i args := by
    unfold LogsTracked.merged
    split
    · next hin => exact hin
    · exact List.prefix_rfl
  have hcomplete : (accepted G i args r').Complete := by
    refine Ledger.Complete.ack_prefix ?_ hepoch hlen ?_
    · unfold LogsTracked.merged
      split
      · exact hraised.replace (hL.matched.log i)
          (fun e he => (hraised.matched.log_le i e he)) fun p _ hp => .inl hp
      · next hnot =>
          exact hraised.adopt hepoch (List.take_prefix _ _) hnot
    · rw [Ledger.log_replace, if_pos rfl]
      exact hsegment
  -- what was committed of the old log is committed of the merged one
  have hkeep : ∀ {k}, CommittedUpTo G i k →
      CommittedUpTo (accepted G i args r') i k := by
    intro k hk
    refine hk.extend hext ?_
    rw [hlogi]
    exact merged_keeps h.complete hne (List.take_prefix _ _)
      (hk.2.mono (hterm ▸ hle))
  refine h.update hcomplete hext ?_ ⟨?_, ?_⟩
  · intro u hu
    rw [accepted_log, if_neg hu]
  · have hnew := haccepts.merges.commit
    split at hnew
    swap
    · rw [hnew]
      exact hkeep (h.nodes i).commit
    next hlt =>
      rw [hholds.getLastLogIndex] at hnew
      rw [hnew]
      have hpre : (G.minted args.term).take (min args.leaderCommit
          (LogsTracked.merged G i args).length) <+:
            LogsTracked.merged G i args := by
        by_cases hin : min args.leaderCommit
            (LogsTracked.merged G i args).length ≤
              args.prevLogIndex + args.entries.length
        · exact (List.take_prefix_take_left hin).trans hsegment
        · -- the commit index lies behind the request, in the old log
          have hold : LogsTracked.merged G i args = G.log i := by
            unfold LogsTracked.merged at hin ⊢
            split
            · rfl
            · next hnot =>
                rw [if_neg hnot] at hin
                have := List.length_take_le
                  (args.prevLogIndex + args.entries.length)
                  (G.minted args.term)
                omega
          rw [hold] at hin ⊢
          have hlast := (hL.nodes i).holds.getLastLogIndex
          obtain ⟨hfrom, hto, hprev⟩ :=
            Raft.getLogTermFromLogIndex_eq_ok haccepts.merges.match_prev
          have hmatch : (c.nodes i).termAt?
              (min args.leaderCommit (G.log i).length) = some args.term := by
            by_contra hbad
            refine hverified ⟨⟨haccepts.le, hfrom, hto, hprev⟩, hlt, ?_, ?_⟩
            · rw [hlast]
              omega
            · rwa [hlast]
          have hmatch := ((hL.nodes i).holds.termAt?_eq_some hmatch).2.2
          have hground := hL.matched.log i
            ((G.log i).take (min args.leaderCommit (G.log i).length))
            (List.take_prefix _ _) ?_
          · rw [hmatch] at hground
            have hlen' : ((G.log i).take
                (min args.leaderCommit (G.log i).length)).length =
                  min args.leaderCommit (G.log i).length :=
              List.length_take_of_le (Nat.min_le_right _ _)
            have := List.prefix_iff_eq_take.mp hground
            rw [hlen'] at this
            rw [← this]
            exact List.take_prefix _ _
          · intro hnil
            have := congrArg List.length hnil
            rw [List.length_take, List.length_nil] at this
            omega
      have hk : CommittedUpTo (accepted G i args r') i
          ((G.minted args.term).take (min args.leaderCommit
            (LogsTracked.merged G i args).length)).length := by
        refine .of_isPrefix ?_ ?_
        · rw [hlogi]
          exact hpre
        · rw [hepoch']
          exact (hbacked.2.of_isPrefix (List.take_prefix_take_left
            (Nat.min_le_left _ _))).extend hext
      rwa [List.length_take_of_le ((Nat.min_le_left _ _).trans hbacked.1)]
        at hk
  · rw [haccepts.merges.index]
    exact hkeep (h.nodes i).boundary

/-- The round of an accepted request knows the acknowledgement. -/
theorem acceptRound (h : CommitsTracked G c) (hV : VotesTracked G.toBallots c)
    (hL : LogsTracked G c) {k : ℕ} {round : Round n Image} {i : Fin n}
    {args : AppendEntriesArgs n} {r' : Raft n Image}
    {reply : AppendEntriesReply} (hr : c.rounds[k]? = some round)
    (hthread : round.threads i = .append args .sent)
    (hcarries : Carries G.minted args)
    (hclean : ¬(c.nodes i).KeepsStaleEntries args)
    (hverified : ¬(c.nodes i).CommitsUnverified args)
    (haccepts : (c.nodes i).Accepts args r' reply) :
    CommitsTracked (accepted G i args r') ((c.setRound k (round.setThread i
      (.append args (.replied reply)))).setNode i r') := by
  have hround := h.rounds round (List.mem_of_getElem? hr)
  have hbacked : CommitBacked G args := by
    have := hround.threads i
    rwa [hthread] at this
  have haccept := h.accept hV hL hcarries hbacked hclean hverified haccepts
  have hext := accepted_extends
    ((hV.nodes i).epoch_le haccepts.follows (.inl haccepts.stored)) args
  obtain ⟨T, m, hacks⟩ := hround.acks
  obtain ⟨-, rfl, rfl⟩ := hacks.sent i args .sent hthread
  refine haccept.messages rfl (forall_mem_set haccept.rounds
    ⟨.setThread (fun j => (hround.threads j).extend hext)
      (t := .append args (.replied reply)) (hbacked.extend hext), args.term,
      args.prevLogIndex + args.entries.length,
      (hacks.extend hext).setCall hthread (by simp) ?_⟩) haccept.reads
  rintro reply' heq -
  obtain rfl : reply = reply' := by simpa using heq
  refine ⟨haccepts.replyTerm, ?_⟩
  change _ ≤ (Ledger.ack _ i args.term _).acked i args.term
  rw [Ledger.acked_ack, if_pos ⟨rfl, rfl⟩]
  exact Nat.le_max_right _ _

theorem acceptRead (h : CommitsTracked G c) (hV : VotesTracked G.toBallots c)
    (hL : LogsTracked G c) {q : ℕ} {read : ReadCall n} {i : Fin n}
    {args : AppendEntriesArgs n} {r' : Raft n Image}
    {reply : AppendEntriesReply} (hq : c.reads[q]? = some read)
    (hthread : read.threads i = .append args .sent)
    (hcarries : Carries G.minted args)
    (hclean : ¬(c.nodes i).KeepsStaleEntries args)
    (hverified : ¬(c.nodes i).CommitsUnverified args)
    (haccepts : (c.nodes i).Accepts args r' reply) :
    CommitsTracked (accepted G i args r') ((c.setRead q (read.setThread i
      (.append args (.replied reply)))).setNode i r') := by
  have hread := h.reads read (List.mem_of_getElem? hq)
  have hbacked := hread i args .sent hthread
  have haccept := h.accept hV hL hcarries hbacked hclean hverified haccepts
  have hext := accepted_extends
    ((hV.nodes i).epoch_le haccepts.follows (.inl haccepts.stored)) args
  refine haccept.messages rfl haccept.rounds (forall_mem_set haccept.reads ?_)
  intro j args' call hj
  by_cases hji : j = i
  · subst hji
    obtain ⟨rfl, -⟩ : args = args' ∧ Call.replied reply = call := by
      simpa [ReadCall.setThread] using hj
    exact hbacked.extend hext
  · exact (hread j args' call
      (by simpa [ReadCall.setThread, hji] using hj)).extend hext

/-- What a leader commits when its counter reaches the majority. -/
theorem commits_decided (h : CommitsTracked G c) (hL : LogsTracked G c) {k : ℕ}
    {round : Round n Image} {i : Fin n} {args : AppendEntriesArgs n}
    {reply : AppendEntriesReply} (hr : c.rounds[k]? = some round)
    (hthread : round.threads i = .append args (.replied reply))
    (hcommits : (c.nodes round.leader).Commits args reply round.appendNums) :
    ∃ p, p.length = args.prevLogIndex + args.entries.length ∧
      p <+: G.log round.leader ∧
      lastTerm p = (c.nodes round.leader).currentTerm ∧ G.Decided p := by
  have hcarries := hL.rounds round (List.mem_of_getElem? hr) i
  rw [hthread] at hcarries
  obtain ⟨T, m, hacks⟩ := (h.rounds round (List.mem_of_getElem? hr)).acks
  obtain ⟨hterm, hlen, hlast, hdecided⟩ :=
    hacks.decided hcarries hthread hcommits
  obtain ⟨-, -, rfl⟩ := hacks.sent i args _ hthread
  have hminted := ((hL.nodes round.leader).leader hcommits.counts.status).1
  refine ⟨_, List.length_take_of_le hlen, ?_, hlast.trans hterm.symm, hdecided⟩
  rw [← hterm, hminted]
  exact List.take_prefix _ _

/-- A leader counts a reply. -/
theorem tally (h : CommitsTracked G c) (hV : VotesTracked G.toBallots c)
    (hL : LogsTracked G c) {k : ℕ} {round : Round n Image} {i : Fin n}
    {args : AppendEntriesArgs n} {reply : AppendEntriesReply}
    {r' : Raft n Image} {appendNums : ℕ} (hr : c.rounds[k]? = some round)
    (hthread : round.threads i = .append args (.replied reply))
    (htallies : (c.nodes round.leader).Tallies args reply round.appendNums r'
      appendNums) :
    CommitsTracked (G.raise round.leader r'.persister.stored.currentTerm)
      ((c.setRound k { round.setThread i (.append args .done) with
        appendNums := appendNums }).setNode round.leader r') := by
  have hdisk := congrArg Persister.raftState htallies.disk
  have hle := (hV.nodes _).epoch_le htallies.follows (.inr hdisk)
  have hround := h.rounds round (List.mem_of_getElem? hr)
  obtain ⟨T, m, hacks⟩ := hround.acks
  obtain ⟨hne, -, -⟩ := hacks.sent i args _ hthread
  have hacked := (hacks.replied i args reply hthread
    htallies.counts.success).2
  have hset : RoundAcks G (round.setThread i (.append args .done)) T m :=
    hacks.setCall hthread (by simp) (by simp)
  have hcount : appendNums ≤ 1 +
      (round.setThread i (.append args .done)).counted G T m :=
    htallies.count_le.trans ((Nat.add_le_add_right hacks.count 1).trans
      (by have := RoundAcks.counted_finish hthread hne hacked; omega))
  have hmessages : CommitsTracked G (c.setRound k
      { round.setThread i (.append args .done) with
        appendNums := appendNums }) := by
    have hthis := hround.threads i
    rw [hthread] at hthis
    exact h.messages rfl (forall_mem_set h.rounds
      ⟨.setThread hround.threads (t := .append args .done) hthis, T, m,
        hset.own, hset.sent, hset.replied, hcount⟩) h.reads
  refine hmessages.follow hle ?_ (htallies.sameLog.index ▸
    (h.nodes round.leader).boundary)
  rcases htallies.commit with hsame | ⟨hcommits, hmax⟩
  · rw [hsame]
    exact (h.nodes round.leader).commit
  · rw [hmax]
    rcases max_choice (c.nodes round.leader).commitIndex
      (args.prevLogIndex + args.entries.length) with hold | hnew
    · rw [hold]
      exact (h.nodes round.leader).commit
    · obtain ⟨p, hlen, hp, hlast, hdecided⟩ :=
        h.commits_decided hL hr hthread hcommits
      rw [hnew, ← hlen]
      refine .of_isPrefix hp (.inr ⟨p, hdecided, ?_, List.prefix_rfl⟩)
      rw [hlast]
      exact ((hV.nodes round.leader).leader htallies.counts.status).2.ge

/-! ## Snapshots -/

theorem offer (h : CommitsTracked G c) (hV : VotesTracked G.toBallots c)
    (hL : LogsTracked G c) {k : ℕ} {round : Round n Image} {i : Fin n}
    (hr : c.rounds[k]? = some round) (hthread : round.threads i = .waiting) :
    CommitsTracked G (c.setRound k (round.setThread i
      (.snapshot (c.nodes round.leader).leaderSendSnapShot .sent))) := by
  have hround := h.rounds round (List.mem_of_getElem? hr)
  obtain ⟨T, m, hacks⟩ := hround.acks
  obtain ⟨hle, hboundary⟩ := (h.nodes round.leader).boundary
  have hbacked : SnapshotBacked G
      (c.nodes round.leader).leaderSendSnapShot :=
    ⟨_, List.length_take_of_le hle,
      ((hL.nodes round.leader).holds.boundary).symm,
      hboundary.mono (hV.nodes round.leader).le⟩
  refine h.messages rfl (forall_mem_set h.rounds
    ⟨.setThread hround.threads (t := .snapshot _ .sent) hbacked, T, m,
      hacks.offer hthread⟩) h.reads

/-- A server installs the snapshot of a committed prefix. -/
theorem install (h : CommitsTracked G c) (hV : VotesTracked G.toBallots c)
    (hL : LogsTracked G c) {i : Fin n}
    {args : InstallSnapshotRequest n Image} {r' : Raft n Image}
    {cp : List LogEntry}
    (hlen : cp.length = args.lastSnapShotIncludeIndex)
    (hlast : lastTerm cp = args.lastSnapShotIncludeTerm)
    (hcp : G.CommittedBy args.term cp)
    (hclean : ¬(c.nodes i).KeepsForeignEntries args)
    (hinstalls : (c.nodes i).Installs args r') :
    CommitsTracked ((G.raise i r'.persister.stored.currentTerm).replace i
      (LogsTracked.installed G i cp)) (c.setNode i r') := by
  have hle := (hV.nodes i).epoch_le hinstalls.follows (.inl hinstalls.stored)
  have hterm : r'.persister.stored.currentTerm = args.term :=
    (congrArg RaftState.currentTerm hinstalls.stored).trans hinstalls.term
  have hraised := h.complete.raise hle
  have hext : G.Extends ((G.raise i r'.persister.stored.currentTerm).replace i
      (LogsTracked.installed G i cp)) :=
    (Ledger.extends_raise hle).trans Ledger.extends_replace
  have hepoch : (G.raise i r'.persister.stored.currentTerm).epoch i =
      args.term := by
    simp [Ledger.raise, Ballots.raise, hterm]
  have hpre : cp <+: LogsTracked.installed G i cp := by
    unfold LogsTracked.installed
    split
    · next hlt =>
        exact (hL.nodes i).holds.covered_prefix (hL.matched.log i)
          (h.complete.committed_grounded hcp).1 hlen hlast hinstalls hclean hlt
    · exact List.prefix_rfl
  have hkeep : ∀ {k}, CommittedUpTo G i k → CommittedUpTo
      ((G.raise i r'.persister.stored.currentTerm).replace i
        (LogsTracked.installed G i cp)) i k := by
    intro k hk
    refine hk.extend hext ?_
    rw [Ledger.log_replace, if_pos rfl]
    unfold LogsTracked.installed
    split
    · exact List.take_prefix _ _
    · next hge =>
        exact h.complete.committed_prefix_of_le hk.2 hcp
          ((List.length_take_le' _ _).trans (Nat.le_of_not_lt hge))
  have hnew : CommittedUpTo
      ((G.raise i r'.persister.stored.currentTerm).replace i
        (LogsTracked.installed G i cp)) i args.lastSnapShotIncludeIndex := by
    rw [← hlen]
    refine .of_isPrefix ?_ ((hcp.extend hext).mono hepoch.ge)
    rw [Ledger.log_replace, if_pos rfl]
    exact hpre
  refine h.update ?_ hext ?_ ⟨?_, ?_⟩
  · unfold LogsTracked.installed
    split
    · exact hraised.replace (hL.matched.log i)
        (fun e he => hraised.matched.log_le i e he) fun p _ hp => .inl hp
    · next hge =>
        exact hraised.install (hepoch ▸ hcp.extend (Ledger.extends_raise hle))
          (Nat.le_of_not_lt hge)
  · intro u hu
    rw [Ledger.log_replace, if_neg hu]
    rfl
  · rw [hinstalls.commit]
    rcases max_choice (c.nodes i).commitIndex args.lastSnapShotIncludeIndex
      with hold | hnew'
    · rw [hold]
      exact hkeep (h.nodes i).commit
    · rw [hnew']
      exact hnew
  · rw [hinstalls.index]
    exact hnew

theorem compact (h : CommitsTracked G c) (hV : VotesTracked G.toBallots c)
    {v : Fin n} {index : ℕ} {r' : Raft n Image}
    (hcompacts : (c.nodes v).Compacts index r') :
    CommitsTracked (G.raise v r'.persister.stored.currentTerm)
      (c.setNode v r') := by
  refine h.follow ((hV.nodes v).epoch_le hcompacts.follows
    (.inl hcompacts.stored)) ?_ ?_
  · rw [hcompacts.commit, Nat.max_eq_left hcompacts.le]
    exact (h.nodes v).commit
  · rw [hcompacts.boundary]
    exact (h.nodes v).commit.of_le hcompacts.le

/-! ## Reads -/

theorem sendRead (h : CommitsTracked G c) (hV : VotesTracked G.toBallots c)
    (hL : LogsTracked G c) {q : ℕ} {read : ReadCall n} {i : Fin n}
    {args : AppendEntriesArgs n} (hq : c.reads[q]? = some read)
    (hstep : (c.nodes read.server).readIndexArgs read.savedTerm i =
      .ok (some args)) :
    CommitsTracked G (c.setRead q
      (read.setThread i (.append args .sent))) := by
  obtain ⟨hl, -, hterm, hcommit, -⟩ :=
    (hL.nodes read.server).holds.readIndexArgs_eq_some hstep
  refine h.messages rfl h.rounds (forall_mem_set h.reads ?_)
  intro j args' call hj
  by_cases hji : j = i
  · subst hji
    obtain ⟨rfl, -⟩ : args = args' ∧ Call.sent = call := by
      simpa [ReadCall.setThread] using hj
    exact h.leader_backed hV hL hl hterm hcommit
  · exact h.reads read (List.mem_of_getElem? hq) j args' call
      (by simpa [ReadCall.setThread, hji] using hj)

theorem finishRead (h : CommitsTracked G c) {q : ℕ} {read : ReadCall n}
    {i : Fin n} {confirmCount : ℕ} (hq : c.reads[q]? = some read) :
    CommitsTracked G (c.setRead q { read.setThread i .done with
      confirmCount := confirmCount }) := by
  refine h.messages rfl h.rounds (forall_mem_set h.reads ?_)
  intro j args' call hj
  by_cases hji : j = i
  · subst hji
    simp [ReadCall.setThread] at hj
  · exact h.reads read (List.mem_of_getElem? hq) j args' call
      (by simpa [ReadCall.setThread, hji] using hj)

end CommitsTracked

/-! ## Runs -/

/-- The discipline under which the handlers keep the protocol. -/
def Discipline.protocol : Discipline n Image :=
  ⟨fun r args => ¬r.KeepsStaleEntries args ∧ ¬r.CommitsUnverified args,
    fun r args => ¬r.KeepsForeignEntries args, fun _ _ => True⟩

theorem obeys_protocol {c : Cluster n Image} {a : Action n Image}
    (h : c.FollowsProtocol a) : Cluster.Obeys .protocol c a :=
  ⟨fun m hm => ⟨h.1.1 m hm, h.2 m hm⟩, h.1.2, fun _ _ _ => trivial⟩

/-- The three relations between the cluster and its history. -/
structure Tracked (G : Ledger (Fin n) LogEntry) (c : Cluster n Image) :
    Prop where
  votes : VotesTracked G.toBallots c
  logs : LogsTracked G c
  commits : CommitsTracked G c

theorem Tracked.start : Tracked Ledger.blank (Cluster.start n Image) :=
  ⟨.start, .start, .start⟩

/-- What an event says about the history. -/
def EventCommits (G : Ledger (Fin n) LogEntry) : Event n Image → Prop
  | .handedOut _ i command => ∃ q e T, G.CommittedBy T (q ++ [e]) ∧
      i = q.length + 1 ∧ e.command = command
  | .advanced _ r => ∃ l p, r.Holds l ∧ p <+: l ∧ G.Decided p ∧
      lastTerm p = r.currentTerm ∧ p.length = r.commitIndex
  | .becameLeader _ r => ∃ l, r.Holds l ∧ l <+: G.minted r.currentTerm ∧
      l ≠ [] ∧ lastTerm l = r.currentTerm
  | .voted _ _ _ | .readReturned _ _ => True

theorem EventCommits.extend {G G' : Ledger (Fin n) LogEntry}
    {ev : Event n Image} (h : EventCommits G ev) (hext : G.Extends G') :
    EventCommits G' ev := by
  cases ev with
  | handedOut s i command =>
      obtain ⟨q, e, T, hq, hi⟩ := h
      exact ⟨q, e, T, hq.extend hext, hi⟩
  | advanced s r =>
      obtain ⟨l, p, hl, hp, hdecided, hlast⟩ := h
      exact ⟨l, p, hl, hp, hdecided.extend hext, hlast⟩
  | becameLeader s r =>
      obtain ⟨l, hl, hminted, hne⟩ := h
      exact ⟨l, hl, hminted.trans (hext.minted _), hne⟩
  | voted | readReturned => trivial

namespace Tracked

variable {G : Ledger (Fin n) LogEntry} {c : Cluster n Image}

/-- A winner's log is what its term has minted. -/
theorem becameLeader (h : Tracked G c) {v : Fin n}
    (hl : (c.nodes v).status = .leader) :
    EventCommits G (.becameLeader v (c.nodes v)) := by
  obtain ⟨hminted, hne⟩ := (h.logs.nodes v).leader hl
  refine ⟨G.log v, (h.logs.nodes v).holds, hminted ▸ List.prefix_rfl, hne, ?_⟩
  rw [← hminted]
  exact h.logs.matched.minted_last _ (hminted ▸ hne)

/-- Everything that is handed out is committed. -/
theorem handedOut (h : Tracked G c) {v : Fin n} {r' : Raft n Image}
    {msgs : List (ℕ × Op)}
    (hout : (c.nodes v).getApplyLogs = .ok (r', msgs)) {m : ℕ × Op}
    (hm : m ∈ msgs) :
    EventCommits G (.handedOut v m.1 m.2 : Event n Image) := by
  obtain ⟨hle, entry, hentry, hcommand⟩ := (Raft.getApplyLogs_eq_ok hout).2 m hm
  obtain ⟨hlt, -, hget⟩ := Raft.entryAt_eq_ok hentry
  have hget := ((h.logs.nodes v).holds.entryAt?_eq_some hget).2
  have hpos := (List.getElem?_eq_some_iff.mp hget).1
  refine ⟨(G.log v).take (m.1 - 1), entry, G.epoch v, ?_, ?_, hcommand⟩
  · have := ((h.commits.nodes v).commit.of_le hle).2
    rwa [show m.1 = m.1 - 1 + 1 by omega, List.take_add_one, hget,
      Option.toList_some] at this
  · rw [List.length_take]
    omega

/-- A leader that raises its commit index has decided a prefix of its log. -/
theorem advanced (h : Tracked G c) {k : ℕ} {round : Round n Image} {i : Fin n}
    {args : AppendEntriesArgs n} {reply : AppendEntriesReply}
    {r' : Raft n Image} {appendNums : ℕ} (hr : c.rounds[k]? = some round)
    (hthread : round.threads i = .append args (.replied reply))
    (htallies : (c.nodes round.leader).Tallies args reply round.appendNums r'
      appendNums)
    (hlt : (c.nodes round.leader).commitIndex < r'.commitIndex) :
    EventCommits G (.advanced round.leader r') := by
  rcases htallies.commit with hsame | ⟨hcommits, hmax⟩
  · omega
  · obtain ⟨p, hlen, hp, hlast, hdecided⟩ :=
      h.commits.commits_decided h.logs hr hthread hcommits
    refine ⟨_, p, (h.logs.nodes round.leader).holds.of_sameLog
      htallies.sameLog, hp, hdecided, ?_, by omega⟩
    exact hlast.trans (congrArg RaftState.currentTerm htallies.data).symm

end Tracked

/-- Every move that keeps the protocol extends the ledger. -/
theorem Move.tracked {c c' : Cluster n Image} {es : List (Event n Image)}
    (h : Move .protocol c c' es) {G : Ledger (Fin n) LogEntry}
    (hG : Tracked G c) :
    ∃ G' : Ledger (Fin n) LogEntry, G.Extends G' ∧ Tracked G' c' ∧
      ∀ e ∈ es, EventCommits G' e := by
  induction h generalizing G with
  | trans _ _ ih₁ ih₂ =>
      obtain ⟨G₁, hext₁, hG₁, hes₁⟩ := ih₁ hG
      obtain ⟨G₂, hext₂, hG₂, hes₂⟩ := ih₂ hG₁
      refine ⟨G₂, hext₁.trans hext₂, hG₂, fun e he => ?_⟩
      rcases List.mem_append.mp he with he | he
      · exact (hes₁ e he).extend hext₂
      · exact hes₂ e he
  | settle hs =>
      exact ⟨G, .refl G, ⟨hG.votes.settle hs, hG.logs.settle hs,
        hG.commits.settle hs⟩, by simp⟩
  | quiet v r' hquiet _ =>
      have hle := (hG.votes.nodes v).epoch_le hquiet.follows hquiet.disk
      exact ⟨G.raise v r'.persister.stored.currentTerm,
        Ledger.extends_raise hle,
        ⟨hG.votes.follow hquiet.follows hquiet.disk,
          hG.logs.follow hle ((hG.logs.nodes v).of_sameLog hquiet.follows
            hquiet.log hquiet.disk),
          hG.commits.follow_same hle hquiet.log hquiet.commit⟩, by simp⟩
  | restart v p hp =>
      exact ⟨G, .refl G, ⟨hG.votes.restart hp, hG.logs.restart hp,
        hG.commits.restart hG.logs hp⟩, by simp⟩
  | candidacy v r' args hstep =>
      exact ⟨G.cast v args.term v,
        Ledger.extends_cast (hG.votes.candidacy hstep).1,
        ⟨(hG.votes.candidacy hstep).2, hG.logs.candidacy hG.votes hstep,
          hG.commits.candidacy hG.votes hstep⟩, by simp [EventCommits]⟩
  | grant e election i r' reply he hcall hgrants =>
      exact ⟨G.cast i election.args.term election.candidate,
        Ledger.extends_cast (hG.votes.grant he hcall hgrants).1,
        ⟨(hG.votes.grant he hcall hgrants).2,
          hG.logs.grant hG.votes he hcall hgrants,
          hG.commits.grant hG.votes hG.logs he hcall hgrants⟩,
        by simp [EventCommits]⟩
  | count e election i reply he hcall hcounts =>
      exact ⟨G, .refl G, ⟨hG.votes.count he hcall hcounts,
        hG.logs.count _ he rfl rfl,
        hG.commits.messages rfl hG.commits.rounds hG.commits.reads⟩, by simp⟩
  | win e election i r' reply he hcall hwins =>
      have hwon : Tracked _ _ := ⟨(hG.votes.win he hcall hwins).2,
        hG.logs.win hG.votes he hcall hwins,
        hG.commits.win hG.votes hG.logs he hcall hwins⟩
      refine ⟨_, hG.logs.extends_win hG.votes he hcall hwins, hwon, ?_⟩
      have hself := hwon.becameLeader (v := election.candidate)
      simp only [Cluster.setNode, Function.update_self] at hself
      simpa using hself (hwins.eq ▸ rfl)
  | @extend c v command hl =>
      have hpre : G.minted ((c.nodes v).currentTerm) <+: G.log v := by
        rw [((hG.logs.nodes v).leader hl).1]
      exact ⟨_, Ledger.extends_mint hpre, ⟨hG.votes.extend command hl,
        hG.logs.extend hG.votes command hl,
        hG.commits.extendLog hG.votes hG.logs command hl⟩, by simp⟩
  | heartbeat v hl =>
      exact ⟨_, Ledger.extends_ack, ⟨hG.votes.of_nodes rfl rfl,
        (hG.logs.heartbeat hl).ack,
        hG.commits.heartbeat hG.votes hG.logs hl⟩, by simp⟩
  | acceptRound k round i args r' reply hr hthread hD haccepts =>
      obtain ⟨hcarries, hset⟩ := hG.logs.setAppend (.replied reply)
        round.appendNums hr hthread
      refine ⟨_, CommitsTracked.accepted_extends ((hG.votes.nodes i).epoch_le
        haccepts.follows (.inl haccepts.stored)) args, ⟨?_,
          (hset.accept (hG.votes.of_nodes rfl rfl) hcarries hD.1
            haccepts).ack,
          hG.commits.acceptRound hG.votes hG.logs hr hthread hcarries hD.1
            hD.2 haccepts⟩, by simp⟩
      exact (hG.votes.follow haccepts.follows
        (.inl haccepts.stored)).of_nodes rfl rfl
  | acceptRead q read i args r' reply hq hthread hD haccepts =>
      obtain ⟨hcarries, hset⟩ := hG.logs.setReadAppend (.replied reply)
        hq hthread
      refine ⟨_, CommitsTracked.accepted_extends ((hG.votes.nodes i).epoch_le
        haccepts.follows (.inl haccepts.stored)) args, ⟨?_,
          (hset.accept (hG.votes.of_nodes rfl rfl) hcarries hD.1
            haccepts).ack,
          hG.commits.acceptRead hG.votes hG.logs hq hthread hcarries hD.1
            hD.2 haccepts⟩, by simp⟩
      exact (hG.votes.follow haccepts.follows
        (.inl haccepts.stored)).of_nodes rfl rfl
  | tally k round i args reply r' appendNums hr hthread htallies =>
      have hdisk := congrArg Persister.raftState htallies.disk
      have hle := (hG.votes.nodes _).epoch_le htallies.follows (.inr hdisk)
      obtain ⟨-, hset⟩ := hG.logs.setAppend .done appendNums hr
        hthread
      refine ⟨G.raise round.leader r'.persister.stored.currentTerm,
        Ledger.extends_raise hle, ⟨?_,
          hset.follow hle ((hG.logs.nodes _).of_sameLog htallies.follows
            htallies.sameLog (.inr hdisk)),
          hG.commits.tally hG.votes hG.logs hr hthread htallies⟩, ?_⟩
      · exact (hG.votes.follow htallies.follows (.inr hdisk)).of_nodes rfl rfl
      · intro e he
        split at he
        · next hlt =>
            rw [List.mem_singleton.mp he]
            exact (hG.advanced hr hthread htallies hlt).extend
              (Ledger.extends_raise hle)
        · simp at he
  | offer k round i hr hthread =>
      exact ⟨G, .refl G, ⟨hG.votes.of_nodes rfl rfl,
        hG.logs.offer hG.votes hr,
        hG.commits.offer hG.votes hG.logs hr hthread⟩, by simp⟩
  | install k round i args r' hr hthread hD hinstalls =>
      have hbacked := (hG.commits.rounds round
        (List.mem_of_getElem? hr)).threads i
      rw [hthread] at hbacked
      obtain ⟨cp, hlen, hterm, hcp⟩ := hbacked
      obtain ⟨hground, hcple⟩ := hG.commits.complete.committed_grounded hcp
      exact ⟨_, (Ledger.extends_raise ((hG.votes.nodes i).epoch_le
        hinstalls.follows (.inl hinstalls.stored))).trans
          Ledger.extends_replace,
        ⟨hG.votes.follow hinstalls.follows (.inl hinstalls.stored),
          hG.logs.install hG.votes hlen hterm hground hcple hD hinstalls,
          hG.commits.install hG.votes hG.logs hlen hterm hcp hD hinstalls⟩,
        by simp⟩
  | compact v index r' hcompacts =>
      exact ⟨_, Ledger.extends_raise ((hG.votes.nodes v).epoch_le
        hcompacts.follows (.inl hcompacts.stored)),
        ⟨hG.votes.follow hcompacts.follows (.inl hcompacts.stored),
          hG.logs.compact hG.votes hcompacts,
          hG.commits.compact hG.votes hcompacts⟩, by simp⟩
  | @handOut c v r' msgs hout =>
      obtain ⟨hfollows, hsame, hdisk⟩ := Raft.getApplyLogs_quiet hout
      have hle := (hG.votes.nodes v).epoch_le hfollows (.inr hdisk)
      have hcommit : r'.commitIndex = (c.nodes v).commitIndex := by
        rw [(Raft.getApplyLogs_eq_ok hout).1]
      refine ⟨_, Ledger.extends_raise hle,
        ⟨hG.votes.follow hfollows (.inr hdisk),
          hG.logs.follow hle
            ((hG.logs.nodes v).of_sameLog hfollows hsame (.inr hdisk)),
          hG.commits.follow_same hle hsame hcommit⟩, ?_⟩
      intro e he
      obtain ⟨m, hm, rfl⟩ := List.mem_map.mp he
      exact (hG.handedOut hout hm).extend (Ledger.extends_raise hle)
  | beginRead v hl =>
      refine ⟨G, .refl G, ⟨hG.votes.of_nodes rfl rfl, hG.logs.beginRead,
        hG.commits.messages rfl hG.commits.rounds
          (forall_mem_concat hG.commits.reads ?_)⟩, by simp⟩
      intro i args call hcall
      by_cases hi : i = v <;> simp [ReadCall.begun, hi] at hcall
  | sendRead q read i args hq hthread hstep =>
      exact ⟨G, .refl G, ⟨hG.votes.of_nodes rfl rfl,
        hG.logs.sendRead hq hstep,
        hG.commits.sendRead hG.votes hG.logs hq hstep⟩, by simp⟩
  | confirm q read i args reply hq hthread hsuccess =>
      exact ⟨G, .refl G, ⟨hG.votes.of_nodes rfl rfl, hG.logs.finishRead hq,
        hG.commits.finishRead hq⟩, by simp⟩
  | returnRead q read hq =>
      exact ⟨G, .refl G, ⟨hG.votes.of_nodes rfl rfl,
        hG.logs.setRead (hG.logs.reads read (List.mem_of_getElem? hq)),
        hG.commits.messages rfl hG.commits.rounds
          (forall_mem_set hG.commits.reads
            (hG.commits.reads read (List.mem_of_getElem? hq)))⟩,
        by simp [EventCommits]⟩

theorem tracked_along {as : List (Action n Image)} {c : Cluster n Image}
    {es : List (Event n Image)}
    (hprotocol : Throughout Cluster.step Cluster.FollowsProtocol
      (Cluster.start n Image) as)
    (hrun : (Cluster.start n Image).run as = some (c, es)) :
    ∃ G : Ledger (Fin n) LogEntry, Tracked G c ∧
      ∀ e ∈ es, EventCommits G e := by
  refine run_history (I := fun c es => ∃ G : Ledger (Fin n) LogEntry,
    Tracked G c ∧ ∀ e ∈ es, EventCommits G e) ?_ hprotocol
    ⟨Ledger.blank, .start, by simp⟩ hrun
  rintro c es a c' es' hprotocol ⟨G, hG, hes⟩ hstep
  obtain ⟨G', hext, hG', hes'⟩ :=
    (Cluster.step_move (obeys_protocol hprotocol) hstep).tracked hG
  refine ⟨G', hG', fun e he => ?_⟩
  rcases List.mem_append.mp he with he | he
  · exact (hes e he).extend hext
  · exact hes' e he

/-! ## State machine safety -/

def Event.handedOut? : Event n Image → Option (ℕ × Op)
  | .handedOut _ i command => some (i, command)
  | _ => none

theorem Event.mem_handedOut? {ev : Event n Image} {i : ℕ} {command : Op} :
    (i, command) ∈ ev.handedOut? ↔ ∃ s, ev = .handedOut s i command := by
  cases ev <;> simp [handedOut?]

/-- Every server that hands out index `i` hands out `command`. -/
def HandsOutOnly (es : List (Event n Image)) (i : ℕ) (command : Op) : Prop :=
  ∀ s command', .handedOut s i command' ∈ es → command' = command

instance (es : List (Event n Image)) (i : ℕ) (command : Op) :
    Decidable (HandsOutOnly es i command) :=
  decidable_of_iff
    (∀ ev ∈ es, ∀ m ∈ ev.handedOut?, m.1 = i → m.2 = command) <| by
      constructor
      · intro h s command' hmem
        exact h _ hmem (i, command') (Event.mem_handedOut?.mpr ⟨s, rfl⟩) rfl
      · rintro h ev hmem ⟨i', command'⟩ hm rfl
        obtain ⟨s, rfl⟩ := Event.mem_handedOut?.mp hm
        exact h s command' hmem

/-- Two commands handed out for the same index are equal. -/
def AppliesSame (es : List (Event n Image)) : Prop :=
  ∀ s i command, .handedOut s i command ∈ es → HandsOutOnly es i command

instance (es : List (Event n Image)) : Decidable (AppliesSame es) :=
  decidable_of_iff
    (∀ ev ∈ es, ∀ m ∈ ev.handedOut?, HandsOutOnly es m.1 m.2) <| by
      constructor
      · intro h s i command hmem
        exact h _ hmem (i, command) (Event.mem_handedOut?.mpr ⟨s, rfl⟩)
      · rintro h ev hmem ⟨i, command⟩ hm
        obtain ⟨s, rfl⟩ := Event.mem_handedOut?.mp hm
        exact h s i command hmem

/-- State machine safety, in every run whose steps keep the protocol. -/
theorem state_machine_safety {as : List (Action n Image)} {c : Cluster n Image}
    {es : List (Event n Image)}
    (hprotocol : Throughout Cluster.step Cluster.FollowsProtocol
      (Cluster.start n Image) as)
    (hrun : (Cluster.start n Image).run as = some (c, es)) :
    AppliesSame es := by
  obtain ⟨G, hG, hes⟩ := tracked_along hprotocol hrun
  intro s i command hmem s' command' hmem'
  obtain ⟨q, e, T, hq, hi, rfl⟩ := hes _ hmem
  obtain ⟨q', e', T', hq', hi', rfl⟩ := hes _ hmem'
  have heq := hG.commits.complete.committed_eq hq hq' (by simp; omega)
  have hlast := congrArg List.getLast? heq
  simp only [List.getLast?_concat, Option.some.injEq] at hlast
  rw [hlast]

theorem state_machine_safety_replicated :
    ∃ c es, (Cluster.start 3 Unit).run Cluster.replicatedRun = some (c, es) ∧
      AppliesSame es ∧ (es.filterMap Event.handedOut?).length = 2 := by
  obtain ⟨c, es, hrun, hlen⟩ : ∃ c es,
      (Cluster.start 3 Unit).run Cluster.replicatedRun = some (c, es) ∧
        (es.filterMap Event.handedOut?).length = 2 := by
    decide +kernel
  exact ⟨c, es, hrun, state_machine_safety (by decide +kernel) hrun, hlen⟩

/-- The empty request of `ReadIndex` makes a deposed leader commit an entry it
never compared. -/
def unverifiedRun : List (Action 3 Unit) :=
  [.doElection 0, .requestVote 0 1, .sendRequestVote 0 1,
    .doElection 1, .requestVote 1 2, .sendRequestVote 1 2,
    .doHeartBeat 1, .appendEntries 0 2, .sendAppendEntries 0 2,
    .readIndex 1, .readIndexSend 0 0, .readAppendEntries 0 0,
    .applierTicker 1, .applierTicker 0]

theorem hands_out_different_commands :
    ∃ c es, (Cluster.start 3 Unit).run unverifiedRun = some (c, es) ∧
      ¬AppliesSame es := by
  decide +kernel

/-! ## Leader completeness -/

def Event.advanced? : Event n Image → Option (Raft n Image)
  | .advanced _ r => some r
  | _ => none

theorem Event.mem_advanced? {ev : Event n Image} {r : Raft n Image} :
    r ∈ ev.advanced? ↔ ∃ s, ev = .advanced s r := by
  cases ev <;> simp [advanced?]

def Event.becameLeader? : Event n Image → Option (Raft n Image)
  | .becameLeader _ r => some r
  | _ => none

theorem Event.mem_becameLeader? {ev : Event n Image} {r : Raft n Image} :
    r ∈ ev.becameLeader? ↔ ∃ s, ev = .becameLeader s r := by
  cases ev <;> simp [becameLeader?]

/-- Up to the commit index of `r`, the node `r'` has every index in its
snapshot or has the entry of `r` there.  Of an index that `r` itself has
compacted, the term at the boundary and the commands handed out remain. -/
def KeepsCommitted (es : List (Event n Image)) (r r' : Raft n Image) : Prop :=
  ∀ i ≤ r.commitIndex, 1 ≤ i → i ≤ r'.lastSnapshotIncludeIndex ∨
    ∃ e ∈ r'.entryAt? i, (∀ e₀ ∈ r.entryAt? i, e₀ = e) ∧
      (∀ t ∈ r.termAt? i, t = e.logTerm) ∧ HandsOutOnly es i e.command

instance (es : List (Event n Image)) (r r' : Raft n Image) :
    Decidable (KeepsCommitted es r r') :=
  inferInstanceAs (Decidable (∀ i ≤ r.commitIndex, _))

/-- A server that wins an election has everything that the leader of an
earlier term commits. -/
def LeadersComplete (es : List (Event n Image)) : Prop :=
  ∀ s r s' r', .advanced s r ∈ es → .becameLeader s' r' ∈ es →
    r.currentTerm < r'.currentTerm → KeepsCommitted es r r'

instance (es : List (Event n Image)) : Decidable (LeadersComplete es) :=
  decidable_of_iff
    (∀ ev ∈ es, ∀ r ∈ ev.advanced?, ∀ ev' ∈ es, ∀ r' ∈ ev'.becameLeader?,
      r.currentTerm < r'.currentTerm → KeepsCommitted es r r') <| by
      constructor
      · intro h s r s' r' hmem hmem'
        exact h _ hmem r (Event.mem_advanced?.mpr ⟨s, rfl⟩) _ hmem' r'
          (Event.mem_becameLeader?.mpr ⟨s', rfl⟩)
      · intro h ev hmem r hr ev' hmem' r' hr'
        obtain ⟨s, rfl⟩ := Event.mem_advanced?.mp hr
        obtain ⟨s', rfl⟩ := Event.mem_becameLeader?.mp hr'
        exact h s r s' r' hmem hmem'

/-- A prefix decided in an earlier term is part of a winner's log. -/
theorem decided_prefix_winner {G : Ledger (Fin n) LogEntry} (hG : G.Complete)
    {l p : List LogEntry} {T : ℕ} (hl : l <+: G.minted T) (hne : l ≠ [])
    (hlast : lastTerm l = T) (hp : G.Decided p) (hlt : lastTerm p < T) :
    p <+: l := by
  have hminted : G.minted T ≠ [] := by
    intro hnil
    exact hne (List.prefix_nil.mp (hnil ▸ hl))
  rcases List.prefix_or_prefix_of_prefix (hG.decided_prefix hp T hlt hminted)
    hl with hpl | hlp
  · exact hpl
  · -- the winner's own entry would be of the earlier term
    obtain ⟨e, he, hterm⟩ := exists_mem_lastTerm hne
    have := hG.matched.term_le_lastTerm hp.1.2 e (hlp.subset he)
    omega

/-- Leader completeness, in every run whose steps keep the protocol. -/
theorem leader_completeness {as : List (Action n Image)} {c : Cluster n Image}
    {es : List (Event n Image)}
    (hprotocol : Throughout Cluster.step Cluster.FollowsProtocol
      (Cluster.start n Image) as)
    (hrun : (Cluster.start n Image).run as = some (c, es)) :
    LeadersComplete es := by
  obtain ⟨G, hG, hes⟩ := tracked_along hprotocol hrun
  intro s r s' r' hmem hmem' hlt i hi hpos
  obtain ⟨l, p, hholds, hpl, hdecided, hlast, hlen⟩ := hes _ hmem
  obtain ⟨l', hholds', hl', hne, hlast'⟩ := hes _ hmem'
  have hp' : p <+: l' := decided_prefix_winner hG.commits.complete hl' hne
    hlast' hdecided (hlast.symm ▸ hlt)
  refine or_iff_not_imp_left.mpr fun hnot => ?_
  have hget : i - 1 < p.length := by omega
  have hin : ∀ {l : List LogEntry}, p <+: l → l[i - 1]? = some p[i - 1] := by
    rintro _ ⟨t, rfl⟩
    rw [List.getElem?_append_left hget, List.getElem?_eq_getElem hget]
  refine ⟨p[i - 1], ?_, ?_, ?_, ?_⟩
  · rw [Option.mem_def, hholds'.entryAt?_eq (by omega)]
    exact hin hp'
  · intro e₀ he₀
    have := (hholds.entryAt?_eq_some he₀).2
    rw [hin hpl] at this
    exact (Option.some.inj this).symm
  · intro t ht
    have hterm := lastTerm_take (hin hpl)
    rw [show i - 1 + 1 = i by omega] at hterm
    exact (hholds.termAt?_eq_some ht).2.2.symm.trans hterm
  · intro v command hout
    obtain ⟨q, e, T, hq, rfl, rfl⟩ := hes _ hout
    have htake : p.take (q.length + 1) = p.take q.length ++ [p[q.length]] := by
      simp
    have heq := hG.commits.complete.committed_eq hq
      (.inr ⟨p, hdecided, le_rfl, List.take_prefix (q.length + 1) p⟩)
      (by simp; omega)
    rw [htake] at heq
    have hlast := congrArg List.getLast? heq
    simp only [List.getLast?_concat, Option.some.injEq] at hlast
    simp [hlast]

theorem leader_completeness_succeeded :
    ∃ c es, (Cluster.start 3 Unit).run Cluster.succeededRun = some (c, es) ∧
      LeadersComplete es ∧
      ∃ s r s' r', .advanced s r ∈ es ∧ .becameLeader s' r' ∈ es ∧
        r.currentTerm < r'.currentTerm := by
  obtain ⟨c, es, hrun, ev, hev, r, hr, ev', hev', r', hr', hlt⟩ : ∃ c es,
      (Cluster.start 3 Unit).run Cluster.succeededRun = some (c, es) ∧
        ∃ ev ∈ es, ∃ r ∈ ev.advanced?, ∃ ev' ∈ es, ∃ r' ∈ ev'.becameLeader?,
          r.currentTerm < r'.currentTerm := by
    decide +kernel
  obtain ⟨s, rfl⟩ := Event.mem_advanced?.mp hr
  obtain ⟨s', rfl⟩ := Event.mem_becameLeader?.mp hr'
  exact ⟨c, es, hrun, leader_completeness (by decide +kernel) hrun, s, r, s',
    r', hev, hev', hlt⟩

/-- A deposed leader keeps a stale entry behind the slot that the new leader
overwrote.  It then votes for a server with the old log, which wins without
the entry committed meanwhile. -/
def staleVoteRun : List (Action 5 Unit) :=
  Cluster.staleRun ++
    [.appendEntries 1 2, .sendAppendEntries 1 0, .sendAppendEntries 1 2,
      .doElection 4, .doElection 4, .requestVote 4 0, .requestVote 4 3,
      .sendRequestVote 4 0, .sendRequestVote 4 3]

theorem winner_lacks_committed :
    ∃ c es, (Cluster.start 5 Unit).run staleVoteRun = some (c, es) ∧
      ¬LeadersComplete es := by
  decide +kernel

end KVRaftStorage
