import KVRaftStorage.Raft.Elections
import KVRaftStorage.Raft.Requests

/-!
# Log matching

The cluster is related to a ledger.  Every node holds the tail of its full
log, in memory and on disk, and a leader's full log is what its term has
minted.  Every request in flight carries or covers what it should.

The relation needs two conditions on the run, because two branches of the
handlers leave entries behind which the ledger does not know.
-/

namespace KVRaftStorage

open Replication Transition

variable {n : ℕ} {Image : Type}

/-! ## The relation -/

/-- What the ledger says about a node with the full log `l`. -/
structure NodeLogs (m : ℕ → List LogEntry) (l : List LogEntry)
    (r : Raft n Image) : Prop where
  holds : r.Holds l
  diskLogs : r.persister.stored.logs = r.logs
  diskIndex : r.persister.stored.lastSnapshotIncludeIndex =
    r.lastSnapshotIncludeIndex
  diskTerm : r.persister.stored.lastSnapshotIncludeTerm =
    r.lastSnapshotIncludeTerm
  leader : r.status = .leader → m r.currentTerm = l ∧ l ≠ []

def ThreadLogs (m : ℕ → List LogEntry) : PeerThread n Image → Prop
  | .append args _ => Carries m args
  | .snapshot args _ => Covers m args
  | .idle | .waiting => True

def RoundLogs (m : ℕ → List LogEntry) (round : Round n Image) : Prop :=
  ∀ i, ThreadLogs m (round.threads i)

def ReadLogs (m : ℕ → List LogEntry) (read : ReadCall n) : Prop :=
  ∀ i args call, read.threads i = .append args call → Carries m args

/-- A candidate's request describes the log it had when it voted for
itself. -/
def ElectionLogs (G : Ledger (Fin n) LogEntry) (e : Election n) : Prop :=
  e.args.lastLogIndex = (G.voted e.candidate e.args.term).length ∧
    e.args.lastLogTerm = lastTerm (G.voted e.candidate e.args.term)

/-- The cluster has the history recorded in `G`. -/
structure LogsTracked (G : Ledger (Fin n) LogEntry) (c : Cluster n Image) :
    Prop where
  matched : G.Matched
  indexed : ∀ T, Indexed (G.minted T)
  nodes : ∀ v, NodeLogs G.minted (G.log v) (c.nodes v)
  elections : ∀ e ∈ c.elections, ElectionLogs G e
  rounds : ∀ round ∈ c.rounds, RoundLogs G.minted round
  reads : ∀ read ∈ c.reads, ReadLogs G.minted read

/-! ## Nodes and messages -/

namespace NodeLogs

variable {m m' : ℕ → List LogEntry} {l : List LogEntry} {r r' : Raft n Image}

theorem of_stored (hstored : r.Stored) (hholds : r.Holds l)
    (hleader : r.status = .leader → m r.currentTerm = l ∧ l ≠ []) :
    NodeLogs m l r := by
  refine ⟨hholds, ?_, ?_, ?_, hleader⟩ <;> rw [hstored] <;> rfl

theorem of_sameLog (h : NodeLogs m l r) (hfollows : r.Follows r')
    (hsame : r.SameLog r')
    (hdisk : r'.Stored ∨
      r'.persister.raftState = r.persister.raftState) : NodeLogs m l r' := by
  have hleader : r'.status = .leader → m r'.currentTerm = l ∧ l ≠ [] := by
    intro hl
    obtain ⟨hlead, hterm⟩ := hfollows.leader hl
    exact hterm ▸ h.leader hlead
  rcases hdisk with hstored | hstate
  · exact .of_stored hstored (h.holds.of_sameLog hsame) hleader
  · have hdisk : r'.persister.stored = r.persister.stored := by
      rw [Persister.stored, hstate, ← Persister.stored]
    refine ⟨h.holds.of_sameLog hsame, ?_, ?_, ?_, hleader⟩
    · rw [hdisk, hsame.logs]
      exact h.diskLogs
    · rw [hdisk, hsame.index]
      exact h.diskIndex
    · rw [hdisk, hsame.term]
      exact h.diskTerm

theorem restart (h : NodeLogs m l r) {v : Fin n} {p : Persister n Image}
    (hp : p.raftState = r.persister.raftState) :
    NodeLogs m l (Raft.init v p) := by
  have hdata : (Raft.init v p).persistData = r.persister.stored := by
    rw [Raft.persistData_init, Persister.stored, hp, ← Persister.stored]
  refine .of_stored (Raft.stored_init v p) (h.holds.of_sameLog ⟨?_, ?_, ?_⟩)
    (by simp)
  · exact (congrArg RaftState.logs hdata).trans h.diskLogs
  · exact (congrArg RaftState.lastSnapshotIncludeIndex hdata).trans h.diskIndex
  · exact (congrArg RaftState.lastSnapshotIncludeTerm hdata).trans h.diskTerm

theorem congr (h : NodeLogs m l r)
    (hm : r.status = .leader → m' r.currentTerm = m r.currentTerm) :
    NodeLogs m' l r :=
  ⟨h.holds, h.diskLogs, h.diskIndex, h.diskTerm, fun hl =>
    hm hl ▸ h.leader hl⟩

end NodeLogs

theorem ThreadLogs.mono {m m' : ℕ → List LogEntry} {t : PeerThread n Image}
    (h : ThreadLogs m t) (hm : ∀ T, m T <+: m' T) : ThreadLogs m' t := by
  cases t with
  | append args call => exact Carries.mono h hm
  | snapshot args call => exact Covers.mono h hm
  | idle | waiting => trivial

theorem ThreadLogs.settle {m : ℕ → List LogEntry} {t t' : PeerThread n Image}
    (h : ThreadLogs m t) (hs : t.Settles t') : ThreadLogs m t' := by
  cases hs with
  | refl => exact h
  | append => exact h
  | snapshot => exact h

theorem ReadThread.Settles.exists_append {t : ReadThread n}
    {args : AppendEntriesArgs n} {call : Call AppendEntriesReply}
    (h : t.Settles (.append args call)) :
    ∃ call₀, t = .append args call₀ := by
  cases h with
  | refl => exact ⟨call, rfl⟩
  | append _ call₀ => exact ⟨call₀, rfl⟩

theorem RoundLogs.setThread {m : ℕ → List LogEntry} {round : Round n Image}
    (h : RoundLogs m round) {i : Fin n} {t : PeerThread n Image}
    (ht : ThreadLogs m t) : RoundLogs m (round.setThread i t) := by
  intro j
  by_cases hj : j = i
  · subst hj
    simpa [Round.setThread] using ht
  · simpa [Round.setThread, hj] using h j

theorem ReadLogs.setThread {m : ℕ → List LogEntry} {read : ReadCall n}
    (h : ReadLogs m read) {i : Fin n} {t : ReadThread n}
    (ht : ∀ args call, t = .append args call → Carries m args) :
    ReadLogs m (read.setThread i t) := by
  intro j args call hj
  by_cases hji : j = i
  · subst hji
    exact ht args call (by simpa [ReadCall.setThread] using hj)
  · exact h j args call (by simpa [ReadCall.setThread, hji] using hj)

theorem forall_mem_set {α : Type} {P : α → Prop} {l : List α} {k : ℕ} {x : α}
    (h : ∀ y ∈ l, P y) (hx : P x) : ∀ y ∈ l.set k x, P y := by
  intro y hy
  rcases List.mem_or_eq_of_mem_set hy with hy | rfl
  · exact h y hy
  · exact hx

theorem forall_mem_concat {α : Type} {P : α → Prop} {l : List α} {x : α}
    (h : ∀ y ∈ l, P y) (hx : P x) : ∀ y ∈ l ++ [x], P y := by
  intro y hy
  rcases List.mem_append.mp hy with hy | hy
  · exact h y hy
  · exact List.mem_singleton.mp hy ▸ hx

/-! ## Moves -/

namespace LogsTracked

variable {G G' : Ledger (Fin n) LogEntry} {c c' : Cluster n Image}

theorem start : LogsTracked Ledger.blank (Cluster.start n Image) where
  matched := Ledger.matched_blank
  indexed := fun T i e he => by simp [Ledger.blank] at he
  nodes := fun v => .of_stored (Raft.stored_init v _)
    ⟨Nat.le_refl 0, rfl, rfl, fun i e he => by simp [Ledger.blank] at he⟩
    (by simp [Cluster.start])
  elections := by simp [Cluster.start]
  rounds := by simp [Cluster.start]
  reads := by simp [Cluster.start]

theorem settle (h : LogsTracked G c) (hs : c.Settles c') :
    LogsTracked G c' where
  matched := h.matched
  indexed := h.indexed
  nodes := hs.nodes ▸ h.nodes
  elections := by
    intro e' he'
    obtain ⟨e, he, hset⟩ := Cluster.exists_of_forall₂ hs.elections he'
    rw [ElectionLogs, hset.args, hset.candidate]
    exact h.elections e he
  rounds := by
    intro round' hr' i
    obtain ⟨round, hr, hset⟩ := Cluster.exists_of_forall₂ hs.rounds hr'
    exact (h.rounds round hr i).settle (hset.threads i)
  reads := by
    intro read' hq' i args call hcall
    obtain ⟨read, hq, hset⟩ := Cluster.exists_of_forall₂ hs.reads hq'
    obtain ⟨call₀, hold⟩ := (hcall ▸ hset.threads i).exists_append
    exact h.reads read hq i args call₀ hold

/-- The nodes stay and the messages are replaced. -/
theorem messages (h : LogsTracked G c) (hn : c'.nodes = c.nodes)
    (he : ∀ e ∈ c'.elections, ElectionLogs G e)
    (hr : ∀ round ∈ c'.rounds, RoundLogs G.minted round)
    (hq : ∀ read ∈ c'.reads, ReadLogs G.minted read) : LogsTracked G c' :=
  ⟨h.matched, h.indexed, hn ▸ h.nodes, he, hr, hq⟩

/-- One node changes together with the ledger.  Other leaders and candidates
must not notice. -/
theorem update (h : LogsTracked G c) {v : Fin n} {r' : Raft n Image}
    (hmatched : G'.Matched) (hext : G.Extends G')
    (hindexed : ∀ T, Indexed (G'.minted T))
    (hlog : ∀ u, u ≠ v → G'.log u = G.log u)
    (hminted : ∀ u, u ≠ v → (c.nodes u).status = .leader →
      G'.minted (c.nodes u).currentTerm = G.minted (c.nodes u).currentTerm)
    (hvoted : ∀ e ∈ c.elections, G'.voted e.candidate e.args.term =
      G.voted e.candidate e.args.term)
    (hnode : NodeLogs G'.minted (G'.log v) r') :
    LogsTracked G' (c.setNode v r') where
  matched := hmatched
  indexed := hindexed
  nodes := by
    intro u
    by_cases hu : u = v
    · subst hu
      simpa [Cluster.setNode] using hnode
    · simpa [Cluster.setNode, hu, hlog u hu] using
        (h.nodes u).congr (hminted u hu)
  elections := by
    intro e he
    rw [ElectionLogs, hvoted e he]
    exact h.elections e he
  rounds := fun round hr i => (h.rounds round hr i).mono hext.minted
  reads := fun read hq i args call hcall =>
    (h.reads read hq i args call hcall).mono hext.minted

/-- Following a term. -/
theorem follow (h : LogsTracked G c) {v : Fin n} {r' : Raft n Image}
    {T : ℕ} (hT : G.epoch v ≤ T) (hnode : NodeLogs G.minted (G.log v) r') :
    LogsTracked (G.raise v T) (c.setNode v r') :=
  h.update (h.matched.raise hT) (Ledger.extends_raise hT) h.indexed
    (fun _ _ => rfl) (fun _ _ _ => rfl) (fun _ _ => rfl) hnode

theorem restart (h : LogsTracked G c) {v : Fin n} {p : Persister n Image}
    (hp : p.raftState = (c.nodes v).persister.raftState) :
    LogsTracked G (c.reboot v p) :=
  (h.update h.matched (.refl G) h.indexed (fun _ _ => rfl)
    (fun _ _ _ => rfl) (fun _ _ => rfl) ((h.nodes v).restart hp)).messages rfl
    h.elections h.rounds h.reads

theorem ack (h : LogsTracked G c) {v : Fin n} {T k : ℕ} :
    LogsTracked (G.ack v T k) c :=
  ⟨h.matched.ack, h.indexed, h.nodes, h.elections, h.rounds, h.reads⟩

/-- A vote is cast, and no request of an open election is about it. -/
theorem cast (h : LogsTracked G c) (v : Fin n) (r' : Raft n Image) {s : Fin n}
    {T : ℕ}
    (hext : G.toBallots.Extends (G.toBallots.cast v T s))
    (hfresh : ∀ e ∈ c.elections, ¬(e.candidate = v ∧ e.args.term = T))
    (hnode : NodeLogs G.minted (G.log v) r') :
    LogsTracked (G.cast v T s) (c.setNode v r') := by
  refine h.update (h.matched.cast hext) (Ledger.extends_cast hext) h.indexed
    (fun _ _ => rfl) (fun _ _ _ => rfl) ?_ hnode
  intro e he
  rw [Ledger.voted_cast, if_neg (hfresh e he)]

theorem candidacy (h : LogsTracked G c) (hV : VotesTracked G.toBallots c)
    {v : Fin n} {r' : Raft n Image} {args : RequestVoteArgs n}
    (hstep : (c.nodes v).doElection = (r', some args)) :
    LogsTracked (G.cast v args.term v) { c.setNode v r' with
      elections := c.elections ++ [.begun v (c.boots v) args] } := by
  obtain ⟨hstored, -, -, -, hstatus, hsame, -, hargs⟩ :=
    Raft.doElection_eq_some hstep
  have hholds := (h.nodes v).holds
  have hcast := h.cast v r' (hV.candidacy hstep).1 ?_
    (.of_stored hstored (hholds.of_sameLog hsame) (by simp [hstatus]))
  · refine hcast.messages rfl (forall_mem_concat hcast.elections ?_)
      hcast.rounds hcast.reads
    simp only [ElectionLogs, Election.begun, Ledger.voted_cast, and_self,
      if_true]
    rw [hargs]
    exact ⟨hholds.getLastLogIndex, hholds.getLastLogTerm⟩
  · rintro e he ⟨rfl, hterm⟩
    have hle := hV.sound.ballot_le _ _ _ (hV.elections e he).ballot
    have := (hV.nodes e.candidate).le
    rw [hargs] at hterm
    simp only at hterm
    omega

theorem grant (h : LogsTracked G c) (hV : VotesTracked G.toBallots c) {k : ℕ}
    {election : Election n} {i : Fin n} {r' : Raft n Image}
    {reply : RequestVoteReply} (he : c.elections[k]? = some election)
    (hcall : election.calls i = .sent)
    (hgrants : (c.nodes i).Grants r' election.args reply) :
    LogsTracked (G.cast i election.args.term election.candidate)
      ((c.setElection k (election.setCall i (.replied reply))).setNode i
        r') := by
  have hext := (hV.grant he hcall hgrants).1
  have hcast := h.cast i r' hext ?_ (.of_stored hgrants.stored
    ((h.nodes i).holds.of_sameLog hgrants.log) ?_)
  · refine hcast.messages rfl (forall_mem_set hcast.elections ?_)
      hcast.rounds hcast.reads
    exact hcast.elections election (List.mem_of_getElem? he)
  · -- a candidate of this term has voted for itself
    rintro e he' ⟨rfl, hterm⟩
    have hself := hext.ballot _ _ _ (hV.elections e he').ballot
    rw [hterm, Ballots.ballot_cast, if_pos ⟨rfl, rfl⟩] at hself
    have hown := (hV.elections election (List.mem_of_getElem? he)).own
    rw [Option.some.inj hself, hcall] at hown
    simp at hown
  · intro hl
    obtain ⟨hlead, hterm⟩ := hgrants.leader hl
    rw [hgrants.term, ← hterm]
    exact (h.nodes i).leader hlead

theorem count (h : LogsTracked G c) {k : ℕ} {election : Election n}
    (election' : Election n) (he : c.elections[k]? = some election)
    (hcand : election'.candidate = election.candidate)
    (hargs : election'.args = election.args) :
    LogsTracked G (c.setElection k election') := by
  refine h.messages rfl (forall_mem_set h.elections ?_) h.rounds h.reads
  rw [ElectionLogs, hcand, hargs]
  exact h.elections election (List.mem_of_getElem? he)

/-- The entry a leader appends. -/
def nextEntry (l : List LogEntry) (T : ℕ) (command : Op) : LogEntry where
  command := command
  logTerm := T
  logIndex := l.length + 1

/-- The only leader of the term appends an entry. -/
theorem mint (h : LogsTracked G c) {v : Fin n} {T : ℕ} {command : Op}
    {r' : Raft n Image} (hpre : G.minted T <+: G.log v)
    (hepoch : G.epoch v = T) (hwon : G.winner T = some v)
    (hothers : ∀ u, u ≠ v → (c.nodes u).status = .leader →
      (c.nodes u).currentTerm ≠ T)
    (hstored : r'.Stored) (hterm : r'.currentTerm = T)
    (hholds : r'.Holds (G.log v ++ [nextEntry (G.log v) T command])) :
    LogsTracked (G.mint v T (nextEntry (G.log v) T command))
      (c.setNode v r') := by
  refine h.update (h.matched.mint hpre rfl hepoch (by simp [hwon]))
    (Ledger.extends_mint hpre) ?_ ?_ ?_ (fun _ _ => rfl) ?_
  · intro T'
    rw [Ledger.minted_mint]
    split
    · exact (h.nodes v).holds.indexed.concat rfl
    · exact h.indexed T'
  · intro u hu
    rw [Ledger.log_mint, if_neg hu]
  · intro u hu hl
    rw [Ledger.minted_mint, if_neg (hothers u hu hl)]
  · refine .of_stored hstored ?_ fun _ => ?_
    · rw [Ledger.log_mint, if_pos rfl]
      exact hholds
    · rw [Ledger.log_mint, if_pos rfl, Ledger.minted_mint, if_pos hterm]
      exact ⟨rfl, by simp⟩

theorem extend (h : LogsTracked G c) (hV : VotesTracked G.toBallots c)
    {v : Fin n} (command : Op) (hl : (c.nodes v).status = .leader) :
    LogsTracked (G.mint v (c.nodes v).currentTerm
        (nextEntry (G.log v) (c.nodes v).currentTerm command))
      (c.setNode v ((c.nodes v).appendEntry command).persist) := by
  have hnode := h.nodes v
  obtain ⟨hwon, hepoch⟩ := (hV.nodes v).leader hl
  refine h.mint ?_ hepoch hwon ?_ rfl rfl
    ((hnode.holds.appendEntry command).of_sameLog ⟨rfl, rfl, rfl⟩)
  · rw [(hnode.leader hl).1]
  · intro u hu hlead heq
    have hwinner := ((hV.nodes u).leader hlead).1
    rw [heq, hwon] at hwinner
    exact hu (Option.some.inj hwinner).symm

theorem win (h : LogsTracked G c) (hV : VotesTracked G.toBallots c) {k : ℕ}
    {election : Election n} {i : Fin n} {r' : Raft n Image}
    {reply : RequestVoteReply} (he : c.elections[k]? = some election)
    (hcall : election.calls i = .replied reply)
    (hwins : (c.nodes election.candidate).Wins r' reply election.votedNum) :
    LogsTracked ((G.elect election.args.term election.candidate).mint
        election.candidate election.args.term
        (nextEntry (G.log election.candidate) election.args.term
          (Raft.noop election.args.term)))
      ((c.setElection k { election.setCall i .done with
        votedNum := 0 }).setNode election.candidate r') := by
  obtain ⟨hterm, hepoch, hnone, -⟩ := hV.win_most he hcall hwins
  have hext := (hV.win he hcall hwins).1
  have hcount := h.count { election.setCall i .done with votedNum := 0 }
    he rfl rfl
  have helect : LogsTracked (G.elect election.args.term election.candidate)
      (c.setElection k { election.setCall i .done with votedNum := 0 }) :=
    ⟨h.matched.elect hext, h.indexed, h.nodes, hcount.elections, h.rounds,
      h.reads⟩
  have hholds := (h.nodes election.candidate).holds
  obtain rfl := hwins.eq
  refine helect.mint (v := election.candidate) ?_ hepoch
    (by simp [Ledger.elect, Ballots.elect]) ?_ rfl hterm.symm ?_
  · change G.minted _ <+: _
    rw [h.matched.unminted _ hnone]
    exact List.nil_prefix
  · intro u _ hl heq
    have hwinner := ((hV.nodes u).leader hl).1
    rw [show (c.nodes u).currentTerm = election.args.term from heq,
      hnone] at hwinner
    simp at hwinner
  · change Raft.Holds _ (G.log election.candidate ++
      [nextEntry (G.log election.candidate) _ _])
    rw [hterm]
    exact (Raft.Holds.appendEntry (r := { c.nodes election.candidate with
      status := .leader
      nextIndex := fun _ => (c.nodes election.candidate).getLastLogIndex + 1
      matchIndex := fun _ => 0 }) (hholds.of_sameLog ⟨rfl, rfl, rfl⟩)
        _).of_sameLog ⟨rfl, rfl, rfl⟩

/-- The first entry of a winner extends what its term has minted. -/
theorem extends_win (h : LogsTracked G c) (hV : VotesTracked G.toBallots c)
    {k : ℕ} {election : Election n} {i : Fin n} {r' : Raft n Image}
    {reply : RequestVoteReply} {e : LogEntry}
    (he : c.elections[k]? = some election)
    (hcall : election.calls i = .replied reply)
    (hwins : (c.nodes election.candidate).Wins r' reply election.votedNum) :
    G.Extends ((G.elect election.args.term election.candidate).mint
      election.candidate election.args.term e) := by
  obtain ⟨-, -, hnone, -⟩ := hV.win_most he hcall hwins
  refine (Ledger.extends_elect (hV.win he hcall hwins).1).trans
    (Ledger.extends_mint ?_)
  change G.minted _ <+: _
  rw [h.matched.unminted _ hnone]
  exact List.nil_prefix

/-- What a leader sends is what its term has minted. -/
theorem heartbeat_carries (h : LogsTracked G c) {v i : Fin n}
    (hl : (c.nodes v).status = .leader) {args : AppendEntriesArgs n}
    (hstep : (c.nodes v).heartBeatTo i = .ok (some args)) :
    Carries G.minted args := by
  obtain ⟨hterm, -, hle, hprev, hentries⟩ := (h.nodes v).holds.heartBeatArgs_eq_ok
    (Raft.Holds.heartBeatTo_eq_some hstep)
  obtain ⟨hminted, hne⟩ := (h.nodes v).leader hl
  rw [← hterm] at hminted
  refine ⟨hminted ▸ hne, (G.log v).take args.prevLogIndex,
    List.length_take_of_le hle, hprev, ?_⟩
  rw [hentries, List.take_append_drop, hminted]

theorem heartBeatThread_eq_append {r : Raft n Image} {s i : Fin n}
    {args : AppendEntriesArgs n} {call : Call AppendEntriesReply}
    (h : Cluster.heartBeatThread r s i = .append args call) :
    i ≠ s ∧ call = .sent ∧ r.heartBeatTo i = .ok (some args) := by
  unfold Cluster.heartBeatThread at h
  split at h
  · simp at h
  · next hopen =>
      split at h
      · simp at h
      · simp at h
      · next args' heq =>
          obtain ⟨rfl, rfl⟩ : args' = args ∧ Call.sent = call := by
            simpa using h
          exact ⟨fun heq => hopen (.inl heq), rfl, heq⟩

theorem heartBeatThread_ne_snapshot {r : Raft n Image} {s i : Fin n}
    {args : InstallSnapshotRequest n Image}
    {call : Call InstallSnapshotResponse} :
    Cluster.heartBeatThread r s i ≠ .snapshot args call := by
  unfold Cluster.heartBeatThread
  split
  · simp
  · split <;> simp

theorem heartbeat (h : LogsTracked G c) {v : Fin n}
    (hl : (c.nodes v).status = .leader) :
    LogsTracked G { c with
      rounds := c.rounds ++ [
        { leader := v
          boot := c.boots v
          appendNums := 1
          threads := Cluster.heartBeatThread (c.nodes v) v }] } := by
  refine h.messages rfl h.elections (forall_mem_concat h.rounds ?_) h.reads
  intro i
  change ThreadLogs G.minted (Cluster.heartBeatThread (c.nodes v) v i)
  cases heq : Cluster.heartBeatThread (c.nodes v) v i with
  | append args call =>
      exact h.heartbeat_carries hl (heartBeatThread_eq_append heq).2.2
  | snapshot args call => exact absurd heq heartBeatThread_ne_snapshot
  | idle | waiting => trivial

/-- The full log of a follower after it accepted a request. -/
def merged (G : Ledger (Fin n) LogEntry) (i : Fin n)
    (args : AppendEntriesArgs n) : List LogEntry :=
  if (G.minted args.term).take (args.prevLogIndex + args.entries.length) <+:
      G.log i then G.log i
  else (G.minted args.term).take (args.prevLogIndex + args.entries.length)

/-- A follower accepts a request and stores the merged log. -/
theorem accept (h : LogsTracked G c) (hV : VotesTracked G.toBallots c)
    {i : Fin n} {args : AppendEntriesArgs n} {r' : Raft n Image}
    {reply : AppendEntriesReply} (hcarries : Carries G.minted args)
    (hclean : ¬(c.nodes i).KeepsStaleEntries args)
    (haccepts : (c.nodes i).Accepts args r' reply) :
    LogsTracked ((G.raise i r'.persister.stored.currentTerm).replace i
      (merged G i args)) (c.setNode i r') := by
  have hle := (hV.nodes i).epoch_le haccepts.follows (.inl haccepts.stored)
  have hterm : r'.persister.stored.currentTerm = args.term :=
    (congrArg RaftState.currentTerm haccepts.stored).trans haccepts.term
  have hround := ((h.nodes i).holds.accepts (h.matched.log i)
    (h.matched.minted args.term) (h.indexed args.term) hcarries haccepts
    hclean).2
  refine h.update (((h.matched.raise hle).replace ?_ ?_))
    ((Ledger.extends_raise hle).trans Ledger.extends_replace) h.indexed ?_
    (fun _ _ _ => rfl) (fun _ _ => rfl) ?_
  · unfold merged
    split
    · exact h.matched.log i
    · exact (h.matched.minted args.term).of_isPrefix (List.take_prefix _ _)
  · intro e he
    have hepoch : (G.raise i r'.persister.stored.currentTerm).epoch i =
        args.term := by
      simp [Ledger.raise, Ballots.raise, hterm]
    rw [hepoch]
    unfold merged at he
    split at he
    · rw [← hterm]
      exact (h.matched.log_le i e he).trans hle
    · exact h.matched.minted_le _ e (List.mem_of_mem_take he)
  · intro u hu
    rw [Ledger.log_replace, if_neg hu]
    rfl
  · rw [Ledger.log_replace, if_pos rfl]
    exact .of_stored haccepts.stored hround (by simp [haccepts.status])

theorem setRound (h : LogsTracked G c) {k : ℕ} {round : Round n Image}
    (hround : RoundLogs G.minted round) :
    LogsTracked G (c.setRound k round) :=
  h.messages rfl h.elections (forall_mem_set h.rounds hround) h.reads

theorem setRead (h : LogsTracked G c) {q : ℕ} {read : ReadCall n}
    (hread : ReadLogs G.minted read) : LogsTracked G (c.setRead q read) :=
  h.messages rfl h.elections h.rounds (forall_mem_set h.reads hread)

/-- A call of a thread changes its state, not its request. -/
theorem setAppend (h : LogsTracked G c) {k : ℕ} {round : Round n Image}
    {i : Fin n} {args : AppendEntriesArgs n}
    {call : Call AppendEntriesReply} (call' : Call AppendEntriesReply)
    (appendNums : ℕ) (hr : c.rounds[k]? = some round)
    (hthread : round.threads i = .append args call) :
    Carries G.minted args ∧ LogsTracked G (c.setRound k
      { round.setThread i (.append args call') with
        appendNums := appendNums }) := by
  have hround := h.rounds round (List.mem_of_getElem? hr)
  have hcarries : Carries G.minted args := by
    have := hround i
    rwa [hthread] at this
  exact ⟨hcarries, h.setRound
    (hround.setThread (t := .append args call') hcarries)⟩

theorem setReadAppend (h : LogsTracked G c) {q : ℕ} {read : ReadCall n}
    {i : Fin n} {args : AppendEntriesArgs n}
    {call : Call AppendEntriesReply} (call' : Call AppendEntriesReply)
    (hq : c.reads[q]? = some read)
    (hthread : read.threads i = .append args call) :
    Carries G.minted args ∧ LogsTracked G (c.setRead q
      (read.setThread i (.append args call'))) := by
  have hread := h.reads read (List.mem_of_getElem? hq)
  have hcarries := hread i args call hthread
  refine ⟨hcarries, h.setRead (hread.setThread fun args' call heq => ?_)⟩
  obtain ⟨rfl, -⟩ : args = args' ∧ call' = call := by simpa using heq
  exact hcarries

theorem beginRead (h : LogsTracked G c) {v : Fin n} {boot : ℕ}
    {r : Raft n Image} :
    LogsTracked G { c with reads := c.reads ++ [.begun v boot r] } := by
  refine h.messages rfl h.elections h.rounds (forall_mem_concat h.reads ?_)
  intro i args call hcall
  by_cases hi : i = v <;> simp [ReadCall.begun, hi] at hcall

/-- The request of `ReadIndex` carries no entries. -/
theorem readIndex_carries (h : LogsTracked G c) {v i : Fin n} {T : ℕ}
    {args : AppendEntriesArgs n}
    (hstep : (c.nodes v).readIndexArgs T i = .ok (some args)) :
    Carries G.minted args := by
  obtain ⟨hl, -, hterm, -, hle, hprev, hentries⟩ :=
    (h.nodes v).holds.readIndexArgs_eq_some hstep
  obtain ⟨hminted, hne⟩ := (h.nodes v).leader hl
  rw [← hterm] at hminted
  refine ⟨hminted ▸ hne, (G.log v).take args.prevLogIndex,
    List.length_take_of_le hle, hprev, ?_⟩
  rw [hentries, List.append_nil, hminted]
  exact List.take_prefix _ _

theorem sendRead (h : LogsTracked G c) {q : ℕ} {read : ReadCall n}
    {i : Fin n} {args : AppendEntriesArgs n} (hq : c.reads[q]? = some read)
    (hstep : (c.nodes read.server).readIndexArgs read.savedTerm i =
      .ok (some args)) :
    LogsTracked G (c.setRead q (read.setThread i (.append args .sent))) := by
  refine h.setRead ((h.reads read (List.mem_of_getElem? hq)).setThread
    fun args' call heq => ?_)
  obtain ⟨rfl, -⟩ : args = args' ∧ Call.sent = call := by simpa using heq
  exact h.readIndex_carries hstep

theorem finishRead (h : LogsTracked G c) {q : ℕ} {read : ReadCall n}
    {i : Fin n} {confirmCount : ℕ} (hq : c.reads[q]? = some read) :
    LogsTracked G (c.setRead q { read.setThread i .done with
      confirmCount := confirmCount }) :=
  h.setRead ((h.reads read (List.mem_of_getElem? hq)).setThread (i := i)
    (t := .done) (by simp))

/-- The snapshot a node offers stands for the log up to its boundary. -/
theorem offer (h : LogsTracked G c) (hV : VotesTracked G.toBallots c)
    {k : ℕ} {round : Round n Image} {i : Fin n}
    (hr : c.rounds[k]? = some round) :
    LogsTracked G (c.setRound k (round.setThread i
      (.snapshot (c.nodes round.leader).leaderSendSnapShot .sent))) := by
  have hnode := (h.nodes round.leader).holds
  refine h.setRound ((h.rounds round (List.mem_of_getElem? hr)).setThread
    (t := .snapshot _ .sent) ⟨(G.log round.leader).take
      (c.nodes round.leader).lastSnapshotIncludeIndex,
      List.length_take_of_le hnode.start, hnode.boundary.symm,
      (h.matched.log _).of_isPrefix (List.take_prefix _ _), ?_⟩)
  intro e he
  exact (h.matched.log_le _ e (List.mem_of_mem_take he)).trans
    (hV.nodes round.leader).le

theorem compact (h : LogsTracked G c) (hV : VotesTracked G.toBallots c)
    {v : Fin n} {index : ℕ} {r' : Raft n Image}
    (hcompacts : (c.nodes v).Compacts index r') :
    LogsTracked (G.raise v r'.persister.stored.currentTerm)
      (c.setNode v r') := by
  refine h.follow ((hV.nodes v).epoch_le hcompacts.follows
    (.inl hcompacts.stored)) (.of_stored hcompacts.stored
      ((h.nodes v).holds.compacts hcompacts) fun hl => ?_)
  obtain ⟨hlead, hterm⟩ := hcompacts.follows.leader hl
  exact hterm ▸ (h.nodes v).leader hlead

/-- The full log of a node after it installed the snapshot of `cp`. -/
def installed (G : Ledger (Fin n) LogEntry) (i : Fin n)
    (cp : List LogEntry) : List LogEntry :=
  if cp.length < (G.log i).length then G.log i else cp

theorem install (h : LogsTracked G c) (hV : VotesTracked G.toBallots c)
    {i : Fin n} {args : InstallSnapshotRequest n Image} {r' : Raft n Image}
    {cp : List LogEntry}
    (hlen : cp.length = args.lastSnapShotIncludeIndex)
    (hterm : lastTerm cp = args.lastSnapShotIncludeTerm)
    (hcp : Grounded G.minted cp) (hcple : ∀ e ∈ cp, term e ≤ args.term)
    (hclean : ¬(c.nodes i).KeepsForeignEntries args)
    (hinstalls : (c.nodes i).Installs args r') :
    LogsTracked ((G.raise i r'.persister.stored.currentTerm).replace i
      (installed G i cp)) (c.setNode i r') := by
  have hle := (hV.nodes i).epoch_le hinstalls.follows (.inl hinstalls.stored)
  have hargs : r'.persister.stored.currentTerm = args.term :=
    (congrArg RaftState.currentTerm hinstalls.stored).trans hinstalls.term
  have hindexed : Indexed cp := by
    by_cases hne : cp = []
    · simp [hne, Indexed]
    · exact (h.indexed _).of_isPrefix (hcp cp List.prefix_rfl hne)
  have hholds := (h.nodes i).holds.installs_covered (h.matched.log i) hcp
    hindexed hlen hterm hinstalls hclean
  refine h.update (((h.matched.raise hle).replace ?_ ?_))
    ((Ledger.extends_raise hle).trans Ledger.extends_replace) h.indexed ?_
    (fun _ _ _ => rfl) (fun _ _ => rfl) ?_
  · unfold installed
    split
    · exact h.matched.log i
    · exact hcp
  · intro e he
    have hepoch : (G.raise i r'.persister.stored.currentTerm).epoch i =
        args.term := by
      simp [Ledger.raise, Ballots.raise, hargs]
    rw [hepoch]
    unfold installed at he
    split at he
    · rw [← hargs]
      exact (h.matched.log_le i e he).trans hle
    · exact hcple e he
  · intro u hu
    rw [Ledger.log_replace, if_neg hu]
    rfl
  · rw [Ledger.log_replace, if_pos rfl]
    exact .of_stored hinstalls.stored hholds (by simp [hinstalls.status])

end LogsTracked

/-! ## Runs -/

/-- The discipline under which no handler leaves entries behind. -/
def Discipline.truncating : Discipline n Image :=
  ⟨fun r args => ¬r.KeepsStaleEntries args,
    fun r args => ¬r.KeepsForeignEntries args, fun _ _ => True⟩

theorem obeys_truncating {c : Cluster n Image} {a : Action n Image}
    (h : c.TruncatesLogs a) : Cluster.Obeys .truncating c a :=
  ⟨h.1, h.2, fun _ _ _ => trivial⟩

/-- Every move extends the ledger. -/
theorem Move.logs {c c' : Cluster n Image} {es : List (Event n Image)}
    (h : Move .truncating c c' es) {G : Ledger (Fin n) LogEntry}
    (hV : VotesTracked G.toBallots c) (hL : LogsTracked G c) :
    ∃ G' : Ledger (Fin n) LogEntry, G.Extends G' ∧
      VotesTracked G'.toBallots c' ∧ LogsTracked G' c' := by
  induction h generalizing G with
  | trans _ _ ih₁ ih₂ =>
      obtain ⟨G₁, hext₁, hV₁, hL₁⟩ := ih₁ hV hL
      obtain ⟨G₂, hext₂, hV₂, hL₂⟩ := ih₂ hV₁ hL₁
      exact ⟨G₂, hext₁.trans hext₂, hV₂, hL₂⟩
  | settle hs => exact ⟨G, .refl G, hV.settle hs, hL.settle hs⟩
  | quiet v r' hquiet _ =>
      have hle := (hV.nodes v).epoch_le hquiet.follows hquiet.disk
      exact ⟨G.raise v r'.persister.stored.currentTerm,
        Ledger.extends_raise hle, hV.follow hquiet.follows hquiet.disk,
        hL.follow hle
          ((hL.nodes v).of_sameLog hquiet.follows hquiet.log hquiet.disk)⟩
  | restart v p hp => exact ⟨G, .refl G, hV.restart hp, hL.restart hp⟩
  | candidacy v r' args hstep =>
      exact ⟨G.cast v args.term v, Ledger.extends_cast (hV.candidacy hstep).1,
        (hV.candidacy hstep).2, hL.candidacy hV hstep⟩
  | grant e election i r' reply he hcall hgrants =>
      exact ⟨G.cast i election.args.term election.candidate,
        Ledger.extends_cast (hV.grant he hcall hgrants).1,
        (hV.grant he hcall hgrants).2, hL.grant hV he hcall hgrants⟩
  | count e election i reply he hcall hcounts =>
      exact ⟨G, .refl G, hV.count he hcall hcounts, hL.count _ he rfl rfl⟩
  | win e election i r' reply he hcall hwins =>
      exact ⟨_, hL.extends_win hV he hcall hwins, (hV.win he hcall hwins).2,
        hL.win hV he hcall hwins⟩
  | @extend c v command hl =>
      have hpre : G.minted ((c.nodes v).currentTerm) <+: G.log v := by
        rw [((hL.nodes v).leader hl).1]
      exact ⟨_, Ledger.extends_mint hpre, hV.extend command hl,
        hL.extend hV command hl⟩
  | heartbeat v hl =>
      exact ⟨G, .refl G, hV.of_nodes rfl rfl, hL.heartbeat hl⟩
  | acceptRound k round i args r' reply hr hthread hD haccepts =>
      obtain ⟨hcarries, hset⟩ := hL.setAppend (.replied reply)
        round.appendNums hr hthread
      refine ⟨_, ?_, ?_,
        hset.accept (hV.of_nodes rfl rfl) hcarries hD haccepts⟩
      · exact (Ledger.extends_raise ((hV.nodes i).epoch_le haccepts.follows
          (.inl haccepts.stored))).trans Ledger.extends_replace
      · exact (hV.follow haccepts.follows (.inl haccepts.stored)).of_nodes rfl
          rfl
  | acceptRead q read i args r' reply hq hthread hD haccepts =>
      obtain ⟨hcarries, hset⟩ := hL.setReadAppend (.replied reply)
        hq hthread
      refine ⟨_, ?_, ?_,
        hset.accept (hV.of_nodes rfl rfl) hcarries hD haccepts⟩
      · exact (Ledger.extends_raise ((hV.nodes i).epoch_le haccepts.follows
          (.inl haccepts.stored))).trans Ledger.extends_replace
      · exact (hV.follow haccepts.follows (.inl haccepts.stored)).of_nodes rfl
          rfl
  | tally k round i args reply r' appendNums hr hthread htallies =>
      have hdisk := congrArg Persister.raftState htallies.disk
      have hle := (hV.nodes _).epoch_le htallies.follows (.inr hdisk)
      obtain ⟨-, hset⟩ := hL.setAppend .done appendNums hr hthread
      refine ⟨G.raise round.leader r'.persister.stored.currentTerm,
        Ledger.extends_raise hle, ?_,
        hset.follow hle
          ((hL.nodes _).of_sameLog htallies.follows htallies.sameLog
            (.inr hdisk))⟩
      exact (hV.follow htallies.follows (.inr hdisk)).of_nodes rfl rfl
  | offer k round i hr hthread =>
      exact ⟨G, .refl G, hV.of_nodes rfl rfl, hL.offer hV hr⟩
  | install k round i args r' hr hthread hD hinstalls =>
      have hcovers := hL.rounds round (List.mem_of_getElem? hr) i
      rw [hthread] at hcovers
      obtain ⟨cp, hlen, hterm, hcp, hcple⟩ := hcovers
      exact ⟨_, (Ledger.extends_raise ((hV.nodes i).epoch_le hinstalls.follows
          (.inl hinstalls.stored))).trans Ledger.extends_replace,
        hV.follow hinstalls.follows (.inl hinstalls.stored),
        hL.install hV hlen hterm hcp hcple hD hinstalls⟩
  | compact v index r' hcompacts =>
      exact ⟨_, Ledger.extends_raise ((hV.nodes v).epoch_le hcompacts.follows
          (.inl hcompacts.stored)),
        hV.follow hcompacts.follows (.inl hcompacts.stored),
        hL.compact hV hcompacts⟩
  | handOut v r' msgs hout =>
      obtain ⟨hfollows, hsame, hdisk⟩ := Raft.getApplyLogs_quiet hout
      have hle := (hV.nodes v).epoch_le hfollows (.inr hdisk)
      exact ⟨_, Ledger.extends_raise hle, hV.follow hfollows (.inr hdisk),
        hL.follow hle
          ((hL.nodes v).of_sameLog hfollows hsame (.inr hdisk))⟩
  | beginRead v hl =>
      exact ⟨G, .refl G, hV.of_nodes rfl rfl, hL.beginRead⟩
  | sendRead q read i args hq hthread hstep =>
      exact ⟨G, .refl G, hV.of_nodes rfl rfl, hL.sendRead hq hstep⟩
  | confirm q read i args reply hq hthread hsuccess =>
      exact ⟨G, .refl G, hV.of_nodes rfl rfl, hL.finishRead hq⟩
  | returnRead q read hq =>
      exact ⟨G, .refl G, hV.of_nodes rfl rfl,
        hL.setRead (hL.reads read (List.mem_of_getElem? hq))⟩

/-- Every run in which no handler leaves entries behind extends the ledger. -/
theorem LogsTracked.run {G : Ledger (Fin n) LogEntry} {c c' : Cluster n Image}
    {as : List (Action n Image)} {es : List (Event n Image)}
    (hV : VotesTracked G.toBallots c) (hL : LogsTracked G c)
    (hclean : Throughout Cluster.step Cluster.TruncatesLogs c as)
    (hrun : c.run as = some (c', es)) :
    ∃ G' : Ledger (Fin n) LogEntry, G.Extends G' ∧
      VotesTracked G'.toBallots c' ∧ LogsTracked G' c' := by
  refine run_invariant (I := fun c' => ∃ G' : Ledger (Fin n) LogEntry,
    G.Extends G' ∧ VotesTracked G'.toBallots c' ∧ LogsTracked G' c') ?_ hclean
    ⟨G, .refl G, hV, hL⟩ hrun
  rintro c₁ a c₂ es hclean ⟨G₁, hext₁, hV₁, hL₁⟩ hstep
  obtain ⟨G₂, hext₂, h₂⟩ :=
    (Cluster.step_move (obeys_truncating hclean) hstep).logs hV₁ hL₁
  exact ⟨G₂, hext₁.trans hext₂, h₂⟩

theorem logs_tracked {as : List (Action n Image)} {c : Cluster n Image}
    {es : List (Event n Image)}
    (hclean : Throughout Cluster.step Cluster.TruncatesLogs
      (Cluster.start n Image) as)
    (hrun : (Cluster.start n Image).run as = some (c, es)) :
    ∃ G : Ledger (Fin n) LogEntry, LogsTracked G c := by
  obtain ⟨G, -, -, hL⟩ := LogsTracked.run .start .start hclean hrun
  exact ⟨G, hL⟩

/-- Two nodes that have the same term at `i` agree on every index up to `i`
that both still have: on its term, and on its command if it is an entry of
both. -/
def Cluster.LogsMatch (c : Cluster n Image) : Prop :=
  ∀ v w i t, (c.nodes v).termAt? i = some t → (c.nodes w).termAt? i = some t →
    ∀ j ≤ i,
      (∀ t₁ t₂, (c.nodes v).termAt? j = some t₁ →
        (c.nodes w).termAt? j = some t₂ → t₁ = t₂) ∧
      (∀ e₁ e₂, (c.nodes v).entryAt? j = some e₁ →
        (c.nodes w).entryAt? j = some e₂ → e₁.command = e₂.command)

theorem LogsTracked.logsMatch {G : Ledger (Fin n) LogEntry}
    {c : Cluster n Image} (h : LogsTracked G c) : c.LogsMatch := by
  intro v w i t hv hw j hj
  have hholdsv := (h.nodes v).holds
  have hholdsw := (h.nodes w).holds
  obtain ⟨-, hvlen, hvterm⟩ := hholdsv.termAt?_eq_some hv
  obtain ⟨-, hwlen, hwterm⟩ := hholdsw.termAt?_eq_some hw
  have hmatch : (G.log v).take i = (G.log w).take i := by
    refine (h.matched.log v).eq_of_lastTerm (h.matched.log w)
      (List.take_prefix _ _) (List.take_prefix _ _) ?_ ?_
    · rw [List.length_take_of_le hvlen, List.length_take_of_le hwlen]
    · rw [hvterm, hwterm]
  constructor
  · intro t₁ t₂ ht₁ ht₂
    have hsame := congrArg (List.take j) hmatch
    rw [List.take_take, List.take_take, Nat.min_eq_left hj] at hsame
    rw [← (hholdsv.termAt?_eq_some ht₁).2.2, hsame,
      (hholdsw.termAt?_eq_some ht₂).2.2]
  · intro e₁ e₂ he₁ he₂
    obtain ⟨hlt, hget₁⟩ := hholdsv.entryAt?_eq_some he₁
    obtain ⟨-, hget₂⟩ := hholdsw.entryAt?_eq_some he₂
    have hsame := congrArg (fun l => l[j - 1]?) hmatch
    simp only [List.getElem?_take, show j - 1 < i by omega, if_true, hget₁,
      hget₂] at hsame
    rw [Option.some.inj hsame]

/-- Log matching, in every run in which no handler leaves entries behind. -/
theorem log_matching {as : List (Action n Image)} {c : Cluster n Image}
    {es : List (Event n Image)}
    (hclean : Throughout Cluster.step Cluster.TruncatesLogs
      (Cluster.start n Image) as)
    (hrun : (Cluster.start n Image).run as = some (c, es)) : c.LogsMatch := by
  obtain ⟨G, hL⟩ := logs_tracked hclean hrun
  exact hL.logsMatch

theorem log_matching_replicated :
    ∃ c es, (Cluster.start 3 Unit).run Cluster.replicatedRun = some (c, es) ∧
      c.LogsMatch ∧ (c.nodes 0).termAt? 1 = (c.nodes 1).termAt? 1 := by
  obtain ⟨c, es, hrun, hsame⟩ : ∃ c es,
      (Cluster.start 3 Unit).run Cluster.replicatedRun = some (c, es) ∧
        (c.nodes 0).termAt? 1 = (c.nodes 1).termAt? 1 := by
    decide +kernel
  exact ⟨c, es, hrun, log_matching (by decide +kernel) hrun, hsame⟩

/-- Server 0 replicates two entries to server 4 and is then deposed by server
1, whose only entry overwrites the first one of server 0. -/
def Cluster.staleRun : List (Action 5 Unit) :=
  [.doElection 0, .requestVote 0 3, .requestVote 0 4, .sendRequestVote 0 3,
    .sendRequestVote 0 4, .start 0 (Raft.noop 7), .doHeartBeat 0,
    .appendEntries 0 4, .doElection 1, .doElection 1, .requestVote 2 2,
    .requestVote 2 3, .sendRequestVote 2 2, .sendRequestVote 2 3,
    .doHeartBeat 1, .appendEntries 1 0]

/-- Servers 0 and 4 have the same term at index 2 and different ones at index
1. -/
theorem logs_differ_below_match :
    ∃ c es, (Cluster.start 5 Unit).run Cluster.staleRun = some (c, es) ∧
      ¬c.LogsMatch := by
  obtain ⟨c, es, hrun, h₀, h₄, h₀', h₄'⟩ : ∃ c es,
      (Cluster.start 5 Unit).run Cluster.staleRun = some (c, es) ∧
        (c.nodes 0).termAt? 2 = some 1 ∧ (c.nodes 4).termAt? 2 = some 1 ∧
        (c.nodes 0).termAt? 1 = some 2 ∧ (c.nodes 4).termAt? 1 = some 1 := by
    decide +kernel
  refine ⟨c, es, hrun, fun hmatch => ?_⟩
  have := (hmatch 0 4 2 1 h₀ h₄ 1 (by decide)).1 2 1 h₀' h₄'
  omega

end KVRaftStorage
