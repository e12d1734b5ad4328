import KVRaftStorage.Raft.IndexOrder
import KVRaftStorage.Raft.ReadIndex

/-!
# Where commit indices come from

A server knows no commit index that a leader has not reached.  It takes its
commit index from requests and from snapshots, which a leader has filled with
its own.  A bound of what the leaders have committed is therefore a bound of
the commit indices, the snapshots and the handed out entries of all servers.
-/

namespace KVRaftStorage

open Transition

variable {n : ℕ} {Image : Type} {k : ℕ}

/-! ## The bound of a node and of a thread -/

namespace Raft

/-- Neither the commit index nor a snapshot is behind `k`. -/
structure CommitsWithin (r : Raft n Image) (k : ℕ) : Prop where
  commit : r.commitIndex ≤ k
  boundary : r.lastSnapshotIncludeIndex ≤ k
  disk : r.persister.stored.lastSnapshotIncludeIndex ≤ k

namespace CommitsWithin

variable {r r' : Raft n Image}

theorem of_stored (hstored : r.Stored) (hcommit : r.commitIndex ≤ k)
    (hboundary : r.lastSnapshotIncludeIndex ≤ k) : r.CommitsWithin k :=
  ⟨hcommit, hboundary,
    (congrArg RaftState.lastSnapshotIncludeIndex hstored).trans_le hboundary⟩

/-- The commit index and the log stay, and so does the disk unless the node is
stored. -/
theorem of_same (h : r.CommitsWithin k) (hlog : r.SameLog r')
    (hcommit : r'.commitIndex = r.commitIndex)
    (hdisk : r'.Stored ∨
      r'.persister.raftState = r.persister.raftState) :
    r'.CommitsWithin k := by
  have hboundary : r'.lastSnapshotIncludeIndex ≤ k := hlog.index ▸ h.boundary
  rcases hdisk with hstored | hsame
  · exact of_stored hstored (hcommit ▸ h.commit) hboundary
  · refine ⟨hcommit ▸ h.commit, hboundary, ?_⟩
    rw [Persister.stored, hsame]
    exact h.disk

theorem init (h : r.CommitsWithin k) (v : Fin n) {p : Persister n Image}
    (hp : p.raftState = r.persister.raftState) :
    (Raft.init v p).CommitsWithin k := by
  have hstored : p.stored = r.persister.stored := by
    rw [Persister.stored, hp, Persister.stored]
  have hdata := (persistData_init v p).trans hstored
  refine of_stored (stored_init v p) (by simp) ?_
  rw [show (Raft.init v p).lastSnapshotIncludeIndex =
    r.persister.stored.lastSnapshotIncludeIndex from
      congrArg RaftState.lastSnapshotIncludeIndex hdata]
  exact h.disk

theorem becomeLeader (h : r.CommitsWithin k) :
    r.becomeLeader.CommitsWithin k :=
  of_stored (stored_persist _) h.commit h.boundary

/-- A follower takes no larger index from a request than it carries. -/
theorem accepts (h : r.CommitsWithin k) {args : AppendEntriesArgs n}
    {reply : AppendEntriesReply} (hargs : args.leaderCommit ≤ k)
    (haccepts : r.Accepts args r' reply) : r'.CommitsWithin k := by
  refine of_stored haccepts.stored ?_ (haccepts.merges.index ▸ h.boundary)
  rw [haccepts.merges.commit]
  split
  · exact (Nat.min_le_left ..).trans hargs
  · exact h.commit

theorem installs (h : r.CommitsWithin k)
    {args : InstallSnapshotRequest n Image}
    (hargs : args.lastSnapShotIncludeIndex ≤ k)
    (hinstalls : r.Installs args r') : r'.CommitsWithin k := by
  refine of_stored hinstalls.stored ?_ (hinstalls.index ▸ hargs)
  rw [hinstalls.commit]
  exact Nat.max_le.mpr ⟨h.commit, hargs⟩

theorem compacts (h : r.CommitsWithin k) {index : ℕ}
    (hcompacts : r.Compacts index r') : r'.CommitsWithin k := by
  have hindex := hcompacts.le.trans h.commit
  refine of_stored hcompacts.stored ?_ (hcompacts.boundary ▸ hindex)
  rw [hcompacts.commit]
  exact Nat.max_le.mpr ⟨h.commit, hindex⟩

end CommitsWithin

end Raft

/-- The request carries no index behind `k`. -/
def PeerThread.CommitsWithin (k : ℕ) : PeerThread n Image → Prop
  | .append args _ => args.leaderCommit ≤ k
  | .snapshot args _ => args.lastSnapShotIncludeIndex ≤ k
  | .idle | .waiting => True

def ReadThread.CommitsWithin (k : ℕ) : ReadThread n → Prop
  | .append args _ => args.leaderCommit ≤ k
  | .waiting | .done => True

theorem PeerThread.Settles.commitsWithin {t t' : PeerThread n Image}
    (hs : t.Settles t') (h : t.CommitsWithin k) : t'.CommitsWithin k := by
  cases hs with
  | refl | append | snapshot => exact h

theorem ReadThread.Settles.commitsWithin {t t' : ReadThread n}
    (hs : t.Settles t') (h : t.CommitsWithin k) : t'.CommitsWithin k := by
  cases hs with
  | refl | append => exact h
  | finish => trivial

theorem heartBeatThread_commitsWithin {r : Raft n Image} {s i : Fin n}
    (h : r.commitIndex ≤ k) :
    (Cluster.heartBeatThread r s i).CommitsWithin k := by
  cases hthread : Cluster.heartBeatThread r s i with
  | idle | waiting => trivial
  | snapshot => exact absurd hthread LogsTracked.heartBeatThread_ne_snapshot
  | append args call =>
      obtain ⟨-, -, hsent⟩ := LogsTracked.heartBeatThread_eq_append hthread
      have hargs := Raft.Holds.heartBeatTo_eq_some hsent
      simp only [Raft.heartBeatArgs, exec_bind_eq_ok] at hargs
      obtain ⟨_, -, _, -, _, -, hargs⟩ := hargs
      obtain rfl := exec_pure_eq_ok.mp hargs
      exact h

theorem readIndexArgs_commitsWithin {r : Raft n Image} {savedTerm : ℕ}
    {i : Fin n} {args : AppendEntriesArgs n} (h : r.commitIndex ≤ k)
    (hargs : r.readIndexArgs savedTerm i = .ok (some args)) :
    args.leaderCommit ≤ k := by
  unfold Raft.readIndexArgs at hargs
  split at hargs
  · simp at hargs
  · split at hargs
    · simp at hargs
    · rw [exec_bind_eq_ok] at hargs
      obtain ⟨_, -, hargs⟩ := hargs
      obtain rfl : _ = args := by simpa using hargs
      exact h

namespace Cluster

/-! ## The bound of a cluster -/

/-- No server and no request knows an index behind `k`. -/
structure CommitsWithin (c : Cluster n Image) (k : ℕ) : Prop where
  nodes : ∀ v, (c.nodes v).CommitsWithin k
  rounds : ∀ round ∈ c.rounds, ∀ i, (round.threads i).CommitsWithin k
  reads : ∀ read ∈ c.reads, ∀ i, (read.threads i).CommitsWithin k

namespace CommitsWithin

variable {c c' : Cluster n Image}

theorem start : (Cluster.start n Image).CommitsWithin k where
  nodes := fun v => .of_stored (Raft.stored_init v _)
    (by simp [Cluster.start])
    (by simp [Cluster.start, Raft.init, Raft.readPersist, Raft.fresh])
  rounds := by simp [Cluster.start]
  reads := by simp [Cluster.start]

theorem setNode (h : c.CommitsWithin k) (v : Fin n) {r' : Raft n Image}
    (hr' : r'.CommitsWithin k) : (c.setNode v r').CommitsWithin k := by
  refine ⟨fun u => ?_, h.rounds, h.reads⟩
  by_cases hu : u = v
  · subst hu
    simpa [Cluster.setNode] using hr'
  · simpa [Cluster.setNode, hu] using h.nodes u

theorem settle (h : c.CommitsWithin k) (hs : c.Settles c') :
    c'.CommitsWithin k where
  nodes := hs.nodes ▸ h.nodes
  rounds := by
    intro round' hmem i
    obtain ⟨round, hround, hsettles⟩ := exists_of_forall₂ hs.rounds hmem
    exact (hsettles.threads i).commitsWithin (h.rounds round hround i)
  reads := by
    intro read' hmem i
    obtain ⟨read, hread, hsettles⟩ := exists_of_forall₂ hs.reads hmem
    exact (hsettles.threads i).commitsWithin (h.reads read hread i)

/-- One thread of a round changes. -/
theorem setThread (h : c.CommitsWithin k) {j : ℕ} {i : Fin n}
    {round round' : Round n Image} {thread : PeerThread n Image}
    (hr : c.rounds[j]? = some round)
    (hround' : round'.threads = Function.update round.threads i thread)
    (hthread : thread.CommitsWithin k) :
    (c.setRound j round').CommitsWithin k := by
  refine ⟨h.nodes, forall_mem_set h.rounds fun i' => ?_, h.reads⟩
  rw [hround']
  by_cases hi : i' = i
  · subst hi
    simpa using hthread
  · simpa [hi] using h.rounds round (List.mem_of_getElem? hr) i'

/-- One thread of a `ReadIndex` changes. -/
theorem setReadThread (h : c.CommitsWithin k) {q : ℕ} {i : Fin n}
    {read read' : ReadCall n} {thread : ReadThread n}
    (hq : c.reads[q]? = some read)
    (hread' : read'.threads = Function.update read.threads i thread)
    (hthread : thread.CommitsWithin k) :
    (c.setRead q read').CommitsWithin k := by
  refine ⟨h.nodes, h.rounds, forall_mem_set h.reads fun i' => ?_⟩
  rw [hread']
  by_cases hi : i' = i
  · subst hi
    simpa using hthread
  · simpa [hi] using h.reads read (List.mem_of_getElem? hq) i'

theorem of_round (h : c.CommitsWithin k) {j : ℕ} {i : Fin n}
    {round : Round n Image} {thread : PeerThread n Image}
    (hr : c.rounds[j]? = some round) (hthread : round.threads i = thread) :
    thread.CommitsWithin k :=
  hthread ▸ h.rounds round (List.mem_of_getElem? hr) i

theorem of_read (h : c.CommitsWithin k) {q : ℕ} {i : Fin n}
    {read : ReadCall n} {thread : ReadThread n} (hq : c.reads[q]? = some read)
    (hthread : read.threads i = thread) : thread.CommitsWithin k :=
  hthread ▸ h.reads read (List.mem_of_getElem? hq) i

end CommitsWithin

end Cluster

/-! ## Runs -/

/-- A move that commits nothing behind `k` spreads nothing behind `k`. -/
theorem Move.commitsWithin {D : Discipline n Image} {c c' : Cluster n Image}
    {es : List (Event n Image)} (h : Move D c c' es)
    (hes : CoversCommits es k) (hc : c.CommitsWithin k) :
    c'.CommitsWithin k := by
  induction h with
  | trans _ _ ih₁ ih₂ =>
      refine ih₂ (fun s r hmem => ?_) (ih₁ (fun s r hmem => ?_) hc)
      · exact hes s r (List.mem_append_right _ hmem)
      · exact hes s r (List.mem_append_left _ hmem)
  | settle hs => exact hc.settle hs
  | quiet v r' hquiet _ =>
      exact hc.setNode v
        ((hc.nodes v).of_same hquiet.log hquiet.commit hquiet.disk)
  | restart v p hp =>
      exact { hc.setNode v ((hc.nodes v).init v hp) with }
  | candidacy v r' args hstep =>
      obtain ⟨hstored, -, -, -, -, hlog, hcommit, -⟩ :=
        Raft.doElection_eq_some hstep
      exact { hc.setNode v
        ((hc.nodes v).of_same hlog hcommit (.inl hstored)) with }
  | grant e election i r' reply _ _ hgrants =>
      exact { hc.setNode i ((hc.nodes i).of_same hgrants.log hgrants.commit
        (.inl hgrants.stored)) with }
  | count => exact { hc with }
  | win e election i r' reply _ _ hwins =>
      obtain rfl := hwins.eq
      exact { hc.setNode election.candidate
        (hc.nodes election.candidate).becomeLeader with }
  | extend v command _ =>
      exact hc.setNode v (.of_stored (Raft.stored_persist _)
        (hc.nodes v).commit (hc.nodes v).boundary)
  | heartbeat v _ =>
      exact ⟨hc.nodes, forall_mem_concat hc.rounds fun i =>
        heartBeatThread_commitsWithin (hc.nodes v).commit, hc.reads⟩
  | acceptRound j round i args r' reply hr hthread _ haccepts =>
      have hargs : args.leaderCommit ≤ k := hc.of_round hr hthread
      refine (hc.setThread hr rfl ?_).setNode i
        ((hc.nodes i).accepts hargs haccepts)
      exact hargs
  | acceptRead q read i args r' reply hq hthread _ haccepts =>
      have hargs : args.leaderCommit ≤ k := hc.of_read hq hthread
      refine (hc.setReadThread hq rfl ?_).setNode i
        ((hc.nodes i).accepts hargs haccepts)
      exact hargs
  | @tally c j round i args reply r' nums hr hthread htallies =>
      have hnode := hc.nodes round.leader
      have hargs : args.leaderCommit ≤ k := hc.of_round hr hthread
      refine (hc.setThread hr rfl ?_).setNode _
        ⟨?_, htallies.sameLog.index ▸ hnode.boundary,
          htallies.disk ▸ hnode.disk⟩
      · exact hargs
      -- a larger commit index is announced
      by_cases hlt : (c.nodes round.leader).commitIndex < r'.commitIndex
      · rw [if_pos hlt] at hes
        exact hes round.leader r' (List.mem_singleton.mpr rfl)
      · exact (Nat.le_of_not_lt hlt).trans hnode.commit
  | offer j round i hr _ =>
      exact hc.setThread hr rfl (hc.nodes round.leader).boundary
  | install j round i args r' hr hthread _ hinstalls =>
      exact hc.setNode i
        ((hc.nodes i).installs (hc.of_round hr hthread) hinstalls)
  | compact v index r' hcompacts =>
      exact hc.setNode v ((hc.nodes v).compacts hcompacts)
  | handOut v r' msgs hout =>
      have hnode := hc.nodes v
      rw [(Raft.getApplyLogs_eq_ok hout).1]
      exact hc.setNode v ⟨hnode.commit, hnode.boundary, hnode.disk⟩
  | beginRead v _ =>
      refine ⟨hc.nodes, hc.rounds, forall_mem_concat hc.reads fun i => ?_⟩
      simp only [ReadCall.begun]
      split <;> trivial
  | sendRead q read i args hq _ hargs =>
      exact hc.setReadThread hq rfl
        (readIndexArgs_commitsWithin (hc.nodes read.server).commit hargs)
  | confirm q read i args reply hq _ _ =>
      exact hc.setReadThread hq rfl trivial
  | returnRead q read hq _ _ _ =>
      exact ⟨hc.nodes, hc.rounds, forall_mem_set hc.reads fun i =>
        hc.reads read (List.mem_of_getElem? hq) i⟩

/-- In every run the leaders' commits bound what any server has committed,
compacted or handed out. -/
theorem commits_of_leaders {as : List (Action n Image)} {c : Cluster n Image}
    {es : List (Event n Image)}
    (hrun : (Cluster.start n Image).run as = some (c, es))
    (hes : CoversCommits es k) :
    c.CommitsWithin k ∧ ∀ v, (c.nodes v).lastApplied ≤ k := by
  have hwithin : CoversCommits es k → c.CommitsWithin k := by
    refine run_history (P := fun _ _ => True)
      (I := fun c es => CoversCommits es k → c.CommitsWithin k) ?_
      (throughout_true _ as) (fun _ => .start) hrun
    intro c es a c' es' _ hc hstep hes
    refine (Cluster.step_move (obeys_free c a) hstep).commitsWithin ?_ (hc ?_)
    · exact fun s r hmem => hes s r (List.mem_append_right _ hmem)
    · exact fun s r hmem => hes s r (List.mem_append_left _ hmem)
  refine ⟨hwithin hes, fun v => ?_⟩
  have hnode := (hwithin hes).nodes v
  exact ((ordered_of_run hrun).nodes v).committed.trans
    (Nat.max_le.mpr ⟨hnode.commit, hnode.boundary⟩)

end KVRaftStorage
