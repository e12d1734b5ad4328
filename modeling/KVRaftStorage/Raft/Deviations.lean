import KVRaftStorage.Raft.Cluster

/-!
# Where the handlers leave the protocol

A log is looked up here by index, with the snapshot boundary counting as
present.  Five branches of the handlers do less than the protocol needs.  Each
is described by a condition on the node before the step and on the message it
works on, and then lifted to the actions of the cluster.
-/

namespace KVRaftStorage

namespace Raft

variable {n : ℕ} {Image : Type}

/-- The entry the node still holds at `i`. -/
def entryAt? (r : Raft n Image) (i : ℕ) : Option LogEntry :=
  if r.lastSnapshotIncludeIndex < i then
    r.logs[i - r.lastSnapshotIncludeIndex - 1]?
  else none

/-- The term at `i`, as long as `i` is an entry or the snapshot boundary. -/
def termAt? (r : Raft n Image) (i : ℕ) : Option ℕ :=
  if i = r.lastSnapshotIncludeIndex then some r.lastSnapshotIncludeTerm
  else (r.entryAt? i).map LogEntry.logTerm

theorem entryAt_eq_ok {r : Raft n Image} {i : ℕ} {entry : LogEntry}
    (h : r.entryAt i = .ok entry) :
    r.lastSnapshotIncludeIndex < i ∧ i ≤ r.getLastLogIndex ∧
      r.entryAt? i = some entry := by
  simp only [entryAt, getSlicesIndexFromLogIndex, exec_bind_eq_ok,
    myAssert_eq_ok, exec_pure_eq_ok] at h
  obtain ⟨slice, ⟨-, hlt, -, hle, rfl⟩, h⟩ := h
  refine ⟨hlt, hle, ?_⟩
  rw [entryAt?, if_pos hlt]
  split at h
  · next e he =>
      rw [he, exec_pure_eq_ok.mp h]
  · simp at h

theorem getLogTermFromLogIndex_eq_ok {r : Raft n Image} {i term : ℕ}
    (h : r.getLogTermFromLogIndex i = .ok term) :
    r.lastSnapshotIncludeIndex ≤ i ∧ i ≤ r.getLastLogIndex ∧
      r.termAt? i = some term := by
  simp only [getLogTermFromLogIndex, exec_bind_eq_ok, myAssert_eq_ok] at h
  obtain ⟨-, hle, -, hlast, h⟩ := h
  refine ⟨hle, hlast, ?_⟩
  rw [termAt?]
  split at h
  · next heq =>
      rw [if_pos heq, exec_pure_eq_ok.mp h]
  · next hne =>
      rw [if_neg hne]
      rw [exec_bind_eq_ok] at h
      obtain ⟨entry, hentry, h⟩ := h
      rw [(entryAt_eq_ok hentry).2.2, Option.map_some, exec_pure_eq_ok.mp h]

/-! ## The branches -/

/-- The request passes the term check and `matchLog`, so the merge loop
runs. -/
def ReachesMerge (r : Raft n Image) (args : AppendEntriesArgs n) : Prop :=
  r.currentTerm ≤ args.term ∧
    r.lastSnapshotIncludeIndex ≤ args.prevLogIndex ∧
    args.prevLogIndex ≤ r.getLastLogIndex ∧
    r.termAt? args.prevLogIndex = some args.prevLogTerm

instance (r : Raft n Image) (args : AppendEntriesArgs n) :
    Decidable (r.ReachesMerge args) :=
  inferInstanceAs (Decidable (_ ∧ _))

/-- The merge loop overwrites a conflicting slot and leaves entries behind the
last carried one in place. -/
def KeepsStaleEntries (r : Raft n Image) (args : AppendEntriesArgs n) : Prop :=
  r.ReachesMerge args ∧
    args.prevLogIndex + args.entries.length < r.getLastLogIndex ∧
    ∃ log ∈ args.entries, r.termAt? log.logIndex ≠ some log.logTerm

instance (r : Raft n Image) (args : AppendEntriesArgs n) :
    Decidable (r.KeepsStaleEntries args) :=
  inferInstanceAs (Decidable (_ ∧ _))

/-- The commit index is raised behind the last carried entry, to an entry that
the leader of the request's term did not append itself. -/
def CommitsUnverified (r : Raft n Image) (args : AppendEntriesArgs n) : Prop :=
  r.ReachesMerge args ∧ r.commitIndex < args.leaderCommit ∧
    args.prevLogIndex + args.entries.length <
      min args.leaderCommit r.getLastLogIndex ∧
    r.termAt? (min args.leaderCommit r.getLastLogIndex) ≠ some args.term

instance (r : Raft n Image) (args : AppendEntriesArgs n) :
    Decidable (r.CommitsUnverified args) :=
  inferInstanceAs (Decidable (_ ∧ _))

/-- `InstallSnapshot` keeps the entries behind the snapshot although the entry
at its index is not the snapshot's last one. -/
def KeepsForeignEntries (r : Raft n Image)
    (args : InstallSnapshotRequest n Image) : Prop :=
  r.currentTerm ≤ args.term ∧
    r.lastSnapshotIncludeIndex < args.lastSnapShotIncludeIndex ∧
    args.lastSnapShotIncludeIndex < r.getLastLogIndex ∧
    r.termAt? args.lastSnapShotIncludeIndex ≠ some args.lastSnapShotIncludeTerm

instance (r : Raft n Image) (args : InstallSnapshotRequest n Image) :
    Decidable (r.KeepsForeignEntries args) :=
  inferInstanceAs (Decidable (_ ∧ _))

/-- `sendAppendEntries` takes over a larger term, which it does not store. -/
def StepsDown (r : Raft n Image) (reply : AppendEntriesReply) : Prop :=
  reply.appState ≠ .disconnected ∧ r.currentTerm < reply.term

instance (r : Raft n Image) (reply : AppendEntriesReply) :
    Decidable (r.StepsDown reply) :=
  inferInstanceAs (Decidable (_ ∧ _))

/-- `ReadIndex` records a commit index whose entry is of an earlier term. -/
def ReadsBehind (r : Raft n Image) : Prop :=
  r.status = .leader ∧ r.termAt? r.commitIndex ≠ some r.currentTerm

instance (r : Raft n Image) : Decidable r.ReadsBehind :=
  inferInstanceAs (Decidable (_ ∧ _))

end Raft

/-! ## The messages an action works on -/

namespace Cluster

variable {n : ℕ} {Image : Type}

/-- The receiver and the arguments of an `AppendEntries1` that the action
executes. -/
def appendRequest? (c : Cluster n Image) :
    Action n Image → Option (Fin n × AppendEntriesArgs n)
  | .appendEntries h i => do
      let round ← c.rounds[h]?
      match round.threads i with
      | .append args .sent => some (i, args)
      | _ => none
  | .readAppendEntries q i => do
      let read ← c.reads[q]?
      match read.threads i with
      | .append args .sent => some (i, args)
      | _ => none
  | _ => none

/-- The receiver and the arguments of an `InstallSnapshot` that the action
executes. -/
def installRequest? (c : Cluster n Image) :
    Action n Image → Option (Fin n × InstallSnapshotRequest n Image)
  | .installSnapshot h i => do
      let round ← c.rounds[h]?
      match round.threads i with
      | .snapshot args .sent => some (i, args)
      | _ => none
  | _ => none

/-- The leader and the reply that a `sendAppendEntries` processes. -/
def appendReply? (c : Cluster n Image) :
    Action n Image → Option (Fin n × AppendEntriesReply)
  | .sendAppendEntries h i => do
      let round ← c.rounds[h]?
      match round.threads i with
      | .append _ (.replied reply) => some (round.leader, reply)
      | _ => none
  | _ => none

/-- No `AppendEntries1` leaves stale entries and no `InstallSnapshot` keeps
foreign ones. -/
def TruncatesLogs (c : Cluster n Image) (a : Action n Image) : Prop :=
  (∀ m ∈ c.appendRequest? a, ¬(c.nodes m.1).KeepsStaleEntries m.2) ∧
    ∀ m ∈ c.installRequest? a, ¬(c.nodes m.1).KeepsForeignEntries m.2

instance (c : Cluster n Image) (a : Action n Image) :
    Decidable (c.TruncatesLogs a) :=
  inferInstanceAs (Decidable (_ ∧ _))

/-- In addition no `AppendEntries1` commits an entry it did not compare. -/
def FollowsProtocol (c : Cluster n Image) (a : Action n Image) : Prop :=
  c.TruncatesLogs a ∧
    ∀ m ∈ c.appendRequest? a, ¬(c.nodes m.1).CommitsUnverified m.2

instance (c : Cluster n Image) (a : Action n Image) :
    Decidable (c.FollowsProtocol a) :=
  inferInstanceAs (Decidable (_ ∧ _))

/-- No `sendAppendEntries` takes over a larger term. -/
def StoresTerms (c : Cluster n Image) (a : Action n Image) : Prop :=
  ∀ m ∈ c.appendReply? a, ¬(c.nodes m.1).StepsDown m.2

instance (c : Cluster n Image) (a : Action n Image) :
    Decidable (c.StoresTerms a) :=
  inferInstanceAs (Decidable (∀ m ∈ c.appendReply? a, _))

end Cluster

end KVRaftStorage
