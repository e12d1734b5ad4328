import KVRaftStorage.Raft.Node
import Mathlib.Data.Fintype.Basic

/-!
# The handlers of `class Raft`

Each definition is one function of `raft.cpp` between taking and releasing
`m_mtx`.  Functions that release the lock around an RPC are cut in two: the
part that builds the request and the part that processes the reply.  Timers,
metrics and log output are left out.
-/

namespace KVRaftStorage

namespace Raft

variable {n : ℕ} {Image : Type}

/-! ## Election -/

/-- `doElection`: the new candidate and the arguments sent to every peer.  A
leader does nothing. -/
def doElection (r : Raft n Image) :
    Raft n Image × Option (RequestVoteArgs n) :=
  if r.status = .leader then
    (r, none)
  else
    let r := ({ r with
      status := .candidate
      currentTerm := r.currentTerm + 1
      votedFor := some r.me } : Raft n Image).persist
    (r, some
      { term := r.currentTerm
        candidateId := r.me
        lastLogIndex := r.getLastLogIndex
        lastLogTerm := r.getLastLogTerm })

/-- `RequestVote`.  The deferred `persist()` runs on every return. -/
def requestVote (r : Raft n Image) (args : RequestVoteArgs n) :
    Exec n Image (Raft n Image × RequestVoteReply) :=
  if args.term < r.currentTerm then
    .ok (r.persist,
      { term := r.currentTerm, voteGranted := false, voteState := .expire })
  else do
    let r := r.observeTerm args.term
    r.myAssert (args.term = r.currentTerm)
    if r.upToDate args.lastLogIndex args.lastLogTerm = false then
      return (r.persist,
        { term := r.currentTerm, voteGranted := false, voteState := .voted })
    else if r.votedFor ≠ none ∧ r.votedFor ≠ some args.candidateId then
      return (r.persist,
        { term := r.currentTerm, voteGranted := false, voteState := .voted })
    else
      let r := { r with votedFor := some args.candidateId }
      return (r.persist,
        { term := r.currentTerm, voteGranted := true, voteState := .normal })

/-- The `Noop` operation of a new leader. -/
def noop (term : ℕ) : Op where
  operation := "Noop"
  key := ""
  value := ""
  clientId := "__raft_noop__"
  requestId := term
  ttlMs := 0
  expireAtMs := 0

/-- Append `command` at the next index in the current term. -/
def appendEntry (r : Raft n Image) (command : Op) : Raft n Image :=
  { r with
    logs := r.logs ++ [
      { command := command
        logTerm := r.currentTerm
        logIndex := r.getNewCommandIndex }] }

def appendNoopEntryLocked (r : Raft n Image) : Raft n Image :=
  r.appendEntry (noop r.currentTerm)

/-- The branch of `sendRequestVote` taken when the votes reach a majority. -/
def becomeLeader (r : Raft n Image) : Raft n Image :=
  ({ r with
    status := .leader
    nextIndex := fun _ => r.getLastLogIndex + 1
    matchIndex := fun _ => 0 } : Raft n Image).appendNoopEntryLocked.persist

/-- `sendRequestVote` after the RPC returned: the node and the shared counter
`*votedNum`. -/
def sendRequestVote (r : Raft n Image) (votedNum : ℕ)
    (reply : RequestVoteReply) : Exec n Image (Raft n Image × ℕ) :=
  if r.currentTerm < reply.term then
    .ok ((r.followTerm reply.term).persist, votedNum)
  else if reply.term < r.currentTerm then
    .ok (r, votedNum)
  else do
    r.myAssert (reply.term = r.currentTerm)
    if reply.voteGranted = false then
      return (r, votedNum)
    else if n / 2 + 1 ≤ votedNum + 1 then
      r.myAssert (r.status ≠ .leader)
      return (r.becomeLeader, 0)
    else
      return (r, votedNum + 1)

/-! ## Replication -/

/-- `Start`: the index and term of the new entry, or nothing on a node that is
not the leader. -/
def start (r : Raft n Image) (command : Op) :
    Raft n Image × Option (ℕ × ℕ) :=
  if r.status = .leader then
    ((r.appendEntry command).persist,
      some (r.getNewCommandIndex, r.currentTerm))
  else
    (r, none)

/-- One iteration of the merge loop of `AppendEntries1`. -/
def mergeEntry (r : Raft n Image) (log : LogEntry) :
    Exec n Image (Raft n Image) :=
  if r.getLastLogIndex < log.logIndex then
    .ok { r with logs := r.logs ++ [log] }
  else do
    let slice ← r.getSlicesIndexFromLogIndex log.logIndex
    let here ← r.entryAt log.logIndex
    r.myAssert (¬(here.logTerm = log.logTerm ∧ here.command ≠ log.command))
    if here.logTerm ≠ log.logTerm then
      -- only this slot is overwritten; the entries behind it stay
      return { r with logs := r.logs.set slice log }
    else
      return r

/-- The back-up loop of a mismatch, looking at `lastSnapshotIncludeIndex + k`
and below. -/
def backUp (r : Raft n Image) (prevLogIndex prevTerm : ℕ) :
    ℕ → Exec n Image ℕ
  | 0 => do
      let term ← r.getLogTermFromLogIndex r.lastSnapshotIncludeIndex
      if term ≠ prevTerm then
        return r.lastSnapshotIncludeIndex + 1
      else
        return prevLogIndex
  | k + 1 => do
      let term ← r.getLogTermFromLogIndex (r.lastSnapshotIncludeIndex + (k + 1))
      if term ≠ prevTerm then
        return r.lastSnapshotIncludeIndex + (k + 1) + 1
      else
        r.backUp prevLogIndex prevTerm k

/-- The branch of `AppendEntries1` behind a successful `matchLog`. -/
def mergeEntries (r : Raft n Image) (args : AppendEntriesArgs n) :
    Exec n Image (Raft n Image) := do
  let r ← args.entries.foldlM mergeEntry r
  r.myAssert (args.prevLogIndex + args.entries.length ≤ r.getLastLogIndex)
  let r :=
    if r.commitIndex < args.leaderCommit then
      { r with commitIndex := min args.leaderCommit r.getLastLogIndex }
    else r
  r.myAssert (r.commitIndex ≤ r.getLastLogIndex)
  return r

def appendEntriesReply (r : Raft n Image) (success : Bool)
    (updateNextIndex : ℤ) : AppendEntriesReply where
  term := r.currentTerm
  success := success
  updateNextIndex := updateNextIndex
  appState := .appNormal

/-- The part of `AppendEntries1` behind the term check.  The deferred
`persist()` runs on every return. -/
def examineEntries (r : Raft n Image) (args : AppendEntriesArgs n) :
    Exec n Image (Raft n Image × AppendEntriesReply) :=
  if r.getLastLogIndex < args.prevLogIndex then
    .ok (r.persist, r.appendEntriesReply false (r.getLastLogIndex + 1))
  else if args.prevLogIndex < r.lastSnapshotIncludeIndex then
    .ok (r.persist,
      r.appendEntriesReply false (r.lastSnapshotIncludeIndex + 1))
  else do
    let matched ← r.matchLog args.prevLogIndex args.prevLogTerm
    if matched then
      let r ← r.mergeEntries args
      -- `UpdateNextIndex` is left at its default
      return (r.persist, r.appendEntriesReply true 0)
    else
      let prevTerm ← r.getLogTermFromLogIndex args.prevLogIndex
      let updateNextIndex ← r.backUp args.prevLogIndex prevTerm
        (args.prevLogIndex - r.lastSnapshotIncludeIndex)
      return (r.persist, r.appendEntriesReply false updateNextIndex)

/-- The node in which `AppendEntries1` examines the log. -/
def enterTerm (r : Raft n Image) (term : ℕ) : Raft n Image :=
  { r.observeTerm term with status := .follower }

/-- `AppendEntries1`. -/
def appendEntries1 (r : Raft n Image) (args : AppendEntriesArgs n) :
    Exec n Image (Raft n Image × AppendEntriesReply) :=
  if args.term < r.currentTerm then
    -- the only return without `persist()`
    .ok (r, r.appendEntriesReply false (-100))
  else do
    (r.observeTerm args.term).myAssert
      (args.term = (r.observeTerm args.term).currentTerm)
    (r.enterTerm args.term).examineEntries args

/-- The entries `doHeartBeat` copies into a request. -/
def entriesAfter (r : Raft n Image) (preLogIndex : ℕ) :
    Exec n Image (List LogEntry) :=
  if preLogIndex ≠ r.lastSnapshotIncludeIndex then do
    let slice ← r.getSlicesIndexFromLogIndex preLogIndex
    return r.logs.drop (slice + 1)
  else
    return r.logs

/-- The request `doHeartBeat` builds for one peer. -/
def heartBeatArgs (r : Raft n Image) (server : Fin n) :
    Exec n Image (AppendEntriesArgs n) := do
  let (preLogIndex, prevLogTerm) ← r.getPrevLogInfo server
  let entries ← r.entriesAfter preLogIndex
  r.myAssert (preLogIndex + entries.length = r.getLastLogIndex)
  return {
    term := r.currentTerm
    leaderId := r.me
    prevLogIndex := preLogIndex
    prevLogTerm := prevLogTerm
    entries := entries
    leaderCommit := r.commitIndex }

/-- The body of the loop of `doHeartBeat` for one peer: `none` starts a
`leaderSendSnapShot` thread, otherwise `sendAppendEntries` is started. -/
def heartBeatTo (r : Raft n Image) (server : Fin n) :
    Exec n Image (Option (AppendEntriesArgs n)) := do
  r.myAssert (1 ≤ r.nextIndex server)
  if r.nextIndex server ≤ r.lastSnapshotIncludeIndex then
    return none
  else
    let args ← r.heartBeatArgs server
    return some args

/-- `sendAppendEntries` after the RPC returned: the node and the shared
counter `*appendNums`. -/
def sendAppendEntries (r : Raft n Image) (server : Fin n)
    (args : AppendEntriesArgs n) (reply : AppendEntriesReply)
    (appendNums : ℕ) : Exec n Image (Raft n Image × ℕ) :=
  if reply.appState = .disconnected then
    .ok (r, appendNums)
  else if r.currentTerm < reply.term then
    -- no `persist()` here
    .ok (r.followTerm reply.term, appendNums)
  else if reply.term < r.currentTerm then
    .ok (r, appendNums)
  else if r.status ≠ .leader then
    .ok (r, appendNums)
  else do
    r.myAssert (reply.term = r.currentTerm)
    if reply.success = false then
      if reply.updateNextIndex ≠ -100 then
        return ({ r with
          nextIndex :=
            Function.update r.nextIndex server reply.updateNextIndex.toNat },
          appendNums)
      else
        return (r, appendNums)
    else
      let matchIndex := max (r.matchIndex server)
        (args.prevLogIndex + args.entries.length)
      let r := { r with
        matchIndex := Function.update r.matchIndex server matchIndex
        nextIndex := Function.update r.nextIndex server (matchIndex + 1) }
      r.myAssert (r.nextIndex server ≤ r.getLastLogIndex + 1)
      if 1 + n / 2 ≤ appendNums + 1 then
        let r :=
          if args.entries.getLast?.map LogEntry.logTerm = some r.currentTerm then
            { r with
              commitIndex :=
                max r.commitIndex (args.prevLogIndex + args.entries.length) }
          else r
        r.myAssert (r.commitIndex ≤ r.getLastLogIndex)
        return (r, 0)
      else
        return (r, appendNums + 1)

/-- The loop of `getApplyLogs`, with the number of entries still to hand
out. -/
def applyLogs (r : Raft n Image) : ℕ → Exec n Image (Raft n Image × List (ℕ × Op))
  | 0 => .ok (r, [])
  | k + 1 => do
      let r := { r with lastApplied := r.lastApplied + 1 }
      let entry ← r.entryAt r.lastApplied
      r.myAssert (entry.logIndex = r.lastApplied)
      let (r', rest) ← r.applyLogs k
      return (r', (r.lastApplied, entry.command) :: rest)

/-- `getApplyLogs`: the commands handed out, with their indices. -/
def getApplyLogs (r : Raft n Image) :
    Exec n Image (Raft n Image × List (ℕ × Op)) := do
  r.myAssert (r.commitIndex ≤ r.getLastLogIndex)
  r.applyLogs (r.commitIndex - r.lastApplied)

/-! ## ReadIndex -/

/-- The request of one confirmation thread of `ReadIndex`; `none` when the
thread gives up. -/
def readIndexArgs (r : Raft n Image) (savedTerm : ℕ) (server : Fin n) :
    Exec n Image (Option (AppendEntriesArgs n)) :=
  if r.currentTerm ≠ savedTerm ∨ r.status ≠ .leader then
    .ok none
  else if r.nextIndex server ≤ r.lastSnapshotIncludeIndex then
    .ok none
  else do
    let (preLogIndex, preTerm) ← r.getPrevLogInfo server
    return some {
      term := r.currentTerm
      leaderId := r.me
      prevLogIndex := preLogIndex
      prevLogTerm := preTerm
      entries := []
      leaderCommit := r.commitIndex }

/-- Whether a reply raises `confirmCount`. -/
def confirms (reply : AppendEntriesReply) : Bool :=
  reply.appState ≠ .disconnected && reply.success

/-! ## Snapshots -/

/-- `Snapshot(index, snapshot)`. -/
def snapshot (r : Raft n Image) (index : ℕ) (image : Option Image) :
    Exec n Image (Raft n Image) :=
  if index ≤ r.lastSnapshotIncludeIndex ∨ r.commitIndex < index then
    .ok r
  else do
    let lastLogIndex := r.getLastLogIndex
    let entry ← r.entryAt index
    let trunckedLogs ←
      (List.range' (index + 1) (r.getLastLogIndex - index)).mapM r.entryAt
    let r := ({ r with
      lastSnapshotIncludeIndex := index
      lastSnapshotIncludeTerm := entry.logTerm
      logs := trunckedLogs
      commitIndex := max r.commitIndex index
      lastApplied := max r.lastApplied index } : Raft n Image).save image
    r.myAssert (r.logs.length + r.lastSnapshotIncludeIndex = lastLogIndex)
    return r

/-- The request built by `leaderSendSnapShot` under the lock.  The leadership
is not checked again here. -/
def leaderSendSnapShot (r : Raft n Image) : InstallSnapshotRequest n Image where
  leaderId := r.me
  term := r.currentTerm
  lastSnapShotIncludeIndex := r.lastSnapshotIncludeIndex
  lastSnapShotIncludeTerm := r.lastSnapshotIncludeTerm
  data := r.persister.snapshot

/-- `leaderSendSnapShot` after the RPC returned. -/
def snapShotSent (r : Raft n Image) (server : Fin n)
    (args : InstallSnapshotRequest n Image) (reply : InstallSnapshotResponse) :
    Raft n Image :=
  if r.status ≠ .leader ∨ r.currentTerm ≠ args.term then
    r
  else if r.currentTerm < reply.term then
    (r.followTerm reply.term).persist
  else
    { r with
      matchIndex :=
        Function.update r.matchIndex server args.lastSnapShotIncludeIndex
      nextIndex :=
        Function.update r.nextIndex server (args.lastSnapShotIncludeIndex + 1) }

/-- The first part of `InstallSnapshot`: a larger term is taken over and
stored at once. -/
def installTerm (r : Raft n Image) (term : ℕ) : Raft n Image :=
  if r.currentTerm < term then (r.followTerm term).persist else r

/-- The entries `InstallSnapshot` keeps behind the new boundary. -/
def logsBehind (r : Raft n Image) (index : ℕ) : Exec n Image (List LogEntry) :=
  if index < r.getLastLogIndex then do
    let slice ← r.getSlicesIndexFromLogIndex index
    return r.logs.drop (slice + 1)
  else
    return []

/-- The part of `InstallSnapshot` behind the comparison of the indices. -/
def takeSnapshot (r : Raft n Image) (args : InstallSnapshotRequest n Image) :
    Exec n Image (Raft n Image × InstallSnapshotResponse ×
      Option (ApplyMsg Image)) := do
  let logs ← r.logsBehind args.lastSnapShotIncludeIndex
  let r := { r with
    logs := logs
    commitIndex := max r.commitIndex args.lastSnapShotIncludeIndex
    lastApplied := max r.lastApplied args.lastSnapShotIncludeIndex
    lastSnapshotIncludeIndex := args.lastSnapShotIncludeIndex
    lastSnapshotIncludeTerm := args.lastSnapShotIncludeTerm }
  return (r.save args.data, { term := r.currentTerm },
    some (.snapshot args.data args.lastSnapShotIncludeTerm
      args.lastSnapShotIncludeIndex))

/-- The node in which `InstallSnapshot` compares the indices. -/
def enterSnapshot (r : Raft n Image) (term : ℕ) : Raft n Image :=
  { r.installTerm term with status := .follower }

/-- `InstallSnapshot`, with the message pushed to the server if any. -/
def installSnapshot (r : Raft n Image)
    (args : InstallSnapshotRequest n Image) :
    Exec n Image (Raft n Image × InstallSnapshotResponse ×
      Option (ApplyMsg Image)) :=
  if args.term < r.currentTerm then
    .ok (r, { term := r.currentTerm }, none)
  else if args.lastSnapShotIncludeIndex ≤
      (r.enterSnapshot args.term).lastSnapshotIncludeIndex then
    -- the reply keeps its default term
    .ok (r.enterSnapshot args.term, { term := 0 }, none)
  else
    (r.enterSnapshot args.term).takeSnapshot args

end Raft

end KVRaftStorage
