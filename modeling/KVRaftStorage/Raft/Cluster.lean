import KVRaftStorage.Raft.Handlers
import KVRaftStorage.Support.Transition

/-!
# The cluster as a transition system

The state holds every node and every RPC thread that was ever started.  The
threads of one `doElection` share the counter `votedNum`, those of one
`doHeartBeat` share `appendNums`, and those of one `ReadIndex` share
`confirmCount`; each group is one record with one thread for every peer.

A request that was sent stays deliverable, and a reply that was produced stays
processable, until the step is taken.  Loss, delay and reordering are therefore
choices of the run.  A reply is processed only while the process that sent the
request is still the same one, which `boots` keeps track of.  A crash restarts
the node through `init` on the content of its persister.
-/

namespace KVRaftStorage

/-- One RPC as its calling thread sees it. -/
inductive Call (Reply : Type) where
  | sent
  | replied (reply : Reply)
  | done
deriving DecidableEq

/-- What comes back to `leaderSendSnapShot`: its RPC fails when the reply is
empty. -/
def InstallSnapshotResponse.received (reply : InstallSnapshotResponse) :
    Call InstallSnapshotResponse :=
  if reply.isEmpty then .done else .replied reply

theorem InstallSnapshotResponse.received_eq_replied
    {reply reply' : InstallSnapshotResponse} :
    reply.received = .replied reply' ↔ reply.isEmpty = false ∧ reply = reply' := by
  unfold received
  split
  · next h => simp [h]
  · next h => simp [h]

/-- The threads started by one `doElection`. -/
structure Election (n : ℕ) where
  candidate : Fin n
  boot : ℕ
  args : RequestVoteArgs n
  votedNum : ℕ
  calls : Fin n → Call RequestVoteReply

/-- A thread started by `doHeartBeat` for one peer. -/
inductive PeerThread (n : ℕ) (Image : Type) where
  | idle
  | append (args : AppendEntriesArgs n) (call : Call AppendEntriesReply)
  /-- `leaderSendSnapShot` before it takes the lock -/
  | waiting
  | snapshot (args : InstallSnapshotRequest n Image)
      (call : Call InstallSnapshotResponse)

/-- The threads started by one `doHeartBeat`. -/
structure Round (n : ℕ) (Image : Type) where
  leader : Fin n
  boot : ℕ
  appendNums : ℕ
  threads : Fin n → PeerThread n Image

/-- A confirmation thread of `ReadIndex`. -/
inductive ReadThread (n : ℕ) where
  | waiting
  | append (args : AppendEntriesArgs n) (call : Call AppendEntriesReply)
  | done

/-- One call of `ReadIndex` on a leader. -/
structure ReadCall (n : ℕ) where
  server : Fin n
  boot : ℕ
  savedTerm : ℕ
  readIndex : ℕ
  confirmCount : ℕ
  returned : Bool
  threads : Fin n → ReadThread n

structure Cluster (n : ℕ) (Image : Type) where
  nodes : Fin n → Raft n Image
  boots : Fin n → ℕ
  elections : List (Election n)
  rounds : List (Round n Image)
  reads : List (ReadCall n)

/-- What can happen next.  Threads are named by the position of their group
and the peer they talk to. -/
inductive Action (n : ℕ) (Image : Type) where
  | doElection (s : Fin n)
  | requestVote (e : ℕ) (i : Fin n)
  | sendRequestVote (e : ℕ) (i : Fin n)
  | start (s : Fin n) (command : Op)
  | doHeartBeat (s : Fin n)
  | appendEntries (h : ℕ) (i : Fin n)
  | sendAppendEntries (h : ℕ) (i : Fin n)
  | leaderSendSnapShot (h : ℕ) (i : Fin n)
  | installSnapshot (h : ℕ) (i : Fin n)
  /-- the receiver dies between the two writes of `InstallSnapshot` -/
  | installSnapshotCrash (h : ℕ) (i : Fin n)
  | snapShotSent (h : ℕ) (i : Fin n)
  | snapshot (s : Fin n) (index : ℕ) (image : Option Image)
  | applierTicker (s : Fin n)
  | readIndex (s : Fin n)
  | readIndexSend (q : ℕ) (i : Fin n)
  | readAppendEntries (q : ℕ) (i : Fin n)
  | readIndexReply (q : ℕ) (i : Fin n)
  | readIndexReturn (q : ℕ)
  | restart (s : Fin n)

/-- What a run makes visible to its specification. -/
inductive Event (n : ℕ) (Image : Type) where
  /-- `m_votedFor` was set to `candidate` and stored -/
  | voted (voter : Fin n) (term : ℕ) (candidate : Fin n)
  /-- `sendRequestVote` set `m_status` to `Leader`; the node right after it -/
  | becameLeader (server : Fin n) (node : Raft n Image)
  /-- `sendAppendEntries` raised `m_commitIndex`; the node right after it -/
  | advanced (server : Fin n) (node : Raft n Image)
  /-- `getApplyLogs` handed out a command -/
  | handedOut (server : Fin n) (index : ℕ) (command : Op)
  /-- `ReadIndex` returned true -/
  | readReturned (server : Fin n) (readIndex : ℕ)

namespace Cluster

variable {n : ℕ} {Image : Type}

/-- All nodes freshly started on empty files. -/
def start (n : ℕ) (Image : Type) : Cluster n Image where
  nodes := fun s => Raft.init s ⟨none, none⟩
  boots := fun _ => 0
  elections := []
  rounds := []
  reads := []

def setNode (c : Cluster n Image) (s : Fin n) (r : Raft n Image) :
    Cluster n Image :=
  { c with nodes := Function.update c.nodes s r }

/-- The process of `s` ends with `persister` on disk and is started again. -/
def reboot (c : Cluster n Image) (s : Fin n) (persister : Persister n Image) :
    Cluster n Image :=
  { c with
    nodes := Function.update c.nodes s (Raft.init s persister)
    boots := Function.update c.boots s (c.boots s + 1) }

def setElection (c : Cluster n Image) (e : ℕ) (election : Election n) :
    Cluster n Image :=
  { c with elections := c.elections.set e election }

def setRound (c : Cluster n Image) (h : ℕ) (round : Round n Image) :
    Cluster n Image :=
  { c with rounds := c.rounds.set h round }

def setRead (c : Cluster n Image) (q : ℕ) (read : ReadCall n) :
    Cluster n Image :=
  { c with reads := c.reads.set q read }

end Cluster

def Election.setCall {n : ℕ} (election : Election n) (i : Fin n)
    (call : Call RequestVoteReply) : Election n :=
  { election with calls := Function.update election.calls i call }

def Round.setThread {n : ℕ} {Image : Type} (round : Round n Image) (i : Fin n)
    (thread : PeerThread n Image) : Round n Image :=
  { round with threads := Function.update round.threads i thread }

def ReadCall.setThread {n : ℕ} (read : ReadCall n) (i : Fin n)
    (thread : ReadThread n) : ReadCall n :=
  { read with threads := Function.update read.threads i thread }

namespace Cluster

variable {n : ℕ} {Image : Type}

/-! ## The steps -/

def doElection (c : Cluster n Image) (s : Fin n) :
    Cluster n Image × List (Event n Image) :=
  match (c.nodes s).doElection with
  | (_, none) => (c, [])
  | (r, some args) =>
      ({ c.setNode s r with
        elections := c.elections ++ [
          { candidate := s
            boot := c.boots s
            args := args
            votedNum := 1
            calls := fun i => if i = s then .done else .sent }] },
        [.voted s args.term s])

def requestVote (c : Cluster n Image) (e : ℕ) (election : Election n)
    (i : Fin n) : Cluster n Image × List (Event n Image) :=
  match (c.nodes i).requestVote election.args with
  | .error p => ((c.setElection e (election.setCall i .done)).reboot i p, [])
  | .ok (r, reply) =>
      ((c.setElection e (election.setCall i (.replied reply))).setNode i r,
        if reply.voteGranted then
          [.voted i reply.term election.args.candidateId]
        else [])

def sendRequestVote (c : Cluster n Image) (e : ℕ) (election : Election n)
    (i : Fin n) (reply : RequestVoteReply) :
    Cluster n Image × List (Event n Image) :=
  let s := election.candidate
  match (c.nodes s).sendRequestVote election.votedNum reply with
  | .error p => ((c.setElection e (election.setCall i .done)).reboot s p, [])
  | .ok (r, votedNum) =>
      ((c.setElection e
          { election.setCall i .done with votedNum := votedNum }).setNode s r,
        if (c.nodes s).status ≠ .leader ∧ r.status = .leader then
          [.becameLeader s r]
        else [])

/-- The threads a `doHeartBeat` has started when it ends or exits. -/
def heartBeatThread (r : Raft n Image) (s i : Fin n) : PeerThread n Image :=
  if i = s ∨ ∃ j, j < i ∧ j ≠ s ∧ (r.heartBeatTo j).isOk = false then
    .idle
  else
    match r.heartBeatTo i with
    | .error _ => .idle
    | .ok none => .waiting
    | .ok (some args) => .append args .sent

def doHeartBeat (c : Cluster n Image) (s : Fin n) :
    Cluster n Image × List (Event n Image) :=
  let r := c.nodes s
  if r.status ≠ .leader then
    (c, [])
  else
    let round : Round n Image :=
      { leader := s
        boot := c.boots s
        appendNums := 1
        threads := heartBeatThread r s }
    let c := { c with rounds := c.rounds ++ [round] }
    if ∃ i, i ≠ s ∧ (r.heartBeatTo i).isOk = false then
      (c.reboot s r.persister, [])
    else
      (c, [])

def appendEntries (c : Cluster n Image) (h : ℕ) (round : Round n Image)
    (i : Fin n) (args : AppendEntriesArgs n) :
    Cluster n Image × List (Event n Image) :=
  match (c.nodes i).appendEntries1 args with
  | .error p =>
      ((c.setRound h (round.setThread i (.append args .done))).reboot i p, [])
  | .ok (r, reply) =>
      ((c.setRound h
        (round.setThread i (.append args (.replied reply)))).setNode i r, [])

def sendAppendEntries (c : Cluster n Image) (h : ℕ) (round : Round n Image)
    (i : Fin n) (args : AppendEntriesArgs n) (reply : AppendEntriesReply) :
    Cluster n Image × List (Event n Image) :=
  let s := round.leader
  let finished := round.setThread i (.append args .done)
  match (c.nodes s).sendAppendEntries i args reply round.appendNums with
  | .error p => ((c.setRound h finished).reboot s p, [])
  | .ok (r, appendNums) =>
      ((c.setRound h { finished with appendNums := appendNums }).setNode s r,
        if (c.nodes s).commitIndex < r.commitIndex then
          [.advanced s r]
        else [])

def installSnapshot (c : Cluster n Image) (h : ℕ) (round : Round n Image)
    (i : Fin n) (args : InstallSnapshotRequest n Image) :
    Cluster n Image × List (Event n Image) :=
  match (c.nodes i).installSnapshot args with
  | .error p =>
      ((c.setRound h (round.setThread i (.snapshot args .done))).reboot i p, [])
  | .ok (r, reply, _) =>
      ((c.setRound h
        (round.setThread i (.snapshot args reply.received))).setNode i r, [])

def applierTicker (c : Cluster n Image) (s : Fin n) :
    Cluster n Image × List (Event n Image) :=
  match (c.nodes s).getApplyLogs with
  | .error p => (c.reboot s p, [])
  | .ok (r, msgs) => (c.setNode s r, msgs.map fun m => .handedOut s m.1 m.2)

def readIndex (c : Cluster n Image) (s : Fin n) :
    Cluster n Image × List (Event n Image) :=
  if (c.nodes s).status ≠ .leader then
    (c, [])
  else
    ({ c with
      reads := c.reads ++ [
        { server := s
          boot := c.boots s
          savedTerm := (c.nodes s).currentTerm
          readIndex := (c.nodes s).commitIndex
          confirmCount := 1
          returned := false
          threads := fun i => if i = s then .done else .waiting }] }, [])

def readIndexSend (c : Cluster n Image) (q : ℕ) (read : ReadCall n)
    (i : Fin n) : Cluster n Image × List (Event n Image) :=
  match (c.nodes read.server).readIndexArgs read.savedTerm i with
  | .error p => ((c.setRead q (read.setThread i .done)).reboot read.server p, [])
  | .ok none => (c.setRead q (read.setThread i .done), [])
  | .ok (some args) => (c.setRead q (read.setThread i (.append args .sent)), [])

def readAppendEntries (c : Cluster n Image) (q : ℕ) (read : ReadCall n)
    (i : Fin n) (args : AppendEntriesArgs n) :
    Cluster n Image × List (Event n Image) :=
  match (c.nodes i).appendEntries1 args with
  | .error p => ((c.setRead q (read.setThread i .done)).reboot i p, [])
  | .ok (r, reply) =>
      ((c.setRead q
        (read.setThread i (.append args (.replied reply)))).setNode i r, [])

def readIndexReply (c : Cluster n Image) (q : ℕ) (read : ReadCall n)
    (i : Fin n) (reply : AppendEntriesReply) :
    Cluster n Image × List (Event n Image) :=
  let finished := read.setThread i .done
  (c.setRead q
    (if Raft.confirms reply then
      { finished with confirmCount := read.confirmCount + 1 }
    else finished), [])

def readIndexReturn (c : Cluster n Image) (q : ℕ) (read : ReadCall n) :
    Cluster n Image × List (Event n Image) :=
  (c.setRead q { read with returned := true },
    if (c.nodes read.server).currentTerm ≠ read.savedTerm ∨
        (c.nodes read.server).status ≠ .leader then
      []
    else
      [.readReturned read.server read.readIndex])

/-- One step of the cluster; `none` when the action is not enabled. -/
def step (c : Cluster n Image) :
    Action n Image → Option (Cluster n Image × List (Event n Image))
  | .doElection s => some (c.doElection s)
  | .requestVote e i => do
      let election ← c.elections[e]?
      match election.calls i with
      | .sent => some (c.requestVote e election i)
      | _ => none
  | .sendRequestVote e i => do
      let election ← c.elections[e]?
      match election.calls i with
      | .replied reply =>
          if c.boots election.candidate = election.boot then
            some (c.sendRequestVote e election i reply)
          else none
      | _ => none
  | .start s command => some (c.setNode s ((c.nodes s).start command).1, [])
  | .doHeartBeat s => some (c.doHeartBeat s)
  | .appendEntries h i => do
      let round ← c.rounds[h]?
      match round.threads i with
      | .append args .sent => some (c.appendEntries h round i args)
      | _ => none
  | .sendAppendEntries h i => do
      let round ← c.rounds[h]?
      match round.threads i with
      | .append args (.replied reply) =>
          if c.boots round.leader = round.boot then
            some (c.sendAppendEntries h round i args reply)
          else none
      | _ => none
  | .leaderSendSnapShot h i => do
      let round ← c.rounds[h]?
      match round.threads i with
      | .waiting =>
          if c.boots round.leader = round.boot then
            some (c.setRound h (round.setThread i
              (.snapshot (c.nodes round.leader).leaderSendSnapShot .sent)), [])
          else none
      | _ => none
  | .installSnapshot h i => do
      let round ← c.rounds[h]?
      match round.threads i with
      | .snapshot args .sent => some (c.installSnapshot h round i args)
      | _ => none
  | .installSnapshotCrash h i => do
      let round ← c.rounds[h]?
      match round.threads i with
      | .snapshot args .sent =>
          if args.term < (c.nodes i).currentTerm then none
          else
            some ((c.setRound h
              (round.setThread i (.snapshot args .done))).reboot i
                ((c.nodes i).installTerm args.term).persister, [])
      | _ => none
  | .snapShotSent h i => do
      let round ← c.rounds[h]?
      match round.threads i with
      | .snapshot args (.replied reply) =>
          if c.boots round.leader = round.boot then
            some ((c.setRound h
              (round.setThread i (.snapshot args .done))).setNode round.leader
                ((c.nodes round.leader).snapShotSent i args reply), [])
          else none
      | _ => none
  | .snapshot s index image =>
      match (c.nodes s).snapshot index image with
      | .error p => some (c.reboot s p, [])
      | .ok r => some (c.setNode s r, [])
  | .applierTicker s => some (c.applierTicker s)
  | .readIndex s => some (c.readIndex s)
  | .readIndexSend q i => do
      let read ← c.reads[q]?
      match read.threads i with
      | .waiting =>
          if c.boots read.server = read.boot then
            some (c.readIndexSend q read i)
          else none
      | _ => none
  | .readAppendEntries q i => do
      let read ← c.reads[q]?
      match read.threads i with
      | .append args .sent => some (c.readAppendEntries q read i args)
      | _ => none
  | .readIndexReply q i => do
      let read ← c.reads[q]?
      match read.threads i with
      | .append _ (.replied reply) =>
          if c.boots read.server = read.boot then
            some (c.readIndexReply q read i reply)
          else none
      | _ => none
  | .readIndexReturn q => do
      let read ← c.reads[q]?
      if c.boots read.server = read.boot ∧ read.returned = false ∧
          n / 2 + 1 ≤ read.confirmCount then
        some (c.readIndexReturn q read)
      else none
  | .restart s => some (c.reboot s (c.nodes s).persister, [])

/-- A run of the cluster. -/
abbrev run : Cluster n Image → List (Action n Image) →
    Option (Cluster n Image × List (Event n Image)) :=
  Transition.run step

/-- Server 0 wins an election and commits its first entry, and server 1 hands
the entry out too. -/
def replicatedRun : List (Action 3 Unit) :=
  [.doElection 0, .requestVote 0 1, .sendRequestVote 0 1,
    .doHeartBeat 0, .appendEntries 0 1, .sendAppendEntries 0 1,
    .doHeartBeat 0, .appendEntries 1 1, .applierTicker 0, .applierTicker 1]

/-- Server 1 then wins the next term. -/
def succeededRun : List (Action 3 Unit) :=
  replicatedRun ++ [.doElection 1, .requestVote 1 2, .sendRequestVote 1 2]

end Cluster

end KVRaftStorage
