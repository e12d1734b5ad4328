import KVRaftStorage.KvServer.RaftNode
import KVRaftStorage.Raft.Cluster

/-!
# The whole service

The cluster knows the Raft nodes and the RPC threads between them, and
`KvServer` knows one process with whatever reaches it.  Here the two are one
system: every node of the cluster lives in a server process, and the clerks
talk to all of the servers.

A step is taken by a thread of Raft, by a thread of a server or by a clerk.
Where a thread of Raft runs a handler, the step is one of the cluster and one
of that server; a thread of a server that calls Raft takes a step of the
cluster too.
-/

namespace KVRaftStorage

/-- The servers, and what is on its way between them. -/
structure Service (n : ℕ) where
  servers : Fin n → KvServer n
  me : ∀ v, (servers v).raft.me = v
  boots : Fin n → ℕ
  elections : List (Election n)
  rounds : List (Round n KvState)
  reads : List (ReadCall n)
  /-- the call of `ReadIndex` that a handler of a server has made -/
  readCall : Fin n → ℕ → ℕ

/-- What can happen next. -/
inductive ServiceAction (n : ℕ) where
  | raft (a : Action n KvState)
  | server (v : Fin n) (b : KvAction n)
  | call (clientId : String) (request : Request)
  | answered (clientId : String) (v : Fin n) (h : ℕ)

/-- What a run makes visible. -/
inductive ServiceEvent (n : ℕ) where
  | raft (e : Event n KvState)
  | server (v : Fin n) (e : KvEvent)

namespace ServiceEvent

variable {n : ℕ}

def raft? : ServiceEvent n → Option (Event n KvState)
  | raft e => some e
  | server _ _ => none

def server? (v : Fin n) : ServiceEvent n → Option KvEvent
  | raft _ => none
  | server w e => if w = v then some e else none

end ServiceEvent

namespace Service

variable {n : ℕ}

/-- All servers on empty files. -/
def start (n : ℕ) : Service n where
  servers := KvServer.start
  me := fun v => Raft.me_init v _
  boots := fun _ => 0
  elections := []
  rounds := []
  reads := []
  readCall := fun _ _ => 0

/-- The Raft nodes and their RPC threads. -/
def cluster (k : Service n) : Cluster n KvState where
  nodes := fun v => (k.servers v).raft
  boots := k.boots
  elections := k.elections
  rounds := k.rounds
  reads := k.reads

/-! ## Who takes part in a step -/

/-- The steps of a server that belong to a step. -/
abbrev Parts (n : ℕ) := Fin n → Option (KvAction n)

def noPart : Parts n := fun _ => none

def onePart (v : Fin n) (b : KvAction n) : Parts n :=
  fun w => if w = v then some b else none

/-- The part of the servers in a step of a Raft thread.  The functions that a
server's own threads call are not among them. -/
def raftParts (c : Cluster n KvState) : Action n KvState → Option (Parts n)
  | .doElection s => some (onePart s (.receive .doElection))
  | .requestVote e i => do
      let election ← c.elections[e]?
      some (onePart i (.receive (.requestVote election.args)))
  | .sendRequestVote e i => do
      let election ← c.elections[e]?
      match election.calls i with
      | .replied reply =>
          some (onePart election.candidate
            (.receive (.sendRequestVote election.votedNum reply)))
      | _ => none
  | .doHeartBeat s =>
      if (c.nodes s).status = .leader ∧
          ∃ i, i ≠ s ∧ ((c.nodes s).heartBeatTo i).isOk = false then
        some (onePart s .restart)
      else some noPart
  | .appendEntries h i => do
      let round ← c.rounds[h]?
      match round.threads i with
      | .append args _ => some (onePart i (.receive (.appendEntries1 args)))
      | _ => none
  | .sendAppendEntries h i => do
      let round ← c.rounds[h]?
      match round.threads i with
      | .append args (.replied reply) =>
          some (onePart round.leader
            (.receive (.sendAppendEntries i args reply round.appendNums)))
      | _ => none
  | .leaderSendSnapShot _ _ => some noPart
  | .installSnapshot h i => do
      let round ← c.rounds[h]?
      match round.threads i with
      | .snapshot args _ => some (onePart i (.installSnapshot args))
      | _ => none
  | .installSnapshotCrash h i => do
      let round ← c.rounds[h]?
      match round.threads i with
      | .snapshot args _ => some (onePart i (.installSnapshotCrash args))
      | _ => none
  | .snapShotSent h i => do
      let round ← c.rounds[h]?
      match round.threads i with
      | .snapshot args (.replied reply) =>
          some (onePart round.leader (.receive (.snapShotSent i args reply)))
      | _ => none
  | .applierTicker s => some (onePart s .getApplyLogs)
  | .readIndexSend q i => do
      let read ← c.reads[q]?
      match (c.nodes read.server).readIndexArgs read.savedTerm i with
      | .error _ => some (onePart read.server .restart)
      | .ok _ => some noPart
  | .readAppendEntries q i => do
      let read ← c.reads[q]?
      match read.threads i with
      | .append args _ => some (onePart i (.receive (.appendEntries1 args)))
      | _ => none
  | .readIndexReply _ _ => some noPart
  | .restart s => some (onePart s .restart)
  | .start _ _ | .snapshot _ _ _ | .readIndex _ | .readIndexReturn _ => none

/-- The part of the cluster in a step of a server's own thread. -/
def serverPart (k : Service n) (v : Fin n) :
    KvAction n → Option (Option (Action n KvState))
  | .start h => do
      let handler ← (k.servers v).handlers[h]?
      some (some (.start v handler.op))
  | .snapshot =>
      match (k.servers v).loop with
      | .snapshotting i _ image => some (some (.snapshot v i (some image)))
      | _ => none
  | .readIndex _ => some (some (.readIndex v))
  | .readIndexReturn h => some (some (.readIndexReturn (k.readCall v h)))
  | .receive _ | .getApplyLogs | .installSnapshot _ | .installSnapshotCrash _
  | .restart | .call _ _ | .answered _ _ | .answeredElsewhere _ => none
  | .pushCommand | .pushMsgToKvServer _ | .readSnapShotToInstall | .pop
  | .execute _ | .makeSnapShot | .skipSnapshot | .sendMessageToWaitChan
  | .arrive _ _ | .waitForApplied _ | .readOnlyGet _ _ | .registerWait _
  | .timeOutPop _ | .timeOut _ | .checkDuplicate _ | .executeGet _ _
  | .eraseWait _ => some none

/-- The steps of the cluster and of the servers that an action consists of. -/
def parts (k : Service n) :
    ServiceAction n → Option (Option (Action n KvState) × Parts n)
  | .raft a => do
      let bs ← raftParts k.cluster a
      some (some a, bs)
  | .server v b => do
      let a ← k.serverPart v b
      some (a, onePart v b)
  | .call clientId request =>
      some (none, fun _ => some (.call clientId request))
  | .answered clientId v h =>
      some (none, fun w =>
        some (if w = v then .answered clientId h
          else .answeredElsewhere clientId))

/-- A `ReadIndex` belongs to the handler that calls it. -/
def readCallAfter (k : Service n) : ServiceAction n → Fin n → ℕ → ℕ
  | .server v (.readIndex h) =>
      Function.update k.readCall v
        (Function.update (k.readCall v) h k.reads.length)
  | _ => k.readCall

/-! ## Steps -/

def clusterStep (k : Service n) :
    Option (Action n KvState) →
      Option (Cluster n KvState × List (Event n KvState))
  | none => some (k.cluster, [])
  | some a => k.cluster.step a

def serverStep (k : Service n) (v : Fin n) :
    Option (KvAction n) → Option (KvServer n × List KvEvent)
  | none => some (k.servers v, [])
  | some b => (k.servers v).step b

theorem serverStep_me {k : Service n} {v : Fin n} {b : Option (KvAction n)}
    {x : KvServer n × List KvEvent} (h : k.serverStep v b = some x) :
    x.1.raft.me = v := by
  cases b with
  | none => exact Option.some.inj h ▸ k.me v
  | some b => exact (KvServer.step_me h).trans (k.me v)

/-- One step of the service; `none` when a part of it is not enabled. -/
def step (k : Service n) (act : ServiceAction n) :
    Option (Service n × List (ServiceEvent n)) := do
  let (a, bs) ← k.parts act
  let (c, es) ← k.clusterStep a
  if h : ∀ v, (k.serverStep v (bs v)).isSome = true then
    some (
      { servers := fun v => ((k.serverStep v (bs v)).get (h v)).1
        me := fun v => serverStep_me (Option.some_get (h v)).symm
        boots := c.boots
        elections := c.elections
        rounds := c.rounds
        reads := c.reads
        readCall := k.readCallAfter act },
      es.map .raft ++ (List.finRange n).flatMap fun v =>
        ((k.serverStep v (bs v)).get (h v)).2.map (.server v))
  else none

/-- A run of the service. -/
abbrev run : Service n → List (ServiceAction n) →
    Option (Service n × List (ServiceEvent n)) :=
  Transition.run step

end Service

end KVRaftStorage
