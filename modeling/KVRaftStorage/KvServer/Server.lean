import KVRaftStorage.KvServer.State
import KVRaftStorage.Raft.Handlers
import KVRaftStorage.Support.Transition

/-!
# One server process and its clerks

The threads of one `KvServer` as a transition system: the Raft handlers,
`applierTicker`, the detached threads of `InstallSnapshot`, the apply loop and
the RPC handlers of `Get` and `PutAppend`.  A step is what a thread does
between two points where another one can run.  The RPCs of the other servers
are inputs, and so are the moments of a timeout and the readings of the clock.

The size of the stored raft state, which decides whether a snapshot is taken,
is left open: both outcomes are steps.
-/

namespace KVRaftStorage

/-! ## Requests and replies -/

/-- What a clerk sends. -/
inductive Request where
  | get (key : String)
  | putAppend (key value op : String) (ttlMs : ℤ)
deriving DecidableEq

/-- One RPC of a clerk, as `GetArgs` or `PutAppendArgs`. -/
structure Rpc where
  clientId : String
  requestId : ℤ
  request : Request
deriving DecidableEq

/-- The operation a handler builds from its arguments.  `ExpireAtMs` is a
64-bit sum that is read back as a signed number. -/
def Rpc.op (rpc : Rpc) (now : ℕ) : Op :=
  match rpc.request with
  | .get key =>
      { operation := "Get", key := key, value := "", clientId := rpc.clientId,
        requestId := rpc.requestId, ttlMs := 0, expireAtMs := 0 }
  | .putAppend key value op ttlMs =>
      { operation := op, key := key, value := value,
        clientId := rpc.clientId, requestId := rpc.requestId, ttlMs := ttlMs,
        expireAtMs := if 0 < ttlMs then (now + ttlMs).bmod (2 ^ 64) else 0 }

inductive Err where
  | ok
  | errNoKey
  | errWrongLeader
deriving DecidableEq

structure Reply where
  err : Err
  value : String
deriving DecidableEq

def fillGetReply (value : String) (exist : Bool) : Reply :=
  if exist then { err := .ok, value := value }
  else { err := .errNoKey, value := "" }

def wrongLeader : Reply where
  err := .errWrongLeader
  value := ""

/-! ## Threads -/

/-- Where a handler of `Get` or `PutAppend` stands. -/
inductive Phase where
  | arrived
  /-- inside `ReadIndex`, between its two looks at the term -/
  | confirming (savedTerm readIndex : ℕ)
  /-- inside `WaitForApplied` -/
  | waitingApplied (readIndex : ℕ)
  /-- `WaitForApplied` returned true -/
  | applied (readIndex : ℕ)
  /-- behind `Start`, before the entry in `waitApplyCh` is made -/
  | started (raftIndex : ℕ)
  /-- inside `timeOutPop` -/
  | waiting (raftIndex : ℕ)
  /-- the pop timed out -/
  | timedOut (raftIndex : ℕ) (stillLeader : Bool)
  /-- about to call `ExecuteGetOpOnKVDB` -/
  | granted (raftIndex : ℕ)
  /-- the reply is filled, the entry in `waitApplyCh` is still to be erased -/
  | replied (raftIndex : ℕ) (reply : Reply)
  | finished (reply : Reply)
deriving DecidableEq

structure Handler where
  rpc : Rpc
  op : Op
  phase : Phase
deriving DecidableEq

def Handler.isGet (handler : Handler) : Bool :=
  match handler.rpc.request with
  | .get _ => true
  | .putAppend .. => false

/-- Where the apply loop stands in the message it popped. -/
inductive Loop where
  | idle
  /-- behind `ifRequestDuplicate`, before the operation is executed -/
  | checked (index : ℕ) (op : Op) (duplicate : Bool)
  | executed (index : ℕ) (op : Op)
  /-- `MakeSnapShot` returned, `Raft::Snapshot` is still to be called -/
  | snapshotting (index : ℕ) (op : Op) (image : KvState)
  /-- before `SendMessageToWaitChan` -/
  | sending (index : ℕ) (op : Op)

/-- A clerk sends one request at a time and counts them. -/
structure Clerk where
  requestId : ℤ
  pending : Option Request

/-! ## The process -/

structure KvServer (n : ℕ) where
  raft : Raft n KvState
  /-- the messages of `applierTicker` that are not yet pushed -/
  applyMsgs : List (ℕ × Op)
  /-- the messages of the `pushMsgToKvServer` threads that have not run -/
  detached : List (ApplyMsg KvState)
  applyChan : List (ApplyMsg KvState)
  state : KvState
  lastSnapShotRaftLogIndex : ℕ
  loop : Loop
  /-- the constructor has passed `ReadSnapShotToInstall` -/
  booted : Bool
  waitApplyCh : ℕ → Option (List Op)
  handlers : List Handler
  clerks : String → Clerk
  /-- every RPC that was ever sent; it may arrive late and more than once -/
  rpcs : List Rpc

/-- What reaches Raft from outside the process. -/
inductive RaftInput (n : ℕ) where
  | doElection
  | requestVote (args : RequestVoteArgs n)
  | sendRequestVote (votedNum : ℕ) (reply : RequestVoteReply)
  | appendEntries1 (args : AppendEntriesArgs n)
  | sendAppendEntries (server : Fin n) (args : AppendEntriesArgs n)
      (reply : AppendEntriesReply) (appendNums : ℕ)
  | snapShotSent (server : Fin n) (args : InstallSnapshotRequest n KvState)
      (reply : InstallSnapshotResponse)

def Raft.receive {n : ℕ} (r : Raft n KvState) :
    RaftInput n → Exec n KvState (Raft n KvState)
  | .doElection => .ok r.doElection.1
  | .requestVote args => Prod.fst <$> r.requestVote args
  | .sendRequestVote votedNum reply =>
      Prod.fst <$> r.sendRequestVote votedNum reply
  | .appendEntries1 args => Prod.fst <$> r.appendEntries1 args
  | .sendAppendEntries server args reply appendNums =>
      Prod.fst <$> r.sendAppendEntries server args reply appendNums
  | .snapShotSent server args reply => .ok (r.snapShotSent server args reply)

/-- What can happen next.  Handlers are named by their position. -/
inductive KvAction (n : ℕ) where
  | receive (input : RaftInput n)
  | getApplyLogs
  | pushCommand
  | installSnapshot (args : InstallSnapshotRequest n KvState)
  /-- the process dies between the two writes of `InstallSnapshot` -/
  | installSnapshotCrash (args : InstallSnapshotRequest n KvState)
  | pushMsgToKvServer (thread : ℕ)
  | readSnapShotToInstall
  | pop
  | execute (now : ℕ)
  | makeSnapShot
  | skipSnapshot
  | snapshot
  | sendMessageToWaitChan
  | arrive (rpc : ℕ) (now : ℕ)
  | readIndex (h : ℕ)
  | readIndexReturn (h : ℕ)
  | waitForApplied (h : ℕ)
  | readOnlyGet (h : ℕ) (now : ℕ)
  | start (h : ℕ)
  | registerWait (h : ℕ)
  | timeOutPop (h : ℕ)
  | timeOut (h : ℕ)
  | checkDuplicate (h : ℕ)
  | executeGet (h : ℕ) (now : ℕ)
  | eraseWait (h : ℕ)
  | call (clientId : String) (request : Request)
  | answered (clientId : String) (h : ℕ)
  | answeredElsewhere (clientId : String)
  | restart

/-- What a run makes visible to its specification. -/
inductive KvEvent where
  /-- the apply loop is past the operation of a command; `expired` is what the
  local clock says about its key -/
  | applied (index : ℕ) (op : Op) (duplicate expired : Bool)
  /-- the state after a message of `applyChan` -/
  | processed (state : KvState)
  /-- the state was read from a snapshot -/
  | restored (state : KvState)
  /-- `Raft::Snapshot(index, image)` was called -/
  | snapshotted (index : ℕ) (image : KvState)
  /-- `ExecuteReadOnlyGetOpOnKVDB` read `state` -/
  | readServed (readIndex : ℕ) (state : KvState)
  /-- a new process has started -/
  | restarted

namespace KvServer

variable {n : ℕ}

/-- The process starts on the files of `persister`. -/
def boot (me : Fin n) (persister : Persister n KvState)
    (clerks : String → Clerk) (rpcs : List Rpc) : KvServer n where
  raft := Raft.init me persister
  applyMsgs := []
  detached := []
  applyChan := []
  state := .empty
  lastSnapShotRaftLogIndex := 0
  loop := .idle
  booted := false
  waitApplyCh := fun _ => none
  handlers := []
  clerks := clerks
  rpcs := rpcs

/-- A server on empty files, and clerks that have not sent anything. -/
def start (me : Fin n) : KvServer n :=
  boot me ⟨none, none⟩ (fun _ => ⟨0, none⟩) []

/-- The process ends with `persister` on disk and is started again. -/
def reboot (s : KvServer n) (persister : Persister n KvState) : KvServer n :=
  boot s.raft.me persister s.clerks s.rpcs

/-! ## Raft -/

def receive (s : KvServer n) (input : RaftInput n) :
    KvServer n × List KvEvent :=
  match s.raft.receive input with
  | .error p => (s.reboot p, [.restarted])
  | .ok r => ({ s with raft := r }, [])

/-- `applierTicker` under the lock. -/
def getApplyLogs (s : KvServer n) : KvServer n × List KvEvent :=
  match s.raft.getApplyLogs with
  | .error p => (s.reboot p, [.restarted])
  | .ok (r, msgs) => ({ s with raft := r, applyMsgs := msgs }, [])

def installSnapshot (s : KvServer n)
    (args : InstallSnapshotRequest n KvState) : KvServer n × List KvEvent :=
  match s.raft.installSnapshot args with
  | .error p => (s.reboot p, [.restarted])
  | .ok (r, _, msg) =>
      ({ s with raft := r, detached := s.detached ++ msg.toList }, [])

/-! ## The apply loop -/

/-- The constructor after `init`. -/
def readSnapShotToInstall (s : KvServer n) : KvServer n × List KvEvent :=
  match s.raft.persister.snapshot with
  | none => ({ s with booted := true }, [])
  | some image => ({ s with booted := true, state := image }, [.restored image])

/-- `GetSnapShotFromRaft`; `CondInstallSnapshot` is always true. -/
def getSnapShotFromRaft (s : KvServer n) (snapshot : Option KvState)
    (snapshotIndex : ℕ) : KvServer n × List KvEvent :=
  match snapshot with
  | none =>
      ({ s with lastSnapShotRaftLogIndex := snapshotIndex },
        [.processed s.state])
  | some image =>
      ({ s with state := image, lastSnapShotRaftLogIndex := snapshotIndex },
        [.restored image, .processed image])

/-- `GetCommandFromRaft` up to the duplicate check. -/
def getCommandFromRaft (s : KvServer n) (op : Op) (commandIndex : ℕ) :
    KvServer n × List KvEvent :=
  if commandIndex ≤ s.lastSnapShotRaftLogIndex then
    (s, [.processed s.state])
  else
    ({ s with
      loop := .checked commandIndex op
        (s.state.ifRequestDuplicate op.clientId op.requestId) }, [])

/-- `ReadRaftApplyCommandLoop` takes a message. -/
def pop (s : KvServer n) : Option (KvServer n × List KvEvent) :=
  match s.booted, s.loop, s.applyChan with
  | true, .idle, .command op i :: rest =>
      some ({ s with applyChan := rest }.getCommandFromRaft op i)
  | true, .idle, .snapshot image _ i :: rest =>
      some ({ s with applyChan := rest }.getSnapShotFromRaft image i)
  | _, _, _ => none

def execute (s : KvServer n) (now : ℕ) : Option (KvServer n × List KvEvent) :=
  match s.loop with
  | .checked i op duplicate =>
      some ({ s with
        state := if duplicate then s.state else s.state.executeCommand now op
        loop := .executed i op },
        [.applied i op duplicate (s.state.isKeyExpired now op.key)])
  | _ => none

/-- `MakeSnapShot`, when the stored raft state has grown too large. -/
def makeSnapShot (s : KvServer n) : Option (KvServer n × List KvEvent) :=
  match s.loop with
  | .executed i op => some ({ s with loop := .snapshotting i op s.state }, [])
  | _ => none

def skipSnapshot (s : KvServer n) : Option (KvServer n × List KvEvent) :=
  match s.loop with
  | .executed i op => some ({ s with loop := .sending i op }, [])
  | _ => none

def snapshot (s : KvServer n) : Option (KvServer n × List KvEvent) :=
  match s.loop with
  | .snapshotting i op image =>
      match s.raft.snapshot i (some image) with
      | .error p => some (s.reboot p, [.snapshotted i image, .restarted])
      | .ok r =>
          some ({ s with raft := r, loop := .sending i op },
            [.snapshotted i image])
  | _ => none

def sendMessageToWaitChan (s : KvServer n) :
    Option (KvServer n × List KvEvent) :=
  match s.loop with
  | .sending i op =>
      some ({ s with
        loop := .idle
        waitApplyCh :=
          Function.update s.waitApplyCh i ((s.waitApplyCh i).map (· ++ [op])) },
        [.processed s.state])
  | _ => none

/-! ## The RPC handlers -/

/-- Handler `h` moves on to the phase `f` gives it; nothing else changes. -/
def advance (s : KvServer n) (h : ℕ) (f : Handler → Option Phase) :
    Option (KvServer n × List KvEvent) := do
  let handler ← s.handlers[h]?
  let phase ← f handler
  some ({ s with handlers := s.handlers.set h { handler with phase := phase } },
    [])

def arrive (s : KvServer n) (rpc : Rpc) (now : ℕ) :
    KvServer n × List KvEvent :=
  ({ s with
    handlers := s.handlers ++
      [{ rpc := rpc, op := rpc.op now, phase := .arrived }] }, [])

/-- `ReadIndex` records the commit index of a leader. -/
def readIndexPhase (s : KvServer n) (handler : Handler) : Option Phase :=
  match handler.phase with
  | .arrived =>
      if handler.isGet = true ∧ s.raft.status = .leader then
        some (.confirming s.raft.currentTerm s.raft.commitIndex)
      else none
  | _ => none

/-- `ReadIndex` returns true, its majority having confirmed. -/
def readIndexReturnPhase (s : KvServer n) (handler : Handler) : Option Phase :=
  match handler.phase with
  | .confirming savedTerm readIndex =>
      if s.raft.currentTerm = savedTerm ∧ s.raft.status = .leader then
        some (.waitingApplied readIndex)
      else none
  | _ => none

def waitForAppliedPhase (s : KvServer n) (handler : Handler) : Option Phase :=
  match handler.phase with
  | .waitingApplied readIndex =>
      if readIndex ≤ s.raft.lastApplied then some (.applied readIndex)
      else none
  | _ => none

/-- The read index of a handler that is about to read, with its request. -/
def reading? (s : KvServer n) (h : ℕ) : Option (ℕ × Handler) := do
  let handler ← s.handlers[h]?
  match handler.phase with
  | .applied readIndex => some (readIndex, handler)
  | _ => none

def setPhase (s : KvServer n) (h : ℕ) (handler : Handler) (phase : Phase) :
    KvServer n :=
  { s with handlers := s.handlers.set h { handler with phase := phase } }

def readOnlyGet (s : KvServer n) (h now : ℕ) :
    Option (KvServer n × List KvEvent) := do
  let (readIndex, handler) ← s.reading? h
  let (value, exist) := s.state.executeReadOnlyGetOpOnKVDB now handler.op
  some (s.setPhase h handler (.finished (fillGetReply value exist)),
    [.readServed readIndex s.state])

/-- `Start` is called by `PutAppend`, and by `Get` when `ReadIndex` or
`WaitForApplied` has failed. -/
def callsStart (handler : Handler) : Bool :=
  match handler.phase with
  | .arrived => true
  | .confirming .. => true
  | .waitingApplied _ => true
  | _ => false

def startOp (s : KvServer n) (h : ℕ) : Option (KvServer n × List KvEvent) := do
  let handler ← s.handlers[h]?
  if callsStart handler then
    match s.raft.start handler.op with
    | (r, none) =>
        some ({ s with raft := r }.setPhase h handler (.finished wrongLeader),
          [])
    | (r, some (raftIndex, _)) =>
        some ({ s with raft := r }.setPhase h handler (.started raftIndex), [])
  else none

def registerWait (s : KvServer n) (h : ℕ) :
    Option (KvServer n × List KvEvent) := do
  let handler ← s.handlers[h]?
  match handler.phase with
  | .started raftIndex =>
      some ({ s with
        waitApplyCh := Function.update s.waitApplyCh raftIndex
          (some ((s.waitApplyCh raftIndex).getD [])) }.setPhase h handler
            (.waiting raftIndex), [])
  | _ => none

/-- `timeOutPop` returned an operation. -/
def timeOutPop (s : KvServer n) (h : ℕ) :
    Option (KvServer n × List KvEvent) := do
  let handler ← s.handlers[h]?
  match handler.phase with
  | .waiting raftIndex =>
      match s.waitApplyCh raftIndex with
      | some (op :: rest) =>
          let phase :=
            if op.clientId = handler.op.clientId ∧
                op.requestId = handler.op.requestId then
              if handler.isGet then .granted raftIndex
              else .replied raftIndex { err := .ok, value := "" }
            else .replied raftIndex wrongLeader
          some ({ s with
            waitApplyCh :=
              Function.update s.waitApplyCh raftIndex (some rest) }.setPhase h
                handler phase, [])
      | _ => none
  | _ => none

/-- `timeOutPop` timed out, and `Get` asked for the leadership. -/
def timeOutPhase (s : KvServer n) (handler : Handler) : Option Phase :=
  match handler.phase with
  | .waiting raftIndex => some (.timedOut raftIndex (s.raft.status = .leader))
  | _ => none

def checkDuplicatePhase (s : KvServer n) (handler : Handler) : Option Phase :=
  match handler.phase with
  | .timedOut raftIndex stillLeader =>
      let duplicate :=
        s.state.ifRequestDuplicate handler.op.clientId handler.op.requestId
      if handler.isGet then
        if duplicate && stillLeader then some (.granted raftIndex)
        else some (.replied raftIndex wrongLeader)
      else if duplicate then
        some (.replied raftIndex { err := .ok, value := "" })
      else some (.replied raftIndex wrongLeader)
  | _ => none

/-- The index a handler waited for when it is about to execute its `Get`. -/
def granted? (s : KvServer n) (h : ℕ) : Option (ℕ × Handler) := do
  let handler ← s.handlers[h]?
  match handler.phase with
  | .granted raftIndex => some (raftIndex, handler)
  | _ => none

def executeGet (s : KvServer n) (h now : ℕ) :
    Option (KvServer n × List KvEvent) := do
  let (raftIndex, handler) ← s.granted? h
  let (state, value, exist) := s.state.executeGetOpOnKVDB now handler.op
  some ({ s with state := state }.setPhase h handler
    (.replied raftIndex (fillGetReply value exist)), [])

def eraseWait (s : KvServer n) (h : ℕ) :
    Option (KvServer n × List KvEvent) := do
  let handler ← s.handlers[h]?
  match handler.phase with
  | .replied raftIndex reply =>
      some ({ s with
        waitApplyCh := Function.update s.waitApplyCh raftIndex none }.setPhase h
          handler (.finished reply), [])
  | _ => none

/-! ## The clerks -/

/-- A clerk without a pending request takes the next request id and sends. -/
def call (s : KvServer n) (clientId : String) (request : Request) :
    Option (KvServer n × List KvEvent) :=
  match (s.clerks clientId).pending with
  | some _ => none
  | none =>
      let requestId := (s.clerks clientId).requestId + 1
      some ({ s with
        clerks := Function.update s.clerks clientId
          { requestId := requestId, pending := some request }
        rpcs := s.rpcs ++
          [{ clientId := clientId, requestId := requestId,
             request := request }] }, [])

/-- The clerk's request is answered and the next one may come. -/
def settle (s : KvServer n) (clientId : String) : KvServer n :=
  { s with
    clerks := Function.update s.clerks clientId
      { s.clerks clientId with pending := none } }

/-- A handler of this server answers the pending request. -/
def answered (s : KvServer n) (clientId : String) (h : ℕ) :
    Option (KvServer n × List KvEvent) := do
  let handler ← s.handlers[h]?
  match handler.phase with
  | .finished reply =>
      if handler.rpc.clientId = clientId ∧
          handler.rpc.requestId = (s.clerks clientId).requestId ∧
          reply.err ≠ .errWrongLeader then
        some (s.settle clientId, [])
      else none
  | _ => none

/-! ## Steps -/

/-- One step of the server; `none` when the action is not enabled. -/
def step (s : KvServer n) :
    KvAction n → Option (KvServer n × List KvEvent)
  | .receive input => some (s.receive input)
  | .getApplyLogs =>
      if s.applyMsgs = [] then some s.getApplyLogs else none
  | .pushCommand =>
      match s.applyMsgs with
      | [] => none
      | (i, op) :: rest =>
          some ({ s with
            applyMsgs := rest
            applyChan := s.applyChan ++ [.command op i] }, [])
  | .installSnapshot args => some (s.installSnapshot args)
  | .installSnapshotCrash args =>
      if args.term < s.raft.currentTerm then none
      else
        some (s.reboot (s.raft.installTerm args.term).persister, [.restarted])
  | .pushMsgToKvServer thread => do
      let msg ← s.detached[thread]?
      some ({ s with
        detached := s.detached.eraseIdx thread
        applyChan := s.applyChan ++ [msg] }, [])
  | .readSnapShotToInstall =>
      if s.booted then none else some s.readSnapShotToInstall
  | .pop => s.pop
  | .execute now => s.execute now
  | .makeSnapShot => s.makeSnapShot
  | .skipSnapshot => s.skipSnapshot
  | .snapshot => s.snapshot
  | .sendMessageToWaitChan => s.sendMessageToWaitChan
  | .arrive rpc now => do
      let rpc ← s.rpcs[rpc]?
      some (s.arrive rpc now)
  | .readIndex h => s.advance h s.readIndexPhase
  | .readIndexReturn h => s.advance h s.readIndexReturnPhase
  | .waitForApplied h => s.advance h s.waitForAppliedPhase
  | .readOnlyGet h now => s.readOnlyGet h now
  | .start h => s.startOp h
  | .registerWait h => s.registerWait h
  | .timeOutPop h => s.timeOutPop h
  | .timeOut h => s.advance h s.timeOutPhase
  | .checkDuplicate h => s.advance h s.checkDuplicatePhase
  | .executeGet h now => s.executeGet h now
  | .eraseWait h => s.eraseWait h
  | .call clientId request => s.call clientId request
  | .answered clientId h => s.answered clientId h
  | .answeredElsewhere clientId => some (s.settle clientId, [])
  | .restart => some (s.reboot s.raft.persister, [.restarted])

/-- A run of the server. -/
abbrev run : KvServer n → List (KvAction n) →
    Option (KvServer n × List KvEvent) :=
  Transition.run step

end KvServer

end KVRaftStorage
