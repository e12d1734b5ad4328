import Mathlib.Algebra.Ring.Nat
import Mathlib.Data.Fin.Basic
import Mathlib.Logic.Function.Basic
import Mathlib.Data.List.GetD

/-!
# The state of one Raft node

The members of `class Raft`, of its `Persister` and of the protocol messages,
together with the log access functions.  `m_logs` holds the entries after the
snapshot boundary only; every lookup goes through the offset computed by
`getSlicesIndexFromLogIndex`.

A failed `myAssert` ends the process with `std::exit`.  A handler therefore
runs in `Exec`: its error is the content of the persister at that moment, the
only thing that survives the process.
-/

namespace KVRaftStorage

/-! The sample runs number the servers of clusters of three or five. -/

instance neZeroThree : NeZero 3 := ⟨by decide⟩

instance neZeroFive : NeZero 5 := ⟨by decide⟩

/-- One client operation.  The raft log stores it through `asString`; the
archive is taken to round-trip, so the log holds the operation itself. -/
structure Op where
  operation : String
  key : String
  value : String
  clientId : String
  requestId : ℤ
  ttlMs : ℤ
  expireAtMs : ℤ
deriving DecidableEq, Repr

/-- What Raft pushes into `applyChan`. -/
inductive ApplyMsg (Image : Type) where
  | command (command : Op) (commandIndex : ℕ)
  | snapshot (snapshot : Option Image) (snapshotTerm snapshotIndex : ℕ)
deriving DecidableEq

structure LogEntry where
  command : Op
  logTerm : ℕ
  logIndex : ℕ
deriving DecidableEq, Repr

inductive Status where
  | follower
  | candidate
  | leader
deriving DecidableEq, Repr

/-! ## Messages -/

inductive AppState where
  | disconnected
  | appNormal
deriving DecidableEq, Repr

inductive VoteState where
  | killed
  | voted
  | expire
  | normal
deriving DecidableEq, Repr

structure RequestVoteArgs (n : ℕ) where
  term : ℕ
  candidateId : Fin n
  lastLogIndex : ℕ
  lastLogTerm : ℕ
deriving DecidableEq

structure RequestVoteReply where
  term : ℕ
  voteGranted : Bool
  voteState : VoteState
deriving DecidableEq

structure AppendEntriesArgs (n : ℕ) where
  term : ℕ
  leaderId : Fin n
  prevLogIndex : ℕ
  prevLogTerm : ℕ
  entries : List LogEntry
  leaderCommit : ℕ
deriving DecidableEq

structure AppendEntriesReply where
  term : ℕ
  success : Bool
  updateNextIndex : ℤ
  appState : AppState
deriving DecidableEq

structure InstallSnapshotRequest (n : ℕ) (Image : Type) where
  leaderId : Fin n
  term : ℕ
  lastSnapShotIncludeIndex : ℕ
  lastSnapShotIncludeTerm : ℕ
  data : Option Image
deriving DecidableEq

structure InstallSnapshotResponse where
  term : ℕ
deriving DecidableEq

/-- The message is serialised to no bytes, and `SendRpcResponse` sends nothing.
The other replies always carry an `AppState` or a `VoteState`. -/
def InstallSnapshotResponse.isEmpty (reply : InstallSnapshotResponse) : Bool :=
  reply.term = 0

/-! ## Node and persister -/

/-- `BoostPersistRaftNode`, the archive written by `persistData`. -/
structure RaftState (n : ℕ) where
  currentTerm : ℕ
  votedFor : Option (Fin n)
  lastSnapshotIncludeIndex : ℕ
  lastSnapshotIncludeTerm : ℕ
  logs : List LogEntry
deriving DecidableEq

/-- The two files of a persister; `none` is an empty file. -/
structure Persister (n : ℕ) (Image : Type) where
  raftState : Option (RaftState n)
  snapshot : Option Image
deriving DecidableEq

/-- The members of `class Raft` that the protocol reads or writes.  The `-1`
of `m_votedFor` is `none`. -/
structure Raft (n : ℕ) (Image : Type) where
  me : Fin n
  persister : Persister n Image
  currentTerm : ℕ
  votedFor : Option (Fin n)
  logs : List LogEntry
  commitIndex : ℕ
  lastApplied : ℕ
  nextIndex : Fin n → ℕ
  matchIndex : Fin n → ℕ
  status : Status
  lastSnapshotIncludeIndex : ℕ
  lastSnapshotIncludeTerm : ℕ

/-- A computation that may exit the process, leaving only its persister. -/
abbrev Exec (n : ℕ) (Image α : Type) := Except (Persister n Image) α

theorem exec_bind_eq_ok {n : ℕ} {Image α β : Type} {x : Exec n Image α}
    {f : α → Exec n Image β} {b : β} :
    (x >>= f) = .ok b ↔ ∃ a, x = .ok a ∧ f a = .ok b := by
  cases x with
  | error p => simp [bind, Except.bind]
  | ok a => simp [bind, Except.bind]

theorem exec_bind_eq_error {n : ℕ} {Image α β : Type} {x : Exec n Image α}
    {f : α → Exec n Image β} {p : Persister n Image} :
    (x >>= f) = .error p ↔
      x = .error p ∨ ∃ a, x = .ok a ∧ f a = .error p := by
  cases x with
  | error q => simp [bind, Except.bind]
  | ok a => simp [bind, Except.bind]

@[simp] theorem exec_pure_eq_ok {n : ℕ} {Image α : Type} {a b : α} :
    (pure a : Exec n Image α) = .ok b ↔ a = b := by
  simp [pure, Except.pure]

@[simp] theorem exec_pure_ne_error {n : ℕ} {Image α : Type} {a : α}
    {p : Persister n Image} : (pure a : Exec n Image α) ≠ .error p := by
  simp [pure, Except.pure]

namespace Raft

variable {n : ℕ} {Image : Type}

def myAssert (r : Raft n Image) (condition : Prop) [Decidable condition] :
    Exec n Image Unit :=
  if condition then .ok () else .error r.persister

theorem myAssert_eq_ok {r : Raft n Image} {condition : Prop}
    [Decidable condition] {u : Unit} :
    r.myAssert condition = .ok u ↔ condition := by
  unfold myAssert
  split <;> simp_all

theorem myAssert_eq_error {r : Raft n Image} {condition : Prop}
    [Decidable condition] {p : Persister n Image} :
    r.myAssert condition = .error p ↔ ¬condition ∧ p = r.persister := by
  unfold myAssert
  split
  · simp_all
  · simp_all [eq_comm]

/-! ## Log access -/

def getLastLogIndexAndTerm (r : Raft n Image) : ℕ × ℕ :=
  match r.logs.getLast? with
  | none => (r.lastSnapshotIncludeIndex, r.lastSnapshotIncludeTerm)
  | some entry => (entry.logIndex, entry.logTerm)

def getLastLogIndex (r : Raft n Image) : ℕ := r.getLastLogIndexAndTerm.1

def getLastLogTerm (r : Raft n Image) : ℕ := r.getLastLogIndexAndTerm.2

def getNewCommandIndex (r : Raft n Image) : ℕ := r.getLastLogIndex + 1

def getSlicesIndexFromLogIndex (r : Raft n Image) (logIndex : ℕ) :
    Exec n Image ℕ := do
  r.myAssert (r.lastSnapshotIncludeIndex < logIndex)
  r.myAssert (logIndex ≤ r.getLastLogIndex)
  return logIndex - r.lastSnapshotIncludeIndex - 1

/-- `m_logs[getSlicesIndexFromLogIndex(logIndex)]`.  Reading past the end of
the vector is treated as a crash. -/
def entryAt (r : Raft n Image) (logIndex : ℕ) : Exec n Image LogEntry := do
  let slice ← r.getSlicesIndexFromLogIndex logIndex
  match r.logs[slice]? with
  | some entry => return entry
  | none => .error r.persister

def getLogTermFromLogIndex (r : Raft n Image) (logIndex : ℕ) :
    Exec n Image ℕ := do
  r.myAssert (r.lastSnapshotIncludeIndex ≤ logIndex)
  r.myAssert (logIndex ≤ r.getLastLogIndex)
  if logIndex = r.lastSnapshotIncludeIndex then
    return r.lastSnapshotIncludeTerm
  else
    let entry ← r.entryAt logIndex
    return entry.logTerm

def matchLog (r : Raft n Image) (logIndex logTerm : ℕ) : Exec n Image Bool := do
  r.myAssert (r.lastSnapshotIncludeIndex ≤ logIndex ∧
    logIndex ≤ r.getLastLogIndex)
  let term ← r.getLogTermFromLogIndex logIndex
  return decide (logTerm = term)

def upToDate (r : Raft n Image) (index term : ℕ) : Bool :=
  decide (r.getLastLogTerm < term) ||
    (decide (term = r.getLastLogTerm) && decide (r.getLastLogIndex ≤ index))

/-- `getPrevLogInfo`: the previous index and term of the next request to
`server`. -/
def getPrevLogInfo (r : Raft n Image) (server : Fin n) :
    Exec n Image (ℕ × ℕ) :=
  if r.nextIndex server = r.lastSnapshotIncludeIndex + 1 then
    .ok (r.lastSnapshotIncludeIndex, r.lastSnapshotIncludeTerm)
  else do
    let entry ← r.entryAt (r.nextIndex server - 1)
    return (r.nextIndex server - 1, entry.logTerm)

/-! ## Persistence -/

def persistData (r : Raft n Image) : RaftState n where
  currentTerm := r.currentTerm
  votedFor := r.votedFor
  lastSnapshotIncludeIndex := r.lastSnapshotIncludeIndex
  lastSnapshotIncludeTerm := r.lastSnapshotIncludeTerm
  logs := r.logs

/-- `SaveRaftState(persistData())`; the stored snapshot stays. -/
def persist (r : Raft n Image) : Raft n Image :=
  { r with persister := { r.persister with raftState := some r.persistData } }

/-- `m_persister->Save(persistData(), snapshot)`. -/
def save (r : Raft n Image) (snapshot : Option Image) : Raft n Image :=
  { r with persister := ⟨some r.persistData, snapshot⟩ }

/-- The values `init` assigns before it reads the stored state. -/
def fresh (me : Fin n) (persister : Persister n Image) : Raft n Image where
  me := me
  persister := persister
  currentTerm := 0
  votedFor := none
  logs := []
  commitIndex := 0
  lastApplied := 0
  nextIndex := fun _ => 0
  matchIndex := fun _ => 0
  status := .follower
  lastSnapshotIncludeIndex := 0
  lastSnapshotIncludeTerm := 0

def readPersist (r : Raft n Image) (data : Option (RaftState n)) :
    Raft n Image :=
  match data with
  | none => r
  | some s =>
      { r with
        currentTerm := s.currentTerm
        votedFor := s.votedFor
        lastSnapshotIncludeIndex := s.lastSnapshotIncludeIndex
        lastSnapshotIncludeTerm := s.lastSnapshotIncludeTerm
        logs := s.logs }

def init (me : Fin n) (persister : Persister n Image) : Raft n Image :=
  let r := (fresh me persister).readPersist persister.raftState
  { r with
    lastApplied :=
      if 0 < r.lastSnapshotIncludeIndex then r.lastSnapshotIncludeIndex
      else r.lastApplied }

/-! ## Becoming a follower of a higher term -/

/-- The three assignments made whenever a larger term is seen. -/
def followTerm (r : Raft n Image) (term : ℕ) : Raft n Image :=
  { r with status := .follower, currentTerm := term, votedFor := none }

/-- `followTerm`, guarded by the comparison of the terms. -/
def observeTerm (r : Raft n Image) (term : ℕ) : Raft n Image :=
  if r.currentTerm < term then r.followTerm term else r

end Raft

end KVRaftStorage
