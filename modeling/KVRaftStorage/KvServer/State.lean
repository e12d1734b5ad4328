import KVRaftStorage.Raft.Node

/-!
# The key-value state machine

The three maps of `class KvServer` that a snapshot holds, and the functions
that read and write them under `m_stateMtx`.  The engine is a finite map: every
storage engine of the repository answers `Get`, `Put`, `Delete`, `Snapshot` and
`Restore` like one.  The local clock `getCurrentTimeMs()` is an argument.
-/

namespace KVRaftStorage

/-- What `getSnapshotData` serializes. -/
structure KvState where
  engine : String → Option String
  expireMap : String → Option ℕ
  lastRequestId : String → Option ℤ

namespace KvState

def empty : KvState where
  engine := fun _ => none
  expireMap := fun _ => none
  lastRequestId := fun _ => none

/-! ## Expiry -/

def isKeyExpired (st : KvState) (now : ℕ) (key : String) : Bool :=
  match st.expireMap key with
  | none => false
  | some expireAt => expireAt < now

def setKeyExpire (st : KvState) (key : String) (expireAtMs : ℤ) : KvState :=
  { st with
    expireMap := Function.update st.expireMap key
      (if 0 < expireAtMs then some expireAtMs.toNat else none) }

/-- The key leaves the engine and the expiry map if its time is over. -/
def dropExpired (st : KvState) (now : ℕ) (key : String) : KvState :=
  if st.isKeyExpired now key then
    { st with
      engine := Function.update st.engine key none
      expireMap := Function.update st.expireMap key none }
  else st

/-! ## Requests -/

def recordRequest (st : KvState) (op : Op) : KvState :=
  { st with
    lastRequestId :=
      Function.update st.lastRequestId op.clientId (some op.requestId) }

def ifRequestDuplicate (st : KvState) (clientId : String) (requestId : ℤ) :
    Bool :=
  match st.lastRequestId clientId with
  | none => false
  | some last => requestId ≤ last

/-! ## Operations -/

def put (st : KvState) (key value : String) : KvState :=
  { st with engine := Function.update st.engine key (some value) }

def executePutOpOnKVDB (st : KvState) (op : Op) : KvState :=
  ((st.put op.key op.value).setKeyExpire op.key op.expireAtMs).recordRequest op

def executeAppendOpOnKVDB (st : KvState) (now : ℕ) (op : Op) : KvState :=
  let st := st.dropExpired now op.key
  let newValue :=
    match st.engine op.key with
    | none => op.value
    | some oldValue => oldValue ++ op.value
  ((st.put op.key newValue).setKeyExpire op.key op.expireAtMs).recordRequest op

/-- The state after a `Get` of the log path, the value and whether the key
exists. -/
def executeGetOpOnKVDB (st : KvState) (now : ℕ) (op : Op) :
    KvState × String × Bool :=
  if st.isKeyExpired now op.key then
    ((st.dropExpired now op.key).recordRequest op, "", false)
  else
    (st.recordRequest op, (st.engine op.key).getD "",
      (st.engine op.key).isSome)

/-- A `Get` of the ReadIndex path changes nothing. -/
def executeReadOnlyGetOpOnKVDB (st : KvState) (now : ℕ) (op : Op) :
    String × Bool :=
  if st.isKeyExpired now op.key then
    ("", false)
  else
    ((st.engine op.key).getD "", (st.engine op.key).isSome)

/-- The dispatch of `GetCommandFromRaft` for a request that is no
duplicate. -/
def executeCommand (st : KvState) (now : ℕ) (op : Op) : KvState :=
  if op.operation = "Put" then st.executePutOpOnKVDB op
  else if op.operation = "Append" then st.executeAppendOpOnKVDB now op
  else st

/-- The operations that `executeCommand` lets write. -/
def Writes (op : Op) : Prop := op.operation = "Put" ∨ op.operation = "Append"

instance (op : Op) : Decidable (Writes op) :=
  inferInstanceAs (Decidable (_ ∨ _))

/-! ## What the operations leave in the request table -/

@[simp] theorem lastRequestId_dropExpired (st : KvState) (now : ℕ)
    (key : String) : (st.dropExpired now key).lastRequestId = st.lastRequestId := by
  unfold dropExpired
  split <;> rfl

theorem lastRequestId_executeGet (st : KvState) (now : ℕ) (op : Op) :
    (st.executeGetOpOnKVDB now op).1.lastRequestId =
      Function.update st.lastRequestId op.clientId (some op.requestId) := by
  unfold executeGetOpOnKVDB
  split <;> simp [recordRequest]

theorem lastRequestId_executeCommand (st : KvState) (now : ℕ) {op : Op}
    (h : Writes op) :
    (st.executeCommand now op).lastRequestId =
      Function.update st.lastRequestId op.clientId (some op.requestId) := by
  rcases h with h | h
  · simp [executeCommand, h, executePutOpOnKVDB, recordRequest, setKeyExpire,
      put]
  · simp [executeCommand, h, executeAppendOpOnKVDB, recordRequest,
      setKeyExpire, put]

theorem executeCommand_of_not_writes (st : KvState) (now : ℕ) {op : Op}
    (h : ¬Writes op) : st.executeCommand now op = st := by
  rw [Writes, not_or] at h
  rw [executeCommand, if_neg h.1, if_neg h.2]

theorem ifRequestDuplicate_iff {st : KvState} {clientId : String}
    {requestId : ℤ} :
    st.ifRequestDuplicate clientId requestId = true ↔
      ∃ last, st.lastRequestId clientId = some last ∧ requestId ≤ last := by
  unfold ifRequestDuplicate
  split
  · next h => simp [h]
  · next last h => simp [h]

end KvState

end KVRaftStorage
