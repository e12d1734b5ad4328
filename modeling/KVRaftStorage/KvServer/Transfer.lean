import KVRaftStorage.KvServer.AppliedLog
import KVRaftStorage.Storage.KVEngine

/-!
# Snapshots over the storage engines

The part of `class KvServer` that a snapshot holds, over an engine of the
repository instead of a finite map.  Whatever the engine does behind its
interface, the store stands for a `KvState`, commands change it as they change
that state, and a restored snapshot replaces it.  So a server that installs or
loads a snapshot and applies the rest of the log ends where a server ends that
applies the whole log.
-/

namespace KVRaftStorage

structure KvStore where
  engine : KVEngine
  expireMap : String → Option ℕ
  lastRequestId : String → Option ℤ
  lastSnapShotRaftLogIndex : ℕ

/-- What `serialize` puts into the archive. -/
structure KvImage where
  serializedKVData : EngineImage
  expireMap : String → Option ℕ
  lastRequestId : String → Option ℤ

namespace KvStore

/-! ## Commands -/

def isKeyExpired (store : KvStore) (now : ℕ) (key : String) : Bool :=
  match store.expireMap key with
  | none => false
  | some expireAt => expireAt < now

def setKeyExpire (store : KvStore) (key : String) (expireAtMs : ℤ) : KvStore :=
  { store with
    expireMap := Function.update store.expireMap key
      (if 0 < expireAtMs then some expireAtMs.toNat else none) }

def recordRequest (store : KvStore) (op : Op) : KvStore :=
  { store with
    lastRequestId :=
      Function.update store.lastRequestId op.clientId (some op.requestId) }

def ifRequestDuplicate (store : KvStore) (clientId : String) (requestId : ℤ) :
    Bool :=
  match store.lastRequestId clientId with
  | none => false
  | some last => requestId ≤ last

variable (hash : String → UInt64)

/-- The key leaves the engine and the expiry map if its time is over. -/
def dropExpired (store : KvStore) (now : ℕ) (key : String) :
    Except Fault KvStore := do
  if store.isKeyExpired now key then
    return { store with
      engine := ← store.engine.delete hash key
      expireMap := Function.update store.expireMap key none }
  else return store

def put (store : KvStore) (key value : String) : Except Fault KvStore := do
  return { store with engine := ← store.engine.put hash key value }

def executePutOpOnKVDB (store : KvStore) (op : Op) : Except Fault KvStore := do
  let store ← store.put hash op.key op.value
  return (store.setKeyExpire op.key op.expireAtMs).recordRequest op

def executeAppendOpOnKVDB (store : KvStore) (now : ℕ) (op : Op) :
    Except Fault KvStore := do
  let store ← store.dropExpired hash now op.key
  let (found, engine) ← store.engine.get hash op.key
  let newValue :=
    match found with
    | none => op.value
    | some oldValue => oldValue ++ op.value
  let store ← { store with engine }.put hash op.key newValue
  return (store.setKeyExpire op.key op.expireAtMs).recordRequest op

def executeGetOpOnKVDB (store : KvStore) (now : ℕ) (op : Op) :
    Except Fault KvStore := do
  if store.isKeyExpired now op.key then
    return (← store.dropExpired hash now op.key).recordRequest op
  else
    let (_, engine) ← store.engine.get hash op.key
    return { store with engine }.recordRequest op

def executeReadOnlyGetOpOnKVDB (store : KvStore) (now : ℕ) (op : Op) :
    Except Fault KvStore := do
  if store.isKeyExpired now op.key then return store
  else
    let (_, engine) ← store.engine.get hash op.key
    return { store with engine }

def executeCommand (store : KvStore) (now : ℕ) (op : Op) :
    Except Fault KvStore :=
  if op.operation = "Put" then store.executePutOpOnKVDB hash op
  else if op.operation = "Append" then store.executeAppendOpOnKVDB hash now op
  else .ok store

def getCommandFromRaft (store : KvStore) (commandIndex now : ℕ) (op : Op) :
    Except Fault KvStore :=
  if commandIndex ≤ store.lastSnapShotRaftLogIndex then .ok store
  else if store.ifRequestDuplicate op.clientId op.requestId then .ok store
  else store.executeCommand hash now op

/-- The apply loop takes commands with consecutive indices, each with its
reading of the clock. -/
def applyLog : KvStore → ℕ → List (ℕ × Op) → Except Fault KvStore
  | store, _, [] => .ok store
  | store, index, (now, op) :: log => do
      applyLog (← store.getCommandFromRaft hash index now op) (index + 1) log

/-! ## Snapshots -/

/-- `getSnapshotData` under the lock. -/
def makeSnapShot (store : KvStore) : Except Fault (KvImage × KvStore) := do
  let (serializedKVData, engine) ← store.engine.snapshot hash
  return (⟨serializedKVData, store.expireMap, store.lastRequestId⟩,
    { store with engine })

/-- `parseFromString`, unless the snapshot is empty. -/
def readSnapShotToInstall (store : KvStore) :
    Option KvImage → Except Fault KvStore
  | none => .ok store
  | some image => do
      return { store with
        engine := ← store.engine.restore hash image.serializedKVData
        expireMap := image.expireMap
        lastRequestId := image.lastRequestId }

/-- `CondInstallSnapshot` accepts every snapshot. -/
def getSnapShotFromRaft (store : KvStore) (snapshot : Option KvImage)
    (snapshotIndex : ℕ) : Except Fault KvStore := do
  return { ← store.readSnapShotToInstall hash snapshot with
    lastSnapShotRaftLogIndex := snapshotIndex }

/-- The members as the constructor of `KvServer` finds them. -/
def new (engine : KVEngine) : KvStore where
  engine := engine
  expireMap := fun _ => none
  lastRequestId := fun _ => none
  lastSnapShotRaftLogIndex := 0

/-- The constructor of `KvServer` with the snapshot of the persister. -/
def start (engine : KVEngine) (snapshot : Option KvImage) :
    Except Fault KvStore :=
  (new engine).readSnapShotToInstall hash snapshot

end KvStore

/-! ## The state of a store -/

/-- The commands of a log, each with its reading of the clock. -/
def KvState.applyLog (st : KvState) (log : List (ℕ × Op)) : KvState :=
  log.foldl (fun st command => st.applyChecked st command.1 command.2) st

theorem KvState.applyLog_append (st : KvState) (before after : List (ℕ × Op)) :
    st.applyLog (before ++ after) = (st.applyLog before).applyLog after :=
  List.foldl_append

namespace KvStore

open KVEngine (Base StandsFor ImageHolds Created)

/-- Every key reads as in the state, and the tables are those of the state. -/
structure Shows (hash : String → UInt64) (store : KvStore) (st : KvState) :
    Prop where
  get : ∀ key, ∃ engine, store.engine.get hash key = .ok (st.engine key, engine)
  expireMap : store.expireMap = st.expireMap
  lastRequestId : store.lastRequestId = st.lastRequestId

/-- The engine stands for that of the state, and the tables are those of the
state. -/
structure Represents (hash : String → UInt64) (base : Base) (store : KvStore)
    (st : KvState) : Prop where
  engine : ∃ m, StandsFor hash base store.engine m ∧
    st.engine = fun key => m[key]?
  expireMap : store.expireMap = st.expireMap
  lastRequestId : store.lastRequestId = st.lastRequestId

/-- The archive holds the state. -/
structure Holds (base : Base) (image : KvImage) (st : KvState) : Prop where
  engine : ∃ m, ImageHolds base image.serializedKVData m ∧
    st.engine = fun key => m[key]?
  expireMap : image.expireMap = st.expireMap
  lastRequestId : image.lastRequestId = st.lastRequestId

/-- A store after any calls: it may have started with a snapshot of its own
life before, or installed one of another server. -/
inductive Reached (hash : String → UInt64) (base : Base) : KvStore → Prop where
  | new {engine} (h : Created base engine) : Reached hash base (new engine)
  | getCommandFromRaft {store store'} (h : Reached hash base store)
      (index now : ℕ) (op : Op)
      (hcommand : store.getCommandFromRaft hash index now op = .ok store') :
      Reached hash base store'
  | executeGetOpOnKVDB {store store'} (h : Reached hash base store) (now : ℕ)
      (op : Op) (hget : store.executeGetOpOnKVDB hash now op = .ok store') :
      Reached hash base store'
  | executeReadOnlyGetOpOnKVDB {store store'} (h : Reached hash base store)
      (now : ℕ) (op : Op)
      (hget : store.executeReadOnlyGetOpOnKVDB hash now op = .ok store') :
      Reached hash base store'
  | makeSnapShot {store store' image} (h : Reached hash base store)
      (hmake : store.makeSnapShot hash = .ok (image, store')) :
      Reached hash base store'
  | readSnapShotToInstall {store store' sender sender' image}
      (h : Reached hash base store) (hsender : Reached hash base sender)
      (hmake : sender.makeSnapShot hash = .ok (image, sender'))
      (hread : store.readSnapShotToInstall hash (some image) = .ok store') :
      Reached hash base store'
  | getSnapShotFromRaft {store store' sender sender' image}
      (h : Reached hash base store) (hsender : Reached hash base sender)
      (hmake : sender.makeSnapShot hash = .ok (image, sender')) (index : ℕ)
      (hinstall : store.getSnapShotFromRaft hash (some image) index =
        .ok store') :
      Reached hash base store'

section Operations

variable {hash : String → UInt64} {base : Base} {store store' : KvStore}
  {st st' : KvState} {image : KvImage}

theorem Represents.shows (h : store.Represents hash base st) :
    store.Shows hash st := by
  refine ⟨?_, h.expireMap, h.lastRequestId⟩
  intro key
  obtain ⟨m, hstands, hengine⟩ := h.engine
  obtain ⟨engine, hget, -⟩ := KVEngine.get_spec hstands key
  exact ⟨engine, by rw [hget, hengine]⟩

theorem Represents.isKeyExpired (h : store.Represents hash base st) (now : ℕ)
    (key : String) : store.isKeyExpired now key = st.isKeyExpired now key := by
  cases hexpire : st.expireMap key <;>
    simp [KvStore.isKeyExpired, KvState.isKeyExpired, h.expireMap, hexpire]

theorem Represents.ifRequestDuplicate (h : store.Represents hash base st)
    (clientId : String) (requestId : ℤ) :
    store.ifRequestDuplicate clientId requestId =
      st.ifRequestDuplicate clientId requestId := by
  cases hlast : st.lastRequestId clientId <;>
    simp [KvStore.ifRequestDuplicate, KvState.ifRequestDuplicate,
      h.lastRequestId, hlast]

theorem Represents.setKeyExpire (h : store.Represents hash base st)
    (key : String) (expireAtMs : ℤ) :
    (store.setKeyExpire key expireAtMs).Represents hash base
      (st.setKeyExpire key expireAtMs) := by
  refine ⟨h.engine, ?_, h.lastRequestId⟩
  simp only [KvStore.setKeyExpire, KvState.setKeyExpire, h.expireMap]

theorem Represents.recordRequest (h : store.Represents hash base st) (op : Op) :
    (store.recordRequest op).Represents hash base (st.recordRequest op) := by
  refine ⟨h.engine, h.expireMap, ?_⟩
  simp only [KvStore.recordRequest, KvState.recordRequest, h.lastRequestId]

theorem Represents.get (h : store.Represents hash base st) (key : String) :
    ∃ engine, store.engine.get hash key = .ok (st.engine key, engine) ∧
      Represents hash base { store with engine } st := by
  obtain ⟨m, hstands, hengine⟩ := h.engine
  obtain ⟨engine, hget, hstands'⟩ := KVEngine.get_spec hstands key
  refine ⟨engine, ?_, ⟨m, hstands', hengine⟩, h.expireMap, h.lastRequestId⟩
  rw [hget, hengine]

theorem Represents.put (h : store.Represents hash base st)
    (key value : String) :
    ∃ engine, store.put hash key value = .ok { store with engine } ∧
      Represents hash base { store with engine } (st.put key value) := by
  obtain ⟨m, hstands, hengine⟩ := h.engine
  obtain ⟨engine, hput, hstands'⟩ := KVEngine.put_spec hstands key value
  refine ⟨engine, by rw [KvStore.put, hput]; rfl,
    ⟨_, hstands', ?_⟩, h.expireMap, h.lastRequestId⟩
  funext k
  simp only [KvState.put, hengine]
  rw [Std.ExtTreeMap.getElem?_insert]
  by_cases hk : k = key
  · subst hk
    simp
  · rw [Function.update_of_ne hk,
      if_neg fun heq => hk (compare_eq_iff_eq.mp heq).symm]

theorem Represents.dropExpired (h : store.Represents hash base st) (now : ℕ)
    (key : String) :
    ∃ store', store.dropExpired hash now key = .ok store' ∧
      store'.Represents hash base (st.dropExpired now key) ∧
      store'.lastSnapShotRaftLogIndex = store.lastSnapShotRaftLogIndex := by
  rw [KvStore.dropExpired, KvState.dropExpired, h.isKeyExpired]
  split
  · obtain ⟨m, hstands, hengine⟩ := h.engine
    obtain ⟨engine, hdelete, hstands'⟩ := KVEngine.delete_spec hstands key
    refine ⟨{ store with
      engine, expireMap := Function.update store.expireMap key none },
      by rw [hdelete]; rfl, ⟨⟨_, hstands', ?_⟩, ?_, h.lastRequestId⟩, rfl⟩
    · funext k
      simp only [hengine]
      rw [Std.ExtTreeMap.getElem?_erase]
      by_cases hk : k = key
      · subst hk
        simp
      · rw [Function.update_of_ne hk,
          if_neg fun heq => hk (compare_eq_iff_eq.mp heq).symm]
    · simp only [h.expireMap]
  · exact ⟨store, rfl, h, rfl⟩

theorem Represents.executePut (h : store.Represents hash base st) (op : Op) :
    ∃ store', store.executePutOpOnKVDB hash op = .ok store' ∧
      store'.Represents hash base (st.executePutOpOnKVDB op) ∧
      store'.lastSnapShotRaftLogIndex = store.lastSnapShotRaftLogIndex := by
  obtain ⟨engine, hput, h'⟩ := h.put op.key op.value
  refine ⟨_, ?_, (h'.setKeyExpire op.key op.expireAtMs).recordRequest op, rfl⟩
  rw [KvStore.executePutOpOnKVDB, hput]
  rfl

theorem Represents.executeAppend (h : store.Represents hash base st) (now : ℕ)
    (op : Op) :
    ∃ store', store.executeAppendOpOnKVDB hash now op = .ok store' ∧
      store'.Represents hash base (st.executeAppendOpOnKVDB now op) ∧
      store'.lastSnapShotRaftLogIndex = store.lastSnapShotRaftLogIndex := by
  obtain ⟨store₁, hdrop, h₁, hindex⟩ := h.dropExpired now op.key
  obtain ⟨engine₂, hget, h₂⟩ := h₁.get op.key
  obtain ⟨engine₃, hput, h₃⟩ := h₂.put op.key
    (match (st.dropExpired now op.key).engine op.key with
      | none => op.value
      | some oldValue => oldValue ++ op.value)
  refine ⟨_, ?_, (h₃.setKeyExpire op.key op.expireAtMs).recordRequest op,
    hindex⟩
  rw [KvStore.executeAppendOpOnKVDB, hdrop]
  simp only [bind, Except.bind, hget, hput]
  rfl

theorem Represents.executeGet (h : store.Represents hash base st) (now : ℕ)
    (op : Op) :
    ∃ store', store.executeGetOpOnKVDB hash now op = .ok store' ∧
      store'.Represents hash base (st.executeGetOpOnKVDB now op).1 ∧
      store'.lastSnapShotRaftLogIndex = store.lastSnapShotRaftLogIndex := by
  rw [KvStore.executeGetOpOnKVDB, KvState.executeGetOpOnKVDB, h.isKeyExpired]
  split
  · obtain ⟨store', hdrop, h', hindex⟩ := h.dropExpired now op.key
    exact ⟨_, by rw [hdrop]; rfl, h'.recordRequest op, hindex⟩
  · obtain ⟨engine, hget, h'⟩ := h.get op.key
    exact ⟨_, by rw [hget]; rfl, h'.recordRequest op, rfl⟩

theorem Represents.executeReadOnlyGet (h : store.Represents hash base st)
    (now : ℕ) (op : Op) :
    ∃ store', store.executeReadOnlyGetOpOnKVDB hash now op = .ok store' ∧
      store'.Represents hash base st := by
  rw [KvStore.executeReadOnlyGetOpOnKVDB]
  split
  · exact ⟨store, rfl, h⟩
  · obtain ⟨engine, hget, h'⟩ := h.get op.key
    exact ⟨_, by rw [hget]; rfl, h'⟩

theorem Represents.executeCommand (h : store.Represents hash base st)
    (now : ℕ) (op : Op) :
    ∃ store', store.executeCommand hash now op = .ok store' ∧
      store'.Represents hash base (st.executeCommand now op) ∧
      store'.lastSnapShotRaftLogIndex = store.lastSnapShotRaftLogIndex := by
  rw [KvStore.executeCommand, KvState.executeCommand]
  split
  · exact h.executePut op
  · split
    · exact h.executeAppend now op
    · exact ⟨store, rfl, h, rfl⟩

/-- A command behind the last installed snapshot is applied. -/
theorem Represents.getCommandFromRaft (h : store.Represents hash base st)
    {index : ℕ}
    (hindex : store.lastSnapShotRaftLogIndex < index)
    (now : ℕ) (op : Op) :
    ∃ store', store.getCommandFromRaft hash index now op = .ok store' ∧
      store'.Represents hash base (st.applyChecked st now op) ∧
      store'.lastSnapShotRaftLogIndex = store.lastSnapShotRaftLogIndex := by
  rw [KvStore.getCommandFromRaft, if_neg (Nat.not_le.mpr hindex),
    KvState.applyChecked, h.ifRequestDuplicate]
  split
  · exact ⟨store, rfl, h, rfl⟩
  · exact h.executeCommand now op

theorem Represents.applyLog (h : store.Represents hash base st) {index : ℕ}
    (hindex : store.lastSnapShotRaftLogIndex < index)
    (log : List (ℕ × Op)) :
    ∃ store', store.applyLog hash index log = .ok store' ∧
      store'.Represents hash base (st.applyLog log) := by
  induction log generalizing store st index with
  | nil => exact ⟨store, rfl, h⟩
  | cons command log ih =>
      obtain ⟨now, op⟩ := command
      obtain ⟨store₁, hcommand, h₁, hsame⟩ := h.getCommandFromRaft hindex now op
      obtain ⟨store', hlog, h'⟩ := ih h₁ (hsame.trans_lt (Nat.lt_succ_of_lt hindex))
      refine ⟨store', ?_, h'⟩
      rw [KvStore.applyLog, hcommand]
      exact hlog

/-! ## Snapshots of a state -/

theorem Represents.makeSnapShot (h : store.Represents hash base st)
    (hmake : store.makeSnapShot hash = .ok (image, store')) :
    Holds base image st ∧ store'.Represents hash base st := by
  obtain ⟨m, hstands, hengine⟩ := h.engine
  rw [KvStore.makeSnapShot] at hmake
  cases hsnapshot : store.engine.snapshot hash with
  | error fault =>
      rw [hsnapshot] at hmake
      cases hmake
  | ok result =>
      rw [hsnapshot] at hmake
      cases hmake
      obtain ⟨hholds, hstands'⟩ := KVEngine.snapshot_spec hstands hsnapshot
      exact ⟨⟨⟨m, hholds, hengine⟩, h.expireMap, h.lastRequestId⟩,
        ⟨m, hstands', hengine⟩, h.expireMap, h.lastRequestId⟩

/-- Whatever the store stood for, it stands for the state of the archive. -/
theorem Represents.readSnapShotToInstall (h : store.Represents hash base st)
    (hholds : Holds base image st') :
    ∃ store', store.readSnapShotToInstall hash (some image) = .ok store' ∧
      store'.Represents hash base st' ∧
      store'.lastSnapShotRaftLogIndex = store.lastSnapShotRaftLogIndex := by
  obtain ⟨m, hstands, -⟩ := h.engine
  obtain ⟨m', himage, hengine⟩ := hholds.engine
  obtain ⟨engine, hrestore, hstands'⟩ := KVEngine.restore_spec hstands himage
  refine ⟨{ store with
    engine
    expireMap := image.expireMap
    lastRequestId := image.lastRequestId }, ?_,
    ⟨⟨m', hstands', hengine⟩, hholds.expireMap, hholds.lastRequestId⟩, rfl⟩
  rw [KvStore.readSnapShotToInstall, hrestore]
  rfl

theorem Represents.getSnapShotFromRaft (h : store.Represents hash base st)
    (hholds : Holds base image st') (index : ℕ) :
    ∃ store', store.getSnapShotFromRaft hash (some image) index = .ok store' ∧
      store'.Represents hash base st' ∧
      store'.lastSnapShotRaftLogIndex = index := by
  obtain ⟨store', hread, h', -⟩ := h.readSnapShotToInstall hholds
  refine ⟨{ store' with lastSnapShotRaftLogIndex := index }, ?_,
    ⟨h'.engine, h'.expireMap, h'.lastRequestId⟩, rfl⟩
  rw [KvStore.getSnapShotFromRaft, hread]
  rfl

theorem represents_new (hash : String → UInt64) {engine : KVEngine}
    (h : Created base engine) :
    (new engine).Represents hash base .empty := by
  refine ⟨⟨∅, h.standsFor, ?_⟩, rfl, rfl⟩
  funext key
  exact Std.ExtTreeMap.getElem?_empty.symm

theorem applyLog_new (hash : String → UInt64) {engine : KVEngine}
    (h : Created base engine) (log : List (ℕ × Op)) :
    ∃ store, (new engine).applyLog hash 1 log = .ok store ∧
      store.Represents hash base (KvState.empty.applyLog log) :=
  (represents_new hash h).applyLog Nat.one_pos log

theorem Reached.represents (h : Reached hash base store) :
    ∃ st, store.Represents hash base st := by
  induction h with
  | new hcreated => exact ⟨_, represents_new hash hcreated⟩
  | @getCommandFromRaft store _ _ index now op hcommand ih =>
      obtain ⟨st, hrep⟩ := ih
      by_cases hold : index ≤ store.lastSnapShotRaftLogIndex
      · rw [KvStore.getCommandFromRaft, if_pos hold] at hcommand
        exact ⟨st, Except.ok.inj hcommand ▸ hrep⟩
      · obtain ⟨store', heq, hrep', -⟩ :=
          hrep.getCommandFromRaft (Nat.lt_of_not_le hold) now op
        rw [heq] at hcommand
        exact ⟨_, Except.ok.inj hcommand ▸ hrep'⟩
  | executeGetOpOnKVDB _ now op hget ih =>
      obtain ⟨st, hrep⟩ := ih
      obtain ⟨store', heq, hrep', -⟩ := hrep.executeGet now op
      rw [heq] at hget
      exact ⟨_, Except.ok.inj hget ▸ hrep'⟩
  | executeReadOnlyGetOpOnKVDB _ now op hget ih =>
      obtain ⟨st, hrep⟩ := ih
      obtain ⟨store', heq, hrep'⟩ := hrep.executeReadOnlyGet now op
      rw [heq] at hget
      exact ⟨_, Except.ok.inj hget ▸ hrep'⟩
  | makeSnapShot _ hmake ih =>
      obtain ⟨st, hrep⟩ := ih
      exact ⟨st, (hrep.makeSnapShot hmake).2⟩
  | readSnapShotToInstall _ _ hmake hread ih ihsender =>
      obtain ⟨st, hrep⟩ := ih
      obtain ⟨st', hsender⟩ := ihsender
      obtain ⟨store', heq, hrep', -⟩ :=
        hrep.readSnapShotToInstall (hsender.makeSnapShot hmake).1
      rw [heq] at hread
      exact ⟨_, Except.ok.inj hread ▸ hrep'⟩
  | getSnapShotFromRaft _ _ hmake index hinstall ih ihsender =>
      obtain ⟨st, hrep⟩ := ih
      obtain ⟨st', hsender⟩ := ihsender
      obtain ⟨store', heq, hrep', -⟩ :=
        hrep.getSnapShotFromRaft (hsender.makeSnapShot hmake).1 index
      rw [heq] at hinstall
      exact ⟨_, Except.ok.inj hinstall ▸ hrep'⟩

/-! ## Transfer -/

/-- A server made a snapshot after the commands in `before`.  A server in any
state that installs it, a server that starts with it, both of which then apply
the commands in `after`, and a server that applies all commands end in the
same state. -/
theorem snapshot_transfer {made sender' receiver : KvStore}
    {senderEngine restartEngine freshEngine : KVEngine}
    {before : List (ℕ × Op)} (after : List (ℕ × Op))
    (hsender : Created base senderEngine)
    (hbefore : (new senderEngine).applyLog hash 1 before = .ok made)
    (hmake : made.makeSnapShot hash = .ok (image, sender'))
    (hreceiver : Reached hash base receiver)
    (hrestart : Created base restartEngine)
    (hfresh : Created base freshEngine) :
    ∃ installed installed' restarted restarted' full,
      receiver.getSnapShotFromRaft hash (some image) before.length =
        .ok installed ∧
      installed.applyLog hash (before.length + 1) after = .ok installed' ∧
      start hash restartEngine (some image) = .ok restarted ∧
      restarted.applyLog hash (before.length + 1) after = .ok restarted' ∧
      (new freshEngine).applyLog hash 1 (before ++ after) = .ok full ∧
      ∀ store ∈ [installed', restarted', full],
        store.Shows hash (KvState.empty.applyLog (before ++ after)) := by
  obtain ⟨made', hmade', hmade⟩ := applyLog_new hash hsender before
  obtain rfl := Except.ok.inj (hmade'.symm.trans hbefore)
  have hholds := (hmade.makeSnapShot hmake).1
  obtain ⟨st, hst⟩ := hreceiver.represents
  obtain ⟨installed, hinstall, hinstalled, hindex⟩ :=
    hst.getSnapShotFromRaft hholds before.length
  obtain ⟨installed', hafter, hinstalled'⟩ :=
    hinstalled.applyLog (hindex.trans_lt (Nat.lt_succ_self _)) after
  obtain ⟨restarted, hread, hrestarted, hzero⟩ :=
    (represents_new hash hrestart).readSnapShotToInstall hholds
  obtain ⟨restarted', hafter', hrestarted'⟩ :=
    hrestarted.applyLog (hzero.trans_lt (Nat.succ_pos before.length)) after
  obtain ⟨full, hall, hfull⟩ := applyLog_new hash hfresh (before ++ after)
  rw [KvState.applyLog_append] at hfull ⊢
  refine ⟨installed, installed', restarted, restarted', full, hinstall, hafter,
    hread, hafter', hall, ?_⟩
  simp only [List.forall_mem_cons]
  exact ⟨hinstalled'.shows, hrestarted'.shows, hfull.shows, by simp⟩

/-! ## A transfer between two servers -/

/-- A request of client `c` for the key `k`. -/
def sampleOp (operation value : String) (requestId expireAtMs : ℤ) : Op where
  operation := operation
  key := "k"
  value := value
  clientId := "c"
  requestId := requestId
  ttlMs := 0
  expireAtMs := expireAtMs

/-- The receiver has another value of the key in its cache; the log behind the
snapshot repeats the `Put` and appends to the expired key. -/
theorem snapshot_transfer_default :
    let hash := fun key : String => UInt64.ofNat key.length
    let engine := KVEngine.createDefaultKVEngine fun _ => 1
    let before := [(3, sampleOp "Put" "a" 1 5)]
    let after := [(8, sampleOp "Put" "a" 1 5), (9, sampleOp "Append" "b" 2 0)]
    ∃ made image sender' receiver installed installed' restarted restarted' full,
      (new engine).applyLog hash 1 before = .ok made ∧
      made.makeSnapShot hash = .ok (image, sender') ∧
      (new engine).getCommandFromRaft hash 1 0 (sampleOp "Put" "z" 7 0) =
        .ok receiver ∧
      receiver.getSnapShotFromRaft hash (some image) 1 = .ok installed ∧
      installed.applyLog hash 2 after = .ok installed' ∧
      start hash engine (some image) = .ok restarted ∧
      restarted.applyLog hash 2 after = .ok restarted' ∧
      (new engine).applyLog hash 1 (before ++ after) = .ok full ∧
      ∀ store ∈ [installed', restarted', full],
        store.Shows hash (KvState.empty.applyLog (before ++ after)) := by
  intro hash engine before after
  have hcreated : Created .lsmTree engine := KVEngine.created_default _
  obtain ⟨made, hmade, hrep⟩ := applyLog_new hash hcreated before
  obtain ⟨m, hstands, hengine⟩ := hrep.engine
  have hm : m = (∅ : Std.ExtTreeMap String String).insert "k" "a" := by
    apply Std.ExtTreeMap.ext_getElem?
    intro key
    rw [← congrFun hengine key, Std.ExtTreeMap.getElem?_insert]
    by_cases hkey : key = "k"
    · subst hkey
      decide +kernel
    · rw [if_neg fun heq => hkey (compare_eq_iff_eq.mp heq).symm]
      exact Function.update_of_ne hkey _ _
  obtain ⟨serializedKVData, engine', hsnapshot⟩ :=
    KVEngine.snapshot_of_le hstands (by rw [hm]; decide +kernel)
  have hmake : made.makeSnapShot hash =
      .ok (⟨serializedKVData, made.expireMap, made.lastRequestId⟩,
        { made with engine := engine' }) := by
    rw [makeSnapShot, hsnapshot]
    rfl
  obtain ⟨receiver, hcommand, -⟩ :=
    (represents_new hash hcreated).getCommandFromRaft
      (Nat.one_pos : 0 < 1) 0 (sampleOp "Put" "z" 7 0)
  have hreceiver : Reached hash .lsmTree receiver :=
    .getCommandFromRaft (.new hcreated) 1 0 _ hcommand
  obtain ⟨installed, installed', restarted, restarted', full, h⟩ :=
    snapshot_transfer after hcreated hmade hmake hreceiver hcreated hcreated
  exact ⟨made, _, _, receiver, installed, installed', restarted, restarted',
    full, hmade, hmake, hcommand, h⟩

end Operations

end KvStore

end KVRaftStorage
