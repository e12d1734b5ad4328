import KVRaftStorage.Storage.LsmFiles
import KVRaftStorage.Storage.LsmMap

/-!
# The LSM engine with its files

`LSMTreeEngine` opened with a write-ahead log and, if its path is not empty, a
manifest.  An operation changes the engine in memory as it does without files,
and has a list of effects on the disk.
-/

namespace KVRaftStorage

namespace LSMTreeEngine

open Files

/-- `SSTablePath`. -/
def sstablePath (manifestPath : String) (sequence : UInt64) : String :=
  if manifestPath = "" then ""
  else manifestPath ++ ".sst." ++ toString sequence.toNat

/-- `m_walPath` and `m_manifestPath`.  The log has a file of its own. -/
structure Paths where
  walPath : String
  manifestPath : String
  walPath_ne_nil : walPath ≠ ""
  walPath_ne_manifestPath : walPath ≠ manifestPath
  walPath_ne_sstablePath :
    ∀ sequence, walPath ≠ sstablePath manifestPath sequence

abbrev DiskEffect := Effect String Char

/-- An engine with the `filePath` of each of its tables. -/
structure StoredEngine where
  engine : LSMTreeEngine
  filePaths : List String

namespace StoredEngine

/-! ## Writing the files -/

section Writing

variable (P : Paths) (x : StoredEngine)

def filePath (table : SSTable) : String :=
  sstablePath P.manifestPath (.ofNat table.sequence)

def persistSSTableLocked (table : SSTable) : List DiskEffect :=
  if P.manifestPath = "" then []
  else [.truncate (filePath P table),
    .write (filePath P table) (writeSSTable table.entries)]

def rows : List ManifestRow :=
  List.zipWith (fun table filePath =>
    ⟨table.sequence, filePath, table.minKey, table.maxKey⟩)
    x.engine.sstables x.filePaths

def rewriteManifestLocked : List DiskEffect :=
  if P.manifestPath = "" then []
  else [.truncate P.manifestPath,
    .write P.manifestPath
      (writeManifest x.engine.nextSSTableSequence x.rows)]

def deleteSSTableFilesLocked : List DiskEffect :=
  if P.manifestPath = "" then []
  else (x.filePaths.filter (· ≠ "")).map .remove

def appendWALLocked (type : EntryType) (key value : String) :
    List DiskEffect :=
  if P.walPath = "" then []
  else [.write P.walPath (writeWALRecord ⟨type, key, value⟩)]

def rewriteWALLocked : List DiskEffect :=
  if P.walPath = "" then []
  else [.truncate P.walPath,
    .write P.walPath (x.engine.exportVisibleDataLocked.toList.flatMap
      (fun item => writeWALRecord ⟨.put, item.1, item.2⟩))]

end Writing

/-! ## Flushing -/

section Operations

variable (hash : String → UInt64) (P : Paths)

/-- Write the tables of the list, oldest first. -/
def flushTables : List MemTable → StoredEngine →
    StoredEngine × List DiskEffect
  | [], x => (x, [])
  | entries :: rest, x =>
      let table := x.engine.newTable hash entries
      let x' : StoredEngine :=
        { engine := { x.engine with
            immutableMemTables := rest
            nextSSTableSequence := x.engine.nextSSTableSequence + 1
            sstables := x.engine.sstables ++ [table] }
          filePaths := x.filePaths ++ [filePath P table] }
      let (x'', effects) := flushTables rest x'
      (x'', persistSSTableLocked P table ++ (x'.rewriteManifestLocked P ++
        effects))

def flushImmutableMemTablesLocked (x : StoredEngine) :
    StoredEngine × List DiskEffect :=
  flushTables hash P x.engine.immutableMemTables x

def flushMemTableLocked (x : StoredEngine) : StoredEngine × List DiskEffect :=
  flushImmutableMemTablesLocked hash P
    { x with engine := x.engine.rotateMemTableToImmutableLocked }

def flushMemTableIfNeededLocked (x : StoredEngine) :
    StoredEngine × List DiskEffect :=
  if x.engine.memTableFlushThreshold ≤ x.engine.memTable.size then
    if x.engine.asyncFlushEnabled then
      ({ x with engine := x.engine.rotateMemTableToImmutableLocked }, [])
    else x.flushMemTableLocked hash P
  else (x, [])

def compactSSTablesLocked (x : StoredEngine) :
    StoredEngine × List DiskEffect :=
  if x.engine.sstables.length ≤ 1 then (x, [])
  else
    let merged := mergeNewestFirst id (x.engine.sstables.reverse.map (·.entries))
    if merged.isEmpty then
      let x' : StoredEngine :=
        { engine := { x.engine with sstables := [] }, filePaths := [] }
      (x', x.deleteSSTableFilesLocked P ++ x'.rewriteManifestLocked P)
    else
      let table := x.engine.newTable hash merged
      let x' : StoredEngine :=
        { engine := { x.engine with
            nextSSTableSequence := x.engine.nextSSTableSequence + 1
            sstables := [table] }
          filePaths := [filePath P table] }
      (x', persistSSTableLocked P table ++ (x.deleteSSTableFilesLocked P ++
        x'.rewriteManifestLocked P))

/-! ## Operations -/

/-- The common part of `Put` and `Delete`. -/
def append (x : StoredEngine) (type : EntryType) (key value : String) :
    StoredEngine × List DiskEffect :=
  let x' := flushMemTableIfNeededLocked hash P { x with
    engine := { x.engine with
      memTable := x.engine.memTable.insert key ⟨type, value⟩ } }
  (x'.1, appendWALLocked P type key value ++ x'.2)

def put (x : StoredEngine) (key value : String) :
    StoredEngine × List DiskEffect :=
  x.append hash P .put key value

def delete (x : StoredEngine) (key : String) :
    StoredEngine × List DiskEffect :=
  x.append hash P .delete key ""

/-- The tables in memory are the given one, and no table is on the disk. -/
def replaceBy (x : StoredEngine) (memTable : MemTable) : StoredEngine where
  engine := { x.engine with
    memTable := memTable
    immutableMemTables := []
    sstables := [] }
  filePaths := []

def restore (x : StoredEngine) (snapshot : String) :
    Except Fault (StoredEngine × List DiskEffect) :=
  if snapshot.toList = [] then
    let x' := x.replaceBy ∅
    return (x', x.deleteSSTableFilesLocked P ++ (x'.rewriteWALLocked P ++
      x'.rewriteManifestLocked P))
  else do
    let data ← readSnapshot snapshot
    let x' := x.replaceBy (restoredEntries data)
    let (x'', effects) := x'.flushMemTableIfNeededLocked hash P
    return (x'', x.deleteSSTableFilesLocked P ++ (x'.rewriteWALLocked P ++
      (x'.rewriteManifestLocked P ++ effects)))

/-- One round of `BackgroundWorkerLoop`. -/
def backgroundRound (x : StoredEngine) : StoredEngine × List DiskEffect :=
  let (x, flushed) := x.flushMemTableLocked hash P
  if 1 < x.engine.sstables.length then
    let (x, compacted) := x.compactSSTablesLocked hash P
    (x, flushed ++ compacted)
  else (x, flushed)

/-! ## Opening -/

def recoverFromManifestLocked (disk : Disk) (x : StoredEngine) :
    Except Fault StoredEngine :=
  if P.manifestPath = "" then return x
  else
    match disk P.manifestPath with
    | none => return x
    | some input => do
        let (nextSSTableSequence, input) ← readUint64FromStream input
        let (tableCount, input) ← readUint64FromStream input
        let tables ← recoverTables hash disk tableCount input
        return {
          engine := { x.engine with
            nextSSTableSequence := nextSSTableSequence
            sstables := x.engine.sstables ++ tables.map Prod.fst }
          filePaths := x.filePaths ++ tables.map Prod.snd }

/-- The loop of `RecoverFromWALLocked`.  A record has at least one byte, so the
first argument is large enough if it is the length of the input. -/
def replayWAL : ℕ → List Char → StoredEngine →
    Except Fault (StoredEngine × List DiskEffect)
  | 0, _, x => return (x, [])
  | _ + 1, [], x => return (x, [])
  | fuel + 1, c :: input, x => do
      let (record, input) ← readWALRecord (c :: input)
      let (x, flushed) := flushMemTableIfNeededLocked hash P { x with
        engine := { x.engine with
          memTable := x.engine.memTable.insert record.key
            ⟨record.type, record.value⟩ } }
      let (x, effects) ← replayWAL fuel input x
      return (x, flushed ++ effects)

def recoverFromWALLocked (disk : Disk) (x : StoredEngine) :
    Except Fault (StoredEngine × List DiskEffect) :=
  if P.walPath = "" then return (x, [])
  else
    match disk P.walPath with
    | none => return (x, [])
    | some input => replayWAL hash P input.length input x

/-- The constructors with a log. -/
def new (disk : Disk) (memTableFlushThreshold : ℕ) :
    Except Fault (StoredEngine × List DiskEffect) := do
  let x ← recoverFromManifestLocked hash P disk
    ⟨.new memTableFlushThreshold, []⟩
  recoverFromWALLocked hash P disk x

/-- The destructor waits for the background worker, which makes a last round. -/
def destroy (x : StoredEngine) (backgroundRunning : Bool) :
    StoredEngine × List DiskEffect :=
  if backgroundRunning then x.backgroundRound hash P else (x, [])

/-- The engine is destroyed, and another one is opened with the same paths. -/
def restart (disk : Disk) (x : StoredEngine) (backgroundRunning : Bool)
    (memTableFlushThreshold : ℕ) :
    Except Fault (StoredEngine × List DiskEffect) := do
  let stopped := (x.destroy hash P backgroundRunning).2
  let (x', effects) ← new hash P (disk.performAll stopped) memTableFlushThreshold
  return (x', stopped ++ effects)

end Operations

/-- What is done with an engine. -/
inductive Operation where
  | put (key value : String)
  | delete (key : String)
  | flush
  | compact
  | backgroundRound
  | enableAsyncFlush (enabled : Bool)
  | restore (snapshot : String)
  | restart (backgroundRunning : Bool) (memTableFlushThreshold : ℕ)

def run (hash : String → UInt64) (P : Paths) (disk : Disk) (x : StoredEngine) :
    Operation → Except Fault (StoredEngine × List DiskEffect)
  | .put key value => return x.put hash P key value
  | .delete key => return x.delete hash P key
  | .flush => return x.flushMemTableLocked hash P
  | .compact => return x.compactSSTablesLocked hash P
  | .backgroundRound => return x.backgroundRound hash P
  | .enableAsyncFlush enabled =>
      return ({ x with engine := x.engine.enableAsyncFlush enabled }, [])
  | .restore snapshot => x.restore hash P snapshot
  | .restart backgroundRunning memTableFlushThreshold =>
      restart hash P disk x backgroundRunning memTableFlushThreshold

/-! ## The engine in memory -/

section Memory

variable {hash : String → UInt64} {P : Paths} {x : StoredEngine}

@[simp] theorem flushTables_engine (tables : List MemTable)
    (x : StoredEngine) : (flushTables hash P tables x).1.engine =
      LSMTreeEngine.flushTables hash tables x.engine := by
  induction tables generalizing x with
  | nil => rfl
  | cons entries rest ih => exact ih _

@[simp] theorem flushMemTableLocked_engine (x : StoredEngine) :
    (x.flushMemTableLocked hash P).1.engine =
      x.engine.flushMemTableLocked hash :=
  flushTables_engine _ _

@[simp] theorem flushMemTableIfNeededLocked_engine (x : StoredEngine) :
    (x.flushMemTableIfNeededLocked hash P).1.engine =
      x.engine.flushMemTableIfNeededLocked hash := by
  unfold flushMemTableIfNeededLocked
    LSMTreeEngine.flushMemTableIfNeededLocked
  split
  · split
    · rfl
    · exact flushMemTableLocked_engine x
  · rfl

@[simp] theorem compactSSTablesLocked_engine (x : StoredEngine) :
    (x.compactSSTablesLocked hash P).1.engine =
      x.engine.compactSSTablesLocked hash := by
  unfold compactSSTablesLocked LSMTreeEngine.compactSSTablesLocked
  split
  · rfl
  · dsimp only
    split
    · rfl
    · rfl

@[simp] theorem put_engine (x : StoredEngine) (key value : String) :
    (x.put hash P key value).1.engine = x.engine.put hash key value :=
  flushMemTableIfNeededLocked_engine _

@[simp] theorem delete_engine (x : StoredEngine) (key : String) :
    (x.delete hash P key).1.engine = x.engine.delete hash key :=
  flushMemTableIfNeededLocked_engine _

@[simp] theorem backgroundRound_engine (x : StoredEngine) :
    (x.backgroundRound hash P).1.engine = x.engine.backgroundRound hash := by
  unfold backgroundRound LSMTreeEngine.backgroundRound
  dsimp only
  rw [flushMemTableLocked_engine]
  split
  · simp
  · simp

end Memory

end StoredEngine

end LSMTreeEngine

end KVRaftStorage
