import KVRaftStorage.Storage.LsmTree
import KVRaftStorage.Support.Files

/-!
# The files of the LSM engine

The write-ahead log, the sorted tables and the manifest as bytes.  A stream that
is read is the list of the bytes that are still to come.  What was written is
read back as long as the file is not longer than a file can be.
-/

namespace KVRaftStorage

namespace LSMTreeEngine

open Files

/-- The largest value of `off_t`. -/
def maxFileSize : ℕ := 2 ^ 63 - 1

abbrev Disk := FileSystem String Char

/-! ## Writing -/

structure WALRecord where
  type : EntryType
  key : String
  value : String
deriving DecidableEq

/-- `static_cast<char>` of an entry type. -/
def rawType : EntryType → Char
  | .put => Char.ofNat 1
  | .delete => Char.ofNat 2

def writeWALRecord (record : WALRecord) : List Char :=
  rawType record.type :: (writeUint64 record.key.length ++
    (writeUint64 record.value.length ++
      (record.key.toList ++ record.value.toList)))

/-- The file written by `PersistSSTableLocked`.  An entry is written like a
record of the log. -/
def writeSSTable (entries : MemTable) : List Char :=
  writeUint64 entries.size ++ entries.toList.flatMap (fun item =>
    writeWALRecord ⟨item.2.type, item.1, item.2.value⟩)

/-- What the manifest says of a table. -/
structure ManifestRow where
  sequence : ℕ
  filePath : String
  minKey : String
  maxKey : String
deriving DecidableEq

def writeRow (row : ManifestRow) : List Char :=
  writeUint64 row.sequence ++ (writeString row.filePath ++
    (writeString row.minKey ++ writeString row.maxKey))

def writeManifest (nextSSTableSequence : ℕ) (rows : List ManifestRow) :
    List Char :=
  writeUint64 nextSSTableSequence ++ (writeUint64 rows.length ++
    rows.flatMap writeRow)

/-! ## Reading -/

def readUint64FromStream (input : List Char) : Except Fault (ℕ × List Char) :=
  if input.length < 8 then
    .error (.runtimeError "LSM WAL has a truncated integer")
  else do
    let value ← readBytes input 0 8
    return (value, input.drop 8)

def entryType (file : String) (rawType : Char) : Except Fault EntryType :=
  if rawType.toNat % 256 = 1 then .ok .put
  else if rawType.toNat % 256 = 2 then .ok .delete
  else .error (.runtimeError (file ++ " has an invalid record type"))

/-- A record of the file. -/
def readRecord (file : String) :
    List Char → Except Fault (WALRecord × List Char)
  | [] => .error (.runtimeError (file ++ " has a truncated record type"))
  | rawType :: input => do
      let (keySize, input) ← readUint64FromStream input
      let (valueSize, input) ← readUint64FromStream input
      let type ← entryType file rawType
      if maxStringSize < keySize ∨ maxStringSize < valueSize then
        .error .lengthError
      else if input.length < keySize + valueSize then
        .error (.runtimeError (file ++ " has a truncated record body"))
      else
        return (⟨type, String.ofList (input.take keySize),
          String.ofList ((input.drop keySize).take valueSize)⟩,
          input.drop (keySize + valueSize))

def readWALRecord : List Char → Except Fault (WALRecord × List Char) :=
  readRecord "LSM WAL"

/-- The loop of `LoadSSTable`. -/
def readTable : ℕ → List Char → MemTable → Except Fault MemTable
  | 0, _, entries => return entries
  | count + 1, input, entries => do
      let (record, input) ← readRecord "LSM SSTable" input
      readTable count input
        (entries.insert record.key ⟨record.type, record.value⟩)

def loadSSTable (hash : String → UInt64) (disk : Disk) (sequence : ℕ)
    (filePath : String) : Except Fault SSTable :=
  match disk filePath with
  | none => .error (.runtimeError "failed to open LSM SSTable")
  | some input => do
      let (count, input) ← readUint64FromStream input
      let entries ← readTable count input ∅
      return SSTable.rebuildSSTableMetadata hash
        { sequence := sequence, minKey := "", maxKey := "", bloomBits := []
          blocks := [], entries := entries }

def readStreamString (input : List Char) :
    Except Fault (String × List Char) := do
  let (size, input) ← readUint64FromStream input
  if maxStringSize < size then .error .lengthError
  else if input.length < size then
    .error (.runtimeError "LSM file string is truncated")
  else return (String.ofList (input.take size), input.drop size)

/-- The sequence number and the path of a table; the keys are not used. -/
def readRow (input : List Char) :
    Except Fault ((ℕ × String) × List Char) := do
  let (sequence, input) ← readUint64FromStream input
  let (filePath, input) ← readStreamString input
  let (_, input) ← readStreamString input
  let (_, input) ← readStreamString input
  return ((sequence, filePath), input)

/-- The loop of `RecoverFromManifestLocked`: the tables and their paths. -/
def recoverTables (hash : String → UInt64) (disk : Disk) :
    ℕ → List Char → Except Fault (List (SSTable × String))
  | 0, _ => return []
  | count + 1, input => do
      let ((sequence, filePath), input) ← readRow input
      let table ← loadSSTable hash disk sequence filePath
      let tables ← recoverTables hash disk count input
      return ((table, filePath) :: tables)

/-! ## Round trips -/

variable {rest : List Char} {hash : String → UInt64} {disk : Disk}

/-- A number is read modulo the range of `uint64_t`. -/
@[simp] theorem readUint64FromStream_write (value : ℕ) (rest : List Char) :
    readUint64FromStream (writeUint64 value ++ rest) =
      .ok (value % 2 ^ 64, rest) := by
  have hread : readBytes (writeUint64 value ++ rest) 0 8 =
      .ok (value % 2 ^ 64) :=
    @readBytes_write [] rest value 8 le_rfl (by decide)
  have hlen : ¬(writeUint64 value ++ rest).length < 8 := by simp
  have hdrop : (writeUint64 value ++ rest).drop 8 = rest := by
    rw [← length_writeUint64 value, List.drop_left]
  rw [readUint64FromStream, if_neg hlen, hread]
  simp only [bind, Except.bind, hdrop]
  rfl

theorem take_length (value : String) (rest : List Char) :
    (value.toList ++ rest).take value.length = value.toList := by
  rw [← String.length_toList, List.take_left]

theorem drop_length (value : String) (rest : List Char) :
    (value.toList ++ rest).drop value.length = rest := by
  rw [← String.length_toList, List.drop_left]

/-- The size of something that is in a file. -/
theorem size_mod {size : ℕ} (h : size ≤ maxFileSize) : size % 2 ^ 64 = size := by
  apply Nat.mod_eq_of_lt
  unfold maxFileSize at h
  omega

theorem entryType_rawType (file : String) (type : EntryType) :
    entryType file (rawType type) = .ok type := by
  cases type
  · exact if_pos (by decide)
  · exact (if_neg (by decide)).trans (if_pos (by decide))

theorem length_writeWALRecord (record : WALRecord) :
    (writeWALRecord record).length =
      17 + record.key.length + record.value.length := by
  simp only [writeWALRecord, List.length_cons, List.length_append,
    length_writeUint64, String.length_toList]
  omega

/-- A record is read back from the front of a file. -/
theorem readRecord_write (file : String) (record : WALRecord)
    (h : (writeWALRecord record ++ rest).length ≤ maxFileSize) :
    readRecord file (writeWALRecord record ++ rest) = .ok (record, rest) := by
  rw [List.length_append, length_writeWALRecord] at h
  have hkey : record.key.length ≤ maxFileSize := by omega
  have hvalue : record.value.length ≤ maxFileSize := by omega
  have hsizes : ¬(maxStringSize < record.key.length ∨
      maxStringSize < record.value.length) := by
    rw [not_or]
    exact ⟨hkey.not_gt, hvalue.not_gt⟩
  have hbody : ¬(record.key.toList ++ (record.value.toList ++ rest)).length <
      record.key.length + record.value.length := by
    simp [String.length_toList]
  have hdrop : (record.key.toList ++ (record.value.toList ++ rest)).drop
      (record.key.length + record.value.length) = rest := by
    rw [← List.drop_drop, drop_length, drop_length]
  simp only [writeWALRecord, List.cons_append, List.append_assoc, readRecord,
    bind, Except.bind, readUint64FromStream_write, entryType_rawType,
    size_mod hkey, size_mod hvalue, if_neg hsizes, if_neg hbody, take_length,
    drop_length, hdrop, String.ofList_toList]
  rfl

theorem readStreamString_write {value : String}
    (h : (writeString value ++ rest).length ≤ maxFileSize) :
    readStreamString (writeString value ++ rest) = .ok (value, rest) := by
  simp only [writeString, List.length_append, length_writeUint64,
    String.length_toList] at h
  have hsize : value.length ≤ maxFileSize := by omega
  have hfit : ¬maxStringSize < value.length := hsize.not_gt
  have hbody : ¬(value.toList ++ rest).length < value.length := by
    simp [String.length_toList]
  rw [writeString, List.append_assoc, readStreamString]
  simp only [bind, Except.bind, readUint64FromStream_write, size_mod hsize,
    if_neg hfit, if_neg hbody, take_length, drop_length, String.ofList_toList]
  rfl

/-- The entries are added to those that were read before. -/
theorem readTable_write {items : List (String × Entry)} {entries : MemTable}
    (h : (items.flatMap (fun item => writeWALRecord
      ⟨item.2.type, item.1, item.2.value⟩)).length ≤ maxFileSize) :
    readTable items.length (items.flatMap (fun item => writeWALRecord
        ⟨item.2.type, item.1, item.2.value⟩)) entries =
      .ok (items.foldl (fun entries item =>
        entries.insert item.1 item.2) entries) := by
  induction items generalizing entries with
  | nil => rfl
  | cons item items ih =>
      rw [List.flatMap_cons] at h ⊢
      have htail : (items.flatMap (fun item => writeWALRecord
          ⟨item.2.type, item.1, item.2.value⟩)).length ≤ maxFileSize := by
        rw [List.length_append] at h
        omega
      rw [List.length_cons, readTable]
      simp only [bind, Except.bind, readRecord_write _ _ h]
      exact ih htail

theorem foldl_insert_toList (entries : MemTable) :
    entries.toList.foldl (fun m item => m.insert item.1 item.2) ∅ =
      entries := by
  apply Std.ExtTreeMap.ext_getElem?
  intro key
  have hfold := OrderedMap.getElem?_foldl_insert (fun entry : Entry => entry)
    (OrderedMap.ascending_toList entries) ∅ key
  rw [hfold, OrderedMap.lookup_toList]
  simp

theorem size_le_writeSSTable (entries : MemTable) :
    entries.size ≤ (writeSSTable entries).length := by
  have hle : ∀ items : List (String × Entry), items.length ≤
      (items.flatMap (fun item => writeWALRecord
        ⟨item.2.type, item.1, item.2.value⟩)).length := by
    intro items
    induction items with
    | nil => simp
    | cons item items ih =>
        rw [List.flatMap_cons, List.length_append, length_writeWALRecord,
          List.length_cons]
        omega
  rw [writeSSTable, List.length_append, ← Std.ExtTreeMap.length_toList]
  exact (hle _).trans (Nat.le_add_left _ _)

/-- The table as `RebuildSSTableMetadata` leaves it. -/
def loaded (hash : String → UInt64) (sequence : ℕ) (entries : MemTable) :
    SSTable :=
  SSTable.rebuildSSTableMetadata hash
    { sequence := sequence, minKey := "", maxKey := "", bloomBits := []
      blocks := [], entries := entries }

theorem rebuild_sequence (hash : String → UInt64) (table : SSTable) :
    (SSTable.rebuildSSTableMetadata hash table).sequence = table.sequence := by
  unfold SSTable.rebuildSSTableMetadata
  dsimp only
  split <;> rfl

theorem loadSSTable_write {sequence : ℕ} {filePath : String}
    {entries : MemTable} (hfile : disk filePath = some (writeSSTable entries))
    (hfits : disk.Fits maxFileSize) :
    loadSSTable hash disk sequence filePath =
      .ok (loaded hash sequence entries) := by
  have hlen := hfits _ _ hfile
  have hsize := (size_le_writeSSTable entries).trans hlen
  have hread := @readTable_write entries.toList ∅ (by
    rw [writeSSTable, List.length_append] at hlen
    omega)
  rw [Std.ExtTreeMap.length_toList, foldl_insert_toList] at hread
  rw [loadSSTable, hfile]
  simp only [bind, Except.bind, writeSSTable, readUint64FromStream_write,
    size_mod hsize, hread]
  rfl

theorem loadSSTable_missing {sequence : ℕ} {filePath : String}
    (hfile : disk filePath = none) :
    loadSSTable hash disk sequence filePath =
      .error (.runtimeError "failed to open LSM SSTable") := by
  rw [loadSSTable, hfile]

theorem readRow_write {row : ManifestRow}
    (h : (writeRow row ++ rest).length ≤ maxFileSize) :
    readRow (writeRow row ++ rest) =
      .ok ((row.sequence % 2 ^ 64, row.filePath), rest) := by
  simp only [writeRow, List.append_assoc, List.length_append,
    length_writeUint64] at h ⊢
  rw [readRow]
  simp only [bind, Except.bind, readUint64FromStream_write]
  rw [readStreamString_write (by simp only [List.length_append]; omega)]
  dsimp only
  rw [readStreamString_write (by simp only [List.length_append]; omega)]
  dsimp only
  rw [readStreamString_write (by simp only [List.length_append]; omega)]
  rfl

/-- What `RecoverFromManifestLocked` does with a row. -/
def recoverRow (hash : String → UInt64) (disk : Disk) (row : ManifestRow) :
    Except Fault (SSTable × String) := do
  let table ← loadSSTable hash disk (row.sequence % 2 ^ 64) row.filePath
  return (table, row.filePath)

/-- The rows of a manifest are recovered one by one. -/
theorem recoverTables_write {rows : List ManifestRow}
    (h : (rows.flatMap writeRow).length ≤ maxFileSize) :
    recoverTables hash disk rows.length (rows.flatMap writeRow) =
      rows.mapM (recoverRow hash disk) := by
  induction rows with
  | nil => rfl
  | cons row rows ih =>
      rw [List.flatMap_cons] at h ⊢
      have htail : (rows.flatMap writeRow).length ≤ maxFileSize := by
        rw [List.length_append] at h
        omega
      rw [List.length_cons, recoverTables, List.mapM_cons, ← ih htail]
      simp only [bind, Except.bind, readRow_write h, recoverRow]
      cases loadSSTable hash disk (row.sequence % 2 ^ 64) row.filePath with
      | error fault => rfl
      | ok table => rfl

theorem length_le_writeRows (rows : List ManifestRow) :
    rows.length ≤ (rows.flatMap writeRow).length := by
  induction rows with
  | nil => simp
  | cons row rows ih =>
      simp only [List.flatMap_cons, List.length_append, List.length_cons,
        writeRow, length_writeUint64]
      omega

end LSMTreeEngine

end KVRaftStorage
