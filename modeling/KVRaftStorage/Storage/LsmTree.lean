import KVRaftStorage.Storage.LsmSnapshot
import KVRaftStorage.Storage.SSTable
import KVRaftStorage.Support.Layers
import Mathlib.Data.Finset.Insert

/-!
# The LSM engine

`LSMTreeEngine` without a write-ahead log and a manifest, which is how
`KvServer` opens it.  The background worker is an operation of its own; what
wakes it is not modelled.
-/

namespace KVRaftStorage

structure LSMTreeEngine where
  memTableFlushThreshold : ℕ
  asyncFlushEnabled : Bool
  memTable : MemTable
  /-- Oldest first. -/
  immutableMemTables : List MemTable
  /-- Oldest first. -/
  sstables : List SSTable
  nextSSTableSequence : ℕ

namespace LSMTreeEngine

def new (memTableFlushThreshold : ℕ) : LSMTreeEngine where
  memTableFlushThreshold :=
    if memTableFlushThreshold = 0 then 1 else memTableFlushThreshold
  asyncFlushEnabled := false
  memTable := ∅
  immutableMemTables := []
  sstables := []
  nextSSTableSequence := 0

/-! ## Reading -/

def findEntryLocked (hash : String → UInt64) (e : LSMTreeEngine)
    (key : String) : Option Entry :=
  match e.memTable[key]? with
  | some entry => some entry
  | none =>
      match e.immutableMemTables.reverse.findSome? (·[key]?) with
      | some entry => some entry
      | none => e.sstables.reverse.findSome? (fun table => table.find? hash key)

def get (hash : String → UInt64) (e : LSMTreeEngine) (key : String) :
    Option String :=
  match e.findEntryLocked hash key with
  | some ⟨.put, value⟩ => some value
  | some ⟨.delete, _⟩ => none
  | none => none

/-- A merge of entries, newest first, and the keys it has seen. -/
structure Merge (W : Type) where
  result : Std.ExtTreeMap String W
  seen : Finset String

/-- The first entry of a key is kept if it is a `Put`, as `write` turns it
out. -/
def Merge.visit {W : Type} (write : Entry → W) (acc : Merge W)
    (item : String × Entry) : Merge W :=
  if item.1 ∈ acc.seen then acc
  else
    { result :=
        if item.2.type = .put then acc.result.insert item.1 (write item.2)
        else acc.result
      seen := insert item.1 acc.seen }

def mergeNewestFirst {W : Type} (write : Entry → W) (layers : List MemTable) :
    Std.ExtTreeMap String W :=
  (layers.foldl (fun (acc : Merge W) (entries : MemTable) =>
    entries.toList.foldl (Merge.visit write) acc) ⟨∅, ∅⟩).result

/-- The tables in memory and the entries of the tables, newest first. -/
def layers (e : LSMTreeEngine) : List MemTable :=
  e.memTable :: e.immutableMemTables.reverse ++
    e.sstables.reverse.map (·.entries)

def exportVisibleDataLocked (e : LSMTreeEngine) :
    Std.ExtTreeMap String String :=
  mergeNewestFirst (·.value) e.layers

/-- `static_cast<int>` of a size. -/
def toInt (n : ℕ) : ℤ := (n : ℤ).bmod (2 ^ 32)

def size (e : LSMTreeEngine) : ℤ := toInt e.exportVisibleDataLocked.size

def rangeScan (e : LSMTreeEngine) (startKey endKey : String) :
    List (String × String) :=
  if endKey < startKey then []
  else
    (e.exportVisibleDataLocked.toList.dropWhile (·.1 < startKey)).takeWhile
      (·.1 ≤ endKey)

/-! ## Flushing -/

def rotateMemTableToImmutableLocked (e : LSMTreeEngine) : LSMTreeEngine :=
  if e.memTable.isEmpty then e
  else { e with
    immutableMemTables := e.immutableMemTables ++ [e.memTable]
    memTable := ∅ }

/-- A new table with the next sequence number. -/
def newTable (hash : String → UInt64) (e : LSMTreeEngine)
    (entries : MemTable) : SSTable :=
  SSTable.rebuildSSTableMetadata hash
    { sequence := e.nextSSTableSequence + 1, minKey := "", maxKey := ""
      bloomBits := [], blocks := [], entries := entries }

/-- Write the tables of the list, oldest first. -/
def flushTables (hash : String → UInt64) :
    List MemTable → LSMTreeEngine → LSMTreeEngine
  | [], e => e
  | entries :: rest, e => flushTables hash rest { e with
      immutableMemTables := rest
      nextSSTableSequence := e.nextSSTableSequence + 1
      sstables := e.sstables ++ [e.newTable hash entries] }

def flushImmutableMemTablesLocked (hash : String → UInt64)
    (e : LSMTreeEngine) : LSMTreeEngine :=
  flushTables hash e.immutableMemTables e

def flushMemTableLocked (hash : String → UInt64) (e : LSMTreeEngine) :
    LSMTreeEngine :=
  e.rotateMemTableToImmutableLocked.flushImmutableMemTablesLocked hash

def flushMemTableIfNeededLocked (hash : String → UInt64)
    (e : LSMTreeEngine) : LSMTreeEngine :=
  if e.memTableFlushThreshold ≤ e.memTable.size then
    if e.asyncFlushEnabled then e.rotateMemTableToImmutableLocked
    else e.flushMemTableLocked hash
  else e

def compactSSTablesLocked (hash : String → UInt64) (e : LSMTreeEngine) :
    LSMTreeEngine :=
  if e.sstables.length ≤ 1 then e
  else
    let merged := mergeNewestFirst id (e.sstables.reverse.map (·.entries))
    if merged.isEmpty then { e with sstables := [] }
    else { e with
      nextSSTableSequence := e.nextSSTableSequence + 1
      sstables := [e.newTable hash merged] }

/-! ## Operations -/

def put (hash : String → UInt64) (e : LSMTreeEngine) (key value : String) :
    LSMTreeEngine :=
  { e with memTable := e.memTable.insert key ⟨.put, value⟩
    }.flushMemTableIfNeededLocked hash

def delete (hash : String → UInt64) (e : LSMTreeEngine) (key : String) :
    LSMTreeEngine :=
  { e with memTable := e.memTable.insert key ⟨.delete, ""⟩
    }.flushMemTableIfNeededLocked hash

def snapshot (e : LSMTreeEngine) : Except Fault String :=
  writeSnapshot e.exportVisibleDataLocked.toList

/-- The map `restored`. -/
def restoredEntries (data : List (String × String)) : MemTable :=
  data.foldl (fun restored item =>
    restored.insert item.1 (Entry.mk .put item.2)) ∅

def restore (hash : String → UInt64) (e : LSMTreeEngine) (snapshot : String) :
    Except Fault LSMTreeEngine :=
  if snapshot.toList = [] then
    return { e with memTable := ∅, immutableMemTables := [], sstables := [] }
  else do
    let data ← readSnapshot snapshot
    return { e with
      memTable := restoredEntries data
      immutableMemTables := []
      sstables := [] }.flushMemTableIfNeededLocked hash

def flush (hash : String → UInt64) (e : LSMTreeEngine) : LSMTreeEngine :=
  e.flushMemTableLocked hash

def compact (hash : String → UInt64) (e : LSMTreeEngine) : LSMTreeEngine :=
  e.compactSSTablesLocked hash

def enableAsyncFlush (e : LSMTreeEngine) (enabled : Bool) : LSMTreeEngine :=
  { e with asyncFlushEnabled := enabled }

/-- One round of `BackgroundWorkerLoop`. -/
def backgroundRound (hash : String → UInt64) (e : LSMTreeEngine) :
    LSMTreeEngine :=
  let e := e.flushMemTableLocked hash
  if 1 < e.sstables.length then e.compactSSTablesLocked hash else e

end LSMTreeEngine

end KVRaftStorage
