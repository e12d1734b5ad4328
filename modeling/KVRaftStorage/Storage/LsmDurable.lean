import KVRaftStorage.Storage.LsmDisk
import KVRaftStorage.Support.WriteLog

/-!
# What the LSM engine keeps on the disk

The log has every write since the last `Restore`, so its last record of a key
decides about it.  The manifest names tables that are there and whose keys are
all in the log.  Every operation keeps it so.
-/

namespace KVRaftStorage

namespace LSMTreeEngine

open Files Files.FileSystem

/-! ## Paths and sequence numbers -/

theorem toString_injective : Function.Injective (toString : ℕ → String) := by
  intro a b h
  rw [Nat.toString_eq_ofList_toDigits, Nat.toString_eq_ofList_toDigits] at h
  have hdigits := congrArg String.toList h
  rw [String.toList_ofList, String.toList_ofList] at hdigits
  rw [← Nat.ofDigitChars_toDigits (b := 10) (n := a) (by decide) le_rfl,
    hdigits, Nat.ofDigitChars_toDigits (by decide) le_rfl]

section Names

variable {manifestPath : String} {s s' : UInt64}

theorem sstablePath_of_ne (h : manifestPath ≠ "") :
    sstablePath manifestPath s = manifestPath ++ ".sst." ++ toString s.toNat :=
  if_neg h

theorem sstablePath_injective (h : manifestPath ≠ "")
    (heq : sstablePath manifestPath s = sstablePath manifestPath s') :
    s = s' := by
  rw [sstablePath_of_ne h, sstablePath_of_ne h, String.append_right_inj] at heq
  exact UInt64.toNat_inj.mp (toString_injective heq)

theorem sstablePath_ne_manifestPath (h : manifestPath ≠ "") :
    sstablePath manifestPath s ≠ manifestPath := by
  intro heq
  rw [sstablePath_of_ne h] at heq
  have hlen := congrArg String.length heq
  rw [String.length_append, String.length_append] at hlen
  have hsuffix : ".sst.".length = 5 := by decide
  omega

theorem sstablePath_ne_nil (h : manifestPath ≠ "") :
    sstablePath manifestPath s ≠ "" := by
  intro heq
  rw [sstablePath_of_ne h] at heq
  have hlen := congrArg String.length heq
  rw [String.length_append, String.length_append] at hlen
  have hsuffix : ".sst.".length = 5 := by decide
  rw [hsuffix, String.length_empty] at hlen
  omega

end Names

/-- The tables were numbered one after the other, the last one with `next`. -/
def Numbered (next : UInt64) (sequences : List UInt64) : Prop :=
  sequences.reverse =
    (List.range sequences.length).map (fun i => next - UInt64.ofNat i)

section Numbers

variable {next : UInt64} {sequences : List UInt64}

theorem numbered_nil : Numbered next [] := rfl

theorem Numbered.concat (h : Numbered next sequences) :
    Numbered (next + 1) (sequences ++ [next + 1]) := by
  have hshift : ∀ i : ℕ, next + 1 - UInt64.ofNat (i + 1) =
      next - UInt64.ofNat i := by
    intro i
    rw [UInt64.ofNat_add]
    grind
  unfold Numbered at h ⊢
  rw [List.reverse_append, h, List.length_append, List.length_singleton,
    List.range_succ_eq_map, List.map_cons, List.map_map]
  simp only [Function.comp_def, Nat.succ_eq_add_one, hshift]
  simp

theorem numbered_singleton : Numbered next [next] := by
  simp [Numbered]

/-- The next number is not in use. -/
theorem Numbered.succ_notMem (h : Numbered next sequences)
    (hlength : sequences.length < 2 ^ 64) : next + 1 ∉ sequences := by
  intro hmem
  rw [← List.mem_reverse, h, List.mem_map] at hmem
  obtain ⟨i, hi, heq⟩ := hmem
  rw [List.mem_range] at hi
  have hzero : UInt64.ofNat (i + 1) = 0 := by
    rw [UInt64.ofNat_add]
    grind
  have hmod := congrArg UInt64.toNat hzero
  rw [UInt64.toNat_ofNat', Nat.mod_eq_of_lt (by omega)] at hmod
  cases hmod

end Numbers

/-! ## The map of a log -/

/-- The record as a write of the map. -/
def WALRecord.write (record : WALRecord) : String × Option String :=
  (record.key, kept (·.value) ⟨record.type, record.value⟩)

/-- What the log shows. -/
def logged (records : List WALRecord) : String → Option String :=
  WriteLog.replay (fun _ => none) (records.map WALRecord.write)

/-- All keys of the tables are in the log. -/
def Known (records : List WALRecord) (tables : List MemTable) : Prop :=
  ∀ entries ∈ tables, ∀ key ∈ entries, key ∈ records.map (·.key)

section Logs

variable {records records' : List WALRecord} {tables : List MemTable}
  {e : LSMTreeEngine}

theorem map_write_fst (records : List WALRecord) :
    (records.map WALRecord.write).map Prod.fst = records.map (·.key) := by
  rw [List.map_map]
  rfl

theorem logged_concat (records : List WALRecord) (record : WALRecord) :
    logged (records ++ [record]) =
      WriteLog.write (logged records) record.write := by
  rw [logged, List.map_append, WriteLog.replay_append]
  rfl

theorem Known.mono (h : Known records tables)
    (hsub : records.map (·.key) ⊆ records'.map (·.key)) :
    Known records' tables :=
  fun entries hentries key hkey => hsub (h entries hentries key hkey)

/-- Nothing is visible but keys of the log. -/
theorem Known.visible_eq_none (h : Known records e.layers) {key : String}
    (hkey : key ∉ records.map (·.key)) : e.visible key = none := by
  have hnone : e.layers.findSome? (·[key]?) = none := by
    rw [List.findSome?_eq_none_iff]
    intro entries hentries
    rw [Std.ExtTreeMap.getElem?_eq_none]
    exact fun hmem => hkey (h entries hentries key hmem)
  rw [visible, Layers.visible, lookup_layers, hnone]
  rfl

/-- A write goes to the visible map. -/
theorem visible_write (e : LSMTreeEngine) (record : WALRecord) :
    ({ e with
        memTable := e.memTable.insert record.key ⟨record.type, record.value⟩
        } : LSMTreeEngine).visible =
      WriteLog.write e.visible record.write := by
  funext key
  rw [visible_insert, WriteLog.write, WALRecord.write]
  split
  · next heq =>
      obtain rfl := compare_eq_iff_eq.mp heq
      rw [Function.update_self]
  · next hne =>
      have hkey : key ≠ record.key :=
        fun heq => hne (compare_eq_iff_eq.mpr heq.symm)
      rw [Function.update_of_ne hkey]

/-- The rewritten log shows the entries it was written from. -/
theorem logged_puts (m : Std.ExtTreeMap String String) :
    logged (m.toList.map (fun item => ⟨.put, item.1, item.2⟩)) =
      fun key => m[key]? := by
  have hreplay : ∀ (l : List (String × String))
      (m : Std.ExtTreeMap String String),
      WriteLog.replay (fun key => m[key]?) (l.map (fun item =>
        WALRecord.write ⟨.put, item.1, item.2⟩)) =
        fun key => (l.foldl (fun m item => m.insert item.1 item.2) m)[key]? := by
    intro l
    induction l with
    | nil => exact fun m => rfl
    | cons item l ih =>
        intro m
        rw [List.foldl_cons, ← ih, List.map_cons, WriteLog.replay,
          List.foldl_cons]
        congr 1
        funext key
        rw [Std.ExtTreeMap.getElem?_insert]
        split
        · next heq =>
            obtain rfl := compare_eq_iff_eq.mp heq
            exact Function.update_self item.1 _ _
        · next hne =>
            have hkey : key ≠ item.1 :=
              fun heq => hne (compare_eq_iff_eq.mpr heq.symm)
            exact Function.update_of_ne hkey _ _
  have hempty : (fun _ => none : String → Option String) =
      fun key => (∅ : Std.ExtTreeMap String String)[key]? := by
    funext key
    simp
  rw [logged, List.map_map, hempty]
  refine (hreplay _ _).trans ?_
  funext key
  have hfold := OrderedMap.getElem?_foldl_insert (fun value : String => value)
    (OrderedMap.ascending_toList m) ∅ key
  rw [hfold, OrderedMap.lookup_toList]
  simp

end Logs

/-! ## What is on the disk -/

/-- The manifest names the tables with these numbers. -/
def Names (P : Paths) (disk : Disk) (next : UInt64)
    (sequences : List UInt64) : Prop :=
  ∃ n rows, disk P.manifestPath = some (writeManifest n rows) ∧
    UInt64.ofNat n = next ∧
    rows.map (fun row => (UInt64.ofNat row.sequence, row.filePath)) =
      sequences.map (fun s => (s, sstablePath P.manifestPath s))

/-- The log has the records.  The manifest names the tables, which are there and
have no keys that the log does not have. -/
structure Saved (P : Paths) (disk : Disk) (records : List WALRecord)
    (next : UInt64) (tables : List (UInt64 × MemTable)) : Prop where
  log : (disk P.walPath).getD [] = records.flatMap writeWALRecord
  manifest :
    (P.manifestPath ≠ "" ∧ Names P disk next (tables.map Prod.fst)) ∨
      ((P.manifestPath ≠ "" → disk P.manifestPath = none) ∧ tables = [])
  files : ∀ table ∈ tables, disk (sstablePath P.manifestPath table.1) =
    some (writeSSTable table.2)
  numbered : Numbered next (tables.map Prod.fst)
  known : Known records (tables.map Prod.snd)

section Disks

variable {P : Paths} {disk disk' : Disk} {records records' : List WALRecord}
  {next : UInt64} {tables : List (UInt64 × MemTable)}
  {effects : List DiskEffect}

theorem Saved.congr (h : Saved P disk records next tables)
    (hlog : disk' P.walPath = disk P.walPath)
    (hmanifest : disk' P.manifestPath = disk P.manifestPath)
    (hfiles : ∀ table ∈ tables, disk' (sstablePath P.manifestPath table.1) =
      disk (sstablePath P.manifestPath table.1)) :
    Saved P disk' records next tables := by
  constructor
  case log => rw [hlog, h.log]
  case manifest =>
    rw [Names, hmanifest]
    exact h.manifest
  case files =>
    intro table htable
    rw [hfiles table htable, h.files table htable]
  case numbered => exact h.numbered
  case known => exact h.known

/-- Effects on files that are not named change nothing. -/
theorem Saved.performAll (h : Saved P disk records next tables)
    (heffects : ∀ e ∈ effects, e.file ≠ P.walPath ∧
      e.file ≠ P.manifestPath ∧
      ∀ table ∈ tables, e.file ≠ sstablePath P.manifestPath table.1) :
    Saved P (disk.performAll effects) records next tables := by
  apply h.congr
  · exact performAll_of_forall_ne fun e he => (heffects e he).1.symm
  · exact performAll_of_forall_ne fun e he => (heffects e he).2.1.symm
  · intro table htable
    exact performAll_of_forall_ne
      fun e he => ((heffects e he).2.2 table htable).symm

/-- Every table takes some bytes of the manifest. -/
theorem Saved.length_lt (h : Saved P disk records next tables)
    (hfits : disk.Fits maxFileSize) :
    (tables.map Prod.fst).length < 2 ^ 64 := by
  rcases h.manifest with ⟨-, n, rows, hfile, -, hrows⟩ | ⟨-, rfl⟩
  · have hlen := congrArg List.length hrows
    rw [List.length_map, List.length_map] at hlen
    have hfile := hfits _ _ hfile
    have hle := length_le_writeRows rows
    rw [writeManifest, List.length_append, List.length_append] at hfile
    unfold maxFileSize at hfile
    omega
  · decide

/-- The next table gets a file of its own. -/
theorem Saved.succ_notMem (h : Saved P disk records next tables)
    (hfits : disk.Fits maxFileSize) : next + 1 ∉ tables.map Prod.fst :=
  h.numbered.succ_notMem (h.length_lt hfits)

theorem Saved.append (h : Saved P disk records next tables)
    (type : EntryType) (key value : String) :
    Saved P (disk.performAll (StoredEngine.appendWALLocked P type key value))
      (records ++ [⟨type, key, value⟩]) next tables := by
  rw [StoredEngine.appendWALLocked, if_neg P.walPath_ne_nil]
  have hother : ∀ path, path ≠ P.walPath → (disk.performAll [.write P.walPath
      (writeWALRecord ⟨type, key, value⟩)]) path = disk path := by
    intro path hpath
    apply performAll_of_forall_ne
    intro e he
    rw [List.mem_singleton.mp he]
    exact hpath
  constructor
  case log =>
    rw [performAll_cons, performAll_nil, perform_write, Option.getD_some, h.log]
    simp
  case manifest =>
    rw [Names, hother _ P.walPath_ne_manifestPath.symm]
    exact h.manifest
  case files =>
    intro table htable
    rw [hother _ (P.walPath_ne_sstablePath table.1).symm]
    exact h.files table htable
  case numbered => exact h.numbered
  case known =>
    apply h.known.mono
    rw [List.map_append]
    exact List.subset_append_left _ _

end Disks

namespace StoredEngine

/-- The tables that the manifest has to name. -/
def listed (P : Paths) (x : StoredEngine) : List (UInt64 × MemTable) :=
  if P.manifestPath = "" then []
  else x.engine.sstables.map
    (fun table => (.ofNat table.sequence, table.entries))

/-- The disk is up to date: the log has the records, and the manifest names the
tables of the engine. -/
structure Backed (P : Paths) (disk : Disk) (records : List WALRecord)
    (x : StoredEngine) : Prop where
  filePaths : x.filePaths = x.engine.sstables.map (filePath P)
  saved : Saved P disk records (.ofNat x.engine.nextSSTableSequence)
    (x.listed P)
  known : Known records x.engine.layers

section Backing

variable {hash : String → UInt64} {P : Paths} {disk : Disk}
  {records : List WALRecord} {x : StoredEngine} {e : DiskEffect}
  {table : SSTable}

theorem newTable_sequence (engine : LSMTreeEngine) (entries : MemTable) :
    (engine.newTable hash entries).sequence =
      engine.nextSSTableSequence + 1 :=
  rebuild_sequence _ _

theorem ofNat_succ (n : ℕ) : UInt64.ofNat (n + 1) = .ofNat n + 1 :=
  UInt64.ofNat_add n 1

theorem listed_of_ne (h : P.manifestPath ≠ "") :
    x.listed P = x.engine.sstables.map
      (fun table => (.ofNat table.sequence, table.entries)) :=
  if_neg h

theorem of_mem_persist (he : e ∈ persistSSTableLocked P table) :
    P.manifestPath ≠ "" ∧ e.file = filePath P table := by
  unfold persistSSTableLocked at he
  split at he
  · cases he
  · next hne =>
      refine ⟨hne, ?_⟩
      rcases List.mem_pair.mp he with rfl | rfl <;> rfl

theorem of_mem_rewriteManifest (he : e ∈ x.rewriteManifestLocked P) :
    P.manifestPath ≠ "" ∧ e.file = P.manifestPath := by
  unfold rewriteManifestLocked at he
  split at he
  · cases he
  · next hne =>
      refine ⟨hne, ?_⟩
      rcases List.mem_pair.mp he with rfl | rfl <;> rfl

theorem of_mem_delete (he : e ∈ x.deleteSSTableFilesLocked P) :
    P.manifestPath ≠ "" ∧ ∃ path ∈ x.filePaths, e = .remove path := by
  unfold deleteSSTableFilesLocked at he
  split at he
  · cases he
  · next hne =>
      obtain ⟨path, hpath, rfl⟩ := List.mem_map.mp he
      exact ⟨hne, path, List.mem_of_mem_filter hpath, rfl⟩

theorem of_mem_rewriteWAL (he : e ∈ x.rewriteWALLocked P) :
    e.file = P.walPath := by
  rw [rewriteWALLocked, if_neg P.walPath_ne_nil] at he
  rcases List.mem_pair.mp he with rfl | rfl <;> rfl

/-- The file of the new table is written. -/
theorem persist_file (disk : Disk) (table : SSTable)
    (h : P.manifestPath ≠ "") :
    (disk.performAll (persistSSTableLocked P table)) (filePath P table) =
      some (writeSSTable table.entries) := by
  rw [persistSSTableLocked, if_neg h]
  simp

/-- A table with a number of its own may be written, also in part. -/
theorem saved_persist {next : UInt64} {tables : List (UInt64 × MemTable)}
    {done : List DiskEffect} (h : Saved P disk records next tables)
    (hnew : UInt64.ofNat table.sequence ∉ tables.map Prod.fst)
    (hdone : done <+: persistSSTableLocked P table) :
    Saved P (disk.performAll done) records next tables := by
  apply h.performAll
  intro e he
  obtain ⟨hne, hfile⟩ := of_mem_persist (hdone.subset he)
  rw [hfile]
  refine ⟨(P.walPath_ne_sstablePath _).symm,
    sstablePath_ne_manifestPath hne, ?_⟩
  intro named hnamed heq
  apply hnew
  rw [sstablePath_injective hne heq]
  exact List.mem_map_of_mem hnamed

/-- What the manifest is rewritten with. -/
theorem saved_rewriteManifest
    (hlog : (disk P.walPath).getD [] = records.flatMap writeWALRecord)
    (hpaths : x.filePaths = x.engine.sstables.map (filePath P))
    (hfiles : ∀ table ∈ x.listed P,
      disk (sstablePath P.manifestPath table.1) =
        some (writeSSTable table.2))
    (hnumbered : Numbered (.ofNat x.engine.nextSSTableSequence)
      ((x.listed P).map Prod.fst))
    (hknown : Known records ((x.listed P).map Prod.snd)) :
    Saved P (disk.performAll (x.rewriteManifestLocked P)) records
      (.ofNat x.engine.nextSSTableSequence) (x.listed P) := by
  have hother : ∀ path, path ≠ P.manifestPath →
      (disk.performAll (x.rewriteManifestLocked P)) path = disk path := by
    intro path hpath
    apply performAll_of_forall_ne
    intro e he
    rwa [(of_mem_rewriteManifest he).2]
  constructor
  case log => rw [hother _ P.walPath_ne_manifestPath, hlog]
  case manifest =>
    by_cases hne : P.manifestPath = ""
    · right
      exact ⟨fun h => absurd hne h, if_pos hne⟩
    · refine .inl ⟨hne, _, x.rows, ?_, rfl, ?_⟩
      · rw [rewriteManifestLocked, if_neg hne]
        simp
      · rw [listed_of_ne hne, rows, hpaths, List.zipWith_map_right,
          List.zipWith_self]
        simp only [List.map_map]
        rfl
  case files =>
    intro table htable
    rw [← hfiles table htable]
    apply hother
    intro heq
    by_cases hne : P.manifestPath = ""
    · rw [listed, if_pos hne] at htable
      cases htable
    · exact sstablePath_ne_manifestPath hne heq
  case numbered => exact hnumbered
  case known => exact hknown

/-- Without tables to name, the log is all that matters. -/
theorem saved_unlisted
    (hlog : (disk P.walPath).getD [] = records.flatMap writeWALRecord)
    (hpaths : x.filePaths = x.engine.sstables.map (filePath P))
    (hnil : x.listed P = []) :
    Saved P (disk.performAll (x.rewriteManifestLocked P)) records
      (.ofNat x.engine.nextSSTableSequence) (x.listed P) := by
  apply saved_rewriteManifest hlog hpaths
  · simp [hnil]
  · rw [hnil]
    exact numbered_nil
  · simp [Known, hnil]

/-- The oldest table in memory goes to the disk. -/
theorem Backed.flushTable {entries : MemTable} {rest : List MemTable}
    (h : Backed P disk records x) (hfits : disk.Fits maxFileSize)
    (htables : x.engine.immutableMemTables = entries :: rest) :
    let table := x.engine.newTable hash entries
    let x' : StoredEngine :=
      { engine := { x.engine with
          immutableMemTables := rest
          nextSSTableSequence := x.engine.nextSSTableSequence + 1
          sstables := x.engine.sstables ++ [table] }
        filePaths := x.filePaths ++ [filePath P table] }
    Backed P (disk.performAll
      (persistSSTableLocked P table ++ x'.rewriteManifestLocked P))
      records x' := by
  intro table x'
  have hsequence : UInt64.ofNat table.sequence =
      .ofNat x.engine.nextSSTableSequence + 1 := by
    rw [newTable_sequence, ofNat_succ]
  have hentries : table.entries = entries := newTable_entries _ _
  have hknown : Known records x'.engine.layers := by
    have hlayers : x'.engine.layers = x.engine.layers := by
      simp [layers, htables, x', table, newTable_entries]
    rw [hlayers]
    exact h.known
  have hlisted : P.manifestPath ≠ "" → x'.listed P =
      x.listed P ++ [(UInt64.ofNat x.engine.nextSSTableSequence + 1,
        entries)] := by
    intro hne
    rw [listed_of_ne hne, listed_of_ne hne, List.map_append,
      List.map_singleton, hsequence, hentries]
  have hnew : UInt64.ofNat table.sequence ∉ (x.listed P).map Prod.fst := by
    rw [hsequence]
    exact h.saved.succ_notMem hfits
  have hsaved := saved_persist h.saved hnew List.prefix_rfl
  have hpaths : x'.filePaths = x'.engine.sstables.map (filePath P) := by
    simp only [x', h.filePaths, List.map_append, List.map_singleton]
  refine ⟨hpaths, ?_, hknown⟩
  rw [performAll_append]
  by_cases hne : P.manifestPath = ""
  · exact saved_unlisted hsaved.log hpaths (if_pos hne)
  · apply saved_rewriteManifest hsaved.log hpaths
    · intro named hnamed
      rw [hlisted hne, List.mem_append, List.mem_singleton] at hnamed
      rcases hnamed with hnamed | rfl
      · exact hsaved.files named hnamed
      · have hfile := persist_file disk table hne
        rwa [filePath, hsequence, hentries] at hfile
    · rw [hlisted hne, List.map_append, ofNat_succ]
      exact hsaved.numbered.concat
    · rw [hlisted hne, List.map_append]
      intro entries' hentries'
      rcases List.mem_append.mp hentries' with hentries' | hentries'
      · exact hsaved.known entries' hentries'
      · obtain rfl := List.mem_singleton.mp hentries'
        apply h.known
        simp [layers, htables]

theorem Backed.flushTables {tables : List MemTable}
    (h : Backed P disk records x)
    (htables : x.engine.immutableMemTables = tables)
    (hsucceeds : disk.Succeeds maxFileSize (flushTables hash P tables x).2) :
    Backed P (disk.performAll (flushTables hash P tables x).2) records
      (flushTables hash P tables x).1 := by
  induction tables generalizing x disk with
  | nil => exact h
  | cons entries rest ih =>
      rw [StoredEngine.flushTables] at hsucceeds ⊢
      dsimp only at hsucceeds ⊢
      rw [← List.append_assoc] at hsucceeds ⊢
      rw [performAll_append]
      exact ih (h.flushTable hsucceeds.before htables) rfl hsucceeds.right

theorem layers_rotate (e : LSMTreeEngine) :
    e.rotateMemTableToImmutableLocked.layers = e.layers ∨
      e.rotateMemTableToImmutableLocked.layers = ∅ :: e.layers := by
  unfold rotateMemTableToImmutableLocked
  split
  · exact .inl rfl
  · exact .inr (by simp [layers])

theorem Backed.rotate (h : Backed P disk records x) :
    Backed P disk records
      { x with engine := x.engine.rotateMemTableToImmutableLocked } := by
  have htables : x.engine.rotateMemTableToImmutableLocked.sstables =
      x.engine.sstables := by
    unfold rotateMemTableToImmutableLocked
    split <;> rfl
  have hnext : x.engine.rotateMemTableToImmutableLocked.nextSSTableSequence =
      x.engine.nextSSTableSequence := by
    unfold rotateMemTableToImmutableLocked
    split <;> rfl
  constructor
  case filePaths => rw [htables, h.filePaths]
  case saved =>
    rw [listed, htables, hnext]
    exact h.saved
  case known =>
    rcases layers_rotate x.engine with hlayers | hlayers
    · rw [hlayers]
      exact h.known
    · rw [hlayers]
      intro entries hentries key hkey
      rcases List.mem_cons.mp hentries with rfl | hentries
      · exact absurd hkey Std.ExtTreeMap.not_mem_empty
      · exact h.known entries hentries key hkey

theorem Backed.flushMemTableLocked (h : Backed P disk records x)
    (hsucceeds : disk.Succeeds maxFileSize (x.flushMemTableLocked hash P).2) :
    Backed P (disk.performAll (x.flushMemTableLocked hash P).2) records
      (x.flushMemTableLocked hash P).1 :=
  h.rotate.flushTables rfl hsucceeds

theorem flushMemTableIfNeededLocked_cases (hash : String → UInt64) (P : Paths)
    (x : StoredEngine) :
    x.flushMemTableIfNeededLocked hash P = (x, []) ∨
      x.flushMemTableIfNeededLocked hash P =
        ({ x with engine := x.engine.rotateMemTableToImmutableLocked }, []) ∨
      x.flushMemTableIfNeededLocked hash P = x.flushMemTableLocked hash P := by
  unfold flushMemTableIfNeededLocked
  split
  · split
    · exact .inr (.inl rfl)
    · exact .inr (.inr rfl)
  · exact .inl rfl

theorem Backed.flushMemTableIfNeededLocked (h : Backed P disk records x)
    (hsucceeds : disk.Succeeds maxFileSize
      (x.flushMemTableIfNeededLocked hash P).2) :
    Backed P (disk.performAll (x.flushMemTableIfNeededLocked hash P).2) records
      (x.flushMemTableIfNeededLocked hash P).1 := by
  rcases flushMemTableIfNeededLocked_cases hash P x with
    heq | heq | heq
  · rw [heq]
    exact h
  · rw [heq]
    exact h.rotate
  · rw [heq] at hsucceeds ⊢
    exact h.flushMemTableLocked hsucceeds

/-! ## Compacting -/

theorem mem_of_mem_merge {W : Type} {write : Entry → W}
    {tables : List MemTable} {key : String}
    (h : key ∈ mergeNewestFirst write tables) :
    ∃ entries ∈ tables, key ∈ entries := by
  by_contra hnone
  push Not at hnone
  have hlookup : ∀ layer ∈ tables.map (layerOf write), layer key = none := by
    intro layer hlayer
    obtain ⟨entries, hentries, rfl⟩ := List.mem_map.mp hlayer
    rw [layerOf, Std.ExtTreeMap.getElem?_eq_none (hnone entries hentries)]
    rfl
  have hmerged := getElem?_mergeNewestFirst write tables key
  rw [Layers.visible, Layers.lookup,
    List.findSome?_eq_none_iff.mpr hlookup] at hmerged
  rw [Std.ExtTreeMap.mem_iff_isSome_getElem?, hmerged] at h
  cases h

/-- The files of the tables are removed, and no other one. -/
theorem performAll_delete (hpaths : x.filePaths =
      x.engine.sstables.map (filePath P)) {path : String}
    {done : List DiskEffect} (hdone : done <+: x.deleteSSTableFilesLocked P)
    (hpath : ∀ table ∈ x.engine.sstables, path ≠ filePath P table) :
    (disk.performAll done) path = disk path := by
  apply performAll_of_forall_ne
  intro e he
  obtain ⟨-, removed, hremoved, rfl⟩ := of_mem_delete (hdone.subset he)
  rw [hpaths] at hremoved
  obtain ⟨table, htable, rfl⟩ := List.mem_map.mp hremoved
  exact hpath table htable

theorem filePath_ne {old : SSTable} (hne : P.manifestPath ≠ "")
    (hnew : UInt64.ofNat table.sequence ∉ (x.listed P).map Prod.fst)
    (hold : old ∈ x.engine.sstables) : filePath P table ≠ filePath P old := by
  intro heq
  apply hnew
  rw [sstablePath_injective hne heq, listed_of_ne hne, List.map_map]
  exact List.mem_map_of_mem (f := fun t : SSTable => UInt64.ofNat t.sequence)
    hold

/-- The table that a compaction writes. -/
def mergedTable (hash : String → UInt64) (x : StoredEngine) : SSTable :=
  x.engine.newTable hash
    (mergeNewestFirst id (x.engine.sstables.reverse.map (·.entries)))

def withoutTables (x : StoredEngine) : StoredEngine where
  engine := { x.engine with sstables := [] }
  filePaths := []

def withMergedTable (hash : String → UInt64) (P : Paths) (x : StoredEngine) :
    StoredEngine where
  engine := { x.engine with
    nextSSTableSequence := x.engine.nextSSTableSequence + 1
    sstables := [x.mergedTable hash] }
  filePaths := [filePath P (x.mergedTable hash)]

/-- The tables are replaced by the merged one, if anything is left of them. -/
theorem compactSSTablesLocked_cases (hash : String → UInt64) (P : Paths)
    (x : StoredEngine) :
    x.compactSSTablesLocked hash P = (x, []) ∨
      x.compactSSTablesLocked hash P = (x.withoutTables,
        x.deleteSSTableFilesLocked P ++
          x.withoutTables.rewriteManifestLocked P) ∨
      x.compactSSTablesLocked hash P = (x.withMergedTable hash P,
        persistSSTableLocked P (x.mergedTable hash) ++
          (x.deleteSSTableFilesLocked P ++
            (x.withMergedTable hash P).rewriteManifestLocked P)) := by
  unfold compactSSTablesLocked
  split
  · exact .inl rfl
  · dsimp only
    split
    · exact .inr (.inl rfl)
    · exact .inr (.inr rfl)

/-- The merged table gets a file of its own. -/
theorem Backed.mergedTable_notMem (h : Backed P disk records x)
    (hash : String → UInt64) (hfits : disk.Fits maxFileSize) :
    UInt64.ofNat (x.mergedTable hash).sequence ∉
      (x.listed P).map Prod.fst := by
  rw [mergedTable, newTable_sequence, ofNat_succ]
  exact h.saved.succ_notMem hfits

theorem Backed.compactSSTablesLocked (h : Backed P disk records x)
    (hfits : disk.Fits maxFileSize) :
    Backed P (disk.performAll (x.compactSSTablesLocked hash P).2) records
      (x.compactSSTablesLocked hash P).1 := by
  have hmemory : Known records
      (x.engine.memTable :: x.engine.immutableMemTables.reverse) :=
    fun entries hentries => h.known entries (List.mem_append_left _ hentries)
  have hlog : ∀ disk' : Disk, ((disk'.performAll
      (x.deleteSSTableFilesLocked P)) P.walPath) = disk' P.walPath :=
    fun disk' => performAll_delete h.filePaths List.prefix_rfl
      fun table _ => P.walPath_ne_sstablePath _
  rcases compactSSTablesLocked_cases hash P x with
    heq | heq | heq
  · rw [heq]
    exact h
  · rw [heq]
    refine ⟨rfl, ?_, by simpa [layers, withoutTables] using hmemory⟩
    rw [performAll_append]
    exact saved_unlisted (by rw [hlog, h.saved.log]) rfl
      (by simp [listed, withoutTables])
  · rw [heq]
    have hnew := h.mergedTable_notMem hash hfits
    have hpersisted := saved_persist h.saved hnew List.prefix_rfl
    have hentries : (x.mergedTable hash).entries =
        mergeNewestFirst id (x.engine.sstables.reverse.map (·.entries)) :=
      newTable_entries _ _
    have hmerged : Known records [(x.mergedTable hash).entries] := by
      intro entries hmem key hkey
      rw [List.mem_singleton.mp hmem, hentries] at hkey
      obtain ⟨source, hsource, hkey⟩ := mem_of_mem_merge hkey
      exact h.known source (List.mem_append_right _ hsource) key hkey
    constructor
    case filePaths => rfl
    case known =>
      intro entries hmem
      rcases List.mem_append.mp hmem with hmem | hmem
      · exact hmemory entries hmem
      · exact hmerged entries hmem
    case saved =>
      rw [performAll_append, performAll_append]
      by_cases hne : P.manifestPath = ""
      · exact saved_unlisted (by rw [hlog, hpersisted.log]) rfl (if_pos hne)
      · have hlisted : (x.withMergedTable hash P).listed P =
            [(UInt64.ofNat (x.mergedTable hash).sequence,
              (x.mergedTable hash).entries)] :=
          listed_of_ne hne
        apply saved_rewriteManifest (by rw [hlog, hpersisted.log]) rfl
        · intro named hnamed
          rw [hlisted, List.mem_singleton] at hnamed
          rw [hnamed]
          refine (performAll_delete h.filePaths List.prefix_rfl ?_).trans
            (persist_file _ _ hne)
          exact fun table htable => filePath_ne hne hnew htable
        · rw [hlisted]
          have hnext : (x.withMergedTable hash P).engine.nextSSTableSequence =
              (x.mergedTable hash).sequence := (newTable_sequence _ _).symm
          rw [hnext]
          exact numbered_singleton
        · rw [hlisted]
          exact hmerged

/-! ## Operations -/

/-- The disk is up to date, and its log shows what the engine shows. -/
structure Durable (hash : String → UInt64) (P : Paths) (disk : Disk)
    (records : List WALRecord) (x : StoredEngine) : Prop
    extends Backed P disk records x where
  indexed : x.engine.Indexed hash
  visible : x.engine.visible = logged records

/-- A write in memory of a record that is in the log. -/
def insertRecord (x : StoredEngine) (record : WALRecord) : StoredEngine where
  engine := { x.engine with
    memTable := x.engine.memTable.insert record.key
      ⟨record.type, record.value⟩ }
  filePaths := x.filePaths

theorem Backed.insertRecord (h : Backed P disk records x) {record : WALRecord}
    (hrecord : record ∈ records) :
    Backed P disk records (x.insertRecord record) := by
  refine ⟨h.filePaths, h.saved, ?_⟩
  intro entries hentries key hkey
  rw [layers, List.cons_append, List.mem_cons] at hentries
  rcases hentries with rfl | hentries
  · rcases Std.ExtTreeMap.mem_insert.mp hkey with heq | hkey
    · rw [← compare_eq_iff_eq.mp heq]
      exact List.mem_map_of_mem hrecord
    · exact h.known _ (by simp [layers]) key hkey
  · exact h.known entries (List.mem_cons_of_mem _ hentries) key hkey

/-- The write is in the log before it is made in memory. -/
theorem Backed.append (h : Backed P disk records x) (type : EntryType)
    (key value : String) :
    Backed P (disk.performAll (appendWALLocked P type key value))
      (records ++ [⟨type, key, value⟩])
      (x.insertRecord ⟨type, key, value⟩) := by
  have hlogged : Backed P (disk.performAll (appendWALLocked P type key value))
      (records ++ [⟨type, key, value⟩]) x := by
    refine ⟨h.filePaths, h.saved.append type key value, h.known.mono ?_⟩
    rw [List.map_append]
    exact List.subset_append_left _ _
  exact hlogged.insertRecord (by simp)

theorem Durable.append (h : Durable hash P disk records x)
    {type : EntryType} {key value : String}
    (hsucceeds : disk.Succeeds maxFileSize
      (x.append hash P type key value).2) :
    Durable hash P (disk.performAll (x.append hash P type key value).2)
      (records ++ [⟨type, key, value⟩]) (x.append hash P type key value).1 := by
  have hinserted := h.toBacked.append type key value
  have hindexed : (x.insertRecord ⟨type, key, value⟩).engine.Indexed hash :=
    h.indexed
  obtain ⟨hvisible, hindexed⟩ := flushIfNeeded_spec hindexed
  have hengine : (x.append hash P type key value).1.engine =
      (x.insertRecord ⟨type, key, value⟩).engine.flushMemTableIfNeededLocked
        hash :=
    flushMemTableIfNeededLocked_engine _
  constructor
  case toBacked =>
    rw [StoredEngine.append, performAll_append]
    exact hinserted.flushMemTableIfNeededLocked hsucceeds.right
  case indexed => rwa [hengine]
  case visible =>
    rw [hengine, hvisible, logged_concat, ← h.visible]
    exact visible_write x.engine ⟨type, key, value⟩

theorem Durable.flushMemTableLocked (h : Durable hash P disk records x)
    (hsucceeds : disk.Succeeds maxFileSize (x.flushMemTableLocked hash P).2) :
    Durable hash P (disk.performAll (x.flushMemTableLocked hash P).2) records
      (x.flushMemTableLocked hash P).1 := by
  obtain ⟨hvisible, hindexed⟩ := flushMemTable_spec h.indexed
  refine ⟨h.toBacked.flushMemTableLocked hsucceeds, ?_, ?_⟩
  · rwa [flushMemTableLocked_engine]
  · rw [flushMemTableLocked_engine, hvisible, h.visible]

theorem Durable.compactSSTablesLocked (h : Durable hash P disk records x)
    (hfits : disk.Fits maxFileSize) :
    Durable hash P (disk.performAll (x.compactSSTablesLocked hash P).2) records
      (x.compactSSTablesLocked hash P).1 := by
  obtain ⟨hvisible, hindexed⟩ := compact_spec h.indexed
  refine ⟨h.toBacked.compactSSTablesLocked hfits, ?_, ?_⟩
  · rwa [compactSSTablesLocked_engine]
  · rw [compactSSTablesLocked_engine, hvisible, h.visible]

theorem backgroundRound_cases (hash : String → UInt64) (P : Paths)
    (x : StoredEngine) :
    x.backgroundRound hash P = x.flushMemTableLocked hash P ∨
      x.backgroundRound hash P =
        (((x.flushMemTableLocked hash P).1.compactSSTablesLocked hash P).1,
          (x.flushMemTableLocked hash P).2 ++
            ((x.flushMemTableLocked hash P).1.compactSSTablesLocked
              hash P).2) := by
  unfold backgroundRound
  dsimp only
  split
  · exact .inr rfl
  · exact .inl rfl

theorem Durable.backgroundRound (h : Durable hash P disk records x)
    (hsucceeds : disk.Succeeds maxFileSize (x.backgroundRound hash P).2) :
    Durable hash P (disk.performAll (x.backgroundRound hash P).2) records
      (x.backgroundRound hash P).1 := by
  rcases backgroundRound_cases hash P x with heq | heq
  · rw [heq] at hsucceeds ⊢
    exact h.flushMemTableLocked hsucceeds
  · rw [heq] at hsucceeds ⊢
    rw [performAll_append]
    exact (h.flushMemTableLocked hsucceeds.left).compactSSTablesLocked
      hsucceeds.right.before

/-! ## Restoring a snapshot -/

def putRecords (m : Std.ExtTreeMap String String) : List WALRecord :=
  m.toList.map (fun item => ⟨.put, item.1, item.2⟩)

def OnlyPuts (memTable : MemTable) : Prop :=
  ∀ (key : String) (entry : Entry),
    memTable[key]? = some entry → entry.type = .put

theorem onlyPuts_restoredEntries (data : List (String × String)) :
    OnlyPuts (restoredEntries data) := by
  have hfold : ∀ (memTable : MemTable), OnlyPuts memTable →
      OnlyPuts (data.foldl (fun restored item =>
        restored.insert item.1 (Entry.mk .put item.2)) memTable) := by
    induction data with
    | nil => exact fun memTable h => h
    | cons item data ih =>
        intro memTable h
        apply ih
        intro key entry hentry
        dsimp only at hentry
        rw [Std.ExtTreeMap.getElem?_insert] at hentry
        split at hentry
        · rw [← Option.some.inj hentry]
        · exact h key entry hentry
  exact hfold ∅ (by simp [OnlyPuts])

/-- The effects of `Restore` before it flushes. -/
def replacing (P : Paths) (x x' : StoredEngine) : List DiskEffect :=
  x.deleteSSTableFilesLocked P ++ (x'.rewriteWALLocked P ++
    x'.rewriteManifestLocked P)

theorem visible_replaceBy (x : StoredEngine) {memTable : MemTable}
    (hputs : OnlyPuts memTable) (key : String) :
    (x.replaceBy memTable).engine.visible key =
      memTable[key]?.map (·.value) := by
  have hlayers : (x.replaceBy memTable).engine.layers = [memTable] := rfl
  rw [LSMTreeEngine.visible, hlayers, List.map_singleton]
  cases hentry : memTable[key]? with
  | none => exact Layers.visible_cons_of_none (by simp [layerOf, hentry])
  | some entry =>
      apply Layers.visible_cons_of_some
      rw [layerOf, hentry, Option.map_some, kept,
        if_pos (hputs key entry hentry)]
      rfl

/-- Whatever was on the disk is replaced. -/
theorem durable_replaceBy (hash : String → UInt64) (P : Paths) (disk : Disk)
    (x : StoredEngine) {memTable : MemTable} (hputs : OnlyPuts memTable) :
    Durable hash P (disk.performAll (replacing P x (x.replaceBy memTable)))
      (putRecords (x.replaceBy memTable).engine.exportVisibleDataLocked)
      (x.replaceBy memTable) := by
  have hvisible : (x.replaceBy memTable).engine.visible =
      fun key => (x.replaceBy memTable).engine.exportVisibleDataLocked[key]? := by
    funext key
    rw [getElem?_exportVisibleDataLocked]
  have hlayers : (x.replaceBy memTable).engine.layers = [memTable] := rfl
  have hlog : (((disk.performAll (x.deleteSSTableFilesLocked P)).performAll
      ((x.replaceBy memTable).rewriteWALLocked P)) P.walPath).getD [] =
      (putRecords (x.replaceBy memTable).engine.exportVisibleDataLocked).flatMap
        writeWALRecord := by
    rw [rewriteWALLocked, if_neg P.walPath_ne_nil, putRecords,
      List.flatMap_map]
    simp
  constructor
  case toBacked =>
    refine ⟨rfl, ?_, ?_⟩
    · rw [replacing, performAll_append, performAll_append]
      exact saved_unlisted hlog rfl (by simp [listed, StoredEngine.replaceBy])
    · intro entries hentries key hkey
      rw [hlayers, List.mem_singleton] at hentries
      subst hentries
      obtain ⟨entry, hentry⟩ := Option.isSome_iff_exists.mp
        (Std.ExtTreeMap.mem_iff_isSome_getElem?.mp hkey)
      have hshown := visible_replaceBy x hputs key
      rw [hentry, Option.map_some] at hshown
      rw [hvisible] at hshown
      rw [putRecords, List.map_map]
      exact List.mem_map_of_mem (f := Prod.fst)
        (OrderedMap.mem_toList.mpr hshown)
  case indexed =>
    intro table htable
    exact absurd htable List.not_mem_nil
  case visible => rw [hvisible, putRecords, logged_puts]

/-- `Restore` ends there if the snapshot is empty, and may flush if it is not. -/
theorem restore_cases {snapshot : String} {x' : StoredEngine}
    {effects : List DiskEffect}
    (h : x.restore hash P snapshot = .ok (x', effects)) :
    (snapshot.toList = [] ∧ x' = x.replaceBy ∅ ∧
        effects = replacing P x (x.replaceBy ∅)) ∨
      ∃ data, snapshot.toList ≠ [] ∧ readSnapshot snapshot = .ok data ∧
        x' = ((x.replaceBy (restoredEntries data)).flushMemTableIfNeededLocked
          hash P).1 ∧
        effects = replacing P x (x.replaceBy (restoredEntries data)) ++
          ((x.replaceBy (restoredEntries data)).flushMemTableIfNeededLocked
            hash P).2 := by
  unfold restore at h
  split at h
  · next hnil =>
      left
      obtain ⟨rfl, rfl⟩ := Prod.mk.inj (Except.ok.inj h)
      exact ⟨hnil, rfl, rfl⟩
  · next hne =>
    cases hread : readSnapshot snapshot with
    | error fault =>
        rw [hread] at h
        cases h
    | ok data =>
        simp only [hread, bind, Except.bind, pure, Except.pure,
          Except.ok.injEq, Prod.mk.injEq] at h
        obtain ⟨rfl, rfl⟩ := h
        refine .inr ⟨data, hne, rfl, rfl, ?_⟩
        simp only [replacing, List.append_assoc]

theorem Durable.flushMemTableIfNeededLocked
    (h : Durable hash P disk records x)
    (hsucceeds : disk.Succeeds maxFileSize
      (x.flushMemTableIfNeededLocked hash P).2) :
    Durable hash P (disk.performAll (x.flushMemTableIfNeededLocked hash P).2)
      records (x.flushMemTableIfNeededLocked hash P).1 := by
  obtain ⟨hvisible, hindexed⟩ := flushIfNeeded_spec h.indexed
  refine ⟨h.toBacked.flushMemTableIfNeededLocked hsucceeds, ?_, ?_⟩
  · rwa [flushMemTableIfNeededLocked_engine]
  · rw [flushMemTableIfNeededLocked_engine, hvisible, h.visible]

theorem durable_restore {snapshot : String} {x' : StoredEngine}
    {effects : List DiskEffect}
    (hrestore : x.restore hash P snapshot = .ok (x', effects))
    (hsucceeds : disk.Succeeds maxFileSize effects) :
    ∃ records', Durable hash P (disk.performAll effects) records' x' := by
  rcases restore_cases hrestore with
    ⟨-, rfl, rfl⟩ | ⟨data, -, -, rfl, rfl⟩
  · exact ⟨_, durable_replaceBy _ _ _ _ (by simp [OnlyPuts])⟩
  · rw [performAll_append]
    have hreplaced := durable_replaceBy hash P disk x
      (onlyPuts_restoredEntries data)
    exact ⟨_, hreplaced.flushMemTableIfNeededLocked hsucceeds.right⟩

end Backing

end StoredEngine

end LSMTreeEngine

end KVRaftStorage
