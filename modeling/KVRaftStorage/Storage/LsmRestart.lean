import KVRaftStorage.Storage.LsmDurable

/-!
# Restarts of the LSM engine

Opening the engine replays the whole log on top of the tables of the manifest.
The last record of a key decides about it, and the tables have no other keys, so
the engine shows the map of the log, whatever was flushed, compacted or restored
before, and however often it was opened.
-/

namespace KVRaftStorage

namespace LSMTreeEngine

open Files Files.FileSystem

namespace StoredEngine

variable {hash : String → UInt64} {P : Paths} {disk : Disk}
  {records rest : List WALRecord} {next : UInt64}
  {tables : List (UInt64 × MemTable)} {x x' : StoredEngine}
  {effects : List DiskEffect} {fuel : ℕ}

/-! ## Opening -/

/-- All tables that the manifest names are loaded. -/
theorem mapM_recoverRow {rows : List ManifestRow} {manifestPath : String}
    (hrows : rows.map (fun row => (UInt64.ofNat row.sequence, row.filePath)) =
      (tables.map Prod.fst).map (fun s => (s, sstablePath manifestPath s)))
    (hfiles : ∀ table ∈ tables, disk (sstablePath manifestPath table.1) =
      some (writeSSTable table.2))
    (hfits : disk.Fits maxFileSize) :
    rows.mapM (recoverRow hash disk) = .ok (tables.map (fun table =>
      (loaded hash table.1.toNat table.2,
        sstablePath manifestPath table.1))) := by
  induction rows generalizing tables with
  | nil =>
      rw [List.map_nil] at hrows
      rw [List.map_eq_nil_iff.mp (List.map_eq_nil_iff.mp hrows.symm)]
      rfl
  | cons row rows ih =>
      cases tables with
      | nil => cases hrows
      | cons table tables =>
          rw [List.map_cons, List.map_cons, List.map_cons, List.cons.injEq,
            Prod.mk.injEq] at hrows
          obtain ⟨⟨hsequence, hpath⟩, hrows⟩ := hrows
          have hload := @loadSSTable_write hash disk (row.sequence % 2 ^ 64)
            row.filePath table.2 (by rw [hpath, hfiles table (by simp)]) hfits
          have hnumber : row.sequence % 2 ^ 64 = table.1.toNat := by
            rw [← hsequence, UInt64.toNat_ofNat']
          have htail := ih hrows
            fun table htable => hfiles table (List.mem_cons_of_mem _ htable)
          rw [List.mapM_cons, htail, recoverRow, hload, hpath, hnumber]
          rfl

/-- The engine with the tables of the manifest. -/
def opened (hash : String → UInt64) (P : Paths) (memTableFlushThreshold n : ℕ)
    (tables : List (UInt64 × MemTable)) : StoredEngine where
  engine := { LSMTreeEngine.new memTableFlushThreshold with
    nextSSTableSequence := n
    sstables := tables.map (fun table =>
      loaded hash table.1.toNat table.2) }
  filePaths := tables.map (fun table => sstablePath P.manifestPath table.1)

theorem loaded_sequence (sequence : UInt64) (entries : MemTable) :
    UInt64.ofNat (loaded hash sequence.toNat entries).sequence = sequence := by
  rw [loaded, rebuild_sequence, UInt64.ofNat_toNat]

theorem loaded_entries (sequence : ℕ) (entries : MemTable) :
    (loaded hash sequence entries).entries = entries :=
  SSTable.rebuild_entries _ _

theorem opened_backed {n : ℕ}
    (h : Saved P disk records (.ofNat n) tables)
    (memTableFlushThreshold : ℕ) :
    Backed P disk records (opened hash P memTableFlushThreshold n tables) := by
  have hlisted : (opened hash P memTableFlushThreshold n tables).listed P =
      tables := by
    by_cases hne : P.manifestPath = ""
    · rcases h.manifest with ⟨hne', -⟩ | ⟨-, hnil⟩
      · exact absurd hne hne'
      · rw [listed, if_pos hne, hnil]
    · rw [listed_of_ne hne, opened]
      simp only [List.map_map, Function.comp_def, loaded_sequence,
        loaded_entries]
      exact List.map_id _
  have hlayers : (opened hash P memTableFlushThreshold n tables).engine.layers =
      ∅ :: (tables.map Prod.snd).reverse := by
    simp [layers, opened, LSMTreeEngine.new, loaded_entries,
      Function.comp_def]
  constructor
  case filePaths => simp [opened, filePath, loaded_sequence]
  case saved =>
    rw [hlisted]
    exact h
  case known =>
    rw [hlayers]
    intro entries hentries key hkey
    rcases List.mem_cons.mp hentries with rfl | hentries
    · exact absurd hkey Std.ExtTreeMap.not_mem_empty
    · exact h.known entries (List.mem_reverse.mp hentries) key hkey

theorem opened_indexed (memTableFlushThreshold n : ℕ)
    (tables : List (UInt64 × MemTable)) :
    (opened hash P memTableFlushThreshold n tables).engine.Indexed hash := by
  intro table htable key
  obtain ⟨named, -, rfl⟩ := List.mem_map.mp htable
  rw [loaded_entries]
  exact SSTable.find?_rebuild _ _ _

/-- A manifest that was written is read row by row. -/
theorem recoverFromManifestLocked_rows {n : ℕ} {rows : List ManifestRow}
    (hne : P.manifestPath ≠ "")
    (hfile : disk P.manifestPath = some (writeManifest n rows))
    (hfits : disk.Fits maxFileSize) (memTableFlushThreshold : ℕ) :
    recoverFromManifestLocked hash P disk ⟨.new memTableFlushThreshold, []⟩ =
      (rows.mapM (recoverRow hash disk)).map (fun tables =>
        { engine := { LSMTreeEngine.new memTableFlushThreshold with
            nextSSTableSequence := n % 2 ^ 64
            sstables := tables.map Prod.fst }
          filePaths := tables.map Prod.snd }) := by
  have hlength := hfits _ _ hfile
  rw [writeManifest, List.length_append, List.length_append] at hlength
  have hcount := length_le_writeRows rows
  have hsize : rows.length % 2 ^ 64 = rows.length := size_mod (by omega)
  have hrecover := @recoverTables_write hash disk rows (by omega)
  rw [recoverFromManifestLocked, if_neg hne, hfile, ← hrecover]
  simp only [bind, Except.bind, writeManifest, readUint64FromStream_write,
    hsize]
  cases recoverTables hash disk rows.length (rows.flatMap writeRow) with
  | error fault => rfl
  | ok tables => rfl

/-- The tables of the manifest are loaded. -/
theorem recoverFromManifestLocked_spec
    (h : Saved P disk records next tables) (hfits : disk.Fits maxFileSize)
    (hash : String → UInt64) (memTableFlushThreshold : ℕ) :
    ∃ x, recoverFromManifestLocked hash P disk
        ⟨.new memTableFlushThreshold, []⟩ = .ok x ∧
      Backed P disk records x ∧ x.engine.Indexed hash := by
  rcases h.manifest with ⟨hne, n, rows, hfile, hnext, hrows⟩ |
    ⟨habsent, hnil⟩
  · refine ⟨opened hash P memTableFlushThreshold (n % 2 ^ 64) tables, ?_,
      opened_backed ?_ _, opened_indexed _ _ _⟩
    · rw [recoverFromManifestLocked_rows hne hfile hfits,
        mapM_recoverRow hrows h.files hfits]
      simp [opened, Except.map, Function.comp_def]
    · rwa [UInt64.ofNat_mod_size, hnext]
  · subst hnil
    have hsaved : Saved P disk records (.ofNat 0) [] :=
      { h with manifest := .inr ⟨habsent, rfl⟩, numbered := numbered_nil }
    refine ⟨opened hash P memTableFlushThreshold 0 [], ?_,
      opened_backed hsaved _, opened_indexed _ _ _⟩
    unfold recoverFromManifestLocked
    split
    · rfl
    · next hne =>
        rw [habsent hne]
        rfl

/-! ## Replaying the log -/

/-- The loop over the records of the log. -/
def replayRecords (hash : String → UInt64) (P : Paths) :
    List WALRecord → StoredEngine → StoredEngine × List DiskEffect
  | [], x => (x, [])
  | record :: rest, x =>
      let flushed := (x.insertRecord record).flushMemTableIfNeededLocked hash P
      let replayed := replayRecords hash P rest flushed.1
      (replayed.1, flushed.2 ++ replayed.2)

/-- The bytes of the log are read as its records. -/
theorem replayWAL_write (hlength :
      (rest.flatMap writeWALRecord).length ≤ maxFileSize)
    (hfuel : (rest.flatMap writeWALRecord).length ≤ fuel) :
    replayWAL hash P fuel (rest.flatMap writeWALRecord) x =
      .ok (replayRecords hash P rest x) := by
  induction rest generalizing x fuel with
  | nil =>
      cases fuel with
      | zero => rfl
      | succ fuel => rfl
  | cons record rest ih =>
      rw [List.flatMap_cons] at hlength hfuel ⊢
      have hread : readWALRecord (writeWALRecord record ++
          rest.flatMap writeWALRecord) =
          .ok (record, rest.flatMap writeWALRecord) :=
        readRecord_write "LSM WAL" record hlength
      have hrecord := length_writeWALRecord record
      rw [List.length_append] at hlength hfuel
      cases fuel with
      | zero => omega
      | succ fuel =>
          have htail := @ih ((x.insertRecord record
            ).flushMemTableIfNeededLocked hash P).1 fuel (by omega) (by omega)
          rw [writeWALRecord, List.cons_append] at hread ⊢
          rw [replayWAL, hread]
          simp only [bind, Except.bind]
          rw [insertRecord] at htail
          rw [htail]
          rfl

/-- The records are written on top of what is visible. -/
theorem replayRecords_spec (h : x.engine.Indexed hash) :
    (replayRecords hash P rest x).1.engine.Indexed hash ∧
      (replayRecords hash P rest x).1.engine.visible =
        WriteLog.replay x.engine.visible (rest.map WALRecord.write) := by
  induction rest generalizing x with
  | nil => exact ⟨h, rfl⟩
  | cons record rest ih =>
      have hinserted : (x.insertRecord record).engine.Indexed hash := h
      obtain ⟨hvisible, hindexed⟩ := flushIfNeeded_spec hinserted
      rw [← flushMemTableIfNeededLocked_engine (P := P)] at hvisible hindexed
      obtain ⟨hindexed', hvisible'⟩ := ih hindexed
      refine ⟨hindexed', hvisible'.trans ?_⟩
      rw [hvisible, List.map_cons, WriteLog.replay, WriteLog.replay,
        List.foldl_cons]
      exact congrArg (fun m => (rest.map WALRecord.write).foldl _ m)
        (visible_write x.engine record)

/-- While the log is replayed, the disk stays up to date. -/
theorem Backed.replayRecords (h : Backed P disk records x)
    (hrest : rest ⊆ records)
    (hsucceeds : disk.Succeeds maxFileSize
      (replayRecords hash P rest x).2) :
    Backed P (disk.performAll (replayRecords hash P rest x).2) records
      (replayRecords hash P rest x).1 := by
  induction rest generalizing x disk with
  | nil => exact h
  | cons record rest ih =>
      rw [StoredEngine.replayRecords] at hsucceeds ⊢
      dsimp only at hsucceeds ⊢
      rw [performAll_append]
      obtain ⟨hrecord, hrest⟩ := List.cons_subset.mp hrest
      exact ih ((h.insertRecord hrecord).flushMemTableIfNeededLocked
        hsucceeds.left) hrest hsucceeds.right

/-- Opening succeeds and shows the log. -/
theorem new_spec (h : Saved P disk records next tables)
    (hfits : disk.Fits maxFileSize) (hash : String → UInt64)
    (memTableFlushThreshold : ℕ) :
    ∃ x₀ x effects, new hash P disk memTableFlushThreshold = .ok (x, effects) ∧
      Backed P disk records x₀ ∧
      (x, effects) = StoredEngine.replayRecords hash P records x₀ ∧
      x.engine.Indexed hash ∧ x.engine.visible = logged records := by
  obtain ⟨x₀, hrecover, hbacked, hindexed⟩ :=
    recoverFromManifestLocked_spec h hfits hash memTableFlushThreshold
  obtain ⟨hindexed', hvisible⟩ :=
    @replayRecords_spec hash P records x₀ hindexed
  refine ⟨x₀, _, _, ?_, hbacked, rfl, hindexed', ?_⟩
  · rw [new, hrecover]
    have hlog := h.log
    simp only [bind, Except.bind, recoverFromWALLocked,
      if_neg P.walPath_ne_nil]
    cases hfile : disk P.walPath with
    | none =>
        rw [hfile, Option.getD_none] at hlog
        cases records with
        | nil => rfl
        | cons record records => simp [writeWALRecord] at hlog
    | some input =>
        rw [hfile, Option.getD_some] at hlog
        subst hlog
        exact replayWAL_write (hfits _ _ hfile) le_rfl
  · rw [hvisible, logged]
    apply WriteLog.replay_congr
    intro key hkey
    rw [map_write_fst] at hkey
    exact hbacked.known.visible_eq_none hkey

/-! ## Runs -/

/-- The engines that can be opened and used at the paths, with their disks.
There is no log and no manifest at first, and all writes succeed. -/
inductive Runs (hash : String → UInt64) (P : Paths) :
    StoredEngine → Disk → Prop where
  | create {disk : Disk} {x : StoredEngine} {effects : List DiskEffect}
      (hlog : disk P.walPath = none)
      (hmanifest : disk P.manifestPath = none) (memTableFlushThreshold : ℕ)
      (hnew : new hash P disk memTableFlushThreshold = .ok (x, effects))
      (hsucceeds : disk.Succeeds maxFileSize effects) :
      Runs hash P x (disk.performAll effects)
  | step {disk : Disk} {x x' : StoredEngine} {effects : List DiskEffect}
      (h : Runs hash P x disk) (operation : Operation)
      (hrun : run hash P disk x operation = .ok (x', effects))
      (hsucceeds : disk.Succeeds maxFileSize effects) :
      Runs hash P x' (disk.performAll effects)

/-- A new engine finds the disk up to date and keeps it so. -/
theorem durable_of_new (h : Saved P disk records next tables)
    {memTableFlushThreshold : ℕ}
    (hnew : new hash P disk memTableFlushThreshold = .ok (x, effects))
    (hsucceeds : disk.Succeeds maxFileSize effects) :
    Durable hash P (disk.performAll effects) records x := by
  obtain ⟨x₀, x', effects', hnew', hbacked, hreplayed, hindexed, hvisible⟩ :=
    new_spec h hsucceeds.before hash memTableFlushThreshold
  rw [hnew, Except.ok.injEq] at hnew'
  obtain ⟨rfl, rfl⟩ := Prod.mk.inj hnew'
  have heffects : effects = (StoredEngine.replayRecords hash P records x₀).2 :=
    congrArg Prod.snd hreplayed
  have hengine : x = (StoredEngine.replayRecords hash P records x₀).1 :=
    congrArg Prod.fst hreplayed
  refine ⟨?_, hindexed, hvisible⟩
  rw [hengine, heffects]
  rw [heffects] at hsucceeds
  exact hbacked.replayRecords (List.Subset.refl _) hsucceeds

theorem Durable.destroy (h : Durable hash P disk records x)
    {backgroundRunning : Bool}
    (hsucceeds : disk.Succeeds maxFileSize
      (x.destroy hash P backgroundRunning).2) :
    Durable hash P (disk.performAll (x.destroy hash P backgroundRunning).2)
      records (x.destroy hash P backgroundRunning).1 := by
  cases backgroundRunning with
  | false => exact h
  | true => exact h.backgroundRound hsucceeds

/-- A restart that comes to its end is the end of one engine and the start of
the next. -/
theorem restart_eq_ok {backgroundRunning : Bool} {memTableFlushThreshold : ℕ} :
    restart hash P disk x backgroundRunning memTableFlushThreshold =
        .ok (x', effects) ↔
      ∃ opened,
        new hash P (disk.performAll (x.destroy hash P backgroundRunning).2)
          memTableFlushThreshold = .ok (x', opened) ∧
        effects = (x.destroy hash P backgroundRunning).2 ++ opened := by
  unfold restart
  dsimp only
  cases new hash P (disk.performAll (x.destroy hash P backgroundRunning).2)
      memTableFlushThreshold with
  | error fault => simp [bind, Except.bind]
  | ok result =>
      obtain ⟨y, opened⟩ := result
      simp only [bind, Except.bind, pure, Except.pure, Except.ok.injEq,
        Prod.mk.injEq]
      constructor
      · rintro ⟨rfl, rfl⟩
        exact ⟨opened, ⟨rfl, rfl⟩, rfl⟩
      · rintro ⟨opened', ⟨rfl, rfl⟩, rfl⟩
        exact ⟨rfl, rfl⟩

/-- Every operation keeps the disk up to date. -/
theorem Durable.run (h : Durable hash P disk records x)
    {operation : Operation}
    (hrun : run hash P disk x operation = .ok (x', effects))
    (hsucceeds : disk.Succeeds maxFileSize effects) :
    ∃ records', Durable hash P (disk.performAll effects) records' x' := by
  cases operation with
  | put key value =>
      obtain ⟨rfl, rfl⟩ := Prod.mk.inj (Except.ok.inj hrun)
      exact ⟨_, h.append hsucceeds⟩
  | delete key =>
      obtain ⟨rfl, rfl⟩ := Prod.mk.inj (Except.ok.inj hrun)
      exact ⟨_, h.append hsucceeds⟩
  | flush =>
      obtain ⟨rfl, rfl⟩ := Prod.mk.inj (Except.ok.inj hrun)
      exact ⟨_, h.flushMemTableLocked hsucceeds⟩
  | compact =>
      obtain ⟨rfl, rfl⟩ := Prod.mk.inj (Except.ok.inj hrun)
      exact ⟨_, h.compactSSTablesLocked hsucceeds.before⟩
  | backgroundRound =>
      obtain ⟨rfl, rfl⟩ := Prod.mk.inj (Except.ok.inj hrun)
      exact ⟨_, h.backgroundRound hsucceeds⟩
  | enableAsyncFlush enabled =>
      obtain ⟨rfl, rfl⟩ := Prod.mk.inj (Except.ok.inj hrun)
      exact ⟨_, ⟨h.filePaths, h.saved, h.known⟩, h.indexed, h.visible⟩
  | restore snapshot => exact durable_restore hrun hsucceeds
  | restart backgroundRunning memTableFlushThreshold =>
      obtain ⟨opened, hnew, rfl⟩ := restart_eq_ok.mp hrun
      rw [performAll_append]
      exact ⟨_, durable_of_new (h.destroy hsucceeds.left).saved hnew
        hsucceeds.right⟩

theorem Runs.durable (h : Runs hash P x disk) :
    ∃ records, Durable hash P disk records x := by
  induction h with
  | @create disk x effects hlog hmanifest threshold hnew hsucceeds =>
      have hsaved : Saved P disk [] 0 [] := by
        constructor
        case log => rw [hlog]; rfl
        case manifest => exact .inr ⟨fun _ => hmanifest, rfl⟩
        case files => simp
        case numbered => exact numbered_nil
        case known => simp [Known]
      exact ⟨[], durable_of_new hsaved hnew hsucceeds⟩
  | step _ operation hrun hsucceeds ih =>
      obtain ⟨records, hdurable⟩ := ih
      exact hdurable.run hrun hsucceeds

/-! ## Clean restarts -/

/-- The engines answer alike. -/
structure SameMap (hash : String → UInt64) (e e' : LSMTreeEngine) : Prop where
  get : ∀ key, e.get hash key = e'.get hash key
  size : e.size = e'.size
  rangeScan : ∀ startKey endKey,
    e.rangeScan startKey endKey = e'.rangeScan startKey endKey

theorem sameMap_of_visible {e e' : LSMTreeEngine} (h : e.Indexed hash)
    (h' : e'.Indexed hash) (hvisible : e.visible = e'.visible) :
    SameMap hash e e' := by
  have hexport : e.exportVisibleDataLocked = e'.exportVisibleDataLocked := by
    apply Std.ExtTreeMap.ext_getElem?
    intro key
    rw [getElem?_exportVisibleDataLocked, getElem?_exportVisibleDataLocked,
      hvisible]
  constructor
  case get =>
    intro key
    rw [get_eq h, get_eq h', hvisible]
  case size => rw [LSMTreeEngine.size, LSMTreeEngine.size, hexport]
  case rangeScan =>
    intro startKey endKey
    rw [LSMTreeEngine.rangeScan, LSMTreeEngine.rangeScan, hexport]

/-- Any number of restarts, one after the other. -/
inductive Restarts (hash : String → UInt64) (P : Paths) (x : StoredEngine)
    (disk : Disk) : StoredEngine → Disk → Prop where
  | refl : Restarts hash P x disk x disk
  | tail {disk' : Disk} {y z : StoredEngine} {effects : List DiskEffect}
      (h : Restarts hash P x disk y disk')
      (backgroundRunning : Bool) (memTableFlushThreshold : ℕ)
      (hrestart : restart hash P disk' y backgroundRunning
        memTableFlushThreshold = .ok (z, effects))
      (hsucceeds : disk'.Succeeds maxFileSize effects) :
      Restarts hash P x disk z (disk'.performAll effects)

theorem Restarts.durable {y : StoredEngine} {disk' : Disk}
    (hrestarts : Restarts hash P x disk y disk')
    (h : Durable hash P disk records x) : Durable hash P disk' records y := by
  induction hrestarts with
  | refl => exact h
  | tail _ backgroundRunning threshold hrestart hsucceeds ih =>
      obtain ⟨opened, hnew, rfl⟩ := restart_eq_ok.mp hrestart
      rw [performAll_append]
      exact durable_of_new (ih.destroy hsucceeds.left).saved hnew
        hsucceeds.right

/-- After any number of restarts the engine answers as before, and it can be
restarted once more. -/
theorem clean_restart {y : StoredEngine} {disk' : Disk}
    (h : Runs hash P x disk) (hrestarts : Restarts hash P x disk y disk') :
    SameMap hash y.engine x.engine ∧
      ∀ backgroundRunning memTableFlushThreshold,
        disk'.Succeeds maxFileSize (y.destroy hash P backgroundRunning).2 →
        ∃ z effects, restart hash P disk' y backgroundRunning
            memTableFlushThreshold = .ok (z, effects) ∧
          SameMap hash z.engine x.engine := by
  obtain ⟨records, hdurable⟩ := h.durable
  have hrestarted := hrestarts.durable hdurable
  constructor
  · exact sameMap_of_visible hrestarted.indexed hdurable.indexed
      (hrestarted.visible.trans hdurable.visible.symm)
  · intro backgroundRunning threshold hsucceeds
    have hstopped := hrestarted.destroy hsucceeds
    obtain ⟨-, z, opened, hnew, -, -, hindexed, hvisible⟩ :=
      new_spec hstopped.saved hsucceeds.after hash threshold
    exact ⟨z, _, restart_eq_ok.mpr ⟨opened, hnew, rfl⟩,
      sameMap_of_visible hindexed hdurable.indexed
        (hvisible.trans hdurable.visible.symm)⟩

/-- Two files next to each other. -/
def samplePaths : Paths where
  walPath := "wal"
  manifestPath := "manifest"
  walPath_ne_nil := by decide
  walPath_ne_manifestPath := by decide
  walPath_ne_sstablePath := by
    intro sequence heq
    have hlen := congrArg String.length heq
    rw [sstablePath_of_ne (by decide), String.length_append,
      String.length_append] at hlen
    have hwal : "wal".length = 3 := by decide
    have hmanifest : "manifest".length = 8 := by decide
    omega

def sampleHash (key : String) : UInt64 := .ofNat key.length

def emptyDisk : Disk := fun _ => none

/-- One write that stays in memory. -/
def sampleWritten : StoredEngine × List DiskEffect :=
  put sampleHash samplePaths ⟨.new 2, []⟩ "a" "1"

def sampleDisk : Disk := emptyDisk.performAll sampleWritten.2

theorem sample_succeeds
    (h : ((sampleWritten.2 ++ effects).map Effect.size).sum ≤ maxFileSize) :
    sampleDisk.Succeeds maxFileSize effects :=
  (succeeds_of_size h).right

theorem sample_runs :
    Runs sampleHash samplePaths sampleWritten.1 sampleDisk := by
  have hnothing : emptyDisk.Succeeds maxFileSize [] :=
    succeeds_of_size (Nat.zero_le _)
  have hcreate : Runs sampleHash samplePaths ⟨.new 2, []⟩ emptyDisk :=
    .create rfl rfl 2 rfl hnothing
  exact .step hcreate (.put "a" "1") rfl (succeeds_of_size (by decide +kernel))

/-- The write is flushed when the engine is destroyed. -/
theorem clean_restart_flushing :
    ∃ z effects, restart sampleHash samplePaths sampleDisk sampleWritten.1
        true 1 = .ok (z, effects) ∧
      SameMap sampleHash z.engine sampleWritten.1.engine :=
  (clean_restart sample_runs .refl).2 true 1
    (sample_succeeds (by decide +kernel))

end StoredEngine

end LSMTreeEngine

end KVRaftStorage
