import KVRaftStorage.Storage.LsmRestart

/-!
# Crashes of the LSM engine

Flushing writes the new table before the manifest names it, so a crash between
the two loses nothing.  The manifest itself is emptied before it is rewritten,
compacting removes tables that the manifest still names, and restoring also
empties the log.  The file says at which points of an operation a crash is one
of these.
-/

namespace KVRaftStorage

namespace LSMTreeEngine

open Files Files.FileSystem

namespace StoredEngine

/-- Whether the manifest is out of date: since it was written last it has been
emptied, or a table has been removed. -/
def staleAfter (P : Paths) (stale : Bool) : DiskEffect → Bool
  | .remove _ => true
  | .truncate path => if path = P.manifestPath then true else stale
  | .write path _ => if path = P.manifestPath then false else stale

/-- The manifest is out of date after these effects of an operation. -/
def Stale (P : Paths) (done : List DiskEffect) : Prop :=
  done.foldl (staleAfter P) false = true

/-- The log has been emptied and not been written yet. -/
def EmptiesLog (P : Paths) (done : List DiskEffect) : Prop :=
  done.getLast? = some (.truncate P.walPath)

/-- No engine can be opened. -/
def Broken (hash : String → UInt64) (P : Paths) (disk : Disk) : Prop :=
  ∀ memTableFlushThreshold, ∃ fault,
    new hash P disk memTableFlushThreshold = .error fault

/-- An engine that is opened shows the map. -/
def Shows (P : Paths) (disk : Disk) (m : String → Option String) : Prop :=
  ∃ records next tables, Saved P disk records next tables ∧ logged records = m

variable {hash : String → UInt64} {P : Paths} {disk : Disk}
  {records : List WALRecord} {next : UInt64}
  {tables : List (UInt64 × MemTable)} {x x' : StoredEngine}
  {effects effects' done : List DiskEffect} {e : DiskEffect}

/-! ## Disks that cannot be opened -/

theorem broken_of_recover (fault : Fault)
    (h : ∀ memTableFlushThreshold, recoverFromManifestLocked hash P disk
      ⟨.new memTableFlushThreshold, []⟩ = .error fault) :
    Broken hash P disk := by
  intro threshold
  refine ⟨fault, ?_⟩
  rw [new, h threshold]
  rfl

/-- An empty manifest cannot be read. -/
theorem broken_of_empty (hne : P.manifestPath ≠ "")
    (h : disk P.manifestPath = some []) : Broken hash P disk := by
  apply broken_of_recover (.runtimeError "LSM WAL has a truncated integer")
  intro threshold
  rw [recoverFromManifestLocked, if_neg hne, h]
  rfl

theorem mapM_recoverRow_error (hash : String → UInt64)
    {rows : List ManifestRow} {row : ManifestRow}
    (hrow : row ∈ rows) (h : disk row.filePath = none) :
    ∃ fault, rows.mapM (recoverRow hash disk) = .error fault := by
  induction rows with
  | nil => cases hrow
  | cons first rows ih =>
      rw [List.mapM_cons]
      cases hfirst : recoverRow hash disk first with
      | error fault => exact ⟨fault, rfl⟩
      | ok table =>
          rcases List.mem_cons.mp hrow with rfl | hrow
          · rw [recoverRow, loadSSTable_missing h] at hfirst
            cases hfirst
          · obtain ⟨fault, hrest⟩ := ih hrow
            refine ⟨fault, ?_⟩
            rw [hrest]
            rfl

/-- The manifest names a table that is not there. -/
def Missing (P : Paths) (disk : Disk) : Prop :=
  ∃ next sequences, Names P disk next sequences ∧
    ∃ s ∈ sequences, disk (sstablePath P.manifestPath s) = none

theorem broken_of_missing (hne : P.manifestPath ≠ "")
    (hfits : disk.Fits maxFileSize) (hmissing : Missing P disk) :
    Broken hash P disk := by
  obtain ⟨next, sequences, hnames, s, hs, h⟩ := hmissing
  obtain ⟨n, rows, hfile, -, hrows⟩ := hnames
  have hmem : (s, sstablePath P.manifestPath s) ∈
      rows.map (fun row => (UInt64.ofNat row.sequence, row.filePath)) := by
    rw [hrows]
    exact List.mem_map_of_mem (f := fun s => (s, sstablePath P.manifestPath s))
      hs
  obtain ⟨row, hrow, hpath⟩ := List.mem_map.mp hmem
  rw [Prod.mk.injEq] at hpath
  rw [← hpath.2] at h
  obtain ⟨fault, herror⟩ := mapM_recoverRow_error hash hrow h
  apply broken_of_recover fault
  intro threshold
  rw [recoverFromManifestLocked_rows hne hfile hfits, herror]
  rfl

/-! ## Operations that keep the log -/

/-- Wherever the effects are cut off, the log is as it was, and the manifest is
up to date or the engine cannot be opened. -/
structure Keeps (hash : String → UInt64) (P : Paths) (disk : Disk)
    (records : List WALRecord) (effects : List DiskEffect) : Prop where
  log : ∀ e ∈ effects, e.file ≠ P.walPath
  fresh : ¬Stale P effects
  broken : ∀ done, done <+: effects → Stale P done →
    Broken hash P (disk.performAll done)
  saved : ∀ done, done <+: effects → ¬Stale P done →
    ∃ next tables, Saved P (disk.performAll done) records next tables

theorem stale_append (h : ¬Stale P effects) :
    Stale P (effects ++ effects') ↔ Stale P effects' := by
  rw [Stale, Bool.not_eq_true] at h
  rw [Stale, Stale, List.foldl_append, h]

theorem not_stale_nil : ¬Stale P [] := Bool.false_ne_true

/-- Writing other files than the manifest does not matter. -/
theorem foldl_staleAfter (h : ∀ e ∈ effects, e.file ≠ P.manifestPath ∧
    ∀ path, e ≠ .remove path) (stale : Bool) :
    effects.foldl (staleAfter P) stale = stale := by
  induction effects with
  | nil => rfl
  | cons e effects ih =>
      obtain ⟨⟨hfile, hremove⟩, hrest⟩ := List.forall_mem_cons.mp h
      have hfirst : staleAfter P stale e = stale := by
        cases e with
        | truncate path => exact if_neg hfile
        | write path data => exact if_neg hfile
        | remove path => exact absurd rfl (hremove path)
      rw [List.foldl_cons, hfirst, ih hrest]

theorem not_stale_of_forall (h : ∀ e ∈ effects, e.file ≠ P.manifestPath ∧
    ∀ path, e ≠ .remove path) : ¬Stale P effects := by
  rw [Stale, foldl_staleAfter h]
  exact Bool.false_ne_true

theorem stale_append_iff (h : ∀ e ∈ effects', e.file ≠ P.manifestPath ∧
    ∀ path, e ≠ .remove path) :
    Stale P (effects ++ effects') ↔ Stale P effects := by
  rw [Stale, List.foldl_append, foldl_staleAfter h, Stale]

theorem not_stale_rewrite (effects : List DiskEffect) (data : List Char) :
    ¬Stale P (effects ++
      [.truncate P.manifestPath, .write P.manifestPath data]) := by
  simp [Stale, staleAfter]

theorem stale_truncate (effects : List DiskEffect) :
    Stale P (effects ++ [.truncate P.manifestPath]) := by
  simp [Stale, staleAfter]

theorem stale_removes {paths : List String} (h : paths ≠ []) :
    Stale P (paths.map .remove) := by
  rcases List.eq_nil_or_concat paths with rfl | ⟨first, last, rfl⟩
  · exact absurd rfl h
  · simp [Stale, staleAfter]

theorem keeps_nil (h : Saved P disk records next tables) :
    Keeps hash P disk records [] := by
  constructor
  case log => simp
  case fresh => exact not_stale_nil
  case broken =>
    intro done hdone hstale
    rw [List.prefix_nil.mp hdone] at hstale
    exact absurd hstale not_stale_nil
  case saved =>
    intro done hdone _
    rw [List.prefix_nil.mp hdone]
    exact ⟨next, tables, h⟩

theorem Keeps.append (h : Keeps hash P disk records effects)
    (h' : Keeps hash P (disk.performAll effects) records effects') :
    Keeps hash P disk records (effects ++ effects') := by
  constructor
  case log =>
    intro e he
    rcases List.mem_append.mp he with he | he
    · exact h.log e he
    · exact h'.log e he
  case fresh =>
    rw [stale_append h.fresh]
    exact h'.fresh
  case broken =>
    intro done hdone hstale
    rcases prefix_append_cases hdone with hdone | ⟨done', -, htail, rfl⟩
    · exact h.broken done hdone hstale
    · rw [stale_append h.fresh] at hstale
      rw [performAll_append]
      exact h'.broken done' htail hstale
  case saved =>
    intro done hdone hstale
    rcases prefix_append_cases hdone with hdone | ⟨done', -, htail, rfl⟩
    · exact h.saved done hdone hstale
    · rw [stale_append h.fresh] at hstale
      rw [performAll_append]
      exact h'.saved done' htail hstale

section Writing

variable (hne : P.manifestPath ≠ "")

include hne

theorem keeps_persist {table : SSTable}
    (h : Saved P disk records next tables)
    (hnew : UInt64.ofNat table.sequence ∉ tables.map Prod.fst) :
    Keeps hash P disk records (persistSSTableLocked P table) := by
  have hfresh : ∀ done, done <+: persistSSTableLocked P table →
      ¬Stale P done := by
    intro done hdone
    apply not_stale_of_forall
    intro e he
    have hmem := hdone.subset he
    rw [(of_mem_persist hmem).2]
    refine ⟨sstablePath_ne_manifestPath hne, ?_⟩
    rintro path rfl
    simp [persistSSTableLocked, hne] at hmem
  constructor
  case log =>
    intro e he
    rw [(of_mem_persist he).2]
    exact (P.walPath_ne_sstablePath _).symm
  case fresh => exact hfresh _ List.prefix_rfl
  case broken => exact fun done hdone hstale => absurd hstale (hfresh done hdone)
  case saved =>
    exact fun done hdone _ => ⟨next, tables, saved_persist h hnew hdone⟩

/-- The manifest is rewritten behind effects that leave the disk as it is or
break it. -/
theorem keeps_rewriteManifest (hlog : ∀ e ∈ effects, e.file ≠ P.walPath)
    (hbroken : ∀ done, done <+: effects → Stale P done →
      Broken hash P (disk.performAll done))
    (hsaved : ∀ done, done <+: effects → ¬Stale P done →
      ∃ next tables, Saved P (disk.performAll done) records next tables)
    (hafter : Saved P (disk.performAll (effects ++ x.rewriteManifestLocked P))
      records next tables) :
    Keeps hash P disk records (effects ++ x.rewriteManifestLocked P) := by
  have hrewrite : x.rewriteManifestLocked P =
      [.truncate P.manifestPath, .write P.manifestPath
        (writeManifest x.engine.nextSSTableSequence x.rows)] :=
    if_neg hne
  have hcut : ∀ done, done <+: effects ++ x.rewriteManifestLocked P →
      done <+: effects ∨
        done = effects ++ [.truncate P.manifestPath] ∨
        done = effects ++ x.rewriteManifestLocked P := by
    intro done hdone
    rcases prefix_append_cases hdone with hdone | ⟨done', hnil, htail, rfl⟩
    · exact .inl hdone
    · rw [hrewrite] at htail ⊢
      rcases List.prefix_cons_iff.mp htail with rfl | ⟨rest, rfl, hrest⟩
      · exact absurd rfl hnil
      · rcases List.prefix_cons_iff.mp hrest with rfl | ⟨rest', rfl, hrest'⟩
        · exact .inr (.inl rfl)
        · rw [List.prefix_nil.mp hrest']
          exact .inr (.inr rfl)
  have hfresh : ¬Stale P (effects ++ x.rewriteManifestLocked P) := by
    rw [hrewrite]
    exact not_stale_rewrite _ _
  constructor
  case log =>
    intro e he
    rcases List.mem_append.mp he with he | he
    · exact hlog e he
    · rw [(of_mem_rewriteManifest he).2]
      exact P.walPath_ne_manifestPath.symm
  case fresh => exact hfresh
  case broken =>
    intro done hdone hstale
    rcases hcut done hdone with hdone | rfl | rfl
    · exact hbroken done hdone hstale
    · apply broken_of_empty hne
      rw [performAll_append]
      exact perform_truncate
    · exact absurd hstale hfresh
  case saved =>
    intro done hdone hstale
    rcases hcut done hdone with hdone | rfl | rfl
    · exact hsaved done hdone hstale
    · exact absurd (stale_truncate effects) hstale
    · exact ⟨_, _, hafter⟩

theorem keeps_flushTables {memTables : List MemTable}
    (h : Backed P disk records x)
    (htables : x.engine.immutableMemTables = memTables)
    (hsucceeds : disk.Succeeds maxFileSize
      (flushTables hash P memTables x).2) :
    Keeps hash P disk records (flushTables hash P memTables x).2 := by
  induction memTables generalizing x disk with
  | nil => exact keeps_nil h.saved
  | cons entries rest ih =>
      have hnew : UInt64.ofNat (x.engine.newTable hash entries).sequence ∉
          (x.listed P).map Prod.fst := by
        rw [newTable_sequence, ofNat_succ]
        exact h.saved.succ_notMem hsucceeds.before
      have hpersist : Keeps hash P disk records
          (persistSSTableLocked P (x.engine.newTable hash entries)) :=
        keeps_persist hne h.saved hnew
      have hbacked := @Backed.flushTable hash P disk records x entries rest h
        hsucceeds.before htables
      rw [StoredEngine.flushTables] at hsucceeds ⊢
      dsimp only at hsucceeds ⊢
      rw [← List.append_assoc] at hsucceeds ⊢
      exact (keeps_rewriteManifest hne hpersist.log hpersist.broken
        hpersist.saved hbacked.saved).append (ih hbacked rfl hsucceeds.right)

theorem keeps_flushMemTableLocked (h : Backed P disk records x)
    (hsucceeds : disk.Succeeds maxFileSize (x.flushMemTableLocked hash P).2) :
    Keeps hash P disk records (x.flushMemTableLocked hash P).2 :=
  keeps_flushTables hne h.rotate rfl hsucceeds

theorem keeps_flushMemTableIfNeededLocked (h : Backed P disk records x)
    (hsucceeds : disk.Succeeds maxFileSize
      (x.flushMemTableIfNeededLocked hash P).2) :
    Keeps hash P disk records (x.flushMemTableIfNeededLocked hash P).2 := by
  rcases flushMemTableIfNeededLocked_cases hash P x with heq | heq | heq
  · rw [heq]
    exact keeps_nil h.saved
  · rw [heq]
    exact keeps_nil h.saved
  · rw [heq] at hsucceeds ⊢
    exact keeps_flushMemTableLocked hne h hsucceeds

/-- The first table that is removed is missing. -/
theorem delete_cases (h : Saved P disk records next (x.listed P))
    (hpaths : x.filePaths = x.engine.sstables.map (filePath P))
    (hdone : done <+: x.deleteSSTableFilesLocked P) :
    done = [] ∨ (Stale P done ∧ Missing P (disk.performAll done)) := by
  have hdelete : x.deleteSSTableFilesLocked P =
      (x.filePaths.filter (· ≠ "")).map .remove := if_neg hne
  have hmanifest : (disk.performAll done) P.manifestPath =
      disk P.manifestPath :=
    performAll_delete hpaths hdone
      fun table _ => (sstablePath_ne_manifestPath hne).symm
  have htake := List.prefix_iff_eq_take.mp hdone
  rw [hdelete, ← List.map_take] at htake
  cases hremoved : (x.filePaths.filter (· ≠ "")).take done.length with
  | nil =>
      rw [hremoved] at htake
      exact .inl htake
  | cons path paths =>
      right
      rw [hremoved] at htake
      have hpath : path ∈ x.filePaths := by
        have hmem : path ∈ (x.filePaths.filter (· ≠ "")).take done.length := by
          rw [hremoved]
          exact List.mem_cons_self
        exact List.mem_of_mem_filter (List.mem_of_mem_take hmem)
      rw [hpaths] at hpath
      obtain ⟨table, htable, rfl⟩ := List.mem_map.mp hpath
      have hlisted : UInt64.ofNat table.sequence ∈
          (x.listed P).map Prod.fst := by
        rw [listed_of_ne hne, List.map_map]
        exact List.mem_map_of_mem
          (f := fun t : SSTable => UInt64.ofNat t.sequence) htable
      refine ⟨htake ▸ stale_removes (List.cons_ne_nil _ _), next,
        (x.listed P).map Prod.fst, ?_, _, hlisted, ?_⟩
      · rcases h.manifest with ⟨-, hnames⟩ | ⟨-, hnil⟩
        · rw [Names, hmanifest]
          exact hnames
        · rw [hnil] at hlisted
          cases hlisted
      · rw [htake]
        exact performAll_remove_of_mem List.mem_cons_self

/-- The tables are removed and the manifest is rewritten. -/
theorem keeps_replaced (h : Saved P disk records next (x.listed P))
    (hpaths : x.filePaths = x.engine.sstables.map (filePath P))
    (hafter : ∃ next tables, Saved P (disk.performAll
      (x.deleteSSTableFilesLocked P ++ x'.rewriteManifestLocked P))
      records next tables)
    (hsucceeds : disk.Succeeds maxFileSize
      (x.deleteSSTableFilesLocked P ++ x'.rewriteManifestLocked P)) :
    Keeps hash P disk records
      (x.deleteSSTableFilesLocked P ++ x'.rewriteManifestLocked P) := by
  obtain ⟨next', tables', hafter⟩ := hafter
  apply keeps_rewriteManifest hne ?_ ?_ ?_ hafter
  · intro e he
    obtain ⟨-, path, hpath, rfl⟩ := of_mem_delete he
    rw [hpaths] at hpath
    obtain ⟨table, -, rfl⟩ := List.mem_map.mp hpath
    exact (P.walPath_ne_sstablePath _).symm
  · intro done hdone hstale
    rcases delete_cases hne h hpaths hdone with rfl | ⟨-, hmissing⟩
    · exact absurd hstale not_stale_nil
    · exact broken_of_missing hne (hsucceeds.left done hdone) hmissing
  · intro done hdone hstale
    rcases delete_cases hne h hpaths hdone with rfl | ⟨hstale', -⟩
    · exact ⟨next, _, h⟩
    · exact absurd hstale' hstale

theorem keeps_compactSSTablesLocked (h : Backed P disk records x)
    (hsucceeds : disk.Succeeds maxFileSize
      (x.compactSSTablesLocked hash P).2) :
    Keeps hash P disk records (x.compactSSTablesLocked hash P).2 := by
  have hafter := (@Backed.compactSSTablesLocked hash P disk records x h
    hsucceeds.before).saved
  rcases compactSSTablesLocked_cases hash P x with heq | heq | heq
  · rw [heq]
    exact keeps_nil h.saved
  · rw [heq] at hsucceeds hafter ⊢
    exact keeps_replaced hne h.saved h.filePaths ⟨_, _, hafter⟩ hsucceeds
  · rw [heq] at hsucceeds hafter ⊢
    have hnew := h.mergedTable_notMem hash hsucceeds.before
    dsimp only at hsucceeds hafter
    rw [performAll_append] at hafter
    exact (keeps_persist hne h.saved hnew).append
      (keeps_replaced hne (saved_persist h.saved hnew List.prefix_rfl)
        h.filePaths ⟨_, _, hafter⟩ hsucceeds.right)

theorem keeps_backgroundRound (h : Backed P disk records x)
    (hsucceeds : disk.Succeeds maxFileSize (x.backgroundRound hash P).2) :
    Keeps hash P disk records (x.backgroundRound hash P).2 := by
  rcases backgroundRound_cases hash P x with heq | heq
  · rw [heq] at hsucceeds ⊢
    exact keeps_flushMemTableLocked hne h hsucceeds
  · rw [heq] at hsucceeds ⊢
    exact (keeps_flushMemTableLocked hne h hsucceeds.left).append
      (keeps_compactSSTablesLocked hne
        (h.flushMemTableLocked hsucceeds.left) hsucceeds.right)

theorem keeps_replayRecords {rest : List WALRecord}
    (h : Backed P disk records x) (hrest : rest ⊆ records)
    (hsucceeds : disk.Succeeds maxFileSize (replayRecords hash P rest x).2) :
    Keeps hash P disk records (replayRecords hash P rest x).2 := by
  induction rest generalizing x disk with
  | nil => exact keeps_nil h.saved
  | cons record rest ih =>
      rw [StoredEngine.replayRecords] at hsucceeds ⊢
      dsimp only at hsucceeds ⊢
      obtain ⟨hrecord, hrest⟩ := List.cons_subset.mp hrest
      have hinserted := h.insertRecord hrecord
      exact (keeps_flushMemTableIfNeededLocked hne hinserted
        hsucceeds.left).append
        (ih (hinserted.flushMemTableIfNeededLocked hsucceeds.left) hrest
          hsucceeds.right)

/-- Opening an engine only flushes. -/
theorem keeps_new (h : Saved P disk records next tables)
    {memTableFlushThreshold : ℕ}
    (hnew : new hash P disk memTableFlushThreshold = .ok (x, effects))
    (hsucceeds : disk.Succeeds maxFileSize effects) :
    Keeps hash P disk records effects := by
  obtain ⟨x₀, x', effects', hnew', hbacked, hreplayed, -, -⟩ :=
    new_spec h hsucceeds.before hash memTableFlushThreshold
  rw [hnew, Except.ok.injEq] at hnew'
  obtain ⟨rfl, rfl⟩ := Prod.mk.inj hnew'
  have heffects : effects = (replayRecords hash P records x₀).2 :=
    congrArg Prod.snd hreplayed
  rw [heffects] at hsucceeds ⊢
  exact keeps_replayRecords hne hbacked (List.Subset.refl _) hsucceeds

end Writing

end StoredEngine

end LSMTreeEngine

end KVRaftStorage
