import KVRaftStorage.Storage.LsmCrash

/-!
# Which crashes the LSM engine survives

For every operation and every point between two of its effects, the file says
what is found when the engine is opened again.
-/

namespace KVRaftStorage

namespace LSMTreeEngine

open Files Files.FileSystem

namespace StoredEngine

/-- Afterwards there is nothing in the engine. -/
def Operation.RestoresNothing : Operation → Prop
  | .restore snapshot =>
      snapshot.toList = [] ∨ readSnapshot snapshot = .ok []
  | _ => False

/-- What a crash leaves: a disk that cannot be opened, one that shows the map
before or after the operation, or one that shows nothing. -/
inductive CrashPoint (hash : String → UInt64) (P : Paths) (disk : Disk)
    (x x' : StoredEngine) (operation : Operation) (done : List DiskEffect) :
    Prop where
  | stale (hstale : Stale P done)
      (hbroken : Broken hash P (disk.performAll done))
  | kept (hfresh : ¬Stale P done) (hlog : ¬EmptiesLog P done)
      (hshows : Shows P (disk.performAll done) x.engine.visible ∨
        Shows P (disk.performAll done) x'.engine.visible)
  | emptied (hfresh : ¬Stale P done) (hlog : EmptiesLog P done)
      (hshows : Shows P (disk.performAll done) fun _ => none)
      (hafter : (x'.engine.visible = fun _ => none) ↔
        operation.RestoresNothing)

variable {hash : String → UInt64} {P : Paths} {disk disk' : Disk}
  {records records' : List WALRecord} {next : UInt64}
  {tables : List (UInt64 × MemTable)} {x x' : StoredEngine}
  {operation : Operation} {effects effects' done : List DiskEffect}

/-! ## Operations that do not empty the log -/

theorem not_emptiesLog_append (h : ¬EmptiesLog P effects)
    (hlog : ∀ e ∈ done, e.file ≠ P.walPath) :
    ¬EmptiesLog P (effects ++ done) := by
  rcases List.eq_nil_or_concat done with rfl | ⟨init, last, rfl⟩
  · rwa [List.append_nil]
  · intro hlast
    rw [EmptiesLog, List.concat_eq_append, ← List.append_assoc,
      List.getLast?_concat, Option.some.injEq] at hlast
    apply hlog last (by simp)
    rw [hlast]
    rfl

/-- The log is written, if at all, before everything else. -/
theorem Keeps.crashPoint {before : List DiskEffect}
    (h : Keeps hash P (disk.performAll before) records effects)
    (hfresh : ¬Stale P before) (hbefore : ¬EmptiesLog P before)
    (hdone : done <+: effects)
    (hshown : x.engine.visible = logged records ∨
      x'.engine.visible = logged records) :
    CrashPoint hash P disk x x' operation (before ++ done) := by
  by_cases hstale : Stale P done
  · have hbroken := h.broken done hdone hstale
    rw [← performAll_append] at hbroken
    exact .stale ((stale_append hfresh).mpr hstale) hbroken
  · obtain ⟨next, tables, hsaved⟩ := h.saved done hdone hstale
    rw [← performAll_append] at hsaved
    refine .kept (mt (stale_append hfresh).mp hstale) ?_ ?_
    · exact not_emptiesLog_append hbefore fun e he => h.log e (hdone.subset he)
    · rcases hshown with hshown | hshown
      · exact .inl ⟨records, next, tables, hsaved, hshown.symm⟩
      · exact .inr ⟨records, next, tables, hsaved, hshown.symm⟩

theorem Keeps.crashPoint_nil (h : Keeps hash P disk records effects)
    (hdone : done <+: effects)
    (hshown : x.engine.visible = logged records ∨
      x'.engine.visible = logged records) :
    CrashPoint hash P disk x x' operation done :=
  @Keeps.crashPoint hash P disk records x x' operation effects done [] h
    not_stale_nil (by simp [EmptiesLog]) hdone hshown

/-- `Put` and `Delete` write the log first. -/
theorem crashPoint_append (hne : P.manifestPath ≠ "")
    (h : Durable hash P disk records x) {type : EntryType}
    {key value : String}
    (hsucceeds : disk.Succeeds maxFileSize (x.append hash P type key value).2)
    (hdone : done <+: (x.append hash P type key value).2) :
    CrashPoint hash P disk x (x.append hash P type key value).1 operation
      done := by
  have hafter := h.append hsucceeds
  have hwal : appendWALLocked P type key value =
      [.write P.walPath (writeWALRecord ⟨type, key, value⟩)] :=
    if_neg P.walPath_ne_nil
  have hlogged := h.toBacked.append type key value
  have hflush := keeps_flushMemTableIfNeededLocked hne hlogged hsucceeds.right
  rw [append, hwal] at hdone
  rcases List.prefix_cons_iff.mp hdone with rfl | ⟨done', rfl, htail⟩
  · exact (keeps_nil h.saved).crashPoint_nil List.prefix_rfl (.inl h.visible)
  · rw [hwal] at hflush
    refine hflush.crashPoint ?_ (by simp [EmptiesLog]) htail
      (.inr hafter.visible)
    apply not_stale_of_forall
    simp [Effect.file, P.walPath_ne_manifestPath]

/-! ## Restoring a snapshot -/

/-- Writing the log brings no table back. -/
theorem Missing.performAll (h : Missing P disk)
    (heffects : ∀ e ∈ effects, e.file = P.walPath) :
    Missing P (disk.performAll effects) := by
  have hother : ∀ path, path ≠ P.walPath →
      (disk.performAll effects) path = disk path := by
    intro path hpath
    apply performAll_of_forall_ne
    intro e he
    rwa [heffects e he]
  obtain ⟨next, sequences, hnames, s, hs, hfile⟩ := h
  refine ⟨next, sequences, ?_, s, hs, ?_⟩
  · rwa [Names, hother _ P.walPath_ne_manifestPath.symm]
  · rwa [hother _ (P.walPath_ne_sstablePath s).symm]

/-- Without tables the log alone says what is shown. -/
theorem saved_relog (h : Saved P disk records next [])
    (hlog : (disk' P.walPath).getD [] = records'.flatMap writeWALRecord)
    (hmanifest : disk' P.manifestPath = disk P.manifestPath) :
    Saved P disk' records' next [] := by
  constructor
  case log => exact hlog
  case manifest =>
    rw [Names, hmanifest]
    exact h.manifest
  case files => simp
  case numbered => exact h.numbered
  case known => simp [Known]

theorem listed_eq_nil (hne : P.manifestPath ≠ "")
    (hpaths : x.filePaths = x.engine.sstables.map (filePath P))
    (h : x.deleteSSTableFilesLocked P = []) : x.listed P = [] := by
  rw [deleteSSTableFilesLocked, if_neg hne, List.map_eq_nil_iff,
    List.filter_eq_nil_iff, hpaths] at h
  have htables : x.engine.sstables = [] := by
    rw [List.eq_nil_iff_forall_not_mem]
    intro table htable
    apply h _ (List.mem_map_of_mem htable)
    exact decide_eq_true (sstablePath_ne_nil hne)
  rw [listed_of_ne hne, htables]
  rfl

/-- The log is rewritten behind the removal of the tables. -/
theorem crashPoint_rewriteWAL (hne : P.manifestPath ≠ "")
    (h : Durable hash P disk records x) {m : Std.ExtTreeMap String String}
    {r : StoredEngine} (hr : r.engine.exportVisibleDataLocked = m)
    (hvisible : x'.engine.visible = fun key => m[key]?)
    (hafter : (x'.engine.visible = fun _ => none) ↔
      operation.RestoresNothing)
    (hfits : (disk.performAll (x.deleteSSTableFilesLocked P ++ done)).Fits
      maxFileSize)
    (hnil : done ≠ []) (hdone : done <+: r.rewriteWALLocked P) :
    CrashPoint hash P disk x x' operation
      (x.deleteSSTableFilesLocked P ++ done) := by
  have hwal : r.rewriteWALLocked P = [.truncate P.walPath,
      .write P.walPath ((putRecords m).flatMap writeWALRecord)] := by
    rw [rewriteWALLocked, if_neg P.walPath_ne_nil, putRecords,
      List.flatMap_map, hr]
  have hlog : ∀ e ∈ done, e.file = P.walPath :=
    fun e he => of_mem_rewriteWAL (hdone.subset he)
  have hkeeps : ∀ e ∈ done, e.file ≠ P.manifestPath ∧
      ∀ path, e ≠ .remove path := by
    intro e he
    refine ⟨hlog e he ▸ P.walPath_ne_manifestPath, ?_⟩
    rintro path rfl
    have hmem := hdone.subset he
    rw [hwal] at hmem
    simp at hmem
  rcases delete_cases hne h.saved h.filePaths List.prefix_rfl with
    hnone | ⟨hstale, hmissing⟩
  · have hlisted := listed_eq_nil hne h.filePaths hnone
    have hsaved := h.saved
    rw [hlisted] at hsaved
    have hmanifest : (disk.performAll done) P.manifestPath =
        disk P.manifestPath :=
      performAll_of_forall_ne fun e he => (hkeeps e he).1.symm
    rw [hnone, List.nil_append]
    rw [hwal] at hdone
    rcases List.prefix_cons_iff.mp hdone with rfl | ⟨rest, rfl, hrest⟩
    · exact absurd rfl hnil
    · rcases List.prefix_cons_iff.mp hrest with rfl | ⟨rest', rfl, hrest'⟩
      · refine .emptied (not_stale_of_forall hkeeps) rfl ?_ hafter
        exact ⟨([] : List WALRecord), _, _,
          saved_relog hsaved (by simp) hmanifest, rfl⟩
      · obtain rfl := List.prefix_nil.mp hrest'
        refine .kept (not_stale_of_forall hkeeps) ?_ (.inr ?_)
        · simp [EmptiesLog]
        · refine ⟨putRecords m, _, _, saved_relog hsaved (by simp) hmanifest, ?_⟩
          rw [hvisible, putRecords, logged_puts]
  · refine .stale ((stale_append_iff hkeeps).mpr hstale)
      (broken_of_missing hne hfits ?_)
    rw [performAll_append]
    exact hmissing.performAll hlog

theorem replacing_eq (hne : P.manifestPath ≠ "") (x r : StoredEngine) :
    replacing P x r =
      (x.deleteSSTableFilesLocked P ++ r.rewriteWALLocked P) ++
        [.truncate P.manifestPath, .write P.manifestPath
          (writeManifest r.engine.nextSSTableSequence r.rows)] := by
  rw [replacing, rewriteManifestLocked, if_neg hne, List.append_assoc]

theorem replacing_fresh (hne : P.manifestPath ≠ "") (x r : StoredEngine) :
    ¬Stale P (replacing P x r) ∧ ¬EmptiesLog P (replacing P x r) := by
  rw [replacing_eq hne]
  exact ⟨not_stale_rewrite _ _, by simp [EmptiesLog]⟩

/-- The tables are removed, then the log and the manifest are rewritten. -/
theorem crashPoint_replacing (hne : P.manifestPath ≠ "")
    (h : Durable hash P disk records x) {r : StoredEngine}
    (hreplaced : Durable hash P (disk.performAll (replacing P x r)) records' r)
    (hsucceeds : disk.Succeeds maxFileSize (replacing P x r))
    (hvisible : x'.engine.visible = r.engine.visible)
    (hafter : (x'.engine.visible = fun _ => none) ↔
      operation.RestoresNothing)
    (hdone : done <+: replacing P x r) :
    CrashPoint hash P disk x x' operation done := by
  have hfits := hsucceeds done hdone
  have hexport : x'.engine.visible = fun key =>
      r.engine.exportVisibleDataLocked[key]? := by
    rw [hvisible]
    funext key
    exact (getElem?_exportVisibleDataLocked _ key).symm
  rw [replacing_eq hne] at hdone
  rcases prefix_append_cases hdone with hcut | ⟨done', hnil, hcut, rfl⟩
  · rcases prefix_append_cases hcut with hcut | ⟨done', hnil, htail, rfl⟩
    · rcases delete_cases hne h.saved h.filePaths hcut with
        rfl | ⟨hstale, hmissing⟩
      · exact (keeps_nil h.saved).crashPoint_nil List.prefix_rfl
          (.inl h.visible)
      · exact .stale hstale (broken_of_missing hne hfits hmissing)
    · exact crashPoint_rewriteWAL hne h rfl hexport hafter hfits hnil htail
  · rcases List.prefix_cons_iff.mp hcut with rfl | ⟨rest, rfl, hrest⟩
    · exact absurd rfl hnil
    · rcases List.prefix_cons_iff.mp hrest with rfl | ⟨rest', rfl, hrest'⟩
      · refine .stale (stale_truncate _) (broken_of_empty hne ?_)
        rw [performAll_append]
        exact perform_truncate
      · obtain rfl := List.prefix_nil.mp hrest'
        rw [← replacing_eq hne]
        obtain ⟨hfresh, hlog⟩ := replacing_fresh hne x r
        refine .kept hfresh hlog (.inr ⟨_, _, _, hreplaced.saved, ?_⟩)
        rw [hvisible, hreplaced.visible]

theorem mem_restoredEntries {data : List (String × String)}
    {item : String × String} (h : item ∈ data) :
    item.1 ∈ restoredEntries data := by
  have hfold : ∀ (memTable : MemTable), (item ∈ data ∨ item.1 ∈ memTable) →
      item.1 ∈ data.foldl (fun restored item =>
        restored.insert item.1 (Entry.mk .put item.2)) memTable := by
    clear h
    induction data with
    | nil => simp
    | cons first data ih =>
        intro memTable h
        apply ih
        rw [List.mem_cons] at h
        rcases h with (rfl | h) | h
        · exact .inr Std.ExtTreeMap.mem_insert_self
        · exact .inl h
        · exact .inr (Std.ExtTreeMap.mem_insert.mpr (.inr h))
  exact hfold ∅ (.inl h)

/-- Nothing is left if the snapshot has no entries. -/
theorem visible_restored_iff (x : StoredEngine)
    (data : List (String × String)) :
    ((x.replaceBy (restoredEntries data)).engine.visible = fun _ => none) ↔
      data = [] := by
  constructor
  · intro hnone
    rw [List.eq_nil_iff_forall_not_mem]
    intro item hitem
    have hkey := congrFun hnone item.1
    rw [visible_replaceBy x (onlyPuts_restoredEntries data),
      Option.map_eq_none_iff] at hkey
    have hmem := mem_restoredEntries hitem
    rw [Std.ExtTreeMap.mem_iff_isSome_getElem?, hkey] at hmem
    cases hmem
  · rintro rfl
    funext key
    rw [visible_replaceBy x (onlyPuts_restoredEntries [])]
    simp [restoredEntries]

theorem crashPoint_restore (hne : P.manifestPath ≠ "")
    (h : Durable hash P disk records x) {snapshot : String}
    (hrestore : x.restore hash P snapshot = .ok (x', effects))
    (hsucceeds : disk.Succeeds maxFileSize effects)
    (hdone : done <+: effects) :
    CrashPoint hash P disk x x' (.restore snapshot) done := by
  rcases restore_cases hrestore with
    ⟨hnil, rfl, rfl⟩ | ⟨data, hnil, hread, rfl, rfl⟩
  · have hreplaced := durable_replaceBy hash P disk x
      (onlyPuts_restoredEntries [])
    refine crashPoint_replacing hne h hreplaced hsucceeds rfl ?_ hdone
    exact iff_of_true ((visible_restored_iff x []).mpr rfl) (.inl hnil)
  · have hreplaced := durable_replaceBy hash P disk x
      (onlyPuts_restoredEntries data)
    have hvisible := (flushIfNeeded_spec hreplaced.indexed).1
    rw [← flushMemTableIfNeededLocked_engine (P := P)] at hvisible
    have hafter : (((x.replaceBy (restoredEntries data)
        ).flushMemTableIfNeededLocked hash P).1.engine.visible =
          fun _ => none) ↔ (Operation.restore snapshot).RestoresNothing := by
      rw [hvisible, visible_restored_iff, Operation.RestoresNothing, hread]
      simp [hnil]
    rcases prefix_append_cases hdone with hcut | ⟨done', -, htail, rfl⟩
    · exact crashPoint_replacing hne h hreplaced hsucceeds.left hvisible hafter
        hcut
    · obtain ⟨hfresh, hlog⟩ := replacing_fresh hne x
        (x.replaceBy (restoredEntries data))
      exact (keeps_flushMemTableIfNeededLocked hne hreplaced.toBacked
        hsucceeds.right).crashPoint hfresh hlog htail
        (.inr (hvisible.trans hreplaced.visible))

/-! ## All operations -/

theorem crashPoint_run (hne : P.manifestPath ≠ "")
    (h : Durable hash P disk records x)
    (hrun : run hash P disk x operation = .ok (x', effects))
    (hsucceeds : disk.Succeeds maxFileSize effects)
    (hdone : done <+: effects) :
    CrashPoint hash P disk x x' operation done := by
  cases operation with
  | put key value =>
      obtain ⟨rfl, rfl⟩ := Prod.mk.inj (Except.ok.inj hrun)
      exact crashPoint_append hne h hsucceeds hdone
  | delete key =>
      obtain ⟨rfl, rfl⟩ := Prod.mk.inj (Except.ok.inj hrun)
      exact crashPoint_append hne h hsucceeds hdone
  | flush =>
      obtain ⟨rfl, rfl⟩ := Prod.mk.inj (Except.ok.inj hrun)
      exact (keeps_flushMemTableLocked hne h.toBacked hsucceeds).crashPoint_nil
        hdone (.inl h.visible)
  | compact =>
      obtain ⟨rfl, rfl⟩ := Prod.mk.inj (Except.ok.inj hrun)
      exact (keeps_compactSSTablesLocked hne h.toBacked hsucceeds
        ).crashPoint_nil hdone (.inl h.visible)
  | backgroundRound =>
      obtain ⟨rfl, rfl⟩ := Prod.mk.inj (Except.ok.inj hrun)
      exact (keeps_backgroundRound hne h.toBacked hsucceeds).crashPoint_nil
        hdone (.inl h.visible)
  | enableAsyncFlush enabled =>
      obtain ⟨rfl, rfl⟩ := Prod.mk.inj (Except.ok.inj hrun)
      exact (keeps_nil h.saved).crashPoint_nil hdone (.inl h.visible)
  | restore snapshot => exact crashPoint_restore hne h hrun hsucceeds hdone
  | restart backgroundRunning memTableFlushThreshold =>
      obtain ⟨opened, hnew, rfl⟩ := restart_eq_ok.mp hrun
      have hdestroy : Keeps hash P disk records
          (x.destroy hash P backgroundRunning).2 := by
        cases backgroundRunning with
        | false => exact keeps_nil h.saved
        | true => exact keeps_backgroundRound hne h.toBacked hsucceeds.left
      exact (hdestroy.append (keeps_new hne (h.destroy hsucceeds.left).saved
        hnew hsucceeds.right)).crashPoint_nil hdone (.inl h.visible)

/-- Opening the engine succeeds and shows the map before or after the
operation. -/
def Recovers (hash : String → UInt64) (P : Paths) (x x' : StoredEngine)
    (disk : Disk) : Prop :=
  ∀ memTableFlushThreshold, ∃ y effects,
    new hash P disk memTableFlushThreshold = .ok (y, effects) ∧
      (SameMap hash y.engine x.engine ∨ SameMap hash y.engine x'.engine)

theorem sameMap_iff {e e' : LSMTreeEngine} (h : e.Indexed hash)
    (h' : e'.Indexed hash) : SameMap hash e e' ↔ e.visible = e'.visible := by
  constructor
  · intro hsame
    funext key
    rw [← get_eq h, ← get_eq h', hsame.get]
  · exact sameMap_of_visible h h'

theorem isEmpty_export_iff (e : LSMTreeEngine) :
    e.exportVisibleDataLocked.isEmpty = true ↔ e.visible = fun _ => none := by
  rw [Std.ExtTreeMap.isEmpty_iff]
  constructor
  · intro hempty
    funext key
    rw [← getElem?_exportVisibleDataLocked, hempty]
    simp
  · intro hnone
    apply Std.ExtTreeMap.ext_getElem?
    intro key
    rw [getElem?_exportVisibleDataLocked, hnone]
    simp

/-- What a disk shows is what is found when it is opened. -/
theorem recovers_iff {m : String → Option String} (h : Shows P disk m)
    (hfits : disk.Fits maxFileSize) (hx : x.engine.Indexed hash)
    (hx' : x'.engine.Indexed hash) :
    Recovers hash P x x' disk ↔
      m = x.engine.visible ∨ m = x'.engine.visible := by
  obtain ⟨records, next, tables, hsaved, rfl⟩ := h
  constructor
  · intro hrecovers
    obtain ⟨y, effects, hnew, hsame⟩ := hrecovers 0
    obtain ⟨-, y', effects', hnew', -, -, hindexed, hvisible⟩ :=
      new_spec hsaved hfits hash 0
    rw [hnew, Except.ok.injEq] at hnew'
    obtain ⟨rfl, rfl⟩ := Prod.mk.inj hnew'
    rwa [sameMap_iff hindexed hx, sameMap_iff hindexed hx', hvisible] at hsame
  · intro hm threshold
    obtain ⟨-, y, effects, hnew, -, -, hindexed, hvisible⟩ :=
      new_spec hsaved hfits hash threshold
    refine ⟨y, effects, hnew, ?_⟩
    rwa [sameMap_iff hindexed hx, sameMap_iff hindexed hx', hvisible]

/-- A crash is survived if the manifest is up to date, and if the log has not
been emptied, or the map is empty before or after the operation. -/
theorem crash_consistent_iff (h : Runs hash P x disk)
    (hne : P.manifestPath ≠ "")
    (hrun : run hash P disk x operation = .ok (x', effects))
    (hsucceeds : disk.Succeeds maxFileSize effects)
    (hdone : done <+: effects) :
    Recovers hash P x x' (disk.performAll done) ↔
      ¬Stale P done ∧ (EmptiesLog P done →
        x.engine.exportVisibleDataLocked.isEmpty = true ∨
          operation.RestoresNothing) := by
  obtain ⟨records, hdurable⟩ := h.durable
  obtain ⟨records', hdurable'⟩ := hdurable.run hrun hsucceeds
  have hfits := hsucceeds done hdone
  cases crashPoint_run hne hdurable hrun hsucceeds hdone with
  | stale hstale hbroken =>
      refine iff_of_false ?_ fun hfresh => hfresh.1 hstale
      intro hrecovers
      obtain ⟨y, opened, hnew, -⟩ := hrecovers 0
      obtain ⟨fault, herror⟩ := hbroken 0
      rw [hnew] at herror
      cases herror
  | kept hfresh hlog hshows =>
      refine iff_of_true ?_ ⟨hfresh, fun hempty => absurd hempty hlog⟩
      rcases hshows with hshows | hshows
      · exact (recovers_iff hshows hfits hdurable.indexed
          hdurable'.indexed).mpr (.inl rfl)
      · exact (recovers_iff hshows hfits hdurable.indexed
          hdurable'.indexed).mpr (.inr rfl)
  | emptied hfresh hlog hshows hafter =>
      rw [recovers_iff hshows hfits hdurable.indexed hdurable'.indexed,
        isEmpty_export_iff, ← hafter, eq_comm, @eq_comm _ _ x'.engine.visible]
      exact ⟨fun hempty => ⟨hfresh, fun _ => hempty⟩,
        fun hempty => hempty.2 hlog⟩

/-- The new table is written, and the manifest does not name it yet. -/
theorem crash_consistent_flush :
    let flushed := sampleWritten.1.flushMemTableLocked sampleHash samplePaths
    Recovers sampleHash samplePaths sampleWritten.1 flushed.1
      (sampleDisk.performAll (flushed.2.take 2)) := by
  intro flushed
  have hne : samplePaths.manifestPath ≠ "" := by decide
  have hrun : run sampleHash samplePaths sampleDisk sampleWritten.1 .flush =
      .ok (flushed.1, flushed.2) := rfl
  apply (crash_consistent_iff sample_runs hne hrun
    (sample_succeeds (by decide +kernel)) (List.take_prefix 2 _)).mpr
  constructor
  · unfold Stale
    decide +kernel
  · unfold EmptiesLog
    exact fun hlog => absurd hlog (by decide +kernel)

/-- The manifest is empty between two effects of a flush. -/
theorem flush_crash_unrecovered :
    let flushed := sampleWritten.1.flushMemTableLocked sampleHash samplePaths
    Runs sampleHash samplePaths sampleWritten.1 sampleDisk ∧
      sampleDisk.Succeeds maxFileSize flushed.2 ∧
      ¬Recovers sampleHash samplePaths sampleWritten.1 flushed.1
        (sampleDisk.performAll (flushed.2.take 3)) := by
  intro flushed
  refine ⟨sample_runs, sample_succeeds (by decide +kernel), ?_⟩
  intro hrecovers
  have hempty : (sampleDisk.performAll (flushed.2.take 3)) "manifest" =
      some [] := by decide +kernel
  have hbroken : Broken sampleHash samplePaths
      (sampleDisk.performAll (flushed.2.take 3)) :=
    broken_of_empty (by decide) hempty
  obtain ⟨y, effects, hnew, -⟩ := hrecovers 1
  obtain ⟨fault, herror⟩ := hbroken 1
  rw [hnew] at herror
  cases herror

end StoredEngine

end LSMTreeEngine

end KVRaftStorage
