import KVRaftStorage.Storage.LsmRestart

/-!
# A log that ends in the middle of a record

A crash inside `AppendWALLocked` may leave any first part of the record at the
end of the log.  If nothing of it has reached the file, the next opening shows
the complete records.  Otherwise the reader finds the record truncated and
throws, so the engine cannot be opened.
-/

namespace KVRaftStorage

namespace LSMTreeEngine

open Files Files.FileSystem

/-- What the reader throws at a record that is cut off. -/
def Truncated (what : String) : Prop :=
  what = "LSM WAL has a truncated integer" ∨
    what = "LSM WAL has a truncated record body"

/-- A text that begins another one is a first part of its head or goes on
behind it. -/
theorem prefix_append_cases {head tail torn : List Char}
    (h : torn <+: head ++ tail) :
    torn.length < head.length ∨
      ∃ rest, torn = head ++ rest ∧ rest <+: tail := by
  rcases Nat.lt_or_ge torn.length head.length with hlt | hle
  · exact .inl hlt
  · obtain ⟨rest, rfl⟩ :=
      List.prefix_of_prefix_length_le (List.prefix_append head tail) h hle
    exact .inr ⟨rest, rfl, (List.prefix_append_right_inj head).mp h⟩

/-- No strict first part of a record is read, unless nothing of it is there. -/
theorem readWALRecord_torn {record : WALRecord} {torn : List Char}
    (hkey : record.key.length ≤ maxStringSize)
    (hvalue : record.value.length ≤ maxStringSize)
    (htorn : torn <+: writeWALRecord record)
    (hlt : torn.length < (writeWALRecord record).length) (hne : torn ≠ []) :
    ∃ what, readWALRecord torn = .error (.runtimeError what) ∧
      Truncated what := by
  cases torn with
  | nil => exact absurd rfl hne
  | cons c input =>
      rw [writeWALRecord, List.cons_prefix_cons] at htorn
      obtain ⟨rfl, htorn⟩ := htorn
      rw [readWALRecord, readRecord]
      rcases prefix_append_cases htorn with hshort | ⟨lengths, rfl, hlengths⟩
      · rw [length_writeUint64] at hshort
        refine ⟨_, ?_, .inl rfl⟩
        rw [readUint64FromStream, if_pos hshort]
        rfl
      · rw [readUint64FromStream_write]
        simp only [bind, Except.bind]
        rcases prefix_append_cases hlengths with hshort | ⟨body, rfl, -⟩
        · rw [length_writeUint64] at hshort
          refine ⟨_, ?_, .inl rfl⟩
          rw [readUint64FromStream, if_pos hshort]
        · have hbody : body.length <
              record.key.length + record.value.length := by
            rw [length_writeWALRecord] at hlt
            simp only [List.length_cons, List.length_append,
              length_writeUint64] at hlt
            omega
          have hsizes : ¬(maxStringSize < record.key.length ∨
              maxStringSize < record.value.length) := by
            rw [not_or]
            exact ⟨hkey.not_gt, hvalue.not_gt⟩
          refine ⟨_, ?_, .inr rfl⟩
          rw [readUint64FromStream_write]
          simp only [entryType_rawType, size_mod hkey, size_mod hvalue,
            if_neg hsizes, if_pos hbody]
          rfl

namespace StoredEngine

variable {hash : String → UInt64} {P : Paths} {disk disk' : Disk}
  {records : List WALRecord} {next : UInt64}
  {tables : List (UInt64 × MemTable)} {x y : StoredEngine}
  {record : WALRecord} {torn : List Char}

/-- The replay comes to the record that is cut off. -/
theorem replayWAL_torn (hash : String → UInt64) (P : Paths)
    (hkey : record.key.length ≤ maxStringSize)
    (hvalue : record.value.length ≤ maxStringSize)
    (htorn : torn <+: writeWALRecord record)
    (hlt : torn.length < (writeWALRecord record).length) (hne : torn ≠ [])
    {rest : List WALRecord} {fuel : ℕ}
    (hlength : (rest.flatMap writeWALRecord ++ torn).length ≤ maxFileSize)
    (hfuel : (rest.flatMap writeWALRecord ++ torn).length ≤ fuel)
    (x : StoredEngine) :
    ∃ what, replayWAL hash P fuel (rest.flatMap writeWALRecord ++ torn) x =
      .error (.runtimeError what) ∧ Truncated what := by
  induction rest generalizing x fuel with
  | nil =>
      obtain ⟨what, hread, hwhat⟩ :=
        readWALRecord_torn hkey hvalue htorn hlt hne
      refine ⟨what, ?_, hwhat⟩
      rw [List.flatMap_nil, List.nil_append] at hfuel ⊢
      cases torn with
      | nil => exact absurd rfl hne
      | cons c torn =>
          cases fuel with
          | zero => cases hfuel
          | succ fuel =>
              rw [replayWAL, hread]
              rfl
  | cons complete rest ih =>
      rw [List.flatMap_cons, List.append_assoc] at hlength hfuel ⊢
      have hread : readWALRecord (writeWALRecord complete ++
          (rest.flatMap writeWALRecord ++ torn)) =
          .ok (complete, rest.flatMap writeWALRecord ++ torn) :=
        readRecord_write "LSM WAL" complete hlength
      have hcomplete := length_writeWALRecord complete
      rw [List.length_append] at hlength hfuel
      cases fuel with
      | zero => omega
      | succ fuel =>
          obtain ⟨what, htail, hwhat⟩ := @ih fuel (by omega) (by omega)
            ((x.insertRecord complete).flushMemTableIfNeededLocked hash P).1
          refine ⟨what, ?_, hwhat⟩
          rw [writeWALRecord, List.cons_append] at hread ⊢
          rw [replayWAL, hread]
          simp only [bind, Except.bind]
          rw [insertRecord] at htail
          rw [htail]

/-- The manifest is read without a look at the log. -/
theorem recoverFromManifestLocked_congr (h : Saved P disk records next tables)
    (hfits : disk.Fits maxFileSize) (hfits' : disk'.Fits maxFileSize)
    (hother : ∀ path, path ≠ P.walPath → disk' path = disk path)
    (hash : String → UInt64) (memTableFlushThreshold : ℕ) :
    recoverFromManifestLocked hash P disk'
        ⟨.new memTableFlushThreshold, []⟩ =
      recoverFromManifestLocked hash P disk
        ⟨.new memTableFlushThreshold, []⟩ := by
  have hmanifest := hother _ P.walPath_ne_manifestPath.symm
  have hfiles : ∀ table ∈ tables,
      disk' (sstablePath P.manifestPath table.1) =
        some (writeSSTable table.2) := by
    intro table htable
    rw [hother _ (P.walPath_ne_sstablePath table.1).symm]
    exact h.files table htable
  rcases h.manifest with ⟨hne, n, rows, hfile, -, hrows⟩ | ⟨habsent, -⟩
  · rw [recoverFromManifestLocked_rows hne hfile hfits,
      recoverFromManifestLocked_rows hne (hmanifest.trans hfile) hfits',
      mapM_recoverRow hrows h.files hfits, mapM_recoverRow hrows hfiles hfits']
  · unfold recoverFromManifestLocked
    split
    · rfl
    · next hne => rw [hmanifest, habsent hne]

/-- The disk after a crash inside `AppendWALLocked`: so much of the record has
reached the log. -/
def crashedIn (P : Paths) (disk : Disk) (torn : List Char) : Disk :=
  disk.perform (.write P.walPath torn)

theorem crashedIn_of_ne {path : String} (h : path ≠ P.walPath) :
    crashedIn P disk torn path = disk path :=
  perform_of_ne h

theorem new_torn (h : Saved P disk records next tables)
    (hkey : record.key.length ≤ maxStringSize)
    (hvalue : record.value.length ≤ maxStringSize)
    (htorn : torn <+: writeWALRecord record)
    (hlt : torn.length < (writeWALRecord record).length) (hne : torn ≠ [])
    (hfits : disk.Fits maxFileSize)
    (hcrashed : (crashedIn P disk torn).Fits maxFileSize)
    (hash : String → UInt64) (memTableFlushThreshold : ℕ) :
    ∃ what, new hash P (crashedIn P disk torn) memTableFlushThreshold =
      .error (.runtimeError what) ∧ Truncated what := by
  obtain ⟨x, hrecover, -, -⟩ :=
    recoverFromManifestLocked_spec h hfits hash memTableFlushThreshold
  rw [← recoverFromManifestLocked_congr h hfits hcrashed
    (fun _ hpath => crashedIn_of_ne hpath)] at hrecover
  have hfile : crashedIn P disk torn P.walPath =
      some (records.flatMap writeWALRecord ++ torn) := by
    rw [crashedIn, perform_write, h.log]
  obtain ⟨what, hreplay, hwhat⟩ := replayWAL_torn hash P hkey hvalue htorn
    hlt hne (hcrashed _ _ hfile) le_rfl x
  refine ⟨what, ?_, hwhat⟩
  rw [new, hrecover]
  simp only [bind, Except.bind, recoverFromWALLocked,
    if_neg P.walPath_ne_nil, hfile, hreplay]

/-- If nothing of the record has reached the log, the disk says what it said
before. -/
theorem Saved.crashedIn_nil (h : Saved P disk records next tables) :
    Saved P (crashedIn P disk []) records next tables := by
  constructor
  case log =>
    rw [crashedIn, perform_write, List.append_nil, Option.getD_some, h.log]
  case manifest =>
    rw [Names, crashedIn_of_ne P.walPath_ne_manifestPath.symm]
    exact h.manifest
  case files =>
    intro table htable
    rw [crashedIn_of_ne (P.walPath_ne_sstablePath table.1).symm]
    exact h.files table htable
  case numbered => exact h.numbered
  case known => exact h.known

/-- Operations on an engine that is there, all of whose writes succeed. -/
inductive Continues (hash : String → UInt64) (P : Paths) (x : StoredEngine)
    (disk : Disk) : StoredEngine → Disk → Prop where
  | refl : Continues hash P x disk x disk
  | step {disk' : Disk} {y z : StoredEngine} {effects : List DiskEffect}
      (h : Continues hash P x disk y disk') (operation : Operation)
      (hrun : run hash P disk' y operation = .ok (z, effects))
      (hsucceeds : disk'.Succeeds maxFileSize effects) :
      Continues hash P x disk z (disk'.performAll effects)

theorem Continues.durable (hcontinues : Continues hash P x disk y disk')
    (h : Durable hash P disk records x) (hfits : disk.Fits maxFileSize) :
    disk'.Fits maxFileSize ∧
      ∃ records', Durable hash P disk' records' y := by
  induction hcontinues with
  | refl => exact ⟨hfits, records, h⟩
  | step _ operation hrun hsucceeds ih =>
      obtain ⟨-, records', hdurable⟩ := ih
      exact ⟨hsucceeds.after, hdurable.run hrun hsucceeds⟩

/-- The next opening shows what the engine shows. -/
theorem Durable.opens (h : Durable hash P disk records x)
    (hfits : disk.Fits maxFileSize) (memTableFlushThreshold : ℕ) :
    ∃ z effects, new hash P disk memTableFlushThreshold = .ok (z, effects) ∧
      SameMap hash z.engine x.engine := by
  obtain ⟨-, z, effects, hnew, -, -, hindexed, hvisible⟩ :=
    new_spec h.saved hfits hash memTableFlushThreshold
  exact ⟨z, effects, hnew,
    sameMap_of_visible hindexed h.indexed (hvisible.trans h.visible.symm)⟩

theorem Runs.fits (h : Runs hash P x disk) : disk.Fits maxFileSize := by
  cases h with
  | create _ _ _ _ hsucceeds => exact hsucceeds.after
  | step _ _ _ hsucceeds => exact hsucceeds.after

/-- A crash inside `AppendWALLocked`.  If nothing of the record has reached the
log, the engine opens with the map of the complete records, and what is done
with it afterwards is there at the next opening.  If a strict first part of the
record is there, the engine does not open: the reader throws that the log is
truncated. -/
theorem torn_log (h : Runs hash P x disk)
    (hkey : record.key.length ≤ maxStringSize)
    (hvalue : record.value.length ≤ maxStringSize)
    (htorn : torn <+: writeWALRecord record)
    (hlt : torn ≠ writeWALRecord record)
    (hfits : (crashedIn P disk torn).Fits maxFileSize)
    (memTableFlushThreshold : ℕ) :
    (torn = [] → ∃ z effects,
      new hash P (crashedIn P disk torn) memTableFlushThreshold =
        .ok (z, effects) ∧ SameMap hash z.engine x.engine ∧
      ((crashedIn P disk torn).Succeeds maxFileSize effects →
        ∀ y disk', Continues hash P z
          ((crashedIn P disk torn).performAll effects) y disk' →
        ∀ memTableFlushThreshold', ∃ w effects',
          new hash P disk' memTableFlushThreshold' = .ok (w, effects') ∧
            SameMap hash w.engine y.engine)) ∧
    (torn ≠ [] → ∃ what,
      new hash P (crashedIn P disk torn) memTableFlushThreshold =
        .error (.runtimeError what) ∧ Truncated what) := by
  obtain ⟨records, hdurable⟩ := h.durable
  constructor
  · rintro rfl
    have hsaved := Saved.crashedIn_nil hdurable.saved
    obtain ⟨-, z, effects, hnew, -, -, hindexed, hvisible⟩ :=
      new_spec hsaved hfits hash memTableFlushThreshold
    refine ⟨z, effects, hnew, sameMap_of_visible hindexed hdurable.indexed
      (hvisible.trans hdurable.visible.symm), ?_⟩
    intro hsucceeds y disk' hcontinues threshold
    obtain ⟨hfits', records', hlater⟩ := hcontinues.durable
      (durable_of_new hsaved hnew hsucceeds) hsucceeds.after
    exact hlater.opens hfits' threshold
  · intro hne
    have hlength : torn.length < (writeWALRecord record).length :=
      lt_of_le_of_ne htorn.length_le (fun heq => hlt (htorn.eq_of_length heq))
    exact new_torn hdurable.saved hkey hvalue htorn hlength hne h.fits hfits
      hash memTableFlushThreshold

/-- A record of which the type and three bytes of a length have reached the
log. -/
def sampleRecord : WALRecord := ⟨.put, "b", "2"⟩

def sampleTorn : List Char := (writeWALRecord sampleRecord).take 4

theorem sampleTorn_prefix : sampleTorn <+: writeWALRecord sampleRecord :=
  List.take_prefix _ _

theorem sampleTorn_fits :
    (crashedIn samplePaths sampleDisk sampleTorn).Fits maxFileSize := by
  have hsucceeds : sampleDisk.Succeeds maxFileSize
      [.write samplePaths.walPath sampleTorn] :=
    sample_succeeds (by decide +kernel)
  exact hsucceeds.after

theorem torn_log_truncated :
    ∃ what, new sampleHash samplePaths
        (crashedIn samplePaths sampleDisk sampleTorn) 2 =
      .error (.runtimeError what) ∧ Truncated what :=
  (torn_log sample_runs (by decide) (by decide) sampleTorn_prefix (by decide)
    sampleTorn_fits 2).2 (by decide)

/-- The engine cannot be opened, although the log has a complete record in
front. -/
theorem torn_log_unopened :
    Runs sampleHash samplePaths sampleWritten.1 sampleDisk ∧
      sampleTorn <+: writeWALRecord sampleRecord ∧
      sampleTorn ≠ writeWALRecord sampleRecord ∧
      ¬∃ z effects, new sampleHash samplePaths
        (crashedIn samplePaths sampleDisk sampleTorn) 2 =
          .ok (z, effects) := by
  refine ⟨sample_runs, sampleTorn_prefix, by decide, ?_⟩
  rintro ⟨z, effects, hnew⟩
  obtain ⟨records, hdurable⟩ := sample_runs.durable
  obtain ⟨what, hthrow, -⟩ := new_torn hdurable.saved
    (show sampleRecord.key.length ≤ maxStringSize by decide) (by decide)
    sampleTorn_prefix (by decide) (by decide) sample_runs.fits
    sampleTorn_fits sampleHash 2
  rw [hnew] at hthrow
  cases hthrow

end StoredEngine

end LSMTreeEngine

end KVRaftStorage
