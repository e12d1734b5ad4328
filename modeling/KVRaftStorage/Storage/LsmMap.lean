import KVRaftStorage.Storage.LsmTree

/-!
# The LSM engine is a map

The newest entry of a key decides about it, wherever it is.  Rotating, flushing
and compacting move entries between the tables in memory and the sorted tables
and leave the visible map alone, so the engine answers like the map that its
writes make.
-/

namespace KVRaftStorage

namespace LSMTreeEngine

/-! ## Merging -/

/-- What the entry leaves in a merge. -/
def kept {W : Type} (write : Entry → W) (entry : Entry) : Option W :=
  if entry.type = .put then some (write entry) else none

/-- The entries as a layer of the map. -/
def layerOf {W : Type} (write : Entry → W) (entries : MemTable)
    (key : String) : Option (Option W) :=
  entries[key]?.map (kept write)

section Merging

variable {W : Type} {write : Entry → W} {acc : Merge W}
  {items : List (String × Entry)} {tables : List MemTable} {key : String}

/-- What the merge says of a key so far. -/
def Merge.shown (acc : Merge W) (key : String) : Option (Option W) :=
  if key ∈ acc.seen then some acc.result[key]? else none

/-- Only keys that were seen are in the result. -/
def Merge.Fresh (acc : Merge W) : Prop :=
  ∀ key, key ∉ acc.seen → acc.result[key]? = none

theorem Merge.Fresh.visit (h : acc.Fresh) (write : Entry → W)
    (item : String × Entry) :
    (acc.visit write item).Fresh := by
  intro key hkey
  unfold Merge.visit at hkey ⊢
  split at hkey
  · next hseen =>
      rw [if_pos hseen]
      exact h key hkey
  · next hseen =>
      rw [if_neg hseen]
      rw [Finset.mem_insert, not_or] at hkey
      dsimp only
      split
      · rw [Std.ExtTreeMap.getElem?_insert,
          if_neg (fun heq => hkey.1 (compare_eq_iff_eq.mp heq).symm)]
        exact h key hkey.2
      · exact h key hkey.2

theorem Merge.shown_visit (h : acc.Fresh) (item : String × Entry) :
    (acc.visit write item).shown key =
      (acc.shown key).or
        (if key = item.1 then some (kept write item.2) else none) := by
  unfold Merge.visit
  by_cases hseen : item.1 ∈ acc.seen
  · rw [if_pos hseen]
    by_cases heq : key = item.1
    · subst heq
      simp [Merge.shown, hseen]
    · simp [heq]
  · rw [if_neg hseen]
    by_cases heq : key = item.1
    · subst heq
      by_cases hput : item.2.type = .put
      · simp [Merge.shown, hseen, hput, kept]
      · simp [Merge.shown, hseen, hput, kept, h _ hseen]
    · have hcmp : compare item.1 key ≠ .eq :=
        fun h => heq (compare_eq_iff_eq.mp h).symm
      by_cases hput : item.2.type = .put
      · simp [Merge.shown, heq, hput, Std.ExtTreeMap.getElem?_insert,
          Ne.symm heq]
      · simp [Merge.shown, heq, hput]

/-- After the entries of one layer. -/
theorem Merge.shown_foldl (h : acc.Fresh) (write : Entry → W)
    (items : List (String × Entry)) (key : String) :
    (items.foldl (Merge.visit write) acc).Fresh ∧
      (items.foldl (Merge.visit write) acc).shown key =
        (acc.shown key).or ((items.lookup key).map (kept write)) := by
  induction items generalizing acc with
  | nil => exact ⟨h, by simp⟩
  | cons item items ih =>
      obtain ⟨hfresh, hshown⟩ := ih (h.visit write item)
      refine ⟨hfresh, ?_⟩
      rw [List.foldl_cons, hshown, Merge.shown_visit h, List.lookup_cons,
        Option.or_assoc]
      congr 1
      by_cases heq : key = item.1
      · simp [heq]
      · have hbeq : (key == item.1) = false := by simpa using heq
        simp [heq, hbeq]

/-- A merge shows what its layers show. -/
theorem getElem?_mergeNewestFirst (write : Entry → W) (tables : List MemTable)
    (key : String) :
    (mergeNewestFirst write tables)[key]? =
      Layers.visible (tables.map (layerOf write)) key := by
  have hall : ∀ (acc : Merge W), acc.Fresh →
      let acc' := tables.foldl (fun (acc : Merge W) (entries : MemTable) =>
        entries.toList.foldl (Merge.visit write) acc) acc
      acc'.Fresh ∧ acc'.shown key = (acc.shown key).or
        (Layers.lookup (tables.map (layerOf write)) key) := by
    induction tables with
    | nil =>
        intro acc h
        exact ⟨h, by simp⟩
    | cons entries tables ih =>
        intro acc h
        obtain ⟨hfresh, hshown⟩ :=
          Merge.shown_foldl h write entries.toList key
        obtain ⟨hfresh', hshown'⟩ := ih _ hfresh
        refine ⟨hfresh', ?_⟩
        rw [List.foldl_cons, hshown', hshown, List.map_cons, Layers.lookup_cons,
          Option.or_assoc, OrderedMap.lookup_toList]
        rfl
  obtain ⟨hfresh, hshown⟩ := hall ⟨∅, ∅⟩ (fun key _ => by simp)
  rw [Layers.visible, mergeNewestFirst]
  simp only [Merge.shown, Finset.notMem_empty, if_false, Option.none_or] at hshown
  rw [← hshown]
  split
  · rfl
  · next hseen => exact hfresh key hseen

end Merging

/-! ## The visible map -/

/-- The value of the key in the newest entry for it. -/
def visible (e : LSMTreeEngine) : String → Option String :=
  Layers.visible (e.layers.map (layerOf (·.value)))

/-- The filter, the range and the blocks of every table agree with its
entries. -/
def Indexed (hash : String → UInt64) (e : LSMTreeEngine) : Prop :=
  ∀ table ∈ e.sstables, ∀ key, table.find? hash key = table.entries[key]?

section Visible

variable {hash : String → UInt64} {e : LSMTreeEngine} {key : String}

theorem lookup_layers (tables : List MemTable) :
    Layers.lookup (tables.map (layerOf (·.value))) key =
      (tables.findSome? (·[key]?)).map (kept (·.value)) := by
  induction tables with
  | nil => rfl
  | cons entries tables ih =>
      rw [List.map_cons, Layers.lookup_cons, ih, List.findSome?_cons, layerOf]
      cases entries[key]? <;> rfl

theorem findSome?_tables {tables : List SSTable}
    (h : ∀ table ∈ tables, table.find? hash key = table.entries[key]?) :
    tables.findSome? (fun table => table.find? hash key) =
      (tables.map (·.entries)).findSome? (·[key]?) := by
  induction tables with
  | nil => rfl
  | cons table tables ih =>
      rw [List.map_cons, List.findSome?_cons, List.findSome?_cons,
        h table (by simp), ih (fun t ht => h t (List.mem_cons_of_mem _ ht))]

theorem findEntryLocked_eq (h : e.Indexed hash) :
    e.findEntryLocked hash key = e.layers.findSome? (·[key]?) := by
  have htables : e.sstables.reverse.findSome? (fun t => t.find? hash key) =
      (e.sstables.reverse.map (·.entries)).findSome? (·[key]?) :=
    findSome?_tables fun table htable =>
      h table (List.mem_reverse.mp htable) key
  rw [findEntryLocked, layers, List.cons_append, List.findSome?_cons,
    List.findSome?_append, htables]
  cases e.memTable[key]? with
  | some entry => rfl
  | none =>
      cases e.immutableMemTables.reverse.findSome? (·[key]?) <;> rfl

/-- `Get` through the indices reads the visible map. -/
theorem get_eq (h : e.Indexed hash) : e.get hash key = e.visible key := by
  rw [get, findEntryLocked_eq h, visible, Layers.visible, lookup_layers]
  cases e.layers.findSome? (·[key]?) with
  | none => rfl
  | some entry =>
      obtain ⟨type, value⟩ := entry
      cases type <;> rfl

/-- The merge of all layers is the visible map. -/
theorem getElem?_exportVisibleDataLocked (e : LSMTreeEngine) (key : String) :
    e.exportVisibleDataLocked[key]? = e.visible key :=
  getElem?_mergeNewestFirst _ _ _

/-! ## What flushing and compacting leave alone -/

theorem visible_of_layers {e' : LSMTreeEngine} (h : e'.layers = e.layers) :
    e'.visible = e.visible := by
  unfold visible
  rw [h]

theorem visible_rotate (e : LSMTreeEngine) :
    e.rotateMemTableToImmutableLocked.visible = e.visible := by
  unfold rotateMemTableToImmutableLocked
  split
  · rfl
  · funext key
    have hlayers : ({ e with
        immutableMemTables := e.immutableMemTables ++ [e.memTable]
        memTable := ∅ } : LSMTreeEngine).layers = ∅ :: e.layers := by
      simp [layers]
    rw [visible, hlayers, List.map_cons,
      Layers.visible_cons_of_none (by simp [layerOf])]
    rfl

theorem indexed_rotate (h : e.Indexed hash) :
    e.rotateMemTableToImmutableLocked.Indexed hash := by
  unfold rotateMemTableToImmutableLocked
  split
  · exact h
  · exact h

theorem newTable_entries (e : LSMTreeEngine) (entries : MemTable) :
    (e.newTable hash entries).entries = entries :=
  SSTable.rebuild_entries _ _

theorem newTable_indexed (e : LSMTreeEngine) (entries : MemTable) :
    (e.newTable hash entries).find? hash key =
      (e.newTable hash entries).entries[key]? := by
  rw [newTable_entries]
  exact SSTable.find?_rebuild _ _ _

/-- The oldest table in memory becomes the newest sorted table. -/
theorem flushTables_spec {tables : List MemTable} (h : e.Indexed hash)
    (htables : e.immutableMemTables = tables) :
    (flushTables hash tables e).layers = e.layers ∧
      (flushTables hash tables e).Indexed hash := by
  induction tables generalizing e with
  | nil => exact ⟨rfl, h⟩
  | cons entries rest ih =>
      rw [flushTables]
      obtain ⟨hlayers, hindexed⟩ := ih (e := { e with
        immutableMemTables := rest
        nextSSTableSequence := e.nextSSTableSequence + 1
        sstables := e.sstables ++ [e.newTable hash entries] })
        (by
          intro table htable key
          rcases List.mem_append.mp htable with htable | htable
          · exact h table htable key
          · rw [List.mem_singleton.mp htable]
            exact newTable_indexed e entries) rfl
      refine ⟨hlayers.trans ?_, hindexed⟩
      simp [layers, htables, newTable_entries]

theorem flushMemTable_spec (h : e.Indexed hash) :
    (e.flushMemTableLocked hash).visible = e.visible ∧
      (e.flushMemTableLocked hash).Indexed hash := by
  obtain ⟨hlayers, hindexed⟩ := flushTables_spec (indexed_rotate h) rfl
  exact ⟨(visible_of_layers hlayers).trans (visible_rotate e), hindexed⟩

theorem flushIfNeeded_spec (h : e.Indexed hash) :
    (e.flushMemTableIfNeededLocked hash).visible = e.visible ∧
      (e.flushMemTableIfNeededLocked hash).Indexed hash := by
  unfold flushMemTableIfNeededLocked
  split
  · split
    · exact ⟨visible_rotate e, indexed_rotate h⟩
    · exact flushMemTable_spec h
  · exact ⟨rfl, h⟩

theorem kept_map (entry : Entry) :
    kept (·.value) entry = (kept id entry).map (·.value) := by
  unfold kept
  split <;> rfl

theorem layerOf_map (tables : List MemTable) :
    tables.map (layerOf (·.value)) = (tables.map (layerOf id)).map
      (fun layer k => (layer k).map (Option.map (·.value))) := by
  rw [List.map_map]
  apply List.map_congr_left
  intro entries _
  funext key
  simp only [layerOf, Function.comp, Option.map_map]
  congr 1
  funext entry
  exact kept_map entry

/-- Only puts survive a compaction. -/
theorem type_of_merged {tables : List MemTable} {entry : Entry}
    (h : (mergeNewestFirst id tables)[key]? = some entry) :
    entry.type = .put := by
  rw [getElem?_mergeNewestFirst, Layers.visible] at h
  induction tables with
  | nil => cases h
  | cons entries tables ih =>
      rw [List.map_cons, Layers.lookup_cons] at h
      cases hentry : entries[key]? with
      | none =>
          simp only [layerOf, hentry, Option.map_none, Option.none_or] at h
          exact ih h
      | some newest =>
          simp only [layerOf, hentry, Option.map_some, Option.some_or,
            Option.join_some, kept] at h
          split at h
          · next hput =>
              rw [← Option.some.inj h]
              exact hput
          · cases h

/-- The merged table shows what the merged tables showed. -/
theorem visible_merged (tables : List MemTable) (key : String) :
    Layers.visible [layerOf (·.value) (mergeNewestFirst id tables)] key =
      Layers.visible (tables.map (layerOf (·.value))) key := by
  apply Layers.visible_singleton
  intro k
  rw [layerOf_map, Layers.visible_map, ← getElem?_mergeNewestFirst, layerOf]
  cases hentry : (mergeNewestFirst id tables)[k]? with
  | none => rfl
  | some entry => simp [kept, type_of_merged hentry]

theorem compact_spec (h : e.Indexed hash) :
    (e.compactSSTablesLocked hash).visible = e.visible ∧
      (e.compactSSTablesLocked hash).Indexed hash := by
  let newer := (e.memTable :: e.immutableMemTables.reverse).map
    (layerOf (·.value))
  let older := e.sstables.reverse.map (·.entries)
  have hold : e.visible =
      Layers.visible (newer ++ older.map (layerOf (·.value))) := by
    rw [visible, layers, List.map_append]
  unfold compactSSTablesLocked
  split
  · exact ⟨rfl, h⟩
  dsimp only
  split
  · next hempty =>
      refine ⟨?_, by simp [Indexed]⟩
      funext key
      rw [hold, ← Layers.visible_append_congr (visible_merged older key)]
      have hnone : (mergeNewestFirst id older)[key]? = none := by
        rw [Std.ExtTreeMap.isEmpty_iff.mp hempty]
        simp
      have hdrop : Layers.visible
          [layerOf (·.value) (mergeNewestFirst id older)] key =
          Layers.visible [] key :=
        Layers.visible_cons_of_none (by simp [layerOf, hnone])
      rw [Layers.visible_append_congr hdrop]
      rw [List.append_nil, visible, layers]
      simp [newer]
  · constructor
    · funext key
      rw [hold, ← Layers.visible_append_congr (visible_merged older key),
        visible, layers]
      simp [newer, older, newTable_entries]
    · intro table htable key
      rw [List.mem_singleton.mp htable]
      exact newTable_indexed e _

end Visible

/-! ## Sequences of operations -/

/-- An engine and the map that the same writes make.  A restored snapshot is
that of any engine with its own run. -/
inductive Replays (hash : String → UInt64) :
    LSMTreeEngine → Std.ExtTreeMap String String → Prop where
  | new (memTableFlushThreshold : ℕ) :
      Replays hash (.new memTableFlushThreshold) ∅
  | put {e m} (key value : String) (h : Replays hash e m) :
      Replays hash (e.put hash key value) (m.insert key value)
  | delete {e m} (key : String) (h : Replays hash e m) :
      Replays hash (e.delete hash key) (m.erase key)
  | flush {e m} (h : Replays hash e m) : Replays hash (e.flush hash) m
  | compact {e m} (h : Replays hash e m) : Replays hash (e.compact hash) m
  | enableAsyncFlush {e m} (enabled : Bool) (h : Replays hash e m) :
      Replays hash (e.enableAsyncFlush enabled) m
  | backgroundRound {e m} (h : Replays hash e m) :
      Replays hash (e.backgroundRound hash) m
  | restore {e m source m' snapshot e'} (h : Replays hash e m)
      (hsource : Replays hash source m')
      (hsnapshot : source.snapshot = .ok snapshot)
      (hrestore : e.restore hash snapshot = .ok e') : Replays hash e' m'

section Runs

variable {hash : String → UInt64} {e e' : LSMTreeEngine}
  {m m' : Std.ExtTreeMap String String}

/-- The engine stands for the map. -/
structure Refines (hash : String → UInt64) (e : LSMTreeEngine)
    (m : Std.ExtTreeMap String String) : Prop where
  indexed : e.Indexed hash
  visible : ∀ key, e.visible key = m[key]?

/-- Every function that reads the engine answers like the map. -/
structure Answers (hash : String → UInt64) (e : LSMTreeEngine)
    (m : Std.ExtTreeMap String String) : Prop where
  get : ∀ key, e.get hash key = m[key]?
  size : e.size = toInt m.size
  rangeScan : ∀ startKey endKey, e.rangeScan startKey endKey =
    m.toList.filter (fun item => startKey ≤ item.1 ∧ item.1 ≤ endKey)
  snapshot : e.snapshot = writeSnapshot m.toList

theorem visible_insert (e : LSMTreeEngine) (key : String) (entry : Entry)
    (k : String) :
    ({ e with memTable := e.memTable.insert key entry } :
        LSMTreeEngine).visible k =
      if compare key k = .eq then kept (·.value) entry else e.visible k := by
  have hlayer : layerOf (·.value) (e.memTable.insert key entry) k =
      if compare key k = .eq then some (kept (·.value) entry)
      else layerOf (·.value) e.memTable k := by
    rw [layerOf, Std.ExtTreeMap.getElem?_insert]
    split <;> rfl
  unfold visible layers
  rw [List.cons_append, List.cons_append, List.map_cons, List.map_cons]
  split
  · next heq =>
      rw [if_pos heq] at hlayer
      exact Layers.visible_cons_of_some hlayer
  · next hne =>
      rw [if_neg hne] at hlayer
      rw [Layers.visible, Layers.visible, Layers.lookup_cons,
        Layers.lookup_cons, hlayer]

theorem Refines.put (h : Refines hash e m) (key value : String) :
    Refines hash (e.put hash key value) (m.insert key value) := by
  have hindexed : Indexed hash
      { e with memTable := e.memTable.insert key ⟨.put, value⟩ } := h.indexed
  obtain ⟨hvisible, hindexed'⟩ := flushIfNeeded_spec hindexed
  refine ⟨hindexed', ?_⟩
  intro k
  rw [LSMTreeEngine.put, hvisible, visible_insert, Std.ExtTreeMap.getElem?_insert,
    h.visible]
  rfl

theorem Refines.delete (h : Refines hash e m) (key : String) :
    Refines hash (e.delete hash key) (m.erase key) := by
  have hindexed : Indexed hash
      { e with memTable := e.memTable.insert key ⟨.delete, ""⟩ } := h.indexed
  obtain ⟨hvisible, hindexed'⟩ := flushIfNeeded_spec hindexed
  refine ⟨hindexed', ?_⟩
  intro k
  rw [LSMTreeEngine.delete, hvisible, visible_insert,
    Std.ExtTreeMap.getElem?_erase, h.visible]
  rfl

theorem Refines.flush (h : Refines hash e m) :
    Refines hash (e.flush hash) m := by
  obtain ⟨hvisible, hindexed⟩ := flushMemTable_spec h.indexed
  refine ⟨hindexed, ?_⟩
  intro key
  rw [LSMTreeEngine.flush, hvisible, h.visible]

theorem Refines.compact (h : Refines hash e m) :
    Refines hash (e.compact hash) m := by
  obtain ⟨hvisible, hindexed⟩ := compact_spec h.indexed
  refine ⟨hindexed, ?_⟩
  intro key
  rw [LSMTreeEngine.compact, hvisible, h.visible]

theorem Refines.enableAsyncFlush (h : Refines hash e m) (enabled : Bool) :
    Refines hash (e.enableAsyncFlush enabled) m :=
  ⟨h.indexed, h.visible⟩

theorem Refines.backgroundRound (h : Refines hash e m) :
    Refines hash (e.backgroundRound hash) m := by
  unfold LSMTreeEngine.backgroundRound
  dsimp only
  split
  · exact h.flush.compact
  · exact h.flush

theorem Refines.export_eq (h : Refines hash e m) :
    e.exportVisibleDataLocked = m := by
  apply Std.ExtTreeMap.ext_getElem?
  intro key
  rw [getElem?_exportVisibleDataLocked, h.visible]

theorem Refines.answers (h : Refines hash e m) : Answers hash e m := by
  constructor
  case get =>
    intro key
    rw [get_eq h.indexed, h.visible]
  case size => rw [LSMTreeEngine.size, h.export_eq]
  case snapshot => rw [LSMTreeEngine.snapshot, h.export_eq]
  case rangeScan =>
    intro startKey endKey
    have hasc := OrderedMap.ascending_toList m
    unfold LSMTreeEngine.rangeScan
    rw [h.export_eq]
    split
    · next hlt =>
        symm
        rw [List.filter_eq_nil_iff]
        intro item _ hin
        rw [decide_eq_true_eq] at hin
        exact absurd (hin.1.trans hin.2) (not_le.mpr hlt)
    · have hsub : OrderedMap.Ascending
          (m.toList.filter (fun item => startKey ≤ item.1)) :=
        hasc.sublist List.filter_sublist
      rw [hasc.dropWhile_eq, hsub.takeWhile_eq, List.filter_filter]
      apply List.filter_congr
      intro item _
      simp [Bool.and_comm]

/-- A snapshot replaces everything by the map it was taken of. -/
theorem restore_spec {snapshot : String}
    (hsnapshot : writeSnapshot m'.toList = .ok snapshot) :
    ∃ e', e.restore hash snapshot = .ok e' ∧ Refines hash e' m' := by
  obtain ⟨hread, hne⟩ := readSnapshot_write hsnapshot
  have hrestored : ∀ key : String, (restoredEntries m'.toList)[key]? =
      m'[key]?.map (Entry.mk .put) := by
    intro key
    rw [restoredEntries, OrderedMap.getElem?_foldl_insert (Entry.mk .put)
      (OrderedMap.ascending_toList m'), OrderedMap.lookup_toList]
    simp
  have hempty : Indexed hash { e with
      memTable := restoredEntries m'.toList
      immutableMemTables := []
      sstables := [] } := by
    intro table htable
    exact absurd htable List.not_mem_nil
  obtain ⟨hvisible, hindexed⟩ := flushIfNeeded_spec hempty
  refine ⟨_, ?_, hindexed, ?_⟩
  · rw [restore, if_neg hne, hread]
    rfl
  · intro key
    rw [hvisible, LSMTreeEngine.visible, layers]
    refine Layers.visible_singleton (m := fun key => m'[key]?) ?_
    intro k
    dsimp only
    rw [layerOf, hrestored]
    cases m'[k]? <;> rfl

theorem new_refines (memTableFlushThreshold : ℕ) :
    Refines hash (new memTableFlushThreshold) ∅ := by
  refine ⟨by simp [Indexed, new], ?_⟩
  intro key
  have hlayers : (new memTableFlushThreshold).layers = [∅] := rfl
  rw [LSMTreeEngine.visible, hlayers, List.map_singleton,
    Layers.visible_cons_of_none (by simp [layerOf])]
  simp [Layers.visible]

theorem Replays.refines (h : Replays hash e m) : Refines hash e m := by
  induction h with
  | new threshold => exact new_refines threshold
  | put key value _ ih => exact ih.put key value
  | delete key _ ih => exact ih.delete key
  | flush _ ih => exact ih.flush
  | compact _ ih => exact ih.compact
  | enableAsyncFlush enabled _ ih => exact ih.enableAsyncFlush enabled
  | backgroundRound _ ih => exact ih.backgroundRound
  | restore _ _ hsnapshot hrestore _ ih =>
      rw [ih.answers.snapshot] at hsnapshot
      obtain ⟨e', heq, href⟩ := restore_spec hsnapshot
      rw [heq] at hrestore
      rw [← Except.ok.inj hrestore]
      exact href

/-- After any operations the engine answers like the replayed map, and every
snapshot of an engine can be restored. -/
theorem answers_replayed (h : Replays hash e m) :
    Answers hash e m ∧ ∀ source m' snapshot, Replays hash source m' →
      source.snapshot = .ok snapshot →
      ∃ e', e.restore hash snapshot = .ok e' := by
  refine ⟨h.refines.answers, ?_⟩
  intro source m' snapshot hsource hsnapshot
  rw [hsource.refines.answers.snapshot] at hsnapshot
  obtain ⟨e', heq, -⟩ := restore_spec hsnapshot
  exact ⟨e', heq⟩

/-- An engine that flushes at every write, restored by another engine. -/
theorem answers_restored :
    let hash := fun key : String => UInt64.ofNat key.length
    let source := ((new 1).put hash "a" "1").delete hash "b"
    let m := ((∅ : Std.ExtTreeMap String String).insert "a" "1").erase "b"
    ∃ snapshot e', source.snapshot = .ok snapshot ∧
      (new 0).restore hash snapshot = .ok e' ∧ Answers hash e' m := by
  intro hash source m
  have hnew : Replays hash (new 0) ∅ := .new 0
  have hsource : Replays hash source m := .delete "b" (.put "a" "1" (.new 1))
  have hlength : (writeUint64 m.toList.length ++
      writeEntries m.toList).length ≤ maxStringSize := by decide +kernel
  have hsnapshot := (answers_replayed hsource).1.snapshot.trans
    (writeSnapshot_of_le hlength)
  obtain ⟨e', hrestore⟩ :=
    (answers_replayed hnew).2 source m _ hsource hsnapshot
  exact ⟨_, e', hsnapshot, hrestore,
    (answers_replayed (.restore hnew hsource hsnapshot hrestore)).1⟩

end Runs

end LSMTreeEngine

end KVRaftStorage
