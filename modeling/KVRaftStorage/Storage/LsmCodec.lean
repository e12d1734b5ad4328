import KVRaftStorage.Storage.LsmMap

/-!
# Reading a snapshot from another node

`Restore` as a program over the state of an engine without file paths, so that
what an exception leaves behind is visible.  Its reader is compared with one
whose arithmetic stops where `size_t` would wrap around: on a byte string they
agree.  What the reader accepts is exactly what the writer writes.
-/

namespace KVRaftStorage

/-- The content of a `std::string`. -/
structure ByteString where
  value : String
  length_le : value.length ≤ maxStringSize
  isByte : ∀ c ∈ value.toList, c.toNat < 256

namespace LSMTreeEngine

/-! ## The reader without wrap-around -/

def exactAdd (a b : ℕ) : Except Fault ℕ :=
  if a + b < 2 ^ 64 then .ok (a + b) else .error .outOfBounds

def exactSub (a b : ℕ) : Except Fault ℕ :=
  if b ≤ a then .ok (a - b) else .error .outOfBounds

def readBytesExact (input : List Char) (offset n : ℕ) : Except Fault ℕ :=
  (List.range n).foldlM (fun value i => do
    let place ← exactAdd offset i
    let c ← charAt input place
    return value ||| (c.toNat % 256) <<< (8 * i)) 0

def readUint64Exact (input : List Char) (offset : ℕ) :
    Except Fault (ℕ × ℕ) := do
  let remaining ← exactSub input.length offset
  if remaining < 8 then .error (.runtimeError "LSM snapshot is truncated")
  else
    let value ← readBytesExact input offset 8
    let offset ← exactAdd offset 8
    return (value, offset)

def readStringExact (input : List Char) (offset : ℕ) :
    Except Fault (String × ℕ) := do
  let (size, offset) ← readUint64Exact input offset
  let remaining ← exactSub input.length offset
  if remaining < size then
    .error (.runtimeError "LSM snapshot string is truncated")
  else
    let value := (input.drop offset).take size
    let offset ← exactAdd offset size
    return (String.ofList value, offset)

def readEntriesExact (input : List Char) :
    ℕ → ℕ → Except Fault (List (String × String) × ℕ)
  | 0, offset => return ([], offset)
  | count + 1, offset => do
      let (key, offset) ← readStringExact input offset
      let (value, offset) ← readStringExact input offset
      let (data, offset) ← readEntriesExact input count offset
      return ((key, value) :: data, offset)

def readSnapshotExact (snapshot : String) :
    Except Fault (List (String × String)) := do
  let (count, offset) ← readUint64Exact snapshot.toList 0
  let (data, offset) ← readEntriesExact snapshot.toList count offset
  if offset ≠ snapshot.toList.length then
    .error (.runtimeError "LSM snapshot has trailing bytes")
  else return data

/-! ## `Restore` over the state -/

def restoreProgram (hash : String → UInt64) (snapshot : String) :
    ExceptT Fault (StateM LSMTreeEngine) Unit := do
  if snapshot.toList = [] then
    modify fun e => { e with memTable := ∅ }
    modify fun e => { e with immutableMemTables := [] }
    modify fun e => { e with sstables := [] }
  else
    let data ← ExceptT.mk (pure (readSnapshot snapshot))
    modify fun e => { e with memTable := restoredEntries data }
    modify fun e => { e with immutableMemTables := [] }
    modify fun e => { e with sstables := [] }
    modify fun e => e.flushMemTableIfNeededLocked hash

/-- The map of the pairs, where a later one of the same key wins. -/
def mapOf (data : List (String × String)) : Std.ExtTreeMap String String :=
  data.foldl (fun m item => m.insert item.1 item.2) ∅

/-! ## What a reader returns -/

section Reading

variable {input : List Char} {offset : ℕ}

/-- Both readers throw, or both return a value whose text is cut off the
input. -/
def Parses {α : Type} (input : List Char) (offset : ℕ) (text : α → List Char)
    (r r' : Except Fault (α × ℕ)) : Prop :=
  (∃ what, r = .error (.runtimeError what) ∧
    r' = .error (.runtimeError what)) ∨
  ∃ a offset', r = .ok (a, offset') ∧ r' = .ok (a, offset') ∧
    offset' ≤ input.length ∧ input.drop offset = text a ++ input.drop offset'

/-- One more byte above a number. -/
theorem or_byte {value byte n : ℕ} (hvalue : value < 2 ^ (8 * n))
    (hbyte : byte < 256) :
    value ||| byte <<< (8 * n) < 2 ^ (8 * (n + 1)) ∧
      (value ||| byte <<< (8 * n)) / 2 ^ (8 * n) % 256 = byte ∧
      ∀ i < n, (value ||| byte <<< (8 * n)) / 2 ^ (8 * i) % 256 =
        value / 2 ^ (8 * i) % 256 := by
  have hor : value ||| byte <<< (8 * n) = value + 2 ^ (8 * n) * byte := by
    rw [Nat.or_comm, ← Nat.shiftLeft_add_eq_or_of_lt hvalue, Nat.shiftLeft_eq,
      Nat.add_comm, Nat.mul_comm]
  rw [hor]
  refine ⟨?_, ?_, ?_⟩
  · rw [Nat.mul_add, Nat.mul_one, Nat.pow_add]
    calc value + 2 ^ (8 * n) * byte
        < 2 ^ (8 * n) + 2 ^ (8 * n) * byte := Nat.add_lt_add_right hvalue _
      _ = 2 ^ (8 * n) * (byte + 1) := by rw [Nat.mul_add, Nat.mul_one,
          Nat.add_comm]
      _ ≤ 2 ^ (8 * n) * 2 ^ 8 := Nat.mul_le_mul_left _ hbyte
  · rw [Nat.add_mul_div_left _ _ (Nat.two_pow_pos _),
      Nat.div_eq_of_lt hvalue, Nat.zero_add, Nat.mod_eq_of_lt hbyte]
  · intro i hi
    have hpow : 2 ^ (8 * n) * byte =
        2 ^ (8 * i) * (256 * (2 ^ (8 * (n - i - 1)) * byte)) := by
      rw [show 8 * n = 8 * i + (8 + 8 * (n - i - 1)) by omega, Nat.pow_add,
        Nat.pow_add, Nat.mul_assoc, Nat.mul_assoc]
    rw [hpow, Nat.add_mul_div_left _ _ (Nat.two_pow_pos _),
      Nat.add_mul_mod_self_left]

/-- The bytes of a number that was read. -/
theorem readBytes_spec {n : ℕ} (hn : n ≤ 8) (h : offset + n ≤ input.length)
    (hlength : input.length ≤ maxStringSize) :
    ∃ value, readBytes input offset n = .ok value ∧
      readBytesExact input offset n = .ok value ∧ value < 2 ^ (8 * n) ∧
      ∀ i < n, ∀ c, input[offset + i]? = some c →
        value / 2 ^ (8 * i) % 256 = c.toNat % 256 := by
  induction n with
  | zero => exact ⟨0, rfl, rfl, Nat.two_pow_pos _, by simp⟩
  | succ n ih =>
      obtain ⟨value, hread, hexact, hlt, hbytes⟩ := ih (by omega) (by omega)
      have hinput : offset + n < input.length := by omega
      have hsum : offset + n < 2 ^ 64 := by
        unfold maxStringSize at hlength
        omega
      have hchar : charAt input (offset + n) = .ok input[offset + n] := by
        rw [charAt, List.getElem?_eq_getElem hinput]
      have hbyte : input[offset + n].toNat % 256 < 256 :=
        Nat.mod_lt _ (by decide)
      obtain ⟨hnext, hself, hkeep⟩ := or_byte hlt hbyte
      refine ⟨value ||| (input[offset + n].toNat % 256) <<< (8 * n), ?_, ?_,
        hnext, ?_⟩
      · rw [readBytes] at hread ⊢
        rw [List.range_succ, List.foldlM_append, hread]
        simp only [List.foldlM_cons, List.foldlM_nil, addSize_of_lt hsum, bind,
          Except.bind, hchar]
        rfl
      · rw [readBytesExact] at hexact ⊢
        rw [List.range_succ, List.foldlM_append, hexact]
        simp only [List.foldlM_cons, List.foldlM_nil, exactAdd, if_pos hsum,
          bind, Except.bind, hchar]
        rfl
      · intro i hi c hc
        rcases Nat.lt_succ_iff_lt_or_eq.mp hi with hi | rfl
        · rw [hkeep i hi]
          exact hbytes i hi c hc
        · rw [hself, ← Option.some.inj
            ((List.getElem?_eq_getElem hinput).symm.trans hc)]

/-- The number whose bytes stand there is written with these bytes. -/
theorem writeUint64_eq {value : ℕ} (h : offset + 8 ≤ input.length)
    (hbyte : ∀ c ∈ input, c.toNat < 256)
    (hvalue : ∀ i < 8, ∀ c, input[offset + i]? = some c →
      value / 2 ^ (8 * i) % 256 = c.toNat % 256) :
    input.drop offset = writeUint64 value ++ input.drop (offset + 8) := by
  have htake : (input.drop offset).take 8 = writeUint64 value := by
    apply List.ext_getElem
    · rw [List.length_take, List.length_drop, length_writeUint64]
      omega
    · intro i hi hi'
      rw [length_writeUint64] at hi'
      have hplace : offset + i < input.length := by omega
      rw [List.getElem_take, List.getElem_drop]
      simp only [writeUint64, List.getElem_map, List.getElem_range]
      rw [hvalue i hi' _ (List.getElem?_eq_getElem hplace),
        Nat.mod_eq_of_lt (hbyte _ (List.getElem_mem hplace)),
        Char.ofNat_toNat]
  rw [← htake, ← List.drop_drop, List.take_append_drop]

theorem readUint64_spec (h : offset ≤ input.length)
    (hlength : input.length ≤ maxStringSize)
    (hbyte : ∀ c ∈ input, c.toNat < 256) :
    Parses input offset writeUint64 (readUint64 input offset)
      (readUint64Exact input offset) := by
  have hsize : input.length < 2 ^ 64 := by
    unfold maxStringSize at hlength
    omega
  rw [readUint64, readUint64Exact, subSize_of_le h hsize, exactSub, if_pos h]
  by_cases hshort : input.length - offset < 8
  · refine .inl ⟨_, if_pos hshort, ?_⟩
    simp only [bind, Except.bind, if_pos hshort]
  · have hroom : offset + 8 ≤ input.length := by omega
    obtain ⟨value, hread, hexact, -, hvalue⟩ :=
      readBytes_spec le_rfl hroom hlength
    refine .inr ⟨value, offset + 8, ?_, ?_, hroom,
      writeUint64_eq hroom hbyte hvalue⟩
    · rw [if_neg hshort, hread, addSize_of_lt (by omega)]
      rfl
    · simp only [bind, Except.bind, if_neg hshort, hexact, exactAdd,
        if_pos (show offset + 8 < 2 ^ 64 by omega)]
      rfl

theorem readString_spec (h : offset ≤ input.length)
    (hlength : input.length ≤ maxStringSize)
    (hbyte : ∀ c ∈ input, c.toNat < 256) :
    Parses input offset writeString (readString input offset)
      (readStringExact input offset) := by
  have hsize : input.length < 2 ^ 64 := by
    unfold maxStringSize at hlength
    omega
  rcases readUint64_spec h hlength hbyte with
    ⟨what, hread, hexact⟩ | ⟨size, offset', hread, hexact, hle, hdrop⟩
  · refine .inl ⟨what, ?_, ?_⟩
    · rw [readString, hread]
      rfl
    · rw [readStringExact, hexact]
      rfl
  · rw [readString_of_size hread, subSize_of_le hle hsize, readStringExact,
      hexact]
    simp only [bind, Except.bind, exactSub, if_pos hle]
    by_cases hshort : input.length - offset' < size
    · exact .inl ⟨_, if_pos hshort, if_pos hshort⟩
    · have hroom : offset' + size ≤ input.length := by omega
      have hvalue : ((input.drop offset').take size).length = size := by
        rw [List.length_take, List.length_drop]
        omega
      refine .inr ⟨String.ofList ((input.drop offset').take size),
        offset' + size, ?_, ?_, hroom, ?_⟩
      · rw [if_neg hshort, addSize_of_lt (by omega)]
      · simp only [if_neg hshort, exactAdd,
          if_pos (show offset' + size < 2 ^ 64 by omega)]
        rfl
      · rw [writeString, String.toList_ofList, String.length_ofList, hvalue,
          hdrop, List.append_assoc, ← List.drop_drop, List.take_append_drop]

/-- A count of entries, as large as it may be, is read entry by entry. -/
theorem readEntries_spec (count : ℕ) (h : offset ≤ input.length)
    (hlength : input.length ≤ maxStringSize)
    (hbyte : ∀ c ∈ input, c.toNat < 256) :
    Parses input offset writeEntries (readEntries input count offset)
      (readEntriesExact input count offset) := by
  induction count generalizing offset with
  | zero => exact .inr ⟨[], offset, rfl, rfl, h, rfl⟩
  | succ count ih =>
      rw [readEntries, readEntriesExact]
      rcases readString_spec h hlength hbyte with
        ⟨what, hread, hexact⟩ | ⟨key, offset₁, hread, hexact, hle₁, hdrop₁⟩
      · exact .inl ⟨what, by rw [hread]; rfl, by rw [hexact]; rfl⟩
      · rw [hread, hexact]
        simp only [bind, Except.bind]
        rcases readString_spec hle₁ hlength hbyte with
          ⟨what, hread, hexact⟩ | ⟨value, offset₂, hread, hexact, hle₂, hdrop₂⟩
        · exact .inl ⟨what, by rw [hread], by rw [hexact]⟩
        · rw [hread, hexact]
          rcases ih hle₂ with
            ⟨what, hread, hexact⟩ | ⟨data, offset₃, hread, hexact, hle₃, hdrop₃⟩
          · exact .inl ⟨what, by simp only [hread], by simp only [hexact]⟩
          · refine .inr ⟨(key, value) :: data, offset₃,
              by simp only [hread]; rfl, by simp only [hexact]; rfl, hle₃, ?_⟩
            rw [hdrop₁, hdrop₂, hdrop₃]
            simp [writeEntries]

theorem length_of_readEntries {count offset' : ℕ}
    {data : List (String × String)}
    (h : readEntries input count offset = .ok (data, offset')) :
    data.length = count := by
  induction count generalizing offset data with
  | zero =>
      rw [readEntries] at h
      cases h
      rfl
  | succ count ih =>
      rw [readEntries] at h
      cases hkey : readString input offset with
      | error fault => rw [hkey] at h; cases h
      | ok key =>
          rw [hkey] at h
          simp only [bind, Except.bind] at h
          cases hvalue : readString input key.2 with
          | error fault => rw [hvalue] at h; cases h
          | ok value =>
              rw [hvalue] at h
              cases hrest : readEntries input count value.2 with
              | error fault => simp only [hrest] at h; cases h
              | ok rest =>
                  simp only [hrest] at h
                  cases h
                  rw [List.length_cons, ih hrest]

/-- What the reader does with a byte string: it throws, or the string is the
writer's text of what it returns. -/
theorem readSnapshot_spec (s : ByteString) :
    (∃ what, readSnapshot s.value = .error (.runtimeError what) ∧
      readSnapshotExact s.value = .error (.runtimeError what)) ∨
    ∃ data, readSnapshot s.value = .ok data ∧
      readSnapshotExact s.value = .ok data ∧
      s.value.toList = writeUint64 data.length ++ writeEntries data := by
  have hlength : s.value.toList.length ≤ maxStringSize := by
    rw [String.length_toList]
    exact s.length_le
  rw [readSnapshot, readSnapshotExact]
  rcases readUint64_spec (Nat.zero_le _) hlength s.isByte with
    ⟨what, hread, hexact⟩ | ⟨count, offset, hread, hexact, hle, hdrop⟩
  · exact .inl ⟨what, by rw [hread]; rfl, by rw [hexact]; rfl⟩
  · rw [hread, hexact]
    simp only [bind, Except.bind]
    rcases readEntries_spec count hle hlength s.isByte with
      ⟨what, hread, hexact⟩ | ⟨data, offset', hread, hexact, hle', hdrop'⟩
    · exact .inl ⟨what, by rw [hread], by rw [hexact]⟩
    · rw [hread, hexact]
      by_cases hend : offset' = s.value.toList.length
      · refine .inr ⟨data, if_neg (not_not.mpr hend),
          if_neg (not_not.mpr hend), ?_⟩
        rw [List.drop_zero] at hdrop
        rw [length_of_readEntries hread, hdrop, hdrop', hend,
          List.drop_length, List.append_nil]
      · exact .inl ⟨_, if_pos hend, if_pos hend⟩

end Reading

/-! ## `Restore` of a byte string -/

section Restore

variable {hash : String → UInt64} {e : LSMTreeEngine}

theorem restoreProgram_empty (hash : String → UInt64) (e : LSMTreeEngine) :
    (restoreProgram hash "").run.run e = (.ok (), { e with
      memTable := ∅
      immutableMemTables := []
      sstables := [] }) := by
  rfl

theorem restoreProgram_error {snapshot : String} {fault : Fault}
    (hne : snapshot.toList ≠ [])
    (hread : readSnapshot snapshot = .error fault) :
    (restoreProgram hash snapshot).run.run e = (.error fault, e) := by
  rw [restoreProgram, if_neg hne, hread]
  rfl

theorem restoreProgram_ok {snapshot : String} {data : List (String × String)}
    (hne : snapshot.toList ≠ []) (hread : readSnapshot snapshot = .ok data) :
    (restoreProgram hash snapshot).run.run e =
      (.ok (), { e with
        memTable := restoredEntries data
        immutableMemTables := []
        sstables := [] }.flushMemTableIfNeededLocked hash) := by
  rw [restoreProgram, if_neg hne, hread]
  rfl

/-- The program over the state is `restore`. -/
theorem restoreProgram_eq (hash : String → UInt64) (snapshot : String)
    (e : LSMTreeEngine) :
    (restoreProgram hash snapshot).run.run e =
      match e.restore hash snapshot with
      | .error fault => (.error fault, e)
      | .ok e' => (.ok (), e') := by
  by_cases hne : snapshot.toList = []
  · rw [restoreProgram, restore, if_pos hne, if_pos hne]
    rfl
  · rw [restore, if_neg hne]
    cases hread : readSnapshot snapshot with
    | error fault => exact restoreProgram_error hne hread
    | ok data => exact restoreProgram_ok hne hread

theorem getElem?_mapOf (data : List (String × String)) (key : String) :
    (mapOf data)[key]? = data.reverse.lookup key := by
  induction data using List.reverseRecOn with
  | nil => rfl
  | append_singleton data item ih =>
      rw [mapOf, List.foldl_append, List.foldl_cons, List.foldl_nil, ← mapOf,
        Std.ExtTreeMap.getElem?_insert, ih, List.reverse_append,
        List.reverse_singleton, List.singleton_append, List.lookup_cons]
      by_cases heq : item.1 = key
      · rw [if_pos (compare_eq_iff_eq.mpr heq), heq]
        simp
      · rw [if_neg (fun h => heq (compare_eq_iff_eq.mp h))]
        simp [beq_eq_false_iff_ne.mpr (Ne.symm heq)]

theorem getElem?_restoredEntries (data : List (String × String))
    (key : String) :
    (restoredEntries data)[key]? = (mapOf data)[key]?.map (Entry.mk .put) := by
  induction data using List.reverseRecOn with
  | nil => simp [restoredEntries, mapOf]
  | append_singleton data item ih =>
      rw [restoredEntries, mapOf, List.foldl_append, List.foldl_append,
        ← restoredEntries, ← mapOf]
      simp only [List.foldl_cons, List.foldl_nil,
        Std.ExtTreeMap.getElem?_insert, ih]
      split <;> rfl

/-- An engine whose only entries are in the table in memory. -/
theorem refines_memTable {memTable : MemTable}
    {m : Std.ExtTreeMap String String}
    (h : ∀ key : String, memTable[key]? = m[key]?.map (Entry.mk .put)) :
    Refines hash { e with
      memTable := memTable
      immutableMemTables := []
      sstables := [] } m := by
  refine ⟨fun table htable => absurd htable List.not_mem_nil, ?_⟩
  intro key
  rw [LSMTreeEngine.visible, layers]
  refine Layers.visible_singleton (m := fun key => m[key]?) ?_
  intro k
  dsimp only
  rw [layerOf, h]
  cases m[k]? <;> rfl

theorem refines_restored (data : List (String × String)) :
    Refines hash ({ e with
      memTable := restoredEntries data
      immutableMemTables := []
      sstables := [] }.flushMemTableIfNeededLocked hash) (mapOf data) := by
  have hrefines : Refines hash { e with
      memTable := restoredEntries data
      immutableMemTables := []
      sstables := [] } (mapOf data) :=
    refines_memTable (getElem?_restoredEntries data)
  obtain ⟨hvisible, hindexed⟩ := flushIfNeeded_spec hrefines.indexed
  refine ⟨hindexed, ?_⟩
  intro key
  rw [hvisible, hrefines.visible]

theorem restore_reads (hash : String → UInt64) (e : LSMTreeEngine)
    {snapshot : String} {data : List (String × String)}
    (hne : snapshot.toList ≠ []) (hread : readSnapshot snapshot = .ok data) :
    ∃ e', (restoreProgram hash snapshot).run.run e = (.ok (), e') ∧
      Answers hash e' (mapOf data) :=
  ⟨_, restoreProgram_ok hne hread, (refines_restored data).answers⟩

/-- The map that `Restore` of the string leads to, if it returns. -/
def restoredMap (snapshot : String) : Option (Std.ExtTreeMap String String) :=
  if snapshot.toList = [] then some ∅
  else
    match readSnapshot snapshot with
    | .error _ => none
    | .ok data => some (mapOf data)

theorem restore_error {snapshot : String} {fault : Fault}
    (h : e.restore hash snapshot = .error fault) :
    restoredMap snapshot = none := by
  rw [restore] at h
  rw [restoredMap]
  split at h
  · cases h
  · next hne =>
      rw [if_neg hne]
      cases hread : readSnapshot snapshot with
      | error fault => rfl
      | ok data =>
          rw [hread] at h
          cases h

theorem restore_ok {e' : LSMTreeEngine} {snapshot : String}
    (h : e.restore hash snapshot = .ok e') :
    ∃ m, restoredMap snapshot = some m ∧ Refines hash e' m := by
  rw [restore] at h
  rw [restoredMap]
  split at h
  · next hempty =>
      cases h
      exact ⟨∅, if_pos hempty, refines_memTable (fun key => by simp)⟩
  · next hne =>
      cases hread : readSnapshot snapshot with
      | error fault =>
          rw [hread] at h
          cases h
      | ok data =>
          rw [hread] at h
          cases h
          exact ⟨mapOf data, if_neg hne, refines_restored data⟩

/-- The pairs of a map are those of the map. -/
theorem mapOf_toList (m : Std.ExtTreeMap String String) :
    mapOf m.toList = m := by
  apply Std.ExtTreeMap.ext_getElem?
  intro key
  have hasc := OrderedMap.ascending_toList m
  refine (OrderedMap.getElem?_foldl_insert id hasc ∅ key).trans ?_
  rw [OrderedMap.lookup_toList]
  simp

theorem snapshot_cases (e : LSMTreeEngine) :
    e.snapshot = .error .lengthError ∨ ∃ s, e.snapshot = .ok s := by
  unfold snapshot writeSnapshot
  dsimp only
  split
  · exact .inr ⟨_, rfl⟩
  · exact .inl rfl

/-- A snapshot restores the visible map of its source, unless it would be
longer than any string; and what `Restore` does with any byte string: no
offset wraps around or leaves the string, and the string is empty, or it is
the count and the pairs of the new map, or the engine is as before. -/
theorem snapshot_codec (hash : String → UInt64) :
    (∀ source target : LSMTreeEngine,
      source.snapshot = .error .lengthError ∨
      ∃ s target', source.snapshot = .ok s ∧
        (restoreProgram hash s).run.run target = (.ok (), target') ∧
        Answers hash target' source.exportVisibleDataLocked ∧
        (source.Indexed hash →
          ∀ key, target'.get hash key = source.get hash key)) ∧
    ∀ (s : ByteString) (e : LSMTreeEngine),
      (readSnapshotExact s.value = readSnapshot s.value ∧
        readSnapshot s.value ≠ .error .outOfBounds) ∧
      ((s.value = "" ∧ ∃ e',
        (restoreProgram hash s.value).run.run e = (.ok (), e') ∧
          Answers hash e' ∅) ∨
      (∃ data m e',
        s.value.toList = writeUint64 data.length ++ writeEntries data ∧
        (∀ key, m[key]? = data.reverse.lookup key) ∧
        (restoreProgram hash s.value).run.run e = (.ok (), e') ∧
          Answers hash e' m) ∨
      (∃ what, (restoreProgram hash s.value).run.run e =
          (.error (.runtimeError what), e) ∧
        s.value ≠ "" ∧ ∀ data,
          s.value.toList ≠ writeUint64 data.length ++ writeEntries data)) := by
  refine ⟨?_, ?_⟩
  · intro source target
    rcases snapshot_cases source with herror | ⟨s, hsnapshot⟩
    · exact .inl herror
    · obtain ⟨hread, hne⟩ := readSnapshot_write hsnapshot
      obtain ⟨target', hrun, hanswers⟩ :=
        restore_reads hash target hne hread
      rw [mapOf_toList] at hanswers
      refine .inr ⟨s, target', hsnapshot, hrun, hanswers, ?_⟩
      intro hindexed key
      rw [hanswers.get, getElem?_exportVisibleDataLocked, get_eq hindexed]
  · intro s e
    by_cases hempty : s.value = ""
    · rw [hempty]
      refine ⟨⟨rfl, by decide⟩, .inl ⟨rfl, _, restoreProgram_empty hash e, ?_⟩⟩
      exact (refines_memTable (fun key => by simp)).answers
    · have hne : s.value.toList ≠ [] := by simpa using hempty
      rcases readSnapshot_spec s with
        ⟨what, hread, hexact⟩ | ⟨data, hread, hexact, htext⟩
      · refine ⟨⟨hexact.trans hread.symm, by simp [hread]⟩, .inr (.inr
          ⟨what, restoreProgram_error hne hread, hempty, ?_⟩)⟩
        intro data htext
        have hlength := s.length_le
        rw [← String.length_toList, htext] at hlength
        have hwrite := writeSnapshot_of_le hlength
        rw [← htext, String.ofList_toList] at hwrite
        rw [(readSnapshot_write hwrite).1] at hread
        cases hread
      · obtain ⟨e', hrun, hanswers⟩ :=
          restore_reads hash e hne hread
        exact ⟨⟨hexact.trans hread.symm, by simp [hread]⟩, .inr (.inl
          ⟨data, mapOf data, e', htext, getElem?_mapOf data, hrun, hanswers⟩)⟩

end Restore

end LSMTreeEngine

end KVRaftStorage
