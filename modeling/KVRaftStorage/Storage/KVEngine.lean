import KVRaftStorage.Storage.LruCache
import KVRaftStorage.Storage.LsmMap
import KVRaftStorage.Storage.SkipListMap

/-!
# The storage engines

The classes that implement `KVEngine`, called through the interface.  What the
code leaves to chance is part of the state of an engine: the skip list takes
its levels from a stream of outcomes of `std::rand`, and before each operation
of the LSM engine the background worker makes some number of rounds.

Every engine stands for a map, and its operations do what the interface means
on that map, whatever the chances are.
-/

namespace KVRaftStorage

/-- The string of a snapshot: a text archive of a dump, or other bytes. -/
inductive EngineImage where
  | archive (dump : SkipListDump String String)
  | bytes (s : String)

inductive KVEngine where
  | skipListEngine (skipList : SkipList String String) (rand : ℕ → ℕ)
  | lsmTreeEngine (lsm : LSMTreeEngine) (rounds : ℕ → ℕ)
  | cachedKVEngine (base : KVEngine) (cache : LRUCache)

namespace KVEngine

/-- A skip list without a result has left its memory. -/
def ofSkipList {α : Type} : Option α → Except Fault α
  | none => .error .outOfBounds
  | some a => .ok a

/-- The outcomes behind the first `n`. -/
def later (n : ℕ) (outcomes : ℕ → ℕ) : ℕ → ℕ := fun i => outcomes (n + i)

/-- The worker before an operation. -/
def work (hash : String → UInt64) (lsm : LSMTreeEngine) (rounds : ℕ → ℕ) :
    LSMTreeEngine :=
  (LSMTreeEngine.backgroundRound hash)^[rounds 0] lsm

/-- The value of the key, if it has one, and the engine afterwards. -/
def get (hash : String → UInt64) :
    KVEngine → String → Except Fault (Option String × KVEngine)
  | skipListEngine skipList rand, key => do
      return (← ofSkipList (skipList.searchElement key),
        skipListEngine skipList rand)
  | lsmTreeEngine lsm rounds, key =>
      let lsm := work hash lsm rounds
      return (lsm.get hash key, lsmTreeEngine lsm (later 1 rounds))
  | cachedKVEngine base cache, key => do
      let (hit, cache) ← cache.get key
      match hit with
      | some value => return (some value, cachedKVEngine base cache)
      | none => do
          let (found, base) ← base.get hash key
          match found with
          | none => return (none, cachedKVEngine base cache)
          | some value =>
              return (some value, cachedKVEngine base (← cache.put key value))

def put (hash : String → UInt64) :
    KVEngine → String → String → Except Fault KVEngine
  | skipListEngine skipList rand, key, value => do
      return skipListEngine
        (← ofSkipList (skipList.insertSetElement key value (rand 0)))
        (later 1 rand)
  | lsmTreeEngine lsm rounds, key, value =>
      return lsmTreeEngine ((work hash lsm rounds).put hash key value)
        (later 1 rounds)
  | cachedKVEngine base cache, key, value => do
      let base ← base.put hash key value
      return cachedKVEngine base (← cache.put key value)

def delete (hash : String → UInt64) :
    KVEngine → String → Except Fault KVEngine
  | skipListEngine skipList rand, key => do
      return skipListEngine (← ofSkipList (skipList.deleteElement key)) rand
  | lsmTreeEngine lsm rounds, key =>
      return lsmTreeEngine ((work hash lsm rounds).delete hash key)
        (later 1 rounds)
  | cachedKVEngine base cache, key => do
      return cachedKVEngine (← base.delete hash key) (cache.delete key)

def snapshot (hash : String → UInt64) :
    KVEngine → Except Fault (EngineImage × KVEngine)
  | skipListEngine skipList rand => do
      return (.archive (← ofSkipList skipList.dumpFile),
        skipListEngine skipList rand)
  | lsmTreeEngine lsm rounds => do
      let lsm := work hash lsm rounds
      return (.bytes (← lsm.snapshot),
        lsmTreeEngine lsm (later 1 rounds))
  | cachedKVEngine base cache => do
      let (image, base) ← base.snapshot hash
      return (image, cachedKVEngine base cache)

/-- The string as an archive of a dump, for `load_file`. -/
def dumpOf : EngineImage → Except Fault (Option (SkipListDump String String))
  | .archive dump => .ok (some dump)
  | .bytes s =>
      if s.toList = [] then .ok none
      else .error (.runtimeError "input stream error")

/-- The string for the LSM engine.  The signature of an archive, read as the
length of the first key, is longer than the string. -/
def bytesOf : EngineImage → Except Fault String
  | .archive _ => .error (.runtimeError "LSM snapshot string is truncated")
  | .bytes s => .ok s

def restore (hash : String → UInt64) :
    KVEngine → EngineImage → Except Fault KVEngine
  | skipListEngine skipList rand, image => do
      let dump ← dumpOf image
      let skipList ← ofSkipList (skipList.loadFile dump rand)
      return skipListEngine skipList
        (later (dump.elim 0 (·.keyDumpVt.length)) rand)
  | lsmTreeEngine lsm rounds, image => do
      let lsm ← (work hash lsm rounds).restore hash (← bytesOf image)
      return lsmTreeEngine lsm (later 1 rounds)
  | cachedKVEngine base cache, image => do
      return cachedKVEngine (← base.restore hash image) cache.clear

def size : KVEngine → ℤ
  | skipListEngine skipList _ => skipList.size
  | lsmTreeEngine lsm _ => lsm.size
  | cachedKVEngine base _ => base.size

/-- The engine of `KvServer`, with the sizes of `config.h`. -/
def createDefaultKVEngine (rounds : ℕ → ℕ) : KVEngine :=
  cachedKVEngine
    (lsmTreeEngine ((LSMTreeEngine.new 1024).enableAsyncFlush true) rounds)
    (.new 1024)

/-! ## The map of an engine -/

/-- The engine behind the caches. -/
inductive Base where
  | skipList
  | lsmTree

/-- The engine, with this base, stands for the map. -/
def StandsFor (hash : String → UInt64) :
    Base → KVEngine → Std.ExtTreeMap String String → Prop
  | .skipList, skipListEngine skipList _, m =>
      ∃ maxLevel, SkipList.Refines maxLevel skipList m
  | .lsmTree, lsmTreeEngine lsm _, m => LSMTreeEngine.Refines hash lsm m
  | base, cachedKVEngine e cache, m => StandsFor hash base e m ∧ cache.Sound m
  | _, _, _ => False

/-- The string holds the map, in the format of the base. -/
def ImageHolds :
    Base → EngineImage → Std.ExtTreeMap String String → Prop
  | .skipList, .archive dump, m => dump = .ofEntries m.toList
  | .lsmTree, .bytes s, m => LSMTreeEngine.writeSnapshot m.toList = .ok s
  | _, _, _ => False

/-- An engine as its constructor leaves it, with this base. -/
inductive Created : Base → KVEngine → Prop where
  | skipListEngine (maxLevel : ℕ) (rand : ℕ → ℕ) :
      Created .skipList (.skipListEngine (.new maxLevel) rand)
  | lsmTreeEngine (memTableFlushThreshold : ℕ) (asyncFlush : Bool)
      (rounds : ℕ → ℕ) :
      Created .lsmTree (.lsmTreeEngine
        ((LSMTreeEngine.new memTableFlushThreshold).enableAsyncFlush asyncFlush)
        rounds)
  | cachedKVEngine {base : Base} {e : KVEngine} (h : Created base e)
      (capacity : ℕ) : Created base (.cachedKVEngine e (.new capacity))

theorem created_default (rounds : ℕ → ℕ) :
    Created .lsmTree (createDefaultKVEngine rounds) :=
  .cachedKVEngine (.lsmTreeEngine 1024 true rounds) 1024

section Operations

variable {hash : String → UInt64} {base : Base} {e e' : KVEngine}
  {m m' : Std.ExtTreeMap String String} {image : EngineImage}

theorem work_refines {lsm : LSMTreeEngine}
    (h : LSMTreeEngine.Refines hash lsm m) (rounds : ℕ → ℕ) :
    LSMTreeEngine.Refines hash (work hash lsm rounds) m := by
  unfold work
  induction rounds 0 with
  | zero => exact h
  | succ n ih =>
      rw [Function.iterate_succ_apply']
      exact ih.backgroundRound

theorem standsFor_cached {cache : LRUCache} :
    StandsFor hash base (cachedKVEngine e cache) m ↔
      StandsFor hash base e m ∧ cache.Sound m := by
  cases base <;> exact Iff.rfl

theorem Created.standsFor (h : Created base e) : StandsFor hash base e ∅ := by
  induction h with
  | skipListEngine maxLevel rand =>
      exact ⟨maxLevel, SkipList.new_refines maxLevel⟩
  | lsmTreeEngine threshold asyncFlush rounds =>
      exact (LSMTreeEngine.new_refines threshold).enableAsyncFlush asyncFlush
  | cachedKVEngine _ capacity ih =>
      exact standsFor_cached.mpr ⟨ih, .empty rfl rfl ∅⟩

/-- Putting what the map holds changes nothing. -/
theorem insert_eq_self {key value : String} (h : m[key]? = some value) :
    m.insert key value = m := by
  apply Std.ExtTreeMap.ext_getElem?
  intro k
  rw [Std.ExtTreeMap.getElem?_insert]
  split
  · next heq => rw [← compare_eq_iff_eq.mp heq, h]
  · rfl

theorem get_spec (h : StandsFor hash base e m) (key : String) :
    ∃ e', e.get hash key = .ok (m[key]?, e') ∧ StandsFor hash base e' m := by
  induction e with
  | skipListEngine skipList rand =>
      cases base with
      | lsmTree => exact h.elim
      | skipList =>
          obtain ⟨maxLevel, href⟩ := h
          refine ⟨skipListEngine skipList rand, ?_, maxLevel, href⟩
          simp [get, SkipList.search_spec href, ofSkipList]
  | lsmTreeEngine lsm rounds =>
      cases base with
      | skipList => exact h.elim
      | lsmTree =>
          have hwork := work_refines h rounds
          refine ⟨lsmTreeEngine (work hash lsm rounds) (later 1 rounds), ?_,
            hwork⟩
          rw [get, hwork.answers.get]
          rfl
  | cachedKVEngine inner cache ih =>
      obtain ⟨hinner, hcache⟩ := standsFor_cached.mp h
      obtain ⟨hit, cache', hlookup, hcache', hvalue⟩ := hcache.get key
      cases hit with
      | some value =>
          refine ⟨cachedKVEngine inner cache', ?_,
            standsFor_cached.mpr ⟨hinner, hcache'⟩⟩
          rw [get, hlookup, hvalue value rfl]
          rfl
      | none =>
          obtain ⟨inner', hget, hinner'⟩ := ih hinner
          cases hfound : m[key]? with
          | none =>
              refine ⟨cachedKVEngine inner' cache', ?_,
                standsFor_cached.mpr ⟨hinner', hcache'⟩⟩
              rw [hfound] at hget
              simp [get, hlookup, hget, bind, Except.bind, pure, Except.pure]
          | some value =>
              obtain ⟨cache'', hput, hcache''⟩ := hcache'.put key value
              rw [insert_eq_self hfound] at hcache''
              refine ⟨cachedKVEngine inner' cache'', ?_,
                standsFor_cached.mpr ⟨hinner', hcache''⟩⟩
              rw [hfound] at hget
              simp [get, hlookup, hget, hput, bind, Except.bind, pure,
                Except.pure]

theorem put_spec (h : StandsFor hash base e m) (key value : String) :
    ∃ e', e.put hash key value = .ok e' ∧
      StandsFor hash base e' (m.insert key value) := by
  induction e with
  | skipListEngine skipList rand =>
      cases base with
      | lsmTree => exact h.elim
      | skipList =>
          obtain ⟨maxLevel, href⟩ := h
          obtain ⟨skipList', hput, href'⟩ :=
            SkipList.insertSet_spec href key value (rand 0)
          refine ⟨skipListEngine skipList' (later 1 rand), ?_, maxLevel, href'⟩
          rw [put, hput]
          rfl
  | lsmTreeEngine lsm rounds =>
      cases base with
      | skipList => exact h.elim
      | lsmTree => exact ⟨_, rfl, (work_refines h rounds).put key value⟩
  | cachedKVEngine inner cache ih =>
      obtain ⟨hinner, hcache⟩ := standsFor_cached.mp h
      obtain ⟨inner', hput, hinner'⟩ := ih hinner
      obtain ⟨cache', hcput, hcache'⟩ := hcache.put key value
      refine ⟨cachedKVEngine inner' cache', ?_,
        standsFor_cached.mpr ⟨hinner', hcache'⟩⟩
      rw [put, hput]
      simp only [bind, Except.bind, hcput]
      rfl

theorem delete_spec (h : StandsFor hash base e m) (key : String) :
    ∃ e', e.delete hash key = .ok e' ∧
      StandsFor hash base e' (m.erase key) := by
  induction e with
  | skipListEngine skipList rand =>
      cases base with
      | lsmTree => exact h.elim
      | skipList =>
          obtain ⟨maxLevel, href⟩ := h
          obtain ⟨skipList', b, hdelete, href'⟩ :=
            SkipList.delete_spec href key
          refine ⟨skipListEngine skipList' rand, ?_, maxLevel, href'⟩
          simp [delete, SkipList.deleteElement, hdelete, ofSkipList, bind,
            Except.bind, pure, Except.pure]
  | lsmTreeEngine lsm rounds =>
      cases base with
      | skipList => exact h.elim
      | lsmTree => exact ⟨_, rfl, (work_refines h rounds).delete key⟩
  | cachedKVEngine inner cache ih =>
      obtain ⟨hinner, hcache⟩ := standsFor_cached.mp h
      obtain ⟨inner', hdelete, hinner'⟩ := ih hinner
      refine ⟨cachedKVEngine inner' (cache.delete key), ?_,
        standsFor_cached.mpr ⟨hinner', hcache.delete key⟩⟩
      rw [delete, hdelete]
      rfl

/-- A snapshot that is not too long holds the map. -/
theorem snapshot_spec (h : StandsFor hash base e m)
    (hsnapshot : e.snapshot hash = .ok (image, e')) :
    ImageHolds base image m ∧ StandsFor hash base e' m := by
  induction e generalizing e' with
  | skipListEngine skipList rand =>
      cases base with
      | lsmTree => exact h.elim
      | skipList =>
          obtain ⟨maxLevel, href⟩ := id h
          rw [snapshot, SkipList.dump_spec href] at hsnapshot
          cases hsnapshot
          exact ⟨rfl, h⟩
  | lsmTreeEngine lsm rounds =>
      cases base with
      | skipList => exact h.elim
      | lsmTree =>
          have hwork := work_refines h rounds
          rw [snapshot, hwork.answers.snapshot] at hsnapshot
          cases hwrite : LSMTreeEngine.writeSnapshot m.toList with
          | error fault =>
              simp only [hwrite] at hsnapshot
              cases hsnapshot
          | ok s =>
              simp only [hwrite] at hsnapshot
              cases hsnapshot
              exact ⟨hwrite, hwork⟩
  | cachedKVEngine inner cache ih =>
      obtain ⟨hinner, hcache⟩ := standsFor_cached.mp h
      rw [snapshot] at hsnapshot
      cases hinnerSnapshot : inner.snapshot hash with
      | error fault =>
          rw [hinnerSnapshot] at hsnapshot
          cases hsnapshot
      | ok result =>
          obtain ⟨image', inner'⟩ := result
          rw [hinnerSnapshot] at hsnapshot
          cases hsnapshot
          obtain ⟨hholds, hinner'⟩ := ih hinner hinnerSnapshot
          exact ⟨hholds, standsFor_cached.mpr ⟨hinner', hcache⟩⟩

/-- What fits into a string has a snapshot. -/
theorem snapshot_of_le (h : StandsFor hash base e m)
    (hle : (LSMTreeEngine.writeUint64 m.toList.length ++
      LSMTreeEngine.writeEntries m.toList).length ≤ maxStringSize) :
    ∃ image e', e.snapshot hash = .ok (image, e') := by
  induction e with
  | skipListEngine skipList rand =>
      cases base with
      | lsmTree => exact h.elim
      | skipList =>
          obtain ⟨maxLevel, href⟩ := h
          rw [snapshot, SkipList.dump_spec href]
          exact ⟨_, _, rfl⟩
  | lsmTreeEngine lsm rounds =>
      cases base with
      | skipList => exact h.elim
      | lsmTree =>
          have hwork := work_refines h rounds
          have hwrite := hwork.answers.snapshot.trans
            (LSMTreeEngine.writeSnapshot_of_le hle)
          simp only [snapshot, hwrite]
          exact ⟨_, _, rfl⟩
  | cachedKVEngine inner cache ih =>
      obtain ⟨hinner, -⟩ := standsFor_cached.mp h
      obtain ⟨image, inner', hsnapshot⟩ := ih hinner
      refine ⟨image, .cachedKVEngine inner' cache, ?_⟩
      rw [snapshot, hsnapshot]
      rfl

/-- Restoring replaces the map by that of the snapshot. -/
theorem restore_spec (h : StandsFor hash base e m)
    (hholds : ImageHolds base image m') :
    ∃ e', e.restore hash image = .ok e' ∧ StandsFor hash base e' m' := by
  induction e with
  | skipListEngine skipList rand =>
      cases base with
      | lsmTree => exact h.elim
      | skipList =>
          cases image with
          | bytes s => exact hholds.elim
          | archive dump =>
              obtain ⟨maxLevel, href⟩ := h
              have hdump : dump = .ofEntries m'.toList := hholds
              subst hdump
              obtain ⟨skipList', hload, href'⟩ :=
                SkipList.loadFile_spec href m'.toList rand
              rw [OrderedMap.foldl_insertIfNew_toList] at href'
              refine ⟨skipListEngine skipList'
                (later (SkipListDump.ofEntries m'.toList).keyDumpVt.length rand),
                ?_, maxLevel, href'⟩
              simp only [restore, dumpOf, bind, Except.bind, hload]
              rfl
  | lsmTreeEngine lsm rounds =>
      cases base with
      | skipList => exact h.elim
      | lsmTree =>
          cases image with
          | archive dump => exact hholds.elim
          | bytes s =>
              obtain ⟨lsm', hrestore, href⟩ :=
                LSMTreeEngine.restore_spec (e := work hash lsm rounds) hholds
              refine ⟨lsmTreeEngine lsm' (later 1 rounds), ?_, href⟩
              simp only [restore, bytesOf, bind, Except.bind, hrestore]
              rfl
  | cachedKVEngine inner cache ih =>
      obtain ⟨hinner, -⟩ := standsFor_cached.mp h
      obtain ⟨inner', hrestore, hinner'⟩ := ih hinner
      refine ⟨cachedKVEngine inner' cache.clear, ?_,
        standsFor_cached.mpr ⟨hinner', .empty rfl rfl m'⟩⟩
      rw [restore, hrestore]
      rfl

end Operations

end KVEngine

end KVRaftStorage
