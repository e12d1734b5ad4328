import KVRaftStorage.Support.OrderedMap
import Mathlib.Data.String.Basic

/-!
# Sorted tables of the LSM engine

The struct `SSTable` of `lsm_tree_engine.h` with its Bloom filter, its key range
and its block index.  `std::hash` is a parameter.  A `std::string` is a
`String` whose characters stand for its bytes, and a block holds the entries
between its two iterators.

For a table whose metadata was rebuilt, the filter, the range and the blocks
together answer like the entries.
-/

namespace KVRaftStorage

inductive EntryType where
  | put
  | delete
deriving DecidableEq

structure Entry where
  type : EntryType
  value : String
deriving DecidableEq

abbrev MemTable := Std.ExtTreeMap String Entry

structure BlockMeta where
  firstKey : String
  lastKey : String
  entries : List (String × Entry)

structure SSTable where
  sequence : ℕ
  minKey : String
  maxKey : String
  bloomBits : List UInt64
  blocks : List BlockMeta
  entries : MemTable

namespace SSTable

def kBloomBitCount : UInt64 := 2048

def kBloomWordCount : ℕ := 32

def kBloomHashCount : ℕ := 4

def kBlockEntryCount : ℕ := 16

/-! ## The Bloom filter -/

/-- The `i`-th bit of the key. -/
def bloomBit (hash : String → UInt64) (key : String) (i : ℕ) : UInt64 :=
  let h1 := hash key
  let h2 := hash ("lsm:" ++ key)
  let i := UInt64.ofNat i
  (h1 + i * h2 + i * i) % kBloomBitCount

/-- `bloomBits[bit / 64] |= uint64_t{1} << (bit % 64)`. -/
def setBit (bloomBits : List UInt64) (bit : UInt64) : List UInt64 :=
  bloomBits.modify (bit / 64).toNat (· ||| 1 <<< (bit % 64))

def hasBit (bloomBits : List UInt64) (bit : UInt64) : Bool :=
  match bloomBits[(bit / 64).toNat]? with
  | none => false
  | some word => word &&& 1 <<< (bit % 64) ≠ 0

def addBloomKey (hash : String → UInt64) (bloomBits : List UInt64)
    (key : String) : List UInt64 :=
  let bloomBits :=
    if bloomBits.isEmpty then List.replicate kBloomWordCount 0 else bloomBits
  (List.range kBloomHashCount).foldl
    (fun bits i => setBit bits (bloomBit hash key i)) bloomBits

def bloomMayContain (hash : String → UInt64) (bloomBits : List UInt64)
    (key : String) : Bool :=
  if bloomBits.isEmpty then false
  else (List.range kBloomHashCount).all
    (fun i => hasBit bloomBits (bloomBit hash key i))

def mayContain (hash : String → UInt64) (table : SSTable) (key : String) :
    Bool :=
  if table.entries.isEmpty then false
  else table.minKey ≤ key && key ≤ table.maxKey &&
    bloomMayContain hash table.bloomBits key

/-! ## The block index -/

/-- The scan of one block. -/
def scanBlock (key : String) : List (String × Entry) → Option Entry
  | [] => none
  | (first, entry) :: rest =>
      if first = key then some entry
      else if key < first then none
      else scanBlock key rest

def findInIndexedBlock (key : String) : List BlockMeta → Option Entry
  | [] => none
  | block :: blocks =>
      if key < block.firstKey ∨ block.lastKey < key then
        findInIndexedBlock key blocks
      else scanBlock key block.entries

/-- The next entries as blocks.  Each block takes at least one entry, so the
first argument is large enough if it is the number of entries. -/
def buildBlocks : ℕ → List (String × Entry) → List BlockMeta
  | 0, _ => []
  | _ + 1, [] => []
  | fuel + 1, first :: rest =>
      let block := first :: rest.take (kBlockEntryCount - 1)
      { firstKey := first.1
        lastKey := (block.getLast (List.cons_ne_nil _ _)).1
        entries := block } ::
        buildBlocks fuel (rest.drop (kBlockEntryCount - 1))

def rebuildSSTableMetadata (hash : String → UInt64) (table : SSTable) :
    SSTable :=
  let table := { table with
    bloomBits := []
    blocks := []
    minKey := ""
    maxKey := "" }
  match table.entries.toList with
  | [] => table
  | first :: rest =>
      { table with
        minKey := first.1
        maxKey := ((first :: rest).getLast (List.cons_ne_nil _ _)).1
        bloomBits := (first :: rest).foldl
          (fun bits item => addBloomKey hash bits item.1) table.bloomBits
        blocks := buildBlocks (first :: rest).length (first :: rest) }

/-! ## No false negatives -/

section Bloom

variable {bloomBits : List UInt64} {bit bit' : UInt64}
  {hash : String → UInt64} {key key' : String}

theorem one_shiftLeft_ne_zero (b : UInt64) : (1 : UInt64) <<< (b % 64) ≠ 0 := by
  intro h
  have hlt : (b % 64).toNat < 64 := by
    rw [UInt64.toNat_mod]
    exact Nat.mod_lt _ (by decide)
  have hnat := congrArg UInt64.toNat h
  rw [UInt64.toNat_shiftLeft, Nat.mod_eq_of_lt hlt] at hnat
  have hpow : 2 ^ (b % 64).toNat < 2 ^ 64 :=
    Nat.pow_lt_pow_right (by decide) hlt
  rw [UInt64.toNat_one, Nat.one_shiftLeft, Nat.mod_eq_of_lt hpow] at hnat
  exact absurd hnat (Nat.two_pow_pos _).ne'

theorem or_and_distrib (a b c : UInt64) :
    (a ||| b) &&& c = (a &&& c) ||| (b &&& c) := by
  apply UInt64.toBitVec_inj.mp
  simp [BitVec.and_or_distrib_right]

@[simp] theorem length_setBit : (setBit bloomBits bit).length =
    bloomBits.length :=
  List.length_modify ..

theorem hasBit_iff : hasBit bloomBits bit = true ↔
    ∃ word, bloomBits[(bit / 64).toNat]? = some word ∧
      word &&& 1 <<< (bit % 64) ≠ 0 := by
  unfold hasBit
  cases bloomBits[(bit / 64).toNat]? <;> simp

theorem hasBit_setBit_self (h : (bit / 64).toNat < bloomBits.length) :
    hasBit (setBit bloomBits bit) bit = true := by
  rw [hasBit_iff]
  refine ⟨bloomBits[(bit / 64).toNat] ||| 1 <<< (bit % 64), ?_, ?_⟩
  · rw [setBit, List.getElem?_modify, List.getElem?_eq_getElem h]
    exact congrArg some (if_pos rfl)
  · rw [or_and_distrib, UInt64.and_self]
    intro hzero
    exact one_shiftLeft_ne_zero bit (UInt64.or_eq_zero_iff.mp hzero).2

/-- Setting a bit clears no other. -/
theorem hasBit_setBit (h : hasBit bloomBits bit = true) :
    hasBit (setBit bloomBits bit') bit = true := by
  obtain ⟨word, hword, hne⟩ := hasBit_iff.mp h
  rw [hasBit_iff, setBit, List.getElem?_modify, hword]
  split
  · refine ⟨word ||| 1 <<< (bit' % 64), rfl, ?_⟩
    rw [or_and_distrib]
    intro hzero
    exact hne (UInt64.or_eq_zero_iff.mp hzero).1
  · exact ⟨word, rfl, hne⟩

theorem bloomBit_div_lt (i : ℕ) :
    (bloomBit hash key i / 64).toNat < kBloomWordCount := by
  have hmod : (bloomBit hash key i).toNat < 2048 := by
    rw [bloomBit, UInt64.toNat_mod]
    exact Nat.mod_lt _ (by decide)
  rw [UInt64.toNat_div, kBloomWordCount]
  exact Nat.div_lt_of_lt_mul hmod

/-- The bits of the filter, once it has words, are kept and those of the key
are added. -/
theorem foldl_setBit (hash : String → UInt64) (key : String) (is : List ℕ)
    (hlength : bloomBits.length = kBloomWordCount) :
    (is.foldl (fun bits i => setBit bits (bloomBit hash key i))
        bloomBits).length = kBloomWordCount ∧
      (∀ bit, hasBit bloomBits bit = true →
        hasBit (is.foldl (fun bits i => setBit bits (bloomBit hash key i))
          bloomBits) bit = true) ∧
      ∀ i ∈ is, hasBit (is.foldl
        (fun bits i => setBit bits (bloomBit hash key i)) bloomBits)
        (bloomBit hash key i) = true := by
  induction is generalizing bloomBits with
  | nil => exact ⟨hlength, fun _ h => h, by simp⟩
  | cons i is ih =>
      obtain ⟨hlen, hkeep, hset⟩ := ih
        (show (setBit bloomBits (bloomBit hash key i)).length =
          kBloomWordCount by rw [length_setBit, hlength])
      refine ⟨hlen, fun bit h => hkeep bit (hasBit_setBit h), ?_⟩
      intro j hj
      rcases List.mem_cons.mp hj with rfl | hj
      · apply hkeep
        apply hasBit_setBit_self
        rw [hlength]
        exact bloomBit_div_lt j
      · exact hset j hj

/-- The filter is still empty or has all its words. -/
def Sized (bloomBits : List UInt64) : Prop :=
  bloomBits = [] ∨ bloomBits.length = kBloomWordCount

theorem bloomMayContain_iff : bloomMayContain hash bloomBits key = true ↔
    bloomBits ≠ [] ∧ ∀ i < kBloomHashCount,
      hasBit bloomBits (bloomBit hash key i) = true := by
  unfold bloomMayContain
  cases bloomBits with
  | nil => simp
  | cons word words => simp

theorem addBloomKey_spec (hash : String → UInt64) (key key' : String)
    (h : Sized bloomBits) :
    (addBloomKey hash bloomBits key).length = kBloomWordCount ∧
      bloomMayContain hash (addBloomKey hash bloomBits key) key = true ∧
      (bloomMayContain hash bloomBits key' = true →
        bloomMayContain hash (addBloomKey hash bloomBits key) key' = true) := by
  have hne : ∀ bits : List UInt64, bits.length = kBloomWordCount →
      bits ≠ [] := by
    rintro _ hlen rfl
    exact absurd hlen (by decide)
  have hstart : (if bloomBits.isEmpty then
      List.replicate kBloomWordCount 0 else bloomBits).length =
      kBloomWordCount := by
    rcases h with rfl | h
    · rfl
    · rw [if_neg (by simpa using hne _ h), h]
  obtain ⟨hlen, hkeep, hset⟩ :=
    foldl_setBit hash key (List.range kBloomHashCount) hstart
  refine ⟨hlen, ?_, ?_⟩
  · rw [bloomMayContain_iff]
    refine ⟨hne _ hlen, ?_⟩
    intro i hi
    exact hset i (List.mem_range.mpr hi)
  · intro hkey'
    rw [bloomMayContain_iff] at hkey' ⊢
    refine ⟨hne _ hlen, ?_⟩
    intro i hi
    apply hkeep
    rw [if_neg (by simpa using hkey'.1)]
    exact hkey'.2 i hi

theorem bloom_complete (hash : String → UInt64)
    {items : List (String × Entry)} (h : Sized bloomBits) :
    ∀ key, (key ∈ items.map Prod.fst ∨
        bloomMayContain hash bloomBits key = true) →
      bloomMayContain hash (items.foldl
        (fun bits item => addBloomKey hash bits item.1) bloomBits) key =
        true := by
  induction items generalizing bloomBits with
  | nil => simp
  | cons item items ih =>
      intro key hkey
      obtain ⟨hlen, hself, hkeep⟩ := addBloomKey_spec hash item.1 key h
      apply ih (.inr hlen)
      rw [List.map_cons, List.mem_cons] at hkey
      rcases hkey with (rfl | hmem) | hold
      · exact .inr hself
      · exact .inl hmem
      · exact .inr (hkeep hold)

end Bloom

/-! ## Lookup through the index -/

section Index

variable {l : List (String × Entry)} {key : String} {entry : Entry}

theorem scanBlock_eq_some (h : OrderedMap.Ascending l) :
    scanBlock key l = some entry ↔ (key, entry) ∈ l := by
  induction l with
  | nil => simp [scanBlock]
  | cons a l ih =>
      obtain ⟨first, e⟩ := a
      obtain ⟨hlt, hasc⟩ := OrderedMap.ascending_cons.mp h
      rw [scanBlock, List.mem_cons]
      split
      · next heq =>
          subst heq
          have hnot : (first, entry) ∉ l :=
            fun hmem => lt_irrefl _ (hlt (first, entry) hmem)
          simp [hnot, eq_comm]
      · next hne =>
          have hkey : (key, entry) ≠ (first, e) :=
            fun heq => hne (congrArg Prod.fst heq).symm
          split
          · next hbelow =>
              have hnot : (key, entry) ∉ l :=
                fun hmem => lt_asymm hbelow (hlt _ hmem)
              simp [hkey, hnot]
          · rw [ih hasc]
            simp [hkey]

/-- The blocks of ascending entries answer like the entries. -/
theorem findInIndexedBlock_eq_some {fuel : ℕ}
    (h : OrderedMap.Ascending l) (hfuel : l.length ≤ fuel) :
    findInIndexedBlock key (buildBlocks fuel l) = some entry ↔
      (key, entry) ∈ l := by
  induction fuel generalizing l with
  | zero =>
      rw [List.length_eq_zero_iff.mp (Nat.le_zero.mp hfuel)]
      simp [buildBlocks, findInIndexedBlock]
  | succ fuel ih =>
      cases l with
      | nil => simp [buildBlocks, findInIndexedBlock]
      | cons first rest =>
          let block := first :: rest.take (kBlockEntryCount - 1)
          have hne : block ≠ [] := List.cons_ne_nil _ _
          have hl : first :: rest = block ++ rest.drop (kBlockEntryCount - 1) :=
            congrArg (first :: ·) (List.take_append_drop _ _).symm
          rw [hl] at h
          obtain ⟨hblock, htail, hlt⟩ := OrderedMap.ascending_append.mp h
          have hlen : (rest.drop (kBlockEntryCount - 1)).length ≤ fuel := by
            rw [List.length_cons] at hfuel
            rw [List.length_drop]
            omega
          rw [buildBlocks, findInIndexedBlock, hl, List.mem_append]
          split
          · next hout =>
              have hnot : (key, entry) ∉ block := by
                intro hmem
                rcases hout with hout | hout
                · exact not_lt.mpr (hblock.head_le hmem) hout
                · exact not_lt.mpr (hblock.le_getLast hne hmem) hout
              rw [ih htail hlen, or_iff_right hnot]
          · next hin =>
              have hnot : (key, entry) ∉ rest.drop (kBlockEntryCount - 1) := by
                intro hmem
                exact hin (.inr (hlt _ (List.getLast_mem hne) _ hmem))
              rw [scanBlock_eq_some hblock, or_iff_left hnot]

end Index

/-! ## Lookup in a table -/

/-- What `FindEntryLocked` takes from one table. -/
def find? (hash : String → UInt64) (table : SSTable) (key : String) :
    Option Entry :=
  if mayContain hash table key then findInIndexedBlock key table.blocks
  else none

theorem rebuild_entries (hash : String → UInt64) (table : SSTable) :
    (rebuildSSTableMetadata hash table).entries = table.entries := by
  unfold rebuildSSTableMetadata
  dsimp only
  split <;> rfl

/-- The range and the filter let every key of a rebuilt table pass. -/
theorem mayContain_rebuild (hash : String → UInt64) (table : SSTable)
    {key : String} {entry : Entry} (h : (key, entry) ∈ table.entries.toList) :
    mayContain hash (rebuildSSTableMetadata hash table) key = true := by
  have hasc := OrderedMap.ascending_toList table.entries
  have hempty : table.entries.isEmpty = false := by
    rw [← Std.ExtTreeMap.isEmpty_toList]
    exact List.isEmpty_eq_false_iff.mpr (List.ne_nil_of_mem h)
  have hbloom := bloom_complete hash (.inl rfl : Sized []) key
    (.inl (List.mem_map_of_mem h))
  cases hitems : table.entries.toList with
  | nil =>
      rw [hitems] at h
      cases h
  | cons first rest =>
      rw [hitems] at h hasc hbloom
      have hhead := hasc.head_le h
      have hlast := hasc.le_getLast (List.cons_ne_nil _ _) h
      simp only [mayContain, rebuildSSTableMetadata, hitems, hempty,
        Bool.false_eq_true, if_false, Bool.and_eq_true, decide_eq_true_eq]
      exact ⟨⟨hhead, hlast⟩, hbloom⟩

theorem blocks_rebuild (hash : String → UInt64) (table : SSTable) :
    (rebuildSSTableMetadata hash table).blocks =
      buildBlocks table.entries.toList.length table.entries.toList := by
  cases hitems : table.entries.toList with
  | nil => simp [rebuildSSTableMetadata, hitems, buildBlocks]
  | cons first rest => simp [rebuildSSTableMetadata, hitems]

/-- A table with rebuilt metadata answers like its entries. -/
theorem find?_rebuild (hash : String → UInt64) (table : SSTable)
    (key : String) :
    find? hash (rebuildSSTableMetadata hash table) key =
      table.entries[key]? := by
  have hasc := OrderedMap.ascending_toList table.entries
  apply Option.ext
  intro entry
  rw [← OrderedMap.mem_toList, find?, blocks_rebuild]
  split
  · exact findInIndexedBlock_eq_some hasc le_rfl
  · next hmay =>
      constructor
      · intro h
        cases h
      · intro hmem
        exact absurd (mayContain_rebuild hash table hmem) hmay

end SSTable

end KVRaftStorage
