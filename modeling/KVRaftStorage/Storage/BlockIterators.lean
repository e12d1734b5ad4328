import KVRaftStorage.Storage.SSTable

/-!
# The iterators of a block index

A block of an `SSTable` stores two iterators into the map `entries`.  When the
table is moved, the iterators at nodes stay valid, but `end()` of the map
changes: the iterator that the last block stored as its end belongs to an
object that is gone.  A map object is therefore kept with its address, and the
end of a map is an iterator of its own for every address.

The index is built as in `RebuildSSTableMetadata` and searched as in
`FindInIndexedBlock`.  The scan of a block ends before it reaches the stored
end, so the table answers like its entries wherever it lies.
-/

namespace KVRaftStorage

/-- A `const_iterator` of a map: a node, by its place in the order of the keys,
or the end of the map object at an address. -/
inductive EntryIterator where
  | node (position : ℕ)
  | stop (address : ℕ)
deriving DecidableEq

/-- The member `entries` of a table as an object in memory. -/
structure EntriesObject where
  address : ℕ
  entries : MemTable

namespace EntriesObject

def iterator (m : EntriesObject) (position : ℕ) : EntryIterator :=
  if position < m.entries.size then .node position else .stop m.address

def cbegin (m : EntriesObject) : EntryIterator := m.iterator 0

def cend (m : EntriesObject) : EntryIterator := .stop m.address

/-- `*it`.  The end of a map, of this one or another, has no entry. -/
def deref (m : EntriesObject) : EntryIterator → Option (String × Entry)
  | .node position => m.entries.toList[position]?
  | .stop _ => none

/-- `++it`, for an iterator at a node. -/
def increment (m : EntriesObject) : EntryIterator → EntryIterator
  | .node position => m.iterator (position + 1)
  | .stop address => .stop address

end EntriesObject

/-- The struct `BlockMeta` with its iterators. -/
structure IndexBlock where
  firstKey : String
  lastKey : String
  blockBegin : EntryIterator
  blockEnd : EntryIterator

/-- What a search returns.  A `fault` dereferences the end of a map. -/
inductive Lookup where
  | found (entry : Entry)
  | absent
  | fault
deriving DecidableEq

/-- A table whose block index holds iterators. -/
structure PlacedTable where
  sequence : ℕ
  minKey : String
  maxKey : String
  bloomBits : List UInt64
  blocks : List IndexBlock
  map : EntriesObject

namespace PlacedTable

/-- The inner loop of `RebuildSSTableMetadata` for the entries that still fit
into the block: `blockEnd` and `lastKey`. -/
def fillBlock (m : EntriesObject) :
    ℕ → EntryIterator → String → EntryIterator × String
  | 0, blockEnd, lastKey => (blockEnd, lastKey)
  | room + 1, blockEnd, lastKey =>
      if blockEnd = m.cend then (blockEnd, lastKey)
      else
        match m.deref blockEnd with
        | none => (blockEnd, lastKey)
        | some item => fillBlock m room (m.increment blockEnd) item.1

/-- The outer loop.  Each block takes at least one entry, so the first argument
is large enough if it is the number of entries. -/
def buildIndex (m : EntriesObject) : ℕ → EntryIterator → List IndexBlock
  | 0, _ => []
  | fuel + 1, blockBegin =>
      if blockBegin = m.cend then []
      else
        match m.deref blockBegin with
        | none => []
        | some item =>
            let block := fillBlock m SSTable.kBlockEntryCount blockBegin item.1
            ⟨item.1, block.2, blockBegin, block.1⟩ :: buildIndex m fuel block.1

def rebuildSSTableMetadata (hash : String → UInt64) (table : PlacedTable) :
    PlacedTable :=
  let table := { table with
    bloomBits := []
    blocks := []
    minKey := ""
    maxKey := "" }
  match table.map.entries.toList with
  | [] => table
  | first :: rest =>
      { table with
        minKey := first.1
        maxKey := ((first :: rest).getLast nofun).1
        bloomBits := (first :: rest).foldl
          (fun bits item => SSTable.addBloomKey hash bits item.1)
          table.bloomBits
        blocks := buildIndex table.map (first :: rest).length
          table.map.cbegin }

/-- The table is moved to another place: the map has another address, the
stored iterators are the same. -/
def moveTo (table : PlacedTable) (address : ℕ) : PlacedTable :=
  { table with map.address := address }

def mayContain (hash : String → UInt64) (table : PlacedTable)
    (key : String) : Bool :=
  if table.map.entries.isEmpty then false
  else table.minKey ≤ key && key ≤ table.maxKey &&
    SSTable.bloomMayContain hash table.bloomBits key

/-- The loop over one block.  A loop that is not over after as many rounds as
the first argument says has run over the end and counts as a fault. -/
def scanBlock (m : EntriesObject) (key : String) (blockEnd : EntryIterator) :
    ℕ → EntryIterator → Lookup
  | 0, _ => .fault
  | rounds + 1, it =>
      if it = blockEnd then .absent
      else
        match m.deref it with
        | none => .fault
        | some (first, entry) =>
            if first = key then .found entry
            else if key < first then .absent
            else scanBlock m key blockEnd rounds (m.increment it)

def searchBlocks (m : EntriesObject) (key : String) :
    List IndexBlock → Lookup
  | [] => .absent
  | block :: blocks =>
      if key < block.firstKey ∨ block.lastKey < key then
        searchBlocks m key blocks
      else scanBlock m key block.blockEnd (m.entries.size + 1) block.blockBegin

def findInIndexedBlock (table : PlacedTable) (key : String) : Lookup :=
  searchBlocks table.map key table.blocks

/-- What `FindEntryLocked` does with one table. -/
def find? (hash : String → UInt64) (table : PlacedTable) (key : String) :
    Lookup :=
  if mayContain hash table key then table.findInIndexedBlock key else .absent

/-- The values that the loop variable of the scan takes. -/
inductive Visits (m : EntriesObject) (key : String) (block : IndexBlock) :
    EntryIterator → Prop where
  | start : Visits m key block block.blockBegin
  | next {it : EntryIterator} {first : String} {entry : Entry} :
      Visits m key block it → it ≠ block.blockEnd →
      m.deref it = some (first, entry) → first ≠ key → ¬ key < first →
      Visits m key block (m.increment it)

/-! ## The blocks as lists of entries -/

/-- The place of an iterator of the map itself. -/
def position (m : EntriesObject) : EntryIterator → ℕ
  | .node position => position
  | .stop _ => m.entries.size

/-- The entries between the iterators of the block. -/
def between (m : EntriesObject) (block : IndexBlock) :
    List (String × Entry) :=
  (m.entries.toList.drop (position m block.blockBegin)).take
    (position m block.blockEnd - position m block.blockBegin)

/-- The block without its iterators. -/
def toMeta (m : EntriesObject) (block : IndexBlock) : BlockMeta where
  firstKey := block.firstKey
  lastKey := block.lastKey
  entries := between m block

/-- The block holds the entries from `first` to `last`. -/
structure Spans (m : EntriesObject) (block : IndexBlock) (first last : ℕ) :
    Prop where
  le : first ≤ last
  lt : last < m.entries.size
  blockBegin : block.blockBegin = .node first
  blockEnd : block.blockEnd = m.iterator (last + 1)
  firstKey : m.entries.toList[first]?.map Prod.fst = some block.firstKey
  lastKey : m.entries.toList[last]?.map Prod.fst = some block.lastKey

section Build

variable {m : EntriesObject} {p : ℕ}

theorem length_toList (m : EntriesObject) :
    m.entries.toList.length = m.entries.size :=
  Std.ExtTreeMap.length_toList

theorem position_iterator (h : p ≤ m.entries.size) :
    position m (m.iterator p) = p := by
  unfold EntriesObject.iterator
  split
  · rfl
  · next hge => exact le_antisymm (not_lt.mp hge) h

theorem iterator_eq_cend : m.iterator p = m.cend ↔ m.entries.size ≤ p := by
  unfold EntriesObject.iterator EntriesObject.cend
  split
  · next hlt => simpa using hlt
  · next hge => simpa using not_lt.mp hge

theorem iterator_of_lt (h : p < m.entries.size) : m.iterator p = .node p :=
  if_pos h

/-- The inner loop stops at the end of the map or when the block is full. -/
theorem fillBlock_spec (room : ℕ) (lastKey : String) (h : p ≤ m.entries.size) :
    fillBlock m room (m.iterator p) lastKey =
      (m.iterator (min (p + room) m.entries.size),
        (((m.entries.toList.drop p).take room).map Prod.fst).getLastD
          lastKey) := by
  induction room generalizing p lastKey with
  | zero => simp [fillBlock, h]
  | succ room ih =>
      rw [fillBlock]
      split
      · next hend =>
          have hp : p = m.entries.size :=
            le_antisymm h (iterator_eq_cend.mp hend)
          have hdrop : m.entries.toList.drop p = [] := by
            rw [List.drop_eq_nil_iff, length_toList]
            exact hp.ge
          rw [hdrop, min_eq_right (by omega), hp]
          rfl
      · next hend =>
          have hlt : p < m.entries.size :=
            not_le.mp (fun hle => hend (iterator_eq_cend.mpr hle))
          have hlist : p < m.entries.toList.length := by
            rwa [length_toList]
          rw [iterator_of_lt hlt]
          simp only [EntriesObject.deref, EntriesObject.increment,
            List.getElem?_eq_getElem hlist]
          rw [ih _ hlt, List.drop_eq_getElem_cons hlist, List.take_succ_cons,
            List.map_cons, List.getLastD_cons]
          congr 2
          omega

/-- The keys of a block that starts at a node. -/
theorem fillBlock_node (room : ℕ) (lastKey : String) (h : p < m.entries.size) :
    ∃ last, last = min (p + room) (m.entries.size - 1) ∧
      fillBlock m (room + 1) (.node p) lastKey =
        (m.iterator (last + 1), (m.entries.toList[last]?.map Prod.fst).getD
          lastKey) := by
  have hspec := fillBlock_spec (room + 1) lastKey h.le
  rw [iterator_of_lt h] at hspec
  refine ⟨min (p + room) (m.entries.size - 1), rfl, ?_⟩
  rw [hspec, List.getLastD_eq_getLast?, List.getLast?_map,
    List.getLast?_eq_getElem?, List.getElem?_take_of_lt, List.getElem?_drop,
    List.length_take, List.length_drop, length_toList]
  · congr 3
    · omega
    · congr 2
      omega
  · rw [List.length_take, List.length_drop, length_toList]
    omega

/-- The first block and the rest of the index. -/
theorem buildIndex_node (fuel : ℕ) (h : p < m.entries.size) :
    ∃ block last, last < p + SSTable.kBlockEntryCount ∧
      Spans m block p last ∧
      last + 1 = min (p + SSTable.kBlockEntryCount) m.entries.size ∧
      buildIndex m (fuel + 1) (m.iterator p) =
        block :: buildIndex m fuel (m.iterator (last + 1)) := by
  have hlist : p < m.entries.toList.length := by rwa [length_toList]
  have hget := List.getElem?_eq_getElem hlist
  have hend : EntryIterator.node p ≠ m.cend := by
    rw [← iterator_of_lt h, Ne, iterator_eq_cend]
    exact not_le.mpr h
  obtain ⟨last, hlast, hfill⟩ := fillBlock_node
    (SSTable.kBlockEntryCount - 1) m.entries.toList[p].1 h
  have hlt : last < m.entries.toList.length := by
    rw [length_toList]
    omega
  have hkey : m.entries.toList[last]?.map Prod.fst =
      some m.entries.toList[last].1 := by
    rw [List.getElem?_eq_getElem hlt, Option.map_some]
  refine ⟨⟨m.entries.toList[p].1, m.entries.toList[last].1, .node p,
    m.iterator (last + 1)⟩, last, ?_, ?_, ?_, ?_⟩
  · simp only [SSTable.kBlockEntryCount] at hlast ⊢
    omega
  · exact ⟨by omega, by omega, rfl, rfl, by simp [hget], hkey⟩
  · simp only [SSTable.kBlockEntryCount] at hlast ⊢
    omega
  · rw [hkey] at hfill
    rw [buildIndex, iterator_of_lt h, if_neg hend]
    simp only [EntriesObject.deref, hget]
    rw [show SSTable.kBlockEntryCount = SSTable.kBlockEntryCount - 1 + 1
      from rfl, hfill]
    rfl

theorem Spans.between_eq {block : IndexBlock} {last : ℕ}
    (h : Spans m block p last) :
    between m block = (m.entries.toList.drop p).take (last + 1 - p) := by
  have hpos := position_iterator (m := m) h.lt
  rw [between, h.blockBegin, h.blockEnd, hpos]
  rfl

theorem Spans.length_between {block : IndexBlock} {last : ℕ}
    (h : Spans m block p last) : (between m block).length = last + 1 - p := by
  have hlt := h.lt
  rw [h.between_eq, List.length_take, List.length_drop, length_toList]
  omega

theorem Spans.head?_between {block : IndexBlock} {last : ℕ}
    (h : Spans m block p last) :
    (between m block).head?.map Prod.fst = some block.firstKey := by
  have hle := h.le
  rw [h.between_eq, List.head?_eq_getElem?,
    List.getElem?_take_of_lt (by omega), List.getElem?_drop]
  exact h.firstKey

theorem Spans.getLast?_between {block : IndexBlock} {last : ℕ}
    (h : Spans m block p last) :
    (between m block).getLast?.map Prod.fst = some block.lastKey := by
  have hle := h.le
  rw [List.getLast?_eq_getElem?, h.length_between, h.between_eq,
    List.getElem?_take_of_lt (by omega), List.getElem?_drop,
    show p + (last + 1 - p - 1) = last by omega]
  exact h.lastKey

/-- Without the iterators the index is the one of the entries as a list. -/
theorem toMeta_buildIndex (fuel : ℕ) (h : p ≤ m.entries.size) :
    (buildIndex m fuel (m.iterator p)).map (toMeta m) =
      SSTable.buildBlocks fuel (m.entries.toList.drop p) := by
  induction fuel generalizing p with
  | zero => rfl
  | succ fuel ih =>
      rcases h.lt_or_eq with hlt | rfl
      · obtain ⟨block, last, -, hspans, hlast, hindex⟩ :=
          buildIndex_node fuel hlt
        have hlist : p < m.entries.toList.length := by rwa [length_toList]
        have hdrop := List.drop_eq_getElem_cons hlist
        have hbetween : between m block = m.entries.toList[p] ::
            (m.entries.toList.drop (p + 1)).take
              (SSTable.kBlockEntryCount - 1) := by
          rw [hspans.between_eq, ← List.take_succ_cons, ← hdrop,
            List.take_eq_take_iff, List.length_drop, length_toList, hlast]
          simp only [SSTable.kBlockEntryCount]
          omega
        have hrest : (m.entries.toList.drop (p + 1)).drop
            (SSTable.kBlockEntryCount - 1) =
            m.entries.toList.drop (last + 1) := by
          rw [List.drop_drop, List.drop_eq_drop_iff, length_toList, hlast]
          simp only [SSTable.kBlockEntryCount]
          omega
        rw [hindex, List.map_cons, ih hspans.lt, hdrop, SSTable.buildBlocks,
          hrest]
        have hfirst := hspans.head?_between
        have hlastKey := hspans.getLast?_between
        rw [hbetween] at hfirst hlastKey
        rw [List.getLast?_eq_some_getLast (List.cons_ne_nil _ _)] at hlastKey
        rw [toMeta, hbetween, ← Option.some.inj hfirst,
          ← Option.some.inj hlastKey]
      · have hnil : m.entries.toList.drop m.entries.size = [] := by
          rw [List.drop_eq_nil_iff, length_toList]
        rw [hnil, buildIndex, if_pos (iterator_eq_cend.mpr le_rfl)]
        rfl

/-- Every block of the index spans at least one and at most
`kBlockEntryCount` entries. -/
theorem spans_of_mem {fuel : ℕ} {block : IndexBlock}
    (hmem : block ∈ buildIndex m fuel (m.iterator p)) :
    ∃ first last, last < first + SSTable.kBlockEntryCount ∧
      Spans m block first last := by
  induction fuel generalizing p with
  | zero => cases hmem
  | succ fuel ih =>
      by_cases hlt : p < m.entries.size
      · obtain ⟨head, last, hroom, hspans, -, hindex⟩ :=
          buildIndex_node fuel hlt
        rw [hindex] at hmem
        rcases List.mem_cons.mp hmem with rfl | hmem
        · exact ⟨p, last, hroom, hspans⟩
        · exact ih hmem
      · rw [buildIndex, if_pos (iterator_eq_cend.mpr (not_lt.mp hlt))] at hmem
        cases hmem

/-- The blocks hold the entries in their order, none is left out and none is
in two blocks. -/
theorem flatMap_between {fuel : ℕ} (hle : p ≤ m.entries.size)
    (hfuel : m.entries.size - p ≤ fuel) :
    (buildIndex m fuel (m.iterator p)).flatMap (between m) =
      m.entries.toList.drop p := by
  induction fuel generalizing p with
  | zero =>
      rw [eq_comm, buildIndex, List.flatMap_nil, List.drop_eq_nil_iff,
        length_toList]
      omega
  | succ fuel ih =>
      rcases hle.lt_or_eq with hlt | rfl
      · obtain ⟨block, last, -, hspans, -, hindex⟩ := buildIndex_node fuel hlt
        have hbound := hspans.le
        rw [hindex, List.flatMap_cons, ih hspans.lt (by omega),
          hspans.between_eq]
        have hrest : m.entries.toList.drop (last + 1) =
            (m.entries.toList.drop p).drop (last + 1 - p) := by
          rw [List.drop_drop, Nat.add_sub_cancel' (by omega)]
        rw [hrest, List.take_append_drop]
      · rw [eq_comm, buildIndex, if_pos (iterator_eq_cend.mpr le_rfl),
          List.flatMap_nil, List.drop_eq_nil_iff, length_toList]

end Build

/-! ## The scan of a block -/

section Scan

variable {m m' : EntriesObject} {block : IndexBlock} {key : String}
  {first last q : ℕ}

def Lookup.ofOption : Option Entry → Lookup
  | none => .absent
  | some entry => .found entry

/-- No entry of the block stands at its end. -/
theorem Spans.node_ne (h : Spans m block first last) (hq : q ≤ last) :
    EntryIterator.node q ≠ block.blockEnd := by
  rw [h.blockEnd, EntriesObject.iterator]
  split
  · intro heq
    injection heq with heq
    omega
  · intro heq
    cases heq

theorem Spans.deref (h : Spans m block first last)
    (hm : m'.entries = m.entries) (hq : q ≤ last) :
    ∃ item, m.entries.toList[q]? = some item ∧
      m'.deref (.node q) = some item := by
  have hlt : q < m.entries.toList.length := by
    rw [length_toList]
    exact hq.trans_lt h.lt
  refine ⟨m.entries.toList[q], List.getElem?_eq_getElem hlt, ?_⟩
  rw [EntriesObject.deref, hm, List.getElem?_eq_getElem hlt]

theorem Spans.le_lastKey (h : Spans m block first last) (hq : q ≤ last)
    {item : String × Entry} (hitem : m.entries.toList[q]? = some item) :
    item.1 ≤ block.lastKey := by
  have hasc := OrderedMap.ascending_toList m.entries
  have hlastKey := h.lastKey
  rw [Option.map_eq_some_iff] at hlastKey
  obtain ⟨final, hfinal, hkey⟩ := hlastKey
  rcases hq.lt_or_eq with hlt | rfl
  · obtain ⟨hqlt, hqget⟩ := List.getElem?_eq_some_iff.mp hitem
    obtain ⟨hllt, hlget⟩ := List.getElem?_eq_some_iff.mp hfinal
    have hbelow := List.pairwise_iff_getElem.mp hasc q last hqlt hllt hlt
    rw [hqget, hlget, hkey] at hbelow
    exact hbelow.le
  · rw [hitem] at hfinal
    rw [Option.some.inj hfinal, hkey]

/-- An entry of the block that is below a key up to `lastKey` is not the last
one, so the next iterator is in the block again. -/
theorem Spans.increment (h : Spans m block first last)
    (hm : m'.entries = m.entries) (hkey : ¬ block.lastKey < key)
    (hq : q ≤ last) {item : String × Entry}
    (hitem : m.entries.toList[q]? = some item) (hne : item.1 ≠ key)
    (hge : ¬ key < item.1) :
    q + 1 ≤ last ∧ m'.increment (.node q) = .node (q + 1) := by
  have hlast : q ≠ last := by
    rintro rfl
    have hlastKey := h.lastKey
    rw [hitem] at hlastKey
    rw [← Option.some.inj hlastKey] at hkey
    exact hne (le_antisymm (not_lt.mp hge) (not_lt.mp hkey))
  have hnext : q + 1 ≤ last := by omega
  refine ⟨hnext, ?_⟩
  rw [EntriesObject.increment, EntriesObject.iterator, hm,
    if_pos (hnext.trans_lt h.lt)]

/-- The loop of a block answers like the list of its entries, also when the
map has moved. -/
theorem Spans.scanBlock (h : Spans m block first last)
    (hm : m'.entries = m.entries) (hkey : ¬ block.lastKey < key)
    {rounds : ℕ} (hq : q ≤ last) (hrounds : last - q < rounds) :
    PlacedTable.scanBlock m' key block.blockEnd rounds (.node q) =
      Lookup.ofOption (SSTable.scanBlock key
        ((m.entries.toList.drop q).take (last + 1 - q))) := by
  induction rounds generalizing q with
  | zero => cases hrounds
  | succ rounds ih =>
      obtain ⟨⟨k, entry⟩, hitem, hderef⟩ := h.deref hm hq
      obtain ⟨hlt, hget⟩ := List.getElem?_eq_some_iff.mp hitem
      have hlist : (m.entries.toList.drop q).take (last + 1 - q) =
          (k, entry) :: (m.entries.toList.drop (q + 1)).take
            (last + 1 - (q + 1)) := by
        rw [List.drop_eq_getElem_cons hlt, hget,
          show last + 1 - q = (last + 1 - (q + 1)) + 1 by omega,
          List.take_succ_cons]
      rw [hlist, PlacedTable.scanBlock, if_neg (h.node_ne hq),
        SSTable.scanBlock]
      simp only [hderef]
      split
      · rfl
      · next hne =>
          split
          · rfl
          · next hge =>
              obtain ⟨hnext, hincrement⟩ :=
                h.increment hm hkey hq hitem hne hge
              rw [hincrement, ih hnext (by omega)]

/-- The loop variable stays in the block. -/
theorem Spans.visits (h : Spans m block first last)
    (hm : m'.entries = m.entries) (hkey : ¬ block.lastKey < key)
    {it : EntryIterator} (hvisits : Visits m' key block it) :
    ∃ q, first ≤ q ∧ q ≤ last ∧ it = .node q := by
  induction hvisits with
  | start => exact ⟨first, le_rfl, h.le, h.blockBegin⟩
  | @next it k entry _ _ hderef hne hge ih =>
      obtain ⟨q, hfirst, hq, rfl⟩ := ih
      obtain ⟨item, hitem, hderef'⟩ := h.deref hm hq
      rw [hderef] at hderef'
      obtain rfl := Option.some.inj hderef'
      obtain ⟨hnext, hincrement⟩ := h.increment hm hkey hq hitem hne hge
      exact ⟨q + 1, by omega, hnext, hincrement⟩

theorem searchBlocks_eq (key : String) (hm : m'.entries = m.entries)
    {blocks : List IndexBlock}
    (h : ∀ block ∈ blocks, ∃ first last, Spans m block first last) :
    searchBlocks m' key blocks = Lookup.ofOption
      (SSTable.findInIndexedBlock key (blocks.map (toMeta m))) := by
  induction blocks with
  | nil => rfl
  | cons block blocks ih =>
      obtain ⟨first, last, hspans⟩ := h block List.mem_cons_self
      rw [searchBlocks, List.map_cons, SSTable.findInIndexedBlock]
      show _ = Lookup.ofOption (if key < block.firstKey ∨ block.lastKey < key
        then _ else SSTable.scanBlock key (between m block))
      split
      · exact ih (fun other hother => h other (List.mem_cons_of_mem _ hother))
      · next hin =>
          have hlt := hspans.lt
          rw [hspans.blockBegin, hspans.between_eq, hm]
          exact hspans.scanBlock hm (fun hlt => hin (.inr hlt)) hspans.le
            (by omega)

end Scan

/-! ## Lookup in a table that was rebuilt and moved -/

variable {hash : String → UInt64} {table : PlacedTable}

/-- The table without iterators. -/
def toSSTable (table : PlacedTable) : SSTable where
  sequence := table.sequence
  minKey := table.minKey
  maxKey := table.maxKey
  bloomBits := table.bloomBits
  blocks := table.blocks.map (toMeta table.map)
  entries := table.map.entries

theorem rebuild_map (hash : String → UInt64) (table : PlacedTable) :
    (rebuildSSTableMetadata hash table).map = table.map := by
  unfold rebuildSSTableMetadata
  dsimp only
  split <;> rfl

theorem rebuild_blocks (hash : String → UInt64) (table : PlacedTable) :
    (rebuildSSTableMetadata hash table).blocks =
      buildIndex table.map table.map.entries.size table.map.cbegin := by
  rw [← length_toList]
  cases hitems : table.map.entries.toList with
  | nil => simp [rebuildSSTableMetadata, hitems, buildIndex]
  | cons first rest => simp [rebuildSSTableMetadata, hitems]

/-- Rebuilding the metadata with iterators and without them. -/
theorem toSSTable_rebuild (hash : String → UInt64) (table : PlacedTable) :
    (rebuildSSTableMetadata hash table).toSSTable =
      SSTable.rebuildSSTableMetadata hash table.toSSTable := by
  have hblocks : ((rebuildSSTableMetadata hash table).blocks).map
      (toMeta table.map) =
      (SSTable.rebuildSSTableMetadata hash table.toSSTable).blocks := by
    rw [rebuild_blocks, SSTable.blocks_rebuild]
    refine (toMeta_buildIndex _ (Nat.zero_le _)).trans ?_
    rw [toSSTable, length_toList, List.drop_zero]
  have hentries : (rebuildSSTableMetadata hash table).toSSTable.blocks =
      (SSTable.rebuildSSTableMetadata hash table.toSSTable).blocks := by
    rw [toSSTable, rebuild_map, hblocks]
  cases hitems : table.map.entries.toList with
  | nil =>
      simp [rebuildSSTableMetadata, SSTable.rebuildSSTableMetadata, toSSTable,
        hitems]
  | cons first rest =>
      simp only [rebuildSSTableMetadata, SSTable.rebuildSSTableMetadata,
        toSSTable, hitems] at hentries ⊢
      rw [hentries]

theorem rebuild_spans {block : IndexBlock}
    (h : block ∈ (rebuildSSTableMetadata hash table).blocks) :
    ∃ first last, last < first + SSTable.kBlockEntryCount ∧
      Spans (rebuildSSTableMetadata hash table).map block first last := by
  rw [rebuild_blocks] at h
  rw [rebuild_map]
  exact spans_of_mem h

/-- Every key of the table passes the filter. -/
theorem bloom_rebuild {key : String} (h : key ∈ table.map.entries) :
    SSTable.bloomMayContain hash
      (rebuildSSTableMetadata hash table).bloomBits key = true := by
  have hget := Std.ExtTreeMap.getElem?_eq_some_getElem h
  have hmay := SSTable.mayContain_rebuild hash table.toSSTable
    (OrderedMap.mem_toList.mpr hget)
  rw [← toSSTable_rebuild, SSTable.mayContain] at hmay
  split at hmay
  · cases hmay
  · rw [Bool.and_eq_true] at hmay
    exact hmay.2

theorem find?_moved (hash : String → UInt64) (table : PlacedTable)
    (address : ℕ) (key : String) :
    find? hash ((rebuildSSTableMetadata hash table).moveTo address) key =
      Lookup.ofOption table.map.entries[key]? := by
  have hlist : SSTable.find? hash
      (rebuildSSTableMetadata hash table).toSSTable key =
        table.map.entries[key]? := by
    rw [toSSTable_rebuild]
    exact SSTable.find?_rebuild hash table.toSSTable key
  have hmove :
      ((rebuildSSTableMetadata hash table).moveTo address).map.entries =
        (rebuildSSTableMetadata hash table).map.entries := rfl
  have hspans : ∀ block ∈ (rebuildSSTableMetadata hash table).blocks,
      ∃ first last,
        Spans (rebuildSSTableMetadata hash table).map block first last := by
    intro block hblock
    obtain ⟨first, last, -, hspans⟩ := rebuild_spans hblock
    exact ⟨first, last, hspans⟩
  have hsearch := searchBlocks_eq key hmove hspans
  have hmay : mayContain hash
      ((rebuildSSTableMetadata hash table).moveTo address) key =
        SSTable.mayContain hash
          (rebuildSSTableMetadata hash table).toSSTable key := rfl
  rw [← hlist, SSTable.find?, find?, hmay]
  split
  · exact hsearch
  · rfl

/-- A table whose metadata was rebuilt answers like its entries, also after it
has been moved: the filter lets every key pass, the blocks cut the entries in
order into runs of at most 16, and no scan leaves its block, so none comes to
the stored end. -/
theorem lookup_exact (hash : String → UInt64) (table : PlacedTable)
    (address : ℕ) :
    let built := rebuildSSTableMetadata hash table
    let moved := built.moveTo address
    (∀ key, find? hash moved key =
      match table.map.entries[key]? with
      | some entry => .found entry
      | none => .absent) ∧
    (∀ key ∈ table.map.entries,
      SSTable.bloomMayContain hash built.bloomBits key = true) ∧
    built.blocks.flatMap (between built.map) = table.map.entries.toList ∧
    (∀ block ∈ built.blocks,
      1 ≤ (between built.map block).length ∧
        (between built.map block).length ≤ 16 ∧
        (between built.map block).head?.map Prod.fst = some block.firstKey ∧
        (between built.map block).getLast?.map Prod.fst =
          some block.lastKey) ∧
    ∀ block ∈ built.blocks, ∀ key, block.firstKey ≤ key →
      key ≤ block.lastKey → ∀ it, Visits moved.map key block it →
        it ≠ block.blockEnd ∧
          ∃ first entry, moved.map.deref it = some (first, entry) ∧
            first ≤ block.lastKey := by
  intro built moved
  refine ⟨?_, ?_, ?_, ?_, ?_⟩
  · intro key
    rw [find?_moved]
    cases table.map.entries[key]? <;> rfl
  · intro key hkey
    exact bloom_rebuild hkey
  · rw [show built.map = table.map from rebuild_map hash table,
      show built.blocks = _ from rebuild_blocks hash table]
    exact flatMap_between (Nat.zero_le _) le_rfl
  · intro block hblock
    obtain ⟨first, last, hroom, hspans⟩ := rebuild_spans hblock
    have hle := hspans.le
    have hlength : (between built.map block).length = last + 1 - first :=
      hspans.length_between
    rw [SSTable.kBlockEntryCount] at hroom
    exact ⟨by omega, by omega, hspans.head?_between,
      hspans.getLast?_between⟩
  · intro block hblock key _ hkey it hvisits
    obtain ⟨first, last, -, hspans⟩ := rebuild_spans hblock
    have hmove : moved.map.entries = built.map.entries := rfl
    obtain ⟨q, -, hq, rfl⟩ := hspans.visits hmove (not_lt.mpr hkey) hvisits
    obtain ⟨item, hitem, hderef⟩ := hspans.deref hmove hq
    exact ⟨hspans.node_ne hq, item.1, item.2, hderef,
      hspans.le_lastKey hq hitem⟩

end PlacedTable

end KVRaftStorage
