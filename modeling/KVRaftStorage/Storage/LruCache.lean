import KVRaftStorage.Storage.LsmSnapshot
import KVRaftStorage.Support.OrderedMap

/-!
# The read cache

`LRUCache` with its list of items and its index.  A node of the `std::list`
has an identity that stays with it when it moves, and the index maps a key to
the identity of its node; using an iterator whose node is gone is a fault.

The index finds exactly the nodes of the list, and no operation caches a pair
other than one that was put.
-/

namespace KVRaftStorage

/-- A node of `m_items`. -/
structure CacheNode where
  id : ℕ
  key : String
  value : String
deriving DecidableEq

structure LRUCache where
  capacity : ℕ
  /-- `m_items`, the most recently used first -/
  items : List CacheNode
  index : Std.ExtTreeMap String ℕ
  /-- no node has this identity or a later one -/
  nextId : ℕ

namespace LRUCache

def new (capacity : ℕ) : LRUCache where
  capacity := capacity
  items := []
  index := ∅
  nextId := 0

/-- `*it`. -/
def node (c : LRUCache) (it : ℕ) : Except Fault CacheNode :=
  match c.items.find? (fun node => node.id = it) with
  | none => .error .outOfBounds
  | some node => .ok node

/-- `m_items.splice(m_items.begin(), m_items, it)` with the node as given. -/
def toFront (c : LRUCache) (node : CacheNode) : LRUCache :=
  { c with items := node :: c.items.filter (fun other => other.id ≠ node.id) }

/-- The value if the key is cached, and the cache afterwards. -/
def get (c : LRUCache) (key : String) :
    Except Fault (Option String × LRUCache) :=
  if c.capacity = 0 then .ok (none, c)
  else
    match c.index[key]? with
    | none => .ok (none, c)
    | some it =>
        match c.node it with
        | .error fault => .error fault
        | .ok node => .ok (some node.value, c.toFront node)

def emplaceFront (c : LRUCache) (key value : String) : LRUCache :=
  { c with
    items := ⟨c.nextId, key, value⟩ :: c.items
    index := c.index.insert key c.nextId
    nextId := c.nextId + 1 }

/-- The last node leaves if there are too many. -/
def evict (c : LRUCache) : LRUCache :=
  if c.capacity < c.items.length then
    match c.items.getLast? with
    | none => c
    | some last => { c with
        items := c.items.dropLast
        index := c.index.erase last.key }
  else c

def put (c : LRUCache) (key value : String) : Except Fault LRUCache :=
  if c.capacity = 0 then .ok c
  else
    match c.index[key]? with
    | none => .ok (c.emplaceFront key value).evict
    | some it =>
        match c.node it with
        | .error fault => .error fault
        | .ok node => .ok (c.toFront { node with value := value })

def delete (c : LRUCache) (key : String) : LRUCache :=
  match c.index[key]? with
  | none => c
  | some it => { c with
      items := c.items.filter (fun node => node.id ≠ it)
      index := c.index.erase key }

def clear (c : LRUCache) : LRUCache :=
  { c with items := [], index := ∅ }

def size (c : LRUCache) : ℕ := c.items.length

/-! ## The index and the list -/

/-- The identities are distinct, and the index maps exactly the keys of the
nodes, each to its node. -/
structure WellFormed (c : LRUCache) : Prop where
  nodup : (c.items.map (·.id)).Nodup
  lt : ∀ node ∈ c.items, node.id < c.nextId
  index : ∀ (key : String) it, c.index[key]? = some it ↔
    ∃ node ∈ c.items, node.key = key ∧ node.id = it

/-- Every cached pair is one of the map, and there are not too many. -/
structure Sound (c : LRUCache) (m : Std.ExtTreeMap String String) : Prop where
  wellFormed : c.WellFormed
  length_le : c.items.length ≤ c.capacity
  pair : ∀ node ∈ c.items, m[node.key]? = some node.value

variable {c : LRUCache} {key value : String} {it : ℕ} {node : CacheNode}
  {m : Std.ExtTreeMap String String}

theorem WellFormed.eq_of_id (h : c.WellFormed) {node' : CacheNode}
    (hnode : node ∈ c.items) (hnode' : node' ∈ c.items)
    (hid : node.id = node'.id) : node = node' :=
  List.inj_on_of_nodup_map h.nodup hnode hnode' hid

theorem WellFormed.eq_of_key (h : c.WellFormed) {node' : CacheNode}
    (hnode : node ∈ c.items) (hnode' : node' ∈ c.items)
    (hkey : node.key = node'.key) : node = node' := by
  have hindex := (h.index node.key node.id).mpr ⟨node, hnode, rfl, rfl⟩
  have hindex' := (h.index node.key node'.id).mpr
    ⟨node', hnode', hkey.symm, rfl⟩
  rw [hindex] at hindex'
  exact h.eq_of_id hnode hnode' (Option.some.inj hindex')

/-- An iterator of the index points to a node with the key. -/
theorem WellFormed.node_eq (h : c.WellFormed) (hit : c.index[key]? = some it) :
    ∃ node ∈ c.items, c.node it = .ok node ∧ node.key = key ∧
      node.id = it := by
  obtain ⟨node, hnode, hkey, hid⟩ := (h.index key it).mp hit
  refine ⟨node, hnode, ?_, hkey, hid⟩
  unfold LRUCache.node
  cases hfind : c.items.find? (fun node => node.id = it) with
  | none =>
      rw [List.find?_eq_none] at hfind
      exact absurd hid (by simpa using hfind node hnode)
  | some found =>
      have hfound := List.find?_some hfind
      rw [decide_eq_true_eq] at hfound
      have heq := h.eq_of_id (List.mem_of_find?_eq_some hfind) hnode
        (hfound.trans hid.symm)
      rw [heq]

/-- Moving a node to the front, with a new value or not. -/
theorem WellFormed.toFront (h : c.WellFormed) (hnode : node ∈ c.items)
    (value : String) : (c.toFront { node with value := value }).WellFormed := by
  constructor
  case nodup =>
    simp only [LRUCache.toFront, List.map_cons, List.nodup_cons]
    refine ⟨?_, List.Nodup.sublist (List.filter_sublist.map _) h.nodup⟩
    simp
  case lt =>
    intro other hother
    rcases List.mem_cons.mp hother with rfl | hother
    · exact h.lt node hnode
    · exact h.lt other (List.mem_of_mem_filter hother)
  case index =>
    intro key it
    show c.index[key]? = some it ↔ _
    rw [h.index]
    constructor
    · rintro ⟨other, hother, hkey, hid⟩
      by_cases heq : other.id = node.id
      · have hsame := h.eq_of_id hother hnode heq
        subst hsame
        exact ⟨_, List.mem_cons_self, hkey, hid⟩
      · exact ⟨other, List.mem_cons_of_mem _
          (List.mem_filter.mpr ⟨hother, by simpa using heq⟩), hkey, hid⟩
    · rintro ⟨other, hother, hkey, hid⟩
      rcases List.mem_cons.mp hother with rfl | hother
      · exact ⟨node, hnode, hkey, hid⟩
      · exact ⟨other, List.mem_of_mem_filter hother, hkey, hid⟩

theorem WellFormed.emplaceFront (h : c.WellFormed)
    (hkey : c.index[key]? = none) :
    (c.emplaceFront key value).WellFormed := by
  constructor
  case nodup =>
    simp only [LRUCache.emplaceFront, List.map_cons, List.nodup_cons]
    refine ⟨?_, h.nodup⟩
    intro hmem
    obtain ⟨node, hnode, hid⟩ := List.mem_map.mp hmem
    exact absurd hid (h.lt node hnode).ne
  case lt =>
    intro node hnode
    rcases List.mem_cons.mp hnode with rfl | hnode
    · exact Nat.lt_succ_self _
    · exact (h.lt node hnode).trans (Nat.lt_succ_self _)
  case index =>
    intro k it
    simp only [LRUCache.emplaceFront, List.mem_cons]
    rw [Std.ExtTreeMap.getElem?_insert]
    split
    · next heq =>
        rw [compare_eq_iff_eq] at heq
        subst heq
        constructor
        · intro hit
          exact ⟨_, .inl rfl, rfl, Option.some.inj hit⟩
        · rintro ⟨node, rfl | hnode, hk, hid⟩
          · exact congrArg some hid
          · have hindex := (h.index key node.id).mpr ⟨node, hnode, hk, rfl⟩
            rw [hkey] at hindex
            cases hindex
    · next hne =>
        rw [h.index]
        constructor
        · rintro ⟨node, hnode, hk, hid⟩
          exact ⟨node, .inr hnode, hk, hid⟩
        · rintro ⟨node, rfl | hnode, hk, hid⟩
          · exact absurd (compare_eq_iff_eq.mpr hk) hne
          · exact ⟨node, hnode, hk, hid⟩

theorem WellFormed.evict (h : c.WellFormed) : c.evict.WellFormed := by
  unfold LRUCache.evict
  split
  · cases hlast : c.items.getLast? with
    | none => exact h
    | some last =>
        have hitems : c.items = c.items.dropLast ++ [last] :=
          (List.dropLast_append_getLast? last hlast).symm
        have hmem : last ∈ c.items := List.mem_of_getLast? hlast
        have hnodup := h.nodup
        rw [hitems, List.map_append, List.map_singleton] at hnodup
        have hother : ∀ node ∈ c.items.dropLast, node.key ≠ last.key := by
          intro node hnode hkey
          have heq := h.eq_of_key (List.dropLast_subset _ hnode) hmem hkey
          rw [List.nodup_append] at hnodup
          exact hnodup.2.2 node.id (List.mem_map_of_mem hnode) last.id
            (List.mem_singleton_self _) (congrArg _ heq)
        constructor
        case nodup => exact (List.nodup_append.mp hnodup).1
        case lt =>
          intro node hnode
          exact h.lt node (List.dropLast_subset _ hnode)
        case index =>
          intro key it
          dsimp only
          rw [Std.ExtTreeMap.getElem?_erase]
          split
          · next heq =>
              rw [compare_eq_iff_eq] at heq
              subst heq
              constructor
              · intro hit
                cases hit
              · rintro ⟨node, hnode, hkey, -⟩
                exact absurd hkey (hother node hnode)
          · next hne =>
              rw [h.index]
              constructor
              · rintro ⟨node, hnode, hkey, hid⟩
                rw [hitems, List.mem_append, List.mem_singleton] at hnode
                rcases hnode with hnode | rfl
                · exact ⟨node, hnode, hkey, hid⟩
                · exact absurd (compare_eq_iff_eq.mpr hkey) hne
              · rintro ⟨node, hnode, hkey, hid⟩
                exact ⟨node, List.dropLast_subset _ hnode, hkey, hid⟩
  · exact h

theorem WellFormed.delete (h : c.WellFormed) (key : String) :
    (c.delete key).WellFormed := by
  unfold LRUCache.delete
  split
  · exact h
  · next it hit =>
      obtain ⟨found, hfound, -, hfkey, hfid⟩ := h.node_eq hit
      constructor
      case nodup =>
        exact List.Nodup.sublist (List.filter_sublist.map _) h.nodup
      case lt =>
        intro node hnode
        exact h.lt node (List.mem_of_mem_filter hnode)
      case index =>
        intro k it'
        dsimp only
        rw [Std.ExtTreeMap.getElem?_erase]
        split
        · next heq =>
            rw [compare_eq_iff_eq] at heq
            subst heq
            constructor
            · intro h
              cases h
            · rintro ⟨node, hnode, hkey, -⟩
              rw [List.mem_filter, decide_eq_true_eq] at hnode
              have hsame := h.eq_of_key hnode.1 hfound (hkey.trans hfkey.symm)
              exact absurd (hsame ▸ hfid) hnode.2
        · next hne =>
            rw [h.index]
            constructor
            · rintro ⟨node, hnode, hkey, hid⟩
              refine ⟨node, List.mem_filter.mpr ⟨hnode, ?_⟩, hkey, hid⟩
              rw [decide_eq_true_eq]
              intro heq
              have hsame := h.eq_of_id hnode hfound (heq.trans hfid.symm)
              apply hne
              rw [compare_eq_iff_eq, ← hfkey, ← hsame, hkey]
            · rintro ⟨node, hnode, hkey, hid⟩
              exact ⟨node, List.mem_of_mem_filter hnode, hkey, hid⟩

/-! ## Cached pairs -/

theorem WellFormed.empty (h : c.items = []) (hindex : c.index = ∅) :
    c.WellFormed := by
  constructor
  · simp [h]
  · simp [h]
  · intro key it
    simp [h, hindex]

theorem Sound.empty (h : c.items = []) (hindex : c.index = ∅)
    (m : Std.ExtTreeMap String String) : c.Sound m :=
  ⟨.empty h hindex, by simp [h], by simp [h]⟩

theorem length_filter_lt (h : node ∈ c.items) :
    (c.items.filter (fun other => other.id ≠ node.id)).length <
      c.items.length := by
  rw [List.length_filter_lt_length_iff_exists]
  exact ⟨node, h, by simp⟩

/-- A hit returns the value of the map. -/
theorem Sound.get (h : c.Sound m) (key : String) :
    ∃ value c', c.get key = .ok (value, c') ∧ c'.Sound m ∧
      ∀ v, value = some v → m[key]? = some v := by
  unfold LRUCache.get
  split
  · exact ⟨none, c, rfl, h, by simp⟩
  · cases hit : c.index[key]? with
    | none => exact ⟨none, c, rfl, h, by simp⟩
    | some it =>
        obtain ⟨node, hnode, hget, hkey, -⟩ := h.wellFormed.node_eq hit
        refine ⟨some node.value, c.toFront node, by simp only [hget],
          ⟨h.wellFormed.toFront hnode node.value, ?_, ?_⟩, ?_⟩
        · have hlt := length_filter_lt hnode
          have hle := h.length_le
          simp only [LRUCache.toFront, List.length_cons]
          omega
        · intro other hother
          rcases List.mem_cons.mp hother with rfl | hother
          · exact h.pair _ hnode
          · exact h.pair other (List.mem_of_mem_filter hother)
        · intro v hv
          rw [← Option.some.inj hv, ← hkey]
          exact h.pair node hnode

theorem mem_evict (h : node ∈ c.evict.items) : node ∈ c.items := by
  unfold LRUCache.evict at h
  split at h
  · cases hlast : c.items.getLast? with
    | none =>
        simp only [hlast] at h
        exact h
    | some last =>
        simp only [hlast] at h
        exact List.dropLast_subset _ h
  · exact h

theorem length_evict_le (h : c.items.length ≤ c.capacity + 1) :
    c.evict.items.length ≤ c.evict.capacity := by
  unfold LRUCache.evict
  split
  · next hlt =>
      cases hlast : c.items.getLast? with
      | none =>
          rw [List.getLast?_eq_none_iff.mp hlast] at hlt
          exact absurd hlt (Nat.not_lt_zero _)
      | some last =>
          simp only [List.length_dropLast]
          omega
  · next hle => exact not_lt.mp hle

/-- Putting a pair fits the map with the pair. -/
theorem Sound.put (h : c.Sound m) (key value : String) :
    ∃ c', c.put key value = .ok c' ∧ c'.Sound (m.insert key value) := by
  have hold : ∀ node ∈ c.items, node.key ≠ key →
      (m.insert key value)[node.key]? = some node.value := by
    intro node hnode hne
    rw [Std.ExtTreeMap.getElem?_insert,
      if_neg (fun heq => hne (compare_eq_iff_eq.mp heq).symm)]
    exact h.pair node hnode
  unfold LRUCache.put
  split
  · next hzero =>
      have hnil : c.items = [] := by
        rw [← List.length_eq_zero_iff]
        have := h.length_le
        omega
      exact ⟨c, rfl, h.wellFormed, h.length_le, by simp [hnil]⟩
  · cases hit : c.index[key]? with
    | none =>
        have hne : ∀ node ∈ c.items, node.key ≠ key := by
          intro node hnode hkey
          have hindex := (h.wellFormed.index key node.id).mpr
            ⟨node, hnode, hkey, rfl⟩
          rw [hit] at hindex
          cases hindex
        refine ⟨(c.emplaceFront key value).evict, rfl,
          (h.wellFormed.emplaceFront hit).evict, length_evict_le ?_, ?_⟩
        · have := h.length_le
          simp only [LRUCache.emplaceFront, List.length_cons]
          omega
        · intro node hnode
          rcases List.mem_cons.mp (mem_evict hnode) with rfl | hnode
          · simp
          · exact hold node hnode (hne node hnode)
    | some it =>
        obtain ⟨node, hnode, hget, hkey, -⟩ := h.wellFormed.node_eq hit
        refine ⟨c.toFront { node with value := value }, by simp only [hget],
          h.wellFormed.toFront hnode value, ?_, ?_⟩
        · have hlt := length_filter_lt hnode
          have hle := h.length_le
          simp only [LRUCache.toFront, List.length_cons]
          omega
        · intro other hother
          rcases List.mem_cons.mp hother with rfl | hother
          · simp [hkey]
          · rw [List.mem_filter, decide_eq_true_eq] at hother
            apply hold other hother.1
            intro heq
            have hsame := h.wellFormed.eq_of_key hother.1 hnode
              (heq.trans hkey.symm)
            exact hother.2 (show other.id = node.id by rw [hsame])

theorem Sound.delete (h : c.Sound m) (key : String) :
    (c.delete key).Sound (m.erase key) := by
  have hwell := h.wellFormed.delete key
  have hmem : ∀ node ∈ (c.delete key).items,
      node ∈ c.items ∧ node.key ≠ key := by
    intro node hnode
    have hold : node ∈ c.items := by
      unfold LRUCache.delete at hnode
      split at hnode
      · exact hnode
      · exact List.mem_of_mem_filter hnode
    refine ⟨hold, ?_⟩
    intro hkey
    have hindex := (hwell.index key node.id).mpr ⟨node, hnode, hkey, rfl⟩
    unfold LRUCache.delete at hindex
    split at hindex
    · next hnone =>
        rw [hnone] at hindex
        cases hindex
    · simp at hindex
  refine ⟨hwell, ?_, ?_⟩
  · have hle := h.length_le
    unfold LRUCache.delete
    split
    · exact hle
    · exact (List.length_filter_le _ _).trans hle
  · intro node hnode
    obtain ⟨hold, hne⟩ := hmem node hnode
    rw [Std.ExtTreeMap.getElem?_erase,
      if_neg (fun heq => hne (compare_eq_iff_eq.mp heq).symm)]
    exact h.pair node hold

end LRUCache

end KVRaftStorage
