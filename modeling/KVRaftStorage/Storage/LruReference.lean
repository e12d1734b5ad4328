import KVRaftStorage.Storage.LruCache
import KVRaftStorage.Support.Recency

/-!
# The cache against a reference

The reference knows for every key that it holds when it was used last, and
nothing else about the order of uses.  The list of the cache has the keys of
the reference with their values, the most recently used first, after any
sequence of operations.
-/

namespace KVRaftStorage

namespace LRUCache

open Recency (Operation Lists)

/-- The result of the operation, if it has one, and the cache afterwards. -/
def apply (c : LRUCache) :
    Operation String String → Except Fault (Option String × LRUCache)
  | .get key => c.get key
  | .put key value =>
      match c.put key value with
      | .error fault => .error fault
      | .ok c => .ok (none, c)
  | .delete key => .ok (none, c.delete key)
  | .clear => .ok (none, c.clear)

def execute : LRUCache → List (Operation String String) →
    Except Fault (List (Option String) × LRUCache)
  | c, [] => .ok ([], c)
  | c, op :: ops =>
      match c.apply op with
      | .error fault => .error fault
      | .ok (result, c) =>
          match execute c ops with
          | .error fault => .error fault
          | .ok (results, c) => .ok (result :: results, c)

/-- The items of `m_items`. -/
def pairs (c : LRUCache) : List (String × String) :=
  c.items.map (fun node => (node.key, node.value))

/-- The cache agrees with the reference. -/
structure Agrees (c : LRUCache) (s : Recency.Store String String) : Prop where
  wellFormed : c.WellFormed
  length_le : c.items.length ≤ c.capacity
  lists : Lists c.pairs s

variable {c : LRUCache} {s : Recency.Store String String}
  {key value : String} {node : CacheNode} {it : ℕ}

theorem length_pairs (c : LRUCache) : c.pairs.length = c.items.length :=
  List.length_map _

theorem mem_keys : key ∈ c.pairs.map Prod.fst ↔
    ∃ node ∈ c.items, node.key = key := by
  simp [pairs]

theorem WellFormed.index_eq_none (h : c.WellFormed) :
    c.index[key]? = none ↔ key ∉ c.pairs.map Prod.fst := by
  rw [mem_keys, Option.eq_none_iff_forall_ne_some]
  constructor
  · rintro hnone ⟨node, hnode, hkey⟩
    exact hnone node.id ((h.index key node.id).mpr ⟨node, hnode, hkey, rfl⟩)
  · intro hnot it hit
    obtain ⟨node, hnode, hkey, -⟩ := (h.index key it).mp hit
    exact hnot ⟨node, hnode, hkey⟩

/-- Without the node is without its key. -/
theorem WellFormed.pairs_filter (h : c.WellFormed) (hnode : node ∈ c.items) :
    (c.items.filter (fun other => other.id ≠ node.id)).map
        (fun node => (node.key, node.value)) =
      c.pairs.filter (fun p => p.1 ≠ node.key) := by
  rw [pairs, List.filter_map]
  congr 1
  apply List.filter_congr
  intro other hother
  have hiff : other.id = node.id ↔ other.key = node.key :=
    ⟨fun hid => congrArg _ (h.eq_of_id hother hnode hid),
      fun hkey => congrArg _ (h.eq_of_key hother hnode hkey)⟩
  simp [hiff]

theorem WellFormed.pairs_toFront (h : c.WellFormed) (hnode : node ∈ c.items)
    (value : String) :
    (c.toFront { node with value := value }).pairs =
      (node.key, value) :: c.pairs.filter (fun p => p.1 ≠ node.key) := by
  rw [← h.pairs_filter hnode]
  rfl

theorem length_toFront (hnode : node ∈ c.items) (value : String) :
    (c.toFront { node with value := value }).items.length ≤
      c.items.length := by
  have hlt := length_filter_lt hnode
  simp only [toFront, List.length_cons]
  omega

theorem Agrees.new (capacity : ℕ) : (new capacity).Agrees .empty :=
  ⟨.empty rfl rfl, Nat.zero_le _, .empty⟩

/-- A cache without room has no items. -/
theorem Agrees.notMem_of_zero (h : c.Agrees s) (hzero : c.capacity = 0) :
    key ∉ c.pairs.map Prod.fst := by
  have hlength := h.length_le
  rw [hzero, Nat.le_zero, List.length_eq_zero_iff] at hlength
  simp [pairs, hlength]

theorem Agrees.get (h : c.Agrees s) (key : String) :
    ∃ c', c.get key = .ok ((s.get key).1, c') ∧ c'.Agrees (s.get key).2 ∧
      c'.capacity = c.capacity := by
  unfold LRUCache.get
  split
  · next hzero =>
      rw [h.lists.get_of_notMem (h.notMem_of_zero hzero)]
      exact ⟨c, rfl, h, rfl⟩
  · cases hit : c.index[key]? with
    | none =>
        rw [h.lists.get_of_notMem (h.wellFormed.index_eq_none.mp hit)]
        exact ⟨c, rfl, h, rfl⟩
    | some it =>
        obtain ⟨node, hnode, hget, rfl, -⟩ := h.wellFormed.node_eq hit
        have hmem : (node.key, node.value) ∈ c.pairs :=
          List.mem_map_of_mem hnode
        rw [h.lists.get_of_mem hmem]
        refine ⟨c.toFront node, by simp only [hget],
          ⟨h.wellFormed.toFront hnode node.value,
            (length_toFront hnode node.value).trans h.length_le, ?_⟩, rfl⟩
        have hpairs := h.wellFormed.pairs_toFront hnode node.value
        rw [show c.toFront node = c.toFront { node with value := node.value }
          from rfl, hpairs]
        exact h.lists.touch hmem

/-- Nothing leaves as long as there is room. -/
theorem evict_of_le (h : c.items.length ≤ c.capacity) : c.evict = c :=
  if_neg (not_lt.mpr h)

/-- The last item leaves, and only that one. -/
theorem pairs_evict (h : c.capacity < c.items.length) :
    c.evict.pairs = c.pairs.dropLast := by
  rw [evict, if_pos h]
  cases hlast : c.items.getLast? with
  | none =>
      rw [List.getLast?_eq_none_iff] at hlast
      simp [pairs, hlast]
  | some last => exact List.map_dropLast

theorem capacity_evict (c : LRUCache) : c.evict.capacity = c.capacity := by
  unfold evict
  split
  · split <;> rfl
  · rfl

theorem Agrees.put_new (h : c.Agrees s) (hcapacity : c.capacity ≠ 0)
    (hit : c.index[key]? = none) (value : String) :
    (c.emplaceFront key value).evict.Agrees (s.put c.capacity key value) := by
  have hnot := h.wellFormed.index_eq_none.mp hit
  have hle : (c.emplaceFront key value).items.length ≤
      (c.emplaceFront key value).capacity + 1 := Nat.succ_le_succ h.length_le
  refine ⟨(h.wellFormed.emplaceFront hit).evict, length_evict_le hle, ?_⟩
  rcases h.length_le.lt_or_eq with hroom | hfull
  · rw [evict_of_le (show (c.emplaceFront key value).items.length ≤ _ from
      hroom)]
    exact h.lists.put_of_lt hnot (by rwa [length_pairs])
  · have hover : (c.emplaceFront key value).capacity <
        (c.emplaceFront key value).items.length :=
      Nat.lt_succ_of_le hfull.ge
    rw [pairs_evict hover]
    rcases List.eq_nil_or_concat c.pairs with hnil | ⟨l, last, hconcat⟩
    · rw [← length_pairs, hnil] at hfull
      exact absurd hfull.symm hcapacity
    · rw [List.concat_eq_append] at hconcat
      have hpairs : (c.emplaceFront key value).pairs =
          (key, value) :: (l ++ [last]) := by
        rw [← hconcat]
        rfl
      have hlists := h.lists
      rw [hconcat] at hlists hnot
      rw [hpairs, ← List.cons_append, List.dropLast_concat]
      apply hlists.put_of_full hnot
      rw [← hconcat, length_pairs, hfull]

theorem Agrees.put (h : c.Agrees s) (key value : String) :
    ∃ c', c.put key value = .ok c' ∧ c'.Agrees (s.put c.capacity key value) ∧
      c'.capacity = c.capacity := by
  unfold LRUCache.put
  split
  · next hzero =>
      rw [Recency.Store.put, if_pos hzero]
      exact ⟨c, rfl, h, rfl⟩
  · next hcapacity =>
      cases hit : c.index[key]? with
      | none =>
          exact ⟨_, rfl, h.put_new hcapacity hit value, capacity_evict _⟩
      | some it =>
          obtain ⟨node, hnode, hget, rfl, -⟩ := h.wellFormed.node_eq hit
          refine ⟨c.toFront { node with value := value }, by simp only [hget],
            ⟨h.wellFormed.toFront hnode value,
              (length_toFront hnode value).trans h.length_le, ?_⟩, rfl⟩
          rw [h.wellFormed.pairs_toFront hnode value]
          exact h.lists.put_of_mem hcapacity (mem_keys.mpr ⟨node, hnode, rfl⟩)

theorem Agrees.delete (h : c.Agrees s) (key : String) :
    (c.delete key).Agrees (s.delete key) := by
  refine ⟨h.wellFormed.delete key, ?_, ?_⟩
  · have hle := h.length_le
    unfold LRUCache.delete
    split
    · exact hle
    · exact (List.length_filter_le _ _).trans hle
  · have hpairs : (c.delete key).pairs =
        c.pairs.filter (fun p => p.1 ≠ key) := by
      unfold LRUCache.delete
      split
      · next hit =>
          have hnot := h.wellFormed.index_eq_none.mp hit
          rw [eq_comm, List.filter_eq_self]
          intro p hp
          simpa using Lists.ne_of_notMem hnot p hp
      · next it hit =>
          obtain ⟨node, hnode, -, rfl, rfl⟩ := h.wellFormed.node_eq hit
          exact h.wellFormed.pairs_filter hnode
    rw [hpairs]
    exact h.lists.delete key

theorem Agrees.clear : c.clear.Agrees s.clear :=
  ⟨.empty rfl rfl, Nat.zero_le _, .clear⟩

theorem Agrees.apply (h : c.Agrees s) (op : Operation String String) :
    ∃ c', c.apply op = .ok ((s.apply c.capacity op).1, c') ∧
      c'.Agrees (s.apply c.capacity op).2 ∧ c'.capacity = c.capacity := by
  cases op with
  | get key => exact h.get key
  | put key value =>
      obtain ⟨c', hput, hagrees, hcapacity⟩ := h.put key value
      refine ⟨c', ?_, hagrees, hcapacity⟩
      rw [LRUCache.apply, hput]
      rfl
  | delete key =>
      refine ⟨c.delete key, rfl, h.delete key, ?_⟩
      unfold LRUCache.delete
      split <;> rfl
  | clear => exact ⟨c.clear, rfl, .clear, rfl⟩

theorem Agrees.execute (h : c.Agrees s) (ops : List (Operation String String)) :
    ∃ c', c.execute ops = .ok ((s.execute c.capacity ops).1, c') ∧
      c'.Agrees (s.execute c.capacity ops).2 ∧ c'.capacity = c.capacity := by
  induction ops generalizing c s with
  | nil => exact ⟨c, rfl, h, rfl⟩
  | cons op ops ih =>
      obtain ⟨c₁, happly, hagrees, hcapacity⟩ := h.apply op
      obtain ⟨c₂, hexecute, hagrees₂, hcapacity₂⟩ := ih hagrees
      rw [hcapacity] at hexecute hagrees₂
      refine ⟨c₂, ?_, hagrees₂, hcapacity₂.trans hcapacity⟩
      rw [LRUCache.execute, happly]
      simp only [hexecute]
      rfl

/-- After any operations the index maps exactly the keys of the list, each to
its only node, the list is not longer than the capacity, and it has the keys
and values of the reference from the last use to the first. -/
theorem lru_exact (capacity : ℕ) (ops : List (Operation String String)) :
    let reference := Recency.Store.execute capacity .empty ops
    ∃ c, (new capacity).execute ops = .ok (reference.1, c) ∧
      (c.items.map (·.key)).Nodup ∧ (c.items.map (·.id)).Nodup ∧
      (∀ (key : String) it, c.index[key]? = some it ↔
        ∃ node ∈ c.items, node.key = key ∧ node.id = it) ∧
      c.items.length ≤ capacity ∧ Lists c.pairs reference.2 := by
  intro reference
  obtain ⟨c, hexecute, hagrees, hcapacity⟩ := (Agrees.new capacity).execute ops
  have hkeys := hagrees.lists.nodup
  have hle := hagrees.length_le
  rw [pairs, List.map_map] at hkeys
  rw [hcapacity] at hle
  exact ⟨c, hexecute, hkeys, hagrees.wellFormed.nodup,
    hagrees.wellFormed.index, hle, hagrees.lists⟩

end LRUCache

end KVRaftStorage
