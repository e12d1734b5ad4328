import KVRaftStorage.Storage.SkipListShape

/-!
# The skip list is an ordered map

A skip list of the right shape whose nodes are the entries of a map keeps
standing for a map under all its operations, whatever the random levels are.
The proofs cut the nodes at the key: the search stops on every level at the
last node of the first part.
-/

namespace KVRaftStorage

/-- The dump of a list of entries. -/
def SkipListDump.ofEntries {K V : Type} (entries : List (K × V)) :
    SkipListDump K V where
  keyDumpVt := entries.map Prod.fst
  valDumpVt := entries.map Prod.snd

namespace SkipList

open LinkedList

variable {K V : Type} [LinearOrder K]

section Search

variable {s : SkipList K V} {pre post : List (Tower K V)} {key : K}
  {current i : ℕ}

theorem Shape.addr_lt {towers : List (Tower K V)} (h : Shape s towers) {a : ℕ}
    (ha : a ∈ s.header :: towers.map (·.addr)) : a < s.free := by
  by_contra hle
  have hnone := h.fresh a (by omega)
  have hlinked := h.linked 0 (Nat.zero_le _)
  rw [atLevel_zero] at hlinked
  obtain ⟨l, l', hl⟩ := List.append_of_mem ha
  rw [hl] at hlinked
  have hnext := hlinked.next_eq
  simp [forward, hnone] at hnext

theorem Shape.keyBelow_eq {towers : List (Tower K V)} (h : Shape s towers)
    {t : Tower K V} (ht : t ∈ towers) :
    keyBelow s.memory key t.addr = some (decide (t.key < key)) := by
  obtain ⟨node, hnode, hlabel⟩ := Option.map_eq_some_iff.mp (h.node t ht)
  have hkey : node.key = t.key := congrArg Prod.fst hlabel
  simp [keyBelow, hnode, hkey]

/-- The loop of a level stops at the last node whose key is smaller. -/
theorem Shape.advance_eq (h : Shape s (pre ++ post))
    (hpre : ∀ t ∈ pre, t.key < key) (hpost : ∀ t ∈ post, key ≤ t.key)
    (hi : i ≤ s.maxLevel) (hcurrent : current ∈ s.header :: atLevel i pre) :
    s.advance key i current = some (before s pre i) := by
  obtain ⟨l, mid, hl⟩ := List.append_of_mem hcurrent
  have hmid : mid ⊆ atLevel i pre := by
    intro z hz
    cases l with
    | nil => rwa [(List.cons.inj hl).2]
    | cons w l =>
        rw [(List.cons.inj hl).2]
        simp [hz]
  have hlinked := h.linked i hi
  rw [atLevel_append, ← List.cons_append, hl, List.append_assoc,
    List.cons_append] at hlinked
  rw [SkipList.advance, LinkedList.advance_eq hlinked]
  · rw [before, ← List.getLast?_eq_some_getLast, hl,
      List.getLast?_append_of_ne_nil _ (List.cons_ne_nil _ _)]
  · intro z hz
    obtain ⟨t, ht, -, rfl⟩ := mem_atLevel.mp (hmid hz)
    rw [h.keyBelow_eq (List.mem_append_left _ ht)]
    simp [hpre t ht]
  · intro z hz
    obtain ⟨t, ht, -, rfl⟩ := mem_atLevel.mp (List.mem_of_mem_head? hz)
    rw [h.keyBelow_eq (List.mem_append_right _ ht)]
    simp [hpost t ht]
  · have hlevel : (s.header :: atLevel i pre).length ≤ pre.length + 1 := by
      have hsub : (atLevel i pre).Sublist (pre.map (·.addr)) :=
        atLevel_sublist
      simpa using hsub.length_le
    have hroom := h.room
    rw [hl] at hlevel
    simp only [List.length_append, List.length_cons] at hlevel hroom
    omega

theorem Shape.descend_eq (h : Shape s (pre ++ post))
    (hpre : ∀ t ∈ pre, t.key < key) (hpost : ∀ t ∈ post, key ≤ t.key)
    (hi : i ≤ s.maxLevel) (hcurrent : current ∈ s.header :: atLevel i pre) :
    s.descend key i current = some (before s pre 0) := by
  induction i generalizing current with
  | zero => exact h.advance_eq hpre hpost hi hcurrent
  | succ i ih =>
      rw [descend, h.advance_eq hpre hpost hi hcurrent]
      exact ih (by omega) before_mem_below

theorem Shape.descendUpdate_eq (h : Shape s (pre ++ post))
    (hpre : ∀ t ∈ pre, t.key < key) (hpost : ∀ t ∈ post, key ≤ t.key)
    (hi : i ≤ s.maxLevel) (hcurrent : current ∈ s.header :: atLevel i pre)
    {update : List (Option ℕ)} (hlength : update.length = s.maxLevel + 1) :
    ∃ update', s.descendUpdate key i current update =
        some (before s pre 0, update') ∧
      update'.length = s.maxLevel + 1 ∧
      ∀ j ≤ i, update'[j]? = some (some (before s pre j)) := by
  suffices hall : ∃ update', s.descendUpdate key i current update =
      some (before s pre 0, update') ∧ update'.length = s.maxLevel + 1 ∧
      ∀ j, update'[j]? =
        if j ≤ i then some (some (before s pre j)) else update[j]? by
    obtain ⟨update', heq, hlen, hget⟩ := hall
    exact ⟨update', heq, hlen, fun j hj => by rw [hget, if_pos hj]⟩
  induction i generalizing current update with
  | zero =>
      refine ⟨update.set 0 (some (before s pre 0)), ?_, by simp [hlength], ?_⟩
      · simp [descendUpdate, h.advance_eq hpre hpost hi hcurrent, setUpdate,
          hlength]
      · intro j
        cases j with
        | zero => simp [hlength]
        | succ j => simp
  | succ i ih =>
      have hset : setUpdate update (i + 1) (before s pre (i + 1)) =
          some (update.set (i + 1) (some (before s pre (i + 1)))) := by
        rw [setUpdate, if_pos (by omega)]
      obtain ⟨update', heq, hlen, hget⟩ := ih (by omega) before_mem_below
        (show (update.set (i + 1) (some (before s pre (i + 1)))).length =
          s.maxLevel + 1 by simp [hlength])
      refine ⟨update', ?_, hlen, ?_⟩
      · simp [descendUpdate, h.advance_eq hpre hpost hi hcurrent, hset, heq]
      · intro j
        rw [hget]
        by_cases hj : j = i + 1
        · subst hj
          have hlt : i + 1 < update.length := by omega
          simp [hlt]
        · rw [List.getElem?_set_ne (Ne.symm hj)]
          have hiff : j ≤ i ↔ j ≤ i + 1 := by omega
          simp only [hiff]

/-- Behind the last node of `pre` comes the first of `post`. -/
theorem Shape.forward_before (h : Shape s (pre ++ post))
    (hi : i ≤ s.maxLevel) :
    forward s.memory (before s pre i) i = some (atLevel i post).head? := by
  have hlinked := h.linked i hi
  rw [level_split] at hlinked
  exact hlinked.next_eq

/-- The nodes are cut at a key; one of them may hold it. -/
theorem Shape.cut {towers : List (Tower K V)} (h : Shape s towers) (key : K) :
    ∃ pre post, (∀ t ∈ pre, t.key < key) ∧ (∀ t ∈ post, key < t.key) ∧
      (towers = pre ++ post ∨ ∃ t, t.key = key ∧ towers = pre ++ t :: post) := by
  obtain ⟨l, l', hl, hl', heq | ⟨v, heq⟩⟩ := h.ascending.cut key
  · obtain ⟨pre, post, rfl, rfl, rfl⟩ := List.map_eq_append_iff.mp heq
    exact ⟨pre, post, fun t ht => hl t.entry (List.mem_map_of_mem ht),
      fun t ht => hl' t.entry (List.mem_map_of_mem ht), .inl rfl⟩
  · obtain ⟨pre, rest, rfl, rfl, hrest⟩ := List.map_eq_append_iff.mp heq
    obtain ⟨t, post, rfl, ht, rfl⟩ := List.map_eq_cons_iff.mp hrest
    exact ⟨pre, post, fun t ht => hl t.entry (List.mem_map_of_mem ht),
      fun t ht => hl' t.entry (List.mem_map_of_mem ht),
      .inr ⟨t, congrArg Prod.fst ht, rfl⟩⟩

/-- What stands behind the last node of `pre` on level 0. -/
theorem Shape.forward_zero (h : Shape s (pre ++ post)) :
    forward s.memory (before s pre 0) 0 = some (post.head?.map (·.addr)) := by
  rw [h.forward_before (Nat.zero_le _), atLevel_zero, List.head?_map]

theorem Shape.key_eq {t : Tower K V} {towers : List (Tower K V)}
    (h : Shape s towers) (ht : t ∈ towers) :
    ∃ node, s.memory t.addr = some node ∧ node.key = t.key ∧
      node.value = t.value := by
  obtain ⟨node, hnode, hlabel⟩ := Option.map_eq_some_iff.mp (h.node t ht)
  exact ⟨node, hnode, congrArg Prod.fst hlabel,
    congrArg (fun l => l.2.1) hlabel⟩

end Search

section Map

variable {s : SkipList K V} {towers pre post : List (Tower K V)}
  {t : Tower K V} {key : K} {m : Std.ExtTreeMap K V} {maxLevel : ℕ}

/-- The list, built for `maxLevel`, stands for the map. -/
def Refines (maxLevel : ℕ) (s : SkipList K V) (m : Std.ExtTreeMap K V) :
    Prop :=
  ∃ towers, Shape s towers ∧ s.maxLevel = maxLevel ∧
    m.toList = towers.map Tower.entry

theorem getElem?_present (hm : m.toList = (pre ++ t :: post).map Tower.entry)
    (hkey : t.key = key) : m[key]? = some t.value := by
  rw [← hkey, ← OrderedMap.mem_toList, hm]
  exact List.mem_map.mpr ⟨t, by simp, rfl⟩

theorem getElem?_absent (hm : m.toList = (pre ++ post).map Tower.entry)
    (hpre : ∀ t ∈ pre, t.key < key) (hpost : ∀ t ∈ post, key < t.key) :
    m[key]? = none := by
  apply OrderedMap.getElem?_eq_none
  intro a ha
  rw [hm, List.mem_map] at ha
  obtain ⟨t, ht, rfl⟩ := ha
  rcases List.mem_append.mp ht with ht | ht
  · exact (hpre t ht).ne
  · exact (hpost t ht).ne'

theorem le_of_present (hkey : t.key = key) (hpost : ∀ t ∈ post, key < t.key) :
    ∀ t' ∈ t :: post, key ≤ t'.key := by
  intro t' ht'
  rcases List.mem_cons.mp ht' with rfl | ht'
  · exact hkey.ge
  · exact (hpost t' ht').le

/-- The search from the top of the list. -/
theorem Shape.descend_top (h : Shape s (pre ++ post))
    (hpre : ∀ t ∈ pre, t.key < key) (hpost : ∀ t ∈ post, key ≤ t.key) :
    s.descend key s.skipListLevel s.header = some (before s pre 0) :=
  h.descend_eq hpre hpost h.top_le List.mem_cons_self

theorem Shape.descendUpdate_top (h : Shape s (pre ++ post))
    (hpre : ∀ t ∈ pre, t.key < key) (hpost : ∀ t ∈ post, key ≤ t.key) :
    ∃ update, s.descendUpdate key s.skipListLevel s.header s.noUpdate =
        some (before s pre 0, update) ∧
      update.length = s.maxLevel + 1 ∧
      ∀ j ≤ s.skipListLevel, update[j]? = some (some (before s pre j)) :=
  h.descendUpdate_eq hpre hpost h.top_le List.mem_cons_self
    (by simp [noUpdate])

theorem search_spec (h : Refines maxLevel s m) (key : K) :
    s.searchElement key = some m[key]? := by
  obtain ⟨towers, hshape, hmax, hm⟩ := h
  obtain ⟨pre, post, hpre, hpost, rfl | ⟨t, hkey, rfl⟩⟩ := hshape.cut key
  · have hdescend := hshape.descend_top hpre (fun t ht => (hpost t ht).le)
    rw [searchElement, hdescend, Option.bind_eq_bind, Option.bind_some,
      hshape.forward_zero, getElem?_absent hm hpre hpost]
    cases post with
    | nil => rfl
    | cons t post =>
        obtain ⟨node, hnode, hnkey, -⟩ := hshape.key_eq (t := t) (by simp)
        have hne : node.key ≠ key := by
          rw [hnkey]
          exact (hpost t (by simp)).ne'
        simp [hnode, hne]
  · rw [searchElement,
      hshape.descend_top hpre (le_of_present hkey hpost),
      Option.bind_eq_bind, Option.bind_some, hshape.forward_zero,
      getElem?_present hm hkey]
    obtain ⟨node, hnode, hnkey, hvalue⟩ := hshape.key_eq (t := t) (by simp)
    simp [hnode, hnkey, hkey, hvalue]

/-! ## Insertion -/

omit [LinearOrder K] in
theorem getRandomLevel_le (s : SkipList K V) (flips : ℕ) :
    s.getRandomLevel flips ≤ s.maxLevel := by
  unfold getRandomLevel
  dsimp only
  split <;> omega

theorem Shape.nodup_level (h : Shape s towers) {i : ℕ} :
    (s.header :: atLevel i towers).Nodup :=
  h.nodup.sublist (atLevel_sublist.cons_cons _)

theorem Shape.before_notMem (h : Shape s (pre ++ post)) {i : ℕ} :
    before s pre i ∉ (s.header :: atLevel i pre).dropLast ++ atLevel i post := by
  have hnodup := h.nodup_level (i := i)
  rw [level_split] at hnodup
  exact (List.nodup_middle.mp hnodup).notMem

theorem Shape.before_lt (h : Shape s (pre ++ post)) {i : ℕ} :
    before s pre i < s.free := by
  apply h.addr_lt
  rw [List.map_append, ← List.cons_append]
  exact List.mem_append_left _
    ((atLevel_sublist.cons_cons s.header).subset before_mem)

theorem Shape.level_lt (h : Shape s (pre ++ post)) {i a : ℕ}
    (ha : a ∈ (s.header :: atLevel i pre).dropLast ++ atLevel i post) :
    a < s.free := by
  apply h.addr_lt
  have hmem : a ∈ s.header :: atLevel i (pre ++ post) := by
    rw [level_split]
    rcases List.mem_append.mp ha with ha | ha
    · exact List.mem_append_left _ ha
    · exact List.mem_append_right _ (List.mem_cons_of_mem _ ha)
  exact (atLevel_sublist.cons_cons s.header).subset hmem

/-- Level `i` after the new tower has been linked in. -/
theorem Shape.linked_insert (h : Shape s (pre ++ post)) {i : ℕ}
    (hi : i ≤ s.maxLevel) (ht : t.addr = s.free)
    {base memory : ℕ → Option (Node K V)}
    (hbase : ∀ b, b ≠ t.addr → forward base b i = forward s.memory b i)
    (hlinks : ∀ b, forward memory b i =
      if i ∈ List.range (t.level + 1) ∧ b = before s pre i then
        some (some t.addr)
      else if i ∈ List.range (t.level + 1) ∧ b = t.addr then
        forward base (before s pre i) i
      else forward base b i) :
    Linked (forward memory · i) (s.header :: atLevel i (pre ++ t :: post)) := by
  have hold := h.linked i hi
  have hnew : before s pre i ≠ t.addr := by
    have := h.before_lt (i := i)
    omega
  have hother : ∀ z ∈ (s.header :: atLevel i pre).dropLast ++ atLevel i post,
      forward memory z i = forward s.memory z i := by
    intro z hz
    have hne : z ≠ before s pre i := fun heq => h.before_notMem (heq ▸ hz)
    have hnew : z ≠ t.addr := by
      have := h.level_lt hz
      omega
    rw [hlinks, if_neg (fun hand => hne hand.2),
      if_neg (fun hand => hnew hand.2), hbase z hnew]
  rw [level_split] at hold ⊢
  by_cases hle : i ≤ t.level
  · have hmem : i ∈ List.range (t.level + 1) := List.mem_range.mpr (by omega)
    rw [atLevel_cons_of_le hle]
    apply hold.insert
    · rw [hlinks, if_pos ⟨hmem, rfl⟩]
    · rw [hlinks, if_neg (fun hand => hnew hand.2.symm), if_pos ⟨hmem, rfl⟩,
        hbase _ hnew]
    · exact fun z hz => hother z (List.mem_append_left _ hz)
    · exact fun z hz => hother z (List.mem_append_right _ hz)
  · have hmem : i ∉ List.range (t.level + 1) := by
      rw [List.mem_range]
      omega
    rw [atLevel_cons_of_lt (by omega)]
    apply hold.congr
    intro z hz
    rcases List.mem_append.mp hz with hz | hz
    · exact hother z (List.mem_append_left _ hz)
    · rcases List.mem_cons.mp hz with rfl | hz
      · rw [hlinks, if_neg (fun hand => hmem hand.1),
          if_neg (fun hand => hmem hand.1), hbase _ hnew]
      · exact hother z (List.mem_append_right _ hz)

theorem Shape.update_eq (h : Shape s (pre ++ post)) {level : ℕ}
    {update update' : List (Option ℕ)}
    (hupdate : ∀ j ≤ s.skipListLevel,
      update[j]? = some (some (before s pre j)))
    (hraise : ∀ j, update'[j]? =
      if j ∈ List.range' (s.skipListLevel + 1) (level - s.skipListLevel) then
        some (some s.header)
      else update[j]?) :
    ∀ j ≤ level, update'[j]? = some (some (before s pre j)) := by
  intro j hj
  rw [hraise]
  by_cases hle : j ≤ s.skipListLevel
  · have hnot : j ∉
        List.range' (s.skipListLevel + 1) (level - s.skipListLevel) := by
      rw [List.mem_range'_1]
      omega
    rw [if_neg hnot, hupdate j hle]
  · have hmem : j ∈
        List.range' (s.skipListLevel + 1) (level - s.skipListLevel) := by
      rw [List.mem_range'_1]
      omega
    rw [if_pos hmem, before_of_nil]
    apply atLevel_eq_nil
    intro t ht
    have := h.level_le t (List.mem_append_left _ ht)
    omega

/-- The new node is linked in behind `pre` on all its levels. -/
theorem Shape.insert (h : Shape s (pre ++ post)) (value : V) {level : ℕ}
    (hpre : ∀ t ∈ pre, t.key < key) (hpost : ∀ t ∈ post, key < t.key)
    (hlevel : level ≤ s.maxLevel) {update : List (Option ℕ)}
    (hupdate : ∀ j ≤ level, update[j]? = some (some (before s pre j))) :
    ∃ memory, link update s.free (List.range (level + 1))
        (Function.update s.memory s.free
          (some (Node.new key value level))) = some memory ∧
      Shape { s with
        skipListLevel :=
          if s.skipListLevel < level then level else s.skipListLevel
        elementCount := s.elementCount + 1
        memory := memory
        free := s.free + 1 }
        (pre ++ ⟨s.free, key, value, level⟩ :: post) := by
  have hbase : ∀ b i, b ≠ s.free → forward (Function.update s.memory s.free
      (some (Node.new key value level))) b i = forward s.memory b i :=
    fun b i hb => forward_update_of_ne hb
  have hne : ∀ i, before s pre i ≠ s.free := fun i => h.before_lt.ne
  have hnew : ∀ i ∈ List.range (level + 1), ∃ p,
      forward (Function.update s.memory s.free
        (some (Node.new key value level))) s.free i = some p := by
    intro i hi
    rw [List.mem_range] at hi
    refine ⟨none, ?_⟩
    simp [forward, Node.new, hi]
  have hold : ∀ i ∈ List.range (level + 1), ∃ p,
      forward (Function.update s.memory s.free
        (some (Node.new key value level))) (before s pre i) i = some p := by
    intro i hi
    rw [List.mem_range] at hi
    rw [hbase _ _ (hne i)]
    exact ⟨_, h.forward_before (by omega)⟩
  obtain ⟨memory, hlink, hsame, hlinks⟩ := link_spec List.nodup_range
    (fun i hi => ⟨hupdate i (by rw [List.mem_range] at hi; omega), hne i⟩)
    hnew hold
  refine ⟨memory, hlink, ?_⟩
  constructor
  case node =>
    intro t ht
    rw [List.mem_append, List.mem_cons] at ht
    rw [hsame]
    by_cases heq : t = ⟨s.free, key, value, level⟩
    · subst heq
      simp [label, Node.new, Tower.label]
    · have hmem : t ∈ pre ++ post := by
        rw [List.mem_append]
        tauto
      have hlt : t.addr < s.free := h.addr_lt
        (List.mem_cons_of_mem _ (List.mem_map_of_mem hmem))
      rw [label_update_of_ne hlt.ne]
      exact h.node t hmem
  case ascending =>
    have hasc := h.ascending
    rw [List.map_append] at hasc
    rw [List.map_append, List.map_cons]
    apply hasc.insert
    · intro a ha
      obtain ⟨t, ht, rfl⟩ := List.mem_map.mp ha
      exact hpre t ht
    · intro a ha
      obtain ⟨t, ht, rfl⟩ := List.mem_map.mp ha
      exact hpost t ht
  case nodup =>
    rw [List.map_append, List.map_cons, ← List.cons_append,
      List.nodup_middle, List.cons_append, ← List.map_append]
    refine List.nodup_cons.mpr ⟨?_, h.nodup⟩
    intro hmem
    exact lt_irrefl _ (h.addr_lt hmem)
  case level_le =>
    intro t ht
    rw [List.mem_append, List.mem_cons] at ht
    have hold : t ∈ pre ++ post → t.level ≤ s.skipListLevel := h.level_le t
    rw [List.mem_append] at hold
    dsimp only
    rcases ht with ht | rfl | ht
    · have := hold (.inl ht)
      split <;> omega
    · dsimp only
      split <;> omega
    · have := hold (.inr ht)
      split <;> omega
  case top_le =>
    have := h.top_le
    dsimp only
    split <;> omega
  case linked =>
    intro i hi
    exact h.linked_insert hi rfl (fun b hb => hbase b i hb)
      (fun b => hlinks b i)
  case count =>
    have hcount := h.count
    simp only [List.length_append, List.length_cons] at hcount ⊢
    push_cast at hcount ⊢
    omega
  case fresh =>
    intro a ha
    have hlabel := hsame a
    have hfree : s.free ≤ a := by
      dsimp only at ha
      omega
    rw [label_update_of_ne (by dsimp only at ha; omega), h.fresh a hfree] at hlabel
    simpa using hlabel
  case room =>
    have hroom := h.room
    simp only [List.length_append, List.length_cons] at hroom ⊢
    omega

theorem insert_spec
    (h : Refines maxLevel s m) (key : K) (value : V) (flips : ℕ) :
    ∃ s' r, s.insertElementLocked key value flips = some (s', r) ∧
      Refines maxLevel s' (m.insertIfNew key value) := by
  obtain ⟨towers, hshape, hmax, hm⟩ := h
  obtain ⟨pre, post, hpre, hpost, rfl | ⟨t, hkey, rfl⟩⟩ := hshape.cut key
  · obtain ⟨update, hdescend, hlength, hupdate⟩ :=
      hshape.descendUpdate_top hpre (fun t ht => (hpost t ht).le)
    have hholds : holdsKey s.memory key (post.head?.map (·.addr)) =
        some false := by
      cases post with
      | nil => rfl
      | cons t post =>
          obtain ⟨node, hnode, hnkey, -⟩ := hshape.key_eq (t := t) (by simp)
          have hne : node.key ≠ key := by
            rw [hnkey]
            exact (hpost t (by simp)).ne'
          simp [holdsKey, hnode, hne]
    have hlevel := s.getRandomLevel_le flips
    have hrange : ∀ i ∈ List.range' (s.skipListLevel + 1)
        (s.getRandomLevel flips - s.skipListLevel), i < update.length := by
      intro i hi
      rw [List.mem_range'_1] at hi
      omega
    obtain ⟨update', hraise, -, hraised⟩ := s.raise_spec hrange
    obtain ⟨memory, hlink, hshape'⟩ := hshape.insert value hpre hpost hlevel
      (hshape.update_eq hupdate hraised)
    refine ⟨_, 0, ?_, _, hshape', hmax, ?_⟩
    · simp [insertElementLocked, hdescend, hshape.forward_zero, hholds, hraise,
        hlink]
    · rw [OrderedMap.insertIfNew_of_none (getElem?_absent hm hpre hpost)]
      rw [List.map_append] at hm
      rw [List.map_append, List.map_cons]
      apply OrderedMap.toList_insert hm
      · intro a ha
        obtain ⟨t, ht, rfl⟩ := List.mem_map.mp ha
        exact hpre t ht
      · intro a ha
        obtain ⟨t, ht, rfl⟩ := List.mem_map.mp ha
        exact hpost t ht
  · obtain ⟨update, hdescend, -, -⟩ :=
      hshape.descendUpdate_top hpre (le_of_present hkey hpost)
    obtain ⟨node, hnode, hnkey, -⟩ := hshape.key_eq (t := t) (by simp)
    refine ⟨s, 1, ?_, _, hshape, hmax, ?_⟩
    · simp [insertElementLocked, hdescend, hshape.forward_zero, holdsKey,
        hnode, hnkey, hkey]
    · rw [OrderedMap.insertIfNew_of_some (getElem?_present hm hkey), hm]

/-! ## Deletion -/

/-- The tower behind `pre` links to the next node of each of its levels. -/
theorem Shape.forward_tower (h : Shape s (pre ++ t :: post)) {i : ℕ}
    (hi : i ≤ t.level) (hmax : i ≤ s.maxLevel) :
    forward s.memory t.addr i = some (atLevel i post).head? := by
  have hlinked := h.linked i hmax
  rw [level_split, atLevel_cons_of_le hi, List.append_cons] at hlinked
  exact hlinked.next_eq

theorem Shape.addr_notMem (h : Shape s (pre ++ t :: post)) :
    t.addr ∉ s.header :: (pre ++ post).map (·.addr) := by
  have hnodup := h.nodup
  rw [List.map_append, List.map_cons, ← List.cons_append,
    List.nodup_middle] at hnodup
  rw [List.map_append, ← List.cons_append]
  exact hnodup.notMem

theorem Shape.before_ne (h : Shape s (pre ++ t :: post)) (i : ℕ) :
    before s pre i ≠ t.addr := by
  intro heq
  have hbefore : before s pre i ∈ s.header :: atLevel i pre := before_mem
  have hmem := (atLevel_sublist.cons_cons s.header).subset hbefore
  apply h.addr_notMem
  rw [List.map_append, ← List.cons_append, ← heq]
  exact List.mem_append_left _ hmem

omit [LinearOrder K] in
theorem lowerLevel_spec {memory : ℕ → Option (Node K V)} {header level : ℕ}
    (hlinks : ∀ i ≤ level,
      forward memory header i = some (atLevel i towers).head?)
    (hlevel : ∀ t ∈ towers, t.level ≤ level) :
    ∃ level' ≤ level, lowerLevel memory header level = some level' ∧
      ∀ t ∈ towers, t.level ≤ level' := by
  induction level with
  | zero => exact ⟨0, le_rfl, rfl, hlevel⟩
  | succ level ih =>
      have hlink := hlinks (level + 1) le_rfl
      by_cases hnil : atLevel (level + 1) towers = []
      · have hlower : ∀ t ∈ towers, t.level ≤ level := by
          intro t ht
          by_contra hlt
          have hmem : t.addr ∈ atLevel (level + 1) towers :=
            mem_atLevel.mpr ⟨t, ht, by omega, rfl⟩
          rw [hnil] at hmem
          exact List.not_mem_nil hmem
        obtain ⟨level', hle, heq, hall⟩ :=
          ih (fun i hi => hlinks i (by omega)) hlower
        refine ⟨level', by omega, ?_, hall⟩
        simp [lowerLevel, hlink, hnil, heq]
      · refine ⟨level + 1, le_rfl, ?_, hlevel⟩
        simp [lowerLevel, hlink, hnil]

/-- Level `i` after the tower has been unlinked. -/
theorem Shape.linked_remove (h : Shape s (pre ++ t :: post)) {i : ℕ}
    (hi : i ≤ s.maxLevel) {memory : ℕ → Option (Node K V)}
    (hlinks : ∀ b, forward memory b i =
      if i ∈ List.range (t.level + 1) ∧ b = before s pre i then
        forward s.memory t.addr i
      else forward s.memory b i) :
    Linked (forward memory · i) (s.header :: atLevel i (pre ++ post)) := by
  have hold := h.linked i hi
  have hother : ∀ z ∈ (s.header :: atLevel i pre).dropLast ++
      atLevel i (t :: post), forward memory z i = forward s.memory z i := by
    intro z hz
    have hne : z ≠ before s pre i := fun heq => h.before_notMem (heq ▸ hz)
    rw [hlinks, if_neg (fun hand => hne hand.2)]
  rw [level_split] at hold ⊢
  by_cases hle : i ≤ t.level
  · have hmem : i ∈ List.range (t.level + 1) := List.mem_range.mpr (by omega)
    rw [atLevel_cons_of_le hle] at hold hother
    apply hold.remove
    · rw [hlinks, if_pos ⟨hmem, rfl⟩]
    · exact fun z hz => hother z (List.mem_append_left _ hz)
    · exact fun z hz => hother z
        (List.mem_append_right _ (List.mem_cons_of_mem _ hz))
  · have hmem : i ∉ List.range (t.level + 1) := by
      rw [List.mem_range]
      omega
    rw [atLevel_cons_of_lt (by omega)] at hold
    apply hold.congr
    intro z _
    rw [hlinks, if_neg (fun hand => hmem hand.1)]

theorem Shape.delete (h : Shape s (pre ++ t :: post))
    {update : List (Option ℕ)} (hupdate : ∀ j ≤ s.skipListLevel,
      update[j]? = some (some (before s pre j))) :
    ∃ memory level memory',
      unlink update t.addr (List.range (s.skipListLevel + 1)) s.memory =
        some memory ∧
      lowerLevel memory s.header s.skipListLevel = some level ∧
      delete memory t.addr = some memory' ∧
      Shape { s with
        skipListLevel := level
        elementCount := s.elementCount - 1
        memory := memory' } (pre ++ post) := by
  have htop := h.top_le
  have hlevel := h.level_le t (by simp)
  have hrange : List.range (s.skipListLevel + 1) = List.range (t.level + 1) ++
      List.range' (t.level + 1) (s.skipListLevel - t.level) := by
    have hlen : s.skipListLevel + 1 =
        t.level + 1 + (s.skipListLevel - t.level) := by omega
    have happend := List.range'_append_1 (s := 0) (m := t.level + 1)
      (n := s.skipListLevel - t.level)
    rw [List.range_eq_range', List.range_eq_range', hlen, ← happend,
      Nat.zero_add]
  have hnodup : (List.range (t.level + 1) ++
      List.range' (t.level + 1) (s.skipListLevel - t.level)).Nodup := by
    rw [← hrange]
    exact List.nodup_range
  have hprev : ∀ i ∈ List.range (t.level + 1),
      forward s.memory (before s pre i) i = some (some t.addr) ∧
        before s pre i ≠ t.addr := by
    intro i hi
    rw [List.mem_range] at hi
    refine ⟨?_, h.before_ne i⟩
    rw [h.forward_before (by omega), atLevel_cons_of_le (by omega)]
    rfl
  have hcurrent : ∀ i ∈ List.range (t.level + 1),
      ∃ p, forward s.memory t.addr i = some p := by
    intro i hi
    rw [List.mem_range] at hi
    exact ⟨_, h.forward_tower (by omega) (by omega)⟩
  have hrest : ∀ i ∈ List.range' (t.level + 1) (s.skipListLevel - t.level),
      ∃ p, forward s.memory (before s pre i) i = some p ∧
        p ≠ some t.addr := by
    intro i hi
    rw [List.mem_range'_1] at hi
    refine ⟨_, h.forward_before (by omega), ?_⟩
    rw [atLevel_cons_of_lt (by omega)]
    intro heq
    have hmem := atLevel_sublist.subset (List.mem_of_mem_head? heq)
    apply h.addr_notMem
    rw [List.map_append]
    exact List.mem_cons_of_mem _ (List.mem_append_right _ hmem)
  have hall : ∀ i ∈ List.range (t.level + 1) ++
      List.range' (t.level + 1) (s.skipListLevel - t.level),
      update[i]? = some (some (before s pre i)) := by
    intro i hi
    rw [← hrange, List.mem_range] at hi
    exact hupdate i (by omega)
  obtain ⟨memory, hunlink, hsame, hlinks⟩ :=
    unlink_spec hnodup hall hprev hcurrent hrest
  have hlinked : ∀ i ≤ s.maxLevel,
      Linked (forward memory · i) (s.header :: atLevel i (pre ++ post)) :=
    fun i hi => h.linked_remove hi (fun b => hlinks b i)
  obtain ⟨level, hle, hlower, hlevels⟩ := lowerLevel_spec
    (fun i hi => (hlinked i (by omega)).1)
    (fun t' ht' => h.level_le t' (by
      rw [List.mem_append] at ht'
      rw [List.mem_append, List.mem_cons]
      tauto))
  obtain ⟨node, hnode, -⟩ := Option.map_eq_some_iff.mp
    ((hsame t.addr).trans (h.node t (by simp)))
  refine ⟨memory, level, Function.update memory t.addr none, ?_, hlower, ?_,
    ?_⟩
  · rw [hrange]
    exact hunlink
  · simp [SkipList.delete, hnode]
  have hkeep : ∀ a ∈ s.header :: (pre ++ post).map (·.addr), a ≠ t.addr :=
    fun a ha heq => h.addr_notMem (heq ▸ ha)
  constructor
  case node =>
    intro t' ht'
    rw [label_update_of_ne
      (hkeep _ (List.mem_cons_of_mem _ (List.mem_map_of_mem ht'))), hsame]
    apply h.node
    rw [List.mem_append] at ht'
    rw [List.mem_append, List.mem_cons]
    tauto
  case ascending =>
    have hasc := h.ascending
    rw [List.map_append, List.map_cons] at hasc
    rw [List.map_append]
    exact hasc.remove
  case nodup =>
    have hsub : (pre ++ post).Sublist (pre ++ t :: post) :=
      (List.sublist_cons_self t post).append_left pre
    exact List.Nodup.sublist ((hsub.map (·.addr)).cons_cons s.header) h.nodup
  case level_le => exact hlevels
  case top_le => exact hle.trans htop
  case linked =>
    intro i hi
    apply (hlinked i hi).congr
    intro z hz
    apply forward_update_of_ne
    exact hkeep z ((atLevel_sublist.cons_cons s.header).subset hz)
  case count =>
    have hcount := h.count
    simp only [List.length_append, List.length_cons] at hcount ⊢
    push_cast at hcount ⊢
    omega
  case fresh =>
    intro a ha
    have hlabel := hsame a
    rw [h.fresh a ha] at hlabel
    have hnone : memory a = none := by simpa using hlabel
    dsimp only
    rw [Function.update_apply, hnone]
    exact ite_self _
  case room =>
    have hroom := h.room
    simp only [List.length_append, List.length_cons] at hroom ⊢
    omega

theorem delete_spec (h : Refines maxLevel s m) (key : K) :
    ∃ s' b, s.deleteElementLocked key = some (s', b) ∧
      Refines maxLevel s' (m.erase key) := by
  obtain ⟨towers, hshape, hmax, hm⟩ := h
  obtain ⟨pre, post, hpre, hpost, rfl | ⟨t, hkey, rfl⟩⟩ := hshape.cut key
  · obtain ⟨update, hdescend, -, -⟩ :=
      hshape.descendUpdate_top hpre (fun t ht => (hpost t ht).le)
    refine ⟨s, false, ?_, _, hshape, hmax, ?_⟩
    · cases post with
      | nil => simp [deleteElementLocked, hdescend, hshape.forward_zero]
      | cons t post =>
          obtain ⟨node, hnode, hnkey, -⟩ := hshape.key_eq (t := t) (by simp)
          have hne : node.key ≠ key := by
            rw [hnkey]
            exact (hpost t (by simp)).ne'
          simp [deleteElementLocked, hdescend, hshape.forward_zero, hnode, hne]
    · rw [OrderedMap.erase_eq_self (getElem?_absent hm hpre hpost), hm]
  · obtain ⟨update, hdescend, -, hupdate⟩ :=
      hshape.descendUpdate_top hpre (le_of_present hkey hpost)
    obtain ⟨memory, level, memory', hunlink, hlower, hdelete, hshape'⟩ :=
      hshape.delete hupdate
    obtain ⟨node, hnode, hnkey, -⟩ := hshape.key_eq (t := t) (by simp)
    refine ⟨_, true, ?_, _, hshape', hmax, ?_⟩
    · simp [deleteElementLocked, hdescend, hshape.forward_zero, hnode, hnkey,
        hkey, hunlink, hlower, hdelete]
    · rw [List.map_append, List.map_cons] at hm
      rw [List.map_append, ← hkey]
      exact OrderedMap.toList_erase hm

/-- Deleting and inserting overwrites. -/
theorem insertSet_spec
    (h : Refines maxLevel s m) (key : K) (value : V) (flips : ℕ) :
    ∃ s', s.insertSetElement key value flips = some s' ∧
      Refines maxLevel s' (m.insert key value) := by
  obtain ⟨s₁, b, hdelete, href⟩ := delete_spec h key
  obtain ⟨s', r, hinsert, href'⟩ := insert_spec href key value flips
  have hnone : (m.erase key)[key]? = none := by simp
  rw [OrderedMap.insertIfNew_of_none hnone, OrderedMap.insert_erase] at href'
  refine ⟨s', ?_, href'⟩
  simp [insertSetElement, hdelete, hinsert]

/-! ## Dumps -/

theorem Shape.chain_eq (h : Shape s towers) {i : ℕ} (hi : i ≤ s.maxLevel) :
    s.chain i = some (atLevel i towers) := by
  have hlinked : Linked (forward s.memory · i)
      ([s.header] ++ atLevel i towers) := h.linked i hi
  have hlength : (atLevel i towers).length ≤ s.free := by
    have hsub : (atLevel i towers).Sublist (towers.map (·.addr)) :=
      atLevel_sublist
    have hle := hsub.length_le
    have hroom := h.room
    rw [List.length_map] at hle
    omega
  have hfirst : forward s.memory s.header i =
      some (atLevel i towers).head? := hlinked.1
  rw [chain, hfirst, Option.bind_eq_bind, Option.bind_some,
    collect_eq hlinked hlength]

theorem Shape.mapM_memory (h : Shape s towers) :
    ∃ nodes, (towers.map (·.addr)).mapM s.memory = some nodes ∧
      nodes.map (·.key) = towers.map (·.key) ∧
      nodes.map (·.value) = towers.map (·.value) := by
  have hnode : ∀ t ∈ towers, ∃ node, s.memory t.addr = some node ∧
      node.key = t.key ∧ node.value = t.value := fun t ht => h.key_eq ht
  clear h
  induction towers with
  | nil => exact ⟨[], rfl, rfl, rfl⟩
  | cons t towers ih =>
      obtain ⟨node, hn, hkey, hvalue⟩ := hnode t (by simp)
      obtain ⟨nodes, hnodes, hkeys, hvalues⟩ :=
        ih (fun t' ht' => hnode t' (List.mem_cons_of_mem _ ht'))
      refine ⟨node :: nodes, ?_, ?_, ?_⟩
      · simp [hn, hnodes]
      · rw [List.map_cons, List.map_cons, hkey, hkeys]
      · rw [List.map_cons, List.map_cons, hvalue, hvalues]

theorem dump_spec (h : Refines maxLevel s m) :
    s.dumpFile = some (SkipListDump.ofEntries m.toList) := by
  obtain ⟨towers, hshape, -, hm⟩ := h
  obtain ⟨nodes, hnodes, hkeys, hvalues⟩ := hshape.mapM_memory
  rw [dumpFile, hshape.chain_eq (Nat.zero_le _), atLevel_zero]
  simp [hnodes, hkeys, hvalues, SkipListDump.ofEntries, hm, Tower.entry]

theorem insertDump_spec (flips : ℕ → ℕ) (first rest : List (K × V))
    (h : Refines maxLevel s m) :
    ∃ s', insertDump (SkipListDump.ofEntries (first ++ rest)) flips
        (List.range' first.length rest.length) s = some s' ∧
      Refines maxLevel s'
        (rest.foldl (fun m e => m.insertIfNew e.1 e.2) m) := by
  induction rest generalizing first s m with
  | nil => exact ⟨s, rfl, h⟩
  | cons e rest ih =>
      obtain ⟨s₁, r, hinsert, href⟩ :=
        insert_spec h e.1 e.2 (flips first.length)
      obtain ⟨s', hdump, href'⟩ := ih (first ++ [e]) href
      refine ⟨s', ?_, href'⟩
      have hkey : (SkipListDump.ofEntries (first ++ e :: rest)).keyDumpVt[
          first.length]? = some e.1 := by
        simp [SkipListDump.ofEntries]
      have hvalue : (SkipListDump.ofEntries (first ++ e :: rest)).valDumpVt[
          first.length]? = some e.2 := by
        simp [SkipListDump.ofEntries]
      rw [List.append_assoc, List.singleton_append, List.length_append,
        List.length_singleton] at hdump
      rw [List.length_cons, List.range'_succ, insertDump]
      simp [hkey, hvalue, hinsert, hdump]

theorem Shape.clearNodes_spec (h : Shape s towers) :
    ∃ memory, s.clearNodes = some memory ∧
      ∀ b, memory b =
        if b ∈ towers.map (·.addr) then none else s.memory b := by
  have hlinked := h.linked 0 (Nat.zero_le _)
  rw [atLevel_zero] at hlinked
  have hfirst : forward s.memory s.header 0 =
      some (towers.map (·.addr)).head? := hlinked.1
  cases towers with
  | nil => exact ⟨s.memory, by simp [clearNodes, hfirst], by simp⟩
  | cons t towers =>
      have hcells : Linked (forward s.memory · 0)
          ([s.header] ++ t.addr :: towers.map (·.addr)) := hlinked
      have hroom := h.room
      rw [List.length_cons] at hroom
      obtain ⟨memory, hclear, hmemory⟩ := clear_spec hcells h.nodup.of_cons
        (show (towers.map (·.addr)).length < s.free by
          rw [List.length_map]
          omega)
      refine ⟨memory, ?_, hmemory⟩
      simp [clearNodes, hfirst, hclear]

/-- The list after the loops of `load_file` that empty it. -/
theorem Shape.emptied (h : Shape s towers) :
    ∃ memory memory', s.clearNodes = some memory ∧
      resetHeader s.header (List.range (s.maxLevel + 1)) memory =
        some memory' ∧
      Shape { s with skipListLevel := 0, elementCount := 0, memory := memory' }
        [] := by
  obtain ⟨memory, hclear, hmemory⟩ := h.clearNodes_spec
  have hheader : ∀ i ∈ List.range (s.maxLevel + 1),
      ∃ p, forward memory s.header i = some p := by
    intro i hi
    rw [List.mem_range] at hi
    refine ⟨_, Eq.trans ?_ (h.linked i (by omega)).1⟩
    rw [forward, hmemory, if_neg h.nodup.notMem]
    rfl
  obtain ⟨memory', hreset, hsame, hlinks⟩ := resetHeader_spec hheader
  refine ⟨memory, memory', hclear, hreset, ?_⟩
  constructor
  case node => simp
  case ascending => exact List.Pairwise.nil
  case nodup => simp
  case level_le => simp
  case top_le => exact Nat.zero_le _
  case linked =>
    intro i hi
    refine ⟨?_, trivial⟩
    dsimp only at hi ⊢
    rw [hlinks, if_pos ⟨rfl, List.mem_range.mpr (by omega)⟩]
    rfl
  case count => rfl
  case fresh =>
    intro a ha
    have hlabel := hsame a
    rw [hmemory, h.fresh a ha, ite_self] at hlabel
    simpa using hlabel
  case room =>
    have hroom := h.room
    dsimp only [List.length_nil]
    omega

/-- Loading inserts the entries of the dump into an empty list. -/
theorem loadFile_spec (h : Refines maxLevel s m) (entries : List (K × V))
    (flips : ℕ → ℕ) :
    ∃ s', s.loadFile (some (SkipListDump.ofEntries entries)) flips = some s' ∧
      Refines maxLevel s'
        (entries.foldl (fun m e => m.insertIfNew e.1 e.2) ∅) := by
  obtain ⟨towers, hshape, hmax, hm⟩ := h
  obtain ⟨memory, memory', hclear, hreset, hempty⟩ := hshape.emptied
  have href : Refines maxLevel { s with
      skipListLevel := 0, elementCount := 0, memory := memory' } ∅ :=
    ⟨[], hempty, hmax, by simp⟩
  obtain ⟨s', hdump, href'⟩ := insertDump_spec flips [] entries href
  refine ⟨s', ?_, href'⟩
  rw [List.nil_append, List.length_nil, ← List.range_eq_range'] at hdump
  have hlength : (SkipListDump.ofEntries entries).keyDumpVt.length =
      entries.length := by
    simp [SkipListDump.ofEntries]
  simp [loadFile, hclear, hreset, hlength, hdump]

end Map

/-! ## Sequences of operations -/

/-- The node in the cell has at least level `i`. -/
def reaches (s : SkipList K V) (i a : ℕ) : Bool :=
  match s.memory a with
  | none => false
  | some node => i ≤ node.nodeLevel

/-- The chains of the list: level 0 is ascending, and level `i` links exactly
its nodes of level at least `i`. -/
structure Layered (s : SkipList K V) (nodes : List ℕ) : Prop where
  ascending : nodes.Pairwise fun a b => ∃ n n', s.memory a = some n ∧
    s.memory b = some n' ∧ n.key < n'.key
  chain : ∀ i ≤ s.maxLevel, s.chain i = some (nodes.filter (s.reaches i))
  bottom : s.chain 0 = some nodes
  above : ∀ i, s.skipListLevel < i → i ≤ s.maxLevel →
    forward s.memory s.header i = some none
  count : s.elementCount = nodes.length

/-- Every function that reads the list answers like the map. -/
structure Agrees (s : SkipList K V) (m : Std.ExtTreeMap K V) : Prop where
  search : ∀ key, s.searchElement key = some m[key]?
  size : s.size = m.size
  dump : s.dumpFile = some (.ofEntries m.toList)

/-- The operations with the outcomes of `std::rand`.  The dump that is loaded
is that of a list which stands for the given map. -/
inductive Op (K V : Type) [LinearOrder K] where
  | insertElement (key : K) (value : V) (flips : ℕ)
  | insertSetElement (key : K) (value : V) (flips : ℕ)
  | deleteElement (key : K)
  | searchElement (key : K)
  | loadFile (list : Std.ExtTreeMap K V) (flips : ℕ → ℕ)

def exec (s : SkipList K V) : Op K V → Option (SkipList K V)
  | .insertElement key value flips => do
      some (← s.insertElement key value flips).1
  | .insertSetElement key value flips => s.insertSetElement key value flips
  | .deleteElement key => s.deleteElement key
  | .searchElement key => do
      let _ ← s.searchElement key
      some s
  | .loadFile list flips => s.loadFile (some (.ofEntries list.toList)) flips

/-- The same operation on a map. -/
def Op.apply (m : Std.ExtTreeMap K V) : Op K V → Std.ExtTreeMap K V
  | .insertElement key value _ => m.insertIfNew key value
  | .insertSetElement key value _ => m.insert key value
  | .deleteElement key => m.erase key
  | .searchElement _ => m
  | .loadFile list _ => list

section Runs

variable {s : SkipList K V} {m : Std.ExtTreeMap K V} {maxLevel : ℕ}
  {towers : List (Tower K V)}

theorem Shape.reaches_eq (h : Shape s towers) {t : Tower K V}
    (ht : t ∈ towers) (i : ℕ) : s.reaches i t.addr = decide (i ≤ t.level) := by
  obtain ⟨node, hnode, hlabel⟩ := Option.map_eq_some_iff.mp (h.node t ht)
  have hlevel : node.nodeLevel = t.level := congrArg (fun l => l.2.2) hlabel
  simp [reaches, hnode, hlevel]

theorem Shape.layered (h : Shape s towers) :
    Layered s (towers.map (·.addr)) := by
  constructor
  case ascending =>
    rw [List.pairwise_map]
    have hasc := h.ascending
    rw [OrderedMap.Ascending, List.pairwise_map] at hasc
    refine List.Pairwise.imp_of_mem ?_ hasc
    intro t t' ht ht' hlt
    obtain ⟨n, hn, hkey, -⟩ := h.key_eq ht
    obtain ⟨n', hn', hkey', -⟩ := h.key_eq ht'
    refine ⟨n, n', hn, hn', ?_⟩
    rw [hkey, hkey']
    exact hlt
  case chain =>
    intro i hi
    rw [h.chain_eq hi, List.filter_map, atLevel]
    congr 2
    apply List.filter_congr
    intro t ht
    exact (h.reaches_eq ht i).symm
  case bottom => rw [h.chain_eq (Nat.zero_le _), atLevel_zero]
  case above =>
    intro i hlt hi
    have hnil : atLevel i towers = [] :=
      atLevel_eq_nil fun t ht => (h.level_le t ht).trans_lt hlt
    have hlinked := (h.linked i hi).1
    rw [hnil] at hlinked
    exact hlinked
  case count => rw [h.count, List.length_map]

theorem Refines.agrees (h : Refines maxLevel s m) : Agrees s m := by
  refine ⟨search_spec h, ?_, dump_spec h⟩
  obtain ⟨towers, hshape, -, hm⟩ := h
  rw [size, hshape.count, ← Std.ExtTreeMap.length_toList, hm, List.length_map]

theorem new_refines [Inhabited K] [Inhabited V] (maxLevel : ℕ) :
    Refines maxLevel (new maxLevel : SkipList K V) ∅ := by
  refine ⟨[], ?_, rfl, by simp⟩
  constructor
  case node => simp
  case ascending => exact List.Pairwise.nil
  case nodup => simp
  case level_le => simp
  case top_le => exact Nat.zero_le _
  case linked =>
    intro i hi
    refine ⟨?_, trivial⟩
    have hlt : i < maxLevel + 1 := Nat.lt_succ_of_le hi
    simp [forward, new, Node.new, atLevel, hlt]
  case count => rfl
  case fresh =>
    intro a ha
    have hne : a ≠ 0 := Nat.one_le_iff_ne_zero.mp ha
    simp [new, hne]
  case room => exact Nat.one_pos

theorem exec_refines (h : Refines maxLevel s m) (op : Op K V) :
    ∃ s', s.exec op = some s' ∧ Refines maxLevel s' (op.apply m) := by
  cases op with
  | insertElement key value flips =>
      obtain ⟨s', r, hinsert, href⟩ := insert_spec h key value flips
      exact ⟨s', by simp [exec, insertElement, hinsert], href⟩
  | insertSetElement key value flips => exact insertSet_spec h key value flips
  | deleteElement key =>
      obtain ⟨s', b, hdelete, href⟩ := delete_spec h key
      exact ⟨s', by simp [exec, deleteElement, hdelete], href⟩
  | searchElement key =>
      exact ⟨s, by simp [exec, search_spec h key], h⟩
  | loadFile list flips =>
      obtain ⟨s', hload, href⟩ := loadFile_spec h list.toList flips
      rw [OrderedMap.foldl_insertIfNew_toList] at href
      exact ⟨s', hload, href⟩

theorem run_refines (h : Refines maxLevel s m) (ops : List (Op K V)) :
    ∃ s', ops.foldlM exec s = some s' ∧
      Refines maxLevel s' (ops.foldl Op.apply m) := by
  induction ops generalizing s m with
  | nil => exact ⟨s, rfl, h⟩
  | cons op ops ih =>
      obtain ⟨s₁, hexec, href⟩ := exec_refines h op
      obtain ⟨s', hrun, href'⟩ := ih href
      exact ⟨s', by simp [hexec, hrun], href'⟩

/-- After any operations the skip list is well formed and answers like the map
that the same operations make. -/
theorem refines_map [Inhabited K] [Inhabited V] (maxLevel : ℕ)
    (ops : List (Op K V)) :
    ∃ s nodes, ops.foldlM exec (new maxLevel) = some s ∧
      s.maxLevel = maxLevel ∧ Layered s nodes ∧
      Agrees s (ops.foldl Op.apply ∅) := by
  obtain ⟨s, hrun, href⟩ := run_refines (new_refines maxLevel) ops
  obtain ⟨towers, hshape, hmax, -⟩ := id href
  exact ⟨s, _, hrun, hmax, hshape.layered, href.agrees⟩

end Runs

end SkipList

end KVRaftStorage
