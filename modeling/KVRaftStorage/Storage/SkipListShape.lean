import KVRaftStorage.Storage.SkipList

/-!
# The shape of a skip list

The memory of a skip list holds one list of nodes in ascending order of keys,
and on level `i` the header and the nodes of level at least `i` are linked in
this order.  The file states this as an invariant and gives the effect of the
loops that search, link, unlink and clear nodes on such a memory.
-/

namespace KVRaftStorage

namespace SkipList

variable {K V : Type}

/-! ## Reading and writing the memory -/

section Memory

variable {memory memory' : ℕ → Option (Node K V)} {a b i j : ℕ}

/-- Everything of a node but its links. -/
def label (node : Node K V) : K × V × ℕ :=
  (node.key, node.value, node.nodeLevel)

/-- The memories differ in links only. -/
def SameNodes (memory memory' : ℕ → Option (Node K V)) : Prop :=
  ∀ a, (memory' a).map label = (memory a).map label

theorem SameNodes.trans {memory'' : ℕ → Option (Node K V)}
    (h : SameNodes memory memory') (h' : SameNodes memory' memory'') :
    SameNodes memory memory'' :=
  fun a => (h' a).trans (h a)

theorem setForward_spec {p old : Option ℕ}
    (h : forward memory a i = some old) :
    ∃ memory', setForward memory a i p = some memory' ∧
      SameNodes memory memory' ∧
      ∀ b j, forward memory' b j =
        if b = a ∧ j = i then some p else forward memory b j := by
  obtain ⟨n, hn, hlink⟩ : ∃ n, memory a = some n ∧ n.forward[i]? = some old :=
    Option.bind_eq_some_iff.mp h
  obtain ⟨hi, -⟩ := List.getElem?_eq_some_iff.mp hlink
  refine ⟨Function.update memory a
    (some { n with forward := n.forward.set i p }), ?_, ?_, ?_⟩
  · simp [setForward, hn, hi]
  · intro b
    by_cases hb : b = a
    · subst hb
      simp [hn, label]
    · simp [hb]
  · intro b j
    by_cases hb : b = a
    · subst hb
      by_cases hj : j = i
      · subst hj
        simp [forward, hi]
      · simp [forward, hn, hj, List.getElem?_set_ne (Ne.symm hj)]
    · simp [forward, hb]

theorem forward_update_of_ne {node : Option (Node K V)} (h : b ≠ a) :
    forward (Function.update memory a node) b j = forward memory b j := by
  simp [forward, h]

theorem label_update_of_ne {node : Option (Node K V)} (h : b ≠ a) :
    (Function.update memory a node b).map label = (memory b).map label := by
  simp [h]

end Memory

/-! ## The loops that change links -/

section Loops

variable {update : List (Option ℕ)} {u : ℕ → ℕ} {new current : ℕ}

/-- On each of the levels the new node goes behind `u i`. -/
theorem link_spec {is : List ℕ} (hnodup : is.Nodup)
    {memory : ℕ → Option (Node K V)}
    (hupdate : ∀ i ∈ is, update[i]? = some (some (u i)) ∧ u i ≠ new)
    (hnew : ∀ i ∈ is, ∃ p, forward memory new i = some p)
    (hu : ∀ i ∈ is, ∃ p, forward memory (u i) i = some p) :
    ∃ memory', link update new is memory = some memory' ∧
      SameNodes memory memory' ∧
      ∀ b j, forward memory' b j =
        if j ∈ is ∧ b = u j then some (some new)
        else if j ∈ is ∧ b = new then forward memory (u j) j
        else forward memory b j := by
  induction is generalizing memory with
  | nil => exact ⟨memory, rfl, fun _ => rfl, by simp⟩
  | cons i is ih =>
      rw [List.nodup_cons] at hnodup
      obtain ⟨hi, hne⟩ := hupdate i (by simp)
      obtain ⟨old, hold⟩ := hnew i (by simp)
      obtain ⟨next, hnext⟩ := hu i (by simp)
      obtain ⟨memory₁, hset₁, hsame₁, hlinks₁⟩ :=
        setForward_spec (p := next) hold
      have hprev : forward memory₁ (u i) i = some next := by
        rw [hlinks₁, if_neg (fun h => hne h.1), hnext]
      obtain ⟨memory₂, hset₂, hsame₂, hlinks₂⟩ :=
        setForward_spec (p := some new) hprev
      -- The first level does not touch the links of the others.
      have hframe : ∀ j ∈ is, ∀ b,
          forward memory₂ b j = forward memory b j := by
        intro j hj b
        have hji : j ≠ i := fun heq => hnodup.1 (heq ▸ hj)
        rw [hlinks₂, if_neg (fun h => hji h.2), hlinks₁,
          if_neg (fun h => hji h.2)]
      obtain ⟨memory', hlink, hsame, hlinks⟩ := ih hnodup.2
        (fun j hj => hupdate j (List.mem_cons_of_mem _ hj))
        (fun j hj => by
          rw [hframe j hj]
          exact hnew j (List.mem_cons_of_mem _ hj))
        (fun j hj => by
          rw [hframe j hj]
          exact hu j (List.mem_cons_of_mem _ hj))
      refine ⟨memory', ?_, (hsame₁.trans hsame₂).trans hsame, ?_⟩
      · simp [link, hi, hnext, hset₁, hset₂, hlink]
      · intro b j
        by_cases hj : j ∈ is
        · rw [hlinks, hframe j hj, hframe j hj]
          simp [hj]
        · by_cases hji : j = i
          · subst hji
            rw [hlinks, if_neg (by simp [hj]), if_neg (by simp [hj]), hlinks₂,
              hlinks₁, hnext]
            simp
          · rw [hlinks, if_neg (by simp [hj]), if_neg (by simp [hj]), hlinks₂,
              if_neg (by simp [hji]), hlinks₁, if_neg (by simp [hji])]
            simp [hj, hji]

/-- The node leaves the levels in `is`, and the loop breaks on the first level
behind them. -/
theorem unlink_spec {is rest : List ℕ} (hnodup : (is ++ rest).Nodup)
    {memory : ℕ → Option (Node K V)}
    (hupdate : ∀ i ∈ is ++ rest, update[i]? = some (some (u i)))
    (hu : ∀ i ∈ is, forward memory (u i) i = some (some current) ∧
      u i ≠ current)
    (hcurrent : ∀ i ∈ is, ∃ p, forward memory current i = some p)
    (hrest : ∀ i ∈ rest, ∃ p, forward memory (u i) i = some p ∧
      p ≠ some current) :
    ∃ memory', unlink update current (is ++ rest) memory = some memory' ∧
      SameNodes memory memory' ∧
      ∀ b j, forward memory' b j =
        if j ∈ is ∧ b = u j then forward memory current j
        else forward memory b j := by
  induction is generalizing memory with
  | nil =>
      cases rest with
      | nil => exact ⟨memory, rfl, fun _ => rfl, by simp⟩
      | cons i rest =>
          have hi := hupdate i (by simp)
          obtain ⟨p, hp, hne⟩ := hrest i (by simp)
          refine ⟨memory, ?_, fun _ => rfl, by simp⟩
          simp [unlink, hi, hp, hne]
  | cons i is ih =>
      rw [List.cons_append, List.nodup_cons] at hnodup
      have hi := hupdate i (by simp)
      obtain ⟨hprev, hne⟩ := hu i (by simp)
      obtain ⟨next, hnext⟩ := hcurrent i (by simp)
      obtain ⟨memory₁, hset, hsame₁, hlinks₁⟩ :=
        setForward_spec (p := next) hprev
      have hframe : ∀ j ∈ is ++ rest, ∀ b,
          forward memory₁ b j = forward memory b j := by
        intro j hj b
        have hji : j ≠ i := fun heq => hnodup.1 (heq ▸ hj)
        rw [hlinks₁, if_neg (fun h => hji h.2)]
      obtain ⟨memory', hunlink, hsame, hlinks⟩ := ih hnodup.2
        (fun j hj => hupdate j (List.mem_cons_of_mem _ hj))
        (fun j hj => by
          rw [hframe j (List.mem_append_left _ hj)]
          exact hu j (List.mem_cons_of_mem _ hj))
        (fun j hj => by
          rw [hframe j (List.mem_append_left _ hj)]
          exact hcurrent j (List.mem_cons_of_mem _ hj))
        (fun j hj => by
          rw [hframe j (List.mem_append_right _ hj)]
          exact hrest j hj)
      refine ⟨memory', ?_, hsame₁.trans hsame, ?_⟩
      · simp [unlink, hi, hprev, hnext, hset, hunlink]
      · intro b j
        by_cases hj : j ∈ is
        · have hframe' := hframe j (List.mem_append_left _ hj)
          rw [hlinks, hframe', hframe']
          simp [hj]
        · by_cases hji : j = i
          · subst hji
            rw [hlinks, if_neg (by simp [hj]), hlinks₁, hnext]
            simp
          · rw [hlinks, if_neg (by simp [hj]), hlinks₁,
              if_neg (by simp [hji])]
            simp [hj, hji]

theorem raise_spec (s : SkipList K V) {is : List ℕ}
    {update : List (Option ℕ)} (h : ∀ i ∈ is, i < update.length) :
    ∃ update', s.raise is update = some update' ∧
      update'.length = update.length ∧
      ∀ j, update'[j]? = if j ∈ is then some (some s.header) else update[j]? := by
  induction is generalizing update with
  | nil => exact ⟨update, rfl, rfl, by simp⟩
  | cons i is ih =>
      have hi := h i (by simp)
      have hrest : ∀ j ∈ is, j < (update.set i (some s.header)).length := by
        intro j hj
        rw [List.length_set]
        exact h j (List.mem_cons_of_mem _ hj)
      obtain ⟨update', hraise, hlength, hupdate⟩ := ih hrest
      refine ⟨update', ?_, ?_, ?_⟩
      · simp [raise, setUpdate, hi, hraise]
      · rw [hlength, List.length_set]
      · intro j
        rw [hupdate]
        by_cases hj : j ∈ is
        · simp [hj]
        · by_cases hji : j = i
          · subst hji
            simp [hj, hi]
          · simp [hj, hji, List.getElem?_set_ne (Ne.symm hji)]

theorem resetHeader_spec {header : ℕ} {is : List ℕ}
    {memory : ℕ → Option (Node K V)}
    (h : ∀ i ∈ is, ∃ p, forward memory header i = some p) :
    ∃ memory', resetHeader header is memory = some memory' ∧
      SameNodes memory memory' ∧
      ∀ b j, forward memory' b j =
        if b = header ∧ j ∈ is then some none else forward memory b j := by
  induction is generalizing memory with
  | nil => exact ⟨memory, rfl, fun _ => rfl, by simp⟩
  | cons i is ih =>
      obtain ⟨old, hold⟩ := h i (by simp)
      obtain ⟨memory₁, hset, hsame₁, hlinks₁⟩ :=
        setForward_spec (p := none) hold
      have hrest : ∀ j ∈ is, ∃ p, forward memory₁ header j = some p := by
        intro j hj
        rw [hlinks₁]
        split
        · exact ⟨none, rfl⟩
        · exact h j (List.mem_cons_of_mem _ hj)
      obtain ⟨memory', hreset, hsame, hlinks⟩ := ih hrest
      refine ⟨memory', ?_, hsame₁.trans hsame, ?_⟩
      · simp [resetHeader, hset, hreset]
      · intro b j
        rw [hlinks, hlinks₁]
        by_cases hb : b = header <;> by_cases hj : j ∈ is <;>
          by_cases hji : j = i <;> simp [hb, hj, hji]

/-- All cells of the list are deleted and no other. -/
theorem clear_spec {memory : ℕ → Option (Node K V)} {pre l : List ℕ}
    {a fuel : ℕ} (h : LinkedList.Linked (forward memory · 0) (pre ++ a :: l))
    (hnodup : (a :: l).Nodup) (hfuel : l.length < fuel) :
    ∃ memory', clear fuel a memory = some memory' ∧
      ∀ b, memory' b = if b ∈ a :: l then none else memory b := by
  induction l generalizing pre a fuel with
  | nil =>
      obtain ⟨fuel, rfl⟩ : ∃ n, fuel = n + 1 := ⟨fuel - 1, by omega⟩
      have hnext : forward memory a 0 = some none := h.next_eq
      obtain ⟨node, hnode, -⟩ := Option.bind_eq_some_iff.mp hnext
      refine ⟨Function.update memory a none, ?_, ?_⟩
      · simp [clear, hnext, delete, hnode]
      · intro b
        simp [Function.update_apply]
  | cons c l ih =>
      obtain ⟨fuel, rfl⟩ : ∃ n, fuel = n + 1 := ⟨fuel - 1, by omega⟩
      have hnext : forward memory a 0 = some (some c) := h.next_eq
      obtain ⟨node, hnode, -⟩ := Option.bind_eq_some_iff.mp hnext
      rw [List.nodup_cons] at hnodup
      have hrest : LinkedList.Linked (forward memory · 0)
          ((pre ++ [a]) ++ c :: l) := by
        simpa using h
      obtain ⟨memory₁, hclear, hmemory⟩ :=
        ih hrest hnodup.2 (by simpa using hfuel)
      refine ⟨Function.update memory₁ a none, ?_, ?_⟩
      · have hkeep : memory₁ a = some node := by
          rw [hmemory, if_neg hnodup.1, hnode]
        simp [clear, hnext, hclear, delete, hkeep]
      · intro b
        rw [Function.update_apply, hmemory]
        by_cases hb : b = a <;> simp [hb]

end Loops

/-! ## The invariant -/

/-- A node of the list and its cell, without the links. -/
structure Tower (K V : Type) where
  addr : ℕ
  key : K
  value : V
  level : ℕ

def Tower.label (t : Tower K V) : K × V × ℕ := (t.key, t.value, t.level)

def Tower.entry (t : Tower K V) : K × V := (t.key, t.value)

/-- The cells of the towers that reach level `i`. -/
def atLevel (i : ℕ) (towers : List (Tower K V)) : List ℕ :=
  (towers.filter (fun t => decide (i ≤ t.level))).map (·.addr)

/-- The memory of the skip list holds the towers, linked on every level. -/
structure Shape [LinearOrder K] (s : SkipList K V)
    (towers : List (Tower K V)) : Prop where
  node : ∀ t ∈ towers, (s.memory t.addr).map label = some t.label
  ascending : OrderedMap.Ascending (towers.map Tower.entry)
  nodup : (s.header :: towers.map (·.addr)).Nodup
  level_le : ∀ t ∈ towers, t.level ≤ s.skipListLevel
  top_le : s.skipListLevel ≤ s.maxLevel
  linked : ∀ i ≤ s.maxLevel,
    LinkedList.Linked (forward s.memory · i) (s.header :: atLevel i towers)
  count : s.elementCount = towers.length
  fresh : ∀ a, s.free ≤ a → s.memory a = none
  room : towers.length < s.free

section Levels

variable {s : SkipList K V} {towers pre post : List (Tower K V)}
  {t : Tower K V} {a i j : ℕ}

@[simp] theorem atLevel_append :
    atLevel i (pre ++ post) = atLevel i pre ++ atLevel i post := by
  simp [atLevel]

theorem atLevel_cons_of_le (h : i ≤ t.level) :
    atLevel i (t :: towers) = t.addr :: atLevel i towers := by
  simp [atLevel, h]

theorem atLevel_cons_of_lt (h : t.level < i) :
    atLevel i (t :: towers) = atLevel i towers := by
  simp [atLevel, h]

theorem atLevel_zero : atLevel 0 towers = towers.map (·.addr) := by
  simp [atLevel]

theorem mem_atLevel :
    a ∈ atLevel i towers ↔ ∃ t ∈ towers, i ≤ t.level ∧ t.addr = a := by
  simp [atLevel, and_assoc]

theorem atLevel_sublist :
    (atLevel i towers).Sublist (towers.map (·.addr)) :=
  List.filter_sublist.map _

theorem atLevel_eq_nil (h : ∀ t ∈ towers, t.level < i) :
    atLevel i towers = [] := by
  simpa [atLevel] using h

/-- The last cell on level `i` of the header and the towers `pre`. -/
def before (s : SkipList K V) (pre : List (Tower K V)) (i : ℕ) : ℕ :=
  (s.header :: atLevel i pre).getLast (List.cons_ne_nil _ _)

theorem before_mem : before s pre i ∈ s.header :: atLevel i pre :=
  List.getLast_mem _

theorem before_of_nil (h : atLevel i pre = []) : before s pre i = s.header := by
  simp [before, h]

/-- Level `i` cut behind `pre`. -/
theorem level_split :
    s.header :: atLevel i (pre ++ post) =
      (s.header :: atLevel i pre).dropLast ++
        before s pre i :: atLevel i post := by
  rw [atLevel_append, ← List.cons_append]
  conv_lhs => rw [← List.dropLast_concat_getLast
    (List.cons_ne_nil s.header (atLevel i pre))]
  simp [before]

/-- The start of a level is a node of the level below. -/
theorem before_mem_below : before s pre (i + 1) ∈ s.header :: atLevel i pre := by
  have hmem : before s pre (i + 1) ∈ s.header :: atLevel (i + 1) pre :=
    before_mem
  rcases List.mem_cons.mp hmem with heq | hmem
  · rw [heq]
    exact List.mem_cons_self
  · obtain ⟨t, ht, hle, ha⟩ := mem_atLevel.mp hmem
    exact List.mem_cons_of_mem _ (mem_atLevel.mpr ⟨t, ht, by omega, ha⟩)

end Levels

end SkipList

end KVRaftStorage
