import Mathlib.Data.Finset.Card
import Mathlib.Data.List.Basic
import Mathlib.Logic.Function.Basic

/-!
# Eviction of the least recently used key

A bounded store that writes down, for every key it holds, the value last put
and the moment of its last use.  A use is a successful get or a put.  A new
key for which there is no room makes the key leave whose last use is longest
ago.

The file says when a list of pairs lists such a store from the most recent use
to the least recent one, and how each operation changes the list.
-/

namespace Recency

variable {K V : Type}

inductive Operation (K V : Type) where
  | get (key : K)
  | put (key : K) (value : V)
  | delete (key : K)
  | clear

structure Store (K V : Type) where
  now : ℕ
  held : Finset K
  /-- the value last put, of the keys that are held -/
  value : K → V
  /-- the moment of the last use, of the keys that are held -/
  usedAt : K → ℕ

namespace Store

variable [DecidableEq K]

def empty [Inhabited V] : Store K V where
  now := 0
  held := ∅
  value := fun _ => default
  usedAt := fun _ => 0

/-- The keys no other one of which was used earlier. -/
def leastRecent (s : Store K V) : Finset K :=
  s.held.filter (fun k => ∀ other ∈ s.held, s.usedAt k ≤ s.usedAt other)

def touch (s : Store K V) (k : K) : Store K V :=
  { s with
    now := s.now + 1
    usedAt := Function.update s.usedAt k s.now }

def get (s : Store K V) (k : K) : Option V × Store K V :=
  if k ∈ s.held then (some (s.value k), s.touch k) else (none, s)

/-- The keys that stay when `k` is put. -/
def kept (capacity : ℕ) (s : Store K V) (k : K) : Finset K :=
  if k ∈ s.held ∨ s.held.card < capacity then s.held
  else s.held \ s.leastRecent

def put (capacity : ℕ) (s : Store K V) (k : K) (v : V) : Store K V :=
  if capacity = 0 then s
  else
    { now := s.now + 1
      held := insert k (kept capacity s k)
      value := Function.update s.value k v
      usedAt := Function.update s.usedAt k s.now }

def delete (s : Store K V) (k : K) : Store K V :=
  { s with held := s.held.erase k }

def clear (s : Store K V) : Store K V := { s with held := ∅ }

/-- The result of the operation, if it has one, and the store afterwards. -/
def apply (capacity : ℕ) (s : Store K V) :
    Operation K V → Option V × Store K V
  | .get k => s.get k
  | .put k v => (none, s.put capacity k v)
  | .delete k => (none, s.delete k)
  | .clear => (none, s.clear)

def execute (capacity : ℕ) :
    Store K V → List (Operation K V) → List (Option V) × Store K V
  | s, [] => ([], s)
  | s, op :: ops =>
      let (result, s) := s.apply capacity op
      let (results, s) := execute capacity s ops
      (result :: results, s)

end Store

/-- The pairs of the store, the most recently used first. -/
structure Lists (l : List (K × V)) (s : Store K V) : Prop where
  mem_held : ∀ k, k ∈ s.held ↔ k ∈ l.map Prod.fst
  value : ∀ p ∈ l, s.value p.1 = p.2
  order : l.Pairwise (fun a b => s.usedAt b.1 < s.usedAt a.1)
  usedAt_lt : ∀ p ∈ l, s.usedAt p.1 < s.now

namespace Lists

variable {l : List (K × V)} {s : Store K V} {k : K} {v : V}

theorem nodup (h : Lists l s) : (l.map Prod.fst).Nodup := by
  rw [List.Nodup, List.pairwise_map]
  apply h.order.imp
  intro a b hlt heq
  rw [heq] at hlt
  exact lt_irrefl _ hlt

theorem empty [Inhabited V] : Lists [] (Store.empty : Store K V) :=
  ⟨by simp [Store.empty], by simp, .nil, by simp⟩

theorem clear : Lists ([] : List (K × V)) s.clear :=
  ⟨by simp [Store.clear], by simp, .nil, by simp⟩

theorem ne_of_notMem (hnot : k ∉ l.map Prod.fst) : ∀ p ∈ l, p.1 ≠ k := by
  rintro p hp rfl
  exact hnot (List.mem_map_of_mem hp)

/-- The last pair of the list is the only one that nobody used later. -/
theorem leastRecent_concat {last : K × V} (h : Lists (l ++ [last]) s) :
    s.leastRecent = {last.1} := by
  obtain ⟨-, -, hlt⟩ := List.pairwise_append.mp h.order
  ext k
  rw [Store.leastRecent, Finset.mem_filter, Finset.mem_singleton, h.mem_held]
  constructor
  · rintro ⟨hk, hleast⟩
    obtain ⟨p, hp, rfl⟩ := List.mem_map.mp hk
    rcases List.mem_append.mp hp with hp | hp
    · have hlast := hleast last.1 ((h.mem_held _).mpr (by simp))
      exact absurd (hlt p hp last (List.mem_singleton_self _)) (by omega)
    · rw [List.mem_singleton.mp hp]
  · rintro rfl
    refine ⟨by simp, ?_⟩
    intro other hother
    obtain ⟨p, hp, rfl⟩ := List.mem_map.mp ((h.mem_held other).mp hother)
    rcases List.mem_append.mp hp with hp | hp
    · exact (hlt p hp last (List.mem_singleton_self _)).le
    · rw [List.mem_singleton.mp hp]

variable [DecidableEq K]

theorem card_held (h : Lists l s) : s.held.card = l.length := by
  have hheld : s.held = (l.map Prod.fst).toFinset := by
    ext k
    rw [h.mem_held, List.mem_toFinset]
  rw [hheld, List.toFinset_card_of_nodup h.nodup, List.length_map]

theorem get_of_mem (h : Lists l s) (hmem : (k, v) ∈ l) :
    s.get k = (some v, s.touch k) := by
  have hheld := (h.mem_held k).mpr (List.mem_map_of_mem hmem)
  rw [Store.get, if_pos hheld, h.value _ hmem]

theorem get_of_notMem (h : Lists l s) (hnot : k ∉ l.map Prod.fst) :
    s.get k = (none, s) := by
  rw [Store.get, if_neg (fun hheld => hnot ((h.mem_held k).mp hheld))]

/-- Pairs of other keys that stay, behind a pair that is used now. -/
theorem cons {l' : List (K × V)} (h : Lists l s) (hsub : l'.Sublist l)
    (hne : ∀ p ∈ l', p.1 ≠ k) (held : Finset K)
    (hheld : ∀ other, other ∈ held ↔ other = k ∨ other ∈ l'.map Prod.fst) :
    Lists ((k, v) :: l')
      { now := s.now + 1
        held := held
        value := Function.update s.value k v
        usedAt := Function.update s.usedAt k s.now } := by
  have hused : ∀ p ∈ l', Function.update s.usedAt k s.now p.1 =
      s.usedAt p.1 :=
    fun p hp => Function.update_of_ne (hne p hp) ..
  constructor
  case mem_held =>
    intro other
    rw [hheld, List.map_cons, List.mem_cons]
  case value =>
    intro p hp
    rcases List.mem_cons.mp hp with rfl | hp
    · exact Function.update_self ..
    · rw [← h.value p (hsub.subset hp)]
      exact Function.update_of_ne (hne p hp) ..
  case order =>
    refine List.pairwise_cons.mpr ⟨?_, ?_⟩
    · intro p hp
      show Function.update s.usedAt k s.now p.1 <
        Function.update s.usedAt k s.now k
      rw [hused p hp, Function.update_self]
      exact h.usedAt_lt p (hsub.subset hp)
    · apply (h.order.sublist hsub).imp_of_mem
      intro a b ha hb hlt
      show Function.update s.usedAt k s.now b.1 <
        Function.update s.usedAt k s.now a.1
      rwa [hused a ha, hused b hb]
  case usedAt_lt =>
    intro p hp
    show Function.update s.usedAt k s.now p.1 < s.now + 1
    rcases List.mem_cons.mp hp with rfl | hp
    · rw [Function.update_self]
      exact Nat.lt_succ_self _
    · rw [hused p hp]
      exact (h.usedAt_lt p (hsub.subset hp)).trans (Nat.lt_succ_self _)

theorem mem_filter_ne {other : K} :
    other ∈ (l.filter (fun p => p.1 ≠ k)).map Prod.fst ↔
      other ≠ k ∧ other ∈ l.map Prod.fst := by
  simp only [List.mem_map, List.mem_filter, decide_eq_true_eq]
  constructor
  · rintro ⟨p, ⟨hp, hne⟩, rfl⟩
    exact ⟨hne, p, hp, rfl⟩
  · rintro ⟨hne, p, hp, rfl⟩
    exact ⟨p, ⟨hp, hne⟩, rfl⟩

theorem ne_of_mem_filter :
    ∀ p ∈ l.filter (fun p => p.1 ≠ k), p.1 ≠ k := by
  intro p hp
  rw [List.mem_filter, decide_eq_true_eq] at hp
  exact hp.2

/-- A use moves the pair to the front. -/
theorem touch (h : Lists l s) (hmem : (k, v) ∈ l) :
    Lists ((k, v) :: l.filter (fun p => p.1 ≠ k)) (s.touch k) := by
  have hheld := (h.mem_held k).mpr (List.mem_map_of_mem hmem)
  have hvalue : Function.update s.value k v = s.value := by
    rw [← show s.value k = v from h.value _ hmem, Function.update_eq_self]
  have hmem_held : ∀ other, other ∈ s.held ↔
      other = k ∨ other ∈ (l.filter (fun p => p.1 ≠ k)).map Prod.fst := by
    intro other
    rw [mem_filter_ne, ← h.mem_held]
    by_cases heq : other = k
    · simp [heq, hheld]
    · simp [heq]
  have hcons := h.cons (v := v) List.filter_sublist ne_of_mem_filter s.held
    hmem_held
  rw [hvalue] at hcons
  exact hcons

/-- Putting a key that is held changes its value and is a use. -/
theorem put_of_mem {capacity : ℕ} (h : Lists l s) (hcapacity : capacity ≠ 0)
    (hheld : k ∈ l.map Prod.fst) :
    Lists ((k, v) :: l.filter (fun p => p.1 ≠ k)) (s.put capacity k v) := by
  have hk := (h.mem_held k).mpr hheld
  rw [Store.put, if_neg hcapacity, Store.kept, if_pos (.inl hk)]
  refine h.cons List.filter_sublist ne_of_mem_filter _ ?_
  intro other
  rw [mem_filter_ne, ← h.mem_held, Finset.mem_insert]
  by_cases heq : other = k
  · simp [heq]
  · simp [heq]

/-- A new key for which there is room. -/
theorem put_of_lt {capacity : ℕ} (h : Lists l s)
    (hnot : k ∉ l.map Prod.fst) (hroom : l.length < capacity) :
    Lists ((k, v) :: l) (s.put capacity k v) := by
  have hcard : s.held.card < capacity := by rwa [h.card_held]
  rw [Store.put, if_neg (by omega), Store.kept, if_pos (.inr hcard)]
  refine h.cons (List.Sublist.refl l) (ne_of_notMem hnot) _ ?_
  intro other
  rw [← h.mem_held, Finset.mem_insert]

/-- A new key without room takes the place of the last one. -/
theorem put_of_full {capacity : ℕ} {last : K × V} (h : Lists (l ++ [last]) s)
    (hnot : k ∉ (l ++ [last]).map Prod.fst)
    (hfull : capacity = (l ++ [last]).length) :
    Lists ((k, v) :: l) (s.put capacity k v) := by
  have hk : ¬ (k ∈ s.held ∨ s.held.card < capacity) := by
    rw [not_or, h.mem_held, h.card_held, hfull]
    exact ⟨hnot, lt_irrefl _⟩
  have hlast : last.1 ∉ l.map Prod.fst := by
    have hnodup := h.nodup
    rw [List.map_append, List.nodup_append] at hnodup
    intro hmem
    exact hnodup.2.2 _ hmem _ (List.mem_singleton_self _) rfl
  have hzero : capacity ≠ 0 := by
    rw [hfull, List.length_append]
    exact Nat.succ_ne_zero _
  rw [Store.put, if_neg hzero, Store.kept, if_neg hk, h.leastRecent_concat]
  refine h.cons (List.sublist_append_left l [last]) ?_ _ ?_
  · intro p hp
    exact ne_of_notMem hnot p (List.mem_append_left _ hp)
  · intro other
    rw [Finset.mem_insert, Finset.mem_sdiff, h.mem_held, List.map_append,
      List.mem_append, Finset.mem_singleton, List.map_singleton,
      List.mem_singleton]
    constructor
    · rintro (heq | ⟨hmem | hmem, hne⟩)
      · exact .inl heq
      · exact .inr hmem
      · exact absurd hmem hne
    · rintro (heq | hmem)
      · exact .inl heq
      · exact .inr ⟨.inl hmem, fun heq => hlast (heq ▸ hmem)⟩

theorem delete (h : Lists l s) (k : K) :
    Lists (l.filter (fun p => p.1 ≠ k)) (s.delete k) := by
  have hsub : (l.filter (fun p => p.1 ≠ k)).Sublist l := List.filter_sublist
  constructor
  case mem_held =>
    intro other
    rw [mem_filter_ne, ← h.mem_held]
    exact Finset.mem_erase
  case value =>
    intro p hp
    exact h.value p (hsub.subset hp)
  case order => exact h.order.sublist hsub
  case usedAt_lt =>
    intro p hp
    exact h.usedAt_lt p (hsub.subset hp)

end Lists

end Recency
