import Mathlib.Data.List.Basic
import Mathlib.Data.List.Sort
import Mathlib.Order.Compare

/-!
# Ordered maps by their entries

A map over a linear order is given by its entries in ascending order of keys.
The file says how an insertion and an erasure change the list of entries when
the list is cut at the key.
-/

namespace OrderedMap

variable {K V : Type} [LinearOrder K] {m : Std.ExtTreeMap K V}
  {l pre post : List (K × V)} {k : K} {v : V}

/-- Ascending in the keys, no key twice. -/
def Ascending (l : List (K × V)) : Prop := l.Pairwise (fun a b => a.1 < b.1)

theorem Ascending.nodup (h : Ascending l) : l.Nodup := by
  apply h.imp
  intro a b hlt heq
  rw [heq] at hlt
  exact lt_irrefl _ hlt

theorem ascending_toList (m : Std.ExtTreeMap K V) : Ascending m.toList := by
  apply m.ordered_keys_toList.imp
  intro a b h
  exact compare_lt_iff_lt.mp h

/-- Ascending lists with the same elements are equal. -/
theorem Ascending.ext {l' : List (K × V)} (h : Ascending l) (h' : Ascending l')
    (hmem : ∀ a, a ∈ l ↔ a ∈ l') : l = l' := by
  have hperm := (List.perm_ext_iff_of_nodup h.nodup h'.nodup).mpr hmem
  unfold Ascending at h h'
  refine List.Perm.eq_of_pairwise ?_ h h' hperm
  intro a b _ _ hab hba
  exact absurd hba (lt_asymm hab)

theorem mem_toList : (k, v) ∈ m.toList ↔ m[k]? = some v :=
  Std.ExtTreeMap.mem_toList_iff_getElem?_eq_some

theorem Ascending.lookup_eq_some (h : Ascending l) :
    l.lookup k = some v ↔ (k, v) ∈ l := by
  induction l with
  | nil => simp
  | cons a l ih =>
      obtain ⟨hlt, hasc⟩ := List.pairwise_cons.mp h
      rw [List.lookup_cons, List.mem_cons]
      split
      · next heq =>
          have hkey : k = a.1 := by simpa using heq
          subst hkey
          have hnot : (a.1, v) ∉ l :=
            fun hmem => lt_irrefl _ (hlt (a.1, v) hmem)
          simp [hnot, Prod.ext_iff, eq_comm]
      · next heq =>
          have hne : k ≠ a.1 := by simpa using heq
          rw [ih hasc]
          simp [Prod.ext_iff, hne]

theorem lookup_toList (m : Std.ExtTreeMap K V) (k : K) :
    m.toList.lookup k = m[k]? := by
  apply Option.ext
  intro v
  rw [(ascending_toList m).lookup_eq_some, mem_toList]

theorem toList_eq_iff (h : Ascending l) :
    m.toList = l ↔ ∀ k v, (k, v) ∈ l ↔ m[k]? = some v := by
  constructor
  · intro heq k v
    rw [← heq, mem_toList]
  · intro hmem
    apply (ascending_toList m).ext h
    intro a
    rw [hmem a.1 a.2, ← mem_toList]

theorem ascending_append :
    Ascending (pre ++ post) ↔ Ascending pre ∧ Ascending post ∧
      ∀ a ∈ pre, ∀ b ∈ post, a.1 < b.1 :=
  List.pairwise_append

theorem ascending_cons {a : K × V} :
    Ascending (a :: l) ↔ (∀ b ∈ l, a.1 < b.1) ∧ Ascending l :=
  List.pairwise_cons

/-- A key that no entry has is not in the map. -/
theorem getElem?_eq_none (h : ∀ a ∈ m.toList, a.1 ≠ k) : m[k]? = none := by
  rw [Option.eq_none_iff_forall_ne_some]
  intro v hv
  exact h (k, v) (mem_toList.mpr hv) rfl

theorem ne_of_cut (hpre : ∀ a ∈ pre, a.1 < k) (hpost : ∀ a ∈ post, k < a.1) :
    ∀ a ∈ pre ++ post, a.1 ≠ k := by
  intro a ha
  rcases List.mem_append.mp ha with ha | ha
  · exact (hpre a ha).ne
  · exact (hpost a ha).ne'

/-- The keys from `k` on are a tail of the list. -/
theorem Ascending.dropWhile_eq (h : Ascending l) (k : K) :
    l.dropWhile (fun a => a.1 < k) = l.filter (fun a => k ≤ a.1) := by
  induction l with
  | nil => rfl
  | cons a l ih =>
      obtain ⟨hlt, hasc⟩ := ascending_cons.mp h
      by_cases ha : a.1 < k
      · rw [List.dropWhile_cons_of_pos (by simpa using ha), ih hasc,
          List.filter_cons_of_neg (by simpa using ha)]
      · have hall : ∀ b ∈ a :: l, k ≤ b.1 := by
          intro b hb
          rcases List.mem_cons.mp hb with rfl | hb
          · exact not_lt.mp ha
          · exact (not_lt.mp ha).trans (hlt b hb).le
        rw [List.dropWhile_cons_of_neg (by simpa using ha)]
        exact (List.filter_eq_self.mpr (by simpa using hall)).symm

/-- The keys up to `k` are a front of the list. -/
theorem Ascending.takeWhile_eq (h : Ascending l) (k : K) :
    l.takeWhile (fun a => a.1 ≤ k) = l.filter (fun a => a.1 ≤ k) := by
  induction l with
  | nil => rfl
  | cons a l ih =>
      obtain ⟨hlt, hasc⟩ := ascending_cons.mp h
      by_cases ha : a.1 ≤ k
      · rw [List.takeWhile_cons_of_pos (by simpa using ha), ih hasc,
          List.filter_cons_of_pos (by simpa using ha)]
      · have hall : ∀ b ∈ a :: l, ¬b.1 ≤ k := by
          intro b hb
          rcases List.mem_cons.mp hb with rfl | hb
          · exact ha
          · exact not_le.mpr ((not_le.mp ha).trans (hlt b hb))
        rw [List.takeWhile_cons_of_neg (by simpa using ha)]
        exact (List.filter_eq_nil_iff.mpr (by simpa using hall)).symm

/-- The later entries of an ascending list do not touch the earlier ones. -/
theorem getElem?_foldl_insert {W : Type} (f : V → W) (h : Ascending l)
    (m : Std.ExtTreeMap K W) (k : K) :
    (l.foldl (fun m a => m.insert a.1 (f a.2)) m)[k]? =
      ((l.lookup k).map f).or m[k]? := by
  induction l generalizing m with
  | nil => rfl
  | cons a l ih =>
      obtain ⟨hlt, hasc⟩ := ascending_cons.mp h
      rw [List.foldl_cons, ih hasc, List.lookup_cons,
        Std.ExtTreeMap.getElem?_insert]
      by_cases heq : k = a.1
      · subst heq
        have hnone : l.lookup a.1 = none := by
          rw [Option.eq_none_iff_forall_ne_some]
          intro v hv
          exact lt_irrefl _ (hlt (a.1, v) (hasc.lookup_eq_some.mp hv))
        simp [hnone]
      · have hbeq : (k == a.1) = false := by simpa using heq
        have hcmp : ¬compare a.1 k = .eq :=
          fun h => heq (compare_eq_iff_eq.mp h).symm
        simp only [hbeq, if_neg hcmp]

/-- All keys lie between the first and the last one. -/
theorem Ascending.head_le {a b : K × V} (h : Ascending (a :: l))
    (hb : b ∈ a :: l) : a.1 ≤ b.1 := by
  rcases List.mem_cons.mp hb with rfl | hb
  · exact le_rfl
  · exact ((ascending_cons.mp h).1 b hb).le

theorem Ascending.le_getLast {a : K × V} (h : Ascending l) (hne : l ≠ [])
    (ha : a ∈ l) : a.1 ≤ (l.getLast hne).1 := by
  rw [← List.dropLast_concat_getLast hne] at h ha
  obtain ⟨-, -, hlt⟩ := ascending_append.mp h
  rcases List.mem_append.mp ha with ha | ha
  · exact (hlt a ha _ (List.mem_singleton_self _)).le
  · rw [List.mem_singleton.mp ha]

theorem Ascending.insert (h : Ascending (pre ++ post))
    (hpre : ∀ a ∈ pre, a.1 < k) (hpost : ∀ a ∈ post, k < a.1) :
    Ascending (pre ++ (k, v) :: post) := by
  rw [ascending_append] at h
  obtain ⟨hasc, hasc', hlt⟩ := h
  refine ascending_append.mpr ⟨hasc, ascending_cons.mpr ⟨hpost, hasc'⟩, ?_⟩
  intro a ha b hb
  rcases List.mem_cons.mp hb with rfl | hb
  · exact hpre a ha
  · exact hlt a ha b hb

theorem Ascending.remove {a : K × V} (h : Ascending (pre ++ a :: post)) :
    Ascending (pre ++ post) :=
  h.sublist ((List.sublist_cons_self a post).append_left pre)

/-- A new key goes where the list is cut. -/
theorem toList_insert (h : m.toList = pre ++ post)
    (hpre : ∀ a ∈ pre, a.1 < k) (hpost : ∀ a ∈ post, k < a.1) :
    (m.insert k v).toList = pre ++ (k, v) :: post := by
  have hm := ascending_toList m
  rw [h] at hm
  rw [toList_eq_iff (hm.insert hpre hpost)]
  intro k' v'
  rw [Std.ExtTreeMap.getElem?_insert]
  split
  · next hkey =>
      rw [compare_eq_iff_eq] at hkey
      subst hkey
      have hne := ne_of_cut hpre hpost
      have hmem : (k, v') ∉ pre ++ post := fun hin => hne _ hin rfl
      rw [List.mem_append, not_or] at hmem
      simp [hmem.1, hmem.2, eq_comm]
  · next hkey =>
      rw [← mem_toList, h]
      have hne : k' ≠ k := fun heq => hkey (compare_eq_iff_eq.mpr heq.symm)
      simp [hne]

/-- The entry of an erased key leaves the list. -/
theorem toList_erase (h : m.toList = pre ++ (k, v) :: post) :
    (m.erase k).toList = pre ++ post := by
  have hm := ascending_toList m
  rw [h] at hm
  obtain ⟨-, hcons, hlt⟩ := ascending_append.mp hm
  have hpre : ∀ a ∈ pre, a.1 < k := fun a ha => hlt a ha (k, v) (by simp)
  have hpost : ∀ a ∈ post, k < a.1 := (ascending_cons.mp hcons).1
  rw [toList_eq_iff hm.remove]
  intro k' v'
  rw [Std.ExtTreeMap.getElem?_erase]
  split
  · next hkey =>
      rw [compare_eq_iff_eq] at hkey
      subst hkey
      simpa using fun hin => ne_of_cut hpre hpost _ hin rfl
  · next hkey =>
      rw [← mem_toList, h]
      have hne : k' ≠ k := fun heq => hkey (compare_eq_iff_eq.mpr heq.symm)
      simp [hne]

theorem erase_eq_self (h : m[k]? = none) : m.erase k = m := by
  apply Std.ExtTreeMap.ext_getElem?
  intro k'
  rw [Std.ExtTreeMap.getElem?_erase]
  split
  · next hkey => rw [← compare_eq_iff_eq.mp hkey, h]
  · rfl

theorem insert_erase (m : Std.ExtTreeMap K V) (k : K) (v : V) :
    (m.erase k).insert k v = m.insert k v := by
  apply Std.ExtTreeMap.ext_getElem?
  intro k'
  rw [Std.ExtTreeMap.getElem?_insert, Std.ExtTreeMap.getElem?_insert,
    Std.ExtTreeMap.getElem?_erase]
  split <;> rfl

theorem insertIfNew_of_some {v' : V} (h : m[k]? = some v') :
    m.insertIfNew k v = m := by
  apply Std.ExtTreeMap.ext_getElem?
  intro k'
  have hmem : k ∈ m := by
    rw [Std.ExtTreeMap.mem_iff_isSome_getElem?, h]
    rfl
  rw [Std.ExtTreeMap.getElem?_insertIfNew, if_neg (fun hand => hand.2 hmem)]

theorem insertIfNew_of_none (h : m[k]? = none) :
    m.insertIfNew k v = m.insert k v := by
  apply Std.ExtTreeMap.ext_getElem?
  intro k'
  have hmem : k ∉ m := by
    rw [Std.ExtTreeMap.mem_iff_isSome_getElem?, h]
    simp
  rw [Std.ExtTreeMap.getElem?_insertIfNew, Std.ExtTreeMap.getElem?_insert]
  simp [hmem]

/-- New keys behind all others are appended. -/
theorem toList_foldl_insertIfNew (h : Ascending (m.toList ++ l)) :
    (l.foldl (fun m e => m.insertIfNew e.1 e.2) m).toList = m.toList ++ l := by
  induction l generalizing m with
  | nil => simp
  | cons e l ih =>
      obtain ⟨-, -, hlt⟩ := ascending_append.mp h
      have hpre : ∀ a ∈ m.toList, a.1 < e.1 :=
        fun a ha => hlt a ha e (by simp)
      have hnone : m[e.1]? = none :=
        getElem?_eq_none fun a ha => (hpre a ha).ne
      have hinsert : (m.insertIfNew e.1 e.2).toList = m.toList ++ [e] := by
        rw [insertIfNew_of_none hnone]
        exact toList_insert (List.append_nil _).symm hpre (by simp)
      rw [List.foldl_cons, ih, hinsert, List.append_assoc,
        List.singleton_append]
      rw [hinsert, List.append_assoc, List.singleton_append]
      exact h

/-- A map is rebuilt from its entries. -/
theorem foldl_insertIfNew_toList (m : Std.ExtTreeMap K V) :
    m.toList.foldl (fun m e => m.insertIfNew e.1 e.2) ∅ = m := by
  have hempty : (∅ : Std.ExtTreeMap K V).toList = [] := by simp
  have hasc : Ascending ((∅ : Std.ExtTreeMap K V).toList ++ m.toList) := by
    rw [hempty, List.nil_append]
    exact ascending_toList m
  rw [← Std.ExtTreeMap.toList_inj, toList_foldl_insertIfNew hasc, hempty,
    List.nil_append]

/-- An ascending list is cut at a key, which it may hold or not. -/
theorem Ascending.cut (h : Ascending l) (k : K) :
    ∃ pre post, (∀ a ∈ pre, a.1 < k) ∧ (∀ a ∈ post, k < a.1) ∧
      (l = pre ++ post ∨ ∃ v, l = pre ++ (k, v) :: post) := by
  induction l with
  | nil => exact ⟨[], [], by simp, by simp, .inl rfl⟩
  | cons a l ih =>
      rw [ascending_cons] at h
      rcases lt_trichotomy a.1 k with hlt | heq | hlt
      · obtain ⟨pre, post, hpre, hpost, hl⟩ := ih h.2
        refine ⟨a :: pre, post, ?_, hpost, ?_⟩
        · intro b hb
          rcases List.mem_cons.mp hb with rfl | hb
          · exact hlt
          · exact hpre b hb
        · rcases hl with rfl | ⟨v, rfl⟩
          · exact .inl rfl
          · exact .inr ⟨v, rfl⟩
      · subst heq
        exact ⟨[], l, by simp, h.1, .inr ⟨a.2, rfl⟩⟩
      · refine ⟨[], a :: l, by simp, ?_, .inl rfl⟩
        intro b hb
        rcases List.mem_cons.mp hb with rfl | hb
        · exact hlt
        · exact hlt.trans (h.1 b hb)

end OrderedMap
