import KVRaftStorage.Raft.IndexOrder

/-!
# Looking up an index

On a consecutive log every lookup between the boundary and the last index
succeeds, and compacting the log changes no lookup behind the new boundary.
-/

namespace KVRaftStorage

variable {n : ℕ} {Image : Type}

namespace Raft

variable {r r' : Raft n Image}

theorem myAssert_ok {condition : Prop} [Decidable condition]
    (h : condition) : r.myAssert condition = .ok () :=
  if_pos h

theorem getSlicesIndexFromLogIndex_ok {i : ℕ}
    (hlt : r.lastSnapshotIncludeIndex < i) (hle : i ≤ r.getLastLogIndex) :
    r.getSlicesIndexFromLogIndex i =
      .ok (i - r.lastSnapshotIncludeIndex - 1) := by
  simp [getSlicesIndexFromLogIndex, myAssert, hlt, hle, bind, Except.bind, pure,
    Except.pure]

theorem entryAt_ok (h : Consecutive r.lastSnapshotIncludeIndex r.logs) {i : ℕ}
    (hlt : r.lastSnapshotIncludeIndex < i) (hle : i ≤ r.getLastLogIndex) :
    ∃ entry, r.entryAt i = .ok entry ∧ entry ∈ r.logs ∧ entry.logIndex = i := by
  have hlen := getLastLogIndex_eq h
  have hslice : i - r.lastSnapshotIncludeIndex - 1 < r.logs.length := by omega
  have hentry := List.getElem?_eq_getElem hslice
  refine ⟨_, ?_, List.getElem_mem hslice, ?_⟩
  · rw [entryAt, getSlicesIndexFromLogIndex_ok hlt hle]
    simp only [bind, Except.bind, hentry]
    rfl
  · rw [h _ _ hentry]
    omega

/-- A lookup finds an entry exactly if the node still holds it. -/
theorem entryAt_toOption (h : Consecutive r.lastSnapshotIncludeIndex r.logs)
    (i : ℕ) : (r.entryAt i).toOption = r.entryAt? i := by
  have hlen := getLastLogIndex_eq h
  cases hentry : r.entryAt i with
  | ok entry => exact (entryAt_eq_ok hentry).2.2.symm
  | error p =>
      symm
      by_contra hsome
      obtain ⟨entry, hentry'⟩ := Option.ne_none_iff_exists'.mp hsome
      rw [entryAt?] at hentry'
      split at hentry'
      · next hlt =>
          have hslot := (List.getElem?_eq_some_iff.mp hentry').1
          obtain ⟨entry', hok, -⟩ := entryAt_ok h hlt (by omega)
          rw [hok] at hentry
          cases hentry
      · cases hentry'

/-- The last term is the one at the last index. -/
theorem termAt?_getLastLogIndex
    (h : Consecutive r.lastSnapshotIncludeIndex r.logs) :
    r.termAt? r.getLastLogIndex = some r.getLastLogTerm := by
  have hlen := getLastLogIndex_eq h
  cases hlast : r.logs.getLast? with
  | none =>
      rw [List.getLast?_eq_none_iff] at hlast
      rw [hlast, List.length_nil, Nat.add_zero] at hlen
      rw [termAt?, if_pos hlen]
      simp [getLastLogTerm, getLastLogIndexAndTerm, hlast]
  | some entry =>
      have hslot := hlast
      rw [List.getLast?_eq_getElem?] at hslot
      have hpos := (List.getElem?_eq_some_iff.mp hslot).1
      rw [termAt?, if_neg (by omega), entryAt?, if_pos (by omega), hlen,
        show r.lastSnapshotIncludeIndex + r.logs.length -
          r.lastSnapshotIncludeIndex - 1 = r.logs.length - 1 by omega, hslot]
      simp [getLastLogTerm, getLastLogIndexAndTerm, hlast]

theorem getLogTermFromLogIndex_ok
    (h : Consecutive r.lastSnapshotIncludeIndex r.logs) {i : ℕ}
    (hge : r.lastSnapshotIncludeIndex ≤ i) (hle : i ≤ r.getLastLogIndex) :
    ∃ term, r.getLogTermFromLogIndex i = .ok term := by
  by_cases heq : i = r.lastSnapshotIncludeIndex
  · refine ⟨r.lastSnapshotIncludeTerm, ?_⟩
    subst heq
    simp [getLogTermFromLogIndex, myAssert, hle, bind, Except.bind, pure,
      Except.pure]
  · obtain ⟨entry, hentry, -⟩ := entryAt_ok h (by omega) hle
    refine ⟨entry.logTerm, ?_⟩
    simp [getLogTermFromLogIndex, myAssert, hge, hle, heq, hentry, bind,
      Except.bind, pure, Except.pure]

theorem getLogTermFromLogIndex_of_termAt?
    (h : Consecutive r.lastSnapshotIncludeIndex r.logs) {i term : ℕ}
    (hge : r.lastSnapshotIncludeIndex ≤ i) (hle : i ≤ r.getLastLogIndex)
    (hterm : r.termAt? i = some term) :
    r.getLogTermFromLogIndex i = .ok term := by
  obtain ⟨term', hlookup⟩ := getLogTermFromLogIndex_ok h hge hle
  obtain rfl : term' = term := Option.some.inj
    ((getLogTermFromLogIndex_eq_ok hlookup).2.2.symm.trans hterm)
  exact hlookup

theorem matchLog_of_term {i here : ℕ}
    (h : r.getLogTermFromLogIndex i = .ok here) (term : ℕ) :
    r.matchLog i term = .ok (decide (term = here)) := by
  obtain ⟨hge, hle, -⟩ := getLogTermFromLogIndex_eq_ok h
  simp [matchLog, myAssert, hge, hle, h, bind, Except.bind, pure, Except.pure]

/-! ## Lookups after a change -/

theorem SameLog.entryAt? (h : r.SameLog r') (i : ℕ) :
    r'.entryAt? i = r.entryAt? i := by
  rw [Raft.entryAt?, Raft.entryAt?, h.index, h.logs]

theorem Ordered.compacts_logs (h : r.Ordered) {index : ℕ}
    (hc : r.Compacts index r') :
    r'.logs = r.logs.drop (index - r.lastSnapshotIncludeIndex) := by
  have hall := of_mapM hc.logs
  have hlt := hc.lt
  have hlen := h.lastLogIndex
  have hcount := (h.compacts_entries hc).1
  apply List.ext_getElem
  · rw [hcount, List.length_drop]
    omega
  · intro k hk hk'
    have hget := hall.get (by rw [hall.length_eq]; exact hk) hk
    simp only [List.get_eq_getElem, List.getElem_range', one_mul] at hget
    have hentry := (entryAt_eq_ok hget).2.2
    rw [entryAt?, if_pos (by omega), show index + 1 + k -
      r.lastSnapshotIncludeIndex - 1 = index - r.lastSnapshotIncludeIndex + k
        by omega, ← List.getElem?_drop, List.getElem?_eq_getElem hk'] at hentry
    exact (Option.some.inj hentry).symm

theorem Ordered.compacts_entryAt? (h : r.Ordered) {index : ℕ}
    (hc : r.Compacts index r') {i : ℕ} (hi : index < i) :
    r'.entryAt? i = r.entryAt? i := by
  have hlt := hc.lt
  rw [entryAt?, entryAt?, hc.boundary, if_pos hi, if_pos (hlt.trans hi),
    h.compacts_logs hc, List.getElem?_drop]
  congr 1
  omega

theorem Ordered.compacts_termAt? (h : r.Ordered) {index : ℕ}
    (hc : r.Compacts index r') {i : ℕ} (hi : index ≤ i) :
    r'.termAt? i = r.termAt? i := by
  have hlt := hc.lt
  rw [termAt?, termAt?, hc.boundary, if_neg (show ¬i = r.lastSnapshotIncludeIndex
    by omega)]
  split
  · next heq =>
      obtain ⟨entry, hentry, hterm⟩ := hc.entry
      rw [heq, (entryAt_eq_ok hentry).2.2, hterm]
      rfl
  · rw [h.compacts_entryAt? hc (by omega)]

end Raft

end KVRaftStorage
