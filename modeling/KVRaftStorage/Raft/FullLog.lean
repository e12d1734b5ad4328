import KVRaftStorage.Raft.Effects
import KVRaftStorage.Replication.Ledger

/-!
# The log behind the snapshot boundary

A node holds the tail of a full log, the one it would have if nothing had ever
been compacted.  Every lookup of a node is a lookup in its full log, and the
operations on `m_logs` are list operations on it: appending, merging the
entries of a request, dropping a prefix, and replacing the log by that of a
snapshot.
-/

namespace KVRaftStorage

open Replication

variable {n : ℕ} {Image : Type}

instance : Termed LogEntry := ⟨LogEntry.logTerm⟩

/-- The `i`-th entry carries the index `i + 1`. -/
def Indexed (l : List LogEntry) : Prop :=
  ∀ i e, l[i]? = some e → e.logIndex = i + 1

theorem Indexed.of_isPrefix {l l' : List LogEntry} (h : Indexed l)
    (hl : l' <+: l) : Indexed l' := by
  obtain ⟨s, rfl⟩ := hl
  intro i e he
  refine h i e ?_
  rw [List.getElem?_append_left (List.getElem?_eq_some_iff.mp he).1, he]

theorem Indexed.concat {l : List LogEntry} (h : Indexed l) {e : LogEntry}
    (he : e.logIndex = l.length + 1) : Indexed (l ++ [e]) := by
  intro i x hx
  rcases Nat.lt_or_ge i l.length with hlt | hge
  · rw [List.getElem?_append_left hlt] at hx
    exact h i x hx
  · rw [List.getElem?_append_right hge] at hx
    obtain ⟨hi, rfl⟩ := List.getElem?_eq_some_iff.mp hx
    simp only [List.length_singleton] at hi
    simp only [show i - l.length = 0 by omega, List.getElem_cons_zero, he]
    omega

/-- The last term of the first `i` entries is the term of the last of them. -/
theorem lastTerm_take {l : List LogEntry} {i : ℕ} {e : LogEntry}
    (he : l[i]? = some e) : lastTerm (l.take (i + 1)) = e.logTerm := by
  rw [List.take_add_one, he, Option.toList_some, lastTerm_concat]
  rfl

namespace Raft

/-- `r` holds the tail of the full log `l` behind its snapshot boundary. -/
structure Holds (r : Raft n Image) (l : List LogEntry) : Prop where
  start : r.lastSnapshotIncludeIndex ≤ l.length
  logs : r.logs = l.drop r.lastSnapshotIncludeIndex
  boundary : r.lastSnapshotIncludeTerm =
    lastTerm (l.take r.lastSnapshotIncludeIndex)
  indexed : Indexed l

namespace Holds

variable {r r' : Raft n Image} {l : List LogEntry}

theorem of_sameLog (h : r.Holds l) (hsame : r.SameLog r') : r'.Holds l := by
  refine ⟨?_, ?_, ?_, h.indexed⟩
  · rw [hsame.index]
    exact h.start
  · rw [hsame.logs, hsame.index]
    exact h.logs
  · rw [hsame.term, hsame.index]
    exact h.boundary

/-! ## Lookups -/

theorem lastLogIndexAndTerm (h : r.Holds l) :
    r.getLastLogIndexAndTerm = (l.length, lastTerm l) := by
  have hlen : r.logs.length = l.length - r.lastSnapshotIncludeIndex := by
    rw [h.logs, List.length_drop]
  have hstart := h.start
  unfold getLastLogIndexAndTerm
  split
  · next hnone =>
      rw [List.getLast?_eq_none_iff] at hnone
      rw [hnone, List.length_nil] at hlen
      have hall : r.lastSnapshotIncludeIndex = l.length := by omega
      rw [h.boundary, hall, List.take_length]
  · next e he =>
      rw [h.logs, List.getLast?_drop] at he
      split at he
      · simp at he
      · have hlast : l[l.length - 1]? = some e := by
          rw [← List.getLast?_eq_getElem?, he]
        have hpos := (List.getElem?_eq_some_iff.mp hlast).1
        have hidx := h.indexed _ e hlast
        have hterm := lastTerm_take hlast
        rw [List.take_of_length_le (by omega)] at hterm
        rw [hterm, hidx]
        simp only [Prod.mk.injEq, and_true]
        omega

theorem getLastLogIndex (h : r.Holds l) : r.getLastLogIndex = l.length :=
  congrArg Prod.fst h.lastLogIndexAndTerm

theorem getLastLogTerm (h : r.Holds l) : r.getLastLogTerm = lastTerm l :=
  congrArg Prod.snd h.lastLogIndexAndTerm

/-- Entries are looked up behind the boundary. -/
theorem entryAt?_eq (h : r.Holds l) {i : ℕ}
    (hi : r.lastSnapshotIncludeIndex < i) : r.entryAt? i = l[i - 1]? := by
  rw [entryAt?, if_pos hi, h.logs, List.getElem?_drop]
  congr 1
  omega

theorem entryAt?_eq_some (h : r.Holds l) {i : ℕ} {e : LogEntry}
    (he : r.entryAt? i = some e) :
    r.lastSnapshotIncludeIndex < i ∧ l[i - 1]? = some e := by
  by_cases hi : r.lastSnapshotIncludeIndex < i
  · exact ⟨hi, h.entryAt?_eq hi ▸ he⟩
  · simp [entryAt?, hi] at he

theorem termAt?_eq (h : r.Holds l) {i : ℕ}
    (hi : r.lastSnapshotIncludeIndex ≤ i) (hlen : i ≤ l.length) :
    r.termAt? i = some (lastTerm (l.take i)) := by
  rw [termAt?]
  split
  · next heq => rw [heq, h.boundary]
  · next hne =>
      rw [h.entryAt?_eq (by omega)]
      have hlt : i - 1 < l.length := by omega
      have hget := List.getElem?_eq_getElem hlt
      have hterm := lastTerm_take hget
      rw [show i - 1 + 1 = i by omega] at hterm
      rw [hget, hterm, Option.map_some]

theorem termAt?_eq_some (h : r.Holds l) {i t : ℕ}
    (ht : r.termAt? i = some t) :
    r.lastSnapshotIncludeIndex ≤ i ∧ i ≤ l.length ∧
      lastTerm (l.take i) = t := by
  have hrange : r.lastSnapshotIncludeIndex ≤ i ∧ i ≤ l.length := by
    by_cases heq : i = r.lastSnapshotIncludeIndex
    · exact ⟨heq.ge, heq ▸ h.start⟩
    · rw [termAt?, if_neg heq, Option.map_eq_some_iff] at ht
      obtain ⟨e, he, -⟩ := ht
      obtain ⟨hlt, hget⟩ := h.entryAt?_eq_some he
      have := (List.getElem?_eq_some_iff.mp hget).1
      omega
  rw [h.termAt?_eq hrange.1 hrange.2] at ht
  exact ⟨hrange.1, hrange.2, Option.some.inj ht⟩

/-! ## Appending and merging -/

theorem appendEntry (h : r.Holds l) (command : Op) :
    (r.appendEntry command).Holds (l ++ [
      { command := command
        logTerm := r.currentTerm
        logIndex := l.length + 1 }]) := by
  refine ⟨?_, ?_, ?_, h.indexed.concat rfl⟩
  · rw [List.length_append]
    exact h.start.trans (Nat.le_add_right _ _)
  · change r.logs ++ [_] = List.drop r.lastSnapshotIncludeIndex _
    rw [List.drop_append_of_le_length h.start, ← h.logs, getNewCommandIndex,
      h.getLastLogIndex]
  · change r.lastSnapshotIncludeTerm =
      lastTerm (List.take r.lastSnapshotIncludeIndex _)
    rw [List.take_append_of_le_length h.start]
    exact h.boundary

/-- The log changes behind a prefix that reaches over the boundary. -/
theorem of_logs (h : r.Holds l) {p s : List LogEntry} (hp : p <+: l)
    (hlen : r.lastSnapshotIncludeIndex ≤ p.length)
    (hlogs : r'.logs = (p ++ s).drop r.lastSnapshotIncludeIndex)
    (hindex : r'.lastSnapshotIncludeIndex = r.lastSnapshotIncludeIndex)
    (hterm : r'.lastSnapshotIncludeTerm = r.lastSnapshotIncludeTerm)
    (hindexed : Indexed (p ++ s)) : r'.Holds (p ++ s) := by
  obtain ⟨t, rfl⟩ := hp
  refine ⟨?_, ?_, ?_, hindexed⟩
  · rw [hindex, List.length_append]
    exact hlen.trans (Nat.le_add_right _ _)
  · rw [hlogs, hindex]
  · rw [hterm, hindex, h.boundary, List.take_append_of_le_length hlen,
      List.take_append_of_le_length hlen]

/-- One iteration of the merge loop puts the entry in its slot. -/
theorem mergeEntry {p s : List LogEntry} {e : LogEntry}
    (h : r.Holds (p ++ s)) (hlen : r.lastSnapshotIncludeIndex ≤ p.length)
    (hidx : e.logIndex = p.length + 1)
    (hsame : ∀ x, s.head? = some x → x.logTerm = e.logTerm → x = e)
    (hstep : r.mergeEntry e = .ok r') :
    r'.Holds (p ++ e :: s.tail) := by
  have hindexed : Indexed (p ++ e :: s.tail) := by
    intro i x hx
    rcases Nat.lt_trichotomy i p.length with hlt | heq | hgt
    · rw [List.getElem?_append_left hlt] at hx
      exact h.indexed i x (by rw [List.getElem?_append_left hlt, hx])
    · rw [List.getElem?_append_right heq.ge, heq, Nat.sub_self,
        List.getElem?_cons_zero] at hx
      rw [← Option.some.inj hx, hidx, heq]
    · rw [List.getElem?_append_right hgt.le,
        show i - p.length = i - p.length - 1 + 1 by omega,
        List.getElem?_cons_succ] at hx
      refine h.indexed i x ?_
      rw [List.getElem?_append_right hgt.le, ← hx, List.getElem?_tail]
      congr 1
      omega
  have honly := mergeEntry_onlyLogs hstep
  have hset : r'.logs = (p ++ e :: s.tail).drop r.lastSnapshotIncludeIndex →
      r'.Holds (p ++ e :: s.tail) := fun hlogs =>
    h.of_logs (List.prefix_append p s) hlen hlogs (by rw [honly.eq])
      (by rw [honly.eq]) hindexed
  unfold Raft.mergeEntry at hstep
  rw [h.getLastLogIndex, hidx] at hstep
  split at hstep
  · next hbehind =>
      obtain rfl := Except.ok.inj hstep
      have hnil : s = [] := by
        rw [List.length_append] at hbehind
        exact List.eq_nil_of_length_eq_zero (by omega)
      subst hnil
      refine hset ?_
      change r.logs ++ [e] = _
      rw [h.logs, List.tail_nil, List.append_nil,
        List.drop_append_of_le_length hlen]
  · next hinside =>
      have hne : s ≠ [] := by
        rintro rfl
        simp at hinside
      obtain ⟨x, t, rfl⟩ := List.exists_cons_of_ne_nil hne
      simp only [exec_bind_eq_ok, myAssert_eq_ok] at hstep
      obtain ⟨slice, hslice, here, hhere, -, -, hstep⟩ := hstep
      obtain ⟨-, -, rfl⟩ := getSlicesIndexFromLogIndex_eq_ok hslice
      have hx : here = x := by
        have hget := (h.entryAt?_eq_some (entryAt_eq_ok hhere).2.2).2
        rw [Nat.add_sub_cancel, List.getElem?_append_right le_rfl,
          Nat.sub_self, List.getElem?_cons_zero] at hget
        exact (Option.some.inj hget).symm
      subst hx
      split at hstep
      · obtain rfl := exec_pure_eq_ok.mp hstep
        refine hset ?_
        change r.logs.set _ e = _
        rw [h.logs, List.tail_cons, List.drop_append_of_le_length hlen,
          List.drop_append_of_le_length hlen, List.set_append_right]
        · rw [List.length_drop,
            show p.length + 1 - r.lastSnapshotIncludeIndex - 1 -
              (p.length - r.lastSnapshotIncludeIndex) = 0 by omega]
          rfl
        · rw [List.length_drop]
          omega
      · next heq =>
          obtain rfl := exec_pure_eq_ok.mp hstep
          have hentry : here = e := hsame here rfl (by simpa using heq)
          rw [← hentry, List.tail_cons]
          exact h

/-- The whole merge loop: the carried entries replace what was in their slots
and the entries behind them stay. -/
theorem mergeEntries {p s : List LogEntry} {entries : List LogEntry}
    (h : r.Holds (p ++ s)) (hlen : r.lastSnapshotIncludeIndex ≤ p.length)
    (hindexed : Indexed (p ++ entries))
    (hsame : ∀ (i : ℕ) (x e : LogEntry), s[i]? = some x →
      entries[i]? = some e → x.logTerm = e.logTerm → x = e)
    (hloop : entries.foldlM Raft.mergeEntry r = .ok r') :
    r'.Holds (p ++ entries ++ s.drop entries.length) := by
  induction entries generalizing r p s with
  | nil =>
      obtain rfl := exec_pure_eq_ok.mp hloop
      simpa using h
  | cons e entries ih =>
      rw [List.foldlM_cons, exec_bind_eq_ok] at hloop
      obtain ⟨r₁, hfirst, hrest⟩ := hloop
      have hidx : e.logIndex = p.length + 1 :=
        hindexed p.length e (by simp)
      have hstep : r₁.Holds ((p ++ [e]) ++ s.tail) := by
        rw [List.append_assoc]
        refine h.mergeEntry hlen hidx (fun x hx hterm => ?_) hfirst
        exact hsame 0 x e (by rwa [← List.head?_eq_getElem?]) rfl hterm
      have hstart : r₁.lastSnapshotIncludeIndex ≤ (p ++ [e]).length := by
        rw [(mergeEntry_onlyLogs hfirst).eq, List.length_append]
        exact hlen.trans (Nat.le_add_right _ _)
      have := ih hstep hstart (by simpa using hindexed)
        (fun i x y hx hy hterm => hsame (i + 1) x y
          (by rw [← hx, List.getElem?_tail]) (by simpa using hy) hterm) hrest
      simpa [List.append_assoc, List.drop_tail] using this

/-! ## Snapshots -/

theorem compacts (h : r.Holds l) {index : ℕ} (hc : r.Compacts index r') :
    r'.Holds l := by
  obtain ⟨entry, hentry, hterm⟩ := hc.entry
  obtain ⟨hlt, hle, hget⟩ := entryAt_eq_ok hentry
  rw [h.getLastLogIndex] at hle
  have hget' := (h.entryAt?_eq_some hget).2
  have hlogs : ∀ k j es, j + k = l.length → r.lastSnapshotIncludeIndex < j + 1 →
      (List.range' (j + 1) k).mapM r.entryAt = .ok es → es = l.drop j := by
    intro k
    induction k with
    | zero =>
        intro j es hj _ hes
        have hnil : [] = es := by simpa using hes
        rw [← hnil, List.drop_eq_nil_of_le (by omega)]
    | succ k ih =>
        intro j es hj hstart hes
        rw [List.range'_succ, List.mapM_cons, exec_bind_eq_ok] at hes
        obtain ⟨e, he, hes⟩ := hes
        rw [exec_bind_eq_ok] at hes
        obtain ⟨rest, hrest, hes⟩ := hes
        have hej := (h.entryAt?_eq_some (entryAt_eq_ok he).2.2).2
        rw [Nat.add_sub_cancel] at hej
        obtain ⟨hjlt, hej⟩ := List.getElem?_eq_some_iff.mp hej
        rw [← exec_pure_eq_ok.mp hes, List.drop_eq_getElem_cons hjlt, hej,
          ih (j + 1) rest (by omega) (by omega) hrest]
  refine ⟨?_, ?_, ?_, h.indexed⟩
  · rw [hc.boundary]
    exact hle
  · rw [hc.boundary]
    have hlast := hc.logs
    rw [h.getLastLogIndex] at hlast
    exact hlogs _ index _ (by omega) (by omega) hlast
  · have htake := lastTerm_take hget'
    rw [show index - 1 + 1 = index by omega] at htake
    rw [hc.boundary, hterm, htake]

/-- An installed snapshot of the log `cp` leaves the full log as it is when it
starts with `cp`, and makes `cp` the full log when it is not longer. -/
theorem installs {args : InstallSnapshotRequest n Image}
    {cp : List LogEntry} (h : r.Holds l) (hi : r.Installs args r')
    (hlen : cp.length = args.lastSnapShotIncludeIndex)
    (hterm : lastTerm cp = args.lastSnapShotIncludeTerm)
    (hindexed : Indexed cp)
    (hpre : cp.length < l.length → cp <+: l) :
    r'.Holds (if cp.length < l.length then l else cp) := by
  have hlt := hi.lt
  have hlogs := hi.logs
  rw [h.getLastLogIndex, ← hlen] at hlogs
  split
  · next hlong =>
      rw [if_pos hlong, h.logs, List.drop_drop] at hlogs
      refine ⟨?_, ?_, ?_, h.indexed⟩
      · rw [hi.index, ← hlen]
        exact hlong.le
      · rw [hlogs, hi.index]
        congr 1
        omega
      · rw [hi.boundary, hi.index, ← hlen,
          ← List.prefix_iff_eq_take.mp (hpre hlong), hterm]
  · next hshort =>
      rw [if_neg hshort] at hlogs
      refine ⟨?_, ?_, ?_, hindexed⟩
      · rw [hi.index, hlen]
      · rw [hlogs, hi.index, ← hlen, List.drop_length]
      · rw [hi.boundary, hi.index, ← hlen, List.take_length, hterm]

end Holds

end Raft

end KVRaftStorage
