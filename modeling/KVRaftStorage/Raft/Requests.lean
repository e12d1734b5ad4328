import KVRaftStorage.Raft.FullLog

/-!
# What the requests carry

An `AppendEntries1` request carries a segment of what its term has minted, and
a snapshot stands for a grounded log.  Merging the one and installing the other
changes the full log of the receiver in the way the ledger expects, unless the
handler leaves entries behind.
-/

namespace KVRaftStorage

open Replication

variable {n : ℕ} {Image : Type}

/-- The request carries the entries behind `prevLogIndex` of what its term has
minted. -/
def Carries (m : ℕ → List LogEntry) (args : AppendEntriesArgs n) : Prop :=
  m args.term ≠ [] ∧ ∃ p, p.length = args.prevLogIndex ∧
    lastTerm p = args.prevLogTerm ∧ p ++ args.entries <+: m args.term

/-- The snapshot stands for a grounded log of terms up to that of the
request. -/
def Covers (m : ℕ → List LogEntry) (args : InstallSnapshotRequest n Image) :
    Prop :=
  ∃ cp, cp.length = args.lastSnapShotIncludeIndex ∧
    lastTerm cp = args.lastSnapShotIncludeTerm ∧ Grounded m cp ∧
    ∀ e ∈ cp, term e ≤ args.term

theorem Carries.mono {m m' : ℕ → List LogEntry} {args : AppendEntriesArgs n}
    (h : Carries m args) (hm : ∀ T, m T <+: m' T) : Carries m' args := by
  obtain ⟨hne, p, hlen, hterm, hp⟩ := h
  refine ⟨fun hnil => hne ?_, p, hlen, hterm, hp.trans (hm _)⟩
  exact List.prefix_nil.mp (hnil ▸ hm args.term)

theorem Covers.mono {m m' : ℕ → List LogEntry}
    {args : InstallSnapshotRequest n Image} (h : Covers m args)
    (hm : ∀ T, m T <+: m' T) : Covers m' args := by
  obtain ⟨cp, hlen, hterm, hground, hle⟩ := h
  exact ⟨cp, hlen, hterm, hground.mono hm, hle⟩

namespace Raft.Holds

variable {r r' : Raft n Image} {l : List LogEntry} {m : ℕ → List LogEntry}

theorem getPrevLogInfo_eq_ok (h : r.Holds l) {server : Fin n} {i t : ℕ}
    (hstep : r.getPrevLogInfo server = .ok (i, t)) :
    r.lastSnapshotIncludeIndex ≤ i ∧ i ≤ l.length ∧
      lastTerm (l.take i) = t := by
  unfold getPrevLogInfo at hstep
  split at hstep
  · obtain ⟨rfl, rfl⟩ : r.lastSnapshotIncludeIndex = i ∧
        r.lastSnapshotIncludeTerm = t := by simpa using hstep
    exact ⟨le_rfl, h.start, h.boundary.symm⟩
  · rw [exec_bind_eq_ok] at hstep
    obtain ⟨e, he, hstep⟩ := hstep
    obtain ⟨rfl, rfl⟩ : r.nextIndex server - 1 = i ∧ e.logTerm = t := by
      simpa using hstep
    obtain ⟨hlt, hle, hget⟩ := entryAt_eq_ok he
    have hterm := lastTerm_take (h.entryAt?_eq_some hget).2
    rw [h.getLastLogIndex] at hle
    refine ⟨hlt.le, hle, ?_⟩
    rwa [show r.nextIndex server - 1 - 1 + 1 = r.nextIndex server - 1 by
      omega] at hterm

/-- The request of a heartbeat carries everything behind `prevLogIndex`. -/
theorem heartBeatArgs_eq_ok (h : r.Holds l) {server : Fin n}
    {args : AppendEntriesArgs n}
    (hstep : r.heartBeatArgs server = .ok args) :
    args.term = r.currentTerm ∧ args.leaderCommit = r.commitIndex ∧
      args.prevLogIndex ≤ l.length ∧
      lastTerm (l.take args.prevLogIndex) = args.prevLogTerm ∧
      args.entries = l.drop args.prevLogIndex := by
  simp only [heartBeatArgs, exec_bind_eq_ok] at hstep
  obtain ⟨⟨i, t⟩, hprev, entries, hentries, -, -, hstep⟩ := hstep
  obtain ⟨hge, hle, hterm⟩ := h.getPrevLogInfo_eq_ok hprev
  obtain rfl := exec_pure_eq_ok.mp hstep
  refine ⟨rfl, rfl, hle, hterm, ?_⟩
  unfold entriesAfter at hentries
  split at hentries
  · rw [exec_bind_eq_ok] at hentries
    obtain ⟨slice, hslice, hentries⟩ := hentries
    obtain ⟨hlt, -, rfl⟩ := getSlicesIndexFromLogIndex_eq_ok hslice
    rw [← exec_pure_eq_ok.mp hentries, h.logs, List.drop_drop]
    exact congrArg (fun k => l.drop k)
      (show r.lastSnapshotIncludeIndex +
        (i - r.lastSnapshotIncludeIndex - 1 + 1) = i by
          simp only at hlt
          omega)
  · next heq =>
      rw [← exec_pure_eq_ok.mp hentries, h.logs, not_not.mp heq]

theorem heartBeatTo_eq_some {server : Fin n} {args : AppendEntriesArgs n}
    (hstep : r.heartBeatTo server = .ok (some args)) :
    r.heartBeatArgs server = .ok args := by
  simp only [heartBeatTo, exec_bind_eq_ok] at hstep
  obtain ⟨-, -, hstep⟩ := hstep
  split at hstep
  · simp at hstep
  · rw [exec_bind_eq_ok] at hstep
    obtain ⟨args', hargs, hstep⟩ := hstep
    obtain rfl : args' = args := by simpa using hstep
    exact hargs

theorem readIndexArgs_eq_some (h : r.Holds l) {savedTerm : ℕ}
    {server : Fin n} {args : AppendEntriesArgs n}
    (hstep : r.readIndexArgs savedTerm server = .ok (some args)) :
    r.status = .leader ∧ r.currentTerm = savedTerm ∧
      args.term = r.currentTerm ∧ args.leaderCommit = r.commitIndex ∧
      args.prevLogIndex ≤ l.length ∧
      lastTerm (l.take args.prevLogIndex) = args.prevLogTerm ∧
      args.entries = [] := by
  unfold readIndexArgs at hstep
  split at hstep
  · simp at hstep
  · next hlead =>
      push Not at hlead
      split at hstep
      · simp at hstep
      · rw [exec_bind_eq_ok] at hstep
        obtain ⟨⟨i, t⟩, hprev, hstep⟩ := hstep
        obtain ⟨-, hle, hterm⟩ := h.getPrevLogInfo_eq_ok hprev
        obtain rfl : _ = args := by simpa using hstep
        exact ⟨hlead.2, hlead.1, rfl, rfl, hle, hterm, rfl⟩

/-- The full log after a merge: it adopts the carried prefix unless it already
starts with it. -/
theorem accepts (h : r.Holds l) {args : AppendEntriesArgs n}
    {reply : AppendEntriesReply} (hground : Grounded m l)
    (hminted : Grounded m (m args.term)) (hindexed : Indexed (m args.term))
    (hcarries : Carries m args) (haccepts : r.Accepts args r' reply)
    (hclean : ¬r.KeepsStaleEntries args) :
    args.prevLogIndex + args.entries.length ≤ (m args.term).length ∧
      r'.Holds
        (if (m args.term).take (args.prevLogIndex + args.entries.length) <+: l
          then l
          else (m args.term).take
            (args.prevLogIndex + args.entries.length)) := by
  obtain ⟨-, p, hplen, hpterm, hp⟩ := hcarries
  obtain ⟨hfrom, hto, hprev⟩ :=
    getLogTermFromLogIndex_eq_ok haccepts.merges.match_prev
  have hlen : (p ++ args.entries).length =
      args.prevLogIndex + args.entries.length := by
    rw [List.length_append, hplen]
  have htake : (m args.term).take (args.prevLogIndex + args.entries.length) =
      p ++ args.entries := by
    rw [← hlen]
    exact (List.prefix_iff_eq_take.mp hp).symm
  refine ⟨hlen ▸ hp.length_le, ?_⟩
  rw [htake]
  rw [h.getLastLogIndex] at hto
  -- the log agrees with the request up to `prevLogIndex`
  have hpl : p = l.take args.prevLogIndex := by
    refine hminted.eq_of_lastTerm hground ((List.prefix_append _ _).trans hp)
      (List.take_prefix _ _) ?_ ?_
    · rw [hplen, List.length_take_of_le hto]
    · rw [hpterm, (h.termAt?_eq_some hprev).2.2]
  obtain ⟨s, rfl⟩ : ∃ s, l = p ++ s :=
    ⟨l.drop args.prevLogIndex, by rw [hpl, List.take_append_drop]⟩
  obtain ⟨r₁, r₂, hsame₁, hloop, hsame₂, -⟩ := haccepts.merges.loop
  have hmerged : r'.Holds
      (p ++ args.entries ++ s.drop args.entries.length) := by
    refine ((h.of_sameLog hsame₁).mergeEntries ?_ (hindexed.of_isPrefix hp) ?_
      hloop).of_sameLog hsame₂
    · rw [hsame₁.index, hplen]
      exact hfrom
    · intro i x e hx he hterm
      have hxlt := (List.getElem?_eq_some_iff.mp hx).1
      have helt := (List.getElem?_eq_some_iff.mp he).1
      have heq : p ++ s.take (i + 1) = p ++ args.entries.take (i + 1) := by
        refine hground.eq_of_lastTerm hminted
          (List.prefix_append_right_inj p |>.mpr (List.take_prefix _ _))
          ((List.prefix_append_right_inj p |>.mpr
            (List.take_prefix _ _)).trans hp) ?_ ?_
        · simp only [List.length_append, List.length_take]
          omega
        · rw [List.take_add_one, hx, List.take_add_one, he,
            Option.toList_some, Option.toList_some, ← List.append_assoc,
            ← List.append_assoc, lastTerm_concat, lastTerm_concat]
          exact hterm
      have hget := congrArg (fun t => t[i]?)
        (List.append_cancel_left heq)
      simp only [List.getElem?_take, Nat.lt_add_one, if_true, hx, he] at hget
      exact Option.some.inj hget
  split
  · next hin =>
      obtain ⟨t, ht⟩ := (List.prefix_append_right_inj p).mp hin
      have hall : p ++ args.entries ++ s.drop args.entries.length = p ++ s := by
        rw [← ht, List.append_assoc, List.drop_left]
      exact hall ▸ hmerged
  · next hnot =>
      have hshort : s.drop args.entries.length = [] := by
        by_contra hlong
        refine hclean ⟨⟨haccepts.le, hfrom, ?_, hprev⟩, ?_, ?_⟩
        · rw [h.getLastLogIndex]
          exact hto
        · have hpos : args.entries.length < s.length := by
            by_contra hge
            exact hlong (List.drop_eq_nil_of_le (by omega))
          rw [h.getLastLogIndex, ← hplen, List.length_append]
          omega
        · by_contra hall
          push Not at hall
          refine hnot ?_
          by_cases hnil : args.entries = []
          · rw [hnil, List.append_nil]
            exact List.prefix_append _ _
          · -- the last carried entry matches, hence all of them do
            have hlast := List.getLast_mem hnil
            have hmatch := (h.termAt?_eq_some (hall _ hlast)).2.2
            have hpos : 0 < args.entries.length :=
              List.length_pos_of_ne_nil hnil
            have hidx : (args.entries.getLast hnil).logIndex =
                (p ++ args.entries).length := by
              rw [(hindexed.of_isPrefix hp) ((p ++ args.entries).length - 1)
                (args.entries.getLast hnil)]
              · rw [List.length_append]
                omega
              · rw [← List.getLast?_eq_getElem?, List.getLast?_append,
                  List.getLast?_eq_some_getLast hnil]
                rfl
            rw [hidx] at hmatch
            have heq : p ++ args.entries =
                (p ++ s).take (p ++ args.entries).length := by
              refine hminted.eq_of_lastTerm hground hp (List.take_prefix _ _)
                ?_ ?_
              · have hle : args.entries.length ≤ s.length := by
                  by_contra hge
                  exact hlong (List.drop_eq_nil_of_le (by omega))
                simp only [List.length_take, List.length_append]
                omega
              · rw [hmatch]
                simp [lastTerm, List.getLast?_append,
                  List.getLast?_eq_some_getLast hnil]
                rfl
            rw [heq]
            exact List.take_prefix _ _
      rw [hshort, List.append_nil] at hmerged
      exact hmerged

/-- A log that is longer than an installed snapshot starts with it. -/
theorem covered_prefix (h : r.Holds l)
    {args : InstallSnapshotRequest n Image} {cp : List LogEntry}
    (hground : Grounded m l) (hcp : Grounded m cp)
    (hlen : cp.length = args.lastSnapShotIncludeIndex)
    (hterm : lastTerm cp = args.lastSnapShotIncludeTerm)
    (hinstalls : r.Installs args r')
    (hclean : ¬r.KeepsForeignEntries args) (hlt : cp.length < l.length) :
    cp <+: l := by
  have hmatch : r.termAt? args.lastSnapShotIncludeIndex =
      some args.lastSnapShotIncludeTerm := by
    by_contra hne
    refine hclean ⟨hinstalls.le, hinstalls.lt, ?_, hne⟩
    rw [h.getLastLogIndex, ← hlen]
    exact hlt
  have heq : cp = l.take cp.length := by
    refine hcp.eq_of_lastTerm hground List.prefix_rfl (List.take_prefix _ _)
      ?_ ?_
    · rw [List.length_take_of_le hlt.le]
    · rw [hterm, hlen, (h.termAt?_eq_some hmatch).2.2]
  rw [heq]
  exact List.take_prefix _ _

/-- The full log after a snapshot was installed. -/
theorem installs_covered (h : r.Holds l)
    {args : InstallSnapshotRequest n Image} {cp : List LogEntry}
    (hground : Grounded m l) (hcp : Grounded m cp) (hindexed : Indexed cp)
    (hlen : cp.length = args.lastSnapShotIncludeIndex)
    (hterm : lastTerm cp = args.lastSnapShotIncludeTerm)
    (hinstalls : r.Installs args r')
    (hclean : ¬r.KeepsForeignEntries args) :
    r'.Holds (if cp.length < l.length then l else cp) := by
  exact h.installs hinstalls hlen hterm hindexed
    (h.covered_prefix hground hcp hlen hterm hinstalls hclean)

end Raft.Holds

end KVRaftStorage
