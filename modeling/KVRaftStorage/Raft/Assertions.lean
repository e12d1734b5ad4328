import KVRaftStorage.Raft.Records

/-!
# The assertions of `raft.cpp`

A handler exits the process when one of its assertions fails.  On a node whose
indices are in order every lookup stays inside the log, so most handlers never
exit.  Two assertions look further: `AppendEntries1` compares the command of an
entry it already has, which needs that a term fills every index once; and
`doHeartBeat` reads the entry in front of `nextIndex`, which has to lie in the
log.  The second one can fail, because a follower may suggest an index behind
the end of the leader's log.
-/

namespace KVRaftStorage

variable {n : ℕ} {Image : Type}

/-! ## Handlers that do not exit -/

namespace Raft

variable {r r' : Raft n Image}

/-- The back-up loop suggests an index in the log, or the one it was given. -/
theorem backUp_ok (h : Consecutive r.lastSnapshotIncludeIndex r.logs)
    (prevLogIndex prevTerm : ℕ) {k : ℕ}
    (hle : r.lastSnapshotIncludeIndex + k ≤ r.getLastLogIndex) :
    ∃ i, r.backUp prevLogIndex prevTerm k = .ok i ∧
      (i = prevLogIndex ∨ 1 ≤ i) := by
  induction k with
  | zero =>
      obtain ⟨term, hterm⟩ := getLogTermFromLogIndex_ok h le_rfl hle
      simp only [backUp, hterm, bind, Except.bind]
      split
      · exact ⟨_, rfl, .inr (Nat.le_add_left 1 _)⟩
      · exact ⟨_, rfl, .inl rfl⟩
  | succ k ih =>
      obtain ⟨term, hterm⟩ :=
        getLogTermFromLogIndex_ok h (Nat.le_add_right _ _) hle
      simp only [backUp, hterm, bind, Except.bind]
      split
      · exact ⟨_, rfl, .inr (Nat.le_add_left 1 _)⟩
      · exact ih (by omega)

/-- A boundary at index 0 stands for the empty log. -/
def BoundaryFromStart (r : Raft n Image) : Prop :=
  r.lastSnapshotIncludeIndex = 0 → r.lastSnapshotIncludeTerm = 0

end Raft

/-- A request behind the empty log names the term of the empty log. -/
def AppendEntriesArgs.FromStart (args : AppendEntriesArgs n) : Prop :=
  args.prevLogIndex = 0 → args.prevLogTerm = 0

/-- A rejection for the term suggests no index, any other an index of the
log. -/
def AppendEntriesReply.Suggests (reply : AppendEntriesReply) : Prop :=
  reply.success = false →
    reply.updateNextIndex = -100 ∨ 1 ≤ reply.updateNextIndex

namespace Raft

variable {r r' : Raft n Image}

theorem examineEntries_ok (args : AppendEntriesArgs n)
    (h : Consecutive r.lastSnapshotIncludeIndex r.logs)
    (hcommit : r.commitIndex ≤ r.getLastLogIndex)
    (hentries : Consecutive args.prevLogIndex args.entries)
    (hcommands : SameCommands r.logs args.entries) :
    ∃ r' reply, r.examineEntries args = .ok (r', reply) ∧
      (r.BoundaryFromStart → args.FromStart → reply.Suggests) := by
  unfold examineEntries
  split
  · refine ⟨_, _, rfl, fun _ _ _ => .inr ?_⟩
    simp only [appendEntriesReply]
    omega
  next hshort =>
  split
  · refine ⟨_, _, rfl, fun _ _ _ => .inr ?_⟩
    simp only [appendEntriesReply]
    omega
  next hbehind =>
  have hge := Nat.le_of_not_lt hbehind
  have hle := Nat.le_of_not_lt hshort
  obtain ⟨prevTerm, hterm⟩ := getLogTermFromLogIndex_ok h hge hle
  have hmatch := matchLog_of_term hterm args.prevLogTerm
  by_cases hmatched : args.prevLogTerm = prevTerm
  · obtain ⟨r', hmerge, -⟩ :=
      mergeEntries_overwrites h hge hle hcommit hentries hcommands
    refine ⟨r'.persist, r'.appendEntriesReply true 0, ?_, ?_⟩
    · rw [hmatch, decide_eq_true hmatched]
      simp only [bind, Except.bind, if_true, hmerge]
      rfl
    · intro _ _ hsuccess
      simp [appendEntriesReply] at hsuccess
  · obtain ⟨i, hbackUp, hi⟩ := backUp_ok h args.prevLogIndex prevTerm
      (k := args.prevLogIndex - r.lastSnapshotIncludeIndex) (by omega)
    refine ⟨r.persist, r.appendEntriesReply false i, ?_, ?_⟩
    · simp [hmatch, bind, Except.bind, hmatched, hterm, hbackUp, pure,
        Except.pure]
    · intro hboundary hstart _
      right
      simp only [appendEntriesReply]
      rcases hi with rfl | hpos
      · -- at index 0 both terms are 0, so the request would have matched
        by_contra hzero
        have hprev : args.prevLogIndex = 0 := by omega
        have hbase : r.lastSnapshotIncludeIndex = 0 := by omega
        rw [hprev] at hterm
        simp [getLogTermFromLogIndex, myAssert, hbase, bind, Except.bind, pure,
          Except.pure, hboundary hbase] at hterm
        exact hmatched ((hstart hprev).trans hterm)
      · omega

theorem appendEntries1_ok {args : AppendEntriesArgs n} (h : r.Ordered)
    (hargs : args.Ordered) (hcommands : SameCommands r.logs args.entries) :
    ∃ r' reply, r.appendEntries1 args = .ok (r', reply) ∧
      (r.BoundaryFromStart → args.FromStart → reply.Suggests) := by
  by_cases hstale : args.term < r.currentTerm
  · refine ⟨_, _, if_pos hstale, fun _ _ _ => .inl rfl⟩
  have hsame := r.enterTerm_sameLog args.term
  have hcommit : (r.enterTerm args.term).commitIndex = r.commitIndex := by
    unfold enterTerm observeTerm
    split <;> rfl
  have hterm : args.term = (r.observeTerm args.term).currentTerm :=
    (currentTerm_observeTerm (Nat.le_of_not_lt hstale)).symm
  obtain ⟨r', reply, hexamine, hsuggests⟩ :=
    examineEntries_ok (r := r.enterTerm args.term) args
      (by rw [hsame.index, hsame.logs]; exact h.consecutive)
      (by rw [hcommit, hsame.lastLogIndex]; exact h.last) hargs.consecutive
      (by rw [hsame.logs]; exact hcommands)
  refine ⟨r', reply, ?_, fun hboundary => hsuggests ?_⟩
  · rw [appendEntries1, if_neg hstale, myAssert_ok hterm]
    exact hexamine
  · rw [BoundaryFromStart, hsame.index, hsame.term]
    exact hboundary

/-! ### Sending -/

theorem getPrevLogInfo_ok
    (h : Consecutive r.lastSnapshotIncludeIndex r.logs) {server : Fin n}
    (hlt : r.lastSnapshotIncludeIndex < r.nextIndex server)
    (hle : r.nextIndex server ≤ r.getLastLogIndex + 1) :
    ∃ term, r.getPrevLogInfo server = .ok (r.nextIndex server - 1, term) ∧
      (r.BoundaryFromStart → r.nextIndex server = 1 → term = 0) := by
  by_cases heq : r.nextIndex server = r.lastSnapshotIncludeIndex + 1
  · refine ⟨r.lastSnapshotIncludeTerm, ?_, fun hboundary hone =>
      hboundary (by omega)⟩
    rw [getPrevLogInfo, if_pos heq, heq, Nat.add_sub_cancel]
  · obtain ⟨entry, hentry, -⟩ :=
      entryAt_ok h (i := r.nextIndex server - 1) (by omega) (by omega)
    refine ⟨entry.logTerm, ?_, fun _ hone => by omega⟩
    rw [getPrevLogInfo, if_neg heq, hentry]
    rfl

theorem entriesAfter_ok
    (h : Consecutive r.lastSnapshotIncludeIndex r.logs) (prev : ℕ)
    (hge : r.lastSnapshotIncludeIndex ≤ prev) (hle : prev ≤ r.getLastLogIndex) :
    ∃ entries, r.entriesAfter prev = .ok entries ∧
      prev + entries.length = r.getLastLogIndex := by
  have hlen := getLastLogIndex_eq h
  unfold entriesAfter
  split
  · next hne =>
      rw [getSlicesIndexFromLogIndex_ok (by omega) hle]
      refine ⟨_, rfl, ?_⟩
      rw [List.length_drop]
      omega
  · next heq =>
      exact ⟨_, rfl, by omega⟩

/-- `doHeartBeat` finds the entry in front of a counter in the log. -/
theorem heartBeatTo_ok
    (h : Consecutive r.lastSnapshotIncludeIndex r.logs) {server : Fin n}
    (hpos : 1 ≤ r.nextIndex server)
    (hle : r.nextIndex server ≤ r.getLastLogIndex + 1) :
    ∃ request, r.heartBeatTo server = .ok request ∧
      ∀ args ∈ request, r.BoundaryFromStart → args.FromStart := by
  rw [heartBeatTo, myAssert_ok hpos]
  simp only [bind, Except.bind]
  by_cases hsnapshot : r.nextIndex server ≤ r.lastSnapshotIncludeIndex
  · rw [if_pos hsnapshot]
    exact ⟨none, rfl, by simp⟩
  obtain ⟨term, hprev, hterm⟩ :=
    getPrevLogInfo_ok h (Nat.lt_of_not_le hsnapshot) hle
  obtain ⟨entries, hentries, hlen⟩ :=
    entriesAfter_ok h (r.nextIndex server - 1) (by omega) (by omega)
  rw [if_neg hsnapshot, heartBeatArgs, hprev]
  simp only [bind, Except.bind, hentries, myAssert_ok hlen]
  refine ⟨_, rfl, ?_⟩
  intro args hargs hboundary hzero
  obtain rfl := Option.some.inj hargs
  simp only at hzero
  exact hterm hboundary (by omega)

theorem readIndexArgs_ok (h : r.Ordered) {savedTerm : ℕ} (server : Fin n)
    (hle : r.status = .leader →
      r.nextIndex server ≤ r.getLastLogIndex + 1) :
    ∃ request, r.readIndexArgs savedTerm server = .ok request := by
  unfold readIndexArgs
  split
  · exact ⟨none, rfl⟩
  next hleads =>
  split
  · exact ⟨none, rfl⟩
  next hsnapshot =>
  rw [not_or, not_not, not_not] at hleads
  obtain ⟨term, hprev, -⟩ :=
    getPrevLogInfo_ok h.consecutive (Nat.lt_of_not_le hsnapshot)
      (hle hleads.2)
  rw [hprev]
  exact ⟨_, rfl⟩

theorem sendAppendEntries_ok (hlast : r.commitIndex ≤ r.getLastLogIndex)
    (server : Fin n)
    {args : AppendEntriesArgs n} (reply : AppendEntriesReply) (nums : ℕ)
    (hmatch : r.status = .leader → r.matchIndex server ≤ r.getLastLogIndex)
    (hreach : args.prevLogIndex + args.entries.length ≤ r.getLastLogIndex) :
    ∃ r' nums', r.sendAppendEntries server args reply nums =
      .ok (r', nums') := by
  cases hsend : r.sendAppendEntries server args reply nums with
  | ok result => exact ⟨result.1, result.2, rfl⟩
  | error p =>
      exfalso
      unfold sendAppendEntries at hsend
      split at hsend
      · simp at hsend
      split at hsend
      · simp at hsend
      next hle =>
      split at hsend
      · simp at hsend
      next hge =>
      split at hsend
      · simp at hsend
      next hleads =>
      have hmatch := hmatch (not_not.mp hleads)
      simp only [exec_bind_eq_error, myAssert_eq_error] at hsend
      rcases hsend with ⟨hterm, -⟩ | ⟨-, -, hsend⟩
      · omega
      split at hsend
      · split at hsend <;> simp at hsend
      simp only [exec_bind_eq_error, myAssert_eq_error] at hsend
      rcases hsend with ⟨hnext, -⟩ | ⟨-, -, hsend⟩
      · apply hnext
        simp only [Function.update_self]
        change _ ≤ r.getLastLogIndex + 1
        omega
      split at hsend
      · simp only [exec_bind_eq_error, myAssert_eq_error] at hsend
        rcases hsend with ⟨hcommit, -⟩ | ⟨-, -, hsend⟩
        · apply hcommit
          split
          · exact Nat.max_le.mpr ⟨hlast, hreach⟩
          · exact hlast
        · simp at hsend
      · simp at hsend

/-! ### The other handlers -/

theorem applyLogs_ok (h : Consecutive r.lastSnapshotIncludeIndex r.logs) {k : ℕ}
    (hge : r.lastSnapshotIncludeIndex ≤ r.lastApplied)
    (hle : r.lastApplied + k ≤ r.getLastLogIndex) :
    ∃ result, r.applyLogs k = .ok result := by
  induction k generalizing r with
  | zero => exact ⟨_, rfl⟩
  | succ k ih =>
      let next := { r with lastApplied := r.lastApplied + 1 }
      obtain ⟨entry, hentry, -, hindex⟩ :=
        entryAt_ok (r := next) h (i := r.lastApplied + 1) (by
          simp only [next]
          omega) (by
          change _ ≤ r.getLastLogIndex
          omega)
      obtain ⟨⟨r', rest⟩, hrest⟩ := ih (r := next) h (by
          simp only [next]
          omega) (by
          change r.lastApplied + 1 + k ≤ r.getLastLogIndex
          omega)
      have hassert : next.myAssert (entry.logIndex = next.lastApplied) =
          .ok () := myAssert_ok hindex
      refine ⟨(r', (next.lastApplied, entry.command) :: rest), ?_⟩
      simp only [applyLogs, bind, Except.bind]
      rw [hentry]
      simp only [hassert, hrest, pure, Except.pure, next]

theorem getApplyLogs_ok (h : r.Ordered) :
    ∃ result, r.getApplyLogs = .ok result := by
  have hlast := h.last
  have happlied := h.applied
  rw [getApplyLogs, myAssert_ok hlast]
  by_cases hbehind : r.commitIndex ≤ r.lastApplied
  · rw [Nat.sub_eq_zero_of_le hbehind]
    exact ⟨_, rfl⟩
  · exact applyLogs_ok h.consecutive happlied (by omega)

theorem mapM_entryAt_ok (is : List ℕ)
    (h : ∀ i ∈ is, ∃ entry, r.entryAt i = .ok entry) :
    ∃ entries, is.mapM r.entryAt = .ok entries ∧
      entries.length = is.length := by
  induction is with
  | nil => exact ⟨[], rfl, rfl⟩
  | cons i is ih =>
      obtain ⟨entry, hentry⟩ := h i (List.mem_cons_self ..)
      obtain ⟨entries, hentries, hlen⟩ :=
        ih fun j hj => h j (List.mem_cons_of_mem _ hj)
      refine ⟨entry :: entries, ?_, by simp [hlen]⟩
      rw [List.mapM_cons, hentry]
      simp only [bind, Except.bind, hentries]
      rfl

theorem snapshot_ok (h : r.Ordered) (index : ℕ) (image : Option Image) :
    ∃ r', r.snapshot index image = .ok r' := by
  have hlast := h.last
  unfold snapshot
  split
  · exact ⟨r, rfl⟩
  next hrange =>
  obtain ⟨entry, hentry, -⟩ :=
    entryAt_ok h.consecutive (i := index) (by omega) (by omega)
  obtain ⟨entries, hentries, hlen⟩ := mapM_entryAt_ok (r := r)
    (List.range' (index + 1) (r.getLastLogIndex - index)) fun i hi => by
      rw [List.mem_range'_1] at hi
      obtain ⟨entry, hentry, -⟩ :=
        entryAt_ok h.consecutive (i := i) (by omega) (by omega)
      exact ⟨entry, hentry⟩
  rw [List.length_range'] at hlen
  simp only [bind, Except.bind, hentry, hentries]
  rw [myAssert_ok (by
    change entries.length + index = r.getLastLogIndex
    omega)]
  exact ⟨_, rfl⟩

theorem installSnapshot_ok (r : Raft n Image)
    (args : InstallSnapshotRequest n Image) :
    ∃ result, r.installSnapshot args = .ok result := by
  unfold installSnapshot
  split
  · exact ⟨_, rfl⟩
  split
  · exact ⟨_, rfl⟩
  next hnew =>
  rw [takeSnapshot, logsBehind]
  split
  · next hbehind =>
      rw [getSlicesIndexFromLogIndex_ok (Nat.lt_of_not_le hnew) hbehind.le]
      exact ⟨_, rfl⟩
  · exact ⟨_, rfl⟩

/-- A counted vote may complete the majority only of a server that is not yet
leader. -/
theorem sendRequestVote_ok {reply : RequestVoteReply} {k : ℕ}
    (h : reply.term = r.currentTerm → reply.voteGranted = true →
      n / 2 + 1 ≤ k + 1 → r.status ≠ .leader) :
    ∃ result, r.sendRequestVote k reply = .ok result := by
  unfold sendRequestVote
  split
  · exact ⟨_, rfl⟩
  next hle =>
  split
  · exact ⟨_, rfl⟩
  next hge =>
  have hterm : reply.term = r.currentTerm := by omega
  rw [myAssert_ok hterm]
  simp only [bind, Except.bind]
  split
  · exact ⟨_, rfl⟩
  next hgranted =>
  split
  · next hcount =>
      rw [myAssert_ok (h hterm (by simpa using hgranted) hcount)]
      exact ⟨_, rfl⟩
  · exact ⟨_, rfl⟩

end Raft

end KVRaftStorage
