import KVRaftStorage.Raft.Boundary

/-!
# Repairing the log of a follower

A leader and one follower exchange heartbeats and nothing else happens.  The
index that the leader tries next moves down when the follower's log is shorter
or has another term there, and up when the follower's snapshot is ahead or a
snapshot was taken over.  It settles: after at most three rounds more than the
follower has entries, the follower accepts a request and then has the log of
the leader.

There is one exception.  A follower that already has the snapshot answers with
an empty reply, which never arrives.  The leader keeps sending the snapshot if
it begins with one that the follower has.
-/

namespace KVRaftStorage

open Replication

variable {n : ℕ} {Image : Type}

namespace Raft

/-! ## The exchange -/

/-- One round: `doHeartBeat` for one peer, the handler of the follower and the
processing of the reply, with the follower's answer to `AppendEntries1`.  No
other reply of the round is counted.  An empty reply to a snapshot is not
received. -/
def exchange (server : Fin n) (leader follower : Raft n Image) :
    Exec n Image (Raft n Image × Raft n Image × Bool) := do
  match ← leader.heartBeatTo server with
  | none =>
      let args := leader.leaderSendSnapShot
      let (follower, reply, _) ← follower.installSnapshot args
      if reply.isEmpty then
        return (leader, follower, false)
      else
        return (leader.snapShotSent server args reply, follower, false)
  | some args =>
      let (follower, reply) ← follower.appendEntries1 args
      let (leader, _) ← leader.sendAppendEntries server args reply 1
      return (leader, follower, reply.success)

/-- A number of rounds. -/
def exchanges (server : Fin n) (leader follower : Raft n Image) :
    ℕ → Exec n Image (Raft n Image × Raft n Image)
  | 0 => .ok (leader, follower)
  | k + 1 => do
      let (leader, follower, _) ← leader.exchange server follower
      leader.exchanges server follower k

/-! ## The two logs -/

end Raft

/-- Logs that have the same term at an index are the same up to it. -/
def SharesHistory (l l' : List LogEntry) : Prop :=
  ∀ i, i ≤ l.length → i ≤ l'.length →
    lastTerm (l.take i) = lastTerm (l'.take i) → l.take i = l'.take i

instance (l l' : List LogEntry) : Decidable (SharesHistory l l') :=
  inferInstanceAs (Decidable (∀ i, i ≤ l.length → _))

namespace SharesHistory

variable {l l' : List LogEntry}

theorem eq_of_term (h : SharesHistory l l') {i : ℕ} {here log : LogEntry}
    (hlog : l[i]? = some log) (hhere : l'[i]? = some here)
    (hterm : here.logTerm = log.logTerm) : here = log := by
  have htake := h (i + 1) (List.getElem?_eq_some_iff.mp hlog).1
    (List.getElem?_eq_some_iff.mp hhere).1
    (by rw [lastTerm_take hlog, lastTerm_take hhere, hterm])
  have hsame := congrArg (fun l => l[i]?) htake
  simp only [List.getElem?_take, Nat.lt_add_one, if_true, hlog, hhere] at hsame
  exact (Option.some.inj hsame).symm

/-- Entries of both logs with the same index and term carry the same
command. -/
theorem sameCommands (h : SharesHistory l l') (hl : Indexed l)
    (hl' : Indexed l') (i j : ℕ) :
    Raft.SameCommands (l'.drop i) (l.drop j) := by
  intro here hhere log hlog hindex hterm
  obtain ⟨k, hk⟩ := List.mem_iff_getElem?.mp (List.mem_of_mem_drop hhere)
  obtain ⟨m, hm⟩ := List.mem_iff_getElem?.mp (List.mem_of_mem_drop hlog)
  have hk' := hl' k here hk
  have hm' := hl m log hm
  obtain rfl : k = m := by omega
  rw [h.eq_of_term hm hk hterm]

/-- The start of one log in front of the rest of the other. -/
theorem splice (h : SharesHistory l l') {k : ℕ} (hle : k ≤ l.length) :
    SharesHistory l (l.take k ++ l'.drop k) := by
  have hlen : (l.take k).length = k := List.length_take_of_le hle
  intro i hi hi' hsame
  by_cases hin : i ≤ k
  · rw [List.take_append_of_le_length (by omega), List.take_take,
      Nat.min_eq_left hin]
  · -- the rest has the terms that it had
    have hin := Nat.lt_of_not_le hin
    rw [List.length_append, hlen, List.length_drop] at hi'
    have hlt : i - 1 < l'.length := by omega
    have hget := List.getElem?_eq_getElem hlt
    have hget' : (l.take k ++ l'.drop k)[i - 1]? = some l'[i - 1] := by
      rw [List.getElem?_append_right (by omega), hlen, List.getElem?_drop,
        Nat.add_sub_cancel' (by omega), hget]
    have hold := lastTerm_take hget
    have hnew := lastTerm_take hget'
    rw [Nat.sub_add_cancel (by omega)] at hold hnew
    have htake := h i hi (by omega) (hsame.trans (hnew.trans hold.symm))
    calc l.take i
      _ = (l.take i).take k ++ (l.take i).drop k :=
        (List.take_append_drop _ _).symm
      _ = l.take k ++ (l'.take i).drop k := by
        rw [List.take_take, Nat.min_eq_left hin.le, htake]
      _ = _ := by
        rw [List.take_append, List.take_of_length_le (hlen.trans_le hin.le),
          hlen, List.drop_take]

end SharesHistory

theorem indexed_splice {l l' : List LogEntry} (hl : Indexed l)
    (hl' : Indexed l') {k : ℕ} (hle : k ≤ l.length) :
    Indexed (l.take k ++ l'.drop k) := by
  have hlen : (l.take k).length = k := List.length_take_of_le hle
  intro i entry hentry
  by_cases hi : i < k
  · rw [List.getElem?_append_left (by omega), List.getElem?_take,
      if_pos hi] at hentry
    exact hl i entry hentry
  · rw [List.getElem?_append_right (by omega), hlen, List.getElem?_drop,
      Nat.add_sub_cancel' (by omega)] at hentry
    exact hl' i entry hentry

namespace Raft

/-- A leader with the full log `l`, whose counters lie in the log. -/
structure Leading (server : Fin n) (r : Raft n Image) (l : List LogEntry) :
    Prop where
  leads : r.status = .leader
  holds : r.Holds l
  commit : r.commitIndex ≤ l.length
  matched : r.matchIndex server ≤ l.length
  next_pos : 1 ≤ r.nextIndex server
  next_le : r.nextIndex server ≤ l.length + 1

/-- A follower with the full log `l'`, which matches `l`.  Its snapshot is of
the history of `l`. -/
structure Following (r : Raft n Image) (l l' : List LogEntry) : Prop where
  holds : r.Holds l'
  commit : r.commitIndex ≤ l'.length
  shares : SharesHistory l l'
  boundary_le : r.lastSnapshotIncludeIndex ≤ l.length
  boundary : l'.take r.lastSnapshotIncludeIndex =
    l.take r.lastSnapshotIncludeIndex

/-- The two logs before a round.  `doElection` has raised the term of the
leader above 0. -/
structure CanRepair (server : Fin n) (leader follower : Raft n Image)
    (l l' : List LogEntry) : Prop where
  leading : leader.Leading server l
  following : follower.Following l l'
  term : follower.currentTerm ≤ leader.currentTerm
  term_pos : 0 < leader.currentTerm

/-- If the next heartbeat starts a `leaderSendSnapShot`, the snapshot is newer
than that of the follower. -/
def OffersNewer (server : Fin n) (leader follower : Raft n Image) : Prop :=
  leader.nextIndex server ≤ leader.lastSnapshotIncludeIndex →
    follower.lastSnapshotIncludeIndex < leader.lastSnapshotIncludeIndex

instance (server : Fin n) (leader follower : Raft n Image) :
    Decidable (leader.OffersNewer server follower) :=
  inferInstanceAs (Decidable (_ → _))

variable {r r' : Raft n Image} {l l' : List LogEntry}

theorem Holds.consecutive (h : r.Holds l) :
    Consecutive r.lastSnapshotIncludeIndex r.logs := by
  intro i entry hentry
  rw [h.logs, List.getElem?_drop] at hentry
  exact h.indexed _ entry hentry

/-! ## Requests of the leader -/

theorem heartBeatTo_snapshot {server : Fin n} (hpos : 1 ≤ r.nextIndex server)
    (hle : r.nextIndex server ≤ r.lastSnapshotIncludeIndex) :
    r.heartBeatTo server = .ok none := by
  rw [heartBeatTo, myAssert_ok hpos]
  simp only [bind, Except.bind, if_pos hle]
  rfl

theorem getPrevLogInfo_prev {server : Fin n} {i t : ℕ}
    (h : r.getPrevLogInfo server = .ok (i, t)) :
    i = r.nextIndex server - 1 := by
  unfold getPrevLogInfo at h
  split at h
  · next heq =>
      obtain ⟨rfl, -⟩ : r.lastSnapshotIncludeIndex = i ∧ _ := by simpa using h
      omega
  · rw [exec_bind_eq_ok] at h
    obtain ⟨entry, -, h⟩ := h
    obtain ⟨rfl, -⟩ : r.nextIndex server - 1 = i ∧ _ := by simpa using h
    rfl

/-- Behind the boundary a heartbeat sends the log from `nextIndex` on. -/
theorem Holds.heartBeatTo_sends (h : r.Holds l) {server : Fin n}
    (hlt : r.lastSnapshotIncludeIndex < r.nextIndex server)
    (hle : r.nextIndex server ≤ l.length + 1) :
    ∃ args, r.heartBeatTo server = .ok (some args) ∧
      args.term = r.currentTerm ∧
      args.prevLogIndex + 1 = r.nextIndex server ∧
      lastTerm (l.take args.prevLogIndex) = args.prevLogTerm ∧
      args.entries = l.drop args.prevLogIndex := by
  have hpos : 1 ≤ r.nextIndex server := by omega
  obtain ⟨request, hok, -⟩ := heartBeatTo_ok h.consecutive hpos
    (h.getLastLogIndex.symm ▸ hle)
  cases request with
  | none =>
      simp only [heartBeatTo, exec_bind_eq_ok, if_neg (Nat.not_le_of_lt hlt)]
        at hok
      obtain ⟨-, -, args, -, hnone⟩ := hok
      simp at hnone
  | some args =>
      have hargs := Holds.heartBeatTo_eq_some hok
      obtain ⟨hterm, -, -, hprev, hentries⟩ := h.heartBeatArgs_eq_ok hargs
      refine ⟨args, hok, hterm, ?_, hprev, hentries⟩
      simp only [heartBeatArgs, exec_bind_eq_ok] at hargs
      obtain ⟨⟨i, t⟩, hinfo, entries, -, -, -, hargs⟩ := hargs
      obtain rfl := exec_pure_eq_ok.mp hargs
      have := getPrevLogInfo_prev hinfo
      simp only
      omega

/-! ## Answers of the follower -/

/-- What the back-up loop suggests: the index behind the last one whose term
differs from that of `prev`, or `prev` itself if no entry differs. -/
def BacksUpTo (r : Raft n Image) (prev term u : ℕ) : Prop :=
  (∃ i, r.lastSnapshotIncludeIndex ≤ i ∧ i < prev ∧ u = i + 1 ∧
    r.getLogTermFromLogIndex i ≠ .ok term ∧
    ∀ j, i < j → j ≤ prev → r.getLogTermFromLogIndex j = .ok term) ∨
  (u = prev ∧ ∀ j, r.lastSnapshotIncludeIndex ≤ j → j ≤ prev →
    r.getLogTermFromLogIndex j = .ok term)

/-- The loop stops at `i`. -/
theorem BacksUpTo.of_ne {prev term i here : ℕ}
    (hprev : r.getLogTermFromLogIndex prev = .ok term)
    (hi : r.lastSnapshotIncludeIndex ≤ i) (hle : i ≤ prev)
    (hhere : r.getLogTermFromLogIndex i = .ok here) (hne : here ≠ term)
    (hseen : ∀ j, i < j → j ≤ prev →
      r.getLogTermFromLogIndex j = .ok term) :
    r.BacksUpTo prev term (i + 1) := by
  -- the loop starts at the index whose term it compares with
  have hlt : i < prev := by
    refine hle.lt_of_ne ?_
    rintro rfl
    exact hne (Except.ok.inj (hhere.symm.trans hprev))
  exact .inl ⟨i, hi, hlt, rfl, by simpa [hhere] using hne, hseen⟩

/-- The loop, when it has come down to `lastSnapshotIncludeIndex + k` and seen
one term only. -/
theorem backUp_spec (h : Consecutive r.lastSnapshotIncludeIndex r.logs)
    {prev term k : ℕ} (hprev : r.getLogTermFromLogIndex prev = .ok term)
    (hk : r.lastSnapshotIncludeIndex + k ≤ prev)
    (hseen : ∀ j, r.lastSnapshotIncludeIndex + k < j → j ≤ prev →
      r.getLogTermFromLogIndex j = .ok term) :
    ∃ u, r.backUp prev term k = .ok u ∧ r.BacksUpTo prev term u := by
  obtain ⟨-, hle, -⟩ := getLogTermFromLogIndex_eq_ok hprev
  induction k with
  | zero =>
      obtain ⟨here, hhere⟩ :=
        getLogTermFromLogIndex_ok h le_rfl (hk.trans hle)
      simp only [backUp, hhere, bind, Except.bind]
      split
      · next hne => exact ⟨_, rfl, .of_ne hprev le_rfl hk hhere hne hseen⟩
      · next heq =>
          refine ⟨_, rfl, .inr ⟨rfl, fun j hj hjle => ?_⟩⟩
          rcases hj.eq_or_lt with rfl | hj
          · exact not_not.mp heq ▸ hhere
          · exact hseen j hj hjle
  | succ k ih =>
      obtain ⟨here, hhere⟩ :=
        getLogTermFromLogIndex_ok h (Nat.le_add_right _ _) (hk.trans hle)
      simp only [backUp, hhere, bind, Except.bind]
      split
      · next hne =>
          exact ⟨_, rfl, .of_ne hprev (Nat.le_add_right _ _) hk hhere hne hseen⟩
      · next heq =>
          refine ih (by omega) fun j hj hjle => ?_
          rcases Nat.eq_or_lt_of_le (Nat.succ_le_of_lt hj) with rfl | hj
          · exact not_not.mp heq ▸ hhere
          · exact hseen j hj hjle

/-- The suggestion is behind the boundary and not behind the index that was
compared. -/
theorem BacksUpTo.bounds {prev term u : ℕ} (h : r.BacksUpTo prev term u)
    (hlt : r.lastSnapshotIncludeIndex < prev) :
    r.lastSnapshotIncludeIndex < u ∧ u ≤ prev := by
  rcases h with ⟨i, hi, hprev, rfl, -⟩ | ⟨rfl, -⟩
  · exact ⟨Nat.lt_succ_of_le hi, hprev⟩
  · exact ⟨hlt, le_rfl⟩

theorem appendEntries1_enters {args : AppendEntriesArgs n}
    (hle : r.currentTerm ≤ args.term) :
    r.appendEntries1 args = (r.enterTerm args.term).examineEntries args := by
  rw [appendEntries1, if_neg (Nat.not_lt_of_le hle),
    myAssert_ok (currentTerm_observeTerm hle).symm]
  rfl

/-- The term at `prevLogIndex` differs, and the back-up loop runs. -/
theorem Holds.examineEntries_mismatch (h : r.Holds l')
    {args : AppendEntriesArgs n}
    (hlt : r.lastSnapshotIncludeIndex < args.prevLogIndex)
    (hle : args.prevLogIndex ≤ l'.length)
    (hne : lastTerm (l'.take args.prevLogIndex) ≠ args.prevLogTerm) :
    ∃ u : ℕ, r.examineEntries args =
        .ok (r.persist, r.appendEntriesReply false u) ∧
      r.BacksUpTo args.prevLogIndex
        (lastTerm (l'.take args.prevLogIndex)) u := by
  have hlast := h.getLastLogIndex
  have hterm := getLogTermFromLogIndex_of_termAt? h.consecutive hlt.le
    (by omega) (h.termAt?_eq hlt.le hle)
  obtain ⟨u, hbackUp, hu⟩ := backUp_spec h.consecutive hterm
    (k := args.prevLogIndex - r.lastSnapshotIncludeIndex) (by omega)
    (by omega)
  refine ⟨u, ?_, hu⟩
  rw [examineEntries, if_neg (by omega), if_neg (by omega),
    matchLog_of_term hterm, decide_eq_false (Ne.symm hne)]
  simp [bind, Except.bind, hterm, hbackUp, pure, Except.pure]

/-- The request continues a prefix of both logs: it is merged, and the log
starts with that of the leader. -/
theorem Holds.examineEntries_match (h : r.Holds l') (hl : Indexed l)
    (hshares : SharesHistory l l') (hcommit : r.commitIndex ≤ l'.length)
    {args : AppendEntriesArgs n}
    (hge : r.lastSnapshotIncludeIndex ≤ args.prevLogIndex)
    (hle : args.prevLogIndex ≤ l'.length) (hle' : args.prevLogIndex ≤ l.length)
    (hprev : lastTerm (l.take args.prevLogIndex) = args.prevLogTerm)
    (hentries : args.entries = l.drop args.prevLogIndex)
    (hmatch : lastTerm (l'.take args.prevLogIndex) = args.prevLogTerm) :
    ∃ r' : Raft n Image, r.examineEntries args =
        .ok (r'.persist, r'.appendEntriesReply true 0) ∧
      r'.Holds (l ++ l'.drop l.length) ∧
      r'.lastSnapshotIncludeIndex = r.lastSnapshotIncludeIndex ∧
      r'.currentTerm = r.currentTerm ∧
      r'.commitIndex ≤ r'.getLastLogIndex := by
  have hlast := h.getLastLogIndex
  have htake := hshares _ hle' hle (hprev.trans hmatch.symm)
  have hconsecutive : Consecutive args.prevLogIndex args.entries := by
    intro i entry hentry
    rw [hentries, List.getElem?_drop] at hentry
    exact hl _ entry hentry
  obtain ⟨r', hmerge, heq, hcommit'⟩ := mergeEntries_overwrites h.consecutive
    hge (by omega) (by omega) hconsecutive
    (hentries ▸ h.logs ▸ hshares.sameCommands hl h.indexed _ _)
  refine ⟨r', examineEntries_of_match ?_ hmerge, ?_, ?_, ?_, hcommit'⟩
  · exact getLogTermFromLogIndex_of_termAt? h.consecutive hge (by omega)
      (hmatch ▸ h.termAt?_eq hge hle)
  · obtain ⟨r₂, hloop, -, rfl⟩ := mergeEntries_eq_ok hmerge
    have hlen : (l.take args.prevLogIndex).length = args.prevLogIndex :=
      List.length_take_of_le hle'
    have hsplit : r.Holds
        (l.take args.prevLogIndex ++ l'.drop args.prevLogIndex) := by
      rw [htake, List.take_append_drop]
      exact h
    have hmerged := hsplit.mergeEntries (hlen.symm ▸ hge)
      (by rwa [hentries, List.take_append_drop]) (fun i x e hx he hterm => ?_)
      hloop
    · rw [hentries, List.take_append_drop, List.length_drop, List.drop_drop,
        Nat.add_sub_cancel' hle'] at hmerged
      exact hmerged.of_sameLog ⟨rfl, rfl, rfl⟩
    · rw [hentries] at he
      rw [List.getElem?_drop] at hx he
      exact hshares.eq_of_term he hx hterm
  · rw [heq]
  · rw [heq]

/-! ## What the leader makes of it -/

namespace Leading

variable {server : Fin n}

theorem of_counters (h : r.Leading server l) (hsame : r.SameLog r')
    (hstatus : r'.status = r.status) (hcommit : r'.commitIndex ≤ l.length)
    {i j : ℕ} (hnext : r'.nextIndex server = i)
    (hmatch : r'.matchIndex server = j) (hpos : 1 ≤ i) (hi : i ≤ l.length + 1)
    (hj : j ≤ l.length) : r'.Leading server l where
  leads := hstatus.trans h.leads
  holds := h.holds.of_sameLog hsame
  commit := hcommit
  matched := hmatch.trans_le hj
  next_pos := hnext ▸ hpos
  next_le := hnext ▸ hi

/-- The follower suggests another index. -/
theorem rejected (h : r.Leading server l) (args : AppendEntriesArgs n)
    (reply : AppendEntriesReply) (hstate : reply.appState = .appNormal)
    (hterm : reply.term = r.currentTerm) (hfail : reply.success = false) {u : ℕ}
    (hu : reply.updateNextIndex = u) (hpos : 1 ≤ u) (hle : u ≤ l.length + 1) :
    ∃ r' nums, r.sendAppendEntries server args reply 1 = .ok (r', nums) ∧
      r'.Leading server l ∧ r'.currentTerm = r.currentTerm ∧
      r'.lastSnapshotIncludeIndex = r.lastSnapshotIncludeIndex ∧
      r'.nextIndex server = u := by
  refine ⟨{ r with nextIndex := Function.update r.nextIndex server u }, 1, ?_,
    h.of_counters ⟨rfl, rfl, rfl⟩ rfl h.commit
      (Function.update_self server u r.nextIndex) rfl hpos hle h.matched, rfl,
    rfl, Function.update_self server u r.nextIndex⟩
  have hne : (u : ℤ) ≠ -100 := by omega
  rw [sendAppendEntries, if_neg (by simp [hstate]), if_neg (by omega),
    if_neg (by omega), if_neg (not_not.mpr h.leads), myAssert_ok hterm]
  simp only [bind, Except.bind, hfail, if_true, hu, if_pos hne]
  rfl

/-- The follower has accepted everything. -/
theorem accepted (h : r.Leading server l) {args : AppendEntriesArgs n}
    (reply : AppendEntriesReply) (hstate : reply.appState = .appNormal)
    (hterm : reply.term = r.currentTerm) (hsuccess : reply.success = true)
    (hreach : args.prevLogIndex + args.entries.length = l.length) :
    ∃ r' nums, r.sendAppendEntries server args reply 1 = .ok (r', nums) ∧
      r'.Leading server l ∧ r'.currentTerm = r.currentTerm ∧
      r'.nextIndex server = l.length + 1 := by
  have hlast := h.holds.getLastLogIndex
  have hmatched := h.matched
  have hend : args.prevLogIndex + args.entries.length ≤ r.getLastLogIndex := by
    omega
  obtain ⟨r', nums, hsend⟩ := sendAppendEntries_ok (hlast.symm ▸ h.commit)
    server reply 1 (fun _ => hlast.symm ▸ hmatched) hend
  refine ⟨r', nums, hsend, ?_⟩
  have hcommit := h.commit
  have hraised : max (r.matchIndex server)
      (args.prevLogIndex + args.entries.length) = l.length := by
    omega
  have hkept : ∀ commitIndex ≤ l.length, ({ r with
      commitIndex := commitIndex
      matchIndex := Function.update r.matchIndex server l.length
      nextIndex := Function.update r.nextIndex server (l.length + 1) }
        : Raft n Image).Leading server l :=
    fun commitIndex hle => h.of_counters ⟨rfl, rfl, rfl⟩ rfl hle
      (Function.update_self server _ _) (Function.update_self server _ _)
      (Nat.le_add_left 1 _) le_rfl le_rfl
  have hnext := Function.update_self server (l.length + 1) r.nextIndex
  rw [sendAppendEntries, if_neg (by simp [hstate]), if_neg (by omega),
    if_neg (by omega), if_neg (not_not.mpr h.leads), exec_bind_eq_ok] at hsend
  obtain ⟨-, -, hsend⟩ := hsend
  rw [if_neg (by simp [hsuccess]), hraised, exec_bind_eq_ok] at hsend
  obtain ⟨-, -, hsend⟩ := hsend
  split at hsend
  · rw [exec_bind_eq_ok] at hsend
    obtain ⟨-, -, hsend⟩ := hsend
    obtain ⟨rfl, -⟩ : _ = r' ∧ _ := by simpa using hsend
    split
    · exact ⟨hkept _ (by omega), rfl, hnext⟩
    · exact ⟨hkept _ hcommit, rfl, hnext⟩
  · obtain ⟨rfl, -⟩ : _ = r' ∧ _ := by simpa using hsend
    exact ⟨hkept _ hcommit, rfl, hnext⟩

/-- A snapshot was answered. -/
theorem snapShotSent (h : r.Leading server l)
    {reply : InstallSnapshotResponse} (hterm : reply.term ≤ r.currentTerm) :
    (r.snapShotSent server r.leaderSendSnapShot reply).Leading server l ∧
      (r.snapShotSent server r.leaderSendSnapShot reply).currentTerm =
        r.currentTerm ∧
      (r.snapShotSent server r.leaderSendSnapShot
        reply).lastSnapshotIncludeIndex = r.lastSnapshotIncludeIndex ∧
      (r.snapShotSent server r.leaderSendSnapShot reply).nextIndex server =
        r.lastSnapshotIncludeIndex + 1 := by
  rw [Raft.snapShotSent, if_neg (by simp [h.leads, leaderSendSnapShot]),
    if_neg (Nat.not_lt_of_le hterm)]
  exact ⟨h.of_counters ⟨rfl, rfl, rfl⟩ rfl h.commit
    (Function.update_self server _ _) (Function.update_self server _ _)
    (Nat.le_add_left 1 _) (Nat.succ_le_succ h.holds.start) h.holds.start, rfl,
    rfl, Function.update_self server _ _⟩

end Leading

/-! ## A round -/

namespace Following

/-- The follower has only stored what it has. -/
theorem of_sameLog (h : r.Following l l') (hsame : r.SameLog r')
    (hcommit : r'.commitIndex = r.commitIndex) : r'.Following l l' where
  holds := h.holds.of_sameLog hsame
  commit := hcommit.trans_le h.commit
  shares := h.shares
  boundary_le := hsame.index.trans_le h.boundary_le
  boundary := hsame.index.symm ▸ h.boundary

theorem enterTerm (h : r.Following l l') (term : ℕ) :
    (r.enterTerm term).Following l l' := by
  apply h.of_sameLog (r.enterTerm_sameLog term)
  unfold Raft.enterTerm observeTerm
  split <;> rfl

/-- The follower now has the log of the leader. -/
theorem merged (h : r.Following l l')
    (hholds : r'.Holds (l ++ l'.drop l.length))
    (hindex : r'.lastSnapshotIncludeIndex = r.lastSnapshotIncludeIndex)
    (hcommit : r'.commitIndex ≤ r'.getLastLogIndex) :
    r'.Following l (l ++ l'.drop l.length) where
  holds := hholds
  commit := hholds.getLastLogIndex ▸ hcommit
  shares := fun i hi _ _ => (List.take_append_of_le_length hi).symm
  boundary_le := hindex.trans_le h.boundary_le
  boundary := by
    rw [hindex, List.take_append_of_le_length h.boundary_le]

/-- The follower has taken over the snapshot of the leader.  Entries behind it
may be left of another history. -/
theorem installed (h : r.Following l l')
    {args : InstallSnapshotRequest n Image} (hinstalls : r.Installs args r')
    (hl : Indexed l) (hle : args.lastSnapShotIncludeIndex ≤ l.length)
    (hterm : args.lastSnapShotIncludeTerm =
      lastTerm (l.take args.lastSnapShotIncludeIndex)) :
    r'.Following l (l.take args.lastSnapShotIncludeIndex ++
      l'.drop args.lastSnapShotIncludeIndex) := by
  have hlen : (l.take args.lastSnapShotIncludeIndex).length =
      args.lastSnapShotIncludeIndex := List.length_take_of_le hle
  have hlt := hinstalls.lt
  have hboundary : (l.take args.lastSnapShotIncludeIndex ++
      l'.drop args.lastSnapShotIncludeIndex).take
        args.lastSnapShotIncludeIndex =
      l.take args.lastSnapShotIncludeIndex := List.take_left' hlen
  constructor
  · constructor
    · rw [hinstalls.index, List.length_append, hlen]
      exact Nat.le_add_right _ _
    · rw [hinstalls.logs, hinstalls.index, List.drop_left' hlen,
        h.holds.getLastLogIndex, h.holds.logs, List.drop_drop,
        Nat.add_sub_cancel' hlt.le]
      split
      · rfl
      · rw [List.drop_eq_nil_of_le (by omega)]
    · rw [hinstalls.boundary, hinstalls.index, hboundary, hterm]
    · exact indexed_splice hl h.holds.indexed hle
  · have hcommit := h.commit
    rw [hinstalls.commit, List.length_append, hlen, List.length_drop]
    omega
  · exact h.shares.splice hle
  · rw [hinstalls.index]
    exact hle
  · rw [hinstalls.index]
    exact hboundary

end Following

theorem currentTerm_enterSnapshot {term : ℕ} (hle : r.currentTerm ≤ term) :
    (r.enterSnapshot term).currentTerm = term := by
  unfold enterSnapshot installTerm
  split
  · rfl
  · next hlt => exact Nat.le_antisymm hle (Nat.le_of_not_lt hlt)

/-- A snapshot that the follower already has gets an empty reply. -/
theorem installSnapshot_unanswered {args : InstallSnapshotRequest n Image}
    (hle : r.currentTerm ≤ args.term)
    (hold : args.lastSnapShotIncludeIndex ≤ r.lastSnapshotIncludeIndex) :
    r.installSnapshot args =
      .ok (r.enterSnapshot args.term, { term := 0 }, none) := by
  have hindex := (r.enterSnapshot_refuses args.term).log.index
  rw [installSnapshot, if_neg (Nat.not_lt_of_le hle),
    if_pos (hindex.symm ▸ hold)]

/-- A newer snapshot is answered with the term. -/
theorem installSnapshot_answered {args : InstallSnapshotRequest n Image}
    {reply : InstallSnapshotResponse} {msg : Option (ApplyMsg Image)}
    (hle : r.currentTerm ≤ args.term)
    (hnew : r.lastSnapshotIncludeIndex < args.lastSnapShotIncludeIndex)
    (h : r.installSnapshot args = .ok (r', reply, msg)) :
    reply.term = args.term ∧ r'.currentTerm = args.term := by
  have hindex := (r.enterSnapshot_refuses args.term).log.index
  rw [installSnapshot, if_neg (Nat.not_lt_of_le hle),
    if_neg (hindex.symm ▸ Nat.not_le_of_lt hnew)] at h
  simp only [takeSnapshot, exec_bind_eq_ok] at h
  obtain ⟨logs, -, h⟩ := h
  obtain ⟨rfl, rfl, -⟩ : _ = r' ∧ _ = reply ∧ _ := by simpa using h
  exact ⟨currentTerm_enterSnapshot hle, currentTerm_enterSnapshot hle⟩

/-- The follower takes over a newer snapshot. -/
theorem Following.install (h : r.Following l l')
    {args : InstallSnapshotRequest n Image} {reply : InstallSnapshotResponse}
    {msg : Option (ApplyMsg Image)} (hterm : r.currentTerm ≤ args.term)
    (hl : Indexed l) (hle : args.lastSnapShotIncludeIndex ≤ l.length)
    (hlast : args.lastSnapShotIncludeTerm =
      lastTerm (l.take args.lastSnapShotIncludeIndex))
    (hnew : r.lastSnapshotIncludeIndex < args.lastSnapShotIncludeIndex)
    (hok : r.installSnapshot args = .ok (r', reply, msg)) :
    (∃ l'', r'.Following l l'') ∧
      r'.lastSnapshotIncludeIndex = args.lastSnapShotIncludeIndex := by
  have hcurrent : ¬r.Outdated args :=
    not_or.mpr ⟨Nat.not_lt_of_le hterm, Nat.not_le_of_lt hnew⟩
  have htakes := (installSnapshot_takesOver h.holds.consecutive hok hcurrent).1
  have hinstalls := (installSnapshot_eq_ok hok).resolve_left fun hquiet =>
    hnew.ne (hquiet.1.log.index.symm.trans htakes.index)
  exact ⟨⟨_, h.installed hinstalls hl hle hlast⟩, htakes.index⟩

namespace CanRepair

variable {server : Fin n} {leader follower : Raft n Image}

/-- The next index is in front of the leader's log, and the snapshot is newer
than that of the follower. -/
theorem exchange_snapshot (h : CanRepair server leader follower l l')
    (hle : leader.nextIndex server ≤ leader.lastSnapshotIncludeIndex)
    (hnew : follower.lastSnapshotIncludeIndex <
      leader.lastSnapshotIncludeIndex) :
    ∃ leader' follower', leader.exchange server follower =
        .ok (leader', follower', false) ∧
      (∃ l'', CanRepair server leader' follower' l l'') ∧
      leader'.lastSnapshotIncludeIndex = leader.lastSnapshotIncludeIndex ∧
      leader'.nextIndex server = leader.lastSnapshotIncludeIndex + 1 ∧
      follower'.lastSnapshotIncludeIndex =
        leader.lastSnapshotIncludeIndex := by
  obtain ⟨⟨follower', reply, msg⟩, hinstall⟩ :=
    follower.installSnapshot_ok leader.leaderSendSnapShot
  obtain ⟨hreply, hterm⟩ := installSnapshot_answered h.term hnew hinstall
  have hreply : reply.term = leader.currentTerm := hreply
  have hreceived : reply.isEmpty = false :=
    decide_eq_false (hreply.symm ▸ h.term_pos.ne')
  obtain ⟨hleading, hterm', hindex', hnext⟩ :=
    h.leading.snapShotSent hreply.le
  have hholds := h.leading.holds
  obtain ⟨⟨l'', hfollowing⟩, hindex⟩ := h.following.install h.term
    hholds.indexed hholds.start hholds.boundary hnew hinstall
  refine ⟨_, follower', ?_, ⟨l'', hleading, hfollowing,
    (hterm.trans hterm'.symm).le, hterm'.symm ▸ h.term_pos⟩, hindex', hnext,
    hindex⟩
  rw [exchange, heartBeatTo_snapshot h.leading.next_pos hle]
  simp only [bind, Except.bind, hinstall, hreceived]
  rfl

/-- The follower already has the snapshot, and the leader does not learn
it. -/
theorem exchange_unanswered (h : CanRepair server leader follower l l')
    (hle : leader.nextIndex server ≤ leader.lastSnapshotIncludeIndex)
    (hold : leader.lastSnapshotIncludeIndex ≤
      follower.lastSnapshotIncludeIndex) :
    ∃ follower', leader.exchange server follower =
        .ok (leader, follower', false) ∧
      CanRepair server leader follower' l l' ∧
      follower'.lastSnapshotIncludeIndex =
        follower.lastSnapshotIncludeIndex := by
  have hrefuses := follower.enterSnapshot_refuses leader.currentTerm
  refine ⟨follower.enterSnapshot leader.currentTerm, ?_,
    ⟨h.leading, h.following.of_sameLog hrefuses.log ?_,
      (currentTerm_enterSnapshot h.term).le, h.term_pos⟩, hrefuses.log.index⟩
  · have hinstall : follower.installSnapshot leader.leaderSendSnapShot = _ :=
      installSnapshot_unanswered h.term hold
    rw [exchange, heartBeatTo_snapshot h.leading.next_pos hle]
    simp only [bind, Except.bind, hinstall]
    rfl
  · unfold enterSnapshot installTerm
    split <;> rfl

/-- The follower rejects the request and suggests another index. -/
theorem exchange_rejected (h : CanRepair server leader follower l l')
    {args : AppendEntriesArgs n}
    (hargs : leader.heartBeatTo server = .ok (some args))
    (hterm : args.term = leader.currentTerm) {u : ℕ}
    (hexamine : (follower.enterTerm args.term).examineEntries args =
      .ok ((follower.enterTerm args.term).persist,
        (follower.enterTerm args.term).appendEntriesReply false u))
    (hpos : 1 ≤ u) (hle : u ≤ l.length + 1) :
    ∃ leader' follower', leader.exchange server follower =
        .ok (leader', follower', false) ∧
      CanRepair server leader' follower' l l' ∧
      leader'.lastSnapshotIncludeIndex = leader.lastSnapshotIncludeIndex ∧
      leader'.nextIndex server = u ∧
      follower'.lastSnapshotIncludeIndex = follower.lastSnapshotIncludeIndex ∧
      follower'.getLastLogIndex = follower.getLastLogIndex := by
  have hfollows : follower.currentTerm ≤ args.term := hterm.symm ▸ h.term
  have hentered : (follower.enterTerm args.term).currentTerm =
      leader.currentTerm := (currentTerm_observeTerm hfollows).trans hterm
  have hsame := follower.enterTerm_sameLog args.term
  obtain ⟨leader', nums, hsend, hleading, hterm', hindex, hnext⟩ :=
    h.leading.rejected args
      ((follower.enterTerm args.term).appendEntriesReply false u) rfl hentered
      rfl rfl hpos hle
  refine ⟨leader', (follower.enterTerm args.term).persist, ?_,
    ⟨hleading, (h.following.enterTerm args.term).of_sameLog ⟨rfl, rfl, rfl⟩ rfl,
      (hentered.trans hterm'.symm).le, hterm'.symm ▸ h.term_pos⟩, hindex, hnext,
    hsame.index, hsame.lastLogIndex⟩
  rw [exchange, hargs]
  simp only [bind, Except.bind, appendEntries1_enters hfollows, hexamine, hsend]
  rfl

/-- The follower accepts the request and takes the entries of the leader. -/
theorem exchange_accepted (h : CanRepair server leader follower l l')
    {args : AppendEntriesArgs n}
    (hargs : leader.heartBeatTo server = .ok (some args))
    (hterm : args.term = leader.currentTerm)
    (hend : args.prevLogIndex + args.entries.length = l.length)
    {r : Raft n Image}
    (hexamine : (follower.enterTerm args.term).examineEntries args =
      .ok (r.persist, r.appendEntriesReply true 0))
    (hfollowing : r.Following l (l ++ l'.drop l.length))
    (hsame : r.currentTerm = (follower.enterTerm args.term).currentTerm) :
    ∃ leader' follower', leader.exchange server follower =
        .ok (leader', follower', true) ∧
      CanRepair server leader' follower' l (l ++ l'.drop l.length) ∧
      leader'.nextIndex server = l.length + 1 := by
  have hfollows : follower.currentTerm ≤ args.term := hterm.symm ▸ h.term
  have hcurrent : r.currentTerm = leader.currentTerm :=
    hsame.trans ((currentTerm_observeTerm hfollows).trans hterm)
  obtain ⟨leader', nums, hsend, hleading, hterm', hnext⟩ :=
    h.leading.accepted (r.appendEntriesReply true 0) rfl hcurrent rfl hend
  refine ⟨leader', r.persist, ?_,
    ⟨hleading, hfollowing.of_sameLog ⟨rfl, rfl, rfl⟩ rfl,
      (hcurrent.trans hterm'.symm).le, hterm'.symm ▸ h.term_pos⟩, hnext⟩
  rw [exchange, hargs]
  simp only [bind, Except.bind, appendEntries1_enters hfollows, hexamine, hsend]
  rfl

/-- The next index is in the leader's log. -/
theorem exchange_append (h : CanRepair server leader follower l l')
    (hlt : leader.lastSnapshotIncludeIndex < leader.nextIndex server) :
    (∃ leader' follower', leader.exchange server follower =
        .ok (leader', follower', true) ∧
      CanRepair server leader' follower' l (l ++ l'.drop l.length) ∧
      leader'.nextIndex server = l.length + 1) ∨
    ∃ leader' follower' u, leader.exchange server follower =
        .ok (leader', follower', false) ∧
      CanRepair server leader' follower' l l' ∧
      leader'.lastSnapshotIncludeIndex = leader.lastSnapshotIncludeIndex ∧
      leader'.nextIndex server = u ∧
      follower'.lastSnapshotIncludeIndex = follower.lastSnapshotIncludeIndex ∧
      follower'.getLastLogIndex = follower.getLastLogIndex ∧
      (follower.getLastLogIndex + 1 < leader.nextIndex server ∧
          u = follower.getLastLogIndex + 1 ∨
        leader.nextIndex server ≤ follower.lastSnapshotIncludeIndex ∧
          u = follower.lastSnapshotIncludeIndex + 1 ∨
        leader.nextIndex server ≤ follower.getLastLogIndex + 1 ∧
          follower.lastSnapshotIncludeIndex < u ∧
          u < leader.nextIndex server) := by
  have hnext_le := h.leading.next_le
  obtain ⟨args, hargs, hterm, hprev, hprevTerm, hentries⟩ :=
    h.leading.holds.heartBeatTo_sends hlt hnext_le
  have hsame := follower.enterTerm_sameLog args.term
  have hentered := h.following.enterTerm args.term
  have hlast := hentered.holds.getLastLogIndex
  have hlast' := hsame.lastLogIndex
  have hindex := hsame.index
  have hboundary := h.following.boundary_le
  by_cases hshort : follower.getLastLogIndex < args.prevLogIndex
  · -- the log of the follower is too short
    right
    obtain ⟨leader', follower', hok, hrepairs, hindex', hnext, hindices⟩ :=
      h.exchange_rejected (u := follower.getLastLogIndex + 1) hargs hterm
        (by rw [examineEntries, if_pos (by omega), hlast']; rfl) (by omega)
        (by omega)
    exact ⟨leader', follower', _, hok, hrepairs, hindex', hnext, hindices.1,
      hindices.2, .inl ⟨by omega, rfl⟩⟩
  by_cases hbehind : args.prevLogIndex < follower.lastSnapshotIncludeIndex
  · -- the snapshot of the follower is ahead
    right
    obtain ⟨leader', follower', hok, hrepairs, hindex', hnext, hindices⟩ :=
      h.exchange_rejected (u := follower.lastSnapshotIncludeIndex + 1) hargs
        hterm (by
          rw [examineEntries, if_neg (by omega), if_pos (by omega), hindex]
          rfl) (by omega) (by omega)
    exact ⟨leader', follower', _, hok, hrepairs, hindex', hnext, hindices.1,
      hindices.2, .inr (.inl ⟨by omega, rfl⟩)⟩
  by_cases hmatch : lastTerm (l'.take args.prevLogIndex) = args.prevLogTerm
  · left
    obtain ⟨r, hexamine, hholds, hindex', hterm', hcommit⟩ :=
      hentered.holds.examineEntries_match h.leading.holds.indexed
        hentered.shares hentered.commit (by omega) (by omega) (by omega)
        hprevTerm hentries hmatch
    have hend : args.prevLogIndex + args.entries.length = l.length := by
      rw [hentries, List.length_drop]
      omega
    exact h.exchange_accepted hargs hterm hend hexamine
      (hentered.merged hholds hindex' hcommit) hterm'
  · right
    have hne : follower.lastSnapshotIncludeIndex ≠ args.prevLogIndex := by
      rintro heq
      rw [← heq, h.following.boundary, heq] at hmatch
      exact hmatch hprevTerm
    obtain ⟨u, hexamine, hbacks⟩ := hentered.holds.examineEntries_mismatch
      (by omega) (by omega) hmatch
    have hu := hbacks.bounds (by omega)
    obtain ⟨leader', follower', hok, hrepairs, hindex', hnext, hindices⟩ :=
      h.exchange_rejected hargs hterm hexamine (by omega) (by omega)
    exact ⟨leader', follower', u, hok, hrepairs, hindex', hnext, hindices.1,
      hindices.2, .inr (.inr ⟨by omega, by omega, by omega⟩)⟩

end CanRepair

/-! ## The number of rounds -/

/-- How many rounds it takes at most until the follower accepts a request. -/
def roundsLeft (server : Fin n) (leader follower : Raft n Image) : ℕ :=
  let next := leader.nextIndex server
  if next ≤ leader.lastSnapshotIncludeIndex then 2
  else if next ≤ follower.lastSnapshotIncludeIndex then 2
  else if next = follower.lastSnapshotIncludeIndex + 1 then 1
  else if next ≤ follower.getLastLogIndex + 1 then
    next - follower.lastSnapshotIncludeIndex + 1
  else
    follower.getLastLogIndex - follower.lastSnapshotIncludeIndex + 3

namespace CanRepair

variable {server : Fin n} {leader follower : Raft n Image}

theorem roundsLeft_pos : 0 < leader.roundsLeft server follower := by
  unfold roundsLeft
  dsimp only
  split_ifs <;> omega

theorem roundsLeft_le (h : CanRepair server leader follower l l') :
    leader.roundsLeft server follower ≤ follower.logs.length + 3 := by
  have hlen := getLastLogIndex_eq h.following.holds.consecutive
  unfold roundsLeft
  dsimp only
  split_ifs <;> omega

/-- A round succeeds, or fewer rounds are left. -/
theorem exchange_step (h : CanRepair server leader follower l l')
    (hoffers : leader.OffersNewer server follower) :
    ∃ leader' follower' l'' success, leader.exchange server follower =
        .ok (leader', follower', success) ∧
      CanRepair server leader' follower' l l'' ∧
      leader'.OffersNewer server follower' ∧
      (success = true ∧ l <+: l'' ∨
        success = false ∧ leader'.roundsLeft server follower' <
          leader.roundsLeft server follower) := by
  have hlast := h.following.holds.start
  rw [← h.following.holds.getLastLogIndex] at hlast
  by_cases hle : leader.nextIndex server ≤ leader.lastSnapshotIncludeIndex
  · obtain ⟨leader', follower', hok, ⟨l'', hrepairs⟩, hindex, hnext,
      hboundary⟩ := h.exchange_snapshot hle (hoffers hle)
    refine ⟨leader', follower', l'', false, hok, hrepairs, ?_, .inr ⟨rfl, ?_⟩⟩
    · unfold OffersNewer
      omega
    · simp only [roundsLeft, hindex, hnext, hboundary, if_pos hle]
      split_ifs <;> omega
  · rcases h.exchange_append (Nat.lt_of_not_le hle) with
      ⟨leader', follower', hok, hrepairs, hnext⟩ |
        ⟨leader', follower', u, hok, hrepairs, hindex, hnext, hboundary, hend,
          hu⟩
    · refine ⟨leader', follower', _, true, hok, hrepairs, fun hle' => ?_,
        .inl ⟨rfl, List.prefix_append _ _⟩⟩
      have := hrepairs.leading.holds.start
      omega
    · refine ⟨leader', follower', l', false, hok, hrepairs, ?_, .inr ⟨rfl, ?_⟩⟩
      · unfold OffersNewer
        omega
      · simp only [roundsLeft, hindex, hnext, hboundary, hend, if_neg hle]
        split_ifs <;> omega

/-- A snapshot that is not newer is sent over and over. -/
theorem exchange_repeats (h : CanRepair server leader follower l l')
    (hold : ¬leader.OffersNewer server follower) :
    ∃ follower', leader.exchange server follower =
        .ok (leader, follower', false) ∧
      CanRepair server leader follower' l l' ∧
      ¬leader.OffersNewer server follower' := by
  simp only [OffersNewer, Classical.not_imp, not_lt] at hold
  obtain ⟨follower', hok, hrepairs, hindex⟩ :=
    h.exchange_unanswered hold.1 hold.2
  refine ⟨follower', hok, hrepairs, ?_⟩
  simp only [OffersNewer, Classical.not_imp, not_lt]
  exact ⟨hold.1, hold.2.trans hindex.ge⟩

theorem exchanges_repeat (h : CanRepair server leader follower l l')
    (hold : ¬leader.OffersNewer server follower) (k : ℕ) :
    ∃ follower', leader.exchanges server follower k =
        .ok (leader, follower') ∧
      CanRepair server leader follower' l l' ∧
      ¬leader.OffersNewer server follower' := by
  induction k generalizing follower with
  | zero => exact ⟨follower, rfl, h, hold⟩
  | succ k ih =>
      obtain ⟨follower₁, hok, h₁, hold₁⟩ := h.exchange_repeats hold
      obtain ⟨follower', hrest, hrepairs⟩ := ih h₁ hold₁
      refine ⟨follower', ?_, hrepairs⟩
      rw [exchanges, hok]
      exact hrest

/-- However many rounds there are, all of them take place and the next index
stays in the log. -/
theorem exchanges_ok (h : CanRepair server leader follower l l') (k : ℕ) :
    ∃ leader' follower' l'', leader.exchanges server follower k =
        .ok (leader', follower') ∧
      CanRepair server leader' follower' l l'' := by
  by_cases hoffers : leader.OffersNewer server follower
  · induction k generalizing leader follower l' with
    | zero => exact ⟨leader, follower, l', rfl, h⟩
    | succ k ih =>
        obtain ⟨leader₁, follower₁, l₁, success, hok, h₁, hoffers₁, -⟩ :=
          h.exchange_step hoffers
        obtain ⟨leader', follower', l'', hrest, h'⟩ := ih h₁ hoffers₁
        refine ⟨leader', follower', l'', ?_, h'⟩
        rw [exchanges, hok]
        exact hrest
  · obtain ⟨follower', hok, hrepairs, -⟩ := h.exchanges_repeat hoffers k
    exact ⟨leader, follower', l', hok, hrepairs⟩

/-- Rounds that do not succeed use up the rounds that are left. -/
theorem exchanges_succeed (h : CanRepair server leader follower l l')
    (hoffers : leader.OffersNewer server follower) {m : ℕ}
    (hm : leader.roundsLeft server follower ≤ m) :
    ∃ k < m, ∃ leader₁ follower₁ leader₂ follower₂ l₂,
      leader.exchanges server follower k = .ok (leader₁, follower₁) ∧
      leader₁.exchange server follower₁ = .ok (leader₂, follower₂, true) ∧
      CanRepair server leader₂ follower₂ l l₂ ∧ l <+: l₂ := by
  induction m generalizing leader follower l' with
  | zero => exact absurd hm (Nat.not_le_of_lt roundsLeft_pos)
  | succ m ih =>
      obtain ⟨leader₁, follower₁, l₁, success, hok, h₁, hoffers₁, hresult⟩ :=
        h.exchange_step hoffers
      rcases hresult with ⟨rfl, hext⟩ | ⟨rfl, hfewer⟩
      · exact ⟨0, Nat.succ_pos m, leader, follower, leader₁, follower₁, l₁, rfl,
          hok, h₁, hext⟩
      · obtain ⟨k, hk, leader₂, follower₂, leader₃, follower₃, l₃, hrest,
          hsuccess⟩ := ih h₁ hoffers₁ (by omega)
        refine ⟨k + 1, by omega, leader₂, follower₂, leader₃, follower₃, l₃, ?_,
          hsuccess⟩
        rw [exchanges, hok]
        exact hrest

end CanRepair

/-- The log of the follower is repaired: one of the first rounds, at most three
more than the follower has entries, succeeds, and then the log of the follower
starts with that of the leader.  The next index stays in the leader's log,
however often the exchange is repeated. -/
structure Repairs (server : Fin n) (leader follower : Raft n Image)
    (l : List LogEntry) : Prop where
  succeeds : ∃ k < follower.logs.length + 3,
    ∃ leader₁ follower₁ leader₂ follower₂ l₂,
      leader.exchanges server follower k = .ok (leader₁, follower₁) ∧
      leader₁.exchange server follower₁ = .ok (leader₂, follower₂, true) ∧
      leader₂.Holds l ∧ follower₂.Holds l₂ ∧ l <+: l₂
  inLog : ∀ k, ∃ leader' follower',
    leader.exchanges server follower k = .ok (leader', follower') ∧
    leader'.Holds l ∧ 1 ≤ leader'.nextIndex server ∧
    leader'.nextIndex server ≤ leader'.getLastLogIndex + 1

namespace CanRepair

variable {server : Fin n} {leader follower : Raft n Image}

theorem repairs (h : CanRepair server leader follower l l')
    (hoffers : leader.OffersNewer server follower) :
    leader.Repairs server follower l where
  succeeds := by
    obtain ⟨k, hk, leader₁, follower₁, leader₂, follower₂, l₂, hrounds,
      hsuccess, hrepairs, hext⟩ := h.exchanges_succeed hoffers h.roundsLeft_le
    exact ⟨k, hk, leader₁, follower₁, leader₂, follower₂, l₂, hrounds, hsuccess,
      hrepairs.leading.holds, hrepairs.following.holds, hext⟩
  inLog := by
    intro k
    obtain ⟨leader', follower', l'', hrounds, hrepairs⟩ := h.exchanges_ok k
    have hholds := hrepairs.leading.holds
    exact ⟨leader', follower', hrounds, hholds, hrepairs.leading.next_pos,
      hholds.getLastLogIndex.symm ▸ hrepairs.leading.next_le⟩

/-- No round succeeds. -/
theorem not_repairs (h : CanRepair server leader follower l l')
    (hold : ¬leader.OffersNewer server follower) :
    ¬leader.Repairs server follower l := by
  rintro ⟨⟨k, -, leader₁, follower₁, leader₂, follower₂, -, hrounds, hsuccess,
    -⟩, -⟩
  obtain ⟨follower', hrepeated, hrepairs, hold'⟩ := h.exchanges_repeat hold k
  obtain ⟨rfl, rfl⟩ :=
    Prod.mk.inj (Except.ok.inj (hrounds.symm.trans hrepeated))
  obtain ⟨follower'', hfails, -⟩ := hrepairs.exchange_repeats hold'
  simp [hfails] at hsuccess

end CanRepair

/-- Repairing the log terminates, unless the leader begins with a snapshot that
the follower already has. -/
theorem log_repair_iff {server : Fin n} {leader follower : Raft n Image}
    {l l' : List LogEntry} (h : CanRepair server leader follower l l') :
    leader.Repairs server follower l ↔ leader.OffersNewer server follower :=
  ⟨fun hrepairs => not_not.mp fun hold => h.not_repairs hold hrepairs,
    h.repairs⟩

/-- A leader of term 2 that has compacted the first of its two entries. -/
def compacted : Raft 3 Unit :=
  { init 2 ⟨none, none⟩ with
    status := .leader
    currentTerm := 2
    logs := [⟨noop 2, 2, 2⟩]
    commitIndex := 1
    lastApplied := 1
    lastSnapshotIncludeIndex := 1
    lastSnapshotIncludeTerm := 1
    nextIndex := fun _ => 3 }

/-- The follower has another second entry.  It backs up to the start of the log
and gets the snapshot and then the entry. -/
theorem log_repair_compacted :
    compacted.Repairs 1 follower [⟨noop 1, 1, 1⟩, ⟨noop 2, 2, 2⟩] := by
  have hindexed : ∀ first second : LogEntry, first.logIndex = 1 →
      second.logIndex = 2 → Indexed [first, second] := by
    intro first second hfirst hsecond
    have hempty : Indexed [] := by simp [Indexed]
    exact (hempty.concat hfirst).concat hsecond
  have hleading : compacted.Leading 1 [⟨noop 1, 1, 1⟩, ⟨noop 2, 2, 2⟩] :=
    ⟨rfl, ⟨by decide, rfl, rfl, hindexed _ _ rfl rfl⟩, by decide, by decide,
      by decide, by decide⟩
  have hfollowing : follower.Following [⟨noop 1, 1, 1⟩, ⟨noop 2, 2, 2⟩]
      [⟨noop 1, 1, 1⟩, ⟨noop 7, 1, 2⟩] :=
    ⟨⟨by decide, rfl, rfl, hindexed _ _ rfl rfl⟩, by decide, by decide,
      by decide, rfl⟩
  exact (log_repair_iff ⟨hleading, hfollowing, by decide, by decide⟩).mpr
    (by decide)

end Raft

/-- Server 2 has accepted, applied and compacted the first entry while its
replies are on their way, and the leader, which knows of server 1 only, has
compacted it too. -/
def Cluster.unansweredRun : List (Action 3 Unit) :=
  [.doElection 0, .requestVote 0 1, .sendRequestVote 0 1, .doHeartBeat 0,
    .appendEntries 0 1, .sendAppendEntries 0 1, .appendEntries 0 2,
    .doHeartBeat 0, .appendEntries 1 2, .applierTicker 0, .applierTicker 2,
    .snapshot 0 1 (some ()), .snapshot 2 1 (some ())]

/-- The leader sends the snapshot to server 2 for ever. -/
theorem snapshot_unanswered :
    ∃ c es l, (Cluster.start 3 Unit).run Cluster.unansweredRun =
        some (c, es) ∧
      Raft.CanRepair 2 (c.nodes 0) (c.nodes 2) l l ∧
      ¬(c.nodes 0).Repairs 2 (c.nodes 2) l := by
  obtain ⟨c, es, hrun, ⟨hleads, hcommit, hmatched, hpos, hle⟩, hcommit',
      hnodes, hterm, hterm_pos, hold⟩ : ∃ c es,
      (Cluster.start 3 Unit).run Cluster.unansweredRun = some (c, es) ∧
        ((c.nodes 0).status = .leader ∧ (c.nodes 0).commitIndex ≤ 1 ∧
          (c.nodes 0).matchIndex 2 ≤ 1 ∧ 1 ≤ (c.nodes 0).nextIndex 2 ∧
          (c.nodes 0).nextIndex 2 ≤ 2) ∧
        (c.nodes 2).commitIndex ≤ 1 ∧
        (∀ i ∈ [0, 2], (c.nodes i).logs = [] ∧
          (c.nodes i).lastSnapshotIncludeIndex = 1 ∧
          (c.nodes i).lastSnapshotIncludeTerm = 1) ∧
        (c.nodes 2).currentTerm ≤ (c.nodes 0).currentTerm ∧
        0 < (c.nodes 0).currentTerm ∧
        ¬(c.nodes 0).OffersNewer 2 (c.nodes 2) := by
    decide +kernel
  have hindexed : Indexed [⟨Raft.noop 1, 1, 1⟩] := by
    have hempty : Indexed [] := by simp [Indexed]
    exact hempty.concat rfl
  have hholds : ∀ i ∈ [0, 2],
      (c.nodes i).Holds [⟨Raft.noop 1, 1, 1⟩] := by
    intro i hi
    obtain ⟨hlogs, hboundary, hlast⟩ := hnodes i hi
    refine ⟨by simp [hboundary], by simp [hboundary, hlogs], ?_, hindexed⟩
    rw [hlast, hboundary]
    rfl
  have hindex := (hnodes 2 (by simp)).2.1
  have hrepairs : Raft.CanRepair 2 (c.nodes 0) (c.nodes 2)
      [⟨Raft.noop 1, 1, 1⟩] [⟨Raft.noop 1, 1, 1⟩] :=
    ⟨⟨hleads, hholds 0 (by simp), hcommit, hmatched, hpos, hle⟩,
      ⟨hholds 2 (by simp), hcommit', fun _ _ _ _ => rfl, hindex.le, rfl⟩, hterm,
      hterm_pos⟩
  exact ⟨c, es, _, hrun, hrepairs, hrepairs.not_repairs hold⟩

end KVRaftStorage
