import KVRaftStorage.Raft.Deviations

/-!
# What a handler does to its node

Every handler has one specification here, with the guards it passed, and no
later file unfolds a handler.  Most outcomes are quiet: at most a larger term
is followed.  The others cast a vote, win an election, extend, merge, compact
or replace the log, or raise the commit index.  A process that exits leaves
what was on disk, with one exception in `Snapshot`.
-/

namespace KVRaftStorage

variable {n : ℕ} {Image : Type}

/-- What `readPersist` finds on disk; an empty file leaves the initial values
of `init`. -/
def Persister.stored (p : Persister n Image) : RaftState n :=
  p.raftState.getD
    { currentTerm := 0, votedFor := none, lastSnapshotIncludeIndex := 0,
      lastSnapshotIncludeTerm := 0, logs := [] }

namespace Raft

/-- The disk holds exactly the persistent part of the memory. -/
def Stored (r : Raft n Image) : Prop :=
  r.persister.stored = r.persistData

/-- The step from `r` to `r'` stored everything, or changed nothing that is
persistent. -/
def Saved (r r' : Raft n Image) : Prop :=
  r'.Stored ∨
    (r'.persister.raftState = r.persister.raftState ∧
      r'.persistData = r.persistData)

/-- Term, vote and role change at most by following a larger term. -/
structure Follows (r r' : Raft n Image) : Prop where
  me : r'.me = r.me
  term : (r'.currentTerm = r.currentTerm ∧ r'.votedFor = r.votedFor) ∨
    (r.currentTerm < r'.currentTerm ∧ r'.votedFor = none)
  leader : r'.status = .leader →
    r.status = .leader ∧ r'.currentTerm = r.currentTerm

/-- The log and its snapshot boundary are the same. -/
structure SameLog (r r' : Raft n Image) : Prop where
  logs : r'.logs = r.logs
  index : r'.lastSnapshotIncludeIndex = r.lastSnapshotIncludeIndex
  term : r'.lastSnapshotIncludeTerm = r.lastSnapshotIncludeTerm

/-- A change no other server can tell from silence: at most a larger term is
followed, and the log and the commit index stay. -/
structure Quiet (r r' : Raft n Image) : Prop where
  follows : r.Follows r'
  log : r.SameLog r'
  commit : r'.commitIndex = r.commitIndex
  disk : r'.Stored ∨ r'.persister.raftState = r.persister.raftState

/-! ## Storing and restarting -/

theorem Follows.refl (r : Raft n Image) : r.Follows r :=
  ⟨rfl, .inl ⟨rfl, rfl⟩, fun h => ⟨h, rfl⟩⟩

theorem Follows.le {r r' : Raft n Image} (h : r.Follows r') :
    r.currentTerm ≤ r'.currentTerm := by
  rcases h.term with ⟨hterm, -⟩ | ⟨hterm, -⟩ <;> omega

theorem SameLog.refl (r : Raft n Image) : r.SameLog r := ⟨rfl, rfl, rfl⟩

theorem SameLog.trans {r₁ r₂ r₃ : Raft n Image} (h₁ : r₁.SameLog r₂)
    (h₂ : r₂.SameLog r₃) : r₁.SameLog r₃ :=
  ⟨h₂.logs.trans h₁.logs, h₂.index.trans h₁.index, h₂.term.trans h₁.term⟩

theorem SameLog.lastLog {r r' : Raft n Image} (h : r.SameLog r') :
    r'.getLastLogIndexAndTerm = r.getLastLogIndexAndTerm := by
  simp only [getLastLogIndexAndTerm, h.logs, h.index, h.term]

theorem SameLog.lastLogIndex {r r' : Raft n Image} (h : r.SameLog r') :
    r'.getLastLogIndex = r.getLastLogIndex := by
  simp only [getLastLogIndex, h.lastLog]

theorem SameLog.lastLogTerm {r r' : Raft n Image} (h : r.SameLog r') :
    r'.getLastLogTerm = r.getLastLogTerm := by
  simp only [getLastLogTerm, h.lastLog]

theorem Saved.refl (r : Raft n Image) : r.Saved r := .inr ⟨rfl, rfl⟩

theorem Saved.disk {r r' : Raft n Image} (h : r.Saved r') :
    r'.Stored ∨ r'.persister.raftState = r.persister.raftState :=
  h.imp id And.left

theorem Saved.stored {r r' : Raft n Image} (h : r.Saved r') (hr : r.Stored) :
    r'.Stored := by
  rcases h with h | ⟨hdisk, hdata⟩
  · exact h
  · rw [Stored, hdata, ← hr, Persister.stored, Persister.stored, hdisk]

theorem Quiet.refl (r : Raft n Image) : r.Quiet r :=
  ⟨.refl r, .refl r, rfl, .inr rfl⟩

@[simp] theorem stored_persist (r : Raft n Image) : r.persist.Stored := rfl

@[simp] theorem stored_save (r : Raft n Image) (image : Option Image) :
    (r.save image).Stored := rfl

/-- `init` loads what is stored. -/
theorem persistData_init (me : Fin n) (p : Persister n Image) :
    (Raft.init me p).persistData = p.stored := by
  unfold Raft.init Persister.stored
  cases p.raftState <;> rfl

theorem stored_init (me : Fin n) (p : Persister n Image) :
    (Raft.init me p).Stored := by
  rw [Stored, persistData_init]
  unfold Raft.init
  cases hp : p.raftState <;> simp [readPersist, fresh]

@[simp] theorem me_init (me : Fin n) (p : Persister n Image) :
    (Raft.init me p).me = me := by
  unfold Raft.init readPersist
  cases p.raftState <;> rfl

@[simp] theorem status_init (me : Fin n) (p : Persister n Image) :
    (Raft.init me p).status = .follower := by
  unfold Raft.init readPersist
  cases p.raftState <;> rfl

@[simp] theorem commitIndex_init (me : Fin n) (p : Persister n Image) :
    (Raft.init me p).commitIndex = 0 := by
  unfold Raft.init readPersist
  cases p.raftState <;> rfl

/-! ## Elections -/

theorem doElection_eq_some {r r' : Raft n Image} {args : RequestVoteArgs n}
    (h : r.doElection = (r', some args)) :
    r'.Stored ∧ r'.me = r.me ∧ r'.currentTerm = r.currentTerm + 1 ∧
      r'.votedFor = some r.me ∧ r'.status = .candidate ∧ r.SameLog r' ∧
      r'.commitIndex = r.commitIndex ∧
      args = { term := r.currentTerm + 1, candidateId := r.me,
               lastLogIndex := r.getLastLogIndex,
               lastLogTerm := r.getLastLogTerm } := by
  unfold doElection at h
  split at h
  · simp at h
  · obtain ⟨rfl, rfl⟩ : _ = r' ∧ _ = args := by simpa using h
    exact ⟨rfl, rfl, rfl, rfl, rfl, ⟨rfl, rfl, rfl⟩, rfl, rfl⟩

theorem observeTerm_follows (r : Raft n Image) (term : ℕ) :
    r.Follows (r.observeTerm term) := by
  unfold observeTerm
  split
  · next hlt => exact ⟨rfl, .inr ⟨hlt, rfl⟩, by simp [followTerm]⟩
  · exact .refl r

theorem observeTerm_sameLog (r : Raft n Image) (term : ℕ) :
    r.SameLog (r.observeTerm term) := by
  unfold observeTerm
  split
  · exact ⟨rfl, rfl, rfl⟩
  · exact .refl r

theorem currentTerm_observeTerm {r : Raft n Image} {term : ℕ}
    (h : r.currentTerm ≤ term) : (r.observeTerm term).currentTerm = term := by
  unfold observeTerm
  split
  · rfl
  · omega

@[simp] theorem persister_observeTerm (r : Raft n Image) (term : ℕ) :
    (r.observeTerm term).persister = r.persister := by
  unfold observeTerm
  split <;> rfl

@[simp] theorem commitIndex_observeTerm (r : Raft n Image) (term : ℕ) :
    (r.observeTerm term).commitIndex = r.commitIndex := by
  unfold observeTerm
  split <;> rfl

/-- A node that grants its vote is in the candidate's term and free to vote
for it, and finds the candidate's log up to date. -/
structure Grants (r r' : Raft n Image) (args : RequestVoteArgs n)
    (reply : RequestVoteReply) : Prop where
  stored : r'.Stored
  log : r.SameLog r'
  commit : r'.commitIndex = r.commitIndex
  me : r'.me = r.me
  le : r.currentTerm ≤ args.term
  term : r'.currentTerm = args.term
  vote : r'.votedFor = some args.candidateId
  free : r.currentTerm = args.term →
    r.votedFor = none ∨ r.votedFor = some args.candidateId
  leader : r'.status = .leader →
    r.status = .leader ∧ r.currentTerm = args.term
  granted : reply.voteGranted = true
  replyTerm : reply.term = args.term
  upToDate : r.upToDate args.lastLogIndex args.lastLogTerm = true

theorem requestVote_eq_ok {r r' : Raft n Image} {args : RequestVoteArgs n}
    {reply : RequestVoteReply} (h : r.requestVote args = .ok (r', reply)) :
    (reply.voteGranted = false ∧ r.Quiet r' ∧ r.Saved r') ∨
      r.Grants r' args reply := by
  unfold requestVote at h
  split at h
  · obtain ⟨rfl, rfl⟩ : _ = r' ∧ _ = reply := by simpa using h
    exact .inl ⟨rfl, ⟨⟨rfl, .inl ⟨rfl, rfl⟩, fun hl => ⟨hl, rfl⟩⟩,
      ⟨rfl, rfl, rfl⟩, rfl, .inl rfl⟩, .inl rfl⟩
  next hle =>
    have hfollows := r.observeTerm_follows args.term
    have hsame := r.observeTerm_sameLog args.term
    have hterm := currentTerm_observeTerm (Nat.le_of_not_lt hle)
    have hreject : r.Quiet (r.observeTerm args.term).persist :=
      ⟨⟨hfollows.me, hfollows.term, hfollows.leader⟩,
        ⟨hsame.logs, hsame.index, hsame.term⟩, by simp [persist], .inl rfl⟩
    simp only [exec_bind_eq_ok, myAssert_eq_ok] at h
    obtain ⟨-, -, h⟩ := h
    split at h
    · obtain ⟨rfl, rfl⟩ : _ = r' ∧ _ = reply := by
        simpa using h
      exact .inl ⟨rfl, hreject, .inl rfl⟩
    next hup =>
      split at h
      · obtain ⟨rfl, rfl⟩ : _ = r' ∧ _ = reply := by
          simpa using h
        exact .inl ⟨rfl, hreject, .inl rfl⟩
      next hfree =>
        obtain ⟨rfl, rfl⟩ : _ = r' ∧ _ = reply := by
          simpa using h
        right
        exact {
          stored := rfl
          log := ⟨hsame.logs, hsame.index, hsame.term⟩
          commit := by simp [persist]
          me := hfollows.me
          le := Nat.le_of_not_lt hle
          term := hterm
          vote := rfl
          free := by
            intro heq
            have hnot : r.observeTerm args.term = r := by
              unfold observeTerm
              rw [if_neg (by omega)]
            rw [hnot] at hfree
            tauto
          leader := by
            intro hl
            obtain ⟨hlead, hsameTerm⟩ := hfollows.leader hl
            exact ⟨hlead, by omega⟩
          granted := rfl
          replyTerm := hterm
          upToDate := by
            simpa only [Raft.upToDate, hsame.lastLogIndex, hsame.lastLogTerm,
              Bool.not_eq_false] using hup }

/-- Every return of `RequestVote` stores the node. -/
theorem requestVote_stored {r r' : Raft n Image} {args : RequestVoteArgs n}
    {reply : RequestVoteReply} (h : r.requestVote args = .ok (r', reply)) :
    r'.Stored := by
  unfold requestVote at h
  split at h
  · obtain ⟨rfl, -⟩ : _ = r' ∧ _ := by simpa using h
    exact stored_persist r
  next hle =>
    rw [exec_bind_eq_ok] at h
    obtain ⟨-, -, h⟩ := h
    split at h
    · obtain ⟨rfl, -⟩ : _ = r' ∧ _ := by simpa using h
      exact stored_persist _
    next hup =>
      split at h
      · obtain ⟨rfl, -⟩ : _ = r' ∧ _ := by simpa using h
        exact stored_persist _
      next hfree =>
        obtain ⟨rfl, -⟩ : _ = r' ∧ _ := by simpa using h
        exact stored_persist _

/-- The assertion of `RequestVote` never fails. -/
theorem requestVote_ne_error {r : Raft n Image} {args : RequestVoteArgs n}
    {p : Persister n Image} : r.requestVote args ≠ .error p := by
  intro h
  unfold requestVote at h
  split at h
  · simp at h
  next hle =>
    have hterm := currentTerm_observeTerm (Nat.le_of_not_lt hle)
    simp only [exec_bind_eq_error, myAssert_eq_error, hterm] at h
    rcases h with ⟨hne, -⟩ | ⟨-, -, h⟩
    · exact hne trivial
    · split at h
      · simp at h
      · split at h <;> simp at h

/-- The node right after its counter reached a majority. -/
structure Wins (r r' : Raft n Image) (reply : RequestVoteReply)
    (votedNum : ℕ) : Prop where
  eq : r' = r.becomeLeader
  term : reply.term = r.currentTerm
  granted : reply.voteGranted = true
  count : n / 2 + 1 ≤ votedNum + 1
  status : r.status ≠ .leader

/-- A granted vote that does not complete the majority. -/
structure CountsVote (r : Raft n Image) (reply : RequestVoteReply)
    (votedNum : ℕ) : Prop where
  term : reply.term = r.currentTerm
  granted : reply.voteGranted = true
  few : votedNum + 1 < n / 2 + 1

theorem sendRequestVote_eq_ok {r r' : Raft n Image} {k k' : ℕ}
    {reply : RequestVoteReply}
    (h : r.sendRequestVote k reply = .ok (r', k')) :
    (r.Quiet r' ∧ r.Saved r' ∧ k' = k) ∨
      (r.CountsVote reply k ∧ r' = r ∧ k' = k + 1) ∨
      (r.Wins r' reply k ∧ k' = 0) := by
  unfold sendRequestVote at h
  split at h
  · next hlt =>
      obtain ⟨rfl, rfl⟩ : _ = r' ∧ k = k' := by simpa using h
      exact .inl ⟨⟨⟨rfl, .inr ⟨hlt, rfl⟩, by simp [followTerm, persist]⟩,
        ⟨rfl, rfl, rfl⟩, rfl, .inl rfl⟩, .inl rfl, rfl⟩
  · split at h
    · obtain ⟨rfl, rfl⟩ : r = r' ∧ k = k' := by simpa using h
      exact .inl ⟨.refl r, .refl r, rfl⟩
    · simp only [exec_bind_eq_ok, myAssert_eq_ok] at h
      obtain ⟨-, hterm, h⟩ := h
      split at h
      · obtain ⟨rfl, rfl⟩ : r = r' ∧ k = k' := by
          simpa using h
        exact .inl ⟨.refl r, .refl r, rfl⟩
      next hgranted =>
        have hgranted : reply.voteGranted = true := by simpa using hgranted
        split at h
        · next hcount =>
            simp only [exec_bind_eq_ok, myAssert_eq_ok] at h
            obtain ⟨-, hstatus, h⟩ := h
            obtain ⟨rfl, rfl⟩ : r.becomeLeader = r' ∧ 0 = k' := by
              simpa using h
            exact .inr (.inr ⟨⟨rfl, hterm, hgranted, hcount, hstatus⟩, rfl⟩)
        · next hcount =>
            obtain ⟨rfl, rfl⟩ : r = r' ∧ k + 1 = k' := by
              simpa using h
            exact .inr (.inl ⟨⟨hterm, hgranted, by omega⟩, rfl, rfl⟩)

theorem sendRequestVote_eq_error {r : Raft n Image} {k : ℕ}
    {reply : RequestVoteReply} {p : Persister n Image}
    (h : r.sendRequestVote k reply = .error p) : p = r.persister := by
  unfold sendRequestVote at h
  split at h
  · simp at h
  · split at h
    · simp at h
    · simp only [exec_bind_eq_error, myAssert_eq_error] at h
      rcases h with ⟨-, hp⟩ | ⟨-, -, h⟩
      · exact hp
      · split at h
        · simp at h
        · split at h
          · simp only [exec_bind_eq_error, myAssert_eq_error] at h
            rcases h with ⟨-, hp⟩ | ⟨-, -, h⟩
            · exact hp
            · simp at h
          · simp at h

/-! ## Replication -/

theorem start_effect (r : Raft n Image) (command : Op) :
    ((r.start command).1 = r) ∨
      (r.status = .leader ∧
        (r.start command).1 = (r.appendEntry command).persist) := by
  unfold start
  split
  · next hl => exact .inr ⟨hl, rfl⟩
  · exact .inl rfl

/-- Only the log differs. -/
structure OnlyLogs (r r' : Raft n Image) : Prop where
  eq : r' = { r with logs := r'.logs }

theorem OnlyLogs.refl (r : Raft n Image) : r.OnlyLogs r := ⟨rfl⟩

theorem OnlyLogs.trans {r₁ r₂ r₃ : Raft n Image} (h₁ : r₁.OnlyLogs r₂)
    (h₂ : r₂.OnlyLogs r₃) : r₁.OnlyLogs r₃ := by
  constructor
  rw [h₂.eq, h₁.eq]

theorem mergeEntry_onlyLogs {r r' : Raft n Image} {log : LogEntry}
    (h : r.mergeEntry log = .ok r') : r.OnlyLogs r' := by
  unfold mergeEntry at h
  split at h
  · obtain rfl := Except.ok.inj h
    exact ⟨rfl⟩
  · simp only [exec_bind_eq_ok] at h
    obtain ⟨slice, -, here, -, -, -, h⟩ := h
    split at h
    · obtain rfl := exec_pure_eq_ok.mp h
      exact ⟨rfl⟩
    · obtain rfl := exec_pure_eq_ok.mp h
      exact .refl r

theorem mergeEntries_foldlM_onlyLogs {r r' : Raft n Image}
    {entries : List LogEntry} (h : entries.foldlM mergeEntry r = .ok r') :
    r.OnlyLogs r' := by
  induction entries generalizing r with
  | nil =>
      obtain rfl := exec_pure_eq_ok.mp h
      exact .refl r
  | cons log entries ih =>
      rw [List.foldlM_cons, exec_bind_eq_ok] at h
      obtain ⟨r₁, hfirst, hrest⟩ := h
      exact (mergeEntry_onlyLogs hfirst).trans (ih hrest)

/-- The outcome of a request that passed `matchLog`: the merge loop ran from
the old log, and the commit index was raised within the new one. -/
structure Merges (r : Raft n Image) (args : AppendEntriesArgs n)
    (r' : Raft n Image) : Prop where
  le_prev : r.lastSnapshotIncludeIndex ≤ args.prevLogIndex
  prev_le : args.prevLogIndex ≤ r.getLastLogIndex
  match_prev : r.getLogTermFromLogIndex args.prevLogIndex =
    .ok args.prevLogTerm
  loop : ∃ r₁ r₂ : Raft n Image, r.SameLog r₁ ∧
    args.entries.foldlM mergeEntry r₁ = .ok r₂ ∧ r₂.SameLog r' ∧
    args.prevLogIndex + args.entries.length ≤ r₂.getLastLogIndex
  commit : r'.commitIndex =
    if r.commitIndex < args.leaderCommit then
      min args.leaderCommit r'.getLastLogIndex
    else r.commitIndex

theorem Merges.index {r r' : Raft n Image} {args : AppendEntriesArgs n}
    (h : r.Merges args r') :
    r'.lastSnapshotIncludeIndex = r.lastSnapshotIncludeIndex := by
  obtain ⟨r₁, r₂, hsame₁, hloop, hsame₂, -⟩ := h.loop
  rw [hsame₂.index, (mergeEntries_foldlM_onlyLogs hloop).eq]
  exact hsame₁.index

/-- The error of a lookup is the current disk. -/
theorem getSlicesIndexFromLogIndex_eq_error {r : Raft n Image} {i : ℕ}
    {p : Persister n Image} (h : r.getSlicesIndexFromLogIndex i = .error p) :
    p = r.persister := by
  simp only [getSlicesIndexFromLogIndex, exec_bind_eq_error,
    myAssert_eq_error] at h
  rcases h with ⟨-, hp⟩ | ⟨-, -, ⟨-, hp⟩ | ⟨-, -, h⟩⟩
  · exact hp
  · exact hp
  · simp at h

theorem entryAt_eq_error {r : Raft n Image} {i : ℕ} {p : Persister n Image}
    (h : r.entryAt i = .error p) : p = r.persister := by
  simp only [entryAt, exec_bind_eq_error] at h
  rcases h with h | ⟨slice, -, h⟩
  · exact getSlicesIndexFromLogIndex_eq_error h
  · split at h
    · simp at h
    · exact (Except.error.inj h).symm

theorem getLogTermFromLogIndex_eq_error {r : Raft n Image} {i : ℕ}
    {p : Persister n Image} (h : r.getLogTermFromLogIndex i = .error p) :
    p = r.persister := by
  simp only [getLogTermFromLogIndex, exec_bind_eq_error,
    myAssert_eq_error] at h
  rcases h with ⟨-, hp⟩ | ⟨-, -, ⟨-, hp⟩ | ⟨-, -, h⟩⟩
  · exact hp
  · exact hp
  · split at h
    · simp at h
    · simp only [exec_bind_eq_error, exec_pure_ne_error, and_false,
        exists_false, or_false] at h
      exact entryAt_eq_error h

theorem mergeEntry_eq_error {r : Raft n Image} {log : LogEntry}
    {p : Persister n Image} (h : r.mergeEntry log = .error p) :
    p = r.persister := by
  unfold mergeEntry at h
  split at h
  · simp at h
  · simp only [exec_bind_eq_error, myAssert_eq_error] at h
    rcases h with h | ⟨slice, -, h | ⟨here, -, ⟨-, hp⟩ | ⟨-, -, h⟩⟩⟩
    · exact getSlicesIndexFromLogIndex_eq_error h
    · exact entryAt_eq_error h
    · exact hp
    · split at h <;> simp at h

theorem mergeEntries_foldlM_eq_error {r : Raft n Image}
    {entries : List LogEntry} {p : Persister n Image}
    (h : entries.foldlM mergeEntry r = .error p) : p = r.persister := by
  induction entries generalizing r with
  | nil => simp at h
  | cons log entries ih =>
      rw [List.foldlM_cons, exec_bind_eq_error] at h
      rcases h with h | ⟨r₁, hfirst, hrest⟩
      · exact mergeEntry_eq_error h
      · rw [ih hrest, (mergeEntry_onlyLogs hfirst).eq]

theorem backUp_eq_error {r : Raft n Image} {prev term k : ℕ}
    {p : Persister n Image} (h : r.backUp prev term k = .error p) :
    p = r.persister := by
  induction k with
  | zero =>
      simp only [backUp, exec_bind_eq_error] at h
      rcases h with h | ⟨t, -, h⟩
      · exact getLogTermFromLogIndex_eq_error h
      · split at h <;> simp at h
  | succ k ih =>
      simp only [backUp, exec_bind_eq_error] at h
      rcases h with h | ⟨t, -, h⟩
      · exact getLogTermFromLogIndex_eq_error h
      · split at h
        · simp at h
        · exact ih h

theorem SameLog.getLogTerm {r r' : Raft n Image} (h : r.SameLog r') {i t : ℕ}
    (ht : r'.getLogTermFromLogIndex i = .ok t) :
    r.getLogTermFromLogIndex i = .ok t := by
  simp only [getLogTermFromLogIndex, entryAt, getSlicesIndexFromLogIndex,
    exec_bind_eq_ok, myAssert_eq_ok, h.lastLogIndex, h.index, h.term,
    h.logs] at ht ⊢
  obtain ⟨u, hu, u', hu', ht⟩ := ht
  refine ⟨u, hu, u', hu', ?_⟩
  split at ht
  · next heq =>
      rw [if_pos heq]
      exact ht
  · next hne =>
      rw [if_neg hne]
      simp only [exec_bind_eq_ok, myAssert_eq_ok] at ht ⊢
      obtain ⟨e, ⟨slice, hslice, he⟩, ht⟩ := ht
      refine ⟨e, ⟨slice, hslice, ?_⟩, ht⟩
      split at he
      · next hsome => simpa [hsome] using he
      · simp at he

theorem mergeEntries_eq_ok {r r' : Raft n Image} {args : AppendEntriesArgs n}
    (h : r.mergeEntries args = .ok r') :
    ∃ r₂, args.entries.foldlM mergeEntry r = .ok r₂ ∧
      args.prevLogIndex + args.entries.length ≤ r₂.getLastLogIndex ∧
      r' = { r₂ with
        commitIndex :=
          if r.commitIndex < args.leaderCommit then
            min args.leaderCommit r₂.getLastLogIndex
          else r.commitIndex } := by
  simp only [mergeEntries, exec_bind_eq_ok, myAssert_eq_ok] at h
  obtain ⟨r₂, hloop, -, hlast, -, -, h⟩ := h
  obtain rfl := exec_pure_eq_ok.mp h
  have hcommit : r₂.commitIndex = r.commitIndex := by
    rw [(mergeEntries_foldlM_onlyLogs hloop).eq]
  refine ⟨r₂, hloop, hlast, ?_⟩
  rw [hcommit]
  split
  · rfl
  · rw [← hcommit]

theorem matchLog_eq_true {r : Raft n Image} {i t : ℕ}
    (h : r.matchLog i t = .ok true) :
    r.lastSnapshotIncludeIndex ≤ i ∧ i ≤ r.getLastLogIndex ∧
      r.getLogTermFromLogIndex i = .ok t := by
  simp only [matchLog, exec_bind_eq_ok, myAssert_eq_ok] at h
  obtain ⟨-, hrange, term, hterm, h⟩ := h
  have heq : t = term := by simpa using h
  exact ⟨hrange.1, hrange.2, heq ▸ hterm⟩

/-- A rejection stores the node as it is; an acceptance merges first. -/
theorem examineEntries_eq_ok {r r' : Raft n Image} {args : AppendEntriesArgs n}
    {reply : AppendEntriesReply} (h : r.examineEntries args = .ok (r', reply)) :
    r'.Stored ∧ r'.me = r.me ∧ r'.currentTerm = r.currentTerm ∧
      r'.votedFor = r.votedFor ∧ r'.status = r.status ∧
      reply.term = r.currentTerm ∧
      ((reply.success = false ∧ r.SameLog r' ∧
          r'.commitIndex = r.commitIndex) ∨
        (reply.success = true ∧ r.Merges args r')) := by
  have hreject : ∀ u : ℤ,
      (r.persist, r.appendEntriesReply false u) = (r', reply) →
      r'.Stored ∧ r'.me = r.me ∧ r'.currentTerm = r.currentTerm ∧
        r'.votedFor = r.votedFor ∧ r'.status = r.status ∧
        reply.term = r.currentTerm ∧
        ((reply.success = false ∧ r.SameLog r' ∧
            r'.commitIndex = r.commitIndex) ∨
          (reply.success = true ∧ r.Merges args r')) := by
    intro u heq
    obtain ⟨rfl, rfl⟩ : r.persist = r' ∧ _ = reply := by simpa using heq
    exact ⟨rfl, rfl, rfl, rfl, rfl, rfl, .inl ⟨rfl, ⟨rfl, rfl, rfl⟩, rfl⟩⟩
  unfold examineEntries at h
  split at h
  · exact hreject _ (Except.ok.inj h)
  · split at h
    · exact hreject _ (Except.ok.inj h)
    · rw [exec_bind_eq_ok] at h
      obtain ⟨matched, hmatch, h⟩ := h
      split at h
      · next htrue =>
          rw [htrue] at hmatch
          obtain ⟨hfrom, hto, hprev⟩ := matchLog_eq_true hmatch
          rw [exec_bind_eq_ok] at h
          obtain ⟨r₃, hmerge, h⟩ := h
          obtain ⟨r₂, hloop, hlast, rfl⟩ := mergeEntries_eq_ok hmerge
          obtain ⟨hr', rfl⟩ : _ = r' ∧ _ = reply := by simpa using h
          have honly := (mergeEntries_foldlM_onlyLogs hloop).eq
          have hmerges : r.Merges args r' := by
            rw [← hr']
            exact {
              le_prev := hfrom
              prev_le := hto
              match_prev := hprev
              loop := ⟨r, r₂, .refl r, hloop, ⟨rfl, rfl, rfl⟩, hlast⟩
              commit := rfl }
          subst hr'
          refine ⟨rfl, ?_, ?_, ?_, ?_, ?_, .inr ⟨rfl, hmerges⟩⟩ <;>
            · rw [honly]
              rfl
      · rw [exec_bind_eq_ok] at h
        obtain ⟨t, -, h⟩ := h
        rw [exec_bind_eq_ok] at h
        obtain ⟨u, -, h⟩ := h
        exact hreject _ (exec_pure_eq_ok.mp h)

theorem examineEntries_eq_error {r : Raft n Image}
    {args : AppendEntriesArgs n} {p : Persister n Image}
    (h : r.examineEntries args = .error p) : p = r.persister := by
  unfold examineEntries at h
  split at h
  · simp at h
  · split at h
    · simp at h
    · rw [exec_bind_eq_error] at h
      rcases h with h | ⟨matched, -, h⟩
      · simp only [matchLog, exec_bind_eq_error, myAssert_eq_error,
          exec_pure_ne_error, and_false, exists_false, or_false] at h
        rcases h with ⟨-, hp⟩ | ⟨-, -, h⟩
        · exact hp
        · exact getLogTermFromLogIndex_eq_error h
      · split at h
        · simp only [mergeEntries, exec_bind_eq_error, myAssert_eq_error,
            exec_pure_ne_error, and_false, exists_false, or_false] at h
          rcases h with h | ⟨r₂, hloop, ⟨-, hp⟩ | ⟨-, -, -, hp⟩⟩
          · exact mergeEntries_foldlM_eq_error h
          · rw [hp, (mergeEntries_foldlM_onlyLogs hloop).eq]
          · rw [hp]
            split <;> rw [(mergeEntries_foldlM_onlyLogs hloop).eq]
        · rw [exec_bind_eq_error] at h
          rcases h with h | ⟨t, -, h⟩
          · exact getLogTermFromLogIndex_eq_error h
          · simp only [exec_bind_eq_error, exec_pure_ne_error, and_false,
              exists_false, or_false] at h
            exact backUp_eq_error h

theorem enterTerm_follows (r : Raft n Image) (term : ℕ) :
    r.Follows (r.enterTerm term) :=
  ⟨(r.observeTerm_follows term).me, (r.observeTerm_follows term).term,
    by simp [enterTerm]⟩

theorem enterTerm_sameLog (r : Raft n Image) (term : ℕ) :
    r.SameLog (r.enterTerm term) :=
  ⟨(r.observeTerm_sameLog term).logs, (r.observeTerm_sameLog term).index,
    (r.observeTerm_sameLog term).term⟩

/-- What `AppendEntries1` does before it reports success. -/
structure Accepts (r : Raft n Image) (args : AppendEntriesArgs n)
    (r' : Raft n Image) (reply : AppendEntriesReply) : Prop where
  le : r.currentTerm ≤ args.term
  follows : r.Follows r'
  stored : r'.Stored
  term : r'.currentTerm = args.term
  status : r'.status = .follower
  success : reply.success = true
  replyTerm : reply.term = args.term
  merges : r.Merges args r'

theorem Merges.of_sameLog {r r₁ r' : Raft n Image} {args : AppendEntriesArgs n}
    (hsame : r.SameLog r₁) (hcommit : r₁.commitIndex = r.commitIndex)
    (h : r₁.Merges args r') : r.Merges args r' where
  le_prev := hsame.index ▸ h.le_prev
  prev_le := hsame.lastLogIndex ▸ h.prev_le
  match_prev := hsame.getLogTerm h.match_prev
  loop := by
    obtain ⟨r₂, r₃, hr, hloop⟩ := h.loop
    exact ⟨r₂, r₃, hsame.trans hr, hloop⟩
  commit := hcommit ▸ h.commit

theorem appendEntries1_eq_ok {r r' : Raft n Image} {args : AppendEntriesArgs n}
    {reply : AppendEntriesReply}
    (h : r.appendEntries1 args = .ok (r', reply)) :
    (reply.success = false ∧ r.Quiet r' ∧ r.Saved r') ∨
      r.Accepts args r' reply := by
  unfold appendEntries1 at h
  split at h
  · obtain ⟨rfl, rfl⟩ : r = r' ∧ _ = reply := by simpa using h
    exact .inl ⟨rfl, .refl r, .refl r⟩
  next hle =>
    have hle : r.currentTerm ≤ args.term := Nat.le_of_not_lt hle
    have hterm : (r.enterTerm args.term).currentTerm = args.term :=
      currentTerm_observeTerm hle
    have hfollows := r.enterTerm_follows args.term
    have hsame := r.enterTerm_sameLog args.term
    have hcommit : (r.enterTerm args.term).commitIndex = r.commitIndex := by
      simp [enterTerm]
    rw [exec_bind_eq_ok] at h
    obtain ⟨-, -, h⟩ := h
    obtain ⟨hstored, hme, hterm', hvote, hstatus, hreply, hout⟩ :=
      examineEntries_eq_ok h
    have hfollows' : r.Follows r' := by
      refine ⟨hme.trans hfollows.me, ?_, ?_⟩
      · rw [hterm', hvote]
        exact hfollows.term
      · rw [hterm', hstatus]
        exact hfollows.leader
    rcases hout with ⟨hfail, hlog, hc⟩ | ⟨hok, hmerges⟩
    · exact .inl ⟨hfail, ⟨hfollows', hsame.trans hlog, hc.trans hcommit,
        .inl hstored⟩, .inl hstored⟩
    · exact .inr {
        le := hle
        follows := hfollows'
        stored := hstored
        term := hterm'.trans hterm
        status := hstatus
        success := hok
        replyTerm := hreply.trans hterm
        merges := hmerges.of_sameLog hsame hcommit }

theorem appendEntries1_eq_error {r : Raft n Image}
    {args : AppendEntriesArgs n} {p : Persister n Image}
    (h : r.appendEntries1 args = .error p) : p = r.persister := by
  unfold appendEntries1 at h
  split at h
  · simp at h
  · rw [exec_bind_eq_error, myAssert_eq_error, persister_observeTerm] at h
    rcases h with ⟨-, hp⟩ | ⟨-, -, h⟩
    · exact hp
    · rw [examineEntries_eq_error h]
      exact persister_observeTerm r args.term

/-- The reply counts towards the round: a success of the current term. -/
structure Counts (r : Raft n Image) (reply : AppendEntriesReply) : Prop where
  status : r.status = .leader
  term : reply.term = r.currentTerm
  success : reply.success = true

/-- The reply completes the majority of its round and the last entry of its
request is of the current term. -/
structure Commits (r : Raft n Image) (args : AppendEntriesArgs n)
    (reply : AppendEntriesReply) (appendNums : ℕ) : Prop where
  counts : r.Counts reply
  majority : 1 + n / 2 ≤ appendNums + 1
  lastTerm : args.entries.getLast?.map LogEntry.logTerm = some r.currentTerm

/-- What `sendAppendEntries` does with a reply it counts. -/
structure Tallies (r : Raft n Image) (args : AppendEntriesArgs n)
    (reply : AppendEntriesReply) (appendNums : ℕ) (r' : Raft n Image)
    (appendNums' : ℕ) : Prop where
  counts : r.Counts reply
  count_le : appendNums' ≤ appendNums + 1
  me : r'.me = r.me
  status : r'.status = r.status
  disk : r'.persister = r.persister
  data : r'.persistData = r.persistData
  commit : r'.commitIndex = r.commitIndex ∨
    (r.Commits args reply appendNums ∧ r'.commitIndex =
      max r.commitIndex (args.prevLogIndex + args.entries.length))

theorem Tallies.follows {r r' : Raft n Image} {args : AppendEntriesArgs n}
    {reply : AppendEntriesReply} {k k' : ℕ} (h : r.Tallies args reply k r' k') :
    r.Follows r' :=
  ⟨h.me, .inl ⟨congrArg RaftState.currentTerm h.data,
    congrArg RaftState.votedFor h.data⟩,
    fun hl => ⟨h.status ▸ hl, congrArg RaftState.currentTerm h.data⟩⟩

theorem Tallies.sameLog {r r' : Raft n Image} {args : AppendEntriesArgs n}
    {reply : AppendEntriesReply} {k k' : ℕ} (h : r.Tallies args reply k r' k') :
    r.SameLog r' :=
  ⟨congrArg RaftState.logs h.data,
    congrArg RaftState.lastSnapshotIncludeIndex h.data,
    congrArg RaftState.lastSnapshotIncludeTerm h.data⟩

theorem sendAppendEntries_eq_ok {r r' : Raft n Image} {server : Fin n}
    {args : AppendEntriesArgs n} {reply : AppendEntriesReply} {k k' : ℕ}
    (h : r.sendAppendEntries server args reply k = .ok (r', k')) :
    (r.Quiet r' ∧ (r.Saved r' ∨ r.StepsDown reply) ∧ k' = k) ∨
      r.Tallies args reply k r' k' := by
  unfold sendAppendEntries at h
  split at h
  · obtain ⟨rfl, rfl⟩ : r = r' ∧ k = k' := by simpa using h
    exact .inl ⟨.refl r, .inl (.refl r), rfl⟩
  next happ =>
    split at h
    · next hlt =>
        obtain ⟨rfl, rfl⟩ : _ = r' ∧ k = k' := by simpa using h
        exact .inl ⟨⟨⟨rfl, .inr ⟨hlt, rfl⟩, by simp [followTerm]⟩,
          ⟨rfl, rfl, rfl⟩, rfl, .inr rfl⟩, .inr ⟨happ, hlt⟩, rfl⟩
    · split at h
      · obtain ⟨rfl, rfl⟩ : r = r' ∧ k = k' := by simpa using h
        exact .inl ⟨.refl r, .inl (.refl r), rfl⟩
      · split at h
        · obtain ⟨rfl, rfl⟩ : r = r' ∧ k = k' := by simpa using h
          exact .inl ⟨.refl r, .inl (.refl r), rfl⟩
        next hleader =>
          have hleader : r.status = .leader := by simpa using hleader
          simp only [exec_bind_eq_ok, myAssert_eq_ok] at h
          obtain ⟨-, hterm, h⟩ := h
          split at h
          · split at h
            · obtain ⟨rfl, rfl⟩ : _ = r' ∧ k = k' := by simpa using h
              exact .inl ⟨⟨⟨rfl, .inl ⟨rfl, rfl⟩, fun hl => ⟨hl, rfl⟩⟩,
                ⟨rfl, rfl, rfl⟩, rfl, .inr rfl⟩, .inl (.inr ⟨rfl, rfl⟩), rfl⟩
            · obtain ⟨rfl, rfl⟩ : r = r' ∧ k = k' := by simpa using h
              exact .inl ⟨.refl r, .inl (.refl r), rfl⟩
          next hsuccess =>
            have hcounts : r.Counts reply :=
              ⟨hleader, hterm, by simpa using hsuccess⟩
            simp only [exec_bind_eq_ok, myAssert_eq_ok] at h
            obtain ⟨-, -, h⟩ := h
            split at h
            · next hmajority =>
                simp only [exec_bind_eq_ok, myAssert_eq_ok] at h
                obtain ⟨-, -, h⟩ := h
                obtain ⟨rfl, rfl⟩ : _ = r' ∧ 0 = k' := by simpa using h
                split
                · next hlast =>
                    exact .inr ⟨hcounts, Nat.zero_le _, rfl, rfl, rfl, rfl,
                      .inr ⟨⟨hcounts, hmajority, by simpa using hlast⟩, rfl⟩⟩
                · exact .inr ⟨hcounts, Nat.zero_le _, rfl, rfl, rfl, rfl,
                    .inl rfl⟩
            · obtain ⟨rfl, rfl⟩ : _ = r' ∧ k + 1 = k' := by simpa using h
              exact .inr ⟨hcounts, le_rfl, rfl, rfl, rfl, rfl, .inl rfl⟩

theorem sendAppendEntries_eq_error {r : Raft n Image} {server : Fin n}
    {args : AppendEntriesArgs n} {reply : AppendEntriesReply} {k : ℕ}
    {p : Persister n Image}
    (h : r.sendAppendEntries server args reply k = .error p) :
    p = r.persister := by
  unfold sendAppendEntries at h
  split at h
  · simp at h
  · split at h
    · simp at h
    · split at h
      · simp at h
      · split at h
        · simp at h
        · simp only [exec_bind_eq_error, myAssert_eq_error] at h
          rcases h with ⟨-, hp⟩ | ⟨-, -, h⟩
          · exact hp
          · split at h
            · split at h <;> simp at h
            · simp only [exec_bind_eq_error, myAssert_eq_error] at h
              rcases h with ⟨-, hp⟩ | ⟨-, -, h⟩
              · exact hp
              · split at h
                · simp only [exec_bind_eq_error, myAssert_eq_error,
                    exec_pure_ne_error, and_false, or_false,
                    exists_false] at h
                  rw [h.2]
                  split <;> rfl
                · simp at h

theorem applyLogs_eq_ok {r r' : Raft n Image} {k : ℕ}
    {msgs : List (ℕ × Op)} (h : r.applyLogs k = .ok (r', msgs)) :
    r' = { r with lastApplied := r.lastApplied + k } ∧
      ∀ m ∈ msgs, m.1 ≤ r.lastApplied + k ∧
        ∃ entry, r.entryAt m.1 = .ok entry ∧ entry.command = m.2 := by
  induction k generalizing r msgs with
  | zero =>
      obtain ⟨rfl, rfl⟩ : r = r' ∧ [] = msgs := by simpa [applyLogs] using h
      simp
  | succ k ih =>
      simp only [applyLogs, exec_bind_eq_ok, myAssert_eq_ok] at h
      obtain ⟨entry, hentry, -, -, ⟨r₁, rest⟩, hrest, h⟩ := h
      obtain ⟨rfl, rfl⟩ : r₁ = r' ∧ _ = msgs := by simpa using h
      obtain ⟨heq, hall⟩ := ih hrest
      refine ⟨by rw [heq]; simp only [Nat.add_assoc, Nat.add_comm 1], ?_⟩
      intro m hm
      rcases List.mem_cons.mp hm with rfl | hm
      · exact ⟨by simp, entry, hentry, rfl⟩
      · obtain ⟨hle, e, he, hcmd⟩ := hall m hm
        exact ⟨by simp only at hle; omega, e, he, hcmd⟩

/-- `getApplyLogs` hands out entries up to the commit index and changes
nothing but `lastApplied`. -/
theorem getApplyLogs_eq_ok {r r' : Raft n Image} {msgs : List (ℕ × Op)}
    (h : r.getApplyLogs = .ok (r', msgs)) :
    r' = { r with lastApplied := r'.lastApplied } ∧
      ∀ m ∈ msgs, m.1 ≤ r.commitIndex ∧
        ∃ entry, r.entryAt m.1 = .ok entry ∧ entry.command = m.2 := by
  simp only [getApplyLogs, exec_bind_eq_ok] at h
  obtain ⟨-, -, h⟩ := h
  obtain ⟨heq, hall⟩ := applyLogs_eq_ok h
  refine ⟨by rw [heq], fun m hm => ?_⟩
  obtain ⟨hle, hentry⟩ := hall m hm
  refine ⟨?_, hentry⟩
  by_cases hlt : r.lastApplied ≤ r.commitIndex
  · omega
  · -- nothing is handed out in this case
    rw [show r.commitIndex - r.lastApplied = 0 by omega] at h
    obtain ⟨-, rfl⟩ : r = r' ∧ [] = msgs := by simpa [applyLogs] using h
    simp at hm

theorem getApplyLogs_quiet {r r' : Raft n Image} {msgs : List (ℕ × Op)}
    (h : r.getApplyLogs = .ok (r', msgs)) :
    r.Follows r' ∧ r.SameLog r' ∧
      r'.persister.raftState = r.persister.raftState := by
  rw [(getApplyLogs_eq_ok h).1]
  exact ⟨⟨rfl, .inl ⟨rfl, rfl⟩, fun hl => ⟨hl, rfl⟩⟩, ⟨rfl, rfl, rfl⟩, rfl⟩

theorem applyLogs_eq_error {r : Raft n Image} {k : ℕ} {p : Persister n Image}
    (h : r.applyLogs k = .error p) : p = r.persister := by
  induction k generalizing r with
  | zero => simp [applyLogs] at h
  | succ k ih =>
      simp only [applyLogs, exec_bind_eq_error, myAssert_eq_error,
        exec_pure_ne_error, and_false, or_false, exists_false] at h
      rcases h with h | ⟨entry, -, ⟨-, hp⟩ | ⟨-, -, h⟩⟩
      · exact entryAt_eq_error h
      · exact hp
      · exact (ih h).trans rfl

theorem getApplyLogs_eq_error {r : Raft n Image} {p : Persister n Image}
    (h : r.getApplyLogs = .error p) : p = r.persister := by
  simp only [getApplyLogs, exec_bind_eq_error, myAssert_eq_error] at h
  rcases h with ⟨-, hp⟩ | ⟨-, -, h⟩
  · exact hp
  · exact applyLogs_eq_error h

theorem readIndexArgs_eq_error {r : Raft n Image} {savedTerm : ℕ}
    {server : Fin n} {p : Persister n Image}
    (h : r.readIndexArgs savedTerm server = .error p) : p = r.persister := by
  unfold readIndexArgs at h
  split at h
  · simp at h
  · split at h
    · simp at h
    · simp only [exec_bind_eq_error, exec_pure_ne_error, and_false,
        exists_false, or_false, getPrevLogInfo] at h
      split at h
      · simp at h
      · simp only [exec_bind_eq_error, exec_pure_ne_error, and_false,
          exists_false, or_false] at h
        exact entryAt_eq_error h

/-! ## Snapshots -/

/-- An accepted `Snapshot(index, _)` moves the boundary to `index`. -/
structure Compacts (r : Raft n Image) (index : ℕ) (r' : Raft n Image) :
    Prop where
  stored : r'.Stored
  me : r'.me = r.me
  currentTerm : r'.currentTerm = r.currentTerm
  votedFor : r'.votedFor = r.votedFor
  status : r'.status = r.status
  lt : r.lastSnapshotIncludeIndex < index
  le : index ≤ r.commitIndex
  entry : ∃ entry, r.entryAt index = .ok entry ∧
    r'.lastSnapshotIncludeTerm = entry.logTerm
  logs : (List.range' (index + 1) (r.getLastLogIndex - index)).mapM r.entryAt =
    .ok r'.logs
  boundary : r'.lastSnapshotIncludeIndex = index
  commit : r'.commitIndex = max r.commitIndex index

theorem Compacts.follows {r r' : Raft n Image} {index : ℕ}
    (h : r.Compacts index r') : r.Follows r' :=
  ⟨h.me, .inl ⟨h.currentTerm, h.votedFor⟩,
    fun hl => ⟨h.status ▸ hl, h.currentTerm⟩⟩

theorem snapshot_eq_ok {r r' : Raft n Image} {index : ℕ}
    {image : Option Image} (h : r.snapshot index image = .ok r') :
    r' = r ∨ r.Compacts index r' := by
  unfold snapshot at h
  split at h
  · exact .inl (Except.ok.inj h).symm
  next hrange =>
    simp only [exec_bind_eq_ok, myAssert_eq_ok] at h
    obtain ⟨entry, hentry, logs, hlogs, -, -, h⟩ := h
    obtain rfl := exec_pure_eq_ok.mp h
    exact .inr ⟨rfl, rfl, rfl, rfl, rfl, by omega, by omega,
      ⟨entry, hentry, rfl⟩, hlogs, rfl, rfl⟩

theorem mapM_entryAt_eq_error {r : Raft n Image} {is : List ℕ}
    {p : Persister n Image} (h : is.mapM r.entryAt = .error p) :
    p = r.persister := by
  induction is with
  | nil => simp at h
  | cons i is ih =>
      rw [List.mapM_cons, exec_bind_eq_error] at h
      rcases h with h | ⟨entry, -, h⟩
      · exact entryAt_eq_error h
      · simp only [exec_bind_eq_error, exec_pure_ne_error, and_false,
          exists_false, or_false] at h
        exact ih h

/-- A `Snapshot` that exits has stored nothing, or the compacted log. -/
theorem snapshot_eq_error {r : Raft n Image} {index : ℕ}
    {image : Option Image} {p : Persister n Image}
    (h : r.snapshot index image = .error p) :
    p = r.persister ∨ ∃ r' : Raft n Image, r.Compacts index r' ∧
      p = r'.persister := by
  unfold snapshot at h
  split at h
  · simp at h
  next hrange =>
    simp only [exec_bind_eq_error, myAssert_eq_error] at h
    rcases h with h | ⟨entry, hentry, h | ⟨logs, hlogs, ⟨-, hp⟩ | h⟩⟩
    · exact .inl (entryAt_eq_error h)
    · exact .inl (mapM_entryAt_eq_error h)
    · refine .inr ⟨_, ?_, hp⟩
      exact ⟨rfl, rfl, rfl, rfl, rfl, by omega, by omega,
        ⟨entry, hentry, rfl⟩, hlogs, rfl, rfl⟩
    · simp at h

theorem snapShotSent_effect (r : Raft n Image) (server : Fin n)
    (args : InstallSnapshotRequest n Image)
    (reply : InstallSnapshotResponse) :
    r.Quiet (r.snapShotSent server args reply) ∧
      r.Saved (r.snapShotSent server args reply) := by
  unfold snapShotSent
  split
  · exact ⟨.refl r, .refl r⟩
  · split
    · next hlt =>
        exact ⟨⟨⟨rfl, .inr ⟨hlt, rfl⟩, by simp [followTerm, persist]⟩,
          ⟨rfl, rfl, rfl⟩, rfl, .inl rfl⟩, .inl rfl⟩
    · exact ⟨⟨⟨rfl, .inl ⟨rfl, rfl⟩, fun hl => ⟨hl, rfl⟩⟩,
        ⟨rfl, rfl, rfl⟩, rfl, .inr rfl⟩, .inr ⟨rfl, rfl⟩⟩

theorem installTerm_effect (r : Raft n Image) (term : ℕ) :
    r.Quiet (r.installTerm term) ∧ r.Saved (r.installTerm term) := by
  unfold installTerm
  split
  · next hlt =>
      exact ⟨⟨⟨rfl, .inr ⟨hlt, rfl⟩, by simp [followTerm, persist]⟩,
        ⟨rfl, rfl, rfl⟩, rfl, .inl rfl⟩, .inl rfl⟩
  · exact ⟨.refl r, .refl r⟩

theorem currentTerm_installTerm {r : Raft n Image} {term : ℕ}
    (h : r.currentTerm ≤ term) : (r.installTerm term).currentTerm = term := by
  unfold installTerm
  split
  · rfl
  · omega

/-- An accepted snapshot replaces the log up to its index. -/
structure Installs (r : Raft n Image)
    (args : InstallSnapshotRequest n Image) (r' : Raft n Image) : Prop where
  stored : r'.Stored
  follows : r.Follows r'
  le : r.currentTerm ≤ args.term
  term : r'.currentTerm = args.term
  status : r'.status = .follower
  lt : r.lastSnapshotIncludeIndex < args.lastSnapShotIncludeIndex
  logs : r'.logs =
    if args.lastSnapShotIncludeIndex < r.getLastLogIndex then
      r.logs.drop (args.lastSnapShotIncludeIndex - r.lastSnapshotIncludeIndex)
    else []
  index : r'.lastSnapshotIncludeIndex = args.lastSnapShotIncludeIndex
  boundary : r'.lastSnapshotIncludeTerm = args.lastSnapShotIncludeTerm
  commit : r'.commitIndex = max r.commitIndex args.lastSnapShotIncludeIndex

theorem getSlicesIndexFromLogIndex_eq_ok {r : Raft n Image} {i slice : ℕ}
    (h : r.getSlicesIndexFromLogIndex i = .ok slice) :
    r.lastSnapshotIncludeIndex < i ∧ i ≤ r.getLastLogIndex ∧
      slice = i - r.lastSnapshotIncludeIndex - 1 := by
  simp only [getSlicesIndexFromLogIndex, exec_bind_eq_ok, myAssert_eq_ok,
    exec_pure_eq_ok] at h
  obtain ⟨-, hlt, -, hle, h⟩ := h
  exact ⟨hlt, hle, h.symm⟩

theorem logsBehind_eq_ok {r : Raft n Image} {index : ℕ}
    {logs : List LogEntry} (h : r.logsBehind index = .ok logs)
    (hlt : r.lastSnapshotIncludeIndex < index) :
    logs = if index < r.getLastLogIndex then
        r.logs.drop (index - r.lastSnapshotIncludeIndex)
      else [] := by
  unfold logsBehind at h
  split at h
  · next hlong =>
      rw [exec_bind_eq_ok] at h
      obtain ⟨slice, hslice, h⟩ := h
      obtain ⟨-, -, rfl⟩ := getSlicesIndexFromLogIndex_eq_ok hslice
      rw [← exec_pure_eq_ok.mp h, if_pos hlong]
      congr 1
      omega
  · next hshort =>
      rw [if_neg hshort]
      exact (exec_pure_eq_ok.mp h).symm

theorem enterSnapshot_effect (r : Raft n Image) (term : ℕ) :
    r.Quiet (r.enterSnapshot term) ∧ r.Saved (r.enterSnapshot term) := by
  obtain ⟨hquiet, hsaved⟩ := r.installTerm_effect term
  exact ⟨⟨⟨hquiet.follows.me, hquiet.follows.term, by simp [enterSnapshot]⟩,
    ⟨hquiet.log.logs, hquiet.log.index, hquiet.log.term⟩, hquiet.commit,
    hquiet.disk⟩, hsaved⟩

theorem takeSnapshot_eq_ok {r r' : Raft n Image}
    {args : InstallSnapshotRequest n Image} {reply : InstallSnapshotResponse}
    {msg : Option (ApplyMsg Image)}
    (h : r.takeSnapshot args = .ok (r', reply, msg)) :
    ∃ logs, r.logsBehind args.lastSnapShotIncludeIndex = .ok logs ∧
      r' = Raft.save { r with
        logs := logs
        commitIndex := max r.commitIndex args.lastSnapShotIncludeIndex
        lastApplied := max r.lastApplied args.lastSnapShotIncludeIndex
        lastSnapshotIncludeIndex := args.lastSnapShotIncludeIndex
        lastSnapshotIncludeTerm := args.lastSnapShotIncludeTerm }
          args.data := by
  simp only [takeSnapshot, exec_bind_eq_ok] at h
  obtain ⟨logs, hlogs, h⟩ := h
  obtain ⟨rfl, -⟩ : _ = r' ∧ _ := by simpa using h
  exact ⟨logs, hlogs, rfl⟩

theorem installSnapshot_eq_ok {r r' : Raft n Image}
    {args : InstallSnapshotRequest n Image} {reply : InstallSnapshotResponse}
    {msg : Option (ApplyMsg Image)}
    (h : r.installSnapshot args = .ok (r', reply, msg)) :
    (r.Quiet r' ∧ r.Saved r') ∨ r.Installs args r' := by
  unfold installSnapshot at h
  split at h
  · obtain ⟨rfl, -⟩ : r = r' ∧ _ := by simpa using h
    exact .inl ⟨.refl r, .refl r⟩
  next hle =>
    have hle : r.currentTerm ≤ args.term := Nat.le_of_not_lt hle
    obtain ⟨hquiet, hsaved⟩ := r.enterSnapshot_effect args.term
    split at h
    · obtain ⟨rfl, -⟩ : _ = r' ∧ _ := by simpa using h
      exact .inl ⟨hquiet, hsaved⟩
    next hlt =>
      have hlt := Nat.lt_of_not_le hlt
      obtain ⟨logs, hlogs, rfl⟩ := takeSnapshot_eq_ok h
      have hkept := logsBehind_eq_ok hlogs hlt
      rw [hquiet.log.lastLogIndex, hquiet.log.logs, hquiet.log.index] at hkept
      right
      exact {
        stored := rfl
        follows := ⟨hquiet.follows.me, hquiet.follows.term,
          hquiet.follows.leader⟩
        le := hle
        term := currentTerm_installTerm hle
        status := rfl
        lt := hquiet.log.index ▸ hlt
        logs := hkept
        index := rfl
        boundary := rfl
        commit := by
          change max (r.enterSnapshot args.term).commitIndex _ = _
          rw [hquiet.commit] }

theorem installSnapshot_eq_error {r : Raft n Image}
    {args : InstallSnapshotRequest n Image} {p : Persister n Image}
    (h : r.installSnapshot args = .error p) :
    p = (r.installTerm args.term).persister := by
  unfold installSnapshot at h
  split at h
  · simp at h
  · split at h
    · simp at h
    · simp only [takeSnapshot, exec_bind_eq_error, exec_pure_ne_error,
        and_false, exists_false, or_false, logsBehind] at h
      split at h
      · simp only [exec_bind_eq_error, exec_pure_ne_error, and_false,
          exists_false, or_false] at h
        exact getSlicesIndexFromLogIndex_eq_error h
      · simp at h

end Raft

end KVRaftStorage
