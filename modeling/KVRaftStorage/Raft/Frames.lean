import KVRaftStorage.Raft.Effects

/-!
# How far the log was handed out

The state machine above a node sees three things of it: how far the log was
handed out, where the snapshot boundary is, and which image lies on disk.  Most
handlers leave all three.  `getApplyLogs`, `Snapshot` and `InstallSnapshot`
change them, in the ways stated at the end of the file.
-/

namespace KVRaftStorage

variable {n : ℕ} {Image : Type}

/-- The boundary that a restart finds on disk. -/
def Persister.boundary (p : Persister n Image) : ℕ :=
  p.stored.lastSnapshotIncludeIndex

namespace Raft

/-- The files `p` hold the image of `r` and its boundary, as it was stored or
as it is in memory. -/
def KeepsImage (r : Raft n Image) (p : Persister n Image) : Prop :=
  p.snapshot = r.persister.snapshot ∧
    (p.boundary = r.persister.boundary ∨
      p.boundary = r.lastSnapshotIncludeIndex)

theorem keepsImage_persister (r : Raft n Image) : r.KeepsImage r.persister :=
  ⟨rfl, .inl rfl⟩

/-- The log was handed out as far as before, and boundary and image are the
same in memory and on disk. -/
structure KeepsSnapshot (r r' : Raft n Image) : Prop where
  lastApplied : r'.lastApplied = r.lastApplied
  boundary : r'.lastSnapshotIncludeIndex = r.lastSnapshotIncludeIndex
  image : r'.persister.snapshot = r.persister.snapshot
  disk : r'.persister.boundary = r.persister.boundary ∨
    r'.persister.boundary = r'.lastSnapshotIncludeIndex

theorem KeepsSnapshot.refl (r : Raft n Image) : r.KeepsSnapshot r :=
  ⟨rfl, rfl, rfl, .inl rfl⟩

theorem KeepsSnapshot.trans {r₁ r₂ r₃ : Raft n Image}
    (h₁ : r₁.KeepsSnapshot r₂) (h₂ : r₂.KeepsSnapshot r₃) :
    r₁.KeepsSnapshot r₃ := by
  refine ⟨h₂.lastApplied.trans h₁.lastApplied, h₂.boundary.trans h₁.boundary,
    h₂.image.trans h₁.image, ?_⟩
  rcases h₂.disk with hsame | hdisk
  · rcases h₁.disk with h | h
    · exact .inl (hsame.trans h)
    · exact .inr (hsame.trans (h.trans h₂.boundary.symm))
  · exact .inr hdisk

theorem keepsSnapshot_persist (r : Raft n Image) :
    r.KeepsSnapshot r.persist :=
  ⟨rfl, rfl, rfl, .inr rfl⟩

/-! ## Restarting -/

@[simp] theorem persister_init (me : Fin n) (p : Persister n Image) :
    (init me p).persister = p := by
  unfold init readPersist
  split <;> rfl

theorem boundary_init (me : Fin n) (p : Persister n Image) :
    (init me p).lastSnapshotIncludeIndex = p.boundary := by
  unfold init readPersist Persister.boundary Persister.stored
  cases p.raftState <;> rfl

theorem lastApplied_init (me : Fin n) (p : Persister n Image) :
    (init me p).lastApplied = p.boundary := by
  rw [← boundary_init me p]
  unfold init
  simp only
  split
  · rfl
  · next hzero =>
      rw [Nat.eq_zero_of_not_pos hzero]
      unfold readPersist
      split <;> rfl

/-! ## The handlers that leave the snapshot -/

theorem keepsSnapshot_doElection (r : Raft n Image) :
    r.KeepsSnapshot r.doElection.1 := by
  unfold doElection
  split
  · exact .refl r
  · exact ⟨rfl, rfl, rfl, .inr rfl⟩

theorem keepsSnapshot_start (r : Raft n Image) (command : Op) :
    r.KeepsSnapshot (r.start command).1 := by
  rcases r.start_effect command with h | ⟨-, h⟩
  · rw [h]
    exact .refl r
  · rw [h]
    exact ⟨rfl, rfl, rfl, .inr rfl⟩

theorem keepsSnapshot_followTerm (r : Raft n Image) (term : ℕ) :
    r.KeepsSnapshot (r.followTerm term) :=
  ⟨rfl, rfl, rfl, .inl rfl⟩

theorem keepsSnapshot_observeTerm (r : Raft n Image) (term : ℕ) :
    r.KeepsSnapshot (r.observeTerm term) := by
  unfold observeTerm
  split
  · exact r.keepsSnapshot_followTerm term
  · exact .refl r

theorem keepsSnapshot_requestVote {r r' : Raft n Image}
    {args : RequestVoteArgs n} {reply : RequestVoteReply}
    (h : r.requestVote args = .ok (r', reply)) : r.KeepsSnapshot r' := by
  unfold requestVote at h
  split at h
  · obtain ⟨rfl, -⟩ : _ = r' ∧ _ = reply := by simpa using h
    exact r.keepsSnapshot_persist
  · have hobserve := r.keepsSnapshot_observeTerm args.term
    rw [exec_bind_eq_ok] at h
    obtain ⟨-, -, h⟩ := h
    split at h
    · obtain ⟨rfl, -⟩ : _ = r' ∧ _ = reply := by simpa using h
      exact hobserve.trans (keepsSnapshot_persist _)
    · split at h
      · obtain ⟨rfl, -⟩ : _ = r' ∧ _ = reply := by simpa using h
        exact hobserve.trans (keepsSnapshot_persist _)
      · obtain ⟨rfl, -⟩ : _ = r' ∧ _ = reply := by simpa using h
        refine hobserve.trans ⟨rfl, rfl, ?_, .inr rfl⟩
        rw [persister_observeTerm]
        rfl

theorem keepsSnapshot_sendRequestVote {r r' : Raft n Image} {k k' : ℕ}
    {reply : RequestVoteReply}
    (h : r.sendRequestVote k reply = .ok (r', k')) : r.KeepsSnapshot r' := by
  unfold sendRequestVote at h
  split at h
  · obtain ⟨rfl, -⟩ : _ = r' ∧ k = k' := by simpa using h
    exact ⟨rfl, rfl, rfl, .inr rfl⟩
  · split at h
    · obtain ⟨rfl, -⟩ : r = r' ∧ k = k' := by simpa using h
      exact .refl r
    · rw [exec_bind_eq_ok] at h
      obtain ⟨-, -, h⟩ := h
      split at h
      · obtain ⟨rfl, -⟩ : r = r' ∧ k = k' := by simpa using h
        exact .refl r
      · split at h
        · rw [exec_bind_eq_ok] at h
          obtain ⟨-, -, h⟩ := h
          obtain ⟨rfl, -⟩ : r.becomeLeader = r' ∧ 0 = k' := by simpa using h
          exact ⟨rfl, rfl, rfl, .inr rfl⟩
        · obtain ⟨rfl, -⟩ : r = r' ∧ k + 1 = k' := by simpa using h
          exact .refl r

theorem keepsSnapshot_mergeEntries {r r' : Raft n Image}
    {args : AppendEntriesArgs n} (h : r.mergeEntries args = .ok r') :
    r.KeepsSnapshot r' := by
  obtain ⟨r₂, hloop, -, rfl⟩ := mergeEntries_eq_ok h
  rw [(mergeEntries_foldlM_onlyLogs hloop).eq]
  exact ⟨rfl, rfl, rfl, .inl rfl⟩

theorem keepsSnapshot_examineEntries {r r' : Raft n Image}
    {args : AppendEntriesArgs n} {reply : AppendEntriesReply}
    (h : r.examineEntries args = .ok (r', reply)) : r.KeepsSnapshot r' := by
  unfold examineEntries at h
  split at h
  · obtain ⟨rfl, -⟩ : r.persist = r' ∧ _ = reply := by simpa using h
    exact r.keepsSnapshot_persist
  · split at h
    · obtain ⟨rfl, -⟩ : r.persist = r' ∧ _ = reply := by simpa using h
      exact r.keepsSnapshot_persist
    · rw [exec_bind_eq_ok] at h
      obtain ⟨matched, -, h⟩ := h
      split at h
      · rw [exec_bind_eq_ok] at h
        obtain ⟨r₂, hmerge, h⟩ := h
        obtain ⟨rfl, -⟩ : r₂.persist = r' ∧ _ = reply := by simpa using h
        exact (keepsSnapshot_mergeEntries hmerge).trans
          r₂.keepsSnapshot_persist
      · simp only [exec_bind_eq_ok] at h
        obtain ⟨term, -, next, -, h⟩ := h
        obtain ⟨rfl, -⟩ : r.persist = r' ∧ _ = reply := by simpa using h
        exact r.keepsSnapshot_persist

theorem keepsSnapshot_appendEntries1 {r r' : Raft n Image}
    {args : AppendEntriesArgs n} {reply : AppendEntriesReply}
    (h : r.appendEntries1 args = .ok (r', reply)) : r.KeepsSnapshot r' := by
  unfold appendEntries1 at h
  split at h
  · obtain ⟨rfl, -⟩ : r = r' ∧ _ = reply := by simpa using h
    exact .refl r
  · rw [exec_bind_eq_ok] at h
    obtain ⟨-, -, h⟩ := h
    have henter : r.KeepsSnapshot (r.enterTerm args.term) :=
      (r.keepsSnapshot_observeTerm args.term).trans ⟨rfl, rfl, rfl, .inl rfl⟩
    exact henter.trans (keepsSnapshot_examineEntries h)

theorem keepsSnapshot_sendAppendEntries {r r' : Raft n Image} {server : Fin n}
    {args : AppendEntriesArgs n} {reply : AppendEntriesReply} {k k' : ℕ}
    (h : r.sendAppendEntries server args reply k = .ok (r', k')) :
    r.KeepsSnapshot r' := by
  unfold sendAppendEntries at h
  split at h
  · obtain ⟨rfl, -⟩ : r = r' ∧ k = k' := by simpa using h
    exact .refl r
  · split at h
    · obtain ⟨rfl, -⟩ : _ = r' ∧ k = k' := by simpa using h
      exact r.keepsSnapshot_followTerm reply.term
    · split at h
      · obtain ⟨rfl, -⟩ : r = r' ∧ k = k' := by simpa using h
        exact .refl r
      · split at h
        · obtain ⟨rfl, -⟩ : r = r' ∧ k = k' := by simpa using h
          exact .refl r
        · rw [exec_bind_eq_ok] at h
          obtain ⟨-, -, h⟩ := h
          split at h
          · split at h
            · obtain ⟨rfl, -⟩ : _ = r' ∧ k = k' := by simpa using h
              exact ⟨rfl, rfl, rfl, .inl rfl⟩
            · obtain ⟨rfl, -⟩ : r = r' ∧ k = k' := by simpa using h
              exact .refl r
          · rw [exec_bind_eq_ok] at h
            obtain ⟨-, -, h⟩ := h
            split at h
            · rw [exec_bind_eq_ok] at h
              obtain ⟨-, -, h⟩ := h
              obtain ⟨rfl, -⟩ : _ = r' ∧ 0 = k' := by simpa using h
              split <;> exact ⟨rfl, rfl, rfl, .inl rfl⟩
            · obtain ⟨rfl, -⟩ : _ = r' ∧ k + 1 = k' := by simpa using h
              exact ⟨rfl, rfl, rfl, .inl rfl⟩

theorem keepsSnapshot_snapShotSent (r : Raft n Image) (server : Fin n)
    (args : InstallSnapshotRequest n Image)
    (reply : InstallSnapshotResponse) :
    r.KeepsSnapshot (r.snapShotSent server args reply) := by
  unfold snapShotSent
  split
  · exact .refl r
  · split
    · exact ⟨rfl, rfl, rfl, .inr rfl⟩
    · exact ⟨rfl, rfl, rfl, .inl rfl⟩

/-! ## Handing out -/

theorem applyLogs_indices {r r' : Raft n Image} {k : ℕ}
    {msgs : List (ℕ × Op)} (h : r.applyLogs k = .ok (r', msgs)) :
    msgs.map Prod.fst = List.range' (r.lastApplied + 1) k := by
  induction k generalizing r msgs with
  | zero =>
      obtain ⟨-, rfl⟩ : r = r' ∧ [] = msgs := by simpa [applyLogs] using h
      rfl
  | succ k ih =>
      simp only [applyLogs, exec_bind_eq_ok, myAssert_eq_ok] at h
      obtain ⟨entry, -, -, -, ⟨r₁, rest⟩, hrest, h⟩ := h
      obtain ⟨rfl, rfl⟩ : r₁ = r' ∧ _ = msgs := by simpa using h
      rw [List.map_cons, ih hrest, List.range'_succ]

/-- The commands are handed out consecutively, from the first that was not
yet. -/
theorem getApplyLogs_indices {r r' : Raft n Image} {msgs : List (ℕ × Op)}
    (h : r.getApplyLogs = .ok (r', msgs)) :
    ∃ k, r'.lastApplied = r.lastApplied + k ∧
      msgs.map Prod.fst = List.range' (r.lastApplied + 1) k := by
  simp only [getApplyLogs, exec_bind_eq_ok] at h
  obtain ⟨-, -, h⟩ := h
  refine ⟨r.commitIndex - r.lastApplied, ?_, applyLogs_indices h⟩
  rw [(applyLogs_eq_ok h).1]

/-! ## Snapshots -/

/-- The boundary moves to `index`, and memory and disk agree on it and on the
image. -/
structure TakesSnapshot (r : Raft n Image) (index : ℕ) (image : Option Image)
    (r' : Raft n Image) : Prop where
  lt : r.lastSnapshotIncludeIndex < index
  lastApplied : r'.lastApplied = max r.lastApplied index
  boundary : r'.lastSnapshotIncludeIndex = index
  image : r'.persister.snapshot = image
  disk : r'.persister.boundary = index

theorem snapshot_takes {r r' : Raft n Image} {index : ℕ}
    {image : Option Image} (h : r.snapshot index image = .ok r') :
    r' = r ∨ r.TakesSnapshot index image r' := by
  unfold snapshot at h
  split at h
  · exact .inl (Except.ok.inj h).symm
  · next hrange =>
      simp only [exec_bind_eq_ok, myAssert_eq_ok] at h
      obtain ⟨entry, -, logs, -, -, -, h⟩ := h
      obtain rfl := exec_pure_eq_ok.mp h
      exact .inr ⟨by omega, rfl, rfl, rfl, rfl⟩

theorem snapshot_exits {r : Raft n Image} {index : ℕ} {image : Option Image}
    {p : Persister n Image} (h : r.snapshot index image = .error p) :
    p = r.persister ∨ (p.snapshot = image ∧ p.boundary = index) := by
  unfold snapshot at h
  split at h
  · simp at h
  · simp only [exec_bind_eq_error, myAssert_eq_error] at h
    rcases h with h | ⟨entry, -, h | ⟨logs, -, ⟨-, rfl⟩ | h⟩⟩
    · exact .inl (entryAt_eq_error h)
    · exact .inl (mapM_entryAt_eq_error h)
    · exact .inr ⟨rfl, rfl⟩
    · simp at h

theorem keepsSnapshot_installTerm (r : Raft n Image) (term : ℕ) :
    r.KeepsSnapshot (r.installTerm term) := by
  unfold installTerm
  split
  · exact ⟨rfl, rfl, rfl, .inr rfl⟩
  · exact .refl r

theorem keepsImage_installTerm (r : Raft n Image) (term : ℕ) :
    r.KeepsImage (r.installTerm term).persister := by
  obtain ⟨-, hboundary, himage, hdisk⟩ := r.keepsSnapshot_installTerm term
  exact ⟨himage, hboundary ▸ hdisk⟩

theorem keepsSnapshot_enterSnapshot (r : Raft n Image) (term : ℕ) :
    r.KeepsSnapshot (r.enterSnapshot term) :=
  (r.keepsSnapshot_installTerm term).trans ⟨rfl, rfl, rfl, .inl rfl⟩

/-- `InstallSnapshot` takes the snapshot over and pushes it, or does
neither. -/
theorem installSnapshot_takes {r r' : Raft n Image}
    {args : InstallSnapshotRequest n Image} {reply : InstallSnapshotResponse}
    {msg : Option (ApplyMsg Image)}
    (h : r.installSnapshot args = .ok (r', reply, msg)) :
    (r.KeepsSnapshot r' ∧ msg = none) ∨
      (r.currentTerm ≤ args.term ∧
        r.TakesSnapshot args.lastSnapShotIncludeIndex args.data r' ∧
        msg = some (.snapshot args.data args.lastSnapShotIncludeTerm
          args.lastSnapShotIncludeIndex)) := by
  unfold installSnapshot at h
  split at h
  · obtain ⟨rfl, -, rfl⟩ : r = r' ∧ _ ∧ none = msg := by simpa using h
    exact .inl ⟨.refl r, rfl⟩
  · next hterm =>
      have henter := r.keepsSnapshot_enterSnapshot args.term
      split at h
      · obtain ⟨rfl, -, rfl⟩ : _ = r' ∧ _ ∧ none = msg := by simpa using h
        exact .inl ⟨henter, rfl⟩
      · next hlt =>
          rw [henter.boundary] at hlt
          simp only [takeSnapshot, exec_bind_eq_ok] at h
          obtain ⟨logs, -, h⟩ := h
          obtain ⟨rfl, -, rfl⟩ : _ = r' ∧ _ ∧ _ = msg := by simpa using h
          refine .inr ⟨by omega, ⟨by omega, ?_, rfl, rfl, rfl⟩, rfl⟩
          rw [← henter.lastApplied]
          rfl

end Raft

end KVRaftStorage
