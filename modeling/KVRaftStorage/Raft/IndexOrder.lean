import KVRaftStorage.Raft.Frames
import KVRaftStorage.Raft.Logs
import KVRaftStorage.Raft.Steps

/-!
# The order of the indices

A node counts its log in four places: the snapshot boundary, what was handed
out, what is committed, and the last entry.  The handlers keep the four in
order, with consecutive indices in between, as long as requests carry
consecutive entries; and requests do so because they are cut out of the log of
a node.  The commit index is not stored, so after a start from a snapshot it
begins below the boundary.
-/

namespace KVRaftStorage

open Replication Transition

variable {n : ℕ} {Image : Type}

/-! ## Consecutive entries -/

/-- The entries carry the indices `base + 1`, `base + 2`, … -/
def Consecutive (base : ℕ) (logs : List LogEntry) : Prop :=
  ∀ k entry, logs[k]? = some entry → entry.logIndex = base + k + 1

namespace Consecutive

variable {base : ℕ} {logs logs' : List LogEntry}

theorem nil (base : ℕ) : Consecutive base [] := by
  intro k entry h
  simp at h

theorem append (h : Consecutive base logs)
    (h' : Consecutive (base + logs.length) logs') :
    Consecutive base (logs ++ logs') := by
  intro k entry hk
  rcases Nat.lt_or_ge k logs.length with hlt | hge
  · rw [List.getElem?_append_left hlt] at hk
    exact h k entry hk
  · rw [List.getElem?_append_right hge] at hk
    have := h' _ entry hk
    omega

theorem drop (h : Consecutive base logs) (j : ℕ) :
    Consecutive (base + j) (logs.drop j) := by
  intro k entry hk
  rw [List.getElem?_drop] at hk
  have := h _ entry hk
  omega

theorem set (h : Consecutive base logs) {j : ℕ} {log : LogEntry}
    (hlog : log.logIndex = base + j + 1) :
    Consecutive base (logs.set j log) := by
  intro k entry hk
  rw [List.getElem?_set] at hk
  split at hk
  · next heq =>
      subst heq
      split at hk
      · obtain rfl : log = entry := Option.some.inj hk
        exact hlog
      · simp at hk
  · exact h k entry hk

theorem singleton {log : LogEntry} (h : log.logIndex = base + 1) :
    Consecutive base [log] := by
  intro k entry hk
  obtain ⟨hlt, rfl⟩ := List.getElem?_eq_some_iff.mp hk
  obtain rfl : k = 0 := by simpa using hlt
  simpa using h

theorem head {log : LogEntry} (h : Consecutive base (log :: logs)) :
    log.logIndex = base + 1 :=
  h 0 log rfl

theorem tail {log : LogEntry} (h : Consecutive base (log :: logs)) :
    Consecutive (base + 1) logs :=
  h.drop 1

end Consecutive

namespace Raft

theorem getLastLogIndex_eq {r : Raft n Image}
    (h : Consecutive r.lastSnapshotIncludeIndex r.logs) :
    r.getLastLogIndex = r.lastSnapshotIncludeIndex + r.logs.length := by
  unfold getLastLogIndex getLastLogIndexAndTerm
  split
  · next hnone =>
      rw [List.getLast?_eq_none_iff] at hnone
      simp [hnone]
  · next entry hlast =>
      rw [List.getLast?_eq_getElem?] at hlast
      have hpos := (List.getElem?_eq_some_iff.mp hlast).1
      have := h _ entry hlast
      simp only
      omega

theorem entryAt?_logIndex {r : Raft n Image} {i : ℕ} {entry : LogEntry}
    (h : Consecutive r.lastSnapshotIncludeIndex r.logs)
    (hentry : r.entryAt? i = some entry) :
    entry.logIndex = i ∧ entry ∈ r.logs := by
  unfold entryAt? at hentry
  split at hentry
  · have := h _ entry hentry
    exact ⟨by omega, List.mem_of_getElem? hentry⟩
  · simp at hentry

end Raft

/-! ## Nodes in order -/

/-- The entries are consecutive, and neither they nor the boundary are of a
later term than the node. -/
structure RaftState.Ordered (s : RaftState n) : Prop where
  consecutive : Consecutive s.lastSnapshotIncludeIndex s.logs
  logs_le : ∀ entry ∈ s.logs, entry.logTerm ≤ s.currentTerm
  boundary_le : s.lastSnapshotIncludeTerm ≤ s.currentTerm

namespace Raft

/-- The four counters are in order, and the log is stored. -/
structure Ordered (r : Raft n Image) : Prop where
  disk : r.persister.stored.Ordered
  logs : r.persister.stored.logs = r.logs
  index : r.persister.stored.lastSnapshotIncludeIndex =
    r.lastSnapshotIncludeIndex
  boundary : r.persister.stored.lastSnapshotIncludeTerm =
    r.lastSnapshotIncludeTerm
  term : r.persister.stored.currentTerm ≤ r.currentTerm
  applied : r.lastSnapshotIncludeIndex ≤ r.lastApplied
  committed : r.lastApplied ≤ max r.commitIndex r.lastSnapshotIncludeIndex
  last : r.commitIndex ≤ r.getLastLogIndex

/-- The counters only go up, and a commit index that has reached the boundary
stays there. -/
structure Advances (r r' : Raft n Image) : Prop where
  boundary : r.lastSnapshotIncludeIndex ≤ r'.lastSnapshotIncludeIndex
  applied : r.lastApplied ≤ r'.lastApplied
  commit : r.commitIndex ≤ r'.commitIndex
  last : r.getLastLogIndex ≤ r'.getLastLogIndex
  covers : r.lastSnapshotIncludeIndex ≤ r.commitIndex →
    r'.lastSnapshotIncludeIndex ≤ r'.commitIndex

theorem Advances.refl (r : Raft n Image) : r.Advances r :=
  ⟨le_rfl, le_rfl, le_rfl, le_rfl, id⟩

theorem Advances.trans {r₁ r₂ r₃ : Raft n Image} (h₁ : r₁.Advances r₂)
    (h₂ : r₂.Advances r₃) : r₁.Advances r₃ :=
  ⟨h₁.boundary.trans h₂.boundary, h₁.applied.trans h₂.applied,
    h₁.commit.trans h₂.commit, h₁.last.trans h₂.last,
    fun h => h₂.covers (h₁.covers h)⟩

namespace Ordered

variable {r r' : Raft n Image}

theorem consecutive (h : r.Ordered) :
    Consecutive r.lastSnapshotIncludeIndex r.logs :=
  h.index ▸ h.logs ▸ h.disk.consecutive

theorem data (h : r.Ordered) : r.persistData.Ordered where
  consecutive := h.consecutive
  logs_le := fun entry hentry =>
    (h.disk.logs_le entry (h.logs.symm ▸ hentry)).trans h.term
  boundary_le := h.boundary.ge.trans (h.disk.boundary_le.trans h.term)

theorem lastLogIndex (h : r.Ordered) :
    r.getLastLogIndex = r.lastSnapshotIncludeIndex + r.logs.length :=
  getLastLogIndex_eq h.consecutive

theorem of_stored (hstored : r.Stored) (hdata : r.persistData.Ordered)
    (happlied : r.lastSnapshotIncludeIndex ≤ r.lastApplied)
    (hcommitted : r.lastApplied ≤
      max r.commitIndex r.lastSnapshotIncludeIndex)
    (hlast : r.commitIndex ≤ r.getLastLogIndex) : r.Ordered := by
  refine ⟨?_, ?_, ?_, ?_, ?_, happlied, hcommitted, hlast⟩
  all_goals rw [hstored]
  · exact hdata
  · rfl
  · rfl
  · rfl
  · exact le_rfl

/-- A start on ordered files. -/
theorem init {p : Persister n Image} (h : p.stored.Ordered) (v : Fin n) :
    (Raft.init v p).Ordered := by
  have hdata := persistData_init v p
  refine of_stored (stored_init v p) (hdata ▸ h) ?_ ?_ (by simp)
  · rw [lastApplied_init, boundary_init]
  · rw [lastApplied_init, boundary_init]
    exact Nat.le_max_right _ _

/-- The term may go up, stored or not, and nothing else changes. -/
theorem quiet (h : r.Ordered) (hlog : r.SameLog r')
    (hdisk : r'.Stored ∨ r'.persister.raftState = r.persister.raftState)
    (hle : r.currentTerm ≤ r'.currentTerm)
    (hcommit : r'.commitIndex = r.commitIndex)
    (happlied : r'.lastApplied = r.lastApplied) :
    r'.Ordered ∧ r.Advances r' := by
  have hlast := hlog.lastLogIndex
  refine ⟨?_, ?_⟩
  · have hfrom : r'.lastSnapshotIncludeIndex ≤ r'.lastApplied := by
      rw [hlog.index, happlied]
      exact h.applied
    have hto : r'.lastApplied ≤
        max r'.commitIndex r'.lastSnapshotIncludeIndex := by
      rw [hlog.index, happlied, hcommit]
      exact h.committed
    have hend : r'.commitIndex ≤ r'.getLastLogIndex := by
      rw [hcommit, hlast]
      exact h.last
    rcases hdisk with hstored | hstate
    · have hold := h.data
      refine of_stored hstored ⟨?_, ?_, ?_⟩ hfrom hto hend
      · change Consecutive r'.lastSnapshotIncludeIndex r'.logs
        rw [hlog.index, hlog.logs]
        exact hold.consecutive
      · intro entry hentry
        change entry ∈ r'.logs at hentry
        rw [hlog.logs] at hentry
        exact (hold.logs_le entry hentry).trans hle
      · change r'.lastSnapshotIncludeTerm ≤ _
        rw [hlog.term]
        exact hold.boundary_le.trans hle
    · have hsame : r'.persister.stored = r.persister.stored := by
        rw [Persister.stored, hstate, ← Persister.stored]
      refine ⟨?_, ?_, ?_, ?_, ?_, hfrom, hto, hend⟩
      · rw [hsame]
        exact h.disk
      · rw [hsame, hlog.logs]
        exact h.logs
      · rw [hsame, hlog.index]
        exact h.index
      · rw [hsame, hlog.term]
        exact h.boundary
      · rw [hsame]
        exact h.term.trans hle
  · refine ⟨hlog.index.ge, happlied.ge, hcommit.ge, hlast.ge, ?_⟩
    rw [hlog.index, hcommit]
    exact id

theorem of_quiet (h : r.Ordered) (hquiet : r.Quiet r')
    (hkeeps : r.KeepsSnapshot r') : r'.Ordered ∧ r.Advances r' :=
  h.quiet hquiet.log hquiet.disk hquiet.follows.le hquiet.commit
    hkeeps.lastApplied

/-- A leader appends an entry and stores it. -/
theorem extend (h : r.Ordered) (command : Op) (hstored : r'.Stored)
    (hlogs : r'.logs = (r.appendEntry command).logs)
    (hindex : r'.lastSnapshotIncludeIndex = r.lastSnapshotIncludeIndex)
    (hboundary : r'.lastSnapshotIncludeTerm = r.lastSnapshotIncludeTerm)
    (hterm : r'.currentTerm = r.currentTerm)
    (hcommit : r'.commitIndex = r.commitIndex)
    (happlied : r'.lastApplied = r.lastApplied) :
    r'.Ordered ∧ r.Advances r' := by
  have hdata := h.data
  have hlast := h.lastLogIndex
  have hnew : Consecutive r'.lastSnapshotIncludeIndex r'.logs := by
    rw [hindex, hlogs]
    refine h.consecutive.append (.singleton ?_)
    change r.getLastLogIndex + 1 = _
    rw [hlast]
  have hlast' : r'.getLastLogIndex = r.getLastLogIndex + 1 := by
    rw [getLastLogIndex_eq hnew, hindex, hlogs, hlast]
    simp only [appendEntry, List.length_append, List.length_singleton]
    omega
  refine ⟨of_stored hstored ⟨hnew, ?_, ?_⟩ ?_ ?_ ?_, ⟨hindex.ge, happlied.ge,
    hcommit.ge, by omega, ?_⟩⟩
  · intro entry hentry
    change entry ∈ r'.logs at hentry
    change entry.logTerm ≤ r'.currentTerm
    rw [hlogs] at hentry
    rw [hterm]
    rcases List.mem_append.mp hentry with hold | hnew
    · exact hdata.logs_le entry hold
    · rw [List.mem_singleton.mp hnew]
  · change r'.lastSnapshotIncludeTerm ≤ r'.currentTerm
    rw [hboundary, hterm]
    exact hdata.boundary_le
  · rw [hindex, happlied]
    exact h.applied
  · rw [hindex, happlied, hcommit]
    exact h.committed
  · have := h.last
    omega
  · rw [hindex, hcommit]
    exact id

end Ordered

/-! ## Merging -/

/-- One iteration of the merge loop keeps the entries consecutive, as long as
there is no gap before the new one. -/
theorem mergeEntry_consecutive {r r' : Raft n Image} {log : LogEntry}
    (h : r.mergeEntry log = .ok r')
    (hr : Consecutive r.lastSnapshotIncludeIndex r.logs)
    (hlog : log.logIndex ≤ r.getLastLogIndex + 1) :
    Consecutive r'.lastSnapshotIncludeIndex r'.logs ∧
      r'.getLastLogIndex = max r.getLastLogIndex log.logIndex ∧
      ∀ entry ∈ r'.logs, entry ∈ r.logs ∨ entry = log := by
  have hlast := getLastLogIndex_eq hr
  unfold mergeEntry at h
  split at h
  · next hlt =>
      obtain rfl := Except.ok.inj h
      have hnew : Consecutive r.lastSnapshotIncludeIndex (r.logs ++ [log]) :=
        hr.append (.singleton (by omega))
      refine ⟨hnew, ?_, fun entry hentry => ?_⟩
      · have hlast' := getLastLogIndex_eq
          (r := { r with logs := r.logs ++ [log] }) hnew
        rw [hlast']
        simp only [List.length_append, List.length_singleton]
        omega
      · rcases List.mem_append.mp hentry with hold | hnew
        · exact .inl hold
        · exact .inr (List.mem_singleton.mp hnew)
  · next hle =>
      simp only [exec_bind_eq_ok] at h
      obtain ⟨slice, hslice, here, -, -, -, h⟩ := h
      obtain ⟨hlt, -, rfl⟩ := getSlicesIndexFromLogIndex_eq_ok hslice
      split at h
      · obtain rfl := exec_pure_eq_ok.mp h
        have hnew : Consecutive r.lastSnapshotIncludeIndex (r.logs.set
            (log.logIndex - r.lastSnapshotIncludeIndex - 1) log) :=
          hr.set (by omega)
        refine ⟨hnew, ?_, fun entry hentry => List.mem_or_eq_of_mem_set hentry⟩
        have hlast' := getLastLogIndex_eq (r := { r with
          logs := r.logs.set (log.logIndex - r.lastSnapshotIncludeIndex - 1)
            log }) hnew
        rw [hlast']
        simp only [List.length_set]
        omega
      · obtain rfl := exec_pure_eq_ok.mp h
        exact ⟨hr, by omega, fun entry hentry => .inl hentry⟩

theorem mergeEntries_consecutive {r r' : Raft n Image}
    {entries : List LogEntry} {prev : ℕ}
    (h : entries.foldlM mergeEntry r = .ok r')
    (hr : Consecutive r.lastSnapshotIncludeIndex r.logs)
    (hprev : prev ≤ r.getLastLogIndex) (hentries : Consecutive prev entries) :
    Consecutive r'.lastSnapshotIncludeIndex r'.logs ∧
      r.getLastLogIndex ≤ r'.getLastLogIndex ∧
      ∀ entry ∈ r'.logs, entry ∈ r.logs ∨ entry ∈ entries := by
  induction entries generalizing r prev with
  | nil =>
      obtain rfl := exec_pure_eq_ok.mp h
      exact ⟨hr, le_rfl, fun entry hentry => .inl hentry⟩
  | cons log entries ih =>
      rw [List.foldlM_cons, exec_bind_eq_ok] at h
      obtain ⟨r₁, hfirst, hrest⟩ := h
      have hhead := hentries.head
      obtain ⟨hr₁, hlast₁, hmem₁⟩ :=
        mergeEntry_consecutive hfirst hr (by omega)
      obtain ⟨hr', hlast', hmem'⟩ :=
        ih hrest hr₁ (by omega) hentries.tail
      refine ⟨hr', by omega, fun entry hentry => ?_⟩
      rcases hmem' entry hentry with hold | hnew
      · rcases hmem₁ entry hold with hold | rfl
        · exact .inl hold
        · exact .inr (List.mem_cons_self ..)
      · exact .inr (List.mem_cons_of_mem _ hnew)

end Raft

/-- The request carries consecutive entries of terms up to its own. -/
structure AppendEntriesArgs.Ordered (args : AppendEntriesArgs n) : Prop where
  consecutive : Consecutive args.prevLogIndex args.entries
  entries_le : ∀ entry ∈ args.entries, entry.logTerm ≤ args.term

/-- The snapshot ends in a term up to that of its request. -/
def InstallSnapshotRequest.Ordered (args : InstallSnapshotRequest n Image) :
    Prop :=
  args.lastSnapShotIncludeTerm ≤ args.term

namespace Raft

namespace Ordered

variable {r r' : Raft n Image}

/-- Accepting a request adds entries of the request only. -/
theorem accepts_entries (h : r.Ordered) {args : AppendEntriesArgs n}
    {reply : AppendEntriesReply} (hargs : args.Ordered)
    (haccepts : r.Accepts args r' reply) :
    Consecutive r'.lastSnapshotIncludeIndex r'.logs ∧
      r.getLastLogIndex ≤ r'.getLastLogIndex ∧
      ∀ entry ∈ r'.logs, entry ∈ r.logs ∨ entry ∈ args.entries := by
  obtain ⟨r₁, r₂, hsame₁, hloop, hsame₂, -⟩ := haccepts.merges.loop
  have hr₁ : Consecutive r₁.lastSnapshotIncludeIndex r₁.logs := by
    rw [hsame₁.index, hsame₁.logs]
    exact h.consecutive
  obtain ⟨hr₂, hgrow, hmem⟩ := mergeEntries_consecutive hloop hr₁
    (hsame₁.lastLogIndex.symm ▸ haccepts.merges.prev_le) hargs.consecutive
  rw [hsame₁.lastLogIndex] at hgrow
  rw [hsame₁.logs] at hmem
  rw [hsame₂.index, hsame₂.lastLogIndex, hsame₂.logs]
  exact ⟨hr₂, hgrow, hmem⟩

theorem accepts_boundary {args : AppendEntriesArgs n}
    {reply : AppendEntriesReply} (haccepts : r.Accepts args r' reply) :
    r'.lastSnapshotIncludeTerm = r.lastSnapshotIncludeTerm := by
  obtain ⟨r₁, r₂, hsame₁, hloop, hsame₂, -⟩ := haccepts.merges.loop
  rw [hsame₂.term, (mergeEntries_foldlM_onlyLogs hloop).eq, hsame₁.term]

theorem accepts (h : r.Ordered) {args : AppendEntriesArgs n}
    {reply : AppendEntriesReply} (hargs : args.Ordered)
    (haccepts : r.Accepts args r' reply) (hkeeps : r.KeepsSnapshot r') :
    r'.Ordered ∧ r.Advances r' := by
  obtain ⟨hnew, hlast, hmem⟩ := h.accepts_entries hargs haccepts
  have hcommit := haccepts.merges.commit
  have hindex := haccepts.merges.index
  have hle := h.last
  have hraise : r.commitIndex ≤ r'.commitIndex ∧
      r'.commitIndex ≤ r'.getLastLogIndex := by
    rw [hcommit]
    split <;> omega
  refine ⟨of_stored haccepts.stored ⟨hnew, ?_, ?_⟩ ?_ ?_ hraise.2,
    ⟨hindex.ge, hkeeps.lastApplied.ge, hraise.1, hlast, ?_⟩⟩
  · intro entry hentry
    change entry.logTerm ≤ r'.currentTerm
    rw [haccepts.term]
    rcases hmem entry hentry with hold | hnew
    · exact (h.data.logs_le entry hold).trans haccepts.le
    · exact hargs.entries_le entry hnew
  · change r'.lastSnapshotIncludeTerm ≤ r'.currentTerm
    rw [accepts_boundary haccepts]
    exact h.data.boundary_le.trans haccepts.follows.le
  · rw [hindex, hkeeps.lastApplied]
    exact h.applied
  · have := h.committed
    rw [hindex, hkeeps.lastApplied]
    omega
  · rw [hindex]
    exact fun hcovers => hcovers.trans hraise.1

theorem installs (h : r.Ordered) {args : InstallSnapshotRequest n Image}
    (hargs : args.Ordered) (hinstalls : r.Installs args r')
    (happlied : r'.lastApplied =
      max r.lastApplied args.lastSnapShotIncludeIndex) :
    r'.Ordered ∧ r.Advances r' := by
  have hlt := hinstalls.lt
  have hlen := h.lastLogIndex
  have hindex := hinstalls.index
  have hcommit := hinstalls.commit
  have hnew : Consecutive r'.lastSnapshotIncludeIndex r'.logs := by
    rw [hinstalls.logs, hindex]
    split
    · have hdrop := h.consecutive.drop
        (args.lastSnapShotIncludeIndex - r.lastSnapshotIncludeIndex)
      rwa [Nat.add_sub_cancel' hlt.le] at hdrop
    · exact .nil _
  have hlast : r'.getLastLogIndex =
      max r.getLastLogIndex args.lastSnapShotIncludeIndex := by
    rw [getLastLogIndex_eq hnew, hinstalls.logs, hindex]
    split
    · rw [List.length_drop]
      omega
    · simp only [List.length_nil]
      omega
  have hle := h.last
  have hcommitted := h.committed
  refine ⟨of_stored hinstalls.stored ⟨hnew, ?_, ?_⟩ ?_ ?_ ?_,
    ⟨by omega, by omega, by omega, by omega, by omega⟩⟩
  · intro entry hentry
    change entry ∈ r'.logs at hentry
    refine (h.data.logs_le entry ?_).trans hinstalls.follows.le
    rw [hinstalls.logs] at hentry
    split at hentry
    · exact List.mem_of_mem_drop hentry
    · simp at hentry
  · change r'.lastSnapshotIncludeTerm ≤ r'.currentTerm
    rw [hinstalls.boundary, hinstalls.term]
    exact hargs
  · omega
  · omega
  · omega

theorem of_mapM {is : List ℕ} {entries : List LogEntry}
    (hmap : is.mapM r.entryAt = .ok entries) :
    List.Forall₂ (fun i entry => r.entryAt i = .ok entry) is entries := by
  induction is generalizing entries with
  | nil =>
      obtain rfl : [] = entries := by simpa using hmap
      exact .nil
  | cons i is ih =>
      rw [List.mapM_cons, exec_bind_eq_ok] at hmap
      obtain ⟨entry, hentry, hmap⟩ := hmap
      rw [exec_bind_eq_ok] at hmap
      obtain ⟨rest, hrest, hmap⟩ := hmap
      obtain rfl := exec_pure_eq_ok.mp hmap
      exact .cons hentry (ih hrest)

/-- The entries left behind a compacted prefix. -/
theorem compacts_entries (h : r.Ordered) {index : ℕ}
    (hc : r.Compacts index r') :
    r'.logs.length = r.getLastLogIndex - index ∧
      ∀ k entry, r'.logs[k]? = some entry →
        entry.logIndex = index + k + 1 ∧ entry ∈ r.logs := by
  have hall := of_mapM hc.logs
  refine ⟨by rw [← hall.length_eq, List.length_range'], ?_⟩
  intro k entry hk
  obtain ⟨hlt, rfl⟩ := List.getElem?_eq_some_iff.mp hk
  have hget := hall.get (i := k) (by rw [hall.length_eq]; exact hlt) hlt
  simp only [List.get_eq_getElem, List.getElem_range', one_mul] at hget
  obtain ⟨hidx, hmem⟩ := entryAt?_logIndex h.consecutive
    (entryAt_eq_ok hget).2.2
  exact ⟨by omega, hmem⟩

/-- What is left behind a compacted prefix is stored in order. -/
theorem compacts_data (h : r.Ordered) {index : ℕ}
    (hc : r.Compacts index r') : r'.persistData.Ordered ∧
      r'.getLastLogIndex = max r.getLastLogIndex index := by
  obtain ⟨hlen, hentries⟩ := h.compacts_entries hc
  have hnew : Consecutive r'.lastSnapshotIncludeIndex r'.logs := by
    intro k entry hk
    rw [hc.boundary]
    exact (hentries k entry hk).1
  obtain ⟨entry, hentry, hterm⟩ := hc.entry
  refine ⟨⟨hnew, ?_, ?_⟩, ?_⟩
  · intro entry hmem
    change entry.logTerm ≤ r'.currentTerm
    obtain ⟨k, hk⟩ := List.mem_iff_getElem?.mp hmem
    rw [hc.currentTerm]
    exact h.data.logs_le entry (hentries k entry hk).2
  · change r'.lastSnapshotIncludeTerm ≤ r'.currentTerm
    rw [hterm, hc.currentTerm]
    exact h.data.logs_le entry
      (entryAt?_logIndex h.consecutive (entryAt_eq_ok hentry).2.2).2
  · have hle := (entryAt_eq_ok hentry).2.1
    rw [getLastLogIndex_eq hnew, hc.boundary, hlen]
    omega

theorem compacts (h : r.Ordered) {index : ℕ} (hc : r.Compacts index r')
    (happlied : r'.lastApplied = max r.lastApplied index) :
    r'.Ordered ∧ r.Advances r' := by
  obtain ⟨hdata, hlast⟩ := h.compacts_data hc
  have hlt := hc.lt
  have hle := hc.le
  have hboundary := hc.boundary
  have hcommit := hc.commit
  have hend := h.last
  have hcommitted := h.committed
  exact ⟨of_stored hc.stored hdata (by omega) (by omega) (by omega),
    ⟨by omega, by omega, by omega, by omega, by omega⟩⟩

theorem tallies (h : r.Ordered) {args : AppendEntriesArgs n}
    {reply : AppendEntriesReply} {k k' : ℕ}
    (htallies : r.Tallies args reply k r' k')
    (hkeeps : r.KeepsSnapshot r')
    (hlast : r'.commitIndex ≤ r'.getLastLogIndex) :
    r'.Ordered ∧ r.Advances r' := by
  have hsame := htallies.sameLog
  have hterm : r'.currentTerm = r.currentTerm :=
    congrArg RaftState.currentTerm htallies.data
  have hcommit : r.commitIndex ≤ r'.commitIndex := by
    rcases htallies.commit with heq | ⟨-, heq⟩
    · exact heq.ge
    · rw [heq]
      exact Nat.le_max_left _ _
  have hcommitted := h.committed
  refine ⟨⟨?_, ?_, ?_, ?_, ?_, ?_, ?_, hlast⟩, ⟨hsame.index.ge,
    hkeeps.lastApplied.ge, hcommit, hsame.lastLogIndex.ge, ?_⟩⟩
  · rw [htallies.disk]
    exact h.disk
  · rw [htallies.disk, hsame.logs]
    exact h.logs
  · rw [htallies.disk, hsame.index]
    exact h.index
  · rw [htallies.disk, hsame.term]
    exact h.boundary
  · rw [htallies.disk, hterm]
    exact h.term
  · rw [hsame.index, hkeeps.lastApplied]
    exact h.applied
  · rw [hsame.index, hkeeps.lastApplied]
    omega
  · rw [hsame.index]
    exact fun hcovers => hcovers.trans hcommit

/-- Handing out goes as far as the commit index. -/
theorem handsOut (h : r.Ordered) {msgs : List (ℕ × Op)}
    (hout : r.getApplyLogs = .ok (r', msgs)) :
    r'.Ordered ∧ r.Advances r' := by
  have heq : r' = { r with
      lastApplied := r.lastApplied + (r.commitIndex - r.lastApplied) } := by
    simp only [getApplyLogs, exec_bind_eq_ok] at hout
    obtain ⟨-, -, hout⟩ := hout
    exact (applyLogs_eq_ok hout).1
  have happlied := h.applied
  have hcommitted := h.committed
  rw [heq]
  refine ⟨⟨h.disk, h.logs, h.index, h.boundary, h.term, ?_, ?_, h.last⟩,
    ⟨le_rfl, Nat.le_add_right _ _, le_rfl, le_rfl, id⟩⟩
  · simp only
    omega
  · simp only
    omega

end Ordered

/-! ## Handlers -/

/-- The assertion behind the raised commit index. -/
theorem sendAppendEntries_commit_le {r r' : Raft n Image} {server : Fin n}
    {args : AppendEntriesArgs n} {reply : AppendEntriesReply} {k k' : ℕ}
    (h : r.sendAppendEntries server args reply k = .ok (r', k'))
    (hle : r.commitIndex ≤ r.getLastLogIndex) :
    r'.commitIndex ≤ r'.getLastLogIndex := by
  unfold sendAppendEntries at h
  split at h
  · obtain ⟨rfl, -⟩ : r = r' ∧ _ := by simpa using h
    exact hle
  · split at h
    · obtain ⟨rfl, -⟩ : _ = r' ∧ _ := by simpa using h
      exact hle
    · split at h
      · obtain ⟨rfl, -⟩ : r = r' ∧ _ := by simpa using h
        exact hle
      · split at h
        · obtain ⟨rfl, -⟩ : r = r' ∧ _ := by simpa using h
          exact hle
        · rw [exec_bind_eq_ok] at h
          obtain ⟨-, -, h⟩ := h
          split at h
          · split at h
            · obtain ⟨rfl, -⟩ : _ = r' ∧ _ := by simpa using h
              exact hle
            · obtain ⟨rfl, -⟩ : r = r' ∧ _ := by simpa using h
              exact hle
          · simp only [exec_bind_eq_ok] at h
            obtain ⟨-, -, h⟩ := h
            split at h
            · simp only [exec_bind_eq_ok, myAssert_eq_ok] at h
              obtain ⟨-, hassert, h⟩ := h
              obtain ⟨rfl, -⟩ := Prod.mk.inj (exec_pure_eq_ok.mp h)
              exact hassert
            · obtain ⟨rfl, -⟩ : _ = r' ∧ _ := by simpa using h
              exact hle

namespace Ordered

variable {r r' : Raft n Image}

theorem doElection {args : RequestVoteArgs n} (h : r.Ordered)
    (hstep : r.doElection = (r', some args)) : r'.Ordered ∧ r.Advances r' := by
  obtain ⟨hstored, -, hterm, -, -, hlog, hcommit, -⟩ :=
    doElection_eq_some hstep
  have hkeeps := r.keepsSnapshot_doElection
  rw [hstep] at hkeeps
  exact h.quiet hlog (.inl hstored) (by omega) hcommit hkeeps.lastApplied

theorem requestVote {args : RequestVoteArgs n} {reply : RequestVoteReply}
    (h : r.Ordered) (hstep : r.requestVote args = .ok (r', reply)) :
    r'.Ordered ∧ r.Advances r' := by
  have hkeeps := keepsSnapshot_requestVote hstep
  rcases requestVote_eq_ok hstep with ⟨-, hquiet, -⟩ | hgrants
  · exact h.of_quiet hquiet hkeeps
  · exact h.quiet hgrants.log (.inl hgrants.stored)
      (hgrants.term ▸ hgrants.le) hgrants.commit hkeeps.lastApplied

theorem sendRequestVote {reply : RequestVoteReply} {k k' : ℕ}
    (h : r.Ordered) (hstep : r.sendRequestVote k reply = .ok (r', k')) :
    r'.Ordered ∧ r.Advances r' := by
  have hkeeps := keepsSnapshot_sendRequestVote hstep
  rcases sendRequestVote_eq_ok hstep with
    ⟨hquiet, -, -⟩ | ⟨-, rfl, -⟩ | ⟨hwins, -⟩
  · exact h.of_quiet hquiet hkeeps
  · exact ⟨h, .refl r'⟩
  · refine h.extend (noop r.currentTerm) ?_ ?_ ?_ ?_ ?_ ?_ hkeeps.lastApplied
    all_goals rw [hwins.eq]; rfl

theorem start (h : r.Ordered) (command : Op) :
    (r.start command).1.Ordered ∧ r.Advances (r.start command).1 := by
  rcases r.start_effect command with heq | ⟨-, heq⟩
  · rw [heq]
    exact ⟨h, .refl r⟩
  · rw [heq]
    exact h.extend command (stored_persist _) rfl rfl rfl rfl rfl rfl

theorem appendEntries1 {args : AppendEntriesArgs n}
    {reply : AppendEntriesReply} (h : r.Ordered) (hargs : args.Ordered)
    (hstep : r.appendEntries1 args = .ok (r', reply)) :
    r'.Ordered ∧ r.Advances r' := by
  have hkeeps := keepsSnapshot_appendEntries1 hstep
  rcases appendEntries1_eq_ok hstep with ⟨-, hquiet, -⟩ | haccepts
  · exact h.of_quiet hquiet hkeeps
  · exact h.accepts hargs haccepts hkeeps

theorem sendAppendEntries {server : Fin n} {args : AppendEntriesArgs n}
    {reply : AppendEntriesReply} {k k' : ℕ} (h : r.Ordered)
    (hstep : r.sendAppendEntries server args reply k = .ok (r', k')) :
    r'.Ordered ∧ r.Advances r' := by
  have hkeeps := keepsSnapshot_sendAppendEntries hstep
  rcases sendAppendEntries_eq_ok hstep with ⟨hquiet, -, -⟩ | htallies
  · exact h.of_quiet hquiet hkeeps
  · exact h.tallies htallies hkeeps (sendAppendEntries_commit_le hstep h.last)

theorem installSnapshot {args : InstallSnapshotRequest n Image}
    {reply : InstallSnapshotResponse} {msg : Option (ApplyMsg Image)}
    (h : r.Ordered) (hargs : args.Ordered)
    (hstep : r.installSnapshot args = .ok (r', reply, msg)) :
    r'.Ordered ∧ r.Advances r' := by
  rcases installSnapshot_eq_ok hstep with ⟨hquiet, -⟩ | hinstalls
  · rcases installSnapshot_takes hstep with ⟨hkeeps, -⟩ | ⟨-, htakes, -⟩
    · exact h.of_quiet hquiet hkeeps
    · have hlt := htakes.lt
      have hindex := htakes.boundary
      have hsame := hquiet.log.index
      omega
  · rcases installSnapshot_takes hstep with ⟨hkeeps, -⟩ | ⟨-, htakes, -⟩
    · have hlt := hinstalls.lt
      have hindex := hinstalls.index
      have hsame := hkeeps.boundary
      omega
    · exact h.installs hargs hinstalls htakes.lastApplied

theorem snapShotSent (h : r.Ordered) (server : Fin n)
    (args : InstallSnapshotRequest n Image) (reply : InstallSnapshotResponse) :
    (r.snapShotSent server args reply).Ordered ∧
      r.Advances (r.snapShotSent server args reply) :=
  h.of_quiet (r.snapShotSent_effect server args reply).1
    (r.keepsSnapshot_snapShotSent server args reply)

theorem snapshot {index : ℕ} {image : Option Image} (h : r.Ordered)
    (hstep : r.snapshot index image = .ok r') :
    r'.Ordered ∧ r.Advances r' := by
  rcases snapshot_eq_ok hstep with rfl | hcompacts
  · exact ⟨h, .refl r'⟩
  · rcases snapshot_takes hstep with rfl | htakes
    · have hlt := hcompacts.lt
      have hindex := hcompacts.boundary
      omega
    · exact h.compacts hcompacts htakes.lastApplied

theorem installTerm (h : r.Ordered) (term : ℕ) :
    (r.installTerm term).Ordered :=
  (h.of_quiet (r.installTerm_effect term).1
    (r.keepsSnapshot_installTerm term)).1

/-! ## Requests -/

theorem heartBeatTo (h : r.Ordered) {server : Fin n}
    {args : AppendEntriesArgs n}
    (hstep : r.heartBeatTo server = .ok (some args)) : args.Ordered := by
  have hargs := Holds.heartBeatTo_eq_some hstep
  simp only [heartBeatArgs, exec_bind_eq_ok] at hargs
  obtain ⟨⟨prev, term⟩, -, entries, hentries, -, -, hargs⟩ := hargs
  obtain rfl := exec_pure_eq_ok.mp hargs
  simp only at hentries
  unfold entriesAfter at hentries
  split at hentries
  · rw [exec_bind_eq_ok] at hentries
    obtain ⟨slice, hslice, hentries⟩ := hentries
    obtain ⟨hlt, -, rfl⟩ := getSlicesIndexFromLogIndex_eq_ok hslice
    obtain rfl := exec_pure_eq_ok.mp hentries
    refine ⟨?_, fun entry hmem =>
      h.data.logs_le entry (List.mem_of_mem_drop hmem)⟩
    have hdrop := h.consecutive.drop
      (prev - r.lastSnapshotIncludeIndex - 1 + 1)
    rwa [show r.lastSnapshotIncludeIndex +
      (prev - r.lastSnapshotIncludeIndex - 1 + 1) = prev by omega] at hdrop
  · next heq =>
      obtain rfl := exec_pure_eq_ok.mp hentries
      obtain rfl := not_not.mp heq
      exact ⟨h.consecutive, h.data.logs_le⟩

theorem readIndexArgs {savedTerm : ℕ} {server : Fin n}
    {args : AppendEntriesArgs n}
    (hstep : r.readIndexArgs savedTerm server = .ok (some args)) :
    args.Ordered := by
  unfold Raft.readIndexArgs at hstep
  split at hstep
  · simp at hstep
  · split at hstep
    · simp at hstep
    · rw [exec_bind_eq_ok] at hstep
      obtain ⟨prev, -, hstep⟩ := hstep
      obtain rfl : _ = args := by simpa using hstep
      exact ⟨.nil _, by simp⟩

theorem leaderSendSnapShot (h : r.Ordered) :
    r.leaderSendSnapShot.Ordered :=
  h.data.boundary_le

end Ordered

end Raft

/-! ## Clusters in order -/

def PeerThread.Ordered : PeerThread n Image → Prop
  | .append args _ => args.Ordered
  | .snapshot args _ => args.Ordered
  | .idle | .waiting => True

def ReadThread.Ordered : ReadThread n → Prop
  | .append args _ => args.Ordered
  | .waiting | .done => True

namespace Cluster

/-- Every node is in order, and so is every request. -/
structure Ordered (c : Cluster n Image) : Prop where
  nodes : ∀ v, (c.nodes v).Ordered
  rounds : ∀ round ∈ c.rounds, ∀ i, (round.threads i).Ordered
  reads : ∀ read ∈ c.reads, ∀ i, (read.threads i).Ordered

namespace Ordered

variable {c c' : Cluster n Image} {a : Action n Image}

theorem start : (Cluster.start n Image).Ordered where
  nodes := fun v => .init (p := ⟨none, none⟩)
    ⟨.nil _, by simp [Persister.stored], Nat.le_refl 0⟩ v
  rounds := by simp [Cluster.start]
  reads := by simp [Cluster.start]

theorem appendRequest (h : c.Ordered) {i : Fin n} {args : AppendEntriesArgs n}
    (hm : (i, args) ∈ c.appendRequest? a) : args.Ordered := by
  cases a with
  | appendEntries k j =>
      obtain ⟨round, hr, hm⟩ := Option.bind_eq_some_iff.mp hm
      split at hm
      · next args' hthread =>
          obtain ⟨rfl, rfl⟩ : j = i ∧ args' = args := by simpa using hm
          have hround := h.rounds round (List.mem_of_getElem? hr) j
          rwa [hthread] at hround
      · simp at hm
  | readAppendEntries q j =>
      obtain ⟨read, hq, hm⟩ := Option.bind_eq_some_iff.mp hm
      split at hm
      · next args' hthread =>
          obtain ⟨rfl, rfl⟩ : j = i ∧ args' = args := by simpa using hm
          have hread := h.reads read (List.mem_of_getElem? hq) j
          rwa [hthread] at hread
      · simp at hm
  | _ => simp [appendRequest?] at hm

theorem installRequest (h : c.Ordered) {i : Fin n}
    {args : InstallSnapshotRequest n Image}
    (hm : (i, args) ∈ c.installRequest? a) : args.Ordered := by
  cases a with
  | installSnapshot k j =>
      obtain ⟨round, hr, hm⟩ := Option.bind_eq_some_iff.mp hm
      split at hm
      · next args' hthread =>
          obtain ⟨rfl, rfl⟩ : j = i ∧ args' = args := by simpa using hm
          have hround := h.rounds round (List.mem_of_getElem? hr) j
          rwa [hthread] at hround
      · simp at hm
  | _ => simp [installRequest?] at hm

theorem handles (h : c.Ordered) {s : Fin n} {r : Raft n Image}
    (hhandles : c.Handles a s r) : r.Ordered ∧ (c.nodes s).Advances r := by
  have hnode := h.nodes s
  cases hhandles with
  | doElection hdo => exact hnode.doElection hdo
  | requestVote hvote => exact hnode.requestVote hvote
  | sendRequestVote hsend => exact hnode.sendRequestVote hsend
  | start command => exact hnode.start command
  | appendEntries1 hm happend =>
      exact hnode.appendEntries1 (h.appendRequest hm) happend
  | sendAppendEntries _ _ _ _ hsend => exact hnode.sendAppendEntries hsend
  | installSnapshot hm hinstall =>
      exact hnode.installSnapshot (h.installRequest hm) hinstall
  | snapShotSent => exact hnode.snapShotSent ..
  | snapshot hsnap => exact hnode.snapshot hsnap
  | applierTicker hout => exact hnode.handsOut hout

/-- A process that ends leaves ordered files. -/
theorem ends (h : c.Ordered) {s : Fin n} {p : Persister n Image}
    (hends : c.Exits a s p ∨ c.Dies a s p) : p.stored.Ordered := by
  have hnode := h.nodes s
  rcases hends with hexits | hdies
  · cases hexits with
    | requestVote herror => exact absurd herror Raft.requestVote_ne_error
    | sendRequestVote _ _ herror =>
        exact Raft.sendRequestVote_eq_error herror ▸ hnode.disk
    | doHeartBeat => exact hnode.disk
    | appendEntries1 _ herror =>
        exact Raft.appendEntries1_eq_error herror ▸ hnode.disk
    | sendAppendEntries _ _ _ herror =>
        exact Raft.sendAppendEntries_eq_error herror ▸ hnode.disk
    | installSnapshot _ herror =>
        exact Raft.installSnapshot_eq_error herror ▸
          (hnode.installTerm _).disk
    | snapshot herror =>
        rcases Raft.snapshot_eq_error herror with rfl | ⟨r', hcompacts, rfl⟩
        · exact hnode.disk
        · rw [hcompacts.stored]
          exact (hnode.compacts_data hcompacts).1
    | applierTicker herror =>
        exact Raft.getApplyLogs_eq_error herror ▸ hnode.disk
    | readIndex _ _ herror =>
        exact Raft.readIndexArgs_eq_error herror ▸ hnode.disk
  · cases hdies with
    | restart => exact hnode.disk
    | installSnapshot => exact (hnode.installTerm _).disk

theorem begun (h : c.Ordered) (s i : Fin n) :
    (heartBeatThread (c.nodes s) s i).Ordered := by
  cases hthread : heartBeatThread (c.nodes s) s i with
  | append args call =>
      exact (h.nodes s).heartBeatTo
        (LogsTracked.heartBeatThread_eq_append hthread).2.2
  | snapshot args call =>
      exact (LogsTracked.heartBeatThread_ne_snapshot hthread).elim
  | idle | waiting => trivial

theorem step (h : c.Ordered) (hcases : c.StepCases a c') : c'.Ordered := by
  refine ⟨fun v => ?_, ?_, ?_⟩
  · cases hcases.nodes with
    | same hnodes _ => exact hnodes ▸ h.nodes v
    | @handled s r hhandles hnodes _ =>
        rw [hnodes]
        by_cases hv : v = s
        · subst hv
          rw [Function.update_self]
          exact (h.handles hhandles).1
        · rw [Function.update_of_ne hv]
          exact h.nodes v
    | @ended s p hends hnodes _ =>
        rw [hnodes]
        by_cases hv : v = s
        · subst hv
          rw [Function.update_self]
          exact .init (h.ends hends) v
        · rw [Function.update_of_ne hv]
          exact h.nodes v
  · have hrounds := hcases.rounds
    generalize c'.rounds = rounds at hrounds ⊢
    cases hrounds with
    | same => exact h.rounds
    | begun s _ => exact forall_mem_concat h.rounds (h.begun s)
    | @advanced k i thread round nums hr hthread =>
        have hround := h.rounds round (List.mem_of_getElem? hr)
        refine forall_mem_set h.rounds fun j => ?_
        by_cases hj : j = i
        · subst hj
          have hold := hround j
          simp only [Round.setThread, Function.update_self]
          cases hthread with
          | answered hthread _ => rwa [hthread] at hold
          | finished hthread => rwa [hthread] at hold
          | offered => exact (h.nodes round.leader).leaderSendSnapShot
          | snapshot _ hthread => rwa [hthread] at hold
        · simpa [Round.setThread, hj] using hround j
  · have hreads := hcases.reads
    generalize c'.reads = reads at hreads ⊢
    cases hreads with
    | same => exact h.reads
    | begun s =>
        refine forall_mem_concat h.reads fun i => ?_
        simp only [ReadCall.begun]
        split <;> trivial
    | @advanced q i thread read count hq hthread =>
        have hread := h.reads read (List.mem_of_getElem? hq)
        refine forall_mem_set h.reads fun j => ?_
        by_cases hj : j = i
        · subst hj
          have hold := hread j
          simp only [ReadCall.setThread, Function.update_self]
          cases hthread with
          | sent _ hargs => exact Raft.Ordered.readIndexArgs hargs
          | answered hthread => rwa [hthread] at hold
          | finished => trivial
        · simpa [ReadCall.setThread, hj] using hread j
    | @returned q read hq =>
        exact forall_mem_set h.reads (h.reads read (List.mem_of_getElem? hq))

theorem advances (h : c.Ordered) (hcases : c.StepCases a c') :
    WhileRunning Raft.Advances c c' :=
  hcases.nodes.whileRunning Raft.Advances.refl
    fun _ _ hhandles => (h.handles hhandles).2

end Ordered

end Cluster

/-! ## Runs -/

namespace Raft

/-- The terms from the boundary on do not go down. -/
def TermsSorted (r : Raft n Image) : Prop :=
  ∀ i j t t', i ≤ j → r.termAt? i = some t → r.termAt? j = some t' → t ≤ t'

/-- The order of the indices that every index computation relies on. -/
structure IndexOrder (r : Raft n Image) : Prop where
  consecutive : Consecutive r.lastSnapshotIncludeIndex r.logs
  sorted : r.TermsSorted
  term_le : ∀ i t, r.termAt? i = some t → t ≤ r.currentTerm
  boundary_le : r.lastSnapshotIncludeIndex ≤ r.lastApplied
  applied_le : r.lastApplied ≤ r.commitIndex
  commit_le : r.commitIndex ≤ r.getLastLogIndex

/-- The same order for a node whose commit index may still be on its way to
the boundary. -/
structure RestartOrder (r : Raft n Image) : Prop where
  consecutive : Consecutive r.lastSnapshotIncludeIndex r.logs
  term_le : ∀ i t, r.termAt? i = some t → t ≤ r.currentTerm
  boundary_le : r.lastSnapshotIncludeIndex ≤ r.lastApplied
  applied_le : r.lastApplied ≤ max r.commitIndex r.lastSnapshotIncludeIndex
  commit_le : r.commitIndex ≤ r.getLastLogIndex

/-- Beyond the boundary, and with sorted terms, nothing is missing. -/
theorem RestartOrder.indexOrder {r : Raft n Image} (h : r.RestartOrder)
    (hsorted : r.TermsSorted)
    (hcovers : r.lastSnapshotIncludeIndex ≤ r.commitIndex) : r.IndexOrder where
  consecutive := h.consecutive
  sorted := hsorted
  term_le := h.term_le
  boundary_le := h.boundary_le
  applied_le := Nat.max_eq_left hcovers ▸ h.applied_le
  commit_le := h.commit_le

theorem Ordered.restartOrder {r : Raft n Image} (h : r.Ordered) :
    r.RestartOrder where
  consecutive := h.consecutive
  term_le := by
    intro i t hterm
    unfold termAt? at hterm
    split at hterm
    · exact Option.some.inj hterm ▸ h.data.boundary_le
    · obtain ⟨entry, hentry, rfl⟩ := Option.map_eq_some_iff.mp hterm
      exact h.data.logs_le entry (entryAt?_logIndex h.consecutive hentry).2
  boundary_le := h.applied
  applied_le := h.committed
  commit_le := h.last

/-- A grounded log is sorted by term. -/
theorem Holds.termsSorted {r : Raft n Image} {l : List LogEntry}
    {G : Ledger (Fin n) LogEntry} (h : r.Holds l) (hG : G.Matched)
    (hl : Grounded G.minted l) : r.TermsSorted := by
  intro i j t t' hij ht ht'
  obtain ⟨-, -, rfl⟩ := h.termAt?_eq_some ht
  obtain ⟨-, -, rfl⟩ := h.termAt?_eq_some ht'
  refine hG.lastTerm_le (hl.of_isPrefix (List.take_prefix j l)) ?_
  rw [← Nat.min_eq_left hij, ← List.take_take]
  exact List.take_prefix _ _

end Raft

theorem ordered_of_run {as : List (Action n Image)} {c : Cluster n Image}
    {es : List (Event n Image)}
    (hrun : (Cluster.start n Image).run as = some (c, es)) : c.Ordered :=
  run_invariant (fun _ _ _ _ _ hc hstep => hc.step (Cluster.step_cases hstep))
    (throughout_true _ as) .start hrun

theorem advances_of_run {as : List (Action n Image)} {c c' : Cluster n Image}
    {es : List (Event n Image)} (hc : c.Ordered)
    (hrun : c.run as = some (c', es)) :
    Cluster.WhileRunning Raft.Advances c c' := by
  have hboth : c'.Ordered ∧ Cluster.WhileRunning Raft.Advances c c' :=
    run_invariant (I := fun c' => c'.Ordered ∧
        Cluster.WhileRunning Raft.Advances c c')
      (fun _ _ _ _ _ hc' hstep =>
        have hcases := Cluster.step_cases hstep
        ⟨hc'.1.step hcases, hc'.2.trans (fun _ _ _ => Raft.Advances.trans)
          (hc'.1.advances hcases)⟩)
      (throughout_true _ as) ⟨hc, .refl Raft.Advances.refl c⟩ hrun
  exact hboth.2

/-- In every state of every run the indices are in order, up to a commit index
that starts below the boundary; terms are sorted as long as every conflict has
truncated the log; and while a process runs, nothing goes back and a commit
index that has reached the boundary stays there. -/
theorem index_order {as : List (Action n Image)} {c : Cluster n Image}
    {es : List (Event n Image)}
    (hrun : (Cluster.start n Image).run as = some (c, es)) :
    (∀ v, (c.nodes v).RestartOrder) ∧
      (Throughout Cluster.step Cluster.TruncatesLogs (Cluster.start n Image) as →
        ∀ v, (c.nodes v).TermsSorted) ∧
      ∀ as₁ as₂ c₁ es₁, as = as₁ ++ as₂ →
        (Cluster.start n Image).run as₁ = some (c₁, es₁) →
          Cluster.WhileRunning Raft.Advances c₁ c := by
  refine ⟨fun v => ((ordered_of_run hrun).nodes v).restartOrder, ?_, ?_⟩
  · intro htruncates v
    obtain ⟨G, hG⟩ := logs_tracked htruncates hrun
    exact (hG.nodes v).holds.termsSorted hG.matched (hG.matched.log v)
  · rintro as₁ as₂ c₁ es₁ rfl hfirst
    obtain ⟨c₂, es₂, es₃, hfirst', hrest, -⟩ := run_append_eq_some.mp hrun
    obtain ⟨rfl, -⟩ : c₁ = c₂ ∧ es₁ = es₂ := by simpa [hfirst] using hfirst'
    exact advances_of_run (ordered_of_run hfirst) hrest

/-- The leader of term 1 commits its first entry, hands it out, compacts it
away and restarts. -/
def Cluster.compactedRun : List (Action 3 Unit) :=
  [.doElection 0, .requestVote 0 1, .sendRequestVote 0 1, .doHeartBeat 0,
    .appendEntries 0 1, .sendAppendEntries 0 1, .applierTicker 0,
    .snapshot 0 1 (some ()), .restart 0]

theorem index_order_compacted :
    ∃ c es, (Cluster.start 3 Unit).run Cluster.compactedRun = some (c, es) ∧
      (c.nodes 0).lastSnapshotIncludeIndex = 1 ∧
      ∀ v, (c.nodes v).RestartOrder := by
  obtain ⟨c, es, hrun, hboundary⟩ : ∃ c es,
      (Cluster.start 3 Unit).run Cluster.compactedRun = some (c, es) ∧
        (c.nodes 0).lastSnapshotIncludeIndex = 1 := by
    decide +kernel
  exact ⟨c, es, hrun, hboundary, (index_order hrun).1⟩

/-- After the restart the commit index is 0, below what was applied. -/
theorem commit_behind_boundary :
    ∃ c es, (Cluster.start 3 Unit).run Cluster.compactedRun = some (c, es) ∧
      ¬(c.nodes 0).IndexOrder := by
  obtain ⟨c, es, hrun, hlt⟩ : ∃ c es,
      (Cluster.start 3 Unit).run Cluster.compactedRun = some (c, es) ∧
        (c.nodes 0).commitIndex < (c.nodes 0).lastApplied := by
    decide +kernel
  exact ⟨c, es, hrun, fun h => absurd h.applied_le (by omega)⟩

end KVRaftStorage
