import KVRaftStorage.Raft.Assertions

/-!
# Moving the snapshot boundary

The boundary moves in two ways.  `InstallSnapshot` takes over the one of the
leader and keeps the entries behind it, whether or not they continue the
snapshot.  `Snapshot` gives up the log in front of an applied index, and no
lookup behind that index can tell.
-/

namespace KVRaftStorage

variable {n : ℕ} {Image : Type}

namespace Raft

variable {r r' : Raft n Image}

/-! ## Installing a snapshot -/

/-- The entries that continue the snapshot: those behind its index, if the
entry there is the last one of the snapshot. -/
def installedLog (r : Raft n Image) (args : InstallSnapshotRequest n Image) :
    List LogEntry :=
  if r.termAt? args.lastSnapShotIncludeIndex =
      some args.lastSnapShotIncludeTerm then
    r.logs.filter fun entry => args.lastSnapShotIncludeIndex < entry.logIndex
  else []

/-- The request is of an earlier term, or its snapshot is not ahead of the
boundary. -/
def Outdated (r : Raft n Image) (args : InstallSnapshotRequest n Image) :
    Prop :=
  args.term < r.currentTerm ∨
    args.lastSnapShotIncludeIndex ≤ r.lastSnapshotIncludeIndex

instance (r : Raft n Image) (args : InstallSnapshotRequest n Image) :
    Decidable (r.Outdated args) :=
  inferInstanceAs (Decidable (_ ∨ _))

/-- A snapshot is refused: log, boundary, both indices and the stored snapshot
are what they were. -/
structure Refuses (r r' : Raft n Image) : Prop where
  log : r.SameLog r'
  commit : r'.commitIndex = r.commitIndex
  applied : r'.lastApplied = r.lastApplied
  snapshot : r'.persister.snapshot = r.persister.snapshot

/-- A snapshot is taken over: node and files agree on its boundary, and no
index goes back. -/
structure TakesOver (r : Raft n Image) (args : InstallSnapshotRequest n Image)
    (r' : Raft n Image) : Prop where
  consecutive : Consecutive args.lastSnapShotIncludeIndex r'.logs
  index : r'.lastSnapshotIncludeIndex = args.lastSnapShotIncludeIndex
  term : r'.lastSnapshotIncludeTerm = args.lastSnapShotIncludeTerm
  persister : r'.persister = ⟨some r'.persistData, args.data⟩
  commit : r'.commitIndex = max r.commitIndex args.lastSnapShotIncludeIndex
  applied : r'.lastApplied = max r.lastApplied args.lastSnapShotIncludeIndex

/-- What `InstallSnapshot` has to do. -/
def InstallRule (r : Raft n Image) (args : InstallSnapshotRequest n Image)
    (r' : Raft n Image) : Prop :=
  if r.Outdated args then r.Refuses r'
  else r.TakesOver args r' ∧ r'.logs = r.installedLog args

theorem enterSnapshot_refuses (r : Raft n Image) (term : ℕ) :
    r.Refuses (r.enterSnapshot term) := by
  unfold enterSnapshot installTerm
  split <;> exact ⟨⟨rfl, rfl, rfl⟩, rfl, rfl, rfl⟩

theorem installSnapshot_outdated {args : InstallSnapshotRequest n Image}
    {reply : InstallSnapshotResponse} {msg : Option (ApplyMsg Image)}
    (h : r.installSnapshot args = .ok (r', reply, msg))
    (hold : r.Outdated args) : r.Refuses r' := by
  unfold installSnapshot at h
  split at h
  · obtain ⟨rfl, -⟩ : r = r' ∧ _ := by simpa using h
    exact ⟨.refl r, rfl, rfl, rfl⟩
  next hterm =>
  have hindex := hold.resolve_left hterm
  have hrefuses := r.enterSnapshot_refuses args.term
  rw [if_pos (hrefuses.log.index.symm ▸ hindex)] at h
  obtain ⟨rfl, -⟩ : _ = r' ∧ _ := by simpa using h
  exact hrefuses

/-- Apart from the entries it keeps, a snapshot that is not outdated is taken
over as it should be. -/
theorem installSnapshot_takesOver
    (hlog : Consecutive r.lastSnapshotIncludeIndex r.logs)
    {args : InstallSnapshotRequest n Image} {reply : InstallSnapshotResponse}
    {msg : Option (ApplyMsg Image)}
    (h : r.installSnapshot args = .ok (r', reply, msg))
    (hnew : ¬r.Outdated args) :
    r.TakesOver args r' ∧
      r'.logs = r.logs.filter fun entry =>
        args.lastSnapShotIncludeIndex < entry.logIndex := by
  obtain ⟨hterm, hindex⟩ := not_or.mp hnew
  have hrefuses := r.enterSnapshot_refuses args.term
  unfold installSnapshot at h
  rw [if_neg hterm, if_neg (hrefuses.log.index.symm ▸ hindex)] at h
  obtain ⟨logs, hlogs, rfl⟩ := takeSnapshot_eq_ok h
  have hkept := logsBehind_eq_ok hlogs
    (hrefuses.log.index.symm ▸ Nat.lt_of_not_le hindex)
  rw [hrefuses.log.lastLogIndex, hrefuses.log.logs, hrefuses.log.index] at hkept
  have hlen := getLastLogIndex_eq hlog
  have hfilter : logs = r.logs.filter fun entry =>
      args.lastSnapShotIncludeIndex < entry.logIndex := by
    have hbehind := hlog.filter_le (args.lastSnapShotIncludeIndex + 1)
    simp only [Nat.succ_le_iff] at hbehind
    rw [hkept, hbehind,
      show args.lastSnapShotIncludeIndex + 1 - r.lastSnapshotIncludeIndex - 1 =
        args.lastSnapShotIncludeIndex - r.lastSnapshotIncludeIndex by omega]
    split
    · rfl
    · rw [List.drop_eq_nil_of_le (by omega)]
  refine ⟨⟨?_, rfl, rfl, rfl, ?_, ?_⟩, hfilter⟩
  · change Consecutive args.lastSnapShotIncludeIndex logs
    rw [hkept]
    split
    · have hdrop := hlog.drop
        (args.lastSnapShotIncludeIndex - r.lastSnapshotIncludeIndex)
      rwa [show r.lastSnapshotIncludeIndex + (args.lastSnapShotIncludeIndex -
        r.lastSnapshotIncludeIndex) = args.lastSnapShotIncludeIndex by
          omega] at hdrop
    · exact .nil _
  · exact congrArg (max · args.lastSnapShotIncludeIndex) hrefuses.commit
  · exact congrArg (max · args.lastSnapShotIncludeIndex) hrefuses.applied

/-- `InstallSnapshot` does what it has to do exactly if it keeps no entries
behind a snapshot that they do not continue. -/
theorem install_rule_iff
    (hlog : Consecutive r.lastSnapshotIncludeIndex r.logs)
    (args : InstallSnapshotRequest n Image) :
    (∃ r' reply msg, r.installSnapshot args = .ok (r', reply, msg) ∧
      r.InstallRule args r') ↔ ¬r.KeepsForeignEntries args := by
  obtain ⟨⟨r', reply, msg⟩, hok⟩ := r.installSnapshot_ok args
  have hlen := getLastLogIndex_eq hlog
  have hsame : ∀ {r₁ reply₁ msg₁},
      r.installSnapshot args = .ok (r₁, reply₁, msg₁) → r₁ = r' := by
    intro r₁ reply₁ msg₁ hok₁
    exact congrArg Prod.fst (Except.ok.inj (hok₁.symm.trans hok))
  by_cases hold : r.Outdated args
  · have hrefuses := installSnapshot_outdated hok hold
    refine iff_of_true ⟨r', reply, msg, hok, ?_⟩ ?_
    · rw [InstallRule, if_pos hold]
      exact hrefuses
    · rintro ⟨hterm, hindex, -⟩
      rcases hold with hold | hold <;> omega
  obtain ⟨htakes, hlogs⟩ := installSnapshot_takesOver hlog hok hold
  have hrule : r.InstallRule args r' ↔ r'.logs = r.installedLog args := by
    rw [InstallRule, if_neg hold, and_iff_right htakes]
  have hexists : (∃ r₁ reply₁ msg₁,
      r.installSnapshot args = .ok (r₁, reply₁, msg₁) ∧
        r.InstallRule args r₁) ↔ r'.logs = r.installedLog args := by
    rw [← hrule]
    constructor
    · rintro ⟨r₁, reply₁, msg₁, hok₁, hr₁⟩
      rwa [hsame hok₁] at hr₁
    · exact fun hr' => ⟨r', reply, msg, hok, hr'⟩
  rw [hexists, hlogs, installedLog]
  obtain ⟨hterm, hindex⟩ := not_or.mp hold
  split
  · next hmatch =>
      exact iff_of_true rfl fun hkeeps => hkeeps.2.2.2 hmatch
  · next hforeign =>
      have hbehind := hlog.filter_le (args.lastSnapShotIncludeIndex + 1)
      simp only [Nat.succ_le_iff] at hbehind
      rw [hbehind, List.drop_eq_nil_iff]
      constructor
      · rintro hshort ⟨-, -, hlt, -⟩
        omega
      · intro hkeeps
        by_contra hlong
        exact hkeeps ⟨Nat.le_of_not_lt hterm, Nat.lt_of_not_le hindex,
          by omega, hforeign⟩

/-- The leader of term 2 sends its snapshot. -/
def snapshotUpTo (index term : ℕ) : InstallSnapshotRequest 3 Unit where
  leaderId := 2
  term := 2
  lastSnapShotIncludeIndex := index
  lastSnapShotIncludeTerm := term
  data := some ()

theorem follower_consecutive :
    Consecutive follower.lastSnapshotIncludeIndex follower.logs :=
  (Consecutive.singleton rfl).append (.singleton rfl)

theorem install_rule_follower :
    ∃ r' reply msg, follower.installSnapshot (snapshotUpTo 1 1) =
        .ok (r', reply, msg) ∧
      follower.InstallRule (snapshotUpTo 1 1) r' :=
  (install_rule_iff follower_consecutive (snapshotUpTo 1 1)).mpr (by decide)

/-- The snapshot ends with an entry of term 2, and the entry of term 1 behind it
stays. -/
theorem foreign_entry_stays :
    ¬∃ r' reply msg, follower.installSnapshot (snapshotUpTo 1 2) =
        .ok (r', reply, msg) ∧
      follower.InstallRule (snapshotUpTo 1 2) r' := by
  rintro ⟨r', reply, msg, hok, hrule⟩
  rw [InstallRule, if_neg (by decide)] at hrule
  have hstays : (follower.installSnapshot (snapshotUpTo 1 2)).toOption.map
      (fun result => result.1.logs) ≠
        some (follower.installedLog (snapshotUpTo 1 2)) := by
    decide +kernel
  rw [hok] at hstays
  exact hstays (congrArg some hrule.2)

/-! ## Compacting the log -/

/-- No lookup at or behind `index`, and neither of the two indices, tells the
nodes apart. -/
structure SameBehind (index : ℕ) (r r' : Raft n Image) : Prop where
  last : r'.getLastLogIndexAndTerm = r.getLastLogIndexAndTerm
  term : ∀ i, index ≤ i → i ≤ r.getLastLogIndex →
    r'.getLogTermFromLogIndex i = r.getLogTermFromLogIndex i
  matched : ∀ i logTerm, index ≤ i → i ≤ r.getLastLogIndex →
    r'.matchLog i logTerm = r.matchLog i logTerm
  entry : ∀ i, index < i → r'.entryAt? i = r.entryAt? i
  upToDate : ∀ i logTerm, r'.upToDate i logTerm = r.upToDate i logTerm
  prev : ∀ next server, index < next server →
    ({ r' with nextIndex := next }.getPrevLogInfo server).toOption =
      ({ r with nextIndex := next }.getPrevLogInfo server).toOption
  commit : r'.commitIndex = r.commitIndex
  applied : r'.lastApplied = r.lastApplied

theorem Ordered.compacts_last (h : r.Ordered) {index : ℕ}
    (hc : r.Compacts index r') :
    r'.getLastLogIndexAndTerm = r.getLastLogIndexAndTerm := by
  obtain ⟨hdata, hlast⟩ := h.compacts_data hc
  have hle := hc.le
  have hend := h.last
  have hindex : r'.getLastLogIndex = r.getLastLogIndex := by omega
  have hold := termAt?_getLastLogIndex h.consecutive
  have hnew : r'.termAt? r'.getLastLogIndex = some r'.getLastLogTerm :=
    termAt?_getLastLogIndex hdata.consecutive
  rw [hindex, h.compacts_termAt? hc (hle.trans hend), hold] at hnew
  exact Prod.ext hindex (Option.some.inj hnew).symm

/-- `getPrevLogInfo` looks one entry up, except right behind the boundary. -/
theorem getPrevLogInfo_toOption
    (h : Consecutive r.lastSnapshotIncludeIndex r.logs) {next : Fin n → ℕ}
    {server : Fin n} (hne : next server ≠ r.lastSnapshotIncludeIndex + 1) :
    ({ r with nextIndex := next }.getPrevLogInfo server).toOption =
      (r.entryAt? (next server - 1)).map fun entry =>
        (next server - 1, entry.logTerm) := by
  have hlookup : { r with nextIndex := next }.entryAt = r.entryAt := rfl
  rw [getPrevLogInfo, if_neg hne, hlookup, ← entryAt_toOption h]
  cases r.entryAt (next server - 1) <;> rfl

theorem Ordered.compacts_prev (h : r.Ordered) {index : ℕ}
    (hc : r.Compacts index r') {next : Fin n → ℕ} {server : Fin n}
    (hnext : index < next server) :
    ({ r' with nextIndex := next }.getPrevLogInfo server).toOption =
      ({ r with nextIndex := next }.getPrevLogInfo server).toOption := by
  have hlt := hc.lt
  rw [getPrevLogInfo_toOption h.consecutive (by omega)]
  by_cases heq : next server = index + 1
  · obtain ⟨entry, hentry, hterm⟩ := hc.entry
    have hboundary : next server = r'.lastSnapshotIncludeIndex + 1 := by
      rw [heq, hc.boundary]
    rw [getPrevLogInfo, if_pos hboundary, heq, Nat.add_sub_cancel,
      (entryAt_eq_ok hentry).2.2, Option.map_some]
    change some (r'.lastSnapshotIncludeIndex, r'.lastSnapshotIncludeTerm) = _
    rw [hc.boundary, hterm]
  · rw [getPrevLogInfo_toOption (h.compacts_data hc).1.consecutive
      (fun hboundary => heq (by rw [hboundary, ← hc.boundary])),
      h.compacts_entryAt? hc (by omega)]

theorem Ordered.sameBehind (h : r.Ordered) {index : ℕ}
    (hc : r.Compacts index r') (hout : index ≤ r.lastApplied)
    (happlied : r'.lastApplied = max r.lastApplied index) :
    SameBehind index r r' := by
  have hlt := hc.lt
  have hle := hc.le
  have hconsecutive := (h.compacts_data hc).1.consecutive
  have hlast := h.compacts_last hc
  have hindex : r'.getLastLogIndex = r.getLastLogIndex :=
    congrArg Prod.fst hlast
  have hterm : ∀ i, index ≤ i → i ≤ r.getLastLogIndex → ∃ term,
      r'.getLogTermFromLogIndex i = .ok term ∧
        r.getLogTermFromLogIndex i = .ok term := by
    intro i hi hi'
    obtain ⟨term, hlookup⟩ :=
      getLogTermFromLogIndex_ok h.consecutive (by omega) hi'
    refine ⟨term, ?_, hlookup⟩
    apply getLogTermFromLogIndex_of_termAt? hconsecutive
    · exact hc.boundary.trans_le hi
    · exact hi'.trans_eq hindex.symm
    · rw [h.compacts_termAt? hc hi]
      exact (getLogTermFromLogIndex_eq_ok hlookup).2.2
  refine ⟨hlast, ?_, ?_, fun i hi => h.compacts_entryAt? hc hi, ?_,
    fun next server hnext => h.compacts_prev hc hnext, ?_, ?_⟩
  · intro i hi hi'
    obtain ⟨term, hnew, hold⟩ := hterm i hi hi'
    rw [hnew, hold]
  · intro i logTerm hi hi'
    obtain ⟨term, hnew, hold⟩ := hterm i hi hi'
    rw [matchLog_of_term hnew, matchLog_of_term hold]
  · intro i logTerm
    rw [upToDate, upToDate, getLastLogTerm, getLastLogIndex, getLastLogTerm,
      getLastLogIndex, hlast]
  · rw [hc.commit, Nat.max_eq_left hle]
  · rw [happlied, Nat.max_eq_left hout]

end Raft

/-- On a reachable node `Snapshot` of an index that was handed out changes
nothing, or nothing that a lookup behind the index could tell. -/
theorem compaction_invisible {as : List (Action n Image)}
    {c : Cluster n Image} {es : List (Event n Image)}
    (hrun : (Cluster.start n Image).run as = some (c, es)) (s : Fin n)
    (index : ℕ) (image : Option Image)
    (hout : index ≤ (c.nodes s).lastApplied) :
    ∃ r', (c.nodes s).snapshot index image = .ok r' ∧
      if index ≤ (c.nodes s).lastSnapshotIncludeIndex ∨
          (c.nodes s).commitIndex < index then
        r' = c.nodes s
      else Raft.SameBehind index (c.nodes s) r' := by
  have hordered := (ordered_of_run hrun).nodes s
  obtain ⟨r', hok⟩ := Raft.snapshot_ok hordered index image
  refine ⟨r', hok, ?_⟩
  split
  · next hrefused =>
      rw [Raft.snapshot, if_pos hrefused] at hok
      exact (Except.ok.inj hok).symm
  · next hrange =>
      rw [Raft.snapshot, if_neg hrange] at hok
      simp only [exec_bind_eq_ok, Raft.myAssert_eq_ok] at hok
      obtain ⟨entry, hentry, logs, hlogs, -, -, hok⟩ := hok
      obtain rfl := exec_pure_eq_ok.mp hok
      obtain ⟨hlt, hle⟩ := not_or.mp hrange
      exact hordered.sameBehind ⟨rfl, rfl, rfl, rfl, rfl, Nat.lt_of_not_le hlt,
        Nat.le_of_not_lt hle, ⟨entry, hentry, rfl⟩, hlogs, rfl, rfl⟩ hout rfl

/-- The leader of the replicated run compacts its first entry. -/
theorem compaction_invisible_replicated :
    ∃ c es r', (Cluster.start 3 Unit).run Cluster.replicatedRun =
        some (c, es) ∧
      (c.nodes 0).snapshot 1 (some ()) = .ok r' ∧
      Raft.SameBehind 1 (c.nodes 0) r' := by
  obtain ⟨c, es, hrun, hout, hrange⟩ : ∃ c es,
      (Cluster.start 3 Unit).run Cluster.replicatedRun = some (c, es) ∧
        1 ≤ (c.nodes 0).lastApplied ∧
        ¬(1 ≤ (c.nodes 0).lastSnapshotIncludeIndex ∨
          (c.nodes 0).commitIndex < 1) := by
    decide +kernel
  obtain ⟨r', hok, hsame⟩ := compaction_invisible hrun 0 1 (some ()) hout
  rw [if_neg hrange] at hsame
  exact ⟨c, es, r', hrun, hok, hsame⟩

end KVRaftStorage
