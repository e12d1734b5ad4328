import KVRaftStorage.Raft.Merge
import KVRaftStorage.Raft.Speakers

/-!
# What every term has written

A term has one writer, the leader who appends, and it fills every index once.
So there is a record of the command at every term and index, and every entry in
a log or in a request is on record.  A leader has written nothing behind its
log, and what a thread has sent lies in the log of the process that sent it.
All this holds in every run.
-/

namespace KVRaftStorage

open Replication Transition

variable {n : ℕ} {Image : Type}

/-- The entry carries the command on record for its term and index. -/
def LogEntry.Written (minted : ℕ → ℕ → Option Op) (entry : LogEntry) : Prop :=
  minted entry.logTerm entry.logIndex = some entry.command

namespace Raft

variable {minted : ℕ → ℕ → Option Op}

/-- Entries on record that share index and term share the command. -/
theorem sameCommands_of_written {logs entries : List LogEntry}
    (hlogs : ∀ entry ∈ logs, entry.Written minted)
    (hwritten : ∀ entry ∈ entries, entry.Written minted) :
    SameCommands logs entries := by
  intro here hhere log hlog hindex hterm
  have hold := hlogs here hhere
  rw [LogEntry.Written, hindex, hterm, hwritten log hlog] at hold
  exact (Option.some.inj hold).symm

theorem readIndexArgs_entries {r : Raft n Image} {savedTerm : ℕ}
    {server : Fin n} {args : AppendEntriesArgs n}
    (h : r.readIndexArgs savedTerm server = .ok (some args)) :
    args.entries = [] := by
  unfold readIndexArgs at h
  split at h
  · simp at h
  split at h
  · simp at h
  rw [exec_bind_eq_ok] at h
  obtain ⟨prev, -, h⟩ := h
  obtain rfl : _ = args := by simpa using h
  rfl

theorem heartBeatTo_sends {r : Raft n Image} {server : Fin n}
    {args : AppendEntriesArgs n}
    (h : r.heartBeatTo server = .ok (some args)) :
    args.prevLogIndex + args.entries.length = r.getLastLogIndex ∧
      ∀ entry ∈ args.entries, entry ∈ r.logs := by
  have hargs := Holds.heartBeatTo_eq_some h
  simp only [heartBeatArgs, exec_bind_eq_ok, myAssert_eq_ok] at hargs
  obtain ⟨⟨prev, term⟩, -, entries, hentries, -, hlen, hargs⟩ := hargs
  obtain rfl := exec_pure_eq_ok.mp hargs
  refine ⟨hlen, ?_⟩
  unfold entriesAfter at hentries
  split at hentries
  · rw [exec_bind_eq_ok] at hentries
    obtain ⟨slice, -, hentries⟩ := hentries
    obtain rfl := exec_pure_eq_ok.mp hentries
    exact fun entry => List.mem_of_mem_drop
  · obtain rfl := exec_pure_eq_ok.mp hentries
    exact fun entry => id

end Raft

/-! ## What a handler does to the log -/

/-- A handler appends the command that `Start` is called with, or a no-op. -/
def Action.Appends (a : Action n Image) (command : Op) : Prop :=
  (∃ T, command = Raft.noop T) ∨ ∃ s, a = .start s command

namespace Cluster

variable {c c' : Cluster n Image} {a : Action n Image} {s : Fin n}
  {r : Raft n Image}

/-- The ways in which a handler changes the log of `s`. -/
inductive LogStep (c : Cluster n Image) (a : Action n Image) (s : Fin n)
    (r : Raft n Image) : Prop where
  | same (h : (c.nodes s).SameLog r)
  | appended (command : Op) (hl : r.status = .leader)
      (hterm : r.currentTerm = (c.nodes s).currentTerm)
      (hlogs : r.logs = ((c.nodes s).appendEntry command).logs)
      (hindex : r.lastSnapshotIncludeIndex =
        (c.nodes s).lastSnapshotIncludeIndex)
      (hboundary : r.lastSnapshotIncludeTerm =
        (c.nodes s).lastSnapshotIncludeTerm)
      (hcommand : a.Appends command)
  | accepted {args reply} (hm : (s, args) ∈ c.appendRequest? a)
      (h : (c.nodes s).Accepts args r reply)
  | installed {args} (h : (c.nodes s).Installs args r)
  | compacted {index} (h : (c.nodes s).Compacts index r)

theorem Handles.logStep (h : c.Handles a s r) : c.LogStep a s r := by
  cases h with
  | doElection hdo =>
      obtain ⟨-, -, -, -, -, hlog, -⟩ := Raft.doElection_eq_some hdo
      exact .same hlog
  | requestVote hvote =>
      rcases Raft.requestVote_eq_ok hvote with ⟨-, hquiet, -⟩ | hgrants
      · exact .same hquiet.log
      · exact .same hgrants.log
  | sendRequestVote hsend =>
      rcases Raft.sendRequestVote_eq_ok hsend with
        ⟨hquiet, -, -⟩ | ⟨-, rfl, -⟩ | ⟨hwins, -⟩
      · exact .same hquiet.log
      · exact .same (.refl _)
      · rw [hwins.eq]
        exact .appended (Raft.noop _) rfl rfl rfl rfl rfl (.inl ⟨_, rfl⟩)
  | start command ha =>
      rcases (c.nodes s).start_effect command with heq | ⟨hl, heq⟩
      · rw [heq]
        exact .same (.refl _)
      · rw [heq]
        exact .appended command hl rfl rfl rfl rfl (.inr ⟨_, ha⟩)
  | appendEntries1 hm happend =>
      rcases Raft.appendEntries1_eq_ok happend with ⟨-, hquiet, -⟩ | haccepts
      · exact .same hquiet.log
      · exact .accepted hm haccepts
  | sendAppendEntries _ _ _ _ hsend =>
      rcases Raft.sendAppendEntries_eq_ok hsend with ⟨hquiet, -, -⟩ | htallies
      · exact .same hquiet.log
      · exact .same htallies.sameLog
  | installSnapshot _ hinstall =>
      rcases Raft.installSnapshot_eq_ok hinstall with ⟨hquiet, -⟩ | hinstalls
      · exact .same hquiet.log
      · exact .installed hinstalls
  | snapShotSent => exact .same (Raft.snapShotSent_effect ..).1.log
  | snapshot hsnap =>
      rcases Raft.snapshot_eq_ok hsnap with rfl | hcompacts
      · exact .same (.refl _)
      · exact .compacted hcompacts
  | applierTicker hout => exact .same (Raft.getApplyLogs_quiet hout).2.1

/-- A process that ends leaves entries of its log. -/
theorem Ordered.ends_entries (h : c.Ordered) {p : Persister n Image}
    (hends : c.Exits a s p ∨ c.Dies a s p) :
    ∀ entry ∈ p.stored.logs, entry ∈ (c.nodes s).logs := by
  have hnode := h.nodes s
  have hkept : ∀ entry ∈ (c.nodes s).persister.stored.logs,
      entry ∈ (c.nodes s).logs := fun entry hentry => hnode.logs ▸ hentry
  have hterm : ∀ term, ∀ entry ∈
      ((c.nodes s).installTerm term).persister.stored.logs,
      entry ∈ (c.nodes s).logs := by
    intro term entry hentry
    rw [(hnode.installTerm term).logs,
      ((c.nodes s).installTerm_effect term).1.log.logs] at hentry
    exact hentry
  rcases hends with hexits | hdies
  · cases hexits with
    | requestVote herror => exact absurd herror Raft.requestVote_ne_error
    | sendRequestVote _ _ herror =>
        exact Raft.sendRequestVote_eq_error herror ▸ hkept
    | doHeartBeat => exact hkept
    | appendEntries1 _ herror =>
        exact Raft.appendEntries1_eq_error herror ▸ hkept
    | sendAppendEntries _ _ _ herror =>
        exact Raft.sendAppendEntries_eq_error herror ▸ hkept
    | installSnapshot _ herror =>
        exact Raft.installSnapshot_eq_error herror ▸ hterm _
    | snapshot herror =>
        rcases Raft.snapshot_eq_error herror with rfl | ⟨r', hcompacts, rfl⟩
        · exact hkept
        · intro entry hentry
          rw [hcompacts.stored] at hentry
          obtain ⟨k, hk⟩ := List.mem_iff_getElem?.mp hentry
          exact ((hnode.compacts_entries hcompacts).2 k entry hk).2
    | applierTicker herror =>
        exact Raft.getApplyLogs_eq_error herror ▸ hkept
    | readIndex _ _ herror =>
        exact Raft.readIndexArgs_eq_error herror ▸ hkept
  · cases hdies with
    | restart => exact hkept
    | installSnapshot => exact hterm _

end Cluster

/-! ## Elections that are won once -/

/-- A term that is won now has not been won before. -/
theorem Move.unwon {D : Discipline n Image} {c c' : Cluster n Image}
    {es : List (Event n Image)} (h : Move D c c' es) {B : Ballots (Fin n)}
    (hB : VotesTracked B c) {v : Fin n} {T : ℕ} (hwon : Won es v T) :
    B.winner T = none := by
  induction h generalizing B with
  | @trans c₁ c₂ c₃ es₁ es₂ hfirst _ ih₁ ih₂ =>
      obtain ⟨ev, hev, hev'⟩ := hwon
      rcases List.mem_append.mp hev with hev | hev
      · exact ih₁ hB ⟨ev, hev, hev'⟩
      · obtain ⟨B₂, hext, hB₂, -⟩ := hfirst.votes hB
        have hnone := ih₂ hB₂ ⟨ev, hev, hev'⟩
        rw [Option.eq_none_iff_forall_ne_some] at hnone ⊢
        exact fun u hu => hnone u (hext.winner T u hu)
  | win e election i r' reply he hcall hwins =>
      obtain ⟨hterm, -, hnone, -⟩ := hB.win_most he hcall hwins
      obtain ⟨rfl, rfl⟩ : election.candidate = v ∧ r'.currentTerm = T := by
        simpa [Won, Event.won?] using hwon
      have hsame : r'.currentTerm = election.args.term := by
        rw [hwins.eq, hterm]
        rfl
      rw [hsame]
      exact hnone
  | tally =>
      split at hwon <;> simp [Won, Event.won?] at hwon
  | _ => simp [Won, Event.won?] at hwon

/-! ## The record -/

/-- What is on record about a node. -/
structure NodeRecorded (minted : ℕ → ℕ → Option Op) (r : Raft n Image) :
    Prop where
  written : ∀ entry ∈ r.logs, entry.Written minted
  newest : r.status = .leader → ∀ i, minted r.currentTerm i ≠ none →
    i ≤ r.getLastLogIndex

/-- The last index that the request of the thread reaches. -/
def PeerThread.reach : PeerThread n Image → ℕ
  | .append args _ => args.prevLogIndex + args.entries.length
  | .snapshot args _ => args.lastSnapShotIncludeIndex
  | .idle | .waiting => 0

/-- The entries of the request are on record. -/
def PeerThread.Recorded (minted : ℕ → ℕ → Option Op) :
    PeerThread n Image → Prop
  | .append args _ => ∀ entry ∈ args.entries, entry.Written minted
  | .snapshot _ _ | .idle | .waiting => True

/-- Requests of `ReadIndex` carry no entries. -/
def ReadThread.Bare : ReadThread n → Prop
  | .append args _ => args.entries = []
  | .waiting | .done => True

/-- What is on record about the threads of a round. -/
structure RoundRecorded (minted : ℕ → ℕ → Option Op) (c : Cluster n Image)
    (round : Round n Image) : Prop where
  own : round.threads round.leader = .idle
  boot : round.boot ≤ c.boots round.leader
  threads : ∀ i, (round.threads i).Recorded minted
  reach : c.boots round.leader = round.boot → ∀ i,
    (round.threads i).reach ≤ (c.nodes round.leader).getLastLogIndex

/-- The history of the cluster is recorded in `B` and `minted`. -/
structure Recorded (B : Ballots (Fin n)) (minted : ℕ → ℕ → Option Op)
    (c : Cluster n Image) : Prop where
  votes : VotesTracked B c
  ordered : c.Ordered
  won : ∀ T i, minted T i ≠ none → B.winner T ≠ none
  nodes : ∀ v, NodeRecorded minted (c.nodes v)
  rounds : ∀ round ∈ c.rounds, RoundRecorded minted c round
  reads : ∀ read ∈ c.reads, ∀ i, (read.threads i).Bare

namespace Recorded

variable {B : Ballots (Fin n)} {minted : ℕ → ℕ → Option Op}
  {c c' : Cluster n Image} {a : Action n Image} {es : List (Event n Image)}

theorem start : Recorded Ballots.blank (fun _ _ => none)
    (Cluster.start n Image) where
  votes := .start
  ordered := .start
  won := by simp
  nodes := fun v => ⟨by simp [Cluster.start, Raft.init, Raft.readPersist,
    Raft.fresh], by simp⟩
  rounds := by simp [Cluster.start]
  reads := by simp [Cluster.start]

/-- The entries of a request on its way are on record. -/
theorem request_written (h : Recorded B minted c) {i : Fin n}
    {args : AppendEntriesArgs n} (hm : (i, args) ∈ c.appendRequest? a) :
    ∀ entry ∈ args.entries, entry.Written minted := by
  cases a with
  | appendEntries k j =>
      obtain ⟨round, hr, hm⟩ := Option.bind_eq_some_iff.mp hm
      split at hm
      · next args' hthread =>
          obtain ⟨rfl, rfl⟩ : j = i ∧ args' = args := by simpa using hm
          have hround := (h.rounds round (List.mem_of_getElem? hr)).threads j
          rw [hthread] at hround
          exact hround
      · simp at hm
  | readAppendEntries q j =>
      obtain ⟨read, hq, hm⟩ := Option.bind_eq_some_iff.mp hm
      split at hm
      · next args' hthread =>
          obtain ⟨rfl, rfl⟩ : j = i ∧ args' = args := by simpa using hm
          have hread := h.reads read (List.mem_of_getElem? hq) j
          rw [hthread] at hread
          rw [show args'.entries = [] from hread]
          simp
      · simp at hm
  | _ => simp [Cluster.appendRequest?] at hm

/-- New records lie at the end of the log of a leader of their term. -/
structure Mints (minted minted' : ℕ → ℕ → Option Op) (c' : Cluster n Image) :
    Prop where
  grows : ∀ T i command, minted T i = some command →
    minted' T i = some command
  fresh : ∀ T i, minted T i = none → minted' T i ≠ none →
    ∃ s, (c'.nodes s).status = .leader ∧ (c'.nodes s).currentTerm = T ∧
      i ≤ (c'.nodes s).getLastLogIndex

theorem Mints.refl (minted : ℕ → ℕ → Option Op) (c' : Cluster n Image) :
    Mints minted minted c' :=
  ⟨fun _ _ _ h => h, fun _ _ hnone hsome => absurd hnone hsome⟩

theorem Mints.written {minted' : ℕ → ℕ → Option Op}
    (h : Mints minted minted' c') {entry : LogEntry}
    (hentry : entry.Written minted) : entry.Written minted' :=
  h.grows _ _ _ hentry

/-- At most one place of the record is filled, with a command that the action
appends. -/
def Fills (a : Action n Image) (minted minted' : ℕ → ℕ → Option Op) : Prop :=
  minted' = minted ∨ ∃ T i command, minted T i = none ∧ a.Appends command ∧
    minted' = fun T' i' =>
      if T' = T ∧ i' = i then some command else minted T' i'

/-- Leaders of the next state led before in the same term, or nobody has won
their term so far. -/
def Freshly (B : Ballots (Fin n)) (c c' : Cluster n Image) : Prop :=
  ∀ v, (c'.nodes v).status = .leader →
    ((c.nodes v).status = .leader ∧
      (c'.nodes v).currentTerm = (c.nodes v).currentTerm) ∨
    B.winner (c'.nodes v).currentTerm = none

theorem freshly (h : Recorded B minted c)
    (hstep : c.step a = some (c', es)) : Freshly B c c' := by
  intro v hl
  have hmove := Cluster.step_move (obeys_free c a) hstep
  rcases hmove.leads hl with hold | hwon
  · exact .inl hold
  · exact .inr (hmove.unwon h.votes hwon)

/-- A leader about to append has not used the next index in its term. -/
theorem unminted (h : Recorded B minted c) (hfresh : Freshly B c c') {s : Fin n}
    (hl : (c'.nodes s).status = .leader)
    (hterm : (c'.nodes s).currentTerm = (c.nodes s).currentTerm) {i : ℕ}
    (hi : (c.nodes s).getLastLogIndex < i) :
    minted (c.nodes s).currentTerm i = none := by
  by_contra hminted
  rcases hfresh s hl with ⟨hold, -⟩ | hnone
  · have hle := (h.nodes s).newest hold i hminted
    omega
  · rw [hterm] at hnone
    exact h.won _ _ hminted hnone

/-- The record when the leader `s` appends a command. -/
theorem mints_append (h : Recorded B minted c) {s : Fin n} {r : Raft n Image}
    {command : Op} (hnodes : c'.nodes = Function.update c.nodes s r)
    (hl : r.status = .leader)
    (hterm : r.currentTerm = (c.nodes s).currentTerm)
    (hlogs : r.logs = ((c.nodes s).appendEntry command).logs)
    (hnone : minted (c.nodes s).currentTerm (c.nodes s).getNewCommandIndex =
      none) (hcommand : a.Appends command) :
    ∃ minted', Mints minted minted' c' ∧ Fills a minted minted' ∧
      ∀ v, ∀ entry ∈ (c'.nodes v).logs, entry.Written minted' := by
  let minted' : ℕ → ℕ → Option Op := fun T i =>
    if T = (c.nodes s).currentTerm ∧ i = (c.nodes s).getNewCommandIndex then
      some command
    else minted T i
  have hself : c'.nodes s = r := by rw [hnodes, Function.update_self]
  have hlast : r.getLastLogIndex = (c.nodes s).getNewCommandIndex := by
    simp [Raft.getLastLogIndex, Raft.getLastLogIndexAndTerm, hlogs,
      Raft.appendEntry]
  have hgrows : Mints minted minted' c' := by
    refine ⟨fun T i x hx => ?_, fun T i hold hnew => ?_⟩
    · simp only [minted']
      split
      · next heq =>
          rw [heq.1, heq.2, hnone] at hx
          cases hx
      · exact hx
    · simp only [minted'] at hnew
      split at hnew
      · next heq =>
          refine ⟨s, hself.symm ▸ hl, ?_, ?_⟩
          · rw [hself, hterm, heq.1]
          · rw [hself, hlast, heq.2]
      · exact absurd hold hnew
  refine ⟨minted', hgrows, .inr ⟨_, _, command, hnone, hcommand, rfl⟩,
    fun v entry hentry => ?_⟩
  rw [hnodes] at hentry
  by_cases hv : v = s
  · subst hv
    rw [Function.update_self, hlogs] at hentry
    rcases List.mem_append.mp hentry with hold | hnew
    · exact hgrows.written ((h.nodes v).written entry hold)
    · rw [List.mem_singleton.mp hnew]
      exact if_pos ⟨rfl, rfl⟩
  · rw [Function.update_of_ne hv] at hentry
    exact hgrows.written ((h.nodes v).written entry hentry)

theorem mints (h : Recorded B minted c) (hfresh : Freshly B c c')
    (hcases : c.StepCases a c') :
    ∃ minted', Mints minted minted' c' ∧ Fills a minted minted' ∧
      ∀ v, ∀ entry ∈ (c'.nodes v).logs, entry.Written minted' := by
  -- nothing is recorded unless a leader appends
  have hkeep : ∀ {s : Fin n} {r : Raft n Image},
      c'.nodes = Function.update c.nodes s r →
      (∀ entry ∈ r.logs, entry.Written minted) →
      ∃ minted', Mints minted minted' c' ∧ Fills a minted minted' ∧
        ∀ v, ∀ entry ∈ (c'.nodes v).logs, entry.Written minted' := by
    intro s r hnodes hlogs
    refine ⟨minted, .refl minted c', .inl rfl, fun v => ?_⟩
    rw [hnodes]
    by_cases hv : v = s
    · subst hv
      rw [Function.update_self]
      exact hlogs
    · rw [Function.update_of_ne hv]
      exact (h.nodes v).written
  cases hcases.nodes with
  | same hnodes _ =>
      exact ⟨minted, .refl minted c', .inl rfl,
        fun v => hnodes ▸ (h.nodes v).written⟩
  | @handled s r hhandles hnodes _ =>
      have hwritten := (h.nodes s).written
      cases hhandles.logStep with
      | same hsame => exact hkeep hnodes (hsame.logs ▸ hwritten)
      | @accepted args reply hm haccepts =>
          refine hkeep hnodes fun entry hentry => ?_
          obtain ⟨-, -, hmem⟩ := (h.ordered.nodes s).accepts_entries
            (h.ordered.appendRequest hm) haccepts
          rcases hmem entry hentry with hold | hnew
          · exact hwritten entry hold
          · exact h.request_written hm entry hnew
      | installed hinstalls =>
          refine hkeep hnodes fun entry hentry => ?_
          rw [hinstalls.logs] at hentry
          split at hentry
          · exact hwritten entry (List.mem_of_mem_drop hentry)
          · simp at hentry
      | compacted hcompacts =>
          refine hkeep hnodes fun entry hentry => ?_
          obtain ⟨k, hk⟩ := List.mem_iff_getElem?.mp hentry
          exact hwritten entry
            (((h.ordered.nodes s).compacts_entries hcompacts).2 k entry hk).2
      | appended command hl hterm hlogs hindex _ hcommand =>
          have hself : c'.nodes s = r := by rw [hnodes, Function.update_self]
          have hnone := h.unminted hfresh (hself.symm ▸ hl)
            (hself.symm ▸ hterm) (Nat.lt_succ_self _)
          exact h.mints_append hnodes hl hterm hlogs hnone hcommand
  | @ended s p hends hnodes _ =>
      have hlogs : (Raft.init s p).logs = p.stored.logs :=
        congrArg RaftState.logs (Raft.persistData_init s p)
      refine hkeep hnodes fun entry hentry => ?_
      rw [hlogs] at hentry
      exact (h.nodes s).written entry (h.ordered.ends_entries hends entry hentry)

/-- Leaders stay ahead of the record of their term. -/
theorem newest_step (h : Recorded B minted c) (hfresh : Freshly B c c')
    {B' : Ballots (Fin n)} (hvotes' : VotesTracked B' c')
    (hadvances : Cluster.WhileRunning Raft.Advances c c')
    {minted' : ℕ → ℕ → Option Op} (hmints : Mints minted minted' c') {v : Fin n}
    (hboots : (c'.nodes v).status = .leader → c'.boots v = c.boots v)
    (hl : (c'.nodes v).status = .leader) {i : ℕ}
    (hi : minted' (c'.nodes v).currentTerm i ≠ none) :
    i ≤ (c'.nodes v).getLastLogIndex := by
  by_cases hold : minted (c'.nodes v).currentTerm i = none
  · obtain ⟨s, hs, hterm, hle⟩ := hmints.fresh _ _ hold hi
    -- two leaders of one term are the same server
    have hwins := ((hvotes'.nodes s).leader hs).1
    have hwinv := ((hvotes'.nodes v).leader hl).1
    rw [hterm, hwinv] at hwins
    rwa [Option.some.inj hwins]
  · rcases hfresh v hl with ⟨hleads, hterm⟩ | hnone
    · rw [hterm] at hold
      exact ((h.nodes v).newest hleads i hold).trans
        ((hadvances v).2 (hboots hl)).last
    · exact absurd hnone (h.won _ _ hold)

/-- A leader is still the same process. -/
theorem same_boot (hcases : c.StepCases a c') {v : Fin n}
    (hl : (c'.nodes v).status = .leader) : c'.boots v = c.boots v := by
  cases hcases.nodes with
  | same _ hboots => rw [hboots]
  | handled _ _ hboots => rw [hboots]
  | @ended s p _ hnodes hboots =>
      have hv : v ≠ s := by
        rintro rfl
        rw [hnodes, Function.update_self] at hl
        simp at hl
      rw [hboots, Function.update_of_ne hv]

theorem thread_grows {minted' : ℕ → ℕ → Option Op}
    (hmints : Mints minted minted' c') {thread : PeerThread n Image}
    (h : thread.Recorded minted) : thread.Recorded minted' := by
  cases thread with
  | append args call =>
      exact fun entry hentry => hmints.written (h entry hentry)
  | snapshot | idle | waiting => trivial

theorem round_grows {minted' : ℕ → ℕ → Option Op}
    (hmints : Mints minted minted' c')
    (hadvances : Cluster.WhileRunning Raft.Advances c c')
    {round : Round n Image} (h : RoundRecorded minted c round) :
    RoundRecorded minted' c' round := by
  obtain ⟨hle, hnode⟩ := hadvances round.leader
  refine ⟨h.own, h.boot.trans hle, fun i => thread_grows hmints (h.threads i),
    fun hboot i => ?_⟩
  have hsame : c'.boots round.leader = c.boots round.leader := by
    have := h.boot
    omega
  exact (h.reach (hsame.symm.trans hboot) i).trans (hnode hsame).last

theorem setThread {round : Round n Image} (h : RoundRecorded minted c round)
    {i : Fin n} {thread : PeerThread n Image} (nums : ℕ)
    (hidle : round.threads i ≠ .idle) (hthread : thread.Recorded minted)
    (hreach : c.boots round.leader = round.boot →
      thread.reach ≤ (c.nodes round.leader).getLastLogIndex) :
    RoundRecorded minted c
      { round.setThread i thread with appendNums := nums } := by
  refine ⟨?_, h.boot, fun j => ?_, fun hboot j => ?_⟩
  · have hne : round.leader ≠ i := by
      rintro rfl
      exact hidle h.own
    simpa [Round.setThread, hne] using h.own
  · by_cases hj : j = i
    · subst hj
      simpa [Round.setThread] using hthread
    · simpa [Round.setThread, hj] using h.threads j
  · by_cases hj : j = i
    · subst hj
      simpa [Round.setThread] using hreach hboot
    · simpa [Round.setThread, hj] using h.reach hboot j

/-- What `doHeartBeat` sends lies in the log of the leader. -/
theorem begun (h : Recorded B minted c) (s : Fin n) :
    RoundRecorded minted c
      { leader := s
        boot := c.boots s
        appendNums := 1
        threads := Cluster.heartBeatThread (c.nodes s) s } := by
  have hthread : ∀ i, (Cluster.heartBeatThread (c.nodes s) s i).Recorded minted ∧
      (Cluster.heartBeatThread (c.nodes s) s i).reach ≤
        (c.nodes s).getLastLogIndex := by
    intro i
    cases hthread : Cluster.heartBeatThread (c.nodes s) s i with
    | append args call =>
        obtain ⟨-, -, hargs⟩ := LogsTracked.heartBeatThread_eq_append hthread
        obtain ⟨hreach, hmem⟩ := Raft.heartBeatTo_sends hargs
        exact ⟨fun entry hentry =>
          (h.nodes s).written entry (hmem entry hentry), hreach.le⟩
    | snapshot args call =>
        exact (LogsTracked.heartBeatThread_ne_snapshot hthread).elim
    | idle | waiting => exact ⟨trivial, Nat.zero_le _⟩
  exact ⟨by simp [Cluster.heartBeatThread], le_rfl, fun i => (hthread i).1,
    fun _ i => (hthread i).2⟩

/-- A thread that advances keeps the request it had, or sends the boundary. -/
theorem thread_step (h : Recorded B minted c) {round : Round n Image}
    (hround : RoundRecorded minted c round) {i : Fin n}
    {thread : PeerThread n Image} (hstep : c.ThreadStep a round i thread) :
    round.threads i ≠ .idle ∧ thread.Recorded minted ∧
      (c.boots round.leader = round.boot →
        thread.reach ≤ (c.nodes round.leader).getLastLogIndex) := by
  have hold := hround.threads i
  have hreach := fun hboot => hround.reach hboot i
  cases hstep with
  | answered hthread | finished hthread | snapshot _ hthread =>
      rw [hthread] at hold hreach ⊢
      exact ⟨by simp, hold, hreach⟩
  | offered hthread hboot _ =>
      rw [hthread]
      refine ⟨by simp, trivial, fun _ => ?_⟩
      have hlast := (h.ordered.nodes round.leader).lastLogIndex
      change (c.nodes round.leader).lastSnapshotIncludeIndex ≤ _
      omega

theorem rounds_step (h : Recorded B minted c)
    (hrounds : c.RoundsStep a c'.rounds) :
    ∀ round ∈ c'.rounds, RoundRecorded minted c round := by
  generalize c'.rounds = rounds at hrounds ⊢
  cases hrounds with
  | same => exact h.rounds
  | begun s => exact forall_mem_concat h.rounds (h.begun s)
  | @advanced k i thread round nums hr hthread =>
      have hmem := List.mem_of_getElem? hr
      obtain ⟨hidle, hrecorded, hreach⟩ :=
        h.thread_step (h.rounds round hmem) hthread
      exact forall_mem_set h.rounds
        (setThread (h.rounds round hmem) nums hidle hrecorded hreach)

theorem reads_step (h : Recorded B minted c) (hreads : c.ReadsStep c'.reads) :
    ∀ read ∈ c'.reads, ∀ i, (read.threads i).Bare := by
  generalize c'.reads = reads at hreads ⊢
  cases hreads with
  | same => exact h.reads
  | begun s =>
      refine forall_mem_concat h.reads fun i => ?_
      simp only [ReadCall.begun]
      split <;> trivial
  | @advanced q i thread read count hq hthread =>
      have hread := h.reads read (List.mem_of_getElem? hq)
      refine forall_mem_set h.reads fun j => ?_
      by_cases hj : j = i
      · subst hj
        have hold := hread j
        simp only [ReadCall.setThread, Function.update_self]
        cases hthread with
        | sent _ hargs => exact Raft.readIndexArgs_entries hargs
        | answered hthread => rwa [hthread] at hold
        | finished => trivial
      · simpa [ReadCall.setThread, hj] using hread j
  | @returned q read hq =>
      exact forall_mem_set h.reads (h.reads read (List.mem_of_getElem? hq))

/-- Every step extends the record. -/
theorem step (h : Recorded B minted c) (hstep : c.step a = some (c', es)) :
    ∃ B' minted', Recorded B' minted' c' ∧ Freshly B c c' ∧
      B.Extends B' ∧ Mints minted minted' c' ∧ Fills a minted minted' := by
  have hcases := Cluster.step_cases hstep
  have hadvances := h.ordered.advances hcases
  have hfresh := h.freshly hstep
  obtain ⟨B', hext, hvotes', -⟩ :=
    (Cluster.step_move (obeys_free c a) hstep).votes h.votes
  obtain ⟨minted', hmints, hfills, hwritten⟩ := h.mints hfresh hcases
  refine ⟨B', minted', ⟨hvotes', h.ordered.step hcases, ?_, ?_,
    fun round hround => round_grows hmints hadvances
      (h.rounds_step hcases.rounds round hround),
    h.reads_step hcases.reads⟩, hfresh, hext, hmints, hfills⟩
  · intro T i hi
    by_cases hold : minted T i = none
    · obtain ⟨s, hl, rfl, -⟩ := hmints.fresh T i hold hi
      rw [((hvotes'.nodes s).leader hl).1]
      simp
    · obtain ⟨s, hs⟩ := Option.ne_none_iff_exists'.mp (h.won T i hold)
      rw [hext.winner T s hs]
      simp
  · intro v
    exact ⟨hwritten v, fun hl i hi => h.newest_step hfresh hvotes' hadvances
      hmints (same_boot hcases) hl hi⟩

end Recorded

theorem recorded_of_run {as : List (Action n Image)} {c : Cluster n Image}
    {es : List (Event n Image)}
    (hrun : (Cluster.start n Image).run as = some (c, es)) :
    ∃ B minted, Recorded B minted c :=
  run_invariant (I := fun c => ∃ B minted, Recorded B minted c)
    (fun _ _ _ _ _ ⟨_, _, hc⟩ hstep =>
      have ⟨B', minted', hc', _⟩ := hc.step hstep
      ⟨B', minted', hc'⟩)
    (throughout_true _ as) ⟨_, _, .start⟩ hrun

end KVRaftStorage
