import KVRaftStorage.Raft.Assertions

/-!
# No assertion fires

On top of the record of what every term has written, the counters of a leader
lie in its log, and every rejection suggests an index.  Every step keeps this,
with one exception: a rejection may suggest an index behind the end of the
leader's log, and then the next `doHeartBeat` to that server exits.
-/

namespace KVRaftStorage

open Replication Transition

variable {n : ℕ} {Image : Type}

/-! ## The counters of a leader -/

namespace Raft

/-- `nextIndex` and `matchIndex` lie in the log. -/
structure CountersInLog (r : Raft n Image) : Prop where
  pos : ∀ i, 1 ≤ r.nextIndex i
  next : ∀ i, r.nextIndex i ≤ r.getLastLogIndex + 1
  matched : ∀ i, r.matchIndex i ≤ r.getLastLogIndex

/-- Who is still leader was leader before, in the same term and with the same
counters. -/
def KeepsCounters (r r' : Raft n Image) : Prop :=
  r'.status = .leader →
    r.status = .leader ∧ r'.me = r.me ∧ r'.currentTerm = r.currentTerm ∧
      r'.nextIndex = r.nextIndex ∧ r'.matchIndex = r.matchIndex

/-- The reply that `sendAppendEntries` is about to process as a leader suggests
an index behind the log and its next entry. -/
def Overshoots (r : Raft n Image) (reply : AppendEntriesReply) : Prop :=
  r.status = .leader ∧ reply.appState ≠ .disconnected ∧
    reply.term = r.currentTerm ∧ reply.success = false ∧
      (r.getLastLogIndex : ℤ) + 1 < reply.updateNextIndex

instance (r : Raft n Image) (reply : AppendEntriesReply) :
    Decidable (r.Overshoots reply) :=
  inferInstanceAs (Decidable (_ ∧ _))

variable {r r' : Raft n Image}

theorem KeepsCounters.of_eq (hstatus : r'.status = r.status)
    (hme : r'.me = r.me) (hterm : r'.currentTerm = r.currentTerm)
    (hnext : r'.nextIndex = r.nextIndex)
    (hmatch : r'.matchIndex = r.matchIndex) : r.KeepsCounters r' :=
  fun hl => ⟨hstatus.symm.trans hl, hme, hterm, hnext, hmatch⟩

theorem KeepsCounters.of_ne (h : r'.status ≠ .leader) : r.KeepsCounters r' :=
  fun hl => absurd hl h

theorem KeepsCounters.refl (r : Raft n Image) : r.KeepsCounters r :=
  .of_eq rfl rfl rfl rfl rfl

theorem CountersInLog.keep (h : r.CountersInLog)
    (hnext : r'.nextIndex = r.nextIndex)
    (hmatch : r'.matchIndex = r.matchIndex)
    (hlast : r.getLastLogIndex ≤ r'.getLastLogIndex) : r'.CountersInLog where
  pos := fun i => hnext ▸ h.pos i
  next := fun i => hnext ▸ (h.next i).trans (Nat.succ_le_succ hlast)
  matched := fun i => hmatch ▸ (h.matched i).trans hlast

/-- Only the counters of one server change. -/
theorem CountersInLog.set (h : r.CountersInLog) {server : Fin n} {i j : ℕ}
    (hnext : r'.nextIndex = Function.update r.nextIndex server i)
    (hmatch : r'.matchIndex = Function.update r.matchIndex server j)
    (hlast : r'.getLastLogIndex = r.getLastLogIndex) (hpos : 1 ≤ i)
    (hi : i ≤ r.getLastLogIndex + 1) (hj : j ≤ r.getLastLogIndex) :
    r'.CountersInLog := by
  constructor
  · rw [hnext, Function.forall_update_iff _ fun _ x => 1 ≤ x]
    exact ⟨hpos, fun k _ => h.pos k⟩
  · rw [hnext, hlast,
      Function.forall_update_iff _ fun _ x => x ≤ r.getLastLogIndex + 1]
    exact ⟨hi, fun k _ => h.next k⟩
  · rw [hmatch, hlast,
      Function.forall_update_iff _ fun _ x => x ≤ r.getLastLogIndex]
    exact ⟨hj, fun k _ => h.matched k⟩

theorem requestVote_keepsCounters {args : RequestVoteArgs n}
    {reply : RequestVoteReply} (h : r.requestVote args = .ok (r', reply)) :
    r.KeepsCounters r' := by
  have hobserve : r.KeepsCounters (r.observeTerm args.term) := by
    unfold observeTerm
    split
    · exact .of_ne (by simp [followTerm])
    · exact .refl r
  unfold requestVote at h
  split at h
  · obtain ⟨rfl, -⟩ : _ = r' ∧ _ := by simpa using h
    exact .of_eq rfl rfl rfl rfl rfl
  · rw [exec_bind_eq_ok] at h
    obtain ⟨-, -, h⟩ := h
    split at h
    · obtain ⟨rfl, -⟩ : _ = r' ∧ _ := by simpa using h
      exact hobserve
    · split at h
      · obtain ⟨rfl, -⟩ : _ = r' ∧ _ := by simpa using h
        exact hobserve
      · obtain ⟨rfl, -⟩ : _ = r' ∧ _ := by simpa using h
        exact hobserve

/-- A new leader starts behind its log, and no counted vote changes the
counters of a leader. -/
theorem sendRequestVote_counters {k k' : ℕ} {reply : RequestVoteReply}
    (hr : r.Ordered) (h : r.sendRequestVote k reply = .ok (r', k')) :
    r.KeepsCounters r' ∨ (r.status ≠ .leader ∧ r'.CountersInLog ∧
      r'.matchIndex = fun _ => 0) := by
  have hadvances := (hr.sendRequestVote h).2
  unfold sendRequestVote at h
  split at h
  · obtain ⟨rfl, -⟩ : _ = r' ∧ _ := by simpa using h
    exact .inl (.of_ne (by simp [followTerm, persist]))
  split at h
  · obtain ⟨rfl, -⟩ : r = r' ∧ _ := by simpa using h
    exact .inl (.refl r)
  simp only [exec_bind_eq_ok] at h
  obtain ⟨-, -, h⟩ := h
  split at h
  · obtain ⟨rfl, -⟩ : r = r' ∧ _ := by simpa using h
    exact .inl (.refl r)
  split at h
  · rw [exec_bind_eq_ok] at h
    obtain ⟨_, hidle, h⟩ := h
    obtain ⟨rfl, -⟩ : r.becomeLeader = r' ∧ _ := by simpa using h
    exact .inr ⟨myAssert_eq_ok.mp hidle, ⟨fun _ => Nat.le_add_left 1 _,
      fun _ => Nat.succ_le_succ hadvances.last, fun _ => Nat.zero_le _⟩, rfl⟩
  · obtain ⟨rfl, -⟩ : r = r' ∧ _ := by simpa using h
    exact .inl (.refl r)

theorem start_keepsCounters (r : Raft n Image) (command : Op) :
    r.KeepsCounters (r.start command).1 := by
  rcases r.start_effect command with h | ⟨-, h⟩
  · rw [h]
    exact .refl r
  · rw [h]
    exact .of_eq rfl rfl rfl rfl rfl

theorem appendEntries1_keepsCounters {args : AppendEntriesArgs n}
    {reply : AppendEntriesReply}
    (h : r.appendEntries1 args = .ok (r', reply)) : r.KeepsCounters r' := by
  unfold appendEntries1 at h
  split at h
  · obtain ⟨rfl, -⟩ : r = r' ∧ _ := by simpa using h
    exact .refl r
  · rw [exec_bind_eq_ok] at h
    obtain ⟨-, -, h⟩ := h
    obtain ⟨-, -, -, -, hstatus, -⟩ := examineEntries_eq_ok h
    exact .of_ne (by simp [hstatus, enterTerm])

/-- Processing a reply keeps the counters in the log, if what was sent lies in
the log and so does what the reply suggests. -/
theorem sendAppendEntries_counters {server : Fin n} {args : AppendEntriesArgs n}
    {reply : AppendEntriesReply} {k k' : ℕ}
    (h : r.sendAppendEntries server args reply k = .ok (r', k'))
    (hcounters : r.status = .leader → r.CountersInLog)
    (hreach : args.prevLogIndex + args.entries.length ≤ r.getLastLogIndex)
    (hsuggests : reply.Suggests) (hnot : ¬r.Overshoots reply)
    (hl : r'.status = .leader) : r'.CountersInLog := by
  unfold sendAppendEntries at h
  split at h
  · obtain ⟨rfl, -⟩ : r = r' ∧ _ := by simpa using h
    exact hcounters hl
  next hconnected =>
  split at h
  · obtain ⟨rfl, -⟩ : _ = r' ∧ _ := by simpa using h
    simp [followTerm] at hl
  next hle =>
  split at h
  · obtain ⟨rfl, -⟩ : r = r' ∧ _ := by simpa using h
    exact hcounters hl
  next hge =>
  split at h
  · obtain ⟨rfl, -⟩ : r = r' ∧ _ := by simpa using h
    exact hcounters hl
  next hleads =>
  have hleads := not_not.mp hleads
  have hterm : reply.term = r.currentTerm := by omega
  have hcounters := hcounters hleads
  rw [exec_bind_eq_ok] at h
  obtain ⟨-, -, h⟩ := h
  split at h
  · next hrejected =>
      split at h
      · next hsuggested =>
          obtain ⟨rfl, -⟩ : _ = r' ∧ _ := by simpa using h
          have hpos := (hsuggests hrejected).resolve_left hsuggested
          have hin : reply.updateNextIndex ≤ r.getLastLogIndex + 1 := by
            by_contra hbehind
            exact hnot ⟨hleads, hconnected, hterm, hrejected, by omega⟩
          exact hcounters.set rfl (Function.update_eq_self server _).symm rfl
            (by omega) (by omega) (hcounters.matched server)
      · obtain ⟨rfl, -⟩ : r = r' ∧ _ := by simpa using h
        exact hcounters
  · have hmatched := hcounters.matched server
    have hraised : max (r.matchIndex server)
        (args.prevLogIndex + args.entries.length) ≤ r.getLastLogIndex := by
      omega
    rw [exec_bind_eq_ok] at h
    obtain ⟨-, -, h⟩ := h
    split at h
    · rw [exec_bind_eq_ok] at h
      obtain ⟨-, -, h⟩ := h
      obtain ⟨rfl, -⟩ : _ = r' ∧ _ := by simpa using h
      split <;>
        exact hcounters.set rfl rfl rfl (Nat.le_add_left 1 _)
          (Nat.succ_le_succ hraised) hraised
    · obtain ⟨rfl, -⟩ : _ = r' ∧ _ := by simpa using h
      exact hcounters.set rfl rfl rfl (Nat.le_add_left 1 _)
        (Nat.succ_le_succ hraised) hraised

theorem installSnapshot_keepsCounters {args : InstallSnapshotRequest n Image}
    {reply : InstallSnapshotResponse} {msg : Option (ApplyMsg Image)}
    (h : r.installSnapshot args = .ok (r', reply, msg)) :
    r.KeepsCounters r' := by
  unfold installSnapshot at h
  split at h
  · obtain ⟨rfl, -⟩ : r = r' ∧ _ := by simpa using h
    exact .refl r
  split at h
  · obtain ⟨rfl, -⟩ : _ = r' ∧ _ := by simpa using h
    exact .of_ne (by simp [enterSnapshot])
  · obtain ⟨logs, -, rfl⟩ := takeSnapshot_eq_ok h
    exact .of_ne (by simp [enterSnapshot, save])

theorem snapShotSent_counters {server : Fin n}
    {args : InstallSnapshotRequest n Image} {reply : InstallSnapshotResponse}
    (hcounters : r.status = .leader → r.CountersInLog)
    (hreach : args.lastSnapShotIncludeIndex ≤ r.getLastLogIndex)
    (hl : (r.snapShotSent server args reply).status = .leader) :
    (r.snapShotSent server args reply).CountersInLog := by
  unfold snapShotSent at hl ⊢
  split at hl
  · next hstale =>
      rw [if_pos hstale]
      exact hcounters hl
  next hcurrent =>
  split at hl
  · simp [followTerm, persist] at hl
  next hle =>
  rw [if_neg hcurrent, if_neg hle]
  exact (hcounters hl).set rfl rfl rfl (Nat.le_add_left 1 _)
    (Nat.succ_le_succ hreach) hreach

theorem snapshot_keepsCounters {index : ℕ} {image : Option Image}
    (h : r.snapshot index image = .ok r') : r.KeepsCounters r' := by
  unfold snapshot at h
  split at h
  · obtain rfl := Except.ok.inj h
    exact .refl _
  · simp only [exec_bind_eq_ok] at h
    obtain ⟨entry, -, logs, -, -, -, h⟩ := h
    obtain rfl := exec_pure_eq_ok.mp h
    exact .of_eq rfl rfl rfl rfl rfl

theorem getApplyLogs_keepsCounters {msgs : List (ℕ × Op)}
    (h : r.getApplyLogs = .ok (r', msgs)) : r.KeepsCounters r' := by
  rw [(getApplyLogs_eq_ok h).1]
  exact .of_eq rfl rfl rfl rfl rfl

end Raft

namespace Cluster

/-- The ways in which a handler changes the counters of a leader. -/
inductive CounterStep (c : Cluster n Image) (a : Action n Image) :
    Fin n → Raft n Image → Prop where
  | kept {s r} (h : (c.nodes s).KeepsCounters r) : CounterStep c a s r
  | started {s r} (hidle : (c.nodes s).status ≠ .leader)
      (h : r.CountersInLog) (hmatch : r.matchIndex = fun _ => 0) :
      CounterStep c a s r
  | replied {k : ℕ} {i r args reply nums nums'} {round : Round n Image}
      (hr : c.rounds[k]? = some round)
      (hboot : c.boots round.leader = round.boot)
      (hthread : round.threads i = .append args (.replied reply))
      (hm : (round.leader, reply) ∈ c.appendReply? a)
      (h : (c.nodes round.leader).sendAppendEntries i args reply nums =
        .ok (r, nums')) : CounterStep c a round.leader r
  | snapShotSent {k : ℕ} {i args reply} {round : Round n Image}
      (hr : c.rounds[k]? = some round)
      (hboot : c.boots round.leader = round.boot)
      (hthread : round.threads i = .snapshot args (.replied reply))
      (ha : a = .snapShotSent k i) : CounterStep c a round.leader
        ((c.nodes round.leader).snapShotSent i args reply)

variable {c c' : Cluster n Image} {a : Action n Image} {s : Fin n}
  {r : Raft n Image}

theorem Handles.counterStep (h : c.Handles a s r) (hordered : c.Ordered) :
    c.CounterStep a s r := by
  cases h with
  | doElection hdo =>
      obtain ⟨-, -, -, -, hstatus, -⟩ := Raft.doElection_eq_some hdo
      exact .kept (.of_ne (by simp [hstatus]))
  | requestVote hvote => exact .kept (Raft.requestVote_keepsCounters hvote)
  | sendRequestVote hsend =>
      rcases Raft.sendRequestVote_counters (hordered.nodes s) hsend with
        hkeeps | ⟨hidle, hnew, hmatch⟩
      · exact .kept hkeeps
      · exact .started hidle hnew hmatch
  | start command => exact .kept (Raft.start_keepsCounters _ command)
  | appendEntries1 _ happend =>
      exact .kept (Raft.appendEntries1_keepsCounters happend)
  | sendAppendEntries hr hboot hthread hm hsend =>
      exact .replied hr hboot hthread hm hsend
  | installSnapshot _ hinstall =>
      exact .kept (Raft.installSnapshot_keepsCounters hinstall)
  | snapShotSent hr hboot hthread ha =>
      exact .snapShotSent hr hboot hthread ha
  | snapshot hsnap => exact .kept (Raft.snapshot_keepsCounters hsnap)
  | applierTicker hout => exact .kept (Raft.getApplyLogs_keepsCounters hout)

/-! ## Boundaries and elections -/

theorem LogStep.boundary (h : c.LogStep a s r)
    (hboundary : (c.nodes s).BoundaryFromStart) : r.BoundaryFromStart := by
  intro hzero
  cases h with
  | same hsame =>
      rw [hsame.term]
      exact hboundary (hsame.index ▸ hzero)
  | appended _ _ _ _ hindex hterm =>
      rw [hterm]
      exact hboundary (hindex ▸ hzero)
  | accepted _ haccepts =>
      rw [Raft.Ordered.accepts_boundary haccepts]
      exact hboundary (haccepts.merges.index ▸ hzero)
  | installed hinstalls =>
      have hlt := hinstalls.lt
      have hindex := hinstalls.index
      omega
  | compacted hcompacts =>
      have hlt := hcompacts.lt
      have hindex := hcompacts.boundary
      omega

end Cluster

/-- A majority of granted votes reaches no server that leads already: the calls
left over by the first majority are too few. -/
theorem VotesTracked.not_leader {B : Ballots (Fin n)} {c : Cluster n Image}
    (h : VotesTracked B c) {e : ℕ} {election : Election n} {i : Fin n}
    {reply : RequestVoteReply} (he : c.elections[e]? = some election)
    (hcall : election.calls i = .replied reply)
    (hterm : reply.term = (c.nodes election.candidate).currentTerm)
    (hgranted : reply.voteGranted = true)
    (hcount : n / 2 + 1 ≤ election.votedNum + 1) :
    (c.nodes election.candidate).status ≠ .leader := by
  intro hl
  have hvotes := h.elections election (List.mem_of_getElem? he)
  obtain ⟨-, hopen, -, -⟩ := h.replied he hcall hgranted
  have hargs := (hvotes.granted i reply hcall hgranted).1
  have hwinner := ((h.nodes election.candidate).leader hl).1
  rw [← hterm, hargs] at hwinner
  have hleft := hvotes.won hwinner
  omega

namespace Cluster

/-- No leader processes a rejection that suggests an index behind its log and
the next entry. -/
def SuggestsInLog (c : Cluster n Image) (a : Action n Image) : Prop :=
  ∀ m ∈ c.appendReply? a, ¬(c.nodes m.1).Overshoots m.2

instance (c : Cluster n Image) (a : Action n Image) :
    Decidable (c.SuggestsInLog a) :=
  inferInstanceAs (Decidable (∀ m ∈ c.appendReply? a, _))

end Cluster

/-! ## The invariant -/

/-- What is known about a node. -/
structure NodeAssured (r : Raft n Image) : Prop where
  boundary : r.BoundaryFromStart
  counters : r.status = .leader → r.CountersInLog

/-- What is known about the request of a thread and its reply. -/
def PeerThread.Assured : PeerThread n Image → Prop
  | .append args call => args.FromStart ∧
      ∀ reply, call = .replied reply → reply.Suggests
  | .snapshot _ _ | .idle | .waiting => True

/-- The invariant behind the assertions. -/
structure Assured (B : Ballots (Fin n)) (minted : ℕ → ℕ → Option Op)
    (c : Cluster n Image) : Prop where
  recorded : Recorded B minted c
  nodes : ∀ v, NodeAssured (c.nodes v)
  rounds : ∀ round ∈ c.rounds, ∀ i, (round.threads i).Assured

namespace Assured

variable {B : Ballots (Fin n)} {minted : ℕ → ℕ → Option Op}
  {c c' : Cluster n Image} {a : Action n Image} {es : List (Event n Image)}

theorem start : Assured Ballots.blank (fun _ _ => none)
    (Cluster.start n Image) where
  recorded := .start
  nodes := fun v => ⟨fun _ => rfl, by simp [Cluster.start]⟩
  rounds := by simp [Cluster.start]

/-- In such a state no handler exits. -/
theorem not_exits (h : Assured B minted c) {s : Fin n}
    {p : Persister n Image} : ¬c.Exits a s p := by
  intro hexits
  have hnode := h.recorded.ordered.nodes
  cases hexits with
  | requestVote herror => exact Raft.requestVote_ne_error herror
  | sendRequestVote he hcall herror =>
      obtain ⟨result, hok⟩ :=
        Raft.sendRequestVote_ok (h.recorded.votes.not_leader he hcall)
      rw [hok] at herror
      cases herror
  | @doHeartBeat _ i hl _ herror =>
      have hcounters := (h.nodes s).counters hl
      obtain ⟨request, hok, -⟩ :=
        Raft.heartBeatTo_ok (hnode s).consecutive (hcounters.pos i)
          (hcounters.next i)
      rw [hok] at herror
      cases herror
  | appendEntries1 hm herror =>
      obtain ⟨r', reply, hok, -⟩ :=
        Raft.appendEntries1_ok (hnode s) (h.recorded.ordered.appendRequest hm)
          (Raft.sameCommands_of_written (h.recorded.nodes s).written
            (h.recorded.request_written hm))
      rw [hok] at herror
      cases herror
  | @sendAppendEntries k i args reply nums p round hr hboot hthread herror =>
      have hreach :=
        (h.recorded.rounds round (List.mem_of_getElem? hr)).reach hboot i
      rw [hthread] at hreach
      obtain ⟨r', nums', hok⟩ := Raft.sendAppendEntries_ok
        (hnode round.leader).last i reply nums
        (fun hl => ((h.nodes round.leader).counters hl).matched i) hreach
      rw [hok] at herror
      cases herror
  | installSnapshot _ herror =>
      obtain ⟨result, hok⟩ := Raft.installSnapshot_ok _ _
      rw [hok] at herror
      cases herror
  | snapshot herror =>
      obtain ⟨r', hok⟩ := Raft.snapshot_ok (hnode s) _ _
      rw [hok] at herror
      cases herror
  | applierTicker herror =>
      obtain ⟨result, hok⟩ := Raft.getApplyLogs_ok (hnode s)
      rw [hok] at herror
      cases herror
  | @readIndex q i p read _ _ herror =>
      obtain ⟨request, hok⟩ := Raft.readIndexArgs_ok (hnode read.server)
        i fun hl => ((h.nodes read.server).counters hl).next i
      rw [hok] at herror
      cases herror

/-- A killed process leaves the boundary it had. -/
theorem dies_boundary (h : c.Ordered) {s : Fin n} {p : Persister n Image}
    (hdies : c.Dies a s p) :
    p.stored.lastSnapshotIncludeIndex =
        (c.nodes s).lastSnapshotIncludeIndex ∧
      p.stored.lastSnapshotIncludeTerm =
        (c.nodes s).lastSnapshotIncludeTerm := by
  have hnode := h.nodes s
  cases hdies with
  | restart => exact ⟨hnode.index, hnode.boundary⟩
  | installSnapshot term =>
      have hterm := hnode.installTerm term
      have hlog := ((c.nodes s).installTerm_effect term).1.log
      exact ⟨hterm.index.trans hlog.index, hterm.boundary.trans hlog.term⟩

/-! ### Steps -/

theorem handles_counters (h : Assured B minted c) (hin : c.SuggestsInLog a)
    {s : Fin n} {r : Raft n Image} (hhandles : c.Handles a s r)
    (hl : r.status = .leader) : r.CountersInLog := by
  have hold := (h.nodes s).counters
  have hlast := (h.recorded.ordered.handles hhandles).2.last
  cases hhandles.counterStep h.recorded.ordered with
  | kept hkeeps =>
      obtain ⟨hleads, -, -, hnext, hmatch⟩ := hkeeps hl
      exact (hold hleads).keep hnext hmatch hlast
  | started _ hnew _ => exact hnew
  | @replied k i _ args reply nums nums' round hr hboot hthread hm hsend =>
      have hround := List.mem_of_getElem? hr
      have hreach := (h.recorded.rounds round hround).reach hboot i
      have hassured := h.rounds round hround i
      rw [hthread] at hreach hassured
      exact Raft.sendAppendEntries_counters hsend hold hreach
        (hassured.2 reply rfl) (hin _ hm) hl
  | @snapShotSent k i args reply round hr hboot hthread _ =>
      have hreach :=
        (h.recorded.rounds round (List.mem_of_getElem? hr)).reach hboot i
      rw [hthread] at hreach
      exact Raft.snapShotSent_counters hold hreach hl

theorem nodes_step (h : Assured B minted c) (hin : c.SuggestsInLog a)
    (hcases : c.StepCases a c') (v : Fin n) : NodeAssured (c'.nodes v) := by
  have hordered := h.recorded.ordered
  cases hcases.nodes with
  | same hnodes _ => exact hnodes ▸ h.nodes v
  | @handled s r hhandles hnodes _ =>
      rw [hnodes]
      by_cases hv : v = s
      · subst hv
        rw [Function.update_self]
        exact ⟨hhandles.logStep.boundary (h.nodes v).boundary,
          h.handles_counters hin hhandles⟩
      · rw [Function.update_of_ne hv]
        exact h.nodes v
  | @ended s p hends hnodes _ =>
      rw [hnodes]
      by_cases hv : v = s
      · subst hv
        rw [Function.update_self]
        have hdies := hends.resolve_left h.not_exits
        obtain ⟨hindex, hterm⟩ := dies_boundary hordered hdies
        have hdata := Raft.persistData_init v p
        refine ⟨fun hzero => ?_, by simp⟩
        rw [show (Raft.init v p).lastSnapshotIncludeIndex = _ from
          congrArg RaftState.lastSnapshotIncludeIndex hdata, hindex] at hzero
        rw [show (Raft.init v p).lastSnapshotIncludeTerm = _ from
          congrArg RaftState.lastSnapshotIncludeTerm hdata, hterm]
        exact (h.nodes v).boundary hzero
      · rw [Function.update_of_ne hv]
        exact h.nodes v

/-! ### Threads -/

/-- What `doHeartBeat` sends for counters in the log. -/
theorem begun (h : Assured B minted c) {s : Fin n}
    (hl : (c.nodes s).status = .leader) (i : Fin n) :
    (Cluster.heartBeatThread (c.nodes s) s i).Assured := by
  have hcounters := (h.nodes s).counters hl
  cases hthread : Cluster.heartBeatThread (c.nodes s) s i with
  | append args call =>
      obtain ⟨-, hcall, hargs⟩ := LogsTracked.heartBeatThread_eq_append hthread
      obtain ⟨request, hok, hrequest⟩ := Raft.heartBeatTo_ok
        (h.recorded.ordered.nodes s).consecutive (hcounters.pos i)
        (hcounters.next i)
      obtain rfl : request = some args := Except.ok.inj (hok.symm.trans hargs)
      refine ⟨hrequest args rfl (h.nodes s).boundary, fun reply hreply => ?_⟩
      rw [hcall] at hreply
      cases hreply
  | snapshot args call =>
      exact (LogsTracked.heartBeatThread_ne_snapshot hthread).elim
  | idle | waiting => trivial

/-- A thread advances: its request is the one it had, and a rejection suggests
an index. -/
theorem thread_step (h : Assured B minted c) {round : Round n Image}
    (hround : round ∈ c.rounds) {i : Fin n} {thread : PeerThread n Image}
    (hstep : c.ThreadStep a round i thread) : thread.Assured := by
  have hold := h.rounds round hround i
  cases hstep with
  | @answered args reply r hthread happend =>
      rw [hthread] at hold
      refine ⟨hold.1, fun reply' hreply => ?_⟩
      obtain rfl : reply = reply' := by simpa using hreply
      have hargs := h.recorded.ordered.rounds round hround i
      have hwritten := (h.recorded.rounds round hround).threads i
      rw [hthread] at hargs hwritten
      obtain ⟨r', reply', hok, hsuggests⟩ := Raft.appendEntries1_ok
        (h.recorded.ordered.nodes i) hargs (Raft.sameCommands_of_written
          (h.recorded.nodes i).written hwritten)
      obtain ⟨-, rfl⟩ := Prod.mk.inj (Except.ok.inj (happend.symm.trans hok))
      exact hsuggests (h.nodes i).boundary hold.1
  | finished hthread =>
      rw [hthread] at hold
      exact ⟨hold.1, by simp⟩
  | offered | snapshot => trivial

theorem rounds_step (h : Assured B minted c)
    (hrounds : c.RoundsStep a c'.rounds) :
    ∀ round ∈ c'.rounds, ∀ i, (round.threads i).Assured := by
  generalize c'.rounds = rounds at hrounds ⊢
  cases hrounds with
  | same => exact h.rounds
  | begun s hl => exact forall_mem_concat h.rounds (h.begun hl)
  | @advanced k i thread round nums hr hthread =>
      have hmem := List.mem_of_getElem? hr
      refine forall_mem_set h.rounds fun j => ?_
      by_cases hj : j = i
      · subst hj
        simpa [Round.setThread] using h.thread_step hmem hthread
      · simpa [Round.setThread, hj] using h.rounds round hmem j

theorem step (h : Assured B minted c) (hin : c.SuggestsInLog a)
    (hstep : c.step a = some (c', es)) :
    ∃ B' minted', Assured B' minted' c' := by
  have hcases := Cluster.step_cases hstep
  obtain ⟨B', minted', hrecorded, -⟩ := h.recorded.step hstep
  exact ⟨B', minted', hrecorded, h.nodes_step hin hcases,
    h.rounds_step hcases.rounds⟩

end Assured

/-! ## Runs -/

namespace Cluster

/-- No handler can exit in this state, and the indices behind the assertions
lie in the log. -/
structure Asserted (c : Cluster n Image) : Prop where
  exits : ∀ a s p, ¬c.Exits a s p
  commit : ∀ s, (c.nodes s).commitIndex ≤ (c.nodes s).getLastLogIndex
  next : ∀ s, (c.nodes s).status = .leader → ∀ i,
    1 ≤ (c.nodes s).nextIndex i ∧
      (c.nodes s).nextIndex i ≤ (c.nodes s).getLastLogIndex + 1

end Cluster

theorem Assured.asserted {B : Ballots (Fin n)} {minted : ℕ → ℕ → Option Op}
    {c : Cluster n Image} (h : Assured B minted c) : c.Asserted where
  exits := fun _ _ _ => h.not_exits
  commit := fun s => (h.recorded.ordered.nodes s).last
  next := fun s hl i =>
    ⟨((h.nodes s).counters hl).pos i, ((h.nodes s).counters hl).next i⟩

/-- A suggestion behind the log becomes `nextIndex`. -/
theorem Raft.Overshoots.next {r r' : Raft n Image} {server : Fin n}
    {args : AppendEntriesArgs n} {reply : AppendEntriesReply} {k k' : ℕ}
    (h : r.Overshoots reply)
    (hsend : r.sendAppendEntries server args reply k = .ok (r', k')) :
    r'.status = .leader ∧ r'.getLastLogIndex + 1 < r'.nextIndex server := by
  obtain ⟨hl, hconnected, hterm, hrejected, hbehind⟩ := h
  have hsuggested : reply.updateNextIndex ≠ -100 := by omega
  rw [Raft.sendAppendEntries, if_neg hconnected, hterm, if_neg (lt_irrefl _),
    if_neg (lt_irrefl _), if_neg (not_not.mpr hl), Raft.myAssert_ok rfl] at hsend
  simp only [bind, Except.bind, if_pos hrejected, if_pos hsuggested] at hsend
  obtain ⟨rfl, -⟩ : _ = r' ∧ _ := by simpa using hsend
  refine ⟨hl, ?_⟩
  change r.getLastLogIndex + 1 < Function.update r.nextIndex server _ server
  rw [Function.update_self]
  omega

/-- A step that processes such a suggestion leads to a state in which the next
heartbeat exits. -/
theorem Cluster.not_asserted_of_overshoots {c c' : Cluster n Image}
    {a : Action n Image} {es : List (Event n Image)} (hin : ¬c.SuggestsInLog a)
    (hc : c.Asserted) (hstep : c.step a = some (c', es)) : ¬c'.Asserted := by
  simp only [SuggestsInLog, not_forall, not_not] at hin
  obtain ⟨m, hm, hover⟩ := hin
  cases a with
  | sendAppendEntries k i =>
      obtain ⟨round, hr, hstep⟩ := Option.bind_eq_some_iff.mp hstep
      obtain ⟨round', hr', hm⟩ := Option.bind_eq_some_iff.mp hm
      obtain rfl : round = round' := Option.some.inj (hr.symm.trans hr')
      split at hm
      · next args reply hthread =>
          obtain rfl : (round.leader, reply) = m := Option.some.inj hm
          simp only [hthread] at hstep
          split at hstep
          · next hboot =>
              have hstep := Option.some.inj hstep
              unfold Cluster.sendAppendEntries at hstep
              simp only at hstep
              split at hstep
              · next herror =>
                  exact absurd (.sendAppendEntries hr hboot hthread herror)
                    (hc.exits (.sendAppendEntries k i) _ _)
              · next hsend =>
                  obtain ⟨rfl, -⟩ : _ = c' ∧ _ = es := by simpa using hstep
                  obtain ⟨hl, hbehind⟩ := hover.next hsend
                  intro hafter
                  have hnext := hafter.next round.leader
                  simp only [setNode, Function.update_self] at hnext
                  exact absurd (hnext hl i).2 (Nat.not_le_of_lt hbehind)
          · simp at hstep
      · simp at hm
  | _ => simp [appendReply?] at hm

/-- Exactly the runs in which every suggestion lies in the leader's log reach
no state in which an assertion fails. -/
theorem assertions_hold_iff {as : List (Action n Image)} {c : Cluster n Image}
    {es : List (Event n Image)}
    (hrun : (Cluster.start n Image).run as = some (c, es)) :
    (∀ as₁ as₂ c₁ es₁, as = as₁ ++ as₂ →
        (Cluster.start n Image).run as₁ = some (c₁, es₁) → c₁.Asserted) ↔
      Throughout Cluster.step Cluster.SuggestsInLog (Cluster.start n Image) as :=
  (throughout_iff_along (J := fun c => ∃ B minted, Assured B minted c)
    (fun _ ⟨_, _, hc⟩ => hc.asserted)
    (fun _ _ _ _ hin ⟨_, _, hc⟩ hstep => hc.step hin hstep)
    (fun _ _ _ _ hin ⟨_, _, hc⟩ hstep =>
      Cluster.not_asserted_of_overshoots hin hc.asserted hstep)
    ⟨_, _, .start⟩ hrun).symm

theorem assertions_hold_replicated :
    ∃ c es, (Cluster.start 3 Unit).run Cluster.replicatedRun = some (c, es) ∧
      ∀ as₁ as₂ c₁ es₁, Cluster.replicatedRun = as₁ ++ as₂ →
        (Cluster.start 3 Unit).run as₁ = some (c₁, es₁) → c₁.Asserted := by
  obtain ⟨c, es, hrun, -⟩ : ∃ c es,
      (Cluster.start 3 Unit).run Cluster.replicatedRun = some (c, es) ∧
        True := by
    decide +kernel
  exact ⟨c, es, hrun, (assertions_hold_iff hrun).mpr (by decide +kernel)⟩

/-- Server 4 wins term 2 and server 1 term 3 with two more entries, which it
commits with 0 and 2 and compacts.  Server 0 keeps the last entry of term 1, so
4 wins term 4 with its vote, and 1 answers with the index behind its
snapshot. -/
def Cluster.overshootRun : List (Action 5 Unit) :=
  [.doElection 0, .requestVote 0 1, .requestVote 0 2, .sendRequestVote 0 1,
    .sendRequestVote 0 2, .start 0 (Raft.noop 7), .start 0 (Raft.noop 7),
    .start 0 (Raft.noop 7),
    .doElection 4, .doElection 4, .requestVote 2 2, .requestVote 2 3,
    .sendRequestVote 2 2, .sendRequestVote 2 3,
    .doElection 1, .doElection 1, .requestVote 4 2, .requestVote 4 3,
    .requestVote 4 4, .sendRequestVote 4 2, .sendRequestVote 4 3,
    .start 1 (Raft.noop 8), .start 1 (Raft.noop 8),
    .doHeartBeat 1, .appendEntries 0 0, .appendEntries 0 2,
    .sendAppendEntries 0 0, .sendAppendEntries 0 2, .applierTicker 1,
    .snapshot 1 3 (some ()),
    .doElection 4, .requestVote 5 0, .requestVote 5 3, .sendRequestVote 5 0,
    .sendRequestVote 5 3, .doHeartBeat 4, .appendEntries 1 1,
    .sendAppendEntries 1 1]

/-- Server 4 sends its next heartbeat to server 1 from behind its log. -/
theorem next_behind_log :
    ∃ c es, (Cluster.start 5 Unit).run Cluster.overshootRun = some (c, es) ∧
      c.Exits (.doHeartBeat 4) 4 (c.nodes 4).persister := by
  obtain ⟨c, es, hrun, hl, hexit⟩ : ∃ c es,
      (Cluster.start 5 Unit).run Cluster.overshootRun = some (c, es) ∧
        (c.nodes 4).status = .leader ∧
        ((c.nodes 4).heartBeatTo 1).isOk = false := by
    decide +kernel
  exact ⟨c, es, hrun, .doHeartBeat hl (by decide) hexit⟩

end KVRaftStorage
