import KVRaftStorage.Raft.Campaign
import KVRaftStorage.Raft.Repair

/-!
# Bringing every follower up to date

A new leader exchanges heartbeats with one follower after the other until each
of them has accepted its log.  The exchange with one follower leaves alone what
the leader counts for the others, it commits nothing behind the leader's log,
and what a follower keeps behind that log is of earlier terms.
-/

namespace KVRaftStorage

open Replication Transition

variable {n : ℕ} {Image : Type}

namespace Raft

variable {r r' : Raft n Image} {l : List LogEntry} {T : ℕ}

/-! ## What the leader changes -/

/-- Only the commit index and the counters of one peer differ. -/
structure OnlyCounters (server : Fin n) (r r' : Raft n Image) : Prop where
  eq : r' = { r with
    commitIndex := r'.commitIndex
    nextIndex := Function.update r.nextIndex server (r'.nextIndex server)
    matchIndex := Function.update r.matchIndex server (r'.matchIndex server) }

namespace OnlyCounters

variable {server : Fin n}

theorem refl (r : Raft n Image) : OnlyCounters server r r :=
  ⟨by simp [Function.update_eq_self]⟩

theorem next (h : OnlyCounters server r r') {i : Fin n} (hi : i ≠ server) :
    r'.nextIndex i = r.nextIndex i := by
  rw [h.eq]
  exact Function.update_of_ne hi _ _

theorem matched (h : OnlyCounters server r r') {i : Fin n} (hi : i ≠ server) :
    r'.matchIndex i = r.matchIndex i := by
  rw [h.eq]
  exact Function.update_of_ne hi _ _

theorem sameLog (h : OnlyCounters server r r') : r.SameLog r' := by
  rw [h.eq]
  exact ⟨rfl, rfl, rfl⟩

theorem status (h : OnlyCounters server r r') : r'.status = r.status := by
  rw [h.eq]

theorem currentTerm (h : OnlyCounters server r r') :
    r'.currentTerm = r.currentTerm := by
  rw [h.eq]

theorem lastApplied (h : OnlyCounters server r r') :
    r'.lastApplied = r.lastApplied := by
  rw [h.eq]

/-- For the other peers the leader is as it was. -/
theorem leading (h : OnlyCounters server r r') {i : Fin n} (hi : i ≠ server)
    (hl : r.Leading i l) (hcommit : r'.commitIndex ≤ l.length) :
    r'.Leading i l :=
  hl.of_counters h.sameLog h.status hcommit (h.next hi) (h.matched hi)
    hl.next_pos hl.next_le hl.matched

end OnlyCounters

theorem sendAppendEntries_onlyCounters {server : Fin n}
    {args : AppendEntriesArgs n} {reply : AppendEntriesReply} {k k' : ℕ}
    (h : r.sendAppendEntries server args reply k = .ok (r', k'))
    (hl : r'.status = .leader) : OnlyCounters server r r' := by
  unfold sendAppendEntries at h
  split at h
  · obtain ⟨rfl, -⟩ : r = r' ∧ _ := by simpa using h
    exact .refl r
  split at h
  · obtain ⟨rfl, -⟩ : _ = r' ∧ _ := by simpa using h
    simp [followTerm] at hl
  split at h
  · obtain ⟨rfl, -⟩ : r = r' ∧ _ := by simpa using h
    exact .refl r
  split at h
  · obtain ⟨rfl, -⟩ : r = r' ∧ _ := by simpa using h
    exact .refl r
  rw [exec_bind_eq_ok] at h
  obtain ⟨-, -, h⟩ := h
  split at h
  · split at h
    · obtain ⟨rfl, -⟩ : _ = r' ∧ _ := by simpa using h
      exact ⟨by simp [Function.update_eq_self]⟩
    · obtain ⟨rfl, -⟩ : r = r' ∧ _ := by simpa using h
      exact .refl r
  · rw [exec_bind_eq_ok] at h
    obtain ⟨-, -, h⟩ := h
    split at h
    · rw [exec_bind_eq_ok] at h
      obtain ⟨-, -, h⟩ := h
      obtain ⟨rfl, -⟩ := Prod.mk.inj (exec_pure_eq_ok.mp h)
      split <;> exact ⟨by simp⟩
    · obtain ⟨rfl, -⟩ : _ = r' ∧ _ := by simpa using h
      exact ⟨by simp⟩

theorem snapShotSent_onlyCounters {server : Fin n}
    {args : InstallSnapshotRequest n Image} {reply : InstallSnapshotResponse}
    (hl : (r.snapShotSent server args reply).status = .leader) :
    OnlyCounters server r (r.snapShotSent server args reply) := by
  unfold snapShotSent at hl ⊢
  split at hl
  · next hidle =>
      rw [if_pos hidle]
      exact .refl r
  next hleads =>
  rw [if_neg hleads]
  split at hl
  · simp [followTerm, persist] at hl
  · next hle =>
      rw [if_neg hle]
      exact ⟨by simp⟩

theorem appendEntries1_appState {args : AppendEntriesArgs n}
    {reply : AppendEntriesReply}
    (h : r.appendEntries1 args = .ok (r', reply)) :
    reply.appState = .appNormal := by
  unfold appendEntries1 at h
  split at h
  · obtain ⟨-, rfl⟩ : r = r' ∧ _ = reply := by simpa using h
    rfl
  · rw [exec_bind_eq_ok] at h
    obtain ⟨-, -, h⟩ := h
    unfold examineEntries at h
    split at h
    · obtain ⟨-, rfl⟩ : _ = r' ∧ _ = reply := by simpa using h
      rfl
    split at h
    · obtain ⟨-, rfl⟩ : _ = r' ∧ _ = reply := by simpa using h
      rfl
    rw [exec_bind_eq_ok] at h
    obtain ⟨matched, -, h⟩ := h
    split at h
    · rw [exec_bind_eq_ok] at h
      obtain ⟨r₁, -, h⟩ := h
      obtain ⟨-, rfl⟩ : _ = r' ∧ _ = reply := by simpa using h
      rfl
    · simp only [exec_bind_eq_ok] at h
      obtain ⟨prevTerm, -, next, -, h⟩ := h
      obtain ⟨-, rfl⟩ : _ = r' ∧ _ = reply := by simpa using h
      rfl

/-- The reply of a follower that has everything. -/
theorem Leading.counted {server : Fin n} (h : r.Leading server l)
    {args : AppendEntriesArgs n} {reply : AppendEntriesReply}
    (hstate : reply.appState = .appNormal) (hterm : reply.term = r.currentTerm)
    (hsuccess : reply.success = true)
    (hreach : args.prevLogIndex + args.entries.length = l.length) (k : ℕ) :
    ∃ r' k', r.sendAppendEntries server args reply k = .ok (r', k') ∧
      OnlyCounters server r r' ∧ r'.Leading server l ∧
      r'.nextIndex server = l.length + 1 ∧ (k < n / 2 → k' = k + 1) ∧
      r'.commitIndex =
        if n / 2 ≤ k ∧ args.entries.getLast?.map LogEntry.logTerm =
          some r.currentTerm then l.length else r.commitIndex := by
  have hlast := h.holds.getLastLogIndex
  have hmatched := h.matched
  have hcommit := h.commit
  have hraised : max (r.matchIndex server)
      (args.prevLogIndex + args.entries.length) = l.length := by
    omega
  have hset : ∀ commitIndex ≤ l.length,
      let r₁ : Raft n Image := { r with
        commitIndex := commitIndex
        matchIndex := Function.update r.matchIndex server l.length
        nextIndex := Function.update r.nextIndex server (l.length + 1) }
      OnlyCounters server r r₁ ∧ r₁.Leading server l ∧
        r₁.nextIndex server = l.length + 1 :=
    fun commitIndex hle => ⟨⟨by simp⟩, h.of_counters ⟨rfl, rfl, rfl⟩ rfl hle
      (Function.update_self server _ _) (Function.update_self server _ _)
      (Nat.le_add_left 1 _) le_rfl le_rfl, Function.update_self server _ _⟩
  have hend : args.prevLogIndex + args.entries.length ≤ r.getLastLogIndex := by
    omega
  obtain ⟨r', k', hsend⟩ := sendAppendEntries_ok (hlast.symm ▸ h.commit) server
    reply k (fun _ => hlast.symm ▸ hmatched) hend
  refine ⟨r', k', hsend, ?_⟩
  rw [Raft.sendAppendEntries, if_neg (by simp [hstate]), if_neg (by omega),
    if_neg (by omega), if_neg (not_not.mpr h.leads), exec_bind_eq_ok] at hsend
  obtain ⟨-, -, hsend⟩ := hsend
  rw [if_neg (by simp [hsuccess]), hraised, exec_bind_eq_ok] at hsend
  obtain ⟨-, -, hsend⟩ := hsend
  split at hsend
  · next hmost =>
      rw [exec_bind_eq_ok] at hsend
      obtain ⟨-, -, hsend⟩ := hsend
      obtain ⟨rfl, -⟩ := Prod.mk.inj (exec_pure_eq_ok.mp hsend)
      have hmost : n / 2 ≤ k := by omega
      split
      · next hterm =>
          have hmax : max r.commitIndex
              (args.prevLogIndex + args.entries.length) = l.length := by omega
          obtain ⟨honly, hleading, hnext⟩ := hset l.length le_rfl
          rw [hmax, if_pos ⟨hmost, hterm⟩]
          exact ⟨honly, hleading, hnext, by omega, rfl⟩
      · next hterm =>
          obtain ⟨honly, hleading, hnext⟩ := hset r.commitIndex hcommit
          rw [if_neg fun h => hterm h.2]
          exact ⟨honly, hleading, hnext, by omega, rfl⟩
  · next hfew =>
      obtain ⟨rfl, rfl⟩ := Prod.mk.inj (exec_pure_eq_ok.mp hsend)
      obtain ⟨honly, hleading, hnext⟩ := hset r.commitIndex hcommit
      exact ⟨honly, hleading, hnext, fun _ => rfl,
        (if_neg fun h => by omega).symm⟩

/-! ## What a follower keeps -/

/-- Nothing behind `l` is committed, and what is kept there is of terms before
`T`. -/
structure Behind (r : Raft n Image) (l : List LogEntry) (T : ℕ) : Prop where
  commit : r.commitIndex ≤ l.length
  older : ∀ e ∈ r.logs, l.length < e.logIndex → e.logTerm < T

theorem mergeEntry_mem {log : LogEntry} (h : r.mergeEntry log = .ok r') :
    ∀ e ∈ r'.logs, e ∈ r.logs ∨ e = log := by
  intro e he
  unfold mergeEntry at h
  split at h
  · obtain rfl := Except.ok.inj h
    simpa using he
  · simp only [exec_bind_eq_ok] at h
    obtain ⟨slice, -, here, -, -, -, h⟩ := h
    split at h
    · obtain rfl := exec_pure_eq_ok.mp h
      exact List.mem_or_eq_of_mem_set he
    · obtain rfl := exec_pure_eq_ok.mp h
      exact .inl he

theorem mergeLoop_mem {entries : List LogEntry}
    (h : entries.foldlM mergeEntry r = .ok r') :
    ∀ e ∈ r'.logs, e ∈ r.logs ∨ e ∈ entries := by
  induction entries generalizing r with
  | nil =>
      obtain rfl := exec_pure_eq_ok.mp h
      exact fun e he => .inl he
  | cons log entries ih =>
      rw [List.foldlM_cons, exec_bind_eq_ok] at h
      obtain ⟨r₁, hfirst, hrest⟩ := h
      intro e he
      rcases ih hrest e he with he | he
      · rcases mergeEntry_mem hfirst e he with he | rfl
        · exact .inl he
        · exact .inr (by simp)
      · exact .inr (by simp [he])

namespace Behind

theorem of_quiet (h : r.Behind l T) (hquiet : r.Quiet r') : r'.Behind l T where
  commit := hquiet.commit.trans_le h.commit
  older := hquiet.log.logs ▸ h.older

/-- A request that is cut out of `l`. -/
theorem appendEntries1 (h : r.Behind l T) (hl : Indexed l)
    {args : AppendEntriesArgs n} {reply : AppendEntriesReply}
    (hentries : args.entries = l.drop args.prevLogIndex)
    (hcommit : args.leaderCommit ≤ l.length)
    (hok : r.appendEntries1 args = .ok (r', reply)) : r'.Behind l T := by
  rcases appendEntries1_eq_ok hok with ⟨-, hquiet, -⟩ | haccepts
  · exact h.of_quiet hquiet
  constructor
  · have hold := h.commit
    rw [haccepts.merges.commit]
    split <;> omega
  · obtain ⟨r₁, r₂, hsame₁, hloop, hsame₂, -⟩ := haccepts.merges.loop
    intro e he hindex
    rw [hsame₂.logs] at he
    rcases mergeLoop_mem hloop e he with he | he
    · exact h.older e (hsame₁.logs ▸ he) hindex
    · -- an entry of the request has an index in `l`
      obtain ⟨k, hk⟩ := List.mem_iff_getElem?.mp he
      rw [hentries, List.getElem?_drop] at hk
      have := hl _ e hk
      have := (List.getElem?_eq_some_iff.mp hk).1
      omega

/-- A snapshot of a prefix of `l`. -/
theorem installSnapshot (h : r.Behind l T)
    {args : InstallSnapshotRequest n Image} {reply : InstallSnapshotResponse}
    {msg : Option (ApplyMsg Image)}
    (hle : args.lastSnapShotIncludeIndex ≤ l.length)
    (hok : r.installSnapshot args = .ok (r', reply, msg)) : r'.Behind l T := by
  rcases installSnapshot_eq_ok hok with ⟨hquiet, -⟩ | hinstalls
  · exact h.of_quiet hquiet
  constructor
  · rw [hinstalls.commit]
    exact Nat.max_le.mpr ⟨h.commit, hle⟩
  · intro e he hindex
    refine h.older e ?_ hindex
    rw [hinstalls.logs] at he
    split at he
    · exact List.mem_of_mem_drop he
    · simp at he

end Behind

/-! ## A round for one peer -/

namespace CanRepair

variable {server : Fin n} {leader follower leader' follower' : Raft n Image}
  {l' l'' : List LogEntry} {success : Bool}

/-- An exchange leaves the rest of the leader alone, and what the follower
keeps behind the log of the leader stays old. -/
theorem exchange_keeps (h : CanRepair server leader follower l l')
    (hbehind : follower.Behind l T)
    (hok : leader.exchange server follower = .ok (leader', follower', success))
    (h' : CanRepair server leader' follower' l l'') :
    OnlyCounters server leader leader' ∧ follower'.Behind l T ∧
      (success = true → leader'.nextIndex server = l.length + 1) := by
  have hholds := h.leading.holds
  simp only [exchange, exec_bind_eq_ok] at hok
  obtain ⟨sent, hsent, hok⟩ := hok
  cases sent with
  | none =>
      simp only [exec_bind_eq_ok] at hok
      obtain ⟨⟨follower₁, reply, msg⟩, hinstall, hok⟩ := hok
      have hbehind' := hbehind.installSnapshot hholds.start hinstall
      split at hok
      · obtain ⟨rfl, hanswer⟩ := Prod.mk.inj (exec_pure_eq_ok.mp hok)
        obtain ⟨rfl, rfl⟩ := Prod.mk.inj hanswer
        exact ⟨.refl leader, hbehind', by simp⟩
      · obtain ⟨rfl, hanswer⟩ := Prod.mk.inj (exec_pure_eq_ok.mp hok)
        obtain ⟨rfl, rfl⟩ := Prod.mk.inj hanswer
        exact ⟨snapShotSent_onlyCounters h'.leading.leads, hbehind', by simp⟩
  | some args =>
      simp only [exec_bind_eq_ok] at hok
      obtain ⟨⟨follower₁, reply⟩, happend, ⟨leader₁, nums⟩, hsend, hok⟩ := hok
      obtain ⟨rfl, hanswer⟩ := Prod.mk.inj (exec_pure_eq_ok.mp hok)
      obtain ⟨rfl, rfl⟩ := Prod.mk.inj hanswer
      obtain ⟨hterm, hcommit, hle, -, hentries⟩ :=
        hholds.heartBeatArgs_eq_ok (Holds.heartBeatTo_eq_some hsent)
      refine ⟨sendAppendEntries_onlyCounters hsend h'.leading.leads,
        hbehind.appendEntries1 hholds.indexed hentries
          (hcommit.trans_le h.leading.commit) happend, fun hsuccess => ?_⟩
      rcases appendEntries1_eq_ok happend with ⟨hfail, -⟩ | haccepts
      · simp [hfail] at hsuccess
      · have hreach : args.prevLogIndex + args.entries.length = l.length := by
          rw [hentries, List.length_drop]
          omega
        obtain ⟨r, k, hcounted, -, -, hnext, -⟩ := h.leading.counted
          (appendEntries1_appState happend) (haccepts.replyTerm.trans hterm)
          hsuccess hreach 1
        obtain ⟨rfl, -⟩ : leader₁ = r ∧ _ :=
          Prod.mk.inj (Except.ok.inj (hsend.symm.trans hcounted))
        exact hnext

end CanRepair

end Raft

namespace Cluster

variable {c c' : Cluster n Image} {s i : Fin n}

/-! ## Enabled steps -/

/-- The round that a leader begins now. -/
def beat (c : Cluster n Image) (s : Fin n) : Round n Image where
  leader := s
  boot := c.boots s
  appendNums := 1
  threads := heartBeatThread (c.nodes s) s

/-- For every peer `doHeartBeat` passes its assertions. -/
def CanBeat (r : Raft n Image) (s : Fin n) : Prop :=
  ∀ i, i ≠ s → ∃ sent, r.heartBeatTo i = .ok sent

theorem heartBeatThread_of_ok {r : Raft n Image} (h : CanBeat r s) (hi : i ≠ s)
    {sent : Option (AppendEntriesArgs n)} (hsent : r.heartBeatTo i = .ok sent) :
    heartBeatThread r s i =
      sent.elim .waiting fun args => .append args .sent := by
  have hnot :
      ¬(i = s ∨ ∃ j, j < i ∧ j ≠ s ∧ (r.heartBeatTo j).isOk = false) := by
    rintro (rfl | ⟨j, -, hj, hfails⟩)
    · exact hi rfl
    · obtain ⟨sent, hsent⟩ := h j hj
      simp [hsent, Except.isOk, Except.toBool] at hfails
  rw [heartBeatThread, if_neg hnot, hsent]
  cases sent <;> rfl

theorem step_doHeartBeat (hl : (c.nodes s).status = .leader)
    (h : CanBeat (c.nodes s) s) :
    c.step (.doHeartBeat s) =
      some ({ c with rounds := c.rounds ++ [c.beat s] }, []) := by
  have hnot : ¬∃ i, i ≠ s ∧ ((c.nodes s).heartBeatTo i).isOk = false := by
    rintro ⟨i, hi, hfails⟩
    obtain ⟨sent, hsent⟩ := h i hi
    simp [hsent, Except.isOk, Except.toBool] at hfails
  rw [step, doHeartBeat, if_neg (by simp [hl]), if_neg hnot]
  rfl

variable {k : ℕ} {round : Round n Image}

theorem step_appendEntries {args : AppendEntriesArgs n}
    (hr : c.rounds[k]? = some round)
    (hthread : round.threads i = .append args .sent) :
    c.step (.appendEntries k i) = some (c.appendEntries k round i args) := by
  simp only [step, hr, hthread, bind, Option.bind]

theorem step_sendAppendEntries {args : AppendEntriesArgs n}
    {reply : AppendEntriesReply} (hr : c.rounds[k]? = some round)
    (hthread : round.threads i = .append args (.replied reply))
    (hboot : c.boots round.leader = round.boot) :
    c.step (.sendAppendEntries k i) =
      some (c.sendAppendEntries k round i args reply) := by
  simp only [step, hr, hthread, hboot, bind, Option.bind, if_true]

theorem step_leaderSendSnapShot (hr : c.rounds[k]? = some round)
    (hthread : round.threads i = .waiting)
    (hboot : c.boots round.leader = round.boot) :
    c.step (.leaderSendSnapShot k i) =
      some (c.setRound k (round.setThread i
        (.snapshot (c.nodes round.leader).leaderSendSnapShot .sent)), []) := by
  simp only [step, hr, hthread, hboot, bind, Option.bind, if_true]

theorem step_installSnapshot {args : InstallSnapshotRequest n Image}
    (hr : c.rounds[k]? = some round)
    (hthread : round.threads i = .snapshot args .sent) :
    c.step (.installSnapshot k i) =
      some (c.installSnapshot k round i args) := by
  simp only [step, hr, hthread, bind, Option.bind]

theorem step_snapShotSent {args : InstallSnapshotRequest n Image}
    {reply : InstallSnapshotResponse} (hr : c.rounds[k]? = some round)
    (hthread : round.threads i = .snapshot args (.replied reply))
    (hboot : c.boots round.leader = round.boot) :
    c.step (.snapShotSent k i) =
      some ((c.setRound k (round.setThread i (.snapshot args .done))).setNode
        round.leader
          ((c.nodes round.leader).snapShotSent i args reply), []) := by
  simp only [step, hr, hthread, hboot, bind, Option.bind, if_true]

/-! ## An exchange in the cluster -/

/-- Any run will do. -/
abbrev CanReach (c : Cluster n Image) (es : List (Event n Image))
    (c' : Cluster n Image) : Prop :=
  Reaches Cluster.step (fun _ _ => True) c es c'

/-- At most the two nodes differ. -/
structure OnlyNodes (s i : Fin n) (c c' : Cluster n Image) : Prop where
  others : ∀ j, j ≠ s → j ≠ i → c'.nodes j = c.nodes j

/-- A request of a round is delivered and its reply processed. -/
theorem reaches_counted {args : AppendEntriesArgs n}
    {reply : AppendEntriesReply} {leader follower : Raft n Image} {nums : ℕ}
    (hr : c.rounds[k]? = some round) (hleader : round.leader = s)
    (hboot : round.boot = c.boots s) (hi : i ≠ s)
    (hthread : round.threads i = .append args .sent)
    (happend : (c.nodes i).appendEntries1 args = .ok (follower, reply))
    (hsend : (c.nodes s).sendAppendEntries i args reply round.appendNums =
      .ok (leader, nums)) :
    ∃ c' es, c.CanReach es c' ∧ c'.nodes s = leader ∧
      c'.nodes i = follower ∧ OnlyNodes s i c c' ∧
      ∃ round', c'.rounds[k]? = some round' ∧ round'.leader = s ∧
        round'.boot = c'.boots s ∧ round'.appendNums = nums ∧
        ∀ j, j ≠ i → round'.threads j = round.threads j := by
  have hk := (List.getElem?_eq_some_iff.mp hr).1
  let answered := round.setThread i (.append args (.replied reply))
  let c₁ := (c.setRound k answered).setNode i follower
  have hstep₁ : c.step (.appendEntries k i) = some (c₁, []) := by
    rw [step_appendEntries hr hthread]
    simp only [appendEntries, happend]
    rfl
  have hr₁ : c₁.rounds[k]? = some answered := by
    simp [c₁, setNode, setRound, hk]
  have hs₁ : c₁.nodes s = c.nodes s := by
    simp [c₁, setNode, setRound, hi.symm]
  let counted : Round n Image :=
    { answered.setThread i (.append args .done) with appendNums := nums }
  let c₂ := (c₁.setRound k counted).setNode s leader
  obtain ⟨es, hstep₂⟩ : ∃ es,
      c₁.step (.sendAppendEntries k i) = some (c₂, es) := by
    have hanswered : answered.leader = s := hleader
    have hnums : answered.appendNums = round.appendNums := rfl
    rw [step_sendAppendEntries hr₁ (Function.update_self i _ _)
      ((congrArg c.boots hleader).trans hboot.symm)]
    simp only [sendAppendEntries, hanswered, hs₁, hnums, hsend]
    exact ⟨_, rfl⟩
  refine ⟨c₂, _, (Reaches.single hstep₁ trivial).concat hstep₂ trivial, ?_, ?_,
    ⟨fun j hj hji => ?_⟩, counted, ?_, hleader, hboot, rfl, fun j hj => ?_⟩
  · simp [c₂, setNode]
  · simp [c₂, hi, c₁, setNode, setRound]
  · simp [c₂, hj, hji, c₁, setNode, setRound]
  · simp [c₂, c₁, setNode, setRound, hk]
  · simp [counted, answered, Round.setThread, hj]

/-- A leader can carry out an exchange with one peer and nothing else. -/
theorem reaches_exchange (hi : i ≠ s) (hl : (c.nodes s).status = .leader)
    (hbeat : CanBeat (c.nodes s) s) {leader follower : Raft n Image}
    {success : Bool}
    (hok : (c.nodes s).exchange i (c.nodes i) =
      .ok (leader, follower, success)) :
    ∃ c' es, c.CanReach es c' ∧ c'.nodes s = leader ∧
      c'.nodes i = follower ∧ OnlyNodes s i c c' := by
  let c₁ : Cluster n Image := { c with rounds := c.rounds ++ [c.beat s] }
  have hstep₁ : c.CanReach [] c₁ :=
    .single (step_doHeartBeat hl hbeat) trivial
  have hr₁ : c₁.rounds[c.rounds.length]? = some (c.beat s) :=
    List.getElem?_concat_length
  simp only [Raft.exchange, exec_bind_eq_ok] at hok
  obtain ⟨sent, hsent, hok⟩ := hok
  have hthread := heartBeatThread_of_ok hbeat hi hsent
  cases sent with
  | none =>
      simp only [exec_bind_eq_ok] at hok
      obtain ⟨⟨follower₁, reply, msg⟩, hinstall, hok⟩ := hok
      let args := (c.nodes s).leaderSendSnapShot
      let round₂ := (c.beat s).setThread i (.snapshot args .sent)
      let c₂ := c₁.setRound c.rounds.length round₂
      have hstep₂ : c₁.step (.leaderSendSnapShot c.rounds.length i) =
          some (c₂, []) := step_leaderSendSnapShot hr₁ hthread rfl
      have hr₂ : c₂.rounds[c.rounds.length]? = some round₂ := by
        simp [c₂, c₁, setRound]
      let round₃ := round₂.setThread i (.snapshot args reply.received)
      let c₃ := (c₂.setRound c.rounds.length round₃).setNode i follower₁
      have hstep₃ : c₂.step (.installSnapshot c.rounds.length i) =
          some (c₃, []) := by
        have hnode : (c₂.nodes i).installSnapshot args =
            .ok (follower₁, reply, msg) := hinstall
        rw [step_installSnapshot hr₂ (Function.update_self i _ _)]
        simp only [installSnapshot, hnode]
        rfl
      have hreach₃ : c.CanReach _ c₃ :=
        (hstep₁.concat hstep₂ trivial).concat hstep₃ trivial
      have hs₃ : c₃.nodes s = c.nodes s := by
        simp [c₃, c₂, c₁, setNode, setRound, hi.symm]
      have hothers₃ : OnlyNodes s i c c₃ := ⟨fun j hj hji => by
        simp [hji, c₃, c₂, c₁, setNode, setRound]⟩
      split at hok
      · -- the reply is lost and the thread ends
        obtain ⟨rfl, hanswer⟩ := Prod.mk.inj (exec_pure_eq_ok.mp hok)
        obtain ⟨rfl, rfl⟩ := Prod.mk.inj hanswer
        exact ⟨c₃, _, hreach₃, hs₃, by simp [c₃, setNode], hothers₃⟩
      · next hreceived =>
          obtain ⟨rfl, hanswer⟩ := Prod.mk.inj (exec_pure_eq_ok.mp hok)
          obtain ⟨rfl, rfl⟩ := Prod.mk.inj hanswer
          have hthread₃ : round₃.threads i =
              .snapshot args (.replied reply) := by
            simp [round₃, Round.setThread,
              InstallSnapshotResponse.received, hreceived]
          have hr₃ : c₃.rounds[c.rounds.length]? = some round₃ := by
            simp [c₃, c₂, c₁, setNode, setRound]
          obtain ⟨c₄, hstep₄, hc₄⟩ : ∃ c₄ : Cluster n Image,
              c₃.step (.snapShotSent c.rounds.length i) = some (c₄, []) ∧
              c₄.nodes = Function.update c₃.nodes s
                ((c.nodes s).snapShotSent i args reply) := by
            refine ⟨_, step_snapShotSent hr₃ hthread₃ rfl, ?_⟩
            have hleader : round₃.leader = s := rfl
            simp only [hleader, hs₃]
            rfl
          refine ⟨c₄, _, hreach₃.concat hstep₄ trivial, ?_, ?_,
            ⟨fun j hj hji => ?_⟩⟩
          · simp [hc₄, args]
          · simp [hc₄, hi, c₃, setNode]
          · simp [hc₄, hj, hothers₃.others j hj hji]
  | some args =>
      simp only [exec_bind_eq_ok] at hok
      obtain ⟨⟨follower₁, reply⟩, happend, ⟨leader₁, nums⟩, hsend, hok⟩ := hok
      obtain ⟨rfl, hanswer⟩ := Prod.mk.inj (exec_pure_eq_ok.mp hok)
      obtain ⟨rfl, rfl⟩ := Prod.mk.inj hanswer
      obtain ⟨c₂, es, hreach, hs, hfollower, hothers, -⟩ :=
        reaches_counted hr₁ rfl rfl hi hthread happend hsend
      exact ⟨c₂, _, hstep₁.trans hreach, hs, hfollower, ⟨hothers.others⟩⟩

theorem CanReach.ordered {es : List (Event n Image)} (h : c.CanReach es c')
    (hc : c.Ordered) : c'.Ordered :=
  h.invariant (fun _ _ _ _ _ hc hstep => hc.step (Cluster.step_cases hstep)) hc

/-! ## All followers -/

variable {l : List LogEntry} {T : ℕ}

/-- The leader `s` of term `T` has the full log `l` and repairs every
follower. -/
structure Repairing (s : Fin n) (l : List LogEntry) (T : ℕ)
    (c : Cluster n Image) : Prop where
  term : (c.nodes s).currentTerm = T
  repair : ∀ i, i ≠ s →
    ∃ l', Raft.CanRepair i (c.nodes s) (c.nodes i) l l'
  offers : ∀ i, i ≠ s → (c.nodes s).OffersNewer i (c.nodes i)
  behind : ∀ i, i ≠ s → (c.nodes i).Behind l T

/-- The follower has accepted the log of the leader. -/
structure CaughtUp (s : Fin n) (l : List LogEntry) (i : Fin n)
    (c : Cluster n Image) : Prop where
  next : (c.nodes s).nextIndex i = l.length + 1
  follows : ∃ l', (c.nodes i).Following l l' ∧ l <+: l'

/-- Only follower `i` and what the leader knows of it have changed. -/
theorem CaughtUp.other {j : Fin n} (h : CaughtUp s l j c)
    (honly : Raft.OnlyCounters i (c.nodes s) (c'.nodes s))
    (hothers : OnlyNodes s i c c') (hj : j ≠ s) (hji : j ≠ i) :
    CaughtUp s l j c' := by
  refine ⟨(honly.next hji).trans h.next, ?_⟩
  rw [hothers.others j hj hji]
  exact h.follows

namespace Repairing

/-- The same, as long as follower `i` can still be repaired. -/
theorem peer (h : Repairing s l T c)
    (honly : Raft.OnlyCounters i (c.nodes s) (c'.nodes s))
    (hothers : OnlyNodes s i c c') {l' : List LogEntry}
    (hrepair : Raft.CanRepair i (c'.nodes s) (c'.nodes i) l l')
    (hoffers : (c'.nodes s).OffersNewer i (c'.nodes i))
    (hbehind : (c'.nodes i).Behind l T) : Repairing s l T c' := by
  refine ⟨honly.currentTerm.trans h.term, fun j hj => ?_, fun j hj => ?_,
    fun j hj => ?_⟩ <;> by_cases hji : j = i
  · exact hji ▸ ⟨l', hrepair⟩
  · obtain ⟨lj, hj'⟩ := h.repair j hj
    rw [hothers.others j hj hji]
    exact ⟨lj, honly.leading hji hj'.leading hrepair.leading.commit,
      hj'.following, hj'.term.trans honly.currentTerm.ge,
      hj'.term_pos.trans_eq honly.currentTerm.symm⟩
  · exact hji ▸ hoffers
  · rw [Raft.OffersNewer, honly.next hji, honly.sameLog.index,
      hothers.others j hj hji]
    exact h.offers j hj
  · exact hji ▸ hbehind
  · exact hothers.others j hj hji ▸ h.behind j hj

theorem canBeat (h : Repairing s l T c) : CanBeat (c.nodes s) s := by
  intro i hi
  obtain ⟨l', hrepair⟩ := h.repair i hi
  by_cases hle : (c.nodes s).nextIndex i ≤
      (c.nodes s).lastSnapshotIncludeIndex
  · exact ⟨none, Raft.heartBeatTo_snapshot hrepair.leading.next_pos hle⟩
  · obtain ⟨args, hargs, -⟩ := hrepair.leading.holds.heartBeatTo_sends
      (Nat.lt_of_not_le hle) hrepair.leading.next_le
    exact ⟨some args, hargs⟩

/-- A round for one follower succeeds or brings it closer, and leaves the
others alone. -/
theorem beat_one (h : Repairing s l T c) (hi : i ≠ s) :
    ∃ c' es, c.CanReach es c' ∧ Repairing s l T c' ∧
      (CaughtUp s l i c' ∨
        (c'.nodes s).roundsLeft i (c'.nodes i) <
          (c.nodes s).roundsLeft i (c.nodes i)) ∧
      ∀ j, j ≠ s → j ≠ i → CaughtUp s l j c → CaughtUp s l j c' := by
  obtain ⟨l', hrepair⟩ := h.repair i hi
  obtain ⟨leader, follower, l'', success, hok, hrepair', hoffers, hresult⟩ :=
    hrepair.exchange_step (h.offers i hi)
  obtain ⟨honly, hbehind, hnext⟩ :=
    hrepair.exchange_keeps (h.behind i hi) hok hrepair'
  obtain ⟨c', es, hreach, rfl, rfl, hothers⟩ :=
    reaches_exchange hi hrepair.leading.leads h.canBeat hok
  refine ⟨c', es, hreach, h.peer honly hothers hrepair' hoffers hbehind, ?_,
    fun j hj hji hcaught => hcaught.other honly hothers hj hji⟩
  rcases hresult with ⟨rfl, hext⟩ | ⟨-, hfewer⟩
  · exact .inl ⟨hnext rfl, l'', hrepair'.following, hext⟩
  · exact .inr hfewer

/-- One follower catches up, and nobody falls behind again. -/
theorem reaches_one (h : Repairing s l T c) (hi : i ≠ s) :
    ∃ c' es, c.CanReach es c' ∧ Repairing s l T c' ∧ CaughtUp s l i c' ∧
      ∀ j, j ≠ s → j ≠ i → CaughtUp s l j c → CaughtUp s l j c' := by
  obtain ⟨c', es, hreach, ⟨h', hothers⟩, hcaught⟩ := Reaches.descend
    (I := fun c' => Repairing s l T c' ∧ ∀ j, j ≠ s → j ≠ i →
      CaughtUp s l j c → CaughtUp s l j c')
    (fun c' => (c'.nodes s).roundsLeft i (c'.nodes i))
    (fun c₁ ⟨h₁, hothers⟩ _ => by
      obtain ⟨c₂, es, hreach, h₂, hresult, hkeeps⟩ := h₁.beat_one hi
      exact ⟨c₂, es, hreach, ⟨h₂, fun j hj hji hcaught =>
        hkeeps j hj hji (hothers j hj hji hcaught)⟩, hresult⟩)
    ⟨h, fun _ _ _ hcaught => hcaught⟩
  exact ⟨c', es, hreach, h', hcaught, hothers⟩

/-- One follower after the other catches up. -/
theorem reaches_caughtUp (h : Repairing s l T c) :
    ∃ c' es, c.CanReach es c' ∧ Repairing s l T c' ∧
      ∀ i, i ≠ s → CaughtUp s l i c' := by
  have hpeers : ∀ i, i ∈ (Finset.univ.erase s).toList ↔ i ≠ s := by simp
  have hnodup := (Finset.univ.erase s).nodup_toList
  obtain ⟨c', es, hreach, h', hall⟩ := Reaches.each
    (I := fun done c _ => Repairing s l T c ∧ ∀ i ∈ done, CaughtUp s l i c)
    (Finset.univ.erase s).toList
    (fun done i rest c₁ _ his ⟨h₁, hdone⟩ => by
      have hi : i ≠ s := (hpeers i).mp (by simp [his])
      obtain ⟨c₂, es, hreach, h₂, hcaught, hothers⟩ := h₁.reaches_one hi
      refine ⟨c₂, es, hreach, h₂, fun j hj => ?_⟩
      rcases List.mem_append.mp hj with hserved | hlast
      · refine hothers j ((hpeers j).mp (by simp [his, hserved])) ?_
          (hdone j hserved)
        rintro rfl
        rw [his, List.nodup_append] at hnodup
        exact hnodup.2.2 j hserved j (by simp) rfl
      · exact List.mem_singleton.mp hlast ▸ hcaught) ⟨h, by simp⟩
  exact ⟨c', es, hreach, h', fun i hi => hall i ((hpeers i).mpr hi)⟩

end Repairing

end Cluster

end KVRaftStorage
