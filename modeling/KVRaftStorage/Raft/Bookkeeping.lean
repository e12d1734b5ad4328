import KVRaftStorage.Raft.CommitRule
import KVRaftStorage.Raft.Tally

/-!
# What `m_matchIndex` stands for

Two handlers raise the counts of a leader: `sendAppendEntries` takes the maximum
of the old count and what the reply acknowledges, `leaderSendSnapShot` assigns
the index of its snapshot.  In every run each count is backed by a reply to a
request of the current term.  Replies overtake each other, though: a snapshot
that was sent long ago sets the count back.
-/

namespace KVRaftStorage

open Replication Transition

variable {n : ℕ} {Image : Type}

/-! ## Acknowledgements -/

/-- The term and the index that the reply of a thread acknowledges.  A rejected
snapshot is answered with a larger term. -/
def PeerThread.acknowledged? : PeerThread n Image → Option (ℕ × ℕ)
  | .append args (.replied reply) =>
      if reply.success = true then
        some (reply.term, args.prevLogIndex + args.entries.length)
      else none
  | .snapshot args (.replied reply) =>
      if reply.term ≤ args.term then
        some (args.term, args.lastSnapShotIncludeIndex)
      else none
  | _ => none

/-- A server that does not answer an InstallSnapshot with a larger term covers
the snapshot. -/
theorem Raft.installSnapshot_covers {r r' : Raft n Image}
    {args : InstallSnapshotRequest n Image} {reply : InstallSnapshotResponse}
    {msg : Option (ApplyMsg Image)}
    (h : r.installSnapshot args = .ok (r', reply, msg))
    (hreply : reply.term ≤ args.term) :
    args.lastSnapShotIncludeIndex ≤ r'.lastSnapshotIncludeIndex := by
  unfold Raft.installSnapshot at h
  split at h
  · next hlt =>
      obtain ⟨rfl, rfl, -⟩ : r = r' ∧ _ = reply ∧ _ := by simpa using h
      exact absurd hlt (Nat.not_lt_of_le hreply)
  split at h
  · next hle =>
      obtain ⟨rfl, -⟩ : _ = r' ∧ _ := by simpa using h
      exact hle
  · obtain ⟨logs, -, rfl⟩ := Raft.takeSnapshot_eq_ok h
    exact le_rfl

namespace Cluster

/-- On the run server `i` has answered a request of server `s` and term `T`, and
then it held the log that `s` had when it sent the request, whose last index is
`N`, or covered the snapshot up to `N` that the request carried. -/
inductive Acknowledged (as : List (Action n Image)) (s i : Fin n)
    (T N : ℕ) : Prop where
  | log {k : ℕ} {c₀ c : Cluster n Image} {round args reply}
      (hvisits : Visits as c₀) (hleads : (c₀.nodes s).status = .leader)
      (hterm : (c₀.nodes s).currentTerm = T)
      (hlast : (c₀.nodes s).getLastLogIndex = N)
      (hsent : (c₀.nodes s).heartBeatTo i = .ok (some args))
      (htakes : Takes step (start n Image) as (.appendEntries k i) c)
      (hr : c.rounds[k]? = some round) (hleader : round.leader = s)
      (hthread : round.threads i = .append args (.replied reply))
      (hsuccess : reply.success = true)
      (hholds : (c₀.nodes s).HoldsLast reply (c.nodes i))
  | snapshot {k : ℕ} {c : Cluster n Image} {round args reply}
      (htakes : Takes step (start n Image) as (.installSnapshot k i) c)
      (hr : c.rounds[k]? = some round) (hleader : round.leader = s)
      (hthread : round.threads i = .snapshot args (.replied reply))
      (hterm : args.term = T) (hreply : reply.term ≤ T)
      (hindex : args.lastSnapShotIncludeIndex = N)
      (hcovers : N ≤ (c.nodes i).lastSnapshotIncludeIndex)

variable {as : List (Action n Image)} {c c' : Cluster n Image}
  {a : Action n Image} {es es' : List (Event n Image)} {s i : Fin n}
  {T N : ℕ}

theorem Acknowledged.concat (h : Acknowledged as s i T N)
    (a : Action n Image) : Acknowledged (as ++ [a]) s i T N := by
  cases h with
  | log hvisits hleads hterm hlast hsent htakes hr hleader hthread hsuccess
      hholds =>
      exact .log (hvisits.concat a) hleads hterm hlast hsent (htakes.concat a)
        hr hleader hthread hsuccess hholds
  | snapshot htakes hr hleader hthread hterm hreply hindex hcovers =>
      exact .snapshot (htakes.concat a) hr hleader hthread hterm hreply hindex
        hcovers

/-- A successful reply to a heartbeat. -/
theorem acknowledged_answered (hrun : (start n Image).run as = some (c, es))
    {k : ℕ} {args : AppendEntriesArgs n} {reply : AppendEntriesReply}
    {round : Round n Image} (hr : c.rounds[k]? = some round)
    (hthread : round.threads i = .append args .sent)
    (happend : (c.nodes i).appendEntries1 args = .ok (c'.nodes i, reply))
    (hsuccess : reply.success = true)
    (hstep : c.step (.appendEntries k i) = some (c', es'))
    (hr' : c'.rounds[k]? =
      some (round.setThread i (.append args (.replied reply)))) :
    Acknowledged (as ++ [.appendEntries k i]) round.leader i reply.term
      (args.prevLogIndex + args.entries.length) := by
  obtain ⟨B, minted, hc⟩ := recorded_of_run hrun
  obtain ⟨c₀, hknown⟩ := rounds_known hrun k round hr
  obtain ⟨as₁, as₂, es₁, -, hfirst⟩ := hknown.visits
  obtain ⟨B₀, minted₀, hc₀⟩ := recorded_of_run hfirst
  -- what the leader sent reaches to its last entry
  have hsent := hknown.begun.sent i args .sent hthread
  have hreach := (Raft.heartBeatTo_sends hsent).1
  obtain ⟨hterm, hlast⟩ := (hc₀.ordered.nodes _).heartBeatTo_lastTerm hsent
  -- and the server that accepts it has that entry then
  have hmem := List.mem_of_getElem? hr
  have hargs := hc.ordered.rounds round hmem i
  have hwritten := (hc.rounds round hmem).threads i
  rw [hthread] at hargs hwritten
  obtain ⟨hreply, hcurrent, hheld⟩ := (hc.ordered.nodes i).accepts_lastTerm
    hargs (Raft.sameCommands_of_written (hc.nodes i).written hwritten) happend
    hsuccess
  rw [hreach, hlast] at hheld
  exact .log (hknown.visits.concat _) hknown.begun.leads
    (hterm.symm.trans hreply.symm) hreach.symm hsent (.last hrun hstep) hr' rfl
    (by simp [Round.setThread]) hsuccess
    ⟨hreply.trans hterm, hcurrent.trans hterm, hheld⟩

/-- What a reply that waits to be processed acknowledges. -/
theorem replies_acknowledged (hrun : (start n Image).run as = some (c, es)) :
    ∀ (k : ℕ) (round : Round n Image), c.rounds[k]? = some round →
      ∀ i T N, (round.threads i).acknowledged? = some (T, N) →
        Acknowledged as round.leader i T N := by
  refine run_lookback (I := fun as c => ∀ (k : ℕ) (round : Round n Image),
    c.rounds[k]? = some round → ∀ i T N,
      (round.threads i).acknowledged? = some (T, N) →
        Acknowledged as round.leader i T N) (by simp [start]) ?_ hrun
  intro as c es a c' es' hrun ih hstep k round hnew
  -- the threads that do not move
  have hothers : ∀ (old : Round n Image) (thread : PeerThread n Image)
      (j : Fin n), c.rounds[k]? = some old →
      (∀ T N, thread.acknowledged? = some (T, N) →
        Acknowledged (as ++ [a]) old.leader j T N) →
      ∀ i T N, ((old.setThread j thread).threads i).acknowledged? =
        some (T, N) → Acknowledged (as ++ [a]) old.leader i T N := by
    intro old thread j hr hmoved i T N hack
    by_cases hij : i = j
    · subst hij
      exact hmoved T N (by simpa [Round.setThread] using hack)
    · refine (ih k old hr i T N ?_).concat a
      simpa [Round.setThread, hij] using hack
  cases round_step hstep hnew with
  | same hr => exact fun i T N hack => (ih k round hr i T N hack).concat a
  | @begun s hl _ =>
      intro i T N hack
      cases hthread : heartBeatThread (c.nodes s) s i with
      | append args call =>
          obtain ⟨-, rfl, -⟩ := LogsTracked.heartBeatThread_eq_append hthread
          simp [hthread, PeerThread.acknowledged?] at hack
      | snapshot args call =>
          exact (LogsTracked.heartBeatThread_ne_snapshot hthread).elim
      | idle | waiting => simp [hthread, PeerThread.acknowledged?] at hack
  | @answered j args reply old ha hr hthread happend =>
      subst ha
      refine hothers old _ j hr fun T N hack => ?_
      obtain ⟨hsuccess, rfl, rfl⟩ : reply.success = true ∧ reply.term = T ∧
          args.prevLogIndex + args.entries.length = N := by
        simpa [PeerThread.acknowledged?] using hack
      exact acknowledged_answered hrun hr hthread happend hsuccess hstep hnew
  | tallied _ hr =>
      exact hothers _ _ _ hr (by simp [PeerThread.acknowledged?])
  | dropped hr =>
      exact hothers _ _ _ hr (by simp [PeerThread.acknowledged?])
  | @snapshot j args call old hr _ hcall =>
      refine hothers old _ j hr fun T N hack => ?_
      cases call with
      | sent | done => simp [PeerThread.acknowledged?] at hack
      | replied reply =>
          obtain ⟨hle, rfl, rfl⟩ : reply.term ≤ args.term ∧ args.term = T ∧
              args.lastSnapShotIncludeIndex = N := by
            simpa [PeerThread.acknowledged?] using hack
          obtain ⟨rfl, msg, hinstall⟩ := hcall reply rfl
          exact .snapshot (.last hrun hstep) hnew rfl
            (by simp [Round.setThread]) rfl hle rfl
            (Raft.installSnapshot_covers hinstall hle)

end Cluster

/-! ## What a handler does to the counts -/

namespace Raft

variable {r r' : Raft n Image} {server : Fin n}
  {args : InstallSnapshotRequest n Image} {reply : InstallSnapshotResponse}

/-- The reply to a snapshot does not set back the count that it is about to
replace. -/
def KeepsMatch (r : Raft n Image) (server : Fin n)
    (args : InstallSnapshotRequest n Image) (reply : InstallSnapshotResponse) :
    Prop :=
  r.status = .leader ∧ r.currentTerm = args.term ∧
      reply.term ≤ r.currentTerm →
    r.matchIndex server ≤ args.lastSnapShotIncludeIndex

instance (r : Raft n Image) (server : Fin n)
    (args : InstallSnapshotRequest n Image) (reply : InstallSnapshotResponse) :
    Decidable (r.KeepsMatch server args reply) :=
  inferInstanceAs (Decidable (_ → _))

/-- What a leader makes of a reply to a snapshot. -/
theorem snapShotSent_counts
    (hl : (r.snapShotSent server args reply).status = .leader) :
    r.status = .leader ∧
      (r.snapShotSent server args reply).currentTerm = r.currentTerm ∧
      ((r.currentTerm ≠ args.term ∧
          (r.snapShotSent server args reply).matchIndex = r.matchIndex) ∨
        (r.currentTerm = args.term ∧ reply.term ≤ r.currentTerm ∧
          (r.snapShotSent server args reply).matchIndex =
            Function.update r.matchIndex server
              args.lastSnapShotIncludeIndex)) := by
  unfold snapShotSent at hl ⊢
  split at hl
  · next hstale =>
      rw [if_pos hstale]
      exact ⟨hl, rfl, .inl ⟨hstale.resolve_left fun h => h hl, rfl⟩⟩
  next hcurrent =>
  split at hl
  · simp [followTerm, persist] at hl
  next hle =>
  obtain ⟨-, hterm⟩ := not_or.mp hcurrent
  rw [if_neg hcurrent, if_neg hle]
  exact ⟨hl, rfl, .inr ⟨not_not.mp hterm, Nat.le_of_not_lt hle, rfl⟩⟩

theorem snapShotSent_of_current (hl : r.status = .leader)
    (hterm : r.currentTerm = args.term) (hreply : reply.term ≤ r.currentTerm) :
    r.snapShotSent server args reply =
      { r with
        matchIndex :=
          Function.update r.matchIndex server args.lastSnapShotIncludeIndex
        nextIndex :=
          Function.update r.nextIndex server
            (args.lastSnapShotIncludeIndex + 1) } := by
  unfold snapShotSent
  rw [if_neg (by simp [hl, hterm]), if_neg (Nat.not_lt_of_le hreply)]

end Raft

namespace Cluster

variable {as : List (Action n Image)} {c c' c₁ c₂ c₃ : Cluster n Image}
  {a : Action n Image} {es es' : List (Event n Image)} {s i : Fin n}
  {r : Raft n Image}

/-- The reply to a snapshot that a step processes, with its leader, its sender
and its request. -/
def sentSnapshot? (c : Cluster n Image) : Action n Image →
    Option (Fin n × Fin n × InstallSnapshotRequest n Image ×
      InstallSnapshotResponse)
  | .snapShotSent k i => do
      let round ← c.rounds[k]?
      match round.threads i with
      | .snapshot args (.replied reply) => some (round.leader, i, args, reply)
      | _ => none
  | _ => none

/-- No reply to a snapshot was overtaken. -/
def KeepsMatch (c : Cluster n Image) (a : Action n Image) : Prop :=
  ∀ m ∈ c.sentSnapshot? a,
    (c.nodes m.1).KeepsMatch m.2.1 m.2.2.1 m.2.2.2

instance (c : Cluster n Image) (a : Action n Image) :
    Decidable (c.KeepsMatch a) :=
  inferInstanceAs (Decidable (∀ m ∈ c.sentSnapshot? a, _))

/-- The server leads the same term in both states. -/
def LeadsOn (c c' : Cluster n Image) (s : Fin n) : Prop :=
  (c.nodes s).status = .leader ∧ (c'.nodes s).status = .leader ∧
    (c'.nodes s).currentTerm = (c.nodes s).currentTerm

instance (c c' : Cluster n Image) (s : Fin n) : Decidable (c.LeadsOn c' s) :=
  inferInstanceAs (Decidable (_ ∧ _))

/-- No leader counts less than before. -/
def MatchGrows (c c' : Cluster n Image) : Prop :=
  ∀ s, LeadsOn c c' s → ∀ i,
    (c.nodes s).matchIndex i ≤ (c'.nodes s).matchIndex i

/-- Every count of a leader is backed by an acknowledgement. -/
def Booked (as : List (Action n Image)) (c : Cluster n Image) : Prop :=
  ∀ s, (c.nodes s).status = .leader → ∀ i,
    (c.nodes s).matchIndex i = 0 ∨
      ∃ N, Acknowledged as s i (c.nodes s).currentTerm N ∧
        (c.nodes s).matchIndex i ≤ N

/-- A handler at a leader keeps its counts, or raises them to what was
acknowledged. -/
theorem Booked.handles (h : Booked as c)
    (hrun : (start n Image).run as = some (c, es)) (hordered : c.Ordered)
    (hhandles : c.Handles a s r) (hl : r.status = .leader) (i : Fin n) :
    r.matchIndex i = 0 ∨
      ∃ N, Acknowledged as s i r.currentTerm N ∧ r.matchIndex i ≤ N := by
  cases hhandles.counterStep hordered with
  | kept hkeeps =>
      obtain ⟨hleads, -, hterm, -, hmatch⟩ := hkeeps hl
      rw [hterm, hmatch]
      exact h _ hleads i
  | started _ _ hmatch =>
      left
      rw [hmatch]
  | @replied k server _ args reply nums nums' round hr hboot hthread _ hsend =>
      obtain ⟨hleads, -, -, hterm, hcounts⟩ :=
        Raft.sendAppendEntries_counts hsend hl
      have hold := h _ hleads i
      rw [hterm]
      rcases hcounts with ⟨hmatch, -⟩ | ⟨-, hreply, hsuccess, hmatch, -⟩
      · rwa [hmatch]
      · rw [hmatch]
        by_cases hi : i = server
        · subst hi
          rw [Function.update_self]
          have hack : Acknowledged as round.leader i
              (c.nodes round.leader).currentTerm
              (args.prevLogIndex + args.entries.length) :=
            replies_acknowledged hrun k round hr i _ _
              (by simp [hthread, PeerThread.acknowledged?, hsuccess, hreply])
          rcases le_total ((c.nodes round.leader).matchIndex i)
            (args.prevLogIndex + args.entries.length) with hle | hle
          · rw [max_eq_right hle]
            exact .inr ⟨_, hack, le_rfl⟩
          · rwa [max_eq_left hle]
        · rwa [Function.update_of_ne hi]
  | @snapShotSent k server args reply round hr hboot hthread _ =>
      obtain ⟨hleads, hterm, hcounts⟩ := Raft.snapShotSent_counts hl
      have hold := h _ hleads i
      rw [hterm]
      rcases hcounts with ⟨-, hmatch⟩ | ⟨hcurrent, hreply, hmatch⟩
      · rwa [hmatch]
      · rw [hmatch]
        by_cases hi : i = server
        · subst hi
          rw [Function.update_self]
          refine .inr ⟨_, replies_acknowledged hrun k round hr i _ _ ?_, le_rfl⟩
          simp [hthread, PeerThread.acknowledged?, ← hcurrent, hreply]
        · rwa [Function.update_of_ne hi]

/-- The counts of every leader stand for acknowledgements, whatever order the
replies come in. -/
theorem booked_of_run (hrun : (start n Image).run as = some (c, es)) :
    Booked as c := by
  refine run_lookback (I := Booked) (by simp [Booked, start]) ?_ hrun
  intro as c es a c' es' hrun h hstep s hl i
  have hlater : ∀ {r : Raft n Image}, (r.matchIndex i = 0 ∨
      ∃ N, Acknowledged as s i r.currentTerm N ∧ r.matchIndex i ≤ N) →
      r.matchIndex i = 0 ∨ ∃ N, Acknowledged (as ++ [a]) s i r.currentTerm N ∧
        r.matchIndex i ≤ N := by
    rintro r (hzero | ⟨N, hack, hle⟩)
    · exact .inl hzero
    · exact .inr ⟨N, hack.concat a, hle⟩
  cases (step_cases hstep).nodes with
  | same hnodes _ =>
      rw [hnodes] at hl ⊢
      exact hlater (h s hl i)
  | @handled v r hhandles hnodes _ =>
      rw [hnodes] at hl ⊢
      by_cases hv : s = v
      · subst hv
        rw [Function.update_self] at hl ⊢
        exact hlater (h.handles hrun (ordered_of_run hrun) hhandles hl i)
      · rw [Function.update_of_ne hv] at hl ⊢
        exact hlater (h s hl i)
  | @ended v p _ hnodes _ =>
      rw [hnodes] at hl ⊢
      by_cases hv : s = v
      · subst hv
        simp at hl
      · rw [Function.update_of_ne hv] at hl ⊢
        exact hlater (h s hl i)

/-! ## Counts that do not go back -/

theorem Handles.matchIndex_le (hhandles : c.Handles a s r)
    (hordered : c.Ordered) (hkeeps : c.KeepsMatch a)
    (hleads : (c.nodes s).status = .leader) (hl : r.status = .leader)
    (i : Fin n) : (c.nodes s).matchIndex i ≤ r.matchIndex i := by
  cases hhandles.counterStep hordered with
  | kept hkept =>
      obtain ⟨-, -, -, -, hmatch⟩ := hkept hl
      exact hmatch.ge i
  | started hidle => exact absurd hleads hidle
  | @replied k server _ args reply nums nums' round _ _ _ _ hsend =>
      obtain ⟨-, -, -, -, hcounts⟩ := Raft.sendAppendEntries_counts hsend hl
      rcases hcounts with ⟨hmatch, -⟩ | ⟨-, -, -, hmatch, -⟩
      · exact hmatch.ge i
      · rw [hmatch]
        by_cases hi : i = server
        · subst hi
          rw [Function.update_self]
          exact Nat.le_max_left _ _
        · rw [Function.update_of_ne hi]
  | @snapShotSent k server args reply round hr hboot hthread ha =>
      subst ha
      obtain ⟨-, -, hcounts⟩ := Raft.snapShotSent_counts hl
      rcases hcounts with ⟨-, hmatch⟩ | ⟨hcurrent, hreply, hmatch⟩
      · exact hmatch.ge i
      · rw [hmatch]
        by_cases hi : i = server
        · subst hi
          rw [Function.update_self]
          exact hkeeps (round.leader, i, args, reply)
            (by simp [sentSnapshot?, hr, hthread]) ⟨hleads, hcurrent, hreply⟩
        · rw [Function.update_of_ne hi]

/-- A step that processes no overtaken snapshot sets no count back. -/
theorem KeepsMatch.grows (h : c.KeepsMatch a) (hordered : c.Ordered)
    (hstep : c.step a = some (c', es)) : MatchGrows c c' := by
  rintro s ⟨hleads, hl, -⟩ i
  cases (step_cases hstep).nodes with
  | same hnodes _ => rw [hnodes]
  | @handled v r hhandles hnodes _ =>
      rw [hnodes] at hl ⊢
      by_cases hv : s = v
      · subst hv
        rw [Function.update_self] at hl ⊢
        exact hhandles.matchIndex_le hordered h hleads hl i
      · rw [Function.update_of_ne hv]
  | @ended v p _ hnodes _ =>
      rw [hnodes] at hl ⊢
      by_cases hv : s = v
      · subst hv
        simp at hl
      · rw [Function.update_of_ne hv]

/-- An overtaken snapshot sets a count back at once. -/
theorem MatchGrows.keeps (h : MatchGrows c c')
    (hstep : c.step a = some (c', es)) : c.KeepsMatch a := by
  cases a with
  | snapShotSent k i =>
      obtain ⟨round, hr, hstep⟩ := Option.bind_eq_some_iff.mp hstep
      split at hstep
      · next args reply hthread =>
          split at hstep
          · obtain ⟨rfl, -⟩ : _ = c' ∧ _ := by simpa using hstep
            intro m hm
            obtain rfl : (round.leader, i, args, reply) = m := by
              simpa [sentSnapshot?, hr, hthread] using hm
            rintro ⟨hleads, hterm, hreply⟩
            have hgrows := h round.leader
            simp only [LeadsOn, setNode, Function.update_self,
              Raft.snapShotSent_of_current hleads hterm hreply] at hgrows
            simpa using hgrows ⟨hleads, hleads, trivial⟩ i
          · simp at hstep
      · simp at hstep
  | _ => simp [KeepsMatch, sentSnapshot?]

/-- Who leads a term in two states of a run leads it in between. -/
theorem LeadsOn.between {B : Ballots (Fin n)} {minted : ℕ → ℕ → Option Op}
    (h : LeadsOn c₁ c₃ s) (hc : Recorded B minted c₂)
    (hwon : B.winner (c₁.nodes s).currentTerm ≠ none)
    (hstep : c₂.step a = some (c₃, es)) :
    LeadsOn c₁ c₂ s ∧ LeadsOn c₂ c₃ s := by
  obtain ⟨hleads, hl, hterm⟩ := h
  rcases hc.freshly hstep s hl with ⟨hl₂, hterm₂⟩ | hnone
  · exact ⟨⟨hleads, hl₂, hterm₂.symm.trans hterm⟩, hl₂, hl, hterm₂⟩
  · rw [hterm] at hnone
    exact absurd hnone hwon

/-- The counts grow as long as no snapshot is overtaken. -/
theorem matchGrows_of_run {B : Ballots (Fin n)}
    {minted : ℕ → ℕ → Option Op} (hc : Recorded B minted c₁)
    (hkeeps : Throughout step KeepsMatch c₁ as)
    (hrun : c₁.run as = some (c₂, es)) : MatchGrows c₁ c₂ := by
  refine (run_invariant (I := fun c => MatchGrows c₁ c ∧
    ∃ B' minted', Recorded B' minted' c ∧ B.Extends B') ?_ hkeeps
    ⟨fun _ _ _ => le_rfl, B, minted, hc, .refl B⟩ hrun).1
  rintro c a c' es' hkeep ⟨hgrows, B', minted', hc', hext⟩ hstep
  obtain ⟨B'', minted'', hc'', -, hext', -⟩ := hc'.step hstep
  refine ⟨fun s hleads i => ?_, B'', minted'', hc'', hext.trans hext'⟩
  have hwinner := hext.winner _ _ ((hc.votes.nodes s).leader hleads.1).1
  obtain ⟨hbefore, hafter⟩ := hleads.between hc' (by simp [hwinner]) hstep
  exact (hgrows s hbefore i).trans
    (hkeep.grows hc'.ordered hstep s hafter i)

/-- Between any two states of the run no leader counts less than before, and
in every state its counts are backed by acknowledgements. -/
structure KeepsBooks (as : List (Action n Image)) : Prop where
  grows : ∀ as₁ as₂ as₃ c₁ es₁ c₂ es₂, as = as₁ ++ as₂ ++ as₃ →
    (start n Image).run as₁ = some (c₁, es₁) →
    c₁.run as₂ = some (c₂, es₂) → MatchGrows c₁ c₂
  booked : ∀ as₁ as₂ c₁ es₁, as = as₁ ++ as₂ →
    (start n Image).run as₁ = some (c₁, es₁) → Booked as₁ c₁

end Cluster

/-- Exactly the runs in which no reply to a snapshot is overtaken keep the
books. -/
theorem keeps_books_iff {as : List (Action n Image)} {c : Cluster n Image}
    {es : List (Event n Image)}
    (hrun : (Cluster.start n Image).run as = some (c, es)) :
    Cluster.KeepsBooks as ↔
      Throughout Cluster.step Cluster.KeepsMatch (Cluster.start n Image)
        as := by
  constructor
  · intro hbooks
    refine (throughout_iff_steps (I := Cluster.Ordered)
      (R := fun c _ c' _ => Cluster.MatchGrows c c')
      (fun _ _ _ _ hc hstep => hc.step (Cluster.step_cases hstep))
      (fun _ _ _ _ hc hstep => ⟨fun h => h.grows hc hstep,
        fun h => h.keeps hstep⟩) .start hrun).mpr ?_
    intro as₁ a as₂ c₁ es₁ c₂ es₂ has hfirst hstep
    refine hbooks.grows as₁ [a] as₂ c₁ es₁ c₂ es₂ (by simp [has]) hfirst ?_
    exact run_cons_eq_some.mpr
      ⟨c₂, es₂, [], hstep, rfl, (List.append_nil es₂).symm⟩
  · intro hkeeps
    refine ⟨?_, fun _ _ _ _ _ hfirst => Cluster.booked_of_run hfirst⟩
    rintro as₁ as₂ as₃ c₁ es₁ c₂ es₂ rfl hfirst hsecond
    obtain ⟨B, minted, hc⟩ := recorded_of_run hfirst
    rw [List.append_assoc] at hkeeps
    have hrest := ((throughout_append hfirst).mp hkeeps).2
    exact Cluster.matchGrows_of_run hc ((throughout_append hsecond).mp hrest).1
      hsecond

/-- Server 2 accepts two entries, but before the leader learns it, it compacts
the first of them and the next heartbeat offers server 2 the snapshot.  Now both
replies are on their way. -/
def Cluster.answeredTwiceRun : List (Action 3 Unit) :=
  [.doElection 0, .requestVote 0 1, .sendRequestVote 0 1, .doHeartBeat 0,
    .appendEntries 0 1, .sendAppendEntries 0 1, .applierTicker 0,
    .start 0 (Raft.noop 7), .doHeartBeat 0, .appendEntries 1 2,
    .snapshot 0 1 (some ()), .doHeartBeat 0, .leaderSendSnapShot 2 2,
    .installSnapshot 2 2]

/-- The reply to the snapshot comes in first. -/
theorem keeps_books_in_turn :
    ∃ c es, (Cluster.start 3 Unit).run (Cluster.answeredTwiceRun ++
        [.snapShotSent 2 2, .sendAppendEntries 1 2]) = some (c, es) ∧
      (c.nodes 0).matchIndex 2 = 2 ∧
      Cluster.KeepsBooks (Cluster.answeredTwiceRun ++
        [.snapShotSent 2 2, .sendAppendEntries 1 2]) := by
  obtain ⟨c, es, hrun, hmatch⟩ : ∃ c es,
      (Cluster.start 3 Unit).run (Cluster.answeredTwiceRun ++
        [.snapShotSent 2 2, .sendAppendEntries 1 2]) = some (c, es) ∧
        (c.nodes 0).matchIndex 2 = 2 := by
    decide +kernel
  exact ⟨c, es, hrun, hmatch, (keeps_books_iff hrun).mpr (by decide +kernel)⟩

/-- The reply to the snapshot comes in last and sets the count of server 2 back
to 1. -/
theorem overtaken_snapshot :
    ∃ c₁ es₁, (Cluster.start 3 Unit).run (Cluster.answeredTwiceRun ++
        [.sendAppendEntries 1 2]) = some (c₁, es₁) ∧
      (∃ c₂ es₂, c₁.run [.snapShotSent 2 2] = some (c₂, es₂) ∧
        Cluster.LeadsOn c₁ c₂ 0 ∧
        (c₁.nodes 0).matchIndex 2 = 2 ∧ (c₂.nodes 0).matchIndex 2 = 1) ∧
      ¬Cluster.KeepsBooks (Cluster.answeredTwiceRun ++
        [.sendAppendEntries 1 2] ++ [.snapShotSent 2 2]) := by
  obtain ⟨c₁, es₁, hfirst, c₂, es₂, hsecond, hleads, hbefore, hafter⟩ :
      ∃ c₁ es₁, (Cluster.start 3 Unit).run (Cluster.answeredTwiceRun ++
          [.sendAppendEntries 1 2]) = some (c₁, es₁) ∧
        ∃ c₂ es₂, c₁.run [.snapShotSent 2 2] = some (c₂, es₂) ∧
          Cluster.LeadsOn c₁ c₂ 0 ∧
          (c₁.nodes 0).matchIndex 2 = 2 ∧ (c₂.nodes 0).matchIndex 2 = 1 := by
    decide +kernel
  refine ⟨c₁, es₁, hfirst, ⟨c₂, es₂, hsecond, hleads, hbefore, hafter⟩, ?_⟩
  intro hbooks
  have hgrows := hbooks.grows _ [.snapShotSent 2 2] [] c₁ es₁ c₂ es₂ (by simp)
    hfirst hsecond 0 hleads 2
  omega

end KVRaftStorage
