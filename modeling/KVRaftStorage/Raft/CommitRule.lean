import KVRaftStorage.Raft.Exits
import KVRaftStorage.Raft.Rounds

/-!
# The two commit rules

`leaderUpdateCommitIndex` commits the last entry of the current term that a
majority has by the count of `m_matchIndex`.  Nobody calls it:
`sendAppendEntries` commits instead when the replies of one round reach a
majority, and then only what the request of the last reply carries.  The second
rule lags behind the first one whenever the last server that a majority was
waiting for answers in another round, or answers a request without entries of
the current term.
-/

namespace KVRaftStorage

open Replication Transition

variable {n : ℕ} {Image : Type}

namespace Raft

/-! ## The rule by `m_matchIndex` -/

/-- The loop of `leaderUpdateCommitIndex`, with the number of entries still to
look at. -/
def updateCommitIndex (r : Raft n Image) : ℕ → Exec n Image (Raft n Image)
  | 0 => .ok { r with commitIndex := r.lastSnapshotIncludeIndex }
  | k + 1 => do
      let index := r.lastSnapshotIncludeIndex + (k + 1)
      let sum := (Finset.univ.filter fun i =>
        i = r.me ∨ index ≤ r.matchIndex i).card
      if n / 2 + 1 ≤ sum then
        let term ← r.getLogTermFromLogIndex index
        if term = r.currentTerm then
          return { r with commitIndex := index }
        else
          r.updateCommitIndex k
      else
        r.updateCommitIndex k

/-- `leaderUpdateCommitIndex`. -/
def leaderUpdateCommitIndex (r : Raft n Image) : Exec n Image (Raft n Image) :=
  r.updateCommitIndex (r.getLastLogIndex - r.lastSnapshotIncludeIndex)

/-- The node has an entry of its term at `N`, and a majority has it by the
count of `m_matchIndex`. -/
def Committable (r : Raft n Image) (N : ℕ) : Prop :=
  (r.entryAt? N).map LogEntry.logTerm = some r.currentTerm ∧
    n / 2 + 1 ≤ (Finset.univ.filter fun i =>
      i = r.me ∨ N ≤ r.matchIndex i).card

instance (r : Raft n Image) (N : ℕ) : Decidable (r.Committable N) :=
  inferInstanceAs (Decidable (_ ∧ _))

/-- The commit index has reached everything that can be committed. -/
def CommitsAll (r : Raft n Image) : Prop :=
  ∀ N, r.Committable N → N ≤ r.commitIndex

variable {r r' : Raft n Image}

theorem getLogTermFromLogIndex_entry
    (h : Consecutive r.lastSnapshotIncludeIndex r.logs) {i : ℕ}
    (hlt : r.lastSnapshotIncludeIndex < i) (hle : i ≤ r.getLastLogIndex) :
    ∃ entry, r.entryAt? i = some entry ∧
      r.getLogTermFromLogIndex i = .ok entry.logTerm := by
  obtain ⟨entry, hentry, -⟩ := entryAt_ok h hlt hle
  have hlookup := (entryAt_eq_ok hentry).2.2
  refine ⟨entry, hlookup,
    getLogTermFromLogIndex_of_termAt? h hlt.le hle ?_⟩
  rw [termAt?, if_neg hlt.ne', hlookup]
  rfl

theorem entryAt?_le_last (h : Consecutive r.lastSnapshotIncludeIndex r.logs)
    {i : ℕ} {entry : LogEntry} (hentry : r.entryAt? i = some entry) :
    r.lastSnapshotIncludeIndex < i ∧ i ≤ r.getLastLogIndex := by
  have hlen := getLastLogIndex_eq h
  unfold entryAt? at hentry
  split at hentry
  · have hslot := (List.getElem?_eq_some_iff.mp hentry).1
    omega
  · cases hentry

theorem Committable.range (h : Consecutive r.lastSnapshotIncludeIndex r.logs)
    {N : ℕ} (hN : r.Committable N) :
    r.lastSnapshotIncludeIndex < N ∧ N ≤ r.getLastLogIndex := by
  obtain ⟨entry, hentry, -⟩ := Option.map_eq_some_iff.mp hN.1
  exact entryAt?_le_last h hentry

/-- The loop ends at the last of these entries, or at the boundary. -/
theorem updateCommitIndex_spec
    (h : Consecutive r.lastSnapshotIncludeIndex r.logs) {k : ℕ}
    (hle : r.lastSnapshotIncludeIndex + k ≤ r.getLastLogIndex) :
    ∃ r', r.updateCommitIndex k = .ok r' ∧
      (r'.commitIndex = r.lastSnapshotIncludeIndex ∨
        r.Committable r'.commitIndex) ∧
      ∀ N ≤ r.lastSnapshotIncludeIndex + k, r.Committable N →
        N ≤ r'.commitIndex := by
  induction k with
  | zero => exact ⟨_, rfl, .inl rfl, fun N hN _ => hN⟩
  | succ k ih =>
      obtain ⟨entry, hentry, hterm⟩ := getLogTermFromLogIndex_entry h
        (i := r.lastSnapshotIncludeIndex + (k + 1)) (by omega) hle
      obtain ⟨r', hok, hend, hall⟩ := ih (by omega)
      -- the index is passed over
      have hpass : ¬r.Committable (r.lastSnapshotIncludeIndex + (k + 1)) →
          ∀ N ≤ r.lastSnapshotIncludeIndex + (k + 1), r.Committable N →
            N ≤ r'.commitIndex := by
        intro hnot N hN hcommittable
        rcases Nat.lt_or_eq_of_le hN with hlt | rfl
        · exact hall N (by omega) hcommittable
        · exact absurd hcommittable hnot
      simp only [updateCommitIndex, bind, Except.bind, hterm]
      split
      · next hmost =>
          split
          · next hcurrent =>
              refine ⟨_, rfl, .inr ⟨?_, hmost⟩, fun N hN _ => hN⟩
              rw [hentry, Option.map_some, hcurrent]
          · next hold =>
              refine ⟨r', hok, hend, hpass fun hcommittable => hold ?_⟩
              have hmap := hcommittable.1
              rw [hentry] at hmap
              exact Option.some.inj hmap
      · next hfew =>
          exact ⟨r', hok, hend, hpass fun hcommittable =>
            hfew hcommittable.2⟩

/-- The commit index has reached everything that can be committed exactly if
`leaderUpdateCommitIndex` would not raise it. -/
theorem commitsAll_iff (h : Consecutive r.lastSnapshotIncludeIndex r.logs) :
    r.CommitsAll ↔ ∃ r', r.leaderUpdateCommitIndex = .ok r' ∧
      r'.commitIndex ≤ max r.commitIndex r.lastSnapshotIncludeIndex := by
  have hlen := getLastLogIndex_eq h
  obtain ⟨r', hok, hend, hall⟩ := updateCommitIndex_spec h
    (k := r.getLastLogIndex - r.lastSnapshotIncludeIndex) (by omega)
  constructor
  · intro hcommits
    refine ⟨r', hok, ?_⟩
    rcases hend with hboundary | hcommittable
    · exact hboundary.trans_le (Nat.le_max_right _ _)
    · exact (hcommits _ hcommittable).trans (Nat.le_max_left _ _)
  · rintro ⟨r₁, hok₁, hle⟩ N hN
    obtain rfl := Except.ok.inj (hok.symm.trans hok₁)
    have hrange := hN.range h
    have hreached := hall N (by omega) hN
    omega

/-! ## The rule of `sendAppendEntries` -/

/-- With the given server a majority has the entry of the current term at `N`,
which is not committed yet. -/
def Decisive (r : Raft n Image) (server : Fin n) (N : ℕ) : Prop :=
  r.commitIndex < N ∧
    (r.entryAt? N).map LogEntry.logTerm = some r.currentTerm ∧
    n / 2 + 1 ≤ (Finset.univ.filter fun i =>
      i = r.me ∨ i = server ∨ N ≤ r.matchIndex i).card

instance (r : Raft n Image) (server : Fin n) (N : ℕ) :
    Decidable (r.Decisive server N) :=
  inferInstanceAs (Decidable (_ ∧ _))

/-- If the reply is decisive for an index that its request reaches, it also
completes the majority of its round, and the last entry of its request is of
the current term. -/
def CommitsAtOnce (r : Raft n Image) (server : Fin n)
    (args : AppendEntriesArgs n) (reply : AppendEntriesReply)
    (appendNums : ℕ) : Prop :=
  (r.status = .leader ∧ reply.appState ≠ .disconnected ∧
      reply.term = r.currentTerm ∧ reply.success = true ∧
      ∃ N ≤ args.prevLogIndex + args.entries.length, r.Decisive server N) →
    n / 2 ≤ appendNums ∧
      args.entries.getLast?.map LogEntry.logTerm = some r.currentTerm

instance (r : Raft n Image) (server : Fin n) (args : AppendEntriesArgs n)
    (reply : AppendEntriesReply) (appendNums : ℕ) :
    Decidable (r.CommitsAtOnce server args reply appendNums) :=
  inferInstanceAs (Decidable (_ → _))

/-- What a leader makes of a reply, as far as the commit rules go: it leaves
the counts alone, or takes a success into account. -/
theorem sendAppendEntries_counts {server : Fin n} {args : AppendEntriesArgs n}
    {reply : AppendEntriesReply} {k k' : ℕ}
    (h : r.sendAppendEntries server args reply k = .ok (r', k'))
    (hl : r'.status = .leader) :
    r.status = .leader ∧ r.SameLog r' ∧ r'.me = r.me ∧
      r'.currentTerm = r.currentTerm ∧
      ((r'.matchIndex = r.matchIndex ∧ r'.commitIndex = r.commitIndex ∧
          ¬(reply.appState ≠ .disconnected ∧ reply.term = r.currentTerm ∧
            reply.success = true)) ∨
        (reply.appState ≠ .disconnected ∧ reply.term = r.currentTerm ∧
          reply.success = true ∧
          r'.matchIndex = Function.update r.matchIndex server
            (max (r.matchIndex server)
              (args.prevLogIndex + args.entries.length)) ∧
          r'.commitIndex =
            if n / 2 ≤ k ∧ args.entries.getLast?.map LogEntry.logTerm =
                some r.currentTerm then
              max r.commitIndex (args.prevLogIndex + args.entries.length)
            else r.commitIndex)) := by
  unfold sendAppendEntries at h
  split at h
  · next hdisconnected =>
      obtain ⟨rfl, -⟩ : r = r' ∧ _ := by simpa using h
      exact ⟨hl, .refl r, rfl, rfl, .inl ⟨rfl, rfl, fun h => h.1 hdisconnected⟩⟩
  next hconnected =>
  split at h
  · obtain ⟨rfl, -⟩ : _ = r' ∧ _ := by simpa using h
    simp [followTerm] at hl
  next hle =>
  split at h
  · next hlt =>
      obtain ⟨rfl, -⟩ : r = r' ∧ _ := by simpa using h
      exact ⟨hl, .refl r, rfl, rfl, .inl ⟨rfl, rfl, fun h => hlt.ne h.2.1⟩⟩
  next hge =>
  split at h
  · next hidle =>
      obtain ⟨rfl, -⟩ : r = r' ∧ _ := by simpa using h
      exact absurd hl hidle
  next hleads =>
  have hterm : reply.term = r.currentTerm := by omega
  rw [exec_bind_eq_ok] at h
  obtain ⟨-, -, h⟩ := h
  split at h
  · next hrejected =>
      have hnot : ¬(reply.appState ≠ .disconnected ∧
          reply.term = r.currentTerm ∧ reply.success = true) :=
        fun h => Bool.false_ne_true (hrejected.symm.trans h.2.2)
      split at h
      · obtain ⟨rfl, -⟩ : _ = r' ∧ _ := by simpa using h
        exact ⟨hl, ⟨rfl, rfl, rfl⟩, rfl, rfl, .inl ⟨rfl, rfl, hnot⟩⟩
      · obtain ⟨rfl, -⟩ : r = r' ∧ _ := by simpa using h
        exact ⟨hl, .refl r, rfl, rfl, .inl ⟨rfl, rfl, hnot⟩⟩
  · next haccepted =>
      have hsuccess : reply.success = true := by simpa using haccepted
      rw [exec_bind_eq_ok] at h
      obtain ⟨-, -, h⟩ := h
      split at h
      · next hmost =>
          have hmost : n / 2 ≤ k := by omega
          rw [exec_bind_eq_ok] at h
          obtain ⟨-, -, h⟩ := h
          obtain ⟨rfl, -⟩ := Prod.mk.inj (exec_pure_eq_ok.mp h)
          simp only [hmost, true_and] at hl ⊢
          split
          · next hlast =>
              rw [if_pos hlast] at hl
              exact ⟨hl, ⟨rfl, rfl, rfl⟩, rfl, rfl,
                .inr ⟨hconnected, hterm, hsuccess, rfl, rfl⟩⟩
          · next hlast =>
              rw [if_neg hlast] at hl
              exact ⟨hl, ⟨rfl, rfl, rfl⟩, rfl, rfl,
                .inr ⟨hconnected, hterm, hsuccess, rfl, rfl⟩⟩
      · next hfew =>
          obtain ⟨rfl, -⟩ : _ = r' ∧ _ := by simpa using h
          refine ⟨hl, ⟨rfl, rfl, rfl⟩, rfl, rfl,
            .inr ⟨hconnected, hterm, hsuccess, rfl, ?_⟩⟩
          exact (if_neg fun h => hfew (by omega)).symm

/-- A reply of the current term deposes nobody. -/
theorem sendAppendEntries_status {server : Fin n} {args : AppendEntriesArgs n}
    {reply : AppendEntriesReply} {k k' : ℕ}
    (h : r.sendAppendEntries server args reply k = .ok (r', k'))
    (hterm : reply.term = r.currentTerm) : r'.status = r.status := by
  unfold sendAppendEntries at h
  split at h
  · obtain ⟨rfl, -⟩ : r = r' ∧ _ := by simpa using h
    rfl
  rw [hterm, if_neg (lt_irrefl _), if_neg (lt_irrefl _)] at h
  split at h
  · obtain ⟨rfl, -⟩ : r = r' ∧ _ := by simpa using h
    rfl
  rw [exec_bind_eq_ok] at h
  obtain ⟨-, -, h⟩ := h
  split at h
  · split at h <;>
    · obtain ⟨rfl, -⟩ := Prod.mk.inj (exec_pure_eq_ok.mp h)
      rfl
  · rw [exec_bind_eq_ok] at h
    obtain ⟨-, -, h⟩ := h
    split at h
    · rw [exec_bind_eq_ok] at h
      obtain ⟨-, -, h⟩ := h
      obtain ⟨rfl, -⟩ := Prod.mk.inj (exec_pure_eq_ok.mp h)
      split <;> rfl
    · obtain ⟨rfl, -⟩ := Prod.mk.inj (exec_pure_eq_ok.mp h)
      rfl

/-- A node whose counts and log are the same up to its old end. -/
theorem CommitsAll.keep (h : r.CommitsAll) (hn : 2 ≤ n) (hme : r'.me = r.me)
    (hterm : r'.currentTerm = r.currentTerm)
    (hmatch : r'.matchIndex = r.matchIndex)
    (hmatched : ∀ i, r.matchIndex i ≤ r.getLastLogIndex)
    (hcommit : r.commitIndex ≤ r'.commitIndex)
    (hentry : ∀ N entry, r'.entryAt? N = some entry →
      r.entryAt? N = some entry ∨ r.getLastLogIndex < N) :
    r'.CommitsAll := by
  intro N hN
  obtain ⟨hlookup, hmost⟩ := hN
  rw [hme, hmatch] at hmost
  obtain ⟨entry, hlookup, hentryT⟩ := Option.map_eq_some_iff.mp hlookup
  rcases hentry N entry hlookup with hold | hlt
  · refine (h N ⟨?_, hmost⟩).trans hcommit
    rw [hold, Option.map_some, hentryT, hterm]
  · -- only the leader itself has an entry behind its old end
    exfalso
    have honly : (Finset.univ.filter fun i => i = r.me ∨ N ≤ r.matchIndex i) ⊆
        {r.me} := by
      intro i hi
      rw [Finset.mem_filter] at hi
      rw [Finset.mem_singleton]
      refine hi.2.resolve_right fun hle => ?_
      have := hmatched i
      omega
    have hcard := Finset.card_le_card honly
    rw [Finset.card_singleton] at hcard
    omega

/-- Counting a reply keeps the commit index complete exactly if the reply
commits at once what it is decisive for. -/
theorem CommitsAll.tally_iff (h : r.CommitsAll) {server : Fin n}
    {args : AppendEntriesArgs n} {reply : AppendEntriesReply} {k k' : ℕ}
    (hsend : r.sendAppendEntries server args reply k = .ok (r', k'))
    (hl : r'.status = .leader) :
    r'.CommitsAll ↔ r.CommitsAtOnce server args reply k := by
  obtain ⟨hleads, hsame, hme, hterm, hcounts⟩ :=
    sendAppendEntries_counts hsend hl
  have hlookup : ∀ N, (r'.entryAt? N).map LogEntry.logTerm =
      some r'.currentTerm ↔
        (r.entryAt? N).map LogEntry.logTerm = some r.currentTerm := by
    intro N
    rw [hsame.entryAt?, hterm]
  rcases hcounts with ⟨hmatch, hcommit, hnot⟩ |
    ⟨hconnected, hreply, hsuccess, hmatch, hcommit⟩
  · refine iff_of_true (fun N hN => ?_) fun hcounted =>
      absurd ⟨hcounted.2.1, hcounted.2.2.1, hcounted.2.2.2.1⟩ hnot
    rw [Committable, hlookup, hme, hmatch] at hN
    exact hcommit ▸ h N hN
  constructor
  · rintro hall ⟨-, -, -, -, N, hN, hbehind, hentry, hmost⟩
    by_contra hnot
    rw [if_neg hnot] at hcommit
    have hreached := hall N ⟨(hlookup N).mpr hentry, ?_⟩
    · omega
    · refine hmost.trans (Finset.card_le_card fun i hi => ?_)
      rw [Finset.mem_filter] at hi ⊢
      rw [hme, hmatch]
      refine ⟨hi.1, ?_⟩
      by_cases his : i = server
      · subst his
        exact .inr (by rw [Function.update_self]; omega)
      · rw [Function.update_of_ne his]
        exact hi.2.imp_right fun h => h.resolve_left his
  · intro honce N hN
    obtain ⟨hentry, hmost⟩ := hN
    rw [hlookup] at hentry
    rw [hme, hmatch] at hmost
    by_cases hle : N ≤ args.prevLogIndex + args.entries.length
    · by_cases hbehind : r.commitIndex < N
      · have hdecisive : r.Decisive server N := by
          refine ⟨hbehind, hentry, hmost.trans (Finset.card_le_card ?_)⟩
          intro i hi
          rw [Finset.mem_filter] at hi ⊢
          refine ⟨hi.1, hi.2.imp_right fun hmatched => ?_⟩
          by_cases his : i = server
          · exact .inl his
          · rw [Function.update_of_ne his] at hmatched
            exact .inr hmatched
        rw [hcommit, if_pos (honce ⟨hleads, hconnected, hreply, hsuccess, N, hle,
          hdecisive⟩)]
        omega
      · have := (hcommit ▸ by split <;> omega : r.commitIndex ≤ r'.commitIndex)
        omega
    · have hold : r.Committable N := by
        refine ⟨hentry, hmost.trans (Finset.card_le_card fun i hi => ?_)⟩
        rw [Finset.mem_filter] at hi ⊢
        refine ⟨hi.1, hi.2.imp_right fun hmatched => ?_⟩
        by_cases his : i = server
        · subst his
          rw [Function.update_self] at hmatched
          omega
        · rwa [Function.update_of_ne his] at hmatched
      have := h N hold
      have := (hcommit ▸ by split <;> omega : r.commitIndex ≤ r'.commitIndex)
      omega

/-- A snapshot that was sent counts for nothing behind the boundary. -/
theorem CommitsAll.snapShotSent (h : r.status = .leader → r.CommitsAll)
    (hlog : Consecutive r.lastSnapshotIncludeIndex r.logs) {server : Fin n}
    {args : InstallSnapshotRequest n Image} {reply : InstallSnapshotResponse}
    (hoffered : args.lastSnapShotIncludeIndex ≤ r.lastSnapshotIncludeIndex)
    (hl : (r.snapShotSent server args reply).status = .leader) :
    (r.snapShotSent server args reply).CommitsAll := by
  unfold Raft.snapShotSent at hl ⊢
  split at hl
  · next hstale =>
      rw [if_pos hstale]
      exact h hl
  next hcurrent =>
  split at hl
  · simp [followTerm, persist] at hl
  next hle =>
  rw [if_neg hcurrent, if_neg hle]
  rintro N ⟨hentry, hmost⟩
  obtain ⟨entry, hlookup, -⟩ := Option.map_eq_some_iff.mp hentry
  obtain ⟨hlt, -⟩ := entryAt?_le_last (r := r) hlog hlookup
  refine h hl N ⟨hentry, hmost.trans (Finset.card_le_card fun i hi => ?_)⟩
  simp only [Finset.mem_filter] at hi ⊢
  refine ⟨hi.1, hi.2.imp_right fun hle => ?_⟩
  by_cases his : i = server
  · subst his
    rw [Function.update_self] at hle
    omega
  · rwa [Function.update_of_ne his] at hle

end Raft

/-! ## Steps -/

namespace Cluster

variable {c c' : Cluster n Image} {a : Action n Image} {s : Fin n}
  {r : Raft n Image}

/-- A leader changes its log behind the old end only. -/
theorem LogStep.entry_before (h : c.LogStep a s r)
    (hordered : (c.nodes s).Ordered) (hl : r.status = .leader) (N : ℕ)
    (entry : LogEntry) (hentry : r.entryAt? N = some entry) :
    (c.nodes s).entryAt? N = some entry ∨ (c.nodes s).getLastLogIndex < N := by
  cases h with
  | same hsame =>
      rw [hsame.entryAt?] at hentry
      exact .inl hentry
  | appended command _ _ hlogs hindex =>
      have hlen := hordered.lastLogIndex
      unfold Raft.entryAt? at hentry ⊢
      rw [hindex, hlogs] at hentry
      split at hentry
      · next hlt =>
          rw [if_pos hlt]
          simp only [Raft.appendEntry, List.getElem?_append] at hentry
          split at hentry
          · exact .inl hentry
          · right
            omega
      · cases hentry
  | accepted _ haccepts => simp [haccepts.status] at hl
  | installed hinstalls => simp [hinstalls.status] at hl
  | @compacted index hcompacts =>
      by_cases hN : index < N
      · rw [hordered.compacts_entryAt? hcompacts hN] at hentry
        exact .inl hentry
      · rw [Raft.entryAt?, hcompacts.boundary, if_neg hN] at hentry
        cases hentry

/-- The reply that a `sendAppendEntries` processes, with its round, its sender
and its request. -/
def talliedReply? (c : Cluster n Image) : Action n Image →
    Option (Round n Image × Fin n × AppendEntriesArgs n × AppendEntriesReply)
  | .sendAppendEntries k i => do
      let round ← c.rounds[k]?
      match round.threads i with
      | .append args (.replied reply) => some (round, i, args, reply)
      | _ => none
  | _ => none

/-- A reply that is decisive for the rule by `m_matchIndex` commits. -/
def CommitsAtOnce (c : Cluster n Image) (a : Action n Image) : Prop :=
  ∀ m ∈ c.talliedReply? a,
    (c.nodes m.1.leader).CommitsAtOnce m.2.1 m.2.2.1 m.2.2.2 m.1.appendNums

instance (c : Cluster n Image) (a : Action n Image) :
    Decidable (c.CommitsAtOnce a) :=
  inferInstanceAs (Decidable (∀ m ∈ c.talliedReply? a, _))

/-- Every leader has committed what can be committed.  A single server gets no
replies, so it is left out. -/
def CommitsAll (c : Cluster n Image) : Prop :=
  2 ≤ n → ∀ s, (c.nodes s).status = .leader → (c.nodes s).CommitsAll

end Cluster

/-- The counts of a leader lie in its log, and what its threads offer lies
behind its boundary. -/
structure CountsTracked (c : Cluster n Image) : Prop where
  matched : ∀ s, (c.nodes s).status = .leader → ∀ i,
    (c.nodes s).matchIndex i ≤ (c.nodes s).getLastLogIndex
  offered : ∀ round ∈ c.rounds, c.boots round.leader = round.boot →
    ∀ i args call, round.threads i = .snapshot args call →
      args.lastSnapShotIncludeIndex ≤
        (c.nodes round.leader).lastSnapshotIncludeIndex

namespace CountsTracked

variable {B : Ballots (Fin n)} {minted : ℕ → ℕ → Option Op}
  {c c' : Cluster n Image} {a : Action n Image} {es : List (Event n Image)}

theorem start : CountsTracked (Cluster.start n Image) where
  matched := by simp [Cluster.start]
  offered := by simp [Cluster.start]

theorem handles_matched (h : CountsTracked c) (hc : Recorded B minted c)
    {s : Fin n} {r : Raft n Image} (hhandles : c.Handles a s r)
    (hl : r.status = .leader) (i : Fin n) :
    r.matchIndex i ≤ r.getLastLogIndex := by
  have hlast := (hc.ordered.handles hhandles).2.last
  cases hhandles.counterStep hc.ordered with
  | kept hkeeps =>
      obtain ⟨hleads, -, -, -, hmatch⟩ := hkeeps hl
      rw [hmatch]
      exact (h.matched s hleads i).trans hlast
  | started _ _ hmatch =>
      rw [hmatch]
      exact Nat.zero_le _
  | @replied k server _ args reply nums nums' round hr hboot hthread _ hsend =>
      have hreach :=
        (hc.rounds round (List.mem_of_getElem? hr)).reach hboot server
      rw [hthread] at hreach
      obtain ⟨hleads, -, -, -, hcounts⟩ :=
        Raft.sendAppendEntries_counts hsend hl
      have hold := h.matched round.leader hleads
      rcases hcounts with ⟨hmatch, -⟩ | ⟨-, -, -, hmatch, -⟩
      · rw [hmatch]
        exact (hold i).trans hlast
      · rw [hmatch]
        by_cases hi : i = server
        · subst hi
          rw [Function.update_self]
          exact (Nat.max_le.mpr ⟨hold i, hreach⟩).trans hlast
        · rw [Function.update_of_ne hi]
          exact (hold i).trans hlast
  | @snapShotSent k server args reply round hr hboot hthread _ =>
      have hreach :=
        (hc.rounds round (List.mem_of_getElem? hr)).reach hboot server
      rw [hthread] at hreach
      revert hl hlast
      unfold Raft.snapShotSent
      split
      · intro hl hlast
        exact h.matched round.leader hl i
      split
      · intro hl
        simp [Raft.followTerm, Raft.persist] at hl
      · intro hl hlast
        simp only
        by_cases hi : i = server
        · subst hi
          rw [Function.update_self]
          exact hreach.trans hlast
        · rw [Function.update_of_ne hi]
          exact (h.matched round.leader hl i).trans hlast

theorem matched_step (h : CountsTracked c) (hc : Recorded B minted c)
    (hcases : c.StepCases a c') (s : Fin n)
    (hl : (c'.nodes s).status = .leader) (i : Fin n) :
    (c'.nodes s).matchIndex i ≤ (c'.nodes s).getLastLogIndex := by
  cases hcases.nodes with
  | same hnodes _ =>
      rw [hnodes] at hl ⊢
      exact h.matched s hl i
  | @handled v r hhandles hnodes _ =>
      rw [hnodes] at hl ⊢
      by_cases hv : s = v
      · subst hv
        rw [Function.update_self] at hl ⊢
        exact h.handles_matched hc hhandles hl i
      · rw [Function.update_of_ne hv] at hl ⊢
        exact h.matched s hl i
  | @ended v p _ hnodes _ =>
      rw [hnodes] at hl ⊢
      by_cases hv : s = v
      · subst hv
        simp at hl
      · rw [Function.update_of_ne hv] at hl ⊢
        exact h.matched s hl i

theorem offered_step (h : CountsTracked c) (hc : Recorded B minted c)
    (hcases : c.StepCases a c') :
    ∀ round ∈ c'.rounds, c'.boots round.leader = round.boot →
      ∀ i args call, round.threads i = .snapshot args call →
        args.lastSnapShotIncludeIndex ≤
          (c'.nodes round.leader).lastSnapshotIncludeIndex := by
  have hadvances := hc.ordered.advances hcases
  -- as long as the process is the same its boundary does not go back
  have hgrows : ∀ {v : Fin n} {boot : ℕ} {x : ℕ}, boot ≤ c.boots v →
      c'.boots v = boot → (c.boots v = boot →
        x ≤ (c.nodes v).lastSnapshotIncludeIndex) →
      x ≤ (c'.nodes v).lastSnapshotIncludeIndex := by
    intro v boot x hle hboot hx
    obtain ⟨hle', hnode⟩ := hadvances v
    have hsame : c.boots v = boot := by omega
    exact (hx hsame).trans (hnode (by omega)).boundary
  have hold : ∀ round ∈ c.rounds, c'.boots round.leader = round.boot →
      ∀ i args call, round.threads i = .snapshot args call →
        args.lastSnapShotIncludeIndex ≤
          (c'.nodes round.leader).lastSnapshotIncludeIndex :=
    fun round hround hboot i args call hthread =>
      hgrows (hc.rounds round hround).boot hboot fun hsame =>
        h.offered round hround hsame i args call hthread
  have hrounds := hcases.rounds
  generalize c'.rounds = rounds at hrounds ⊢
  cases hrounds with
  | same => exact hold
  | begun s =>
      refine forall_mem_concat hold fun _ i args call hthread => ?_
      exact (LogsTracked.heartBeatThread_ne_snapshot hthread).elim
  | @advanced k i thread round nums hr hthread =>
      have hmem := List.mem_of_getElem? hr
      refine forall_mem_set hold fun hboot j args call hj => ?_
      by_cases hji : j = i
      · subst hji
        simp only [Round.setThread, Function.update_self] at hj
        cases hthread with
        | answered | finished => cases hj
        | offered hwaiting hsame =>
            obtain ⟨rfl, -⟩ : _ = args ∧ _ := by simpa using hj
            exact hgrows (hc.rounds round hmem).boot hboot fun _ => le_rfl
        | snapshot _ hsnapshot =>
            obtain ⟨rfl, -⟩ : _ = args ∧ _ := by simpa using hj
            exact hold round hmem hboot j _ _ hsnapshot
      · exact hold round hmem hboot j args call
          (by simpa [Round.setThread, hji] using hj)

theorem step (h : CountsTracked c) (hc : Recorded B minted c)
    (hstep : c.step a = some (c', es)) : CountsTracked c' :=
  have hcases := Cluster.step_cases hstep
  ⟨h.matched_step hc hcases, h.offered_step hc hcases⟩

end CountsTracked

/-! ## Commit completeness -/

/-- Handlers that count no reply. -/
theorem Cluster.CommitsAll.handles {B : Ballots (Fin n)}
    {minted : ℕ → ℕ → Option Op} {c : Cluster n Image} {a : Action n Image}
    (h : c.CommitsAll) (htracked : CountsTracked c) (hc : Recorded B minted c)
    (hn : 2 ≤ n) (ha : c.appendReply? a = none) {s : Fin n} {r : Raft n Image}
    (hhandles : c.Handles a s r) (hl : r.status = .leader) : r.CommitsAll := by
  obtain ⟨hr, hadvances⟩ := hc.ordered.handles hhandles
  have hentry := hhandles.logStep.entry_before (hc.ordered.nodes s) hl
  cases hhandles.counterStep hc.ordered with
  | kept hkeeps =>
      obtain ⟨hleads, hme, hterm, -, hmatch⟩ := hkeeps hl
      exact (h hn s hleads).keep hn hme hterm hmatch
        (htracked.matched s hleads) hadvances.commit hentry
  | started _ _ hmatch =>
      -- with all counts at 0 there is no majority
      intro N hN
      exfalso
      have hrange := hN.range hr.consecutive
      have honly : (Finset.univ.filter fun i =>
          i = r.me ∨ N ≤ r.matchIndex i) ⊆ {r.me} := by
        intro i hi
        rw [Finset.mem_filter, hmatch] at hi
        rw [Finset.mem_singleton]
        exact hi.2.resolve_right fun hle => by
          have : N ≤ 0 := hle
          omega
      have hcard := hN.2.trans (Finset.card_le_card honly)
      rw [Finset.card_singleton] at hcard
      omega
  | replied _ _ _ hm =>
      rw [ha] at hm
      cases hm
  | @snapShotSent k server args reply round hr' hboot hthread _ =>
      have hoffered := htracked.offered round (List.mem_of_getElem? hr') hboot
        server args _ hthread
      exact Raft.CommitsAll.snapShotSent (h hn round.leader)
        (hc.ordered.nodes round.leader).consecutive hoffered hl

/-- Replies that are decisive commit, so every leader stays complete. -/
theorem Cluster.CommitsAll.step {B : Ballots (Fin n)}
    {minted : ℕ → ℕ → Option Op} {c c' : Cluster n Image}
    {a : Action n Image} {es : List (Event n Image)} (h : c.CommitsAll)
    (htracked : CountsTracked c) (hc : Recorded B minted c)
    (honce : c.CommitsAtOnce a) (hstep : c.step a = some (c', es)) :
    c'.CommitsAll := by
  intro hn s hl
  cases ha : c.appendReply? a with
  | none =>
      cases (Cluster.step_cases hstep).nodes with
      | same hnodes _ =>
          rw [hnodes] at hl ⊢
          exact h hn s hl
      | @handled v r hhandles hnodes _ =>
          rw [hnodes] at hl ⊢
          by_cases hv : s = v
          · subst hv
            rw [Function.update_self] at hl ⊢
            exact h.handles htracked hc hn ha hhandles hl
          · rw [Function.update_of_ne hv] at hl ⊢
            exact h hn s hl
      | @ended v p _ hnodes _ =>
          rw [hnodes] at hl ⊢
          by_cases hv : s = v
          · subst hv
            simp at hl
          · rw [Function.update_of_ne hv] at hl ⊢
            exact h hn s hl
  | some m =>
      cases a with
      | sendAppendEntries k i =>
          obtain ⟨round, args, reply, hr, -, hthread, hresult⟩ :=
            Cluster.sendAppendEntries_step hstep
          have honce := honce (round, i, args, reply)
            (by simp [Cluster.talliedReply?, hr, hthread])
          rcases hresult with ⟨p, -, hnodes⟩ | ⟨r, nums, hsend, hnodes⟩
          · rw [hnodes] at hl ⊢
            by_cases hs : s = round.leader
            · subst hs
              simp at hl
            · rw [Function.update_of_ne hs] at hl ⊢
              exact h hn s hl
          · rw [hnodes] at hl ⊢
            by_cases hs : s = round.leader
            · subst hs
              rw [Function.update_self] at hl ⊢
              have hleads := (Raft.sendAppendEntries_counts hsend hl).1
              exact ((h hn round.leader hleads).tally_iff hsend hl).mpr honce
            · rw [Function.update_of_ne hs] at hl ⊢
              exact h hn s hl
      | _ => simp [Cluster.appendReply?] at ha

/-- A decisive reply that does not commit leaves its leader behind. -/
theorem Cluster.not_commitsAll_of_decisive {B : Ballots (Fin n)}
    {minted : ℕ → ℕ → Option Op} {c c' : Cluster n Image}
    {a : Action n Image} {es : List (Event n Image)} (h : c.CommitsAll)
    (htracked : CountsTracked c) (hc : Recorded B minted c)
    (honce : ¬c.CommitsAtOnce a) (hstep : c.step a = some (c', es)) :
    ¬c'.CommitsAll := by
  intro hafter
  simp only [Cluster.CommitsAtOnce, not_forall] at honce
  obtain ⟨⟨round, i, args, reply⟩, hm, honce⟩ := honce
  cases a with
  | sendAppendEntries k j =>
      obtain ⟨round', args', reply', hr, hboot, hthread, hresult⟩ :=
        Cluster.sendAppendEntries_step hstep
      obtain ⟨rfl, rfl, rfl, rfl⟩ : round' = round ∧ j = i ∧ args' = args ∧
          reply' = reply := by
        simpa [Cluster.talliedReply?, hr, hthread] using hm
      have hmem := List.mem_of_getElem? hr
      have hround := hc.rounds round' hmem
      have hreach := hround.reach hboot j
      rw [hthread] at hreach
      -- the reply comes from another server, so there are at least two
      have hne : round'.leader ≠ j := by
        rintro heq
        have hown := hround.own
        rw [heq, hthread] at hown
        cases hown
      have hn : 2 ≤ n := by
        have := Fin.val_ne_of_ne hne
        omega
      have hleads : (c.nodes round'.leader).status = .leader := by
        by_contra hidle
        exact honce fun hcounted => absurd hcounted.1 hidle
      obtain ⟨r, nums, hsend⟩ := Raft.sendAppendEntries_ok
        (hc.ordered.nodes round'.leader).last j reply' round'.appendNums
        (fun hl => htracked.matched _ hl j) hreach
      rcases hresult with ⟨p, herror, -⟩ | ⟨r', nums', hsend', hnodes⟩
      · rw [hsend] at herror
        cases herror
      · have hl : r'.status = .leader := by
          by_contra hidle
          refine honce fun hcounted => ?_
          rw [Raft.sendAppendEntries_status hsend' hcounted.2.2.1] at hidle
          exact absurd hleads hidle
        refine honce (((h hn _ hleads).tally_iff hsend' hl).mp ?_)
        have := hafter hn round'.leader
        rw [hnodes, Function.update_self] at this
        exact this hl
  | _ => simp [Cluster.talliedReply?] at hm

/-- Exactly the runs in which every decisive reply commits keep the commit
index of every leader at everything that the rule by `m_matchIndex` would
commit. -/
theorem commits_all_iff {as : List (Action n Image)} {c : Cluster n Image}
    {es : List (Event n Image)}
    (hrun : (Cluster.start n Image).run as = some (c, es)) :
    (∀ as₁ as₂ c₁ es₁, as = as₁ ++ as₂ →
        (Cluster.start n Image).run as₁ = some (c₁, es₁) → c₁.CommitsAll) ↔
      Throughout Cluster.step Cluster.CommitsAtOnce (Cluster.start n Image)
        as := by
  have hstart : (Cluster.start n Image).CommitsAll := by
    simp [Cluster.CommitsAll, Cluster.start]
  refine (@throughout_iff_along _ _ _ Cluster.step Cluster.CommitsAtOnce
    (fun c => c.CommitsAll ∧ CountsTracked c ∧ ∃ B minted, Recorded B minted c)
    Cluster.CommitsAll (fun _ h => h.1) ?_ ?_ _ _ _ _
    ⟨hstart, .start, _, _, .start⟩ hrun).symm
  · rintro c a c' es honce ⟨hall, htracked, B, minted, hc⟩ hstep
    obtain ⟨B', minted', hc', -⟩ := hc.step hstep
    exact ⟨hall.step htracked hc honce hstep, htracked.step hc hstep, B',
      minted', hc'⟩
  · rintro c a c' es honce ⟨hall, htracked, B, minted, hc⟩ hstep
    exact Cluster.not_commitsAll_of_decisive hall htracked hc honce hstep

theorem commits_all_replicated :
    ∃ c es, (Cluster.start 3 Unit).run Cluster.replicatedRun = some (c, es) ∧
      ∀ as₁ as₂ c₁ es₁, Cluster.replicatedRun = as₁ ++ as₂ →
        (Cluster.start 3 Unit).run as₁ = some (c₁, es₁) → c₁.CommitsAll := by
  obtain ⟨c, es, hrun, -⟩ : ∃ c es,
      (Cluster.start 3 Unit).run Cluster.replicatedRun = some (c, es) ∧
        True := by
    decide +kernel
  exact ⟨c, es, hrun, (commits_all_iff hrun).mpr (by decide +kernel)⟩

/-- Server 1 acknowledges the first entry in one round and server 2 in the
next, where server 1 is asked without entries and answers last.  The round
after that carries no entries at all. -/
def Cluster.splitRun : List (Action 5 Unit) :=
  [.doElection 0, .requestVote 0 1, .requestVote 0 2, .sendRequestVote 0 1,
    .sendRequestVote 0 2,
    .doHeartBeat 0, .appendEntries 0 1, .sendAppendEntries 0 1,
    .doHeartBeat 0, .appendEntries 1 2, .sendAppendEntries 1 2,
    .appendEntries 1 1, .sendAppendEntries 1 1,
    .doHeartBeat 0, .appendEntries 2 1, .appendEntries 2 2,
    .sendAppendEntries 2 1, .sendAppendEntries 2 2]

/-- A majority holds the entry of the leader, which `leaderUpdateCommitIndex`
would commit, and its commit index stays at 0. -/
theorem majority_uncommitted :
    ∃ c es, (Cluster.start 5 Unit).run Cluster.splitRun = some (c, es) ∧
      (c.nodes 0).status = .leader ∧ (c.nodes 0).Committable 1 ∧
      (c.nodes 0).leaderUpdateCommitIndex.toOption.map Raft.commitIndex =
        some 1 ∧
      (c.nodes 0).commitIndex = 0 := by
  decide +kernel

end KVRaftStorage
