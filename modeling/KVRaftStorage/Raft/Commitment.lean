import KVRaftStorage.Raft.Logs
import KVRaftStorage.Replication.Completeness

/-!
# Committed prefixes

On top of the ledger relation, every commit index and every snapshot boundary
lies inside a prefix that a majority has acknowledged in some term.  The
acknowledgements are those of the replies a leader counts: the shared counter
of one `doHeartBeat` never exceeds the number of servers that acknowledged its
request.

In addition to the two conditions of the ledger relation, no
`AppendEntries1` may commit an entry that it did not compare.
-/

namespace KVRaftStorage

open Replication Quorum Transition

variable {n : ℕ} {Image : Type}

/-! ## The relation -/

/-- The first `k` entries of the log of `v` are committed. -/
def CommittedUpTo (G : Ledger (Fin n) LogEntry) (v : Fin n) (k : ℕ) : Prop :=
  k ≤ (G.log v).length ∧ G.CommittedBy (G.epoch v) ((G.log v).take k)

/-- The commit index and the snapshot boundary of a node are committed. -/
structure NodeCommits (G : Ledger (Fin n) LogEntry) (v : Fin n)
    (r : Raft n Image) : Prop where
  commit : CommittedUpTo G v r.commitIndex
  boundary : CommittedUpTo G v r.lastSnapshotIncludeIndex

/-- The commit index in a request is committed in what its term has minted. -/
def CommitBacked (G : Ledger (Fin n) LogEntry) (args : AppendEntriesArgs n) :
    Prop :=
  args.leaderCommit ≤ (G.minted args.term).length ∧
    G.CommittedBy args.term ((G.minted args.term).take args.leaderCommit)

/-- The snapshot stands for a committed prefix. -/
def SnapshotBacked (G : Ledger (Fin n) LogEntry)
    (args : InstallSnapshotRequest n Image) : Prop :=
  ∃ cp, cp.length = args.lastSnapShotIncludeIndex ∧
    lastTerm cp = args.lastSnapShotIncludeTerm ∧ G.CommittedBy args.term cp

def ThreadCommits (G : Ledger (Fin n) LogEntry) : PeerThread n Image → Prop
  | .append args _ => CommitBacked G args
  | .snapshot args _ => SnapshotBacked G args
  | .idle | .waiting => True

/-- The call of the thread is over. -/
def PeerThread.finished : PeerThread n Image → Bool
  | .append _ .done => true
  | _ => false

/-- The finished threads of servers that acknowledged index `k` of term
`T`. -/
def Round.counted (G : Ledger (Fin n) LogEntry) (round : Round n Image)
    (T k : ℕ) : ℕ :=
  (Finset.univ.filter fun i => i ≠ round.leader ∧
    ((round.threads i).finished = true ∧ k ≤ G.acked i T)).card

/-- All requests of the round end at index `k` of term `T`, and the counter is
backed by acknowledgements. -/
structure RoundAcks (G : Ledger (Fin n) LogEntry) (round : Round n Image)
    (T k : ℕ) : Prop where
  own : k ≤ G.acked round.leader T
  sent : ∀ i args call, round.threads i = .append args call →
    i ≠ round.leader ∧ args.term = T ∧
      args.prevLogIndex + args.entries.length = k
  replied : ∀ i args reply, round.threads i = .append args (.replied reply) →
    reply.success = true → reply.term = T ∧ k ≤ G.acked i T
  count : round.appendNums ≤ 1 + round.counted G T k

structure RoundCommits (G : Ledger (Fin n) LogEntry)
    (round : Round n Image) : Prop where
  threads : ∀ i, ThreadCommits G (round.threads i)
  acks : ∃ T k, RoundAcks G round T k

def ReadCommits (G : Ledger (Fin n) LogEntry) (read : ReadCall n) : Prop :=
  ∀ i args call, read.threads i = .append args call → CommitBacked G args

structure CommitsTracked (G : Ledger (Fin n) LogEntry)
    (c : Cluster n Image) : Prop where
  complete : G.Complete
  nodes : ∀ v, NodeCommits G v (c.nodes v)
  rounds : ∀ round ∈ c.rounds, RoundCommits G round
  reads : ∀ read ∈ c.reads, ReadCommits G read

/-! ## Growth of the ledger -/

section Growth

variable {G G' : Ledger (Fin n) LogEntry}

theorem CommitBacked.extend {args : AppendEntriesArgs n}
    (h : CommitBacked G args) (hext : G.Extends G') : CommitBacked G' args := by
  have hmint := hext.minted args.term
  refine ⟨h.1.trans hmint.length_le, ?_⟩
  rw [take_of_isPrefix hmint h.1]
  exact h.2.extend hext

theorem SnapshotBacked.extend {args : InstallSnapshotRequest n Image}
    (h : SnapshotBacked G args) (hext : G.Extends G') :
    SnapshotBacked G' args := by
  obtain ⟨cp, hlen, hterm, hcp⟩ := h
  exact ⟨cp, hlen, hterm, hcp.extend hext⟩

theorem ThreadCommits.extend {t : PeerThread n Image}
    (h : ThreadCommits G t) (hext : G.Extends G') : ThreadCommits G' t := by
  cases t with
  | append args call => exact CommitBacked.extend h hext
  | snapshot args call => exact SnapshotBacked.extend h hext
  | idle | waiting => trivial

theorem RoundAcks.extend {round : Round n Image} {T k : ℕ}
    (h : RoundAcks G round T k) (hext : G.Extends G') :
    RoundAcks G' round T k where
  own := h.own.trans (hext.acked _ _)
  sent := h.sent
  replied := fun i args reply hcall hok =>
    ⟨(h.replied i args reply hcall hok).1,
      (h.replied i args reply hcall hok).2.trans (hext.acked _ _)⟩
  count := by
    refine h.count.trans (Nat.add_le_add_left (Finset.card_le_card ?_) 1)
    intro i hi
    simp only [Finset.mem_filter, Finset.mem_univ, true_and] at hi ⊢
    exact ⟨hi.1, hi.2.1, hi.2.2.trans (hext.acked _ _)⟩

theorem RoundCommits.extend {round : Round n Image}
    (h : RoundCommits G round) (hext : G.Extends G') :
    RoundCommits G' round := by
  obtain ⟨T, k, hacks⟩ := h.acks
  exact ⟨fun i => (h.threads i).extend hext, T, k, hacks.extend hext⟩

/-- A node whose log keeps the committed prefixes stays as it is. -/
theorem CommittedUpTo.of_isPrefix {v : Fin n} {q : List LogEntry}
    (hq : q <+: G'.log v) (hcommitted : G'.CommittedBy (G'.epoch v) q) :
    CommittedUpTo G' v q.length := by
  refine ⟨hq.length_le, ?_⟩
  rw [← List.prefix_iff_eq_take.mp hq]
  exact hcommitted

theorem CommittedUpTo.extend {v : Fin n} {k : ℕ} (h : CommittedUpTo G v k)
    (hext : G.Extends G') (hlog : (G.log v).take k <+: G'.log v) :
    CommittedUpTo G' v k := by
  have hlen : ((G.log v).take k).length = k := List.length_take_of_le h.1
  have hcommitted := (h.2.extend hext).mono (hext.ballots.epoch v)
  have := CommittedUpTo.of_isPrefix hlog hcommitted
  rwa [hlen] at this

theorem CommittedUpTo.of_le {v : Fin n} {k k' : ℕ} (h : CommittedUpTo G v k)
    (hle : k' ≤ k) : CommittedUpTo G v k' :=
  ⟨hle.trans h.1, h.2.of_isPrefix (List.take_prefix_take_left hle)⟩

end Growth

/-! ## Rounds -/

namespace RoundAcks

variable {G : Ledger (Fin n) LogEntry} {round round' : Round n Image}
  {T k : ℕ}

theorem counted_le (hleader : round'.leader = round.leader)
    (hfinished : ∀ i, (round.threads i).finished = true →
      (round'.threads i).finished = true) :
    round.counted G T k ≤ round'.counted G T k := by
  refine Finset.card_le_card fun i hi => ?_
  simp only [Finset.mem_filter, Finset.mem_univ, true_and] at hi ⊢
  exact ⟨hleader ▸ hi.1, hfinished i hi.2.1, hi.2.2⟩

/-- The thread of `i` moves on: it is answered, or it ends. -/
theorem setCall (h : RoundAcks G round T k) {i : Fin n}
    {args : AppendEntriesArgs n} {call call' : Call AppendEntriesReply}
    (hthread : round.threads i = .append args call) (hopen : call ≠ .done)
    (hreply : ∀ reply, call' = .replied reply → reply.success = true →
      reply.term = T ∧ k ≤ G.acked i T) :
    RoundAcks G (round.setThread i (.append args call')) T k where
  own := h.own
  sent := by
    intro j args' call'' hj
    by_cases hji : j = i
    · subst hji
      obtain ⟨rfl, -⟩ : args = args' ∧ call' = call'' := by
        simpa [Round.setThread] using hj
      exact h.sent j args call hthread
    · exact h.sent j args' call'' (by simpa [Round.setThread, hji] using hj)
  replied := by
    intro j args' reply hj hok
    by_cases hji : j = i
    · subst hji
      obtain ⟨-, rfl⟩ : args = args' ∧ call' = .replied reply := by
        simpa [Round.setThread] using hj
      exact hreply reply rfl hok
    · exact h.replied j args' reply
        (by simpa [Round.setThread, hji] using hj) hok
  count := by
    have hle : round.counted G T k ≤
        (round.setThread i (.append args call')).counted G T k := by
      refine counted_le rfl ?_
      intro j hj
      have hji : j ≠ i := by
        rintro rfl
        rw [hthread] at hj
        cases call <;> simp [PeerThread.finished] at hj hopen
      simpa [Round.setThread, hji] using hj
    exact h.count.trans (Nat.add_le_add_left hle 1)

/-- A waiting thread sends a snapshot, which is not counted. -/
theorem offer (h : RoundAcks G round T k) {i : Fin n}
    (hthread : round.threads i = .waiting)
    {args : InstallSnapshotRequest n Image} :
    RoundAcks G (round.setThread i (.snapshot args .sent)) T k where
  own := h.own
  sent := by
    intro j args' call hj
    by_cases hji : j = i
    · subst hji
      simp [Round.setThread] at hj
    · exact h.sent j args' call (by simpa [Round.setThread, hji] using hj)
  replied := by
    intro j args' reply hj
    by_cases hji : j = i
    · subst hji
      simp [Round.setThread] at hj
    · exact h.replied j args' reply
        (by simpa [Round.setThread, hji] using hj)
  count := by
    have hle : round.counted G T k ≤
        (round.setThread i (.snapshot args .sent)).counted G T k := by
      refine counted_le rfl ?_
      intro j hj
      have hji : j ≠ i := by
        rintro rfl
        rw [hthread] at hj
        simp [PeerThread.finished] at hj
      simpa [Round.setThread, hji] using hj
    exact h.count.trans (Nat.add_le_add_left hle 1)

/-- A counted reply ends its thread. -/
theorem counted_finish {i : Fin n} {args : AppendEntriesArgs n}
    {reply : AppendEntriesReply}
    (hthread : round.threads i = .append args (.replied reply))
    (hne : i ≠ round.leader) (hacked : k ≤ G.acked i T) :
    round.counted G T k + 1 ≤
      (round.setThread i (.append args .done)).counted G T k := by
  have hopen : (round.threads i).finished = false := by
    rw [hthread]
    rfl
  have hnotin : i ∉ Finset.univ.filter fun j => j ≠ round.leader ∧
      ((round.threads j).finished = true ∧ k ≤ G.acked j T) := by
    simp [hopen]
  rw [Round.counted, ← Finset.card_insert_of_notMem hnotin]
  refine Finset.card_le_card fun j hj => ?_
  simp only [Finset.mem_insert, Finset.mem_filter, Finset.mem_univ,
    true_and] at hj ⊢
  by_cases hji : j = i
  · subst hji
    exact ⟨hne, by simp [Round.setThread, PeerThread.finished], hacked⟩
  · rcases hj with hj | hj
    · exact absurd hj hji
    · exact ⟨hj.1, by simpa [Round.setThread, hji] using hj.2.1, hj.2.2⟩

/-- A round whose counter reaches the majority decides the prefix its request
ends with. -/
theorem decided (h : RoundAcks G round T k) {i : Fin n}
    {args : AppendEntriesArgs n} {reply : AppendEntriesReply}
    {r : Raft n Image} (hcarries : Carries G.minted args)
    (hthread : round.threads i = .append args (.replied reply))
    (hcommits : r.Commits args reply round.appendNums) :
    r.currentTerm = T ∧ k ≤ (G.minted T).length ∧
      lastTerm ((G.minted T).take k) = T ∧
      G.Decided ((G.minted T).take k) := by
  obtain ⟨hne, rfl, rfl⟩ := h.sent i args _ hthread
  obtain ⟨hterm, hacked⟩ :=
    h.replied i args reply hthread hcommits.counts.success
  have hcurrent : r.currentTerm = args.term :=
    hcommits.counts.term.symm.trans hterm
  obtain ⟨-, p, hplen, -, hp⟩ := hcarries
  have htake : (G.minted args.term).take
      (args.prevLogIndex + args.entries.length) = p ++ args.entries := by
    rw [← hplen, ← List.length_append]
    exact (List.prefix_iff_eq_take.mp hp).symm
  have hlen : (p ++ args.entries).length =
      args.prevLogIndex + args.entries.length := by
    rw [List.length_append, hplen]
  have hlast : lastTerm (p ++ args.entries) = args.term := by
    have hentries := hcommits.lastTerm
    rw [hcurrent, Option.map_eq_some_iff] at hentries
    obtain ⟨e, he, heterm⟩ := hentries
    rw [lastTerm, List.getLast?_append, he]
    exact heterm
  have hnil : p ++ args.entries ≠ [] := by
    intro hnil
    have hentries := hcommits.lastTerm
    rw [(List.append_eq_nil_iff.mp hnil).2] at hentries
    simp at hentries
  rw [htake]
  refine ⟨hcurrent, hlen ▸ hp.length_le, hlast, ⟨hnil, hlast.symm ▸ hp⟩, ?_⟩
  have hmost := most_of_count (s := round.leader) (k := round.appendNums + 1)
    (p := fun v => args.prevLogIndex + args.entries.length ≤
      G.acked v args.term) h.own ?_ ?_
  · refine hmost.mono fun v hv => ?_
    rw [Ledger.Acks, hlast, hlen]
    exact hv
  · refine (Nat.add_le_add_right h.count 1).trans ?_
    rw [Nat.add_assoc]
    refine Nat.add_le_add_left ((counted_finish hthread hne hacked).trans
      (Finset.card_le_card ?_)) 1
    intro j hj
    simp only [Finset.mem_filter, Finset.mem_univ, true_and] at hj ⊢
    exact ⟨hj.1, hj.2.2⟩
  · rw [Fintype.card_fin]
    have := hcommits.majority
    omega

end RoundAcks

theorem ThreadCommits.setThread {G : Ledger (Fin n) LogEntry}
    {round : Round n Image} {i : Fin n} {t : PeerThread n Image}
    (h : ∀ j, ThreadCommits G (round.threads j)) (ht : ThreadCommits G t) :
    ∀ j, ThreadCommits G ((round.setThread i t).threads j) := by
  intro j
  by_cases hj : j = i
  · subst hj
    simpa [Round.setThread] using ht
  · simpa [Round.setThread, hj] using h j

theorem PeerThread.Settles.commits {G : Ledger (Fin n) LogEntry}
    {t t' : PeerThread n Image} (hs : t.Settles t') (h : ThreadCommits G t) :
    ThreadCommits G t' := by
  cases hs with
  | refl => exact h
  | append => exact h
  | snapshot => exact h

theorem PeerThread.Settles.finished {t t' : PeerThread n Image}
    (hs : t.Settles t') (h : t.finished = true) : t'.finished = true := by
  cases hs with
  | refl => exact h
  | append args call _ hopen => cases call <;> simp [PeerThread.finished] at h hopen
  | snapshot => simp [PeerThread.finished] at h

theorem PeerThread.Settles.exists_append {t : PeerThread n Image}
    {args : AppendEntriesArgs n} {call : Call AppendEntriesReply}
    (h : t.Settles (.append args call)) : ∃ call₀, t = .append args call₀ := by
  cases h with
  | refl => exact ⟨call, rfl⟩
  | append _ call₀ => exact ⟨call₀, rfl⟩

theorem PeerThread.Settles.replied {t : PeerThread n Image}
    {args : AppendEntriesArgs n} {reply : AppendEntriesReply}
    (h : t.Settles (.append args (.replied reply)))
    (hok : reply.success = true) : t = .append args (.replied reply) := by
  cases h with
  | refl => rfl
  | append _ call₀ _ _ hfail => simp [hfail reply rfl] at hok

theorem RoundCommits.settle {G : Ledger (Fin n) LogEntry}
    {round round' : Round n Image} (h : RoundCommits G round)
    (hs : round.Settles round') : RoundCommits G round' := by
  obtain ⟨T, k, hacks⟩ := h.acks
  refine ⟨fun i => (hs.threads i).commits (h.threads i), T, k, ?_, ?_, ?_, ?_⟩
  · rw [hs.leader]
    exact hacks.own
  · intro i args call hcall
    rw [hs.leader]
    obtain ⟨call₀, hold⟩ := (hcall ▸ hs.threads i).exists_append
    exact hacks.sent i args call₀ hold
  · intro i args reply hcall hok
    exact hacks.replied i args reply ((hcall ▸ hs.threads i).replied hok) hok
  · rw [hs.appendNums]
    exact hacks.count.trans (Nat.add_le_add_left (RoundAcks.counted_le
      hs.leader fun i => (hs.threads i).finished) 1)

end KVRaftStorage
