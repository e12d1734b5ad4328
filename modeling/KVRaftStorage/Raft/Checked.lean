import KVRaftStorage.Raft.Safety
import KVRaftStorage.Raft.Tally

/-!
# What a follower commits

`AppendEntries1` raises the commit index to the smaller of the leader's commit
index and its own last index.  Up to the last entry that the request reaches
the logs of both agree, if no handler has left entries behind so far.  Behind
it nothing has been compared, and the follower may commit entries that its
leader never had.
-/

namespace KVRaftStorage

open Replication Transition

variable {n : ℕ} {Image : Type}

/-! ## Where requests come from -/

/-- The requests a leader builds for a server: `doHeartBeat` sends entries,
`ReadIndex` none. -/
def Raft.Requests (r : Raft n Image) (i : Fin n) (args : AppendEntriesArgs n) :
    Prop :=
  r.status = .leader ∧
    (r.heartBeatTo i = .ok (some args) ∨
      ∃ savedTerm, r.readIndexArgs savedTerm i = .ok (some args))

namespace Cluster

/-- Every request of `ReadIndex` was built in a state of the run. -/
theorem reads_begun {as : List (Action n Image)} {c : Cluster n Image}
    {es : List (Event n Image)} (hrun : (start n Image).run as = some (c, es)) :
    ∀ read ∈ c.reads, ∀ i args call, read.threads i = .append args call →
      ∃ c₀, Visits as c₀ ∧
        (c₀.nodes read.server).readIndexArgs read.savedTerm i =
          .ok (some args) := by
  refine run_lookback (I := fun as c => ∀ read ∈ c.reads, ∀ i args call,
    read.threads i = .append args call → ∃ c₀, Visits as c₀ ∧
      (c₀.nodes read.server).readIndexArgs read.savedTerm i =
        .ok (some args)) (by simp [start]) ?_ hrun
  intro as c es a c' es' hrun ih hstep
  have hreads := (step_cases hstep).reads
  generalize c'.reads = reads at hreads ⊢
  have hold : ∀ read ∈ c.reads, ∀ i args call,
      read.threads i = .append args call → ∃ c₀, Visits (as ++ [a]) c₀ ∧
        (c₀.nodes read.server).readIndexArgs read.savedTerm i =
          .ok (some args) := by
    intro read hread i args call hthread
    obtain ⟨c₀, hvisits, hargs⟩ := ih read hread i args call hthread
    exact ⟨c₀, hvisits.concat a, hargs⟩
  cases hreads with
  | same => exact hold
  | begun s =>
      refine forall_mem_concat hold fun i args call hthread => ?_
      simp only [ReadCall.begun] at hthread
      split at hthread <;> cases hthread
  | @advanced q i thread read count hq hthread =>
      have hmem := List.mem_of_getElem? hq
      refine forall_mem_set hold fun j args call hj => ?_
      by_cases hji : j = i
      · subst hji
        simp only [ReadCall.setThread, Function.update_self] at hj
        cases hthread with
        | sent _ hargs =>
            obtain ⟨rfl, -⟩ : _ = args ∧ _ := by simpa using hj
            exact ⟨c, (Visits.last hrun).concat a, hargs⟩
        | answered hthread =>
            obtain ⟨rfl, -⟩ : _ = args ∧ _ := by simpa using hj
            exact hold read hmem j _ _ hthread
        | finished => cases hj
      · exact hold read hmem j args call
          (by simpa [ReadCall.setThread, hji] using hj)
  | @returned q read hq =>
      exact forall_mem_set hold (hold read (List.mem_of_getElem? hq))

/-- The request that an action executes was built by a leader of the run. -/
theorem appendRequest_sent {as : List (Action n Image)} {c : Cluster n Image}
    {es : List (Event n Image)} {a : Action n Image} {i : Fin n}
    {args : AppendEntriesArgs n}
    (hrun : (start n Image).run as = some (c, es))
    (hm : (i, args) ∈ c.appendRequest? a) :
    ∃ c₀ s, Visits as c₀ ∧ (c₀.nodes s).Requests i args := by
  cases a with
  | appendEntries k j =>
      obtain ⟨round, hr, hm⟩ := Option.bind_eq_some_iff.mp hm
      split at hm
      · next args' hthread =>
          obtain ⟨rfl, rfl⟩ : j = i ∧ args' = args := by simpa using hm
          obtain ⟨c₀, hknown⟩ := rounds_known hrun k round hr
          exact ⟨c₀, round.leader, hknown.visits, hknown.begun.leads,
            .inl (hknown.begun.sent j args' _ hthread)⟩
      · simp at hm
  | readAppendEntries q j =>
      obtain ⟨read, hq, hm⟩ := Option.bind_eq_some_iff.mp hm
      split at hm
      · next args' hthread =>
          obtain ⟨rfl, rfl⟩ : j = i ∧ args' = args := by simpa using hm
          obtain ⟨c₀, hvisits, hargs⟩ :=
            reads_begun hrun read (List.mem_of_getElem? hq) j args' _ hthread
          refine ⟨c₀, read.server, hvisits, ?_, .inr ⟨_, hargs⟩⟩
          unfold Raft.readIndexArgs at hargs
          split at hargs
          · simp at hargs
          · next hleads => exact not_not.mp (not_or.mp hleads).2
      · simp at hm
  | _ => simp [appendRequest?] at hm

end Cluster

/-! ## The new commit index -/

namespace Raft

variable {r r' : Raft n Image} {args : AppendEntriesArgs n}
  {reply : AppendEntriesReply}

/-- The log behind the last carried entry decides the new commit index. -/
def CommitsBehind (r : Raft n Image) (args : AppendEntriesArgs n) : Prop :=
  r.ReachesMerge args ∧
    max r.commitIndex (args.prevLogIndex + args.entries.length) <
      min args.leaderCommit r.getLastLogIndex

instance (r : Raft n Image) (args : AppendEntriesArgs n) :
    Decidable (r.CommitsBehind args) :=
  inferInstanceAs (Decidable (_ ∧ _))

theorem Accepts.reachesMerge (h : r.Accepts args r' reply) :
    r.ReachesMerge args := by
  obtain ⟨hge, hle, hprev⟩ := getLogTermFromLogIndex_eq_ok h.merges.match_prev
  exact ⟨h.le, hge, hle, hprev⟩

/-- The commit index becomes the smaller one of that of the leader and the last
index, if that is larger than it was. -/
theorem Ordered.accepts_commit (h : r.Ordered) (hargs : args.Ordered)
    (hcommands : SameCommands r.logs args.entries)
    (haccepts : r.Accepts args r' reply)
    (hok : r.appendEntries1 args = .ok (r', reply)) :
    r'.commitIndex =
      if r.commitIndex < args.leaderCommit then
        min args.leaderCommit (max r.getLastLogIndex
          (args.prevLogIndex + args.entries.length))
      else r.commitIndex := by
  have hreach := haccepts.reachesMerge
  obtain ⟨r₁, reply₁, hok₁, -, hlogs, hindex, -⟩ :=
    appendEntries1_overwrites hreach h.consecutive h.last hargs.consecutive
      hcommands
  obtain ⟨rfl, rfl⟩ := Prod.mk.inj (Except.ok.inj (hok₁.symm.trans hok))
  obtain ⟨hconsecutive, -⟩ := h.accepts_entries hargs haccepts
  obtain ⟨-, hge, hle, -⟩ := hreach
  have hlen := h.lastLogIndex
  have hlen' := getLastLogIndex_eq hconsecutive
  rw [hlogs, hindex, length_overwrite (by omega)] at hlen'
  rw [haccepts.merges.commit, show r₁.getLastLogIndex =
    max r.getLastLogIndex (args.prevLogIndex + args.entries.length) by omega]

/-- The commit index is raised behind the last entry that the request reaches
exactly in the one branch. -/
theorem Ordered.raises_behind_iff (h : r.Ordered) (hargs : args.Ordered)
    (hcommands : SameCommands r.logs args.entries)
    (haccepts : r.Accepts args r' reply)
    (hok : r.appendEntries1 args = .ok (r', reply)) :
    r.commitIndex < r'.commitIndex ∧
        args.prevLogIndex + args.entries.length < r'.commitIndex ↔
      r.CommitsBehind args := by
  have hcommit := h.accepts_commit hargs hcommands haccepts hok
  have hlast := h.last
  rw [CommitsBehind, and_iff_right haccepts.reachesMerge, hcommit]
  split <;> omega

end Raft

/-! ## Comparing with the sender -/

/-- The run keeps a ledger, and every state it passed through had a part of
it. -/
theorem visits_tracked {as : List (Action n Image)} {c : Cluster n Image}
    {es : List (Event n Image)}
    (hclean : Throughout Cluster.step Cluster.TruncatesLogs
      (Cluster.start n Image) as)
    (hrun : (Cluster.start n Image).run as = some (c, es)) :
    ∃ G : Ledger (Fin n) LogEntry, LogsTracked G c ∧
      ∀ c₀, Cluster.Visits as c₀ →
        ∃ G₀, LogsTracked G₀ c₀ ∧ G₀.Extends G := by
  suffices h : ∃ G : Ledger (Fin n) LogEntry, VotesTracked G.toBallots c ∧
      LogsTracked G c ∧ ∀ c₀, Cluster.Visits as c₀ →
        ∃ G₀, LogsTracked G₀ c₀ ∧ G₀.Extends G by
    obtain ⟨G, -, hL, hvisits⟩ := h
    exact ⟨G, hL, hvisits⟩
  revert hclean
  refine run_lookback (I := fun as c =>
    Throughout Cluster.step Cluster.TruncatesLogs (Cluster.start n Image) as →
      ∃ G : Ledger (Fin n) LogEntry, VotesTracked G.toBallots c ∧
        LogsTracked G c ∧ ∀ c₀, Cluster.Visits as c₀ →
          ∃ G₀, LogsTracked G₀ c₀ ∧ G₀.Extends G) (fun _ => ?_) ?_ hrun
  · refine ⟨Ledger.blank, .start, .start, fun c₀ hvisits => ?_⟩
    obtain rfl := hvisits.nil
    exact ⟨Ledger.blank, .start, .refl _⟩
  · intro as c es a c' es' hrun ih hstep hclean
    obtain ⟨hfirst, hlast, -⟩ := (throughout_append hrun).mp hclean
    obtain ⟨G, hV, hL, hvisits⟩ := ih hfirst
    obtain ⟨G', hext, hV', hL'⟩ :=
      (Cluster.step_move (obeys_truncating hlast) hstep).logs hV hL
    refine ⟨G', hV', hL', fun c₀ hc₀ => ?_⟩
    rcases hc₀.concat_cases hrun hstep with hc₀ | rfl
    · obtain ⟨G₀, hL₀, hext₀⟩ := hvisits c₀ hc₀
      exact ⟨G₀, hL₀, hext₀.trans hext⟩
    · exact ⟨G', hL', .refl G'⟩

/-- The node has the entry at `i`, or has compacted it: then everybody who had
the same entry as it at the boundary had this one at `i`. -/
def Raft.HadEntry (as : List (Action n Image)) (r : Raft n Image) (i : ℕ)
    (entry : LogEntry) : Prop :=
  r.entryAt? i = some entry ∨
    (i ≤ r.lastSnapshotIncludeIndex ∧
      ∀ c w other, Cluster.Visits as c →
        (c.nodes w).termAt? r.lastSnapshotIncludeIndex =
          some r.lastSnapshotIncludeTerm →
        (c.nodes w).entryAt? i = some other → other = entry)

/-- A leader of the run with this log sent the request. -/
def Raft.Sent (as : List (Action n Image)) (r : Raft n Image) (i : Fin n)
    (args : AppendEntriesArgs n) : Prop :=
  ∃ c s, Cluster.Visits as c ∧ c.nodes s = r ∧ r.Requests i args

theorem getElem?_of_take_eq {α : Type} {l l' : List α} {p j : ℕ} {x : α}
    (htake : l.take p = l'.take p) (hj : j < p) (hx : l[j]? = some x) :
    l'[j]? = some x := by
  have h := congrArg (fun l => l[j]?) htake
  simp only [List.getElem?_take, hj, if_true] at h
  exact h.symm.trans hx

namespace LogsTracked

variable {G₀ G₁ G : Ledger (Fin n) LogEntry} {c₀ c₁ c : Cluster n Image}

/-- A request reaches into the log of the leader, which is what its term has
minted. -/
theorem request (h : LogsTracked G c) {s i : Fin n}
    {args : AppendEntriesArgs n} (hr : (c.nodes s).Requests i args) :
    Carries G.minted args ∧ G.minted args.term = G.log s ∧
      args.prevLogIndex + args.entries.length ≤ (G.log s).length := by
  obtain ⟨hl, hr⟩ := hr
  obtain ⟨hminted, -⟩ := (h.nodes s).leader hl
  rcases hr with hargs | ⟨savedTerm, hargs⟩
  · obtain ⟨hterm, -, hle, -, hentries⟩ := (h.nodes s).holds.heartBeatArgs_eq_ok
      (Raft.Holds.heartBeatTo_eq_some hargs)
    refine ⟨h.heartbeat_carries hl hargs, hterm ▸ hminted, ?_⟩
    rw [hentries, List.length_drop]
    omega
  · obtain ⟨-, -, hterm, -, hle, -, hentries⟩ :=
      (h.nodes s).holds.readIndexArgs_eq_some hargs
    refine ⟨h.readIndex_carries hargs, hterm ▸ hminted, ?_⟩
    rwa [hentries, List.length_nil, Nat.add_zero]

/-- Two nodes with the same term at an index, each in its state of the run,
have had the same log up to there. -/
theorem take_eq (h₀ : LogsTracked G₀ c₀) (h₁ : LogsTracked G₁ c₁)
    (hext₀ : G₀.Extends G) (hext₁ : G₁.Extends G) {s w : Fin n} {i t : ℕ}
    (hs : (c₀.nodes s).termAt? i = some t)
    (hw : (c₁.nodes w).termAt? i = some t) :
    (G₀.log s).take i = (G₁.log w).take i := by
  obtain ⟨-, hslen, hsterm⟩ := (h₀.nodes s).holds.termAt?_eq_some hs
  obtain ⟨-, hwlen, hwterm⟩ := (h₁.nodes w).holds.termAt?_eq_some hw
  refine ((h₀.matched.log s).mono hext₀.minted).eq_of_lastTerm
    ((h₁.matched.log w).mono hext₁.minted) (List.take_prefix _ _)
    (List.take_prefix _ _) ?_ (hsterm.trans hwterm.symm)
  rw [List.length_take_of_le hslen, List.length_take_of_le hwlen]

/-- A receiver that accepts a request has the log of the sender up to where the
request reaches. -/
theorem accepts_take (h : LogsTracked G c) (h₀ : LogsTracked G₀ c₀)
    (hext : G₀.Extends G) {i j s : Fin n} {args : AppendEntriesArgs n}
    {r : Raft n Image} {reply : AppendEntriesReply}
    (hr : (c₀.nodes s).Requests j args)
    (haccepts : (c.nodes i).Accepts args r reply)
    (hclean : ¬(c.nodes i).KeepsStaleEntries args) :
    ∃ l, r.Holds l ∧
      l.take (args.prevLogIndex + args.entries.length) =
        (G₀.log s).take (args.prevLogIndex + args.entries.length) := by
  obtain ⟨hcarries, hminted, hle⟩ := h₀.request hr
  have hsent : (G.minted args.term).take
      (args.prevLogIndex + args.entries.length) =
        (G₀.log s).take (args.prevLogIndex + args.entries.length) :=
    take_of_isPrefix (hminted ▸ hext.minted args.term) hle
  obtain ⟨hreach, hholds⟩ := (h.nodes i).holds.accepts (h.matched.log i)
    (h.matched.minted _) (h.indexed _) (hcarries.mono hext.minted) haccepts
    hclean
  refine ⟨_, hholds, hsent ▸ ?_⟩
  split
  · next hin =>
      have htake := List.prefix_iff_eq_take.mp hin
      rw [List.length_take_of_le hreach] at htake
      exact htake.symm
  · rw [List.take_take, Nat.min_self]

end LogsTracked

namespace Cluster

variable {as : List (Action n Image)} {c : Cluster n Image}
  {es : List (Event n Image)} {a : Action n Image} {i : Fin n}
  {args : AppendEntriesArgs n} {r : Raft n Image} {reply : AppendEntriesReply}

/-- Up to where the request reaches, a receiver that accepts it has the entries
of every leader that sent it. -/
theorem accepts_hadEntry
    (hclean : Throughout Cluster.step TruncatesLogs (start n Image) as)
    (hrun : (start n Image).run as = some (c, es))
    (htruncates : ¬(c.nodes i).KeepsStaleEntries args)
    (haccepts : (c.nodes i).Accepts args r reply) {r₀ : Raft n Image}
    {j : Fin n} (hsent : r₀.Sent as j args) {k : ℕ}
    (hk : k ≤ args.prevLogIndex + args.entries.length) {entry : LogEntry}
    (hentry : r.entryAt? k = some entry) : r₀.HadEntry as k entry := by
  obtain ⟨c₀, s, hvisits, rfl, hr⟩ := hsent
  obtain ⟨G, hL, htracked⟩ := visits_tracked hclean hrun
  obtain ⟨G₀, hL₀, hext₀⟩ := htracked c₀ hvisits
  obtain ⟨l, hholds, htake⟩ := hL.accepts_take hL₀ hext₀ hr haccepts htruncates
  obtain ⟨hlt, hget⟩ := hholds.entryAt?_eq_some hentry
  have hget₀ := getElem?_of_take_eq htake (by omega) hget
  have hsender := (hL₀.nodes s).holds
  by_cases hcompacted : (c₀.nodes s).lastSnapshotIncludeIndex < k
  · exact .inl ((hsender.entryAt?_eq hcompacted).trans hget₀)
  · refine .inr ⟨Nat.le_of_not_lt hcompacted,
      fun c₁ w other hvisits₁ hboundary hother => ?_⟩
    obtain ⟨G₁, hL₁, hext₁⟩ := htracked c₁ hvisits₁
    have hsame := hL₀.take_eq hL₁ hext₀ hext₁ (s := s) (if_pos rfl) hboundary
    obtain ⟨-, hget₁⟩ := (hL₁.nodes w).holds.entryAt?_eq_some hother
    have hget₂ := getElem?_of_take_eq hsame (by omega) hget₀
    exact Option.some.inj (hget₁.symm.trans hget₂)

/-! ## Committing what was checked -/

/-- If the request that the action executes raises the commit index, then not
behind its last entry, and up to there the receiver has the entries of every
leader that sent it. -/
def CommitsChecked (as : List (Action n Image)) (c : Cluster n Image)
    (a : Action n Image) : Prop :=
  ∀ i args r reply, (i, args) ∈ c.appendRequest? a →
    (c.nodes i).appendEntries1 args = .ok (r, reply) →
    (c.nodes i).commitIndex < r.commitIndex →
      r.commitIndex ≤ args.prevLogIndex + args.entries.length ∧
      (∃ r₀ : Raft n Image, r₀.Sent as i args) ∧
      ∀ r₀ : Raft n Image, r₀.Sent as i args → ∀ k ≤ r.commitIndex, ∀ entry,
        r.entryAt? k = some entry → r₀.HadEntry as k entry

/-- No request lets its receiver commit behind its last entry. -/
def ComparesCommits (c : Cluster n Image) (a : Action n Image) : Prop :=
  ∀ m ∈ c.appendRequest? a, ¬(c.nodes m.1).CommitsBehind m.2

instance (c : Cluster n Image) (a : Action n Image) :
    Decidable (c.ComparesCommits a) :=
  inferInstanceAs (Decidable (∀ m ∈ c.appendRequest? a, _))

/-- Per step. -/
theorem commitsChecked_iff
    (hclean : Throughout Cluster.step TruncatesLogs (start n Image) as)
    (hrun : (start n Image).run as = some (c, es))
    (htruncates : c.TruncatesLogs a) :
    c.CommitsChecked as a ↔ c.ComparesCommits a := by
  obtain ⟨B, minted, hc⟩ := recorded_of_run hrun
  have hbehind : ∀ i args r reply, (i, args) ∈ c.appendRequest? a →
      (c.nodes i).appendEntries1 args = .ok (r, reply) →
      (c.nodes i).Accepts args r reply →
      ((c.nodes i).commitIndex < r.commitIndex ∧
          args.prevLogIndex + args.entries.length < r.commitIndex ↔
        (c.nodes i).CommitsBehind args) :=
    fun i args r reply hm hok haccepts =>
      (hc.ordered.nodes i).raises_behind_iff (hc.ordered.appendRequest hm)
        (Raft.sameCommands_of_written (hc.nodes i).written (hc.request_written hm))
        haccepts hok
  constructor
  · rintro hchecked ⟨i, args⟩ hm hcommits
    obtain ⟨r, reply, hok, hsuccess, -⟩ :=
      Raft.appendEntries1_overwrites hcommits.1 (hc.ordered.nodes i).consecutive
        (hc.ordered.nodes i).last (hc.ordered.appendRequest hm).consecutive
        (Raft.sameCommands_of_written (hc.nodes i).written (hc.request_written hm))
    have haccepts := (Raft.appendEntries1_eq_ok hok).resolve_left fun hfail =>
      Bool.false_ne_true (hfail.1.symm.trans hsuccess)
    obtain ⟨hraised, hlt⟩ := (hbehind i args r reply hm hok haccepts).mpr hcommits
    exact Nat.not_le_of_lt hlt (hchecked i args r reply hm hok hraised).1
  · intro hcompares i args r reply hm hok hraised
    have haccepts := (Raft.appendEntries1_eq_ok hok).resolve_left fun hfail =>
      hraised.ne' hfail.2.1.commit
    have hle : r.commitIndex ≤ args.prevLogIndex + args.entries.length := by
      by_contra hlt
      exact hcompares (i, args) hm ((hbehind i args r reply hm hok haccepts).mp
        ⟨hraised, Nat.lt_of_not_le hlt⟩)
    obtain ⟨c₀, s, hvisits, hr⟩ := appendRequest_sent hrun hm
    exact ⟨hle, ⟨_, c₀, s, hvisits, rfl, hr⟩, fun r₀ hsent k hk entry hentry =>
      accepts_hadEntry hclean hrun (htruncates.1 (i, args) hm) haccepts hsent
        (hk.trans hle) hentry⟩

end Cluster

open Cluster in
/-- In a run in which no handler leaves entries behind, every request lets its
receiver commit only what it has checked, if and only if none lets it commit
behind its last entry. -/
theorem commits_checked_iff {as : List (Action n Image)} {c : Cluster n Image}
    {es : List (Event n Image)}
    (hclean : Throughout Cluster.step TruncatesLogs (Cluster.start n Image) as)
    (hrun : (Cluster.start n Image).run as = some (c, es)) :
    (∀ as₁ a as₂ c₁ es₁, as = as₁ ++ a :: as₂ →
        (Cluster.start n Image).run as₁ = some (c₁, es₁) →
        c₁.CommitsChecked as₁ a) ↔
      Throughout Cluster.step ComparesCommits (Cluster.start n Image) as := by
  refine Iff.trans ?_ (throughout_iff_forall hrun).symm
  have hstep : ∀ as₁ a as₂ (c₁ : Cluster n Image) es₁, as = as₁ ++ a :: as₂ →
      (Cluster.start n Image).run as₁ = some (c₁, es₁) →
      (c₁.CommitsChecked as₁ a ↔ c₁.ComparesCommits a) := by
    rintro as₁ a as₂ c₁ es₁ rfl hfirst
    obtain ⟨hbefore, htruncates, -⟩ := (throughout_append hfirst).mp hclean
    exact commitsChecked_iff hbefore hfirst htruncates
  constructor
  · intro h as₁ a as₂ c₁ es₁ has hfirst
    exact (hstep as₁ a as₂ c₁ es₁ has hfirst).mp (h as₁ a as₂ c₁ es₁ has hfirst)
  · intro h as₁ a as₂ c₁ es₁ has hfirst
    exact (hstep as₁ a as₂ c₁ es₁ has hfirst).mpr (h as₁ a as₂ c₁ es₁ has hfirst)

open Cluster in
/-- Server 1 commits the first entry of its leader, which the heartbeat carried
to it before. -/
theorem commits_checked_replicated :
    ∃ c es, (Cluster.start 3 Unit).run replicatedRun = some (c, es) ∧
      (c.nodes 1).commitIndex = 1 ∧
      ∀ as₁ a as₂ c₁ es₁, replicatedRun = as₁ ++ a :: as₂ →
        (Cluster.start 3 Unit).run as₁ = some (c₁, es₁) →
        c₁.CommitsChecked as₁ a := by
  obtain ⟨c, es, hrun, hcommit⟩ : ∃ c es,
      (Cluster.start 3 Unit).run replicatedRun = some (c, es) ∧
        (c.nodes 1).commitIndex = 1 := by
    decide +kernel
  exact ⟨c, es, hrun, hcommit,
    (commits_checked_iff (by decide +kernel) hrun).mpr (by decide +kernel)⟩

open Cluster in
/-- The deposed server 0 receives the empty request of its successor's
`ReadIndex` and commits an entry that its successor does not have. -/
theorem commits_unchecked :
    ∃ c es c' es',
      (Cluster.start 3 Unit).run (unverifiedRun.take 11) = some (c, es) ∧
      c.step (.readAppendEntries 0 0) = some (c', es') ∧
      ¬c.CommitsChecked (unverifiedRun.take 11) (.readAppendEntries 0 0) ∧
      (c.nodes 0).commitIndex = 0 ∧ (c'.nodes 0).commitIndex = 1 ∧
      (c'.nodes 0).entryAt? 1 ≠ none ∧
      (c'.nodes 0).entryAt? 1 ≠ (c.nodes 1).entryAt? 1 := by
  obtain ⟨c, es, hrun, htruncates, hbehind, c', es', hstep, hentries⟩ : ∃ c es,
      (Cluster.start 3 Unit).run (unverifiedRun.take 11) = some (c, es) ∧
        c.TruncatesLogs (.readAppendEntries 0 0) ∧
        ¬c.ComparesCommits (.readAppendEntries 0 0) ∧
        ∃ c' es', c.step (.readAppendEntries 0 0) = some (c', es') ∧
          (c.nodes 0).commitIndex = 0 ∧ (c'.nodes 0).commitIndex = 1 ∧
          (c'.nodes 0).entryAt? 1 ≠ none ∧
          (c'.nodes 0).entryAt? 1 ≠ (c.nodes 1).entryAt? 1 := by
    decide +kernel
  exact ⟨c, es, c', es', hrun, hstep, fun hchecked => hbehind
    ((commitsChecked_iff (by decide +kernel) hrun htruncates).mp hchecked),
    hentries⟩

end KVRaftStorage
