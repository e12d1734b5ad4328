import KVRaftStorage.Raft.Rounds
import KVRaftStorage.Support.Quorum

/-!
# What a raised commit index stands for

A leader raises its commit index when the replies of one round reach a
majority.  All requests of a round end at the last entry the leader had when it
began the round, and a server answers with success only if it holds that entry
then.  The counter of the round never exceeds the number of servers that
answered so, so every raise is backed by a majority.  This holds in every run.
-/

namespace KVRaftStorage

open Replication Transition

variable {n : ℕ} {Image : Type}

/-! ## The log of a leader -/

namespace Raft

variable {r r' : Raft n Image} {i : ℕ} {entry : LogEntry}

/-- The node has the entry at `i`, or has compacted it as a committed one. -/
def Retains (r : Raft n Image) (i : ℕ) (entry : LogEntry) : Prop :=
  r.entryAt? i = some entry ∨
    (i ≤ r.lastSnapshotIncludeIndex ∧ i ≤ r.commitIndex)

theorem entryAt?_append {tail : List LogEntry}
    (hindex : r'.lastSnapshotIncludeIndex = r.lastSnapshotIncludeIndex)
    (hlogs : r'.logs = r.logs ++ tail) (h : r.entryAt? i = some entry) :
    r'.entryAt? i = some entry := by
  unfold entryAt? at h ⊢
  rw [hindex, hlogs]
  split at h
  · next hlt =>
      rw [if_pos hlt,
        List.getElem?_append_left (List.getElem?_eq_some_iff.mp h).1, h]
  · cases h

end Raft

namespace Cluster

variable {c c' : Cluster n Image} {a : Action n Image} {s : Fin n}
  {r : Raft n Image} {i : ℕ} {entry : LogEntry}

/-- Nobody overwrites the log of a leader. -/
theorem LogStep.retains (h : c.LogStep a s r) (hordered : (c.nodes s).Ordered)
    (hadvances : (c.nodes s).Advances r) (hl : r.status = .leader)
    (hr : (c.nodes s).Retains i entry) : r.Retains i entry := by
  have hbehind : i ≤ (c.nodes s).lastSnapshotIncludeIndex ∧
      i ≤ (c.nodes s).commitIndex →
      i ≤ r.lastSnapshotIncludeIndex ∧ i ≤ r.commitIndex :=
    fun h => ⟨h.1.trans hadvances.boundary, h.2.trans hadvances.commit⟩
  cases h with
  | same hsame =>
      refine hr.imp (fun hentry => ?_) hbehind
      rw [hsame.entryAt?, hentry]
  | appended command _ _ hlogs hindex =>
      exact hr.imp (Raft.entryAt?_append hindex hlogs) hbehind
  | accepted _ haccepts => simp [haccepts.status] at hl
  | installed hinstalls => simp [hinstalls.status] at hl
  | @compacted index hcompacts =>
      by_cases hi : index < i
      · refine hr.imp (fun hentry => ?_) hbehind
        rw [hordered.compacts_entryAt? hcompacts hi, hentry]
      · have hle := Nat.le_of_not_lt hi
        exact .inr ⟨hcompacts.boundary ▸ hle,
          (hle.trans hcompacts.le).trans hadvances.commit⟩

end Cluster

namespace Recorded

variable {B : Ballots (Fin n)} {minted : ℕ → ℕ → Option Op}
  {c c' : Cluster n Image} {a : Action n Image} {es : List (Event n Image)}
  {i : ℕ} {entry : LogEntry}

theorem retains_step (h : Recorded B minted c)
    (hstep : c.step a = some (c', es)) {v : Fin n}
    (hl : (c'.nodes v).status = .leader) (hr : (c.nodes v).Retains i entry) :
    (c'.nodes v).Retains i entry := by
  cases (Cluster.step_cases hstep).nodes with
  | same hnodes _ => rwa [hnodes]
  | @handled s r hhandles hnodes _ =>
      rw [hnodes] at hl ⊢
      by_cases hv : v = s
      · subst hv
        rw [Function.update_self] at hl ⊢
        exact hhandles.logStep.retains (h.ordered.nodes v)
          (h.ordered.handles hhandles).2 hl hr
      · rwa [Function.update_of_ne hv]
  | @ended s p _ hnodes _ =>
      rw [hnodes] at hl ⊢
      by_cases hv : v = s
      · subst hv
        simp at hl
      · rwa [Function.update_of_ne hv]

/-- What was on record stays on record, and a leader that still leads the same
term has kept its log. -/
theorem run (h : Recorded B minted c) {as : List (Action n Image)}
    (hrun : c.run as = some (c', es)) :
    ∃ B' minted', Recorded B' minted' c' ∧ B.Extends B' ∧
      (∀ T j command, minted T j = some command →
        minted' T j = some command) ∧
      ∀ v, (c.nodes v).status = .leader → (c'.nodes v).status = .leader →
        (c'.nodes v).currentTerm = (c.nodes v).currentTerm →
        ∀ i entry, (c.nodes v).Retains i entry →
          (c'.nodes v).Retains i entry := by
  refine run_invariant (I := fun c' => ∃ B' minted', Recorded B' minted' c' ∧
    B.Extends B' ∧ (∀ T j command, minted T j = some command →
      minted' T j = some command) ∧
    ∀ v, (c.nodes v).status = .leader → (c'.nodes v).status = .leader →
      (c'.nodes v).currentTerm = (c.nodes v).currentTerm →
      ∀ i entry, (c.nodes v).Retains i entry → (c'.nodes v).Retains i entry)
    ?_ (throughout_true c as)
    ⟨B, minted, h, .refl B, fun _ _ _ heq => heq,
      fun _ _ _ _ _ _ hr => hr⟩ hrun
  rintro c₁ a c₂ es' - ⟨B₁, minted₁, h₁, hext, hgrows, hretains⟩ hstep
  obtain ⟨B₂, minted₂, h₂, hfresh, hext₂, hmints, -⟩ := h₁.step hstep
  refine ⟨B₂, minted₂, h₂, hext.trans hext₂,
    fun T j command heq => hmints.grows T j command (hgrows T j command heq),
    fun v hl hl₂ hterm i entry hr => ?_⟩
  rcases hfresh v hl₂ with ⟨hl₁, hterm₁⟩ | hnone
  · exact h₁.retains_step hstep hl₂
      (hretains v hl hl₁ (hterm₁.symm.trans hterm) i entry hr)
  · -- the term has been won already
    have hwinner := hext.winner _ _ ((h.votes.nodes v).leader hl).1
    rw [← hterm, hnone] at hwinner
    cases hwinner

end Recorded

/-! ## What an acknowledgement says -/

/-- The term of the last entry that a request reaches. -/
def AppendEntriesArgs.lastTerm (args : AppendEntriesArgs n) : ℕ :=
  (args.entries.getLast?.map LogEntry.logTerm).getD args.prevLogTerm

namespace Raft

variable {r r' : Raft n Image} {args : AppendEntriesArgs n}

theorem getPrevLogInfo_termAt? {server : Fin n} {prev term : ℕ}
    (h : r.getPrevLogInfo server = .ok (prev, term)) :
    r.termAt? prev = some term := by
  unfold getPrevLogInfo at h
  split at h
  · obtain ⟨rfl, rfl⟩ : r.lastSnapshotIncludeIndex = prev ∧
        r.lastSnapshotIncludeTerm = term := by simpa using h
    exact if_pos rfl
  · rw [exec_bind_eq_ok] at h
    obtain ⟨entry, hentry, h⟩ := h
    obtain ⟨rfl, rfl⟩ : r.nextIndex server - 1 = prev ∧
        entry.logTerm = term := by simpa using h
    obtain ⟨hlt, -, hentry⟩ := entryAt_eq_ok hentry
    rw [termAt?, if_neg hlt.ne', hentry]
    rfl

/-- Entries that end a log end with its last entry. -/
theorem entriesAfter_getLast? {prev : ℕ} {entries : List LogEntry}
    (h : r.entriesAfter prev = .ok entries) (hne : entries ≠ []) :
    entries.getLast? = r.logs.getLast? := by
  unfold entriesAfter at h
  split at h
  · rw [exec_bind_eq_ok] at h
    obtain ⟨slice, -, h⟩ := h
    obtain rfl := exec_pure_eq_ok.mp h
    rw [List.getLast?_drop, if_neg]
    exact fun hle => hne (List.drop_eq_nil_of_le hle)
  · obtain rfl := exec_pure_eq_ok.mp h
    rfl

/-- A heartbeat reaches to the last entry of the leader. -/
theorem Ordered.heartBeatTo_lastTerm (h : r.Ordered) {server : Fin n}
    (hargs : r.heartBeatTo server = .ok (some args)) :
    args.term = r.currentTerm ∧ args.lastTerm = r.getLastLogTerm := by
  have hargs := Holds.heartBeatTo_eq_some hargs
  simp only [heartBeatArgs, exec_bind_eq_ok, myAssert_eq_ok] at hargs
  obtain ⟨⟨prev, term⟩, hprev, entries, hentries, -, hlen, hargs⟩ := hargs
  obtain rfl := exec_pure_eq_ok.mp hargs
  refine ⟨rfl, ?_⟩
  simp only [AppendEntriesArgs.lastTerm]
  by_cases hne : entries = []
  · subst hne
    have hterm := getPrevLogInfo_termAt? hprev
    rw [show prev = r.getLastLogIndex from hlen,
      termAt?_getLastLogIndex h.consecutive] at hterm
    exact (Option.some.inj hterm).symm
  · have hlast := entriesAfter_getLast? hentries hne
    obtain ⟨entry, hentry⟩ :=
      Option.ne_none_iff_exists'.mp (mt List.getLast?_eq_none_iff.mp hne)
    rw [hentry] at hlast ⊢
    simp [getLastLogTerm, getLastLogIndexAndTerm, ← hlast]

/-- A server that answers with success has the last term of the request where
the request ends. -/
theorem Ordered.accepts_lastTerm (h : r.Ordered) (hargs : args.Ordered)
    {reply : AppendEntriesReply} (hcommands : SameCommands r.logs args.entries)
    (hok : r.appendEntries1 args = .ok (r', reply))
    (hsuccess : reply.success = true) :
    reply.term = args.term ∧ r'.currentTerm = args.term ∧
      r'.termAt? (args.prevLogIndex + args.entries.length) =
        some args.lastTerm := by
  have haccepts := (appendEntries1_eq_ok hok).resolve_left fun hfail =>
    Bool.false_ne_true (hfail.1.symm.trans hsuccess)
  obtain ⟨hge, hle, hprev⟩ :=
    getLogTermFromLogIndex_eq_ok haccepts.merges.match_prev
  obtain ⟨r₁, reply₁, hok₁, -, hlogs, hindex, hboundary, -⟩ :=
    appendEntries1_overwrites ⟨haccepts.le, hge, hle, hprev⟩ h.consecutive
      h.last hargs.consecutive hcommands
  obtain ⟨rfl, rfl⟩ := Prod.mk.inj (Except.ok.inj (hok₁.symm.trans hok))
  refine ⟨haccepts.replyTerm, haccepts.term, ?_⟩
  have hlen := h.lastLogIndex
  have hk : args.prevLogIndex - r.lastSnapshotIncludeIndex ≤ r.logs.length := by
    omega
  cases hlast : args.entries.getLast? with
  | none =>
      have hnil := List.getLast?_eq_none_iff.mp hlast
      rw [hnil, overwrite_nil] at hlogs
      rw [AppendEntriesArgs.lastTerm, hnil, List.length_nil, Nat.add_zero,
        termAt?, SameLog.entryAt? ⟨hlogs, hindex, hboundary⟩, hindex, hboundary]
      exact hprev
  | some entry =>
      rw [List.getLast?_eq_getElem?] at hlast
      have hpos := (List.getElem?_eq_some_iff.mp hlast).1
      rw [AppendEntriesArgs.lastTerm, List.getLast?_eq_getElem?, hlast, termAt?,
        if_neg (by omega), entryAt?, if_pos (by omega), hlogs, hindex,
        show args.prevLogIndex + args.entries.length -
          r.lastSnapshotIncludeIndex - 1 = args.prevLogIndex -
            r.lastSnapshotIncludeIndex + (args.entries.length - 1) by omega,
        getElem?_overwrite_add hk hpos, hlast]
      rfl

end Raft

/-! ## The counter of a round -/

/-- The thread has not processed its reply yet. -/
def PeerThread.awaited : PeerThread n Image → Bool
  | .append _ .sent | .append _ (.replied _) => true
  | .append _ .done | .snapshot _ _ | .waiting | .idle => false

namespace Round

/-- The servers whose replies can still be counted. -/
def awaited (round : Round n Image) : Finset (Fin n) :=
  Finset.univ.filter fun i => (round.threads i).awaited = true

/-- The counter is backed by servers that satisfy `p`, and the successful
replies that it will still take into account are of term `T` and come from such
servers. -/
structure Counted (round : Round n Image) (T : ℕ) (p : Fin n → Prop) :
    Prop where
  replied : ∀ i args reply, round.threads i = .append args (.replied reply) →
    reply.success = true → reply.term = T ∧ p i
  count : ∃ Q : Finset (Fin n), round.leader ∉ Q ∧
    (∀ i ∈ Q, i ∉ round.awaited ∧ p i) ∧ round.appendNums ≤ 1 + Q.card

/-- The counter and the replies to come do not exceed the servers, and once the
counter was reset they do not reach a majority any more. -/
structure Budgeted (round : Round n Image) : Prop where
  left : round.appendNums + round.awaited.card ≤ n
  reset : round.appendNums = 0 → n / 2 + 1 + round.awaited.card ≤ n

variable {round : Round n Image} {T : ℕ} {p q : Fin n → Prop} {i : Fin n}
  {thread : PeerThread n Image}

theorem mem_awaited : i ∈ round.awaited ↔ (round.threads i).awaited = true := by
  simp [awaited]

theorem awaited_setThread (hnew : thread.awaited = false) :
    (round.setThread i thread).awaited = round.awaited.erase i := by
  ext j
  rw [Finset.mem_erase, mem_awaited, mem_awaited]
  by_cases hj : j = i
  · subst hj
    simp [setThread, hnew]
  · simp [setThread, hj]

theorem awaited_setThread_of_eq
    (hnew : thread.awaited = (round.threads i).awaited) :
    (round.setThread i thread).awaited = round.awaited := by
  ext j
  rw [mem_awaited, mem_awaited]
  by_cases hj : j = i
  · subst hj
    simp [setThread, hnew]
  · simp [setThread, hj]

theorem Counted.mono (h : round.Counted T p) (hpq : ∀ i, p i → q i) :
    round.Counted T q where
  replied := fun i args reply hthread hsuccess =>
    (h.replied i args reply hthread hsuccess).imp id (hpq i)
  count := by
    obtain ⟨Q, hleader, hQ, hcount⟩ := h.count
    exact ⟨Q, hleader, fun i hi => ⟨(hQ i hi).1, hpq i (hQ i hi).2⟩, hcount⟩

theorem Counted.setThread_replied (h : round.Counted T p)
    (hnew : ∀ args reply, thread = .append args (.replied reply) →
      reply.success = true → reply.term = T ∧ p i)
    (j : Fin n) (args : AppendEntriesArgs n) (reply : AppendEntriesReply)
    (hj : (round.setThread i thread).threads j =
      .append args (.replied reply)) (hsuccess : reply.success = true) :
    reply.term = T ∧ p j := by
  by_cases hji : j = i
  · subst hji
    exact hnew args reply (by simpa [setThread] using hj) hsuccess
  · exact h.replied j args reply (by simpa [setThread, hji] using hj) hsuccess

/-- A thread moves on without being counted. -/
theorem Counted.setThread (h : round.Counted T p)
    (hold : thread.awaited = true → (round.threads i).awaited = true)
    (hnew : ∀ args reply, thread = .append args (.replied reply) →
      reply.success = true → reply.term = T ∧ p i) :
    (round.setThread i thread).Counted T p where
  replied := h.setThread_replied hnew
  count := by
    obtain ⟨Q, hleader, hQ, hcount⟩ := h.count
    refine ⟨Q, hleader, fun j hj => ⟨fun hopen => (hQ j hj).1 ?_, (hQ j hj).2⟩,
      hcount⟩
    rw [mem_awaited] at hopen ⊢
    by_cases hji : j = i
    · subst hji
      exact hold (by simpa [Round.setThread] using hopen)
    · simpa [Round.setThread, hji] using hopen

/-- A reply is counted: its server has not been counted before. -/
theorem Counted.add (h : round.Counted T p) {args : AppendEntriesArgs n}
    {nums : ℕ} (hi : i ∈ round.awaited) (hne : round.leader ≠ i) (hp : p i)
    (hnums : nums ≤ round.appendNums + 1) :
    { round.setThread i (.append args .done) with
      appendNums := nums }.Counted T p where
  replied := h.setThread_replied (by simp)
  count := by
    obtain ⟨Q, hleader, hQ, hcount⟩ := h.count
    have hfresh : i ∉ Q := fun hmem => (hQ i hmem).1 hi
    refine ⟨insert i Q, ?_, fun j hj => ?_, ?_⟩
    · rw [Finset.mem_insert]
      exact not_or.mpr ⟨hne, hleader⟩
    · change j ∉ (round.setThread i (.append args .done)).awaited ∧ p j
      rw [awaited_setThread rfl, Finset.mem_erase, not_and]
      rcases Finset.mem_insert.mp hj with rfl | hj
      · exact ⟨fun hne => absurd rfl hne, hp⟩
      · exact ⟨fun _ => (hQ j hj).1, (hQ j hj).2⟩
    · rw [Finset.card_insert_of_notMem hfresh]
      exact hnums.trans (by omega)

theorem Budgeted.keep (h : round.Budgeted)
    (hnew : thread.awaited = (round.threads i).awaited) :
    (round.setThread i thread).Budgeted where
  left := by
    rw [awaited_setThread_of_eq hnew]
    exact h.left
  reset := by
    rw [awaited_setThread_of_eq hnew]
    exact h.reset

theorem awaited_finish {args : AppendEntriesArgs n} (hi : i ∈ round.awaited) :
    (round.setThread i (.append args .done)).awaited.card + 1 =
      round.awaited.card := by
  rw [awaited_setThread rfl]
  exact Finset.card_erase_add_one hi

/-- A reply is processed: the counter takes it into account unless that makes a
majority. -/
theorem Budgeted.finish (h : round.Budgeted) {args : AppendEntriesArgs n}
    {nums : ℕ} (hi : i ∈ round.awaited)
    (hnums : nums = round.appendNums ∨ nums = round.appendNums + 1 ∨
      (n / 2 ≤ round.appendNums ∧ nums = 0)) :
    { round.setThread i (.append args .done) with
      appendNums := nums }.Budgeted := by
  have hcard := @awaited_finish _ _ round i args hi
  have hleft := h.left
  have hreset := h.reset
  constructor
  · change nums + (round.setThread i (.append args .done)).awaited.card ≤ n
    omega
  · intro hzero
    change n / 2 + 1 +
      (round.setThread i (.append args .done)).awaited.card ≤ n
    have hzero : nums = 0 := hzero
    rcases hnums with hsame | hmore | ⟨hmost, -⟩
    · have := hreset (hsame.symm.trans hzero)
      omega
    · omega
    · omega

/-- The counter and the replies to come stay below a majority. -/
def Spent (round : Round n Image) : Prop :=
  n / 2 + 1 + (round.appendNums + round.awaited.card) ≤ n

theorem Budgeted.spent (h : round.Budgeted) (hzero : round.appendNums = 0) :
    round.Spent := by
  rw [Spent, hzero, Nat.zero_add]
  exact h.reset hzero

end Round

/-! ## Rounds of a run -/

/-- What `sendAppendEntries` does to the counter. -/
theorem Raft.sendAppendEntries_nums {r r' : Raft n Image} {server : Fin n}
    {args : AppendEntriesArgs n} {reply : AppendEntriesReply} {nums nums' : ℕ}
    (h : r.sendAppendEntries server args reply nums = .ok (r', nums')) :
    nums' = nums ∨ (reply.success = true ∧
      (nums' = nums + 1 ∨ (n / 2 ≤ nums ∧ nums' = 0))) := by
  unfold Raft.sendAppendEntries at h
  split at h
  · exact .inl (Prod.mk.inj (Except.ok.inj h)).2.symm
  split at h
  · exact .inl (Prod.mk.inj (Except.ok.inj h)).2.symm
  split at h
  · exact .inl (Prod.mk.inj (Except.ok.inj h)).2.symm
  split at h
  · exact .inl (Prod.mk.inj (Except.ok.inj h)).2.symm
  rw [exec_bind_eq_ok] at h
  obtain ⟨-, -, h⟩ := h
  split at h
  · split at h <;> exact .inl (Prod.mk.inj (exec_pure_eq_ok.mp h)).2.symm
  · next hsuccess =>
      refine .inr ⟨by simpa using hsuccess, ?_⟩
      rw [exec_bind_eq_ok] at h
      obtain ⟨-, -, h⟩ := h
      split at h
      · next hmost =>
          rw [exec_bind_eq_ok] at h
          obtain ⟨-, -, h⟩ := h
          exact .inr ⟨by omega, (Prod.mk.inj (exec_pure_eq_ok.mp h)).2.symm⟩
      · exact .inl (Prod.mk.inj (exec_pure_eq_ok.mp h)).2.symm

/-- The answer of a server that holds the last entry of the leader `r₀`. -/
def Raft.HoldsLast (r₀ : Raft n Image) (reply : AppendEntriesReply)
    (r : Raft n Image) : Prop :=
  reply.term = r₀.currentTerm ∧ r.currentTerm = r₀.currentTerm ∧
    r.termAt? r₀.getLastLogIndex = some r₀.getLastLogTerm

namespace Cluster

/-- On the run server `v` has answered the request of round `k` with success;
`p` holds of its reply and of its node right after that. -/
def Answered (as : List (Action n Image)) (k : ℕ) (v : Fin n)
    (p : AppendEntriesReply → Raft n Image → Prop) : Prop :=
  ∃ c round args reply, Takes step (start n Image) as (.appendEntries k v) c ∧
    c.rounds[k]? = some round ∧
    round.threads v = .append args (.replied reply) ∧
    reply.success = true ∧ p reply (c.nodes v)

theorem Answered.concat {as : List (Action n Image)} {k : ℕ} {v : Fin n}
    {p : AppendEntriesReply → Raft n Image → Prop} (h : Answered as k v p)
    (a : Action n Image) : Answered (as ++ [a]) k v p := by
  obtain ⟨c, round, args, reply, htakes, h⟩ := h
  exact ⟨c, round, args, reply, htakes.concat a, h⟩

/-- What the run knows about a round. -/
structure RoundKnown (as : List (Action n Image)) (k : ℕ)
    (round : Round n Image) (c₀ : Cluster n Image) : Prop where
  visits : Visits as c₀
  begun : round.BegunIn c₀
  counted : round.Counted (c₀.nodes round.leader).currentTerm fun v =>
    Answered as k v (c₀.nodes round.leader).HoldsLast
  budget : round.Budgeted

variable {as : List (Action n Image)} {c c' c₀ : Cluster n Image}
  {a : Action n Image} {es es' : List (Event n Image)} {k : ℕ}
  {round : Round n Image}

theorem RoundKnown.counted_concat (h : RoundKnown as k round c₀)
    (a : Action n Image) :
    round.Counted (c₀.nodes round.leader).currentTerm fun v =>
      Answered (as ++ [a]) k v (c₀.nodes round.leader).HoldsLast :=
  h.counted.mono fun _ hanswered => hanswered.concat a

/-- A round that has just begun. -/
theorem roundKnown_begun (hrun : (start n Image).run as = some (c, es))
    {s : Fin n} (hl : (c.nodes s).status = .leader) (a : Action n Image)
    (k : ℕ) :
    RoundKnown (as ++ [a]) k
      { leader := s
        boot := c.boots s
        appendNums := 1
        threads := heartBeatThread (c.nodes s) s } c where
  visits := (Visits.last hrun).concat a
  begun := {
    leads := hl
    boot := rfl
    own := by simp [heartBeatThread]
    sent := fun i args call hthread =>
      (LogsTracked.heartBeatThread_eq_append hthread).2.2 }
  counted := {
    replied := by
      intro i args reply hthread
      have hcall := (LogsTracked.heartBeatThread_eq_append hthread).2.1
      cases hcall
    count := ⟨∅, by simp, by simp, le_rfl⟩ }
  budget := {
    left := by
      have hself : s ∉ Round.awaited
          { leader := s
            boot := c.boots s
            appendNums := 1
            threads := heartBeatThread (c.nodes s) s } := by
        rw [Round.mem_awaited]
        simp [heartBeatThread, PeerThread.awaited]
      have hlt := Finset.card_lt_univ_of_notMem hself
      rw [Fintype.card_fin] at hlt
      change 1 + _ ≤ n
      omega
    reset := by simp }

/-- The request of a round is answered. -/
theorem RoundKnown.answered {B : Ballots (Fin n)}
    {minted : ℕ → ℕ → Option Op} (h : RoundKnown as k round c₀)
    (hrun : (start n Image).run as = some (c, es))
    (hc : Recorded B minted c) (hc₀ : c₀.Ordered)
    (hr : c.rounds[k]? = some round) {i : Fin n} {args : AppendEntriesArgs n}
    {reply : AppendEntriesReply}
    (hthread : round.threads i = .append args .sent)
    (happend : (c.nodes i).appendEntries1 args = .ok (c'.nodes i, reply))
    (hstep : c.step (.appendEntries k i) = some (c', es'))
    (hr' : c'.rounds[k]? =
      some (round.setThread i (.append args (.replied reply)))) :
    RoundKnown (as ++ [.appendEntries k i]) k
      (round.setThread i (.append args (.replied reply))) c₀ where
  visits := h.visits.concat _
  begun := h.begun.setCall round.appendNums hthread
  counted := by
    refine (h.counted_concat _).setThread (by simp [hthread, PeerThread.awaited])
      fun args' reply' heq hsuccess => ?_
    obtain ⟨rfl, rfl⟩ : args = args' ∧ reply = reply' := by simpa using heq
    have hmem := List.mem_of_getElem? hr
    have hargs := hc.ordered.rounds round hmem i
    have hwritten := (hc.rounds round hmem).threads i
    rw [hthread] at hargs hwritten
    have hsent := h.begun.sent i args .sent hthread
    obtain ⟨hterm, hlast⟩ := (hc₀.nodes _).heartBeatTo_lastTerm hsent
    obtain ⟨hreply, hcurrent, hheld⟩ := (hc.ordered.nodes i).accepts_lastTerm
      hargs (Raft.sameCommands_of_written (hc.nodes i).written hwritten) happend
      hsuccess
    rw [(Raft.heartBeatTo_sends hsent).1, hlast] at hheld
    exact ⟨hreply.trans hterm, c', _, args, reply, .last hrun hstep, hr',
      by simp [Round.setThread], hsuccess, hreply.trans hterm,
      hcurrent.trans hterm, hheld⟩
  budget := h.budget.keep (by rw [hthread]; rfl)

/-- A reply is processed. -/
theorem RoundKnown.tallied (h : RoundKnown as k round c₀) {i : Fin n}
    {args : AppendEntriesArgs n} {reply : AppendEntriesReply}
    {r r' : Raft n Image} {nums : ℕ}
    (hthread : round.threads i = .append args (.replied reply))
    (hsend : r.sendAppendEntries i args reply round.appendNums =
      .ok (r', nums)) (a : Action n Image) :
    RoundKnown (as ++ [a]) k
      { round.setThread i (.append args .done) with appendNums := nums } c₀ where
  visits := h.visits.concat a
  begun := h.begun.setCall nums hthread
  counted := by
    have hcounted := h.counted_concat a
    rcases Raft.sendAppendEntries_nums hsend with rfl | ⟨hsuccess, hnums⟩
    · exact hcounted.setThread (by simp [PeerThread.awaited]) (by simp)
    · have hne : round.leader ≠ i := by
        rintro rfl
        rw [h.begun.own] at hthread
        cases hthread
      refine hcounted.add ?_ hne
        (hcounted.replied i args reply hthread hsuccess).2 (by omega)
      rw [Round.mem_awaited, hthread]
      rfl
  budget := by
    refine h.budget.finish ?_ ((Raft.sendAppendEntries_nums hsend).imp id (·.2))
    rw [Round.mem_awaited, hthread]
    rfl

theorem rounds_known (hrun : (start n Image).run as = some (c, es)) :
    ∀ (k : ℕ) (round : Round n Image), c.rounds[k]? = some round →
      ∃ c₀, RoundKnown as k round c₀ := by
  refine run_lookback (I := fun as c => ∀ (k : ℕ) (round : Round n Image),
    c.rounds[k]? = some round → ∃ c₀, RoundKnown as k round c₀)
    (by simp [start]) ?_ hrun
  intro as c es a c' es' hrun ih hstep k round hnew
  cases round_step hstep hnew with
  | same hr =>
      obtain ⟨c₀, hknown⟩ := ih k round hr
      exact ⟨c₀, hknown.visits.concat a, hknown.begun, hknown.counted_concat a,
        hknown.budget⟩
  | begun hl _ => exact ⟨c, roundKnown_begun hrun hl a k⟩
  | answered ha hr hthread happend =>
      subst ha
      obtain ⟨c₀, hknown⟩ := ih k _ hr
      obtain ⟨B, minted, hc⟩ := recorded_of_run hrun
      obtain ⟨as₁, as₂, es₁, -, hfirst⟩ := hknown.visits
      obtain ⟨B₀, minted₀, hc₀⟩ := recorded_of_run hfirst
      exact ⟨c₀, hknown.answered hrun hc hc₀.ordered hr hthread happend hstep
        hnew⟩
  | tallied _ hr hthread hsend =>
      obtain ⟨c₀, hknown⟩ := ih k _ hr
      exact ⟨c₀, hknown.tallied hthread hsend a⟩
  | @dropped i args call round hr hthread hopen =>
      obtain ⟨c₀, hknown⟩ := ih k _ hr
      have hi : i ∈ round.awaited := by
        rw [Round.mem_awaited, hthread]
        cases call <;> first | rfl | exact absurd rfl hopen
      exact ⟨c₀, hknown.visits.concat a,
        hknown.begun.setCall round.appendNums hthread,
        (hknown.counted_concat a).setThread (by simp [PeerThread.awaited])
          (by simp), hknown.budget.finish hi (.inl rfl)⟩
  | @snapshot i args call round hr hthread _ =>
      obtain ⟨c₀, hknown⟩ := ih k _ hr
      have hopen : (round.threads i).awaited = false := by
        rcases hthread with hthread | ⟨_, _, hthread⟩ <;> rw [hthread] <;> rfl
      have hidle : round.threads i ≠ .idle := by
        rcases hthread with hthread | ⟨_, _, hthread⟩ <;> simp [hthread]
      exact ⟨c₀, hknown.visits.concat a,
        hknown.begun.setThread round.appendNums hidle (by simp),
        (hknown.counted_concat a).setThread (by simp [PeerThread.awaited])
          (by simp), hknown.budget.keep (by rw [hopen]; rfl)⟩

/-- A round that was reset stays below a majority. -/
theorem RoundStep.spent (h : c.RoundStep a c' k round) {old : Round n Image}
    (hold : c.rounds[k]? = some old) (hspent : old.Spent) : round.Spent := by
  cases h with
  | same hr =>
      obtain rfl := Option.some.inj (hold.symm.trans hr)
      exact hspent
  | begun _ hnew =>
      rw [hold] at hnew
      cases hnew
  | answered _ hr hthread =>
      obtain rfl := Option.some.inj (hold.symm.trans hr)
      rw [Round.Spent, Round.awaited_setThread_of_eq (by rw [hthread]; rfl)]
      exact hspent
  | @tallied i args reply nums _ _ hr hthread hsend =>
      obtain rfl := Option.some.inj (hold.symm.trans hr)
      have hi : i ∈ old.awaited := by
        rw [Round.mem_awaited, hthread]
        rfl
      have hcard := @Round.awaited_finish _ _ old i args hi
      have hnums := Raft.sendAppendEntries_nums hsend
      change n / 2 + 1 +
        (nums + (old.setThread i (.append args .done)).awaited.card) ≤ n
      rw [Round.Spent] at hspent
      omega
  | @dropped i args call _ hr hthread hopen =>
      obtain rfl := Option.some.inj (hold.symm.trans hr)
      have hi : i ∈ old.awaited := by
        rw [Round.mem_awaited, hthread]
        cases call <;> first | rfl | exact absurd rfl hopen
      have hcard := @Round.awaited_finish _ _ old i args hi
      rw [Round.Spent] at hspent ⊢
      change n / 2 + 1 + (old.appendNums +
        (old.setThread i (.append args .done)).awaited.card) ≤ n
      omega
  | snapshot hr hthread _ =>
      obtain rfl := Option.some.inj (hold.symm.trans hr)
      rw [Round.Spent, Round.awaited_setThread_of_eq]
      · exact hspent
      · rcases hthread with hthread | ⟨_, _, hthread⟩ <;> rw [hthread] <;> rfl

theorem rounds_length_le (hstep : c.step a = some (c', es')) :
    c.rounds.length ≤ c'.rounds.length := by
  have hrounds := (step_cases hstep).rounds
  generalize c'.rounds = rounds at hrounds ⊢
  cases hrounds <;> simp

/-- Whatever the run does after the counter of a round was reset, the round
does not reach a majority any more. -/
theorem spent_of_run (hrun : c.run as = some (c', es))
    (hr : c.rounds[k]? = some round) (hspent : round.Spent) :
    ∃ round', c'.rounds[k]? = some round' ∧ round'.Spent := by
  refine run_invariant (I := fun c' => ∃ round' : Round n Image,
    c'.rounds[k]? = some round' ∧ round'.Spent) ?_ (throughout_true c as)
    ⟨round, hr, hspent⟩ hrun
  rintro c₁ a c₂ es' - ⟨old, hold, hspent⟩ hstep
  have hlt : k < c₂.rounds.length :=
    (List.getElem?_eq_some_iff.mp hold).1.trans_le (rounds_length_le hstep)
  have hnew := List.getElem?_eq_getElem hlt
  exact ⟨_, hnew, (round_step hstep hnew).spent hold hspent⟩

/-! ## Commit soundness -/

/-- A `sendAppendEntries` that raises a commit index processes a reply that
completes the majority of its round. -/
theorem raised_cases {i s : Fin n}
    (hstep : c.step (.sendAppendEntries k i) = some (c', es'))
    (hraised : (c.nodes s).commitIndex < (c'.nodes s).commitIndex) :
    ∃ round args reply, c.rounds[k]? = some round ∧ round.leader = s ∧
      round.threads i = .append args (.replied reply) ∧
      (c.nodes s).SameLog (c'.nodes s) ∧
      (c'.nodes s).currentTerm = (c.nodes s).currentTerm ∧
      (c.nodes s).Commits args reply round.appendNums ∧
      (c'.nodes s).commitIndex = args.prevLogIndex + args.entries.length := by
  obtain ⟨round, args, reply, hr, -, hthread, hresult⟩ :=
    sendAppendEntries_step hstep
  rcases hresult with ⟨p, -, hnodes⟩ | ⟨r, nums, hsend, hnodes⟩
  · exfalso
    rw [hnodes] at hraised
    by_cases hs : s = round.leader <;> simp [hs] at hraised
  · rw [hnodes] at hraised ⊢
    have hs : round.leader = s := by
      by_contra hne
      simp [Ne.symm hne] at hraised
    subst hs
    simp only [Function.update_self] at hraised ⊢
    rcases Raft.sendAppendEntries_eq_ok hsend with ⟨hquiet, -⟩ | htallies
    · exact absurd hquiet.commit hraised.ne'
    · rcases htallies.commit with hsame | ⟨hcommits, hmax⟩
      · exact absurd hsame hraised.ne'
      · exact ⟨round, args, reply, hr, rfl, hthread, htallies.sameLog,
          congrArg RaftState.currentTerm htallies.data, hcommits, by omega⟩

end Cluster

/-- The node has the entry, or its snapshot ends with it. -/
def Raft.Keeps (r : Raft n Image) (entry : LogEntry) : Prop :=
  r.entryAt? entry.logIndex = some entry ∨
    (r.lastSnapshotIncludeIndex = entry.logIndex ∧
      r.lastSnapshotIncludeTerm = entry.logTerm)

/-- The reply of a server that keeps the entry, in the term of the entry. -/
def Raft.Acknowledges (entry : LogEntry) (reply : AppendEntriesReply)
    (r : Raft n Image) : Prop :=
  reply.term = entry.logTerm ∧ r.currentTerm = entry.logTerm ∧ r.Keeps entry

namespace Cluster

variable {as : List (Action n Image)} {c c' c₀ : Cluster n Image}
  {es es' : List (Event n Image)} {k : ℕ} {round : Round n Image}

/-- What the leader had at the end of its log, and what is still there. -/
theorem RoundKnown.leader_entry (h : RoundKnown as k round c₀)
    (hrun : (start n Image).run as = some (c, es)) {i : Fin n}
    {args : AppendEntriesArgs n} {call : Call AppendEntriesReply}
    (hthread : round.threads i = .append args call)
    (hl : (c.nodes round.leader).status = .leader)
    (hterm : (c.nodes round.leader).currentTerm =
      (c₀.nodes round.leader).currentTerm)
    (hlast : args.entries.getLast?.map LogEntry.logTerm =
      some (c.nodes round.leader).currentTerm)
    (hbehind : (c.nodes round.leader).commitIndex <
      args.prevLogIndex + args.entries.length) :
    ∃ entry, (c.nodes round.leader).entryAt?
        (args.prevLogIndex + args.entries.length) = some entry ∧
      entry.logIndex = (c₀.nodes round.leader).getLastLogIndex ∧
      entry.logTerm = (c₀.nodes round.leader).getLastLogTerm ∧
      entry.logTerm = (c.nodes round.leader).currentTerm := by
  obtain ⟨as₁, as₂, es₁, -, hfirst⟩ := h.visits
  obtain ⟨B₀, minted₀, hc₀⟩ := recorded_of_run hfirst
  have hordered := hc₀.ordered.nodes round.leader
  have hsent := h.begun.sent i args call hthread
  obtain ⟨hreach, hmem⟩ := Raft.heartBeatTo_sends hsent
  obtain ⟨-, hlastTerm⟩ := hordered.heartBeatTo_lastTerm hsent
  obtain ⟨last, hlast, hlastT⟩ := Option.map_eq_some_iff.mp hlast
  rw [AppendEntriesArgs.lastTerm, hlast, Option.map_some, Option.getD_some]
    at hlastTerm
  -- the log is not empty, so its last entry is at its last index
  have hne : (c₀.nodes round.leader).logs ≠ [] :=
    List.ne_nil_of_mem (hmem last (List.mem_of_getLast? hlast))
  have hpos := List.length_pos_of_ne_nil hne
  have hlen := hordered.lastLogIndex
  have hterm₀ := Raft.termAt?_getLastLogIndex hordered.consecutive
  rw [Raft.termAt?, if_neg (by omega)] at hterm₀
  obtain ⟨entry, hentry, hentryT⟩ := Option.map_eq_some_iff.mp hterm₀
  have hindex := (Raft.entryAt?_logIndex hordered.consecutive hentry).1
  obtain ⟨bs, es₂, hrest⟩ := h.visits.rest hrun
  obtain ⟨-, -, -, -, -, hretains⟩ := hc₀.run hrest
  have hstill := hretains round.leader h.begun.leads hl hterm _ entry
    (.inl hentry)
  rw [← hreach] at hstill
  refine ⟨entry, hstill.resolve_right fun hgone => ?_, hindex, hentryT, ?_⟩
  · exact absurd hgone.2 (Nat.not_le_of_lt hbehind)
  · rw [hentryT, ← hlastTerm, hlastT]

/-- A server that holds the last entry of the leader keeps the very entry. -/
theorem Answered.acknowledges {r₀ : Raft n Image} {v : Fin n}
    (h : Answered as k v r₀.HoldsLast)
    (hrun : (start n Image).run as = some (c, es)) {s : Fin n} {i : ℕ}
    {entry : LogEntry} (hentry : (c.nodes s).entryAt? i = some entry)
    (hindex : entry.logIndex = r₀.getLastLogIndex)
    (hterm : entry.logTerm = r₀.getLastLogTerm)
    (hcurrent : entry.logTerm = r₀.currentTerm) :
    Answered as k v (Raft.Acknowledges entry) := by
  obtain ⟨c₁, round, args, reply, htakes, hr, hthread, hsuccess, hreply, hnode,
    hheld⟩ := h
  refine ⟨c₁, round, args, reply, htakes, hr, hthread, hsuccess,
    hreply.trans hcurrent.symm, hnode.trans hcurrent.symm, ?_⟩
  rw [← hindex, ← hterm, Raft.termAt?] at hheld
  split at hheld
  · next heq => exact .inr ⟨heq.symm, Option.some.inj hheld⟩
  · obtain ⟨as₁, as₂, es₁, -, hfirst⟩ := htakes.visits
    obtain ⟨B₁, minted₁, hc₁⟩ := recorded_of_run hfirst
    obtain ⟨bs, es₂, hrest⟩ := htakes.visits.rest hrun
    obtain ⟨B, minted, hc, -, hgrows, -⟩ := hc₁.run hrest
    obtain ⟨held, hheld, hheldT⟩ := Option.map_eq_some_iff.mp hheld
    obtain ⟨hheldI, hmem₁⟩ :=
      Raft.entryAt?_logIndex (hc₁.ordered.nodes v).consecutive hheld
    obtain ⟨-, hmem⟩ :=
      Raft.entryAt?_logIndex (hc.ordered.nodes s).consecutive hentry
    -- one command is on record for the term and the index of both
    have hwritten₁ := hgrows _ _ _ ((hc₁.nodes v).written held hmem₁)
    have hwritten : minted entry.logTerm entry.logIndex = some entry.command :=
      (hc.nodes s).written entry hmem
    rw [hheldT, hheldI, hwritten] at hwritten₁
    have hsame : held = entry := by
      cases held
      cases entry
      simp_all
    exact .inl (hsame ▸ hheld)

end Cluster

open Cluster in
/-- Whenever `sendAppendEntries` raises a commit index, the leader has an entry
of its term there.  A majority has acknowledged it in that term, each server in
its one answer to this round, and the round was not reset before. -/
theorem commit_sound {as : List (Action n Image)} {c c' : Cluster n Image}
    {es es' : List (Event n Image)} {k : ℕ} {i s : Fin n}
    (hrun : (Cluster.start n Image).run as = some (c, es))
    (hstep : c.step (.sendAppendEntries k i) = some (c', es'))
    (hraised : (c.nodes s).commitIndex < (c'.nodes s).commitIndex) :
    ∃ round entry, c.rounds[k]? = some round ∧ round.leader = s ∧
      (c'.nodes s).entryAt? (c'.nodes s).commitIndex = some entry ∧
      entry.logTerm = (c'.nodes s).currentTerm ∧
      (∃ Q : Finset (Fin n), s ∈ Q ∧ n / 2 + 1 ≤ round.appendNums + 1 ∧
        round.appendNums + 1 ≤ Q.card ∧
        ∀ v ∈ Q, v ≠ s → Answered as k v (Raft.Acknowledges entry)) ∧
      ∀ c₁ round₁, Visits as c₁ → c₁.rounds[k]? = some round₁ →
        round₁.appendNums ≠ 0 := by
  obtain ⟨round, args, reply, hr, rfl, hthread, hsame, hterm, hcommits, hcommit⟩ :=
    raised_cases hstep hraised
  obtain ⟨c₀, hknown⟩ := rounds_known hrun k round hr
  obtain ⟨hl, hreply, hsuccess⟩ := hcommits.counts
  obtain ⟨hreply₀, hanswered⟩ :=
    hknown.counted.replied i args reply hthread hsuccess
  have hcurrent := hreply.symm.trans hreply₀
  obtain ⟨entry, hentry, hindex, hlast, hentryT⟩ :=
    hknown.leader_entry hrun hthread hl hcurrent hcommits.lastTerm (by omega)
  have hi : i ∈ round.awaited := by
    rw [Round.mem_awaited, hthread]
    rfl
  refine ⟨round, entry, hr, rfl, ?_, hentryT.trans hterm.symm, ?_, ?_⟩
  · rw [hcommit, hsame.entryAt?, hentry]
  · obtain ⟨Q, hleader, hQ, hcount⟩ := hknown.counted.count
    have hne : round.leader ≠ i := by
      rintro heq
      rw [← heq, hknown.begun.own] at hthread
      cases hthread
    have hfresh : i ∉ Q := fun hmem => (hQ i hmem).1 hi
    have hmajority := hcommits.majority
    refine ⟨insert round.leader (insert i Q), Finset.mem_insert_self _ _,
      by omega, ?_, fun v hv hvne => ?_⟩
    · rw [Finset.card_insert_of_notMem (by simp [hne, hleader]),
        Finset.card_insert_of_notMem hfresh]
      omega
    · have hv : Answered as k v (c₀.nodes round.leader).HoldsLast := by
        rcases Finset.mem_insert.mp ((Finset.mem_insert.mp hv).resolve_left hvne)
          with rfl | hmem
        · exact hanswered
        · exact (hQ v hmem).2
      exact hv.acknowledges hrun hentry hindex hlast (hentryT.trans hcurrent)
  · intro c₁ round₁ hvisits hr₁ hzero
    obtain ⟨as₁, as₂, es₁, -, hfirst⟩ := id hvisits
    obtain ⟨_, hknown₁⟩ := rounds_known hfirst k round₁ hr₁
    obtain ⟨bs, es₂, hrest⟩ := hvisits.rest hrun
    obtain ⟨round', hr', hspent⟩ :=
      spent_of_run hrest hr₁ (hknown₁.budget.spent hzero)
    obtain rfl := Option.some.inj (hr.symm.trans hr')
    have hopen := Finset.card_pos.mpr ⟨i, hi⟩
    have hmajority := hcommits.majority
    rw [Round.Spent] at hspent
    omega

open Cluster in
/-- The leader commits its first entry with the reply of server 1. -/
theorem commit_sound_replicated :
    ∃ c es, (Cluster.start 3 Unit).run (replicatedRun.take 5) = some (c, es) ∧
      ∃ round entry, c.rounds[0]? = some round ∧ round.leader = 0 ∧
        ∃ Q : Finset (Fin 3), 0 ∈ Q ∧ 3 / 2 + 1 ≤ Q.card ∧
          ∀ v ∈ Q, v ≠ 0 → Answered (replicatedRun.take 5) 0 v
            (Raft.Acknowledges entry) := by
  obtain ⟨c, es, hrun, c', es', hstep, hraised⟩ : ∃ c es,
      (Cluster.start 3 Unit).run (replicatedRun.take 5) = some (c, es) ∧
        ∃ c' es', c.step (.sendAppendEntries 0 1) = some (c', es') ∧
          (c.nodes 0).commitIndex < (c'.nodes 0).commitIndex := by
    decide +kernel
  obtain ⟨round, entry, hr, hleader, -, -, ⟨Q, hself, hmost, hcard, hQ⟩, -⟩ :=
    commit_sound hrun hstep hraised
  exact ⟨c, es, hrun, round, entry, hr, hleader, Q, hself, by omega, hQ⟩

end KVRaftStorage
