import KVRaftStorage.Raft.Catchup
import KVRaftStorage.Raft.Safety

/-!
# The cluster never gets stuck

From every state that the cluster reaches within the protocol, whatever has
been lost, crashed or left in flight, a run leads on in which a new command is
committed and handed out by every server, behind everything that was handed out
before.  A server is elected, the followers take over its log, the command is
appended to it and one round of heartbeats commits it, and another round tells
the followers.
-/

namespace KVRaftStorage

open Replication Transition

variable {n : ℕ} {Image : Type}

/-! ## The logs after an election -/

namespace Tracked

variable {G : Ledger (Fin n) LogEntry} {c : Cluster n Image} {s : Fin n}

theorem elected_log (h : Tracked G c) (he : c.Elected s) :
    G.minted (c.nodes s).currentTerm = G.log s ∧ G.log s ≠ [] :=
  (h.logs.nodes s).leader he.leads

theorem epoch_le_elected (h : Tracked G c) (he : c.Elected s) (v : Fin n) :
    G.epoch v ≤ (c.nodes s).currentTerm :=
  (h.votes.nodes v).le.trans (he.terms v)

/-- Everything that was ever committed is in the log of the new leader. -/
theorem committed_elected (h : Tracked G c) (he : c.Elected s)
    {q : List LogEntry} {T : ℕ} (hq : G.CommittedBy T q) : q <+: G.log s := by
  obtain ⟨hminted, hne⟩ := h.elected_log he
  rw [← hminted]
  exact h.commits.complete.committed_prefix_latest hq (h.epoch_le_elected he)
    (hminted ▸ hne)

theorem committedUpTo_elected (h : Tracked G c) (he : c.Elected s) {v : Fin n}
    {k : ℕ} (hk : CommittedUpTo G v k) :
    k ≤ (G.log s).length ∧ (G.log v).take k = (G.log s).take k := by
  have hext := h.committed_elected he hk.2
  have hlen := List.length_take_of_le hk.1
  refine ⟨hlen ▸ hext.length_le, ?_⟩
  have htake := take_of_isPrefix hext hlen.ge
  rw [List.take_take, Nat.min_self] at htake
  exact htake.symm

/-- What another server has behind the log of the new leader is of earlier
terms. -/
theorem older_elected (h : Tracked G c) (he : c.Elected s) {v : Fin n}
    {e : LogEntry} (hmem : e ∈ (c.nodes v).logs)
    (hlt : (G.log s).length < e.logIndex) :
    e.logTerm < (c.nodes s).currentTerm := by
  have hholds := (h.logs.nodes v).holds
  rw [hholds.logs] at hmem
  obtain ⟨k, hk⟩ := List.mem_iff_getElem?.mp (List.mem_of_mem_drop hmem)
  have hindex := hholds.indexed k e hk
  have hle : e.logTerm ≤ (c.nodes s).currentTerm :=
    (h.logs.matched.log_le v e (List.mem_of_mem_drop hmem)).trans
      (h.epoch_le_elected he v)
  refine hle.lt_of_ne fun heq => ?_
  -- the term of the leader has minted its log only
  have hlast := (lastTerm_take hk).trans heq
  have hlen : ((G.log v).take (k + 1)).length = k + 1 :=
    List.length_take_of_le (List.getElem?_eq_some_iff.mp hk).1
  have hminted := h.logs.matched.log v _ (List.take_prefix (k + 1) (G.log v))
    (List.ne_nil_of_length_pos (by omega))
  rw [hlast, (h.elected_log he).1] at hminted
  have := hminted.length_le
  omega

/-- The new leader can repair every other server. -/
theorem repairing (h : Tracked G c) (he : c.Elected s) :
    Cluster.Repairing s (G.log s) (c.nodes s).currentTerm c where
  term := rfl
  repair := by
    intro i hi
    have hholds := (h.logs.nodes s).holds
    have hpos := List.length_pos_iff.mpr (h.elected_log he).2
    have hnext := (he.next i).trans hholds.getLastLogIndex
    obtain ⟨hle, htake⟩ :=
      h.committedUpTo_elected he (h.commits.nodes i).boundary
    refine ⟨G.log i, ⟨he.leads, hholds, (h.commits.nodes s).commit.1, ?_, ?_,
      ?_⟩, ⟨(h.logs.nodes i).holds, (h.commits.nodes i).commit.1, ?_, hle,
      htake⟩, he.terms i, he.term_pos⟩
    · rw [he.matched i]
      exact Nat.zero_le _
    · omega
    · omega
    · intro k hk hk' hterm
      exact (h.logs.matched.log s).eq_of_lastTerm (h.logs.matched.log i)
        (List.take_prefix _ _) (List.take_prefix _ _)
        (by rw [List.length_take, List.length_take]; omega) hterm
  offers := by
    -- the leader begins with its last entry, which is behind its snapshot
    intro i _ hle
    have hholds := (h.logs.nodes s).holds
    have hnext := (he.next i).trans hholds.getLastLogIndex
    have hentries := List.length_pos_iff.mpr he.entries
    rw [hholds.logs, List.length_drop] at hentries
    omega
  behind := fun i _ =>
    ⟨(h.committedUpTo_elected he (h.commits.nodes i).commit).1,
      fun _ hmem hlt => h.older_elected he hmem hlt⟩

end Tracked

/-! ## A request that continues what the follower has -/

/-- Appending an entry of a new term. -/
theorem SharesHistory.concat {l l' : List LogEntry} (h : SharesHistory l l')
    {e : LogEntry} (hnew : ∀ x, l'[l.length]? = some x →
      x.logTerm ≠ e.logTerm) : SharesHistory (l ++ [e]) l' := by
  intro i hi hi' hterm
  rcases Nat.lt_or_ge l.length i with hlt | hle
  · rw [List.length_append, List.length_singleton] at hi
    obtain rfl : i = l.length + 1 := by omega
    have hlast : l'[l.length]? = some l'[l.length] :=
      List.getElem?_eq_getElem hi'
    rw [List.take_of_length_le (by simp), lastTerm_concat,
      lastTerm_take hlast] at hterm
    exact absurd hterm.symm (hnew _ hlast)
  · rw [List.take_append_of_le_length hle] at hterm ⊢
    exact h i hle hi' hterm

namespace Raft

variable {r r' : Raft n Image} {l l' : List LogEntry}

/-- The follower has what lies in front of the entries of the request. -/
theorem Following.accept (h : r.Following l l') (hl : Indexed l)
    {args : AppendEntriesArgs n} (hterm : r.currentTerm ≤ args.term)
    (hge : r.lastSnapshotIncludeIndex ≤ args.prevLogIndex)
    (hle : args.prevLogIndex ≤ l.length)
    (hext : l.take args.prevLogIndex <+: l')
    (hprev : lastTerm (l.take args.prevLogIndex) = args.prevLogTerm)
    (hentries : args.entries = l.drop args.prevLogIndex) :
    ∃ r' reply, r.appendEntries1 args = .ok (r', reply) ∧
      r.Accepts args r' reply ∧ r'.Following l (l ++ l'.drop l.length) := by
  have hsame := r.enterTerm_sameLog args.term
  have hentered := h.enterTerm args.term
  have hlen : (l.take args.prevLogIndex).length = args.prevLogIndex :=
    List.length_take_of_le hle
  have htake : l'.take args.prevLogIndex = l.take args.prevLogIndex := by
    rw [take_of_isPrefix hext hlen.ge, List.take_take, Nat.min_self]
  obtain ⟨r₁, hexamine, hholds, hindex, -, hcommit⟩ :=
    hentered.holds.examineEntries_match hl hentered.shares hentered.commit
      (hsame.index.trans_le hge) (hlen ▸ hext.length_le) hle hprev hentries
      (htake ▸ hprev)
  have hok : r.appendEntries1 args =
      .ok (r₁.persist, r₁.appendEntriesReply true 0) := by
    rw [appendEntries1_enters hterm, hexamine]
  refine ⟨r₁.persist, _, hok, ?_, ?_⟩
  · rcases appendEntries1_eq_ok hok with ⟨hfail, -⟩ | haccepts
    · simp [appendEntriesReply] at hfail
    · exact haccepts
  · exact (hentered.merged hholds hindex hcommit).of_sameLog ⟨rfl, rfl, rfl⟩ rfl

/-- A follower that accepts the whole log of the leader has committed what the
leader had. -/
theorem Accepts.leaderCommit_le {args : AppendEntriesArgs n}
    {reply : AppendEntriesReply} (h : r.Accepts args r' reply)
    (hholds : r'.Holds l') (hle : args.leaderCommit ≤ l'.length) :
    args.leaderCommit ≤ r'.commitIndex := by
  have hlast := hholds.getLastLogIndex
  rw [h.merges.commit]
  split <;> omega

/-- The leader appends an entry of its term. -/
theorem CanRepair.append {server : Fin n} {leader follower : Raft n Image}
    (h : CanRepair server leader follower l l')
    (hbehind : follower.Behind l leader.currentTerm) (command : Op) :
    CanRepair server (leader.appendEntry command).persist follower
      (l ++ [LogsTracked.nextEntry l leader.currentTerm command]) l' where
  leading := by
    have happended := h.leading.holds.appendEntry command
    have hlen : (l ++ [LogsTracked.nextEntry l leader.currentTerm
        command]).length = l.length + 1 := by
      simp
    refine ⟨h.leading.leads, happended.of_sameLog ⟨rfl, rfl, rfl⟩, ?_, ?_,
      h.leading.next_pos, ?_⟩
    · rw [hlen]
      exact h.leading.commit.trans (Nat.le_succ _)
    · rw [hlen]
      exact h.leading.matched.trans (Nat.le_succ _)
    · rw [hlen]
      exact h.leading.next_le.trans (Nat.le_succ _)
  following := by
    have hle := h.following.boundary_le
    refine ⟨h.following.holds, h.following.commit,
      h.following.shares.concat fun x hx => ?_, ?_, ?_⟩
    · -- an entry behind the log of the leader is of an earlier term
      have hdrop : (l'.drop follower.lastSnapshotIncludeIndex)[l.length -
          follower.lastSnapshotIncludeIndex]? = some x := by
        rw [List.getElem?_drop, Nat.add_sub_cancel' hle]
        exact hx
      have hmem : x ∈ follower.logs := by
        rw [h.following.holds.logs]
        exact List.mem_of_getElem? hdrop
      have hindex := h.following.holds.indexed _ x hx
      exact (hbehind.older x hmem (by omega)).ne
    · rw [List.length_append]
      exact hle.trans (Nat.le_add_right _ _)
    · rw [List.take_append_of_le_length hle]
      exact h.following.boundary
  term := h.term
  term_pos := h.term_pos

theorem Behind.append {T : ℕ} (h : r.Behind l T) (e : LogEntry) :
    r.Behind (l ++ [e]) T where
  commit := by
    rw [List.length_append]
    exact h.commit.trans (Nat.le_add_right _ _)
  older := by
    intro x hx hlt
    rw [List.length_append] at hlt
    exact h.older x hx (by omega)

end Raft

/-! ## A whole round -/

namespace Cluster

variable {c c₀ c' : Cluster n Image} {s i : Fin n} {l : List LogEntry}
  {T m k : ℕ} {done : List (Fin n)}

/-- The next request to the follower continues the first `m` entries of `l`,
which it has. -/
structure Positioned (s : Fin n) (l : List LogEntry) (m : ℕ) (i : Fin n)
    (c : Cluster n Image) : Prop where
  next : (c.nodes s).nextIndex i = m + 1
  boundary : (c.nodes i).lastSnapshotIncludeIndex ≤ m
  follows : ∃ l', (c.nodes i).Following l l' ∧ l.take m <+: l'

/-- Round `k` was begun in `c₀`.  The servers in `done` have accepted their
requests and the leader has counted them. -/
structure Collecting (c₀ : Cluster n Image) (s : Fin n) (l : List LogEntry)
    (T m k : ℕ) (done : List (Fin n)) (c : Cluster n Image) : Prop where
  repairing : Repairing s l T c
  round : ∃ round, c.rounds[k]? = some round ∧ round.leader = s ∧
    round.boot = c.boots s ∧
    (done.length < n / 2 → round.appendNums = 1 + done.length) ∧
    ∀ i, i ≠ s → i ∉ done → ∃ args,
      (c₀.nodes s).heartBeatTo i = .ok (some args) ∧
      round.threads i = .append args .sent
  waiting : ∀ i, i ≠ s → i ∉ done → c.nodes i = c₀.nodes i
  caught : ∀ i ∈ done, CaughtUp s l i c ∧
    (c₀.nodes s).commitIndex ≤ (c.nodes i).commitIndex
  applied : ∀ v, (c.nodes v).lastApplied = (c₀.nodes v).lastApplied
  commit : (c₀.nodes s).commitIndex ≤ (c.nodes s).commitIndex
  commits : n / 2 ≤ done.length → m < l.length → lastTerm l = T →
    (c.nodes s).commitIndex = l.length

/-- The last entry of a request that reaches into `l`. -/
theorem getLast?_drop_term (hm : m < l.length) :
    (l.drop m).getLast?.map LogEntry.logTerm = some (lastTerm l) := by
  have hne : l ≠ [] := List.ne_nil_of_length_pos (by omega)
  rw [List.getLast?_drop, if_neg (by omega),
    List.getLast?_eq_some_getLast hne]
  simp only [lastTerm, List.getLast?_eq_some_getLast hne, Option.map_some,
    Option.getD_some]
  rfl

/-- One more server accepts its request and is counted. -/
theorem Collecting.next (h : Collecting c₀ s l T m k done c)
    (h₀ : Repairing s l T c₀) (hholds : (c₀.nodes s).Holds l)
    (hstart : (c₀.nodes s).lastSnapshotIncludeIndex ≤ m) (hm : m ≤ l.length)
    (hi : i ≠ s) (hnot : i ∉ done) (hdone : ∀ j ∈ done, j ≠ s)
    (hpos : Positioned s l m i c₀) :
    ∃ c' es, c.CanReach es c' ∧
      Collecting c₀ s l T m k (done ++ [i]) c' := by
  obtain ⟨round, hr, hleader, hboot, hnums, hthreads⟩ := h.round
  obtain ⟨args, hargs, hthread⟩ := hthreads i hi hnot
  have hk := (List.getElem?_eq_some_iff.mp hr).1
  have hnode := h.waiting i hi hnot
  -- the request
  have hnext := hpos.next
  have hlt : (c₀.nodes s).lastSnapshotIncludeIndex <
      (c₀.nodes s).nextIndex i := by omega
  obtain ⟨args', hargs', hterm, hprev, hprevTerm, hentries⟩ :=
    hholds.heartBeatTo_sends hlt (by omega)
  obtain rfl : args = args' :=
    Option.some.inj (Except.ok.inj (hargs.symm.trans hargs'))
  obtain ⟨-, hcommit, -⟩ :=
    hholds.heartBeatArgs_eq_ok (Raft.Holds.heartBeatTo_eq_some hargs)
  obtain rfl : args.prevLogIndex = m := by omega
  rw [h₀.term] at hterm
  -- the answer of the follower
  obtain ⟨l₀, hrepair₀⟩ := h₀.repair i hi
  obtain ⟨l', hfollows, hext⟩ := hpos.follows
  obtain ⟨follower, reply, happend, haccepts, hfollows'⟩ :=
    hfollows.accept hholds.indexed
      (hrepair₀.term.trans (h₀.term.trans hterm.symm).le) hpos.boundary hm
      hext hprevTerm hentries
  -- the leader counts it
  obtain ⟨l₁, hrepair⟩ := h.repairing.repair i hi
  have hreach : args.prevLogIndex + args.entries.length = l.length := by
    rw [hentries, List.length_drop]
    omega
  obtain ⟨leader, nums, hsend, honly, hleading, hleadNext, hcount, hraised⟩ :=
    hrepair.leading.counted (Raft.appendEntries1_appState happend)
      (haccepts.replyTerm.trans (hterm.trans h.repairing.term.symm))
      haccepts.success hreach round.appendNums
  obtain ⟨c', es, hsteps, rfl, rfl, hothers, round', hr', hleader', hboot',
    hnums', hthreads'⟩ := reaches_counted hr hleader hboot hi hthread
      (hnode ▸ happend) hsend
  have hbehind := (h₀.behind i hi).appendEntries1 hholds.indexed hentries
    (hcommit.trans_le hrepair₀.leading.commit) happend
  have hoffers : (c'.nodes s).OffersNewer i (c'.nodes i) := by
    intro hle
    have := hleading.holds.start
    omega
  have hrepair' : Raft.CanRepair i (c'.nodes s) (c'.nodes i) l _ :=
    ⟨hleading, hfollows', (haccepts.term.trans (hterm.trans
      (honly.currentTerm.trans h.repairing.term).symm)).le,
      hrepair.term_pos.trans_eq honly.currentTerm.symm⟩
  refine ⟨c', es, hsteps,
    h.repairing.peer honly hothers hrepair' hoffers hbehind, ⟨round', hr',
    hleader', hboot', ?_, fun j hj hnotin => ?_⟩, fun j hj hnotin => ?_,
    fun j hj => ?_, fun v => ?_, ?_, fun hmost hlong hlast => ?_⟩
  · intro hfew
    rw [List.length_append, List.length_singleton] at hfew ⊢
    have := hnums (by omega)
    have := hcount (by omega)
    omega
  · rw [List.mem_append, List.mem_singleton, not_or] at hnotin
    obtain ⟨argsj, hargsj, hthreadj⟩ := hthreads j hj hnotin.1
    exact ⟨argsj, hargsj, (hthreads' j hnotin.2).trans hthreadj⟩
  · rw [List.mem_append, List.mem_singleton, not_or] at hnotin
    exact (hothers.others j hj hnotin.2).trans (h.waiting j hj hnotin.1)
  · rcases List.mem_append.mp hj with hserved | hlast
    · obtain ⟨hcaught, hle⟩ := h.caught j hserved
      have hji : j ≠ i := fun heq => hnot (heq ▸ hserved)
      refine ⟨hcaught.other honly hothers (hdone j hserved) hji, ?_⟩
      rw [hothers.others j (hdone j hserved) hji]
      exact hle
    · obtain rfl := List.mem_singleton.mp hlast
      have hlen : args.leaderCommit ≤ (l ++ l'.drop l.length).length := by
        rw [hcommit, List.length_append]
        exact hrepair₀.leading.commit.trans (Nat.le_add_right _ _)
      exact ⟨⟨hleadNext, _, hfollows', List.prefix_append _ _⟩,
        hcommit ▸ haccepts.leaderCommit_le hfollows'.holds hlen⟩
  · by_cases hv : v = s
    · exact hv ▸ honly.lastApplied.trans (h.applied s)
    · by_cases hvi : v = i
      · exact hvi ▸ (Raft.keepsSnapshot_appendEntries1 happend).lastApplied
      · exact (congrArg Raft.lastApplied (hothers.others v hv hvi)).trans
          (h.applied v)
  · have := h.commit
    have := hrepair.leading.commit
    rw [hraised]
    split <;> omega
  · rw [List.length_append, List.length_singleton] at hmost
    have hterm' : args.entries.getLast?.map LogEntry.logTerm =
        some (c.nodes s).currentTerm := by
      rw [hentries, getLast?_drop_term hlong, hlast, h.repairing.term]
    rw [hraised]
    by_cases hdone' : n / 2 ≤ done.length
    · rw [h.commits hdone' hlong hlast]
      split <;> rfl
    · exact if_pos ⟨by have := hnums (by omega); omega, hterm'⟩

/-- What is left to tell of a round in which every server was served. -/
structure Served (c : Cluster n Image) (s : Fin n) (l : List LogEntry)
    (T m : ℕ) (c' : Cluster n Image) : Prop where
  repairing : Repairing s l T c'
  caught : ∀ i, i ≠ s → CaughtUp s l i c' ∧
    (c.nodes s).commitIndex ≤ (c'.nodes i).commitIndex
  applied : ∀ v, (c'.nodes v).lastApplied = (c.nodes v).lastApplied
  commit : (c.nodes s).commitIndex ≤ (c'.nodes s).commitIndex
  commits : m < l.length → lastTerm l = T → (c'.nodes s).commitIndex = l.length

/-- One round serves every server. -/
theorem Repairing.reaches_served (h : Repairing s l T c) (hn : 2 ≤ n)
    (hholds : (c.nodes s).Holds l) (hl : (c.nodes s).status = .leader)
    (hstart : (c.nodes s).lastSnapshotIncludeIndex ≤ m) (hm : m ≤ l.length)
    (hpos : ∀ i, i ≠ s → Positioned s l m i c) :
    ∃ c' es, c.CanReach es c' ∧ Served c s l T m c' := by
  let c₁ : Cluster n Image := { c with rounds := c.rounds ++ [c.beat s] }
  have hbegun : Collecting c s l T m c.rounds.length [] c₁ := by
    refine ⟨⟨h.term, h.repair, h.offers, h.behind⟩, ⟨c.beat s,
      List.getElem?_concat_length, rfl, rfl, fun _ => rfl, fun i hi _ => ?_⟩,
      fun _ _ _ => rfl, by simp, fun _ => rfl, le_rfl, fun hmost => ?_⟩
    · have hnext := (hpos i hi).next
      have hlt : (c.nodes s).lastSnapshotIncludeIndex <
          (c.nodes s).nextIndex i := by omega
      obtain ⟨args, hargs, -⟩ := hholds.heartBeatTo_sends hlt (by omega)
      exact ⟨args, hargs, heartBeatThread_of_ok h.canBeat hi hargs⟩
    · simp only [List.length_nil] at hmost
      omega
  have hpeers : ∀ i, i ∈ (Finset.univ.erase s).toList ↔ i ≠ s := by simp
  have hnodup := (Finset.univ.erase s).nodup_toList
  obtain ⟨c', es, hreach, hall⟩ := Reaches.each
    (I := fun done c' _ => Collecting c s l T m c.rounds.length done c')
    (Finset.univ.erase s).toList
    (fun done i rest c₂ _ his hcollecting => by
      have hi : i ≠ s := (hpeers i).mp (by simp [his])
      refine hcollecting.next h hholds hstart hm hi ?_
        (fun j hj => (hpeers j).mp (by simp [his, hj])) (hpos i hi)
      intro hmem
      rw [his, List.nodup_append] at hnodup
      exact hnodup.2.2 i hmem i (by simp) rfl) hbegun
  refine ⟨c', _, (Reaches.single (step_doHeartBeat hl h.canBeat)
    trivial).trans hreach, hall.repairing, fun i hi =>
      hall.caught i ((hpeers i).mpr hi), hall.applied, hall.commit, ?_⟩
  apply hall.commits
  rw [Finset.length_toList, Finset.card_erase_of_mem (Finset.mem_univ s),
    Finset.card_univ, Fintype.card_fin]
  omega

/-! ## A new command -/

/-- The leader appends a command. -/
theorem reaches_appended (h : Repairing s l T c)
    (hholds : (c.nodes s).Holds l) (hl : (c.nodes s).status = .leader)
    (hcaught : ∀ i, i ≠ s → CaughtUp s l i c) (command : Op) :
    ∃ c', c.CanReach [] c' ∧
      Repairing s (l ++ [LogsTracked.nextEntry l T command]) T c' ∧
      (c'.nodes s).Holds (l ++ [LogsTracked.nextEntry l T command]) ∧
      (c'.nodes s).status = .leader ∧
      (c'.nodes s).lastSnapshotIncludeIndex ≤ l.length ∧
      (∀ i, i ≠ s → Positioned s (l ++ [LogsTracked.nextEntry l T command])
        l.length i c') ∧
      ∀ v, (c'.nodes v).lastApplied = (c.nodes v).lastApplied := by
  obtain ⟨r, hr⟩ : ∃ r, r = ((c.nodes s).appendEntry command).persist :=
    ⟨_, rfl⟩
  have hstep : c.step (.start s command) = some (c.setNode s r, []) := by
    simp only [step, Raft.start, if_pos hl, hr]
  have hself : (c.setNode s r).nodes s = r := by simp [setNode]
  have hother : ∀ i, i ≠ s → (c.setNode s r).nodes i = c.nodes i :=
    fun i hi => by simp [setNode, hi]
  have hrepair : ∀ i, i ≠ s → ∃ l', Raft.CanRepair i r (c.nodes i)
      (l ++ [LogsTracked.nextEntry l T command]) l' ∧ l <+: l' := by
    intro i hi
    obtain ⟨l₀, hrepair⟩ := h.repair i hi
    obtain ⟨l', hfollows, hext⟩ := (hcaught i hi).follows
    exact ⟨l', hr ▸ h.term ▸ Raft.CanRepair.append
      ⟨hrepair.leading, hfollows, hrepair.term, hrepair.term_pos⟩
        (h.term.symm ▸ h.behind i hi) command, hext⟩
  refine ⟨c.setNode s r, .single hstep trivial, ⟨?_, fun i hi => ?_,
    fun i hi => ?_, fun i hi => ?_⟩, ?_, ?_, ?_, fun i hi => ⟨?_, ?_, ?_⟩,
    fun v => ?_⟩
  · rw [hself, hr]
    exact h.term
  · obtain ⟨l', hrepair, -⟩ := hrepair i hi
    rw [hself, hother i hi]
    exact ⟨l', hrepair⟩
  · rw [hself, hother i hi, hr]
    exact h.offers i hi
  · rw [hother i hi]
    exact (h.behind i hi).append _
  · rw [hself, hr, ← h.term]
    exact (hholds.appendEntry command).of_sameLog ⟨rfl, rfl, rfl⟩
  · rw [hself, hr]
    exact hl
  · rw [hself, hr]
    exact hholds.start
  · rw [hself, hr]
    exact (hcaught i hi).next
  · obtain ⟨l', hfollows, -⟩ := (hcaught i hi).follows
    rw [hother i hi]
    exact hfollows.boundary_le
  · obtain ⟨l', hrepair, hext⟩ := hrepair i hi
    rw [hother i hi]
    exact ⟨l', hrepair.following, by rwa [List.take_left]⟩
  · by_cases hv : v = s
    · rw [hv, hself, hr]
      rfl
    · rw [hother v hv]

/-! ## Handing out -/

end Cluster

/-- Everything committed is handed out at once. -/
theorem Raft.Ordered.getApplyLogs_last {r : Raft n Image} (h : r.Ordered)
    {l : List LogEntry} (hholds : r.Holds l) {e : LogEntry} {k : ℕ}
    (hcommit : r.commitIndex = k) (hlt : r.lastApplied < k)
    (he : l[k - 1]? = some e) :
    ∃ msgs, r.getApplyLogs = .ok ({ r with lastApplied := k }, msgs) ∧
      (k, e.command) ∈ msgs := by
  subst hcommit
  obtain ⟨⟨r', msgs⟩, hok⟩ := Raft.getApplyLogs_ok h
  have hrest := hok
  simp only [getApplyLogs, exec_bind_eq_ok] at hrest
  obtain ⟨-, -, hrest⟩ := hrest
  have hnode := (applyLogs_eq_ok hrest).1
  rw [Nat.add_sub_cancel' hlt.le] at hnode
  subst hnode
  refine ⟨msgs, hok, ?_⟩
  have hmem : r.commitIndex ∈ msgs.map Prod.fst := by
    rw [applyLogs_indices hrest, List.mem_range'_1]
    omega
  obtain ⟨⟨i, x⟩, hm, rfl⟩ := List.mem_map.mp hmem
  obtain ⟨-, entry, hentry, rfl⟩ := (getApplyLogs_eq_ok hok).2 _ hm
  obtain ⟨hstart, -, hentry⟩ := entryAt_eq_ok hentry
  have hget := (hholds.entryAt?_eq_some hentry).2
  rw [he] at hget
  obtain rfl := Option.some.inj hget
  exact hm

namespace Cluster

variable {c : Cluster n Image} {l : List LogEntry} {s : Fin n}

/-- The servers in `done` have handed out `x` at the end of `l`. -/
structure HandingOut (c : Cluster n Image) (l : List LogEntry) (x : Op)
    (done : List (Fin n)) (c' : Cluster n Image) (es : List (Event n Image)) :
    Prop where
  served : ∀ v ∈ done, c'.nodes v = { c.nodes v with lastApplied := l.length } ∧
    .handedOut v l.length x ∈ es
  waiting : ∀ v, v ∉ done → c'.nodes v = c.nodes v

theorem HandingOut.next {c' : Cluster n Image} {e : LogEntry}
    {done : List (Fin n)} {es : List (Event n Image)} {v : Fin n}
    (h : HandingOut c l e.command done c' es) (hc : (c.nodes v).Ordered)
    (hlast : l[l.length - 1]? = some e) (hnot : v ∉ done)
    (hcommit : (c.nodes v).commitIndex = l.length)
    (happlied : (c.nodes v).lastApplied < l.length) {l' : List LogEntry}
    (hholds : (c.nodes v).Holds l') (hext : l <+: l') :
    ∃ c'' es', c'.CanReach es' c'' ∧
      HandingOut c l e.command (done ++ [v]) c'' (es ++ es') := by
  have hentry : l'[l.length - 1]? = some e := by
    obtain ⟨t, rfl⟩ := hext
    rw [List.getElem?_append_left (by omega)]
    exact hlast
  obtain ⟨msgs, hok, hmem⟩ :=
    hc.getApplyLogs_last hholds hcommit happlied hentry
  have hstep : c'.step (.applierTicker v) = some (c'.setNode v
      { c.nodes v with lastApplied := l.length },
        msgs.map fun m => .handedOut v m.1 m.2) := by
    simp only [step, applierTicker, h.waiting v hnot, hok]
  refine ⟨_, _, .single hstep trivial, fun u hu => ?_, fun u hu => ?_⟩
  · rcases List.mem_append.mp hu with hserved | hlast
    · have hne : u ≠ v := fun heq => hnot (heq ▸ hserved)
      obtain ⟨hnode, hout⟩ := h.served u hserved
      exact ⟨by simpa [setNode, hne] using hnode, List.mem_append_left _ hout⟩
    · obtain rfl := List.mem_singleton.mp hlast
      exact ⟨by simp [setNode], List.mem_append_right _
        (List.mem_map.mpr ⟨_, hmem, rfl⟩)⟩
  · rw [List.mem_append, List.mem_singleton, not_or] at hu
    simpa [setNode, hu.2] using h.waiting u hu.1

/-- Every server hands out what is committed. -/
theorem reaches_handedOut (hc : c.Ordered) {e : LogEntry}
    (hlast : l[l.length - 1]? = some e)
    (hcommit : ∀ v, (c.nodes v).commitIndex = l.length)
    (happlied : ∀ v, (c.nodes v).lastApplied < l.length)
    (hholds : ∀ v, ∃ l', (c.nodes v).Holds l' ∧ l <+: l') :
    ∃ c' es, c.CanReach es c' ∧
      (∀ v, c'.nodes v = { c.nodes v with lastApplied := l.length }) ∧
      ∀ v, .handedOut v l.length e.command ∈ es := by
  have hnodup := (Finset.univ : Finset (Fin n)).nodup_toList
  obtain ⟨c', es, hreach, hall⟩ := Reaches.each
    (I := fun done c' es => HandingOut c l e.command done c' es)
    (Finset.univ : Finset (Fin n)).toList
    (fun done v rest c₁ es his hhanding => by
      obtain ⟨l', hl', hext⟩ := hholds v
      refine hhanding.next (hc.nodes v) hlast (fun hmem => ?_) (hcommit v)
        (happlied v) hl' hext
      rw [his, List.nodup_append] at hnodup
      exact hnodup.2.2 v hmem v (by simp) rfl) ⟨by simp, fun _ _ => rfl⟩
  exact ⟨c', es, hreach, fun v => (hall.served v (by simp)).1,
    fun v => (hall.served v (by simp)).2⟩

/-! ## The whole way -/

/-- Server `s` leads with the full log `l`, and every server has this log and
has handed out all of it. -/
structure Serves (c : Cluster n Image) (s : Fin n) (l : List LogEntry) :
    Prop where
  leads : (c.nodes s).status = .leader
  holds : (c.nodes s).Holds l
  starts : ∀ v, ∃ l', (c.nodes v).Holds l' ∧ l <+: l'
  applied : ∀ v, (c.nodes v).lastApplied = l.length

/-- In a cluster of several servers every server has a peer. -/
theorem exists_peer (hn : 2 ≤ n) (s : Fin n) : ∃ i, i ≠ s := by
  obtain ⟨is, -, hlength, hpeers⟩ := exists_peers s hn
  obtain ⟨i, hi⟩ := List.exists_mem_of_length_pos (by omega : 0 < is.length)
  exact ⟨i, hpeers i hi⟩

/-- Nothing behind the log of the leader has been handed out. -/
theorem Repairing.applied_le {T : ℕ} (h : Repairing s l T c) (hn : 2 ≤ n)
    (hc : c.Ordered) (v : Fin n) : (c.nodes v).lastApplied ≤ l.length := by
  have happlied := (hc.nodes v).committed
  by_cases hv : v = s
  · obtain ⟨i, hi⟩ := exists_peer hn s
    obtain ⟨l', hrepair⟩ := h.repair i hi
    have := hrepair.leading.commit
    have := hrepair.leading.holds.start
    subst hv
    omega
  · obtain ⟨l', hrepair⟩ := h.repair v hv
    have := (h.behind v hv).commit
    have := hrepair.following.boundary_le
    omega

/-- A leader that can repair every server gets a command through. -/
theorem Repairing.reaches_serves {T : ℕ} (h : Repairing s l T c) (hn : 2 ≤ n)
    (hc : c.Ordered) (command : Op) :
    ∃ c' es, c.CanReach es c' ∧
      c'.Serves s (l ++ [LogsTracked.nextEntry l T command]) ∧
      ∀ v, .handedOut v (l.length + 1) command ∈ es := by
  obtain ⟨i, hi⟩ := exists_peer hn s
  obtain ⟨l₁, hl₁⟩ : ∃ l₁, l₁ = l ++ [LogsTracked.nextEntry l T command] :=
    ⟨_, rfl⟩
  have hlen : l₁.length = l.length + 1 := by simp [hl₁]
  -- the followers catch up, and the leader appends the command
  obtain ⟨c₁, es₁, hreach₁, h₁, hcaught₁⟩ := h.reaches_caughtUp
  have hc₁ := hreach₁.ordered hc
  obtain ⟨_, hrepair₁⟩ := h₁.repair i hi
  obtain ⟨c₂, hreach₂, h₂, hholds₂, hleads₂, hstart₂, hpos₂, happlied₂⟩ :=
    reaches_appended h₁ hrepair₁.leading.holds hrepair₁.leading.leads hcaught₁
      command
  rw [← hl₁] at h₂ hholds₂ hpos₂ ⊢
  -- one round commits it, and another one tells the followers
  obtain ⟨c₃, es₃, hreach₃, hserved₃⟩ := h₂.reaches_served hn hholds₂ hleads₂
    hstart₂ (by omega) hpos₂
  have hcommit₃ : (c₃.nodes s).commitIndex = l₁.length :=
    hserved₃.commits (by omega) (by rw [hl₁, lastTerm_concat]; rfl)
  obtain ⟨_, hrepair₃⟩ := hserved₃.repairing.repair i hi
  have hholds₃ := hrepair₃.leading.holds
  obtain ⟨c₄, es₄, hreach₄, hserved₄⟩ :=
    hserved₃.repairing.reaches_served hn hholds₃ hrepair₃.leading.leads
      hholds₃.start le_rfl fun j hj => by
        obtain ⟨l', hfollows, hext⟩ := (hserved₃.caught j hj).1.follows
        exact ⟨(hserved₃.caught j hj).1.next, hfollows.boundary_le, l',
          hfollows, by rwa [List.take_length]⟩
  obtain ⟨_, hrepair₄⟩ := hserved₄.repairing.repair i hi
  have hleading := hrepair₄.leading
  have hcommit₄ : ∀ v, (c₄.nodes v).commitIndex = l₁.length := by
    intro v
    by_cases hv : v = s
    · have := hserved₄.commit
      have := hleading.commit
      subst hv
      omega
    · have := (hserved₄.caught v hv).2
      have := (hserved₄.repairing.behind v hv).commit
      omega
  have hholds₄ : ∀ v, ∃ l', (c₄.nodes v).Holds l' ∧ l₁ <+: l' := by
    intro v
    by_cases hv : v = s
    · exact hv ▸ ⟨l₁, hleading.holds, List.prefix_rfl⟩
    · obtain ⟨l', hfollows, hext⟩ := (hserved₄.caught v hv).1.follows
      exact ⟨l', hfollows.holds, hext⟩
  -- everybody hands it out
  have hreach := ((hreach₁.trans hreach₂).trans hreach₃).trans hreach₄
  obtain ⟨c₅, es₅, hreach₅, hnodes, hout⟩ := reaches_handedOut
    (CanReach.ordered hreach hc)
    (show l₁[l₁.length - 1]? = some (LogsTracked.nextEntry l T command) by
      simp [hl₁]) hcommit₄
    (fun v => by
      rw [hserved₄.applied, hserved₃.applied, happlied₂, hlen]
      exact Nat.lt_succ_of_le (h₁.applied_le hn hc₁ v)) hholds₄
  refine ⟨c₅, _, hreach.trans hreach₅, ⟨?_, ?_, fun v => ?_, fun v => ?_⟩,
    fun v => List.mem_append_right _ (hlen ▸ hout v)⟩
  · rw [hnodes]
    exact hleading.leads
  · rw [hnodes]
    exact hleading.holds.of_sameLog ⟨rfl, rfl, rfl⟩
  · obtain ⟨l', hl', hext⟩ := hholds₄ v
    rw [hnodes]
    exact ⟨l', hl'.of_sameLog ⟨rfl, rfl, rfl⟩, hext⟩
  · rw [hnodes]

end Cluster

/-- A new command always gets through, behind everything that was handed
out. -/
theorem command_goes_through (hn : 2 ≤ n) {as : List (Action n Image)}
    {c : Cluster n Image} {es : List (Event n Image)}
    (hprotocol : Throughout Cluster.step Cluster.FollowsProtocol
      (Cluster.start n Image) as)
    (hrun : (Cluster.start n Image).run as = some (c, es)) (command : Op) :
    ∃ bs c' es' s l, c.run bs = some (c', es') ∧ c'.Serves s l ∧
      (∀ v, .handedOut v l.length command ∈ es') ∧
      ∀ v i x, .handedOut v i x ∈ es →
        i < l.length ∧ ∃ e, l[i - 1]? = some e ∧ e.command = x := by
  have hc := ordered_of_run hrun
  obtain ⟨s, c₁, es₁, ⟨as₁, hprotocol₁, hrun₁⟩, helected⟩ :=
    Cluster.reaches_elected hn hc
  obtain ⟨G, hG, hes⟩ := tracked_along
    ((throughout_append hrun).mpr ⟨hprotocol, hprotocol₁⟩)
    (run_append_eq_some.mpr ⟨c, es, es₁, hrun, hrun₁, rfl⟩)
  have hc₁ : c₁.Ordered :=
    Cluster.CanReach.ordered ⟨as₁, throughout_true c as₁, hrun₁⟩ hc
  obtain ⟨c₂, es₂, ⟨bs, -, hrun₂⟩, hserves, hout⟩ :=
    (hG.repairing helected).reaches_serves hn hc₁ command
  refine ⟨as₁ ++ bs, c₂, es₁ ++ es₂, s, _,
    run_append_eq_some.mpr ⟨c₁, es₁, es₂, hrun₁, hrun₂, rfl⟩, hserves,
    fun v => ?_, fun v i x hmem => ?_⟩
  · rw [List.length_append, List.length_singleton]
    exact List.mem_append_right _ (hout v)
  · obtain ⟨q, e, T, hq, rfl, rfl⟩ := hes _ (List.mem_append_left _ hmem)
    have hext := hG.committed_elected helected hq
    have hlen := hext.length_le
    rw [List.length_append, List.length_singleton] at hlen
    refine ⟨by rw [List.length_append, List.length_singleton]; omega, e, ?_,
      rfl⟩
    obtain ⟨t, ht⟩ := hext
    rw [← ht]
    simp

theorem command_goes_through_replicated :
    ∃ c es, (Cluster.start 3 Unit).run Cluster.replicatedRun = some (c, es) ∧
      (es.filterMap Event.handedOut?).length = 2 ∧
      ∃ bs c' es' s l, c.run bs = some (c', es') ∧ c'.Serves s l ∧
        (∀ v, .handedOut v l.length (Raft.noop 7) ∈ es') ∧
        ∀ v i x, .handedOut v i x ∈ es →
          i < l.length ∧ ∃ e, l[i - 1]? = some e ∧ e.command = x := by
  obtain ⟨c, es, hrun, hlen⟩ : ∃ c es,
      (Cluster.start 3 Unit).run Cluster.replicatedRun = some (c, es) ∧
        (es.filterMap Event.handedOut?).length = 2 := by
    decide +kernel
  exact ⟨c, es, hrun, hlen, command_goes_through (by decide)
    (by decide +kernel) hrun (Raft.noop 7)⟩

end KVRaftStorage
