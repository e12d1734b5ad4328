import KVRaftStorage.Raft.Safety

/-!
# Freshness of ReadIndex

A read is compared with the commits made before it started.  Commits of earlier
terms lie below the first entry of the reader's own term, commits of its own
term are its own, and a commit of a later term would have been acknowledged by
a server that afterwards still confirmed the reader.

The first part needs that the reader has committed an entry of its own term,
which the code does not check.
-/

namespace KVRaftStorage

open Replication Quorum Transition

variable {n : ℕ} {Image : Type}

/-! ## Commits of the reader's own term -/

/-- The commit index of a leader covers every commit of its term. -/
def LeadersCover (c : Cluster n Image) (es : List (Event n Image)) : Prop :=
  ∀ v s r, (c.nodes v).status = .leader → .advanced s r ∈ es →
    r.currentTerm = (c.nodes v).currentTerm →
      r.commitIndex ≤ (c.nodes v).commitIndex

namespace LeadersCover

variable {c c' : Cluster n Image} {es : List (Event n Image)}

theorem of_nodes (h : LeadersCover c es) (hn : c'.nodes = c.nodes) :
    LeadersCover c' es := by
  rw [LeadersCover, hn]
  exact h

/-- An event that is not a commit does not matter. -/
theorem append (h : LeadersCover c es) {es' : List (Event n Image)}
    (hes' : ∀ s r, .advanced s r ∉ es') : LeadersCover c (es ++ es') := by
  intro v s r hl hmem
  rcases List.mem_append.mp hmem with hmem | hmem
  · exact h v s r hl hmem
  · exact absurd hmem (hes' s r)

/-- A node changes and, if it leads afterwards, led the same term before. -/
theorem setNode (h : LeadersCover c es) (v : Fin n) (r' : Raft n Image)
    (hlead : r'.status = .leader → (c.nodes v).status = .leader ∧
      r'.currentTerm = (c.nodes v).currentTerm)
    (hcommit : r'.status = .leader →
      (c.nodes v).commitIndex ≤ r'.commitIndex) :
    LeadersCover (c.setNode v r') es := by
  intro u s r hl hmem hterm
  by_cases hu : u = v
  · subst hu
    simp only [Cluster.setNode, Function.update_self] at hl hterm ⊢
    obtain ⟨hl', hsame⟩ := hlead hl
    exact (h u s r hl' hmem (hterm.trans hsame)).trans (hcommit hl)
  · simp only [Cluster.setNode, Function.update_of_ne hu] at hl hterm ⊢
    exact h u s r hl hmem hterm

theorem follow (h : LeadersCover c es) {v : Fin n} {r' : Raft n Image}
    (hfollows : (c.nodes v).Follows r')
    (hcommit : r'.status = .leader →
      (c.nodes v).commitIndex ≤ r'.commitIndex) :
    LeadersCover (c.setNode v r') es :=
  h.setNode _ _ hfollows.leader hcommit

/-- A node that does not lead afterwards does not matter. -/
theorem idle (h : LeadersCover c es) (v : Fin n) (r' : Raft n Image)
    (hidle : r'.status ≠ .leader) : LeadersCover (c.setNode v r') es :=
  h.setNode v r' (fun hl => absurd hl hidle) fun hl => absurd hl hidle

/-- Nothing has been committed yet in the term of a new leader. -/
theorem win (h : LeadersCover c es) {G : Ledger (Fin n) LogEntry}
    (hG : Tracked G c) (hes : ∀ e ∈ es, EventCommits G e) {k : ℕ}
    {election : Election n} {i : Fin n} {r' : Raft n Image}
    {reply : RequestVoteReply} (he : c.elections[k]? = some election)
    (hcall : election.calls i = .replied reply)
    (hwins : (c.nodes election.candidate).Wins r' reply election.votedNum) :
    LeadersCover (c.setNode election.candidate r') es := by
  obtain ⟨hterm, -, hnone, -⟩ := hG.votes.win_most he hcall hwins
  intro u s r hl hmem hsame
  by_cases hu : u = election.candidate
  · subst hu
    simp only [Cluster.setNode, Function.update_self] at hsame
    obtain ⟨-, p, -, -, hdecided, hlast, -⟩ := hes _ hmem
    have hminted := hdecided.1.2
    have hcurrent : r'.currentTerm =
        (c.nodes election.candidate).currentTerm := by
      rw [hwins.eq]
      rfl
    rw [hlast, hsame, hcurrent, ← hterm, hG.logs.matched.unminted _ hnone]
      at hminted
    exact absurd (List.prefix_nil.mp hminted) hdecided.1.1
  · simp only [Cluster.setNode, Function.update_of_ne hu] at hl hsame ⊢
    exact h u s r hl hmem hsame

/-- The leader of a term is the only one that commits in it. -/
theorem tally (h : LeadersCover c es) {G : Ledger (Fin n) LogEntry}
    (hG : Tracked G c) {v : Fin n} {args : AppendEntriesArgs n}
    {reply : AppendEntriesReply} {r' : Raft n Image} {k k' : ℕ}
    (htallies : (c.nodes v).Tallies args reply k r' k') :
    LeadersCover (c.setNode v r')
      (es ++ if (c.nodes v).commitIndex < r'.commitIndex then
        [.advanced v r'] else []) := by
  have hle : (c.nodes v).commitIndex ≤ r'.commitIndex := by
    rcases htallies.commit with hsame | ⟨-, hmax⟩
    · exact hsame.ge
    · exact hmax ▸ le_max_left _ _
  intro u s r hl hmem hterm
  rcases List.mem_append.mp hmem with hmem | hmem
  · exact (h.follow htallies.follows fun _ => hle) u s r hl hmem hterm
  · split at hmem
    · obtain ⟨rfl, rfl⟩ : s = v ∧ r = r' := by simpa using hmem
      by_cases hu : u = s
      · subst hu
        simp [Cluster.setNode]
      · simp only [Cluster.setNode, Function.update_of_ne hu] at hl hterm
        have hwinner := ((hG.votes.nodes u).leader hl).1
        have hsame : r.currentTerm = (c.nodes s).currentTerm :=
          congrArg RaftState.currentTerm htallies.data
        rw [← hterm, hsame] at hwinner
        have hown := ((hG.votes.nodes s).leader htallies.counts.status).1
        exact absurd (Option.some.inj (hwinner.symm.trans hown)) hu
    · simp at hmem

end LeadersCover

theorem Move.covers {c c' : Cluster n Image} {es' : List (Event n Image)}
    (h : Move .protocol c c' es') {G : Ledger (Fin n) LogEntry}
    (hG : Tracked G c) {es : List (Event n Image)}
    (hes : ∀ e ∈ es, EventCommits G e) (hc : LeadersCover c es) :
    LeadersCover c' (es ++ es') := by
  induction h generalizing G es with
  | trans h₁ _ ih₁ ih₂ =>
      obtain ⟨G₁, hext, hG₁, hes₁⟩ := h₁.tracked hG
      rw [← List.append_assoc]
      refine ih₂ hG₁ (fun e he => ?_) (ih₁ hG hes hc)
      rcases List.mem_append.mp he with he | he
      · exact (hes e he).extend hext
      · exact hes₁ e he
  | settle hs => exact (hc.of_nodes hs.nodes).append (by simp)
  | quiet v r' hquiet _ =>
      exact (hc.follow hquiet.follows fun _ => hquiet.commit.ge).append
        (by simp)
  | restart v p _ =>
      exact ((hc.idle v (Raft.init v p) (by simp)).of_nodes
        rfl).append (by simp)
  | candidacy v r' args hstep =>
      have hstatus := (Raft.doElection_eq_some hstep).2.2.2.2.1
      exact ((hc.idle v r' (by simp [hstatus])).of_nodes
        rfl).append (by simp)
  | grant e election i r' reply _ _ hgrants =>
      refine ((hc.setNode i r' (fun hl => ?_)
        fun _ => hgrants.commit.ge).of_nodes rfl).append (by simp)
      exact ⟨(hgrants.leader hl).1,
        hgrants.term.trans (hgrants.leader hl).2.symm⟩
  | count => exact (hc.of_nodes rfl).append (by simp)
  | win e election i r' reply he hcall hwins =>
      exact ((hc.win hG hes he hcall hwins).of_nodes rfl).append (by simp)
  | extend v command hl =>
      refine LeadersCover.append (hc.setNode _ _ ?_ ?_) (by simp)
      · exact fun _ => ⟨hl, rfl⟩
      · exact fun _ => le_rfl
  | heartbeat => exact (hc.of_nodes rfl).append (by simp)
  | acceptRound k round i args r' reply _ _ _ haccepts =>
      exact ((hc.idle i r'
        (by simp [haccepts.status])).of_nodes rfl).append (by simp)
  | acceptRead q read i args r' reply _ _ _ haccepts =>
      exact ((hc.idle i r'
        (by simp [haccepts.status])).of_nodes rfl).append (by simp)
  | tally k round i args reply r' appendNums _ _ htallies =>
      exact (hc.tally hG htallies).of_nodes rfl
  | offer => exact (hc.of_nodes rfl).append (by simp)
  | install k round i args r' _ _ _ hinstalls =>
      exact (hc.idle _ _ (by simp [hinstalls.status])).append (by simp)
  | compact v index r' hcompacts =>
      exact (hc.follow hcompacts.follows fun _ =>
        hcompacts.commit ▸ le_max_left _ _).append (by simp)
  | handOut v r' msgs hout =>
      refine (hc.follow (Raft.getApplyLogs_quiet hout).1 fun _ => ?_).append
        (by simp)
      rw [(Raft.getApplyLogs_eq_ok hout).1]
  | beginRead => exact (hc.of_nodes rfl).append (by simp)
  | sendRead => exact (hc.of_nodes rfl).append (by simp)
  | confirm => exact (hc.of_nodes rfl).append (by simp)
  | returnRead => exact (hc.of_nodes rfl).append (by simp)

/-! ## Confirmations -/

def ReadThread.finished : ReadThread n → Bool
  | .done => true
  | _ => false

/-- The finished threads of servers that were in term `T` or earlier when the
read started. -/
def ReadCall.counted (read : ReadCall n) (known : Fin n → ℕ) (T : ℕ) : ℕ :=
  (Finset.univ.filter fun i => i ≠ read.server ∧
    ((read.threads i).finished = true ∧ known i ≤ T)).card

/-- The read was started by `s` in term `T` with commit index `k`, when every
server `i` was in term `known i` or later.  Its counter is backed by servers
that were not beyond `T` then. -/
structure ReadConfirms (known : Fin n → ℕ) (s : Fin n) (T k : ℕ)
    (read : ReadCall n) : Prop where
  server : read.server = s
  savedTerm : read.savedTerm = T
  readIndex : read.readIndex = k
  own : (read.threads s).finished = true
  sent : ∀ i args call, read.threads i = .append args call → args.term = T
  replied : ∀ i args reply, read.threads i = .append args (.replied reply) →
    reply.success = true → known i ≤ T
  count : read.confirmCount ≤ 1 + read.counted known T

theorem ReadThread.Settles.finished {t t' : ReadThread n}
    (hs : t.Settles t') (h : t.finished = true) : t'.finished = true := by
  cases hs with
  | refl => exact h
  | append => simp [ReadThread.finished] at h
  | finish => rfl

theorem ReadThread.Settles.replied {t : ReadThread n}
    {args : AppendEntriesArgs n} {reply : AppendEntriesReply}
    (h : t.Settles (.append args (.replied reply)))
    (hok : reply.success = true) : t = .append args (.replied reply) := by
  cases h with
  | refl => rfl
  | append _ _ _ hfail => simp [hfail reply rfl] at hok

namespace ReadConfirms

variable {known : Fin n → ℕ} {s : Fin n} {T k : ℕ} {read read' : ReadCall n}

theorem begun {r : Raft n Image} (v : Fin n) (boot : ℕ) :
    ReadConfirms known v r.currentTerm r.commitIndex (.begun v boot r) where
  server := rfl
  savedTerm := rfl
  readIndex := rfl
  own := by simp [ReadCall.begun, ReadThread.finished]
  sent := by
    intro i args call h
    by_cases hi : i = v <;> simp [ReadCall.begun, hi] at h
  replied := by
    intro i args reply h
    by_cases hi : i = v <;> simp [ReadCall.begun, hi] at h
  count := Nat.le_add_right 1 _

theorem counted_le (hserver : read'.server = read.server)
    (hfinished : ∀ i, (read.threads i).finished = true →
      (read'.threads i).finished = true) :
    read.counted known T ≤ read'.counted known T := by
  refine Finset.card_le_card fun i hi => ?_
  simp only [Finset.mem_filter, Finset.mem_univ, true_and] at hi ⊢
  exact ⟨hserver ▸ hi.1, hfinished i hi.2.1, hi.2.2⟩

theorem settle (h : ReadConfirms known s T k read) (hs : read.Settles read') :
    ReadConfirms known s T k read' where
  server := hs.server.trans h.server
  savedTerm := hs.savedTerm.trans h.savedTerm
  readIndex := hs.readIndex.trans h.readIndex
  own := (hs.threads s).finished h.own
  sent := by
    intro i args call hi
    obtain ⟨call₀, hold⟩ := (hi ▸ hs.threads i).exists_append
    exact h.sent i args call₀ hold
  replied := fun i args reply hi hok =>
    h.replied i args reply ((hi ▸ hs.threads i).replied hok) hok
  count := by
    rw [hs.confirmCount]
    exact h.count.trans (Nat.add_le_add_left
      (counted_le hs.server fun i => (hs.threads i).finished) 1)

/-- An open thread moves on without being counted. -/
theorem setThread (h : ReadConfirms known s T k read) {i : Fin n}
    {t : ReadThread n} (hopen : (read.threads i).finished = false)
    (hsent : ∀ args call, t = .append args call → args.term = T)
    (hreplied : ∀ args reply, t = .append args (.replied reply) →
      known i ≤ T) :
    ReadConfirms known s T k (read.setThread i t) where
  server := h.server
  savedTerm := h.savedTerm
  readIndex := h.readIndex
  own := by
    have hne : s ≠ i := by
      rintro rfl
      simp [h.own] at hopen
    simpa [ReadCall.setThread, hne] using h.own
  sent := by
    intro j args call hj
    by_cases hji : j = i
    · subst hji
      exact hsent args call (by simpa [ReadCall.setThread] using hj)
    · exact h.sent j args call (by simpa [ReadCall.setThread, hji] using hj)
  replied := by
    intro j args reply hj hok
    by_cases hji : j = i
    · subst hji
      exact hreplied args reply (by simpa [ReadCall.setThread] using hj)
    · exact h.replied j args reply
        (by simpa [ReadCall.setThread, hji] using hj) hok
  count := by
    have hle : read.counted known T ≤
        (read.setThread i t).counted known T := by
      refine counted_le rfl fun j hj => ?_
      have hji : j ≠ i := by
        rintro rfl
        simp [hj] at hopen
      simpa [ReadCall.setThread, hji] using hj
    exact h.count.trans (Nat.add_le_add_left hle 1)

/-- A counted reply ends its thread. -/
theorem counted_finish {i : Fin n}
    (hopen : (read.threads i).finished = false) (hne : i ≠ read.server)
    (hknown : known i ≤ T) :
    read.counted known T + 1 ≤
      (read.setThread i .done).counted known T := by
  have hnotin : i ∉ Finset.univ.filter fun j => j ≠ read.server ∧
      ((read.threads j).finished = true ∧ known j ≤ T) := by
    simp [hopen]
  rw [ReadCall.counted, ← Finset.card_insert_of_notMem hnotin]
  refine Finset.card_le_card fun j hj => ?_
  simp only [Finset.mem_insert, Finset.mem_filter, Finset.mem_univ,
    true_and] at hj ⊢
  by_cases hji : j = i
  · subst hji
    exact ⟨hne, by simp [ReadCall.setThread, ReadThread.finished], hknown⟩
  · rcases hj with hj | hj
    · exact absurd hj hji
    · exact ⟨hj.1, by simpa [ReadCall.setThread, hji] using hj.2.1, hj.2.2⟩

theorem confirm (h : ReadConfirms known s T k read) {i : Fin n}
    {args : AppendEntriesArgs n} {reply : AppendEntriesReply}
    (hthread : read.threads i = .append args (.replied reply))
    (hok : reply.success = true) :
    ReadConfirms known s T k { read.setThread i .done with
      confirmCount := read.confirmCount + 1 } := by
  have hopen : (read.threads i).finished = false := by
    rw [hthread]
    rfl
  have hne : i ≠ read.server := by
    rw [h.server]
    rintro rfl
    simp [h.own] at hopen
  have hset := h.setThread (t := .done) hopen (by simp) (by simp)
  refine ⟨hset.server, hset.savedTerm, hset.readIndex, hset.own, hset.sent,
    hset.replied, ?_⟩
  exact (Nat.add_le_add_right h.count 1).trans (by
    have := counted_finish hopen hne (h.replied i args reply hthread hok)
    rw [Nat.add_assoc]
    exact Nat.add_le_add_left this 1)

/-- A read that has its majority was confirmed by servers that had not seen a
later term when it started. -/
theorem most (h : ReadConfirms known s T k read) (hs : known s ≤ T)
    (hcount : n / 2 + 1 ≤ read.confirmCount) : Most fun v => known v ≤ T := by
  refine most_of_count (s := s) hs (h.count.trans (Nat.add_le_add_left
    (Finset.card_le_card fun i hi => ?_) 1)) (by simpa using hcount)
  simp only [Finset.mem_filter, Finset.mem_univ, true_and] at hi ⊢
  exact ⟨h.server ▸ hi.1, hi.2.2⟩

end ReadConfirms

/-- The read at position `q` is confirmed as far as it was counted. -/
def ReadAt (known : Fin n → ℕ) (s : Fin n) (T k q : ℕ)
    (c : Cluster n Image) : Prop :=
  ∃ read, c.reads[q]? = some read ∧ ReadConfirms known s T k read

namespace ReadAt

variable {known : Fin n → ℕ} {s : Fin n} {T k q : ℕ}
  {c c' : Cluster n Image}

theorem settle (h : ReadAt known s T k q c) (hs : c.Settles c') :
    ReadAt known s T k q c' := by
  obtain ⟨read, hq, hread⟩ := h
  obtain ⟨hlt, rfl⟩ := List.getElem?_eq_some_iff.mp hq
  have hlt' : q < c'.reads.length := hs.reads.length_eq ▸ hlt
  exact ⟨c'.reads[q], List.getElem?_eq_getElem hlt',
    hread.settle (List.forall₂_iff_get.mp hs.reads |>.2 q hlt hlt')⟩

theorem setRead (h : ReadAt known s T k q c) {q' : ℕ} {read read' : ReadCall n}
    (hq' : c.reads[q']? = some read)
    (hstep : ReadConfirms known s T k read →
      ReadConfirms known s T k read') :
    ReadAt known s T k q (c.setRead q' read') := by
  obtain ⟨read₀, hq, hread⟩ := h
  by_cases hqq : q' = q
  · subst hqq
    obtain rfl : read = read₀ := Option.some.inj (hq'.symm.trans hq)
    refine ⟨read', ?_, hstep hread⟩
    have := (List.getElem?_eq_some_iff.mp hq).1
    simp [Cluster.setRead, this]
  · refine ⟨read₀, ?_, hread⟩
    simpa [Cluster.setRead, List.getElem?_set, hqq] using hq

end ReadAt

theorem Move.readAt {c c' : Cluster n Image} {es : List (Event n Image)}
    (h : Move .protocol c c' es) {G : Ledger (Fin n) LogEntry}
    (hG : Tracked G c) {known : Fin n → ℕ} (hknown : ∀ i, known i ≤ G.epoch i)
    {s : Fin n} {T k q : ℕ} (hc : ReadAt known s T k q c) :
    ReadAt known s T k q c' := by
  induction h generalizing G with
  | trans h₁ _ ih₁ ih₂ =>
      obtain ⟨G₁, hext, hG₁, -⟩ := h₁.tracked hG
      exact ih₂ hG₁ (fun i => (hknown i).trans (hext.ballots.epoch i))
        (ih₁ hG hknown hc)
  | settle hs => exact hc.settle hs
  | quiet | restart | candidacy | grant | count | win | extend | heartbeat
  | acceptRound | tally | offer | install | compact | handOut => exact hc
  | acceptRead q' read i args r' reply hq' hthread _ haccepts =>
      refine hc.setRead hq' fun hread => hread.setThread
        (by simp [hthread, ReadThread.finished]) ?_ ?_
      · intro args' call heq
        obtain ⟨rfl, -⟩ : args = args' ∧ _ := by simpa using heq
        exact hread.sent i args .sent hthread
      · intro args' reply' _
        have hterm := hread.sent i args .sent hthread
        exact (hknown i).trans ((hG.votes.nodes i).le.trans
          (hterm ▸ haccepts.le))
  | beginRead v hl =>
      obtain ⟨read, hq, hread⟩ := hc
      refine ⟨read, ?_, hread⟩
      rw [List.getElem?_append_left (List.getElem?_eq_some_iff.mp hq).1, hq]
  | sendRead q' read i args hq' hthread hstep =>
      obtain ⟨-, hsaved, hterm, -⟩ :=
        (hG.logs.nodes read.server).holds.readIndexArgs_eq_some hstep
      refine hc.setRead hq' fun hread => hread.setThread
        (by simp [hthread, ReadThread.finished]) ?_ (by simp)
      intro args' call heq
      obtain ⟨rfl, -⟩ : args = args' ∧ _ := by simpa using heq
      exact hterm.trans (hsaved.trans hread.savedTerm)
  | confirm q' read i args reply hq' hthread hok =>
      exact hc.setRead hq' fun hread => hread.confirm hthread hok
  | returnRead q' read hq' =>
      exact hc.setRead hq' fun hread => ⟨hread.server, hread.savedTerm,
        hread.readIndex, hread.own, hread.sent, hread.replied, hread.count⟩

/-! ## Runs -/

theorem covered_along {as : List (Action n Image)} {c : Cluster n Image}
    {es : List (Event n Image)}
    (hprotocol : Throughout Cluster.step Cluster.FollowsProtocol
      (Cluster.start n Image) as)
    (hrun : (Cluster.start n Image).run as = some (c, es)) :
    ∃ G : Ledger (Fin n) LogEntry, Tracked G c ∧
      (∀ e ∈ es, EventCommits G e) ∧ LeadersCover c es := by
  refine run_history (I := fun c es => ∃ G : Ledger (Fin n) LogEntry,
    Tracked G c ∧ (∀ e ∈ es, EventCommits G e) ∧ LeadersCover c es) ?_
    hprotocol ⟨Ledger.blank, .start, by simp, ?_⟩ hrun
  · rintro c es a c' es' hprotocol ⟨G, hG, hes, hc⟩ hstep
    have hmove := Cluster.step_move (obeys_protocol hprotocol) hstep
    obtain ⟨G', hext, hG', hes'⟩ := hmove.tracked hG
    refine ⟨G', hG', fun e he => ?_, hmove.covers hG hes hc⟩
    rcases List.mem_append.mp he with he | he
    · exact (hes e he).extend hext
    · exact hes' e he
  · intro v s r _ hmem
    simp at hmem

/-- The confirmations of an open read stay counted. -/
theorem readAt_along {as : List (Action n Image)} {c c' : Cluster n Image}
    {es : List (Event n Image)} {G : Ledger (Fin n) LogEntry}
    (known : Fin n → ℕ) {s : Fin n} {T k q : ℕ}
    (hprotocol : Throughout Cluster.step Cluster.FollowsProtocol c as)
    (hG : Tracked G c) (hknown : ∀ i, known i ≤ G.epoch i)
    (hc : ReadAt known s T k q c) (hrun : c.run as = some (c', es)) :
    ReadAt known s T k q c' := by
  have hafter : ∃ G' : Ledger (Fin n) LogEntry, Tracked G' c' ∧
      (∀ i, known i ≤ G'.epoch i) ∧ ReadAt known s T k q c' := by
    refine run_invariant (I := fun c => ∃ G' : Ledger (Fin n) LogEntry,
      Tracked G' c ∧ (∀ i, known i ≤ G'.epoch i) ∧ ReadAt known s T k q c) ?_
      hprotocol ⟨G, hG, hknown, hc⟩ hrun
    rintro c a c' es hprotocol ⟨G, hG, hknown, hc⟩ hstep
    have hmove := Cluster.step_move (obeys_protocol hprotocol) hstep
    obtain ⟨G', hext, hG', -⟩ := hmove.tracked hG
    exact ⟨G', hG', fun i => (hknown i).trans (hext.ballots.epoch i),
      hmove.readAt hG hknown hc⟩
  obtain ⟨-, -, -, hread⟩ := hafter
  exact hread

/-- Every index committed in `es` is at most `r`. -/
def CoversCommits (es : List (Event n Image)) (r : ℕ) : Prop :=
  ∀ s₀ r₀, .advanced s₀ r₀ ∈ es → r₀.commitIndex ≤ r

instance (es : List (Event n Image)) (r : ℕ) :
    Decidable (CoversCommits es r) :=
  decidable_of_iff (∀ ev ∈ es, ∀ r₀ ∈ ev.advanced?, r₀.commitIndex ≤ r) <| by
    constructor
    · intro h s₀ r₀ hmem
      exact h _ hmem r₀ (Event.mem_advanced?.mpr ⟨s₀, rfl⟩)
    · intro h ev hmem r₀ hr₀
      obtain ⟨s₀, rfl⟩ := Event.mem_advanced?.mp hr₀
      exact h s₀ r₀ hmem

/-- Commits of a term up to that of a leader that has committed in its own
term lie within its commit index. -/
theorem decided_le_commit {c : Cluster n Image}
    {es : List (Event n Image)} {G : Ledger (Fin n) LogEntry}
    (hG : Tracked G c) (hes : ∀ e ∈ es, EventCommits G e)
    (hcover : LeadersCover c es) {s s₀ : Fin n} {r₀ : Raft n Image}
    (hl : (c.nodes s).status = .leader)
    (hcurrent : ¬(c.nodes s).ReadsBehind) (hmem : .advanced s₀ r₀ ∈ es)
    (hle : r₀.currentTerm ≤ (c.nodes s).currentTerm) :
    r₀.commitIndex ≤ (c.nodes s).commitIndex := by
  rcases hle.lt_or_eq with hlt | heq
  swap
  · exact hcover s s₀ r₀ hl hmem heq
  obtain ⟨-, p, -, -, hdecided, hlast, hlen⟩ := hes _ hmem
  obtain ⟨hminted, hne⟩ := (hG.logs.nodes s).leader hl
  have hp : p <+: G.log s := by
    rw [← hminted]
    exact hG.commits.complete.decided_prefix hdecided _ (hlast ▸ hlt)
      (hminted ▸ hne)
  have hterm : (c.nodes s).termAt? (c.nodes s).commitIndex =
      some (c.nodes s).currentTerm := by
    by_contra hbehind
    exact hcurrent ⟨hl, hbehind⟩
  obtain ⟨-, -, hown⟩ := (hG.logs.nodes s).holds.termAt?_eq_some hterm
  -- the entry at the commit index is not part of `p`
  by_contra hgt
  have htake : (G.log s).take (c.nodes s).commitIndex <+: p :=
    List.prefix_of_prefix_length_le (List.take_prefix _ _) hp
      ((List.length_take_le _ _).trans (by omega))
  have hnil : (G.log s).take (c.nodes s).commitIndex ≠ [] := by
    intro hnil
    rw [hnil, lastTerm_nil] at hown
    omega
  obtain ⟨e, he, heterm⟩ := exists_mem_lastTerm hnil
  have := hG.logs.matched.term_le_lastTerm hdecided.1.2 e (htake.subset he)
  omega

/-- Freshness of `ReadIndex`.  The call that starts after `as₁` on a leader
that has committed in its own term returns at least every index committed in
`as₁`, in every run whose steps keep the protocol. -/
theorem read_index_fresh {as₁ as₂ : List (Action n Image)} {s v : Fin n}
    {c₁ c₂ c₃ : Cluster n Image} {es₁ es₂ es₃ : List (Event n Image)} {r : ℕ}
    (hprotocol : Throughout Cluster.step Cluster.FollowsProtocol
      (Cluster.start n Image) (as₁ ++ .readIndex s :: as₂))
    (hbefore : (Cluster.start n Image).run as₁ = some (c₁, es₁))
    (hl : (c₁.nodes s).status = .leader)
    (hcurrent : ¬(c₁.nodes s).ReadsBehind)
    (hrun : (Cluster.start n Image).run (as₁ ++ .readIndex s :: as₂) =
      some (c₂, es₂))
    (hreturn : c₂.step (.readIndexReturn c₁.reads.length) = some (c₃, es₃))
    (hvalue : .readReturned v r ∈ es₃) : CoversCommits es₁ r := by
  intro s₀ r₀ hmem
  obtain ⟨hprotocol₁, hprotocol₂⟩ := (throughout_append hbefore).mp hprotocol
  obtain ⟨G, hG, hes, hcover⟩ := covered_along hprotocol₁ hbefore
  obtain ⟨c, es, es₄, hfirst, hrest, -⟩ := run_append_eq_some.mp hrun
  obtain ⟨rfl, rfl⟩ : c₁ = c ∧ es₁ = es := by
    simpa [hbefore] using hfirst
  obtain ⟨c, es, es₅, hstep, hopen, -⟩ := run_cons_eq_some.mp hrest
  have hprotocol₃ := ((throughout_cons hstep).mp hprotocol₂).2
  obtain ⟨rfl, -⟩ : _ = c ∧ [] = es := by
    simpa [Cluster.step, Cluster.readIndex, hl] using hstep
  obtain ⟨G', hext, hG', -⟩ := (Move.beginRead s hl).tracked hG
  obtain ⟨read, hq, hread⟩ := readAt_along G.epoch
    (q := c₁.reads.length) hprotocol₃ hG' hext.ballots.epoch
    ⟨.begun s (c₁.boots s) (c₁.nodes s), by simp [ReadCall.begun],
      .begun s _⟩ hopen
  -- the call returns what it recorded, after a majority confirmed it
  obtain ⟨read', hq', hreturn⟩ := Option.bind_eq_some_iff.mp hreturn
  obtain rfl : read = read' := Option.some.inj (hq.symm.trans hq')
  split at hreturn
  swap
  · simp at hreturn
  next henabled =>
    have hr : read.readIndex = r := by
      obtain ⟨-, rfl⟩ : _ = c₃ ∧ _ = es₃ := by
        simpa [Cluster.readIndexReturn] using hreturn
      split at hvalue
      · simp at hvalue
      · exact (show v = read.server ∧ r = read.readIndex by
          simpa using hvalue).2.symm
    have hepoch := ((hG.votes.nodes s).leader hl).2
    have hconfirmed := hread.most hepoch.le henabled.2.2
    rw [← hr, hread.readIndex]
    refine decided_le_commit hG hes hcover hl hcurrent hmem ?_
    -- a later term would be known to one of the confirming servers
    by_contra hlater
    obtain ⟨-, p, -, -, hdecided, hlast, -⟩ := hes _ hmem
    obtain ⟨u, hknown, hack⟩ := hconfirmed.exists_both hdecided.2
    have hpos : 0 < p.length := List.length_pos_of_ne_nil hdecided.1.1
    have := hG.commits.complete.acked_epoch u _ (hpos.trans_le hack)
    omega

def Event.readReturned? : Event n Image → Option (Fin n × ℕ)
  | .readReturned s r => some (s, r)
  | _ => none

theorem Event.mem_readReturned? {ev : Event n Image} {s : Fin n} {r : ℕ} :
    (s, r) ∈ ev.readReturned? ↔ ev = .readReturned s r := by
  cases ev <;> simp [readReturned?]

/-- One peer confirms the first read of the run. -/
def confirmedBy (i : Fin 3) : List (Action 3 Unit) :=
  [.readIndexSend 0 i, .readAppendEntries 0 i, .readIndexReply 0 i]

theorem read_index_fresh_replicated :
    ∃ c₁ es₁,
      (Cluster.start 3 Unit).run Cluster.replicatedRun = some (c₁, es₁) ∧
        CoversCommits es₁ 1 ∧ ¬CoversCommits es₁ 0 := by
  obtain ⟨c₁, es₁, hbefore, ⟨hl, hcurrent⟩, hreads, hmissed⟩ : ∃ c₁ es₁,
      (Cluster.start 3 Unit).run Cluster.replicatedRun = some (c₁, es₁) ∧
        ((c₁.nodes 0).status = .leader ∧ ¬(c₁.nodes 0).ReadsBehind) ∧
        c₁.reads.length = 0 ∧ ¬CoversCommits es₁ 0 := by
    decide +kernel
  obtain ⟨c₂, es₂, hrun, c₃, es₃, hreturn, ev, hev, hvalue⟩ : ∃ c₂ es₂,
      (Cluster.start 3 Unit).run (Cluster.replicatedRun ++
        .readIndex 0 :: confirmedBy 1) = some (c₂, es₂) ∧
        ∃ c₃ es₃, c₂.step (.readIndexReturn 0) = some (c₃, es₃) ∧
          ∃ ev ∈ es₃, (0, 1) ∈ ev.readReturned? := by
    decide +kernel
  obtain rfl := Event.mem_readReturned?.mp hvalue
  refine ⟨c₁, es₁, hbefore, ?_, hmissed⟩
  exact read_index_fresh (by decide +kernel) hbefore hl hcurrent hrun
    (hreads ▸ hreturn) hev

/-- Server 0 commits index 1, and server 1 wins the next term before it hears
of that. -/
def newLeaderRun : List (Action 3 Unit) :=
  [.doElection 0, .requestVote 0 1, .sendRequestVote 0 1, .doHeartBeat 0,
    .appendEntries 0 1, .sendAppendEntries 0 1, .doElection 1,
    .requestVote 1 2, .sendRequestVote 1 2]

/-- The deposed leader confirms the new one, whose read returns too little. -/
theorem new_leader_misses_commit :
    ∃ c₁ es₁, (Cluster.start 3 Unit).run newLeaderRun = some (c₁, es₁) ∧
      ∃ c₂ es₂, (Cluster.start 3 Unit).run (newLeaderRun ++
          .readIndex 1 :: confirmedBy 0) = some (c₂, es₂) ∧
        ∃ c₃ es₃, c₂.step (.readIndexReturn c₁.reads.length) =
            some (c₃, es₃) ∧
          ∃ ev ∈ es₃, ∃ m ∈ ev.readReturned?, ¬CoversCommits es₁ m.2 := by
  decide +kernel

end KVRaftStorage
