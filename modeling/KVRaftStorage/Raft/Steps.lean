import KVRaftStorage.Raft.Moves

/-!
# What a step does to the nodes and to the threads

The moves forget how a node changed as long as the other servers cannot tell.
Here every step is listed by the handler that ran or exited, and by the one
thread that advanced.  Invariants about a node's own counters, and about the
assertions, are derived from this list.
-/

namespace KVRaftStorage

variable {n : ℕ} {Image : Type}

namespace Cluster

/-- The server whose `leaderSendSnapShot` thread gets the lock. -/
def snapshotSender? (c : Cluster n Image) : Action n Image → Option (Fin n)
  | .leaderSendSnapShot h _ => c.rounds[h]?.map Round.leader
  | _ => none

/-- In the action `a` a handler runs at server `s` and leaves it in the given
state. -/
inductive Handles (c : Cluster n Image) (a : Action n Image) :
    Fin n → Raft n Image → Prop where
  | doElection {s r args} (h : (c.nodes s).doElection = (r, some args)) :
      Handles c a s r
  | requestVote {i r args reply}
      (h : (c.nodes i).requestVote args = .ok (r, reply)) : Handles c a i r
  | sendRequestVote {s r k k' reply}
      (h : (c.nodes s).sendRequestVote k reply = .ok (r, k')) : Handles c a s r
  | start {s} (command : Op) (ha : a = .start s command) :
      Handles c a s ((c.nodes s).start command).1
  | appendEntries1 {i r args reply} (hm : (i, args) ∈ c.appendRequest? a)
      (h : (c.nodes i).appendEntries1 args = .ok (r, reply)) : Handles c a i r
  | sendAppendEntries {k : ℕ} {i r args reply nums nums'} {round : Round n Image}
      (hr : c.rounds[k]? = some round)
      (hboot : c.boots round.leader = round.boot)
      (hthread : round.threads i = .append args (.replied reply))
      (hm : (round.leader, reply) ∈ c.appendReply? a)
      (h : (c.nodes round.leader).sendAppendEntries i args reply nums =
        .ok (r, nums')) : Handles c a round.leader r
  | installSnapshot {i r args reply msg} (hm : (i, args) ∈ c.installRequest? a)
      (h : (c.nodes i).installSnapshot args = .ok (r, reply, msg)) :
      Handles c a i r
  | snapShotSent {k : ℕ} {i args reply} {round : Round n Image}
      (hr : c.rounds[k]? = some round)
      (hboot : c.boots round.leader = round.boot)
      (hthread : round.threads i = .snapshot args (.replied reply))
      (ha : a = .snapShotSent k i) : Handles c a round.leader
        ((c.nodes round.leader).snapShotSent i args reply)
  | snapshot {s r index image} (h : (c.nodes s).snapshot index image = .ok r) :
      Handles c a s r
  | applierTicker {s r msgs} (h : (c.nodes s).getApplyLogs = .ok (r, msgs)) :
      Handles c a s r

/-- In the action `a` a handler ends the process of a server by a failed
assertion and leaves the given files. -/
inductive Exits (c : Cluster n Image) (a : Action n Image) :
    Fin n → Persister n Image → Prop where
  | requestVote {i args p} (h : (c.nodes i).requestVote args = .error p) :
      Exits c a i p
  | sendRequestVote {e : ℕ} {i reply p} {election : Election n}
      (he : c.elections[e]? = some election)
      (hcall : election.calls i = .replied reply)
      (h : (c.nodes election.candidate).sendRequestVote election.votedNum
        reply = .error p) : Exits c a election.candidate p
  | doHeartBeat {s i} (hl : (c.nodes s).status = .leader) (hne : i ≠ s)
      (h : ((c.nodes s).heartBeatTo i).isOk = false) :
      Exits c a s (c.nodes s).persister
  | appendEntries1 {i args p} (hm : (i, args) ∈ c.appendRequest? a)
      (h : (c.nodes i).appendEntries1 args = .error p) : Exits c a i p
  | sendAppendEntries {k : ℕ} {i args reply nums p} {round : Round n Image}
      (hr : c.rounds[k]? = some round)
      (hboot : c.boots round.leader = round.boot)
      (hthread : round.threads i = .append args (.replied reply))
      (h : (c.nodes round.leader).sendAppendEntries i args reply nums =
        .error p) : Exits c a round.leader p
  | installSnapshot {i args p} (hm : (i, args) ∈ c.installRequest? a)
      (h : (c.nodes i).installSnapshot args = .error p) : Exits c a i p
  | snapshot {s index image p}
      (h : (c.nodes s).snapshot index image = .error p) : Exits c a s p
  | applierTicker {s p} (h : (c.nodes s).getApplyLogs = .error p) :
      Exits c a s p
  | readIndex {q : ℕ} {i p} {read : ReadCall n} (hq : c.reads[q]? = some read)
      (hthread : read.threads i = .waiting)
      (h : (c.nodes read.server).readIndexArgs read.savedTerm i = .error p) :
      Exits c a read.server p

/-- In the action `a` the process of a server is killed and leaves the given
files. -/
inductive Dies (c : Cluster n Image) (a : Action n Image) :
    Fin n → Persister n Image → Prop where
  | restart (s) : Dies c a s (c.nodes s).persister
  | installSnapshot (i) (term : ℕ) :
      Dies c a i ((c.nodes i).installTerm term).persister

/-- What the action `a` does to the nodes. -/
inductive NodeStep (c : Cluster n Image) (a : Action n Image)
    (c' : Cluster n Image) : Prop where
  | same (hnodes : c'.nodes = c.nodes) (hboots : c'.boots = c.boots)
  | handled {s r} (h : c.Handles a s r)
      (hnodes : c'.nodes = Function.update c.nodes s r)
      (hboots : c'.boots = c.boots)
  | ended {s p} (h : c.Exits a s p ∨ c.Dies a s p)
      (hnodes : c'.nodes = Function.update c.nodes s (Raft.init s p))
      (hboots : c'.boots = Function.update c.boots s (c.boots s + 1))

/-- How a thread of a round advances. -/
inductive ThreadStep (c : Cluster n Image) (a : Action n Image)
    (round : Round n Image) (i : Fin n) : PeerThread n Image → Prop where
  | answered {args reply r} (hthread : round.threads i = .append args .sent)
      (h : (c.nodes i).appendEntries1 args = .ok (r, reply)) :
      ThreadStep c a round i (.append args (.replied reply))
  | finished {args call} (hthread : round.threads i = .append args call) :
      ThreadStep c a round i (.append args .done)
  | offered (hthread : round.threads i = .waiting)
      (hboot : c.boots round.leader = round.boot)
      (ha : round.leader ∈ c.snapshotSender? a) :
      ThreadStep c a round i
        (.snapshot (c.nodes round.leader).leaderSendSnapShot .sent)
  | snapshot {args call} (call' : Call InstallSnapshotResponse)
      (hthread : round.threads i = .snapshot args call) :
      ThreadStep c a round i (.snapshot args call')

/-- What the action `a` does to the rounds. -/
inductive RoundsStep (c : Cluster n Image) (a : Action n Image) :
    List (Round n Image) → Prop where
  | same : RoundsStep c a c.rounds
  | begun (s) (hl : (c.nodes s).status = .leader) :
      RoundsStep c a (c.rounds ++ [
        { leader := s
          boot := c.boots s
          appendNums := 1
          threads := heartBeatThread (c.nodes s) s }])
  | advanced {k : ℕ} {i thread} {round : Round n Image} (nums : ℕ)
      (hr : c.rounds[k]? = some round)
      (h : c.ThreadStep a round i thread) :
      RoundsStep c a (c.rounds.set k
        { round.setThread i thread with appendNums := nums })

/-- How a thread of `ReadIndex` advances. -/
inductive ReadThreadStep (c : Cluster n Image) (read : ReadCall n)
    (i : Fin n) : ReadThread n → Prop where
  | sent {args} (hthread : read.threads i = .waiting)
      (h : (c.nodes read.server).readIndexArgs read.savedTerm i =
        .ok (some args)) : ReadThreadStep c read i (.append args .sent)
  | answered {args reply} (hthread : read.threads i = .append args .sent) :
      ReadThreadStep c read i (.append args (.replied reply))
  | finished (hthread : read.threads i ≠ .done) : ReadThreadStep c read i .done

/-- What an action does to the calls of `ReadIndex`. -/
inductive ReadsStep (c : Cluster n Image) : List (ReadCall n) → Prop where
  | same : ReadsStep c c.reads
  | begun (s) : ReadsStep c
      (c.reads ++ [.begun s (c.boots s) (c.nodes s)])
  | advanced {q : ℕ} {i thread} {read : ReadCall n} (count : ℕ)
      (hq : c.reads[q]? = some read)
      (h : c.ReadThreadStep read i thread) :
      ReadsStep c (c.reads.set q
        { read.setThread i thread with confirmCount := count })
  | returned {q : ℕ} {read : ReadCall n} (hq : c.reads[q]? = some read) :
      ReadsStep c (c.reads.set q { read with returned := true })

/-- The three effects of an action. -/
structure StepCases (c : Cluster n Image) (a : Action n Image)
    (c' : Cluster n Image) : Prop where
  nodes : c.NodeStep a c'
  rounds : c.RoundsStep a c'.rounds
  reads : c.ReadsStep c'.reads

variable {c c' : Cluster n Image} {a : Action n Image}
  {es : List (Event n Image)}

theorem doElection_cases {s : Fin n} (h : c.doElection s = (c', es)) :
    c.StepCases a c' := by
  unfold doElection at h
  split at h
  · obtain ⟨rfl, -⟩ : c = c' ∧ _ := by simpa using h
    exact ⟨.same rfl rfl, .same, .same⟩
  · next heq =>
      obtain ⟨rfl, -⟩ : _ = c' ∧ _ := by simpa using h
      exact ⟨.handled (.doElection heq) rfl rfl, .same, .same⟩

theorem requestVote_cases {e : ℕ} {election : Election n} {i : Fin n}
    (h : c.requestVote e election i = (c', es)) : c.StepCases a c' := by
  unfold requestVote at h
  split at h
  · next heq =>
      obtain ⟨rfl, -⟩ : _ = c' ∧ _ := by simpa using h
      exact ⟨.ended (.inl (.requestVote heq)) rfl rfl, .same, .same⟩
  · next heq =>
      obtain ⟨rfl, -⟩ : _ = c' ∧ _ := by simpa using h
      exact ⟨.handled (.requestVote heq) rfl rfl, .same, .same⟩

theorem sendRequestVote_cases {e : ℕ} {election : Election n} {i : Fin n}
    {reply : RequestVoteReply} (he : c.elections[e]? = some election)
    (hcall : election.calls i = .replied reply)
    (h : c.sendRequestVote e election i reply = (c', es)) :
    c.StepCases a c' := by
  unfold sendRequestVote at h
  simp only at h
  split at h
  · next heq =>
      obtain ⟨rfl, -⟩ : _ = c' ∧ _ := by simpa using h
      exact ⟨.ended (.inl (.sendRequestVote he hcall heq)) rfl rfl, .same,
        .same⟩
  · next heq =>
      obtain ⟨rfl, -⟩ : _ = c' ∧ _ := by simpa using h
      exact ⟨.handled (.sendRequestVote heq) rfl rfl, .same, .same⟩

theorem doHeartBeat_cases {s : Fin n} (h : c.doHeartBeat s = (c', es)) :
    c.StepCases a c' := by
  unfold doHeartBeat at h
  simp only at h
  split at h
  · obtain ⟨rfl, -⟩ : c = c' ∧ _ := by simpa using h
    exact ⟨.same rfl rfl, .same, .same⟩
  · next hl =>
      have hl : (c.nodes s).status = .leader := by simpa using hl
      split at h
      · next hexit =>
          obtain ⟨i, hne, hi⟩ := hexit
          obtain ⟨rfl, -⟩ : _ = c' ∧ _ := by simpa using h
          exact ⟨.ended (.inl (.doHeartBeat hl hne hi)) rfl rfl, .begun s hl,
            .same⟩
      · obtain ⟨rfl, -⟩ : _ = c' ∧ _ := by simpa using h
        exact ⟨.same rfl rfl, .begun s hl, .same⟩

theorem appendEntries_cases {k : ℕ} {round : Round n Image} {i : Fin n}
    {args : AppendEntriesArgs n} (hr : c.rounds[k]? = some round)
    (hthread : round.threads i = .append args .sent)
    (hm : (i, args) ∈ c.appendRequest? a)
    (h : c.appendEntries k round i args = (c', es)) : c.StepCases a c' := by
  unfold appendEntries at h
  split at h
  · next heq =>
      obtain ⟨rfl, -⟩ : _ = c' ∧ _ := by simpa using h
      exact ⟨.ended (.inl (.appendEntries1 hm heq)) rfl rfl,
        .advanced round.appendNums hr (.finished hthread), .same⟩
  · next heq =>
      obtain ⟨rfl, -⟩ : _ = c' ∧ _ := by simpa using h
      exact ⟨.handled (.appendEntries1 hm heq) rfl rfl,
        .advanced round.appendNums hr (.answered hthread heq), .same⟩

theorem sendAppendEntries_cases {k : ℕ} {round : Round n Image} {i : Fin n}
    {args : AppendEntriesArgs n} {reply : AppendEntriesReply}
    (hr : c.rounds[k]? = some round)
    (hboot : c.boots round.leader = round.boot)
    (hthread : round.threads i = .append args (.replied reply))
    (hm : (round.leader, reply) ∈ c.appendReply? a)
    (h : c.sendAppendEntries k round i args reply = (c', es)) :
    c.StepCases a c' := by
  unfold sendAppendEntries at h
  simp only at h
  split at h
  · next heq =>
      obtain ⟨rfl, -⟩ : _ = c' ∧ _ := by simpa using h
      exact ⟨.ended (.inl (.sendAppendEntries hr hboot hthread heq)) rfl rfl,
        .advanced round.appendNums hr (.finished hthread), .same⟩
  · next heq =>
      obtain ⟨rfl, -⟩ : _ = c' ∧ _ := by simpa using h
      exact ⟨.handled (.sendAppendEntries hr hboot hthread hm heq) rfl rfl,
        .advanced _ hr (.finished hthread), .same⟩

theorem installSnapshot_cases {k : ℕ} {round : Round n Image} {i : Fin n}
    {args : InstallSnapshotRequest n Image}
    (hr : c.rounds[k]? = some round)
    (hthread : round.threads i = .snapshot args .sent)
    (hm : (i, args) ∈ c.installRequest? a)
    (h : c.installSnapshot k round i args = (c', es)) : c.StepCases a c' := by
  unfold installSnapshot at h
  split at h
  · next heq =>
      obtain ⟨rfl, -⟩ : _ = c' ∧ _ := by simpa using h
      exact ⟨.ended (.inl (.installSnapshot hm heq)) rfl rfl,
        .advanced round.appendNums hr (.snapshot .done hthread), .same⟩
  · next heq =>
      obtain ⟨rfl, -⟩ : _ = c' ∧ _ := by simpa using h
      exact ⟨.handled (.installSnapshot hm heq) rfl rfl,
        .advanced round.appendNums hr (.snapshot _ hthread), .same⟩

theorem readIndexSend_cases {q : ℕ} {read : ReadCall n} {i : Fin n}
    (hq : c.reads[q]? = some read) (hthread : read.threads i = .waiting)
    (h : c.readIndexSend q read i = (c', es)) : c.StepCases a c' := by
  have hfinished : c.ReadThreadStep read i .done :=
    .finished (by simp [hthread])
  unfold readIndexSend at h
  split at h
  · next heq =>
      obtain ⟨rfl, -⟩ : _ = c' ∧ _ := by simpa using h
      exact ⟨.ended (.inl (.readIndex hq hthread heq)) rfl rfl, .same,
        .advanced read.confirmCount hq hfinished⟩
  · obtain ⟨rfl, -⟩ : _ = c' ∧ _ := by simpa using h
    exact ⟨.same rfl rfl, .same, .advanced read.confirmCount hq hfinished⟩
  · next heq =>
      obtain ⟨rfl, -⟩ : _ = c' ∧ _ := by simpa using h
      exact ⟨.same rfl rfl, .same,
        .advanced read.confirmCount hq (.sent hthread heq)⟩

theorem readAppendEntries_cases {q : ℕ} {read : ReadCall n} {i : Fin n}
    {args : AppendEntriesArgs n} (hq : c.reads[q]? = some read)
    (hthread : read.threads i = .append args .sent)
    (hm : (i, args) ∈ c.appendRequest? a)
    (h : c.readAppendEntries q read i args = (c', es)) : c.StepCases a c' := by
  unfold readAppendEntries at h
  split at h
  · next heq =>
      obtain ⟨rfl, -⟩ : _ = c' ∧ _ := by simpa using h
      exact ⟨.ended (.inl (.appendEntries1 hm heq)) rfl rfl, .same,
        .advanced read.confirmCount hq (.finished (by simp [hthread]))⟩
  · next heq =>
      obtain ⟨rfl, -⟩ : _ = c' ∧ _ := by simpa using h
      exact ⟨.handled (.appendEntries1 hm heq) rfl rfl, .same,
        .advanced read.confirmCount hq (.answered hthread)⟩

theorem applierTicker_cases {s : Fin n} (h : c.applierTicker s = (c', es)) :
    c.StepCases a c' := by
  unfold applierTicker at h
  split at h
  · next heq =>
      obtain ⟨rfl, -⟩ : _ = c' ∧ _ := by simpa using h
      exact ⟨.ended (.inl (.applierTicker heq)) rfl rfl, .same, .same⟩
  · next heq =>
      obtain ⟨rfl, -⟩ : _ = c' ∧ _ := by simpa using h
      exact ⟨.handled (.applierTicker heq) rfl rfl, .same, .same⟩

/-- Everything a step can do. -/
theorem step_cases (h : c.step a = some (c', es)) : c.StepCases a c' := by
  cases a with
  | doElection s => exact doElection_cases (Option.some.inj h)
  | requestVote e i =>
      obtain ⟨election, -, h⟩ := Option.bind_eq_some_iff.mp h
      split at h
      · exact requestVote_cases (Option.some.inj h)
      · simp at h
  | sendRequestVote e i =>
      obtain ⟨election, he, h⟩ := Option.bind_eq_some_iff.mp h
      split at h
      · next reply hcall =>
          split at h
          · exact sendRequestVote_cases he hcall (Option.some.inj h)
          · simp at h
      · simp at h
  | start s command =>
      obtain ⟨rfl, -⟩ : _ = c' ∧ _ := by simpa [step] using h
      exact ⟨.handled (.start command rfl) rfl rfl, .same, .same⟩
  | doHeartBeat s => exact doHeartBeat_cases (Option.some.inj h)
  | appendEntries k i =>
      obtain ⟨round, hr, h⟩ := Option.bind_eq_some_iff.mp h
      split at h
      · next args hthread =>
          exact appendEntries_cases hr hthread
            (by simp [appendRequest?, hr, hthread]) (Option.some.inj h)
      · simp at h
  | sendAppendEntries k i =>
      obtain ⟨round, hr, h⟩ := Option.bind_eq_some_iff.mp h
      split at h
      · next args reply hthread =>
          split at h
          · next hboot =>
              exact sendAppendEntries_cases hr hboot hthread
                (by simp [appendReply?, hr, hthread]) (Option.some.inj h)
          · simp at h
      · simp at h
  | leaderSendSnapShot k i =>
      obtain ⟨round, hr, h⟩ := Option.bind_eq_some_iff.mp h
      split at h
      · next hthread =>
          split at h
          · next hboot =>
              obtain ⟨rfl, -⟩ : _ = c' ∧ _ := by simpa using h
              exact ⟨.same rfl rfl, .advanced round.appendNums hr
                (.offered hthread hboot (by simp [snapshotSender?, hr])),
                .same⟩
          · simp at h
      · simp at h
  | installSnapshot k i =>
      obtain ⟨round, hr, h⟩ := Option.bind_eq_some_iff.mp h
      split at h
      · next args hthread =>
          exact installSnapshot_cases hr hthread
            (by simp [installRequest?, hr, hthread]) (Option.some.inj h)
      · simp at h
  | installSnapshotCrash k i =>
      obtain ⟨round, hr, h⟩ := Option.bind_eq_some_iff.mp h
      split at h
      · next args hthread =>
          split at h
          · simp at h
          · obtain ⟨rfl, -⟩ : _ = c' ∧ _ := by simpa using h
            exact ⟨.ended (.inr (.installSnapshot i args.term)) rfl rfl,
              .advanced round.appendNums hr (.snapshot .done hthread), .same⟩
      · simp at h
  | snapShotSent k i =>
      obtain ⟨round, hr, h⟩ := Option.bind_eq_some_iff.mp h
      split at h
      · next args reply hthread =>
          split at h
          · next hboot =>
              obtain ⟨rfl, -⟩ : _ = c' ∧ _ := by simpa using h
              exact ⟨.handled (.snapShotSent hr hboot hthread rfl) rfl rfl,
                .advanced round.appendNums hr (.snapshot .done hthread), .same⟩
          · simp at h
      · simp at h
  | snapshot s index image =>
      simp only [step] at h
      split at h
      · next heq =>
          obtain ⟨rfl, -⟩ : _ = c' ∧ _ := by simpa using h
          exact ⟨.ended (.inl (.snapshot heq)) rfl rfl, .same, .same⟩
      · next heq =>
          obtain ⟨rfl, -⟩ : _ = c' ∧ _ := by simpa using h
          exact ⟨.handled (.snapshot heq) rfl rfl, .same, .same⟩
  | applierTicker s => exact applierTicker_cases (Option.some.inj h)
  | readIndex s =>
      have h := Option.some.inj h
      unfold readIndex at h
      split at h
      · obtain ⟨rfl, -⟩ : c = c' ∧ _ := by simpa using h
        exact ⟨.same rfl rfl, .same, .same⟩
      · obtain ⟨rfl, -⟩ : _ = c' ∧ _ := by simpa using h
        exact ⟨.same rfl rfl, .same, .begun s⟩
  | readIndexSend q i =>
      obtain ⟨read, hq, h⟩ := Option.bind_eq_some_iff.mp h
      split at h
      · next hthread =>
          split at h
          · exact readIndexSend_cases hq hthread (Option.some.inj h)
          · simp at h
      · simp at h
  | readAppendEntries q i =>
      obtain ⟨read, hq, h⟩ := Option.bind_eq_some_iff.mp h
      split at h
      · next args hthread =>
          exact readAppendEntries_cases hq hthread
            (by simp [appendRequest?, hq, hthread]) (Option.some.inj h)
      · simp at h
  | readIndexReply q i =>
      obtain ⟨read, hq, h⟩ := Option.bind_eq_some_iff.mp h
      split at h
      · next args reply hthread =>
          split at h
          · obtain ⟨rfl, -⟩ : _ = c' ∧ _ := by
              simpa [readIndexReply] using h
            have hfinished : c.ReadThreadStep read i .done :=
              .finished (by simp [hthread])
            refine ⟨.same rfl rfl, .same, ?_⟩
            by_cases hconfirms : Raft.confirms reply = true
            · rw [if_pos hconfirms]
              exact .advanced (read.confirmCount + 1) hq hfinished
            · rw [if_neg hconfirms]
              exact .advanced read.confirmCount hq hfinished
          · simp at h
      · simp at h
  | readIndexReturn q =>
      obtain ⟨read, hq, h⟩ := Option.bind_eq_some_iff.mp h
      split at h
      · obtain ⟨rfl, -⟩ : _ = c' ∧ _ := by simpa [readIndexReturn] using h
        exact ⟨.same rfl rfl, .same, .returned hq⟩
      · simp at h
  | restart s =>
      obtain ⟨rfl, -⟩ : _ = c' ∧ _ := by simpa [step] using h
      exact ⟨.ended (.inr (.restart s)) rfl rfl, .same, .same⟩

/-! ## Nodes whose process is still the same -/

/-- Every node that has not restarted has changed as `R` allows. -/
def WhileRunning (R : Raft n Image → Raft n Image → Prop)
    (c c' : Cluster n Image) : Prop :=
  ∀ v, c.boots v ≤ c'.boots v ∧
    (c'.boots v = c.boots v → R (c.nodes v) (c'.nodes v))

section WhileRunning

variable {R : Raft n Image → Raft n Image → Prop}

theorem WhileRunning.refl (hrefl : ∀ r, R r r) (c : Cluster n Image) :
    WhileRunning R c c :=
  fun _ => ⟨le_rfl, fun _ => hrefl _⟩

theorem WhileRunning.trans {c₁ c₂ c₃ : Cluster n Image}
    (htrans : ∀ r₁ r₂ r₃, R r₁ r₂ → R r₂ r₃ → R r₁ r₃)
    (h₁ : WhileRunning R c₁ c₂) (h₂ : WhileRunning R c₂ c₃) :
    WhileRunning R c₁ c₃ := by
  intro v
  obtain ⟨hle₁, hrel₁⟩ := h₁ v
  obtain ⟨hle₂, hrel₂⟩ := h₂ v
  refine ⟨hle₁.trans hle₂, fun heq => ?_⟩
  exact htrans _ _ _ (hrel₁ (by omega)) (hrel₂ (by omega))

/-- It is enough to look at the handlers. -/
theorem NodeStep.whileRunning (hcases : c.NodeStep a c')
    (hrefl : ∀ r, R r r) (hhandles : ∀ s r, c.Handles a s r → R (c.nodes s) r) :
    WhileRunning R c c' := by
  intro v
  cases hcases with
  | same hnodes hboots =>
      rw [hnodes, hboots]
      exact ⟨le_rfl, fun _ => hrefl _⟩
  | @handled s r h hnodes hboots =>
      rw [hnodes, hboots]
      refine ⟨le_rfl, fun _ => ?_⟩
      by_cases hv : v = s
      · subst hv
        rw [Function.update_self]
        exact hhandles v r h
      · rw [Function.update_of_ne hv]
        exact hrefl _
  | @ended s p _ hnodes hboots =>
      rw [hnodes, hboots]
      by_cases hv : v = s
      · subst hv
        rw [Function.update_self]
        exact ⟨Nat.le_succ _, fun heq => absurd heq (Nat.succ_ne_self _)⟩
      · rw [Function.update_of_ne hv, Function.update_of_ne hv]
        exact ⟨le_rfl, fun _ => hrefl _⟩

end WhileRunning

end Cluster

end KVRaftStorage
