import KVRaftStorage.Raft.Records

/-!
# One round of heartbeats

The threads of one `doHeartBeat` share a counter.  Here the steps are listed
by what they do to one round: it is begun, a request is answered, a reply is
tallied, or a thread ends without touching the counter.  The requests stay the
ones that its leader built when it began the round.
-/

namespace KVRaftStorage

open Transition

variable {n : ℕ} {Image : Type}

namespace Cluster

/-- How the round at position `k` comes about in a step. -/
inductive RoundStep (c : Cluster n Image) (a : Action n Image)
    (c' : Cluster n Image) (k : ℕ) : Round n Image → Prop where
  | same {round} (hr : c.rounds[k]? = some round) : RoundStep c a c' k round
  | begun {s} (hl : (c.nodes s).status = .leader) (hnew : c.rounds[k]? = none) :
      RoundStep c a c' k
        { leader := s
          boot := c.boots s
          appendNums := 1
          threads := heartBeatThread (c.nodes s) s }
  | answered {i args reply} {round : Round n Image}
      (ha : a = .appendEntries k i) (hr : c.rounds[k]? = some round)
      (hthread : round.threads i = .append args .sent)
      (h : (c.nodes i).appendEntries1 args = .ok (c'.nodes i, reply)) :
      RoundStep c a c' k (round.setThread i (.append args (.replied reply)))
  | tallied {i args reply nums} {round : Round n Image}
      (ha : a = .sendAppendEntries k i) (hr : c.rounds[k]? = some round)
      (hthread : round.threads i = .append args (.replied reply))
      (h : (c.nodes round.leader).sendAppendEntries i args reply
        round.appendNums = .ok (c'.nodes round.leader, nums)) :
      RoundStep c a c' k
        { round.setThread i (.append args .done) with appendNums := nums }
  | dropped {i args call} {round : Round n Image}
      (hr : c.rounds[k]? = some round)
      (hthread : round.threads i = .append args call) (hopen : call ≠ .done) :
      RoundStep c a c' k (round.setThread i (.append args .done))
  | snapshot {i args call} {round : Round n Image}
      (hr : c.rounds[k]? = some round)
      (hthread : round.threads i = .waiting ∨
        ∃ args call, round.threads i = .snapshot args call)
      (hcall : ∀ reply, call = .replied reply → a = .installSnapshot k i ∧
        ∃ msg, (c.nodes i).installSnapshot args = .ok (c'.nodes i, reply, msg)) :
      RoundStep c a c' k (round.setThread i (.snapshot args call))

variable {c c' : Cluster n Image} {a : Action n Image}
  {es : List (Event n Image)} {k : ℕ} {round : Round n Image}

/-- A step that leaves the rounds alone. -/
theorem RoundStep.of_result {result : Cluster n Image × List (Event n Image)}
    (h : some result = some (c', es)) (hrounds : result.1.rounds = c.rounds)
    (hr : c'.rounds[k]? = some round) : c.RoundStep a c' k round := by
  obtain rfl := Option.some.inj h
  exact .same (hrounds ▸ hr)

/-- Only the round at position `j` changes. -/
theorem RoundStep.of_set {j : ℕ} {next : Round n Image}
    (h : c'.rounds = c.rounds.set j next) (hr : c'.rounds[k]? = some round)
    (hnext : c.RoundStep a c' j next) : c.RoundStep a c' k round := by
  rw [h, List.getElem?_set] at hr
  split at hr
  · next heq =>
      subst heq
      split at hr
      · obtain rfl := Option.some.inj hr
        exact hnext
      · simp at hr
  · exact .same hr

theorem doHeartBeat_round {s : Fin n} (h : c.doHeartBeat s = (c', es))
    (hr : c'.rounds[k]? = some round) : c.RoundStep a c' k round := by
  unfold doHeartBeat at h
  simp only at h
  split at h
  · obtain ⟨rfl, -⟩ : c = c' ∧ _ := by simpa using h
    exact .same hr
  · next hl =>
      have hrounds : c'.rounds = c.rounds ++ [
          { leader := s
            boot := c.boots s
            appendNums := 1
            threads := heartBeatThread (c.nodes s) s }] := by
        split at h <;>
        · obtain ⟨rfl, -⟩ : _ = c' ∧ _ := by simpa using h
          rfl
      rw [hrounds, List.getElem?_append] at hr
      split at hr
      · exact .same hr
      · next hk =>
          obtain ⟨-, rfl⟩ := List.getElem?_eq_some_iff.mp hr
          rw [List.getElem_singleton]
          exact .begun (by simpa using hl)
            (List.getElem?_eq_none (Nat.le_of_not_lt hk))

theorem appendEntries_round {j : ℕ} {old : Round n Image} {i : Fin n}
    {args : AppendEntriesArgs n} (hold : c.rounds[j]? = some old)
    (hthread : old.threads i = .append args .sent)
    (h : c.appendEntries j old i args = (c', es))
    (hr : c'.rounds[k]? = some round) :
    c.RoundStep (.appendEntries j i) c' k round := by
  unfold appendEntries at h
  split at h
  · obtain ⟨rfl, -⟩ : _ = c' ∧ _ := by simpa using h
    exact .of_set rfl hr (.dropped hold hthread (by simp))
  · next happend =>
      obtain ⟨rfl, -⟩ : _ = c' ∧ _ := by simpa using h
      refine .of_set rfl hr (.answered rfl hold hthread ?_)
      simpa [setNode] using happend

theorem sendAppendEntries_round {j : ℕ} {old : Round n Image} {i : Fin n}
    {args : AppendEntriesArgs n} {reply : AppendEntriesReply}
    (hold : c.rounds[j]? = some old)
    (hthread : old.threads i = .append args (.replied reply))
    (h : c.sendAppendEntries j old i args reply = (c', es))
    (hr : c'.rounds[k]? = some round) :
    c.RoundStep (.sendAppendEntries j i) c' k round := by
  unfold sendAppendEntries at h
  simp only at h
  split at h
  · obtain ⟨rfl, -⟩ : _ = c' ∧ _ := by simpa using h
    exact .of_set rfl hr (.dropped hold hthread (by simp))
  · next hsend =>
      obtain ⟨rfl, -⟩ : _ = c' ∧ _ := by simpa using h
      refine .of_set rfl hr (.tallied rfl hold hthread ?_)
      simpa [setNode] using hsend

theorem installSnapshot_round {j : ℕ} {old : Round n Image} {i : Fin n}
    {args : InstallSnapshotRequest n Image} (hold : c.rounds[j]? = some old)
    (hthread : old.threads i = .snapshot args .sent)
    (h : c.installSnapshot j old i args = (c', es))
    (hr : c'.rounds[k]? = some round) :
    c.RoundStep (.installSnapshot j i) c' k round := by
  unfold installSnapshot at h
  split at h
  · obtain ⟨rfl, -⟩ : _ = c' ∧ _ := by simpa using h
    exact .of_set rfl hr (.snapshot hold (.inr ⟨_, _, hthread⟩) (by simp))
  · next hinstall =>
      obtain ⟨rfl, -⟩ : _ = c' ∧ _ := by simpa using h
      refine .of_set rfl hr (.snapshot hold (.inr ⟨_, _, hthread⟩) ?_)
      rintro reply heq
      obtain rfl := (InstallSnapshotResponse.received_eq_replied.mp heq).2
      exact ⟨rfl, _, by simpa [setNode] using hinstall⟩

/-- Every step, seen by one round. -/
theorem round_step (h : c.step a = some (c', es))
    (hr : c'.rounds[k]? = some round) : c.RoundStep a c' k round := by
  cases a with
  | doHeartBeat s => exact doHeartBeat_round (Option.some.inj h) hr
  | appendEntries j i =>
      obtain ⟨old, hold, h⟩ := Option.bind_eq_some_iff.mp h
      split at h
      · next hthread =>
          exact appendEntries_round hold hthread (Option.some.inj h) hr
      · simp at h
  | sendAppendEntries j i =>
      obtain ⟨old, hold, h⟩ := Option.bind_eq_some_iff.mp h
      split at h
      · next hthread =>
          split at h
          · exact sendAppendEntries_round hold hthread (Option.some.inj h) hr
          · simp at h
      · simp at h
  | leaderSendSnapShot j i =>
      obtain ⟨old, hold, h⟩ := Option.bind_eq_some_iff.mp h
      split at h
      · next hthread =>
          split at h
          · obtain ⟨rfl, -⟩ : _ = c' ∧ _ := by simpa using h
            exact .of_set rfl hr (.snapshot hold (.inl hthread) (by simp))
          · simp at h
      · simp at h
  | installSnapshot j i =>
      obtain ⟨old, hold, h⟩ := Option.bind_eq_some_iff.mp h
      split at h
      · next hthread =>
          exact installSnapshot_round hold hthread (Option.some.inj h) hr
      · simp at h
  | installSnapshotCrash j i =>
      obtain ⟨old, hold, h⟩ := Option.bind_eq_some_iff.mp h
      split at h
      · next hthread =>
          split at h
          · simp at h
          · obtain ⟨rfl, -⟩ : _ = c' ∧ _ := by simpa using h
            exact .of_set rfl hr
              (.snapshot hold (.inr ⟨_, _, hthread⟩) (by simp))
      · simp at h
  | snapShotSent j i =>
      obtain ⟨old, hold, h⟩ := Option.bind_eq_some_iff.mp h
      split at h
      · next hthread =>
          split at h
          · obtain ⟨rfl, -⟩ : _ = c' ∧ _ := by simpa using h
            exact .of_set rfl hr
              (.snapshot hold (.inr ⟨_, _, hthread⟩) (by simp))
          · simp at h
      · simp at h
  -- the other actions leave the rounds alone
  | doElection s =>
      exact .of_result h (by unfold doElection; split <;> rfl) hr
  | requestVote e i =>
      obtain ⟨election, -, h⟩ := Option.bind_eq_some_iff.mp h
      split at h
      · exact .of_result h (by unfold requestVote; split <;> rfl) hr
      · simp at h
  | sendRequestVote e i =>
      obtain ⟨election, -, h⟩ := Option.bind_eq_some_iff.mp h
      split at h
      · split at h
        · refine .of_result h ?_ hr
          unfold sendRequestVote
          simp only
          split <;> rfl
        · simp at h
      · simp at h
  | start s command => exact .of_result h rfl hr
  | snapshot s index image =>
      simp only [step] at h
      split at h <;> exact .of_result h rfl hr
  | applierTicker s =>
      exact .of_result h (by unfold applierTicker; split <;> rfl) hr
  | readIndex s => exact .of_result h (by unfold readIndex; split <;> rfl) hr
  | readIndexSend q i =>
      obtain ⟨read, -, h⟩ := Option.bind_eq_some_iff.mp h
      split at h
      · split at h
        · exact .of_result h (by unfold readIndexSend; split <;> rfl) hr
        · simp at h
      · simp at h
  | readAppendEntries q i =>
      obtain ⟨read, -, h⟩ := Option.bind_eq_some_iff.mp h
      split at h
      · exact .of_result h (by unfold readAppendEntries; split <;> rfl) hr
      · simp at h
  | readIndexReply q i =>
      obtain ⟨read, -, h⟩ := Option.bind_eq_some_iff.mp h
      split at h
      · split at h
        · exact .of_result h rfl hr
        · simp at h
      · simp at h
  | readIndexReturn q =>
      obtain ⟨read, -, h⟩ := Option.bind_eq_some_iff.mp h
      split at h
      · exact .of_result h rfl hr
      · simp at h
  | restart s => exact .of_result h rfl hr

end Cluster

namespace Cluster

variable {c c' : Cluster n Image} {es : List (Event n Image)} {k : ℕ}

/-- A reply of a round is processed: the leader exits, or goes on with the
outcome. -/
theorem sendAppendEntries_step {i : Fin n}
    (h : c.step (.sendAppendEntries k i) = some (c', es)) :
    ∃ round args reply, c.rounds[k]? = some round ∧
      c.boots round.leader = round.boot ∧
      round.threads i = .append args (.replied reply) ∧
      ((∃ p, (c.nodes round.leader).sendAppendEntries i args reply
            round.appendNums = .error p ∧
          c'.nodes = Function.update c.nodes round.leader
            (Raft.init round.leader p)) ∨
        ∃ r nums, (c.nodes round.leader).sendAppendEntries i args reply
            round.appendNums = .ok (r, nums) ∧
          c'.nodes = Function.update c.nodes round.leader r) := by
  obtain ⟨round, hr, h⟩ := Option.bind_eq_some_iff.mp h
  split at h
  · next args reply hthread =>
      split at h
      · next hboot =>
          have h := Option.some.inj h
          unfold sendAppendEntries at h
          simp only at h
          refine ⟨round, args, reply, hr, hboot, hthread, ?_⟩
          split at h
          · next p hexit =>
              obtain ⟨rfl, -⟩ : _ = c' ∧ _ := by simpa using h
              exact .inl ⟨p, hexit, rfl⟩
          · next r nums hsend =>
              obtain ⟨rfl, -⟩ : _ = c' ∧ _ := by simpa using h
              exact .inr ⟨r, nums, hsend, rfl⟩
      · simp at h
  · simp at h

end Cluster

/-! ## The start of a round -/

/-- The round was begun in the state `c`. -/
structure Round.BegunIn (round : Round n Image) (c : Cluster n Image) :
    Prop where
  leads : (c.nodes round.leader).status = .leader
  boot : c.boots round.leader = round.boot
  own : round.threads round.leader = .idle
  sent : ∀ i args call, round.threads i = .append args call →
    (c.nodes round.leader).heartBeatTo i = .ok (some args)

namespace Round.BegunIn

variable {round : Round n Image} {c : Cluster n Image} {i : Fin n}

/-- A thread keeps its request, or becomes one that sends a snapshot. -/
theorem setThread (h : round.BegunIn c) {thread : PeerThread n Image}
    (nums : ℕ) (hidle : round.threads i ≠ .idle)
    (hthread : ∀ args call, thread = .append args call →
      (c.nodes round.leader).heartBeatTo i = .ok (some args)) :
    { round.setThread i thread with appendNums := nums }.BegunIn c where
  leads := h.leads
  boot := h.boot
  own := by
    have hne : round.leader ≠ i := by
      rintro rfl
      exact hidle h.own
    simpa [Round.setThread, hne] using h.own
  sent := by
    intro j args call hj
    by_cases hji : j = i
    · subst hji
      exact hthread args call (by simpa [Round.setThread] using hj)
    · exact h.sent j args call (by simpa [Round.setThread, hji] using hj)

theorem setCall (h : round.BegunIn c) {args : AppendEntriesArgs n}
    {call call' : Call AppendEntriesReply} (nums : ℕ)
    (hthread : round.threads i = .append args call) :
    { round.setThread i (.append args call') with
      appendNums := nums }.BegunIn c := by
  refine h.setThread nums (by simp [hthread]) ?_
  rintro args' call'' heq
  obtain ⟨rfl, -⟩ : args = args' ∧ _ := by simpa using heq
  exact h.sent i args call hthread

end Round.BegunIn

namespace Cluster

/-- The run goes through the state. -/
abbrev Visits (as : List (Action n Image)) (c : Cluster n Image) : Prop :=
  Transition.Visits step (start n Image) as c

end Cluster

end KVRaftStorage
