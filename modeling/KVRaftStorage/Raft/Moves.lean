import KVRaftStorage.Raft.Effects
import Mathlib.Data.List.Forall2

/-!
# Steps as sequences of protocol moves

One step of the cluster is a short sequence of moves, and each move changes
one node or one message in one way.  The invariants of the later files are
proved move by move; this file is the only one that takes the steps apart.

A discipline says which merges, snapshot installations and step-downs the run
is allowed to contain.
-/

namespace KVRaftStorage

variable {n : ℕ} {Image : Type}

/-! ## Messages that settle without consequence -/

/-- Calls end, or are answered by a rejection. -/
structure Election.Settles (e e' : Election n) : Prop where
  candidate : e'.candidate = e.candidate
  args : e'.args = e.args
  votedNum : e'.votedNum = e.votedNum
  calls : ∀ i, e'.calls i = e.calls i ∨ e'.calls i = .done ∨
    (e.calls i = .sent ∧
      ∃ reply, e'.calls i = .replied reply ∧ reply.voteGranted = false)

inductive PeerThread.Settles :
    PeerThread n Image → PeerThread n Image → Prop where
  | refl (t : PeerThread n Image) : Settles t t
  | append (args : AppendEntriesArgs n) (call call' : Call AppendEntriesReply)
      (hopen : call ≠ .done)
      (hfail : ∀ reply, call' = .replied reply → reply.success = false) :
      Settles (.append args call) (.append args call')
  | snapshot (args : InstallSnapshotRequest n Image)
      (call call' : Call InstallSnapshotResponse) :
      Settles (.snapshot args call) (.snapshot args call')

structure Round.Settles (round round' : Round n Image) : Prop where
  leader : round'.leader = round.leader
  appendNums : round'.appendNums = round.appendNums
  threads : ∀ i, (round.threads i).Settles (round'.threads i)

inductive ReadThread.Settles : ReadThread n → ReadThread n → Prop where
  | refl (t : ReadThread n) : Settles t t
  | append (args : AppendEntriesArgs n) (call call' : Call AppendEntriesReply)
      (hfail : ∀ reply, call' = .replied reply → reply.success = false) :
      Settles (.append args call) (.append args call')
  | finish (t : ReadThread n) : Settles t .done

structure ReadCall.Settles (read read' : ReadCall n) : Prop where
  server : read'.server = read.server
  savedTerm : read'.savedTerm = read.savedTerm
  readIndex : read'.readIndex = read.readIndex
  confirmCount : read'.confirmCount = read.confirmCount
  threads : ∀ i, (read.threads i).Settles (read'.threads i)

theorem Election.Settles.refl (e : Election n) : e.Settles e :=
  ⟨rfl, rfl, rfl, fun _ => .inl rfl⟩

theorem Round.Settles.refl (round : Round n Image) : round.Settles round :=
  ⟨rfl, rfl, fun _ => .refl _⟩

theorem ReadCall.Settles.refl (read : ReadCall n) : read.Settles read :=
  ⟨rfl, rfl, rfl, rfl, fun _ => .refl _⟩

theorem Election.settles_setCall {e : Election n} {i : Fin n}
    {call : Call RequestVoteReply}
    (h : call = .done ∨ (e.calls i = .sent ∧
      ∃ reply, call = .replied reply ∧ reply.voteGranted = false)) :
    e.Settles (e.setCall i call) := by
  refine ⟨rfl, rfl, rfl, fun j => ?_⟩
  by_cases hj : j = i
  · subst hj
    simpa [setCall] using .inr h
  · exact .inl (by simp [setCall, hj])

theorem Round.settles_setThread {round : Round n Image} {i : Fin n}
    {thread : PeerThread n Image} (h : (round.threads i).Settles thread) :
    round.Settles (round.setThread i thread) := by
  refine ⟨rfl, rfl, fun j => ?_⟩
  by_cases hj : j = i
  · subst hj
    simpa [setThread] using h
  · simpa [setThread, hj] using .refl _

theorem ReadCall.settles_setThread {read : ReadCall n} {i : Fin n}
    {thread : ReadThread n} (h : (read.threads i).Settles thread) :
    read.Settles (read.setThread i thread) := by
  refine ⟨rfl, rfl, rfl, rfl, fun j => ?_⟩
  by_cases hj : j = i
  · subst hj
    simpa [setThread] using h
  · simpa [setThread, hj] using .refl _

namespace Cluster

/-- Only messages change, and all of them settle. -/
structure Settles (c c' : Cluster n Image) : Prop where
  nodes : c'.nodes = c.nodes
  elections : List.Forall₂ Election.Settles c.elections c'.elections
  rounds : List.Forall₂ Round.Settles c.rounds c'.rounds
  reads : List.Forall₂ ReadCall.Settles c.reads c'.reads

theorem forall₂_set {α : Type} {R : α → α → Prop} (hrefl : ∀ x, R x x)
    {l : List α} {k : ℕ} {x x' : α} (hx : l[k]? = some x) (h : R x x') :
    List.Forall₂ R l (l.set k x') := by
  induction l generalizing k with
  | nil => simp at hx
  | cons y l ih =>
      cases k with
      | zero =>
          obtain rfl : y = x := by simpa using hx
          exact .cons h (List.forall₂_same.mpr fun x _ => hrefl x)
      | succ k => exact .cons (hrefl y) (ih (by simpa using hx))

theorem exists_of_forall₂ {α : Type} {R : α → α → Prop} {l l' : List α}
    (h : List.Forall₂ R l l') {y : α} (hy : y ∈ l') : ∃ x ∈ l, R x y := by
  induction h with
  | nil => simp at hy
  | cons hxy _ ih =>
      rcases List.mem_cons.mp hy with rfl | hy
      · exact ⟨_, by simp, hxy⟩
      · obtain ⟨x, hx, hR⟩ := ih hy
        exact ⟨x, by simp [hx], hR⟩

theorem Settles.of_eq {c c' : Cluster n Image} (hn : c'.nodes = c.nodes)
    (he : c'.elections = c.elections) (hr : c'.rounds = c.rounds)
    (hq : c'.reads = c.reads) : c.Settles c' :=
  ⟨hn, he ▸ List.forall₂_same.mpr fun x _ => .refl x,
    hr ▸ List.forall₂_same.mpr fun x _ => .refl x,
    hq ▸ List.forall₂_same.mpr fun x _ => .refl x⟩

theorem settles_setElection {c : Cluster n Image} {e : ℕ}
    {election election' : Election n} (he : c.elections[e]? = some election)
    (h : election.Settles election') : c.Settles (c.setElection e election') :=
  ⟨rfl, forall₂_set .refl he h, List.forall₂_same.mpr fun x _ => .refl x,
    List.forall₂_same.mpr fun x _ => .refl x⟩

theorem settles_setRound {c : Cluster n Image} {k : ℕ}
    {round round' : Round n Image} (hr : c.rounds[k]? = some round)
    (h : round.Settles round') : c.Settles (c.setRound k round') :=
  ⟨rfl, List.forall₂_same.mpr fun x _ => .refl x, forall₂_set .refl hr h,
    List.forall₂_same.mpr fun x _ => .refl x⟩

theorem settles_setRead {c : Cluster n Image} {q : ℕ}
    {read read' : ReadCall n} (hq : c.reads[q]? = some read)
    (h : read.Settles read') : c.Settles (c.setRead q read') :=
  ⟨rfl, List.forall₂_same.mpr fun x _ => .refl x,
    List.forall₂_same.mpr fun x _ => .refl x, forall₂_set .refl hq h⟩

end Cluster

/-! ## Moves -/

/-- What the steps of a run may contain. -/
structure Discipline (n : ℕ) (Image : Type) where
  merge : Raft n Image → AppendEntriesArgs n → Prop
  install : Raft n Image → InstallSnapshotRequest n Image → Prop
  stepDown : Raft n Image → AppendEntriesReply → Prop

/-- The election started by `doElection`. -/
def Election.begun (s : Fin n) (boot : ℕ) (args : RequestVoteArgs n) :
    Election n where
  candidate := s
  boot := boot
  args := args
  votedNum := 1
  calls := fun i => if i = s then .done else .sent

/-- The call started by `ReadIndex`. -/
def ReadCall.begun (s : Fin n) (boot : ℕ) (r : Raft n Image) : ReadCall n where
  server := s
  boot := boot
  savedTerm := r.currentTerm
  readIndex := r.commitIndex
  confirmCount := 1
  returned := false
  threads := fun i => if i = s then .done else .waiting

open Cluster in
/-- The moves of the protocol under the discipline `D`. -/
inductive Move (D : Discipline n Image) :
    Cluster n Image → Cluster n Image → List (Event n Image) → Prop where
  | trans {c₁ c₂ c₃ es₁ es₂} : Move D c₁ c₂ es₁ → Move D c₂ c₃ es₂ →
      Move D c₁ c₃ (es₁ ++ es₂)
  | settle {c c'} (h : c.Settles c') : Move D c c' []
  | quiet {c} (v : Fin n) (r' : Raft n Image) (h : (c.nodes v).Quiet r')
      (hsaved : (c.nodes v).Saved r' ∨
        ∃ reply, D.stepDown (c.nodes v) reply) :
      Move D c (c.setNode v r') []
  | restart {c} (v : Fin n) (p : Persister n Image)
      (hp : p.raftState = (c.nodes v).persister.raftState) :
      Move D c (c.reboot v p) []
  | candidacy {c} (v : Fin n) (r' : Raft n Image) (args : RequestVoteArgs n)
      (h : (c.nodes v).doElection = (r', some args)) :
      Move D c { c.setNode v r' with
        elections := c.elections ++ [.begun v (c.boots v) args] }
        [.voted v args.term v]
  | grant {c} (e : ℕ) (election : Election n) (i : Fin n) (r' : Raft n Image)
      (reply : RequestVoteReply) (he : c.elections[e]? = some election)
      (hcall : election.calls i = .sent)
      (h : (c.nodes i).Grants r' election.args reply) :
      Move D c
        ((c.setElection e (election.setCall i (.replied reply))).setNode i r')
        [.voted i reply.term election.args.candidateId]
  | count {c} (e : ℕ) (election : Election n) (i : Fin n)
      (reply : RequestVoteReply) (he : c.elections[e]? = some election)
      (hcall : election.calls i = .replied reply)
      (h : (c.nodes election.candidate).CountsVote reply election.votedNum) :
      Move D c (c.setElection e
        { election.setCall i .done with votedNum := election.votedNum + 1 }) []
  | win {c} (e : ℕ) (election : Election n) (i : Fin n) (r' : Raft n Image)
      (reply : RequestVoteReply) (he : c.elections[e]? = some election)
      (hcall : election.calls i = .replied reply)
      (h : (c.nodes election.candidate).Wins r' reply election.votedNum) :
      Move D c
        ((c.setElection e { election.setCall i .done with
          votedNum := 0 }).setNode election.candidate r')
        [.becameLeader election.candidate r']
  | extend {c} (v : Fin n) (command : Op)
      (hl : (c.nodes v).status = .leader) :
      Move D c (c.setNode v ((c.nodes v).appendEntry command).persist) []
  | heartbeat {c} (v : Fin n) (hl : (c.nodes v).status = .leader) :
      Move D c { c with
        rounds := c.rounds ++ [
          { leader := v
            boot := c.boots v
            appendNums := 1
            threads := heartBeatThread (c.nodes v) v }] } []
  | acceptRound {c} (k : ℕ) (round : Round n Image) (i : Fin n)
      (args : AppendEntriesArgs n) (r' : Raft n Image)
      (reply : AppendEntriesReply) (hr : c.rounds[k]? = some round)
      (hthread : round.threads i = .append args .sent)
      (hD : D.merge (c.nodes i) args)
      (h : (c.nodes i).Accepts args r' reply) :
      Move D c ((c.setRound k
        (round.setThread i (.append args (.replied reply)))).setNode i r') []
  | acceptRead {c} (q : ℕ) (read : ReadCall n) (i : Fin n)
      (args : AppendEntriesArgs n) (r' : Raft n Image)
      (reply : AppendEntriesReply) (hq : c.reads[q]? = some read)
      (hthread : read.threads i = .append args .sent)
      (hD : D.merge (c.nodes i) args)
      (h : (c.nodes i).Accepts args r' reply) :
      Move D c ((c.setRead q
        (read.setThread i (.append args (.replied reply)))).setNode i r') []
  | tally {c} (k : ℕ) (round : Round n Image) (i : Fin n)
      (args : AppendEntriesArgs n) (reply : AppendEntriesReply)
      (r' : Raft n Image) (appendNums : ℕ)
      (hr : c.rounds[k]? = some round)
      (hthread : round.threads i = .append args (.replied reply))
      (h : (c.nodes round.leader).Tallies args reply round.appendNums r'
        appendNums) :
      Move D c
        ((c.setRound k { round.setThread i (.append args .done) with
          appendNums := appendNums }).setNode round.leader r')
        (if (c.nodes round.leader).commitIndex < r'.commitIndex then
          [.advanced round.leader r'] else [])
  | offer {c} (k : ℕ) (round : Round n Image) (i : Fin n)
      (hr : c.rounds[k]? = some round)
      (hthread : round.threads i = .waiting) :
      Move D c (c.setRound k (round.setThread i
        (.snapshot (c.nodes round.leader).leaderSendSnapShot .sent))) []
  | install {c} (k : ℕ) (round : Round n Image) (i : Fin n)
      (args : InstallSnapshotRequest n Image) (r' : Raft n Image)
      (hr : c.rounds[k]? = some round)
      (hthread : round.threads i = .snapshot args .sent)
      (hD : D.install (c.nodes i) args)
      (h : (c.nodes i).Installs args r') :
      Move D c (c.setNode i r') []
  | compact {c} (v : Fin n) (index : ℕ) (r' : Raft n Image)
      (h : (c.nodes v).Compacts index r') :
      Move D c (c.setNode v r') []
  | handOut {c} (v : Fin n) (r' : Raft n Image) (msgs : List (ℕ × Op))
      (h : (c.nodes v).getApplyLogs = .ok (r', msgs)) :
      Move D c (c.setNode v r')
        (msgs.map fun m => .handedOut v m.1 m.2)
  | beginRead {c} (v : Fin n) (hl : (c.nodes v).status = .leader) :
      Move D c { c with
        reads := c.reads ++ [.begun v (c.boots v) (c.nodes v)] } []
  | sendRead {c} (q : ℕ) (read : ReadCall n) (i : Fin n)
      (args : AppendEntriesArgs n) (hq : c.reads[q]? = some read)
      (hthread : read.threads i = .waiting)
      (h : (c.nodes read.server).readIndexArgs read.savedTerm i =
        .ok (some args)) :
      Move D c (c.setRead q (read.setThread i (.append args .sent))) []
  | confirm {c} (q : ℕ) (read : ReadCall n) (i : Fin n)
      (args : AppendEntriesArgs n) (reply : AppendEntriesReply)
      (hq : c.reads[q]? = some read)
      (hthread : read.threads i = .append args (.replied reply))
      (h : reply.success = true) :
      Move D c (c.setRead q { read.setThread i .done with
        confirmCount := read.confirmCount + 1 }) []
  | returnRead {c} (q : ℕ) (read : ReadCall n)
      (hq : c.reads[q]? = some read)
      (hcount : n / 2 + 1 ≤ read.confirmCount)
      (hterm : (c.nodes read.server).currentTerm = read.savedTerm)
      (hl : (c.nodes read.server).status = .leader) :
      Move D c (c.setRead q { read with returned := true })
        [.readReturned read.server read.readIndex]

/-! ## Every step is a sequence of moves -/

section Step

variable {D : Discipline n Image} {c c' : Cluster n Image}
  {es : List (Event n Image)}

theorem Move.same (c : Cluster n Image) : Move D c c [] :=
  .settle (.of_eq rfl rfl rfl rfl)

/-- A handler exits with the disk as it was, and its message settles. -/
theorem Move.settle_restart {v : Fin n} {p : Persister n Image}
    (h : c.Settles c') (hp : p.raftState = (c'.nodes v).persister.raftState) :
    Move D c (c'.reboot v p) [] :=
  .trans (.settle h) (.restart v p hp)

/-- A handler has a quiet outcome, and its message settles. -/
theorem Move.settle_quiet {v : Fin n} {r' : Raft n Image} (h : c.Settles c')
    (hquiet : (c.nodes v).Quiet r')
    (hsaved : (c.nodes v).Saved r' ∨
      ∃ reply, D.stepDown (c.nodes v) reply) :
    Move D c (c'.setNode v r') [] := by
  rw [← h.nodes] at hquiet hsaved
  exact .trans (.settle h) (.quiet v r' hquiet hsaved)

/-- A node that has stored its outcome exits. -/
theorem Move.then_restart {v : Fin n} {r' : Raft n Image}
    {p : Persister n Image} (h : Move D c (c'.setNode v r') [])
    (hp : p.raftState = r'.persister.raftState) :
    Move D c (c'.reboot v p) [] := by
  have hsettle : ((c'.setNode v r').reboot v p).Settles (c'.reboot v p) :=
    .of_eq (by simp [Cluster.reboot, Cluster.setNode]) rfl rfl rfl
  refine .trans h (.trans (.restart v p ?_) (.settle hsettle))
  simpa [Cluster.setNode] using hp

namespace Cluster

theorem move_doElection (s : Fin n) (h : c.doElection s = (c', es)) :
    Move D c c' es := by
  unfold doElection at h
  split at h
  · obtain ⟨rfl, rfl⟩ : c = c' ∧ [] = es := by simpa using h
    exact .same c
  · next r args heq =>
      obtain ⟨rfl, rfl⟩ : _ = c' ∧ _ = es := by simpa using h
      exact .candidacy s r args heq

theorem move_requestVote {e : ℕ} {election : Election n} {i : Fin n}
    (he : c.elections[e]? = some election) (hcall : election.calls i = .sent)
    (h : c.requestVote e election i = (c', es)) : Move D c c' es := by
  unfold requestVote at h
  split at h
  · next p heq => exact absurd heq Raft.requestVote_ne_error
  · next r reply heq =>
      obtain ⟨rfl, hes⟩ : _ = c' ∧ _ = es := by simpa using h
      rcases Raft.requestVote_eq_ok heq with ⟨hno, hquiet, hsaved⟩ | hgrants
      · rw [if_neg (by simp [hno])] at hes
        subst hes
        exact .settle_quiet (settles_setElection he (Election.settles_setCall
          (.inr ⟨hcall, reply, rfl, hno⟩))) hquiet (.inl hsaved)
      · rw [if_pos hgrants.granted] at hes
        subst hes
        exact .grant e election i r reply he hcall hgrants

theorem move_sendRequestVote {e : ℕ} {election : Election n} {i : Fin n}
    {reply : RequestVoteReply} (he : c.elections[e]? = some election)
    (hcall : election.calls i = .replied reply)
    (h : c.sendRequestVote e election i reply = (c', es)) :
    Move D c c' es := by
  have hdone : c.Settles (c.setElection e (election.setCall i .done)) :=
    settles_setElection he (Election.settles_setCall (.inl rfl))
  unfold sendRequestVote at h
  simp only at h
  split at h
  · next p heq =>
      obtain ⟨rfl, rfl⟩ : _ = c' ∧ [] = es := by simpa using h
      exact .settle_restart hdone
        (congrArg Persister.raftState (Raft.sendRequestVote_eq_error heq))
  · next r k heq =>
      obtain ⟨rfl, hes⟩ : _ = c' ∧ _ = es := by simpa using h
      rcases Raft.sendRequestVote_eq_ok heq with
        ⟨hquiet, hsaved, rfl⟩ | ⟨hcounts, rfl, rfl⟩ | ⟨hwins, rfl⟩
      · rw [if_neg (fun hw => hw.1 (hquiet.follows.leader hw.2).1)] at hes
        subst hes
        exact .settle_quiet hdone hquiet (.inl hsaved)
      · rw [if_neg (fun hw => hw.1 hw.2)] at hes
        subst hes
        refine .trans (.count e election i reply he hcall hcounts)
          (.settle (.of_eq ?_ rfl rfl rfl))
        exact Function.update_eq_self _ _
      · rw [if_pos ⟨hwins.status, by rw [hwins.eq]; rfl⟩] at hes
        subst hes
        exact .win e election i r reply he hcall hwins

theorem move_start (s : Fin n) (command : Op) :
    Move D c (c.setNode s ((c.nodes s).start command).1) [] := by
  rcases Raft.start_effect (c.nodes s) command with heq | ⟨hl, heq⟩
  · rw [heq]
    exact .quiet s _ (.refl _) (.inl (.refl _))
  · rw [heq]
    exact .extend s command hl

theorem move_doHeartBeat (s : Fin n) (h : c.doHeartBeat s = (c', es)) :
    Move D c c' es := by
  unfold doHeartBeat at h
  simp only at h
  split at h
  · obtain ⟨rfl, rfl⟩ : c = c' ∧ [] = es := by simpa using h
    exact .same c
  · next hl =>
      have hl : (c.nodes s).status = .leader := by simpa using hl
      split at h
      · obtain ⟨rfl, rfl⟩ : _ = c' ∧ [] = es := by simpa using h
        exact .trans (.heartbeat s hl) (.restart s _ rfl)
      · obtain ⟨rfl, rfl⟩ : _ = c' ∧ [] = es := by simpa using h
        exact .heartbeat s hl

theorem move_appendEntries {k : ℕ} {round : Round n Image} {i : Fin n}
    {args : AppendEntriesArgs n} (hr : c.rounds[k]? = some round)
    (hthread : round.threads i = .append args .sent)
    (hD : D.merge (c.nodes i) args)
    (h : c.appendEntries k round i args = (c', es)) : Move D c c' es := by
  have hsettles : ∀ call : Call AppendEntriesReply,
      (∀ reply, call = .replied reply → reply.success = false) →
      c.Settles (c.setRound k (round.setThread i (.append args call))) :=
    fun call hcall => settles_setRound hr (Round.settles_setThread
      (hthread ▸ .append args .sent call (by simp) hcall))
  unfold appendEntries at h
  split at h
  · next p heq =>
      obtain ⟨rfl, rfl⟩ : _ = c' ∧ [] = es := by simpa using h
      exact .settle_restart (hsettles .done (by simp))
        (congrArg Persister.raftState (Raft.appendEntries1_eq_error heq))
  · next r reply heq =>
      obtain ⟨rfl, rfl⟩ : _ = c' ∧ [] = es := by simpa using h
      rcases Raft.appendEntries1_eq_ok heq with ⟨hfail, hquiet, hsaved⟩ | hok
      · exact .settle_quiet (hsettles (.replied reply) (by simp [hfail]))
          hquiet (.inl hsaved)
      · exact .acceptRound k round i args r reply hr hthread hD hok

theorem move_readAppendEntries {q : ℕ} {read : ReadCall n} {i : Fin n}
    {args : AppendEntriesArgs n} (hq : c.reads[q]? = some read)
    (hthread : read.threads i = .append args .sent)
    (hD : D.merge (c.nodes i) args)
    (h : c.readAppendEntries q read i args = (c', es)) : Move D c c' es := by
  unfold readAppendEntries at h
  split at h
  · next p heq =>
      obtain ⟨rfl, rfl⟩ : _ = c' ∧ [] = es := by simpa using h
      exact .settle_restart
        (settles_setRead hq (ReadCall.settles_setThread (.finish _)))
        (congrArg Persister.raftState (Raft.appendEntries1_eq_error heq))
  · next r reply heq =>
      obtain ⟨rfl, rfl⟩ : _ = c' ∧ [] = es := by simpa using h
      rcases Raft.appendEntries1_eq_ok heq with ⟨hfail, hquiet, hsaved⟩ | hok
      · exact .settle_quiet
          (settles_setRead hq (ReadCall.settles_setThread (hthread ▸
            .append args .sent (.replied reply) (by simp [hfail]))))
          hquiet (.inl hsaved)
      · exact .acceptRead q read i args r reply hq hthread hD hok

theorem move_sendAppendEntries {k : ℕ} {round : Round n Image} {i : Fin n}
    {args : AppendEntriesArgs n} {reply : AppendEntriesReply}
    (hr : c.rounds[k]? = some round)
    (hthread : round.threads i = .append args (.replied reply))
    (hD : (c.nodes round.leader).StepsDown reply →
      D.stepDown (c.nodes round.leader) reply)
    (h : c.sendAppendEntries k round i args reply = (c', es)) :
    Move D c c' es := by
  have hdone : c.Settles
      (c.setRound k (round.setThread i (.append args .done))) :=
    settles_setRound hr (Round.settles_setThread
      (hthread ▸ .append args (.replied reply) .done (by simp) (by simp)))
  unfold sendAppendEntries at h
  simp only at h
  split at h
  · next p heq =>
      obtain ⟨rfl, rfl⟩ : _ = c' ∧ [] = es := by simpa using h
      exact .settle_restart hdone
        (congrArg Persister.raftState (Raft.sendAppendEntries_eq_error heq))
  · next r nums heq =>
      obtain ⟨rfl, hes⟩ : _ = c' ∧ _ = es := by simpa using h
      rcases Raft.sendAppendEntries_eq_ok heq with
        ⟨hquiet, hsaved, rfl⟩ | htallies
      · rw [if_neg (by rw [hquiet.commit]; exact Nat.lt_irrefl _)] at hes
        subst hes
        exact .settle_quiet hdone hquiet
          (hsaved.imp id fun hdown => ⟨reply, hD hdown⟩)
      · subst hes
        exact .tally k round i args reply r nums hr hthread htallies

theorem move_installSnapshot {k : ℕ} {round : Round n Image} {i : Fin n}
    {args : InstallSnapshotRequest n Image}
    (hr : c.rounds[k]? = some round)
    (hthread : round.threads i = .snapshot args .sent)
    (hD : D.install (c.nodes i) args)
    (h : c.installSnapshot k round i args = (c', es)) : Move D c c' es := by
  have hsettles : ∀ call : Call InstallSnapshotResponse,
      c.Settles (c.setRound k (round.setThread i (.snapshot args call))) :=
    fun call => settles_setRound hr (Round.settles_setThread
      (hthread ▸ .snapshot args .sent call))
  unfold installSnapshot at h
  split at h
  · next p heq =>
      obtain ⟨rfl, rfl⟩ : _ = c' ∧ [] = es := by simpa using h
      obtain ⟨hquiet, hsaved⟩ := (c.nodes i).installTerm_effect args.term
      exact .then_restart (.settle_quiet (hsettles .done) hquiet (.inl hsaved))
        (congrArg Persister.raftState (Raft.installSnapshot_eq_error heq))
  · next r reply msg heq =>
      obtain ⟨rfl, rfl⟩ : _ = c' ∧ [] = es := by simpa using h
      rcases Raft.installSnapshot_eq_ok heq with ⟨hquiet, hsaved⟩ | hinstalls
      · exact .settle_quiet (hsettles reply.received) hquiet (.inl hsaved)
      · refine .trans (.install k round i args r hr hthread hD hinstalls)
          (.settle ⟨rfl, ?_, ?_, ?_⟩)
        · exact (hsettles reply.received).elections
        · exact (hsettles reply.received).rounds
        · exact (hsettles reply.received).reads

theorem move_snapshot (s : Fin n) (index : ℕ) (image : Option Image)
    (h : c.step (.snapshot s index image) = some (c', es)) :
    Move D c c' es := by
  simp only [step] at h
  split at h
  · next p heq =>
      obtain ⟨rfl, rfl⟩ : _ = c' ∧ [] = es := by simpa using h
      rcases Raft.snapshot_eq_error heq with rfl | ⟨r', hcompacts, rfl⟩
      · exact .restart s _ rfl
      · exact .then_restart (.compact s index r' hcompacts) rfl
  · next r heq =>
      obtain ⟨rfl, rfl⟩ : _ = c' ∧ [] = es := by simpa using h
      rcases Raft.snapshot_eq_ok heq with rfl | hcompacts
      · exact .quiet s _ (.refl _) (.inl (.refl _))
      · exact .compact s index r hcompacts

theorem move_applierTicker (s : Fin n) (h : c.applierTicker s = (c', es)) :
    Move D c c' es := by
  unfold applierTicker at h
  split at h
  · next p heq =>
      obtain ⟨rfl, rfl⟩ : _ = c' ∧ [] = es := by simpa using h
      exact .restart s p
        (congrArg Persister.raftState (Raft.getApplyLogs_eq_error heq))
  · next r msgs heq =>
      obtain ⟨rfl, rfl⟩ : _ = c' ∧ _ = es := by simpa using h
      exact .handOut s r msgs heq

theorem move_readIndex (s : Fin n) (h : c.readIndex s = (c', es)) :
    Move D c c' es := by
  unfold readIndex at h
  split at h
  · obtain ⟨rfl, rfl⟩ : c = c' ∧ [] = es := by simpa using h
    exact .same c
  · next hl =>
      obtain ⟨rfl, rfl⟩ : _ = c' ∧ [] = es := by simpa using h
      exact .beginRead s (by simpa using hl)

theorem move_readIndexSend {q : ℕ} {read : ReadCall n} {i : Fin n}
    (hq : c.reads[q]? = some read) (hthread : read.threads i = .waiting)
    (h : c.readIndexSend q read i = (c', es)) : Move D c c' es := by
  have hdone : c.Settles (c.setRead q (read.setThread i .done)) :=
    settles_setRead hq (ReadCall.settles_setThread (.finish _))
  unfold readIndexSend at h
  split at h
  · next p heq =>
      obtain ⟨rfl, rfl⟩ : _ = c' ∧ [] = es := by simpa using h
      exact .settle_restart hdone
        (congrArg Persister.raftState (Raft.readIndexArgs_eq_error heq))
  · obtain ⟨rfl, rfl⟩ : _ = c' ∧ [] = es := by simpa using h
    exact .settle hdone
  · next args heq =>
      obtain ⟨rfl, rfl⟩ : _ = c' ∧ [] = es := by simpa using h
      exact .sendRead q read i args hq hthread heq

theorem move_readIndexReply {q : ℕ} {read : ReadCall n} {i : Fin n}
    {args : AppendEntriesArgs n} {reply : AppendEntriesReply}
    (hq : c.reads[q]? = some read)
    (hthread : read.threads i = .append args (.replied reply))
    (h : c.readIndexReply q read i reply = (c', es)) : Move D c c' es := by
  obtain ⟨rfl, rfl⟩ : _ = c' ∧ [] = es := by simpa [readIndexReply] using h
  split
  · next hconfirms =>
      have hsuccess : reply.success = true := by
        simp only [Raft.confirms, Bool.and_eq_true] at hconfirms
        exact hconfirms.2
      exact .confirm q read i args reply hq hthread hsuccess
  · exact .settle (settles_setRead hq (ReadCall.settles_setThread (.finish _)))

theorem move_readIndexReturn {q : ℕ} {read : ReadCall n}
    (hq : c.reads[q]? = some read) (hcount : n / 2 + 1 ≤ read.confirmCount)
    (h : c.readIndexReturn q read = (c', es)) : Move D c c' es := by
  unfold readIndexReturn at h
  obtain ⟨rfl, hes⟩ : _ = c' ∧ _ = es := by simpa using h
  split at hes
  · subst hes
    exact .settle (settles_setRead hq
      ⟨rfl, rfl, rfl, rfl, fun _ => .refl _⟩)
  · next hleads =>
      subst hes
      push Not at hleads
      exact .returnRead q read hq hcount hleads.1 hleads.2

/-- The action keeps the discipline `D`. -/
structure Obeys (D : Discipline n Image) (c : Cluster n Image)
    (a : Action n Image) : Prop where
  merge : ∀ m ∈ c.appendRequest? a, D.merge (c.nodes m.1) m.2
  install : ∀ m ∈ c.installRequest? a, D.install (c.nodes m.1) m.2
  stepDown : ∀ m ∈ c.appendReply? a, (c.nodes m.1).StepsDown m.2 →
    D.stepDown (c.nodes m.1) m.2

/-- Every step that keeps the discipline is a sequence of moves under it. -/
theorem step_move {a : Action n Image} (hD : Obeys D c a)
    (h : c.step a = some (c', es)) : Move D c c' es := by
  cases a with
  | doElection s => exact move_doElection s (Option.some.inj h)
  | requestVote e i =>
      obtain ⟨election, he, h⟩ := Option.bind_eq_some_iff.mp h
      split at h
      · next hcall => exact move_requestVote he hcall (Option.some.inj h)
      · simp at h
  | sendRequestVote e i =>
      obtain ⟨election, he, h⟩ := Option.bind_eq_some_iff.mp h
      split at h
      · next reply hcall =>
          split at h
          · exact move_sendRequestVote he hcall (Option.some.inj h)
          · simp at h
      · simp at h
  | start s command =>
      obtain ⟨rfl, rfl⟩ : _ = c' ∧ [] = es := by simpa [step] using h
      exact move_start s command
  | doHeartBeat s => exact move_doHeartBeat s (Option.some.inj h)
  | appendEntries k i =>
      obtain ⟨round, hr, h⟩ := Option.bind_eq_some_iff.mp h
      split at h
      · next args hthread =>
          refine move_appendEntries hr hthread (hD.merge (i, args) ?_)
            (Option.some.inj h)
          simp [appendRequest?, hr, hthread]
      · simp at h
  | sendAppendEntries k i =>
      obtain ⟨round, hr, h⟩ := Option.bind_eq_some_iff.mp h
      split at h
      · next args reply hthread =>
          split at h
          · refine move_sendAppendEntries hr hthread
              (hD.stepDown (round.leader, reply) ?_) (Option.some.inj h)
            simp [appendReply?, hr, hthread]
          · simp at h
      · simp at h
  | leaderSendSnapShot k i =>
      obtain ⟨round, hr, h⟩ := Option.bind_eq_some_iff.mp h
      split at h
      · next hthread =>
          split at h
          · obtain ⟨rfl, rfl⟩ : _ = c' ∧ [] = es := by simpa using h
            exact .offer k round i hr hthread
          · simp at h
      · simp at h
  | installSnapshot k i =>
      obtain ⟨round, hr, h⟩ := Option.bind_eq_some_iff.mp h
      split at h
      · next args hthread =>
          refine move_installSnapshot hr hthread (hD.install (i, args) ?_)
            (Option.some.inj h)
          simp [installRequest?, hr, hthread]
      · simp at h
  | installSnapshotCrash k i =>
      obtain ⟨round, hr, h⟩ := Option.bind_eq_some_iff.mp h
      split at h
      · next args hthread =>
          split at h
          · simp at h
          · obtain ⟨rfl, rfl⟩ : _ = c' ∧ [] = es := by simpa using h
            obtain ⟨hquiet, hsaved⟩ := (c.nodes i).installTerm_effect args.term
            exact .then_restart (.settle_quiet (settles_setRound hr
              (Round.settles_setThread (hthread ▸ .snapshot args .sent .done)))
                hquiet (.inl hsaved)) rfl
      · simp at h
  | snapShotSent k i =>
      obtain ⟨round, hr, h⟩ := Option.bind_eq_some_iff.mp h
      split at h
      · next args reply hthread =>
          split at h
          · obtain ⟨rfl, rfl⟩ : _ = c' ∧ [] = es := by simpa using h
            obtain ⟨hquiet, hsaved⟩ := Raft.snapShotSent_effect
              (c.nodes round.leader) i args reply
            exact .settle_quiet (settles_setRound hr (Round.settles_setThread
              (hthread ▸ .snapshot args (.replied reply) .done)))
              hquiet (.inl hsaved)
          · simp at h
      · simp at h
  | snapshot s index image => exact move_snapshot s index image h
  | applierTicker s => exact move_applierTicker s (Option.some.inj h)
  | readIndex s => exact move_readIndex s (Option.some.inj h)
  | readIndexSend q i =>
      obtain ⟨read, hq, h⟩ := Option.bind_eq_some_iff.mp h
      split at h
      · next hthread =>
          split at h
          · exact move_readIndexSend hq hthread (Option.some.inj h)
          · simp at h
      · simp at h
  | readAppendEntries q i =>
      obtain ⟨read, hq, h⟩ := Option.bind_eq_some_iff.mp h
      split at h
      · next args hthread =>
          refine move_readAppendEntries hq hthread (hD.merge (i, args) ?_)
            (Option.some.inj h)
          simp [appendRequest?, hq, hthread]
      · simp at h
  | readIndexReply q i =>
      obtain ⟨read, hq, h⟩ := Option.bind_eq_some_iff.mp h
      split at h
      · next args reply hthread =>
          split at h
          · exact move_readIndexReply hq hthread (Option.some.inj h)
          · simp at h
      · simp at h
  | readIndexReturn q =>
      obtain ⟨read, hq, h⟩ := Option.bind_eq_some_iff.mp h
      split at h
      · next henabled =>
          exact move_readIndexReturn hq henabled.2.2 (Option.some.inj h)
      · simp at h
  | restart s =>
      obtain ⟨rfl, rfl⟩ : _ = c' ∧ [] = es := by simpa [step] using h
      exact .restart s _ rfl

end Cluster

end Step

end KVRaftStorage
