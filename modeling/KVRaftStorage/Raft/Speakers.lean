import KVRaftStorage.Raft.Logs
import KVRaftStorage.Raft.Steps

/-!
# Who speaks for a term

Every request carries the term of the server that sends it, and a server that
is reached by a request of its own term steps down.  So a leader is safe from
its own term only as long as nobody else sends requests of that term.
`doHeartBeat` and the threads of `ReadIndex` send as leaders.
`leaderSendSnapShot` takes the lock in a thread of its own and fills in the
term of that moment, whatever has become of the leadership.
-/

namespace KVRaftStorage

open Transition

variable {n : ℕ} {Image : Type}

/-! ## Keeping the role -/

namespace Raft

/-- The term does not go down, and a leader whose term does not go up stays
leader. -/
structure KeepsRole (r r' : Raft n Image) : Prop where
  le : r.currentTerm ≤ r'.currentTerm
  leader : r.status = .leader → r'.currentTerm = r.currentTerm →
    r'.status = .leader

theorem KeepsRole.of_eq {r r' : Raft n Image}
    (hterm : r'.currentTerm = r.currentTerm) (hstatus : r'.status = r.status) :
    r.KeepsRole r' :=
  ⟨hterm.ge, fun hl _ => hstatus.trans hl⟩

theorem KeepsRole.of_lt {r r' : Raft n Image}
    (hterm : r.currentTerm < r'.currentTerm) : r.KeepsRole r' :=
  ⟨hterm.le, fun _ heq => absurd heq hterm.ne'⟩

/-- The receiver of a request of a term it does not lead. -/
theorem KeepsRole.of_request {r r' : Raft n Image} {term : ℕ}
    (hle : r.currentTerm ≤ term) (hterm : r'.currentTerm = term)
    (hother : r.status = .leader → r.currentTerm ≠ term) : r.KeepsRole r' :=
  ⟨hterm ▸ hle, fun hl heq => absurd (heq.symm.trans hterm) (hother hl)⟩

theorem KeepsRole.refl (r : Raft n Image) : r.KeepsRole r := .of_eq rfl rfl

theorem KeepsRole.trans {r₁ r₂ r₃ : Raft n Image} (h₁ : r₁.KeepsRole r₂)
    (h₂ : r₂.KeepsRole r₃) : r₁.KeepsRole r₃ := by
  have hle₁ := h₁.le
  have hle₂ := h₂.le
  exact ⟨hle₁.trans hle₂, fun hl hterm =>
    h₂.leader (h₁.leader hl (by omega)) (by omega)⟩

theorem doElection_keepsRole (r : Raft n Image) :
    r.KeepsRole r.doElection.1 := by
  unfold doElection
  split
  · exact .refl r
  · exact .of_lt (Nat.lt_succ_self _)

theorem observeTerm_keepsRole (r : Raft n Image) (term : ℕ) :
    r.KeepsRole (r.observeTerm term) := by
  unfold observeTerm
  split
  · next hlt => exact .of_lt hlt
  · exact .refl r

theorem requestVote_keepsRole {r r' : Raft n Image} {args : RequestVoteArgs n}
    {reply : RequestVoteReply} (h : r.requestVote args = .ok (r', reply)) :
    r.KeepsRole r' := by
  have hobserve := r.observeTerm_keepsRole args.term
  unfold requestVote at h
  split at h
  · obtain ⟨rfl, -⟩ : _ = r' ∧ _ := by simpa using h
    exact .of_eq rfl rfl
  · rw [exec_bind_eq_ok] at h
    obtain ⟨-, -, h⟩ := h
    split at h
    · obtain ⟨rfl, -⟩ : _ = r' ∧ _ := by simpa using h
      exact ⟨hobserve.le, hobserve.leader⟩
    · split at h
      · obtain ⟨rfl, -⟩ : _ = r' ∧ _ := by simpa using h
        exact ⟨hobserve.le, hobserve.leader⟩
      · obtain ⟨rfl, -⟩ : _ = r' ∧ _ := by simpa using h
        exact ⟨hobserve.le, hobserve.leader⟩

theorem sendRequestVote_keepsRole {r r' : Raft n Image} {k k' : ℕ}
    {reply : RequestVoteReply}
    (h : r.sendRequestVote k reply = .ok (r', k')) : r.KeepsRole r' := by
  unfold sendRequestVote at h
  split at h
  · next hlt =>
      obtain ⟨rfl, -⟩ : _ = r' ∧ _ := by simpa using h
      exact .of_lt hlt
  · split at h
    · obtain ⟨rfl, -⟩ : r = r' ∧ _ := by simpa using h
      exact .refl r
    · simp only [exec_bind_eq_ok] at h
      obtain ⟨-, -, h⟩ := h
      split at h
      · obtain ⟨rfl, -⟩ : r = r' ∧ _ := by simpa using h
        exact .refl r
      · split at h
        · rw [exec_bind_eq_ok] at h
          obtain ⟨-, -, h⟩ := h
          obtain ⟨rfl, -⟩ : _ = r' ∧ _ := by simpa using h
          exact ⟨le_rfl, fun _ _ => rfl⟩
        · obtain ⟨rfl, -⟩ : r = r' ∧ _ := by simpa using h
          exact .refl r

theorem start_keepsRole (r : Raft n Image) (command : Op) :
    r.KeepsRole (r.start command).1 := by
  rcases r.start_effect command with h | ⟨-, h⟩
  · rw [h]
    exact .refl r
  · rw [h]
    exact .of_eq rfl rfl

theorem appendEntries1_keepsRole {r r' : Raft n Image}
    {args : AppendEntriesArgs n} {reply : AppendEntriesReply}
    (hother : r.status = .leader → r.currentTerm ≠ args.term)
    (h : r.appendEntries1 args = .ok (r', reply)) : r.KeepsRole r' := by
  unfold appendEntries1 at h
  split at h
  · obtain ⟨rfl, -⟩ : r = r' ∧ _ := by simpa using h
    exact .refl r
  next hle =>
    have hle := Nat.le_of_not_lt hle
    rw [exec_bind_eq_ok] at h
    obtain ⟨-, -, h⟩ := h
    obtain ⟨-, -, hterm, -⟩ := examineEntries_eq_ok h
    exact .of_request hle (hterm.trans (currentTerm_observeTerm hle)) hother

theorem sendAppendEntries_keepsRole {r r' : Raft n Image} {server : Fin n}
    {args : AppendEntriesArgs n} {reply : AppendEntriesReply} {k k' : ℕ}
    (h : r.sendAppendEntries server args reply k = .ok (r', k')) :
    r.KeepsRole r' := by
  unfold sendAppendEntries at h
  split at h
  · obtain ⟨rfl, -⟩ : r = r' ∧ _ := by simpa using h
    exact .refl r
  · split at h
    · next hlt =>
        obtain ⟨rfl, -⟩ : _ = r' ∧ _ := by simpa using h
        exact .of_lt hlt
    · split at h
      · obtain ⟨rfl, -⟩ : r = r' ∧ _ := by simpa using h
        exact .refl r
      · split at h
        · obtain ⟨rfl, -⟩ : r = r' ∧ _ := by simpa using h
          exact .refl r
        · rw [exec_bind_eq_ok] at h
          obtain ⟨-, -, h⟩ := h
          split at h
          · split at h
            · obtain ⟨rfl, -⟩ : _ = r' ∧ _ := by simpa using h
              exact .of_eq rfl rfl
            · obtain ⟨rfl, -⟩ : r = r' ∧ _ := by simpa using h
              exact .refl r
          · simp only [exec_bind_eq_ok] at h
            obtain ⟨-, -, h⟩ := h
            split at h
            · simp only [exec_bind_eq_ok] at h
              obtain ⟨-, -, h⟩ := h
              obtain ⟨rfl, -⟩ : _ = r' ∧ _ := by simpa using h
              split <;> exact .of_eq rfl rfl
            · obtain ⟨rfl, -⟩ : _ = r' ∧ _ := by simpa using h
              exact .of_eq rfl rfl

theorem getApplyLogs_keepsRole {r r' : Raft n Image} {msgs : List (ℕ × Op)}
    (h : r.getApplyLogs = .ok (r', msgs)) : r.KeepsRole r' := by
  rw [(getApplyLogs_eq_ok h).1]
  exact .of_eq rfl rfl

theorem snapshot_keepsRole {r r' : Raft n Image} {index : ℕ}
    {image : Option Image} (h : r.snapshot index image = .ok r') :
    r.KeepsRole r' := by
  rcases snapshot_eq_ok h with rfl | hcompacts
  · exact .refl _
  · exact .of_eq hcompacts.currentTerm hcompacts.status

theorem snapShotSent_keepsRole (r : Raft n Image) (server : Fin n)
    (args : InstallSnapshotRequest n Image) (reply : InstallSnapshotResponse) :
    r.KeepsRole (r.snapShotSent server args reply) := by
  unfold snapShotSent
  split
  · exact .refl r
  · split
    · next hlt => exact .of_lt hlt
    · exact .of_eq rfl rfl

theorem installSnapshot_keepsRole {r r' : Raft n Image}
    {args : InstallSnapshotRequest n Image} {reply : InstallSnapshotResponse}
    {msg : Option (ApplyMsg Image)}
    (hother : r.status = .leader → r.currentTerm ≠ args.term)
    (h : r.installSnapshot args = .ok (r', reply, msg)) : r.KeepsRole r' := by
  unfold installSnapshot at h
  split at h
  · obtain ⟨rfl, -⟩ : r = r' ∧ _ := by simpa using h
    exact .refl r
  next hle =>
    have hle := Nat.le_of_not_lt hle
    have hterm : (r.enterSnapshot args.term).currentTerm = args.term :=
      currentTerm_installTerm hle
    split at h
    · obtain ⟨rfl, -⟩ : _ = r' ∧ _ := by simpa using h
      exact .of_request hle hterm hother
    · obtain ⟨logs, -, rfl⟩ := takeSnapshot_eq_ok h
      exact .of_request hle hterm hother

theorem heartBeatTo_term {r : Raft n Image} {server : Fin n}
    {args : AppendEntriesArgs n} (h : r.heartBeatTo server = .ok (some args)) :
    args.term = r.currentTerm := by
  have hargs := Holds.heartBeatTo_eq_some h
  simp only [heartBeatArgs, exec_bind_eq_ok] at hargs
  obtain ⟨prev, -, entries, -, -, -, hargs⟩ := hargs
  obtain rfl := exec_pure_eq_ok.mp hargs
  rfl

theorem readIndexArgs_term {r : Raft n Image} {savedTerm : ℕ} {server : Fin n}
    {args : AppendEntriesArgs n}
    (h : r.readIndexArgs savedTerm server = .ok (some args)) :
    r.status = .leader ∧ args.term = r.currentTerm := by
  unfold readIndexArgs at h
  split at h
  · simp at h
  next hlead =>
    push Not at hlead
    split at h
    · simp at h
    · rw [exec_bind_eq_ok] at h
      obtain ⟨prev, -, h⟩ := h
      obtain rfl : _ = args := by simpa using h
      exact ⟨hlead.2, rfl⟩

end Raft

/-! ## Who has sent what -/

/-- The term of the request the thread has sent. -/
def PeerThread.term? : PeerThread n Image → Option ℕ
  | .append args _ => some args.term
  | .snapshot args _ => some args.term
  | .idle | .waiting => none

def ReadThread.term? : ReadThread n → Option ℕ
  | .append args _ => some args.term
  | .waiting | .done => none

/-- The server and the term of a won election. -/
def Event.won? : Event n Image → Option (Fin n × ℕ)
  | .becameLeader server node => some (server, node.currentTerm)
  | _ => none

/-- `v` has become leader of term `T`. -/
def Won (es : List (Event n Image)) (v : Fin n) (T : ℕ) : Prop :=
  ∃ ev ∈ es, ev.won? = some (v, T)

instance (es : List (Event n Image)) (v : Fin n) (T : ℕ) :
    Decidable (Won es v T) :=
  inferInstanceAs (Decidable (∃ ev ∈ es, _))

namespace Cluster

/-- `v` has sent a request of term `T` to another server. -/
def Speaks (c : Cluster n Image) (v : Fin n) (T : ℕ) : Prop :=
  (∃ round ∈ c.rounds, round.leader = v ∧
      ∃ i, (round.threads i).term? = some T) ∨
    ∃ read ∈ c.reads, read.server = v ∧
      ∃ i, (read.threads i).term? = some T

instance (c : Cluster n Image) (v : Fin n) (T : ℕ) : Decidable (c.Speaks v T) :=
  inferInstanceAs (Decidable (_ ∨ _))

/-- Requests of a term come from servers that have won it. -/
def WinnersSpeak (c : Cluster n Image) (es : List (Event n Image)) : Prop :=
  ∀ v T, c.Speaks v T → Won es v T

/-- Between `c₁` and `c`, a leader that has neither restarted nor reached a
larger term is still leader. -/
def LeadersStay (c₁ c : Cluster n Image) : Prop :=
  ∀ v, (c₁.nodes v).status = .leader → c.boots v = c₁.boots v →
    (c.nodes v).currentTerm = (c₁.nodes v).currentTerm →
      (c.nodes v).status = .leader

instance (c₁ c : Cluster n Image) : Decidable (LeadersStay c₁ c) :=
  inferInstanceAs (Decidable (∀ _ : Fin n, _))

/-- A `leaderSendSnapShot` thread gets the lock only while its server is
leader. -/
def SendsAsLeader (c : Cluster n Image) (a : Action n Image) : Prop :=
  ∀ v ∈ c.snapshotSender? a, (c.nodes v).status = .leader

instance (c : Cluster n Image) (a : Action n Image) :
    Decidable (c.SendsAsLeader a) :=
  inferInstanceAs (Decidable (∀ v ∈ c.snapshotSender? a, _))

end Cluster

/-! ## The requests of winners -/

theorem Won.mono {es es' : List (Event n Image)} {v : Fin n} {T : ℕ}
    (h : Won es v T) : Won (es ++ es') v T := by
  obtain ⟨ev, hev, hwon⟩ := h
  exact ⟨ev, List.mem_append_left _ hev, hwon⟩

structure RoundSpoken (es : List (Event n Image)) (round : Round n Image) :
    Prop where
  own : round.threads round.leader = .idle
  won : ∀ i T, (round.threads i).term? = some T → Won es round.leader T

structure ReadSpoken (es : List (Event n Image)) (read : ReadCall n) :
    Prop where
  own : read.threads read.server = .done
  won : ∀ i T, (read.threads i).term? = some T → Won es read.server T

/-- Everything sent so far was sent by a winner of its term to another
server. -/
structure Spoken (es : List (Event n Image)) (c : Cluster n Image) : Prop where
  rounds : ∀ round ∈ c.rounds, RoundSpoken es round
  reads : ∀ read ∈ c.reads, ReadSpoken es read

theorem RoundSpoken.setThread {es : List (Event n Image)}
    {round : Round n Image} (h : RoundSpoken es round) {i : Fin n}
    {thread : PeerThread n Image} (k : ℕ) (hidle : round.threads i ≠ .idle)
    (hwon : ∀ T, thread.term? = some T → Won es round.leader T) :
    RoundSpoken es { round.setThread i thread with appendNums := k } := by
  constructor
  · have hne : round.leader ≠ i := by
      rintro rfl
      exact hidle h.own
    simpa [Round.setThread, hne] using h.own
  · intro j T hj
    by_cases hji : j = i
    · subst hji
      exact hwon T (by simpa [Round.setThread] using hj)
    · exact h.won j T (by simpa [Round.setThread, hji] using hj)

theorem ReadSpoken.setThread {es : List (Event n Image)} {read : ReadCall n}
    (h : ReadSpoken es read) {i : Fin n} {thread : ReadThread n} (k : ℕ)
    (hdone : read.threads i ≠ .done)
    (hwon : ∀ T, thread.term? = some T → Won es read.server T) :
    ReadSpoken es { read.setThread i thread with confirmCount := k } := by
  constructor
  · have hne : read.server ≠ i := by
      rintro rfl
      exact hdone h.own
    simpa [ReadCall.setThread, hne] using h.own
  · intro j T hj
    by_cases hji : j = i
    · subst hji
      exact hwon T (by simpa [ReadCall.setThread] using hj)
    · exact h.won j T (by simpa [ReadCall.setThread, hji] using hj)

namespace Spoken

variable {es es' : List (Event n Image)} {c c' : Cluster n Image}

theorem start : Spoken [] (Cluster.start n Image) :=
  ⟨by simp [Cluster.start], by simp [Cluster.start]⟩

theorem of_eq (h : Spoken es c) (hrounds : c'.rounds = c.rounds)
    (hreads : c'.reads = c.reads) : Spoken es c' :=
  ⟨hrounds ▸ h.rounds, hreads ▸ h.reads⟩

theorem mono (h : Spoken es c) : Spoken (es ++ es') c where
  rounds := fun round hr => ⟨(h.rounds round hr).own,
    fun i T hi => ((h.rounds round hr).won i T hi).mono⟩
  reads := fun read hq => ⟨(h.reads read hq).own,
    fun i T hi => ((h.reads read hq).won i T hi).mono⟩

/-- `doHeartBeat` sends in the term of its server. -/
theorem begun {s : Fin n} (hwon : Won es s (c.nodes s).currentTerm) :
    RoundSpoken es
      { leader := s
        boot := c.boots s
        appendNums := 1
        threads := Cluster.heartBeatThread (c.nodes s) s } := by
  refine ⟨by simp [Cluster.heartBeatThread], fun i T hi => ?_⟩
  simp only at hi
  cases hthread : Cluster.heartBeatThread (c.nodes s) s i with
  | append args call =>
      obtain ⟨-, -, hto⟩ := LogsTracked.heartBeatThread_eq_append hthread
      rw [hthread] at hi
      obtain rfl : args.term = T := Option.some.inj hi
      rw [Raft.heartBeatTo_term hto]
      exact hwon
  | snapshot args call =>
      exact (LogsTracked.heartBeatThread_ne_snapshot hthread).elim
  | idle | waiting => simp [hthread, PeerThread.term?] at hi

/-- What is sent is sent by winners, as long as `leaderSendSnapShot` is called
by leaders. -/
theorem step (h : Spoken es c)
    (hlead : ∀ v, (c.nodes v).status = .leader →
      Won es v (c.nodes v).currentTerm)
    {a : Action n Image} (hsends : c.SendsAsLeader a)
    (hcases : c.StepCases a c') : Spoken es c' := by
  constructor
  · have hrounds := hcases.rounds
    generalize c'.rounds = rounds at hrounds ⊢
    cases hrounds with
    | same => exact h.rounds
    | begun s hl => exact forall_mem_concat h.rounds (begun (hlead s hl))
    | @advanced k i thread round nums hr hthread =>
        have hround := h.rounds round (List.mem_of_getElem? hr)
        refine forall_mem_set h.rounds ?_
        cases hthread with
        | answered hold _ =>
            refine hround.setThread nums (by simp [hold]) fun T hT => ?_
            exact hround.won i T (hold ▸ hT)
        | finished hold =>
            refine hround.setThread nums (by simp [hold]) fun T hT => ?_
            exact hround.won i T (hold ▸ hT)
        | offered hold _ ha =>
            refine hround.setThread nums (by simp [hold]) fun T hT => ?_
            obtain rfl : (c.nodes round.leader).currentTerm = T :=
              Option.some.inj hT
            exact hlead round.leader (hsends round.leader ha)
        | snapshot call' hold =>
            refine hround.setThread nums (by simp [hold]) fun T hT => ?_
            exact hround.won i T (hold ▸ hT)
  · have hreads := hcases.reads
    generalize c'.reads = reads at hreads ⊢
    cases hreads with
    | same => exact h.reads
    | begun s =>
        refine forall_mem_concat h.reads ⟨by simp [ReadCall.begun], ?_⟩
        intro i T hi
        simp only [ReadCall.begun] at hi
        split at hi <;> simp [ReadThread.term?] at hi
    | @advanced q i thread read count hq hthread =>
        have hread := h.reads read (List.mem_of_getElem? hq)
        refine forall_mem_set h.reads ?_
        cases hthread with
        | sent hold hargs =>
            refine hread.setThread count (by simp [hold]) fun T hT => ?_
            obtain ⟨hl, hterm⟩ := Raft.readIndexArgs_term hargs
            obtain rfl := (Option.some.inj hT).symm.trans hterm
            exact hlead read.server hl
        | answered hold =>
            refine hread.setThread count (by simp [hold]) fun T hT => ?_
            exact hread.won i T (hold ▸ hT)
        | finished hold =>
            exact hread.setThread count hold (by simp [ReadThread.term?])
    | @returned q read hq =>
        have hread := h.reads read (List.mem_of_getElem? hq)
        exact forall_mem_set h.reads ⟨hread.own, hread.won⟩

end Spoken

/-! ## Leaders -/

/-- A leader was leader before, or has just been elected. -/
theorem Move.leads {D : Discipline n Image} {c c' : Cluster n Image}
    {es : List (Event n Image)} (h : Move D c c' es) {v : Fin n}
    (hl : (c'.nodes v).status = .leader) :
    ((c.nodes v).status = .leader ∧
      (c'.nodes v).currentTerm = (c.nodes v).currentTerm) ∨
      Won es v (c'.nodes v).currentTerm := by
  have hother : ∀ {c : Cluster n Image} {u : Fin n} {r' : Raft n Image},
      v ≠ u → ((c.setNode u r').nodes v).status = .leader →
      (c.nodes v).status = .leader ∧
        ((c.setNode u r').nodes v).currentTerm = (c.nodes v).currentTerm := by
    intro c u r' hv hl
    rw [show (c.setNode u r').nodes v = c.nodes v from
      Function.update_of_ne hv _ _] at hl ⊢
    exact ⟨hl, rfl⟩
  have hnode : ∀ {c : Cluster n Image} {u : Fin n} {r' : Raft n Image},
      (c.nodes u).Follows r' → ((c.setNode u r').nodes v).status = .leader →
      (c.nodes v).status = .leader ∧
        ((c.setNode u r').nodes v).currentTerm = (c.nodes v).currentTerm := by
    intro c u r' hfollows hl
    by_cases hv : v = u
    · subst hv
      simp only [Cluster.setNode, Function.update_self] at hl ⊢
      exact hfollows.leader hl
    · exact hother hv hl
  induction h with
  | @trans c₁ c₂ c₃ es₁ es₂ _ _ ih₁ ih₂ =>
      rcases ih₂ hl with ⟨hl₂, hterm⟩ | ⟨ev, hev, hwon⟩
      · rcases ih₁ hl₂ with ⟨hl₁, hterm₁⟩ | hwon
        · exact .inl ⟨hl₁, hterm.trans hterm₁⟩
        · exact .inr (hterm ▸ hwon.mono)
      · exact .inr ⟨ev, List.mem_append_right _ hev, hwon⟩
  | settle hs =>
      rw [hs.nodes] at hl ⊢
      exact .inl ⟨hl, rfl⟩
  | quiet u r' hquiet _ => exact .inl (hnode hquiet.follows hl)
  | restart u p _ =>
      by_cases hv : v = u
      · subst hv
        simp [Cluster.reboot] at hl
      · exact .inl (hother hv hl)
  | candidacy u r' args hstep =>
      obtain ⟨-, -, -, -, hstatus, -⟩ := Raft.doElection_eq_some hstep
      by_cases hv : v = u
      · subst hv
        simp [Cluster.setNode, hstatus] at hl
      · exact .inl (hother hv hl)
  | grant e election u r' reply _ _ hgrants =>
      by_cases hv : v = u
      · subst hv
        simp only [Cluster.setNode, Cluster.setElection,
          Function.update_self] at hl ⊢
        obtain ⟨hlead, hterm⟩ := hgrants.leader hl
        exact .inl ⟨hlead, hgrants.term.trans hterm.symm⟩
      · exact .inl (hother hv hl)
  | win e election u r' reply _ _ _ =>
      by_cases hv : v = election.candidate
      · subst hv
        right
        refine ⟨_, List.mem_singleton_self _, ?_⟩
        simp [Event.won?, Cluster.setNode]
      · exact .inl (hother hv hl)
  | extend u command _ =>
      exact .inl (hnode ⟨rfl, .inl ⟨rfl, rfl⟩, fun hl => ⟨hl, rfl⟩⟩ hl)
  | acceptRound k round u args r' reply _ _ _ haccepts =>
      exact .inl (hnode haccepts.follows hl)
  | acceptRead q read u args r' reply _ _ _ haccepts =>
      exact .inl (hnode haccepts.follows hl)
  | tally k round u args reply r' nums _ _ htallies =>
      exact .inl (hnode htallies.follows hl)
  | install k round u args r' _ _ _ hinstalls =>
      exact .inl (hnode hinstalls.follows hl)
  | compact u index r' hcompacts => exact .inl (hnode hcompacts.follows hl)
  | handOut u r' msgs hout =>
      exact .inl (hnode (Raft.getApplyLogs_quiet hout).1 hl)
  | count | heartbeat | offer | beginRead | sendRead | confirm | returnRead =>
      exact .inl ⟨hl, rfl⟩

/-- No request of its own term is about to reach a leader. -/
structure Unopposed (c : Cluster n Image) (a : Action n Image) : Prop where
  append : ∀ m ∈ c.appendRequest? a, (c.nodes m.1).status = .leader →
    (c.nodes m.1).currentTerm ≠ m.2.term
  install : ∀ m ∈ c.installRequest? a, (c.nodes m.1).status = .leader →
    (c.nodes m.1).currentTerm ≠ m.2.term

theorem Unopposed.handles {c : Cluster n Image} {a : Action n Image}
    (h : Unopposed c a) {s : Fin n} {r : Raft n Image}
    (hhandles : c.Handles a s r) : (c.nodes s).KeepsRole r := by
  cases hhandles with
  | doElection hdo =>
      have hrole := (c.nodes s).doElection_keepsRole
      rwa [hdo] at hrole
  | requestVote hvote => exact Raft.requestVote_keepsRole hvote
  | sendRequestVote hsend => exact Raft.sendRequestVote_keepsRole hsend
  | start command => exact Raft.start_keepsRole _ command
  | appendEntries1 hm happend =>
      exact Raft.appendEntries1_keepsRole (h.append _ hm) happend
  | sendAppendEntries _ _ _ _ hsend =>
      exact Raft.sendAppendEntries_keepsRole hsend
  | installSnapshot hm hinstall =>
      exact Raft.installSnapshot_keepsRole (h.install _ hm) hinstall
  | snapShotSent => exact Raft.snapShotSent_keepsRole ..
  | snapshot hsnap => exact Raft.snapshot_keepsRole hsnap
  | applierTicker hout => exact Raft.getApplyLogs_keepsRole hout

theorem Unopposed.step {c c' : Cluster n Image} {a : Action n Image}
    (h : Unopposed c a) (hcases : c.StepCases a c') :
    Cluster.WhileRunning Raft.KeepsRole c c' :=
  hcases.nodes.whileRunning Raft.KeepsRole.refl fun _ _ => h.handles

/-! ## Runs -/

/-- Everything known about who speaks: elections are tracked, leaders have won
their terms, and so have the senders of all requests. -/
structure SpeakersTracked (es : List (Event n Image)) (c : Cluster n Image) :
    Prop where
  votes : ∃ B, VotesTracked B c ∧ ∀ ev ∈ es, EventVotes B ev
  leaders : ∀ v, (c.nodes v).status = .leader →
    Won es v (c.nodes v).currentTerm
  spoken : Spoken es c

namespace SpeakersTracked

variable {es es' : List (Event n Image)} {c c' : Cluster n Image}

theorem start : SpeakersTracked [] (Cluster.start n Image) where
  votes := ⟨_, .start, by simp⟩
  leaders := by simp [Cluster.start]
  spoken := .start

/-- A term is won by one server only. -/
theorem winner_unique (h : SpeakersTracked es c) {v v' : Fin n} {T : ℕ}
    (hv : Won es v T) (hv' : Won es v' T) : v = v' := by
  obtain ⟨B, -, hevents⟩ := h.votes
  have hwinner : ∀ {u : Fin n}, Won es u T → B.winner T = some u := by
    rintro u ⟨ev, hev, hwon⟩
    cases ev with
    | becameLeader server node =>
        obtain ⟨rfl, rfl⟩ : server = u ∧ node.currentTerm = T := by
          simpa [Event.won?] using hwon
        exact hevents _ hev
    | _ => simp [Event.won?] at hwon
  exact Option.some.inj ((hwinner hv).symm.trans (hwinner hv'))

theorem winnersSpeak (h : SpeakersTracked es c) : c.WinnersSpeak es := by
  rintro v T (⟨round, hr, rfl, i, hi⟩ | ⟨read, hq, rfl, i, hi⟩)
  · exact (h.spoken.rounds round hr).won i T hi
  · exact (h.spoken.reads read hq).won i T hi

/-- Requests reach only other servers than the winner of their term. -/
theorem unopposed (h : SpeakersTracked es c) (a : Action n Image) :
    Unopposed c a := by
  have hround : ∀ (round : Round n Image) (i : Fin n) (T : ℕ),
      round ∈ c.rounds → (round.threads i).term? = some T →
      (c.nodes i).status = .leader → (c.nodes i).currentTerm ≠ T := by
    rintro round i T hr hi hl rfl
    have hspoken := h.spoken.rounds round hr
    have heq := h.winner_unique (h.leaders i hl) (hspoken.won i _ hi)
    rw [heq, hspoken.own] at hi
    simp [PeerThread.term?] at hi
  have hread : ∀ (read : ReadCall n) (i : Fin n) (T : ℕ),
      read ∈ c.reads → (read.threads i).term? = some T →
      (c.nodes i).status = .leader → (c.nodes i).currentTerm ≠ T := by
    rintro read i T hq hi hl rfl
    have hspoken := h.spoken.reads read hq
    have heq := h.winner_unique (h.leaders i hl) (hspoken.won i _ hi)
    rw [heq, hspoken.own] at hi
    simp [ReadThread.term?] at hi
  constructor
  · rintro ⟨i, args⟩ hm
    cases a with
    | appendEntries k j =>
        obtain ⟨round, hr, hm⟩ := Option.bind_eq_some_iff.mp hm
        split at hm
        · next args' hthread =>
            obtain ⟨rfl, rfl⟩ : j = i ∧ args' = args := by simpa using hm
            exact hround round j args'.term (List.mem_of_getElem? hr)
              (by rw [hthread]; rfl)
        · simp at hm
    | readAppendEntries q j =>
        obtain ⟨read, hq, hm⟩ := Option.bind_eq_some_iff.mp hm
        split at hm
        · next args' hthread =>
            obtain ⟨rfl, rfl⟩ : j = i ∧ args' = args := by simpa using hm
            exact hread read j args'.term (List.mem_of_getElem? hq)
              (by rw [hthread]; rfl)
        · simp at hm
    | _ => simp [Cluster.appendRequest?] at hm
  · rintro ⟨i, args⟩ hm
    cases a with
    | installSnapshot k j =>
        obtain ⟨round, hr, hm⟩ := Option.bind_eq_some_iff.mp hm
        split at hm
        · next args' hthread =>
            obtain ⟨rfl, rfl⟩ : j = i ∧ args' = args := by simpa using hm
            exact hround round j args'.term (List.mem_of_getElem? hr)
              (by rw [hthread]; rfl)
        · simp at hm
    | _ => simp [Cluster.installRequest?] at hm

theorem step (h : SpeakersTracked es c) {a : Action n Image}
    (hsends : c.SendsAsLeader a) (hstep : c.step a = some (c', es')) :
    SpeakersTracked (es ++ es') c' where
  votes := by
    obtain ⟨B, hB, hes⟩ := h.votes
    obtain ⟨B', hext, hB', hes'⟩ :=
      (Cluster.step_move (obeys_free c a) hstep).votes hB
    refine ⟨B', hB', fun ev hev => ?_⟩
    rcases List.mem_append.mp hev with hev | hev
    · exact (hes ev hev).extend hext
    · exact hes' ev hev
  leaders := by
    intro v hl
    rcases (Cluster.step_move (obeys_free c a) hstep).leads hl with
      ⟨hold, hterm⟩ | ⟨ev, hev, hwon⟩
    · rw [hterm]
      exact (h.leaders v hold).mono
    · exact ⟨ev, List.mem_append_right _ hev, hwon⟩
  spoken := (h.spoken.step h.leaders hsends (Cluster.step_cases hstep)).mono

end SpeakersTracked

theorem speakers_tracked {as : List (Action n Image)} {c : Cluster n Image}
    {es : List (Event n Image)}
    (hsends : Throughout Cluster.step Cluster.SendsAsLeader
      (Cluster.start n Image) as)
    (hrun : (Cluster.start n Image).run as = some (c, es)) :
    SpeakersTracked es c :=
  run_history (I := fun c es => SpeakersTracked es c)
    (fun _ _ _ _ _ hs hc hstep => hc.step hs hstep) hsends .start hrun

/-- From a tracked state on, no leader is deposed in its own term. -/
theorem leadersStay_of_run {as : List (Action n Image)}
    {c₁ c : Cluster n Image} {es₁ es : List (Event n Image)}
    (h₁ : SpeakersTracked es₁ c₁)
    (hsends : Throughout Cluster.step Cluster.SendsAsLeader c₁ as)
    (hrun : c₁.run as = some (c, es)) : Cluster.LeadersStay c₁ c := by
  have hkeep : SpeakersTracked (es₁ ++ es) c ∧
      Cluster.WhileRunning Raft.KeepsRole c₁ c := by
    refine run_induction (I := fun c es => SpeakersTracked es c ∧
      Cluster.WhileRunning Raft.KeepsRole c₁ c) ?_ hsends
      ⟨h₁, .refl Raft.KeepsRole.refl c₁⟩ hrun
    rintro c es a c' es' hsends ⟨hc, hkeep⟩ hstep
    exact ⟨hc.step hsends hstep, hkeep.trans
      (fun _ _ _ => Raft.KeepsRole.trans)
      ((hc.unopposed a).step (Cluster.step_cases hstep))⟩
  intro v hl hboots hterm
  exact ((hkeep.2 v).2 hboots).leader hl hterm

/-- In a run whose `leaderSendSnapShot` threads find their server leader,
every request comes from the winner of its term, and a leader stays leader
until its term goes up or it restarts. -/
theorem only_winner_speaks {as : List (Action n Image)} {c : Cluster n Image}
    {es : List (Event n Image)}
    (hsends : Throughout Cluster.step Cluster.SendsAsLeader
      (Cluster.start n Image) as)
    (hrun : (Cluster.start n Image).run as = some (c, es)) :
    c.WinnersSpeak es ∧
      ∀ as₁ as₂ c₁ es₁, as = as₁ ++ as₂ →
        (Cluster.start n Image).run as₁ = some (c₁, es₁) →
          Cluster.LeadersStay c₁ c := by
  refine ⟨(speakers_tracked hsends hrun).winnersSpeak, ?_⟩
  rintro as₁ as₂ c₁ es₁ rfl hfirst
  obtain ⟨c₂, es₂, es₃, hfirst', hrest, -⟩ := run_append_eq_some.mp hrun
  obtain ⟨rfl, -⟩ : c₁ = c₂ ∧ es₁ = es₂ := by
    simpa [hfirst] using hfirst'
  obtain ⟨hsends₁, hsends₂⟩ := (throughout_append hfirst).mp hsends
  exact leadersStay_of_run (speakers_tracked hsends₁ hfirst) hsends₂ hrest

namespace Cluster

/-- The leader of term 1 commits its first entry with server 2, hands it out,
compacts it away and starts a snapshot thread for server 1, whose reply it has
not seen. -/
def offeringRun : List (Action 3 Unit) :=
  [.doElection 0, .requestVote 0 1, .sendRequestVote 0 1, .doHeartBeat 0,
    .appendEntries 0 1, .appendEntries 0 2, .sendAppendEntries 0 2,
    .applierTicker 0, .snapshot 0 1 (some ()), .doHeartBeat 0]

/-- Server 1 wins term 2 and tells server 0 about it. -/
def succeedingRun : List (Action 3 Unit) :=
  offeringRun ++ [.doElection 1, .requestVote 1 2, .sendRequestVote 1 2,
    .doHeartBeat 1, .appendEntries 2 0]

end Cluster

theorem only_winner_speaks_offering :
    ∃ c es, (Cluster.start 3 Unit).run
        (Cluster.offeringRun ++ [.leaderSendSnapShot 1 1]) = some (c, es) ∧
      c.Speaks 0 1 ∧ c.WinnersSpeak es := by
  obtain ⟨c, es, hrun, hspeaks⟩ : ∃ c es, (Cluster.start 3 Unit).run
      (Cluster.offeringRun ++ [.leaderSendSnapShot 1 1]) = some (c, es) ∧
        c.Speaks 0 1 := by
    decide +kernel
  exact ⟨c, es, hrun, hspeaks,
    (only_winner_speaks (by decide +kernel) hrun).1⟩

/-- The snapshot thread of server 0 gets the lock in term 2.  Its request comes
from a follower and deposes the leader. -/
theorem follower_speaks :
    ∃ c₁ es₁ c es,
      (Cluster.start 3 Unit).run Cluster.succeedingRun = some (c₁, es₁) ∧
        (Cluster.start 3 Unit).run (Cluster.succeedingRun ++
          [.leaderSendSnapShot 1 1, .installSnapshot 1 1]) = some (c, es) ∧
        ¬c.WinnersSpeak es ∧ ¬Cluster.LeadersStay c₁ c := by
  obtain ⟨c₁, es₁, hrun₁, c, es, hrun, hspeaks, hwon, hstay⟩ : ∃ c₁ es₁,
      (Cluster.start 3 Unit).run Cluster.succeedingRun = some (c₁, es₁) ∧
        ∃ c es, (Cluster.start 3 Unit).run (Cluster.succeedingRun ++
            [.leaderSendSnapShot 1 1, .installSnapshot 1 1]) = some (c, es) ∧
          c.Speaks 0 2 ∧ ¬Won es 0 2 ∧ ¬Cluster.LeadersStay c₁ c := by
    decide +kernel
  exact ⟨c₁, es₁, c, es, hrun₁, hrun, fun h => hwon (h 0 2 hspeaks), hstay⟩

end KVRaftStorage
