import KVRaftStorage.Raft.Origins
import KVRaftStorage.Raft.Records

/-!
# Where handed out commands come from

Every command that is handed out, other than the no-op of a new leader, was
passed to `Start`, and no call of `Start` is handed out at two indices.  When
the protocol is kept, a command that is first passed to `Start` after another
one was handed out comes behind it.
-/

namespace KVRaftStorage

open Replication Transition

variable {n : ℕ} {Image : Type}

/-- The command is not the no-op of a new leader. -/
def Op.FromClient (x : Op) : Prop :=
  ∀ T, x ≠ Raft.noop T

instance (x : Op) : Decidable x.FromClient :=
  decidable_of_iff (x ≠ Raft.noop x.requestId.toNat) <| by
    constructor
    · rintro hne T rfl
      exact hne rfl
    · exact fun h => h _

/-! ## The record and the calls of `Start` -/

/-- The commands on record, no-ops apart, are those of different calls of
`Start`. -/
structure Submitted (as : List (Action n Image)) (minted : ℕ → ℕ → Option Op)
    (call : ℕ → ℕ → ℕ) : Prop where
  source : ∀ T i x, minted T i = some x → x.FromClient →
    ∃ v, as[call T i]? = some (.start v x)
  apart : ∀ T i x T' i' x', minted T i = some x → x.FromClient →
    minted T' i' = some x' → x'.FromClient → call T i = call T' i' →
      T = T' ∧ i = i'

namespace Submitted

variable {as : List (Action n Image)} {a : Action n Image}
  {minted minted' : ℕ → ℕ → Option Op} {call : ℕ → ℕ → ℕ}

theorem start : Submitted ([] : List (Action n Image)) (fun _ _ => none)
    fun _ _ => 0 :=
  ⟨by simp, by simp⟩

theorem call_lt (h : Submitted as minted call) {T i : ℕ} {x : Op}
    (hx : minted T i = some x) (hclient : x.FromClient) :
    call T i < as.length := by
  obtain ⟨v, hv⟩ := h.source T i x hx hclient
  exact (List.getElem?_eq_some_iff.mp hv).1

/-- A later run has the same calls. -/
theorem concat (h : Submitted as minted call) (a : Action n Image) :
    Submitted (as ++ [a]) minted call := by
  refine ⟨fun T i x hx hclient => ?_, h.apart⟩
  obtain ⟨v, hv⟩ := h.source T i x hx hclient
  exact ⟨v, by rw [List.getElem?_append_left (h.call_lt hx hclient), hv]⟩

/-- The last action is the call of what it appends. -/
theorem step (h : Submitted as minted call)
    (hfills : Recorded.Fills a minted minted') :
    ∃ call', Submitted (as ++ [a]) minted' call' := by
  rcases hfills with rfl | ⟨T₀, i₀, command, -, hcommand, rfl⟩
  · exact ⟨call, h.concat a⟩
  let call' : ℕ → ℕ → ℕ := fun T i =>
    if T = T₀ ∧ i = i₀ then as.length else call T i
  have hcall : ∀ T i x,
      (if T = T₀ ∧ i = i₀ then some command else minted T i) = some x →
      x.FromClient →
      (T = T₀ ∧ i = i₀ ∧ x = command ∧ call' T i = as.length) ∨
      (¬(T = T₀ ∧ i = i₀) ∧ minted T i = some x ∧
        call' T i = call T i) := by
    intro T i x hx hclient
    by_cases hplace : T = T₀ ∧ i = i₀
    · rw [if_pos hplace] at hx
      exact .inl ⟨hplace.1, hplace.2, (Option.some.inj hx).symm,
        if_pos hplace⟩
    · rw [if_neg hplace] at hx
      exact .inr ⟨hplace, hx, if_neg hplace⟩
  refine ⟨call', fun T i x hx hclient => ?_, ?_⟩
  · rcases hcall T i x hx hclient with ⟨-, -, rfl, hnew⟩ | ⟨-, hold, hsame⟩
    · rcases hcommand with ⟨U, rfl⟩ | ⟨v, rfl⟩
      · exact absurd rfl (hclient U)
      · exact ⟨v, by rw [hnew]; simp⟩
    · rw [hsame]
      exact (h.concat a).source T i x hold hclient
  · intro T i x T' i' x' hx hclient hx' hclient' heq
    rcases hcall T i x hx hclient with
      ⟨rfl, rfl, -, hnew⟩ | ⟨-, hold, hsame⟩ <;>
      rcases hcall T' i' x' hx' hclient' with
        ⟨rfl, rfl, -, hnew'⟩ | ⟨-, hold', hsame'⟩
    · exact ⟨rfl, rfl⟩
    · have := h.call_lt hold' hclient'
      omega
    · have := h.call_lt hold hclient
      omega
    · exact h.apart T i x T' i' x' hold hclient hold' hclient'
        (hsame.symm.trans (heq.trans hsame'))

end Submitted

/-! ## What a step announces -/

namespace Cluster

variable {c c' : Cluster n Image} {a : Action n Image}
  {es : List (Event n Image)}

/-- What the events of a step say about commits and handed out entries. -/
inductive Announces (c c' : Cluster n Image) (es : List (Event n Image)) :
    Prop where
  | silent (h : ∀ ev ∈ es, ev.advanced? = none ∧ ev.handedOut? = none)
  | commits (s : Fin n) (hlog : (c.nodes s).SameLog (c'.nodes s))
      (h : es = [.advanced s (c'.nodes s)])
  | handsOut (s : Fin n) {r : Raft n Image} {msgs : List (ℕ × Op)}
      (hout : (c.nodes s).getApplyLogs = .ok (r, msgs))
      (h : es = msgs.map fun m => .handedOut s m.1 m.2)

theorem Announces.of_result {result : Cluster n Image × List (Event n Image)}
    (h : some result = some (c', es))
    (hsilent : ∀ ev ∈ result.2, ev.advanced? = none ∧ ev.handedOut? = none) :
    Announces c c' es := by
  obtain rfl : result.2 = es := congrArg Prod.snd (Option.some.inj h)
  exact .silent hsilent

theorem step_announces (h : c.step a = some (c', es)) :
    Announces c c' es := by
  cases a with
  | sendAppendEntries k i =>
      obtain ⟨round, -, h⟩ := Option.bind_eq_some_iff.mp h
      split at h
      · split at h
        · have h := Option.some.inj h
          unfold sendAppendEntries at h
          simp only at h
          split at h
          · obtain ⟨-, rfl⟩ : _ ∧ [] = es := by simpa using h
            exact .silent (by simp)
          · next hsend =>
              obtain ⟨rfl, rfl⟩ : _ = c' ∧ _ = es := by simpa using h
              split
              · refine .commits round.leader ?_ (by simp [setNode])
                simp only [setNode, Function.update_self]
                rcases Raft.sendAppendEntries_eq_ok hsend with
                  ⟨hquiet, -, -⟩ | htallies
                · exact hquiet.log
                · exact htallies.sameLog
              · exact .silent (by simp)
        · simp at h
      · simp at h
  | applierTicker s =>
      have h := Option.some.inj h
      unfold applierTicker at h
      split at h
      · obtain ⟨-, rfl⟩ : _ ∧ [] = es := by simpa using h
        exact .silent (by simp)
      · next r msgs hout =>
          obtain ⟨-, rfl⟩ : _ ∧ _ = es := by simpa using h
          exact .handsOut s hout rfl
  -- the other actions announce neither
  | doElection s =>
      refine .of_result h ?_
      unfold doElection
      split <;> simp [Event.advanced?, Event.handedOut?]
  | requestVote e i =>
      obtain ⟨election, -, h⟩ := Option.bind_eq_some_iff.mp h
      split at h
      · refine .of_result h ?_
        unfold requestVote
        split
        · simp
        · split <;> simp [Event.advanced?, Event.handedOut?]
      · simp at h
  | sendRequestVote e i =>
      obtain ⟨election, -, h⟩ := Option.bind_eq_some_iff.mp h
      split at h
      · split at h
        · refine .of_result h ?_
          unfold sendRequestVote
          simp only
          split
          · simp
          · split <;> simp [Event.advanced?, Event.handedOut?]
        · simp at h
      · simp at h
  | start s command => exact .of_result h (by simp)
  | doHeartBeat s =>
      refine .of_result h ?_
      unfold doHeartBeat
      simp only
      split
      · simp
      · split <;> simp
  | appendEntries k i =>
      obtain ⟨round, -, h⟩ := Option.bind_eq_some_iff.mp h
      split at h
      · exact .of_result h (by unfold appendEntries; split <;> simp)
      · simp at h
  | leaderSendSnapShot k i =>
      obtain ⟨round, -, h⟩ := Option.bind_eq_some_iff.mp h
      split at h
      · split at h
        · exact .of_result h (by simp)
        · simp at h
      · simp at h
  | installSnapshot k i =>
      obtain ⟨round, -, h⟩ := Option.bind_eq_some_iff.mp h
      split at h
      · exact .of_result h (by unfold installSnapshot; split <;> simp)
      · simp at h
  | installSnapshotCrash k i =>
      obtain ⟨round, -, h⟩ := Option.bind_eq_some_iff.mp h
      split at h
      · split at h
        · simp at h
        · exact .of_result h (by simp)
      · simp at h
  | snapShotSent k i =>
      obtain ⟨round, -, h⟩ := Option.bind_eq_some_iff.mp h
      split at h
      · split at h
        · exact .of_result h (by simp)
        · simp at h
      · simp at h
  | snapshot s index image =>
      simp only [step] at h
      split at h <;> exact .of_result h (by simp)
  | readIndex s =>
      exact .of_result h (by unfold readIndex; split <;> simp)
  | readIndexSend q i =>
      obtain ⟨read, -, h⟩ := Option.bind_eq_some_iff.mp h
      split at h
      · split at h
        · exact .of_result h (by unfold readIndexSend; split <;> simp)
        · simp at h
      · simp at h
  | readAppendEntries q i =>
      obtain ⟨read, -, h⟩ := Option.bind_eq_some_iff.mp h
      split at h
      · exact .of_result h (by unfold readAppendEntries; split <;> simp)
      · simp at h
  | readIndexReply q i =>
      obtain ⟨read, -, h⟩ := Option.bind_eq_some_iff.mp h
      split at h
      · split at h
        · exact .of_result h (by simp [readIndexReply])
        · simp at h
      · simp at h
  | readIndexReturn q =>
      obtain ⟨read, -, h⟩ := Option.bind_eq_some_iff.mp h
      split at h
      · refine .of_result h ?_
        unfold readIndexReturn
        simp only
        split <;> simp [Event.advanced?, Event.handedOut?]
      · simp at h
  | restart s => exact .of_result h (by simp)

/-- What a step hands out lies in a log. -/
theorem Ordered.handedOut_entry (h : c.Ordered)
    (hstep : c.step a = some (c', es)) {v : Fin n} {i : ℕ} {x : Op}
    (hmem : .handedOut v i x ∈ es) :
    0 < i ∧ i ≤ (c.nodes v).commitIndex ∧ ∃ entry ∈ (c.nodes v).logs,
      entry.logIndex = i ∧ entry.command = x := by
  cases step_announces hstep with
  | silent hsilent => simpa [Event.handedOut?] using (hsilent _ hmem).2
  | commits s _ hes => simp [hes] at hmem
  | @handsOut s r msgs hout hes =>
      subst hes
      obtain ⟨m, hm, heq⟩ := List.mem_map.mp hmem
      obtain ⟨rfl, rfl, rfl⟩ : s = v ∧ m.1 = i ∧ m.2 = x := by
        simpa using heq
      obtain ⟨hle, entry, hentry, hcommand⟩ :=
        (Raft.getApplyLogs_eq_ok hout).2 m hm
      obtain ⟨hlt, -, hget⟩ := Raft.entryAt_eq_ok hentry
      obtain ⟨hindex, hlog⟩ :=
        Raft.entryAt?_logIndex (h.nodes s).consecutive hget
      exact ⟨by omega, hle, entry, hlog, hindex, hcommand⟩

end Cluster

/-! ## Handed out once -/

/-- Everything that was handed out is on record. -/
def HandedOnRecord (minted : ℕ → ℕ → Option Op) (es : List (Event n Image)) :
    Prop :=
  ∀ v i x, .handedOut v i x ∈ es → ∃ T, minted T i = some x

theorem HandedOnRecord.step {B : Ballots (Fin n)}
    {minted minted' : ℕ → ℕ → Option Op} {c c' : Cluster n Image}
    {a : Action n Image} {es es' : List (Event n Image)}
    (h : HandedOnRecord minted es) (hc : Recorded B minted c)
    (hmints : Recorded.Mints minted minted' c')
    (hstep : c.step a = some (c', es')) :
    HandedOnRecord minted' (es ++ es') := by
  intro v i x hmem
  rcases List.mem_append.mp hmem with hmem | hmem
  · obtain ⟨T, hT⟩ := h v i x hmem
    exact ⟨T, hmints.grows T i x hT⟩
  · obtain ⟨-, -, entry, hentry, rfl, rfl⟩ :=
      hc.ordered.handedOut_entry hstep hmem
    exact ⟨_, hmints.grows _ _ _ ((hc.nodes v).written entry hentry)⟩

theorem submitted_along {as : List (Action n Image)} {c : Cluster n Image}
    {es : List (Event n Image)}
    (hrun : (Cluster.start n Image).run as = some (c, es)) :
    ∃ B minted call, Recorded B minted c ∧ Submitted as minted call ∧
      HandedOnRecord minted es := by
  refine run_trace (I := fun as c es => ∃ B minted call, Recorded B minted c ∧
    Submitted as minted call ∧ HandedOnRecord minted es)
    ⟨_, _, _, .start, .start, by simp [HandedOnRecord]⟩ ?_
    (throughout_true _ as) hrun
  rintro as c es a c' es' - - ⟨B, minted, call, hc, hcalls, hes⟩ hstep
  obtain ⟨B', minted', hc', -, -, hmints, hfills⟩ := hc.step hstep
  obtain ⟨call', hcalls'⟩ := hcalls.step hfills
  exact ⟨B', minted', call', hc', hcalls', hes.step hc hmints hstep⟩

/-- In every run each command that is handed out and is no no-op has a call of
`Start` of its own. -/
theorem handed_out_once {as : List (Action n Image)} {c : Cluster n Image}
    {es : List (Event n Image)}
    (hrun : (Cluster.start n Image).run as = some (c, es)) :
    ∃ call : ℕ → Op → ℕ,
      (∀ v i x, .handedOut v i x ∈ es → x.FromClient →
        ∃ s, as[call i x]? = some (.start s x)) ∧
      ∀ v i x v' i' x', .handedOut v i x ∈ es → x.FromClient →
        .handedOut v' i' x' ∈ es → x'.FromClient →
        call i x = call i' x' → i = i' ∧ x = x' := by
  obtain ⟨B, minted, call, -, hcalls, hes⟩ := submitted_along hrun
  have hterm : ∀ i x, ∃ T, (∃ U, minted U i = some x) →
      minted T i = some x := by
    intro i x
    by_cases h : ∃ U, minted U i = some x
    · exact ⟨h.choose, fun _ => h.choose_spec⟩
    · exact ⟨0, fun h' => absurd h' h⟩
  choose term hterm using hterm
  refine ⟨fun i x => call (term i x) i, ?_, ?_⟩
  · intro v i x hmem hclient
    exact hcalls.source _ i x (hterm i x (hes v i x hmem)) hclient
  · intro v i x v' i' x' hmem hclient hmem' hclient' heq
    have hx := hterm i x (hes v i x hmem)
    have hx' := hterm i' x' (hes v' i' x' hmem')
    obtain ⟨hT, rfl⟩ := hcalls.apart _ i x _ i' x' hx hclient hx' hclient' heq
    rw [← hT, hx] at hx'
    exact ⟨rfl, Option.some.inj hx'⟩

/-- A command of a client, started twice, goes through twice. -/
def Cluster.twiceRun (x : Op) : List (Action 3 Unit) :=
  replicatedRun ++ [.start 0 x, .start 0 x, .doHeartBeat 0, .appendEntries 2 1,
    .sendAppendEntries 2 1, .applierTicker 0]

/-- A request of a client. -/
def Op.request (clientId : String) (requestId : ℤ) : Op :=
  { Raft.noop 0 with
    operation := "Put", clientId := clientId, requestId := requestId }

theorem handed_out_once_twice :
    ∃ c es v w, ∃ call : ℕ → Op → ℕ,
      (Cluster.start 3 Unit).run (Cluster.twiceRun (.request "a" 1)) =
        some (c, es) ∧
      .handedOut v 2 (.request "a" 1) ∈ es ∧
      .handedOut w 3 (.request "a" 1) ∈ es ∧
      (∃ s, (Cluster.twiceRun (.request "a" 1))[call 2 (.request "a" 1)]? =
        some (.start s (.request "a" 1))) ∧
      call 2 (.request "a" 1) ≠ call 3 (.request "a" 1) := by
  obtain ⟨c, es, hrun, h₂, h₃⟩ : ∃ c es,
      (Cluster.start 3 Unit).run (Cluster.twiceRun (.request "a" 1)) =
        some (c, es) ∧
      (2, .request "a" 1) ∈ es.filterMap Event.handedOut? ∧
      (3, .request "a" 1) ∈ es.filterMap Event.handedOut? := by
    decide +kernel
  obtain ⟨ev, hv, hout⟩ := List.mem_filterMap.mp h₂
  obtain ⟨v, rfl⟩ := Event.mem_handedOut?.mp hout
  obtain ⟨ev, hw, hout⟩ := List.mem_filterMap.mp h₃
  obtain ⟨w, rfl⟩ := Event.mem_handedOut?.mp hout
  have hclient : (Op.request "a" 1).FromClient := by decide
  obtain ⟨call, hsource, hapart⟩ := handed_out_once hrun
  refine ⟨c, es, v, w, call, hrun, hv, hw, hsource v 2 _ hv hclient,
    fun heq => ?_⟩
  have := (hapart v 2 _ w 3 _ hv hclient hw hclient heq).1
  omega

/-! ## Real-time order -/

/-- The committed entries `p` are on record, and nobody knows of more. -/
structure Settled (G : Ledger (Fin n) LogEntry) (minted : ℕ → ℕ → Option Op)
    (c : Cluster n Image) (es : List (Event n Image)) (p : List LogEntry) :
    Prop where
  committed : ∃ T, G.CommittedBy T p
  written : ∀ e ∈ p, e.Written minted
  within : c.CommitsWithin p.length
  handed : ∀ v i x, .handedOut v i x ∈ es → i ≤ p.length

theorem Raft.CommitsWithin.mono {r : Raft n Image} {k k' : ℕ}
    (h : r.CommitsWithin k) (hk : k ≤ k') : r.CommitsWithin k' :=
  ⟨h.commit.trans hk, h.boundary.trans hk, h.disk.trans hk⟩

theorem Cluster.CommitsWithin.mono {c : Cluster n Image} {k k' : ℕ}
    (h : c.CommitsWithin k) (hk : k ≤ k') : c.CommitsWithin k' where
  nodes := fun v => (h.nodes v).mono hk
  rounds := by
    intro round hmem i
    have hthread := h.rounds round hmem i
    generalize round.threads i = thread at hthread ⊢
    cases thread with
    | append args call => exact Nat.le_trans hthread hk
    | snapshot args call => exact Nat.le_trans hthread hk
    | idle | waiting => trivial
  reads := by
    intro read hmem i
    have hthread := h.reads read hmem i
    generalize read.threads i = thread at hthread ⊢
    cases thread with
    | append args call => exact Nat.le_trans hthread hk
    | waiting | done => trivial

namespace Settled

variable {G G' : Ledger (Fin n) LogEntry} {B : Ballots (Fin n)}
  {minted minted' : ℕ → ℕ → Option Op} {c c' : Cluster n Image}
  {a : Action n Image} {es es' : List (Event n Image)} {p : List LogEntry}

/-- What a leader has committed is on record. -/
theorem written_of_advanced (h : Settled G minted c es p)
    (hext : G.Extends G') (hG' : Tracked G' c')
    (hc' : Recorded B minted' c')
    (hmints : Recorded.Mints minted minted' c') {s : Fin n}
    (hlog : (c.nodes s).SameLog (c'.nodes s)) {l p' : List LogEntry}
    (hholds : (c'.nodes s).Holds l) (hp' : p' <+: l)
    (hdecided : G'.Decided p') : ∀ e ∈ p', e.Written minted' := by
  obtain ⟨T, hp⟩ := h.committed
  have hcommitted : G'.CommittedBy (lastTerm p') p' :=
    .inr ⟨p', hdecided, le_rfl, List.prefix_rfl⟩
  have hboundary : (c'.nodes s).lastSnapshotIncludeIndex ≤ p.length :=
    hlog.index ▸ (h.within.nodes s).boundary
  intro e he
  rw [← List.take_append_drop (c'.nodes s).lastSnapshotIncludeIndex p',
    List.mem_append] at he
  rcases he with hhidden | hvisible
  · -- what lies behind the boundary was committed before
    have hpart : p'.take (c'.nodes s).lastSnapshotIncludeIndex <+: p :=
      hG'.commits.complete.committed_prefix_of_le
        (hcommitted.of_isPrefix (List.take_prefix _ _)) (hp.extend hext)
        ((List.length_take_le _ _).trans hboundary)
    exact hmints.written (h.written e (hpart.subset hhidden))
  · refine (hc'.nodes s).written e ?_
    rw [hholds.logs]
    exact (hp'.drop _).subset hvisible

theorem step (h : Settled G minted c es p) (hG : Tracked G c)
    (hc : Recorded B minted c) (hprotocol : c.FollowsProtocol a)
    (hstep : c.step a = some (c', es')) :
    ∃ G' B' minted' p', Settled G' minted' c' (es ++ es') p' ∧
      Tracked G' c' ∧ Recorded B' minted' c' ∧
      Recorded.Fills a minted minted' := by
  have hmove := Cluster.step_move (obeys_protocol hprotocol) hstep
  obtain ⟨G', hext, hG', hes'⟩ := hmove.tracked hG
  obtain ⟨B', minted', hc', -, -, hmints, hfills⟩ := hc.step hstep
  obtain ⟨T, hp⟩ := h.committed
  -- nothing is committed behind `p`
  have hkeep : CoversCommits es' p.length →
      (∀ v i x, .handedOut v i x ∈ es' → i ≤ p.length) →
      ∃ p', Settled G' minted' c' (es ++ es') p' := by
    intro hcovers hhanded
    refine ⟨p, ⟨T, hp.extend hext⟩, fun e he => hmints.written (h.written e he),
      hmove.commitsWithin hcovers h.within, fun v i x hmem => ?_⟩
    rcases List.mem_append.mp hmem with hmem | hmem
    · exact h.handed v i x hmem
    · exact hhanded v i x hmem
  suffices hsettled : ∃ p', Settled G' minted' c' (es ++ es') p' by
    obtain ⟨p', hp'⟩ := hsettled
    exact ⟨G', B', minted', p', hp', hG', hc', hfills⟩
  cases Cluster.step_announces hstep with
  | silent hsilent =>
      refine hkeep (fun s r hmem => ?_) (fun v i x hmem => ?_)
      · simpa [Event.advanced?] using (hsilent _ hmem).1
      · simpa [Event.handedOut?] using (hsilent _ hmem).2
  | handsOut s hout hes =>
      refine hkeep (fun s r hmem => by simp [hes] at hmem)
        (fun v i x hmem => ?_)
      exact (hc.ordered.handedOut_entry hstep hmem).2.1.trans
        (h.within.nodes v).commit
  | commits s hlog hes =>
      by_cases hle : (c'.nodes s).commitIndex ≤ p.length
      · refine hkeep (fun u r hmem => ?_) (by simp [hes])
        obtain ⟨rfl, rfl⟩ : u = s ∧ r = c'.nodes s := by
          simpa [hes] using hmem
        exact hle
      · obtain ⟨l, p', hholds, hp', hdecided, -, hlen⟩ :=
          hes' (.advanced s (c'.nodes s)) (by simp [hes])
        have hgrows : p.length ≤ p'.length := by omega
        refine ⟨p', ⟨_, .inr ⟨p', hdecided, le_rfl, List.prefix_rfl⟩⟩,
          h.written_of_advanced hext hG' hc' hmints hlog hholds hp' hdecided,
          hmove.commitsWithin (fun u r hmem => ?_) (h.within.mono hgrows),
          fun v i x hmem => ?_⟩
        · obtain ⟨rfl, rfl⟩ : u = s ∧ r = c'.nodes s := by
            simpa [hes] using hmem
          exact hlen.ge
        · have hmem : .handedOut v i x ∈ es := by simpa [hes] using hmem
          exact (h.handed v i x hmem).trans hgrows

end Settled

theorem settled_along {as : List (Action n Image)} {c : Cluster n Image}
    {es : List (Event n Image)}
    (hprotocol : Throughout Cluster.step Cluster.FollowsProtocol
      (Cluster.start n Image) as)
    (hrun : (Cluster.start n Image).run as = some (c, es)) :
    ∃ G minted call p, Settled G minted c es p ∧ Tracked G c ∧
      Submitted as minted call := by
  have hsettled : ∃ G B minted call p, Settled G minted c es p ∧ Tracked G c ∧
      Recorded B minted c ∧ Submitted as minted call := by
    refine run_trace (I := fun as c es => ∃ G B minted call p,
      Settled G minted c es p ∧ Tracked G c ∧ Recorded B minted c ∧
        Submitted as minted call)
      ⟨_, _, _, _, [], ⟨⟨0, .inl rfl⟩, by simp, .start, by simp⟩, .start,
        .start, .start⟩ ?_ hprotocol hrun
    rintro as c es a c' es' hprotocol - ⟨G, B, minted, call, p, hp, hG, hc,
      hcalls⟩ hstep
    obtain ⟨G', B', minted', p', hp', hG', hc', hfills⟩ :=
      hp.step hG hc hprotocol hstep
    obtain ⟨call', hcalls'⟩ := hcalls.step hfills
    exact ⟨G', B', minted', call', p', hp', hG', hc', hcalls'⟩
  obtain ⟨G, -, minted, call, p, hp, hG, -, hcalls⟩ := hsettled
  exact ⟨G, minted, call, p, hp, hG, hcalls⟩

/-- The leaders' commits bound what is handed out. -/
theorem handedOut_le {as : List (Action n Image)} {c : Cluster n Image}
    {es : List (Event n Image)} {k : ℕ}
    (hrun : (Cluster.start n Image).run as = some (c, es))
    (hes : CoversCommits es k) {v : Fin n} {i : ℕ} {x : Op}
    (hmem : .handedOut v i x ∈ es) : 0 < i ∧ i ≤ k := by
  refine run_trace (I := fun _ _ es => CoversCommits es k → ∀ v i x,
    .handedOut v i x ∈ es → 0 < i ∧ i ≤ k) (by simp) ?_ (throughout_true _ as)
    hrun hes v i x hmem
  intro as c es a c' es' _ hrun hI hstep hes v i x hmem
  have hbefore : CoversCommits es k :=
    fun s r hmem => hes s r (List.mem_append_left _ hmem)
  rcases List.mem_append.mp hmem with hmem | hmem
  · exact hI hbefore v i x hmem
  · obtain ⟨hpos, hle, -⟩ := (ordered_of_run hrun).handedOut_entry hstep hmem
    exact ⟨hpos, hle.trans ((commits_of_leaders hrun hbefore).1.nodes v).commit⟩

/-- From a state on the record, the record is only extended. -/
theorem tracked_from {G : Ledger (Fin n) LogEntry} {c c' : Cluster n Image}
    {as : List (Action n Image)} {es : List (Event n Image)} (hG : Tracked G c)
    (hprotocol : Throughout Cluster.step Cluster.FollowsProtocol c as)
    (hrun : c.run as = some (c', es)) :
    ∃ G' : Ledger (Fin n) LogEntry, G.Extends G' ∧ Tracked G' c' ∧
      ∀ e ∈ es, EventCommits G' e := by
  refine run_history (I := fun c es => ∃ G' : Ledger (Fin n) LogEntry,
    G.Extends G' ∧ Tracked G' c ∧ ∀ e ∈ es, EventCommits G' e) ?_ hprotocol
    ⟨G, .refl G, hG, by simp⟩ hrun
  rintro c es a c' es' hprotocol ⟨G₁, hext₁, hG₁, hes⟩ hstep
  obtain ⟨G₂, hext₂, hG₂, hes'⟩ :=
    (Cluster.step_move (obeys_protocol hprotocol) hstep).tracked hG₁
  refine ⟨G₂, hext₁.trans hext₂, hG₂, fun e he => ?_⟩
  rcases List.mem_append.mp he with he | he
  · exact (hes e he).extend hext₂
  · exact hes' e he

/-- A command that is handed out later, but not behind what was handed out
before, was passed to `Start` before. -/
theorem started_before {as₁ as₂ : List (Action n Image)}
    {c₁ c₂ : Cluster n Image} {es₁ es₂ : List (Event n Image)} {v w : Fin n}
    {i j : ℕ} {x y : Op}
    (hprotocol : Throughout Cluster.step Cluster.FollowsProtocol
      (Cluster.start n Image) (as₁ ++ as₂))
    (hbefore : (Cluster.start n Image).run as₁ = some (c₁, es₁))
    (hafter : c₁.run as₂ = some (c₂, es₂))
    (hx : .handedOut v i x ∈ es₁) (hy : .handedOut w j y ∈ es₂)
    (hclient : y.FromClient) (hle : j ≤ i) : ∃ s, .start s y ∈ as₁ := by
  obtain ⟨hprotocol₁, hprotocol₂⟩ := (throughout_append hbefore).mp hprotocol
  obtain ⟨G, minted, call, p, hp, hG, hcalls⟩ :=
    settled_along hprotocol₁ hbefore
  obtain ⟨G', hext, hG', hes⟩ := tracked_from hG hprotocol₂ hafter
  obtain ⟨T, hcommitted⟩ := hp.committed
  obtain ⟨q, e, U, hq, rfl, rfl⟩ := hes _ hy
  have hi := hp.handed v i x hx
  have hpart : q ++ [e] <+: p :=
    hG'.commits.complete.committed_prefix_of_le hq (hcommitted.extend hext)
      (by simp; omega)
  have hwritten := hp.written e (hpart.subset (by simp))
  obtain ⟨s, hs⟩ := hcalls.source _ _ _ hwritten hclient
  exact ⟨s, List.mem_of_getElem? hs⟩

/-- A command that is first passed to `Start` after another one was handed out
comes behind it, in every run whose steps keep the protocol. -/
theorem real_time_order {as₁ as₂ : List (Action n Image)}
    {c₁ c₂ : Cluster n Image} {es₁ es₂ : List (Event n Image)} {v w : Fin n}
    {i j : ℕ} {x y : Op}
    (hprotocol : Throughout Cluster.step Cluster.FollowsProtocol
      (Cluster.start n Image) (as₁ ++ as₂))
    (hbefore : (Cluster.start n Image).run as₁ = some (c₁, es₁))
    (hafter : c₁.run as₂ = some (c₂, es₂))
    (hx : .handedOut v i x ∈ es₁) (hy : .handedOut w j y ∈ es₂)
    (hclient : y.FromClient) (hnew : ∀ s, .start s y ∉ as₁) : i < j := by
  by_contra hle
  obtain ⟨s, hs⟩ := started_before hprotocol hbefore hafter hx hy hclient
    (Nat.le_of_not_lt hle)
  exact hnew s hs

/-- Server 1 takes over after the first commands have been handed out. -/
def Cluster.laterRun (x : Op) : List (Action 3 Unit) :=
  [.doElection 1, .requestVote 1 2, .sendRequestVote 1 2, .start 1 x,
    .doHeartBeat 1, .appendEntries 3 0, .sendAppendEntries 3 0,
    .applierTicker 1]

theorem real_time_order_later :
    ∃ c₁ c₂ es₁ es₂ v w,
      (Cluster.start 3 Unit).run (Cluster.twiceRun (.request "a" 1)) =
        some (c₁, es₁) ∧
      c₁.run (Cluster.laterRun (.request "b" 1)) = some (c₂, es₂) ∧
      .handedOut v 3 (.request "a" 1) ∈ es₁ ∧
      .handedOut w 5 (.request "b" 1) ∈ es₂ ∧ 3 < 5 := by
  obtain ⟨c₁, es₁, hbefore, c₂, es₂, hafter, h₃, h₅⟩ : ∃ c₁ es₁,
      (Cluster.start 3 Unit).run (Cluster.twiceRun (.request "a" 1)) =
        some (c₁, es₁) ∧ ∃ c₂ es₂,
      c₁.run (Cluster.laterRun (.request "b" 1)) = some (c₂, es₂) ∧
        (3, .request "a" 1) ∈ es₁.filterMap Event.handedOut? ∧
        (5, .request "b" 1) ∈ es₂.filterMap Event.handedOut? := by
    decide +kernel
  obtain ⟨ev, hv, hout⟩ := List.mem_filterMap.mp h₃
  obtain ⟨v, rfl⟩ := Event.mem_handedOut?.mp hout
  obtain ⟨ev, hw, hout⟩ := List.mem_filterMap.mp h₅
  obtain ⟨w, rfl⟩ := Event.mem_handedOut?.mp hout
  have hnew : ∀ s, .start s (.request "b" 1) ∉
      Cluster.twiceRun (.request "a" 1) := by
    simp [Cluster.twiceRun, Cluster.replicatedRun, Op.request]
  exact ⟨c₁, c₂, es₁, es₂, v, w, hbefore, hafter, hv, hw,
    real_time_order (by decide +kernel) hbefore hafter hv hw (by decide) hnew⟩

end KVRaftStorage
