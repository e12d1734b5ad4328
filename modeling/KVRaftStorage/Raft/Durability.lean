import KVRaftStorage.Raft.Moves

/-!
# Durability of the persistent state

Restarting a node on its disk gives back its term, vote, log and snapshot
boundary.  Every handler keeps this except `sendAppendEntries` when it takes
over a larger term.
-/

namespace KVRaftStorage

open Transition

variable {n : ℕ} {Image : Type}

namespace Cluster

/-- Running `init` on what each persister stores yields the persistent state
in memory. -/
def Durable (c : Cluster n Image) : Prop :=
  ∀ v, (Raft.init v (c.nodes v).persister).persistData =
    (c.nodes v).persistData

theorem durable_iff_stored {c : Cluster n Image} :
    c.Durable ↔ ∀ v, (c.nodes v).Stored := by
  simp only [Durable, Raft.persistData_init, Raft.Stored]

theorem durable_start : (start n Image).Durable :=
  durable_iff_stored.mpr fun v => Raft.stored_init v _

theorem Durable.setNode {c : Cluster n Image} (h : c.Durable) {v : Fin n}
    {r : Raft n Image} (hr : r.Stored) : (c.setNode v r).Durable := by
  rw [durable_iff_stored] at h ⊢
  intro u
  by_cases hu : u = v
  · subst hu
    simpa [Cluster.setNode] using hr
  · simpa [Cluster.setNode, hu] using h u

theorem Durable.of_nodes {c c' : Cluster n Image} (h : c.Durable)
    (hnodes : c'.nodes = c.nodes) : c'.Durable := by
  rw [Durable, hnodes]
  exact h

end Cluster

open Cluster

/-- The discipline under which no larger term is taken over unstored. -/
def Discipline.storing : Discipline n Image :=
  ⟨fun _ _ => True, fun _ _ => True, fun _ _ => False⟩

theorem Move.durable {c c' : Cluster n Image} {es : List (Event n Image)}
    (h : Move .storing c c' es) (hc : c.Durable) : c'.Durable := by
  induction h with
  | trans _ _ ih₁ ih₂ => exact ih₂ (ih₁ hc)
  | settle hs => exact hc.of_nodes hs.nodes
  | quiet v r' _ hsaved =>
      rcases hsaved with hsaved | ⟨reply, hdown⟩
      · exact hc.setNode (hsaved.stored (durable_iff_stored.mp hc v))
      · exact hdown.elim
  | restart v p _ => exact hc.setNode (Raft.stored_init v p)
  | candidacy v r' args h =>
      exact (hc.setNode (Raft.doElection_eq_some h).1).of_nodes rfl
  | grant e election i r' reply _ _ h =>
      exact (hc.setNode h.stored).of_nodes rfl
  | count => exact hc.of_nodes rfl
  | win e election i r' reply _ _ h =>
      exact (hc.setNode (h.eq ▸ Raft.stored_persist _)).of_nodes rfl
  | extend v command _ => exact hc.setNode (Raft.stored_persist _)
  | heartbeat => exact hc.of_nodes rfl
  | acceptRound k round i args r' reply _ _ _ h =>
      exact (hc.setNode h.stored).of_nodes rfl
  | acceptRead q read i args r' reply _ _ _ h =>
      exact (hc.setNode h.stored).of_nodes rfl
  | tally k round i args reply r' appendNums _ _ h =>
      have hsaved : Raft.Saved _ r' :=
        .inr ⟨congrArg Persister.raftState h.disk, h.data⟩
      exact (hc.setNode (hsaved.stored
        (durable_iff_stored.mp hc round.leader))).of_nodes rfl
  | offer => exact hc.of_nodes rfl
  | install k round i args r' _ _ _ h => exact hc.setNode h.stored
  | compact v index r' h => exact hc.setNode h.stored
  | handOut v r' msgs h =>
      rw [(Raft.getApplyLogs_eq_ok h).1]
      exact hc.setNode (durable_iff_stored.mp hc v)
  | beginRead => exact hc.of_nodes rfl
  | sendRead => exact hc.of_nodes rfl
  | confirm => exact hc.of_nodes rfl
  | returnRead => exact hc.of_nodes rfl

theorem durable_step {c c' : Cluster n Image} {a : Action n Image}
    {es : List (Event n Image)} (hterms : c.StoresTerms a) (hc : c.Durable)
    (hstep : c.step a = some (c', es)) : c'.Durable :=
  (step_move ⟨fun _ _ => trivial, fun _ _ => trivial,
    fun m hm hdown => hterms m hm hdown⟩ hstep).durable hc

/-- The branch that takes over a larger term leaves the old one on disk. -/
theorem not_durable_of_stepsDown {c c' : Cluster n Image} {a : Action n Image}
    {es : List (Event n Image)} (hterms : ¬c.StoresTerms a) (hc : c.Durable)
    (hstep : c.step a = some (c', es)) : ¬c'.Durable := by
  simp only [StoresTerms, not_forall, not_not] at hterms
  obtain ⟨m, hm, happ, hlt⟩ := hterms
  cases a with
  | sendAppendEntries k i =>
      obtain ⟨round, hr, hstep⟩ := Option.bind_eq_some_iff.mp hstep
      obtain ⟨round', hr', hm⟩ := Option.bind_eq_some_iff.mp hm
      obtain rfl : round = round' := Option.some.inj (hr.symm.trans hr')
      split at hm
      · next args reply hthread =>
          obtain rfl : (round.leader, reply) = m := Option.some.inj hm
          simp only [hthread] at hstep
          split at hstep
          · have hfollow : (c.nodes round.leader).sendAppendEntries i args reply
                round.appendNums =
                .ok ((c.nodes round.leader).followTerm reply.term,
                  round.appendNums) := by
              rw [Raft.sendAppendEntries, if_neg happ, if_pos hlt]
            simp only [sendAppendEntries, hfollow] at hstep
            obtain ⟨rfl, -⟩ : _ = c' ∧ _ = es := by simpa using hstep
            intro hafter
            have hold := durable_iff_stored.mp hc round.leader
            have hnew := durable_iff_stored.mp hafter round.leader
            simp only [setNode, Function.update_self] at hnew
            have hterm : (c.nodes round.leader).currentTerm = reply.term :=
              congrArg RaftState.currentTerm (hold.symm.trans hnew)
            simp only at hlt
            omega
          · simp at hstep
      · simp at hm
  | _ => simp [appendReply?] at hm

/-- Exactly the runs that never take over a larger term in
`sendAppendEntries` keep the disk and the memory in step in every state they
reach. -/
theorem durable_along_iff {as : List (Action n Image)} {c : Cluster n Image}
    {es : List (Event n Image)}
    (hrun : (start n Image).run as = some (c, es)) :
    (∀ as₁ as₂ c₁ es₁, as = as₁ ++ as₂ →
        (start n Image).run as₁ = some (c₁, es₁) → c₁.Durable) ↔
      Throughout step StoresTerms (start n Image) as :=
  (throughout_iff_along (fun _ hc => hc)
    (fun _ _ _ _ ht hc hs => durable_step ht hc hs)
    (fun _ _ _ _ ht hc hs => not_durable_of_stepsDown ht hc hs)
    durable_start hrun).symm

theorem durable_along_replicated :
    ∃ c es, (start 3 Unit).run replicatedRun = some (c, es) ∧
      ∀ as₁ as₂ c₁ es₁, replicatedRun = as₁ ++ as₂ →
        (start 3 Unit).run as₁ = some (c₁, es₁) → c₁.Durable := by
  obtain ⟨c, es, hrun, -⟩ : ∃ c es,
      (start 3 Unit).run replicatedRun = some (c, es) ∧ True := by
    decide +kernel
  exact ⟨c, es, hrun, (durable_along_iff hrun).mpr (by decide +kernel)⟩

/-- Server 1 stands for election, and its reply deposes the leader of term
1. -/
def unstoredRun : List (Action 3 Unit) :=
  [.doElection 0, .requestVote 0 1, .sendRequestVote 0 1, .doHeartBeat 0,
    .doElection 1, .appendEntries 0 1, .sendAppendEntries 0 1]

/-- Server 0 is in term 2 and would restart in term 1. -/
theorem unstored_not_durable :
    ∃ c es, (start 3 Unit).run unstoredRun = some (c, es) ∧ ¬c.Durable := by
  obtain ⟨c, es, hrun, hne⟩ : ∃ c es,
      (start 3 Unit).run unstoredRun = some (c, es) ∧
        (Raft.init 0 (c.nodes 0).persister).persistData.currentTerm ≠
          (c.nodes 0).persistData.currentTerm := by
    decide +kernel
  exact ⟨c, es, hrun, fun hc =>
    hne (congrArg RaftState.currentTerm (hc 0))⟩

end KVRaftStorage
