import KVRaftStorage.KvServer.ReadPath
import KVRaftStorage.Raft.Origins
import KVRaftStorage.Service.OneLog

/-!
# Reads of the whole service

A `Get` of the ReadIndex path reads the state of its own server, without an
entry in the log.  In a run that keeps the protocol this state is nevertheless
at least as far in the log as the state that any server had when the handler
called `ReadIndex`.  So the read can be thought of as one that all servers
answered at that moment.
-/

namespace KVRaftStorage

open Transition

variable {n : ℕ}

/-- A call of `ReadIndex` on a leader that has committed in its own term, once
a majority has confirmed it, covers all that was committed before the call. -/
theorem confirmed_covers {Image : Type} {as₁ as₂ : List (Action n Image)}
    {s : Fin n} {c₁ c₂ : Cluster n Image} {es₁ es₂ : List (Event n Image)}
    {read : ReadCall n}
    (hprotocol : Throughout Cluster.step Cluster.FollowsProtocol
      (Cluster.start n Image) (as₁ ++ .readIndex s :: as₂))
    (hbefore : (Cluster.start n Image).run as₁ = some (c₁, es₁))
    (hl : (c₁.nodes s).status = .leader)
    (hcurrent : ¬(c₁.nodes s).ReadsBehind)
    (hrun : (Cluster.start n Image).run (as₁ ++ .readIndex s :: as₂) =
      some (c₂, es₂))
    (hq : c₂.reads[c₁.reads.length]? = some read)
    (hcount : n / 2 + 1 ≤ read.confirmCount) :
    CoversCommits es₁ (c₁.nodes s).commitIndex := by
  intro s₀ r₀ hmem
  obtain ⟨hprotocol₁, hprotocol₂⟩ := (throughout_append hbefore).mp hprotocol
  obtain ⟨G, hG, hes, hcover⟩ := covered_along hprotocol₁ hbefore
  obtain ⟨c, es, es₄, hfirst, hrest, -⟩ := run_append_eq_some.mp hrun
  obtain ⟨rfl, rfl⟩ : c₁ = c ∧ es₁ = es := by
    simpa [hbefore] using hfirst
  obtain ⟨c, es, es₅, hstep, hopen, -⟩ := run_cons_eq_some.mp hrest
  have hprotocol₃ := ((throughout_cons hstep).mp hprotocol₂).2
  obtain ⟨rfl, -⟩ : _ = c ∧ [] = es := by
    simpa [Cluster.step, Cluster.readIndex, hl] using hstep
  obtain ⟨G', hext, hG', -⟩ := (Move.beginRead s hl).tracked hG
  obtain ⟨read', hq', hread⟩ := readAt_along G.epoch
    (q := c₁.reads.length) hprotocol₃ hG' hext.ballots.epoch
    ⟨.begun s (c₁.boots s) (c₁.nodes s), by simp [ReadCall.begun],
      .begun s _⟩ hopen
  obtain rfl : read = read' := Option.some.inj (hq.symm.trans hq')
  have hconfirmed := hread.most ((hG.votes.nodes s).leader hl).2.le hcount
  refine decided_le_commit hG hes hcover hl hcurrent hmem ?_
  -- a later term would be known to one of the confirming servers
  by_contra hlater
  obtain ⟨-, p, -, -, hdecided, hlast, -⟩ := hes _ hmem
  obtain ⟨u, hknown, hack⟩ := hconfirmed.exists_both hdecided.2
  have hpos : 0 < p.length := List.length_pos_of_ne_nil hdecided.1.1
  have := hG.commits.complete.acked_epoch u _ (hpos.trans_le hack)
  omega

namespace KvServer

variable {L : ℕ → Op} {gets : Op → Prop} {s : KvServer n} {p : ℕ}

/-- The state is not ahead of what Raft has handed out. -/
theorem Consistent.state_within (h : Consistent L gets s p) :
    ∃ q ≤ s.raft.lastApplied, Reflects L gets q s.state := by
  by_cases hbooted : s.booted = true
  · have hstands := h.booted hbooted
    obtain ⟨p', t, hdrains, hschedulable, -⟩ := h.queued.order
    have hp : p ≤ s.raft.lastApplied := hdrains.le.trans hschedulable.le_end
    unfold Stands at hstands
    cases hloop : s.loop with
    | idle =>
        rw [hloop] at hstands
        exact ⟨p, hp, hstands⟩
    | checked i op duplicate =>
        rw [hloop] at hstands
        obtain ⟨rfl, -, -, k, st, rfl, hst, -, hgets⟩ := hstands
        exact ⟨k, (Nat.le_succ k).trans hp, hst.of_gets hgets⟩
    | executed i op =>
        rw [hloop] at hstands
        exact ⟨p, hp, hstands.2⟩
    | snapshotting i op image =>
        rw [hloop] at hstands
        exact ⟨p, hp, hstands.2.1⟩
    | sending i op =>
        rw [hloop] at hstands
        exact ⟨p, hp, hstands.2⟩
  · exact ⟨0, Nat.zero_le _, (h.booting (by simpa using hbooted)).state⟩

theorem readIndex_arrived {s' : KvServer n} {es : List KvEvent} {h : ℕ}
    {handler : Handler} (hget : s.handlers[h]? = some handler)
    (hstep : s.step (.readIndex h) = some (s', es)) :
    handler.phase = .arrived := by
  simp only [step, advance, Option.bind_eq_bind,
    Option.bind_eq_some_iff] at hstep
  obtain ⟨handler', hget', phase, hphase, -⟩ := hstep
  obtain rfl := Option.some.inj (hget.symm.trans hget')
  unfold readIndexPhase at hphase
  split at hphase
  · assumption
  · cases hphase

end KvServer

namespace Service

variable {k k' : Service n} {act : ServiceAction n}
  {es es' : List (ServiceEvent n)} {as : List (ServiceAction n)} {v : Fin n}
  {h r : ℕ} {handler : Handler}

/-! ## The call behind a read -/

/-- The server on which a handler calls `ReadIndex`. -/
def asker? : ServiceAction n → Option (Fin n)
  | .server v (.readIndex _) => some v
  | _ => none

/-- `ReadIndex` is called on a leader that has committed in its own term. -/
def AsksCurrent (k : Service n) (act : ServiceAction n) : Prop :=
  ∀ v ∈ asker? act, ¬(k.servers v).raft.ReadsBehind

instance (k : Service n) (act : ServiceAction n) :
    Decidable (k.AsksCurrent act) :=
  inferInstanceAs (Decidable (∀ v ∈ asker? act, _))

/-- In this state of the run the handler called `ReadIndex` and was given its
index. -/
structure AskedAt (as : List (ServiceAction n)) (k : Service n) (v : Fin n)
    (h : ℕ) (handler : Handler) (r : ℕ) (k₁ : Service n)
    (es₁ : List (ServiceEvent n)) : Prop where
  run : ∃ as₁ as₂, as = as₁ ++ .server v (.readIndex h) :: as₂ ∧
    (start n).run as₁ = some (k₁, es₁)
  arrived : (k₁.servers v).handlers[h]? =
    some { handler with phase := .arrived }
  leads : (k₁.servers v).raft.status = .leader
  index : r = (k₁.servers v).raft.commitIndex
  call : k.readCall v h = k₁.reads.length

/-- Every handler on the ReadIndex path has made its call in the run.  Behind
`ReadIndex` its index covers all that was committed before the call. -/
def ReadsStand (as : List (ServiceAction n)) (k : Service n) : Prop :=
  ∀ v h handler r, (k.servers v).handlers[h]? = some handler →
    handler.phase.readIndex? = some r →
    ∃ k₁ es₁, AskedAt as k v h handler r k₁ es₁ ∧
      ((∀ savedTerm, handler.phase ≠ .confirming savedTerm r) →
        CoversCommits (es₁.filterMap ServiceEvent.raft?) r)

theorem AskedAt.concat {k₁ : Service n} {es₁ : List (ServiceEvent n)}
    {phase : Phase} (hasked : AskedAt as k v h { handler with phase := phase }
      r k₁ es₁) (act : ServiceAction n)
    (hcall : k'.readCall v h = k.readCall v h) :
    AskedAt (as ++ [act]) k' v h handler r k₁ es₁ := by
  obtain ⟨⟨as₁, as₂, rfl, hrun⟩, harrived, hleads, hindex, hbefore⟩ := hasked
  exact ⟨⟨as₁, as₂ ++ [act], by simp, hrun⟩, harrived, hleads, hindex,
    hcall.trans hbefore⟩

/-- Only the call of a handler itself changes what is recorded as its call. -/
theorem readCall_step (hstep : k.step act = some (k', es))
    (hact : act ≠ .server v (.readIndex h)) :
    k'.readCall v h = k.readCall v h := by
  obtain ⟨a, bs, c, hsteps⟩ := step_eq_some hstep
  rw [hsteps.readCall]
  unfold readCallAfter
  split
  · next w i =>
      by_cases hw : v = w
      · subst hw
        have hi : h ≠ i := fun hi => hact (by rw [hi])
        rw [Function.update_self, Function.update_of_ne hi]
      · rw [Function.update_of_ne hw]
  · rfl

theorem clusterAction_server {b : KvAction n} {a : Option (Action n KvState)}
    (h : k.serverPart v b = some a) : k.clusterAction (.server v b) = a := by
  simp [clusterAction, parts, h]

/-- `ReadIndex` returns only when a majority has confirmed its call. -/
theorem readIndexReturn_confirmed
    (hstep : k.step (.server v (.readIndexReturn h)) = some (k', es)) :
    ∃ read, k.cluster.reads[k.readCall v h]? = some read ∧
      n / 2 + 1 ≤ read.confirmCount := by
  have hcluster := cluster_isPart.moves k _ k' es _ hstep
    (clusterAction_server rfl)
  obtain ⟨read, hq, hcluster⟩ := Option.bind_eq_some_iff.mp hcluster
  rw [Option.ite_none_right_eq_some] at hcluster
  exact ⟨read, hq, hcluster.1.2.2⟩

/-- The call of a handler, confirmed by a majority at the end of the run. -/
theorem AskedAt.covers {k₁ : Service n} {es₁ : List (ServiceEvent n)}
    {read : ReadCall n} (hasked : AskedAt as k v h handler r k₁ es₁)
    (hkeeps : Throughout step
      (fun k act => k.InOrder act ∧ k.AsksCurrent act) (start n) as)
    (hrun : (start n).run as = some (k, es))
    (hq : k.cluster.reads[k.readCall v h]? = some read)
    (hcount : n / 2 + 1 ≤ read.confirmCount) :
    CoversCommits (es₁.filterMap ServiceEvent.raft?) r := by
  obtain ⟨⟨as₁, as₂, rfl, hbefore⟩, -, hleads, rfl, hcall⟩ := hasked
  have hcurrent := ((throughout_append hbefore).mp hkeeps).2.1.2 v rfl
  have hprotocol : Throughout Cluster.step Cluster.FollowsProtocol
      (Cluster.start n KvState) (partActions step clusterAction (start n)
        (as₁ ++ .server v (.readIndex h) :: as₂)) :=
    cluster_isPart.throughout (fun _ _ a hk ha => hk.1.1 a ha) hkeeps
  have hcluster := cluster_isPart.run hrun
  rw [partActions_append hbefore, partActions,
    clusterAction_server rfl] at hprotocol hcluster
  exact confirmed_covers hprotocol (cluster_isPart.run hbefore) hleads hcurrent
    hcluster (hcall ▸ hq) hcount

theorem ReadsStand.step (hstands : ReadsStand as k)
    (hkeeps : Throughout step
      (fun k act => k.InOrder act ∧ k.AsksCurrent act) (start n) as)
    (hrun : (start n).run as = some (k, es))
    (hstep : k.step act = some (k', es')) : ReadsStand (as ++ [act]) k' := by
  intro v h handler r hget hr
  -- a handler that stood on the path before keeps its call
  have hkept : ∀ phase, (k.servers v).handlers[h]? =
        some { handler with phase := phase } → phase.readIndex? = some r →
      ∃ k₁ es₁, AskedAt (as ++ [act]) k' v h handler r k₁ es₁ ∧
        AskedAt as k v h { handler with phase := phase } r k₁ es₁ ∧
        ((∀ savedTerm, phase ≠ .confirming savedTerm r) →
          CoversCommits (es₁.filterMap ServiceEvent.raft?) r) := by
    intro phase hbefore hphase
    obtain ⟨k₁, es₁, hasked, hcovers⟩ := hstands v h _ r hbefore hphase
    refine ⟨k₁, es₁, hasked.concat act (readCall_step hstep ?_), hasked,
      hcovers⟩
    rintro rfl
    obtain rfl : phase = .arrived :=
      KvServer.readIndex_arrived hbefore (step_own hstep)
    cases hphase
  have hstays : (k.servers v).handlers[h]? = some handler →
      ∃ k₁ es₁, AskedAt (as ++ [act]) k' v h handler r k₁ es₁ ∧
        ((∀ savedTerm, handler.phase ≠ .confirming savedTerm r) →
          CoversCommits (es₁.filterMap ServiceEvent.raft?) r) := by
    intro hbefore
    obtain ⟨k₁, es₁, hasked, -, hcovers⟩ := hkept handler.phase hbefore hr
    exact ⟨k₁, es₁, hasked, hcovers⟩
  rcases step_server hstep v with ⟨-, hsame, -⟩ | ⟨b, hb, hserver⟩
  · rw [hsame] at hget
    exact hstays hget
  · cases KvServer.step_readPath hserver hget hr with
    | stands hbefore => exact hstays hbefore
    | asks hb' hbefore hleader hindex hphase =>
        subst hb'
        cases serverAction_takesPart hb with
        | raft hreached => cases hreached
        | own =>
            refine ⟨k, es, ⟨⟨as, [], rfl, hrun⟩, hbefore, hleader, hindex,
              ?_⟩, fun hnot => absurd hphase (hnot _)⟩
            obtain ⟨a, bs, c, hsteps⟩ := step_eq_some hstep
            rw [hsteps.readCall]
            simp [readCallAfter]
    | returns hb' hbefore hphase =>
        subst hb'
        cases serverAction_takesPart hb with
        | raft hreached => cases hreached
        | own =>
            obtain ⟨k₁, es₁, hasked, hbefore, -⟩ := hkept _ hbefore rfl
            obtain ⟨read, hq, hcount⟩ := readIndexReturn_confirmed hstep
            exact ⟨k₁, es₁, hasked, fun _ =>
              hbefore.covers hkeeps hrun hq hcount⟩
    | waits hbefore hphase =>
        obtain ⟨k₁, es₁, hasked, -, hcovers⟩ := hkept _ hbefore rfl
        exact ⟨k₁, es₁, hasked, fun _ => hcovers (by simp)⟩

theorem readsStand_along
    (hkeeps : Throughout step
      (fun k act => k.InOrder act ∧ k.AsksCurrent act) (start n) as)
    (hrun : (start n).run as = some (k, es)) : ReadsStand as k := by
  refine run_lookback (I := fun as k => Throughout step
    (fun k act => k.InOrder act ∧ k.AsksCurrent act) (start n) as →
      ReadsStand as k) ?_ ?_ hrun hkeeps
  · intro _ v h handler r hget
    simp [start, KvServer.start, KvServer.boot] at hget
  · intro as k es act k' es' hrun hI hstep hkeeps
    have hbefore := ((throughout_append hrun).mp hkeeps).1
    exact (hI hbefore).step hbefore hrun hstep

/-! ## What a read sees -/

theorem waitersApplied_along (hrun : (start n).run as = some (k, es))
    (v : Fin n) : (k.servers v).WaitersApplied :=
  run_invariant (I := fun s => s.WaitersApplied)
    (fun _ _ _ _ _ hI hstep => hI.step hstep) (throughout_true _ _)
    (by simp [KvServer.WaitersApplied, start, KvServer.start, KvServer.boot])
    ((server_isPart v).run hrun)

/-- A handler that is about to read has an index that covers all that was
committed before its call, and the state has passed this index. -/
theorem read_passes {now : ℕ}
    (hkeeps : Throughout step
      (fun k act => k.InOrder act ∧ k.AsksCurrent act) (start n) as)
    (hrun : (start n).run as = some (k, es))
    (happlied : (k.servers v).ReadsApplied (.readOnlyGet h now))
    (hstep : k.step (.server v (.readOnlyGet h now)) = some (k', es')) :
    ∃ r handler k₁ es₁, (k.servers v).handlers[h]? = some handler ∧
      AskedAt as k v h handler r k₁ es₁ ∧
      CoversCommits (es₁.filterMap ServiceEvent.raft?) r ∧
      ∀ L, HandsOut L es →
        ∃ j, r ≤ j ∧ Reflects L IsGet j (k.servers v).state := by
  obtain ⟨⟨r, handler⟩, hreading, -⟩ :=
    Option.bind_eq_some_iff.mp (step_own hstep)
  obtain ⟨hget, hphase⟩ := KvServer.reading?_eq_some hreading
  obtain ⟨k₁, es₁, hasked, hcovers⟩ :=
    readsStand_along hkeeps hrun v h handler r hget (by rw [hphase]; rfl)
  refine ⟨r, handler, k₁, es₁, hget, hasked, hcovers (by simp [hphase]),
    fun L hlog => ?_⟩
  obtain ⟨-, p, -, -, hconsistent⟩ := (followsLog_along
    (throughout_mono (fun _ _ hk => hk.1) hkeeps) hrun hlog).servers v
  obtain ⟨j, hreflects, hbehind⟩ := hconsistent.reflects
  have hr : r ≤ (k.servers v).raft.lastApplied :=
    waitersApplied_along hrun v handler (List.mem_of_getElem? hget) r hphase
  refine ⟨j, ?_, hreflects⟩
  by_contra hlt
  exact happlied r (by simp [KvServer.servedIndex?, hreading])
    (hbehind r (by omega) hr)

/-- Reads are linearizable.  A `Get` that is answered on the ReadIndex path
reads a state of the one log that is at least as far as the state of every
server was when its handler, after the request had arrived, called
`ReadIndex`. -/
theorem read_linearizable {now : ℕ}
    (hkeeps : Throughout step
      (fun k act => k.InOrder act ∧ k.AsksCurrent act) (start n) as)
    (hrun : (start n).run as = some (k, es))
    (happlied : (k.servers v).ReadsApplied (.readOnlyGet h now))
    (hstep : k.step (.server v (.readOnlyGet h now)) = some (k', es')) :
    ∃ L as₁ as₂ k₁ es₁ handler, HandsOut L es ∧
      as = as₁ ++ .server v (.readIndex h) :: as₂ ∧
      (start n).run as₁ = some (k₁, es₁) ∧
      (k₁.servers v).handlers[h]? = some { handler with phase := .arrived } ∧
      (k.servers v).handlers[h]? = some handler ∧
      ∃ j, Reflects L IsGet j (k.servers v).state ∧
        ∀ u, ∃ q ≤ j, Reflects L IsGet q (k₁.servers u).state := by
  have horder := throughout_mono (fun _ _ hk => hk.1) hkeeps
  obtain ⟨L, hlog⟩ := exists_handsOut horder hrun
  obtain ⟨r, handler, k₁, es₁, hget, hasked, hcovers, hpasses⟩ :=
    read_passes hkeeps hrun happlied hstep
  obtain ⟨as₁, as₂, rfl, hbefore⟩ := hasked.run
  obtain ⟨j, hj, hreflects⟩ := hpasses L hlog
  refine ⟨L, as₁, as₂, k₁, es₁, handler, hlog, rfl, hbefore, hasked.arrived,
    hget, j, hreflects, fun u => ?_⟩
  -- no server was ahead of the index
  have hlog₁ : HandsOut L es₁ := by
    obtain ⟨k₂, es₂, es₃, hfirst, -, rfl⟩ := run_append_eq_some.mp hrun
    obtain ⟨-, rfl⟩ : k₁ = k₂ ∧ es₁ = es₂ := by simpa [hbefore] using hfirst
    exact fun v i x hmem => hlog v i x (List.mem_append_left _ hmem)
  have horder₁ := ((throughout_append hbefore).mp horder).1
  obtain ⟨-, p₁, -, -, hconsistent₁⟩ :=
    (followsLog_along horder₁ hbefore hlog₁).servers u
  obtain ⟨q, hq, hstate⟩ := hconsistent₁.state_within
  have hwithin := (commits_of_leaders (cluster_isPart.run hbefore) hcovers).2 u
  exact ⟨q, (hq.trans hwithin).trans hj, hstate⟩

/-- Another clerk reads on the leader, and server 1 confirms the call. -/
def confirmedRun : List (ServiceAction 3) :=
  executedRun ++ [.server 0 .skipSnapshot, .server 0 .sendMessageToWaitChan,
    .call "reader" (.get "key"), .server 0 (.arrive 1 0),
    .server 0 (.readIndex 1), .raft (.readIndexSend 0 1),
    .raft (.readAppendEntries 0 1), .raft (.readIndexReply 0 1),
    .server 0 (.readIndexReturn 1), .server 0 (.waitForApplied 1)]

theorem read_linearizable_confirmed :
    ∃ k es, (start 3).run confirmedRun = some (k, es) ∧
      ∃ L as₁ as₂ k₁ es₁ handler, HandsOut L es ∧
        confirmedRun = as₁ ++ .server 0 (.readIndex 1) :: as₂ ∧
        (start 3).run as₁ = some (k₁, es₁) ∧
        (k₁.servers 0).handlers[1]? = some { handler with phase := .arrived } ∧
        (k.servers 0).handlers[1]? = some handler ∧
        ∃ j, Reflects L IsGet j (k.servers 0).state ∧
          ∀ u, ∃ q ≤ j, Reflects L IsGet q (k₁.servers u).state := by
  obtain ⟨k, es, hrun, happlied, k', es', hstep, -⟩ : ∃ k es,
      (start 3).run confirmedRun = some (k, es) ∧
        (k.servers 0).ReadsApplied (.readOnlyGet 1 0) ∧
        ∃ k' es', k.step (.server 0 (.readOnlyGet 1 0)) = some (k', es') ∧
          es'.length = 1 := by
    decide +kernel
  exact ⟨k, es, hrun,
    read_linearizable (by decide +kernel) hrun happlied hstep⟩

end Service

end KVRaftStorage
