import KVRaftStorage.KvServer.ReadBarrier
import KVRaftStorage.Raft.Safety
import KVRaftStorage.Raft.Steps
import KVRaftStorage.Service.Parts

/-!
# One log for all servers

A single server follows a log if Raft hands out the entries of that log and if
the snapshots it is sent are images of it.  In the service neither has to be
assumed.  What Raft hands out is one log for the whole cluster, and every image
was taken by some server that followed it.  So the states of all servers, over
any number of crashes, elections and transferred snapshots, are states of one
log.
-/

namespace KVRaftStorage

open Transition

variable {n : ℕ}

/-! ## The log of a run -/

/-- All that is ever handed out belongs to one log. -/
theorem exists_log {Image : Type} {as : List (Action n Image)}
    {c : Cluster n Image} {es : List (Event n Image)}
    (hprotocol : Throughout Cluster.step Cluster.FollowsProtocol
      (Cluster.start n Image) as)
    (hrun : (Cluster.start n Image).run as = some (c, es)) :
    ∃ L : ℕ → Op, ∀ v i x, .handedOut v i x ∈ es → x = L i := by
  obtain ⟨G, hG, hes⟩ := tracked_along hprotocol hrun
  have hone : ∀ i, ∃ x, ∀ v x', .handedOut v i x' ∈ es → x' = x := by
    intro i
    by_cases hsome : ∃ v x, .handedOut v i x ∈ es
    · obtain ⟨v, x, hmem⟩ := hsome
      refine ⟨x, fun v' x' hmem' => ?_⟩
      obtain ⟨q, e, T, hq, hi, rfl⟩ := hes _ hmem
      obtain ⟨q', e', T', hq', hi', rfl⟩ := hes _ hmem'
      have heq := hG.commits.complete.committed_eq hq hq' (by simp; omega)
      have hlast := congrArg List.getLast? heq
      simp only [List.getLast?_concat, Option.some.injEq] at hlast
      rw [hlast]
    · exact ⟨sampleLog i, fun v x hmem => absurd ⟨v, x, hmem⟩ hsome⟩
  choose L hL using hone
  exact ⟨L, fun v i x hmem => hL i v x hmem⟩

/-! ## What the handlers execute -/

/-- A `Get` request. -/
def IsGet (op : Op) : Prop := op.operation = "Get"

instance (op : Op) : Decidable (IsGet op) :=
  inferInstanceAs (Decidable (op.operation = "Get"))

namespace KvServer

/-- The handlers work on the operation of their request, and only those of
`Get` come to execute it. -/
def HandlersFit (s : KvServer n) : Prop :=
  ∀ handler ∈ s.handlers, (∃ now, handler.op = handler.rpc.op now) ∧
    ∀ i, handler.phase = .granted i → handler.isGet = true

variable {s s' : KvServer n} {a : KvAction n} {es : List KvEvent}

theorem Progress.isGet {handler : Handler} {i : ℕ}
    (h : s.Progress handler (.granted i)) : handler.isGet = true := by
  have hack : ∀ j, Phase.granted i = handler.acknowledge j →
      handler.isGet = true := by
    intro j heq
    rcases handler.acknowledge_cases j with ⟨hget, -⟩ | ⟨-, hreplied⟩
    · exact hget
    · rw [hreplied] at heq
      cases heq
  cases h with
  | notified _ _ _ _ hnext => exact hack _ hnext
  | duplicate _ _ hnext => exact hack _ hnext

theorem HandlersFit.step (h : s.HandlersFit)
    (hstep : s.step a = some (s', es)) : s'.HandlersFit := by
  intro handler hmem
  obtain ⟨j, hj⟩ := List.mem_iff_getElem?.mp hmem
  rcases (step_serves hstep).handler_cases hj with
    hsame | ⟨rpc, -, now, rfl⟩ | ⟨handler, phase, hbefore, rfl, hmoved⟩
  · exact h handler (List.mem_of_getElem? hsame)
  · exact ⟨⟨now, rfl⟩, fun i hphase => by cases hphase⟩
  · refine ⟨(h handler (List.mem_of_getElem? hbefore)).1, ?_⟩
    rintro i rfl
    rcases hmoved with hprogress | ⟨-, i', heq⟩
    · exact hprogress.isGet
    · cases heq

theorem HandlersFit.executesGets (h : s.HandlersFit) :
    s.ExecutesGets IsGet a := by
  intro handler hexecuted
  cases a with
  | executeGet i now =>
      obtain ⟨⟨index, handler'⟩, hgranted, rfl⟩ :=
        Option.map_eq_some_iff.mp hexecuted
      obtain ⟨hget, hphase⟩ := granted?_eq_some hgranted
      obtain ⟨⟨now', hop⟩, hisGet⟩ := h handler' (List.mem_of_getElem? hget)
      have hisGet := hisGet _ hphase
      rw [IsGet, hop]
      unfold Handler.isGet at hisGet
      unfold Rpc.op
      split at hisGet
      · rfl
      · cases hisGet
  | _ => cases hexecuted

end KvServer

namespace Service

variable {k k' : Service n} {act : ServiceAction n}
  {es : List (ServiceEvent n)}

/-! ## What reaches a server -/

/-- What a server takes part in with its handlers, when a Raft thread takes a
step. -/
inductive Reached (c : Cluster n KvState) (a : Action n KvState) (v : Fin n) :
    KvAction n → Prop where
  | receive (input : RaftInput n) : Reached c a v (.receive input)
  | installSnapshot {h : ℕ} {round : Round n KvState}
      {args : InstallSnapshotRequest n KvState}
      {call : Call InstallSnapshotResponse} (hr : c.rounds[h]? = some round)
      (hthread : round.threads v = .snapshot args call) :
      Reached c a v (.installSnapshot args)
  | installSnapshotCrash (args : InstallSnapshotRequest n KvState) :
      Reached c a v (.installSnapshotCrash args)
  | getApplyLogs (ha : a = .applierTicker v) : Reached c a v .getApplyLogs
  | restart : Reached c a v .restart

theorem reached_of_onePart {c : Cluster n KvState} {a : Action n KvState}
    {v w : Fin n} {b b' : KvAction n} (hb : onePart w b v = some b')
    (h : Reached c a w b) : Reached c a v b' := by
  unfold onePart at hb
  split at hb
  · next hv =>
      obtain rfl := Option.some.inj hb
      exact hv ▸ h
  · cases hb

theorem raftParts_reached {c : Cluster n KvState} {a : Action n KvState}
    {bs : Parts n} (hparts : raftParts c a = some bs) {v : Fin n}
    {b : KvAction n} (hb : bs v = some b) : Reached c a v b := by
  have hone : ∀ {w : Fin n} {b' : KvAction n}, some (onePart w b') = some bs →
      Reached c a w b' → Reached c a v b := by
    intro w b' hbs h
    obtain rfl := Option.some.inj hbs
    exact reached_of_onePart hb h
  have hnone : some noPart = some bs → Reached c a v b := by
    intro hbs
    obtain rfl := Option.some.inj hbs
    cases hb
  cases a with
  | doElection s => exact hone hparts (.receive _)
  | applierTicker s => exact hone hparts (.getApplyLogs rfl)
  | restart s => exact hone hparts .restart
  | leaderSendSnapShot | readIndexReply => exact hnone hparts
  | start | snapshot | readIndex | readIndexReturn => cases hparts
  | doHeartBeat s =>
      simp only [raftParts] at hparts
      split at hparts
      · exact hone hparts .restart
      · exact hnone hparts
  | requestVote e i =>
      obtain ⟨election, -, hparts⟩ := Option.bind_eq_some_iff.mp hparts
      exact hone hparts (.receive _)
  | sendRequestVote e i =>
      obtain ⟨election, -, hparts⟩ := Option.bind_eq_some_iff.mp hparts
      split at hparts
      · exact hone hparts (.receive _)
      · cases hparts
  | appendEntries h i | sendAppendEntries h i | snapShotSent h i =>
      obtain ⟨round, -, hparts⟩ := Option.bind_eq_some_iff.mp hparts
      split at hparts
      · exact hone hparts (.receive _)
      · cases hparts
  | installSnapshot h i =>
      obtain ⟨round, hr, hparts⟩ := Option.bind_eq_some_iff.mp hparts
      split at hparts
      · next hthread => exact hone hparts (.installSnapshot hr hthread)
      · cases hparts
  | installSnapshotCrash h i =>
      obtain ⟨round, -, hparts⟩ := Option.bind_eq_some_iff.mp hparts
      split at hparts
      · exact hone hparts (.installSnapshotCrash _)
      · cases hparts
  | readIndexSend q i =>
      obtain ⟨read, -, hparts⟩ := Option.bind_eq_some_iff.mp hparts
      split at hparts
      · exact hone hparts .restart
      · exact hnone hparts
  | readAppendEntries q i =>
      obtain ⟨read, -, hparts⟩ := Option.bind_eq_some_iff.mp hparts
      split at hparts
      · exact hone hparts (.receive _)
      · cases hparts

/-- The part of server `v` in a step of the service. -/
inductive TakesPart (k : Service n) (v : Fin n) :
    ServiceAction n → KvAction n → Prop where
  | raft {a : Action n KvState} {b : KvAction n}
      (h : Reached k.cluster a v b) : TakesPart k v (.raft a) b
  | own {b : KvAction n} (a : Option (Action n KvState))
      (h : k.serverPart v b = some a) : TakesPart k v (.server v b) b
  | call (clientId : String) (request : Request) :
      TakesPart k v (.call clientId request) (.call clientId request)
  | answered (clientId : String) (h : ℕ) :
      TakesPart k v (.answered clientId v h) (.answered clientId h)
  | answeredElsewhere (clientId : String) (w : Fin n) (h : ℕ) :
      TakesPart k v (.answered clientId w h) (.answeredElsewhere clientId)

theorem serverAction_takesPart {v : Fin n} {b : KvAction n}
    (hb : serverAction v k act = some b) : k.TakesPart v act b := by
  obtain ⟨⟨a, bs⟩, hparts, hb⟩ := Option.bind_eq_some_iff.mp hb
  cases act with
  | raft a' =>
      obtain ⟨bs', hbs, hparts⟩ := Option.bind_eq_some_iff.mp hparts
      obtain ⟨-, rfl⟩ : some a' = a ∧ bs' = bs := by simpa using hparts
      exact .raft (raftParts_reached hbs hb)
  | server w b' =>
      obtain ⟨a', ha, hparts⟩ := Option.bind_eq_some_iff.mp hparts
      obtain ⟨-, rfl⟩ : a' = a ∧ onePart w b' = bs := by simpa using hparts
      simp only [onePart] at hb
      split at hb
      · next hv =>
          obtain rfl := Option.some.inj hb
          obtain rfl := hv
          exact .own a' ha
      · cases hb
  | call clientId request =>
      obtain ⟨-, rfl⟩ : none = a ∧ _ = bs := by simpa [parts] using hparts
      obtain rfl := Option.some.inj hb
      exact .call clientId request
  | answered clientId w h =>
      obtain ⟨-, rfl⟩ : none = a ∧ _ = bs := by simpa [parts] using hparts
      obtain rfl := Option.some.inj hb
      split
      · next hv =>
          obtain rfl := hv
          exact .answered clientId h
      · exact .answeredElsewhere clientId w h

/-- A step of a Raft thread is one of the cluster. -/
theorem clusterAction_raft {a : Action n KvState}
    (hstep : k.step (.raft a) = some (k', es)) :
    k.clusterAction (.raft a) = some a := by
  obtain ⟨a', bs, c, h⟩ := step_eq_some hstep
  obtain ⟨bs', -, hparts⟩ := Option.bind_eq_some_iff.mp h.parts
  obtain ⟨rfl, -⟩ : some a = a' ∧ bs' = bs := by simpa using hparts
  simp [clusterAction, h.parts]

/-! ## The invariant -/

/-- The Raft handlers keep the protocol, and every server delivers its commands
and snapshots in order. -/
def InOrder (k : Service n) (act : ServiceAction n) : Prop :=
  (∀ a ∈ k.clusterAction act, k.cluster.FollowsProtocol a) ∧
    ∀ v, ∀ b ∈ serverAction v k act, (k.servers v).DeliversInOrder b

instance (k : Service n) (act : ServiceAction n) : Decidable (k.InOrder act) :=
  inferInstanceAs (Decidable (_ ∧ _))

/-- A snapshot on its way is an image of the log.  A leader without a snapshot
has nothing to send. -/
def SendsImage (L : ℕ → Op) (args : InstallSnapshotRequest n KvState) : Prop :=
  CarriesImage L IsGet args ∨ args.lastSnapShotIncludeIndex = 0

/-- All servers and all snapshots on their way follow the log. -/
structure FollowsLog (L : ℕ → Op) (k : Service n)
    (es : List (ServiceEvent n)) : Prop where
  servers : ∀ v, KvServer.Tracks L IsGet (k.servers v)
    (es.filterMap (ServiceEvent.server? v))
  fit : ∀ v, (k.servers v).HandlersFit
  snapshots : ∀ round ∈ k.rounds, ∀ i args call,
    round.threads i = .snapshot args call → SendsImage L args

/-- The commands that become visible are those of the log. -/
def HandsOut (L : ℕ → Op) (es : List (ServiceEvent n)) : Prop :=
  ∀ v i x, .raft (.handedOut v i x) ∈ es → x = L i

variable {L : ℕ → Op}

theorem FollowsLog.start : FollowsLog L (start n) [] where
  servers := KvServer.tracks_start
  fit := fun v handler hmem => by
    simp [Service.start, KvServer.start, KvServer.boot] at hmem
  snapshots := by simp [Service.start]

theorem mem_raft? {e : Event n KvState} :
    e ∈ es.filterMap ServiceEvent.raft? ↔ .raft e ∈ es := by
  rw [List.mem_filterMap]
  constructor
  · rintro ⟨e', hmem, he⟩
    cases e' with
    | raft e' =>
        obtain rfl := Option.some.inj he
        exact hmem
    | server => cases he
  · exact fun hmem => ⟨_, hmem, rfl⟩

/-- A server that hands out commands does so for the cluster. -/
theorem handedOut_of_step (hstep : k.step act = some (k', es)) {v : Fin n}
    {b : KvAction n} (hb : serverAction v k act = some b) {m : ℕ × Op}
    (hm : m ∈ (k.servers v).handedOut b) :
    .raft (.handedOut v m.1 m.2) ∈ es := by
  cases serverAction_takesPart hb with
  | raft hreached =>
      cases hreached with
      | getApplyLogs hticker =>
          obtain rfl := hticker
          have hcluster := cluster_isPart.moves k _ k' es _ hstep
            (clusterAction_raft hstep)
          simp only [KvServer.handedOut] at hm
          split at hm
          · next r msgs hmsgs =>
              simp only [Cluster.step, Cluster.applierTicker,
                show (k.cluster.nodes v).getApplyLogs = _ from hmsgs,
                Option.some.injEq, Prod.mk.injEq] at hcluster
              refine mem_raft?.mp ?_
              rw [← hcluster.2]
              exact List.mem_map_of_mem hm
          · cases hm
      | _ => cases hm
  | own a ha =>
      cases b with
      | getApplyLogs => cases ha
      | _ => cases hm
  | call | answered | answeredElsewhere => cases hm

theorem handsOutLog_of_step (hlog : HandsOut L es)
    (hstep : k.step act = some (k', es)) {v : Fin n} {b : KvAction n}
    (hb : serverAction v k act = some b) : (k.servers v).HandsOutLog L b :=
  fun m hm => hlog v m.1 m.2 (handedOut_of_step hstep hb hm)

/-- A snapshot that a server is sent is on its way in the cluster. -/
theorem installSnapshot_sent {v : Fin n}
    {args : InstallSnapshotRequest n KvState}
    (hb : serverAction v k act = some (.installSnapshot args)) :
    ∃ round ∈ k.rounds, ∃ i call, round.threads i = .snapshot args call := by
  cases serverAction_takesPart hb with
  | raft hreached =>
      cases hreached with
      | installSnapshot hr hthread =>
          exact ⟨_, List.mem_of_getElem? hr, _, _, hthread⟩
  | own a ha => cases ha

/-- The snapshots on their way are those that leaders have sent. -/
theorem snapshots_step {P : InstallSnapshotRequest n KvState → Prop}
    (h : ∀ round ∈ k.rounds, ∀ i args call,
      round.threads i = .snapshot args call → P args)
    (hoffered : ∀ v, P (k.cluster.nodes v).leaderSendSnapShot)
    (hstep : k.step act = some (k', es)) :
    ∀ round ∈ k'.rounds, ∀ i args call,
      round.threads i = .snapshot args call → P args := by
  cases ha : k.clusterAction act with
  | none =>
      obtain ⟨hsame, -⟩ := cluster_isPart.rests k act k' es hstep ha
      rw [show k'.rounds = k.rounds from congrArg Cluster.rounds hsame]
      exact h
  | some a =>
      have hcluster := cluster_isPart.moves k act k' es a hstep ha
      have hrounds := (Cluster.step_cases hcluster).rounds
      change ∀ round ∈ k'.cluster.rounds, _
      generalize k'.cluster.rounds = rounds at hrounds
      cases hrounds with
      | same => exact h
      | begun s hl =>
          refine forall_mem_concat h fun i args call hthread => ?_
          exact absurd hthread LogsTracked.heartBeatThread_ne_snapshot
      | @advanced j i thread round nums hr hthread =>
          have hround := h round (List.mem_of_getElem? hr)
          refine forall_mem_set h fun i' args call hsent => ?_
          by_cases hi : i' = i
          · subst hi
            simp only [Round.setThread, Function.update_self] at hsent
            cases hthread with
            | answered | finished => cases hsent
            | offered =>
                cases hsent
                exact hoffered round.leader
            | snapshot call' hbefore =>
                cases hsent
                exact hround i' args _ hbefore
          · simp only [Round.setThread, Function.update_of_ne hi] at hsent
            exact hround i' args call hsent

end Service

namespace KvServer

/-- A server does not take over a snapshot of nothing, whatever it holds. -/
theorem tracks_installNothing {L : ℕ → Op} {gets : Op → Prop}
    {s s' : KvServer n} {es es' : List KvEvent}
    {args : InstallSnapshotRequest n KvState} (h : Tracks L gets s es)
    (hzero : args.lastSnapShotIncludeIndex = 0)
    (hstep : s.step (.installSnapshot args) = some (s', es')) :
    Tracks L gets s' (es ++ es') := by
  obtain ⟨j, p, hle, hadvances, h⟩ := h
  cases step_moves hstep with
  | quiet hsame =>
      exact tracks_of_shows hadvances hle
        ⟨p, le_rfl, h.of_samePipeline hsame, by simp⟩
  | reboot hp =>
      exact ⟨0, _, Nat.zero_le _, hadvances.restart, h.reboot hp⟩
  | installSnapshot _ htakes =>
      exact absurd htakes.lt (by omega)

end KvServer

namespace Service

variable {k k' : Service n} {act : ServiceAction n}
  {es es' : List (ServiceEvent n)} {L : ℕ → Op}

theorem FollowsLog.server_step (h : FollowsLog L k es)
    (horder : k.InOrder act) (hlog : HandsOut L es')
    (hstep : k.step act = some (k', es')) (v : Fin n) :
    KvServer.Tracks L IsGet (k'.servers v)
        ((es ++ es').filterMap (ServiceEvent.server? v)) ∧
      (k'.servers v).HandlersFit := by
  rw [List.filterMap_append]
  rcases step_server hstep v with ⟨-, hsame, hnone⟩ | ⟨b, hb, hserver⟩
  · rw [hsame, hnone, List.append_nil]
    exact ⟨h.servers v, h.fit v⟩
  · refine ⟨?_, (h.fit v).step hserver⟩
    have hkeeps : (∀ args, b = .installSnapshot args →
        CarriesImage L IsGet args) → KvServer.Tracks L IsGet (k'.servers v)
        (es.filterMap (ServiceEvent.server? v) ++
          es'.filterMap (ServiceEvent.server? v)) := fun himage =>
      KvServer.tracks_step (h.servers v)
        ⟨himage, handsOutLog_of_step hlog hstep hb,
          (h.fit v).executesGets, horder.2 v b hb⟩ hserver
    cases b with
    | installSnapshot args =>
        obtain ⟨round, hround, i, call, hthread⟩ := installSnapshot_sent hb
        rcases h.snapshots round hround i args call hthread with
          himage | hzero
        · exact hkeeps fun args' heq => by cases heq; exact himage
        · exact KvServer.tracks_installNothing (h.servers v) hzero hserver
    | _ => exact hkeeps nofun

/-- What a leader sends is what it has on disk. -/
theorem FollowsLog.offered (h : FollowsLog L k es) (v : Fin n) :
    SendsImage L (k.cluster.nodes v).leaderSendSnapShot := by
  obtain ⟨j, p, -, -, hconsistent⟩ := h.servers v
  cases hsnapshot : (k.servers v).raft.persister.snapshot with
  | none => exact .inr (hconsistent.disk.noImage hsnapshot)
  | some image =>
      exact .inl ⟨image, hsnapshot, hconsistent.disk.image image hsnapshot⟩

theorem FollowsLog.step (h : FollowsLog L k es) (horder : k.InOrder act)
    (hlog : HandsOut L es') (hstep : k.step act = some (k', es')) :
    FollowsLog L k' (es ++ es') where
  servers := fun v => (h.server_step horder hlog hstep v).1
  fit := fun v => (h.server_step horder hlog hstep v).2
  snapshots := snapshots_step h.snapshots h.offered hstep

/-! ## Runs -/

theorem follows_protocol {as : List (ServiceAction n)}
    (horder : Throughout step InOrder (start n) as) :
    Throughout Cluster.step Cluster.FollowsProtocol (Cluster.start n KvState)
      (partActions step clusterAction (start n) as) :=
  cluster_isPart.throughout (fun _ _ a horder ha => horder.1 a ha) horder

/-- A run of the service that keeps the protocol has a log. -/
theorem exists_handsOut {as : List (ServiceAction n)}
    (horder : Throughout step InOrder (start n) as)
    (hrun : (start n).run as = some (k, es)) :
    ∃ L : ℕ → Op, HandsOut L es := by
  obtain ⟨L, hL⟩ :=
    exists_log (follows_protocol horder) (cluster_isPart.run hrun)
  exact ⟨L, fun v i x hmem => hL v i x (mem_raft?.mpr hmem)⟩

/-- Everything in the run follows the log that it hands out. -/
theorem followsLog_along {as : List (ServiceAction n)}
    (horder : Throughout step InOrder (start n) as)
    (hrun : (start n).run as = some (k, es)) (hlog : HandsOut L es) :
    FollowsLog L k es := by
  have hstepwise : Throughout step
      (fun k act => ∀ k' es', k.step act = some (k', es') → HandsOut L es')
      (start n) as := by
    refine (throughout_iff_events (I := fun _ => True)
      (Q := fun e => ∀ v i x, e = .raft (.handedOut v i x) → x = L i)
      (fun _ _ _ _ _ _ => trivial) (fun k act k' es' _ hstep => ?_) trivial
      hrun).mpr fun e he v i x heq => hlog v i x (heq ▸ he)
    constructor
    · intro hall e he v i x heq
      exact hall k' es' hstep v i x (heq ▸ he)
    · intro hall k₁ es₁ hstep₁ v i x hmem
      obtain ⟨-, rfl⟩ := Prod.mk.inj (Option.some.inj (hstep.symm.trans hstep₁))
      exact hall _ hmem v i x rfl
  refine run_history (fun k es act k' es' hkeeps hI hstep => ?_)
    (throughout_and horder hstepwise) .start hrun
  exact hI.step hkeeps.1 (hkeeps.2 k' es' hstep) hstep

/-- Every server's states, whatever crashed, was elected or was sent as a
snapshot, are those of one log.  The state of a server is that of a prefix,
and what was handed out behind this prefix is on its way to the state. -/
theorem one_log {as : List (ServiceAction n)}
    (horder : Throughout step InOrder (start n) as)
    (hrun : (start n).run as = some (k, es)) :
    ∃ L : ℕ → Op, HandsOut L es ∧ ∀ v,
      (∃ j, Advances L IsGet (es.filterMap (ServiceEvent.server? v)) j) ∧
        ∃ q, Reflects L IsGet q (k.servers v).state ∧
          ∀ r, q < r → r ≤ (k.servers v).raft.lastApplied →
            (k.servers v).OnItsWay r := by
  obtain ⟨L, hlog⟩ := exists_handsOut horder hrun
  have hfollows := followsLog_along horder hrun hlog
  refine ⟨L, hlog, fun v => ?_⟩
  obtain ⟨j, p, -, hadvances, hconsistent⟩ := hfollows.servers v
  exact ⟨⟨j, hadvances⟩, hconsistent.reflects⟩

/-! ## A run with a transferred snapshot -/

/-- The thread of the server handles the command at the head of its queue. -/
def handleCommand (v : Fin 3) : List (ServiceAction 3) :=
  [.server v .pop, .server v (.execute 0)]

/-- Server 0 leads and executes the entry of its election and a `Put`. -/
def executedRun : List (ServiceAction 3) :=
  [.server 0 .readSnapShotToInstall, .server 2 .readSnapShotToInstall,
    .raft (.doElection 0), .raft (.requestVote 0 1),
    .raft (.sendRequestVote 0 1),
    .call "clerk" (.putAppend "key" "value" "Put" 0), .server 0 (.arrive 0 0),
    .server 0 (.start 0), .raft (.doHeartBeat 0), .raft (.appendEntries 0 1),
    .raft (.sendAppendEntries 0 1), .raft (.applierTicker 0),
    .server 0 .pushCommand, .server 0 .pushCommand] ++
  handleCommand 0 ++
  [.server 0 .skipSnapshot, .server 0 .sendMessageToWaitChan] ++
  handleCommand 0

/-- Server 0 takes a snapshot, which server 2 gets instead of the entries. -/
def transferRun : List (ServiceAction 3) :=
  executedRun ++ [.server 0 .makeSnapShot, .server 0 .snapshot,
    .server 0 .sendMessageToWaitChan, .raft (.doHeartBeat 0),
    .raft (.leaderSendSnapShot 1 2), .raft (.installSnapshot 1 2),
    .server 2 (.pushMsgToKvServer 0), .server 2 .pop]

theorem one_log_transferred :
    ∃ k es, (start 3).run transferRun = some (k, es) ∧ es.length = 13 ∧
      ∃ L : ℕ → Op, HandsOut L es ∧ ∀ v,
        (∃ j, Advances L IsGet (es.filterMap (ServiceEvent.server? v)) j) ∧
          ∃ q, Reflects L IsGet q (k.servers v).state ∧
            ∀ r, q < r → r ≤ (k.servers v).raft.lastApplied →
              (k.servers v).OnItsWay r := by
  obtain ⟨k, es, hrun, hlen⟩ : ∃ k es,
      (start 3).run transferRun = some (k, es) ∧ es.length = 13 := by
    decide +kernel
  exact ⟨k, es, hrun, hlen, one_log (by decide +kernel) hrun⟩

end Service

end KVRaftStorage
