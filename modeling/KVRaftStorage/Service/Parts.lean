import KVRaftStorage.Service.System
import KVRaftStorage.Support.Parts

/-!
# The cluster and the servers as parts of the service

The cluster and every server are parts of the service: what happens to the
service is, for each of them, one of its own steps or nothing.  For a server
this is how the service is put together.  For the cluster it says that the two
models agree on what a step does to a Raft node.
-/

namespace KVRaftStorage

open Transition

variable {n : ℕ}

namespace Service

/-! ## Taking a step apart -/

/-- A step of the service, with the steps it consists of. -/
structure Steps (k : Service n) (act : ServiceAction n) (k' : Service n)
    (es : List (ServiceEvent n)) (a : Option (Action n KvState))
    (bs : Parts n) (c : Cluster n KvState) : Prop where
  parts : k.parts act = some (a, bs)
  cluster : k.clusterStep a = some (c, es.filterMap ServiceEvent.raft?)
  servers : ∀ v, k.serverStep v (bs v) =
    some (k'.servers v, es.filterMap (ServiceEvent.server? v))
  boots : k'.boots = c.boots
  elections : k'.elections = c.elections
  rounds : k'.rounds = c.rounds
  reads : k'.reads = c.reads
  readCall : k'.readCall = k.readCallAfter act

theorem filterMap_raft (es : List (Event n KvState))
    (f : Fin n → List KvEvent) :
    (es.map ServiceEvent.raft ++ (List.finRange n).flatMap fun v =>
      (f v).map (ServiceEvent.server v)).filterMap ServiceEvent.raft? = es := by
  have hservers : ((List.finRange n).flatMap fun v =>
      (f v).map (ServiceEvent.server v)).filterMap ServiceEvent.raft? = [] := by
    rw [List.filterMap_eq_nil_iff]
    intro e he
    obtain ⟨v, -, he⟩ := List.mem_flatMap.mp he
    obtain ⟨x, -, rfl⟩ := List.mem_map.mp he
    rfl
  rw [List.filterMap_append, hservers, List.append_nil, List.filterMap_map]
  exact List.filterMap_some

theorem filterMap_server (es : List (Event n KvState))
    (f : Fin n → List KvEvent) (v : Fin n) :
    (es.map ServiceEvent.raft ++ (List.finRange n).flatMap fun v =>
      (f v).map (ServiceEvent.server v)).filterMap
        (ServiceEvent.server? v) = f v := by
  have hraft : (es.map ServiceEvent.raft).filterMap
      (ServiceEvent.server? v) = [] := by
    rw [List.filterMap_eq_nil_iff]
    intro e he
    obtain ⟨x, -, rfl⟩ := List.mem_map.mp he
    rfl
  have hother : ∀ vs : List (Fin n), v ∉ vs → (vs.flatMap fun w =>
      (f w).map (ServiceEvent.server w)).filterMap
        (ServiceEvent.server? v) = [] := by
    intro vs hvs
    rw [List.filterMap_eq_nil_iff]
    intro e he
    obtain ⟨w, hw, he⟩ := List.mem_flatMap.mp he
    obtain ⟨x, -, rfl⟩ := List.mem_map.mp he
    exact if_neg (show w ≠ v from fun heq => hvs (heq ▸ hw))
  have hself : ((f v).map (ServiceEvent.server v)).filterMap
      (ServiceEvent.server? v) = f v := by
    rw [List.filterMap_map]
    exact (List.filterMap_congr fun x _ => if_pos rfl).trans
      List.filterMap_some
  obtain ⟨vs, ws, hvs⟩ := List.append_of_mem (List.mem_finRange v)
  have hnodup := hvs ▸ List.nodup_finRange n
  obtain ⟨hnot, hnot'⟩ : v ∉ vs ∧ v ∉ ws := by
    rw [List.nodup_middle, List.nodup_cons, List.mem_append, not_or] at hnodup
    exact hnodup.1
  rw [hvs, List.flatMap_append, List.flatMap_cons]
  simp only [List.filterMap_append, hraft, hother vs hnot, hother ws hnot',
    hself, List.nil_append, List.append_nil]

theorem step_eq_some {k k' : Service n} {act : ServiceAction n}
    {es : List (ServiceEvent n)} (h : k.step act = some (k', es)) :
    ∃ a bs c, k.Steps act k' es a bs c := by
  simp only [step, Option.bind_eq_bind, Option.bind_eq_some_iff] at h
  obtain ⟨⟨a, bs⟩, hparts, ⟨c, ces⟩, hcluster, h⟩ := h
  split at h
  · next hservers =>
      obtain ⟨rfl, rfl⟩ : _ = k' ∧ _ = es := by simpa using h
      refine ⟨a, bs, c, hparts, ?_, fun v => ?_, rfl, rfl, rfl, rfl, rfl⟩
      · rw [filterMap_raft]
        exact hcluster
      · rw [filterMap_server _ (fun v => ((k.serverStep v (bs v)).get
          (hservers v)).2)]
        exact (Option.some_get (hservers v)).symm
  · cases h

/-! ## The two models agree -/

/-- The nodes after the parts of the servers. -/
def nodesAfter (k : Service n) (bs : Parts n) (v : Fin n) : Raft n KvState :=
  match bs v with
  | none => (k.servers v).raft
  | some b => (k.servers v).raftAfter b

@[simp] theorem nodesAfter_noPart (k : Service n) :
    k.nodesAfter noPart = k.cluster.nodes := rfl

theorem nodesAfter_onePart (k : Service n) (v : Fin n) (b : KvAction n) :
    k.nodesAfter (onePart v b) =
      Function.update k.cluster.nodes v ((k.servers v).raftAfter b) := by
  funext w
  by_cases hw : w = v
  · subst hw
    simp [nodesAfter, onePart]
  · simp [nodesAfter, onePart, hw, cluster]

theorem outcome_map (k : Service n) {v : Fin n} {α : Type}
    {f : α → Raft n KvState} {x : Exec n KvState α} :
    (k.servers v).outcome id (f <$> x) = (k.servers v).outcome f x := by
  cases x <;> rfl

variable {k : Service n} {c : Cluster n KvState} {es : List (Event n KvState)}

theorem nodes_of_some {x : Cluster n KvState × List (Event n KvState)}
    {nodes : Fin n → Raft n KvState} (h : some x = some (c, es))
    (hnodes : x.1.nodes = nodes) : c.nodes = nodes := by
  rw [← hnodes, Option.some.inj h]

/-- A handler of server `v` has the same two outcomes in both models. -/
theorem nodes_eq_after {v : Fin n} {b : KvAction n} {α : Type}
    {f : α → Raft n KvState} {x : Exec n KvState α}
    {nodes : Fin n → Raft n KvState}
    (hb : (k.servers v).raftAfter b = (k.servers v).outcome f x)
    (hok : ∀ y, x = .ok y → nodes = Function.update k.cluster.nodes v (f y))
    (herror : ∀ p, x = .error p →
      nodes = Function.update k.cluster.nodes v (Raft.init v p)) :
    nodes = k.nodesAfter (onePart v b) := by
  rw [nodesAfter_onePart, hb]
  cases hx : x with
  | ok y => exact hok y hx
  | error p =>
      rw [herror p hx, KvServer.outcome, k.me v]

theorem doElection_agree (s : Fin n) :
    (k.cluster.doElection s).1.nodes =
      k.nodesAfter (onePart s (.receive .doElection)) := by
  refine nodes_eq_after (f := id) (x := .ok (k.cluster.nodes s).doElection.1)
    rfl (fun r hr => ?_) (fun p hp => by cases hp)
  obtain rfl := Except.ok.inj hr
  rw [Cluster.doElection]
  split
  · next r heq =>
      obtain rfl : k.cluster.nodes s = r := by
        unfold Raft.doElection at heq
        split at heq
        · exact congrArg Prod.fst heq
        · cases heq
      rw [heq]
      exact (Function.update_eq_self s _).symm
  · next r args heq =>
      rw [heq]
      rfl

theorem requestVote_agree (e : ℕ) (election : Election n) (i : Fin n) :
    (k.cluster.requestVote e election i).1.nodes =
      k.nodesAfter (onePart i (.receive (.requestVote election.args))) := by
  refine nodes_eq_after (x := (k.cluster.nodes i).requestVote election.args)
    (outcome_map k) (fun y hy => ?_) (fun p hp => ?_)
  · rw [Cluster.requestVote, hy]
    rfl
  · rw [Cluster.requestVote, hp]
    rfl

theorem sendRequestVote_agree (e : ℕ) (election : Election n) (i : Fin n)
    (reply : RequestVoteReply) :
    (k.cluster.sendRequestVote e election i reply).1.nodes =
      k.nodesAfter (onePart election.candidate
        (.receive (.sendRequestVote election.votedNum reply))) := by
  refine nodes_eq_after
    (x := (k.cluster.nodes election.candidate).sendRequestVote
      election.votedNum reply) (outcome_map k) (fun y hy => ?_) (fun p hp => ?_)
  · simp only [Cluster.sendRequestVote, hy]
    rfl
  · simp only [Cluster.sendRequestVote, hp]
    rfl

theorem doHeartBeat_agree (s : Fin n) {bs : Parts n}
    (hparts : raftParts k.cluster (.doHeartBeat s) = some bs) :
    (k.cluster.doHeartBeat s).1.nodes = k.nodesAfter bs := by
  simp only [raftParts] at hparts
  simp only [Cluster.doHeartBeat]
  split at hparts
  · next h =>
      obtain rfl := Option.some.inj hparts
      rw [if_neg (not_not.mpr h.1), if_pos h.2, nodesAfter_onePart,
        KvServer.raftAfter, k.me s]
      rfl
  · next h =>
      obtain rfl := Option.some.inj hparts
      split
      · rfl
      · next hl =>
          rw [if_neg fun hfails => h ⟨not_not.mp hl, hfails⟩]
          rfl

theorem appendEntries_agree (h : ℕ) (round : Round n KvState) (i : Fin n)
    (args : AppendEntriesArgs n) :
    (k.cluster.appendEntries h round i args).1.nodes =
      k.nodesAfter (onePart i (.receive (.appendEntries1 args))) := by
  refine nodes_eq_after (x := (k.cluster.nodes i).appendEntries1 args)
    (outcome_map k) (fun y hy => ?_) (fun p hp => ?_)
  · rw [Cluster.appendEntries, hy]
    rfl
  · rw [Cluster.appendEntries, hp]
    rfl

theorem sendAppendEntries_agree (h : ℕ) (round : Round n KvState) (i : Fin n)
    (args : AppendEntriesArgs n) (reply : AppendEntriesReply) :
    (k.cluster.sendAppendEntries h round i args reply).1.nodes =
      k.nodesAfter (onePart round.leader
        (.receive (.sendAppendEntries i args reply round.appendNums))) := by
  refine nodes_eq_after (x := (k.cluster.nodes round.leader).sendAppendEntries i
    args reply round.appendNums) (outcome_map k) (fun y hy => ?_)
    (fun p hp => ?_)
  · simp only [Cluster.sendAppendEntries, hy]
    rfl
  · simp only [Cluster.sendAppendEntries, hp]
    rfl

theorem installSnapshot_agree (h : ℕ) (round : Round n KvState) (i : Fin n)
    (args : InstallSnapshotRequest n KvState) :
    (k.cluster.installSnapshot h round i args).1.nodes =
      k.nodesAfter (onePart i (.installSnapshot args)) := by
  refine nodes_eq_after (f := Prod.fst)
    (x := (k.cluster.nodes i).installSnapshot args) rfl (fun y hy => ?_)
    (fun p hp => ?_)
  · rw [Cluster.installSnapshot, hy]
    rfl
  · rw [Cluster.installSnapshot, hp]
    rfl

theorem applierTicker_agree (s : Fin n) :
    (k.cluster.applierTicker s).1.nodes =
      k.nodesAfter (onePart s .getApplyLogs) := by
  refine nodes_eq_after (f := Prod.fst) (x := (k.cluster.nodes s).getApplyLogs)
    rfl (fun y hy => ?_) (fun p hp => ?_)
  · rw [Cluster.applierTicker, hy]
    rfl
  · rw [Cluster.applierTicker, hp]
    rfl

theorem readAppendEntries_agree (q : ℕ) (read : ReadCall n) (i : Fin n)
    (args : AppendEntriesArgs n) :
    (k.cluster.readAppendEntries q read i args).1.nodes =
      k.nodesAfter (onePart i (.receive (.appendEntries1 args))) := by
  refine nodes_eq_after (x := (k.cluster.nodes i).appendEntries1 args)
    (outcome_map k) (fun y hy => ?_) (fun p hp => ?_)
  · rw [Cluster.readAppendEntries, hy]
    rfl
  · rw [Cluster.readAppendEntries, hp]
    rfl

theorem snapshot_agree (s : Fin n) {i : ℕ} {op : Op} {image : KvState}
    (hloop : (k.servers s).loop = .snapshotting i op image)
    (hstep : k.cluster.step (.snapshot s i (some image)) = some (c, es)) :
    c.nodes = k.nodesAfter (onePart s .snapshot) := by
  refine nodes_eq_after (f := id)
    (x := (k.cluster.nodes s).snapshot i (some image))
    (by rw [KvServer.raftAfter, hloop]; rfl) (fun y hy => ?_) (fun p hp => ?_)
  · simp only [Cluster.step, hy] at hstep
    exact nodes_of_some hstep rfl
  · simp only [Cluster.step, hp] at hstep
    exact nodes_of_some hstep rfl

/-- The process of `v` ends and is started again. -/
theorem restart_agree (v : Fin n) :
    Function.update k.cluster.nodes v
        (Raft.init v (k.servers v).raft.persister) =
      k.nodesAfter (onePart v .restart) := by
  rw [nodesAfter_onePart, KvServer.raftAfter, k.me v]

/-- A Raft thread leaves the nodes that the servers are left with. -/
theorem raftParts_agree {a : Action n KvState} {bs : Parts n}
    (hparts : raftParts k.cluster a = some bs)
    (hstep : k.cluster.step a = some (c, es)) : c.nodes = k.nodesAfter bs := by
  cases a with
  | doElection s =>
      obtain rfl := Option.some.inj hparts
      exact nodes_of_some hstep (doElection_agree s)
  | doHeartBeat s => exact nodes_of_some hstep (doHeartBeat_agree s hparts)
  | applierTicker s =>
      obtain rfl := Option.some.inj hparts
      exact nodes_of_some hstep (applierTicker_agree s)
  | restart s =>
      obtain rfl := Option.some.inj hparts
      exact nodes_of_some hstep (restart_agree s)
  | start | snapshot | readIndex | readIndexReturn => cases hparts
  | requestVote e i =>
      obtain ⟨election, he, hparts⟩ := Option.bind_eq_some_iff.mp hparts
      simp only [Cluster.step, Option.bind_eq_bind, he,
        Option.bind_some] at hstep
      obtain rfl := Option.some.inj hparts
      split at hstep
      · exact nodes_of_some hstep (requestVote_agree ..)
      · cases hstep
  | sendRequestVote e i =>
      obtain ⟨election, he, hparts⟩ := Option.bind_eq_some_iff.mp hparts
      simp only [Cluster.step, Option.bind_eq_bind, he,
        Option.bind_some] at hstep
      split at hparts
      · next reply hcall =>
          obtain rfl := Option.some.inj hparts
          simp only [hcall, Option.ite_none_right_eq_some] at hstep
          exact nodes_of_some hstep.2 (sendRequestVote_agree ..)
      · cases hparts
  | appendEntries h i =>
      obtain ⟨round, hr, hparts⟩ := Option.bind_eq_some_iff.mp hparts
      simp only [Cluster.step, Option.bind_eq_bind, hr,
        Option.bind_some] at hstep
      split at hstep
      · next args hthread =>
          rw [hthread] at hparts
          obtain rfl := Option.some.inj hparts
          exact nodes_of_some hstep (appendEntries_agree ..)
      · cases hstep
  | sendAppendEntries h i =>
      obtain ⟨round, hr, hparts⟩ := Option.bind_eq_some_iff.mp hparts
      simp only [Cluster.step, Option.bind_eq_bind, hr,
        Option.bind_some] at hstep
      split at hparts
      · next args reply hthread =>
          obtain rfl := Option.some.inj hparts
          simp only [hthread, Option.ite_none_right_eq_some] at hstep
          exact nodes_of_some hstep.2 (sendAppendEntries_agree ..)
      · cases hparts
  | leaderSendSnapShot h i =>
      obtain rfl := Option.some.inj hparts
      simp only [Cluster.step, Option.bind_eq_bind,
        Option.bind_eq_some_iff] at hstep
      obtain ⟨round, -, hstep⟩ := hstep
      split at hstep
      · rw [Option.ite_none_right_eq_some] at hstep
        exact nodes_of_some hstep.2 rfl
      · cases hstep
  | installSnapshot h i =>
      obtain ⟨round, hr, hparts⟩ := Option.bind_eq_some_iff.mp hparts
      simp only [Cluster.step, Option.bind_eq_bind, hr,
        Option.bind_some] at hstep
      split at hstep
      · next args hthread =>
          rw [hthread] at hparts
          obtain rfl := Option.some.inj hparts
          exact nodes_of_some hstep (installSnapshot_agree ..)
      · cases hstep
  | installSnapshotCrash h i =>
      obtain ⟨round, hr, hparts⟩ := Option.bind_eq_some_iff.mp hparts
      simp only [Cluster.step, Option.bind_eq_bind, hr,
        Option.bind_some] at hstep
      split at hstep
      · next args hthread =>
          rw [hthread] at hparts
          obtain rfl := Option.some.inj hparts
          rw [Option.ite_none_left_eq_some] at hstep
          refine nodes_of_some hstep.2 ?_
          rw [nodesAfter_onePart, KvServer.raftAfter, k.me i]
          rfl
      · cases hstep
  | snapShotSent h i =>
      obtain ⟨round, hr, hparts⟩ := Option.bind_eq_some_iff.mp hparts
      simp only [Cluster.step, Option.bind_eq_bind, hr,
        Option.bind_some] at hstep
      split at hparts
      · next args reply hthread =>
          obtain rfl := Option.some.inj hparts
          simp only [hthread, Option.ite_none_right_eq_some] at hstep
          refine nodes_of_some hstep.2 ?_
          rw [nodesAfter_onePart]
          rfl
      · cases hparts
  | readIndexSend q i =>
      obtain ⟨read, hq, hparts⟩ := Option.bind_eq_some_iff.mp hparts
      simp only [Cluster.step, Option.bind_eq_bind, hq,
        Option.bind_some] at hstep
      split at hstep
      · rw [Option.ite_none_right_eq_some] at hstep
        refine nodes_of_some hstep.2 ?_
        unfold Cluster.readIndexSend
        split at hparts
        · next p herror =>
            obtain rfl := Option.some.inj hparts
            simp only [herror]
            rw [Raft.readIndexArgs_eq_error herror]
            exact restart_agree read.server
        · next sent hok =>
            obtain rfl := Option.some.inj hparts
            cases sent with
            | none => simp only [hok, nodesAfter_noPart]; rfl
            | some args => simp only [hok, nodesAfter_noPart]; rfl
      · cases hstep
  | readAppendEntries q i =>
      obtain ⟨read, hq, hparts⟩ := Option.bind_eq_some_iff.mp hparts
      simp only [Cluster.step, Option.bind_eq_bind, hq,
        Option.bind_some] at hstep
      split at hstep
      · next args hthread =>
          rw [hthread] at hparts
          obtain rfl := Option.some.inj hparts
          exact nodes_of_some hstep (readAppendEntries_agree ..)
      · cases hstep
  | readIndexReply q i =>
      obtain rfl := Option.some.inj hparts
      simp only [Cluster.step, Option.bind_eq_bind,
        Option.bind_eq_some_iff] at hstep
      obtain ⟨read, -, hstep⟩ := hstep
      split at hstep
      · rw [Option.ite_none_right_eq_some] at hstep
        exact nodes_of_some hstep.2 rfl
      · cases hstep

/-- A thread of a server leaves the node of that server as the cluster has
it. -/
theorem serverPart_agree {v : Fin n} {b : KvAction n}
    {a : Option (Action n KvState)} (hpart : k.serverPart v b = some a)
    (hstep : k.clusterStep a = some (c, es)) :
    c.nodes = k.nodesAfter (onePart v b) := by
  -- the other threads do not touch the cluster
  have hnone : a = none → (k.servers v).raftAfter b = (k.servers v).raft →
      c.nodes = k.nodesAfter (onePart v b) := by
    rintro rfl hraft
    rw [nodesAfter_onePart, hraft]
    exact nodes_of_some hstep (Function.update_eq_self v _).symm
  cases b with
  | start h =>
      obtain ⟨handler, hget, hpart⟩ := Option.bind_eq_some_iff.mp hpart
      obtain rfl := Option.some.inj hpart
      rw [nodesAfter_onePart, KvServer.raftAfter, hget]
      exact nodes_of_some hstep rfl
  | snapshot =>
      simp only [serverPart] at hpart
      split at hpart
      · next hloop =>
          obtain rfl := Option.some.inj hpart
          exact snapshot_agree v hloop hstep
      · cases hpart
  | readIndex h =>
      obtain rfl := Option.some.inj hpart
      refine nodes_of_some hstep ?_
      rw [nodesAfter_onePart, Cluster.readIndex]
      split <;> exact (Function.update_eq_self v _).symm
  | readIndexReturn h =>
      obtain rfl := Option.some.inj hpart
      obtain ⟨read, -, hstep⟩ := Option.bind_eq_some_iff.mp hstep
      rw [Option.ite_none_right_eq_some] at hstep
      rw [nodesAfter_onePart]
      exact nodes_of_some hstep.2 (Function.update_eq_self v _).symm
  | receive | getApplyLogs | installSnapshot | installSnapshotCrash | restart
  | call | answered | answeredElsewhere => cases hpart
  | pushCommand | pushMsgToKvServer | readSnapShotToInstall | pop | execute
  | makeSnapShot | skipSnapshot | sendMessageToWaitChan | arrive
  | waitForApplied | readOnlyGet | registerWait | timeOutPop | timeOut
  | checkDuplicate | executeGet | eraseWait =>
      exact hnone (Option.some.inj hpart).symm rfl

theorem parts_agree {act : ServiceAction n} {a : Option (Action n KvState)}
    {bs : Parts n} (hparts : k.parts act = some (a, bs))
    (hstep : k.clusterStep a = some (c, es)) : c.nodes = k.nodesAfter bs := by
  cases act with
  | raft a' =>
      obtain ⟨bs', hbs, hparts⟩ := Option.bind_eq_some_iff.mp hparts
      obtain ⟨rfl, rfl⟩ : some a' = a ∧ bs' = bs := by simpa using hparts
      exact raftParts_agree hbs hstep
  | server v b =>
      obtain ⟨a', ha, hparts⟩ := Option.bind_eq_some_iff.mp hparts
      obtain ⟨rfl, rfl⟩ : a' = a ∧ onePart v b = bs := by simpa using hparts
      exact serverPart_agree ha hstep
  | call clientId request =>
      obtain ⟨rfl, rfl⟩ : none = a ∧ _ = bs := by simpa [parts] using hparts
      exact nodes_of_some hstep rfl
  | answered clientId v h =>
      obtain ⟨rfl, rfl⟩ : none = a ∧ _ = bs := by simpa [parts] using hparts
      refine nodes_of_some hstep (funext fun w => ?_)
      simp only [nodesAfter]
      split <;> rfl

variable {k' : Service n} {act : ServiceAction n}
  {ses : List (ServiceEvent n)} {a : Option (Action n KvState)} {bs : Parts n}

theorem Steps.cluster_eq (h : k.Steps act k' ses a bs c) : k'.cluster = c := by
  have hnodes : k'.cluster.nodes = c.nodes := by
    rw [parts_agree h.parts h.cluster]
    funext v
    have hstep := h.servers v
    simp only [nodesAfter]
    cases hb : bs v with
    | none =>
        rw [hb] at hstep
        have := congrArg Prod.fst (Option.some.inj hstep)
        exact congrArg KvServer.raft this.symm
    | some b =>
        rw [hb] at hstep
        exact KvServer.step_raft hstep
  obtain ⟨nodes, boots, elections, rounds, reads⟩ := c
  obtain rfl : _ = nodes := hnodes
  obtain rfl : _ = boots := h.boots
  obtain rfl : _ = elections := h.elections
  obtain rfl : _ = rounds := h.rounds
  obtain rfl : _ = reads := h.reads
  rfl

/-! ## The parts -/

/-- What the cluster does in a step of the service. -/
def clusterAction (k : Service n) (act : ServiceAction n) :
    Option (Action n KvState) :=
  (k.parts act).bind Prod.fst

/-- What server `v` does in a step of the service. -/
def serverAction (v : Fin n) (k : Service n) (act : ServiceAction n) :
    Option (KvAction n) :=
  (k.parts act).bind fun p => p.2 v

theorem cluster_isPart :
    IsPart (step (n := n)) Cluster.step cluster clusterAction
      ServiceEvent.raft? where
  moves k act k' es a hstep haction := by
    obtain ⟨a', bs, c, h⟩ := step_eq_some hstep
    obtain rfl : a' = some a := by simpa [clusterAction, h.parts] using haction
    rw [h.cluster_eq]
    exact h.cluster
  rests k act k' es hstep haction := by
    obtain ⟨a', bs, c, h⟩ := step_eq_some hstep
    obtain rfl : a' = none := by simpa [clusterAction, h.parts] using haction
    have hcluster := Prod.mk.inj (Option.some.inj h.cluster)
    exact ⟨h.cluster_eq.trans hcluster.1.symm, hcluster.2.symm⟩

theorem server_isPart (v : Fin n) :
    IsPart (step (n := n)) KvServer.step (fun k => k.servers v)
      (serverAction v) (ServiceEvent.server? v) where
  moves k act k' es b hstep haction := by
    obtain ⟨a, bs, c, h⟩ := step_eq_some hstep
    have hb : bs v = some b := by simpa [serverAction, h.parts] using haction
    have hserver := h.servers v
    rw [hb] at hserver
    exact hserver
  rests k act k' es hstep haction := by
    obtain ⟨a, bs, c, h⟩ := step_eq_some hstep
    have hb : bs v = none := by simpa [serverAction, h.parts] using haction
    have hserver := h.servers v
    rw [hb] at hserver
    have hserver := Prod.mk.inj (Option.some.inj hserver)
    exact ⟨hserver.1.symm, hserver.2.symm⟩

theorem step_server (hstep : k.step act = some (k', ses)) (v : Fin n) :
    (serverAction v k act = none ∧ k'.servers v = k.servers v ∧
        ses.filterMap (ServiceEvent.server? v) = []) ∨
      ∃ b, serverAction v k act = some b ∧ (k.servers v).step b =
        some (k'.servers v, ses.filterMap (ServiceEvent.server? v)) :=
  (server_isPart v).step_cases hstep

/-- A step of a server's thread is one of that server. -/
theorem step_own {v : Fin n} {b : KvAction n}
    (hstep : k.step (.server v b) = some (k', ses)) :
    (k.servers v).step b =
      some (k'.servers v, ses.filterMap (ServiceEvent.server? v)) := by
  obtain ⟨a, bs, c, h⟩ := step_eq_some hstep
  obtain ⟨a', -, hparts⟩ := Option.bind_eq_some_iff.mp h.parts
  obtain ⟨-, rfl⟩ : a' = a ∧ onePart v b = bs := by simpa using hparts
  have hserver := h.servers v
  rwa [onePart, if_pos rfl] at hserver

@[simp] theorem cluster_start :
    (start n).cluster = Cluster.start n KvState := rfl

end Service

end KVRaftStorage
