import KVRaftStorage.KvServer.Provenance
import KVRaftStorage.KvServer.ReadPath
import KVRaftStorage.Raft.Submissions
import KVRaftStorage.Service.OneLog

/-!
# The clerks of the service

All servers know the same clerks and the same requests.  What a server passes
to `Start` is the operation of a request, so every command that is handed out,
no-ops apart, is that of a request which a clerk has sent.
-/

namespace KVRaftStorage

open Transition

variable {n : ℕ}

namespace Rpc

@[simp] theorem op_clientId (rpc : Rpc) (now : ℕ) :
    (rpc.op now).clientId = rpc.clientId := by
  unfold op
  split <;> rfl

@[simp] theorem op_requestId (rpc : Rpc) (now : ℕ) :
    (rpc.op now).requestId = rpc.requestId := by
  unfold op
  split <;> rfl

def isGet (rpc : Rpc) : Bool :=
  match rpc.request with
  | .get _ => true
  | .putAppend .. => false

end Rpc

namespace KvServer

variable {s s' : KvServer n} {a : KvAction n} {es : List KvEvent}

/-- Only the clerks themselves change what is known of them. -/
theorem step_sameClerks (hstep : s.step a = some (s', es))
    (hcall : ∀ c request, a ≠ .call c request)
    (hanswered : ∀ c h, a ≠ .answered c h)
    (helsewhere : ∀ c, a ≠ .answeredElsewhere c) : s.SameClerks s' := by
  cases (step_serves hstep).clerksStep with
  | same h => exact h
  | called => exact absurd rfl (hcall _ _)
  | answered => exact absurd rfl (hanswered _ _)
  | answeredElsewhere => exact absurd rfl (helsewhere _)

/-- What a call of a clerk does to every server. -/
theorem call_eq_some {c : String} {request : Request}
    (hstep : s.step (.call c request) = some (s', es)) :
    s'.clerks = Function.update s.clerks c
        { requestId := (s.clerks c).requestId + 1, pending := some request } ∧
      s'.rpcs = s.rpcs ++
        [{ clientId := c, requestId := (s.clerks c).requestId + 1,
           request := request }] := by
  simp only [step, call] at hstep
  split at hstep
  · cases hstep
  · obtain rfl := congrArg Prod.fst (Option.some.inj hstep)
    exact ⟨rfl, rfl⟩

theorem answered_eq_some {c : String} {h : ℕ}
    (hstep : s.step (.answered c h) = some (s', es)) : s' = s.settle c := by
  simp only [step, answered, Option.bind_eq_bind,
    Option.bind_eq_some_iff] at hstep
  obtain ⟨handler, -, hstep⟩ := hstep
  split at hstep
  · rw [Option.ite_none_right_eq_some] at hstep
    exact (congrArg Prod.fst (Option.some.inj hstep.2)).symm
  · cases hstep

end KvServer

namespace Service

variable {k k' : Service n} {act : ServiceAction n}
  {es es' : List (ServiceEvent n)} {as : List (ServiceAction n)}

/-! ## The steps of the clerks -/

-- neither a Raft thread nor a thread of a server takes a clerk's step

theorem call_of_part {v : Fin n} {c : String} {request : Request}
    (hb : serverAction v k act = some (.call c request)) :
    act = .call c request := by
  cases serverAction_takesPart hb with
  | raft hreached => cases hreached
  | own a ha => cases ha
  | call => rfl

theorem answered_of_part {v : Fin n} {c : String} {i : ℕ}
    (hb : serverAction v k act = some (.answered c i)) :
    act = .answered c v i := by
  cases serverAction_takesPart hb with
  | raft hreached => cases hreached
  | own a ha => cases ha
  | answered => rfl

theorem answeredElsewhere_of_part {v : Fin n} {c : String}
    (hb : serverAction v k act = some (.answeredElsewhere c)) :
    ∃ w i, act = .answered c w i := by
  cases serverAction_takesPart hb with
  | raft hreached => cases hreached
  | own a ha => cases ha
  | answeredElsewhere _ w i => exact ⟨w, i, rfl⟩

/-- A call of a clerk reaches every server. -/
theorem step_call {c : String} {request : Request}
    (hstep : k.step (.call c request) = some (k', es)) (v : Fin n) :
    (k.servers v).step (.call c request) =
      some (k'.servers v, es.filterMap (ServiceEvent.server? v)) :=
  (server_isPart v).moves k _ k' es _ hstep (by simp [serverAction, parts])

/-- The clerk takes the answer of server `u`. -/
theorem step_answered {c : String} {u : Fin n} {i : ℕ}
    (hstep : k.step (.answered c u i) = some (k', es)) :
    (k.servers u).step (.answered c i) =
      some (k'.servers u, es.filterMap (ServiceEvent.server? u)) :=
  (server_isPart u).moves k _ k' es _ hstep (by simp [serverAction, parts])

/-- Every server knows that the clerk has its answer. -/
theorem answered_settle {c : String} {u : Fin n} {i : ℕ}
    (hstep : k.step (.answered c u i) = some (k', es)) (v : Fin n) :
    k'.servers v = (k.servers v).settle c := by
  by_cases hv : v = u
  · subst hv
    exact KvServer.answered_eq_some (step_answered hstep)
  · have hserver := (server_isPart v).moves k _ k' es (.answeredElsewhere c)
      hstep (by simp [serverAction, parts, hv])
    exact (congrArg Prod.fst (Option.some.inj hserver)).symm

/-! ## All servers know the same clerks -/

/-- The servers agree on the clerks, and their handlers work on requests. -/
structure SharesClerks (k : Service n) : Prop where
  agree : ∀ v w, (k.servers v).SameClerks (k.servers w)
  numbered : ∀ v, (k.servers v).Numbered
  fit : ∀ v, (k.servers v).HandlersFit

namespace SharesClerks

theorem start : (Service.start n).SharesClerks where
  agree := fun v w => ⟨rfl, rfl⟩
  numbered := KvServer.Numbered.start
  fit := fun v handler hmem => by
    simp [Service.start, KvServer.start, KvServer.boot] at hmem

/-- A server that takes no clerk's step keeps the clerks. -/
theorem same_of_own (hstep : k.step act = some (k', es))
    (hcall : ∀ c request, act ≠ .call c request)
    (hanswered : ∀ c v h, act ≠ .answered c v h) (v : Fin n) :
    (k.servers v).SameClerks (k'.servers v) := by
  rcases step_server hstep v with ⟨-, hsame, -⟩ | ⟨b, hb, hserver⟩
  · rw [hsame]
    exact ⟨rfl, rfl⟩
  · refine KvServer.step_sameClerks hserver ?_ ?_ ?_
    · rintro c request rfl
      exact hcall _ _ (call_of_part hb)
    · rintro c i rfl
      exact hanswered _ _ _ (answered_of_part hb)
    · rintro c rfl
      obtain ⟨w, i, hact⟩ := answeredElsewhere_of_part hb
      exact hanswered _ _ _ hact

theorem agree_step (h : k.SharesClerks) (hstep : k.step act = some (k', es)) :
    ∀ v w, (k'.servers v).SameClerks (k'.servers w) := by
  intro v w
  have hold := h.agree v w
  -- the clerks stay unless a clerk takes the step
  have hsame : (∀ u, (k.servers u).SameClerks (k'.servers u)) →
      (k'.servers v).SameClerks (k'.servers w) := fun hkeep =>
    ⟨((hkeep w).clerks.trans hold.clerks).trans (hkeep v).clerks.symm,
      ((hkeep w).rpcs.trans hold.rpcs).trans (hkeep v).rpcs.symm⟩
  cases act with
  | raft a => exact hsame (same_of_own hstep (by simp) (by simp))
  | server u b => exact hsame (same_of_own hstep (by simp) (by simp))
  | call c request =>
      have hmoves := fun u => KvServer.call_eq_some (step_call hstep u)
      constructor
      · rw [(hmoves v).1, (hmoves w).1, hold.clerks]
      · rw [(hmoves v).2, (hmoves w).2, hold.clerks, hold.rpcs]
  | answered c u i =>
      have hsettle := answered_settle hstep
      constructor
      · simp only [hsettle, KvServer.settle, hold.clerks]
      · simp only [hsettle, KvServer.settle, hold.rpcs]

theorem step (h : k.SharesClerks) (hstep : k.step act = some (k', es)) :
    k'.SharesClerks := by
  have hserver : ∀ v, (k'.servers v).Numbered ∧ (k'.servers v).HandlersFit := by
    intro v
    rcases step_server hstep v with ⟨-, hsame, -⟩ | ⟨b, -, hserver⟩
    · rw [hsame]
      exact ⟨h.numbered v, h.fit v⟩
    · exact ⟨(h.numbered v).step (KvServer.step_serves hserver),
        (h.fit v).step hserver⟩
  exact ⟨h.agree_step hstep, fun v => (hserver v).1, fun v => (hserver v).2⟩

/-- Requests stay sent. -/
theorem sent_step (hstep : k.step act = some (k', es)) {v : Fin n} {rpc : Rpc}
    (hrpc : rpc ∈ (k.servers v).rpcs) : rpc ∈ (k'.servers v).rpcs := by
  rcases step_server hstep v with ⟨-, hsame, -⟩ | ⟨b, -, hserver⟩
  · rwa [hsame]
  · exact (KvServer.step_serves hserver).clerksStep.sent hrpc

end SharesClerks

theorem sharesClerks_along (hrun : (start n).run as = some (k, es)) :
    k.SharesClerks :=
  run_invariant (fun _ _ _ _ _ hI hstep => hI.step hstep)
    (throughout_true _ as) .start hrun

/-! ## What is handed out -/

/-- The operation of a request that was sent. -/
def Sent (k : Service n) (x : Op) : Prop :=
  ∃ v, ∃ rpc ∈ (k.servers v).rpcs, ∃ now, x = rpc.op now

theorem Sent.step {x : Op} (h : k.Sent x)
    (hstep : k.step act = some (k', es)) : k'.Sent x := by
  obtain ⟨v, rpc, hrpc, now, rfl⟩ := h
  exact ⟨v, rpc, SharesClerks.sent_step hstep hrpc, now, rfl⟩

/-- `Start` is called for a handler. -/
theorem start_handler {v : Fin n} {x : Op}
    (h : k.clusterAction act = some (.start v x)) :
    ∃ handler ∈ (k.servers v).handlers, handler.op = x := by
  obtain ⟨⟨a, bs⟩, hparts, ha⟩ := Option.bind_eq_some_iff.mp h
  obtain rfl : a = some (.start v x) := ha
  cases act with
  | raft a' =>
      obtain ⟨bs', hbs, hparts⟩ := Option.bind_eq_some_iff.mp hparts
      obtain ⟨rfl, -⟩ : a' = .start v x ∧ bs' = bs := by simpa using hparts
      cases hbs
  | server w b =>
      obtain ⟨a', ha', hparts⟩ := Option.bind_eq_some_iff.mp hparts
      obtain ⟨rfl, -⟩ : a' = some (.start v x) ∧ onePart w b = bs := by
        simpa using hparts
      cases b with
      | start i =>
          obtain ⟨handler, hget, heq⟩ := Option.bind_eq_some_iff.mp ha'
          obtain ⟨rfl, rfl⟩ : w = v ∧ handler.op = x := by simpa using heq
          exact ⟨handler, List.mem_of_getElem? hget, rfl⟩
      | snapshot =>
          simp only [serverPart] at ha'
          split at ha' <;> simp at ha'
      | _ => simp [serverPart] at ha'
  | call | answered => simp [parts] at hparts

theorem starts_sent (hrun : (start n).run as = some (k, es)) :
    ∀ v x, .start v x ∈ partActions step clusterAction (start n) as →
      k.Sent x := by
  refine run_trace (I := fun as k _ => ∀ v x,
    .start v x ∈ partActions step clusterAction (start n) as → k.Sent x)
    (by simp [partActions]) ?_ (throughout_true _ as) hrun
  intro as k es act k' es' _ hrun hI hstep v x hmem
  rw [partActions_append hrun, List.mem_append] at hmem
  rcases hmem with hold | hnew
  · exact (hI v x hold).step hstep
  · have hshares := sharesClerks_along hrun
    simp only [partActions, hstep, List.append_nil, Option.mem_toList] at hnew
    obtain ⟨handler, hmem, rfl⟩ := start_handler hnew
    obtain ⟨now, hop⟩ := ((hshares.fit v) handler hmem).1
    exact Sent.step ⟨v, handler.rpc, (hshares.numbered v).handlers handler hmem,
      now, hop⟩ hstep

/-- Every command that is handed out, no-ops apart, is that of a request. -/
theorem handedOut_sent (hrun : (start n).run as = some (k, es)) {v : Fin n}
    {i : ℕ} {x : Op} (hmem : .raft (.handedOut v i x) ∈ es)
    (hclient : x.FromClient) : k.Sent x := by
  obtain ⟨B, minted, call, -, hcalls, hes⟩ :=
    submitted_along (cluster_isPart.run hrun)
  obtain ⟨T, hT⟩ := hes v i x (mem_raft?.mpr hmem)
  obtain ⟨u, hu⟩ := hcalls.source T i x hT hclient
  exact starts_sent hrun u x (List.mem_of_getElem? hu)

end Service

end KVRaftStorage
