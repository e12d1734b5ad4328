import KVRaftStorage.Service.Clerks
import KVRaftStorage.Service.Reads

/-!
# Writes of the whole service

A write that its clerk takes for done was handed out as an entry of the log,
whoever answered it and however often it was sent.  This needs no order of
delivery and not even the protocol: a server acknowledges a write because it
has found the request in its own queue or in its request table, and both come
from what Raft handed out somewhere.

When the protocol is kept, writes take effect in the order in which their
clerks can tell, and a read sees every write that was done before it began.
-/

namespace KVRaftStorage

open Transition

variable {n : ℕ}

/-! ## What a handler has answered -/

def Phase.reply? : Phase → Option Reply
  | .replied _ reply => some reply
  | .finished reply => some reply
  | _ => none

namespace KvServer

/-- The handlers of writes stay on the log path, and acknowledge only requests
in `acked`. -/
structure AnswersWrites (acked : Rpc → Prop) (s : KvServer n) : Prop where
  path : ∀ handler ∈ s.handlers, handler.isGet = false →
    handler.phase.readIndex? = none ∧ ∀ i, handler.phase ≠ .granted i
  answers : ∀ handler ∈ s.handlers, handler.isGet = false → ∀ reply,
    handler.phase.reply? = some reply → reply = wrongLeader ∨ acked handler.rpc

variable {s s' : KvServer n} {a : KvAction n} {es : List KvEvent}
  {acked acked' : Rpc → Prop}

/-- Where the handler of a write goes on. -/
theorem Progress.write {handler : Handler} {phase : Phase}
    (h : s.Progress handler phase) (hwrite : handler.isGet = false)
    (hread : handler.phase.readIndex? = none)
    (hgranted : ∀ i, handler.phase ≠ .granted i) :
    (phase.readIndex? = none ∧ ∀ i, phase ≠ .granted i) ∧
      ∀ reply, phase.reply? = some reply → reply = wrongLeader ∨
        handler.phase.reply? = some reply ∨
        (∃ i, ∃ op ∈ (s.waitApplyCh i).getD [],
          op.clientId = handler.op.clientId ∧
            op.requestId = handler.op.requestId) ∨
        s.state.ifRequestDuplicate handler.op.clientId
          handler.op.requestId = true := by
  have hack : ∀ i, handler.acknowledge i =
      .replied i { err := .ok, value := "" } := by
    intro i
    rw [Handler.acknowledge, if_neg (by simp [hwrite])]
  cases h with
  | confirming _ hget => simp [hwrite] at hget
  | waitingApplied hphase | applied hphase | read hphase =>
      simp [hphase, Phase.readIndex?] at hread
  | executed hphase => exact absurd hphase (hgranted _)
  | waiting | timedOut => simp [Phase.readIndex?, Phase.reply?]
  | refused | mismatched | unknown =>
      exact ⟨⟨rfl, by simp⟩, fun reply hreply =>
        .inl (Option.some.inj hreply).symm⟩
  | @notified i op rest _ _ hqueue hclient hrequest hnext =>
      rw [hnext, hack]
      refine ⟨⟨rfl, by simp⟩, fun reply _ => .inr (.inr (.inl ⟨i, op, ?_,
        hclient, hrequest⟩))⟩
      rw [hqueue]
      exact List.mem_cons_self
  | duplicate _ hduplicate hnext =>
      rw [hnext, hack]
      exact ⟨⟨rfl, by simp⟩, fun reply _ => .inr (.inr (.inr hduplicate))⟩
  | erased hphase =>
      refine ⟨⟨rfl, by simp⟩, fun reply hreply => .inr (.inl ?_)⟩
      rw [hphase]
      exact hreply

theorem AnswersWrites.step (h : s.AnswersWrites acked)
    (hfit : s.HandlersFit) (hmono : ∀ rpc, acked rpc → acked' rpc)
    (hnotified : ∀ handler ∈ s.handlers, ∀ i, ∀ op ∈ (s.waitApplyCh i).getD [],
      op.clientId = handler.rpc.clientId →
      op.requestId = handler.rpc.requestId → acked' handler.rpc)
    (hduplicate : ∀ handler ∈ s.handlers, handler.isGet = false →
      s.state.ifRequestDuplicate handler.rpc.clientId
        handler.rpc.requestId = true → acked' handler.rpc)
    (hstep : s.step a = some (s', es)) : s'.AnswersWrites acked' := by
  have hhandler : ∀ handler ∈ s'.handlers, handler.isGet = false →
      (handler.phase.readIndex? = none ∧
        ∀ i, handler.phase ≠ .granted i) ∧
      ∀ reply, handler.phase.reply? = some reply →
        reply = wrongLeader ∨ acked' handler.rpc := by
    intro handler hmem hwrite
    obtain ⟨j, hj⟩ := List.mem_iff_getElem?.mp hmem
    rcases (step_serves hstep).handler_cases hj with
      hsame | ⟨rpc, -, now, rfl⟩ | ⟨handler, phase, hget, rfl, hmoved⟩
    · have hmem := List.mem_of_getElem? hsame
      exact ⟨h.path handler hmem hwrite, fun reply hreply =>
        (h.answers handler hmem hwrite reply hreply).imp_right (hmono _)⟩
    · exact ⟨⟨rfl, by simp⟩, by simp [Phase.reply?]⟩
    · have hmem := List.mem_of_getElem? hget
      obtain ⟨now, hop⟩ := (hfit handler hmem).1
      rcases hmoved with hprogress | ⟨-, i, rfl⟩
      · obtain ⟨hpath, hreplies⟩ := hprogress.write hwrite
          (h.path handler hmem hwrite).1 (h.path handler hmem hwrite).2
        rw [hop, Rpc.op_clientId, Rpc.op_requestId] at hreplies
        refine ⟨hpath, fun reply hreply => ?_⟩
        rcases hreplies reply hreply with
          hwrong | hold | ⟨i, op, hqueue, hclient, hrequest⟩ | hdup
        · exact .inl hwrong
        · exact (h.answers handler hmem hwrite reply hold).imp_right (hmono _)
        · exact .inr (hnotified handler hmem i op hqueue hclient hrequest)
        · exact .inr (hduplicate handler hmem hwrite hdup)
      · exact ⟨⟨rfl, by simp⟩, by simp [Phase.reply?]⟩
  exact ⟨fun handler hmem hwrite => (hhandler handler hmem hwrite).1,
    fun handler hmem hwrite => (hhandler handler hmem hwrite).2⟩

end KvServer

namespace Service

variable {k k' : Service n} {act : ServiceAction n}
  {es es' : List (ServiceEvent n)} {as : List (ServiceAction n)} {rpc : Rpc}

/-! ## Requests in the log -/

/-- Some server has handed out the operation. -/
def HandedOut (es : List (ServiceEvent n)) (x : Op) : Prop :=
  ∃ v i, .raft (.handedOut v i x) ∈ es

/-- Some server has handed out the operation of the request. -/
def Logged (es : List (ServiceEvent n)) (rpc : Rpc) : Prop :=
  ∃ now, HandedOut es (rpc.op now)

/-- The request is in the log, or its clerk carries the name that the no-ops
carry. -/
def Acked (es : List (ServiceEvent n)) (rpc : Rpc) : Prop :=
  rpc.clientId ≠ (Raft.noop 0).clientId → Logged es rpc

/-- The number is that of a read or of a write in the log. -/
def Asked (k : Service n) (es : List (ServiceEvent n)) (c : String) (r : ℤ) :
    Prop :=
  ∃ v, ∃ rpc ∈ (k.servers v).rpcs, rpc.clientId = c ∧ rpc.requestId = r ∧
    (rpc.isGet = true ∨ Logged es rpc)

theorem HandedOut.append {x : Op} (h : HandedOut es x) :
    HandedOut (es ++ es') x := by
  obtain ⟨v, i, hmem⟩ := h
  exact ⟨v, i, List.mem_append_left _ hmem⟩

theorem Logged.append (h : Logged es rpc) : Logged (es ++ es') rpc := by
  obtain ⟨now, hout⟩ := h
  exact ⟨now, hout.append⟩

theorem Asked.step {c : String} {r : ℤ} (h : k.Asked es c r)
    (hstep : k.step act = some (k', es')) : k'.Asked (es ++ es') c r := by
  obtain ⟨v, rpc, hrpc, hclient, hrequest, hwhy⟩ := h
  exact ⟨v, rpc, SharesClerks.sent_step hstep hrpc, hclient, hrequest,
    hwhy.imp_right .append⟩

theorem fromClient_of_writes {x : Op} (h : KvState.Writes x) :
    x.FromClient := by
  rintro T rfl
  simp [KvState.Writes, Raft.noop] at h

theorem fromClient_of_clientId {x : Op}
    (h : x.clientId ≠ (Raft.noop 0).clientId) : x.FromClient := by
  rintro T rfl
  exact h rfl

namespace SharesClerks

/-- All servers know the same requests. -/
theorem sent (h : k.SharesClerks) {v : Fin n} (hrpc : rpc ∈ (k.servers v).rpcs)
    (w : Fin n) : rpc ∈ (k.servers w).rpcs :=
  (h.agree v w).rpcs ▸ hrpc

/-- Two requests of a clerk with one number are the same. -/
theorem unique (h : k.SharesClerks) {v w : Fin n} {rpc' : Rpc}
    (hrpc : rpc ∈ (k.servers v).rpcs) (hrpc' : rpc' ∈ (k.servers w).rpcs)
    (hclient : rpc.clientId = rpc'.clientId)
    (hrequest : rpc.requestId = rpc'.requestId) : rpc = rpc' :=
  (h.numbered v).unique rpc hrpc rpc' (h.sent hrpc' v) hclient hrequest

end SharesClerks

/-- A request of a clerk is in the log if an operation with its number is. -/
theorem logged_of_handedOut (hrun : (start n).run as = some (k, es)) {v : Fin n}
    (hrpc : rpc ∈ (k.servers v).rpcs) {x : Op} (hout : HandedOut es x)
    (hclient : x.clientId = rpc.clientId)
    (hrequest : x.requestId = rpc.requestId) : Acked es rpc := by
  intro hname
  obtain ⟨u, i, hmem⟩ := hout
  obtain ⟨w, rpc', hrpc', now, rfl⟩ := handedOut_sent hrun hmem
    (fromClient_of_clientId (hclient ▸ hname))
  rw [Rpc.op_clientId] at hclient
  rw [Rpc.op_requestId] at hrequest
  obtain rfl :=
    (sharesClerks_along hrun).unique hrpc' hrpc hclient hrequest
  exact ⟨now, u, i, hmem⟩

/-! ## The invariant -/

/-- What the servers hold and have answered comes from the log. -/
structure Accounted (k : Service n) (es : List (ServiceEvent n)) : Prop where
  backed : ∀ v, (k.servers v).Backed (HandedOut es) (k.Asked es)
  images : ∀ round ∈ k.rounds, ∀ i args call,
    round.threads i = .snapshot args call →
      ∀ st, args.data = some st → st.Lists (k.Asked es)
  answers : ∀ v, (k.servers v).AnswersWrites (Acked es)
  settled : ∀ v rpc, (k.servers v).Settled rpc → rpc.isGet = false →
    Acked es rpc

namespace Accounted

theorem start : Accounted (Service.start n) [] where
  backed := fun v => .boot (by simp)
  images := by simp [Service.start]
  answers := fun v => by
    constructor <;> simp [Service.start, KvServer.start, KvServer.boot]
  settled := fun v rpc h => by
    simp [KvServer.Settled, Service.start, KvServer.start, KvServer.boot] at h

/-- A number that the request table has passed is that of a request in the
log. -/
theorem acked_of_duplicate (h : Accounted k es) (hshares : k.SharesClerks)
    {v : Fin n} (hrpc : rpc ∈ (k.servers v).rpcs) (hwrite : rpc.isGet = false)
    (hduplicate : (k.servers v).state.ifRequestDuplicate rpc.clientId
      rpc.requestId = true) : Acked es rpc := by
  obtain ⟨last, hlast, hle⟩ := KvState.ifRequestDuplicate_iff.mp hduplicate
  obtain ⟨w, rpc', hrpc', hclient, rfl, hwhy⟩ := (h.backed v).state _ _ hlast
  rcases ((hshares.numbered v).le rpc hrpc).lt_or_eq with hlt | heq
  · exact h.settled v rpc ⟨hrpc, .inl hlt⟩ hwrite
  · -- the clerk has sent nothing after this request
    have hlast := (hshares.numbered v).le rpc' (hshares.sent hrpc' v)
    rw [hclient, ← heq] at hlast
    obtain rfl := hshares.unique hrpc hrpc' hclient.symm (le_antisymm hle hlast)
    rcases hwhy with hget | hlogged
    · rw [hwrite] at hget
      cases hget
    · exact fun _ => hlogged

theorem backed_step (h : Accounted k es) (hshares : k.SharesClerks)
    (hrun : (Service.start n).run (as ++ [act]) = some (k', es ++ es'))
    (hstep : k.step act = some (k', es')) (v : Fin n) :
    (k'.servers v).Backed (HandedOut (es ++ es')) (k'.Asked (es ++ es')) := by
  have hold : (k.servers v).Backed (HandedOut (es ++ es'))
      (k'.Asked (es ++ es')) :=
    (h.backed v).mono (fun _ hout => hout.append)
      fun _ _ hasked => hasked.step hstep
  rcases step_server hstep v with ⟨-, hsame, -⟩ | ⟨b, hb, hserver⟩
  · rw [hsame]
    exact hold
  · refine hold.step (fun op hout hwrites => ?_) ⟨fun m hm => ?_, ?_, ?_⟩
      hserver
    · obtain ⟨u, i, hmem⟩ := hout
      obtain ⟨w, rpc, hrpc, now, rfl⟩ :=
        handedOut_sent hrun hmem (fromClient_of_writes hwrites)
      exact ⟨w, rpc, hrpc, by simp, by simp, .inr ⟨now, u, i, hmem⟩⟩
    · exact ⟨v, m.1, List.mem_append_right _
        (handedOut_of_step hstep hb hm)⟩
    · rintro args rfl st hst
      obtain ⟨round, hround, i, call, hthread⟩ := installSnapshot_sent hb
      exact (h.images round hround i args call hthread st hst).mono
        fun _ _ hasked => hasked.step hstep
    · intro handler hexecuted
      cases b with
      | executeGet i now =>
          obtain ⟨⟨index, handler'⟩, hgranted, rfl⟩ :=
            Option.map_eq_some_iff.mp hexecuted
          obtain ⟨hget, hphase⟩ := KvServer.granted?_eq_some hgranted
          have hmem := List.mem_of_getElem? hget
          obtain ⟨⟨now', hop⟩, hisGet⟩ := hshares.fit v handler' hmem
          have hrpc := (hshares.numbered v).handlers handler' hmem
          exact ⟨v, handler'.rpc, SharesClerks.sent_step hstep hrpc,
            by simp [hop], by simp [hop], .inl (hisGet _ hphase)⟩
      | _ => cases hexecuted

theorem answers_step (h : Accounted k es) (hshares : k.SharesClerks)
    (hrun : (Service.start n).run as = some (k, es))
    (hstep : k.step act = some (k', es')) (v : Fin n) :
    (k'.servers v).AnswersWrites (Acked (es ++ es')) := by
  have hmono : ∀ rpc, Acked es rpc → Acked (es ++ es') rpc :=
    fun rpc hacked hname => (hacked hname).append
  rcases step_server hstep v with ⟨-, hsame, -⟩ | ⟨b, -, hserver⟩
  · rw [hsame]
    exact ⟨(h.answers v).path, fun handler hmem hwrite reply hreply =>
      ((h.answers v).answers handler hmem hwrite reply hreply).imp_right
        (hmono _)⟩
  · refine (h.answers v).step (hshares.fit v) hmono
      (fun handler hmem i op hop hclient hrequest => hmono _ ?_)
      (fun handler hmem hwrite hduplicate => hmono _ ?_) hserver
    · exact logged_of_handedOut hrun
        ((hshares.numbered v).handlers handler hmem)
        ((h.backed v).queues i op hop) hclient hrequest
    · exact h.acked_of_duplicate hshares
        ((hshares.numbered v).handlers handler hmem) hwrite hduplicate

theorem settled_step (h : Accounted k es) (hshares : k.SharesClerks)
    (hstep : k.step act = some (k', es')) (v : Fin n)
    (hsettled : (k'.servers v).Settled rpc) (hwrite : rpc.isGet = false) :
    Acked es rpc := by
  rcases step_server hstep v with ⟨-, hsame, -⟩ | ⟨b, hb, hserver⟩
  · rw [hsame] at hsettled
    exact h.settled v rpc hsettled hwrite
  · rcases (hshares.numbered v).settled_cases
      (KvServer.step_serves hserver).clerksStep hsettled with
        hold | ⟨hrpc, hrequest, hanswer⟩
    · exact h.settled v rpc hold hwrite
    -- some server has answered the request
    obtain ⟨u, i, rfl⟩ : ∃ u i, act = .answered rpc.clientId u i := by
      rcases hanswer with ⟨i, rfl⟩ | rfl
      · exact ⟨v, i, answered_of_part hb⟩
      · exact answeredElsewhere_of_part hb
    have hother := step_answered hstep
    simp only [KvServer.step, KvServer.answered, Option.bind_eq_bind,
      Option.bind_eq_some_iff] at hother
    obtain ⟨handler, hget, hother⟩ := hother
    split at hother
    · next reply hphase =>
        rw [Option.ite_none_right_eq_some] at hother
        obtain ⟨⟨hclient, hnumber, herr⟩, -⟩ := hother
        have hmem := List.mem_of_getElem? hget
        rw [(hshares.agree v u).clerks, ← hrequest] at hnumber
        obtain rfl := hshares.unique
          ((hshares.numbered u).handlers handler hmem) hrpc hclient hnumber
        rcases (h.answers u).answers handler hmem hwrite reply
          (by rw [hphase]; rfl) with rfl | hacked
        · exact absurd rfl herr
        · exact hacked
    · cases hother

theorem step (h : Accounted k es)
    (hrun : (Service.start n).run as = some (k, es))
    (hstep : k.step act = some (k', es')) : Accounted k' (es ++ es') := by
  have hshares := sharesClerks_along hrun
  have hrun' := run_concat hrun hstep
  refine ⟨h.backed_step hshares hrun' hstep, ?_,
    h.answers_step hshares hrun hstep, fun v rpc hsettled hwrite hname =>
      (h.settled_step hshares hstep v hsettled hwrite hname).append⟩
  have himages := snapshots_step
    (P := fun args => ∀ st, args.data = some st → st.Lists (k.Asked es))
    h.images (fun v st hst => (h.backed v).disk st hst) hstep
  exact fun round hround i args call hthread st hst =>
    (himages round hround i args call hthread st hst).mono
      fun _ _ hasked => hasked.step hstep

end Accounted

theorem accounted_along (hrun : (start n).run as = some (k, es)) :
    Accounted k es :=
  run_trace (I := fun _ k es => Accounted k es) .start
    (fun _ _ _ _ _ _ _ hrun hI hstep => hI.step hrun hstep)
    (throughout_true _ as) hrun

/-! ## Writes that are done -/

/-- The clerk has its answer, or a handler has filled it. -/
def Done (k : Service n) (rpc : Rpc) : Prop :=
  ∃ v, (k.servers v).Settled rpc ∨ ∃ handler ∈ (k.servers v).handlers,
    handler.rpc = rpc ∧ handler.phase = .finished ⟨.ok, ""⟩

instance (k : Service n) (rpc : Rpc) : Decidable (k.Done rpc) :=
  inferInstanceAs (Decidable (∃ v, (k.servers v).Settled rpc ∨
    ∃ handler ∈ (k.servers v).handlers,
      handler.rpc = rpc ∧ handler.phase = .finished ⟨.ok, ""⟩))

theorem Accounted.of_done (h : Accounted k es) (hdone : k.Done rpc)
    (hwrite : rpc.isGet = false) : Acked es rpc := by
  obtain ⟨v, hsettled | ⟨handler, hmem, rfl, hphase⟩⟩ := hdone
  · exact h.settled v rpc hsettled hwrite
  · rcases (h.answers v).answers handler hmem hwrite ⟨.ok, ""⟩
      (by rw [hphase]; rfl) with hwrong | hacked
    · cases hwrong
    · exact hacked

/-- In every run of the service, whatever it loses, crashes or delivers out of
order, a write that is done is in the log. -/
theorem done_logged (hrun : (start n).run as = some (k, es))
    (hdone : k.Done rpc) (hwrite : rpc.isGet = false)
    (hname : rpc.clientId ≠ (Raft.noop 0).clientId) : Logged es rpc :=
  (accounted_along hrun).of_done hdone hwrite hname

/-- The clerk's `Put` is executed, its handler is notified and the clerk has
its answer. -/
def acknowledgedRun : List (ServiceAction 3) :=
  executedRun ++ [.server 0 (.registerWait 0), .server 0 .skipSnapshot,
    .server 0 .sendMessageToWaitChan, .server 0 (.timeOutPop 0),
    .server 0 (.eraseWait 0), .answered "clerk" 0 0]

/-- The request of `executedRun`. -/
def putRpc : Rpc where
  clientId := "clerk"
  requestId := 1
  request := .putAppend "key" "value" "Put" 0

theorem done_logged_acknowledged :
    ∃ k es, (start 3).run acknowledgedRun = some (k, es) ∧ k.Done putRpc ∧
      Logged es putRpc := by
  obtain ⟨k, es, hrun, hdone⟩ : ∃ k es,
      (start 3).run acknowledgedRun = some (k, es) ∧ k.Done putRpc := by
    decide +kernel
  exact ⟨k, es, hrun, hdone, done_logged hrun hdone rfl (by decide)⟩

/-! ## Real-time order -/

-- two runs in a row are decided together
set_option synthInstance.maxSize 256

/-- Requests that were sent stay sent. -/
theorem sent_along {as : List (ServiceAction n)}
    (hrun : k.run as = some (k', es)) {v : Fin n}
    (hrpc : rpc ∈ (k.servers v).rpcs) : rpc ∈ (k'.servers v).rpcs :=
  run_invariant (I := fun k => rpc ∈ (k.servers v).rpcs)
    (fun _ _ _ _ _ hI hstep => SharesClerks.sent_step hstep hI)
    (throughout_true _ as) hrpc hrun

/-- A write that is sent after another one was done comes behind it in the
log, in every run whose steps keep the protocol. -/
theorem writes_in_order {as₁ as₂ : List (ServiceAction n)} {k₁ k₂ : Service n}
    {es₁ es₂ : List (ServiceEvent n)} {rpc₁ rpc₂ : Rpc} {v w : Fin n}
    {j now₂ : ℕ} (horder : Throughout step InOrder (start n) (as₁ ++ as₂))
    (hbefore : (start n).run as₁ = some (k₁, es₁))
    (hafter : k₁.run as₂ = some (k₂, es₂))
    (hdone : k₁.Done rpc₁) (hwrite : rpc₁.isGet = false)
    (hname₁ : rpc₁.clientId ≠ (Raft.noop 0).clientId)
    (hunsent : ∀ u, rpc₂ ∉ (k₁.servers u).rpcs)
    (hsent : rpc₂ ∈ (k₂.servers v).rpcs)
    (hname₂ : rpc₂.clientId ≠ (Raft.noop 0).clientId)
    (hout : .raft (.handedOut w j (rpc₂.op now₂)) ∈ es₂) :
    ∃ u i now₁, .raft (.handedOut u i (rpc₁.op now₁)) ∈ es₁ ∧ i < j := by
  obtain ⟨now₁, u, i, hmem⟩ :=
    (accounted_along hbefore).of_done hdone hwrite hname₁
  refine ⟨u, i, now₁, hmem, ?_⟩
  by_contra hle
  have hprotocol := follows_protocol horder
  rw [partActions_append hbefore] at hprotocol
  obtain ⟨s, hstart⟩ := started_before hprotocol (cluster_isPart.run hbefore)
    (cluster_isPart.run hafter) (mem_raft?.mpr hmem) (mem_raft?.mpr hout)
    (fromClient_of_clientId (by rwa [Rpc.op_clientId])) (Nat.le_of_not_lt hle)
  -- the call was made for a request with the number of `rpc₂`
  obtain ⟨u', rpc, hrpc, now, heq⟩ := starts_sent hbefore s _ hstart
  have hclient : rpc.clientId = rpc₂.clientId := by
    simpa using (congrArg Op.clientId heq).symm
  have hrequest : rpc.requestId = rpc₂.requestId := by
    simpa using (congrArg Op.requestId heq).symm
  have hrun := run_append_eq_some.mpr ⟨k₁, es₁, es₂, hbefore, hafter, rfl⟩
  obtain rfl := (sharesClerks_along hrun).unique (sent_along hafter hrpc) hsent
    hclient hrequest
  exact hunsent u' hrpc

/-- A second write after the first one is done. -/
def laterWriteRun : List (ServiceAction 3) :=
  [.call "other" (.putAppend "key" "x" "Append" 0), .server 0 (.arrive 1 0),
    .server 0 (.start 1), .raft (.doHeartBeat 0), .raft (.appendEntries 1 1),
    .raft (.sendAppendEntries 1 1), .raft (.applierTicker 0)]

def appendRpc : Rpc where
  clientId := "other"
  requestId := 1
  request := .putAppend "key" "x" "Append" 0

theorem writes_in_order_later :
    ∃ k₁ k₂ es₁ es₂ w, (start 3).run acknowledgedRun = some (k₁, es₁) ∧
      k₁.run laterWriteRun = some (k₂, es₂) ∧
      .raft (.handedOut w 3 (appendRpc.op 0)) ∈ es₂ ∧
      ∃ u i now₁, .raft (.handedOut u i (putRpc.op now₁)) ∈ es₁ ∧ i < 3 := by
  obtain ⟨k₁, es₁, hbefore, hdone, hunsent, k₂, es₂, hafter, hsent, hout⟩ :
      ∃ k₁ es₁, (start 3).run acknowledgedRun = some (k₁, es₁) ∧
        k₁.Done putRpc ∧ (∀ u, appendRpc ∉ (k₁.servers u).rpcs) ∧
        ∃ k₂ es₂, k₁.run laterWriteRun = some (k₂, es₂) ∧
          appendRpc ∈ (k₂.servers 0).rpcs ∧
          (3, appendRpc.op 0) ∈
            (es₂.filterMap ServiceEvent.raft?).filterMap Event.handedOut? := by
    decide +kernel
  obtain ⟨ev, hev, hout⟩ := List.mem_filterMap.mp hout
  obtain ⟨w, rfl⟩ := Event.mem_handedOut?.mp hout
  have hout := mem_raft?.mp hev
  exact ⟨k₁, k₂, es₁, es₂, w, hbefore, hafter, hout,
    writes_in_order (by decide +kernel) hbefore hafter hdone rfl (by decide)
      hunsent hsent (by decide) hout⟩

/-- A read that is called after a write was done sees it: the state it reads
is that of a prefix of the one log with the write in it. -/
theorem read_sees_write {as₁ as₂ : List (ServiceAction n)} {k₁ : Service n}
    {es₁ es₂ : List (ServiceEvent n)} {v : Fin n} {h now : ℕ}
    {handler : Handler}
    (hkeeps : Throughout step
      (fun k act => k.InOrder act ∧ k.AsksCurrent act) (start n) (as₁ ++ as₂))
    (hbefore : (start n).run as₁ = some (k₁, es₁))
    (hafter : k₁.run as₂ = some (k, es₂))
    (hdone : k₁.Done rpc) (hwrite : rpc.isGet = false)
    (hname : rpc.clientId ≠ (Raft.noop 0).clientId)
    (hget : (k.servers v).handlers[h]? = some handler)
    (hunsent : ∀ u, handler.rpc ∉ (k₁.servers u).rpcs)
    (happlied : (k.servers v).ReadsApplied (.readOnlyGet h now))
    (hstep : k.step (.server v (.readOnlyGet h now)) = some (k', es')) :
    ∃ L i j now', HandsOut L (es₁ ++ es₂) ∧
      Reflects L IsGet j (k.servers v).state ∧ 0 < i ∧ i ≤ j ∧
        L i = rpc.op now' := by
  have hrun := run_append_eq_some.mpr ⟨k₁, es₁, es₂, hbefore, hafter, rfl⟩
  obtain ⟨L, hlog⟩ :=
    exists_handsOut (throughout_mono (fun _ _ hk => hk.1) hkeeps) hrun
  obtain ⟨now', u, i, hmem⟩ :=
    (accounted_along hbefore).of_done hdone hwrite hname
  obtain ⟨r, handler', k₂, es, hget', hasked, hcovers, hpasses⟩ :=
    read_passes hkeeps hrun happlied hstep
  obtain rfl : handler' = handler := Option.some.inj (hget'.symm.trans hget)
  obtain ⟨j, hj, hreflects⟩ := hpasses L hlog
  obtain ⟨as, as', has, hcall⟩ := hasked.run
  -- the call came after the write was done
  have hes : .raft (.handedOut u i (rpc.op now')) ∈ es := by
    rcases List.append_eq_append_iff.mp has with
      ⟨bs, rfl, -⟩ | ⟨bs, rfl, -⟩
    · obtain ⟨k₃, es₃, es₄, hfirst, -, rfl⟩ := run_append_eq_some.mp hcall
      obtain ⟨-, rfl⟩ : k₁ = k₃ ∧ es₁ = es₃ := by simpa [hbefore] using hfirst
      exact List.mem_append_left _ hmem
    · obtain ⟨k₃, es₃, es₄, hfirst, hrest, -⟩ := run_append_eq_some.mp hbefore
      obtain ⟨rfl, -⟩ : k₂ = k₃ ∧ es = es₃ := by simpa [hcall] using hfirst
      have harrived := ((sharesClerks_along hcall).numbered v).handlers _
        (List.mem_of_getElem? hasked.arrived)
      exact absurd (sent_along hrest harrived) (hunsent v)
  obtain ⟨hpos, hi⟩ :=
    handedOut_le (cluster_isPart.run hcall) hcovers (mem_raft?.mpr hes)
  exact ⟨L, i, j, now', hlog, hreflects, hpos, hi.trans hj,
    (hlog u i _ (List.mem_append_left _ hmem)).symm⟩

/-- A read after the first write is done, confirmed by server 1. -/
def laterReadRun : List (ServiceAction 3) :=
  [.call "reader" (.get "key"), .server 0 (.arrive 1 0),
    .server 0 (.readIndex 1), .raft (.readIndexSend 0 1),
    .raft (.readAppendEntries 0 1), .raft (.readIndexReply 0 1),
    .server 0 (.readIndexReturn 1), .server 0 (.waitForApplied 1)]

theorem read_sees_write_later :
    ∃ k₁ k es₁ es₂, (start 3).run acknowledgedRun = some (k₁, es₁) ∧
      k₁.run laterReadRun = some (k, es₂) ∧
      ∃ L i j now', HandsOut L (es₁ ++ es₂) ∧
        Reflects L IsGet j (k.servers 0).state ∧ 0 < i ∧ i ≤ j ∧
          L i = putRpc.op now' := by
  obtain ⟨k₁, es₁, hbefore, hdone, k, es₂, hafter, ⟨handler, hget, hunsent⟩,
      happlied, k', es', hstep, -⟩ :
      ∃ k₁ es₁, (start 3).run acknowledgedRun = some (k₁, es₁) ∧
        k₁.Done putRpc ∧
        ∃ k es₂, k₁.run laterReadRun = some (k, es₂) ∧
          (∃ handler, (k.servers 0).handlers[1]? = some handler ∧
            ∀ u, handler.rpc ∉ (k₁.servers u).rpcs) ∧
          (k.servers 0).ReadsApplied (.readOnlyGet 1 0) ∧
          ∃ k' es', k.step (.server 0 (.readOnlyGet 1 0)) = some (k', es') ∧
            es'.length = 1 := by
    decide +kernel
  exact ⟨k₁, k, es₁, es₂, hbefore, hafter,
    read_sees_write (by decide +kernel) hbefore hafter hdone rfl (by decide)
      hget hunsent happlied hstep⟩

end Service

end KVRaftStorage
