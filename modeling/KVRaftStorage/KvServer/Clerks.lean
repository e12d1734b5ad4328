import KVRaftStorage.KvServer.Progress

/-!
# What a server knows of its clerks

A clerk numbers its requests and sends the next one when the last one is
answered.  So a number belongs to one request, every handler works on a request
that was sent, and a request behind which the clerk has gone on was answered
before.
-/

namespace KVRaftStorage

namespace KvServer

variable {n : ℕ} {s s' : KvServer n} {a : KvAction n}

/-- The request `rpc` was sent, and the clerk does not wait for its answer. -/
def Settled (s : KvServer n) (rpc : Rpc) : Prop :=
  rpc ∈ s.rpcs ∧ (rpc.requestId < (s.clerks rpc.clientId).requestId ∨
    (s.clerks rpc.clientId).pending = none)

instance (s : KvServer n) (rpc : Rpc) : Decidable (s.Settled rpc) :=
  inferInstanceAs (Decidable (_ ∧ _))

/-- What a step does to the clerks. -/
inductive ClerksStep (s : KvServer n) : KvAction n → KvServer n → Prop where
  | same {a : KvAction n} {s' : KvServer n} (h : s.SameClerks s') :
      ClerksStep s a s'
  | called {clientId : String} {request : Request} {s' : KvServer n}
      (hpending : (s.clerks clientId).pending = none)
      (hclerks : s'.clerks = Function.update s.clerks clientId
        { requestId := (s.clerks clientId).requestId + 1,
          pending := some request })
      (hrpcs : s'.rpcs = s.rpcs ++
        [{ clientId := clientId,
           requestId := (s.clerks clientId).requestId + 1,
           request := request }]) :
      ClerksStep s (.call clientId request) s'
  | answered {clientId : String} {h : ℕ} {handler : Handler} {reply : Reply}
      (hhandler : handler ∈ s.handlers)
      (hphase : handler.phase = .finished reply)
      (hclient : handler.rpc.clientId = clientId)
      (hrequest : handler.rpc.requestId = (s.clerks clientId).requestId)
      (herr : reply.err ≠ .errWrongLeader) :
      ClerksStep s (.answered clientId h) (s.settle clientId)
  | answeredElsewhere {clientId : String} :
      ClerksStep s (.answeredElsewhere clientId) (s.settle clientId)

theorem Serves.clerksStep (h : s.Serves a s') : s.ClerksStep a s' := by
  cases h with
  | apart _ _ hclerks => exact .same hclerks
  | reboot | notify | arrive | started => exact .same ⟨rfl, rfl⟩
  | progress _ _ _ _ hclerks => exact .same hclerks
  | call hpending => exact .called hpending rfl rfl
  | answered hhandler hphase hclient hrequest herr =>
      exact .answered (List.mem_of_getElem? hhandler) hphase hclient hrequest
        herr
  | answeredElsewhere => exact .answeredElsewhere

theorem ClerksStep.sent (h : s.ClerksStep a s') {rpc : Rpc}
    (hrpc : rpc ∈ s.rpcs) : rpc ∈ s'.rpcs := by
  cases h with
  | same hsame => exact hsame.rpcs ▸ hrpc
  | called _ _ hrpcs =>
      rw [hrpcs]
      exact List.mem_append_left _ hrpc
  | answered | answeredElsewhere => exact hrpc

/-- Requests are numbered, and handlers work on requests. -/
structure Numbered (s : KvServer n) : Prop where
  le : ∀ rpc ∈ s.rpcs, rpc.requestId ≤ (s.clerks rpc.clientId).requestId
  unique : ∀ rpc ∈ s.rpcs, ∀ rpc' ∈ s.rpcs, rpc.clientId = rpc'.clientId →
    rpc.requestId = rpc'.requestId → rpc = rpc'
  handlers : ∀ handler ∈ s.handlers, handler.rpc ∈ s.rpcs

namespace Numbered

theorem start (me : Fin n) : (KvServer.start me).Numbered := by
  constructor <;> simp [KvServer.start, boot]

/-- A new request has a new number. -/
theorem call_unique (h : s.Numbered) {clientId : String} {rpc : Rpc}
    (hrpc : rpc ∈ s.rpcs) (hclient : rpc.clientId = clientId) :
    rpc.requestId ≠ (s.clerks clientId).requestId + 1 := by
  have := h.le rpc hrpc
  rw [hclient] at this
  omega

theorem clerks_step (h : s.Numbered) (hstep : s.ClerksStep a s') :
    (∀ rpc ∈ s'.rpcs, rpc.requestId ≤ (s'.clerks rpc.clientId).requestId) ∧
      ∀ rpc ∈ s'.rpcs, ∀ rpc' ∈ s'.rpcs, rpc.clientId = rpc'.clientId →
        rpc.requestId = rpc'.requestId → rpc = rpc' := by
  have hsettle : ∀ c rpc, rpc ∈ s.rpcs →
      rpc.requestId ≤ ((s.settle c).clerks rpc.clientId).requestId := by
    intro c rpc hrpc
    have hle := h.le rpc hrpc
    unfold settle
    by_cases hc : rpc.clientId = c
    · subst hc
      simpa using hle
    · simpa [Function.update_of_ne hc] using hle
  cases hstep with
  | same hsame =>
      rw [hsame.clerks, hsame.rpcs]
      exact ⟨h.le, h.unique⟩
  | @called c request _ hpending hclerks hrpcs =>
      rw [hclerks, hrpcs]
      constructor
      · intro rpc hrpc
        by_cases hc : rpc.clientId = c
        · rw [hc, Function.update_self]
          rcases List.mem_append.mp hrpc with hold | hnew
          · have := h.le rpc hold
            rw [hc] at this
            exact this.trans (Int.le_add_one le_rfl)
          · rw [List.mem_singleton.mp hnew]
        · rw [Function.update_of_ne hc]
          rcases List.mem_append.mp hrpc with hold | hnew
          · exact h.le rpc hold
          · exact absurd (by rw [List.mem_singleton.mp hnew]) hc
      · intro rpc hrpc rpc' hrpc' hclient hnumber
        rcases List.mem_append.mp hrpc with hold | hnew <;>
          rcases List.mem_append.mp hrpc' with hold' | hnew'
        · exact h.unique rpc hold rpc' hold' hclient hnumber
        · rw [List.mem_singleton.mp hnew'] at hclient hnumber
          exact absurd hnumber (h.call_unique hold hclient)
        · rw [List.mem_singleton.mp hnew] at hclient hnumber
          exact absurd hnumber.symm
            (h.call_unique hold' hclient.symm)
        · rw [List.mem_singleton.mp hnew, List.mem_singleton.mp hnew']
  | answered => exact ⟨hsettle _, h.unique⟩
  | answeredElsewhere => exact ⟨hsettle _, h.unique⟩

theorem step (h : s.Numbered) (hserves : s.Serves a s') : s'.Numbered := by
  have hclerks := hserves.clerksStep
  obtain ⟨hle, hunique⟩ := h.clerks_step hclerks
  refine ⟨hle, hunique, fun handler hmem => ?_⟩
  obtain ⟨j, hj⟩ := List.mem_iff_getElem?.mp hmem
  rcases hserves.handler_cases hj with
    hsame | ⟨rpc, hrpc, now, rfl⟩ | ⟨handler, phase, hbefore, rfl, -⟩
  · exact hclerks.sent (h.handlers handler (List.mem_of_getElem? hsame))
  · exact hclerks.sent hrpc
  · exact hclerks.sent (h.handlers handler (List.mem_of_getElem? hbefore))

/-- A request is settled by an answer to the request that the clerk waits
for. -/
theorem settled_cases (h : s.Numbered) (hstep : s.ClerksStep a s') {rpc : Rpc}
    (hsettled : s'.Settled rpc) :
    s.Settled rpc ∨ rpc ∈ s.rpcs ∧
      rpc.requestId = (s.clerks rpc.clientId).requestId ∧
      ((∃ i, a = .answered rpc.clientId i) ∨
        a = .answeredElsewhere rpc.clientId) := by
  obtain ⟨hsent, hdone⟩ := hsettled
  have hsettle : ∀ c, s' = s.settle c →
      ((∃ i, a = .answered c i) ∨ a = .answeredElsewhere c) →
      s.Settled rpc ∨ rpc ∈ s.rpcs ∧
        rpc.requestId = (s.clerks rpc.clientId).requestId ∧
        ((∃ i, a = .answered rpc.clientId i) ∨
          a = .answeredElsewhere rpc.clientId) := by
    rintro c rfl ha
    have hrpc : rpc ∈ s.rpcs := hsent
    by_cases hc : rpc.clientId = c
    · subst hc
      rcases (h.le rpc hrpc).lt_or_eq with hlt | heq
      · exact .inl ⟨hrpc, .inl hlt⟩
      · exact .inr ⟨hrpc, heq, ha⟩
    · simp only [settle, Function.update_of_ne hc] at hdone
      exact .inl ⟨hrpc, hdone⟩
  cases hstep with
  | same hsame =>
      rw [hsame.rpcs] at hsent
      rw [hsame.clerks] at hdone
      exact .inl ⟨hsent, hdone⟩
  | @called c request _ hpending hclerks hrpcs =>
      rw [hrpcs] at hsent
      rw [hclerks] at hdone
      by_cases hc : rpc.clientId = c
      · subst hc
        simp only [Function.update_self, reduceCtorEq, or_false] at hdone
        rcases List.mem_append.mp hsent with hold | hnew
        · exact .inl ⟨hold, .inr hpending⟩
        · rw [List.mem_singleton.mp hnew] at hdone
          exact absurd hdone (lt_irrefl _)
      · rw [Function.update_of_ne hc] at hdone
        rcases List.mem_append.mp hsent with hold | hnew
        · exact .inl ⟨hold, hdone⟩
        · exact absurd (by rw [List.mem_singleton.mp hnew]) hc
  | answered => exact hsettle _ rfl (.inl ⟨_, rfl⟩)
  | answeredElsewhere => exact hsettle _ rfl (.inr rfl)

end Numbered

end KvServer

end KVRaftStorage
