import KVRaftStorage.KvServer.Steps

/-!
# What a step does to the RPC handlers

The counterpart of `Moves` for the other half of the process: the handlers of
`Get` and `PutAppend`, the queues in `waitApplyCh` and the clerks.
-/

namespace KVRaftStorage

/-- The index `Start` returned to the handler, until the handler has given it
back. -/
def Phase.raftIndex? : Phase → Option ℕ
  | .started i => some i
  | .waiting i => some i
  | .timedOut i _ => some i
  | .granted i => some i
  | .replied i _ => some i
  | _ => none

/-- Where a handler of the log path goes on after its request was found
applied. -/
def Handler.acknowledge (handler : Handler) (raftIndex : ℕ) : Phase :=
  if handler.isGet then .granted raftIndex
  else .replied raftIndex { err := .ok, value := "" }

theorem Handler.acknowledge_cases (handler : Handler) (raftIndex : ℕ) :
    handler.isGet = true ∧ handler.acknowledge raftIndex = .granted raftIndex ∨
      handler.isGet = false ∧ handler.acknowledge raftIndex =
        .replied raftIndex { err := .ok, value := "" } := by
  unfold acknowledge
  cases handler.isGet with
  | true => exact .inl ⟨rfl, rfl⟩
  | false => exact .inr ⟨rfl, rfl⟩

namespace KvServer

variable {n : ℕ}

/-- The handler moves on to the phase, `Start` apart. -/
inductive Progress (s : KvServer n) (handler : Handler) : Phase → Prop where
  | confirming (hphase : handler.phase = .arrived) (hget : handler.isGet = true)
      (hleader : s.raft.status = .leader) :
      Progress s handler (.confirming s.raft.currentTerm s.raft.commitIndex)
  | waitingApplied {savedTerm r : ℕ}
      (hphase : handler.phase = .confirming savedTerm r) :
      Progress s handler (.waitingApplied r)
  | applied {r : ℕ} (hphase : handler.phase = .waitingApplied r)
      (hr : r ≤ s.raft.lastApplied) : Progress s handler (.applied r)
  | read {r : ℕ} {value : String} {exist : Bool}
      (hphase : handler.phase = .applied r) :
      Progress s handler (.finished (fillGetReply value exist))
  | refused (hcalls : callsStart handler = true) :
      Progress s handler (.finished wrongLeader)
  | waiting {i : ℕ} (hphase : handler.phase = .started i) :
      Progress s handler (.waiting i)
  | notified {i : ℕ} {op : Op} {rest : List Op} {phase : Phase}
      (hphase : handler.phase = .waiting i)
      (hqueue : s.waitApplyCh i = some (op :: rest))
      (hclient : op.clientId = handler.op.clientId)
      (hrequest : op.requestId = handler.op.requestId)
      (hnext : phase = handler.acknowledge i) : Progress s handler phase
  | mismatched {i : ℕ} (hphase : handler.phase = .waiting i) :
      Progress s handler (.replied i wrongLeader)
  | timedOut {i : ℕ} {stillLeader : Bool}
      (hphase : handler.phase = .waiting i) :
      Progress s handler (.timedOut i stillLeader)
  | duplicate {i : ℕ} {stillLeader : Bool} {phase : Phase}
      (hphase : handler.phase = .timedOut i stillLeader)
      (hduplicate : s.state.ifRequestDuplicate handler.op.clientId
        handler.op.requestId = true)
      (hnext : phase = handler.acknowledge i) : Progress s handler phase
  | unknown {i : ℕ} {stillLeader : Bool}
      (hphase : handler.phase = .timedOut i stillLeader) :
      Progress s handler (.replied i wrongLeader)
  | executed {i : ℕ} {value : String} {exist : Bool}
      (hphase : handler.phase = .granted i) :
      Progress s handler (.replied i (fillGetReply value exist))
  | erased {i : ℕ} {reply : Reply} (hphase : handler.phase = .replied i reply) :
      Progress s handler (.finished reply)

/-- Only the queue of the handler's own index changes, and it is not given
new operations. -/
structure OwnQueue (s : KvServer n) (handler : Handler) (s' : KvServer n) :
    Prop where
  others : ∀ i, handler.phase.raftIndex? ≠ some i →
    s'.waitApplyCh i = s.waitApplyCh i
  nothingNew : ∀ i, ∀ op ∈ (s'.waitApplyCh i).getD [],
    op ∈ (s.waitApplyCh i).getD []

theorem OwnQueue.of_eq {s s' : KvServer n} (handler : Handler)
    (h : s'.waitApplyCh = s.waitApplyCh) : s.OwnQueue handler s' := by
  constructor
  · intro i _
    rw [h]
  · intro i op hop
    rwa [h] at hop

/-- The queue of one index is replaced by a part of it. -/
theorem OwnQueue.of_update {s s' : KvServer n} {handler : Handler} {i : ℕ}
    {queue : Option (List Op)} (hindex : handler.phase.raftIndex? = some i)
    (h : s'.waitApplyCh = Function.update s.waitApplyCh i queue)
    (hpart : ∀ op ∈ queue.getD [], op ∈ (s.waitApplyCh i).getD []) :
    s.OwnQueue handler s' := by
  constructor
  · intro j hj
    rw [hindex, ne_eq, Option.some.injEq] at hj
    rw [h, Function.update_of_ne (Ne.symm hj)]
  · intro j op hop
    rw [h] at hop
    by_cases hj : j = i
    · subst hj
      rw [Function.update_self] at hop
      exact hpart op hop
    · rwa [Function.update_of_ne hj] at hop

/-- The clerks and what they have sent stay. -/
structure SameClerks (s s' : KvServer n) : Prop where
  clerks : s'.clerks = s.clerks
  rpcs : s'.rpcs = s.rpcs

/-- The step `a` from `s`, as far as the RPCs are concerned. -/
inductive Serves (s : KvServer n) : KvAction n → KvServer n → Prop where
  | apart {a : KvAction n} {s' : KvServer n}
      (hhandlers : s'.handlers = s.handlers)
      (hqueues : s'.waitApplyCh = s.waitApplyCh) (hclerks : s.SameClerks s') :
      Serves s a s'
  | reboot {a : KvAction n} {p : Persister n KvState} :
      Serves s a (s.reboot p)
  | notify {i : ℕ} {op : Op} (hloop : s.loop = .sending i op) :
      Serves s .sendMessageToWaitChan
        { s with
          loop := .idle
          waitApplyCh := Function.update s.waitApplyCh i
            ((s.waitApplyCh i).map (· ++ [op])) }
  | arrive {k now : ℕ} {rpc : Rpc} (hrpc : rpc ∈ s.rpcs) :
      Serves s (.arrive k now) (s.arrive rpc now).1
  | started {h i t : ℕ} {handler : Handler} {r : Raft n KvState}
      (hhandler : s.handlers[h]? = some handler)
      (hcalls : callsStart handler = true)
      (hstart : s.raft.start handler.op = (r, some (i, t))) :
      Serves s (.start h) ({ s with raft := r }.setPhase h handler (.started i))
  | progress {a : KvAction n} {h : ℕ} {handler : Handler} {phase : Phase}
      {s' : KvServer n} (hhandler : s.handlers[h]? = some handler)
      (hprogress : s.Progress handler phase)
      (hhandlers : s'.handlers =
        s.handlers.set h { handler with phase := phase })
      (hqueues : s.OwnQueue handler s') (hclerks : s.SameClerks s') :
      Serves s a s'
  | call {clientId : String} {request : Request}
      (hpending : (s.clerks clientId).pending = none) :
      Serves s (.call clientId request)
        { s with
          clerks := Function.update s.clerks clientId
            { requestId := (s.clerks clientId).requestId + 1,
              pending := some request }
          rpcs := s.rpcs ++
            [{ clientId := clientId,
               requestId := (s.clerks clientId).requestId + 1,
               request := request }] }
  | answered {clientId : String} {h : ℕ} {handler : Handler} {reply : Reply}
      (hhandler : s.handlers[h]? = some handler)
      (hphase : handler.phase = .finished reply)
      (hclient : handler.rpc.clientId = clientId)
      (hrequest : handler.rpc.requestId = (s.clerks clientId).requestId)
      (herr : reply.err ≠ .errWrongLeader) :
      Serves s (.answered clientId h) (s.settle clientId)
  | answeredElsewhere {clientId : String} :
      Serves s (.answeredElsewhere clientId) (s.settle clientId)

variable {s s' : KvServer n} {a : KvAction n} {es : List KvEvent}

theorem advance_serves {h : ℕ} {f : Handler → Option Phase}
    (hf : ∀ handler phase, f handler = some phase → s.Progress handler phase)
    (hadvance : s.advance h f = some (s', es)) : s.Serves a s' := by
  simp only [advance, Option.bind_eq_bind, Option.bind_eq_some_iff] at hadvance
  obtain ⟨handler, hhandler, phase, hphase, heq⟩ := hadvance
  obtain ⟨rfl, -⟩ : _ = s' ∧ [] = es := by simpa using heq
  exact .progress hhandler (hf handler phase hphase) rfl (.of_eq _ rfl)
    ⟨rfl, rfl⟩

theorem readIndexPhase_progress {handler : Handler} {phase : Phase}
    (h : s.readIndexPhase handler = some phase) :
    s.Progress handler phase := by
  unfold readIndexPhase at h
  split at h
  · next hphase =>
      simp only [Option.ite_none_right_eq_some, Option.some.injEq] at h
      obtain ⟨⟨hget, hleader⟩, rfl⟩ := h
      exact .confirming hphase hget hleader
  · cases h

theorem readIndexReturnPhase_progress {handler : Handler} {phase : Phase}
    (h : s.readIndexReturnPhase handler = some phase) :
    s.Progress handler phase := by
  unfold readIndexReturnPhase at h
  split at h
  · next hphase =>
      simp only [Option.ite_none_right_eq_some, Option.some.injEq] at h
      obtain ⟨-, rfl⟩ := h
      exact .waitingApplied hphase
  · cases h

theorem waitForAppliedPhase_progress {handler : Handler} {phase : Phase}
    (h : s.waitForAppliedPhase handler = some phase) :
    s.Progress handler phase := by
  unfold waitForAppliedPhase at h
  split at h
  · next hphase =>
      simp only [Option.ite_none_right_eq_some, Option.some.injEq] at h
      obtain ⟨hr, rfl⟩ := h
      exact .applied hphase hr
  · cases h

theorem timeOutPhase_progress {handler : Handler} {phase : Phase}
    (h : s.timeOutPhase handler = some phase) : s.Progress handler phase := by
  unfold timeOutPhase at h
  split at h
  · next hphase =>
      obtain rfl := Option.some.inj h
      exact .timedOut hphase
  · cases h

theorem checkDuplicatePhase_progress {handler : Handler} {phase : Phase}
    (h : s.checkDuplicatePhase handler = some phase) :
    s.Progress handler phase := by
  unfold checkDuplicatePhase at h
  split at h
  · next i stillLeader hphase =>
      by_cases hget : handler.isGet = true
      · simp only [hget, ↓reduceIte] at h
        split at h
        · next hboth =>
            rw [Bool.and_eq_true] at hboth
            refine .duplicate hphase hboth.1 ?_
            rw [← Option.some.inj h, Handler.acknowledge, if_pos hget]
        · obtain rfl := Option.some.inj h
          exact .unknown hphase
      · simp only [hget, Bool.false_eq_true, ↓reduceIte] at h
        split at h
        · next hduplicate =>
            refine .duplicate hphase hduplicate ?_
            rw [← Option.some.inj h, Handler.acknowledge, if_neg hget]
        · obtain rfl := Option.some.inj h
          exact .unknown hphase
  · cases h

theorem startOp_serves {h : ℕ} (hstart : s.startOp h = some (s', es)) :
    s.Serves (.start h) s' := by
  simp only [startOp, Option.bind_eq_bind, Option.bind_eq_some_iff] at hstart
  obtain ⟨handler, hhandler, hstart⟩ := hstart
  split at hstart
  · next hcalls =>
      split at hstart
      · obtain ⟨rfl, -⟩ : _ = s' ∧ [] = es := by simpa using hstart
        exact .progress hhandler (.refused hcalls) rfl (.of_eq _ rfl)
          ⟨rfl, rfl⟩
      · next r i t heq =>
          obtain ⟨rfl, -⟩ : _ = s' ∧ [] = es := by simpa using hstart
          exact .started hhandler hcalls heq
  · cases hstart

theorem registerWait_serves {h : ℕ}
    (hregister : s.registerWait h = some (s', es)) :
    s.Serves (.registerWait h) s' := by
  simp only [registerWait, Option.bind_eq_bind,
    Option.bind_eq_some_iff] at hregister
  obtain ⟨handler, hhandler, hregister⟩ := hregister
  split at hregister
  · next i hphase =>
      obtain ⟨rfl, -⟩ : _ = s' ∧ [] = es := by simpa using hregister
      refine .progress hhandler (.waiting hphase) rfl
        (.of_update (i := i) (by rw [hphase]; rfl) rfl ?_) ⟨rfl, rfl⟩
      exact fun op hop => hop
  · cases hregister

theorem timeOutPop_serves {h : ℕ} (hpop : s.timeOutPop h = some (s', es)) :
    s.Serves (.timeOutPop h) s' := by
  simp only [timeOutPop, Option.bind_eq_bind, Option.bind_eq_some_iff] at hpop
  obtain ⟨handler, hhandler, hpop⟩ := hpop
  split at hpop
  · next i hphase =>
      split at hpop
      · next op rest hqueue =>
          obtain ⟨rfl, -⟩ : _ = s' ∧ [] = es := by simpa using hpop
          refine .progress hhandler ?_ rfl
            (.of_update (i := i) (by rw [hphase]; rfl) rfl ?_) ⟨rfl, rfl⟩
          · split
            · next hmatch =>
                exact .notified hphase hqueue hmatch.1 hmatch.2 rfl
            · exact .mismatched hphase
          · intro op' hop'
            rw [hqueue]
            exact List.mem_cons_of_mem _ hop'
      · cases hpop
  · cases hpop

theorem eraseWait_serves {h : ℕ} (herase : s.eraseWait h = some (s', es)) :
    s.Serves (.eraseWait h) s' := by
  simp only [eraseWait, Option.bind_eq_bind,
    Option.bind_eq_some_iff] at herase
  obtain ⟨handler, hhandler, herase⟩ := herase
  split at herase
  · next i reply hphase =>
      obtain ⟨rfl, -⟩ : _ = s' ∧ [] = es := by simpa using herase
      exact .progress hhandler (.erased hphase) rfl
        (.of_update (i := i) (by rw [hphase]; rfl) rfl (by simp)) ⟨rfl, rfl⟩
  · cases herase

theorem reading?_eq_some {h r : ℕ} {handler : Handler}
    (hreading : s.reading? h = some (r, handler)) :
    s.handlers[h]? = some handler ∧ handler.phase = .applied r := by
  simp only [reading?, Option.bind_eq_bind,
    Option.bind_eq_some_iff] at hreading
  obtain ⟨handler', hhandler, hreading⟩ := hreading
  split at hreading
  · next r' hphase =>
      obtain ⟨rfl, rfl⟩ : r' = r ∧ handler' = handler := by
        simpa using hreading
      exact ⟨hhandler, hphase⟩
  · cases hreading

theorem granted?_eq_some {h i : ℕ} {handler : Handler}
    (hgranted : s.granted? h = some (i, handler)) :
    s.handlers[h]? = some handler ∧ handler.phase = .granted i := by
  simp only [granted?, Option.bind_eq_bind,
    Option.bind_eq_some_iff] at hgranted
  obtain ⟨handler', hhandler, hgranted⟩ := hgranted
  split at hgranted
  · next i' hphase =>
      obtain ⟨rfl, rfl⟩ : i' = i ∧ handler' = handler := by
        simpa using hgranted
      exact ⟨hhandler, hphase⟩
  · cases hgranted

/-- A message leaves the handlers alone, in `applyChan` and in the loop. -/
theorem pop_serves (h : s.pop = some (s', es)) : s.Serves .pop s' := by
  unfold pop at h
  split at h
  · obtain rfl := congrArg Prod.fst (Option.some.inj h)
    unfold getCommandFromRaft
    split <;> exact .apart rfl rfl ⟨rfl, rfl⟩
  · obtain rfl := congrArg Prod.fst (Option.some.inj h)
    unfold getSnapShotFromRaft
    split <;> exact .apart rfl rfl ⟨rfl, rfl⟩
  · cases h

/-- Every step is one of the listed ones. -/
theorem step_serves (h : s.step a = some (s', es)) : s.Serves a s' := by
  cases a with
  | receive input =>
      obtain rfl := congrArg Prod.fst (Option.some.inj h)
      unfold receive
      split
      · exact .reboot
      · exact .apart rfl rfl ⟨rfl, rfl⟩
  | getApplyLogs =>
      simp only [step, getApplyLogs, Option.ite_none_right_eq_some] at h
      obtain ⟨-, h⟩ := h
      obtain rfl := congrArg Prod.fst (Option.some.inj h)
      split
      · exact .reboot
      · exact .apart rfl rfl ⟨rfl, rfl⟩
  | pushCommand =>
      simp only [step] at h
      split at h
      · cases h
      · obtain rfl := congrArg Prod.fst (Option.some.inj h)
        exact .apart rfl rfl ⟨rfl, rfl⟩
  | installSnapshot args =>
      obtain rfl := congrArg Prod.fst (Option.some.inj h)
      unfold installSnapshot
      split
      · exact .reboot
      · exact .apart rfl rfl ⟨rfl, rfl⟩
  | installSnapshotCrash args =>
      simp only [step, Option.ite_none_left_eq_some] at h
      obtain ⟨-, h⟩ := h
      obtain rfl := congrArg Prod.fst (Option.some.inj h)
      exact .reboot
  | pushMsgToKvServer thread =>
      simp only [step, Option.bind_eq_bind, Option.bind_eq_some_iff] at h
      obtain ⟨msg, -, h⟩ := h
      obtain rfl := congrArg Prod.fst (Option.some.inj h)
      exact .apart rfl rfl ⟨rfl, rfl⟩
  | readSnapShotToInstall =>
      simp only [step] at h
      split at h
      · cases h
      · obtain rfl := congrArg Prod.fst (Option.some.inj h)
        unfold readSnapShotToInstall
        split <;> exact .apart rfl rfl ⟨rfl, rfl⟩
  | pop => exact pop_serves h
  | execute now =>
      simp only [step, execute] at h
      split at h
      · obtain rfl := congrArg Prod.fst (Option.some.inj h)
        exact .apart rfl rfl ⟨rfl, rfl⟩
      · cases h
  | makeSnapShot =>
      simp only [step, makeSnapShot] at h
      split at h
      · obtain rfl := congrArg Prod.fst (Option.some.inj h)
        exact .apart rfl rfl ⟨rfl, rfl⟩
      · cases h
  | skipSnapshot =>
      simp only [step, skipSnapshot] at h
      split at h
      · obtain rfl := congrArg Prod.fst (Option.some.inj h)
        exact .apart rfl rfl ⟨rfl, rfl⟩
      · cases h
  | snapshot =>
      simp only [step, snapshot] at h
      split at h
      · split at h
        · obtain rfl := congrArg Prod.fst (Option.some.inj h)
          exact .reboot
        · obtain rfl := congrArg Prod.fst (Option.some.inj h)
          exact .apart rfl rfl ⟨rfl, rfl⟩
      · cases h
  | sendMessageToWaitChan =>
      simp only [step, sendMessageToWaitChan] at h
      split at h
      · next hloop =>
          obtain rfl := congrArg Prod.fst (Option.some.inj h)
          exact .notify hloop
      · cases h
  | arrive k now =>
      simp only [step, Option.bind_eq_bind, Option.bind_eq_some_iff] at h
      obtain ⟨rpc, hrpc, h⟩ := h
      obtain rfl := congrArg Prod.fst (Option.some.inj h)
      exact .arrive (List.mem_of_getElem? hrpc)
  | readIndex i => exact advance_serves (fun _ _ => readIndexPhase_progress) h
  | readIndexReturn i =>
      exact advance_serves (fun _ _ => readIndexReturnPhase_progress) h
  | waitForApplied i =>
      exact advance_serves (fun _ _ => waitForAppliedPhase_progress) h
  | readOnlyGet i now =>
      simp only [step, readOnlyGet, Option.bind_eq_bind,
        Option.bind_eq_some_iff] at h
      obtain ⟨⟨r, handler⟩, hreading, h⟩ := h
      obtain ⟨hhandler, hphase⟩ := reading?_eq_some hreading
      obtain rfl := congrArg Prod.fst (Option.some.inj h)
      exact .progress hhandler (.read hphase) rfl (.of_eq _ rfl) ⟨rfl, rfl⟩
  | start i => exact startOp_serves h
  | registerWait i => exact registerWait_serves h
  | timeOutPop i => exact timeOutPop_serves h
  | timeOut i => exact advance_serves (fun _ _ => timeOutPhase_progress) h
  | checkDuplicate i =>
      exact advance_serves (fun _ _ => checkDuplicatePhase_progress) h
  | executeGet i now =>
      simp only [step, executeGet, Option.bind_eq_bind,
        Option.bind_eq_some_iff] at h
      obtain ⟨⟨index, handler⟩, hgranted, h⟩ := h
      obtain ⟨hhandler, hphase⟩ := granted?_eq_some hgranted
      obtain rfl := congrArg Prod.fst (Option.some.inj h)
      exact .progress hhandler (.executed hphase) rfl (.of_eq _ rfl)
        ⟨rfl, rfl⟩
  | eraseWait i => exact eraseWait_serves h
  | call clientId request =>
      simp only [step, call] at h
      split at h
      · cases h
      · next hpending =>
          obtain rfl := congrArg Prod.fst (Option.some.inj h)
          exact .call hpending
  | answered clientId i =>
      simp only [step, answered, Option.bind_eq_bind,
        Option.bind_eq_some_iff] at h
      obtain ⟨handler, hhandler, h⟩ := h
      split at h
      · next reply hphase =>
          simp only [Option.ite_none_right_eq_some] at h
          obtain ⟨⟨hclient, hrequest, herr⟩, h⟩ := h
          obtain rfl := congrArg Prod.fst (Option.some.inj h)
          exact .answered hhandler hphase hclient hrequest herr
      · cases h
  | answeredElsewhere clientId =>
      obtain rfl := congrArg Prod.fst (Option.some.inj h)
      exact .answeredElsewhere
  | restart =>
      obtain rfl := congrArg Prod.fst (Option.some.inj h)
      exact .reboot

/-! ## Handlers one by one -/

/-- Where a handler of the next state comes from. -/
theorem Serves.handler_cases (h : s.Serves a s') {j : ℕ} {handler' : Handler}
    (hj : s'.handlers[j]? = some handler') :
    s.handlers[j]? = some handler' ∨
      (∃ rpc ∈ s.rpcs, ∃ now,
        handler' = { rpc := rpc, op := rpc.op now, phase := .arrived }) ∨
      ∃ handler phase, s.handlers[j]? = some handler ∧
        handler' = { handler with phase := phase } ∧
        (s.Progress handler phase ∨
          callsStart handler = true ∧ ∃ i, phase = .started i) := by
  have hset : ∀ {k handler} {phase : Phase}, s.handlers[k]? = some handler →
      (s.handlers.set k { handler with phase := phase })[j]? = some handler' →
      s.handlers[j]? = some handler' ∨ s.handlers[j]? = some handler ∧
        handler' = { handler with phase := phase } := by
    intro k handler phase hk hget
    by_cases hkj : k = j
    · subst hkj
      rw [List.getElem?_set_self (List.getElem?_eq_some_iff.mp hk).1] at hget
      exact .inr ⟨hk, (Option.some.inj hget).symm⟩
    · rw [List.getElem?_set_ne hkj] at hget
      exact .inl hget
  cases h with
  | apart hhandlers =>
      rw [hhandlers] at hj
      exact .inl hj
  | reboot => simp [KvServer.reboot, boot] at hj
  | notify => exact .inl hj
  | @arrive k now rpc hrpc =>
      rw [KvServer.arrive] at hj
      rcases List.mem_append.mp (List.mem_of_getElem? hj) with hmem | hmem
      · by_cases hlt : j < s.handlers.length
        · rw [List.getElem?_append_left hlt] at hj
          exact .inl hj
        · rw [List.getElem?_append_right (Nat.le_of_not_lt hlt)] at hj
          obtain rfl := List.mem_singleton.mp (List.mem_of_getElem? hj)
          exact .inr (.inl ⟨rpc, hrpc, now, rfl⟩)
      · obtain rfl := List.mem_singleton.mp hmem
        exact .inr (.inl ⟨rpc, hrpc, now, rfl⟩)
  | started hhandler hcalls =>
      rcases hset hhandler hj with hsame | ⟨hhere, rfl⟩
      · exact .inl hsame
      · exact .inr (.inr ⟨_, _, hhere, rfl, .inr ⟨hcalls, _, rfl⟩⟩)
  | progress hhandler hprogress hhandlers =>
      rw [hhandlers] at hj
      rcases hset hhandler hj with hsame | ⟨hhere, rfl⟩
      · exact .inl hsame
      · exact .inr (.inr ⟨_, _, hhere, rfl, .inl hprogress⟩)
  | call => exact .inl hj
  | answered => exact .inl hj
  | answeredElsewhere => exact .inl hj

end KvServer

end KVRaftStorage
