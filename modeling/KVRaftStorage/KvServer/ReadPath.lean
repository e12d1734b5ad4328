import KVRaftStorage.KvServer.Progress

/-!
# The way of a `Get` through `ReadIndex`

`Progress` says where a handler can go on, whatever thread runs.  Here the
steps of the ReadIndex path are told apart by their action: only `ReadIndex`
puts a handler on this path, and only the return of `ReadIndex` lets it wait
for its index.
-/

namespace KVRaftStorage

/-- The index that a handler on the ReadIndex path has been given. -/
def Phase.readIndex? : Phase → Option ℕ
  | .confirming _ r => some r
  | .waitingApplied r => some r
  | .applied r => some r
  | _ => none

namespace KvServer

variable {n : ℕ} {s s' : KvServer n} {a : KvAction n} {es : List KvEvent}

/-- The action gives handler `i` its next phase. -/
inductive Sets (s : KvServer n) : KvAction n → ℕ → Handler → Phase → Prop where
  | readIndex {i : ℕ} {handler : Handler} {phase : Phase}
      (h : s.readIndexPhase handler = some phase) :
      Sets s (.readIndex i) i handler phase
  | readIndexReturn {i : ℕ} {handler : Handler} {phase : Phase}
      (h : s.readIndexReturnPhase handler = some phase) :
      Sets s (.readIndexReturn i) i handler phase
  | waitForApplied {i : ℕ} {handler : Handler} {phase : Phase}
      (h : s.waitForAppliedPhase handler = some phase) :
      Sets s (.waitForApplied i) i handler phase
  | apart {a : KvAction n} {i : ℕ} {handler : Handler} {phase : Phase}
      (h : phase.readIndex? = none) : Sets s a i handler phase

/-- What the action does to the list of handlers. -/
inductive HandlersStep (s : KvServer n) (a : KvAction n) :
    List Handler → Prop where
  | same : HandlersStep s a s.handlers
  | none : HandlersStep s a []
  | arrived (rpc : Rpc) (now : ℕ) : HandlersStep s a
      (s.handlers ++ [{ rpc := rpc, op := rpc.op now, phase := .arrived }])
  | set {i : ℕ} {handler : Handler} {phase : Phase}
      (hget : s.handlers[i]? = some handler)
      (hsets : s.Sets a i handler phase) :
      HandlersStep s a (s.handlers.set i { handler with phase := phase })

theorem advance_handlers {i : ℕ} {f : Handler → Option Phase}
    (hf : ∀ handler phase, f handler = some phase → s.Sets a i handler phase)
    (h : s.advance i f = some (s', es)) : s.HandlersStep a s'.handlers := by
  simp only [advance, Option.bind_eq_bind, Option.bind_eq_some_iff] at h
  obtain ⟨handler, hget, phase, hphase, heq⟩ := h
  obtain ⟨rfl, -⟩ : _ = s' ∧ [] = es := by simpa using heq
  exact .set hget (hf handler phase hphase)

theorem timeOutPhase_readIndex? {handler : Handler} {phase : Phase}
    (h : s.timeOutPhase handler = some phase) : phase.readIndex? = none := by
  unfold timeOutPhase at h
  split at h
  · obtain rfl := Option.some.inj h
    rfl
  · cases h

theorem checkDuplicatePhase_readIndex? {handler : Handler} {phase : Phase}
    (h : s.checkDuplicatePhase handler = some phase) :
    phase.readIndex? = none := by
  unfold checkDuplicatePhase at h
  split at h
  · simp only at h
    repeat' split at h
    all_goals
      obtain rfl := Option.some.inj h
      rfl
  · cases h

theorem startOp_handlers {i : ℕ} (h : s.startOp i = some (s', es)) :
    s.HandlersStep (.start i) s'.handlers := by
  simp only [startOp, Option.bind_eq_bind, Option.bind_eq_some_iff] at h
  obtain ⟨handler, hget, h⟩ := h
  split at h
  · split at h
    · obtain ⟨rfl, -⟩ : _ = s' ∧ [] = es := by simpa using h
      exact .set hget (.apart rfl)
    · obtain ⟨rfl, -⟩ : _ = s' ∧ [] = es := by simpa using h
      exact .set hget (.apart rfl)
  · cases h

theorem registerWait_handlers {i : ℕ} (h : s.registerWait i = some (s', es)) :
    s.HandlersStep (.registerWait i) s'.handlers := by
  simp only [registerWait, Option.bind_eq_bind, Option.bind_eq_some_iff] at h
  obtain ⟨handler, hget, h⟩ := h
  split at h
  · obtain ⟨rfl, -⟩ : _ = s' ∧ [] = es := by simpa using h
    exact .set hget (.apart rfl)
  · cases h

theorem timeOutPop_handlers {i : ℕ} (h : s.timeOutPop i = some (s', es)) :
    s.HandlersStep (.timeOutPop i) s'.handlers := by
  simp only [timeOutPop, Option.bind_eq_bind, Option.bind_eq_some_iff] at h
  obtain ⟨handler, hget, h⟩ := h
  split at h
  · split at h
    · obtain ⟨rfl, -⟩ : _ = s' ∧ [] = es := by simpa using h
      refine .set hget (.apart ?_)
      repeat' split
      all_goals rfl
    · cases h
  · cases h

theorem eraseWait_handlers {i : ℕ} (h : s.eraseWait i = some (s', es)) :
    s.HandlersStep (.eraseWait i) s'.handlers := by
  simp only [eraseWait, Option.bind_eq_bind, Option.bind_eq_some_iff] at h
  obtain ⟨handler, hget, h⟩ := h
  split at h
  · obtain ⟨rfl, -⟩ : _ = s' ∧ [] = es := by simpa using h
    exact .set hget (.apart rfl)
  · cases h

theorem pop_handlers (h : s.pop = some (s', es)) :
    s'.handlers = s.handlers := by
  unfold pop at h
  split at h
  · obtain rfl := congrArg Prod.fst (Option.some.inj h)
    unfold getCommandFromRaft
    split <;> rfl
  · obtain rfl := congrArg Prod.fst (Option.some.inj h)
    unfold getSnapShotFromRaft
    split <;> rfl
  · cases h

/-- Every action changes at most one handler. -/
theorem step_handlers (h : s.step a = some (s', es)) :
    s.HandlersStep a s'.handlers := by
  have hsame : s'.handlers = s.handlers → s.HandlersStep a s'.handlers := by
    intro heq
    rw [heq]
    exact .same
  cases a with
  | receive input =>
      obtain rfl := congrArg Prod.fst (Option.some.inj h)
      unfold receive
      split
      · exact .none
      · exact .same
  | getApplyLogs =>
      simp only [step, getApplyLogs, Option.ite_none_right_eq_some] at h
      obtain ⟨-, h⟩ := h
      obtain rfl := congrArg Prod.fst (Option.some.inj h)
      split
      · exact .none
      · exact .same
  | installSnapshot args =>
      obtain rfl := congrArg Prod.fst (Option.some.inj h)
      unfold installSnapshot
      split
      · exact .none
      · exact .same
  | installSnapshotCrash args =>
      simp only [step, Option.ite_none_left_eq_some] at h
      obtain ⟨-, h⟩ := h
      obtain rfl := congrArg Prod.fst (Option.some.inj h)
      exact .none
  | snapshot =>
      simp only [step, snapshot] at h
      split at h
      · split at h
        · obtain rfl := congrArg Prod.fst (Option.some.inj h)
          exact .none
        · obtain rfl := congrArg Prod.fst (Option.some.inj h)
          exact .same
      · cases h
  | restart =>
      obtain rfl := congrArg Prod.fst (Option.some.inj h)
      exact .none
  | arrive j now =>
      simp only [step, Option.bind_eq_bind, Option.bind_eq_some_iff] at h
      obtain ⟨rpc, -, h⟩ := h
      obtain rfl := congrArg Prod.fst (Option.some.inj h)
      exact .arrived rpc now
  | readIndex i => exact advance_handlers (fun _ _ => .readIndex) h
  | readIndexReturn i => exact advance_handlers (fun _ _ => .readIndexReturn) h
  | waitForApplied i => exact advance_handlers (fun _ _ => .waitForApplied) h
  | timeOut i =>
      exact advance_handlers
        (fun _ _ hphase => .apart (timeOutPhase_readIndex? hphase)) h
  | checkDuplicate i =>
      exact advance_handlers
        (fun _ _ hphase => .apart (checkDuplicatePhase_readIndex? hphase)) h
  | readOnlyGet i now =>
      simp only [step, readOnlyGet, Option.bind_eq_bind,
        Option.bind_eq_some_iff] at h
      obtain ⟨⟨r, handler⟩, hreading, h⟩ := h
      obtain rfl := congrArg Prod.fst (Option.some.inj h)
      exact .set (reading?_eq_some hreading).1 (.apart rfl)
  | executeGet i now =>
      simp only [step, executeGet, Option.bind_eq_bind,
        Option.bind_eq_some_iff] at h
      obtain ⟨⟨index, handler⟩, hgranted, h⟩ := h
      obtain rfl := congrArg Prod.fst (Option.some.inj h)
      exact .set (granted?_eq_some hgranted).1 (.apart rfl)
  | start i => exact startOp_handlers h
  | registerWait i => exact registerWait_handlers h
  | timeOutPop i => exact timeOutPop_handlers h
  | eraseWait i => exact eraseWait_handlers h
  | pop => exact hsame (pop_handlers h)
  | pushCommand =>
      simp only [step] at h
      split at h
      · cases h
      · obtain rfl := congrArg Prod.fst (Option.some.inj h)
        exact .same
  | pushMsgToKvServer thread =>
      simp only [step, Option.bind_eq_bind, Option.bind_eq_some_iff] at h
      obtain ⟨msg, -, h⟩ := h
      obtain rfl := congrArg Prod.fst (Option.some.inj h)
      exact .same
  | readSnapShotToInstall =>
      simp only [step, readSnapShotToInstall] at h
      split at h
      · cases h
      · split at h
        · obtain rfl := congrArg Prod.fst (Option.some.inj h)
          exact .same
        · obtain rfl := congrArg Prod.fst (Option.some.inj h)
          exact .same
  | execute now =>
      simp only [step, execute] at h
      split at h
      · obtain rfl := congrArg Prod.fst (Option.some.inj h)
        exact .same
      · cases h
  | makeSnapShot =>
      simp only [step, makeSnapShot] at h
      split at h
      · obtain rfl := congrArg Prod.fst (Option.some.inj h)
        exact .same
      · cases h
  | skipSnapshot =>
      simp only [step, skipSnapshot] at h
      split at h
      · obtain rfl := congrArg Prod.fst (Option.some.inj h)
        exact .same
      · cases h
  | sendMessageToWaitChan =>
      simp only [step, sendMessageToWaitChan] at h
      split at h
      · obtain rfl := congrArg Prod.fst (Option.some.inj h)
        exact .same
      · cases h
  | call clientId request =>
      simp only [step, call] at h
      split at h
      · cases h
      · obtain rfl := congrArg Prod.fst (Option.some.inj h)
        exact .same
  | answered clientId i =>
      simp only [step, answered, Option.bind_eq_bind,
        Option.bind_eq_some_iff] at h
      obtain ⟨handler, -, h⟩ := h
      split at h
      · simp only [Option.ite_none_right_eq_some] at h
        obtain ⟨-, h⟩ := h
        obtain rfl := congrArg Prod.fst (Option.some.inj h)
        exact .same
      · cases h
  | answeredElsewhere clientId =>
      obtain rfl := congrArg Prod.fst (Option.some.inj h)
      exact .same

/-- How a handler came to stand on the ReadIndex path, when the action has
been taken. -/
inductive ReadStep (s : KvServer n) (a : KvAction n) (j : ℕ) (handler : Handler)
    (r : ℕ) : Prop where
  | stands (hget : s.handlers[j]? = some handler)
  | asks (ha : a = .readIndex j)
      (hget : s.handlers[j]? = some { handler with phase := .arrived })
      (hleader : s.raft.status = .leader) (hr : r = s.raft.commitIndex)
      (hphase : handler.phase = .confirming s.raft.currentTerm r)
  | returns {savedTerm : ℕ} (ha : a = .readIndexReturn j)
      (hget : s.handlers[j]? =
        some { handler with phase := .confirming savedTerm r })
      (hphase : handler.phase = .waitingApplied r)
  | waits (hget : s.handlers[j]? =
        some { handler with phase := .waitingApplied r })
      (hphase : handler.phase = .applied r)

theorem Sets.readStep {i r : ℕ} {handler : Handler} {phase : Phase}
    (h : s.Sets a i handler phase) (hget : s.handlers[i]? = some handler)
    (hr : phase.readIndex? = some r) :
    s.ReadStep a i { handler with phase := phase } r := by
  cases h with
  | readIndex h =>
      unfold readIndexPhase at h
      split at h
      · next hphase =>
          simp only [Option.ite_none_right_eq_some, Option.some.injEq] at h
          obtain ⟨⟨-, hleader⟩, rfl⟩ := h
          obtain rfl := Option.some.inj hr
          refine .asks rfl ?_ hleader rfl rfl
          rw [hget, ← hphase]
      · cases h
  | readIndexReturn h =>
      unfold readIndexReturnPhase at h
      split at h
      · next savedTerm r' hphase =>
          simp only [Option.ite_none_right_eq_some, Option.some.injEq] at h
          obtain ⟨-, rfl⟩ := h
          obtain rfl := Option.some.inj hr
          have hbefore : s.handlers[i]? = some { handler with
              phase := .confirming savedTerm r' } := by
            rw [hget, ← hphase]
          exact .returns rfl hbefore rfl
      · cases h
  | waitForApplied h =>
      unfold waitForAppliedPhase at h
      split at h
      · next r' hphase =>
          simp only [Option.ite_none_right_eq_some, Option.some.injEq] at h
          obtain ⟨-, rfl⟩ := h
          obtain rfl := Option.some.inj hr
          refine .waits ?_ rfl
          rw [hget, ← hphase]
      · cases h
  | apart hnone =>
      rw [hnone] at hr
      cases hr

theorem step_readPath (h : s.step a = some (s', es)) {j r : ℕ}
    {handler : Handler} (hj : s'.handlers[j]? = some handler)
    (hr : handler.phase.readIndex? = some r) : s.ReadStep a j handler r := by
  have hstep := step_handlers h
  generalize s'.handlers = handlers at hstep hj
  cases hstep with
  | same => exact .stands hj
  | none => simp at hj
  | arrived rpc now =>
      rcases List.mem_append.mp (List.mem_of_getElem? hj) with hmem | hmem
      · refine .stands ?_
        by_cases hlt : j < s.handlers.length
        · rwa [List.getElem?_append_left hlt] at hj
        · rw [List.getElem?_append_right (Nat.le_of_not_lt hlt)] at hj
          obtain rfl := List.mem_singleton.mp (List.mem_of_getElem? hj)
          cases hr
      · obtain rfl := List.mem_singleton.mp hmem
        cases hr
  | @set i handler₀ phase hget hsets =>
      by_cases hij : i = j
      · subst hij
        rw [List.getElem?_set_self (List.getElem?_eq_some_iff.mp hget).1] at hj
        obtain rfl := Option.some.inj hj
        exact hsets.readStep hget hr
      · rw [List.getElem?_set_ne hij] at hj
        exact .stands hj

end KvServer

end KVRaftStorage
