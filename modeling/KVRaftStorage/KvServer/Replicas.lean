import KVRaftStorage.KvServer.AtMostOnce

/-!
# Two replicas of one log

The state of a server that has read no snapshot is a function of the commands
it has applied and of what its clock said about the keys of the `Append`s, as
long as its `Get` handlers leave the state alone.  Two replicas of one log with
the same answers of the clock therefore end in the same state.
-/

namespace KVRaftStorage

/-! ## Replaying with the answers of a clock -/

namespace KvState

/-- `executeCommand` with the answer of the clock about the key. -/
def executeAnswered (st : KvState) (op : Op) (expired : Bool) : KvState :=
  if op.operation = "Put" then st.executePutOpOnKVDB op
  else if op.operation = "Append" then
    let dropped : KvState :=
      if expired then
        { st with
          engine := Function.update st.engine op.key none
          expireMap := Function.update st.expireMap op.key none }
      else st
    let newValue :=
      match dropped.engine op.key with
      | none => op.value
      | some oldValue => oldValue ++ op.value
    ((dropped.put op.key newValue).setKeyExpire op.key
      op.expireAtMs).recordRequest op
  else st

theorem executeCommand_eq_answered (st : KvState) (now : ℕ) (op : Op) :
    st.executeCommand now op =
      st.executeAnswered op (st.isKeyExpired now op.key) := rfl

/-- Only an `Append` asks the clock. -/
theorem executeAnswered_of_not_append (st : KvState) {op : Op}
    (h : op.operation ≠ "Append") (expired expired' : Bool) :
    st.executeAnswered op expired = st.executeAnswered op expired' := by
  simp only [executeAnswered, if_neg h]

/-- `GetCommandFromRaft` with the answer of the clock. -/
def applyAnswered (st : KvState) (command : Op × Bool) : KvState :=
  if st.ifRequestDuplicate command.1.clientId command.1.requestId then st
  else st.executeAnswered command.1 command.2

theorem applyAnswered_of_not_append (st : KvState) {op : Op}
    (h : op.operation ≠ "Append") (expired expired' : Bool) :
    st.applyAnswered (op, expired) = st.applyAnswered (op, expired') := by
  simp only [applyAnswered, st.executeAnswered_of_not_append h expired expired']

end KvState

/-- The command of an event with the answer of the clock about its key. -/
def KvEvent.command? : KvEvent → Option (Op × Bool)
  | .applied _ op _ expired => some (op, expired)
  | _ => none

/-- The commands that were applied, each with the answer of the clock. -/
def appliedCommands (es : List KvEvent) : List (Op × Bool) :=
  es.filterMap KvEvent.command?

/-- The part of the log that was applied. -/
def commands (es : List KvEvent) : List Op :=
  (appliedCommands es).map Prod.fst

def isAppend (command : Op × Bool) : Bool :=
  command.1.operation = "Append"

/-- What the clock said about the keys of the `Append`s. -/
def clockAnswers (es : List KvEvent) : List Bool :=
  ((appliedCommands es).filter isAppend).map Prod.snd

/-- The log and the answers about its `Append`s determine the state. -/
theorem foldl_applyAnswered_congr {l l' : List (Op × Bool)} (st : KvState)
    (hlog : l.map Prod.fst = l'.map Prod.fst)
    (hclock : (l.filter isAppend).map Prod.snd =
      (l'.filter isAppend).map Prod.snd) :
    l.foldl KvState.applyAnswered st = l'.foldl KvState.applyAnswered st := by
  induction l generalizing l' st with
  | nil =>
      obtain rfl : l' = [] := by simpa using hlog.symm
      rfl
  | cons command l ih =>
      cases l' with
      | nil => simp at hlog
      | cons command' l' =>
          obtain ⟨op, expired⟩ := command
          obtain ⟨op', expired'⟩ := command'
          obtain ⟨rfl, hrest⟩ : op = op' ∧ l.map Prod.fst = l'.map Prod.fst := by
            simpa using hlog
          by_cases happend : op.operation = "Append"
          · obtain ⟨rfl, hanswers⟩ : expired = expired' ∧
                (l.filter isAppend).map Prod.snd =
                  (l'.filter isAppend).map Prod.snd := by
              simpa [isAppend, happend] using hclock
            exact ih _ hrest hanswers
          · have hanswers : (l.filter isAppend).map Prod.snd =
                (l'.filter isAppend).map Prod.snd := by
              simpa [isAppend, happend] using hclock
            rw [List.foldl_cons, List.foldl_cons,
              st.applyAnswered_of_not_append happend expired expired']
            exact ih _ hrest hanswers

namespace KvServer

variable {n : ℕ} {s s' : KvServer n} {a : KvAction n} {es es' : List KvEvent}

/-! ## Handlers that leave the state alone -/

/-- The `Get` that the action executes, with the reading of the clock. -/
def executedGetAt? (s : KvServer n) : KvAction n → Option (Op × ℕ)
  | .executeGet h now => (s.granted? h).map fun p => (p.2.op, now)
  | _ => none

/-- Executed `Get`s find their key not expired and their request recorded. -/
def GetsChangeNothing (s : KvServer n) (a : KvAction n) : Prop :=
  ∀ get ∈ s.executedGetAt? a,
    s.state.isKeyExpired get.2 get.1.key = false ∧
      s.state.lastRequestId get.1.clientId = some get.1.requestId

instance (s : KvServer n) (a : KvAction n) :
    Decidable (s.GetsChangeNothing a) :=
  inferInstanceAs (Decidable (∀ get ∈ s.executedGetAt? a, _))

theorem executeGet_unchanged {st : KvState} {now : ℕ} {op : Op}
    (hexpired : st.isKeyExpired now op.key = false)
    (hrecorded : st.lastRequestId op.clientId = some op.requestId) :
    (st.executeGetOpOnKVDB now op).1 = st := by
  have hsame : Function.update st.lastRequestId op.clientId
      (some op.requestId) = st.lastRequestId := by
    rw [← hrecorded, Function.update_eq_self]
  simp [KvState.executeGetOpOnKVDB, hexpired, KvState.recordRequest, hsame]

/-! ## The state is the replay of the commands -/

/-- The state is the replay of the applied commands, and the verdict of the
duplicate check still holds. -/
structure Replays (s : KvServer n) (es : List KvEvent) : Prop where
  state : s.state = (appliedCommands es).foldl KvState.applyAnswered .empty
  checked : ∀ i op duplicate, s.loop = .checked i op duplicate →
    duplicate = s.state.ifRequestDuplicate op.clientId op.requestId

theorem Replays.of_same (h : s.Replays es) (hstate : s'.state = s.state)
    (hes : appliedCommands es' = [])
    (hloop : s'.loop = s.loop ∨ ∀ i op duplicate,
      s'.loop = .checked i op duplicate →
        duplicate = s'.state.ifRequestDuplicate op.clientId op.requestId) :
    s'.Replays (es ++ es') where
  state := by
    rw [appliedCommands, List.filterMap_append]
    change _ = (appliedCommands es ++ appliedCommands es').foldl _ _
    rw [hes, List.append_nil, hstate, h.state]
  checked := by
    rcases hloop with heq | hchecked
    · rw [heq, hstate]
      exact h.checked
    · exact hchecked

theorem Replays.execute (h : s.Replays es) {now i : ℕ} {op : Op}
    {duplicate : Bool} (hloop : s.loop = .checked i op duplicate) :
    Replays
      { s with
        state := if duplicate then s.state else s.state.executeCommand now op
        loop := .executed i op }
      (es ++ [.applied i op duplicate (s.state.isKeyExpired now op.key)]) where
  state := by
    obtain rfl := h.checked i op duplicate hloop
    rw [appliedCommands, List.filterMap_append, List.foldl_append]
    change _ = [(op, s.state.isKeyExpired now op.key)].foldl _
      ((appliedCommands es).foldl _ _)
    rw [← h.state]
    rfl
  checked := by
    intro i op duplicate heq
    cases heq

theorem Replays.step (h : s.Replays es) (hgets : s.GetsChangeNothing a)
    (hreset : ∀ e ∈ es', e.isReset = false)
    (hstep : s.step a = some (s', es')) : s'.Replays (es ++ es') := by
  cases step_moves hstep with
  | quiet hsame => exact h.of_same hsame.state rfl (.inl hsame.loop)
  | reboot => cases hreset .restarted (by simp)
  | getApplyLogs => exact h.of_same rfl rfl (.inl rfl)
  | pushCommand => exact h.of_same rfl rfl (.inl rfl)
  | installSnapshot => exact h.of_same rfl rfl (.inl rfl)
  | pushMsgToKvServer => exact h.of_same rfl rfl (.inl rfl)
  | readSnapShotToInstall =>
      unfold readSnapShotToInstall at hreset ⊢
      split
      · exact h.of_same rfl rfl (.inl rfl)
      · next image heq =>
          rw [heq] at hreset
          cases hreset (.restored image) (by simp)
  | @popCommand op i rest hbooted hloop hchan =>
      unfold getCommandFromRaft
      split
      · exact h.of_same rfl rfl (.inl rfl)
      · refine h.of_same rfl rfl (.inr fun i op duplicate heq => ?_)
        cases heq
        rfl
  | @popSnapshot image t i rest hbooted hloop hchan =>
      unfold getSnapShotFromRaft at hreset ⊢
      cases image with
      | none => exact h.of_same rfl rfl (.inl rfl)
      | some image => cases hreset (.restored image) (by simp)
  | execute hloop => exact h.execute hloop
  | makeSnapShot => exact h.of_same rfl rfl (.inr fun _ _ _ heq => by cases heq)
  | skipSnapshot => exact h.of_same rfl rfl (.inr fun _ _ _ heq => by cases heq)
  | snapshotRefused =>
      exact h.of_same rfl rfl (.inr fun _ _ _ heq => by cases heq)
  | snapshotTaken =>
      exact h.of_same rfl rfl (.inr fun _ _ _ heq => by cases heq)
  | snapshotExit => cases hreset .restarted (by simp)
  | sendMessageToWaitChan =>
      exact h.of_same rfl rfl (.inr fun _ _ _ heq => by cases heq)
  | readOnlyGet _ hsame => exact h.of_same hsame.state rfl (.inl hsame.loop)
  | @executeGet j now i handler _ hgranted hsame =>
      obtain ⟨hexpired, hrecorded⟩ := hgets (handler.op, now)
        (by simp [executedGetAt?, hgranted])
      refine h.of_same ?_ rfl (.inl hsame.loop)
      rw [hsame.state]
      exact executeGet_unchanged hexpired hrecorded

theorem replays_along {me : Fin n} {as : List (KvAction n)}
    (hgets : Transition.Throughout step GetsChangeNothing (start me) as)
    (hreset : ∀ e ∈ es, e.isReset = false)
    (hrun : (start me).run as = some (s, es)) : s.Replays es := by
  have hinvariant : (∀ e ∈ es, e.isReset = false) → s.Replays es := by
    refine Transition.run_history
      (I := fun s es => (∀ e ∈ es, e.isReset = false) → s.Replays es) ?_ hgets
      (fun _ => ⟨rfl, fun _ _ _ heq => by cases heq⟩) hrun
    intro s es a s' es' hp hreplays hstep hreset
    exact (hreplays fun e he => hreset e (by simp [he])).step hp
      (fun e he => hreset e (by simp [he])) hstep
  exact hinvariant hreset

/-- Two servers that have applied the same commands are in the same state if
their clocks gave the same answers and their `Get`s changed nothing. -/
theorem replicas_agree {me₁ me₂ : Fin n} {as₁ as₂ : List (KvAction n)}
    {s₁ s₂ : KvServer n} {es₁ es₂ : List KvEvent}
    (hrun₁ : (start me₁).run as₁ = some (s₁, es₁))
    (hrun₂ : (start me₂).run as₂ = some (s₂, es₂))
    (hreset₁ : ∀ e ∈ es₁, e.isReset = false)
    (hreset₂ : ∀ e ∈ es₂, e.isReset = false)
    (hlog : commands es₁ = commands es₂)
    (hgets₁ : Transition.Throughout step GetsChangeNothing (start me₁) as₁)
    (hgets₂ : Transition.Throughout step GetsChangeNothing (start me₂) as₂)
    (hclock : clockAnswers es₁ = clockAnswers es₂) :
    s₁.state = s₂.state := by
  rw [(replays_along hgets₁ hreset₁ hrun₁).state,
    (replays_along hgets₂ hreset₂ hrun₂).state]
  exact foldl_applyAnswered_congr .empty hlog hclock

/-! ## Clocks that disagree -/

/-- A `Put` whose key lives until time 5, and an `Append` to it. -/
def expiringEntries : AppendEntriesArgs 3 where
  term := 1
  leaderId := 2
  prevLogIndex := 0
  prevLogTerm := 0
  entries :=
    [{ command :=
        { operation := "Put", key := "k", value := "a", clientId := "c",
          requestId := 1, ttlMs := 5, expireAtMs := 5 },
       logTerm := 1, logIndex := 1 },
      { command :=
        { operation := "Append", key := "k", value := "b", clientId := "c",
          requestId := 2, ttlMs := 0, expireAtMs := 0 },
        logTerm := 1, logIndex := 2 }]
  leaderCommit := 2

/-- A follower applies both, the second at time `now`. -/
def expiringRun (now : ℕ) : List (KvAction 3) :=
  [.readSnapShotToInstall, .receive (.appendEntries1 expiringEntries),
    .getApplyLogs, .pushCommand, .pushCommand] ++ applyOne ++
    [.pop, .execute now, .skipSnapshot, .sendMessageToWaitChan]

theorem replicas_agree_in_time :
    ∃ s₁ s₂ es₁ es₂, (start 0).run (expiringRun 3) = some (s₁, es₁) ∧
      (start 1).run (expiringRun 4) = some (s₂, es₂) ∧
      s₁.state.engine "k" = some "ab" ∧ s₁.state = s₂.state := by
  obtain ⟨s₁, es₁, hrun₁, s₂, es₂, hrun₂, hvalue, hreset₁, hreset₂, hlog,
      hclock⟩ : ∃ s₁ es₁, (start 0).run (expiringRun 3) = some (s₁, es₁) ∧
        ∃ s₂ es₂, (start 1).run (expiringRun 4) = some (s₂, es₂) ∧
          s₁.state.engine "k" = some "ab" ∧
          (∀ e ∈ es₁, e.isReset = false) ∧ (∀ e ∈ es₂, e.isReset = false) ∧
          commands es₁ = commands es₂ ∧ clockAnswers es₁ = clockAnswers es₂ := by
    decide +kernel
  exact ⟨s₁, s₂, es₁, es₂, hrun₁, hrun₂, hvalue,
    replicas_agree hrun₁ hrun₂ hreset₁ hreset₂ hlog (by decide +kernel)
      (by decide +kernel) hclock⟩

/-- The same commands at other times leave another value. -/
theorem replicas_diverge :
    ∃ s₁ s₂ es₁ es₂, (start 0).run (expiringRun 3) = some (s₁, es₁) ∧
      (start 1).run (expiringRun 8) = some (s₂, es₂) ∧
      (∀ e ∈ es₁, e.isReset = false) ∧ (∀ e ∈ es₂, e.isReset = false) ∧
      commands es₁ = commands es₂ ∧ s₁.state.engine ≠ s₂.state.engine := by
  obtain ⟨s₁, es₁, hrun₁, s₂, es₂, hrun₂, hreset₁, hreset₂, hlog, hvalue⟩ :
      ∃ s₁ es₁, (start 0).run (expiringRun 3) = some (s₁, es₁) ∧
        ∃ s₂ es₂, (start 1).run (expiringRun 8) = some (s₂, es₂) ∧
          (∀ e ∈ es₁, e.isReset = false) ∧ (∀ e ∈ es₂, e.isReset = false) ∧
          commands es₁ = commands es₂ ∧
          s₁.state.engine "k" ≠ s₂.state.engine "k" := by
    decide +kernel
  exact ⟨s₁, s₂, es₁, es₂, hrun₁, hrun₂, hreset₁, hreset₂, hlog,
    fun heq => hvalue (congrFun heq "k")⟩

end KvServer

end KVRaftStorage
