import KVRaftStorage.KvServer.Frames

/-!
# What a step does to the apply pipeline

Between the log and the key-value state lie the messages of `applierTicker`,
the detached threads of `InstallSnapshot`, the queue `applyChan` and the apply
loop.  The file lists once what a step can do to them; every invariant of the
server is derived from this list.
-/

namespace KVRaftStorage

namespace KvServer

variable {n : ℕ}

/-- The pipeline and the key-value state stay. -/
structure SamePipeline (s s' : KvServer n) : Prop where
  raft : s.raft.KeepsSnapshot s'.raft
  applyMsgs : s'.applyMsgs = s.applyMsgs
  detached : s'.detached = s.detached
  applyChan : s'.applyChan = s.applyChan
  state : s'.state = s.state
  lastSnapShotRaftLogIndex :
    s'.lastSnapShotRaftLogIndex = s.lastSnapShotRaftLogIndex
  loop : s'.loop = s.loop
  booted : s'.booted = s.booted

theorem SamePipeline.refl (s : KvServer n) : s.SamePipeline s :=
  ⟨.refl _, rfl, rfl, rfl, rfl, rfl, rfl, rfl⟩

/-- The step `a` from `s`, as far as the pipeline is concerned. -/
inductive Moves (s : KvServer n) :
    KvAction n → KvServer n → List KvEvent → Prop where
  | quiet {a : KvAction n} {s' : KvServer n} (hsame : s.SamePipeline s') :
      Moves s a s' []
  | reboot {a : KvAction n} {p : Persister n KvState}
      (hp : s.raft.KeepsImage p) : Moves s a (s.reboot p) [.restarted]
  | getApplyLogs {r : Raft n KvState} {msgs : List (ℕ × Op)}
      (hempty : s.applyMsgs = []) (hmsgs : s.raft.getApplyLogs = .ok (r, msgs)) :
      Moves s .getApplyLogs { s with raft := r, applyMsgs := msgs } []
  | pushCommand {i : ℕ} {op : Op} {rest : List (ℕ × Op)}
      (hmsgs : s.applyMsgs = (i, op) :: rest) :
      Moves s .pushCommand
        { s with
          applyMsgs := rest
          applyChan := s.applyChan ++ [.command op i] } []
  | installSnapshot {args : InstallSnapshotRequest n KvState}
      {r : Raft n KvState} (hterm : s.raft.currentTerm ≤ args.term)
      (htakes : s.raft.TakesSnapshot args.lastSnapShotIncludeIndex args.data r) :
      Moves s (.installSnapshot args)
        { s with
          raft := r
          detached := s.detached ++
            [.snapshot args.data args.lastSnapShotIncludeTerm
              args.lastSnapShotIncludeIndex] } []
  | pushMsgToKvServer {thread : ℕ} {msg : ApplyMsg KvState}
      (hmsg : s.detached[thread]? = some msg) :
      Moves s (.pushMsgToKvServer thread)
        { s with
          detached := s.detached.eraseIdx thread
          applyChan := s.applyChan ++ [msg] } []
  | readSnapShotToInstall (hbooted : s.booted = false) :
      Moves s .readSnapShotToInstall s.readSnapShotToInstall.1
        s.readSnapShotToInstall.2
  | popCommand {op : Op} {i : ℕ} {rest : List (ApplyMsg KvState)}
      (hbooted : s.booted = true) (hloop : s.loop = .idle)
      (hchan : s.applyChan = .command op i :: rest) :
      Moves s .pop ({ s with applyChan := rest }.getCommandFromRaft op i).1
        ({ s with applyChan := rest }.getCommandFromRaft op i).2
  | popSnapshot {image : Option KvState} {t i : ℕ}
      {rest : List (ApplyMsg KvState)} (hbooted : s.booted = true)
      (hloop : s.loop = .idle)
      (hchan : s.applyChan = .snapshot image t i :: rest) :
      Moves s .pop ({ s with applyChan := rest }.getSnapShotFromRaft image i).1
        ({ s with applyChan := rest }.getSnapShotFromRaft image i).2
  | execute {now i : ℕ} {op : Op} {duplicate : Bool}
      (hloop : s.loop = .checked i op duplicate) :
      Moves s (.execute now)
        { s with
          state :=
            if duplicate then s.state else s.state.executeCommand now op
          loop := .executed i op }
        [.applied i op duplicate (s.state.isKeyExpired now op.key)]
  | makeSnapShot {i : ℕ} {op : Op} (hloop : s.loop = .executed i op) :
      Moves s .makeSnapShot { s with loop := .snapshotting i op s.state } []
  | skipSnapshot {i : ℕ} {op : Op} (hloop : s.loop = .executed i op) :
      Moves s .skipSnapshot { s with loop := .sending i op } []
  | snapshotRefused {i : ℕ} {op : Op} {image : KvState}
      (hloop : s.loop = .snapshotting i op image) :
      Moves s .snapshot { s with loop := .sending i op }
        [.snapshotted i image]
  | snapshotTaken {i : ℕ} {op : Op} {image : KvState} {r : Raft n KvState}
      (hloop : s.loop = .snapshotting i op image)
      (htakes : s.raft.TakesSnapshot i (some image) r) :
      Moves s .snapshot { s with raft := r, loop := .sending i op }
        [.snapshotted i image]
  | snapshotExit {i : ℕ} {op : Op} {image : KvState} {p : Persister n KvState}
      (hloop : s.loop = .snapshotting i op image)
      (hp : p = s.raft.persister ∨
        (p.snapshot = some image ∧ p.boundary = i)) :
      Moves s .snapshot (s.reboot p) [.snapshotted i image, .restarted]
  | sendMessageToWaitChan {i : ℕ} {op : Op}
      {waitApplyCh : ℕ → Option (List Op)} (hloop : s.loop = .sending i op) :
      Moves s .sendMessageToWaitChan
        { s with loop := .idle, waitApplyCh := waitApplyCh }
        [.processed s.state]
  | readOnlyGet {h now r : ℕ} {handler : Handler} {s' : KvServer n}
      (hreading : s.reading? h = some (r, handler))
      (hsame : s.SamePipeline s') :
      Moves s (.readOnlyGet h now) s' [.readServed r s.state]
  | executeGet {h now i : ℕ} {handler : Handler} {s' : KvServer n}
      (hgranted : s.granted? h = some (i, handler))
      (hsame : SamePipeline
        { s with state := (s.state.executeGetOpOnKVDB now handler.op).1 } s') :
      Moves s (.executeGet h now) s' []

variable {s s' : KvServer n} {a : KvAction n} {es : List KvEvent}

theorem samePipeline_setPhase (s : KvServer n) (h : ℕ) (handler : Handler)
    (phase : Phase) : s.SamePipeline (s.setPhase h handler phase) :=
  ⟨.refl _, rfl, rfl, rfl, rfl, rfl, rfl, rfl⟩

theorem advance_eq_some {h : ℕ} {f : Handler → Option Phase}
    (hadvance : s.advance h f = some (s', es)) :
    s.SamePipeline s' ∧ es = [] := by
  simp only [advance, Option.bind_eq_bind, Option.bind_eq_some_iff] at hadvance
  obtain ⟨handler, -, phase, -, heq⟩ := hadvance
  obtain ⟨rfl, rfl⟩ : _ = s' ∧ [] = es := by simpa using heq
  exact ⟨⟨.refl _, rfl, rfl, rfl, rfl, rfl, rfl, rfl⟩, rfl⟩

/-- A step that only touches handlers, waiting channels and clerks. -/
theorem moves_of_samePipeline (h : s.SamePipeline s' ∧ es = []) :
    s.Moves a s' es := by
  obtain ⟨hsame, rfl⟩ := h
  exact .quiet hsame

theorem pop_moves (h : s.pop = some (s', es)) : s.Moves .pop s' es := by
  unfold pop at h
  split at h
  · next op i rest hbooted hloop hchan =>
      have hmove := Moves.popCommand hbooted hloop hchan
      rwa [Option.some.inj h] at hmove
  · next image t i rest hbooted hloop hchan =>
      have hmove := Moves.popSnapshot hbooted hloop hchan
      rwa [Option.some.inj h] at hmove
  · cases h

theorem snapshot_moves (h : s.snapshot = some (s', es)) :
    s.Moves .snapshot s' es := by
  unfold snapshot at h
  split at h
  · next i op image hloop =>
      split at h
      · next p hexit =>
          obtain ⟨rfl, rfl⟩ : _ = s' ∧ _ = es := by simpa using h
          exact .snapshotExit hloop (Raft.snapshot_exits hexit)
      · next r hok =>
          obtain ⟨rfl, rfl⟩ : _ = s' ∧ _ = es := by simpa using h
          rcases Raft.snapshot_takes hok with rfl | htakes
          · exact .snapshotRefused hloop
          · exact .snapshotTaken hloop htakes
  · cases h

theorem installSnapshot_moves (args : InstallSnapshotRequest n KvState) :
    s.Moves (.installSnapshot args) (s.installSnapshot args).1
      (s.installSnapshot args).2 := by
  unfold installSnapshot
  split
  · next p herror =>
      rw [Raft.installSnapshot_eq_error herror]
      exact .reboot (s.raft.keepsImage_installTerm args.term)
  · next r reply msg hok =>
      rcases Raft.installSnapshot_takes hok with
        ⟨hkeeps, rfl⟩ | ⟨hterm, htakes, rfl⟩
      · exact .quiet ⟨hkeeps, rfl, by simp, rfl, rfl, rfl, rfl, rfl⟩
      · exact .installSnapshot hterm htakes

theorem startOp_quiet {h : ℕ} (hstart : s.startOp h = some (s', es)) :
    s.SamePipeline s' ∧ es = [] := by
  simp only [startOp, Option.bind_eq_bind, Option.bind_eq_some_iff] at hstart
  obtain ⟨handler, -, hstart⟩ := hstart
  split at hstart
  · have hkeeps := s.raft.keepsSnapshot_start handler.op
    split at hstart
    · next r heq =>
        rw [heq] at hkeeps
        obtain ⟨rfl, rfl⟩ : _ = s' ∧ [] = es := by simpa using hstart
        exact ⟨⟨hkeeps, rfl, rfl, rfl, rfl, rfl, rfl, rfl⟩, rfl⟩
    · next r i t heq =>
        rw [heq] at hkeeps
        obtain ⟨rfl, rfl⟩ : _ = s' ∧ [] = es := by simpa using hstart
        exact ⟨⟨hkeeps, rfl, rfl, rfl, rfl, rfl, rfl, rfl⟩, rfl⟩
  · cases hstart

theorem timeOutPop_quiet {h : ℕ} (hpop : s.timeOutPop h = some (s', es)) :
    s.SamePipeline s' ∧ es = [] := by
  simp only [timeOutPop, Option.bind_eq_bind, Option.bind_eq_some_iff] at hpop
  obtain ⟨handler, -, hpop⟩ := hpop
  split at hpop
  · split at hpop
    · obtain ⟨rfl, rfl⟩ : _ = s' ∧ [] = es := by simpa using hpop
      exact ⟨⟨.refl _, rfl, rfl, rfl, rfl, rfl, rfl, rfl⟩, rfl⟩
    · cases hpop
  · cases hpop

/-- Every step is one of the listed moves. -/
theorem step_moves (h : s.step a = some (s', es)) : s.Moves a s' es := by
  cases a with
  | receive input =>
      simp only [step, Option.some.injEq, receive] at h
      split at h
      · next p herror =>
          obtain ⟨rfl, rfl⟩ : _ = s' ∧ _ = es := by simpa using h
          rw [Raft.receive_eq_error herror]
          exact .reboot s.raft.keepsImage_persister
      · next r hok =>
          obtain ⟨rfl, rfl⟩ : _ = s' ∧ [] = es := by simpa using h
          exact .quiet ⟨Raft.receive_eq_ok hok, rfl, rfl, rfl, rfl, rfl, rfl,
            rfl⟩
  | getApplyLogs =>
      simp only [step, getApplyLogs, Option.ite_none_right_eq_some] at h
      obtain ⟨hempty, h⟩ := h
      split at h
      · next p herror =>
          obtain ⟨rfl, rfl⟩ : _ = s' ∧ _ = es := by simpa using h
          rw [Raft.getApplyLogs_eq_error herror]
          exact .reboot s.raft.keepsImage_persister
      · next r msgs hok =>
          obtain ⟨rfl, rfl⟩ : _ = s' ∧ [] = es := by simpa using h
          exact .getApplyLogs hempty hok
  | pushCommand =>
      simp only [step] at h
      split at h
      · cases h
      · next i op rest hmsgs =>
          obtain ⟨rfl, rfl⟩ : _ = s' ∧ [] = es := by simpa using h
          exact .pushCommand hmsgs
  | installSnapshot args =>
      have hmove := s.installSnapshot_moves args
      rwa [Option.some.inj h] at hmove
  | installSnapshotCrash args =>
      simp only [step, Option.ite_none_left_eq_some] at h
      obtain ⟨-, h⟩ := h
      obtain ⟨rfl, rfl⟩ : _ = s' ∧ _ = es := by simpa using h
      exact .reboot (s.raft.keepsImage_installTerm args.term)
  | pushMsgToKvServer thread =>
      simp only [step, Option.bind_eq_bind, Option.bind_eq_some_iff] at h
      obtain ⟨msg, hmsg, h⟩ := h
      obtain ⟨rfl, rfl⟩ : _ = s' ∧ [] = es := by simpa using h
      exact .pushMsgToKvServer hmsg
  | readSnapShotToInstall =>
      simp only [step] at h
      split at h
      · cases h
      · next hbooted =>
          have hmove := Moves.readSnapShotToInstall (s := s)
            (by simpa using hbooted)
          rwa [Option.some.inj h] at hmove
  | pop => exact pop_moves h
  | execute now =>
      simp only [step, execute] at h
      split at h
      · next i op duplicate hloop =>
          obtain ⟨rfl, rfl⟩ : _ = s' ∧ _ = es := by simpa using h
          exact .execute hloop
      · cases h
  | makeSnapShot =>
      simp only [step, makeSnapShot] at h
      split at h
      · next i op hloop =>
          obtain ⟨rfl, rfl⟩ : _ = s' ∧ [] = es := by simpa using h
          exact .makeSnapShot hloop
      · cases h
  | skipSnapshot =>
      simp only [step, skipSnapshot] at h
      split at h
      · next i op hloop =>
          obtain ⟨rfl, rfl⟩ : _ = s' ∧ [] = es := by simpa using h
          exact .skipSnapshot hloop
      · cases h
  | snapshot => exact snapshot_moves h
  | sendMessageToWaitChan =>
      simp only [step, sendMessageToWaitChan] at h
      split at h
      · next i op hloop =>
          obtain ⟨rfl, rfl⟩ : _ = s' ∧ _ = es := by simpa using h
          exact .sendMessageToWaitChan hloop
      · cases h
  | arrive rpc now =>
      simp only [step, Option.bind_eq_bind, Option.bind_eq_some_iff] at h
      obtain ⟨rpc, -, h⟩ := h
      obtain ⟨rfl, rfl⟩ : _ = s' ∧ [] = es := by simpa [arrive] using h
      exact .quiet ⟨.refl _, rfl, rfl, rfl, rfl, rfl, rfl, rfl⟩
  | readIndex i => exact moves_of_samePipeline (advance_eq_some h)
  | readIndexReturn i => exact moves_of_samePipeline (advance_eq_some h)
  | waitForApplied i => exact moves_of_samePipeline (advance_eq_some h)
  | readOnlyGet i now =>
      simp only [step, readOnlyGet, Option.bind_eq_bind,
        Option.bind_eq_some_iff] at h
      obtain ⟨⟨r, handler⟩, hreading, h⟩ := h
      obtain ⟨rfl, rfl⟩ : _ = s' ∧ _ = es := by simpa using h
      exact .readOnlyGet hreading (s.samePipeline_setPhase ..)
  | start i => exact moves_of_samePipeline (startOp_quiet h)
  | registerWait i =>
      simp only [step, registerWait, Option.bind_eq_bind,
        Option.bind_eq_some_iff] at h
      obtain ⟨handler, -, h⟩ := h
      split at h
      · obtain ⟨rfl, rfl⟩ : _ = s' ∧ [] = es := by simpa using h
        exact .quiet ⟨.refl _, rfl, rfl, rfl, rfl, rfl, rfl, rfl⟩
      · cases h
  | timeOutPop i => exact moves_of_samePipeline (timeOutPop_quiet h)
  | timeOut i => exact moves_of_samePipeline (advance_eq_some h)
  | checkDuplicate i => exact moves_of_samePipeline (advance_eq_some h)
  | executeGet i now =>
      simp only [step, executeGet, Option.bind_eq_bind,
        Option.bind_eq_some_iff] at h
      obtain ⟨⟨index, handler⟩, hgranted, h⟩ := h
      obtain ⟨rfl, rfl⟩ : _ = s' ∧ [] = es := by simpa using h
      exact .executeGet hgranted (samePipeline_setPhase ..)
  | eraseWait i =>
      simp only [step, eraseWait, Option.bind_eq_bind,
        Option.bind_eq_some_iff] at h
      obtain ⟨handler, -, h⟩ := h
      split at h
      · obtain ⟨rfl, rfl⟩ : _ = s' ∧ [] = es := by simpa using h
        exact .quiet ⟨.refl _, rfl, rfl, rfl, rfl, rfl, rfl, rfl⟩
      · cases h
  | call clientId request =>
      simp only [step, call] at h
      split at h
      · cases h
      · obtain ⟨rfl, rfl⟩ : _ = s' ∧ [] = es := by simpa using h
        exact .quiet ⟨.refl _, rfl, rfl, rfl, rfl, rfl, rfl, rfl⟩
  | answered clientId i =>
      simp only [step, answered, Option.bind_eq_bind,
        Option.bind_eq_some_iff] at h
      obtain ⟨handler, -, h⟩ := h
      split at h
      · simp only [Option.ite_none_right_eq_some] at h
        obtain ⟨-, h⟩ := h
        obtain ⟨rfl, rfl⟩ : _ = s' ∧ [] = es := by simpa using h
        exact .quiet ⟨.refl _, rfl, rfl, rfl, rfl, rfl, rfl, rfl⟩
      · cases h
  | answeredElsewhere clientId =>
      obtain ⟨rfl, rfl⟩ : _ = s' ∧ [] = es := by simpa [step] using h
      exact .quiet ⟨.refl _, rfl, rfl, rfl, rfl, rfl, rfl, rfl⟩
  | restart =>
      obtain ⟨rfl, rfl⟩ : _ = s' ∧ _ = es := by simpa [step] using h
      exact .reboot s.raft.keepsImage_persister

end KvServer

end KVRaftStorage
