import KVRaftStorage.KvServer.AppliedLog
import KVRaftStorage.KvServer.Progress

/-!
# Reads behind `WaitForApplied`

`m_lastApplied` counts what Raft has handed out, and the key-value state
follows later.  A read of the ReadIndex path sees every command up to its
index if the message that carries this command is not on its way any more.
-/

namespace KVRaftStorage

/-- The message brings the key-value state to the index `r` or behind it. -/
def ApplyMsg.Carries (r : ℕ) : ApplyMsg KvState → Prop
  | .command _ i => i = r
  | .snapshot _ _ i => r ≤ i

instance (r : ℕ) : ∀ m : ApplyMsg KvState, Decidable (m.Carries r)
  | .command _ i => inferInstanceAs (Decidable (i = r))
  | .snapshot _ _ i => inferInstanceAs (Decidable (r ≤ i))

/-- The index of the command that the apply loop has checked but not yet
executed. -/
def Loop.checked? : Loop → Option ℕ
  | .checked i _ _ => some i
  | _ => none

variable {n : ℕ} {L : ℕ → Op} {gets : Op → Prop}

theorem ApplyMsg.carries_of_toMessage {m : ApplyMsg KvState} {r : ℕ}
    (h : m.toMessage.Carries r) : m.Carries r := by
  cases m with
  | command => exact h
  | snapshot => exact h

theorem ApplyMsg.IsImage.carries {m : ApplyMsg KvState} {r : ℕ}
    (h : m.IsImage L gets) (hr : r ≤ m.index) : m.Carries r := by
  cases m with
  | command => exact h.elim
  | snapshot => exact hr

namespace KvServer

/-- The command `r` has still to reach the key-value state: it is checked but
not executed, or a message that carries it waits, or the stored image is not
read yet. -/
def OnItsWay (s : KvServer n) (r : ℕ) : Prop :=
  0 < r ∧
    (s.booted = false ∨
      s.lastSnapShotRaftLogIndex < r ∧
        (s.loop.checked? = some r ∨ (∃ m ∈ s.applyChan, m.Carries r) ∨
          (∃ m ∈ s.detached, m.Carries r) ∨ ∃ m ∈ s.applyMsgs, m.1 = r))

instance (s : KvServer n) (r : ℕ) : Decidable (s.OnItsWay r) :=
  inferInstanceAs (Decidable (_ ∧ (_ ∨ _ ∧ _)))

/-- The read index of a `Get` that reads in this step. -/
def servedIndex? (s : KvServer n) : KvAction n → Option ℕ
  | .readOnlyGet h _ => (s.reading? h).map Prod.fst
  | _ => none

/-- A read finds nothing up to its index on its way. -/
def ReadsApplied (s : KvServer n) (a : KvAction n) : Prop :=
  ∀ r ∈ s.servedIndex? a, ¬s.OnItsWay r

instance (s : KvServer n) (a : KvAction n) : Decidable (s.ReadsApplied a) :=
  inferInstanceAs (Decidable (∀ r ∈ s.servedIndex? a, _))

/-! ## What a read sees -/

variable {s s' : KvServer n} {a : KvAction n} {p : ℕ} {es : List KvEvent}

/-- The state reflects the log up to some `q`, and behind `q` there is only
what is on its way. -/
theorem Consistent.reflects (h : Consistent L gets s p) :
    ∃ q, Reflects L gets q s.state ∧
      ∀ r, q < r → r ≤ s.raft.lastApplied → s.OnItsWay r := by
  by_cases hbooted : s.booted = true
  · have hstands := h.booted hbooted
    obtain ⟨p', t, hdrains, hschedulable, -⟩ := h.queued.order
    -- from the position of the loop on a carrying message has to come
    have hwaits : ∀ r, p < r → r ≤ s.raft.lastApplied → s.OnItsWay r := by
      intro r hp hr
      refine ⟨by omega, .inr ⟨h.last.trans_lt hp, .inr ?_⟩⟩
      by_cases hp' : r ≤ p'
      · obtain ⟨m, hm, hcarries⟩ := hdrains.crosses hp hp'
        obtain ⟨msg, hmsg, rfl⟩ := List.mem_map.mp hm
        exact .inl ⟨msg, hmsg, ApplyMsg.carries_of_toMessage hcarries⟩
      · rcases hschedulable.crosses (by omega) hr with ⟨d, hd, hrd⟩ | hbatch
        · obtain ⟨msg, hmsg, rfl⟩ := List.mem_map.mp hd
          exact .inr (.inl ⟨msg, hmsg, (h.detached msg hmsg).carries hrd⟩)
        · obtain ⟨m, hm, rfl⟩ := List.mem_map.mp hbatch
          exact .inr (.inr ⟨m, hm, rfl⟩)
    unfold Stands at hstands
    cases hloop : s.loop with
    | idle =>
        rw [hloop] at hstands
        exact ⟨p, hstands, hwaits⟩
    | checked i op duplicate =>
        rw [hloop] at hstands
        obtain ⟨rfl, -, hlast, k, st, rfl, hst, -, hgets⟩ := hstands
        refine ⟨k, hst.of_gets hgets, fun r hk hr => ?_⟩
        rcases Nat.eq_or_lt_of_le (Nat.succ_le_of_lt hk) with rfl | hlt
        · exact ⟨by omega, .inr ⟨hlast, .inl (by rw [hloop]; rfl)⟩⟩
        · exact hwaits r hlt hr
    | executed i op =>
        rw [hloop] at hstands
        exact ⟨p, hstands.2, hwaits⟩
    | snapshotting i op image =>
        rw [hloop] at hstands
        exact ⟨p, hstands.2.1, hwaits⟩
    | sending i op =>
        rw [hloop] at hstands
        exact ⟨p, hstands.2, hwaits⟩
  · have hbooted : s.booted = false := by simpa using hbooted
    exact ⟨0, (h.booting hbooted).state, fun r hr _ => ⟨hr, .inl hbooted⟩⟩

/-! ## Who has waited -/

/-- A handler behind `WaitForApplied` has seen its index handed out. -/
def WaitersApplied (s : KvServer n) : Prop :=
  ∀ handler ∈ s.handlers, ∀ r, handler.phase = .applied r →
    r ≤ s.raft.lastApplied

/-- Within a process the log is handed out further and further. -/
theorem lastApplied_mono (h : s.Moves a s' es) :
    s'.handlers = [] ∨ s.raft.lastApplied ≤ s'.raft.lastApplied := by
  cases h with
  | quiet hsame => exact .inr hsame.raft.lastApplied.ge
  | reboot => exact .inl rfl
  | getApplyLogs _ hmsgs =>
      obtain ⟨k, hk, -⟩ := Raft.getApplyLogs_indices hmsgs
      exact .inr (Nat.le.intro hk.symm)
  | pushCommand => exact .inr le_rfl
  | installSnapshot _ htakes =>
      exact .inr (htakes.lastApplied ▸ Nat.le_max_left ..)
  | pushMsgToKvServer => exact .inr le_rfl
  | readSnapShotToInstall =>
      unfold readSnapShotToInstall
      split <;> exact .inr le_rfl
  | popCommand =>
      unfold getCommandFromRaft
      split <;> exact .inr le_rfl
  | popSnapshot =>
      unfold getSnapShotFromRaft
      split <;> exact .inr le_rfl
  | execute => exact .inr le_rfl
  | makeSnapShot => exact .inr le_rfl
  | skipSnapshot => exact .inr le_rfl
  | snapshotRefused => exact .inr le_rfl
  | snapshotTaken _ htakes =>
      exact .inr (htakes.lastApplied ▸ Nat.le_max_left ..)
  | snapshotExit => exact .inl rfl
  | sendMessageToWaitChan => exact .inr le_rfl
  | readOnlyGet _ hsame => exact .inr hsame.raft.lastApplied.ge
  | executeGet _ hsame => exact .inr hsame.raft.lastApplied.ge

theorem WaitersApplied.step (h : s.WaitersApplied)
    (hstep : s.step a = some (s', es)) : s'.WaitersApplied := by
  intro handler hmem r hphase
  rcases lastApplied_mono (step_moves hstep) with hnone | hmono
  · simp [hnone] at hmem
  · obtain ⟨j, hj⟩ := List.mem_iff_getElem?.mp hmem
    rcases (step_serves hstep).handler_cases hj with
      hsame | ⟨rpc, -, now, rfl⟩ | ⟨handler, phase, -, rfl, hmoved⟩
    · have hbefore := h handler (List.mem_of_getElem? hsame) r hphase
      exact hbefore.trans hmono
    · cases hphase
    · obtain rfl : phase = .applied r := hphase
      rcases hmoved with hprogress | ⟨-, i, heq⟩
      · cases hprogress with
        | applied _ hr => exact hr.trans hmono
        | @notified i _ _ _ _ _ _ _ hnext =>
            rcases handler.acknowledge_cases i with ⟨-, heq⟩ | ⟨-, heq⟩
            · cases hnext.trans heq
            · cases hnext.trans heq
        | @duplicate i _ _ _ _ hnext =>
            rcases handler.acknowledge_cases i with ⟨-, heq⟩ | ⟨-, heq⟩
            · cases hnext.trans heq
            · cases hnext.trans heq
      · cases heq

/-! ## Reads -/

/-- Only `ExecuteReadOnlyGetOpOnKVDB` serves a read. -/
theorem Moves.readServed {r : ℕ} {st : KvState} (h : s.Moves a s' es)
    (hmem : .readServed r st ∈ es) :
    st = s.state ∧ s.servedIndex? a = some r ∧
      ∃ handler ∈ s.handlers, handler.phase = .applied r := by
  cases h with
  | @readOnlyGet h now r' handler _ hreading =>
      obtain ⟨rfl, rfl⟩ : r = r' ∧ st = s.state := by simpa using hmem
      obtain ⟨hhandler, hphase⟩ := reading?_eq_some hreading
      exact ⟨rfl, by simp [servedIndex?, hreading],
        handler, List.mem_of_getElem? hhandler, hphase⟩
  | readSnapShotToInstall =>
      unfold KvServer.readSnapShotToInstall at hmem
      split at hmem <;> simp at hmem
  | popCommand =>
      unfold KvServer.getCommandFromRaft at hmem
      split at hmem <;> simp at hmem
  | popSnapshot =>
      unfold KvServer.getSnapShotFromRaft at hmem
      split at hmem <;> simp at hmem
  | _ => simp at hmem

/-- Every read so far has seen the log up to its index. -/
def ReadsSee (L : ℕ → Op) (gets : Op → Prop) (es : List KvEvent) : Prop :=
  ∀ r st, .readServed r st ∈ es → ∃ k, r ≤ k ∧ Reflects L gets k st

theorem ReadsSee.step {es' : List KvEvent} (hsee : ReadsSee L gets es)
    (hconsistent : Consistent L gets s p) (hwaiters : s.WaitersApplied)
    (happlied : s.ReadsApplied a) (hstep : s.step a = some (s', es')) :
    ReadsSee L gets (es ++ es') := by
  intro r st hmem
  rcases List.mem_append.mp hmem with hmem | hmem
  · exact hsee r st hmem
  · obtain ⟨rfl, hserved, handler, hhandler, hphase⟩ :=
      (step_moves hstep).readServed hmem
    obtain ⟨q, hreflects, hbehind⟩ := hconsistent.reflects
    have hr : r ≤ s.raft.lastApplied := hwaiters handler hhandler r hphase
    refine ⟨q, ?_, hreflects⟩
    by_contra hq
    exact happlied r hserved (hbehind r (by omega) hr)

/-- Delivery in order and reads that find nothing on its way: then a read
behind `WaitForApplied(r, t)` sees the log up to `r`. -/
theorem read_barrier {me : Fin n} {as : List (KvAction n)} {es : List KvEvent}
    (himages : ∀ args, .installSnapshot args ∈ as → CarriesImage L gets args)
    (hlog : Transition.Throughout step (HandsOutLog L) (start me) as)
    (hgets : Transition.Throughout step (ExecutesGets gets) (start me) as)
    (horder : Transition.Throughout step DeliversInOrder (start me) as)
    (happlied : Transition.Throughout step ReadsApplied (start me) as)
    (hrun : (start me).run as = some (s, es)) :
    ∀ r st, .readServed r st ∈ es → ∃ k, r ≤ k ∧ Reflects L gets k st := by
  have himages : Transition.Throughout step
      (fun _ a => ∀ args, a = .installSnapshot args →
        CarriesImage L gets args) (start me) as :=
    Transition.throughout_of_mem
      (by rintro a ha args rfl; exact himages args ha) _
  have hall := Transition.throughout_and happlied
    (Transition.throughout_and himages
      (Transition.throughout_and hlog (Transition.throughout_and hgets horder)))
  have hinvariant : Tracks L gets s es ∧ s.WaitersApplied ∧
      ReadsSee L gets es := by
    refine Transition.run_history
      (I := fun s es => Tracks L gets s es ∧ s.WaitersApplied ∧
        ReadsSee L gets es) ?_ hall
      ⟨tracks_start me, by simp [WaitersApplied, start, boot],
        by simp [ReadsSee]⟩ hrun
    rintro s es a s' es' ⟨hread, hp⟩ ⟨htracks, hwaiters, hsee⟩ hstep
    obtain ⟨k, p, -, -, hconsistent⟩ := id htracks
    exact ⟨tracks_step htracks ⟨hp.1, hp.2.1, hp.2.2.1, hp.2.2.2⟩ hstep,
      hwaiters.step hstep, hsee.step hconsistent hwaiters hread hstep⟩
  exact hinvariant.2.2

/-- A new leader that knows one committed command is asked to read. -/
def readRun (handOut : List (KvAction 3)) : List (KvAction 3) :=
  [.readSnapShotToInstall, .receive (.appendEntries1 (sampleEntries 1)),
    .receive .doElection,
    .receive (.sendRequestVote 1
      { term := 2, voteGranted := true, voteState := .normal }),
    .call "c" (.get "k"), .arrive 0 0, .readIndex 0, .readIndexReturn 0] ++
    handOut ++ [.waitForApplied 0, .readOnlyGet 0 0]

theorem read_barrier_applied :
    ∃ s es, (start 0).run (readRun ([.getApplyLogs, .pushCommand] ++ applyOne))
      = some (s, es) ∧ es.length = 3 ∧
      ∀ r st, .readServed r st ∈ es →
        ∃ k, r ≤ k ∧ Reflects sampleLog (fun _ => False) k st := by
  obtain ⟨s, es, hrun, hlen⟩ : ∃ s es,
      (start 0).run (readRun ([.getApplyLogs, .pushCommand] ++ applyOne)) =
        some (s, es) ∧ es.length = 3 := by
    decide +kernel
  refine ⟨s, es, hrun, hlen, read_barrier ?_ (by decide +kernel)
    (by decide +kernel) (by decide +kernel) (by decide +kernel) hrun⟩
  intro args hargs
  simp [readRun, applyOne] at hargs

end KvServer

/-- A read at index 1 whose state does not know the client of command 1. -/
def KvEvent.readsWithout (clientId : String) : KvEvent → Bool
  | .readServed r st => r = 1 ∧ st.lastRequestId clientId = none
  | _ => false

namespace KvServer

/-- The command is handed out but still on its way when the read goes
through. -/
theorem read_overtakes_command :
    ∃ s es, (start 0).run (readRun [.getApplyLogs]) = some (s, es) ∧
      (∀ args, .installSnapshot args ∉ readRun [.getApplyLogs]) ∧
      Transition.Throughout step (HandsOutLog sampleLog) (start 0)
        (readRun [.getApplyLogs]) ∧
      Transition.Throughout step (ExecutesGets fun _ => False) (start 0)
        (readRun [.getApplyLogs]) ∧
      Transition.Throughout step DeliversInOrder (start 0)
        (readRun [.getApplyLogs]) ∧
      ¬∀ r st, .readServed r st ∈ es →
        ∃ k, r ≤ k ∧ Reflects sampleLog (fun _ => False) k st := by
  obtain ⟨s, es, hrun, hreads⟩ : ∃ s es,
      (start 0).run (readRun [.getApplyLogs]) = some (s, es) ∧
        ∃ e ∈ es, e.readsWithout "1" = true := by
    decide +kernel
  refine ⟨s, es, hrun, by simp [readRun], by decide +kernel,
    by decide +kernel, by decide +kernel, fun hall => ?_⟩
  obtain ⟨e, he, hwithout⟩ := hreads
  cases e with
  | readServed r st =>
      obtain ⟨rfl, hnone⟩ : r = 1 ∧ st.lastRequestId "1" = none := by
        simpa [KvEvent.readsWithout] using hwithout
      obtain ⟨k, hk, hreflects⟩ := hall 1 st he
      -- the first command of the log is a write of client 1
      have hsome : (st.lastRequestId "1").isSome :=
        hreflects.recorded_iff.mpr ⟨0, by omega, by decide, by decide⟩
      simp [hnone] at hsome
  | _ => cases hwithout

end KvServer

end KVRaftStorage
