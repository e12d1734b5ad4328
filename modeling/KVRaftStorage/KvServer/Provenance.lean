import KVRaftStorage.KvServer.AppliedLog
import KVRaftStorage.KvServer.Clerks

/-!
# Where a server has its operations from

What is queued for the state, what runs in the apply loop and what waits in
`waitApplyCh` was handed out by Raft, and the request table of every state and
every image was filled by such operations and by executed `Get` requests.  No
order of delivery is needed for this.
-/

namespace KVRaftStorage

variable {n : ℕ} {ops ops' : Op → Prop} {asked asked' : String → ℤ → Prop}

namespace KvState

/-- The request table lists only numbers in `asked`. -/
def Lists (asked : String → ℤ → Prop) (st : KvState) : Prop :=
  ∀ c r, st.lastRequestId c = some r → asked c r

theorem Lists.empty : KvState.empty.Lists asked := by
  simp [Lists, KvState.empty]

theorem Lists.mono {st : KvState} (h : st.Lists asked)
    (hasked : ∀ c r, asked c r → asked' c r) : st.Lists asked' :=
  fun c r hr => hasked c r (h c r hr)

theorem Lists.of_update {st st' : KvState} (h : st.Lists asked) {c : String}
    {r : ℤ} (hr : asked c r)
    (heq : st'.lastRequestId = Function.update st.lastRequestId c (some r)) :
    st'.Lists asked := by
  intro c' r' hr'
  rw [heq] at hr'
  by_cases hc : c' = c
  · subst hc
    rw [Function.update_self] at hr'
    rwa [← Option.some.inj hr']
  · rw [Function.update_of_ne hc] at hr'
    exact h c' r' hr'

theorem Lists.executeCommand {st : KvState} (h : st.Lists asked) (now : ℕ)
    {op : Op} (hop : Writes op → asked op.clientId op.requestId) :
    (st.executeCommand now op).Lists asked := by
  by_cases hwrites : Writes op
  · exact h.of_update (hop hwrites)
      (lastRequestId_executeCommand st now hwrites)
  · rwa [executeCommand_of_not_writes st now hwrites]

theorem Lists.executeGet {st : KvState} (h : st.Lists asked) (now : ℕ) {op : Op}
    (hop : asked op.clientId op.requestId) :
    (st.executeGetOpOnKVDB now op).1.Lists asked :=
  h.of_update hop (lastRequestId_executeGet st now op)

end KvState

def ApplyMsg.Backed (ops : Op → Prop) (asked : String → ℤ → Prop) :
    ApplyMsg KvState → Prop
  | .command op _ => ops op
  | .snapshot image _ _ => ∀ st, image = some st → st.Lists asked

def Loop.Backed (ops : Op → Prop) (asked : String → ℤ → Prop) : Loop → Prop
  | .idle => True
  | .checked _ op _ | .executed _ op | .sending _ op => ops op
  | .snapshotting _ op image => ops op ∧ image.Lists asked

namespace KvServer

/-- The operations on their way satisfy `ops`, and the states list only numbers
in `asked`. -/
structure Backed (ops : Op → Prop) (asked : String → ℤ → Prop)
    (s : KvServer n) : Prop where
  applyMsgs : ∀ m ∈ s.applyMsgs, ops m.2
  detached : ∀ m ∈ s.detached, m.Backed ops asked
  applyChan : ∀ m ∈ s.applyChan, m.Backed ops asked
  loop : s.loop.Backed ops asked
  queues : ∀ i, ∀ op ∈ (s.waitApplyCh i).getD [], ops op
  state : s.state.Lists asked
  disk : ∀ st, s.raft.persister.snapshot = some st → st.Lists asked

/-- What reaches the server in this step is of this kind too. -/
structure Supplies (ops : Op → Prop) (asked : String → ℤ → Prop)
    (s : KvServer n) (a : KvAction n) : Prop where
  handedOut : ∀ m ∈ s.handedOut a, ops m.2
  image : ∀ args, a = .installSnapshot args → ∀ st, args.data = some st →
    st.Lists asked
  gets : ∀ handler ∈ s.executedGet? a,
    asked handler.op.clientId handler.op.requestId

namespace Backed

variable {s s' : KvServer n} {a : KvAction n} {es : List KvEvent}

theorem boot {me : Fin n} {p : Persister n KvState} {clerks : String → Clerk}
    {rpcs : List Rpc} (h : ∀ st, p.snapshot = some st → st.Lists asked) :
    Backed ops asked (KvServer.boot me p clerks rpcs) where
  applyMsgs := by simp [KvServer.boot]
  detached := by simp [KvServer.boot]
  applyChan := by simp [KvServer.boot]
  loop := trivial
  queues := by simp [KvServer.boot]
  state := .empty
  disk := by
    simpa [KvServer.boot, Raft.persister_init] using h

theorem mono (h : s.Backed ops asked) (hops : ∀ op, ops op → ops' op)
    (hasked : ∀ c r, asked c r → asked' c r) : s.Backed ops' asked' := by
  have hmsg : ∀ m : ApplyMsg KvState, m.Backed ops asked →
      m.Backed ops' asked' := by
    intro m hm
    cases m with
    | command op i => exact hops op hm
    | snapshot image t i => exact fun st hst => (hm st hst).mono hasked
  refine ⟨fun m hm => hops _ (h.applyMsgs m hm),
    fun m hm => hmsg m (h.detached m hm), fun m hm => hmsg m (h.applyChan m hm),
    ?_, fun i op hop => hops op (h.queues i op hop), h.state.mono hasked,
    fun st hst => (h.disk st hst).mono hasked⟩
  have hloop := h.loop
  generalize s.loop = loop at hloop ⊢
  cases loop with
  | idle => trivial
  | checked | executed | sending => exact hops _ hloop
  | snapshotting => exact ⟨hops _ hloop.1, hloop.2.mono hasked⟩

/-- The queues hold what the loop has sent. -/
theorem queues_step (h : s.Backed ops asked) (hserves : s.Serves a s') :
    ∀ i, ∀ op ∈ (s'.waitApplyCh i).getD [], ops op := by
  cases hserves with
  | apart _ hqueues => exact hqueues ▸ h.queues
  | reboot => simp [reboot, KvServer.boot]
  | @notify i op hloop =>
      intro j op' hop'
      by_cases hj : j = i
      · subst hj
        simp only [Function.update_self] at hop'
        cases hqueue : s.waitApplyCh j with
        | none => simp [hqueue] at hop'
        | some queue =>
            rw [hqueue, Option.map_some, Option.getD_some,
              List.mem_append] at hop'
            rcases hop' with hold | hnew
            · exact h.queues j op' (by rwa [hqueue])
            · rw [List.mem_singleton.mp hnew]
              have := h.loop
              rwa [hloop] at this
      · simp only [Function.update_of_ne hj] at hop'
        exact h.queues j op' hop'
  | progress _ _ _ hqueues =>
      exact fun i op hop => h.queues i op (hqueues.nothingNew i op hop)
  | arrive | started | call | answered | answeredElsewhere => exact h.queues

theorem of_samePipeline (h : s.Backed ops asked) (hsame : s.SamePipeline s')
    (hqueues : ∀ i, ∀ op ∈ (s'.waitApplyCh i).getD [], ops op) :
    s'.Backed ops asked where
  applyMsgs := hsame.applyMsgs ▸ h.applyMsgs
  detached := hsame.detached ▸ h.detached
  applyChan := hsame.applyChan ▸ h.applyChan
  loop := hsame.loop ▸ h.loop
  queues := hqueues
  state := hsame.state ▸ h.state
  disk := hsame.raft.image ▸ h.disk

theorem readSnapShotToInstall (h : s.Backed ops asked) :
    s.readSnapShotToInstall.1.Backed ops asked := by
  unfold KvServer.readSnapShotToInstall
  split
  · exact { h with }
  · next image himage => exact { h with state := h.disk image himage }

theorem getCommandFromRaft (h : s.Backed ops asked) {op : Op} (hop : ops op)
    (i : ℕ) : (s.getCommandFromRaft op i).1.Backed ops asked := by
  unfold KvServer.getCommandFromRaft
  split
  · exact h
  · exact { h with loop := hop }

theorem getSnapShotFromRaft (h : s.Backed ops asked) {image : Option KvState}
    (himage : ∀ st, image = some st → st.Lists asked) (i : ℕ) :
    (s.getSnapShotFromRaft image i).1.Backed ops asked := by
  unfold KvServer.getSnapShotFromRaft
  split
  · exact { h with }
  · next st => exact { h with state := himage st rfl }

theorem step (h : s.Backed ops asked)
    (hwrites : ∀ op, ops op → KvState.Writes op →
      asked op.clientId op.requestId) (hsupplies : s.Supplies ops asked a)
    (hstep : s.step a = some (s', es)) : s'.Backed ops asked := by
  have hqueues := h.queues_step (step_serves hstep)
  have hdisk : ∀ p : Persister n KvState, s.raft.KeepsImage p →
      ∀ st, p.snapshot = some st → st.Lists asked :=
    fun p hp => hp.1 ▸ h.disk
  cases step_moves hstep with
  | quiet hsame => exact h.of_samePipeline hsame hqueues
  | reboot hp => exact boot (hdisk _ hp)
  | @getApplyLogs r msgs _ hmsgs =>
      have hr := (Raft.getApplyLogs_eq_ok hmsgs).1
      refine { h with
        applyMsgs := fun m hm => hsupplies.handedOut m ?_
        queues := hqueues
        disk := ?_ }
      · simpa [handedOut, hmsgs] using hm
      · rw [hr]
        exact h.disk
  | @pushCommand i op rest hmsgs =>
      have hmsg := h.applyMsgs
      rw [hmsgs] at hmsg
      exact { h with
        applyMsgs := fun m hm => hmsg m (List.mem_cons_of_mem _ hm)
        applyChan := List.forall_mem_append.mpr ⟨h.applyChan,
          List.forall_mem_singleton.mpr (hmsg _ List.mem_cons_self)⟩
        queues := hqueues }
  | @installSnapshot args r _ htakes =>
      have himage := hsupplies.image args rfl
      refine { h with
        detached := List.forall_mem_append.mpr ⟨h.detached,
          List.forall_mem_singleton.mpr himage⟩
        queues := hqueues
        disk := ?_ }
      rw [htakes.image]
      exact himage
  | @pushMsgToKvServer thread msg hmsg =>
      exact { h with
        detached := fun m hm => h.detached m (List.mem_of_mem_eraseIdx hm)
        applyChan := List.forall_mem_append.mpr ⟨h.applyChan,
          List.forall_mem_singleton.mpr
            (h.detached msg (List.mem_of_getElem? hmsg))⟩
        queues := hqueues }
  | readSnapShotToInstall => exact h.readSnapShotToInstall
  | @popCommand op i rest _ _ hchan =>
      have hmsg := h.applyChan
      rw [hchan] at hmsg
      have hrest : Backed ops asked { s with applyChan := rest } :=
        { h with applyChan := fun m hm => hmsg m (List.mem_cons_of_mem _ hm) }
      exact hrest.getCommandFromRaft (hmsg _ List.mem_cons_self) i
  | @popSnapshot image t i rest _ _ hchan =>
      have hmsg := h.applyChan
      rw [hchan] at hmsg
      have hrest : Backed ops asked { s with applyChan := rest } :=
        { h with applyChan := fun m hm => hmsg m (List.mem_cons_of_mem _ hm) }
      exact hrest.getSnapShotFromRaft (hmsg _ List.mem_cons_self) i
  | @execute now i op duplicate hloop =>
      have hop := h.loop
      rw [hloop] at hop
      refine { h with loop := hop, queues := hqueues, state := ?_ }
      change (if duplicate then s.state
        else s.state.executeCommand now op).Lists asked
      split
      · exact h.state
      · exact h.state.executeCommand now (hwrites op hop)
  | makeSnapShot hloop =>
      have hop := h.loop
      rw [hloop] at hop
      exact { h with loop := ⟨hop, h.state⟩, queues := hqueues }
  | skipSnapshot hloop =>
      have hop := h.loop
      rw [hloop] at hop
      exact { h with loop := hop, queues := hqueues }
  | snapshotRefused hloop =>
      have hop := h.loop
      rw [hloop] at hop
      exact { h with loop := hop.1, queues := hqueues }
  | snapshotTaken hloop htakes =>
      have hop := h.loop
      rw [hloop] at hop
      refine { h with loop := hop.1, queues := hqueues, disk := ?_ }
      rw [htakes.image]
      exact fun st hst => Option.some.inj hst ▸ hop.2
  | @snapshotExit i op image p hloop hp =>
      have hop := h.loop
      rw [hloop] at hop
      refine boot ?_
      rcases hp with rfl | ⟨himage, -⟩
      · exact h.disk
      · rw [himage]
        exact fun st hst => Option.some.inj hst ▸ hop.2
  | sendMessageToWaitChan => exact { h with loop := trivial, queues := hqueues }
  | readOnlyGet _ hsame => exact h.of_samePipeline hsame hqueues
  | @executeGet i now index handler _ hgranted hsame =>
      refine of_samePipeline (s := { s with
        state := (s.state.executeGetOpOnKVDB now handler.op).1 })
        { h with state := h.state.executeGet now (hsupplies.gets handler ?_) }
        hsame hqueues
      simp [executedGet?, hgranted]

end Backed

end KvServer

end KVRaftStorage
