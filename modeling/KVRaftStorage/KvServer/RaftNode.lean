import KVRaftStorage.KvServer.Steps

/-!
# What a step does to the Raft node

Most threads of the server do not touch Raft.  The others run one of its
handlers, and the step leaves what the handler returns, or the node of a new
process if the handler has ended this one.
-/

namespace KVRaftStorage

variable {n : ℕ}

/-! ## Servers keep their number -/

namespace Raft

theorem receive_me {r r' : Raft n KvState} {input : RaftInput n}
    (h : r.receive input = .ok r') : r'.me = r.me := by
  cases input with
  | doElection =>
      obtain rfl := Except.ok.inj h
      unfold doElection
      split <;> rfl
  | requestVote args =>
      obtain ⟨⟨r₁, reply⟩, hcall, rfl⟩ := exec_map_eq_ok.mp h
      rcases requestVote_eq_ok hcall with ⟨-, hquiet, -⟩ | hgrants
      · exact hquiet.follows.me
      · exact hgrants.me
  | sendRequestVote votedNum reply =>
      obtain ⟨⟨r₁, k⟩, hcall, rfl⟩ := exec_map_eq_ok.mp h
      rcases sendRequestVote_eq_ok hcall with
        ⟨hquiet, -⟩ | ⟨-, rfl, -⟩ | ⟨hwins, -⟩
      · exact hquiet.follows.me
      · rfl
      · rw [hwins.eq]
        rfl
  | appendEntries1 args =>
      obtain ⟨⟨r₁, reply⟩, hcall, rfl⟩ := exec_map_eq_ok.mp h
      rcases appendEntries1_eq_ok hcall with ⟨-, hquiet, -⟩ | haccepts
      · exact hquiet.follows.me
      · exact haccepts.follows.me
  | sendAppendEntries server args reply k =>
      obtain ⟨⟨r₁, k'⟩, hcall, rfl⟩ := exec_map_eq_ok.mp h
      rcases sendAppendEntries_eq_ok hcall with ⟨hquiet, -⟩ | htallies
      · exact hquiet.follows.me
      · exact htallies.me
  | snapShotSent server args reply =>
      obtain rfl := Except.ok.inj h
      exact (snapShotSent_effect ..).1.follows.me

theorem installSnapshot_me {r r' : Raft n KvState}
    {args : InstallSnapshotRequest n KvState} {reply : InstallSnapshotResponse}
    {msg : Option (ApplyMsg KvState)}
    (h : r.installSnapshot args = .ok (r', reply, msg)) : r'.me = r.me := by
  rcases installSnapshot_eq_ok h with ⟨hquiet, -⟩ | hinstalls
  · exact hquiet.follows.me
  · exact hinstalls.follows.me

theorem snapshot_me {r r' : Raft n KvState} {index : ℕ}
    {image : Option KvState} (h : r.snapshot index image = .ok r') :
    r'.me = r.me := by
  rcases snapshot_eq_ok h with rfl | hcompacts
  · rfl
  · exact hcompacts.follows.me

theorem start_me (r : Raft n KvState) (command : Op) :
    (r.start command).1.me = r.me := by
  rcases r.start_effect command with h | ⟨-, h⟩ <;> rw [h]
  rfl

end Raft

namespace KvServer

variable {s s' : KvServer n} {a : KvAction n} {es : List KvEvent}

/-- A handler of Raft returned or ended the process. -/
def outcome (s : KvServer n) {α : Type} (f : α → Raft n KvState) :
    Exec n KvState α → Raft n KvState
  | .ok x => f x
  | .error p => Raft.init s.raft.me p

/-- The Raft node after a step. -/
def raftAfter (s : KvServer n) : KvAction n → Raft n KvState
  | .receive input => s.outcome id (s.raft.receive input)
  | .getApplyLogs => s.outcome Prod.fst s.raft.getApplyLogs
  | .installSnapshot args => s.outcome Prod.fst (s.raft.installSnapshot args)
  | .installSnapshotCrash args =>
      Raft.init s.raft.me (s.raft.installTerm args.term).persister
  | .snapshot =>
      match s.loop with
      | .snapshotting i _ image =>
          s.outcome id (s.raft.snapshot i (some image))
      | _ => s.raft
  | .start h =>
      match s.handlers[h]? with
      | some handler => (s.raft.start handler.op).1
      | none => s.raft
  | .restart => Raft.init s.raft.me s.raft.persister
  | _ => s.raft

theorem raft_of_some {x : KvServer n × List KvEvent} {r : Raft n KvState}
    (h : some x = some (s', es)) (hx : x.1.raft = r) : s'.raft = r := by
  rw [Option.some.inj h] at hx
  exact hx

theorem advance_raft {h : ℕ} {f : Handler → Option Phase}
    (hadvance : s.advance h f = some (s', es)) : s'.raft = s.raft := by
  simp only [advance, Option.bind_eq_bind, Option.bind_eq_some_iff] at hadvance
  obtain ⟨handler, -, phase, -, heq⟩ := hadvance
  exact raft_of_some heq rfl

theorem pop_raft (h : s.pop = some (s', es)) : s'.raft = s.raft := by
  have hcommand : ∀ (s : KvServer n) op i,
      (s.getCommandFromRaft op i).1.raft = s.raft := by
    intro s op i
    unfold getCommandFromRaft
    split <;> rfl
  have hsnapshot : ∀ (s : KvServer n) image i,
      (s.getSnapShotFromRaft image i).1.raft = s.raft := by
    intro s image i
    unfold getSnapShotFromRaft
    split <;> rfl
  unfold pop at h
  split at h
  · exact (congrArg (KvServer.raft ∘ Prod.fst) (Option.some.inj h)).symm.trans
      (hcommand _ _ _)
  · exact (congrArg (KvServer.raft ∘ Prod.fst) (Option.some.inj h)).symm.trans
      (hsnapshot _ _ _)
  · cases h

theorem startOp_raft {h : ℕ} (hstart : s.startOp h = some (s', es)) :
    s'.raft = s.raftAfter (.start h) := by
  simp only [startOp, Option.bind_eq_bind, Option.bind_eq_some_iff] at hstart
  obtain ⟨handler, hget, hstart⟩ := hstart
  simp only [raftAfter, hget]
  split at hstart
  · split at hstart
    · next r heq =>
        rw [heq]
        exact raft_of_some hstart rfl
    · next r i t heq =>
        rw [heq]
        exact raft_of_some hstart rfl
  · cases hstart

theorem snapshot_raft (h : s.snapshot = some (s', es)) :
    s'.raft = s.raftAfter .snapshot := by
  unfold snapshot at h
  split at h
  · next i op image hloop =>
      simp only [raftAfter, hloop]
      split at h
      · next p hexit =>
          rw [hexit]
          exact raft_of_some h rfl
      · next r hok =>
          rw [hok]
          exact raft_of_some h rfl
  · cases h

theorem step_raft (h : s.step a = some (s', es)) : s'.raft = s.raftAfter a := by
  cases a with
  | receive input =>
      simp only [step, receive] at h
      simp only [raftAfter]
      split at h
      · next p herror =>
          rw [herror]
          exact raft_of_some h rfl
      · next r hok =>
          rw [hok]
          exact raft_of_some h rfl
  | getApplyLogs =>
      simp only [step, getApplyLogs, Option.ite_none_right_eq_some] at h
      simp only [raftAfter]
      obtain ⟨-, h⟩ := h
      split at h
      · next p herror =>
          rw [herror]
          exact raft_of_some h rfl
      · next r msgs hok =>
          rw [hok]
          exact raft_of_some h rfl
  | installSnapshot args =>
      simp only [step, installSnapshot] at h
      simp only [raftAfter]
      split at h
      · next p herror =>
          rw [herror]
          exact raft_of_some h rfl
      · next r reply msg hok =>
          rw [hok]
          exact raft_of_some h rfl
  | installSnapshotCrash args =>
      simp only [step, Option.ite_none_left_eq_some] at h
      exact raft_of_some h.2 rfl
  | pop => exact pop_raft h
  | start i => exact startOp_raft h
  | snapshot => exact snapshot_raft h
  | readIndex i => exact advance_raft h
  | readIndexReturn i => exact advance_raft h
  | waitForApplied i => exact advance_raft h
  | timeOut i => exact advance_raft h
  | checkDuplicate i => exact advance_raft h
  | restart =>
      exact raft_of_some h rfl
  | pushMsgToKvServer thread =>
      simp only [step, Option.bind_eq_bind, Option.bind_eq_some_iff] at h
      obtain ⟨msg, -, h⟩ := h
      exact raft_of_some h rfl
  | arrive rpc now =>
      simp only [step, Option.bind_eq_bind, Option.bind_eq_some_iff] at h
      obtain ⟨rpc, -, h⟩ := h
      exact raft_of_some h rfl
  | answeredElsewhere clientId =>
      exact raft_of_some h rfl
  | readOnlyGet i now =>
      simp only [step, readOnlyGet, Option.bind_eq_bind,
        Option.bind_eq_some_iff] at h
      obtain ⟨⟨r, handler⟩, -, h⟩ := h
      exact raft_of_some h rfl
  | executeGet i now =>
      simp only [step, executeGet, Option.bind_eq_bind,
        Option.bind_eq_some_iff] at h
      obtain ⟨⟨index, handler⟩, -, h⟩ := h
      exact raft_of_some h rfl
  | registerWait i =>
      simp only [step, registerWait, Option.bind_eq_bind,
        Option.bind_eq_some_iff] at h
      obtain ⟨handler, -, h⟩ := h
      split at h
      · exact raft_of_some h rfl
      · cases h
  | timeOutPop i =>
      simp only [step, timeOutPop, Option.bind_eq_bind,
        Option.bind_eq_some_iff] at h
      obtain ⟨handler, -, h⟩ := h
      split at h
      · split at h
        · exact raft_of_some h rfl
        · cases h
      · cases h
  | eraseWait i =>
      simp only [step, eraseWait, Option.bind_eq_bind,
        Option.bind_eq_some_iff] at h
      obtain ⟨handler, -, h⟩ := h
      split at h
      · exact raft_of_some h rfl
      · cases h
  | answered clientId i =>
      simp only [step, answered, Option.bind_eq_bind,
        Option.bind_eq_some_iff] at h
      obtain ⟨handler, -, h⟩ := h
      split at h
      · simp only [Option.ite_none_right_eq_some] at h
        exact raft_of_some h.2 rfl
      · cases h
  | pushCommand =>
      simp only [step] at h
      split at h
      · cases h
      · exact raft_of_some h rfl
  | readSnapShotToInstall =>
      simp only [step, readSnapShotToInstall] at h
      split at h
      · cases h
      · split at h
        all_goals
          exact raft_of_some h rfl
  | execute now =>
      simp only [step, execute] at h
      split at h
      · exact raft_of_some h rfl
      · cases h
  | makeSnapShot =>
      simp only [step, makeSnapShot] at h
      split at h
      · exact raft_of_some h rfl
      · cases h
  | skipSnapshot =>
      simp only [step, skipSnapshot] at h
      split at h
      · exact raft_of_some h rfl
      · cases h
  | sendMessageToWaitChan =>
      simp only [step, sendMessageToWaitChan] at h
      split at h
      · exact raft_of_some h rfl
      · cases h
  | call clientId request =>
      simp only [step, call] at h
      split at h
      · cases h
      · exact raft_of_some h rfl

theorem outcome_me {α : Type} {f : α → Raft n KvState} {x : Exec n KvState α}
    (h : ∀ y, x = .ok y → (f y).me = s.raft.me) :
    (s.outcome f x).me = s.raft.me := by
  cases x with
  | ok y => exact h y rfl
  | error p => exact Raft.me_init _ _

theorem raftAfter_me (s : KvServer n) (a : KvAction n) :
    (s.raftAfter a).me = s.raft.me := by
  cases a with
  | receive input => exact outcome_me fun r => Raft.receive_me
  | getApplyLogs =>
      exact outcome_me fun m hm => (Raft.getApplyLogs_quiet hm).1.me
  | installSnapshot args =>
      exact outcome_me fun m hm => Raft.installSnapshot_me hm
  | installSnapshotCrash args => exact Raft.me_init _ _
  | snapshot =>
      simp only [raftAfter]
      split
      · exact outcome_me fun r => Raft.snapshot_me
      · rfl
  | start i =>
      simp only [raftAfter]
      split
      · exact Raft.start_me _ _
      · rfl
  | restart => exact Raft.me_init _ _
  | _ => rfl

theorem step_me (h : s.step a = some (s', es)) : s'.raft.me = s.raft.me :=
  step_raft h ▸ s.raftAfter_me a

end KvServer

end KVRaftStorage
