import KVRaftStorage.KvServer.Server
import KVRaftStorage.Raft.Frames

/-!
# What a handler leaves to the apply pipeline

Every input of the Raft node that is not a snapshot leaves the server's view of
it, and a process that exits in one of these handlers leaves its files.
-/

namespace KVRaftStorage

variable {n : ℕ} {Image : Type}

namespace Raft

theorem exec_map_eq_ok {α β : Type} {f : α → β} {x : Exec n Image α} {b : β} :
    f <$> x = .ok b ↔ ∃ a, x = .ok a ∧ f a = b := by
  cases x with
  | error p => simp [Functor.map, Except.map]
  | ok a => simp [Functor.map, Except.map]

theorem exec_map_eq_error {α β : Type} {f : α → β} {x : Exec n Image α}
    {p : Persister n Image} : f <$> x = .error p ↔ x = .error p := by
  cases x with
  | error q => simp [Functor.map, Except.map]
  | ok a => simp [Functor.map, Except.map]

theorem receive_eq_ok {r r' : Raft n KvState} {input : RaftInput n}
    (h : r.receive input = .ok r') : r.KeepsSnapshot r' := by
  cases input with
  | doElection =>
      obtain rfl := Except.ok.inj h
      exact r.keepsSnapshot_doElection
  | requestVote args =>
      obtain ⟨⟨r₁, reply⟩, hcall, rfl⟩ := exec_map_eq_ok.mp h
      exact keepsSnapshot_requestVote hcall
  | sendRequestVote votedNum reply =>
      obtain ⟨⟨r₁, k⟩, hcall, rfl⟩ := exec_map_eq_ok.mp h
      exact keepsSnapshot_sendRequestVote hcall
  | appendEntries1 args =>
      obtain ⟨⟨r₁, reply⟩, hcall, rfl⟩ := exec_map_eq_ok.mp h
      exact keepsSnapshot_appendEntries1 hcall
  | sendAppendEntries server args reply k =>
      obtain ⟨⟨r₁, k'⟩, hcall, rfl⟩ := exec_map_eq_ok.mp h
      exact keepsSnapshot_sendAppendEntries hcall
  | snapShotSent server args reply =>
      obtain rfl := Except.ok.inj h
      exact r.keepsSnapshot_snapShotSent server args reply

/-- A process that exits in one of these handlers leaves its files. -/
theorem receive_eq_error {r : Raft n KvState} {input : RaftInput n}
    {p : Persister n KvState} (h : r.receive input = .error p) :
    p = r.persister := by
  cases input with
  | doElection => cases h
  | requestVote args =>
      exact absurd (exec_map_eq_error.mp h) requestVote_ne_error
  | sendRequestVote votedNum reply =>
      exact sendRequestVote_eq_error (exec_map_eq_error.mp h)
  | appendEntries1 args =>
      exact appendEntries1_eq_error (exec_map_eq_error.mp h)
  | sendAppendEntries server args reply k =>
      exact sendAppendEntries_eq_error (exec_map_eq_error.mp h)
  | snapShotSent server args reply => cases h

end Raft

end KVRaftStorage
