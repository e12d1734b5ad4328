import KVRaftStorage.Raft.Node
import KVRaftStorage.Support.Streams

/-!
# The files of the persister

`Persister` keeps the Raft state and the snapshot in two files, which it empties
and rewrites in place.  Between the two effects a crash loses what was stored.
A call that comes to its end stores what the model of the node says it stores.
-/

namespace KVRaftStorage

open Streams

inductive PersisterFile where
  | raftState
  | snapshot
deriving DecidableEq

namespace PersisterFiles

variable {B : Type}

/-! ## The calls -/

def clearRaftState : List (Effect PersisterFile B) :=
  [.close .raftState, .truncate .raftState]

def clearSnapshot : List (Effect PersisterFile B) :=
  [.close .snapshot, .truncate .snapshot]

def clearRaftStateAndSnapshot : List (Effect PersisterFile B) :=
  clearRaftState ++ clearSnapshot

/-- `Save`. -/
def save (raftstate snapshot : List B) : List (Effect PersisterFile B) :=
  clearRaftStateAndSnapshot ++
    [.write .raftState raftstate, .write .snapshot snapshot,
      .flush .raftState, .flush .snapshot]

/-- `SaveRaftState`. -/
def saveRaftState (data : List B) : List (Effect PersisterFile B) :=
  clearRaftState ++ [.write .raftState data, .flush .raftState]

/-- What `ReadRaftState` and `ReadSnapshot` return. -/
def contents (s : State PersisterFile B) : List B × List B :=
  (s.files .raftState, s.files .snapshot)

/-- Between two calls. -/
def stored (raftstate snapshot : List B) : State PersisterFile B :=
  .idle fun
    | .raftState => raftstate
    | .snapshot => snapshot

/-! ## Where a call is cut off -/

section Crashes

variable {raftstate snapshot raftstate' snapshot' : List B}
  {s : State PersisterFile B}

/-- Closing a stream with an empty buffer does nothing. -/
theorem interrupts_close {f : PersisterFile}
    {es : List (Effect PersisterFile B)} :
    (stored raftstate snapshot).Interrupts (.close f :: es) s ↔
      (stored raftstate snapshot).Interrupts es s := by
  rw [stored, State.interrupts_cons_idle, State.perform_close_idle]
  constructor
  · rintro (rfl | h)
    · exact .here
    · exact h
  · exact .inr

theorem interrupts_truncate_raftState {es : List (Effect PersisterFile B)} :
    (stored raftstate snapshot).Interrupts (.truncate .raftState :: es) s ↔
      s = stored raftstate snapshot ∨ (stored [] snapshot).Interrupts es s := by
  have hcleared : (stored raftstate snapshot).perform (.truncate .raftState) =
      stored [] snapshot := by
    rw [stored, State.perform_truncate_idle, stored]
    congr 1
    funext f
    cases f <;> simp
  rw [← hcleared]
  exact State.interrupts_cons_idle

theorem interrupts_truncate_snapshot {es : List (Effect PersisterFile B)} :
    (stored raftstate snapshot).Interrupts (.truncate .snapshot :: es) s ↔
      s = stored raftstate snapshot ∨ (stored raftstate []).Interrupts es s := by
  have hcleared : (stored raftstate snapshot).perform (.truncate .snapshot) =
      stored raftstate [] := by
    rw [stored, State.perform_truncate_idle, stored]
    congr 1
    funext f
    cases f <;> simp
  rw [← hcleared]
  exact State.interrupts_cons_idle

/-- On its way `SaveRaftState` leaves the old state or a first part of the new
one. -/
theorem saveRaftState_crashes {pair : List B × List B} :
    (∃ s, (stored raftstate snapshot).Interrupts (saveRaftState raftstate') s ∧
        contents s = pair) ↔
      pair = (raftstate, snapshot) ∨
        ∃ i, pair = (raftstate'.take i, snapshot) := by
  simp only [saveRaftState, clearRaftState, List.cons_append, List.nil_append,
    interrupts_close, interrupts_truncate_raftState]
  constructor
  · rintro ⟨s, rfl | h, rfl⟩
    · exact .inl rfl
    · right
      have happends : ∀ e ∈ [Effect.write PersisterFile.raftState raftstate',
          .flush .raftState], e.Appends := by simp [Effect.Appends]
      have hstate := h.files_isPrefix happends .raftState
      have hsnapshot := h.files_isPrefix happends .snapshot
      have hkept := h.isPrefix_files happends .snapshot
      simp only [State.final, stored, State.idle, Effect.written,
        List.flatMap_cons, List.flatMap_nil, if_true, reduceCtorEq, if_false,
        List.append_nil, List.nil_append] at hstate hsnapshot hkept
      rw [contents, hsnapshot.eq_of_length (Nat.le_antisymm hsnapshot.length_le
        hkept.length_le), List.prefix_iff_eq_take.mp hstate]
      exact ⟨_, rfl⟩
  · rintro (rfl | ⟨i, rfl⟩)
    · exact ⟨_, .inl rfl, rfl⟩
    · refine ⟨_, .inr (.perform (.internal ⟨.raftState, i, rfl⟩ .here)), ?_⟩
      simp [contents, State.drain, State.perform, stored, State.idle]

/-- On its way `Save` leaves the old pair, the old snapshot without a state, or
first parts of the new pair. -/
theorem save_crashes {pair : List B × List B} :
    (∃ s, (stored raftstate snapshot).Interrupts (save raftstate' snapshot') s ∧
        contents s = pair) ↔
      pair = (raftstate, snapshot) ∨ pair = ([], snapshot) ∨
        ∃ i j, pair = (raftstate'.take i, snapshot'.take j) := by
  simp only [save, clearRaftStateAndSnapshot, clearRaftState, clearSnapshot,
    List.cons_append, List.nil_append, interrupts_close,
    interrupts_truncate_raftState, interrupts_truncate_snapshot]
  constructor
  · rintro ⟨s, rfl | rfl | h, rfl⟩
    · exact .inl rfl
    · exact .inr (.inl rfl)
    · right
      right
      have happends : ∀ e ∈ [Effect.write PersisterFile.raftState raftstate',
          .write .snapshot snapshot', .flush .raftState, .flush .snapshot],
          e.Appends := by simp [Effect.Appends]
      have hstate := h.files_isPrefix happends .raftState
      have hsnapshot := h.files_isPrefix happends .snapshot
      simp only [State.final, stored, State.idle, Effect.written,
        List.flatMap_cons, List.flatMap_nil, if_true, reduceCtorEq, if_false,
        List.append_nil, List.nil_append] at hstate hsnapshot
      rw [contents, List.prefix_iff_eq_take.mp hstate,
        List.prefix_iff_eq_take.mp hsnapshot]
      exact ⟨_, _, rfl⟩
  · rintro (rfl | rfl | ⟨i, j, rfl⟩)
    · exact ⟨_, .inl rfl, rfl⟩
    · exact ⟨_, .inr (.inl rfl), rfl⟩
    · refine ⟨_, .inr (.inr (.perform (.perform
        (.internal ⟨.raftState, i, rfl⟩
          (.internal ⟨.snapshot, j, rfl⟩ .here))))), ?_⟩
      simp [contents, State.drain, State.perform, stored, State.idle]

end Crashes

/-! ## Atomicity -/

/-- Wherever the call is cut off, the pair that is read afterwards is the one
before it or the one it was to store. -/
def CrashAtomic (call : List (Effect PersisterFile B))
    (before after : List B × List B) : Prop :=
  ∀ s, (stored before.1 before.2).Interrupts call s →
    contents s = before ∨ contents s = after

theorem crashAtomic_iff_of_crashes {call : List (Effect PersisterFile B)}
    {before after : List B × List B} {P : List B × List B → Prop}
    (h : ∀ pair, (∃ s, (stored before.1 before.2).Interrupts call s ∧
      contents s = pair) ↔ P pair) :
    CrashAtomic call before after ↔
      ∀ pair, P pair → pair = before ∨ pair = after := by
  constructor
  · intro hatomic pair hpair
    obtain ⟨s, hs, rfl⟩ := (h pair).mpr hpair
    exact hatomic s hs
  · intro hall s hs
    exact hall _ ((h _).mp ⟨s, hs, rfl⟩)

/-- Every first part of a list of at most one element is empty or all of it. -/
theorem take_of_length_le_one {l : List B} (h : l.length ≤ 1) (i : ℕ) :
    l.take i = [] ∨ l.take i = l := by
  cases i with
  | zero => exact .inl rfl
  | succ i => exact .inr (List.take_of_length_le (by omega))

theorem length_le_one_of_take {l : List B}
    (h : l.take 1 = [] ∨ l.take 1 = l) : l.length ≤ 1 := by
  rcases h with h | h
  · rcases List.take_eq_nil_iff.mp h with h | rfl
    · cases h
    · simp
  · rw [← h, List.length_take]
    exact Nat.min_le_left _ _

theorem save_crashAtomic_iff (raftstate snapshot raftstate' snapshot' : List B) :
    CrashAtomic (save raftstate' snapshot') (raftstate, snapshot)
        (raftstate', snapshot') ↔
      (raftstate = [] ∧ snapshot = [] ∧
          raftstate'.length + snapshot'.length ≤ 1) ∨
        (raftstate' = [] ∧ snapshot' = [] ∧
          (raftstate = [] ∨ snapshot = [])) := by
  rw [crashAtomic_iff_of_crashes fun _ => save_crashes]
  constructor
  · intro h
    have hcleared := h ([], snapshot) (.inr (.inl rfl))
    have hempty := h ([], []) (.inr (.inr ⟨0, 0, rfl⟩))
    have hparts := fun i j => h (raftstate'.take i, snapshot'.take j)
      (.inr (.inr ⟨i, j, rfl⟩))
    simp only [Prod.mk.injEq] at hcleared hempty hparts
    rcases hempty with ⟨rfl, rfl⟩ | ⟨rfl, rfl⟩
    · left
      refine ⟨rfl, rfl, ?_⟩
      have hstate : raftstate'.length ≤ 1 := length_le_one_of_take
        ((hparts 1 snapshot'.length).imp And.left And.left)
      have hsnapshot : snapshot'.length ≤ 1 := length_le_one_of_take
        ((hparts raftstate'.length 1).imp And.right And.right)
      -- the state alone is written before the snapshot
      rcases hparts raftstate'.length 0 with ⟨hnil, -⟩ | ⟨-, hnil⟩
      · rw [List.take_length] at hnil
        simpa [hnil] using hsnapshot
      · rw [← hnil]
        simpa using hstate
    · right
      refine ⟨rfl, rfl, ?_⟩
      rcases hcleared with ⟨hnil, -⟩ | ⟨-, hnil⟩
      · exact .inl hnil.symm
      · exact .inr hnil
  · rintro (⟨rfl, rfl, hlen⟩ | ⟨rfl, rfl, hold⟩) pair
      (rfl | rfl | ⟨i, j, rfl⟩)
    · exact .inl rfl
    · exact .inl rfl
    · rcases List.eq_nil_or_concat raftstate' with rfl | ⟨l, b, rfl⟩
      · have hsnapshot : snapshot'.length ≤ 1 := by simpa using hlen
        rcases take_of_length_le_one hsnapshot j with h | h
        · exact .inl (by rw [h, List.take_nil])
        · exact .inr (by rw [h, List.take_nil])
      · obtain rfl : snapshot' = [] :=
          List.length_eq_zero_iff.mp (by simp at hlen; omega)
        have hstate : (l.concat b).length ≤ 1 := by simpa using hlen
        rcases take_of_length_le_one hstate i with h | h
        · exact .inl (by rw [h, List.take_nil])
        · exact .inr (by rw [h, List.take_nil])
    · exact .inl rfl
    · rcases hold with rfl | rfl
      · exact .inl rfl
      · exact .inr rfl
    · exact .inr (by simp)

theorem saveRaftState_crashAtomic_iff (raftstate snapshot raftstate' : List B) :
    CrashAtomic (saveRaftState raftstate') (raftstate, snapshot)
        (raftstate', snapshot) ↔
      raftstate' = [] ∨ (raftstate = [] ∧ raftstate'.length ≤ 1) := by
  rw [crashAtomic_iff_of_crashes fun _ => saveRaftState_crashes]
  constructor
  · intro h
    have hparts := fun i => h (raftstate'.take i, snapshot) (.inr ⟨i, rfl⟩)
    simp only [Prod.mk.injEq, and_true] at hparts
    rcases hparts 0 with hnil | hnil
    · obtain rfl : raftstate = [] := hnil.symm
      exact .inr ⟨rfl, length_le_one_of_take (hparts 1)⟩
    · exact .inl hnil.symm
  · rintro (rfl | ⟨rfl, hlen⟩) pair (rfl | ⟨i, rfl⟩)
    · exact .inl rfl
    · exact .inr (by simp)
    · exact .inl rfl
    · rcases take_of_length_le_one hlen i with h | h
      · exact .inl (by rw [h])
      · exact .inr (by rw [h])

/-- Exactly the calls that have almost nothing to store are atomic: `Save` if
both files are empty and at most one byte is written, or if both are to be
emptied and one of them is empty; `SaveRaftState` if the file is to be emptied,
or is empty and at most one byte is written. -/
theorem crash_atomic_iff (raftstate snapshot raftstate' snapshot' : List B) :
    (CrashAtomic (save raftstate' snapshot') (raftstate, snapshot)
        (raftstate', snapshot') ↔
      (raftstate = [] ∧ snapshot = [] ∧
          raftstate'.length + snapshot'.length ≤ 1) ∨
        (raftstate' = [] ∧ snapshot' = [] ∧
          (raftstate = [] ∨ snapshot = []))) ∧
    (CrashAtomic (saveRaftState raftstate') (raftstate, snapshot)
        (raftstate', snapshot) ↔
      raftstate' = [] ∨ (raftstate = [] ∧ raftstate'.length ≤ 1)) :=
  ⟨save_crashAtomic_iff _ _ _ _, saveRaftState_crashAtomic_iff _ _ _⟩

/-- Neither call replaces one byte by another. -/
theorem crash_forgets :
    ¬CrashAtomic (save [2] [4]) ([1], [3]) ([2], [4]) ∧
      ¬CrashAtomic (saveRaftState [2]) ([1], [3]) ([2], [3]) := by
  rw [save_crashAtomic_iff, saveRaftState_crashAtomic_iff]
  decide

/-! ## The persister of a node -/

section Node

variable {n : ℕ} {Image : Type} (encodeState : RaftState n → List B)
  (encodeImage : Image → List B)

/-- What the files hold, the archives being parameters. -/
def bytes (p : Persister n Image) : List B × List B :=
  (p.raftState.elim [] encodeState, p.snapshot.elim [] encodeImage)

/-- The files before the next call of the node. -/
abbrev storedBy (r : Raft n Image) : State PersisterFile B :=
  stored (bytes encodeState encodeImage r.persister).1
    (bytes encodeState encodeImage r.persister).2

/-- A call of `Save` that comes to its end. -/
theorem save_stores (r : Raft n Image) (snapshot : Option Image) :
    contents ((save (encodeState r.persistData)
        (snapshot.elim [] encodeImage)).foldl State.perform
        (storedBy encodeState encodeImage r)) =
      bytes encodeState encodeImage (r.save snapshot).persister := by
  simp [save, clearRaftStateAndSnapshot, clearRaftState, clearSnapshot,
    contents, storedBy, stored, State.idle, State.perform, State.drain, bytes,
    Raft.save]

/-- A call of `SaveRaftState` that comes to its end. -/
theorem saveRaftState_stores (r : Raft n Image) :
    contents ((saveRaftState (encodeState r.persistData)).foldl State.perform
        (storedBy encodeState encodeImage r)) =
      bytes encodeState encodeImage r.persist.persister := by
  simp [saveRaftState, clearRaftState, contents, storedBy, stored, State.idle,
    State.perform, State.drain, bytes, Raft.persist]

/-- Wherever it stands, a node that is cut off in `persist` may start again in
term 0 without a vote and without a log. -/
theorem persist_crash_forgets (r : Raft n Image) :
    ∃ s p, (storedBy encodeState encodeImage r).Interrupts
        (saveRaftState (encodeState r.persistData)) s ∧
      contents s = bytes encodeState encodeImage p ∧
      p.snapshot = r.persister.snapshot ∧
      (Raft.init r.me p).currentTerm = 0 ∧
      (Raft.init r.me p).votedFor = none ∧ (Raft.init r.me p).logs = [] := by
  obtain ⟨s, hs, hcontents⟩ := (@saveRaftState_crashes _
    (bytes encodeState encodeImage r.persister).1
    (bytes encodeState encodeImage r.persister).2
    (encodeState r.persistData) _).mpr (.inr ⟨0, rfl⟩)
  exact ⟨s, ⟨none, r.persister.snapshot⟩, hs, hcontents, rfl, rfl, rfl, rfl⟩

end Node

end PersisterFiles

end KVRaftStorage
