import KVRaftStorage.KvServer.Steps
import KVRaftStorage.Support.Delivery
import Mathlib.Logic.Relation

/-!
# The key-value state follows the log

A state reflects a log up to `k` when it is the result of its first `k`
commands.  Requests of clerks may run between the commands, and one may even
run between the duplicate check of a command and its execution.  The file
shows that the state of a server goes forward in this sense as long as
`applyChan` receives its messages in order, and gives a run in which it goes
back.
-/

namespace KVRaftStorage

/-! ## Reflecting a log -/

/-- `Get` requests of the log path are executed in between. -/
def Gets (gets : Op → Prop) : KvState → KvState → Prop :=
  Relation.ReflTransGen fun st st' =>
    ∃ now op, gets op ∧ st' = (st.executeGetOpOnKVDB now op).1

/-- What `GetCommandFromRaft` makes of `st` when it has checked `op` in
`checked`. -/
def KvState.applyChecked (checked st : KvState) (now : ℕ) (op : Op) : KvState :=
  if checked.ifRequestDuplicate op.clientId op.requestId then st
  else st.executeCommand now op

/-- The state is a result of commands `1 .. k` of the log `L`, with requests
from `gets` in between and with any readings of the clock. -/
inductive Reflects (L : ℕ → Op) (gets : Op → Prop) : ℕ → KvState → Prop where
  | empty : Reflects L gets 0 .empty
  | get {k : ℕ} {st : KvState} {op : Op} (h : Reflects L gets k st)
      (hop : gets op) (now : ℕ) :
      Reflects L gets k (st.executeGetOpOnKVDB now op).1
  | command {k : ℕ} {checked st : KvState} (h : Reflects L gets k checked)
      (hgets : Gets gets checked st) (now : ℕ) :
      Reflects L gets (k + 1) (checked.applyChecked st now (L (k + 1)))

variable {n : ℕ} {L : ℕ → Op} {gets : Op → Prop}

theorem Reflects.of_gets {k : ℕ} {st st' : KvState} (h : Reflects L gets k st)
    (hgets : Gets gets st st') : Reflects L gets k st' := by
  induction hgets with
  | refl => exact h
  | tail _ hstep ih =>
      obtain ⟨now, op, hop, rfl⟩ := hstep
      exact ih.get hop now

/-- What an event says about the log position `k`. -/
def KvEvent.Shows (L : ℕ → Op) (gets : Op → Prop) (k : ℕ) : KvEvent → Prop
  | .processed st => Reflects L gets k st
  | .restored st => Reflects L gets k st
  | .snapshotted i image => i = k ∧ Reflects L gets k image
  | .applied .. => True
  | .readServed .. => True
  | .restarted => False

/-- The states a server shows reflect growing prefixes of the log, from the
start and from every restart on.  The last prefix shown has length `k`. -/
inductive Advances (L : ℕ → Op) (gets : Op → Prop) :
    List KvEvent → ℕ → Prop where
  | start : Advances L gets [] 0
  | restart {es : List KvEvent} {k : ℕ} (h : Advances L gets es k) :
      Advances L gets (es ++ [.restarted]) 0
  | shows {es : List KvEvent} {e : KvEvent} {k k' : ℕ}
      (h : Advances L gets es k) (hle : k ≤ k') (he : e.Shows L gets k') :
      Advances L gets (es ++ [e]) k'

/-! ## The messages on their way -/

namespace ApplyMsg

def index : ApplyMsg KvState → ℕ
  | .command _ i => i
  | .snapshot _ _ i => i

def toMessage : ApplyMsg KvState → Delivery.Message
  | .command _ i => .command i
  | .snapshot _ _ i => .reset i

/-- A snapshot whose image reflects the log up to its index. -/
def IsImage (L : ℕ → Op) (gets : Op → Prop) : ApplyMsg KvState → Prop
  | .command _ _ => False
  | .snapshot image _ i => ∃ st, image = some st ∧ Reflects L gets i st

/-- A command of the log or such a snapshot. -/
def FromLog (L : ℕ → Op) (gets : Op → Prop) : ApplyMsg KvState → Prop
  | .command op i => op = L i
  | .snapshot image _ i => ∃ st, image = some st ∧ Reflects L gets i st

theorem IsImage.fromLog {m : ApplyMsg KvState} (h : m.IsImage L gets) :
    m.FromLog L gets := by
  cases m with
  | command => exact h.elim
  | snapshot => exact h

theorem IsImage.toMessage {m : ApplyMsg KvState} (h : m.IsImage L gets) :
    m.toMessage = .reset m.index := by
  cases m with
  | command => exact h.elim
  | snapshot => rfl

end ApplyMsg

/-- The leader sends an image of the log up to the index it names. -/
def CarriesImage (L : ℕ → Op) (gets : Op → Prop)
    (args : InstallSnapshotRequest n KvState) : Prop :=
  ∃ st, args.data = some st ∧
    Reflects L gets args.lastSnapShotIncludeIndex st

namespace KvServer

/-- The commands that the action takes out of the log. -/
def handedOut (s : KvServer n) : KvAction n → List (ℕ × Op)
  | .getApplyLogs =>
      match s.raft.getApplyLogs with
      | .ok (_, msgs) => msgs
      | .error _ => []
  | _ => []

/-- The `Get` that the action executes. -/
def executedGet? (s : KvServer n) : KvAction n → Option Handler
  | .executeGet h _ => (s.granted? h).map Prod.snd
  | _ => none

/-- Raft hands out the entries of the log. -/
def HandsOutLog (L : ℕ → Op) (s : KvServer n) (a : KvAction n) : Prop :=
  ∀ m ∈ s.handedOut a, m.2 = L m.1

instance (s : KvServer n) (a : KvAction n) : Decidable (s.HandsOutLog L a) :=
  inferInstanceAs (Decidable (∀ m ∈ s.handedOut a, _))

/-- The handlers execute only requests from `gets`. -/
def ExecutesGets (gets : Op → Prop) (s : KvServer n) (a : KvAction n) : Prop :=
  ∀ handler ∈ s.executedGet? a, gets handler.op

instance [DecidablePred gets] (s : KvServer n) (a : KvAction n) :
    Decidable (s.ExecutesGets gets a) :=
  inferInstanceAs (Decidable (∀ handler ∈ s.executedGet? a, _))

/-! ## Delivery in order -/

/-- The snapshot that `InstallSnapshot` takes over in this step. -/
def installed? (s : KvServer n) :
    KvAction n → Option (InstallSnapshotRequest n KvState)
  | .installSnapshot args =>
      if s.raft.currentTerm ≤ args.term ∧
          s.raft.lastSnapshotIncludeIndex < args.lastSnapShotIncludeIndex then
        some args
      else none
  | _ => none

/-- The first command that waits to be pushed, when the action pushes it. -/
def pushed? (s : KvServer n) : KvAction n → Option (ℕ × Op)
  | .pushCommand => s.applyMsgs.head?
  | _ => none

/-- The thread that runs when the action pushes a snapshot. -/
def pushedThread? : KvAction n → Option ℕ
  | .pushMsgToKvServer thread => some thread
  | _ => none

/-- Nothing was handed out since the process started. -/
def NothingInFlight (s : KvServer n) : Prop :=
  s.applyMsgs.isEmpty = true ∧ s.detached.isEmpty = true ∧
    s.applyChan.isEmpty = true

instance (s : KvServer n) : Decidable s.NothingInFlight :=
  inferInstanceAs (Decidable (_ ∧ _))

/-- No command behind the index `i` has reached `applyChan`: the first one
that waits is at most `i + 1`, and without one `lastApplied` is at most `i`. -/
def NotPushedBehind (s : KvServer n) (i : ℕ) : Prop :=
  (s.applyMsgs.isEmpty = true → s.raft.lastApplied ≤ i) ∧
    ∀ m ∈ s.applyMsgs.head?, m.1 ≤ i + 1

instance (s : KvServer n) (i : ℕ) : Decidable (s.NotPushedBehind i) :=
  inferInstanceAs (Decidable (_ ∧ _))

/-- The two producers keep the order of the log.  A command is pushed before
the waiting snapshots only if none of them is older.  The waiting snapshots
are pushed in the order they came.  A snapshot is installed only while no
command behind it was pushed, and not while the constructor has still to read
the stored image that the commands in flight build on. -/
def DeliversInOrder (s : KvServer n) (a : KvAction n) : Prop :=
  (∀ m ∈ s.pushed? a, ∀ d ∈ s.detached, m.1 ≤ d.index) ∧
    (∀ thread ∈ pushedThread? a, thread = 0) ∧
    ∀ args ∈ s.installed? a,
      (s.booted = true ∨ s.NothingInFlight) ∧
        s.NotPushedBehind args.lastSnapShotIncludeIndex

instance (s : KvServer n) (a : KvAction n) : Decidable (s.DeliversInOrder a) :=
  inferInstanceAs (Decidable (_ ∧ _ ∧ _))

/-! ## The invariant -/

/-- The state against the position of the consumer of `applyChan`. -/
def Stands (L : ℕ → Op) (gets : Op → Prop) (s : KvServer n) (p : ℕ) : Prop :=
  match s.loop with
  | .idle => Reflects L gets p s.state
  | .checked i op duplicate =>
      p = i ∧ op = L i ∧ s.lastSnapShotRaftLogIndex < i ∧
        ∃ k st, i = k + 1 ∧ Reflects L gets k st ∧
          duplicate = st.ifRequestDuplicate op.clientId op.requestId ∧
          Gets gets st s.state
  | .executed i _ => p = i ∧ Reflects L gets p s.state
  | .snapshotting i _ image =>
      p = i ∧ Reflects L gets p s.state ∧ Reflects L gets p image
  | .sending i _ => p = i ∧ Reflects L gets p s.state

/-- Before the stored image is read the loop does not run, and the consumer
will start from that image. -/
structure Booting (L : ℕ → Op) (gets : Op → Prop) (s : KvServer n) (p : ℕ) :
    Prop where
  position : p = s.raft.lastSnapshotIncludeIndex
  last : s.lastSnapShotRaftLogIndex = 0
  loop : s.loop = .idle
  state : Reflects L gets 0 s.state

/-- The memory and the disk agree on the boundary, and the image on disk
reflects the log up to there. -/
structure OnDisk (L : ℕ → Op) (gets : Op → Prop) (r : Raft n KvState) :
    Prop where
  boundary : r.persister.boundary = r.lastSnapshotIncludeIndex
  noImage : r.persister.snapshot = none → r.lastSnapshotIncludeIndex = 0
  image : ∀ st, r.persister.snapshot = some st →
    Reflects L gets r.lastSnapshotIncludeIndex st

/-- The consumer at `p` takes what is in `applyChan` forward, and every
delivery in order takes it forward to `lastApplied`. -/
structure Queued (s : KvServer n) (p : ℕ) : Prop where
  order : ∃ p' t, Delivery.Drains p s.lastSnapShotRaftLogIndex
      (s.applyChan.map ApplyMsg.toMessage) p' t ∧
    Delivery.Schedulable s.raft.lastApplied p' t
      (s.detached.map ApplyMsg.index) (s.applyMsgs.map Prod.fst) ∧
    t ≤ s.raft.lastSnapshotIncludeIndex
  detached : ∀ d ∈ s.detached.map ApplyMsg.index,
    d ≤ s.raft.lastSnapshotIncludeIndex
  consecutive : ∃ i m, s.applyMsgs.map Prod.fst = List.range' i m

structure Consistent (L : ℕ → Op) (gets : Op → Prop) (s : KvServer n)
    (p : ℕ) : Prop where
  last : s.lastSnapShotRaftLogIndex ≤ p
  commands : ∀ m ∈ s.applyMsgs, m.2 = L m.1
  detached : ∀ m ∈ s.detached, m.IsImage L gets
  channel : ∀ m ∈ s.applyChan, m.FromLog L gets
  disk : OnDisk L gets s.raft
  booted : s.booted = true → s.Stands L gets p
  booting : s.booted = false → s.Booting L gets p
  queued : s.Queued p

/-! ## The invariant is kept -/

variable {s s' : KvServer n} {p : ℕ}

theorem Consistent.of_samePipeline (h : Consistent L gets s p)
    (hsame : s.SamePipeline s') : Consistent L gets s' p := by
  obtain ⟨hraft, happly, hdetached, hchan, hstate, hlast, hloop, hbooted⟩ :=
    hsame
  refine ⟨hlast ▸ h.last, happly ▸ h.commands, hdetached ▸ h.detached, hchan ▸ h.channel,
    ⟨?_, ?_, ?_⟩, ?_, ?_, ⟨?_, ?_, happly ▸ h.queued.consecutive⟩⟩
  · rcases hraft.disk with hdisk | hdisk
    · rw [hdisk, hraft.boundary, h.disk.boundary]
    · exact hdisk
  · rw [hraft.image, hraft.boundary]
    exact h.disk.noImage
  · rw [hraft.image, hraft.boundary]
    exact h.disk.image
  · rw [hbooted, Stands, hloop, hstate, hlast]
    exact h.booted
  · rw [hbooted]
    intro hb
    obtain ⟨hposition, hlast', hloop', hstate'⟩ := h.booting hb
    exact ⟨hraft.boundary ▸ hposition, hlast.trans hlast', hloop.trans hloop',
      hstate ▸ hstate'⟩
  · rw [hlast, hchan, hraft.lastApplied, hdetached, happly, hraft.boundary]
    exact h.queued.order
  · rw [hdetached, hraft.boundary]
    exact h.queued.detached

/-- A new process starts from the image on disk. -/
theorem consistent_boot {me : Fin n} {q : Persister n KvState}
    {clerks : String → Clerk} {rpcs : List Rpc}
    (hnone : q.snapshot = none → q.boundary = 0)
    (himage : ∀ st, q.snapshot = some st → Reflects L gets q.boundary st) :
    Consistent L gets (boot me q clerks rpcs) q.boundary := by
  have hqueued : Queued (boot me q clerks rpcs) q.boundary := by
    refine ⟨⟨q.boundary, 0, .nil _ _, ?_, Nat.zero_le _⟩, by simp [boot],
      0, 0, rfl⟩
    change Delivery.Schedulable (Raft.init me q).lastApplied _ _ [] []
    rw [Raft.lastApplied_init]
    exact .idle (Nat.zero_le _)
  exact {
    last := Nat.zero_le _
    commands := by simp [boot]
    detached := by simp [boot]
    channel := by simp [boot]
    disk := by
      change OnDisk L gets (Raft.init me q)
      refine ⟨?_, ?_, ?_⟩ <;> rw [Raft.persister_init, Raft.boundary_init]
      · exact hnone
      · exact himage
    booted := by simp [boot]
    booting := fun _ =>
      ⟨(Raft.boundary_init me q).symm, rfl, rfl, .empty⟩
    queued := hqueued }

theorem Consistent.reboot (h : Consistent L gets s p)
    {q : Persister n KvState} (hq : s.raft.KeepsImage q) :
    Consistent L gets (s.reboot q) q.boundary := by
  obtain ⟨hsnapshot, hboundary⟩ := hq
  have hboundary : q.boundary = s.raft.lastSnapshotIncludeIndex := by
    rcases hboundary with heq | heq
    · rw [heq, h.disk.boundary]
    · exact heq
  refine consistent_boot ?_ ?_ <;> rw [hsnapshot, hboundary]
  · exact h.disk.noImage
  · exact h.disk.image

theorem Consistent.getApplyLogs (h : Consistent L gets s p)
    {r : Raft n KvState} {msgs : List (ℕ × Op)} (hempty : s.applyMsgs = [])
    (hmsgs : s.raft.getApplyLogs = .ok (r, msgs))
    (hlog : ∀ m ∈ msgs, m.2 = L m.1) :
    Consistent L gets { s with raft := r, applyMsgs := msgs } p := by
  have hr := (Raft.getApplyLogs_eq_ok hmsgs).1
  obtain ⟨k, happlied, hindices⟩ := Raft.getApplyLogs_indices hmsgs
  have hboundary : r.lastSnapshotIncludeIndex =
      s.raft.lastSnapshotIncludeIndex := by rw [hr]
  have hpersister : r.persister = s.raft.persister := by rw [hr]
  obtain ⟨p', t, hdrains, hschedulable, ht⟩ := h.queued.order
  rw [hempty, List.map_nil] at hschedulable
  exact {
    last := h.last
    commands := hlog
    detached := h.detached
    channel := h.channel
    disk := by
      refine ⟨?_, ?_, ?_⟩ <;> simp only [hpersister, hboundary]
      · exact h.disk.boundary
      · exact h.disk.noImage
      · exact h.disk.image
    booted := h.booted
    booting := fun hb =>
      have hbooting := h.booting hb
      ⟨hbooting.position.trans hboundary.symm, hbooting.last, hbooting.loop,
        hbooting.state⟩
    queued := by
      refine ⟨⟨p', t, hdrains, ?_, ht.trans hboundary.ge⟩, ?_,
        _, _, hindices⟩
      · simp only [happlied, hindices]
        exact hschedulable.hand_out k
      · rw [hboundary]
        exact h.queued.detached }

theorem Consistent.pushCommand (h : Consistent L gets s p) {i : ℕ} {op : Op}
    {rest : List (ℕ × Op)} (hmsgs : s.applyMsgs = (i, op) :: rest)
    (horder : ∀ d ∈ s.detached, i ≤ d.index) :
    Consistent L gets
      { s with
        applyMsgs := rest
        applyChan := s.applyChan ++ [.command op i] } p := by
  obtain ⟨p', t, hdrains, hschedulable, ht⟩ := h.queued.order
  rw [hmsgs, List.map_cons] at hschedulable
  obtain ⟨hconsumes, hrest⟩ := hschedulable.deliver_command (by simpa using horder)
  exact {
    last := h.last
    commands := fun m hm => h.commands m (by rw [hmsgs]; simp [hm])
    detached := h.detached
    channel := by
      intro m hm
      rcases List.mem_append.mp hm with hm | hm
      · exact h.channel m hm
      · obtain rfl := List.mem_singleton.mp hm
        exact h.commands (i, op) (by simp [hmsgs])
    disk := h.disk
    booted := h.booted
    booting := fun hb =>
      have hbooting := h.booting hb
      ⟨hbooting.position, hbooting.last, hbooting.loop, hbooting.state⟩
    queued := by
      refine ⟨⟨_, t, ?_, hrest, ht⟩, h.queued.detached, ?_⟩
      · rw [List.map_append]
        exact hdrains.concat hconsumes
      · obtain ⟨j, m, hrange⟩ := h.queued.consecutive
        rw [hmsgs, List.map_cons] at hrange
        cases m with
        | zero => simp at hrange
        | succ m =>
            rw [List.range'_succ] at hrange
            exact ⟨j + 1, m, (List.cons.inj hrange).2⟩ }

theorem Consistent.pushMsgToKvServer (h : Consistent L gets s p)
    {msg : ApplyMsg KvState} (hmsg : s.detached[0]? = some msg) :
    Consistent L gets
      { s with
        detached := s.detached.eraseIdx 0
        applyChan := s.applyChan ++ [msg] } p := by
  obtain ⟨rest, hdetached⟩ : ∃ rest, s.detached = msg :: rest := by
    cases hd : s.detached with
    | nil => simp [hd] at hmsg
    | cons d ds =>
        rw [hd] at hmsg
        exact ⟨ds, by simpa using hmsg⟩
  obtain ⟨p', t, hdrains, hschedulable, ht⟩ := h.queued.order
  rw [hdetached, List.map_cons] at hschedulable
  obtain ⟨hconsumes, hrest⟩ := hschedulable.deliver_reset
  have himage := h.detached msg (by simp [hdetached])
  have hindex := h.queued.detached msg.index (by simp [hdetached])
  exact {
    last := h.last
    commands := h.commands
    detached := fun m hm =>
      h.detached m (List.mem_of_mem_eraseIdx hm)
    channel := by
      intro m hm
      rcases List.mem_append.mp hm with hm | hm
      · exact h.channel m hm
      · obtain rfl := List.mem_singleton.mp hm
        exact himage.fromLog
    disk := h.disk
    booted := h.booted
    booting := fun hb =>
      have hbooting := h.booting hb
      ⟨hbooting.position, hbooting.last, hbooting.loop, hbooting.state⟩
    queued := by
      refine ⟨⟨msg.index, msg.index, ?_, ?_, hindex⟩, ?_,
        h.queued.consecutive⟩
      · rw [List.map_append, List.map_singleton, himage.toMessage]
        exact hdrains.concat hconsumes
      · simp only [hdetached]
        exact hrest
      · intro d hd
        refine h.queued.detached d ?_
        simp only [hdetached, List.eraseIdx_zero, List.tail_cons] at hd
        simp [hdetached, hd] }

/-- With nothing in flight the consumer stands at `lastApplied`. -/
theorem Consistent.idle (h : Consistent L gets s p)
    (hnothing : s.NothingInFlight) :
    p = s.raft.lastApplied ∧ s.lastSnapShotRaftLogIndex ≤ p := by
  obtain ⟨hmsgs, hdetached, hchan⟩ := hnothing
  rw [List.isEmpty_iff] at hmsgs hdetached hchan
  obtain ⟨p', t, hdrains, hschedulable, -⟩ := h.queued.order
  rw [hchan] at hdrains
  rw [hmsgs, hdetached] at hschedulable
  cases hdrains
  exact ⟨le_antisymm hschedulable.le_end
    (hschedulable.end_le le_rfl (by simp)), hschedulable.reset_le⟩

/-- The position moves only when the image on disk is still to be read. -/
theorem Consistent.installSnapshot (h : Consistent L gets s p)
    {args : InstallSnapshotRequest n KvState} {r : Raft n KvState}
    (htakes : s.raft.TakesSnapshot args.lastSnapShotIncludeIndex args.data r)
    (himage : CarriesImage L gets args)
    (hready : s.booted = true ∨ s.NothingInFlight)
    (hbehind : s.NotPushedBehind args.lastSnapShotIncludeIndex) :
    ∃ p', p ≤ p' ∧ Consistent L gets
      { s with
        raft := r
        detached := s.detached ++
          [.snapshot args.data args.lastSnapShotIncludeTerm
            args.lastSnapShotIncludeIndex] } p' := by
  generalize hi : args.lastSnapShotIncludeIndex = i at htakes hbehind ⊢
  obtain ⟨hlt, happlied, hboundary, hsnapshot, hdisk⟩ := htakes
  obtain ⟨st, hdata, hst⟩ := himage
  rw [hi] at hst
  have hnew : ApplyMsg.IsImage L gets
      (.snapshot args.data args.lastSnapShotIncludeTerm i) := ⟨st, hdata, hst⟩
  have hdetached : ∀ m ∈ s.detached ++
      [.snapshot args.data args.lastSnapShotIncludeTerm i],
      m.IsImage L gets := by
    intro m hm
    rcases List.mem_append.mp hm with hm | hm
    · exact h.detached m hm
    · exact List.mem_singleton.mp hm ▸ hnew
  have hondisk : OnDisk L gets r := by
    refine ⟨hdisk.trans hboundary.symm, ?_, ?_⟩
    · rw [hsnapshot, hdata]
      simp
    · rw [hsnapshot, hdata, hboundary]
      rintro st' ⟨⟩
      exact hst
  have hle : ∀ d ∈ s.detached.map ApplyMsg.index ++ [i], d ≤ i := by
    intro d hd
    rcases List.mem_append.mp hd with hd | hd
    · exact (h.queued.detached d hd).trans hlt.le
    · exact (List.mem_singleton.mp hd).le
  by_cases hbooted : s.booted = true
  · refine ⟨p, le_rfl, ⟨h.last, h.commands, hdetached, h.channel, hondisk,
      h.booted, fun hb => absurd hb (by simp [hbooted]), ?_⟩⟩
    obtain ⟨p', t, hdrains, hschedulable, ht⟩ := h.queued.order
    refine ⟨⟨p', t, hdrains, ?_, ?_⟩, ?_, h.queued.consecutive⟩
    · rw [happlied, List.map_append]
      refine hschedulable.add_reset (ht.trans hlt.le) ?_
        h.queued.consecutive ?_ ?_
      · exact fun d hd => (h.queued.detached d hd).trans hlt.le
      · intro hnil
        exact hbehind.1 (by simpa using hnil)
      · intro j is heq
        cases hmsgs : s.applyMsgs with
        | nil => simp [hmsgs] at heq
        | cons m ms =>
            rw [hmsgs, List.map_cons] at heq
            rw [← (List.cons.inj heq).1]
            exact hbehind.2 m (by simp [hmsgs])
    · rw [hboundary]
      exact ht.trans hlt.le
    · simpa [hboundary, ApplyMsg.index] using hle
  · have hnothing : s.NothingInFlight := by
      rcases hready with hb | hnothing
      · exact absurd hb hbooted
      · exact hnothing
    obtain ⟨hp, hlast⟩ := h.idle hnothing
    have hbooting := h.booting (by simpa using hbooted)
    have hpi : p < i := by rw [hbooting.position]; exact hlt
    obtain ⟨hmsgs, hnodetached, hchan⟩ := hnothing
    rw [List.isEmpty_iff] at hmsgs hnodetached hchan
    refine ⟨i, hpi.le, ⟨hlast.trans hpi.le, h.commands, hdetached, h.channel, hondisk,
      fun hb => absurd hb hbooted, fun _ => ?_, ?_⟩⟩
    · exact ⟨hboundary.symm, hbooting.last, hbooting.loop, hbooting.state⟩
    · refine ⟨⟨i, s.lastSnapShotRaftLogIndex, ?_, ?_, ?_⟩, ?_,
        h.queued.consecutive⟩
      · rw [hchan]
        exact .nil _ _
      · have hidle := Delivery.Schedulable.idle (hlast.trans hpi.le)
        have hadd := hidle.add_reset (hlast.trans hpi.le) (by simp)
          ⟨0, 0, rfl⟩ (fun _ => le_rfl) (by simp)
        rw [max_self] at hadd
        simp only [happlied, hnodetached, hmsgs, ← hp, max_eq_right hpi.le]
        exact hadd
      · rw [hboundary]
        exact hlast.trans hpi.le
      · simpa [hboundary, ApplyMsg.index] using hle

theorem Consistent.readSnapShotToInstall (h : Consistent L gets s p)
    (hbooted : s.booted = false) :
    Consistent L gets s.readSnapShotToInstall.1 p ∧
      ∀ e ∈ s.readSnapShotToInstall.2, e.Shows L gets p := by
  have hbooting := h.booting hbooted
  unfold KvServer.readSnapShotToInstall
  split
  · next hnone =>
      refine ⟨⟨h.last, h.commands, h.detached, h.channel, h.disk, fun _ => ?_,
        fun hb => absurd hb (by simp), ⟨h.queued.order, h.queued.detached,
          h.queued.consecutive⟩⟩, by simp⟩
      rw [Stands, hbooting.loop, hbooting.position, h.disk.noImage hnone]
      exact hbooting.state
  · next image hsome =>
      have himage := h.disk.image image hsome
      rw [← hbooting.position] at himage
      refine ⟨⟨h.last, h.commands, h.detached, h.channel, h.disk, fun _ => ?_,
        fun hb => absurd hb (by simp), ⟨h.queued.order, h.queued.detached,
          h.queued.consecutive⟩⟩, by simpa [KvEvent.Shows] using himage⟩
      rw [Stands, hbooting.loop]
      exact himage

theorem Consistent.stands_of_loop (h : Consistent L gets s p)
    (hloop : s.loop ≠ .idle) : s.booted = true ∧ s.Stands L gets p := by
  cases hbooted : s.booted with
  | true => exact ⟨rfl, h.booted hbooted⟩
  | false => exact absurd (h.booting hbooted).loop hloop

/-- A step of the apply loop that leaves the queue. -/
theorem Consistent.moveLoop (h : Consistent L gets s p)
    (hbooted : s.booted = true) (state : KvState) (loop : Loop)
    (waitApplyCh : ℕ → Option (List Op))
    (hstands : Stands L gets { s with state := state, loop := loop } p) :
    Consistent L gets
      { s with state := state, loop := loop, waitApplyCh := waitApplyCh } p where
  last := h.last
  commands := h.commands
  detached := h.detached
  channel := h.channel
  disk := h.disk
  booted := fun _ => hstands
  booting := fun hb => absurd (hbooted.symm.trans hb) (by simp)
  queued := ⟨h.queued.order, h.queued.detached, h.queued.consecutive⟩

theorem Consistent.popCommand (h : Consistent L gets s p) {op : Op} {i : ℕ}
    {rest : List (ApplyMsg KvState)} (hbooted : s.booted = true)
    (hloop : s.loop = .idle) (hchan : s.applyChan = .command op i :: rest) :
    ∃ p', p ≤ p' ∧
      Consistent L gets
        ({ s with applyChan := rest }.getCommandFromRaft op i).1 p' ∧
      ∀ e ∈ ({ s with applyChan := rest }.getCommandFromRaft op i).2,
        e.Shows L gets p' := by
  have hstands := h.booted hbooted
  rw [Stands, hloop] at hstands
  have hop : op = L i := h.channel (.command op i) (by simp [hchan])
  have hrest : ∀ m ∈ rest, m.FromLog L gets :=
    fun m hm => h.channel m (by simp [hchan, hm])
  obtain ⟨p', t, hdrains, hschedulable, ht⟩ := h.queued.order
  rw [hchan, List.map_cons] at hdrains
  cases hdrains with
  | cons hconsumes hdrains =>
      unfold getCommandFromRaft
      cases hconsumes with
      | stale hstale =>
          rw [if_pos hstale]
          refine ⟨p, le_rfl, ⟨h.last, h.commands, h.detached, hrest, h.disk,
            fun _ => ?_, fun hb => absurd (hbooted.symm.trans hb) (by simp),
            ⟨⟨p', t, hdrains, hschedulable, ht⟩, h.queued.detached,
              h.queued.consecutive⟩⟩, by simpa [KvEvent.Shows] using hstands⟩
          rw [Stands, hloop]
          exact hstands
      | next hle =>
          rw [if_neg (by simp only; omega)]
          refine ⟨p + 1, Nat.le_succ p, ⟨h.last.trans (Nat.le_succ p),
            h.commands, h.detached, hrest, h.disk, fun _ => ?_,
            fun hb => absurd (hbooted.symm.trans hb) (by simp),
            ⟨⟨p', t, hdrains, hschedulable, ht⟩, h.queued.detached,
              h.queued.consecutive⟩⟩, by simp⟩
          exact ⟨rfl, hop, Nat.lt_succ_of_le hle, p, s.state, rfl, hstands, rfl,
            .refl⟩

theorem Consistent.popSnapshot (h : Consistent L gets s p)
    {image : Option KvState} {t i : ℕ} {rest : List (ApplyMsg KvState)}
    (hbooted : s.booted = true) (hloop : s.loop = .idle)
    (hchan : s.applyChan = .snapshot image t i :: rest) :
    ∃ p', p ≤ p' ∧
      Consistent L gets
        ({ s with applyChan := rest }.getSnapShotFromRaft image i).1 p' ∧
      ∀ e ∈ ({ s with applyChan := rest }.getSnapShotFromRaft image i).2,
        e.Shows L gets p' := by
  obtain ⟨st, rfl, hst⟩ : ∃ st, image = some st ∧ Reflects L gets i st :=
    h.channel (.snapshot image t i) (by simp [hchan])
  have hrest : ∀ m ∈ rest, m.FromLog L gets :=
    fun m hm => h.channel m (by simp [hchan, hm])
  obtain ⟨p', u, hdrains, hschedulable, hu⟩ := h.queued.order
  rw [hchan, List.map_cons] at hdrains
  cases hdrains with
  | cons hconsumes hdrains =>
      cases hconsumes with
      | reset hle =>
          refine ⟨i, hle, ⟨le_rfl, h.commands, h.detached, hrest, h.disk,
            fun _ => ?_, fun hb => absurd (hbooted.symm.trans hb) (by simp),
            ⟨⟨p', u, hdrains, hschedulable, hu⟩, h.queued.detached,
              h.queued.consecutive⟩⟩,
            by simpa [getSnapShotFromRaft, KvEvent.Shows] using hst⟩
          simp only [getSnapShotFromRaft, Stands, hloop]
          exact hst

theorem Consistent.execute (h : Consistent L gets s p) {i now : ℕ} {op : Op}
    {duplicate : Bool} (hloop : s.loop = .checked i op duplicate) :
    Consistent L gets
      { s with
        state := if duplicate then s.state else s.state.executeCommand now op
        loop := .executed i op } p := by
  obtain ⟨hbooted, hstands⟩ := h.stands_of_loop (by simp [hloop])
  rw [Stands, hloop] at hstands
  obtain ⟨rfl, hop, -, k, st, rfl, hst, rfl, hgets⟩ := hstands
  refine h.moveLoop hbooted _ _ s.waitApplyCh ⟨rfl, ?_⟩
  rw [hop]
  exact hst.command hgets now

/-- The snapshot of the apply loop is older than everything on its way. -/
theorem Consistent.snapshotTaken (h : Consistent L gets s p) {i : ℕ} {op : Op}
    {image : KvState} {r : Raft n KvState}
    (hloop : s.loop = .snapshotting i op image)
    (htakes : s.raft.TakesSnapshot i (some image) r) :
    Consistent L gets { s with raft := r, loop := .sending i op } p := by
  obtain ⟨hbooted, hstands⟩ := h.stands_of_loop (by simp [hloop])
  rw [Stands, hloop] at hstands
  obtain ⟨rfl, hstate, himage⟩ := hstands
  obtain ⟨hlt, happlied, hboundary, hsnapshot, hdisk⟩ := htakes
  obtain ⟨p', t, hdrains, hschedulable, ht⟩ := h.queued.order
  have happlied : r.lastApplied = s.raft.lastApplied := by
    rw [happlied]
    exact max_eq_left (hdrains.le.trans hschedulable.le_end)
  exact {
    last := h.last
    commands := h.commands
    detached := h.detached
    channel := h.channel
    disk := by
      refine ⟨hdisk.trans hboundary.symm, by simp [hsnapshot], ?_⟩
      rw [hsnapshot, hboundary]
      rintro st ⟨⟩
      exact himage
    booted := fun _ => ⟨rfl, hstate⟩
    booting := fun hb => absurd (hbooted.symm.trans hb) (by simp)
    queued := by
      refine ⟨⟨p', t, hdrains, ?_, ?_⟩, fun d hd => ?_,
        h.queued.consecutive⟩
      · simpa only [happlied] using hschedulable
      · simp only [hboundary]
        exact ht.trans hlt.le
      · simp only [hboundary]
        exact (h.queued.detached d hd).trans hlt.le }

theorem Consistent.executeGet (h : Consistent L gets s p) {op : Op}
    (hop : gets op) (now : ℕ) :
    Consistent L gets
      { s with state := (s.state.executeGetOpOnKVDB now op).1 } p := by
  refine ⟨h.last, h.commands, h.detached, h.channel, h.disk, fun hb => ?_,
    fun hb => ?_, ⟨h.queued.order, h.queued.detached, h.queued.consecutive⟩⟩
  · have hstands := h.booted hb
    unfold Stands at hstands ⊢
    simp only
    cases hloop : s.loop with
    | idle =>
        rw [hloop] at hstands
        exact hstands.get hop now
    | checked i op' duplicate =>
        rw [hloop] at hstands
        obtain ⟨hp, hlog, hlt, k, st, hi, hst, hduplicate, hgets⟩ := hstands
        exact ⟨hp, hlog, hlt, k, st, hi, hst, hduplicate,
          hgets.tail ⟨now, op, hop, rfl⟩⟩
    | executed i op' =>
        rw [hloop] at hstands
        exact ⟨hstands.1, hstands.2.get hop now⟩
    | snapshotting i op' image =>
        rw [hloop] at hstands
        exact ⟨hstands.1, hstands.2.1.get hop now, hstands.2.2⟩
    | sending i op' =>
        rw [hloop] at hstands
        exact ⟨hstands.1, hstands.2.get hop now⟩
  · have hbooting := h.booting hb
    exact ⟨hbooting.position, hbooting.last, hbooting.loop,
      hbooting.state.get hop now⟩

/-! ## Runs -/

theorem advances_append {es es' : List KvEvent} {k : ℕ}
    (h : Advances L gets es k) (hle : k ≤ p)
    (hes : ∀ e ∈ es', e.Shows L gets p) :
    ∃ k', k' ≤ p ∧ Advances L gets (es ++ es') k' := by
  induction es' generalizing es k with
  | nil => exact ⟨k, hle, by simpa using h⟩
  | cons e es' ih =>
      rw [List.append_cons]
      exact ih (h.shows hle (hes e (by simp))) le_rfl
        fun e' he' => hes e' (by simp [he'])

/-- The history has reached some `k`, and the pipeline continues from there or
from further on. -/
def Tracks (L : ℕ → Op) (gets : Op → Prop) (s : KvServer n)
    (es : List KvEvent) : Prop :=
  ∃ k p, k ≤ p ∧ Advances L gets es k ∧ Consistent L gets s p

theorem tracks_start (me : Fin n) : Tracks L gets (start me) [] :=
  ⟨0, _, Nat.zero_le _, .start, consistent_boot (fun _ => rfl) (by simp)⟩

/-- What the surroundings promise for a step, and the order of delivery. -/
structure Keeps (L : ℕ → Op) (gets : Op → Prop) (s : KvServer n)
    (a : KvAction n) : Prop where
  image : ∀ args, a = .installSnapshot args → CarriesImage L gets args
  log : s.HandsOutLog L a
  executed : s.ExecutesGets gets a
  order : s.DeliversInOrder a

theorem tracks_of_shows {es es' : List KvEvent} {k : ℕ}
    (hadvances : Advances L gets es k) (hle : k ≤ p)
    (h : ∃ p', p ≤ p' ∧ Consistent L gets s' p' ∧
      ∀ e ∈ es', e.Shows L gets p') :
    Tracks L gets s' (es ++ es') := by
  obtain ⟨p', hp, hconsistent, hes⟩ := h
  obtain ⟨k', hk, hadvances⟩ := advances_append hadvances (hle.trans hp) hes
  exact ⟨k', p', hk, hadvances, hconsistent⟩

theorem tracks_step {es es' : List KvEvent} {a : KvAction n}
    (h : Tracks L gets s es) (hkeeps : s.Keeps L gets a)
    (hstep : s.step a = some (s', es')) : Tracks L gets s' (es ++ es') := by
  obtain ⟨k, p, hle, hadvances, h⟩ := h
  obtain ⟨himage, hlog, hexecuted, horder⟩ := hkeeps
  cases step_moves hstep with
  | quiet hsame =>
      exact tracks_of_shows hadvances hle
        ⟨p, le_rfl, h.of_samePipeline hsame, by simp⟩
  | reboot hp =>
      exact ⟨0, _, Nat.zero_le _, hadvances.restart, h.reboot hp⟩
  | getApplyLogs hempty hmsgs =>
      refine tracks_of_shows hadvances hle
        ⟨p, le_rfl, h.getApplyLogs hempty hmsgs ?_, by simp⟩
      simpa [HandsOutLog, handedOut, hmsgs] using hlog
  | @pushCommand i op rest hmsgs =>
      have hhead := horder.1 (i, op) (by simp [pushed?, hmsgs])
      exact tracks_of_shows hadvances hle
        ⟨p, le_rfl, h.pushCommand hmsgs hhead, by simp⟩
  | @installSnapshot args r hterm htakes =>
      obtain ⟨hready, hbehind⟩ := horder.2.2 args
        (by simp [installed?, hterm, htakes.lt])
      obtain ⟨p', hp, hconsistent⟩ :=
        h.installSnapshot htakes (himage args rfl) hready hbehind
      exact tracks_of_shows hadvances hle ⟨p', hp, hconsistent, by simp⟩
  | @pushMsgToKvServer thread msg hmsg =>
      obtain rfl := horder.2.1 thread rfl
      exact tracks_of_shows hadvances hle
        ⟨p, le_rfl, h.pushMsgToKvServer hmsg, by simp⟩
  | readSnapShotToInstall hbooted =>
      exact tracks_of_shows hadvances hle
        ⟨p, le_rfl, h.readSnapShotToInstall hbooted⟩
  | popCommand hbooted hloop hchan =>
      exact tracks_of_shows hadvances hle (h.popCommand hbooted hloop hchan)
  | popSnapshot hbooted hloop hchan =>
      exact tracks_of_shows hadvances hle (h.popSnapshot hbooted hloop hchan)
  | execute hloop =>
      exact tracks_of_shows hadvances hle
        ⟨p, le_rfl, h.execute hloop, by simp [KvEvent.Shows]⟩
  | makeSnapShot hloop =>
      obtain ⟨hbooted, hstands⟩ := h.stands_of_loop (by simp [hloop])
      rw [Stands, hloop] at hstands
      exact tracks_of_shows hadvances hle ⟨p, le_rfl,
        h.moveLoop hbooted _ _ _ ⟨hstands.1, hstands.2, hstands.2⟩, by simp⟩
  | skipSnapshot hloop =>
      obtain ⟨hbooted, hstands⟩ := h.stands_of_loop (by simp [hloop])
      rw [Stands, hloop] at hstands
      exact tracks_of_shows hadvances hle
        ⟨p, le_rfl, h.moveLoop hbooted _ _ _ hstands, by simp⟩
  | snapshotRefused hloop =>
      obtain ⟨hbooted, hstands⟩ := h.stands_of_loop (by simp [hloop])
      rw [Stands, hloop] at hstands
      exact tracks_of_shows hadvances hle ⟨p, le_rfl,
        h.moveLoop hbooted _ _ _ ⟨hstands.1, hstands.2.1⟩,
        by simpa [KvEvent.Shows] using ⟨hstands.1.symm, hstands.2.2⟩⟩
  | snapshotTaken hloop htakes =>
      obtain ⟨-, hstands⟩ := h.stands_of_loop (by simp [hloop])
      rw [Stands, hloop] at hstands
      exact tracks_of_shows hadvances hle ⟨p, le_rfl,
        h.snapshotTaken hloop htakes,
        by simpa [KvEvent.Shows] using ⟨hstands.1.symm, hstands.2.2⟩⟩
  | @snapshotExit i op image q hloop hq =>
      obtain ⟨-, hstands⟩ := h.stands_of_loop (by simp [hloop])
      rw [Stands, hloop] at hstands
      obtain ⟨rfl, -, hst⟩ := hstands
      have hshown : Advances L gets (es ++ [.snapshotted p image]) p :=
        hadvances.shows hle ⟨rfl, hst⟩
      rw [List.append_cons]
      refine ⟨0, q.boundary, Nat.zero_le _, hshown.restart, ?_⟩
      rcases hq with rfl | ⟨hsnapshot, hboundary⟩
      · exact h.reboot s.raft.keepsImage_persister
      · refine consistent_boot (by simp [hsnapshot]) ?_
        rw [hsnapshot, hboundary]
        rintro st ⟨⟩
        exact hst
  | sendMessageToWaitChan hloop =>
      obtain ⟨hbooted, hstands⟩ := h.stands_of_loop (by simp [hloop])
      rw [Stands, hloop] at hstands
      exact tracks_of_shows hadvances hle ⟨p, le_rfl,
        h.moveLoop hbooted _ _ _ hstands.2,
        by simpa [KvEvent.Shows] using hstands.2⟩
  | readOnlyGet hreading hsame =>
      exact tracks_of_shows hadvances hle ⟨p, le_rfl,
        h.of_samePipeline hsame, by simp [KvEvent.Shows]⟩
  | @executeGet i now index handler _ hgranted hsame =>
      have hop : gets handler.op :=
        hexecuted handler (by simp [executedGet?, hgranted])
      exact tracks_of_shows hadvances hle ⟨p, le_rfl,
        (h.executeGet hop now).of_samePipeline hsame, by simp⟩

theorem tracks_along {me : Fin n} {as : List (KvAction n)}
    {es : List KvEvent}
    (himages : ∀ args, .installSnapshot args ∈ as → CarriesImage L gets args)
    (hlog : Transition.Throughout step (HandsOutLog L) (start me) as)
    (hgets : Transition.Throughout step (ExecutesGets gets) (start me) as)
    (horder : Transition.Throughout step DeliversInOrder (start me) as)
    (hrun : (start me).run as = some (s, es)) :
    Tracks L gets s es := by
  have himages : Transition.Throughout step
      (fun _ a => ∀ args, a = .installSnapshot args →
        CarriesImage L gets args) (start me) as :=
    Transition.throughout_of_mem
      (by rintro a ha args rfl; exact himages args ha) _
  have hall := Transition.throughout_and himages
    (Transition.throughout_and hlog (Transition.throughout_and hgets horder))
  refine Transition.run_induction (fun s es a s' es' hp hI hstep => ?_) hall
    (tracks_start me) hrun
  exact tracks_step hI ⟨hp.1, hp.2.1, hp.2.2.1, hp.2.2.2⟩ hstep

/-- With delivery in order the states a server shows after each message, and
the images it takes, reflect growing prefixes of the log. -/
theorem applied_state_advances {me : Fin n} {as : List (KvAction n)}
    {es : List KvEvent}
    (himages : ∀ args, .installSnapshot args ∈ as → CarriesImage L gets args)
    (hlog : Transition.Throughout step (HandsOutLog L) (start me) as)
    (hgets : Transition.Throughout step (ExecutesGets gets) (start me) as)
    (horder : Transition.Throughout step DeliversInOrder (start me) as)
    (hrun : (start me).run as = some (s, es)) :
    ∃ k, Advances L gets es k := by
  obtain ⟨k, -, -, hadvances, -⟩ := tracks_along himages hlog hgets horder hrun
  exact ⟨k, hadvances⟩

end KvServer

/-! ## A log in which every clerk writes once -/

/-- Command `i` of the log. -/
def sampleLog (i : ℕ) : Op where
  operation := "Put"
  key := "k"
  value := "v"
  clientId := toString i
  requestId := 1
  ttlMs := 0
  expireAtMs := 0

/-- The state after the first commands. -/
def sampleImage : ℕ → KvState
  | 0 => .empty
  | k + 1 => (sampleImage k).applyChecked (sampleImage k) 0 (sampleLog (k + 1))

theorem reflects_sampleImage (k : ℕ) :
    Reflects sampleLog gets k (sampleImage k) := by
  induction k with
  | zero => exact .empty
  | succ k ih => exact ih.command .refl 0

/-- Server 1 sends the first commands to server 0 and has committed them. -/
def sampleEntries (k : ℕ) : AppendEntriesArgs 3 where
  term := 1
  leaderId := 1
  prevLogIndex := 0
  prevLogTerm := 0
  entries := (List.range' 1 k).map fun i =>
    { command := sampleLog i, logTerm := 1, logIndex := i }
  leaderCommit := k

def sampleSnapshot (i : ℕ) : InstallSnapshotRequest 3 KvState where
  leaderId := 1
  term := 1
  lastSnapShotIncludeIndex := i
  lastSnapShotIncludeTerm := 1
  data := some (sampleImage i)

theorem carriesImage_sampleSnapshot (i : ℕ) :
    CarriesImage sampleLog gets (sampleSnapshot i) :=
  ⟨sampleImage i, rfl, reflects_sampleImage i⟩

namespace KvServer

/-- The apply loop takes one command. -/
def applyOne : List (KvAction 3) :=
  [.pop, .execute 0, .skipSnapshot, .sendMessageToWaitChan]

/-- Three commands are pushed, the first is snapshotted, and a snapshot of the
leader arrives behind them. -/
def orderedRun : List (KvAction 3) :=
  [.readSnapShotToInstall, .receive (.appendEntries1 (sampleEntries 3)),
    .getApplyLogs, .pushCommand, .pushCommand,
    .pop, .execute 0, .makeSnapShot, .snapshot, .sendMessageToWaitChan,
    .installSnapshot (sampleSnapshot 4), .pushCommand,
    .pushMsgToKvServer 0] ++ applyOne ++ applyOne ++ [.pop]

theorem applied_state_advances_ordered :
    ∃ s es, (start 0).run orderedRun = some (s, es) ∧ es.length = 9 ∧
      ∃ k, Advances sampleLog (fun _ => False) es k := by
  obtain ⟨s, es, hrun, hlen⟩ : ∃ s es,
      (start 0).run orderedRun = some (s, es) ∧ es.length = 9 := by
    decide +kernel
  refine ⟨s, es, hrun, hlen, applied_state_advances ?_ (by decide +kernel)
    (by decide +kernel) (by decide +kernel) hrun⟩
  intro args hargs
  obtain rfl : args = sampleSnapshot 4 := by
    simpa [orderedRun, applyOne] using hargs
  exact carriesImage_sampleSnapshot 4

end KvServer

/-! ## A snapshot behind later commands -/

/-- The state shown to the clerks at the event. -/
def KvEvent.shown? : KvEvent → Option KvState
  | .processed st => some st
  | .restored st => some st
  | _ => none

/-- A clerk whose request was carried out once stays in the table. -/
def KeepsRequests (es : List KvEvent) (clientId : String) : Prop :=
  (es.filterMap KvEvent.shown?).Pairwise fun st st' =>
    (st.lastRequestId clientId).isSome → (st'.lastRequestId clientId).isSome

instance (es : List KvEvent) (clientId : String) :
    Decidable (KeepsRequests es clientId) :=
  inferInstanceAs (Decidable (List.Pairwise _ _))

def KvEvent.isRestarted : KvEvent → Bool
  | .restarted => true
  | _ => false

theorem isSome_recorded_applyChecked {st : KvState} {now : ℕ} {op : Op}
    {clientId : String} :
    ((st.applyChecked st now op).lastRequestId clientId).isSome ↔
      (st.lastRequestId clientId).isSome ∨
        (KvState.Writes op ∧ op.clientId = clientId) := by
  unfold KvState.applyChecked
  split
  · next hduplicate =>
      obtain ⟨last, hlast, -⟩ := KvState.ifRequestDuplicate_iff.mp hduplicate
      constructor
      · exact .inl
      · rintro (h | ⟨-, rfl⟩)
        · exact h
        · simp [hlast]
  · by_cases hwrites : KvState.Writes op
    · rw [st.lastRequestId_executeCommand now hwrites]
      by_cases hclient : op.clientId = clientId
      · simp [hclient, hwrites]
      · simp [Function.update_of_ne (Ne.symm hclient), hclient]
    · simp [st.executeCommand_of_not_writes now hwrites, hwrites]

/-- Without requests in between, a clerk is in the table exactly when one of
the commands is a write of its. -/
theorem Reflects.recorded_iff {k : ℕ} {st : KvState} {clientId : String}
    (h : Reflects L (fun _ => False) k st) :
    (st.lastRequestId clientId).isSome ↔
      ∃ i, i < k ∧ KvState.Writes (L (i + 1)) ∧
        (L (i + 1)).clientId = clientId := by
  induction h with
  | empty => simp [KvState.empty]
  | get _ hop => exact hop.elim
  | @command k checked st _ hgets now ih =>
      obtain rfl : checked = st := by
        induction hgets with
        | refl => rfl
        | tail _ hstep _ =>
            obtain ⟨-, -, hop, -⟩ := hstep
            exact hop.elim
      rw [isSome_recorded_applyChecked, ih]
      constructor
      · rintro (⟨i, hi, hwrites⟩ | hwrites)
        · exact ⟨i, by omega, hwrites⟩
        · exact ⟨k, by omega, hwrites⟩
      · rintro ⟨i, hi, hwrites⟩
        rcases Nat.lt_succ_iff_lt_or_eq.mp hi with hi | rfl
        · exact .inl ⟨i, hi, hwrites⟩
        · exact .inr hwrites

theorem shown?_reflects {e : KvEvent} {k : ℕ} {st : KvState}
    (he : e.Shows L gets k) (hst : e.shown? = some st) :
    Reflects L gets k st := by
  cases e <;> simp_all [KvEvent.Shows, KvEvent.shown?]

/-- Going forward, a server without restarts keeps every clerk it has
recorded. -/
theorem Advances.keepsRequests {es : List KvEvent} {k : ℕ} {clientId : String}
    (h : Advances L (fun _ => False) es k)
    (hlife : ∀ e ∈ es, e.isRestarted = false) :
    KeepsRequests es clientId ∧
      ∀ st ∈ es.filterMap KvEvent.shown?,
        (st.lastRequestId clientId).isSome →
          ∃ i, i < k ∧ KvState.Writes (L (i + 1)) ∧
            (L (i + 1)).clientId = clientId := by
  induction h with
  | start => exact ⟨.nil, by simp⟩
  | restart =>
      have := hlife .restarted (by simp)
      cases this
  | @shows es e k k' h hle he ih =>
      obtain ⟨hkeeps, hwritten⟩ := ih fun e he => hlife e (by simp [he])
      have hall : ∀ st ∈ es.filterMap KvEvent.shown?,
          (st.lastRequestId clientId).isSome →
            ∃ i, i < k' ∧ KvState.Writes (L (i + 1)) ∧
              (L (i + 1)).clientId = clientId := by
        intro st hst hsome
        obtain ⟨i, hi, hwrites⟩ := hwritten st hst hsome
        exact ⟨i, by omega, hwrites⟩
      cases hshown : e.shown? with
      | none =>
          rw [KeepsRequests, List.filterMap_append]
          simpa [hshown] using ⟨hkeeps, by simpa using hall⟩
      | some st' =>
          have hst' := shown?_reflects he hshown
          have hnew : (st'.lastRequestId clientId).isSome ↔ _ := hst'.recorded_iff
          rw [KeepsRequests, List.filterMap_append, List.pairwise_append]
          refine ⟨⟨hkeeps, by simp [hshown], ?_⟩, ?_⟩
          · intro st hst st₂ hst₂ hsome
            obtain rfl : st₂ = st' := by simpa [hshown] using hst₂
            exact hnew.mpr (hall st hst hsome)
          · intro st hst hsome
            rcases List.mem_append.mp hst with hst | hst
            · exact hall st hst hsome
            · obtain rfl : st = st' := by simpa [hshown] using hst
              exact hnew.mp hsome

namespace KvServer

/-- All three commands are processed before a delayed snapshot of the first
two is installed. -/
def rollbackRun : List (KvAction 3) :=
  [.readSnapShotToInstall, .receive (.appendEntries1 (sampleEntries 3)),
    .getApplyLogs, .pushCommand, .pushCommand, .pushCommand] ++
    applyOne ++ applyOne ++ applyOne ++
    [.installSnapshot (sampleSnapshot 2), .pushMsgToKvServer 0, .pop]

theorem snapshot_rolls_back :
    ∃ s es, (start 0).run rollbackRun = some (s, es) ∧
      (∀ args, .installSnapshot args ∈ rollbackRun →
        CarriesImage sampleLog (fun _ => False) args) ∧
      Transition.Throughout step (HandsOutLog sampleLog) (start 0)
        rollbackRun ∧
      Transition.Throughout step (ExecutesGets fun _ => False) (start 0)
        rollbackRun ∧
      ∀ k, ¬Advances sampleLog (fun _ => False) es k := by
  obtain ⟨s, es, hrun, hlife, hlost⟩ : ∃ s es,
      (start 0).run rollbackRun = some (s, es) ∧
        (∀ e ∈ es, e.isRestarted = false) ∧ ¬KeepsRequests es "3" := by
    decide +kernel
  refine ⟨s, es, hrun, ?_, by decide +kernel, by decide +kernel, ?_⟩
  · intro args hargs
    obtain rfl : args = sampleSnapshot 2 := by
      simpa [rollbackRun, applyOne] using hargs
    exact carriesImage_sampleSnapshot 2
  · intro k hadvances
    exact hlost (hadvances.keepsRequests hlife).1

end KvServer

end KVRaftStorage
