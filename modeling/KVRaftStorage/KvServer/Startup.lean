import KVRaftStorage.Raft.Effects
import KVRaftStorage.Support.Transition

/-!
# The constructor of `class KvServer`

The provider thread registers both services and serves requests while the main
thread still sleeps, connects to the peers and runs `Raft::init`.  Nothing but
the sleeps keeps a request from reaching a node that is not initialised.

Until `init` runs the node has the members of a value-initialised `Raft`, and
`m_persister` is a null pointer; the files themselves are the persister of the
node throughout.  The first use of a null pointer ends the process, and only
the files are left until it is launched again.  The steps are those of the
constructor and of the requests that arrive meanwhile; the tickers, which `init`
starts last, are left out.
-/

namespace KVRaftStorage

open Transition

/-- How far the main thread has come. -/
inductive Stage where
  /-- `sleep(6)` -/
  | waiting
  /-- reading the configuration and filling `servers` -/
  | connecting
  /-- `sleep(startupDelaySeconds)` -/
  | delaying
  /-- in `init`, behind `m_peers = peers` -/
  | peersSet
  /-- in `init`, behind `m_persister = persister` -/
  | persisterSet
  /-- in `init`, behind `m_me = me`, about to take the lock -/
  | meSet
  /-- `init` has released the lock -/
  | initialised
  /-- the stored snapshot is installed and the apply loop runs -/
  | loaded
deriving DecidableEq

namespace Stage

def hasPersister : Stage → Bool
  | persisterSet | meSet | initialised | loaded => true
  | _ => false

/-- `applyChan` is set and `readPersist` has run. -/
def hasInit : Stage → Bool
  | initialised | loaded => true
  | _ => false

/-- The steps that the main thread has taken. -/
def passed : Stage → ℕ
  | waiting => 0
  | connecting => 1
  | delaying => 2
  | peersSet => 3
  | persisterSet => 4
  | meSet => 5
  | initialised => 6
  | loaded => 7

theorem hasInit_iff {stage : Stage} :
    stage.hasInit = true ↔ 6 ≤ stage.passed := by
  cases stage <;> simp [hasInit, passed]

theorem hasPersister_of_hasInit {stage : Stage} (h : stage.hasInit = true) :
    stage.hasPersister = true := by
  cases stage <;> simp_all [hasInit, hasPersister]

end Stage

/-- A request of another server. -/
inductive RaftRequest (n : ℕ) (Image : Type) where
  | requestVote (args : RequestVoteArgs n)
  | appendEntries (args : AppendEntriesArgs n)
  | installSnapshot (args : InstallSnapshotRequest n Image)

namespace Raft

variable {n : ℕ} {Image : Type}

/-- `std::make_shared<Raft>()`: every member is zero. -/
def zeroed (me : Fin n) (persister : Persister n Image) : Raft n Image where
  me := ⟨0, me.pos⟩
  persister := persister
  currentTerm := 0
  votedFor := some ⟨0, me.pos⟩
  logs := []
  commitIndex := 0
  lastApplied := 0
  nextIndex := fun _ => 0
  matchIndex := fun _ => 0
  status := .follower
  lastSnapshotIncludeIndex := 0
  lastSnapshotIncludeTerm := 0

/-- The node behind a request, and whether the handler has started a
`pushMsgToKvServer` thread. -/
def dispatch (r : Raft n Image) :
    RaftRequest n Image → Exec n Image (Raft n Image × Bool)
  | .requestVote args => do
      let (r, _) ← r.requestVote args
      return (r, false)
  | .appendEntries args => do
      let (r, _) ← r.appendEntries1 args
      return (r, false)
  | .installSnapshot args => do
      let (r, _, msg) ← r.installSnapshot args
      return (r, msg.isSome)

/-- The handler gets to a call of `m_persister`. -/
def UsesPersister (r : Raft n Image) : RaftRequest n Image → Prop
  | .requestVote _ => True
  | .appendEntries args => r.currentTerm ≤ args.term
  | .installSnapshot args =>
      r.currentTerm < args.term ∨
        (r.currentTerm ≤ args.term ∧
          r.lastSnapshotIncludeIndex < args.lastSnapShotIncludeIndex)

instance (r : Raft n Image) (request : RaftRequest n Image) :
    Decidable (r.UsesPersister request) :=
  match request with
  | .requestVote _ => inferInstanceAs (Decidable True)
  | .appendEntries _ => inferInstanceAs (Decidable (_ ≤ _))
  | .installSnapshot _ => inferInstanceAs (Decidable (_ ∨ _))

end Raft

/-- A process whose constructor is running, or the files that it has left. -/
structure Startup (n : ℕ) (Image : Type) where
  me : Fin n
  alive : Bool
  serving : Bool
  stage : Stage
  node : Raft n Image
  /-- `pushMsgToKvServer` threads that have not pushed yet -/
  pushes : ℕ

inductive StartupAction (n : ℕ) (Image : Type) where
  /-- the process enters the constructor again -/
  | launch
  /-- the provider thread has registered the services and serves -/
  | serve
  /-- the main thread takes its next step -/
  | advance
  | request (request : RaftRequest n Image)
  | get (op : Op)
  | putAppend (op : Op)
  | pushMsgToKvServer
  | kill

def StartupAction.isRequest {n : ℕ} {Image : Type} :
    StartupAction n Image → Bool
  | .request _ => true
  | _ => false

inductive StartupEvent (n : ℕ) (Image : Type) where
  /-- a Raft handler started to execute on the node -/
  | handled (stage : Stage) (node : Raft n Image)
  /-- the locked part of `init` ran; the node right before and after it -/
  | initialised (before after : Raft n Image)
  /-- `Get` or `PutAppend` called `Start` -/
  | started (isLeader : Bool)
  /-- the process ended -/
  | ended

namespace Startup

variable {n : ℕ} {Image : Type}

/-- The process enters the constructor, with `persister` on disk. -/
def launch (me : Fin n) (persister : Persister n Image) : Startup n Image where
  me := me
  alive := true
  serving := false
  stage := .waiting
  node := Raft.zeroed me persister
  pushes := 0

/-- The process ends with `persister` on disk. -/
def die (b : Startup n Image) (persister : Persister n Image) :
    Startup n Image :=
  { launch b.me persister with alive := false }

/-- The next step of the main thread. -/
def advance (b : Startup n Image) :
    Option (Startup n Image × List (StartupEvent n Image)) :=
  match b.stage with
  | .waiting => some ({ b with stage := .connecting }, [])
  | .connecting => some ({ b with stage := .delaying }, [])
  | .delaying => some ({ b with stage := .peersSet }, [])
  | .peersSet => some ({ b with stage := .persisterSet }, [])
  | .persisterSet =>
      some ({ b with stage := .meSet, node := { b.node with me := b.me } }, [])
  | .meSet =>
      let r := Raft.init b.me b.node.persister
      some ({ b with stage := .initialised, node := r },
        [.initialised b.node r])
  | .initialised => some ({ b with stage := .loaded }, [])
  | .loaded => none

/-- A Raft handler executes. -/
def handle (b : Startup n Image) (request : RaftRequest n Image) :
    Startup n Image × List (StartupEvent n Image) :=
  if b.stage.hasPersister = false ∧ b.node.UsesPersister request then
    (b.die b.node.persister, [.handled b.stage b.node, .ended])
  else
    match b.node.dispatch request with
    | .error p => (b.die p, [.handled b.stage b.node, .ended])
    | .ok (r, pushed) =>
        ({ b with node := r, pushes := b.pushes + pushed.toNat },
          [.handled b.stage b.node])

/-- `Start`, as `PutAppend` calls it at once and `Get` after `ReadIndex` has
refused. -/
def start (b : Startup n Image) (op : Op) :
    Startup n Image × List (StartupEvent n Image) :=
  ({ b with node := (b.node.start op).1 },
    [.started (b.node.start op).2.isSome])

/-- A step of a running process. -/
def act (b : Startup n Image) : StartupAction n Image →
    Option (Startup n Image × List (StartupEvent n Image))
  | .launch => none
  | .serve => if b.serving then none else some ({ b with serving := true }, [])
  | .advance => b.advance
  | .request request => if b.serving then some (b.handle request) else none
  | .get op => if b.serving then some (b.start op) else none
  | .putAppend op => if b.serving then some (b.start op) else none
  | .pushMsgToKvServer =>
      if b.pushes = 0 then none
      else if b.stage.hasInit then some ({ b with pushes := b.pushes - 1 }, [])
      else some (b.die b.node.persister, [.ended])
  | .kill => some (b.die b.node.persister, [.ended])

def step (b : Startup n Image) (a : StartupAction n Image) :
    Option (Startup n Image × List (StartupEvent n Image)) :=
  if b.alive then b.act a
  else
    match a with
    | .launch => some (launch b.me b.node.persister, [])
    | _ => none

abbrev run : Startup n Image → List (StartupAction n Image) →
    Option (Startup n Image × List (StartupEvent n Image)) :=
  Transition.run step

/-! ## What a request does to the files -/

/-- Between the assignment of `m_persister` and the lock of `init` a vote
replaces whatever log is stored by the empty one. -/
theorem request_vote_erases_log {b b' : Startup n Image}
    {args : RequestVoteArgs n} {es : List (StartupEvent n Image)}
    (hpersister : b.stage.hasPersister = true)
    (hnode : b.node.logs = [])
    (hhandle : b.handle (.requestVote args) = (b', es)) :
    b'.node.persister.stored.logs = [] := by
  rw [handle, if_neg (by simp [hpersister])] at hhandle
  split at hhandle
  · next p herror =>
      simp only [Raft.dispatch, exec_bind_eq_error, exec_pure_ne_error,
        and_false, exists_false, or_false] at herror
      exact (Raft.requestVote_ne_error herror).elim
  · next r pushed hok =>
      simp only [Raft.dispatch, exec_bind_eq_ok, exec_pure_eq_ok] at hok
      obtain ⟨⟨r', reply⟩, hvote, heq⟩ := hok
      obtain ⟨rfl, -⟩ : r' = r ∧ _ := by simpa using heq
      obtain ⟨rfl, -⟩ : _ = b' ∧ _ := by simpa using hhandle
      have hlogs : r'.logs = [] ∧ r'.Stored := by
        have hstored := Raft.requestVote_stored hvote
        rcases Raft.requestVote_eq_ok hvote with ⟨-, hquiet, -⟩ | hgrants
        · exact ⟨hquiet.log.logs.trans hnode, hstored⟩
        · exact ⟨hgrants.log.logs.trans hnode, hstored⟩
      change r'.persister.stored.logs = []
      rw [hlogs.2]
      exact hlogs.1

/-! ## The order of requests and constructor -/

/-- Every Raft handler executes with a persister and on a node that has loaded
the stored term, vote and log. -/
def HandlersReady (es : List (StartupEvent n Image)) : Prop :=
  ∀ stage r, .handled stage r ∈ es →
    stage.hasPersister = true ∧ stage.hasInit = true ∧ r.Stored

/-- `init` keeps the term, vote and log that handlers have given the node
before. -/
def InitKeeps (es : List (StartupEvent n Image)) : Prop :=
  ∀ before after, .initialised before after ∈ es →
    before.persistData =
        (Raft.zeroed before.me before.persister).persistData ∨
      after.persistData = before.persistData

structure HandlersInitialised (es : List (StartupEvent n Image)) : Prop where
  ready : HandlersReady es
  kept : InitKeeps es

/-- The steps of the main thread since the process was launched. -/
def mainSteps (k : ℕ) : StartupAction n Image → ℕ
  | .launch => 0
  | .advance => k + 1
  | _ => k

/-- Every request of another server comes behind the six steps of the main
thread that end with the release of the lock in `init`; `k` steps have been
taken before. -/
def AwaitsInit : ℕ → List (StartupAction n Image) → Prop
  | _, [] => True
  | k, a :: as =>
      (a.isRequest = true → 6 ≤ k) ∧ AwaitsInit (mainSteps k a) as

instance AwaitsInit.decidable : ∀ (k : ℕ) (as : List (StartupAction n Image)),
    Decidable (AwaitsInit k as)
  | _, [] => inferInstanceAs (Decidable True)
  | k, a :: as =>
      have := AwaitsInit.decidable (mainSteps k a) as
      inferInstanceAs (Decidable (_ ∧ _))

/-- `k` steps of the main thread have been taken.  Until `init` runs, the node
has its initial values or has stored what it has, and afterwards it has what is
stored. -/
structure Paced (b : Startup n Image) (k : ℕ) : Prop where
  passed : b.alive = true → b.stage.passed = k
  untouched : b.stage.hasInit = false →
    b.node.persistData = (Raft.zeroed b.me b.node.persister).persistData ∨
      b.node.Stored
  loaded : b.stage.hasInit = true → b.node.Stored

theorem zeroed_data (me me' : Fin n) (p p' : Persister n Image) :
    (Raft.zeroed me p).persistData = (Raft.zeroed me' p').persistData := rfl

/-- A handler stores what it changes. -/
theorem dispatch_saved {r r' : Raft n Image} {request : RaftRequest n Image}
    {pushed : Bool} (h : r.dispatch request = .ok (r', pushed)) :
    r.Saved r' := by
  cases request with
  | requestVote args =>
      simp only [Raft.dispatch, exec_bind_eq_ok, exec_pure_eq_ok] at h
      obtain ⟨⟨r₁, reply⟩, hvote, heq⟩ := h
      obtain ⟨rfl, -⟩ : r₁ = r' ∧ _ := by simpa using heq
      exact .inl (Raft.requestVote_stored hvote)
  | appendEntries args =>
      simp only [Raft.dispatch, exec_bind_eq_ok, exec_pure_eq_ok] at h
      obtain ⟨⟨r₁, reply⟩, happend, heq⟩ := h
      obtain ⟨rfl, -⟩ : r₁ = r' ∧ _ := by simpa using heq
      rcases Raft.appendEntries1_eq_ok happend with ⟨-, -, hsaved⟩ | haccepts
      · exact hsaved
      · exact .inl haccepts.stored
  | installSnapshot args =>
      simp only [Raft.dispatch, exec_bind_eq_ok, exec_pure_eq_ok] at h
      obtain ⟨⟨r₁, reply, msg⟩, hinstall, heq⟩ := h
      obtain ⟨rfl, -⟩ : r₁ = r' ∧ _ := by simpa using heq
      rcases Raft.installSnapshot_eq_ok hinstall with ⟨-, hsaved⟩ | hinstalls
      · exact hsaved
      · exact .inl hinstalls.stored

theorem start_saved (r : Raft n Image) (op : Op) : r.Saved (r.start op).1 := by
  rcases r.start_effect op with h | ⟨-, h⟩
  · rw [h]
    exact .refl r
  · rw [h]
    exact .inl (Raft.stored_persist _)

theorem paced_launch (me : Fin n) (disk : Persister n Image) :
    (launch me disk).Paced 0 :=
  ⟨fun _ => rfl, fun _ => .inl rfl, nofun⟩

theorem paced_die (b : Startup n Image) (disk : Persister n Image) (k : ℕ) :
    (b.die disk).Paced k :=
  ⟨nofun, fun _ => .inl rfl, nofun⟩

/-- The stage stays, and what the node takes over it stores. -/
theorem Paced.node {b b' : Startup n Image} {k : ℕ} (h : b.Paced k)
    (halive : b.alive = true) (hstage : b'.stage = b.stage)
    (hsaved : b.node.Saved b'.node) : b'.Paced k := by
  refine ⟨fun _ => hstage ▸ h.passed halive, fun hinit => ?_, fun hinit => ?_⟩
  · rcases hsaved with hstored | ⟨hdisk, hdata⟩
    · exact .inr hstored
    · rcases h.untouched (hstage ▸ hinit) with hzero | hstored
      · exact .inl (hdata.trans (hzero.trans (zeroed_data ..)))
      · exact .inr (Raft.Saved.stored (.inr ⟨hdisk, hdata⟩) hstored)
  · exact hsaved.stored (h.loaded (hstage ▸ hinit))

/-- A handler leaves the process running with what it stored, or ends it. -/
theorem handle_eq {b b' : Startup n Image} {request : RaftRequest n Image}
    {es : List (StartupEvent n Image)} (h : b.handle request = (b', es)) :
    ((∃ p, b' = b.die p) ∨
      (b'.stage = b.stage ∧ b.node.Saved b'.node)) ∧
      (es = [.handled b.stage b.node] ∨
        es = [.handled b.stage b.node, .ended]) := by
  unfold handle at h
  split at h
  · obtain ⟨rfl, rfl⟩ : _ = b' ∧ _ = es := by simpa using h
    exact ⟨.inl ⟨_, rfl⟩, .inr rfl⟩
  · split at h
    · next p _ =>
        obtain ⟨rfl, rfl⟩ : _ = b' ∧ _ = es := by simpa using h
        exact ⟨.inl ⟨p, rfl⟩, .inr rfl⟩
    · next r pushed hok =>
        obtain ⟨rfl, rfl⟩ : _ = b' ∧ _ = es := by simpa using h
        exact ⟨.inr ⟨rfl, dispatch_saved hok⟩, .inl rfl⟩

/-- The main thread reports its step only when it runs `init`. -/
theorem advance_eq_some {b b' : Startup n Image}
    {es : List (StartupEvent n Image)} (h : b.advance = some (b', es)) :
    b'.stage.passed = b.stage.passed + 1 ∧
      ((b.stage = .meSet ∧ b'.node = Raft.init b.me b.node.persister ∧
        es = [.initialised b.node b'.node]) ∨
      (b'.stage.hasInit = b.stage.hasInit ∧
        b'.node.persister = b.node.persister ∧
        b'.node.persistData = b.node.persistData ∧ es = [])) := by
  unfold advance at h
  split at h
  case h_6 hstage =>
    obtain ⟨rfl, rfl⟩ := Prod.mk.inj (Option.some.inj h)
    exact ⟨by simp [hstage, Stage.passed], .inl ⟨hstage, rfl, rfl⟩⟩
  case h_8 => simp at h
  all_goals
    next hstage =>
      obtain ⟨rfl, rfl⟩ := Prod.mk.inj (Option.some.inj h)
      exact ⟨by simp [hstage, Stage.passed],
        .inr ⟨by simp [hstage, Stage.hasInit], rfl, rfl, rfl⟩⟩

theorem Paced.advance {b b' : Startup n Image} {k : ℕ}
    {es : List (StartupEvent n Image)} (h : b.Paced k)
    (halive : b.alive = true) (hstep : b.advance = some (b', es)) :
    b'.Paced (k + 1) := by
  obtain ⟨hpassed, ⟨hstage, hnode, -⟩ | ⟨hinit, hdisk, hdata, -⟩⟩ :=
    advance_eq_some hstep
  · have hstored : b'.node.Stored := hnode ▸ Raft.stored_init _ _
    exact ⟨fun _ => by rw [hpassed, h.passed halive], fun _ => .inr hstored,
      fun _ => hstored⟩
  · have hsaved : b.node.Saved b'.node :=
      .inr ⟨congrArg Persister.raftState hdisk, hdata⟩
    refine ⟨fun _ => by rw [hpassed, h.passed halive], fun hnot => ?_,
      fun hdone => hsaved.stored (h.loaded (hinit ▸ hdone))⟩
    rcases h.untouched (hinit ▸ hnot) with hzero | hstored
    · exact .inl (hdata.trans (hzero.trans (zeroed_data ..)))
    · exact .inr (hsaved.stored hstored)

/-- Neither a handler nor `init` is reported. -/
def Silent (es : List (StartupEvent n Image)) : Prop :=
  ∀ e ∈ es, e = .ended ∨ ∃ isLeader, e = .started isLeader

/-- What a step does. -/
inductive StartupStep (b : Startup n Image) :
    StartupAction n Image → Startup n Image →
      List (StartupEvent n Image) → Prop
  | launch :
      StartupStep b .launch (Startup.launch b.me b.node.persister) []
  | advance {b' : Startup n Image} {es : List (StartupEvent n Image)}
      (halive : b.alive = true) (h : b.advance = some (b', es)) :
      StartupStep b .advance b' es
  | request {request : RaftRequest n Image} {b' : Startup n Image}
      {es : List (StartupEvent n Image)} (halive : b.alive = true)
      (h : b.handle request = (b', es)) :
      StartupStep b (.request request) b' es
  | beside {a : StartupAction n Image} {b' : Startup n Image}
      {es : List (StartupEvent n Image)} (halive : b.alive = true)
      (hrequest : a.isRequest = false) (hsteps : ∀ k, mainSteps k a = k)
      (hstage : b'.stage = b.stage) (hsaved : b.node.Saved b'.node)
      (hsilent : Silent es) : StartupStep b a b' es
  | ends {a : StartupAction n Image} (hrequest : a.isRequest = false)
      (hsteps : ∀ k, mainSteps k a = k) :
      StartupStep b a (b.die b.node.persister) [.ended]

theorem startupStep {b b' : Startup n Image} {a : StartupAction n Image}
    {es : List (StartupEvent n Image)} (hstep : b.step a = some (b', es)) :
    StartupStep b a b' es := by
  unfold Startup.step at hstep
  split at hstep
  · next halive =>
      cases a with
      | launch => simp [act] at hstep
      | advance => exact .advance halive hstep
      | request request =>
          simp only [act, Option.ite_none_right_eq_some] at hstep
          exact .request halive (Option.some.inj hstep.2)
      | serve =>
          simp only [act, Option.ite_none_left_eq_some] at hstep
          obtain ⟨rfl, rfl⟩ := Prod.mk.inj (Option.some.inj hstep.2)
          exact .beside halive rfl (fun _ => rfl) rfl (.refl b.node)
            (by simp [Silent])
      | get op | putAppend op =>
          simp only [act, Option.ite_none_right_eq_some] at hstep
          obtain ⟨rfl, rfl⟩ := Prod.mk.inj (Option.some.inj hstep.2)
          exact .beside halive rfl (fun _ => rfl) rfl (start_saved b.node op)
            fun e he => .inr ⟨_, List.mem_singleton.mp he⟩
      | pushMsgToKvServer =>
          simp only [act, Option.ite_none_left_eq_some] at hstep
          split at hstep
          · obtain ⟨rfl, rfl⟩ := Prod.mk.inj (Option.some.inj hstep.2)
            exact .beside halive rfl (fun _ => rfl) rfl (.refl b.node)
              (by simp [Silent])
          · obtain ⟨rfl, rfl⟩ := Prod.mk.inj (Option.some.inj hstep.2)
            exact .ends rfl fun _ => rfl
      | kill =>
          obtain ⟨rfl, rfl⟩ := Prod.mk.inj (Option.some.inj hstep)
          exact .ends rfl fun _ => rfl
  · cases a with
    | launch =>
        obtain ⟨rfl, rfl⟩ := Prod.mk.inj (Option.some.inj hstep)
        exact .launch
    | _ => simp at hstep

/-- Each step of the main thread counts, and nothing else moves the stage
except a new launch. -/
theorem Paced.step {b b' : Startup n Image} {a : StartupAction n Image} {k : ℕ}
    {es : List (StartupEvent n Image)} (h : b.Paced k)
    (hstep : b.step a = some (b', es)) : b'.Paced (mainSteps k a) := by
  cases startupStep hstep with
  | launch => exact paced_launch b.me b.node.persister
  | advance halive hadvance => exact h.advance halive hadvance
  | request halive hhandle =>
      obtain ⟨⟨p, rfl⟩ | ⟨hstage, hsaved⟩, -⟩ := handle_eq hhandle
      · exact paced_die b p k
      · exact h.node halive hstage hsaved
  | beside halive _ hsteps hstage hsaved =>
      rw [hsteps]
      exact h.node halive hstage hsaved
  | ends => exact paced_die b b.node.persister _

/-! ## What the events report -/

theorem Silent.not_handled {es : List (StartupEvent n Image)} (h : Silent es)
    (stage : Stage) (r : Raft n Image) : .handled stage r ∉ es := fun hmem => by
  simpa using h _ hmem

theorem Silent.not_initialised {es : List (StartupEvent n Image)}
    (h : Silent es) (before after : Raft n Image) :
    .initialised before after ∉ es := fun hmem => by
  simpa using h _ hmem

/-- A handler is reported for each request, with the node that it finds. -/
theorem handled_mem_iff {b b' : Startup n Image} {a : StartupAction n Image}
    {es : List (StartupEvent n Image)} (hstep : b.step a = some (b', es))
    (stage : Stage) (r : Raft n Image) : .handled stage r ∈ es ↔
      b.alive = true ∧ a.isRequest = true ∧ stage = b.stage ∧ r = b.node := by
  cases startupStep hstep with
  | launch => simp [StartupAction.isRequest]
  | advance _ hadvance =>
      obtain ⟨-, ⟨-, -, rfl⟩ | ⟨-, -, -, rfl⟩⟩ := advance_eq_some hadvance <;>
        simp [StartupAction.isRequest]
  | request halive hhandle =>
      obtain ⟨-, rfl | rfl⟩ := handle_eq hhandle <;>
        simp [StartupAction.isRequest, halive]
  | beside _ hrequest _ _ _ hsilent =>
      simp [hrequest, hsilent.not_handled]
  | ends hrequest => simp [hrequest]

/-- `init` is reported by the main thread alone. -/
theorem initialised_mem {b b' : Startup n Image} {a : StartupAction n Image}
    {es : List (StartupEvent n Image)} (hstep : b.step a = some (b', es))
    {before after : Raft n Image} (hmem : .initialised before after ∈ es) :
    b.stage = .meSet ∧ before = b.node ∧
      after = Raft.init b.me b.node.persister := by
  cases startupStep hstep with
  | launch => simp at hmem
  | advance _ hadvance =>
      obtain ⟨-, ⟨hstage, hnode, rfl⟩ | ⟨-, -, -, rfl⟩⟩ :=
        advance_eq_some hadvance
      · obtain ⟨rfl, rfl⟩ : before = b.node ∧ after = b'.node := by
          simpa using hmem
        exact ⟨hstage, rfl, hnode⟩
      · simp at hmem
  | request _ hhandle =>
      obtain ⟨-, rfl | rfl⟩ := handle_eq hhandle <;> simp at hmem
  | beside _ _ _ _ _ hsilent => exact absurd hmem (hsilent.not_initialised _ _)
  | ends => simp at hmem

/-- Whatever a handler has given the node before `init`, it has stored, and
`init` reads it back. -/
theorem init_keeps {b : Startup n Image} {k : ℕ} (h : b.Paced k)
    (hstage : b.stage = .meSet) :
    b.node.persistData =
        (Raft.zeroed b.node.me b.node.persister).persistData ∨
      (Raft.init b.me b.node.persister).persistData = b.node.persistData := by
  rcases h.untouched (by simp [hstage, Stage.hasInit]) with hzero | hstored
  · exact .inl (hzero.trans (zeroed_data ..))
  · exact .inr ((Raft.persistData_init b.me b.node.persister).trans hstored)

/-- A handler that runs behind the steps of the main thread finds the stored
state loaded, and no other handler does. -/
theorem Paced.handled_iff {b b' : Startup n Image} {a : StartupAction n Image}
    {k : ℕ} {es : List (StartupEvent n Image)} (h : b.Paced k)
    (hstep : b.step a = some (b', es)) :
    HandlersReady es ↔ (a.isRequest = true → 6 ≤ k) := by
  have hhandled := handled_mem_iff hstep
  constructor
  · intro hready hrequest
    have halive : b.alive = true := by
      cases startupStep hstep with
      | request halive => exact halive
      | launch | advance => simp [StartupAction.isRequest] at hrequest
      | beside halive => exact halive
      | ends hnot => simp [hnot] at hrequest
    obtain ⟨-, hinit, -⟩ := hready b.stage b.node
      ((hhandled _ _).mpr ⟨halive, hrequest, rfl, rfl⟩)
    exact h.passed halive ▸ Stage.hasInit_iff.mp hinit
  · intro hlate stage r hmem
    obtain ⟨halive, hrequest, rfl, rfl⟩ := (hhandled stage r).mp hmem
    have hinit : b.stage.hasInit = true :=
      Stage.hasInit_iff.mpr (h.passed halive ▸ hlate hrequest)
    exact ⟨Stage.hasPersister_of_hasInit hinit, hinit, h.loaded hinit⟩

theorem ready_iff {as : List (StartupAction n Image)} {b b' : Startup n Image}
    {k : ℕ} {es : List (StartupEvent n Image)} (h : b.Paced k)
    (hrun : b.run as = some (b', es)) :
    HandlersReady es ↔ AwaitsInit k as := by
  induction as generalizing b k es with
  | nil =>
      obtain ⟨-, rfl⟩ : b = b' ∧ [] = es := by simpa using hrun
      simp [HandlersReady, AwaitsInit]
  | cons a as ih =>
      obtain ⟨b₁, es₁, es₂, hstep, hrest, rfl⟩ := run_cons_eq_some.mp hrun
      rw [AwaitsInit, ← ih (h.step hstep) hrest, ← h.handled_iff hstep]
      simp only [HandlersReady, List.mem_append]
      constructor
      · intro hready
        exact ⟨fun stage r hmem => hready stage r (.inl hmem),
          fun stage r hmem => hready stage r (.inr hmem)⟩
      · rintro ⟨hfirst, hlater⟩ stage r (hmem | hmem)
        · exact hfirst stage r hmem
        · exact hlater stage r hmem

/-- In every run `init` keeps what handlers have given the node before. -/
theorem kept_of_run {as : List (StartupAction n Image)} {b b' : Startup n Image}
    {k : ℕ} {es : List (StartupEvent n Image)} (h : b.Paced k)
    (hrun : b.run as = some (b', es)) : InitKeeps es := by
  induction as generalizing b k es with
  | nil =>
      obtain ⟨-, rfl⟩ : b = b' ∧ [] = es := by simpa using hrun
      simp [InitKeeps]
  | cons a as ih =>
      obtain ⟨b₁, es₁, es₂, hstep, hrest, rfl⟩ := run_cons_eq_some.mp hrun
      intro before after hmem
      rcases List.mem_append.mp hmem with hmem | hmem
      · obtain ⟨hstage, rfl, rfl⟩ := initialised_mem hstep hmem
        exact init_keeps h hstage
      · exact ih (h.step hstep) hrest before after hmem

/-- The process may end and be launched again at any time.  `init` always keeps
what handlers accepted, and every handler runs on an initialised node exactly
when the schedule holds the requests back until the main thread is through
`init`. -/
theorem handlers_initialised_iff {me : Fin n} {disk : Persister n Image}
    {as : List (StartupAction n Image)} {b : Startup n Image}
    {es : List (StartupEvent n Image)}
    (hrun : (launch me disk).run as = some (b, es)) :
    InitKeeps es ∧ (HandlersInitialised es ↔ AwaitsInit 0 as) := by
  have hkept := kept_of_run (paced_launch me disk) hrun
  have hready := ready_iff (paced_launch me disk) hrun
  exact ⟨hkept, fun h => hready.mp h.ready, fun h => ⟨hready.mpr h, hkept⟩⟩

/-- The stored state of a server that has voted in term 3. -/
def votedDisk : Persister 3 Unit where
  raftState := some
    { currentTerm := 3
      votedFor := some 2
      lastSnapshotIncludeIndex := 0
      lastSnapshotIncludeTerm := 0
      logs := [⟨Raft.noop 1, 1, 1⟩] }
  snapshot := none

/-- The constructor runs to its end, and a request for a vote comes after.  The
process ends and is launched again. -/
def calmStart : List (StartupAction 3 Unit) :=
  [.serve, .get (Raft.noop 0), .advance, .advance, .advance, .advance, .advance,
    .advance, .request (.requestVote ⟨4, 2, 1, 1⟩), .advance, .kill, .launch,
    .serve, .advance]

theorem handlers_initialised_calm :
    ∃ b es, (launch 1 votedDisk).run calmStart = some (b, es) ∧
      HandlersInitialised es := by
  obtain ⟨b, es, hrun, -⟩ : ∃ b es,
      (launch 1 votedDisk).run calmStart = some (b, es) ∧ True := by
    decide +kernel
  exact ⟨b, es, hrun,
    (handlers_initialised_iff hrun).2.mpr (by decide +kernel)⟩

/-- Server 1 restarts.  A request for a vote reaches it while the constructor
sleeps, and after the next launch another one reaches it inside `init`. -/
def hastyStart : List (StartupAction 3 Unit) :=
  [.serve, .request (.requestVote ⟨3, 0, 1, 1⟩), .launch,
    .serve, .advance, .advance, .advance, .advance,
    .request (.requestVote ⟨3, 0, 1, 1⟩), .advance, .advance]

/-- The first request ends the process.  The second gets the vote that term 3
has already given away, and the stored entry is lost. -/
theorem request_before_init :
    ∃ b es, (launch 1 votedDisk).run hastyStart = some (b, es) ∧
      ¬HandlersInitialised es ∧ b.node.currentTerm = 3 ∧
      b.node.votedFor = some 0 ∧ b.node.logs = [] := by
  obtain ⟨b, es, hrun, hearly, hterm, hvote, hlogs⟩ : ∃ b es,
      (launch 1 votedDisk).run hastyStart = some (b, es) ∧
        ¬AwaitsInit 0 hastyStart ∧ b.node.currentTerm = 3 ∧
        b.node.votedFor = some 0 ∧ b.node.logs = [] := by
    decide +kernel
  have hready := ready_iff (paced_launch 1 votedDisk) hrun
  exact ⟨b, es, hrun, fun h => hearly (hready.mp h.ready), hterm, hvote, hlogs⟩

end Startup

end KVRaftStorage
