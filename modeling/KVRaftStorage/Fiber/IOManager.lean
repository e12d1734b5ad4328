import KVRaftStorage.Support.Transition
import Mathlib.Data.Finset.Insert
import Mathlib.Data.Finset.Erase
import Mathlib.Data.Finset.SDiff
import Mathlib.Logic.Function.Basic

/-!
# The IO manager

`class IOManager` with the descriptors that fibers wait for.  Each critical
section, under the lock of the table or under the mutex of one `FdContext`, is
one step; a call that has left one section and not yet entered the next is
remembered for its thread.  The kernel keeps its own list of interest, and
`epoll_ctl` may fail.  A null pointer ends the process, and so does a failed
`CondPanic` unless the build leaves assertions out, as a Release build does.

The pipe that wakes the threads and the timers are left out.
-/

namespace KVRaftStorage

/-- `READ` is `EPOLLIN`, `WRITE` is `EPOLLOUT`. -/
inductive IoEvent where
  | read
  | write
deriving DecidableEq

/-- Who waits for one event of a descriptor. -/
structure EventContext where
  /-- null if no scheduler runs the thread that has called `addEvent` -/
  scheduler : Option ℕ
  fiber : Option ℕ
  cb : Option ℕ
deriving DecidableEq

namespace EventContext

/-- What `resetEveContext` leaves. -/
def null : EventContext where
  scheduler := none
  fiber := none
  cb := none

/-- What `triggerEvent` hands to the scheduler. -/
def task (ctx : EventContext) : Option ℕ :=
  ctx.cb.or ctx.fiber

end EventContext

/-- What `addEvent` knows of its caller. -/
structure IoCaller where
  /-- `Scheduler::GetThis()` -/
  scheduler : Option ℕ
  /-- is a callback passed? -/
  callback : Bool
deriving DecidableEq

/-- The end of `addEvent`: the callback or the running fiber gets the name
`waiter`. -/
def EventContext.assign (ctx : EventContext) (caller : IoCaller)
    (waiter : ℕ) : EventContext :=
  if caller.callback then
    { ctx with scheduler := caller.scheduler, cb := some waiter }
  else
    { ctx with scheduler := caller.scheduler, fiber := some waiter }

structure FdContext where
  fd : ℕ
  events : Finset IoEvent
  /-- the members `read` and `write` -/
  eveContext : IoEvent → EventContext

/-- One `epoll_event` of a batch. -/
structure Ready where
  /-- `data.ptr` -/
  context : ℕ
  events : Finset IoEvent
  /-- `EPOLLERR` or `EPOLLHUP` -/
  error : Bool
deriving DecidableEq

/-- A call between two critical sections, with the context that it holds. -/
inductive IoCall where
  /-- `addEvent` that has found the table too small -/
  | addSmall (fd : ℕ) (event : IoEvent) (caller : IoCaller)
  | addEvent (context fd : ℕ) (event : IoEvent) (caller : IoCaller)
  | delEvent (context fd : ℕ) (event : IoEvent)
  | cancelEvent (context fd : ℕ) (event : IoEvent)
  | cancelAll (context fd : ℕ)
  /-- the rest of a batch -/
  | idle (batch : List Ready)
deriving DecidableEq

structure IOManager where
  /-- is the process built with assertions? -/
  asserts : Bool
  /-- the objects that have been allocated, by their address -/
  contexts : ℕ → FdContext
  allocated : ℕ
  /-- the table; an empty slot is a null pointer -/
  fdContexts : List (Option ℕ)
  /-- negative if it has underflowed -/
  pendingEventCnt : ℤ
  /-- what the kernel reports for a descriptor, and with which pointer -/
  interest : ℕ → Option (ℕ × Finset IoEvent)
  /-- the calls under way, by their threads -/
  calls : ℕ → Option IoCall
  nextWaiter : ℕ
  aborted : Bool

/-- What happens to the waiters. -/
inductive IoNote where
  | registered (waiter : ℕ)
  /-- `triggerEvent` is called; is the event registered? -/
  | triggered (context : ℕ) (event : IoEvent) (registered : Bool)
  | scheduled (waiter : ℕ)
  | removed (waiter : ℕ)
deriving DecidableEq

inductive EpollOp where
  | add
  | mod
  | del

namespace IOManager

def setContext (m : IOManager) (p : ℕ) (ctx : FdContext) : IOManager :=
  { m with contexts := Function.update m.contexts p ctx }

def setCall (m : IOManager) (thread : ℕ) (call : Option IoCall) : IOManager :=
  { m with calls := Function.update m.calls thread call }

def abort (m : IOManager) : IOManager := { m with aborted := true }

/-! ## The table -/

/-- `new FdContext` for a slot. -/
def newContext (m : IOManager) (fd : ℕ) : IOManager :=
  { m with
    contexts := Function.update m.contexts m.allocated
      { fd := fd, events := ∅, eveContext := fun _ => .null }
    allocated := m.allocated + 1 }

/-- The loop of `contextResize` from the slot `i` on. -/
def fillSlots : List (Option ℕ) → ℕ → IOManager →
    List (Option ℕ) × IOManager
  | [], _, m => ([], m)
  | some p :: slots, i, m =>
      let (slots, m) := fillSlots slots (i + 1) m
      (some p :: slots, m)
  | none :: slots, i, m =>
      let (slots, m') := fillSlots slots (i + 1) (m.newContext i)
      (some m.allocated :: slots, m')

def contextResize (m : IOManager) (size : ℕ) : IOManager :=
  let (slots, m) := fillSlots (m.fdContexts.take size ++
    List.replicate (size - m.fdContexts.length) none) 0 m
  { m with fdContexts := slots }

/-- The constructor. -/
def new (asserts : Bool) : IOManager :=
  contextResize
    { asserts := asserts
      contexts := fun _ =>
        { fd := 0, events := ∅, eveContext := fun _ => .null }
      allocated := 0
      fdContexts := []
      pendingEventCnt := 0
      interest := fun _ => none
      calls := fun _ => none
      nextWaiter := 0
      aborted := false } 32

/-- `fdContexts_[fd]`, for the call that goes on with it. -/
def takeSlot (m : IOManager) (thread fd : ℕ) (call : ℕ → IoCall) : IOManager :=
  match m.fdContexts[fd]? with
  | some (some p) => m.setCall thread (some (call p))
  | some none => m.abort
  | none => m.abort

/-! ## The kernel -/

/-- `epoll_ctl`, or `none` if it fails.  It fails if the descriptor is there
already or not at all, and it may fail for other reasons. -/
def epollCtl (m : IOManager) (succeeds : Bool) (op : EpollOp) (fd p : ℕ)
    (events : Finset IoEvent) : Option IOManager :=
  if succeeds then
    match op, m.interest fd with
    | .add, none => some { m with
        interest := Function.update m.interest fd (some (p, events)) }
    | .mod, some _ => some { m with
        interest := Function.update m.interest fd (some (p, events)) }
    | .del, some _ => some { m with
        interest := Function.update m.interest fd none }
    | .add, some _ => none
    | .mod, none => none
    | .del, none => none
  else none

/-- The kernel may report this. -/
def Reports (m : IOManager) (ready : Ready) : Prop :=
  ∃ events, m.interest (m.contexts ready.context).fd =
    some (ready.context, events) ∧ ready.events ⊆ events

instance (m : IOManager) (ready : Ready) : Decidable (m.Reports ready) :=
  match h : m.interest (m.contexts ready.context).fd with
  | none => .isFalse (by rintro ⟨events, hevents, -⟩; simp [h] at hevents)
  | some (p, events) =>
      if heq : p = ready.context ∧ ready.events ⊆ events then
        .isTrue ⟨events, by rw [h, heq.1], heq.2⟩
      else .isFalse (by
        rintro ⟨events', hevents, hsub⟩
        rw [h, Option.some.injEq, Prod.mk.injEq] at hevents
        exact heq ⟨hevents.1, hevents.2 ▸ hsub⟩)

/-! ## The events of a context -/

/-- An assertion that fails does not clear anything; a null scheduler is found
after the event has been cleared. -/
def triggerEvent (m : IOManager) (p : ℕ) (event : IoEvent) :
    IOManager × List IoNote :=
  let ctx := m.contexts p
  let note := IoNote.triggered p event (event ∈ ctx.events)
  if m.asserts ∧ event ∉ ctx.events then (m.abort, [note])
  else
    let ctx' := { ctx with events := ctx.events.erase event }
    match (ctx.eveContext event).scheduler with
    | none => ((m.setContext p ctx').abort, [note])
    | some _ =>
        (m.setContext p { ctx' with
          eveContext := Function.update ctx.eveContext event .null },
          note :: (ctx.eveContext event).task.toList.map .scheduled)

/-- `triggerEvent` and the decrement behind it. -/
def triggerPending (m : IOManager) (p : ℕ) (event : IoEvent) :
    IOManager × List IoNote :=
  let (m, notes) := m.triggerEvent p event
  if m.aborted then (m, notes)
  else ({ m with pendingEventCnt := m.pendingEventCnt - 1 }, notes)

/-- `triggerPending` for `READ` and then for `WRITE`, as far as the conditions
hold. -/
def triggerBoth (m : IOManager) (p : ℕ) (read : Bool)
    (write : IOManager → Bool) : IOManager × List IoNote :=
  let (m, notes) := if read then m.triggerPending p .read else (m, [])
  if m.aborted then (m, notes)
  else if write m then
    let (m, notes') := m.triggerPending p .write
    (m, notes ++ notes')
  else (m, notes)

/-- The part of `addEvent` under the mutex of the context. -/
def addLocked (m : IOManager) (succeeds : Bool) (p fd : ℕ) (event : IoEvent)
    (caller : IoCaller) : IOManager × List IoNote :=
  let ctx := m.contexts p
  if m.asserts ∧ event ∈ ctx.events then (m.abort, [])
  else
    match m.epollCtl succeeds (if ctx.events = ∅ then .add else .mod) fd p
        (insert event ctx.events) with
    | none => (m, [])
    | some m =>
        let ctx' := { ctx with events := insert event ctx.events }
        let m : IOManager := { m.setContext p ctx' with
          pendingEventCnt := m.pendingEventCnt + 1 }
        if m.asserts ∧ ctx.eveContext event ≠ .null then (m.abort, [])
        else
          ({ m.setContext p { ctx' with
              eveContext := Function.update ctx.eveContext event
                ((ctx.eveContext event).assign caller m.nextWaiter) } with
            nextWaiter := m.nextWaiter + 1 },
            [.registered m.nextWaiter])

def delLocked (m : IOManager) (succeeds : Bool) (p fd : ℕ) (event : IoEvent) :
    IOManager × List IoNote :=
  let ctx := m.contexts p
  if event ∉ ctx.events then (m, [])
  else
    let newEvents := ctx.events.erase event
    match m.epollCtl succeeds (if newEvents = ∅ then .del else .mod) fd p
        newEvents with
    | none => (m, [])
    | some m =>
        ({ m.setContext p { ctx with
            events := newEvents
            eveContext := Function.update ctx.eveContext event .null } with
          pendingEventCnt := m.pendingEventCnt - 1 },
          (ctx.eveContext event).task.toList.map .removed)

def cancelLocked (m : IOManager) (succeeds : Bool) (p fd : ℕ)
    (event : IoEvent) : IOManager × List IoNote :=
  let ctx := m.contexts p
  if event ∉ ctx.events then (m, [])
  else
    let newEvents := ctx.events.erase event
    match m.epollCtl succeeds (if newEvents = ∅ then .del else .mod) fd p
        newEvents with
    | none => (m, [])
    | some m => m.triggerPending p event

def cancelAllLocked (m : IOManager) (succeeds : Bool) (p fd : ℕ) :
    IOManager × List IoNote :=
  if (m.contexts p).events = ∅ then (m, [])
  else
    match m.epollCtl succeeds .del fd p ∅ with
    | none => (m, [])
    | some m =>
        let (m, notes) := m.triggerBoth p (.read ∈ (m.contexts p).events)
          (fun m => .write ∈ (m.contexts p).events)
        if m.asserts ∧ (m.contexts p).events ≠ ∅ then (m.abort, notes)
        else (m, notes)

/-- `real_events`. -/
def realEvents (m : IOManager) (ready : Ready) : Finset IoEvent :=
  if ready.error then ready.events ∪ (m.contexts ready.context).events
  else ready.events

/-- One turn of the loop of `idle` over its batch. -/
def handleReady (m : IOManager) (succeeds : Bool) (ready : Ready) :
    IOManager × List IoNote :=
  let ctx := m.contexts ready.context
  let real := m.realEvents ready
  if ctx.events ∩ real = ∅ then (m, [])
  else
    let left := ctx.events \ real
    match m.epollCtl succeeds (if left = ∅ then .del else .mod) ctx.fd
        ready.context left with
    | none => (m, [])
    | some m =>
        m.triggerBoth ready.context (.read ∈ real) (fun _ => .write ∈ real)

/-! ## Steps -/

inductive Action where
  | addEvent (thread fd : ℕ) (event : IoEvent) (caller : IoCaller)
  | delEvent (thread fd : ℕ) (event : IoEvent)
  | cancelEvent (thread fd : ℕ) (event : IoEvent)
  | cancelAll (thread fd : ℕ)
  | epollWait (thread : ℕ) (batch : List Ready)
  /-- the next critical section of a thread; does `epoll_ctl` succeed there? -/
  | proceed (thread : ℕ) (succeeds : Bool)
  /-- the descriptor is closed, and the kernel forgets it -/
  | close (fd : ℕ)

/-- The next critical section of the thread. -/
def proceed (m : IOManager) (thread : ℕ) (succeeds : Bool) :
    IoCall → IOManager × List IoNote
  | .addSmall fd event caller =>
      ((m.contextResize (3 * fd / 2)).takeSlot thread fd
        (fun p => .addEvent p fd event caller), [])
  | .addEvent p fd event caller =>
      (m.setCall thread none).addLocked succeeds p fd event caller
  | .delEvent p fd event =>
      (m.setCall thread none).delLocked succeeds p fd event
  | .cancelEvent p fd event =>
      (m.setCall thread none).cancelLocked succeeds p fd event
  | .cancelAll p fd => (m.setCall thread none).cancelAllLocked succeeds p fd
  | .idle [] => (m.setCall thread none, [])
  | .idle (ready :: batch) =>
      (m.setCall thread (some (.idle batch))).handleReady succeeds ready

/-- A call that begins under the read lock: it ends at once if the table is too
small. -/
def lookup (m : IOManager) (thread fd : ℕ) (call : ℕ → IoCall) : IOManager :=
  if m.fdContexts.length ≤ fd then m else m.takeSlot thread fd call

def step (m : IOManager) (a : Action) : Option (IOManager × List IoNote) :=
  if m.aborted then none
  else
    match a with
    | .addEvent thread fd event caller =>
        if m.calls thread ≠ none then none
        else if fd < m.fdContexts.length then
          some (m.takeSlot thread fd (fun p => .addEvent p fd event caller), [])
        else some (m.setCall thread (some (.addSmall fd event caller)), [])
    | .delEvent thread fd event =>
        if m.calls thread ≠ none then none
        else some (m.lookup thread fd (fun p => .delEvent p fd event), [])
    | .cancelEvent thread fd event =>
        if m.calls thread ≠ none then none
        else some (m.lookup thread fd (fun p => .cancelEvent p fd event), [])
    | .cancelAll thread fd =>
        if m.calls thread ≠ none then none
        else some (m.lookup thread fd (fun p => .cancelAll p fd), [])
    | .epollWait thread batch =>
        if m.calls thread = none ∧ ∀ ready ∈ batch, m.Reports ready then
          some (m.setCall thread (some (.idle batch)), [])
        else none
    | .proceed thread succeeds =>
        (m.calls thread).map (m.proceed thread succeeds)
    | .close fd => some ({ m with
        interest := Function.update m.interest fd none }, [])

end IOManager

end KVRaftStorage
