import KVRaftStorage.Support.Transition
import Mathlib.Algebra.Ring.Nat
import Mathlib.Logic.Function.Basic

/-!
# Timers

`class TimerManager` with its `Timer`s.  A critical section under the lock of
the manager is one step; a call that has read the clock before it takes the lock
is remembered for its thread.  The clock is that of `GetElapsedMS`, in
milliseconds since the system was started.

Every callback is one that can be called.  A timer is known by its address, and
an address that has been used is not used again.
-/

namespace KVRaftStorage

structure Timer where
  recurring : Bool
  ms : UInt64
  next : UInt64
  cb : Option ℕ
deriving DecidableEq

/-- `operator()` on what it looks at, `next_` and the address. -/
def Timer.comparator (lhs rhs : UInt64 × ℕ) : Bool :=
  if lhs.1 < rhs.1 then true
  else if rhs.1 < lhs.1 then false
  else lhs.2 < rhs.2

/-- A call that does not hold the lock. -/
inductive TimerCall where
  /-- `addTimer` with the timer that it has made -/
  | adding (timer : Timer)
  /-- `reset` behind its first test -/
  | resetting (timer : ℕ) (ms : UInt64) (fromNow : Bool)
  /-- `listExpiredCb` before it takes the read lock -/
  | listing (now : UInt64)
  /-- `listExpiredCb` before it takes the write lock -/
  | expiring (now : UInt64)
deriving DecidableEq

structure TimerManager where
  clock : UInt64
  /-- the timers by their addresses -/
  timer : ℕ → Timer
  /-- the addresses that have been used -/
  made : List ℕ
  /-- the set, in its order -/
  timers : List ℕ
  tickled : Bool
  previouseTime : UInt64
  calls : ℕ → Option TimerCall

/-- What a call does that is seen outside. -/
inductive TimerNote where
  | added (timer : ℕ) (recurring : Bool)
  | insertedAtFront
  | cancel (timer : ℕ) (result : Bool)
  | refresh (timer : ℕ) (result : Bool)
  | reset (timer : ℕ) (result : Bool)
  | nextTimer (result : UInt64)
  /-- `listExpiredCb` with the timers that it takes out and what it appends -/
  | listed (now : UInt64) (expired : List ℕ) (cbs : List (Option ℕ))
deriving DecidableEq

namespace TimerManager

/-- The constructor, at some moment. -/
def new (clock : UInt64) : TimerManager where
  clock := clock
  timer := fun _ => { recurring := false, ms := 0, next := 0, cb := none }
  made := []
  timers := []
  tickled := false
  previouseTime := clock
  calls := fun _ => none

def setTimer (m : TimerManager) (p : ℕ) (timer : Timer) : TimerManager :=
  { m with timer := Function.update m.timer p timer }

def setCall (m : TimerManager) (thread : ℕ) (call : Option TimerCall) :
    TimerManager :=
  { m with calls := Function.update m.calls thread call }

/-! ## The set -/

def key (m : TimerManager) (p : ℕ) : UInt64 × ℕ := ((m.timer p).next, p)

def less (m : TimerManager) (p q : ℕ) : Bool :=
  Timer.comparator (m.key p) (m.key q)

/-- `timers_.insert`. -/
def insert (m : TimerManager) (p : ℕ) : TimerManager :=
  if p ∈ m.timers then m
  else { m with timers := m.timers.takeWhile (m.less · p) ++
    p :: m.timers.dropWhile (m.less · p) }

/-- `timers_.erase` of what `find` has found. -/
def erase (m : TimerManager) (p : ℕ) : TimerManager :=
  { m with timers := m.timers.erase p }

/-- The private `addTimer`. -/
def addTimer (m : TimerManager) (p : ℕ) : TimerManager × List TimerNote :=
  let m := m.insert p
  if m.timers.head? = some p ∧ m.tickled = false then
    ({ m with tickled := true }, [.insertedAtFront])
  else (m, [])

/-! ## Timers -/

def cancel (m : TimerManager) (p : ℕ) : TimerManager × List TimerNote :=
  match (m.timer p).cb with
  | some _ =>
      ((m.setTimer p { m.timer p with cb := none }).erase p,
        [.cancel p true])
  | none => (m, [.cancel p false])

def refresh (m : TimerManager) (p : ℕ) : TimerManager × List TimerNote :=
  match (m.timer p).cb with
  | none => (m, [.refresh p false])
  | some _ =>
      if p ∈ m.timers then
        let timer := m.timer p
        (((m.erase p).setTimer p { timer with
          next := m.clock + timer.ms }).insert p, [.refresh p true])
      else (m, [.refresh p false])

/-- `reset` under the lock. -/
def reset (m : TimerManager) (p : ℕ) (ms : UInt64) (fromNow : Bool) :
    TimerManager × List TimerNote :=
  match (m.timer p).cb with
  | none => (m, [.reset p true])
  | some _ =>
      if p ∈ m.timers then
        let timer := m.timer p
        let start := if fromNow then m.clock else timer.next - timer.ms
        let (m, notes) := ((m.erase p).setTimer p { timer with
          ms := ms
          next := start + ms }).addTimer p
        (m, notes ++ [.reset p true])
      else (m, [.reset p false])

def getNextTimer (m : TimerManager) : TimerManager × List TimerNote :=
  let result := match m.timers with
    | [] => UInt64.ofNat (2 ^ 64 - 1)
    | p :: _ =>
        if (m.timer p).next ≤ m.clock then 0
        else (m.timer p).next - m.clock
  ({ m with tickled := false }, [.nextTimer result])

/-! ## Expiry -/

def detectClockRollover (m : TimerManager) (now : UInt64) : Bool :=
  now < m.previouseTime && now < m.previouseTime - 60 * 60 * 1000

/-- One turn of the loop over the expired timers. -/
def renew (m : TimerManager) (now : UInt64) (p : ℕ) : TimerManager :=
  let timer := m.timer p
  if timer.recurring then
    (m.setTimer p { timer with next := now + timer.ms }).insert p
  else m.setTimer p { timer with cb := none }

/-- The loop, with what it appends to `cbs`. -/
def fireAll (now : UInt64) :
    List ℕ → TimerManager → TimerManager × List (Option ℕ)
  | [], m => (m, [])
  | p :: expired, m =>
      let (m', cbs) := fireAll now expired (m.renew now p)
      (m', (m.timer p).cb :: cbs)

/-- The timers up to the iterator, and those behind it.  The timer made for
`lower_bound` is at `address`. -/
def splitExpired (m : TimerManager) (rollover : Bool) (now : UInt64)
    (address : ℕ) : List ℕ × List ℕ :=
  if rollover then (m.timers, [])
  else
    let before := m.timers.takeWhile
      fun p => Timer.comparator (m.key p) (now, address)
    let rest := m.timers.dropWhile
      fun p => Timer.comparator (m.key p) (now, address)
    (before ++ rest.takeWhile fun p => (m.timer p).next = now,
      rest.dropWhile fun p => (m.timer p).next = now)

/-- `listExpiredCb` under the write lock. -/
def listExpiredCb (m : TimerManager) (now : UInt64) (address : ℕ) :
    TimerManager × List TimerNote :=
  match m.timers with
  | [] => (m, [.listed now [] []])
  | first :: _ =>
      let rollover := m.detectClockRollover now
      let m := { m with previouseTime := now }
      if !rollover ∧ now < (m.timer first).next then (m, [.listed now [] []])
      else
        let (expired, rest) := m.splitExpired rollover now address
        let (m, cbs) := fireAll now expired { m with timers := rest }
        (m, [.listed now expired cbs])

/-! ## Steps -/

inductive Action where
  /-- the clock goes on -/
  | tick (now : UInt64)
  | addTimer (thread : ℕ) (ms : UInt64) (cb : ℕ) (recurring : Bool)
  | cancel (thread timer : ℕ)
  | refresh (thread timer : ℕ)
  | reset (thread timer : ℕ) (ms : UInt64) (fromNow : Bool)
  | getNextTimer (thread : ℕ)
  | listExpiredCb (thread : ℕ)
  /-- a thread goes on; a timer that it makes is put at the address -/
  | proceed (thread address : ℕ)

/-- The next critical section of a call. -/
def proceed (m : TimerManager) (thread address : ℕ) :
    TimerCall → Option (TimerManager × List TimerNote)
  | .adding timer =>
      if address ∈ m.made then none
      else
        let (m, notes) := (({ m with made := address :: m.made }).setTimer
          address timer).addTimer address
        some (m.setCall thread none,
          .added address timer.recurring :: notes)
  | .resetting p ms fromNow => some ((m.setCall thread none).reset p ms fromNow)
  | .listing now =>
      if m.timers = [] then
        some (m.setCall thread none, [.listed now [] []])
      else some (m.setCall thread (some (.expiring now)), [])
  | .expiring now => some ((m.setCall thread none).listExpiredCb now address)

def step (m : TimerManager) (a : Action) :
    Option (TimerManager × List TimerNote) :=
  match a with
  | .tick now =>
      if m.clock ≤ now then some ({ m with clock := now }, []) else none
  | .addTimer thread ms cb recurring =>
      if m.calls thread ≠ none then none
      else some (m.setCall thread (some (.adding
        { recurring := recurring, ms := ms, next := m.clock + ms,
          cb := some cb })), [])
  | .cancel thread p =>
      if m.calls thread = none ∧ p ∈ m.made then some (m.cancel p) else none
  | .refresh thread p =>
      if m.calls thread = none ∧ p ∈ m.made then some (m.refresh p) else none
  | .reset thread p ms fromNow =>
      if m.calls thread = none ∧ p ∈ m.made then
        if ms = (m.timer p).ms ∧ fromNow = false then
          some (m, [.reset p true])
        else some (m.setCall thread (some (.resetting p ms fromNow)), [])
      else none
  | .getNextTimer thread =>
      if m.calls thread = none then some m.getNextTimer else none
  | .listExpiredCb thread =>
      if m.calls thread = none then
        some (m.setCall thread (some (.listing m.clock)), [])
      else none
  | .proceed thread address =>
      (m.calls thread).bind (m.proceed thread address)

end TimerManager

end KVRaftStorage
