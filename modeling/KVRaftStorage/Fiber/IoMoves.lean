import KVRaftStorage.Fiber.FdTable
import Mathlib.Data.Finset.Card

/-!
# Moves of waiters

Under the mutex of a context the IO manager does two things to it: it registers
an event with the fiber or callback that waits, or it releases one.  Every
critical section is a sequence of such moves, except in three cases.  A trigger
may find its event not registered any more, or it may find no scheduler, and
without assertions an event may be registered a second time.
-/

namespace KVRaftStorage

namespace IOManager

variable {m m' m₁ : IOManager} {p fd thread waiter : ℕ} {event : IoEvent}
  {caller : IoCaller} {succeeds : Bool} {notes notes' : List IoNote}

/-! ## The two moves -/

/-- The event is registered for a new waiter. -/
def register (m : IOManager) (p : ℕ) (event : IoEvent) (caller : IoCaller) :
    IOManager :=
  let ctx := m.contexts p
  { m.setContext p { ctx with
      events := insert event ctx.events
      eveContext := Function.update ctx.eveContext event
        ((ctx.eveContext event).assign caller m.nextWaiter) } with
    pendingEventCnt := m.pendingEventCnt + 1
    nextWaiter := m.nextWaiter + 1 }

/-- The event is taken out again. -/
def release (m : IOManager) (p : ℕ) (event : IoEvent) : IOManager :=
  let ctx := m.contexts p
  { m.setContext p { ctx with
      events := ctx.events.erase event
      eveContext := Function.update ctx.eveContext event .null } with
    pendingEventCnt := m.pendingEventCnt - 1 }

/-- Nothing happens to the waiters.  The kernel may be told about `p`. -/
structure Quiet (p : ℕ) (m m' : IOManager) : Prop where
  contexts : m'.contexts = m.contexts
  allocated : m'.allocated = m.allocated
  fdContexts : m'.fdContexts = m.fdContexts
  calls : m'.calls = m.calls
  pendingEventCnt : m'.pendingEventCnt = m.pendingEventCnt
  nextWaiter : m'.nextWaiter = m.nextWaiter
  interest : ∀ fd q events, m'.interest fd = some (q, events) →
    q = p ∨ m.interest fd = some (q, events)

/-- A critical section under the mutex of `p`, with its notes. -/
inductive Moves (p : ℕ) : IOManager → List IoNote → IOManager → Prop
  | quiet {m m' : IOManager} (h : Quiet p m m') : Moves p m [] m'
  | register {m : IOManager} {event : IoEvent} {caller : IoCaller}
      (hevent : event ∉ (m.contexts p).events)
      (hnull : (m.contexts p).eveContext event = .null) :
      Moves p m [.registered m.nextWaiter] (m.register p event caller)
  | schedule {m : IOManager} {event : IoEvent} {waiter : ℕ}
      (hevent : event ∈ (m.contexts p).events)
      (hwaiter : ((m.contexts p).eveContext event).task = some waiter) :
      Moves p m [.triggered p event true, .scheduled waiter]
        (m.release p event)
  | remove {m : IOManager} {event : IoEvent} {waiter : ℕ}
      (hevent : event ∈ (m.contexts p).events)
      (hwaiter : ((m.contexts p).eveContext event).task = some waiter) :
      Moves p m [.removed waiter] (m.release p event)
  | trans {m m₁ m' : IOManager} {notes notes' : List IoNote}
      (h : Moves p m notes m₁) (h' : Moves p m₁ notes' m') :
      Moves p m (notes ++ notes') m'

/-- A critical section that goes wrong: an event that is not registered is
triggered, or the counter and the events of `p` change by different amounts. -/
inductive Breaks (p : ℕ) : IOManager → List IoNote → IOManager → Prop
  | stale {m m' : IOManager} {event : IoEvent} {notes : List IoNote}
      (hmem : .triggered p event false ∈ notes) : Breaks p m notes m'
  | miscounted {m m' : IOManager} {ctx : FdContext} {notes : List IoNote}
      (hcontexts : m'.contexts = Function.update m.contexts p ctx)
      (hallocated : m'.allocated = m.allocated)
      (hcount : m'.pendingEventCnt + (m.contexts p).events.card ≠
        m.pendingEventCnt + ctx.events.card) : Breaks p m notes m'
  | after {m m₁ m' : IOManager} {notes notes' : List IoNote}
      (h : Moves p m notes m₁) (h' : Breaks p m₁ notes' m') :
      Breaks p m (notes ++ notes') m'

theorem Quiet.refl (p : ℕ) (m : IOManager) : Quiet p m m :=
  ⟨rfl, rfl, rfl, rfl, rfl, rfl, fun _ _ _ h => .inr h⟩

theorem Quiet.abort (p : ℕ) (m : IOManager) : Quiet p m m.abort :=
  ⟨rfl, rfl, rfl, rfl, rfl, rfl, fun _ _ _ h => .inr h⟩

theorem Moves.refl (p : ℕ) (m : IOManager) : Moves p m [] m :=
  .quiet (Quiet.refl p m)

theorem Moves.abort (h : Moves p m notes m') : Moves p m notes m'.abort := by
  rw [← List.append_nil notes]
  exact h.trans (.quiet (Quiet.abort p m'))

theorem Moves.after_quiet
    (hquiet : Quiet p m m₁) (h : Moves p m₁ notes m') :
    Moves p m notes m' :=
  (Moves.quiet hquiet).trans h

theorem Breaks.after_quiet
    (hquiet : Quiet p m m₁) (h : Breaks p m₁ notes m') :
    Breaks p m notes m' :=
  h.after (.quiet hquiet)

theorem Breaks.abort (h : Breaks p m notes m') : Breaks p m notes m'.abort := by
  induction h with
  | stale hmem => exact .stale hmem
  | miscounted hcontexts hallocated hcount =>
      exact .miscounted hcontexts hallocated hcount
  | after h _ ih => exact .after h ih

theorem epollCtl_quiet {op : EpollOp} {events : Finset IoEvent}
    (h : m.epollCtl succeeds op fd p events = some m') : Quiet p m m' := by
  obtain ⟨entry, hentry, rfl⟩ := epollCtl_eq h
  refine ⟨rfl, rfl, rfl, rfl, rfl, rfl, fun fd' q events' hsome => ?_⟩
  by_cases hfd : fd' = fd
  · subst hfd
    have hsome : entry = some (q, events') := by simpa using hsome
    exact .inl (hentry _ hsome)
  · right
    simpa [hfd] using hsome

theorem epollCtl_aborted {op : EpollOp} {events : Finset IoEvent}
    (h : m.epollCtl succeeds op fd p events = some m') :
    m'.aborted = m.aborted := by
  obtain ⟨entry, -, rfl⟩ := epollCtl_eq h
  rfl

theorem epollCtl_asserts {op : EpollOp} {events : Finset IoEvent}
    (h : m.epollCtl succeeds op fd p events = some m') :
    m'.asserts = m.asserts := by
  obtain ⟨entry, -, rfl⟩ := epollCtl_eq h
  rfl

/-- `epoll_ctl` finds the descriptor and does not fail. -/
def CtlSucceeds (m : IOManager) (succeeds : Bool) (fd : ℕ) : Prop :=
  succeeds = true ∧ m.interest fd ≠ none

instance (m : IOManager) (succeeds : Bool) (fd : ℕ) :
    Decidable (m.CtlSucceeds succeeds fd) :=
  inferInstanceAs (Decidable (_ ∧ _ ≠ _))

theorem epollCtl_of_succeeds {op : EpollOp} (hop : op ≠ .add) (p : ℕ)
    (events : Finset IoEvent) (hctl : m.CtlSucceeds succeeds fd) :
    ∃ m₁, m.epollCtl succeeds op fd p events = some m₁ := by
  obtain ⟨rfl, hinterest⟩ := hctl
  obtain ⟨entry, hinterest⟩ := Option.ne_none_iff_exists'.mp hinterest
  cases op with
  | add => exact absurd rfl hop
  | mod | del => simp [epollCtl, hinterest]

theorem epollCtl_of_fails {op : EpollOp} (hop : op ≠ .add) (p : ℕ)
    (events : Finset IoEvent) (hctl : ¬m.CtlSucceeds succeeds fd) :
    m.epollCtl succeeds op fd p events = none := by
  cases succeeds with
  | false => simp [epollCtl]
  | true =>
      have hinterest : m.interest fd = none := by simpa [CtlSucceeds] using hctl
      cases op with
      | add => exact absurd rfl hop
      | mod | del => simp [epollCtl, hinterest]

/-- Whether nothing is left of the events or not, it is not an addition. -/
theorem left_ne_add (left : Finset IoEvent) :
    (if left = ∅ then EpollOp.del else .mod) ≠ .add := by
  split <;> simp

theorem epollCtl_left (p : ℕ) (left : Finset IoEvent)
    (hctl : m.CtlSucceeds succeeds fd) : ∃ m₁,
    m.epollCtl succeeds (if left = ∅ then .del else .mod) fd p left =
      some m₁ :=
  epollCtl_of_succeeds (left_ne_add left) p left hctl

/-! ## Triggers -/

/-- A waiter stands behind every registered event, and nobody behind the
others. -/
structure Waits (m : IOManager) : Prop where
  task : ∀ p event, event ∈ (m.contexts p).events →
    ((m.contexts p).eveContext event).task ≠ none
  null : ∀ p event, event ∉ (m.contexts p).events →
    (m.contexts p).eveContext event = .null

theorem Waits.of_quiet (h : m.Waits) (hquiet : Quiet p m m') : m'.Waits := by
  refine ⟨fun q event => ?_, fun q event => ?_⟩ <;> rw [hquiet.contexts]
  · exact h.task q event
  · exact h.null q event

/-- One context changes. -/
theorem Waits.update {ctx : FdContext} (h : m.Waits)
    (hcontexts : m'.contexts = Function.update m.contexts p ctx)
    (htask : ∀ event ∈ ctx.events, (ctx.eveContext event).task ≠ none)
    (hnull : ∀ event ∉ ctx.events, ctx.eveContext event = .null) :
    m'.Waits := by
  refine ⟨fun q event => ?_, fun q event => ?_⟩ <;> rw [hcontexts] <;>
    by_cases hq : q = p
  · rw [hq, Function.update_self]
    exact htask event
  · rw [Function.update_of_ne hq]
    exact h.task q event
  · rw [hq, Function.update_self]
    exact hnull event
  · rw [Function.update_of_ne hq]
    exact h.null q event

theorem task_assign_null (caller : IoCaller) (waiter : ℕ) :
    (EventContext.null.assign caller waiter).task = some waiter := by
  unfold EventContext.assign
  split <;> rfl

theorem Waits.register (h : m.Waits)
    (hnull : (m.contexts p).eveContext event = .null) (caller : IoCaller) :
    (m.register p event caller).Waits := by
  refine h.update rfl (fun other hother => ?_) fun other hother => ?_
  · by_cases heq : other = event
    · simp [heq, hnull, task_assign_null]
    · simpa [heq] using h.task p other (by simpa [heq] using hother)
  · have heq : other ≠ event := fun heq => hother (by simp [heq])
    simpa [heq] using h.null p other (by simpa [heq] using hother)

theorem Waits.release (h : m.Waits) (p : ℕ) (event : IoEvent) :
    (m.release p event).Waits := by
  refine h.update rfl (fun other hother => ?_) fun other hother => ?_
  · obtain ⟨hne, hmem⟩ := Finset.mem_erase.mp hother
    simpa [hne] using h.task p other hmem
  · by_cases heq : other = event
    · simp [heq]
    · simpa [heq] using h.null p other (by simpa [heq] using hother)

/-- `triggerEvent` finds the event registered and a scheduler. -/
def Armed (m : IOManager) (p : ℕ) (event : IoEvent) : Prop :=
  event ∈ (m.contexts p).events ∧
    ((m.contexts p).eveContext event).scheduler ≠ none

instance (m : IOManager) (p : ℕ) (event : IoEvent) :
    Decidable (m.Armed p event) :=
  inferInstanceAs (Decidable (_ ∧ _ ≠ _))

theorem Quiet.armed (h : Quiet p m m') {q : ℕ} :
    m'.Armed q event ↔ m.Armed q event := by
  rw [Armed, Armed, h.contexts]

/-- Releasing one event leaves the other one as it is. -/
theorem armed_release {other : IoEvent} (hne : other ≠ event) :
    (m.release p event).Armed p other ↔ m.Armed p other := by
  simp [Armed, release, setContext, hne]

theorem mem_events_release {other : IoEvent} (hne : other ≠ event) :
    other ∈ ((m.release p event).contexts p).events ↔
      other ∈ (m.contexts p).events := by
  simp [release, setContext, hne]

theorem triggerPending_of_armed (hlive : m.aborted = false)
    (harmed : m.Armed p event)
    (hwaiter : ((m.contexts p).eveContext event).task = some waiter) :
    m.triggerPending p event =
      (m.release p event, [.triggered p event true, .scheduled waiter]) := by
  obtain ⟨hevent, hscheduler⟩ := harmed
  obtain ⟨scheduler, hscheduler⟩ := Option.ne_none_iff_exists'.mp hscheduler
  simp [triggerPending, triggerEvent, hevent, hscheduler, hwaiter, release,
    setContext, hlive]

theorem triggerPending_moves (hlive : m.aborted = false) (hwaits : m.Waits)
    (harmed : m.Armed p event) :
    m.triggerPending p event =
        (m.release p event, (m.triggerPending p event).2) ∧
      Moves p m (m.triggerPending p event).2 (m.release p event) := by
  obtain ⟨waiter, hwaiter⟩ :=
    Option.ne_none_iff_exists'.mp (hwaits.task p event harmed.1)
  rw [triggerPending_of_armed hlive harmed hwaiter]
  exact ⟨rfl, .schedule harmed.1 hwaiter⟩

/-- A trigger that is not armed ends the process. -/
theorem triggerPending_breaks (hwaits : m.Waits) (hnot : ¬m.Armed p event) :
    (m.triggerPending p event).1.aborted = true ∧
      Breaks p m (m.triggerPending p event).2
        (m.triggerPending p event).1 := by
  by_cases hevent : event ∈ (m.contexts p).events
  · -- there is no scheduler, and the event has been cleared
    have hscheduler :
        ((m.contexts p).eveContext event).scheduler = none :=
      not_not.mp fun hscheduler => hnot ⟨hevent, hscheduler⟩
    have heq : m.triggerPending p event = ((m.setContext p
        { m.contexts p with
          events := (m.contexts p).events.erase event }).abort,
        [.triggered p event true]) := by
      simp [triggerPending, triggerEvent, hevent, hscheduler, abort]
    rw [heq]
    refine ⟨rfl, .miscounted rfl rfl ?_⟩
    have hcard := Finset.card_erase_add_one hevent
    change m.pendingEventCnt + ((m.contexts p).events.card : ℤ) ≠
      m.pendingEventCnt + (((m.contexts p).events.erase event).card : ℤ)
    omega
  · have hnull := hwaits.null p event hevent
    obtain ⟨m', heq⟩ : ∃ m', m.triggerPending p event =
        (abort m', [.triggered p event false]) := by
      by_cases hasserts : m.asserts = true
      · exact ⟨m, by
          simp [triggerPending, triggerEvent, hevent, hasserts, abort]⟩
      · exact ⟨m.setContext p { m.contexts p with
            events := (m.contexts p).events.erase event }, by
          simp [triggerPending, triggerEvent, hevent, hasserts, abort, hnull,
            EventContext.null]⟩
    rw [heq]
    exact ⟨rfl, .stale (List.mem_singleton_self _)⟩

/-- Without `READ` there is at most one trigger. -/
theorem triggerBoth_write {wr : Bool} {write : IOManager → Bool}
    (hlive : m.aborted = false) (hwrite : write m = wr) :
    m.triggerBoth p false write =
      if wr then m.triggerPending p .write else (m, []) := by
  subst hwrite
  simp [triggerBoth, hlive]

theorem triggerBoth_read {wr : Bool} {write : IOManager → Bool}
    (hread : m.triggerPending p .read = (m₁, notes))
    (hlive : m₁.aborted = false) (hwrite : write m₁ = wr) :
    m.triggerBoth p true write =
      if wr then ((m₁.triggerPending p .write).1,
        notes ++ (m₁.triggerPending p .write).2)
      else (m₁, notes) := by
  subst hwrite
  simp [triggerBoth, hread, hlive]

theorem triggerBoth_aborted {write : IOManager → Bool}
    (haborted : (m.triggerPending p .read).1.aborted = true) :
    m.triggerBoth p true write = m.triggerPending p .read := by
  simp [triggerBoth, haborted]

/-- All the events that are triggered are armed. -/
theorem triggerBoth_moves (read wr : Bool) (write : IOManager → Bool)
    (hlive : m.aborted = false) (hwaits : m.Waits)
    (hwrite : ∀ m₁ : IOManager, (.write ∈ (m₁.contexts p).events ↔
      .write ∈ (m.contexts p).events) → write m₁ = wr)
    (harmed : (read = true → m.Armed p .read) ∧
      (wr = true → m.Armed p .write)) :
    Moves p m (m.triggerBoth p read write).2
      (m.triggerBoth p read write).1 := by
  cases read with
  | false =>
      rw [triggerBoth_write hlive (hwrite m Iff.rfl)]
      split
      · next hw =>
          obtain ⟨heq, hmoves⟩ :=
            triggerPending_moves hlive hwaits (harmed.2 hw)
          rw [heq]
          exact hmoves
      · exact Moves.refl p m
  | true =>
      obtain ⟨heq, hmoves⟩ :=
        triggerPending_moves hlive hwaits (harmed.1 rfl)
      rw [triggerBoth_read heq hlive (hwrite _ (mem_events_release (by simp)))]
      split
      · next hw =>
          have harmed₁ : (m.release p .read).Armed p .write :=
            (armed_release (by simp)).mpr (harmed.2 hw)
          obtain ⟨heq₁, hmoves₁⟩ := triggerPending_moves
            (m := m.release p .read) hlive (hwaits.release p .read) harmed₁
          rw [heq₁]
          exact hmoves.trans hmoves₁
      · exact hmoves

/-- One of them is not. -/
theorem triggerBoth_breaks (read wr : Bool) (write : IOManager → Bool)
    (hlive : m.aborted = false) (hwaits : m.Waits)
    (hwrite : ∀ m₁ : IOManager, (.write ∈ (m₁.contexts p).events ↔
      .write ∈ (m.contexts p).events) → write m₁ = wr)
    (hnot : ¬((read = true → m.Armed p .read) ∧
      (wr = true → m.Armed p .write))) :
    Breaks p m (m.triggerBoth p read write).2
      (m.triggerBoth p read write).1 := by
  cases read with
  | false =>
      have hw : wr = true ∧ ¬m.Armed p .write := by simpa using hnot
      rw [triggerBoth_write hlive (hwrite m Iff.rfl), if_pos hw.1]
      exact (triggerPending_breaks hwaits hw.2).2
  | true =>
      by_cases hread : m.Armed p .read
      · have hw : wr = true ∧ ¬m.Armed p .write := by simpa [hread] using hnot
        obtain ⟨heq, hmoves⟩ := triggerPending_moves hlive hwaits hread
        rw [triggerBoth_read heq hlive
          (hwrite _ (mem_events_release (by simp))), if_pos hw.1]
        have hbreaks := triggerPending_breaks (hwaits.release p .read)
          fun harmed => hw.2 ((armed_release (by simp)).mp harmed)
        exact hbreaks.2.after hmoves
      · obtain ⟨haborted, hbreaks⟩ := triggerPending_breaks hwaits hread
        rw [triggerBoth_aborted haborted]
        exact hbreaks

/-! ## The critical sections -/

/-- The section does not go wrong: what it triggers is armed, and it registers
no event a second time. -/
def Orderly (m : IOManager) (succeeds : Bool) : IoCall → Prop
  | .addEvent p fd event _ =>
      event ∈ (m.contexts p).events → m.asserts = false →
        ¬m.CtlSucceeds succeeds fd
  | .cancelEvent p fd event =>
      event ∈ (m.contexts p).events → m.CtlSucceeds succeeds fd →
        m.Armed p event
  | .cancelAll p fd =>
      m.CtlSucceeds succeeds fd →
        ∀ event ∈ (m.contexts p).events, m.Armed p event
  | .idle (ready :: _) =>
      (m.contexts ready.context).events ∩ m.realEvents ready ≠ ∅ →
        m.CtlSucceeds succeeds (m.contexts ready.context).fd →
          ∀ event ∈ m.realEvents ready, m.Armed ready.context event
  | _ => True

instance (m : IOManager) (succeeds : Bool) : (call : IoCall) →
    Decidable (m.Orderly succeeds call)
  | .addEvent .. => inferInstanceAs (Decidable (_ → _ → ¬_))
  | .cancelEvent .. => inferInstanceAs (Decidable (_ → _ → _))
  | .cancelAll .. => inferInstanceAs (Decidable (_ → ∀ event ∈ _, _))
  | .idle (_ :: _) =>
      inferInstanceAs (Decidable (_ ≠ _ → _ → ∀ event ∈ _, _))
  | .addSmall .. | .delEvent .. | .idle [] => .isTrue trivial

/-- `addEvent` behind a successful `epoll_ctl`. -/
theorem addLocked_of_ctl
    (hasserts : m.asserts = true → event ∉ (m.contexts p).events)
    (hnull : m.asserts = true → (m.contexts p).eveContext event = .null)
    (hctl : m.epollCtl succeeds
      (if (m.contexts p).events = ∅ then .add else .mod) fd p
      (insert event (m.contexts p).events) = some m₁) :
    m.addLocked succeeds p fd event caller =
      (m₁.register p event caller, [.registered m₁.nextWaiter]) := by
  have hquiet := epollCtl_quiet hctl
  have hasserts₁ := epollCtl_asserts hctl
  rw [addLocked, if_neg (by rintro ⟨h, hmem⟩; exact hasserts h hmem), hctl]
  dsimp only
  split
  · next hfails =>
      exact absurd (hnull (hasserts₁.symm.trans hfails.1)) hfails.2
  · simp [register, setContext, hquiet.contexts]

theorem addLocked_moves (hwaits : m.Waits)
    (horderly : event ∈ (m.contexts p).events → m.asserts = false →
      ¬m.CtlSucceeds succeeds fd) :
    Moves p m (m.addLocked succeeds p fd event caller).2
      (m.addLocked succeeds p fd event caller).1 := by
  by_cases hevent : event ∈ (m.contexts p).events
  · -- a second registration fails before it changes anything
    by_cases hasserts : m.asserts = true
    · rw [addLocked, if_pos ⟨hasserts, hevent⟩]
      exact (Moves.refl p m).abort
    · have hfails := epollCtl_of_fails (by simp : EpollOp.mod ≠ .add) p
        (insert event (m.contexts p).events)
        (horderly hevent (by simpa using hasserts))
      rw [addLocked, if_neg fun h => hasserts h.1]
      simp only [if_neg (Finset.ne_empty_of_mem hevent), hfails]
      exact Moves.refl p m
  · have hnull := hwaits.null p event hevent
    cases hctl : m.epollCtl succeeds
      (if (m.contexts p).events = ∅ then .add else .mod) fd p
      (insert event (m.contexts p).events) with
    | none =>
        rw [addLocked, if_neg fun h => hevent h.2]
        simp only [hctl]
        exact Moves.refl p m
    | some m₁ =>
        have hquiet := epollCtl_quiet hctl
        rw [addLocked_of_ctl (fun _ => hevent) (fun _ => hnull) hctl]
        rw [← hquiet.contexts] at hevent hnull
        exact (Moves.register hevent hnull).after_quiet hquiet

/-- A second registration is counted, but it is not a second event. -/
theorem addLocked_breaks (hevent : event ∈ (m.contexts p).events)
    (hasserts : m.asserts = false) (hctl : m.CtlSucceeds succeeds fd) :
    Breaks p m (m.addLocked succeeds p fd event caller).2
      (m.addLocked succeeds p fd event caller).1 := by
  obtain ⟨m₁, hctl⟩ := epollCtl_of_succeeds (by simp : EpollOp.mod ≠ .add) p
    (insert event (m.contexts p).events) hctl
  have hquiet := epollCtl_quiet hctl
  rw [addLocked_of_ctl (by simp [hasserts]) (by simp [hasserts])
    (by rw [if_neg (Finset.ne_empty_of_mem hevent)]; exact hctl)]
  rw [← hquiet.contexts] at hevent
  refine .after_quiet hquiet (.miscounted rfl rfl ?_)
  change m₁.pendingEventCnt + 1 + ((m₁.contexts p).events.card : ℤ) ≠
    m₁.pendingEventCnt + ((insert event (m₁.contexts p).events).card : ℤ)
  rw [Finset.insert_eq_of_mem hevent]
  omega

theorem delLocked_moves (hwaits : m.Waits) :
    Moves p m (m.delLocked succeeds p fd event).2
      (m.delLocked succeeds p fd event).1 := by
  unfold delLocked
  dsimp only
  split
  · exact Moves.refl p m
  · next hevent =>
      split
      · exact Moves.refl p m
      · next m₁ hctl =>
          have hquiet := epollCtl_quiet hctl
          rw [not_not] at hevent
          obtain ⟨waiter, hwaiter⟩ :=
            Option.ne_none_iff_exists'.mp (hwaits.task p event hevent)
          rw [hwaiter]
          rw [← hquiet.contexts] at hevent hwaiter ⊢
          exact (Moves.remove hevent hwaiter).after_quiet hquiet

theorem cancelLocked_of_ctl (hevent : event ∈ (m.contexts p).events)
    (hctl : m.CtlSucceeds succeeds fd) : ∃ m₁, Quiet p m m₁ ∧
      m₁.aborted = m.aborted ∧
      m.cancelLocked succeeds p fd event = m₁.triggerPending p event := by
  obtain ⟨m₁, hctl⟩ :=
    epollCtl_left p ((m.contexts p).events.erase event) hctl
  refine ⟨m₁, epollCtl_quiet hctl, epollCtl_aborted hctl, ?_⟩
  rw [cancelLocked, if_neg (not_not.mpr hevent)]
  simp only [hctl]

theorem cancelLocked_moves (hlive : m.aborted = false) (hwaits : m.Waits)
    (horderly : event ∈ (m.contexts p).events → m.CtlSucceeds succeeds fd →
      m.Armed p event) :
    Moves p m (m.cancelLocked succeeds p fd event).2
      (m.cancelLocked succeeds p fd event).1 := by
  by_cases hevent : event ∈ (m.contexts p).events
  · by_cases hctl : m.CtlSucceeds succeeds fd
    · obtain ⟨m₁, hquiet, haborted, heq⟩ := cancelLocked_of_ctl hevent hctl
      obtain ⟨htrigger, hmoves⟩ := triggerPending_moves
        (haborted.trans hlive) (hwaits.of_quiet hquiet)
        (hquiet.armed.mpr (horderly hevent hctl))
      rw [heq, htrigger]
      exact hmoves.after_quiet hquiet
    · rw [cancelLocked, if_neg (not_not.mpr hevent)]
      simp only [epollCtl_of_fails (left_ne_add _) _ _ hctl]
      exact Moves.refl p m
  · rw [cancelLocked, if_pos hevent]
    exact Moves.refl p m

theorem cancelLocked_breaks (hwaits : m.Waits)
    (hevent : event ∈ (m.contexts p).events)
    (hctl : m.CtlSucceeds succeeds fd) (hnot : ¬m.Armed p event) :
    Breaks p m (m.cancelLocked succeeds p fd event).2
      (m.cancelLocked succeeds p fd event).1 := by
  obtain ⟨m₁, hquiet, -, heq⟩ := cancelLocked_of_ctl hevent hctl
  rw [heq]
  exact ((triggerPending_breaks (hwaits.of_quiet hquiet) fun harmed =>
    hnot (hquiet.armed.mp harmed)).2).after_quiet hquiet

/-- The two triggers of `cancelAll`, and its last assertion. -/
theorem cancelAllLocked_of_ctl (hevents : (m.contexts p).events ≠ ∅)
    (hctl : m.CtlSucceeds succeeds fd) : ∃ m₁ m₂ notes, Quiet p m m₁ ∧
      m₁.aborted = m.aborted ∧
      m₁.triggerBoth p (.read ∈ (m₁.contexts p).events)
        (fun m => .write ∈ (m.contexts p).events) = (m₂, notes) ∧
      (m.cancelAllLocked succeeds p fd = (m₂, notes) ∨
        m.cancelAllLocked succeeds p fd = (m₂.abort, notes)) := by
  obtain ⟨m₁, hctl⟩ :=
    epollCtl_of_succeeds (by simp : EpollOp.del ≠ .add) p ∅ hctl
  obtain ⟨m₂, notes, hboth⟩ : ∃ m₂ notes,
      m₁.triggerBoth p (.read ∈ (m₁.contexts p).events)
        (fun m => .write ∈ (m.contexts p).events) = (m₂, notes) :=
    ⟨_, _, rfl⟩
  refine ⟨m₁, m₂, notes, epollCtl_quiet hctl, epollCtl_aborted hctl, hboth, ?_⟩
  rw [cancelAllLocked, if_neg hevents]
  simp only [hctl, hboth]
  split
  · exact .inr rfl
  · exact .inl rfl

theorem cancelAllLocked_moves (hlive : m.aborted = false) (hwaits : m.Waits)
    (horderly : m.CtlSucceeds succeeds fd →
      ∀ event ∈ (m.contexts p).events, m.Armed p event) :
    Moves p m (m.cancelAllLocked succeeds p fd).2
      (m.cancelAllLocked succeeds p fd).1 := by
  by_cases hevents : (m.contexts p).events = ∅
  · rw [cancelAllLocked, if_pos hevents]
    exact Moves.refl p m
  by_cases hctl : m.CtlSucceeds succeeds fd
  · obtain ⟨m₁, m₂, notes, hquiet, haborted, hboth, heq⟩ :=
      cancelAllLocked_of_ctl hevents hctl
    have harmed : ∀ event, event ∈ (m₁.contexts p).events →
        m₁.Armed p event := by
      intro event hevent
      rw [hquiet.contexts] at hevent
      exact hquiet.armed.mpr (horderly hctl event hevent)
    have hmoves := triggerBoth_moves (.read ∈ (m₁.contexts p).events)
      (.write ∈ (m₁.contexts p).events)
      (fun m => .write ∈ (m.contexts p).events) (haborted.trans hlive)
      (hwaits.of_quiet hquiet) (fun m₂ hsame => decide_eq_decide.mpr hsame)
      ⟨fun h => harmed .read (of_decide_eq_true h),
        fun h => harmed .write (of_decide_eq_true h)⟩
    rw [hboth] at hmoves
    rcases heq with heq | heq <;> rw [heq]
    · exact hmoves.after_quiet hquiet
    · exact hmoves.abort.after_quiet hquiet
  · rw [cancelAllLocked, if_neg hevents]
    simp only [epollCtl_of_fails (by simp : EpollOp.del ≠ .add) p ∅ hctl]
    exact Moves.refl p m

theorem cancelAllLocked_breaks (hlive : m.aborted = false)
    (hwaits : m.Waits) (hctl : m.CtlSucceeds succeeds fd)
    (hevent : event ∈ (m.contexts p).events) (hnot : ¬m.Armed p event) :
    Breaks p m (m.cancelAllLocked succeeds p fd).2
      (m.cancelAllLocked succeeds p fd).1 := by
  obtain ⟨m₁, m₂, notes, hquiet, haborted, hboth, heq⟩ :=
    cancelAllLocked_of_ctl (Finset.ne_empty_of_mem hevent) hctl
  rw [← hquiet.contexts] at hevent
  have hbreaks := triggerBoth_breaks (p := p) (.read ∈ (m₁.contexts p).events)
    (.write ∈ (m₁.contexts p).events)
    (fun m => .write ∈ (m.contexts p).events) (haborted.trans hlive)
    (hwaits.of_quiet hquiet) (fun m₂ hsame => decide_eq_decide.mpr hsame)
    (by
      rintro ⟨hread, hwrite⟩
      refine hnot (hquiet.armed.mp ?_)
      cases event with
      | read => exact hread (decide_eq_true hevent)
      | write => exact hwrite (decide_eq_true hevent))
  rw [hboth] at hbreaks
  rcases heq with heq | heq <;> rw [heq]
  · exact hbreaks.after_quiet hquiet
  · exact hbreaks.abort.after_quiet hquiet

section HandleReady

variable {ready : Ready}

theorem handleReady_of_ctl
    (hcommon : (m.contexts ready.context).events ∩ m.realEvents ready ≠ ∅)
    (hctl : m.CtlSucceeds succeeds (m.contexts ready.context).fd) :
    ∃ m₁, Quiet ready.context m m₁ ∧ m₁.aborted = m.aborted ∧
      m.handleReady succeeds ready =
        m₁.triggerBoth ready.context (.read ∈ m.realEvents ready)
          (fun _ => .write ∈ m.realEvents ready) := by
  obtain ⟨m₁, hctl⟩ := epollCtl_left ready.context
    ((m.contexts ready.context).events \ m.realEvents ready) hctl
  refine ⟨m₁, epollCtl_quiet hctl, epollCtl_aborted hctl, ?_⟩
  rw [handleReady, if_neg hcommon]
  simp only [hctl]

theorem handleReady_moves (hlive : m.aborted = false) (hwaits : m.Waits)
    (horderly : (m.contexts ready.context).events ∩ m.realEvents ready ≠ ∅ →
      m.CtlSucceeds succeeds (m.contexts ready.context).fd →
        ∀ event ∈ m.realEvents ready, m.Armed ready.context event) :
    Moves ready.context m (m.handleReady succeeds ready).2
      (m.handleReady succeeds ready).1 := by
  by_cases hcommon : (m.contexts ready.context).events ∩
      m.realEvents ready = ∅
  · rw [handleReady, if_pos hcommon]
    exact Moves.refl _ m
  by_cases hctl : m.CtlSucceeds succeeds (m.contexts ready.context).fd
  · obtain ⟨m₁, hquiet, haborted, heq⟩ := handleReady_of_ctl hcommon hctl
    have harmed := horderly hcommon hctl
    rw [heq]
    exact (triggerBoth_moves _ _ _ (haborted.trans hlive)
      (hwaits.of_quiet hquiet) (fun _ _ => rfl)
      ⟨fun h => hquiet.armed.mpr (harmed .read (of_decide_eq_true h)),
        fun h => hquiet.armed.mpr (harmed .write (of_decide_eq_true h))⟩
      ).after_quiet hquiet
  · rw [handleReady, if_neg hcommon]
    simp only [epollCtl_of_fails (left_ne_add _) _ _ hctl]
    exact Moves.refl _ m

/-- An event of the entry is still registered, and another one is not any more
or has no scheduler. -/
theorem handleReady_breaks (hlive : m.aborted = false) (hwaits : m.Waits)
    (hcommon : (m.contexts ready.context).events ∩ m.realEvents ready ≠ ∅)
    (hctl : m.CtlSucceeds succeeds (m.contexts ready.context).fd)
    (hevent : event ∈ m.realEvents ready)
    (hnot : ¬m.Armed ready.context event) :
    Breaks ready.context m (m.handleReady succeeds ready).2
      (m.handleReady succeeds ready).1 := by
  obtain ⟨m₁, hquiet, haborted, heq⟩ := handleReady_of_ctl hcommon hctl
  rw [heq]
  refine (triggerBoth_breaks _ _ _ (haborted.trans hlive)
    (hwaits.of_quiet hquiet) (fun _ _ => rfl) ?_).after_quiet hquiet
  rintro ⟨hread, hwrite⟩
  refine hnot (hquiet.armed.mp ?_)
  cases event with
  | read => exact hread (decide_eq_true hevent)
  | write => exact hwrite (decide_eq_true hevent)

end HandleReady

end IOManager

end KVRaftStorage
