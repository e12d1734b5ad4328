import KVRaftStorage.Fiber.IoMoves
import Mathlib.Algebra.BigOperators.Group.Finset.Basic
import Mathlib.Algebra.Order.BigOperators.Group.Finset

/-!
# Accounting of events

`triggerEvent` is called for registered events only, `pendingEventCnt_` is the
number of registered events, and every waiter that has been registered is still
waiting, or has been scheduled once, or has been removed once.  This holds in
the course of a run as long as no critical section goes wrong, and is broken by
the first one that does.

A section goes wrong in three ways.  The loop of `idle` comes to an entry that
is partly stale: one of its events has been cancelled or deleted since
`epoll_wait` returned and the other one has not.  An event is triggered that was
registered on a thread without a scheduler.  Or, in a build without assertions,
an event is registered a second time.
-/

namespace KVRaftStorage

open Transition

namespace FdContext

def registered (ctx : FdContext) : ℕ := ctx.events.card

/-- Does the waiter stand behind an event of the context, and behind how
many? -/
def waiting (waiter : ℕ) (ctx : FdContext) : ℕ :=
  (ctx.events.filter fun event =>
    (ctx.eveContext event).task = some waiter).card

variable {events : Finset IoEvent} {event : IoEvent} {n : ℕ}
  {ctx : EventContext}

theorem card_filter_insert (contexts : IoEvent → EventContext)
    (hevent : event ∉ events) (hctx : ctx.task = some n) (w : ℕ) :
    ((insert event events).filter fun e =>
        (Function.update contexts event ctx e).task = some w).card =
      (events.filter fun e => (contexts e).task = some w).card +
        if n = w then 1 else 0 := by
  have hsame : (events.filter fun e =>
      (Function.update contexts event ctx e).task = some w) =
        events.filter fun e => (contexts e).task = some w := by
    refine Finset.filter_congr fun e he => ?_
    rw [Function.update_of_ne (ne_of_mem_of_not_mem he hevent)]
  rw [Finset.filter_insert, Function.update_self, hsame, hctx]
  by_cases hw : n = w
  · rw [if_pos (congrArg some hw), if_pos hw,
      Finset.card_insert_of_notMem fun hmem =>
        hevent (Finset.mem_filter.mp hmem).1]
  · rw [if_neg fun heq => hw (Option.some.inj heq), if_neg hw, Nat.add_zero]

/-- To release an event is to take a registration back. -/
theorem card_filter_erase (contexts : IoEvent → EventContext)
    (hevent : event ∈ events) (hwaiter : (contexts event).task = some n)
    (w : ℕ) :
    ((events.erase event).filter fun e =>
        (Function.update contexts event .null e).task = some w).card +
        (if n = w then 1 else 0) =
      (events.filter fun e => (contexts e).task = some w).card := by
  have h := card_filter_insert (Function.update contexts event .null)
    (Finset.notMem_erase event events) hwaiter w
  rw [Function.update_idem, Function.update_eq_self,
    Finset.insert_erase hevent] at h
  exact h.symm

end FdContext

/-- The contexts that a call holds. -/
def IoCall.pointers : IoCall → List ℕ
  | .addSmall .. => []
  | .addEvent p .. | .delEvent p .. | .cancelEvent p .. | .cancelAll p _ => [p]
  | .idle batch => batch.map Ready.context

namespace IOManager

variable {m m' m₁ : IOManager} {p fd thread waiter : ℕ} {event : IoEvent}
  {caller : IoCaller} {asserts succeeds : Bool} {notes notes' : List IoNote}
  {a : Action}

/-! ## Sums over the contexts -/

def total (m : IOManager) (count : FdContext → ℕ) : ℕ :=
  ∑ p ∈ Finset.range m.allocated, count (m.contexts p)

theorem total_congr
    (hcontexts : m'.contexts = m.contexts)
    (hallocated : m'.allocated = m.allocated) (count : FdContext → ℕ) :
    m'.total count = m.total count := by
  rw [total, total, hcontexts, hallocated]

/-- One context changes. -/
theorem total_update {ctx : FdContext}
    (m' : IOManager) (hp : p < m.allocated)
    (hcontexts : m'.contexts = Function.update m.contexts p ctx)
    (hallocated : m'.allocated = m.allocated) (count : FdContext → ℕ) :
    m'.total count + count (m.contexts p) = m.total count + count ctx := by
  have hmem : p ∈ Finset.range m.allocated := Finset.mem_range.mpr hp
  have hrest : ∑ q ∈ (Finset.range m.allocated).erase p,
      count (m'.contexts q) =
        ∑ q ∈ (Finset.range m.allocated).erase p, count (m.contexts q) := by
    refine Finset.sum_congr rfl fun q hq => ?_
    rw [hcontexts, Function.update_of_ne (Finset.ne_of_mem_erase hq)]
  have hself : m'.contexts p = ctx := by
    rw [hcontexts, Function.update_self]
  rw [total, total, hallocated, ← Finset.add_sum_erase _ _ hmem,
    ← Finset.add_sum_erase (Finset.range m.allocated) _ hmem, hrest, hself]
  omega

theorem total_contextResize
    (count : FdContext → ℕ) (hempty : ∀ fd, count (emptyContext fd) = 0)
    (size : ℕ) : (m.contextResize size).total count = m.total count := by
  have hfills := contextResize_fills m size
  symm
  refine (Finset.sum_congr rfl fun q hq => ?_).trans
    (Finset.sum_subset (Finset.range_subset_range.mpr hfills.grows)
      fun q hq hnot => ?_)
  · rw [hfills.old q (Finset.mem_range.mp hq)]
  · rw [Finset.mem_range] at hq hnot
    obtain ⟨i, -, hctx⟩ := hfills.fresh q (not_lt.mp hnot) hq
    rw [hctx, hempty]

/-! ## Pointers -/

/-- Every pointer is to a context that has been allocated. -/
structure Pointers (m : IOManager) : Prop where
  table : ∀ (i p : ℕ), m.fdContexts[i]? = some (some p) → p < m.allocated
  calls : ∀ thread, ∀ call ∈ m.calls thread, ∀ p ∈ call.pointers,
    p < m.allocated
  interest : ∀ fd p events, m.interest fd = some (p, events) →
    p < m.allocated

/-- What a critical section leaves as it is. -/
structure Frame (p : ℕ) (m m' : IOManager) : Prop where
  allocated : m'.allocated = m.allocated
  fdContexts : m'.fdContexts = m.fdContexts
  calls : m'.calls = m.calls
  interest : ∀ fd q events, m'.interest fd = some (q, events) →
    q = p ∨ m.interest fd = some (q, events)

theorem Moves.frame (h : Moves p m notes m') : Frame p m m' := by
  induction h with
  | quiet h => exact ⟨h.allocated, h.fdContexts, h.calls, h.interest⟩
  | register => exact ⟨rfl, rfl, rfl, fun _ _ _ hsome => .inr hsome⟩
  | schedule => exact ⟨rfl, rfl, rfl, fun _ _ _ hsome => .inr hsome⟩
  | remove => exact ⟨rfl, rfl, rfl, fun _ _ _ hsome => .inr hsome⟩
  | trans _ _ ih ih' =>
      refine ⟨ih'.allocated.trans ih.allocated,
        ih'.fdContexts.trans ih.fdContexts, ih'.calls.trans ih.calls,
        fun fd q events hsome => ?_⟩
      rcases ih'.interest fd q events hsome with heq | hsome
      · exact .inl heq
      · exact ih.interest fd q events hsome

theorem Pointers.frame
    (h : m.Pointers) (hp : p < m.allocated) (hframe : Frame p m m') :
    m'.Pointers := by
  refine ⟨fun i q hslot => ?_, fun thread call hcall q hq => ?_,
    fun fd q events hsome => ?_⟩
  · rw [hframe.fdContexts] at hslot
    rw [hframe.allocated]
    exact h.table i q hslot
  · rw [hframe.calls] at hcall
    rw [hframe.allocated]
    exact h.calls thread call hcall q hq
  · rw [hframe.allocated]
    rcases hframe.interest fd q events hsome with rfl | hsome
    · exact hp
    · exact h.interest fd q events hsome

theorem Pointers.setCall {call : Option IoCall}
    (h : m.Pointers)
    (hcall : ∀ c ∈ call, ∀ p ∈ c.pointers, p < m.allocated) :
    (m.setCall thread call).Pointers := by
  refine ⟨h.table, fun thread' c hc => ?_, h.interest⟩
  by_cases heq : thread' = thread
  · subst heq
    exact hcall c (by simpa [IOManager.setCall] using hc)
  · exact h.calls thread' c (by simpa [IOManager.setCall, heq] using hc)

theorem Pointers.contextResize (h : m.Pointers) (size : ℕ) :
    (m.contextResize size).Pointers := by
  have hfills := contextResize_fills m size
  refine ⟨fun i p hslot => ?_, fun thread call hcall p hp => ?_,
    fun fd p events hsome => ?_⟩
  · have hi : i < size := by
      rw [← length_contextResize m size]
      exact (List.getElem?_eq_some_iff.mp hslot).1
    have hcut : i < (m.cutSlots size).length := by rwa [length_cutSlots]
    cases hold : (m.cutSlots size)[i]? with
    | none => simp [hcut] at hold
    | some slot =>
        cases slot with
        | none =>
            obtain ⟨q, -, hq, hslot', -⟩ := hfills.filled i hold
            obtain rfl : q = p := by simpa [hslot'] using hslot
            exact hq
        | some q =>
            have hslot' := hfills.kept i q hold
            obtain rfl : q = p := by simpa [hslot'] using hslot
            rcases getElem?_cutSlots (m := m) hi with heq | ⟨-, heq⟩
            · exact (h.table i q (heq.symm.trans hold)).trans_le hfills.grows
            · simp [heq] at hold
  · rw [hfills.calls] at hcall
    exact (h.calls thread call hcall p hp).trans_le hfills.grows
  · rw [hfills.interest] at hsome
    exact (h.interest fd p events hsome).trans_le hfills.grows

/-! ## The accounts -/

/-- `triggerEvent` is called for registered events only. -/
def Registered (note : IoNote) : Prop :=
  ∀ p event, note ≠ .triggered p event false

/-- Only registered events have been triggered, the counter is right and does
not underflow, and every waiter that was registered, once, is waiting, or has
been scheduled once, or has been removed once. -/
structure Accurate (m : IOManager) (notes : List IoNote) : Prop where
  triggers : ∀ note ∈ notes, Registered note
  pending : m.pendingEventCnt = m.total FdContext.registered
  nonneg : 0 ≤ m.pendingEventCnt
  once : ∀ waiter, notes.count (.registered waiter) ≤ 1
  balance : ∀ waiter, notes.count (.registered waiter) =
    notes.count (.scheduled waiter) + notes.count (.removed waiter) +
      m.total (FdContext.waiting waiter)

/-- What makes the accounts last: the contexts fit the events, and the waiters
so far are those below `nextWaiter`. -/
structure Accounts (m : IOManager) (notes : List IoNote) : Prop where
  waits : m.Waits
  triggers : ∀ note ∈ notes, Registered note
  pending : m.pendingEventCnt = m.total FdContext.registered
  registered : ∀ waiter, notes.count (.registered waiter) =
    if waiter < m.nextWaiter then 1 else 0
  balance : ∀ waiter, notes.count (.registered waiter) =
    notes.count (.scheduled waiter) + notes.count (.removed waiter) +
      m.total (FdContext.waiting waiter)

theorem Accounts.accurate (h : Accounts m notes) : Accurate m notes where
  triggers := h.triggers
  pending := h.pending
  nonneg := h.pending ▸ Int.natCast_nonneg _
  once waiter := by
    rw [h.registered]
    split <;> simp
  balance := h.balance

theorem Accounts.of_contexts
    (h : Accounts m notes) (hcontexts : m'.contexts = m.contexts)
    (hallocated : m'.allocated = m.allocated)
    (hpending : m'.pendingEventCnt = m.pendingEventCnt)
    (hnext : m'.nextWaiter = m.nextWaiter) : Accounts m' notes := by
  refine ⟨⟨fun p event => ?_, fun p event => ?_⟩, h.triggers, ?_,
    fun waiter => ?_, fun waiter => ?_⟩
  · rw [hcontexts]
    exact h.waits.task p event
  · rw [hcontexts]
    exact h.waits.null p event
  · rw [hpending, h.pending, total_congr hcontexts hallocated]
  · rw [hnext]
    exact h.registered waiter
  · rw [total_congr hcontexts hallocated]
    exact h.balance waiter

theorem registered_append (h : ∀ note ∈ notes, Registered note)
    (h' : ∀ note ∈ notes', Registered note) :
    ∀ note ∈ notes ++ notes', Registered note := by
  intro note hnote
  rcases List.mem_append.mp hnote with hnote | hnote
  · exact h note hnote
  · exact h' note hnote

theorem Accounts.register
    (h : Accounts m notes) (hp : p < m.allocated)
    (hevent : event ∉ (m.contexts p).events)
    (hnull : (m.contexts p).eveContext event = .null) :
    Accounts (m.register p event caller)
      (notes ++ [.registered m.nextWaiter]) := by
  have htotal := total_update (m.register p event caller) hp rfl rfl
  refine ⟨h.waits.register hnull caller,
    registered_append h.triggers (by simp [Registered]), ?_, fun waiter => ?_,
    fun waiter => ?_⟩
  · have hcard : (insert event (m.contexts p).events).card =
        (m.contexts p).events.card + 1 := Finset.card_insert_of_notMem hevent
    have hsum : (m.register p event caller).total FdContext.registered =
        m.total FdContext.registered + 1 := by
      have htotal := htotal FdContext.registered
      simp only [FdContext.registered, hcard] at htotal ⊢
      omega
    have hpending := h.pending
    change m.pendingEventCnt + 1 = _
    omega
  · have hnext : (m.register p event caller).nextWaiter = m.nextWaiter + 1 :=
      rfl
    rw [List.count_append, h.registered, List.count_singleton, hnext]
    simp only [beq_iff_eq, IoNote.registered.injEq]
    split_ifs <;> omega
  · have hsum : (m.register p event caller).total (FdContext.waiting waiter) =
        m.total (FdContext.waiting waiter) +
          if m.nextWaiter = waiter then 1 else 0 := by
      have htotal := htotal (FdContext.waiting waiter)
      have hcard := FdContext.card_filter_insert (m.contexts p).eveContext
        hevent (task_assign_null caller m.nextWaiter) waiter
      simp only [FdContext.waiting, hnull, hcard] at htotal ⊢
      omega
    have hbalance := h.balance waiter
    simp only [List.count_append, List.count_singleton, beq_iff_eq,
      IoNote.registered.injEq, reduceCtorEq, if_false, Nat.add_zero, hsum]
    omega

/-- The waiter of a released event is scheduled or removed. -/
theorem Accounts.release
    (h : Accounts m notes) (hp : p < m.allocated)
    (hevent : event ∈ (m.contexts p).events)
    (hwaiter : ((m.contexts p).eveContext event).task = some waiter)
    (htriggers : ∀ note ∈ notes', Registered note)
    (hregistered : ∀ w, notes'.count (.registered w) = 0)
    (hreleased : ∀ w, notes'.count (.scheduled w) +
      notes'.count (.removed w) = if waiter = w then 1 else 0) :
    Accounts (m.release p event) (notes ++ notes') := by
  have htotal := total_update (m.release p event) hp rfl rfl
  refine ⟨h.waits.release p event, registered_append h.triggers htriggers, ?_,
    fun w => ?_, fun w => ?_⟩
  · have hcard : ((m.contexts p).events.erase event).card + 1 =
        (m.contexts p).events.card := Finset.card_erase_add_one hevent
    have hsum : (m.release p event).total FdContext.registered + 1 =
        m.total FdContext.registered := by
      have htotal := htotal FdContext.registered
      simp only [FdContext.registered] at htotal ⊢
      omega
    have hpending := h.pending
    change m.pendingEventCnt - 1 = _
    omega
  · rw [List.count_append, h.registered, hregistered]
    rfl
  · have hsum : (m.release p event).total (FdContext.waiting w) +
        (if waiter = w then 1 else 0) = m.total (FdContext.waiting w) := by
      have htotal := htotal (FdContext.waiting w)
      have hcard := FdContext.card_filter_erase _ hevent hwaiter w
      simp only [FdContext.waiting] at htotal ⊢
      omega
    have hbalance := h.balance w
    have hreleased := hreleased w
    rw [List.count_append, List.count_append, List.count_append, hregistered]
    omega

theorem Accounts.moves
    (h : Accounts m notes) (hp : p < m.allocated)
    (hmoves : Moves p m notes' m') : Accounts m' (notes ++ notes') := by
  induction hmoves generalizing notes with
  | quiet hquiet =>
      rw [List.append_nil]
      exact h.of_contexts hquiet.contexts hquiet.allocated
        hquiet.pendingEventCnt hquiet.nextWaiter
  | register hevent hnull => exact h.register hp hevent hnull
  | schedule hevent hwaiter =>
      refine h.release hp hevent hwaiter (by simp [Registered]) (by simp)
        fun w => ?_
      simp [List.count_cons]
  | remove hevent hwaiter =>
      refine h.release hp hevent hwaiter (by simp [Registered]) (by simp)
        fun w => ?_
      simp [List.count_cons]
  | trans hfirst _ ih ih' =>
      rw [← List.append_assoc]
      exact ih' (ih h hp) (by rwa [hfirst.frame.allocated])

/-- What goes wrong shows at once. -/
theorem Accounts.breaks (h : Accounts m notes) (hp : p < m.allocated)
    (hbreaks : Breaks p m notes' m') : ¬Accurate m' (notes ++ notes') := by
  induction hbreaks generalizing notes with
  | stale hmem =>
      intro haccurate
      exact haccurate.triggers _ (List.mem_append_right _ hmem) _ _ rfl
  | miscounted hcontexts hallocated hcount =>
      intro haccurate
      have htotal :=
        total_update _ hp hcontexts hallocated FdContext.registered
      have hbefore := h.pending
      have hafter := haccurate.pending
      simp only [FdContext.registered] at htotal hbefore hafter
      omega
  | after hfirst _ ih =>
      rw [← List.append_assoc]
      exact ih (h.moves hp hfirst) (by rwa [hfirst.frame.allocated])

theorem Accounts.contextResize (h : Accounts m notes) (size : ℕ) :
    Accounts (m.contextResize size) notes := by
  have hfills := contextResize_fills m size
  have hcontexts : ∀ p, (m.contextResize size).contexts p = m.contexts p ∨
      ∃ fd, (m.contextResize size).contexts p = emptyContext fd := by
    intro p
    rcases lt_or_ge p m.allocated with hold | hold
    · exact .inl (hfills.old p hold)
    · rcases lt_or_ge p (m.contextResize size).allocated with hnew | hnew
      · obtain ⟨i, -, hctx⟩ := hfills.fresh p hold hnew
        exact .inr ⟨_, hctx⟩
      · exact .inl (hfills.beyond p hnew)
  refine ⟨⟨fun p event => ?_, fun p event => ?_⟩, h.triggers, ?_,
    fun waiter => ?_, fun waiter => ?_⟩
  · rcases hcontexts p with hctx | ⟨fd, hctx⟩ <;> rw [hctx]
    · exact h.waits.task p event
    · simp [emptyContext]
  · rcases hcontexts p with hctx | ⟨fd, hctx⟩ <;> rw [hctx]
    · exact h.waits.null p event
    · simp [emptyContext]
  · rw [hfills.pendingEventCnt, total_contextResize _ (fun _ => rfl)]
    exact h.pending
  · rw [hfills.nextWaiter]
    exact h.registered waiter
  · rw [total_contextResize _ (fun _ => rfl)]
    exact h.balance waiter

/-! ## Steps -/

/-- The pointers are good and the accounts are right. -/
structure Sound (m : IOManager) (notes : List IoNote) : Prop where
  pointers : m.Pointers
  accounts : Accounts m notes

theorem Sound.moves
    (h : Sound m notes) (hp : p < m.allocated)
    (hmoves : Moves p m notes' m') : Sound m' (notes ++ notes') :=
  ⟨h.pointers.frame hp hmoves.frame, h.accounts.moves hp hmoves⟩

theorem Sound.abort (h : Sound m notes) : Sound m.abort notes :=
  ⟨⟨h.pointers.table, h.pointers.calls, h.pointers.interest⟩,
    h.accounts.of_contexts rfl rfl rfl rfl⟩

theorem Sound.setCall {call : Option IoCall}
    (h : Sound m notes)
    (hcall : ∀ c ∈ call, ∀ p ∈ c.pointers, p < m.allocated) :
    Sound (m.setCall thread call) notes :=
  ⟨h.pointers.setCall hcall, h.accounts.of_contexts rfl rfl rfl rfl⟩

theorem Sound.takeSlot {call : ℕ → IoCall}
    (h : Sound m notes) (hcall : ∀ p, (call p).pointers = [p]) :
    Sound (m.takeSlot thread fd call) notes := by
  unfold IOManager.takeSlot
  split
  · next p hslot =>
      refine h.setCall fun c hc q hq => ?_
      obtain rfl : call p = c := Option.some.inj hc
      rw [hcall, List.mem_singleton] at hq
      rw [hq]
      exact h.pointers.table fd p hslot
  · exact h.abort
  · exact h.abort

theorem Sound.lookup {call : ℕ → IoCall}
    (h : Sound m notes) (hcall : ∀ p, (call p).pointers = [p]) :
    Sound (m.lookup thread fd call) notes := by
  unfold IOManager.lookup
  split
  · exact h
  · exact h.takeSlot hcall

theorem Sound.contextResize (h : Sound m notes) (size : ℕ) :
    Sound (m.contextResize size) notes :=
  ⟨h.pointers.contextResize size, h.accounts.contextResize size⟩

/-- The next critical section of a call. -/
inductive ProceedStep (m : IOManager) (thread : ℕ) (succeeds : Bool) :
    IoCall → IOManager → List IoNote → Prop
  | resize (fd : ℕ) (event : IoEvent) (caller : IoCaller) :
      ProceedStep m thread succeeds (.addSmall fd event caller)
        ((m.contextResize (3 * fd / 2)).takeSlot thread fd
          (fun p => .addEvent p fd event caller)) []
  | finished :
      ProceedStep m thread succeeds (.idle []) (m.setCall thread none) []
  | moves {call : IoCall} {next : Option IoCall} {p : ℕ} {m' : IOManager}
      {notes : List IoNote} (hp : p ∈ call.pointers)
      (hnext : ∀ c ∈ next, ∀ q ∈ c.pointers, q ∈ call.pointers)
      (horderly : m.Orderly succeeds call)
      (h : Moves p (m.setCall thread next) notes m') :
      ProceedStep m thread succeeds call m' notes
  | breaks {call : IoCall} {next : Option IoCall} {p : ℕ} {m' : IOManager}
      {notes : List IoNote} (hp : p ∈ call.pointers)
      (hnot : ¬m.Orderly succeeds call)
      (h : Breaks p (m.setCall thread next) notes m') :
      ProceedStep m thread succeeds call m' notes

theorem proceedStep
    (hlive : m.aborted = false) (hwaits : m.Waits) (call : IoCall) :
    ProceedStep m thread succeeds call (m.proceed thread succeeds call).1
      (m.proceed thread succeeds call).2 := by
  have hwaits' (call : Option IoCall) : (m.setCall thread call).Waits :=
    ⟨hwaits.task, hwaits.null⟩
  cases call with
  | addSmall fd event caller => exact .resize fd event caller
  | addEvent p fd event caller =>
      by_cases horderly : m.Orderly succeeds (.addEvent p fd event caller)
      · exact .moves (List.mem_singleton_self p) (by simp) horderly
          (addLocked_moves (hwaits' none) horderly)
      · have hnot := horderly
        simp only [Orderly, Classical.not_imp, not_not] at hnot
        exact .breaks (List.mem_singleton_self p) horderly
          (addLocked_breaks hnot.1 hnot.2.1 hnot.2.2)
  | delEvent p fd event =>
      exact .moves (List.mem_singleton_self p) (by simp) trivial
        (delLocked_moves (hwaits' none))
  | cancelEvent p fd event =>
      by_cases horderly : m.Orderly succeeds (.cancelEvent p fd event)
      · exact .moves (List.mem_singleton_self p) (by simp) horderly
          (cancelLocked_moves hlive (hwaits' none) horderly)
      · have hnot := horderly
        simp only [Orderly, Classical.not_imp] at hnot
        exact .breaks (List.mem_singleton_self p) horderly
          (cancelLocked_breaks (hwaits' none) hnot.1 hnot.2.1 hnot.2.2)
  | cancelAll p fd =>
      by_cases horderly : m.Orderly succeeds (.cancelAll p fd)
      · exact .moves (List.mem_singleton_self p) (by simp) horderly
          (cancelAllLocked_moves hlive (hwaits' none) horderly)
      · have hnot := horderly
        simp only [Orderly, Classical.not_imp, not_forall] at hnot
        obtain ⟨hctl, event, hevent, hnot⟩ := hnot
        exact .breaks (List.mem_singleton_self p) horderly
          (cancelAllLocked_breaks hlive (hwaits' none) hctl hevent hnot)
  | idle batch =>
      cases batch with
      | nil => exact .finished
      | cons ready batch =>
          by_cases horderly : m.Orderly succeeds (.idle (ready :: batch))
          · refine .moves (List.mem_cons_self ..) ?_ horderly
              (handleReady_moves hlive (hwaits' _) horderly)
            rintro c hc q hq
            obtain rfl : IoCall.idle batch = c := Option.some.inj hc
            exact List.mem_cons_of_mem _ hq
          · have hnot := horderly
            simp only [Orderly, Classical.not_imp, not_forall] at hnot
            obtain ⟨hcommon, hctl, event, hevent, hnot⟩ := hnot
            exact .breaks (List.mem_cons_self ..) horderly
              (handleReady_breaks hlive (hwaits' _) hcommon hctl hevent hnot)

theorem Sound.proceed {call : IoCall}
    (h : Sound m notes) (hcall : m.calls thread = some call)
    (horderly : m.Orderly succeeds call)
    (hstep : ProceedStep m thread succeeds call m' notes') :
    Sound m' (notes ++ notes') := by
  have hpointers := h.pointers.calls thread call hcall
  cases hstep with
  | resize fd event caller =>
      rw [List.append_nil]
      exact (h.contextResize _).takeSlot fun p => rfl
  | finished =>
      rw [List.append_nil]
      exact h.setCall (by simp)
  | moves hp hnext _ hmoves =>
      exact (h.setCall fun c hc q hq =>
        hpointers q (hnext c hc q hq)).moves (hpointers _ hp) hmoves
  | breaks _ hnot => exact absurd horderly hnot

theorem Sound.spoilt {call : IoCall}
    (h : Sound m notes) (hcall : m.calls thread = some call)
    (hnot : ¬m.Orderly succeeds call)
    (hstep : ProceedStep m thread succeeds call m' notes') :
    ¬Accurate m' (notes ++ notes') := by
  cases hstep with
  | resize | finished => exact absurd trivial hnot
  | moves _ _ horderly => exact absurd horderly hnot
  | @breaks _ next _ _ _ hp _ hbreaks =>
      have haccounts : Accounts (m.setCall thread next) notes :=
        h.accounts.of_contexts rfl rfl rfl rfl
      exact haccounts.breaks (h.pointers.calls thread call hcall _ hp) hbreaks

/-- A step, seen by the waiters. -/
inductive EventStep (m : IOManager) : Action → IOManager → List IoNote → Prop
  | calls {a : Action} {m' : IOManager}
      (ha : ∀ thread succeeds, a ≠ .proceed thread succeeds)
      (h : ∀ notes, Sound m notes → Sound m' notes) : EventStep m a m' []
  | proceed {thread : ℕ} {succeeds : Bool} {call : IoCall} {m' : IOManager}
      {notes : List IoNote} (hcall : m.calls thread = some call)
      (h : ProceedStep m thread succeeds call m' notes) :
      EventStep m (.proceed thread succeeds) m' notes

theorem eventStep
    (hwaits : m.Waits) (hstep : step m a = some (m', notes)) :
    EventStep m a m' notes := by
  unfold step at hstep
  split at hstep
  · cases hstep
  next hlive =>
  have hlive : m.aborted = false := by simpa using hlive
  cases a with
  | addEvent thread fd event caller =>
      dsimp only at hstep
      split at hstep
      · cases hstep
      split at hstep
      · cases hstep
        exact .calls (by simp) fun notes h => h.takeSlot fun p => rfl
      · cases hstep
        exact .calls (by simp) fun notes h => h.setCall fun c hc q hq => by
          obtain rfl := Option.some.inj hc
          cases hq
  | delEvent thread fd event | cancelEvent thread fd event
  | cancelAll thread fd =>
      dsimp only at hstep
      split at hstep
      · cases hstep
      cases hstep
      exact .calls (by simp) fun notes h => h.lookup fun p => rfl
  | epollWait thread batch =>
      dsimp only at hstep
      split at hstep
      · next hreports =>
          cases hstep
          refine .calls (by simp) fun notes h => h.setCall fun c hc q hq => ?_
          obtain rfl := Option.some.inj hc
          obtain ⟨ready, hready, rfl⟩ := List.mem_map.mp hq
          obtain ⟨events, hinterest, -⟩ := hreports.2 ready hready
          exact h.pointers.interest _ _ _ hinterest
      · cases hstep
  | proceed thread succeeds =>
      obtain ⟨call, hcall, hproceed⟩ := Option.map_eq_some_iff.mp hstep
      have hcases : ProceedStep m thread succeeds call _ _ :=
        proceedStep hlive hwaits call
      rw [hproceed] at hcases
      exact .proceed hcall hcases
  | close fd =>
      cases hstep
      refine .calls (by simp) fun notes h => ⟨⟨h.pointers.table,
        h.pointers.calls, fun fd' q events hsome => ?_⟩, ?_⟩
      · by_cases hfd : fd' = fd
        · simp [hfd] at hsome
        · exact h.pointers.interest fd' q events (by simpa [hfd] using hsome)
      · exact h.accounts.of_contexts rfl rfl rfl rfl

/-! ## Runs -/

/-- The critical section that a thread comes to does not go wrong. -/
def Proceeds (m : IOManager) : Action → Prop
  | .proceed thread succeeds =>
      ∀ call ∈ m.calls thread, m.Orderly succeeds call
  | _ => True

instance (m : IOManager) : (a : Action) → Decidable (Proceeds m a)
  | .proceed .. => inferInstanceAs (Decidable (∀ call ∈ _, _))
  | .addEvent .. | .delEvent .. | .cancelEvent .. | .cancelAll ..
  | .epollWait .. | .close _ => .isTrue trivial

theorem sound_step (h : Sound m notes) (hproceeds : Proceeds m a)
    (hstep : step m a = some (m', notes')) : Sound m' (notes ++ notes') := by
  cases eventStep h.accounts.waits hstep with
  | calls _ hcalls =>
      rw [List.append_nil]
      exact hcalls notes h
  | proceed hcall hproceed =>
      exact h.proceed hcall (hproceeds _ hcall) hproceed

theorem spoilt_step (h : Sound m notes) (hnot : ¬Proceeds m a)
    (hstep : step m a = some (m', notes')) :
    ¬Accurate m' (notes ++ notes') := by
  cases eventStep h.accounts.waits hstep with
  | calls ha =>
      cases a with
      | proceed thread succeeds => exact absurd rfl (ha thread succeeds)
      | _ => exact absurd trivial hnot
  | proceed hcall hproceed =>
      refine h.spoilt hcall (fun horderly => hnot fun call hmem => ?_) hproceed
      obtain rfl := Option.some.inj (hcall.symm.trans hmem)
      exact horderly

theorem new_sound : Sound (new asserts) [] := by
  refine Sound.contextResize ⟨⟨?_, ?_, ?_⟩, ⟨⟨?_, ?_⟩, ?_, ?_, ?_, ?_⟩⟩ 32
  · simp
  · simp
  · simp
  · simp
  · simp
  · simp
  · simp [total]
  · simp
  · simp [total]

/-- The accounts are right all along in exactly those runs in which no critical
section goes wrong, with assertions or without. -/
theorem io_events {as : List Action}
    (hrun : run step (new asserts) as = some (m, notes)) :
    Throughout step Proceeds (new asserts) as ↔
      ∀ as₁ as₂ m₁ notes₁, as = as₁ ++ as₂ →
        run step (new asserts) as₁ = some (m₁, notes₁) →
          Accurate m₁ notes₁ :=
  throughout_iff_history (fun _ _ h => h.accounts.accurate)
    (fun _ _ _ _ _ hproceeds h hstep => sound_step h hproceeds hstep)
    (fun _ _ _ _ _ hnot h hstep => spoilt_step h hnot hstep) new_sound hrun

/-- Both events of descriptor 5 are registered and ready. -/
def bothReady : List Action :=
  [.addEvent 0 5 .read ⟨some 0, false⟩, .proceed 0 true,
    .addEvent 0 5 .write ⟨some 0, true⟩, .proceed 0 true,
    .epollWait 1 [⟨5, {.read, .write}, false⟩]]

/-- `WRITE` is cancelled before `idle` comes to the entry. -/
theorem cancelled_half_triggered :
    ∃ m notes, run step (new false) (bothReady ++
        [.cancelEvent 2 5 .write, .proceed 2 true, .proceed 1 true]) =
          some (m, notes) ∧
      .triggered 5 .write false ∈ notes ∧ m.aborted = true ∧
      ¬Accurate m notes := by
  obtain ⟨m, notes, hrun, hmem, haborted⟩ : ∃ m notes,
      run step (new false) (bothReady ++
        [.cancelEvent 2 5 .write, .proceed 2 true, .proceed 1 true]) =
          some (m, notes) ∧
        .triggered 5 .write false ∈ notes ∧ m.aborted = true := by
    decide +kernel
  exact ⟨m, notes, hrun, hmem, haborted,
    fun haccurate => haccurate.triggers _ hmem 5 .write rfl⟩

/-- A callback that is registered on a thread without a scheduler is lost. -/
example :
    ∃ m notes, run step (new true) [.addEvent 0 5 .read ⟨none, true⟩,
        .proceed 0 true, .cancelEvent 1 5 .read, .proceed 1 true] =
          some (m, notes) ∧
      m.aborted = true ∧ m.pendingEventCnt = 1 ∧
      (m.contexts 5).events = ∅ ∧ .scheduled 0 ∉ notes := by
  decide +kernel

/-- Without assertions one event is counted twice. -/
example :
    ∃ m notes, run step (new false) [.addEvent 0 5 .read ⟨some 0, false⟩,
        .proceed 0 true, .addEvent 1 5 .read ⟨some 0, false⟩,
        .proceed 1 true] = some (m, notes) ∧
      m.pendingEventCnt = 2 ∧ (m.contexts 5).events = {.read} := by
  decide +kernel

/-- Without the cancellation both waiters are scheduled. -/
theorem io_events_ready :
    ∃ m notes, run step (new false) (bothReady ++ [.proceed 1 true]) =
        some (m, notes) ∧
      Accurate m notes ∧ m.pendingEventCnt = 0 ∧
      notes.count (.scheduled 0) = 1 ∧ notes.count (.scheduled 1) = 1 := by
  obtain ⟨m, notes, hrun, hcounts⟩ : ∃ m notes,
      run step (new false) (bothReady ++ [.proceed 1 true]) =
          some (m, notes) ∧
        m.pendingEventCnt = 0 ∧ notes.count (.scheduled 0) = 1 ∧
          notes.count (.scheduled 1) = 1 := by
    decide +kernel
  exact ⟨m, notes, hrun, (io_events hrun).mp (by decide +kernel) _ [] _ _
    (by simp) hrun, hcounts⟩

end IOManager

end KVRaftStorage
