import KVRaftStorage.Fiber.IOManager

/-!
# The descriptor table

`addEvent` looks at the size of the table under the read lock and resizes it
under the write lock, to a size that depends on its own descriptor only.  Two
calls that both find the table too small may take the write lock in either
order, and the second one cuts the table back if its target is smaller.  The
contexts behind the cut are never reached again.

Every slot of the table holds a context with the right descriptor in every run.
The table keeps what it has if and only if no call resizes it to less than it
already is.
-/

namespace KVRaftStorage

open Transition

namespace IOManager

variable {m m' m₁ : IOManager} {slots slots' : List (Option ℕ)}
  {p fd thread size i : ℕ} {event : IoEvent} {caller : IoCaller}
  {asserts succeeds : Bool} {notes : List IoNote}

/-! ## Steps that leave the table alone -/

/-- The table and the descriptors of its contexts are as before. -/
structure Keeps (m m' : IOManager) : Prop where
  fdContexts : m'.fdContexts = m.fdContexts
  allocated : m'.allocated = m.allocated
  fd : ∀ p, (m'.contexts p).fd = (m.contexts p).fd

theorem Keeps.refl (m : IOManager) : Keeps m m :=
  ⟨rfl, rfl, fun _ => rfl⟩

theorem Keeps.trans
    (h : Keeps m m₁) (h' : Keeps m₁ m') : Keeps m m' where
  fdContexts := h'.fdContexts.trans h.fdContexts
  allocated := h'.allocated.trans h.allocated
  fd p := (h'.fd p).trans (h.fd p)

/-- What else changes does not matter. -/
theorem Keeps.of_eq
    (hcontexts : m'.contexts = m.contexts)
    (htable : m'.fdContexts = m.fdContexts)
    (hallocated : m'.allocated = m.allocated) : Keeps m m' :=
  ⟨htable, hallocated, fun p => by rw [hcontexts]⟩

/-- One context changes, but not its descriptor. -/
theorem Keeps.of_update {ctx : FdContext}
    (hcontexts : m'.contexts = Function.update m.contexts p ctx)
    (hfd : ctx.fd = (m.contexts p).fd)
    (htable : m'.fdContexts = m.fdContexts)
    (hallocated : m'.allocated = m.allocated) : Keeps m m' := by
  refine ⟨htable, hallocated, fun q => ?_⟩
  rw [hcontexts]
  by_cases hq : q = p
  · rw [hq, Function.update_self, hfd]
  · rw [Function.update_of_ne hq]

theorem Keeps.abort (h : Keeps m m') : Keeps m m'.abort :=
  h.trans (Keeps.of_eq rfl rfl rfl)

theorem keeps_setCall {call : Option IoCall} :
    Keeps m (m.setCall thread call) :=
  Keeps.of_eq rfl rfl rfl

theorem keeps_takeSlot {call : ℕ → IoCall} :
    Keeps m (m.takeSlot thread fd call) := by
  unfold takeSlot
  split
  · exact keeps_setCall
  · exact (Keeps.refl m).abort
  · exact (Keeps.refl m).abort

theorem epollCtl_eq {op : EpollOp} {events : Finset IoEvent}
    (h : m.epollCtl succeeds op fd p events = some m') :
    ∃ entry : Option (ℕ × Finset IoEvent), (∀ e ∈ entry, e.1 = p) ∧
      m' = { m with interest := Function.update m.interest fd entry } := by
  unfold epollCtl at h
  split at h
  · split at h <;> first
      | exact ⟨_, by simp, (Option.some.inj h).symm⟩
      | cases h
  · cases h

theorem keeps_epollCtl {op : EpollOp} {events : Finset IoEvent}
    (h : m.epollCtl succeeds op fd p events = some m') : Keeps m m' := by
  obtain ⟨entry, -, rfl⟩ := epollCtl_eq h
  exact Keeps.of_eq rfl rfl rfl

theorem keeps_triggerEvent : Keeps m (m.triggerEvent p event).1 := by
  unfold triggerEvent
  dsimp only
  split
  · exact (Keeps.refl m).abort
  · split
    · exact Keeps.abort (Keeps.of_update rfl rfl rfl rfl)
    · exact Keeps.of_update rfl rfl rfl rfl

theorem keeps_triggerPending : Keeps m (m.triggerPending p event).1 := by
  unfold triggerPending
  dsimp only
  split
  · exact keeps_triggerEvent
  · exact keeps_triggerEvent.trans (Keeps.of_eq rfl rfl rfl)

theorem keeps_triggerBoth {read : Bool} {write : IOManager → Bool} :
    Keeps m (m.triggerBoth p read write).1 := by
  have hread : Keeps m
      (if read then m.triggerPending p .read else (m, [])).1 := by
    split
    · exact keeps_triggerPending
    · exact Keeps.refl m
  unfold triggerBoth
  generalize (if read then m.triggerPending p .read else (m, [])) = first
    at hread ⊢
  obtain ⟨m₁, notes⟩ := first
  dsimp only
  split
  · exact hread
  · split
    · exact hread.trans keeps_triggerPending
    · exact hread

theorem keeps_addLocked :
    Keeps m (m.addLocked succeeds p fd event caller).1 := by
  unfold addLocked
  dsimp only
  split
  · exact (Keeps.refl m).abort
  · split
    · exact Keeps.refl m
    · next m₁ hctl =>
        obtain ⟨entry, -, rfl⟩ := epollCtl_eq hctl
        have hevents : Keeps m ({ m with
            interest := Function.update m.interest fd entry
            contexts := Function.update m.contexts p { m.contexts p with
              events := insert event (m.contexts p).events }
            pendingEventCnt := m.pendingEventCnt + 1 } : IOManager) :=
          Keeps.of_update rfl rfl rfl rfl
        split
        · exact hevents.abort
        · exact hevents.trans (Keeps.of_update rfl
            (hevents.fd p).symm rfl rfl)

theorem keeps_delLocked : Keeps m (m.delLocked succeeds p fd event).1 := by
  unfold delLocked
  dsimp only
  split
  · exact Keeps.refl m
  · split
    · exact Keeps.refl m
    · next hctl =>
        obtain ⟨entry, -, rfl⟩ := epollCtl_eq hctl
        exact Keeps.of_update rfl rfl rfl rfl

theorem keeps_cancelLocked :
    Keeps m (m.cancelLocked succeeds p fd event).1 := by
  unfold cancelLocked
  dsimp only
  split
  · exact Keeps.refl m
  · split
    · exact Keeps.refl m
    · next hctl => exact (keeps_epollCtl hctl).trans keeps_triggerPending

theorem keeps_cancelAllLocked :
    Keeps m (m.cancelAllLocked succeeds p fd).1 := by
  unfold cancelAllLocked
  dsimp only
  split
  · exact Keeps.refl m
  · split
    · exact Keeps.refl m
    · next hctl =>
        have hkeeps := keeps_epollCtl hctl
        split
        · exact (hkeeps.trans keeps_triggerBoth).abort
        · exact hkeeps.trans keeps_triggerBoth

theorem keeps_handleReady {ready : Ready} :
    Keeps m (m.handleReady succeeds ready).1 := by
  unfold handleReady
  dsimp only
  split
  · exact Keeps.refl m
  · split
    · exact Keeps.refl m
    · next hctl => exact (keeps_epollCtl hctl).trans keeps_triggerBoth

/-! ## The resize -/

/-- `new FdContext` with its descriptor. -/
def emptyContext (fd : ℕ) : FdContext :=
  { fd := fd, events := ∅, eveContext := fun _ => .null }

/-- What `fillSlots` makes of the slots from `i` on. -/
structure Fills (i : ℕ) (m m' : IOManager) (slots slots' : List (Option ℕ)) :
    Prop where
  length : slots'.length = slots.length
  grows : m.allocated ≤ m'.allocated
  calls : m'.calls = m.calls
  interest : m'.interest = m.interest
  pendingEventCnt : m'.pendingEventCnt = m.pendingEventCnt
  nextWaiter : m'.nextWaiter = m.nextWaiter
  old : ∀ p < m.allocated, m'.contexts p = m.contexts p
  beyond : ∀ p, m'.allocated ≤ p → m'.contexts p = m.contexts p
  kept : ∀ (j p : ℕ), slots[j]? = some (some p) → slots'[j]? = some (some p)
  filled : ∀ j : ℕ, slots[j]? = some none → ∃ p, m.allocated ≤ p ∧
    p < m'.allocated ∧ slots'[j]? = some (some p) ∧
    m'.contexts p = emptyContext (i + j)
  fresh : ∀ p, m.allocated ≤ p → p < m'.allocated →
    ∃ j : ℕ, slots'[j]? = some (some p) ∧ m'.contexts p = emptyContext (i + j)

theorem Fills.nil (i : ℕ) (m : IOManager) : Fills i m m [] [] where
  length := rfl
  grows := le_rfl
  calls := rfl
  interest := rfl
  pendingEventCnt := rfl
  nextWaiter := rfl
  old _ _ := rfl
  beyond _ _ := rfl
  kept _ _ hslot := hslot
  filled _ hslot := by simp at hslot
  fresh p hp hlt := absurd hlt (not_lt.mpr hp)

/-- A slot that is not empty. -/
theorem Fills.skip
    (h : Fills (i + 1) m m' slots slots') :
    Fills i m m' (some p :: slots) (some p :: slots') where
  length := congrArg (· + 1) h.length
  grows := h.grows
  calls := h.calls
  interest := h.interest
  pendingEventCnt := h.pendingEventCnt
  nextWaiter := h.nextWaiter
  old := h.old
  beyond := h.beyond
  kept
    | 0, _, hslot => hslot
    | j + 1, q, hslot => h.kept j q hslot
  filled
    | 0, hslot => by simp at hslot
    | j + 1, hslot => by
        obtain ⟨q, hq, hlt, hslot', hctx⟩ := h.filled j hslot
        exact ⟨q, hq, hlt, hslot', by rw [hctx]; congr 1; omega⟩
  fresh q hq hlt := by
    obtain ⟨j, hslot, hctx⟩ := h.fresh q hq hlt
    exact ⟨j + 1, hslot, by rw [hctx]; congr 1; omega⟩

theorem newContext_same (m : IOManager) (fd : ℕ) :
    (m.newContext fd).contexts m.allocated = emptyContext fd :=
  Function.update_self ..

theorem newContext_other (hp : p ≠ m.allocated) :
    (m.newContext fd).contexts p = m.contexts p :=
  Function.update_of_ne hp ..

/-- An empty slot gets the next context. -/
theorem Fills.fill
    (h : Fills (i + 1) (m.newContext i) m' slots slots') :
    Fills i m m' (none :: slots) (some m.allocated :: slots') where
  length := congrArg (· + 1) h.length
  grows := (Nat.le_succ _).trans h.grows
  calls := h.calls
  interest := h.interest
  pendingEventCnt := h.pendingEventCnt
  nextWaiter := h.nextWaiter
  old p hp := by
    rw [h.old p (hp.trans (Nat.lt_succ_self _)), newContext_other hp.ne]
  beyond p hp := by
    rw [h.beyond p hp, newContext_other
      (Nat.lt_of_succ_le (h.grows.trans hp)).ne']
  kept
    | 0, _, hslot => by simp at hslot
    | j + 1, q, hslot => h.kept j q hslot
  filled
    | 0, _ => ⟨m.allocated, le_rfl, h.grows, rfl, by
        rw [h.old m.allocated (Nat.lt_succ_self _), newContext_same]; rfl⟩
    | j + 1, hslot => by
        obtain ⟨q, hq, hlt, hslot', hctx⟩ := h.filled j hslot
        exact ⟨q, (Nat.le_succ _).trans hq, hlt, hslot', by
          rw [hctx]; congr 1; omega⟩
  fresh q hq hlt := by
    rcases hq.eq_or_lt with rfl | hq
    · refine ⟨0, rfl, ?_⟩
      rw [h.old m.allocated (Nat.lt_succ_self _), newContext_same]
      rfl
    · obtain ⟨j, hslot, hctx⟩ := h.fresh q hq hlt
      exact ⟨j + 1, hslot, by rw [hctx]; congr 1; omega⟩

theorem fillSlots_fills (slots : List (Option ℕ)) (i : ℕ) (m : IOManager) :
    Fills i m (fillSlots slots i m).2 slots (fillSlots slots i m).1 := by
  induction slots generalizing i m with
  | nil => exact Fills.nil i m
  | cons slot slots ih =>
      cases slot with
      | some p => exact (ih (i + 1) m).skip
      | none => exact (ih (i + 1) (m.newContext i)).fill

/-- The slots that `resize` leaves to the loop. -/
def cutSlots (m : IOManager) (size : ℕ) : List (Option ℕ) :=
  m.fdContexts.take size ++
    List.replicate (size - m.fdContexts.length) none

theorem length_cutSlots (m : IOManager) (size : ℕ) :
    (m.cutSlots size).length = size := by
  simp only [cutSlots, List.length_append, List.length_take,
    List.length_replicate]
  omega

/-- A slot is an old one or an empty one. -/
theorem getElem?_cutSlots (hi : i < size) :
    (m.cutSlots size)[i]? = m.fdContexts[i]? ∨
      m.fdContexts.length ≤ i ∧ (m.cutSlots size)[i]? = some none := by
  by_cases hlt : i < m.fdContexts.length
  · left
    rw [cutSlots, List.getElem?_append_left (by simp; omega),
      List.getElem?_take_of_lt hi]
  · right
    refine ⟨not_lt.mp hlt, ?_⟩
    rw [cutSlots, List.getElem?_append_right (by simp; omega),
      List.getElem?_replicate_of_lt (by simp; omega)]

theorem contextResize_fills (m : IOManager) (size : ℕ) :
    Fills 0 m (m.contextResize size) (m.cutSlots size)
      (m.contextResize size).fdContexts := by
  have h := fillSlots_fills (m.cutSlots size) 0 m
  exact ⟨h.length, h.grows, h.calls, h.interest, h.pendingEventCnt,
    h.nextWaiter, h.old, h.beyond, h.kept, h.filled, h.fresh⟩

@[simp] theorem length_contextResize (m : IOManager) (size : ℕ) :
    (m.contextResize size).fdContexts.length = size := by
  rw [(contextResize_fills m size).length, length_cutSlots]

/-! ## What holds of the table -/

/-- Every slot below the size holds a context with its descriptor. -/
def Filled (m : IOManager) : Prop :=
  ∀ i < m.fdContexts.length, ∃ p < m.allocated,
    m.fdContexts[i]? = some (some p) ∧ (m.contexts p).fd = i

/-- A context with registered events is at its index. -/
def Reachable (m : IOManager) : Prop :=
  ∀ p < m.allocated, (m.contexts p).events ≠ ∅ →
    m.fdContexts[(m.contexts p).fd]? = some (some p)

/-- Every context is at its index. -/
def Live (m : IOManager) : Prop :=
  ∀ p < m.allocated, m.fdContexts[(m.contexts p).fd]? = some (some p)

theorem Live.reachable (h : m.Live) : m.Reachable :=
  fun p hp _ => h p hp

theorem Keeps.filled (h : Keeps m m') (hfilled : m.Filled) : m'.Filled := by
  intro i hi
  rw [h.fdContexts] at hi
  obtain ⟨p, hp, hslot, hfd⟩ := hfilled i hi
  exact ⟨p, by rwa [h.allocated], by rwa [h.fdContexts], by rw [h.fd, hfd]⟩

theorem Keeps.live (h : Keeps m m') (hlive : m.Live) : m'.Live := by
  intro p hp
  rw [h.allocated] at hp
  rw [h.fd, h.fdContexts]
  exact hlive p hp

theorem Filled.contextResize
    (h : m.Filled) (size : ℕ) : (m.contextResize size).Filled := by
  have hfills := contextResize_fills m size
  intro i hi
  rw [length_contextResize] at hi
  have hempty (hslot : (m.cutSlots size)[i]? = some none) :
      ∃ p < (m.contextResize size).allocated,
        (m.contextResize size).fdContexts[i]? = some (some p) ∧
          ((m.contextResize size).contexts p).fd = i := by
    obtain ⟨p, -, hp, hslot', hctx⟩ := hfills.filled i hslot
    exact ⟨p, hp, hslot', by rw [hctx, Nat.zero_add]; rfl⟩
  rcases getElem?_cutSlots (m := m) hi with hold | ⟨-, hslot⟩
  · by_cases hlt : i < m.fdContexts.length
    · obtain ⟨p, hp, hslot, hfd⟩ := h i hlt
      exact ⟨p, hp.trans_le hfills.grows,
        hfills.kept i p (hold.trans hslot), by rw [hfills.old p hp, hfd]⟩
    · rw [List.getElem?_eq_none (not_lt.mp hlt)] at hold
      have := List.getElem?_eq_none_iff.mp hold
      rw [length_cutSlots] at this
      omega
  · exact hempty hslot

/-- A table that is not cut back keeps every context. -/
theorem Live.contextResize
    (h : m.Live) (hsize : m.fdContexts.length ≤ size) :
    (m.contextResize size).Live := by
  have hfills := contextResize_fills m size
  intro p hp
  rcases lt_or_ge p m.allocated with hold | hnew
  · have hslot := h p hold
    have hlt := (List.getElem?_eq_some_iff.mp hslot).1
    rw [hfills.old p hold]
    refine hfills.kept _ p ?_
    rcases getElem?_cutSlots (m := m) (hlt.trans_le hsize) with heq | ⟨hge, -⟩
    · exact heq.trans hslot
    · exact absurd hlt (not_lt.mpr hge)
  · obtain ⟨i, hslot, hctx⟩ := hfills.fresh p hnew hp
    rw [hctx, Nat.zero_add]
    exact hslot

/-! ## Steps -/

theorem keeps_proceed
    (call : IoCall)
    (hcall : ∀ fd event caller, call ≠ .addSmall fd event caller) :
    Keeps m (m.proceed thread succeeds call).1 := by
  cases call with
  | addSmall fd event caller => exact absurd rfl (hcall fd event caller)
  | addEvent p fd event caller => exact keeps_setCall.trans keeps_addLocked
  | delEvent p fd event => exact keeps_setCall.trans keeps_delLocked
  | cancelEvent p fd event => exact keeps_setCall.trans keeps_cancelLocked
  | cancelAll p fd => exact keeps_setCall.trans keeps_cancelAllLocked
  | idle batch =>
      cases batch with
      | nil => exact keeps_setCall
      | cons ready batch => exact keeps_setCall.trans keeps_handleReady

theorem keeps_lookup {call : ℕ → IoCall} :
    Keeps m (m.lookup thread fd call) := by
  unfold lookup
  split
  · exact Keeps.refl m
  · exact keeps_takeSlot

/-- Only a call that has found the table too small resizes it. -/
inductive TableStep (m : IOManager) (a : Action) (m' : IOManager) : Prop where
  | keeps (h : Keeps m m')
  | resize (thread : ℕ) (succeeds : Bool) (fd : ℕ) (event : IoEvent)
      (caller : IoCaller) (ha : a = .proceed thread succeeds)
      (hcall : m.calls thread = some (.addSmall fd event caller))
      (h : Keeps (m.contextResize (3 * fd / 2)) m')

theorem tableStep {a : Action} (h : step m a = some (m', notes)) :
    TableStep m a m' := by
  unfold step at h
  split at h
  · cases h
  cases a with
  | addEvent thread fd event caller =>
      dsimp only at h
      split at h
      · cases h
      split at h
      · cases h
        exact .keeps keeps_takeSlot
      · cases h
        exact .keeps keeps_setCall
  | delEvent thread fd event =>
      dsimp only at h
      split at h
      · cases h
      cases h
      exact .keeps keeps_lookup
  | cancelEvent thread fd event =>
      dsimp only at h
      split at h
      · cases h
      cases h
      exact .keeps keeps_lookup
  | cancelAll thread fd =>
      dsimp only at h
      split at h
      · cases h
      cases h
      exact .keeps keeps_lookup
  | epollWait thread batch =>
      dsimp only at h
      split at h
      · cases h
        exact .keeps keeps_setCall
      · cases h
  | proceed thread succeeds =>
      obtain ⟨call, hcall, hproceed⟩ := Option.map_eq_some_iff.mp h
      obtain rfl : (m.proceed thread succeeds call).1 = m' :=
        congrArg Prod.fst hproceed
      by_cases hsmall : ∃ fd event caller, call = .addSmall fd event caller
      · obtain ⟨fd, event, caller, rfl⟩ := hsmall
        exact .resize thread succeeds fd event caller rfl hcall keeps_takeSlot
      · exact .keeps (keeps_proceed call fun fd event caller heq =>
          hsmall ⟨fd, event, caller, heq⟩)
  | close fd =>
      cases h
      exact .keeps (Keeps.of_eq rfl rfl rfl)

/-! ## Runs -/

/-- The call that takes the write lock does not cut the table back. -/
def GrowsTable (m : IOManager) : Action → Prop
  | .proceed thread _ => ∀ fd event caller,
      m.calls thread = some (.addSmall fd event caller) →
        m.fdContexts.length ≤ 3 * fd / 2
  | _ => True

instance (m : IOManager) : (a : Action) → Decidable (GrowsTable m a)
  | .proceed thread _ =>
      match h : m.calls thread with
      | some (.addSmall fd ..) =>
          decidable_of_iff (m.fdContexts.length ≤ 3 * fd / 2) (by
            simp [GrowsTable, h])
      | none => .isTrue (by simp [GrowsTable, h])
      | some (.addEvent ..) => .isTrue (by simp [GrowsTable, h])
      | some (.delEvent ..) => .isTrue (by simp [GrowsTable, h])
      | some (.cancelEvent ..) => .isTrue (by simp [GrowsTable, h])
      | some (.cancelAll ..) => .isTrue (by simp [GrowsTable, h])
      | some (.idle _) => .isTrue (by simp [GrowsTable, h])
  | .addEvent .. | .delEvent .. | .cancelEvent .. | .cancelAll ..
  | .epollWait .. | .close _ => .isTrue trivial

/-- What the table promises in the course of a run: it never shrinks, its slots
are filled, and a context with registered events stays reachable. -/
structure KeepsRegistrations (asserts : Bool) (as : List Action) : Prop where
  size : ∀ as₁ a as₂ m notes m' notes', as = as₁ ++ a :: as₂ →
    run step (new asserts) as₁ = some (m, notes) →
    step m a = some (m', notes') →
    m.fdContexts.length ≤ m'.fdContexts.length
  filled : ∀ m, Visits step (new asserts) as m → m.Filled
  reachable : ∀ m, Visits step (new asserts) as m → m.Reachable

theorem filled_step {a : Action}
    (h : m.Filled) (hstep : step m a = some (m', notes)) : m'.Filled := by
  rcases tableStep hstep with hkeeps | ⟨_, _, fd, _, _, -, -, hkeeps⟩
  · exact hkeeps.filled h
  · exact hkeeps.filled (h.contextResize (3 * fd / 2))

theorem live_step {a : Action}
    (h : m.Live) (hgrows : GrowsTable m a)
    (hstep : step m a = some (m', notes)) : m'.Live := by
  rcases tableStep hstep with
      hkeeps | ⟨_, _, fd, event, caller, rfl, hcall, hkeeps⟩
  · exact hkeeps.live h
  · exact hkeeps.live (h.contextResize (hgrows fd event caller hcall))

/-- A step lets the table shrink exactly if it cuts it back. -/
theorem growsTable_iff {a : Action} (hstep : step m a = some (m', notes)) :
    GrowsTable m a ↔ m.fdContexts.length ≤ m'.fdContexts.length := by
  constructor
  · intro hgrows
    rcases tableStep hstep with
      hkeeps | ⟨_, _, fd, event, caller, rfl, hcall, hkeeps⟩
    · exact (congrArg List.length hkeeps.fdContexts).ge
    · rw [hkeeps.fdContexts, length_contextResize]
      exact hgrows fd event caller hcall
  · intro hle
    cases a with
    | proceed thread succeeds =>
        intro fd event caller hcall
        have hproceed :
            m' = (m.proceed thread succeeds (.addSmall fd event caller)).1 := by
          unfold step at hstep
          split at hstep
          · cases hstep
          · simp only [hcall, Option.map_some, Option.some.injEq] at hstep
            exact (congrArg Prod.fst hstep).symm
        have hkeeps : Keeps (m.contextResize (3 * fd / 2)) m' := by
          rw [hproceed]
          exact keeps_takeSlot
        rwa [hkeeps.fdContexts, length_contextResize] at hle
    | _ => trivial

theorem new_filled : (new asserts).Filled :=
  Filled.contextResize (fun _ hi => absurd hi (Nat.not_lt_zero _)) 32

theorem new_live : (new asserts).Live :=
  Live.contextResize (fun _ hp => absurd hp (Nat.not_lt_zero _))
    (Nat.zero_le _)

/-- The slots are always filled.  Registrations are kept in exactly those runs
in which no call that takes the write lock cuts the table back. -/
theorem fd_table {as : List Action}
    (hrun : run step (new asserts) as = some (m', notes)) :
    (∀ m, Visits step (new asserts) as m → m.Filled) ∧
      (Throughout step GrowsTable (new asserts) as ↔
        KeepsRegistrations asserts as) := by
  have hfilled : ∀ m, Visits step (new asserts) as m → m.Filled := by
    rintro m ⟨as₁, as₂, notes₁, -, hfirst⟩
    exact run_invariant (fun _ _ _ _ _ hfilled hstep =>
      filled_step hfilled hstep) (throughout_true (new asserts) as₁) new_filled
      hfirst
  have hsize := throughout_iff_steps (I := fun _ => True)
    (fun _ _ _ _ _ _ => trivial)
    (fun m a m' notes _ hstep => growsTable_iff hstep) trivial
    hrun
  refine ⟨hfilled, fun hgrows => ⟨hsize.mp hgrows, hfilled, ?_⟩,
    fun hkeeps => hsize.mpr hkeeps.size⟩
  rintro m ⟨as₁, as₂, notes₁, rfl, hfirst⟩
  have hlive : m.Live := run_invariant (fun _ _ _ _ hgrows hlive hstep =>
    live_step hlive hgrows hstep) ((throughout_append hfirst).mp hgrows).1
    new_live hfirst
  exact hlive.reachable

/-- Both calls find 32 slots.  The first makes them 150 and registers its
event; the second makes them 60. -/
def cutTable : List Action :=
  [.addEvent 0 100 .read ⟨some 0, true⟩, .addEvent 1 40 .read ⟨some 0, true⟩,
    .proceed 0 true, .proceed 0 true, .proceed 1 true]

/-- Assertions make no difference. -/
theorem fd_table_cut :
    ¬KeepsRegistrations true cutTable ∧ ¬KeepsRegistrations false cutTable := by
  have hcut : ∀ asserts, ∃ m notes,
      run step (new asserts) cutTable = some (m, notes) ∧
        (m.contexts 100).events ≠ ∅ ∧ 100 < m.allocated ∧
          m.fdContexts[(m.contexts 100).fd]? = none := by
    decide +kernel
  have hlost : ∀ asserts, ¬KeepsRegistrations asserts cutTable := by
    intro asserts hkeeps
    obtain ⟨m, notes, hrun, hevents, hallocated, hslot⟩ := hcut asserts
    have hreachable := hkeeps.reachable m (Visits.last hrun) 100 hallocated
      hevents
    rw [hslot] at hreachable
    cases hreachable
  exact ⟨hlost true, hlost false⟩

/-- In the other order nothing is lost. -/
theorem fd_table_grown : KeepsRegistrations false
    [.addEvent 0 100 .read ⟨some 0, true⟩, .addEvent 1 40 .read ⟨some 0, true⟩,
      .proceed 1 true, .proceed 1 true, .proceed 0 true, .proceed 0 true] := by
  obtain ⟨m, notes, hrun, -⟩ : ∃ m notes, run step (new false)
      [.addEvent 0 100 .read ⟨some 0, true⟩,
        .addEvent 1 40 .read ⟨some 0, true⟩, .proceed 1 true,
        .proceed 1 true, .proceed 0 true, .proceed 0 true] =
          some (m, notes) ∧ True := by
    decide +kernel
  refine (fd_table hrun).2.mp ?_
  decide +kernel

end IOManager

end KVRaftStorage
