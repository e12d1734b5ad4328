import KVRaftStorage.Fiber.TimerSet

/-!
# Timers on time

`listExpiredCb` reads the clock before it takes the lock, so a thread may come
with an older reading than the one before it.  `detectClockRollover` takes that
for a clock that has been set back if the readings are an hour apart, or if the
system has been up for less than an hour, when the subtraction wraps around.
Then all timers expire at once.

In every other case exactly the timers that are due are returned.  The order of
the set, the single firing of a timer that does not recur and the effect of
`cancel` do not depend on the clock.
-/

namespace KVRaftStorage

open Transition

namespace TimerManager

variable {m m' : TimerManager} {p q thread address : ℕ} {timer : Timer}
  {now : UInt64} {a : Action} {notes notes' : List TimerNote}

/-! ## The invariant of the manager -/

/-- The set is in order and has the timers that still have a callback. -/
structure Valid (m : TimerManager) : Prop where
  ordered : m.Ordered
  live : ∀ p, p ∈ m.timers ↔ (m.timer p).cb ≠ none
  made : ∀ p ∈ m.timers, p ∈ m.made
  listing : ∀ thread now, m.calls thread = some (.listing now) →
    now ≤ m.clock
  expiring : ∀ thread now, m.calls thread = some (.expiring now) →
    now ≤ m.clock
  adding : ∀ thread timer, m.calls thread = some (.adding timer) →
    timer.cb ≠ none

/-- A call that may be under way. -/
def Admits (m : TimerManager) : TimerCall → Prop
  | .adding timer => timer.cb ≠ none
  | .resetting .. => True
  | .listing now | .expiring now => now ≤ m.clock

theorem Valid.setCall {call : Option TimerCall}
    (h : m.Valid) (hcall : ∀ c ∈ call, m.Admits c) :
    (m.setCall thread call).Valid := by
  have hcases : ∀ thread' c, (m.setCall thread call).calls thread' = some c →
      m.calls thread' = some c ∨ m.Admits c := by
    intro thread' c hc
    by_cases heq : thread' = thread
    · subst heq
      exact .inr (hcall c (by simpa [TimerManager.setCall] using hc))
    · exact .inl (by simpa [TimerManager.setCall, heq] using hc)
  refine ⟨h.ordered, h.live, h.made, fun thread' now hc => ?_,
    fun thread' now hc => ?_, fun thread' timer hc => ?_⟩
  · exact (hcases thread' _ hc).elim (h.listing thread' now) id
  · exact (hcases thread' _ hc).elim (h.expiring thread' now) id
  · exact (hcases thread' _ hc).elim (h.adding thread' timer) id

/-- Only the set and the timers change. -/
theorem Valid.of_same
    (h : m.Valid) (hsame : SameCalls m m') (hordered : m'.Ordered)
    (hlive : ∀ p, p ∈ m'.timers ↔ (m'.timer p).cb ≠ none)
    (hmade : ∀ p ∈ m'.timers, p ∈ m.made) : m'.Valid := by
  refine ⟨hordered, hlive, fun p hp => ?_, fun thread now hc => ?_,
    fun thread now hc => ?_, fun thread timer hc => ?_⟩
  · rw [hsame.made]
    exact hmade p hp
  · rw [hsame.calls] at hc
    rw [hsame.clock]
    exact h.listing thread now hc
  · rw [hsame.calls] at hc
    rw [hsame.clock]
    exact h.expiring thread now hc
  · rw [hsame.calls] at hc
    exact h.adding thread timer hc

/-- The flag for the front of the set does not matter. -/
theorem Valid.tickled (h : m.Valid) (tickled : Bool) :
    { m with tickled := tickled }.Valid :=
  ⟨h.ordered, h.live, h.made, h.listing, h.expiring, h.adding⟩

/-- A timer is taken out and put in again with another deadline. -/
theorem Valid.rearm
    (h : m.Valid) (timer : Timer) (hp : p ∈ m.timers)
    (hcb : timer.cb = (m.timer p).cb) :
    (((m.erase p).setTimer p timer).insert p).Valid ∧
      ∀ q, q ∈ (((m.erase p).setTimer p timer).insert p).timers ↔
        q ∈ m.timers := by
  have hout : p ∉ (m.erase p).timers := by
    rw [mem_erase h.ordered]
    simp
  have htimers : ∀ q, q ∈ (((m.erase p).setTimer p timer).insert p).timers ↔
      q ∈ m.timers := by
    intro q
    rw [mem_insert]
    change q = p ∨ q ∈ (m.erase p).timers ↔ _
    rw [mem_erase h.ordered]
    by_cases hq : q = p
    · simp [hq, hp]
    · simp [hq]
  have hsame := sameCalls_insert ((m.erase p).setTimer p timer) p
  refine ⟨h.of_same ⟨hsame.clock, hsame.made, hsame.calls⟩
    (((h.ordered.erase p).setTimer fun hmem => absurd hmem hout).insert p)
    (fun q => ?_) fun q hq => h.made q ((htimers q).mp hq), htimers⟩
  rw [htimers, h.live q, timer_insert]
  by_cases hq : q = p
  · subst hq
    rw [timer_setTimer_self, hcb]
  · rw [timer_setTimer_of_ne hq]
    rfl

theorem recurring_rearm (hrecurring : timer.recurring = (m.timer p).recurring)
    (q : ℕ) : ((((m.erase p).setTimer p timer).insert p).timer q).recurring =
      (m.timer q).recurring := by
  rw [timer_insert]
  by_cases hq : q = p
  · subst hq
    rw [timer_setTimer_self, hrecurring]
  · rw [timer_setTimer_of_ne hq]
    rfl

end TimerManager

namespace TimerNote

/-- The timers that have been returned. -/
def expired : TimerNote → List ℕ
  | .listed _ expired _ => expired
  | _ => []

/-- No timer comes or goes. -/
def Silent : TimerNote → Prop
  | .added .. => False
  | .listed .. => False
  | .cancel _ result => result = false
  | _ => True

end TimerNote

namespace TimerManager

variable {m m' : TimerManager} {p q thread address : ℕ} {timer : Timer}
  {now : UInt64} {a : Action} {notes notes' : List TimerNote}

/-! ## What a step does -/

/-- A call of `listExpiredCb` with the given result returns exactly the
callbacks of the timers that are due at its clock value, in the order of their
deadlines.  The clock has reached that value. -/
structure Exact (m : TimerManager) (now : UInt64) (expired : List ℕ)
    (cbs : List (Option ℕ)) : Prop where
  clock : now ≤ m.clock
  due : expired = m.timers.filter (m.due now)
  cbs : cbs = expired.map fun p => (m.timer p).cb
  order : expired.Pairwise fun p q => (m.timer p).next ≤ (m.timer q).next

/-- `listExpiredCb` does not take its reading for a rollover while a timer is
not due yet. -/
def KeepsTime (m : TimerManager) : Action → Prop
  | .proceed thread _ => ∀ now, m.calls thread = some (.expiring now) →
      m.detectClockRollover now = true → ∀ p ∈ m.timers, m.due now p = true
  | _ => True

/-- The set, the addresses that are in use and the notes behind a step. -/
inductive TimerStep (m : TimerManager) (a : Action) (m' : TimerManager) :
    List TimerNote → Prop
  | quiet {notes : List TimerNote} (hkeeps : KeepsTime m a)
      (htimers : ∀ q, q ∈ m'.timers ↔ q ∈ m.timers)
      (hmade : m'.made = m.made)
      (hrecurring : ∀ q, (m'.timer q).recurring = (m.timer q).recurring)
      (hnotes : ∀ note ∈ notes, note.Silent) : TimerStep m a m' notes
  | added {p : ℕ} {notes : List TimerNote} (hkeeps : KeepsTime m a)
      (hp : p ∉ m.made) (htimers : ∀ q, q ∈ m'.timers ↔ q = p ∨ q ∈ m.timers)
      (hmade : m'.made = p :: m.made)
      (hrecurring : ∀ q, q ≠ p →
        (m'.timer q).recurring = (m.timer q).recurring)
      (hnotes : ∀ note ∈ notes, note.Silent) :
      TimerStep m a m' (.added p (m'.timer p).recurring :: notes)
  | cancelled {p : ℕ} (hkeeps : KeepsTime m a) (hp : p ∈ m.timers)
      (htimers : ∀ q, q ∈ m'.timers ↔ q ≠ p ∧ q ∈ m.timers)
      (hmade : m'.made = m.made)
      (hrecurring : ∀ q, (m'.timer q).recurring = (m.timer q).recurring) :
      TimerStep m a m' [.cancel p true]
  | listed {now : UInt64} {expired : List ℕ} {cbs : List (Option ℕ)}
      (hkeeps : KeepsTime m a ↔ Exact m now expired cbs)
      (hexpired : expired.Sublist m.timers)
      (htimers : ∀ q, q ∈ m'.timers ↔
        q ∈ m.timers ∧ (q ∈ expired → (m.timer q).recurring = true))
      (hmade : m'.made = m.made)
      (hrecurring : ∀ q, (m'.timer q).recurring = (m.timer q).recurring) :
      TimerStep m a m' [.listed now expired cbs]

theorem TimerStep.same
    (hkeeps : KeepsTime m a) (htimers : m'.timers = m.timers)
    (hmade : m'.made = m.made) (htimer : m'.timer = m.timer)
    (hnotes : ∀ note ∈ notes, note.Silent) : TimerStep m a m' notes :=
  .quiet hkeeps (fun q => by rw [htimers]) hmade
    (fun q => by rw [htimer]) hnotes

theorem cancel_step (h : m.Valid) (hkeeps : KeepsTime m a) :
    (m.cancel p).1.Valid ∧ TimerStep m a (m.cancel p).1 (m.cancel p).2 := by
  unfold cancel
  split
  · next cb hcb =>
      have hp : p ∈ m.timers := (h.live p).mpr (by simp [hcb])
      have hordered : (m.setTimer p { m.timer p with cb := none }).Ordered :=
        h.ordered.setTimer fun _ => rfl
      have htimers : ∀ q, q ∈ ((m.setTimer p
          { m.timer p with cb := none }).erase p).timers ↔
            q ≠ p ∧ q ∈ m.timers := fun q => mem_erase hordered
      refine ⟨h.of_same ⟨rfl, rfl, rfl⟩ (hordered.erase p) (fun q => ?_)
        fun q hq => h.made q ((htimers q).mp hq).2,
        .cancelled hkeeps hp htimers rfl fun q => ?_⟩
      · rw [htimers, h.live q]
        by_cases hq : q = p
        · subst hq
          simp [erase, setTimer]
        · simp [erase, setTimer, hq]
      · by_cases hq : q = p
        · subst hq
          simp [erase, setTimer]
        · simp [erase, setTimer, hq]
  · exact ⟨h, .same hkeeps rfl rfl rfl (by simp [TimerNote.Silent])⟩

theorem refresh_step (h : m.Valid) (hkeeps : KeepsTime m a) :
    (m.refresh p).1.Valid ∧ TimerStep m a (m.refresh p).1 (m.refresh p).2 := by
  unfold refresh
  split
  · exact ⟨h, .same hkeeps rfl rfl rfl (by simp [TimerNote.Silent])⟩
  · split
    · next hp =>
        obtain ⟨hvalid, htimers⟩ := h.rearm { m.timer p with
          next := m.clock + (m.timer p).ms } hp rfl
        exact ⟨hvalid, .quiet hkeeps htimers (sameCalls_insert _ p).made
          (recurring_rearm rfl) (by simp [TimerNote.Silent])⟩
    · exact ⟨h, .same hkeeps rfl rfl rfl (by simp [TimerNote.Silent])⟩

theorem addTimer_eq (m : TimerManager) (p : ℕ) : ∃ tickled,
    (m.addTimer p).1 = { m.insert p with tickled := tickled } ∧
      ∀ note ∈ (m.addTimer p).2, note.Silent := by
  unfold addTimer
  dsimp only
  split
  · exact ⟨true, rfl, by simp [TimerNote.Silent]⟩
  · exact ⟨(m.insert p).tickled, rfl, by simp⟩

/-- `reset` takes the lock with nothing else under way in its thread. -/
theorem reset_step {ms : UInt64} {fromNow : Bool}
    (h : m.Valid) (hkeeps : KeepsTime m a) :
    ((m.setCall thread none).reset p ms fromNow).1.Valid ∧
      TimerStep m a ((m.setCall thread none).reset p ms fromNow).1
        ((m.setCall thread none).reset p ms fromNow).2 := by
  have hnone : (m.setCall thread none).Valid := h.setCall (by simp)
  unfold reset
  split
  · exact ⟨hnone, .same hkeeps rfl rfl rfl (by simp [TimerNote.Silent])⟩
  · split
    · next hp =>
        dsimp only
        generalize htimer : ({ (m.setCall thread none).timer p with
          ms := ms
          next := (if fromNow then (m.setCall thread none).clock
            else ((m.setCall thread none).timer p).next -
              ((m.setCall thread none).timer p).ms) + ms } : Timer) = timer
        obtain ⟨hvalid, htimers⟩ := hnone.rearm timer hp (by rw [← htimer])
        obtain ⟨tickled, heq, hnotes⟩ := addTimer_eq
          (((m.setCall thread none).erase p).setTimer p timer) p
        rw [heq]
        refine ⟨hvalid.tickled tickled, .quiet hkeeps htimers
          (sameCalls_insert _ p).made
          (recurring_rearm (by rw [← htimer])) fun note hnote => ?_⟩
        rcases List.mem_append.mp hnote with hnote | hnote
        · exact hnotes note hnote
        · rw [List.mem_singleton.mp hnote]
          trivial
    · exact ⟨hnone, .same hkeeps rfl rfl rfl (by simp [TimerNote.Silent])⟩

/-- A new timer comes into the set. -/
theorem Valid.insertNew
    (h : m.Valid) (hp : p ∉ m.made) (hcb : timer.cb ≠ none) :
    ((({ m with made := p :: m.made }).setTimer p timer).insert p).Valid := by
  have hout : p ∉ m.timers := fun hmem => hp (h.made p hmem)
  have hsame := sameCalls_insert
    (({ m with made := p :: m.made }).setTimer p timer) p
  have hordered : ({ m with made := p :: m.made }).Ordered := h.ordered
  refine ⟨(hordered.setTimer fun hmem => absurd hmem hout).insert p,
    fun q => ?_, fun q hq => ?_, ?_, ?_, ?_⟩
  · rw [mem_insert, timer_insert]
    by_cases hq : q = p
    · subst hq
      simp [setTimer, hcb]
    · simp [setTimer, hq, h.live q]
  · rw [hsame.made]
    rcases mem_insert.mp hq with rfl | hq
    · exact List.mem_cons_self ..
    · exact List.mem_cons_of_mem _ (h.made q hq)
  · rw [hsame.calls, hsame.clock]
    exact h.listing
  · rw [hsame.calls, hsame.clock]
    exact h.expiring
  · rw [hsame.calls]
    exact h.adding

theorem adding_step
    (h : m.Valid) (hkeeps : KeepsTime m a) (hp : p ∉ m.made)
    (hcb : timer.cb ≠ none) :
    let result := (({ m with made := p :: m.made }).setTimer p timer).addTimer p
    (result.1.setCall thread none).Valid ∧
      TimerStep m a (result.1.setCall thread none)
        (.added p timer.recurring :: result.2) := by
  dsimp only
  obtain ⟨tickled, heq, hnotes⟩ :=
    addTimer_eq (({ m with made := p :: m.made }).setTimer p timer) p
  have hself : ((((({ m with made := p :: m.made }).setTimer p
      timer).addTimer p).1.setCall thread none).timer p).recurring =
        timer.recurring := by
    rw [heq]
    change (((({ m with made := p :: m.made }).setTimer p timer).insert
      p).timer p).recurring = _
    rw [timer_insert, timer_setTimer_self]
  rw [← hself]
  refine ⟨?_, .added hkeeps hp (fun q => ?_) ?_ (fun q hq => ?_) hnotes⟩
  · rw [heq]
    exact ((h.insertNew hp hcb).tickled tickled).setCall (by simp)
  · rw [heq]
    exact mem_insert
  · rw [heq]
    exact (sameCalls_insert _ p).made
  · rw [heq]
    change (((({ m with made := p :: m.made }).setTimer p timer).insert
      p).timer q).recurring = _
    rw [timer_insert, timer_setTimer_of_ne hq]

/-- All timers, or those that are due: the same if there is no rollover, or if
all are due. -/
theorem keepsTime_iff_exact {expired : List ℕ}
    (h : m.Valid) (hcall : m.calls thread = some (.expiring now))
    (hexpired : expired = if m.detectClockRollover now then m.timers
      else m.timers.filter (m.due now)) :
    KeepsTime m (.proceed thread address) ↔
      Exact m now expired (expired.map fun p => (m.timer p).cb) := by
  have hsorted : m.timers.Pairwise
      fun p q => (m.timer p).next ≤ (m.timer q).next :=
    h.ordered.imp fun hless => by
      rw [less_iff] at hless
      rw [UInt64.le_iff_toNat_le]
      omega
  have hsub : expired.Sublist m.timers := by
    rw [hexpired]
    split
    · exact List.Sublist.refl _
    · exact List.filter_sublist
  constructor
  · intro hkeeps
    refine ⟨h.expiring thread now hcall, ?_, rfl, hsorted.sublist hsub⟩
    by_cases hrollover : m.detectClockRollover now = true
    · rw [hexpired, if_pos hrollover,
        List.filter_eq_self.mpr (hkeeps now hcall hrollover)]
    · rw [hexpired, if_neg hrollover]
  · intro hexact now' hcall' hrollover
    obtain rfl : now = now' := by simpa [hcall] using hcall'
    rw [if_pos hrollover] at hexpired
    exact List.filter_eq_self.mp (hexact.due.symm.trans hexpired)

/-- The write lock is taken with the reading `now`. -/
theorem listExpiredCb_step
    (h : m.Valid) (hcall : m.calls thread = some (.expiring now)) :
    ((m.setCall thread none).listExpiredCb now address).1.Valid ∧
      TimerStep m (.proceed thread address)
        ((m.setCall thread none).listExpiredCb now address).1
        ((m.setCall thread none).listExpiredCb now address).2 := by
  have hvalid : (m.setCall thread none).Valid := h.setCall (by simp)
  obtain ⟨expired, rest, happend, hnotes, hfired, hexpired⟩ :=
    listExpiredCb_spec hvalid.ordered now address
  change m.timers = expired ++ rest at happend
  have hmem : ∀ q, q ∈ m.timers ↔ q ∈ expired ∨ q ∈ rest := by
    intro q
    rw [happend, List.mem_append]
  have hdisjoint : ∀ q ∈ expired, q ∉ rest := by
    have hnodup := h.ordered.nodup
    rw [happend] at hnodup
    exact fun q hq hrest => (List.nodup_append.mp hnodup).2.2 q hq q hrest rfl
  have htimers : ∀ q,
      q ∈ ((m.setCall thread none).listExpiredCb now address).1.timers ↔
        q ∈ m.timers ∧ (q ∈ expired → (m.timer q).recurring = true) := by
    intro q
    refine (hfired.timers q).trans ?_
    rw [hmem]
    change q ∈ rest ∨ q ∈ expired ∧ (m.timer q).recurring = true ↔ _
    by_cases hq : q ∈ expired
    · simp [hq, hdisjoint q hq]
    · simp [hq]
  refine ⟨hvalid.of_same ⟨hfired.same.clock, hfired.same.made,
    hfired.same.calls⟩ hfired.ordered (fun q => ?_)
    (fun q hq => h.made q ((htimers q).mp hq).1), ?_⟩
  · rw [htimers, h.live, hfired.cb]
    change _ ↔ (if q ∈ expired ∧ (m.timer q).recurring = false then none
      else (m.timer q).cb) ≠ none
    by_cases hq : q ∈ expired <;>
      cases hrecurring : (m.timer q).recurring <;> simp [hq]
  · rw [hnotes]
    refine .listed ?_ (by rw [happend]; exact List.sublist_append_left ..)
      htimers hfired.same.made hfired.recurring
    exact keepsTime_iff_exact h hcall hexpired

theorem proceed_step {call : TimerCall}
    (h : m.Valid) (hcall : m.calls thread = some call)
    (hstep : m.proceed thread address call = some (m', notes)) :
    m'.Valid ∧ TimerStep m (.proceed thread address) m' notes := by
  have hnone : (m.setCall thread none).Valid := h.setCall (by simp)
  have hkeeps (hne : ∀ now, call ≠ .expiring now) :
      KeepsTime m (.proceed thread address) := by
    intro now hexpiring
    exact absurd (Option.some.inj (hcall.symm.trans hexpiring)) (hne now)
  cases call with
  | adding timer =>
      rw [proceed] at hstep
      split at hstep
      · cases hstep
      · next hp =>
          cases hstep
          exact adding_step h (hkeeps (by simp)) hp
            (h.adding thread timer hcall)
  | resetting p ms fromNow =>
      obtain ⟨rfl, rfl⟩ := Prod.mk.inj (Option.some.inj hstep)
      exact reset_step h (hkeeps (by simp))
  | listing now =>
      rw [proceed] at hstep
      split at hstep
      · next hempty =>
          cases hstep
          refine ⟨hnone, .listed (iff_of_true (hkeeps (by simp)) ?_)
            (List.nil_sublist _) (fun q => ?_) rfl fun _ => rfl⟩
          · exact ⟨h.listing thread now hcall, by simp [hempty], rfl, by simp⟩
          · change q ∈ m.timers ↔ _
            simp
      · cases hstep
        refine ⟨h.setCall ?_, .same (hkeeps (by simp)) rfl rfl rfl (by simp)⟩
        rintro c hc
        obtain rfl := Option.some.inj hc
        exact h.listing thread now hcall
  | expiring now =>
      obtain ⟨rfl, rfl⟩ := Prod.mk.inj (Option.some.inj hstep)
      exact listExpiredCb_step h hcall

theorem timerStep
    (h : m.Valid) (hstep : step m a = some (m', notes)) :
    m'.Valid ∧ TimerStep m a m' notes := by
  cases a with
  | tick now =>
      rw [step] at hstep
      split at hstep
      · next hle =>
          cases hstep
          refine ⟨⟨h.ordered, h.live, h.made, fun thread now hcall => ?_,
            fun thread now hcall => ?_, h.adding⟩,
            .same trivial rfl rfl rfl (by simp)⟩
          · exact UInt64.le_trans (h.listing thread now hcall) hle
          · exact UInt64.le_trans (h.expiring thread now hcall) hle
      · cases hstep
  | addTimer thread ms cb recurring =>
      rw [step] at hstep
      split at hstep
      · cases hstep
      · cases hstep
        refine ⟨h.setCall ?_, .same trivial rfl rfl rfl (by simp)⟩
        rintro c hc
        obtain rfl := Option.some.inj hc
        exact Option.some_ne_none cb
  | cancel thread p =>
      rw [step] at hstep
      split at hstep
      · obtain ⟨rfl, rfl⟩ := Prod.mk.inj (Option.some.inj hstep)
        exact cancel_step h trivial
      · cases hstep
  | refresh thread p =>
      rw [step] at hstep
      split at hstep
      · obtain ⟨rfl, rfl⟩ := Prod.mk.inj (Option.some.inj hstep)
        exact refresh_step h trivial
      · cases hstep
  | reset thread p ms fromNow =>
      rw [step] at hstep
      split at hstep
      · split at hstep
        · cases hstep
          exact ⟨h, .same trivial rfl rfl rfl (by simp [TimerNote.Silent])⟩
        · cases hstep
          refine ⟨h.setCall ?_, .same trivial rfl rfl rfl (by simp)⟩
          rintro c hc
          obtain rfl := Option.some.inj hc
          trivial
      · cases hstep
  | getNextTimer thread =>
      rw [step] at hstep
      split at hstep
      · cases hstep
        exact ⟨h.tickled false,
          .same trivial rfl rfl rfl (by simp [TimerNote.Silent])⟩
      · cases hstep
  | listExpiredCb thread =>
      rw [step] at hstep
      split at hstep
      · cases hstep
        refine ⟨h.setCall ?_, .same trivial rfl rfl rfl (by simp)⟩
        rintro c hc
        obtain rfl := Option.some.inj hc
        exact UInt64.le_refl m.clock
      · cases hstep
  | proceed thread address =>
      obtain ⟨call, hcall, hproceed⟩ := Option.bind_eq_some_iff.mp hstep
      exact proceed_step h hcall hproceed

/-! ## What the notes say -/

/-- How often the timer has been returned. -/
def firings (notes : List TimerNote) (p : ℕ) : ℕ :=
  (notes.flatMap TimerNote.expired).count p

@[simp] theorem firings_append (notes notes' : List TimerNote) (p : ℕ) :
    firings (notes ++ notes') p = firings notes p + firings notes' p := by
  rw [firings, List.flatMap_append, List.count_append]
  rfl

/-- The timer has been added, and it has neither been cancelled nor been
returned for good. -/
def Live (notes : List TimerNote) (p : ℕ) : Prop :=
  ∃ recurring, .added p recurring ∈ notes ∧ .cancel p true ∉ notes ∧
    (recurring = true ∨ firings notes p = 0)

/-- What has been cancelled is not returned any more. -/
def CancelsForGood (notes : List TimerNote) : Prop :=
  notes.Pairwise fun a b => ∀ p, a = .cancel p true → p ∉ b.expired

theorem expired_of_silent {note : TimerNote} (h : note.Silent) :
    note.expired = [] := by
  cases note with
  | listed => exact h.elim
  | _ => rfl

/-- Silent notes say nothing about any timer. -/
structure Mute (notes : List TimerNote) : Prop where
  added : ∀ p recurring, .added p recurring ∉ notes
  cancel : ∀ p, .cancel p true ∉ notes
  expired : ∀ note ∈ notes, note.expired = []

theorem mute_of_silent (h : ∀ note ∈ notes, note.Silent) : Mute notes := by
  refine ⟨fun p recurring hmem => h _ hmem, fun p hmem => ?_,
    fun note hnote => expired_of_silent (h note hnote)⟩
  cases h _ hmem

theorem firings_of_expired (h : ∀ note ∈ notes, note.expired = []) (p : ℕ) :
    firings notes p = 0 := by
  rw [firings, List.flatMap_eq_nil_iff.mpr h]
  rfl

theorem CancelsForGood.append
    (h : CancelsForGood notes) (h' : CancelsForGood notes')
    (hacross : ∀ p, .cancel p true ∈ notes → ∀ note ∈ notes',
      p ∉ note.expired) : CancelsForGood (notes ++ notes') := by
  refine List.pairwise_append.mpr ⟨h, h', fun a ha b hb p heq => ?_⟩
  subst heq
  exact hacross p ha b hb

theorem cancelsForGood_of_expired (h : ∀ note ∈ notes, note.expired = []) :
    CancelsForGood notes :=
  List.pairwise_of_forall_mem_list fun a _ b hb p _ => by simp [h b hb]

/-- The notes and the set agree about every timer. -/
structure History (m : TimerManager) (notes : List TimerNote) : Prop where
  fresh : ∀ p ∉ m.made, (∀ recurring, .added p recurring ∉ notes) ∧
    .cancel p true ∉ notes ∧ firings notes p = 0
  added : ∀ p ∈ m.made, ∀ recurring,
    .added p recurring ∈ notes ↔ recurring = (m.timer p).recurring
  live : ∀ p ∈ m.timers, .cancel p true ∉ notes ∧
    ((m.timer p).recurring = false → firings notes p = 0)
  dead : ∀ p ∈ m.made, p ∉ m.timers → .cancel p true ∈ notes ∨
    (m.timer p).recurring = false ∧ firings notes p ≠ 0
  once : ∀ p ∈ m.made, (m.timer p).recurring = false → firings notes p ≤ 1
  after : CancelsForGood notes

theorem History.quiet
    (h : History m notes) (htimers : ∀ q, q ∈ m'.timers ↔ q ∈ m.timers)
    (hmade : m'.made = m.made)
    (hrecurring : ∀ q, (m'.timer q).recurring = (m.timer q).recurring)
    (hmute : Mute notes') : History m' (notes ++ notes') := by
  have hfirings := firings_of_expired hmute.expired
  refine ⟨fun p hp => ?_, fun p hp recurring => ?_, fun p hp => ?_,
    fun p hp hout => ?_, fun p hp hone => ?_, ?_⟩
  · rw [hmade] at hp
    simpa [hmute.added, hmute.cancel, hfirings] using h.fresh p hp
  · rw [hmade] at hp
    simpa [hmute.added, hrecurring] using h.added p hp recurring
  · rw [htimers] at hp
    simpa [hmute.cancel, hfirings, hrecurring] using h.live p hp
  · rw [hmade] at hp
    rw [htimers] at hout
    simpa [hmute.cancel, hfirings, hrecurring] using h.dead p hp hout
  · rw [hmade] at hp
    rw [hrecurring] at hone
    simpa [hfirings] using h.once p hp hone
  · exact h.after.append (cancelsForGood_of_expired hmute.expired)
      fun p _ note hnote => by simp [hmute.expired note hnote]

theorem History.added_note
    (h : History m notes) (hp : p ∉ m.made)
    (htimers : ∀ q, q ∈ m'.timers ↔ q = p ∨ q ∈ m.timers)
    (hmade' : m'.made = p :: m.made)
    (hrecurring : ∀ q, q ≠ p →
      (m'.timer q).recurring = (m.timer q).recurring)
    (hmute : Mute notes') : History m'
      (notes ++ .added p (m'.timer p).recurring :: notes') := by
  have hfirings : ∀ q, firings
      (.added p (m'.timer p).recurring :: notes') q = 0 := by
    refine firings_of_expired fun note hnote => ?_
    rcases List.mem_cons.mp hnote with rfl | hnote
    · rfl
    · exact hmute.expired note hnote
  obtain ⟨hadded, hcancel, hnone⟩ := h.fresh p hp
  refine ⟨fun q hq => ?_, fun q hq recurring => ?_, fun q hq => ?_,
    fun q hq hout => ?_, fun q hq hone => ?_, ?_⟩
  · rw [hmade', List.mem_cons, not_or] at hq
    have hfresh := h.fresh q hq.2
    simpa [hmute.added, hmute.cancel, hfirings, hq.1] using hfresh
  · rw [hmade', List.mem_cons] at hq
    by_cases hqp : q = p
    · subst hqp
      simp [hmute.added, hadded]
    · have hq := hq.resolve_left hqp
      simpa [hmute.added, hqp, hrecurring q hqp] using h.added q hq recurring
  · rw [htimers] at hq
    by_cases hqp : q = p
    · subst hqp
      simp [hmute.cancel, hcancel, hfirings, hnone]
    · simpa [hmute.cancel, hfirings, hrecurring q hqp] using
        h.live q (hq.resolve_left hqp)
  · rw [htimers, not_or] at hout
    rw [hmade', List.mem_cons] at hq
    simpa [hmute.cancel, hfirings, hrecurring q hout.1] using
      h.dead q (hq.resolve_left hout.1) hout.2
  · rw [hmade', List.mem_cons] at hq
    by_cases hqp : q = p
    · subst hqp
      simp [hfirings, hnone]
    · rw [hrecurring q hqp] at hone
      simpa [hfirings] using h.once q (hq.resolve_left hqp) hone
  · refine h.after.append (cancelsForGood_of_expired ?_) ?_
    · intro note hnote
      rcases List.mem_cons.mp hnote with rfl | hnote
      · rfl
      · exact hmute.expired note hnote
    · intro q _ note hnote
      rcases List.mem_cons.mp hnote with rfl | hnote
      · simp [TimerNote.expired]
      · simp [hmute.expired note hnote]

theorem History.cancelled
    (h : History m notes)
    (htimers : ∀ q, q ∈ m'.timers ↔ q ≠ p ∧ q ∈ m.timers)
    (hp : p ∈ m.made) (hmade : m'.made = m.made)
    (hrecurring : ∀ q, (m'.timer q).recurring = (m.timer q).recurring) :
    History m' (notes ++ [.cancel p true]) := by
  have hexpired : ∀ note ∈ [TimerNote.cancel p true], note.expired = [] := by
    simp [TimerNote.expired]
  have hfirings := firings_of_expired hexpired
  refine ⟨fun q hq => ?_, fun q hq recurring => ?_, fun q hq => ?_,
    fun q hq hout => ?_, fun q hq hone => ?_, ?_⟩
  · rw [hmade] at hq
    have hne : q ≠ p := ne_of_mem_of_not_mem hp hq |>.symm
    simpa [hfirings, hne] using h.fresh q hq
  · rw [hmade] at hq
    simpa [hrecurring] using h.added q hq recurring
  · rw [htimers] at hq
    simpa [hfirings, hrecurring, hq.1] using h.live q hq.2
  · rw [hmade] at hq
    rw [htimers, not_and'] at hout
    by_cases hqp : q = p
    · subst hqp
      left
      simp
    · have hout : q ∉ m.timers := fun hmem => hout hmem hqp
      simpa [hfirings, hrecurring, hqp] using h.dead q hq hout
  · rw [hmade] at hq
    rw [hrecurring] at hone
    simpa [hfirings] using h.once q hq hone
  · exact h.after.append (cancelsForGood_of_expired hexpired)
      fun q _ note hnote => by simp [hexpired note hnote]

theorem History.listed {expired : List ℕ} {cbs : List (Option ℕ)}
    (h : History m notes) (hvalid : m.Valid)
    (hexpired : expired.Sublist m.timers)
    (htimers : ∀ q, q ∈ m'.timers ↔
      q ∈ m.timers ∧ (q ∈ expired → (m.timer q).recurring = true))
    (hmade : m'.made = m.made)
    (hrecurring : ∀ q, (m'.timer q).recurring = (m.timer q).recurring) :
    History m' (notes ++ [.listed now expired cbs]) := by
  have hfirings : ∀ q, firings [.listed now expired cbs] q =
      if q ∈ expired then 1 else 0 := by
    intro q
    have hnodup := hvalid.ordered.nodup.sublist hexpired
    simp only [firings, TimerNote.expired, List.flatMap_singleton]
    exact hnodup.count
  refine ⟨fun q hq => ?_, fun q hq recurring => ?_, fun q hq => ?_,
    fun q hq hout => ?_, fun q hq hone => ?_, ?_⟩
  · rw [hmade] at hq
    have hout : q ∉ expired := fun hmem =>
      hq (hvalid.made q (hexpired.subset hmem))
    simpa [hfirings, hout] using h.fresh q hq
  · rw [hmade] at hq
    simpa [hrecurring] using h.added q hq recurring
  · rw [htimers] at hq
    obtain ⟨hcancel, hone⟩ := h.live q hq.1
    refine ⟨by simpa using hcancel, fun hnot => ?_⟩
    rw [hrecurring] at hnot
    have hout : q ∉ expired := fun hmem => by simp [hq.2 hmem] at hnot
    rw [firings_append, hone hnot, hfirings, if_neg hout]
  · rw [hmade] at hq
    by_cases hmem : q ∈ m.timers
    · right
      have hq' : q ∈ expired ∧ (m.timer q).recurring = false := by
        simpa [htimers, hmem] using hout
      rw [hrecurring, firings_append, hfirings, if_pos hq'.1]
      exact ⟨hq'.2, Nat.succ_ne_zero _⟩
    · rcases h.dead q hq hmem with hcancel | ⟨hone, hfired⟩
      · exact .inl (List.mem_append_left _ hcancel)
      · right
        rw [hrecurring, firings_append]
        exact ⟨hone, by omega⟩
  · rw [hmade] at hq
    rw [hrecurring] at hone
    rw [firings_append, hfirings]
    split
    · next hmem => rw [(h.live q (hexpired.subset hmem)).2 hone]
    · exact h.once q hq hone
  · refine h.after.append (List.pairwise_singleton _ _) ?_
    intro q hcancel note hnote hmem
    rw [List.mem_singleton.mp hnote] at hmem
    exact (h.live q (hexpired.subset hmem)).1 hcancel

theorem History.step
    (h : History m notes) (hvalid : m.Valid)
    (hstep : TimerStep m a m' notes') : History m' (notes ++ notes') := by
  cases hstep with
  | quiet _ htimers hmade hrecurring hnotes =>
      exact h.quiet htimers hmade hrecurring (mute_of_silent hnotes)
  | added _ hp htimers hmade hrecurring hnotes =>
      exact h.added_note hp htimers hmade hrecurring
        (mute_of_silent hnotes)
  | cancelled _ hp htimers hmade hrecurring =>
      exact h.cancelled htimers (hvalid.made _ hp) hmade hrecurring
  | listed _ hexpired htimers hmade hrecurring =>
      exact h.listed hvalid hexpired htimers hmade hrecurring

/-! ## Runs -/

theorem new_valid (start : UInt64) : (new start).Valid := by
  refine ⟨List.Pairwise.nil, ?_, ?_, ?_, ?_, ?_⟩ <;> simp [new]

theorem new_history (start : UInt64) : History (new start) [] := by
  refine ⟨?_, ?_, ?_, ?_, ?_, List.Pairwise.nil⟩ <;> simp [new, firings]

/-- Every call of `listExpiredCb` in the run is exact. -/
def ListsExactly (start : UInt64) (as : List Action) : Prop :=
  ∀ as₁ a as₂ m notes m' notes', as = as₁ ++ a :: as₂ →
    run step (new start) as₁ = some (m, notes) →
    step m a = some (m', notes') → ∀ now expired cbs,
      .listed now expired cbs ∈ notes' → Exact m now expired cbs

theorem keepsTime_iff
    (h : m.Valid) (hstep : step m a = some (m', notes)) :
    KeepsTime m a ↔ ∀ now expired cbs,
      .listed now expired cbs ∈ notes → Exact m now expired cbs := by
  have hmute {notes : List TimerNote} (hnotes : ∀ note ∈ notes, note.Silent)
      (now : UInt64) (expired : List ℕ) (cbs : List (Option ℕ)) :
      .listed now expired cbs ∉ notes := fun hmem => hnotes _ hmem
  cases (timerStep h hstep).2 with
  | quiet hkeeps _ _ _ hnotes =>
      exact iff_of_true hkeeps fun now expired cbs hmem =>
        absurd hmem (hmute hnotes now expired cbs)
  | added hkeeps _ _ _ _ hnotes =>
      refine iff_of_true hkeeps fun now expired cbs hmem => ?_
      have hmem := (List.mem_cons.mp hmem).resolve_left (by simp)
      exact absurd hmem (hmute hnotes now expired cbs)
  | cancelled hkeeps => exact iff_of_true hkeeps (by simp)
  | listed hkeeps =>
      refine hkeeps.trans ⟨fun hexact now expired cbs hmem => ?_,
        fun hall => hall _ _ _ (List.mem_singleton_self _)⟩
      cases List.mem_singleton.mp hmem
      exact hexact

/-- In every run the set is in order and has each live timer once, a timer that
does not recur is returned at most once, and a timer that has been cancelled is
not returned later.  All calls of `listExpiredCb` are exact if and only if none
takes its reading for a rollover while a timer is not due yet. -/
theorem timers_on_time {start : UInt64} {as : List Action}
    (hrun : run step (new start) as = some (m, notes)) :
    (Throughout step KeepsTime (new start) as ↔ ListsExactly start as) ∧
      m.Ordered ∧ m.timers.Nodup ∧ (∀ p, p ∈ m.timers ↔ Live notes p) ∧
      (∀ p, .added p false ∈ notes → firings notes p ≤ 1) ∧
      CancelsForGood notes := by
  obtain ⟨hvalid, h⟩ : m.Valid ∧ History m notes :=
    run_history (I := fun m notes => m.Valid ∧ History m notes)
      (P := fun _ _ => True) (fun m notes a m' notes' _ h hstep =>
        ⟨(timerStep h.1 hstep).1, h.2.step h.1 (timerStep h.1 hstep).2⟩)
      (throughout_true _ as) ⟨new_valid start, new_history start⟩ hrun
  have hmade : ∀ p recurring, .added p recurring ∈ notes → p ∈ m.made := by
    intro p recurring hadded
    by_contra hp
    exact (h.fresh p hp).1 recurring hadded
  refine ⟨?_, hvalid.ordered, hvalid.ordered.nodup, fun p => ⟨fun hp => ?_, ?_⟩,
    fun p hadded => ?_, h.after⟩
  · exact throughout_iff_steps (I := Valid)
      (fun m a m' notes h hstep => (timerStep h hstep).1)
      (fun m a m' notes h hstep => keepsTime_iff h hstep) (new_valid start) hrun
  · refine ⟨(m.timer p).recurring,
      (h.added p (hvalid.made p hp) _).mpr rfl, (h.live p hp).1, ?_⟩
    cases hone : (m.timer p).recurring with
    | true => exact .inl rfl
    | false => exact .inr ((h.live p hp).2 hone)
  · rintro ⟨recurring, hadded, hcancel, hfirings⟩
    have hp := hmade p recurring hadded
    rw [(h.added p hp recurring).mp hadded] at hfirings
    by_contra hout
    rcases h.dead p hp hout with hcancelled | ⟨hone, hfired⟩
    · exact hcancel hcancelled
    · rcases hfirings with hrecurring | hnone
      · simp [hone] at hrecurring
      · exact hfired hnone
  · have hp := hmade p false hadded
    exact h.once p hp ((h.added p hp false).mp hadded).symm

/-- Two threads list the expired timers one second after the system has been
started; the first one reads the clock a millisecond earlier and takes the lock
later. -/
def overtaken : List Action :=
  [.addTimer 0 100000 7 false, .proceed 0 50, .listExpiredCb 1, .tick 1001,
    .listExpiredCb 2, .proceed 1 0, .proceed 2 0, .proceed 2 60, .proceed 1 61]

theorem overtaken_early : ¬ListsExactly 1000 overtaken := by
  obtain ⟨m, notes, hrun, ⟨m', notes', hstep, hmem⟩, hdue⟩ : ∃ m notes,
      run step (new 1000) (overtaken.take 8) = some (m, notes) ∧
        (∃ m' notes', step m (.proceed 1 61) = some (m', notes') ∧
          .listed 1000 [50] [some 7] ∈ notes') ∧ m.due 1000 50 = false := by
    decide +kernel
  intro hlists
  have hexact := hlists (overtaken.take 8) (.proceed 1 61) [] m notes m' notes'
    rfl hrun hstep 1000 [50] [some 7] hmem
  have hmem : 50 ∈ m.timers.filter (m.due 1000) := by
    rw [← hexact.due]
    exact List.mem_singleton_self 50
  simp [hdue] at hmem

instance (m : TimerManager) : (a : Action) → Decidable (KeepsTime m a)
  | .proceed thread _ =>
      match h : m.calls thread with
      | some (.expiring now) =>
          decidable_of_iff (m.detectClockRollover now = true →
            ∀ p ∈ m.timers, m.due now p = true) (by simp [KeepsTime, h])
      | none => .isTrue (by simp [KeepsTime, h])
      | some (.adding _) => .isTrue (by simp [KeepsTime, h])
      | some (.resetting ..) => .isTrue (by simp [KeepsTime, h])
      | some (.listing _) => .isTrue (by simp [KeepsTime, h])
  | .tick _ | .addTimer .. | .cancel .. | .refresh .. | .reset ..
  | .getNextTimer _ | .listExpiredCb _ => .isTrue trivial

/-- Three timers, one of them reset to an earlier deadline, expire together. -/
theorem timers_on_time_together : ∃ m notes, run step (new 1000)
      [.addTimer 0 10 7 false, .addTimer 1 10 8 true, .addTimer 2 5 9 false,
        .proceed 0 9, .proceed 1 4, .proceed 2 12, .reset 0 4 3 true,
        .proceed 0 0, .tick 1010, .listExpiredCb 5, .proceed 5 0,
        .proceed 5 7, .cancel 1 4] = some (m, notes) ∧
      .listed 1010 [4, 12, 9] [some 8, some 9, some 7] ∈ notes ∧
      CancelsForGood notes := by
  obtain ⟨m, notes, hrun, hmem⟩ : ∃ m notes, run step (new 1000)
      [.addTimer 0 10 7 false, .addTimer 1 10 8 true, .addTimer 2 5 9 false,
        .proceed 0 9, .proceed 1 4, .proceed 2 12, .reset 0 4 3 true,
        .proceed 0 0, .tick 1010, .listExpiredCb 5, .proceed 5 0,
        .proceed 5 7, .cancel 1 4] = some (m, notes) ∧
      .listed 1010 [4, 12, 9] [some 8, some 9, some 7] ∈ notes := by
    decide +kernel
  exact ⟨m, notes, hrun, hmem, (timers_on_time hrun).2.2.2.2.2⟩

end TimerManager

end KVRaftStorage
