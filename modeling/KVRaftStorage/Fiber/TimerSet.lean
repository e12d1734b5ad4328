import KVRaftStorage.Fiber.Timer
import Mathlib.Data.List.TakeWhile

/-!
# The set of timers

The deadlines are the keys of the set, so a timer is taken out before its
deadline changes and put in again afterwards.  The set therefore stays in the
order of its comparator, and it has each live timer once.
-/

namespace KVRaftStorage

/-! ## The comparator -/

namespace Timer

variable {a b c : UInt64 × ℕ}

theorem comparator_iff : comparator a b = true ↔
    a.1.toNat < b.1.toNat ∨ a.1.toNat = b.1.toNat ∧ a.2 < b.2 := by
  unfold comparator
  simp only [UInt64.lt_iff_toNat_lt]
  split
  · simp_all
  · split <;> simp <;> omega

theorem comparator_trans
    (hab : comparator a b = true) (hbc : comparator b c = true) :
    comparator a c = true := by
  rw [comparator_iff] at hab hbc ⊢
  omega

theorem comparator_irrefl (a : UInt64 × ℕ) : comparator a a = false := by
  rw [← Bool.not_eq_true, comparator_iff]
  omega

/-- Two timers are at different addresses. -/
theorem comparator_of_not
    (hne : a.2 ≠ b.2) (hnot : comparator a b = false) :
    comparator b a = true := by
  rw [← Bool.not_eq_true, comparator_iff] at hnot
  rw [comparator_iff]
  omega

end Timer

/-- A condition that passes to what comes before splits an ordered list. -/
theorem not_of_mem_dropWhile {α : Type*} {r : α → α → Prop} {P : α → Bool}
    {l : List α} (hl : l.Pairwise r)
    (hclosed : ∀ a ∈ l, ∀ b ∈ l, r a b → P b = true → P a = true) {b : α}
    (hb : b ∈ l.dropWhile P) : P b = false := by
  induction l with
  | nil => simp at hb
  | cons a l ih =>
      obtain ⟨hfirst, hl⟩ := List.pairwise_cons.mp hl
      cases ha : P a with
      | true =>
          rw [List.dropWhile_cons_of_pos ha] at hb
          exact ih hl (fun a ha b hb => hclosed a (List.mem_cons_of_mem _ ha) b
            (List.mem_cons_of_mem _ hb)) hb
      | false =>
          rw [List.dropWhile_cons_of_neg (by simp [ha])] at hb
          rcases List.mem_cons.mp hb with rfl | hmem
          · exact ha
          · by_contra hnot
            rw [Bool.not_eq_false] at hnot
            have := hclosed a (List.mem_cons_self ..) b hb (hfirst b hmem) hnot
            simp [ha] at this

namespace TimerManager

variable {m m' : TimerManager} {p q thread address : ℕ} {timer : Timer}
  {now : UInt64}

/-! ## Insertion and removal -/

/-- The set is in the order of the comparator. -/
def Ordered (m : TimerManager) : Prop :=
  m.timers.Pairwise fun p q => m.less p q = true

theorem Ordered.nodup (h : m.Ordered) : m.timers.Nodup :=
  h.imp fun hless heq => by
    rw [heq, less, Timer.comparator_irrefl] at hless
    cases hless

theorem mem_insert : q ∈ (m.insert p).timers ↔ q = p ∨ q ∈ m.timers := by
  unfold insert
  split
  · next hp => exact ⟨.inr, fun h => h.elim (fun heq => heq ▸ hp) id⟩
  · have hsplit : q ∈ m.timers ↔ q ∈ m.timers.takeWhile (m.less · p) ∨
        q ∈ m.timers.dropWhile (m.less · p) := by
      rw [← List.mem_append, List.takeWhile_append_dropWhile]
    rw [hsplit]
    simp only [List.mem_append, List.mem_cons]
    exact or_left_comm

theorem Ordered.insert (h : m.Ordered) (p : ℕ) : (m.insert p).Ordered := by
  unfold TimerManager.insert
  split
  · exact h
  next hp =>
  have hall : (m.timers.takeWhile (m.less · p) ++
      m.timers.dropWhile (m.less · p)).Pairwise
        fun p q => m.less p q = true := by
    rwa [List.takeWhile_append_dropWhile]
  obtain ⟨hbefore, hbehind, hacross⟩ := List.pairwise_append.mp hall
  have hlt : ∀ q ∈ m.timers.takeWhile (m.less · p), m.less q p = true := by
    intro q hq
    have hless := List.mem_takeWhile_imp hq
    exact hless
  have hgt : ∀ q ∈ m.timers.dropWhile (m.less · p), m.less p q = true := by
    intro q hq
    have hnot : m.less q p = false := not_of_mem_dropWhile h
      (fun _ _ _ _ hab hbp => Timer.comparator_trans hab hbp) hq
    have hmem : q ∈ m.timers := (List.dropWhile_sublist _).mem hq
    exact Timer.comparator_of_not (ne_of_mem_of_not_mem hmem hp) hnot
  refine List.pairwise_append.mpr ⟨hbefore,
    List.pairwise_cons.mpr ⟨hgt, hbehind⟩, fun q hq r hr => ?_⟩
  rcases List.mem_cons.mp hr with rfl | hr
  · exact hlt q hq
  · exact hacross q hq r hr

theorem Ordered.erase (h : m.Ordered) (p : ℕ) : (m.erase p).Ordered :=
  h.sublist List.erase_sublist

theorem mem_erase (h : m.Ordered) :
    q ∈ (m.erase p).timers ↔ q ≠ p ∧ q ∈ m.timers :=
  h.nodup.mem_erase_iff

theorem timer_setTimer_self : (m.setTimer p timer).timer p = timer :=
  Function.update_self ..

theorem timer_setTimer_of_ne (hq : q ≠ p) :
    (m.setTimer p timer).timer q = m.timer q :=
  Function.update_of_ne hq ..

/-- The deadline of a timer that is not in the set may change. -/
theorem Ordered.setTimer
    (h : m.Ordered)
    (hkey : p ∈ m.timers → timer.next = (m.timer p).next) :
    (m.setTimer p timer).Ordered := by
  have hsame : ∀ q ∈ m.timers, (m.setTimer p timer).key q = m.key q := by
    intro q hq
    by_cases hqp : q = p
    · subst hqp
      rw [key, timer_setTimer_self, hkey hq]
      rfl
    · rw [key, timer_setTimer_of_ne hqp]
      rfl
  refine List.Pairwise.imp_of_mem (fun ha hb hless => ?_) h
  rw [less, hsame _ ha, hsame _ hb]
  exact hless

/-! ## What expires -/

/-- Has the deadline been reached? -/
def due (m : TimerManager) (now : UInt64) (p : ℕ) : Bool :=
  (m.timer p).next ≤ now

theorem due_iff : m.due now p = true ↔
    (m.timer p).next.toNat ≤ now.toNat := by
  rw [due, decide_eq_true_eq, UInt64.le_iff_toNat_le]

theorem less_iff : m.less p q = true ↔
    (m.timer p).next.toNat < (m.timer q).next.toNat ∨
      (m.timer p).next.toNat = (m.timer q).next.toNat ∧ p < q :=
  Timer.comparator_iff

theorem splitExpired_append (m : TimerManager) (rollover : Bool)
    (now : UInt64) (address : ℕ) :
    (m.splitExpired rollover now address).1 ++
      (m.splitExpired rollover now address).2 = m.timers := by
  unfold splitExpired
  split
  · exact List.append_nil _
  · dsimp only
    rw [List.append_assoc, List.takeWhile_append_dropWhile,
      List.takeWhile_append_dropWhile]

/-- Wherever the timer made for `lower_bound` is, the iterator comes to stand
behind the timers that are due. -/
theorem splitExpired_eq (h : m.Ordered) (now : UInt64) (address : ℕ) :
    (m.splitExpired false now address).1 = m.timers.filter (m.due now) := by
  have happend := splitExpired_append m false now address
  have hdue : ∀ p ∈ (m.splitExpired false now address).1,
      m.due now p = true := by
    intro p hp
    rw [due_iff]
    rcases List.mem_append.mp hp with hp | hp
    · have hless := List.mem_takeWhile_imp hp
      rw [Timer.comparator_iff] at hless
      change (m.timer p).next.toNat < now.toNat ∨
        (m.timer p).next.toNat = now.toNat ∧ p < address at hless
      omega
    · have heq := List.mem_takeWhile_imp hp
      rw [of_decide_eq_true heq]
  have hrest : ∀ p ∈ (m.splitExpired false now address).2,
      m.due now p = false := by
    intro p hp
    have hbehind : ∀ q ∈ m.timers.dropWhile
        (fun p => Timer.comparator (m.key p) (now, address)),
          now.toNat ≤ (m.timer q).next.toNat := by
      intro q hq
      have hnot := not_of_mem_dropWhile h
        (fun _ _ _ _ hab hb => Timer.comparator_trans hab hb) hq
      rw [← Bool.not_eq_true, Timer.comparator_iff] at hnot
      change ¬((m.timer q).next.toNat < now.toNat ∨
        (m.timer q).next.toNat = now.toNat ∧ q < address) at hnot
      omega
    have hne := not_of_mem_dropWhile
      (h.sublist (List.dropWhile_sublist _)) (fun a ha b hb hab heq => by
        have hlow := hbehind a ha
        have heq : (m.timer b).next = now := of_decide_eq_true heq
        rw [less_iff, heq] at hab
        refine decide_eq_true (UInt64.toNat_inj.mp ?_)
        omega) hp
    have hlow := hbehind p ((List.dropWhile_sublist _).mem hp)
    have hne : (m.timer p).next ≠ now := of_decide_eq_false hne
    rw [← Bool.not_eq_true, due_iff]
    have hne : (m.timer p).next.toNat ≠ now.toNat :=
      fun heq => hne (UInt64.toNat_inj.mp heq)
    omega
  rw [← happend, List.filter_append, List.filter_eq_self.mpr hdue,
    List.filter_eq_nil_iff.mpr (by simpa using hrest), List.append_nil]

/-! ## The loop over the expired timers -/

theorem timer_insert (m : TimerManager) (p : ℕ) :
    (m.insert p).timer = m.timer := by
  unfold insert
  split <;> rfl

theorem timer_renew_of_ne (hq : q ≠ p) :
    (m.renew now p).timer q = m.timer q := by
  unfold renew
  dsimp only
  split
  · rw [timer_insert, timer_setTimer_of_ne hq]
  · rw [timer_setTimer_of_ne hq]

/-- A timer that recurs keeps its callback, any other one loses it. -/
theorem timer_renew_self (m : TimerManager) (now : UInt64) (p : ℕ) :
    ((m.renew now p).timer p).recurring = (m.timer p).recurring ∧
      ((m.renew now p).timer p).cb =
        if (m.timer p).recurring then (m.timer p).cb else none := by
  unfold renew
  dsimp only
  split
  · rw [timer_insert, timer_setTimer_self]
    exact ⟨rfl, rfl⟩
  · rw [timer_setTimer_self]
    exact ⟨rfl, rfl⟩

theorem mem_renew : q ∈ (m.renew now p).timers ↔
    q ∈ m.timers ∨ q = p ∧ (m.timer p).recurring = true := by
  unfold renew
  dsimp only
  split
  · next hrecurring =>
      rw [mem_insert]
      change q = p ∨ q ∈ m.timers ↔ _
      rw [and_iff_left hrecurring, or_comm]
  · next hrecurring =>
      change q ∈ m.timers ↔ _
      simp [hrecurring]

theorem Ordered.renew (h : m.Ordered) (hp : p ∉ m.timers) (now : UInt64) :
    (m.renew now p).Ordered := by
  unfold TimerManager.renew
  dsimp only
  split
  · exact (h.setTimer fun hmem => absurd hmem hp).insert p
  · exact h.setTimer fun _ => rfl

/-- What the other calls see is left alone. -/
structure SameCalls (m m' : TimerManager) : Prop where
  clock : m'.clock = m.clock
  made : m'.made = m.made
  calls : m'.calls = m.calls

theorem sameCalls_insert (m : TimerManager) (p : ℕ) :
    SameCalls m (m.insert p) := by
  unfold insert
  split <;> exact ⟨rfl, rfl, rfl⟩

theorem sameCalls_renew (m : TimerManager) (now : UInt64) (p : ℕ) :
    SameCalls m (m.renew now p) := by
  unfold renew
  dsimp only
  split
  · obtain ⟨hclock, hmade, hcalls⟩ := sameCalls_insert
      (m.setTimer p { m.timer p with next := now + (m.timer p).ms }) p
    exact ⟨hclock, hmade, hcalls⟩
  · exact ⟨rfl, rfl, rfl⟩

/-- The expired timers have been fired. -/
structure Fired (expired : List ℕ) (m m' : TimerManager) : Prop where
  ordered : m'.Ordered
  same : SameCalls m m'
  timers : ∀ q, q ∈ m'.timers ↔
    q ∈ m.timers ∨ q ∈ expired ∧ (m.timer q).recurring = true
  recurring : ∀ q, (m'.timer q).recurring = (m.timer q).recurring
  cb : ∀ q, (m'.timer q).cb =
    if q ∈ expired ∧ (m.timer q).recurring = false then none
    else (m.timer q).cb

theorem fireAll_fired {expired : List ℕ} (now : UInt64)
    (h : m.Ordered) (hnodup : expired.Nodup)
    (hout : ∀ p ∈ expired, p ∉ m.timers) :
    Fired expired m (fireAll now expired m).1 ∧
      (fireAll now expired m).2 = expired.map fun p => (m.timer p).cb := by
  induction expired generalizing m with
  | nil =>
      exact ⟨⟨h, ⟨rfl, rfl, rfl⟩, by simp [fireAll], fun _ => rfl,
        by simp [fireAll]⟩, rfl⟩
  | cons p expired ih =>
      obtain ⟨hp, hnodup⟩ := List.nodup_cons.mp hnodup
      have hne : ∀ q ∈ expired, q ≠ p := fun q hq heq => hp (heq ▸ hq)
      obtain ⟨hfired, hcbs⟩ := ih (m := m.renew now p)
        (h.renew (hout p (List.mem_cons_self ..)) now) hnodup (by
          intro q hq hmem
          rcases mem_renew.mp hmem with hmem | ⟨heq, -⟩
          · exact hout q (List.mem_cons_of_mem _ hq) hmem
          · exact hne q hq heq)
      have hsame := sameCalls_renew m now p
      have hself := timer_renew_self m now p
      refine ⟨⟨hfired.ordered, ⟨hfired.same.clock.trans hsame.clock,
        hfired.same.made.trans hsame.made,
        hfired.same.calls.trans hsame.calls⟩, fun q => ?_, fun q => ?_,
        fun q => ?_⟩, ?_⟩
      · refine (hfired.timers q).trans ?_
        rw [mem_renew]
        by_cases hq : q = p
        · subst hq
          simp [hp]
        · simp [hq, timer_renew_of_ne hq]
      · refine (hfired.recurring q).trans ?_
        by_cases hq : q = p
        · subst hq
          exact hself.1
        · rw [timer_renew_of_ne hq]
      · refine (hfired.cb q).trans ?_
        by_cases hq : q = p
        · subst hq
          cases hrecurring : (m.timer q).recurring <;>
            simp [hp, hself, hrecurring]
        · simp [hq, timer_renew_of_ne hq]
      · refine congrArg ((m.timer p).cb :: ·) (hcbs.trans ?_)
        exact List.map_congr_left fun q hq => by
          rw [timer_renew_of_ne (hne q hq)]

/-- Everything about `listExpiredCb` under the write lock. -/
theorem listExpiredCb_spec (h : m.Ordered) (now : UInt64) (address : ℕ) :
    ∃ expired rest, m.timers = expired ++ rest ∧
      (m.listExpiredCb now address).2 =
        [.listed now expired (expired.map fun p => (m.timer p).cb)] ∧
      Fired expired { m with timers := rest }
        (m.listExpiredCb now address).1 ∧
      expired = if m.detectClockRollover now then m.timers
        else m.timers.filter (m.due now) := by
  unfold listExpiredCb
  split
  · next hempty =>
      refine ⟨[], [], hempty, rfl, ⟨h, ⟨rfl, rfl, rfl⟩, ?_, fun _ => rfl, ?_⟩,
        ?_⟩
      · simp [hempty]
      · simp
      · simp [hempty]
  · next first others hfirst =>
      dsimp only
      split
      · next hnone =>
          obtain ⟨hrollover, hlt⟩ := hnone
          have hrollover : m.detectClockRollover now = false := by
            simpa using hrollover
          refine ⟨[], m.timers, rfl, rfl, ⟨h, ⟨rfl, rfl, rfl⟩, by simp,
            fun _ => rfl, by simp⟩, ?_⟩
          rw [hrollover, if_neg (by simp), eq_comm, List.filter_eq_nil_iff]
          intro p hp
          rw [due_iff]
          rw [UInt64.lt_iff_toNat_lt] at hlt
          unfold Ordered at h
          rw [hfirst] at hp h
          rcases List.mem_cons.mp hp with rfl | hp
          · omega
          · have hless := less_iff.mp ((List.pairwise_cons.mp h).1 p hp)
            omega
      · have happend := splitExpired_append m (m.detectClockRollover now) now
          address
        have h' := h
        have hnodup := h.nodup
        unfold Ordered at h'
        rw [← happend] at hnodup h'
        obtain ⟨hexpired, -, hdisjoint⟩ := List.nodup_append.mp hnodup
        obtain ⟨hfired, hcbs⟩ := fireAll_fired now
          (m := { m with
            previouseTime := now
            timers := (m.splitExpired (m.detectClockRollover now) now
              address).2 })
          (List.pairwise_append.mp h').2.1 hexpired
          fun p hp hmem => hdisjoint p hp p hmem rfl
        refine ⟨(m.splitExpired (m.detectClockRollover now) now address).1,
          (m.splitExpired (m.detectClockRollover now) now address).2,
          happend.symm, ?_, ⟨hfired.ordered, ⟨hfired.same.clock,
            hfired.same.made, hfired.same.calls⟩, hfired.timers,
            hfired.recurring, hfired.cb⟩, ?_⟩
        · exact congrArg (fun cbs => [TimerNote.listed now _ cbs]) hcbs
        · split
          · next hrollover => rw [hrollover]; rfl
          · next hrollover =>
              rw [Bool.not_eq_true] at hrollover
              rw [hrollover]
              exact splitExpired_eq h now address

end TimerManager

end KVRaftStorage
