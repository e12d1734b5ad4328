import KVRaftStorage.KvServer.AppliedLog
import KVRaftStorage.KvServer.Progress

/-!
# Executing a write at most once

The table `m_lastRequestId` is written without a comparison: by the commands of
the log and by the `Get` handlers of the log path.  As long as a `Get` handler
comes in the order of its client's requests, the table only grows, and no write
is executed twice.
-/

namespace KVRaftStorage

/-! ## What the events say -/

/-- The write `(c, r)` is carried out. -/
def KvEvent.Executes (c : String) (r : ℤ) : KvEvent → Prop
  | .applied _ op duplicate _ =>
      duplicate = false ∧ KvState.Writes op ∧ op.clientId = c ∧
        op.requestId = r
  | _ => False

instance (c : String) (r : ℤ) : ∀ e : KvEvent, Decidable (e.Executes c r)
  | .applied _ op duplicate _ =>
      inferInstanceAs (Decidable (duplicate = false ∧ KvState.Writes op ∧
        op.clientId = c ∧ op.requestId = r))
  | .processed _ => .isFalse id
  | .restored _ => .isFalse id
  | .snapshotted .. => .isFalse id
  | .readServed .. => .isFalse id
  | .restarted => .isFalse id

/-- The key-value state is replaced by one that does not know `(c, r)`. -/
def KvEvent.Forgets (c : String) (r : ℤ) : KvEvent → Prop
  | .restarted => True
  | .restored st => st.ifRequestDuplicate c r = false
  | _ => False

/-- The key-value state is replaced. -/
def KvEvent.isReset : KvEvent → Bool
  | .restarted => true
  | .restored _ => true
  | _ => false

/-- `(c, r)` was carried out and not forgotten since. -/
def Executed (c : String) (r : ℤ) (es : List KvEvent) : Prop :=
  ∃ l₁ e l₂, es = l₁ ++ e :: l₂ ∧ e.Executes c r ∧
    ∀ e' ∈ l₂, ¬e'.Forgets c r

/-- No write is carried out a second time on a state that holds it. -/
def AtMostOnce (es : List KvEvent) : Prop :=
  ∀ l₁ e l₂ c r, es = l₁ ++ e :: l₂ → e.Executes c r → ¬Executed c r l₁

theorem KvEvent.Forgets.isReset {e : KvEvent} {c : String} {r : ℤ}
    (h : e.Forgets c r) : e.isReset = true := by
  cases e with
  | restarted => rfl
  | restored => rfl
  | _ => exact h.elim

variable {c : String} {r : ℤ} {es es' : List KvEvent} {e : KvEvent}

theorem executed_snoc :
    Executed c r (es ++ [e]) ↔
      e.Executes c r ∨ (Executed c r es ∧ ¬e.Forgets c r) := by
  constructor
  · rintro ⟨l₁, e', l₂, heq, hexecutes, hkeeps⟩
    rcases l₂.eq_nil_or_concat with rfl | ⟨l₂, last, rfl⟩
    · obtain ⟨-, hlast⟩ := List.append_inj' heq rfl
      obtain rfl : e = e' := by simpa using hlast
      exact .inl hexecutes
    · rw [List.concat_eq_append, ← List.cons_append, ← List.append_assoc] at heq
      obtain ⟨rfl, hlast⟩ := List.append_inj' heq rfl
      obtain rfl : e = last := by simpa using hlast
      exact .inr ⟨⟨l₁, e', l₂, rfl, hexecutes,
        fun x hx => hkeeps x (by simp [hx])⟩, hkeeps e (by simp)⟩
  · rintro (hexecutes | ⟨⟨l₁, e', l₂, rfl, hexecutes, hkeeps⟩, he⟩)
    · exact ⟨es, e, [], rfl, hexecutes, by simp⟩
    · refine ⟨l₁, e', l₂ ++ [e], by simp, hexecutes, fun x hx => ?_⟩
      rcases List.mem_append.mp hx with hx | hx
      · exact hkeeps x hx
      · exact List.mem_singleton.mp hx ▸ he

theorem atMostOnce_snoc (h : AtMostOnce es)
    (he : ∀ c r, e.Executes c r → ¬Executed c r es) :
    AtMostOnce (es ++ [e]) := by
  intro l₁ e' l₂ c r heq hexecutes
  rcases l₂.eq_nil_or_concat with rfl | ⟨l₂, last, rfl⟩
  · obtain ⟨rfl, hlast⟩ := List.append_inj' heq rfl
    obtain rfl : e = e' := by simpa using hlast
    exact he c r hexecutes
  · rw [List.concat_eq_append, ← List.cons_append, ← List.append_assoc] at heq
    obtain ⟨rfl, -⟩ := List.append_inj' heq rfl
    exact h l₁ e' l₂ c r rfl hexecutes

/-- Events that carry out nothing. -/
theorem executed_append (hes' : ∀ e ∈ es', ∀ c r, ¬e.Executes c r)
    (h : Executed c r (es ++ es')) :
    Executed c r es ∧ ∀ e ∈ es', ¬e.Forgets c r := by
  induction es' generalizing es with
  | nil => exact ⟨by simpa using h, by simp⟩
  | cons e es' ih =>
      rw [List.append_cons] at h
      obtain ⟨hfirst, hrest⟩ := ih (fun x hx => hes' x (by simp [hx])) h
      rcases executed_snoc.mp hfirst with hexecutes | ⟨hexecuted, hkeeps⟩
      · exact absurd hexecutes (hes' e (by simp) c r)
      · exact ⟨hexecuted, by simpa using ⟨hkeeps, hrest⟩⟩

theorem atMostOnce_append (h : AtMostOnce es)
    (hes' : ∀ e ∈ es', ∀ c r, ¬e.Executes c r) : AtMostOnce (es ++ es') := by
  induction es' generalizing es with
  | nil => simpa using h
  | cons e es' ih =>
      rw [List.append_cons]
      refine ih (atMostOnce_snoc h ?_) fun x hx => hes' x (by simp [hx])
      exact fun c r hexecutes => absurd hexecutes (hes' e (by simp) c r)

/-! ## The request table -/

namespace KvState

/-- No client's record is lower in `st'`. -/
def RecordsLe (st st' : KvState) : Prop :=
  ∀ c last, st.lastRequestId c = some last →
    ∃ last', st'.lastRequestId c = some last' ∧ last ≤ last'

variable {st st' st₂ : KvState}

theorem RecordsLe.of_eq (h : st'.lastRequestId = st.lastRequestId) :
    st.RecordsLe st' := by
  intro c last hlast
  exact ⟨last, h ▸ hlast, le_rfl⟩

theorem RecordsLe.trans (h : st.RecordsLe st') (h' : st'.RecordsLe st₂) :
    st.RecordsLe st₂ := by
  intro c last hlast
  obtain ⟨last', hlast', hle⟩ := h c last hlast
  obtain ⟨last₂, hlast₂, hle'⟩ := h' c last' hlast'
  exact ⟨last₂, hlast₂, hle.trans hle'⟩

/-- A request not below its client's record may be recorded. -/
theorem RecordsLe.of_update {op : Op}
    (hop : ∀ last ∈ st.lastRequestId op.clientId, last ≤ op.requestId)
    (h : st'.lastRequestId =
      Function.update st.lastRequestId op.clientId (some op.requestId)) :
    st.RecordsLe st' := by
  intro c last hlast
  rw [h]
  by_cases hc : c = op.clientId
  · subst hc
    exact ⟨op.requestId, by simp, hop last hlast⟩
  · exact ⟨last, by rwa [Function.update_of_ne hc], le_rfl⟩

theorem RecordsLe.ifRequestDuplicate (h : st.RecordsLe st')
    (hduplicate : st.ifRequestDuplicate c r = true) :
    st'.ifRequestDuplicate c r = true := by
  obtain ⟨last, hlast, hr⟩ := ifRequestDuplicate_iff.mp hduplicate
  obtain ⟨last', hlast', hle⟩ := h c last hlast
  exact ifRequestDuplicate_iff.mpr ⟨last', hlast', hr.trans hle⟩

end KvState

/-- The write that the apply loop has found to be no duplicate and not yet
executed. -/
def Loop.write? : Loop → Option Op
  | .checked _ op false => if KvState.Writes op then some op else none
  | _ => none

theorem Loop.write?_checked {i : ℕ} {op write : Op} {duplicate : Bool} :
    (Loop.checked i op duplicate).write? = some write ↔
      duplicate = false ∧ KvState.Writes op ∧ op = write := by
  cases duplicate with
  | true => simp [Loop.write?]
  | false => simp [Loop.write?]

namespace KvServer

variable {n : ℕ} {s s' : KvServer n} {a : KvAction n}

/-- A `Get` comes after the recorded requests of its client, and before a
write of its client that the apply loop is about to record. -/
def OnTime (s : KvServer n) (op : Op) : Prop :=
  (∀ last ∈ s.state.lastRequestId op.clientId, last ≤ op.requestId) ∧
    ∀ write ∈ s.loop.write?, write.clientId = op.clientId →
      op.requestId ≤ write.requestId

instance (s : KvServer n) (op : Op) : Decidable (s.OnTime op) :=
  inferInstanceAs (Decidable (_ ∧ _))

/-- The handlers execute a `Get` of the log path in time. -/
def GetsOnTime (s : KvServer n) (a : KvAction n) : Prop :=
  ∀ handler ∈ s.executedGet? a, s.OnTime handler.op

instance (s : KvServer n) (a : KvAction n) : Decidable (s.GetsOnTime a) :=
  inferInstanceAs (Decidable (∀ handler ∈ s.executedGet? a, _))

/-- The apply loop rests until the stored image is read, and what it is about
to execute is not behind the record of its client. -/
structure LoopAhead (s : KvServer n) : Prop where
  booting : s.booted = false → s.loop = .idle
  write : ∀ write ∈ s.loop.write?,
    ∀ last ∈ s.state.lastRequestId write.clientId, last ≤ write.requestId

/-- What a step does to the request table. -/
inductive Records (s s' : KvServer n) : List KvEvent → Prop where
  | same {es : List KvEvent}
      (hrecord : s'.state.lastRequestId = s.state.lastRequestId)
      (hloop : ∀ write ∈ s'.loop.write?, s.loop.write? = some write ∨
        s.state.ifRequestDuplicate write.clientId write.requestId = false)
      (hes : ∀ e ∈ es, ∀ c r, ¬e.Executes c r)
      (hreset : ∀ e ∈ es, e.isReset = false) : Records s s' es
  | get {op : Op} (hop : s.OnTime op)
      (hrecord : s'.state.lastRequestId = Function.update
        s.state.lastRequestId op.clientId (some op.requestId))
      (hloop : s'.loop = s.loop) : Records s s' []
  | executes {i : ℕ} {op : Op} {expired : Bool}
      (hwrite : s.loop.write? = some op)
      (hrecord : s'.state.lastRequestId = Function.update
        s.state.lastRequestId op.clientId (some op.requestId))
      (hloop : s'.loop.write? = none) :
      Records s s' [.applied i op false expired]
  | restored {es : List KvEvent} (hmem : .restored s'.state ∈ es)
      (hloop : s'.loop.write? = none)
      (hes : ∀ e ∈ es, ∀ c r, ¬e.Executes c r) : Records s s' es
  | restarted {es : List KvEvent} (hmem : .restarted ∈ es)
      (hloop : s'.loop.write? = none)
      (hes : ∀ e ∈ es, ∀ c r, ¬e.Executes c r) : Records s s' es

theorem records_same {es : List KvEvent}
    (hstate : s'.state.lastRequestId = s.state.lastRequestId)
    (hloop : s'.loop.write? = none ∨ s'.loop.write? = s.loop.write?)
    (hes : ∀ e ∈ es, ∀ c r, ¬e.Executes c r)
    (hreset : ∀ e ∈ es, e.isReset = false) : Records s s' es := by
  refine .same hstate (fun write hwrite => ?_) hes hreset
  rcases hloop with h | h
  · simp [h] at hwrite
  · exact .inl (h ▸ hwrite)

theorem Moves.records (h : s.Moves a s' es) (hahead : s.LoopAhead)
    (hgets : s.GetsOnTime a) : s.Records s' es := by
  cases h with
  | quiet hsame =>
      exact records_same (by rw [hsame.state]) (.inr (by rw [hsame.loop]))
        (by simp) (by simp)
  | reboot =>
      exact .restarted (by simp) rfl (by simp [KvEvent.Executes])
  | getApplyLogs => exact records_same rfl (.inr rfl) (by simp) (by simp)
  | pushCommand => exact records_same rfl (.inr rfl) (by simp) (by simp)
  | installSnapshot => exact records_same rfl (.inr rfl) (by simp) (by simp)
  | pushMsgToKvServer => exact records_same rfl (.inr rfl) (by simp) (by simp)
  | readSnapShotToInstall hbooted =>
      unfold KvServer.readSnapShotToInstall
      split
      · exact records_same rfl (.inr rfl) (by simp) (by simp)
      · exact .restored (by simp) (by simp [hahead.booting hbooted, Loop.write?])
          (by simp [KvEvent.Executes])
  | @popCommand op i rest hbooted hloop hchan =>
      unfold KvServer.getCommandFromRaft
      split
      · exact records_same rfl (.inr rfl) (by simp [KvEvent.Executes])
          (by simp [KvEvent.isReset])
      · refine .same rfl (fun write hwrite => ?_) (by simp) (by simp)
        obtain ⟨hduplicate, -, rfl⟩ := Loop.write?_checked.mp hwrite
        exact .inr hduplicate
  | @popSnapshot image t i rest hbooted hloop hchan =>
      unfold KvServer.getSnapShotFromRaft
      split
      · exact records_same rfl (.inr rfl) (by simp [KvEvent.Executes])
          (by simp [KvEvent.isReset])
      · exact .restored (by simp) (by simp [hloop, Loop.write?])
          (by simp [KvEvent.Executes])
  | @execute now i op duplicate hloop =>
      by_cases hwrites : duplicate = false ∧ KvState.Writes op
      · obtain ⟨rfl, hwrites⟩ := hwrites
        refine .executes (by simp [hloop, Loop.write?, hwrites]) ?_ rfl
        exact s.state.lastRequestId_executeCommand now hwrites
      · refine records_same ?_ (.inl rfl) ?_ (by simp [KvEvent.isReset])
        · cases duplicate with
          | true => rfl
          | false =>
              rw [if_neg (by simp), KvState.executeCommand_of_not_writes]
              simpa using hwrites
        · rintro e he c r hexecutes
          obtain rfl := List.mem_singleton.mp he
          exact hwrites ⟨hexecutes.1, hexecutes.2.1⟩
  | makeSnapShot => exact records_same rfl (.inl rfl) (by simp) (by simp)
  | skipSnapshot => exact records_same rfl (.inl rfl) (by simp) (by simp)
  | snapshotRefused =>
      exact records_same rfl (.inl rfl) (by simp [KvEvent.Executes])
        (by simp [KvEvent.isReset])
  | snapshotTaken =>
      exact records_same rfl (.inl rfl) (by simp [KvEvent.Executes])
        (by simp [KvEvent.isReset])
  | snapshotExit =>
      exact .restarted (by simp) rfl (by simp [KvEvent.Executes])
  | sendMessageToWaitChan =>
      exact records_same rfl (.inl rfl) (by simp [KvEvent.Executes])
        (by simp [KvEvent.isReset])
  | readOnlyGet _ hsame =>
      exact records_same (by rw [hsame.state]) (.inr (by rw [hsame.loop]))
        (by simp [KvEvent.Executes]) (by simp [KvEvent.isReset])
  | @executeGet h now i handler _ hgranted hsame =>
      refine .get (hgets handler (by simp [executedGet?, hgranted])) ?_
        hsame.loop
      rw [hsame.state]
      exact s.state.lastRequestId_executeGet now handler.op

theorem Records.write_ahead (h : s.Records s' es) (hahead : s.LoopAhead) :
    ∀ write ∈ s'.loop.write?,
      ∀ last ∈ s'.state.lastRequestId write.clientId,
        last ≤ write.requestId := by
  intro write hwrite last hlast
  cases h with
  | same hrecord hloop =>
      rw [hrecord] at hlast
      rcases hloop write hwrite with hbefore | hfresh
      · exact hahead.write write hbefore last hlast
      · by_contra hlt
        have hduplicate : s.state.ifRequestDuplicate write.clientId
            write.requestId = true :=
          KvState.ifRequestDuplicate_iff.mpr ⟨last, hlast, by omega⟩
        simp [hduplicate] at hfresh
  | @get op hop hrecord hloop =>
      rw [hloop] at hwrite
      rw [hrecord] at hlast
      by_cases hc : write.clientId = op.clientId
      · rw [hc, Function.update_self] at hlast
        obtain rfl := Option.some.inj hlast
        exact hop.2 write hwrite hc
      · rw [Function.update_of_ne hc] at hlast
        exact hahead.write write hwrite last hlast
  | executes _ _ hloop => simp [hloop] at hwrite
  | restored _ hloop => simp [hloop] at hwrite
  | restarted _ hloop => simp [hloop] at hwrite

/-- The loop leaves `idle` only behind `booted`. -/
theorem Moves.booting (h : s.Moves a s' es)
    (hbooting : s.booted = false → s.loop = .idle) :
    s'.booted = false → s'.loop = .idle := by
  intro hbooted
  cases h with
  | quiet hsame =>
      rw [hsame.loop]
      exact hbooting (hsame.booted ▸ hbooted)
  | reboot => rfl
  | snapshotExit => rfl
  | sendMessageToWaitChan => rfl
  | readSnapShotToInstall =>
      unfold KvServer.readSnapShotToInstall at hbooted
      split at hbooted <;> cases hbooted
  | @popCommand op i rest hb =>
      unfold KvServer.getCommandFromRaft at hbooted
      split at hbooted <;> simp [hb] at hbooted
  | @popSnapshot image t i rest hb =>
      unfold KvServer.getSnapShotFromRaft at hbooted
      split at hbooted <;> simp [hb] at hbooted
  | execute hloop => simp [hloop] at hbooting; simp [hbooting] at hbooted
  | makeSnapShot hloop => simp [hloop] at hbooting; simp [hbooting] at hbooted
  | skipSnapshot hloop => simp [hloop] at hbooting; simp [hbooting] at hbooted
  | snapshotRefused hloop =>
      simp [hloop] at hbooting
      simp [hbooting] at hbooted
  | snapshotTaken hloop =>
      simp [hloop] at hbooting
      simp [hbooting] at hbooted
  | readOnlyGet _ hsame =>
      rw [hsame.loop]
      exact hbooting (hsame.booted ▸ hbooted)
  | executeGet _ hsame =>
      rw [hsame.loop]
      exact hbooting (hsame.booted ▸ hbooted)
  | _ => exact hbooting hbooted

theorem LoopAhead.step (h : s.LoopAhead) (hgets : s.GetsOnTime a)
    (hstep : s.step a = some (s', es)) : s'.LoopAhead where
  booting := (step_moves hstep).booting h.booting
  write := ((step_moves hstep).records h hgets).write_ahead h

/-- Without a reset no record goes down. -/
theorem Records.recordsLe (h : s.Records s' es) (hahead : s.LoopAhead)
    (hreset : ∀ e ∈ es, e.isReset = false) : s.state.RecordsLe s'.state := by
  cases h with
  | same hrecord => exact .of_eq hrecord
  | get hop hrecord => exact .of_update hop.1 hrecord
  | @executes i op expired hwrite hrecord =>
      exact .of_update (hahead.write op hwrite) hrecord
  | restored hmem => cases hreset _ hmem
  | restarted hmem => cases hreset _ hmem

/-- What was executed is known to the state, and the write that the loop is
about to execute is a later one. -/
def Remembers (s : KvServer n) (es : List KvEvent) : Prop :=
  ∀ c r, Executed c r es →
    s.state.ifRequestDuplicate c r = true ∧
      ∀ write ∈ s.loop.write?, write.clientId = c → r < write.requestId

theorem Remembers.step {es' : List KvEvent} (h : s.Remembers es)
    (honce : AtMostOnce es) (hahead : s.LoopAhead)
    (hrecords : s.Records s' es') :
    s'.Remembers (es ++ es') ∧ AtMostOnce (es ++ es') := by
  cases id hrecords with
  | same hrecord hloop hes hreset =>
      refine ⟨fun c r hexecuted => ?_, atMostOnce_append honce hes⟩
      obtain ⟨hduplicate, hlater⟩ := h c r (executed_append hes hexecuted).1
      refine ⟨(hrecords.recordsLe hahead hreset).ifRequestDuplicate hduplicate,
        fun write hwrite hc => ?_⟩
      rcases hloop write hwrite with hbefore | hfresh
      · exact hlater write hbefore hc
      · by_contra hle
        obtain ⟨last, hlast, hr⟩ := KvState.ifRequestDuplicate_iff.mp hduplicate
        have hdup : s.state.ifRequestDuplicate write.clientId
            write.requestId = true :=
          KvState.ifRequestDuplicate_iff.mpr ⟨last, hc ▸ hlast, by omega⟩
        simp [hdup] at hfresh
  | get hop hrecord hloop =>
      rw [List.append_nil]
      refine ⟨fun c r hexecuted => ?_, honce⟩
      obtain ⟨hduplicate, hlater⟩ := h c r hexecuted
      refine ⟨(hrecords.recordsLe hahead (by simp)).ifRequestDuplicate
        hduplicate, ?_⟩
      rw [hloop]
      exact hlater
  | @executes i op expired hwrite hrecord hloop =>
      refine ⟨fun c r hexecuted => ⟨?_, by simp [hloop]⟩,
        atMostOnce_snoc honce fun c r hexecutes hexecuted => ?_⟩
      · have hle := hrecords.recordsLe hahead (by simp [KvEvent.isReset])
        rcases executed_snoc.mp hexecuted with hexecutes | ⟨hexecuted, -⟩
        · obtain ⟨-, -, rfl, rfl⟩ := hexecutes
          exact KvState.ifRequestDuplicate_iff.mpr
            ⟨op.requestId, by simp [hrecord], le_rfl⟩
        · exact hle.ifRequestDuplicate (h c r hexecuted).1
      · -- the loop has found this write behind everything executed
        obtain ⟨-, -, hc, rfl⟩ := hexecutes
        exact lt_irrefl _ ((h c _ hexecuted).2 op hwrite hc)
  | restored hmem hloop hes =>
      refine ⟨fun c r hexecuted => ⟨?_, by simp [hloop]⟩,
        atMostOnce_append honce hes⟩
      have hkeeps := (executed_append hes hexecuted).2 _ hmem
      simpa [KvEvent.Forgets] using hkeeps
  | restarted hmem hloop hes =>
      refine ⟨fun c r hexecuted => ?_, atMostOnce_append honce hes⟩
      exact ((executed_append hes hexecuted).2 _ hmem trivial).elim

theorem loopAhead_start (me : Fin n) : (start me).LoopAhead :=
  ⟨fun _ => rfl, by simp [start, boot, Loop.write?]⟩

/-- With `Get` handlers that come in time no write is executed twice, and the
record of a client goes down only when the state is replaced. -/
theorem at_most_once {me : Fin n} {as bs : List (KvAction n)}
    {s₁ s₂ : KvServer n} {es₁ es₂ : List KvEvent}
    (hgets : Transition.Throughout step GetsOnTime (start me) (as ++ bs))
    (hfirst : (start me).run as = some (s₁, es₁))
    (hrest : s₁.run bs = some (s₂, es₂)) :
    AtMostOnce (es₁ ++ es₂) ∧
      ((∀ e ∈ es₂, e.isReset = false) → s₁.state.RecordsLe s₂.state) := by
  obtain ⟨hgets₁, hgets₂⟩ := (Transition.throughout_append hfirst).mp hgets
  have hkeeps : ∀ (s : KvServer n) es a s' es', s.GetsOnTime a →
      (s.LoopAhead ∧ s.Remembers es ∧ AtMostOnce es) →
      s.step a = some (s', es') →
      s'.LoopAhead ∧ s'.Remembers (es ++ es') ∧ AtMostOnce (es ++ es') := by
    rintro s es a s' es' hp ⟨hahead, hremembers, honce⟩ hstep
    exact ⟨hahead.step hp hstep, hremembers.step honce hahead
      ((step_moves hstep).records hahead hp)⟩
  obtain ⟨hahead₁, hremembers₁, honce₁⟩ := Transition.run_history
    (I := fun s es => s.LoopAhead ∧ s.Remembers es ∧ AtMostOnce es) hkeeps
    hgets₁ ⟨loopAhead_start me, by simp [Remembers, Executed],
      by simp [AtMostOnce]⟩ hfirst
  refine ⟨(Transition.run_induction
    (I := fun s es => s.LoopAhead ∧ s.Remembers es ∧ AtMostOnce es) hkeeps
    hgets₂ ⟨hahead₁, hremembers₁, honce₁⟩ hrest).2.2, ?_⟩
  have hgrows : s₂.LoopAhead ∧ ((∀ e ∈ es₂, e.isReset = false) →
      s₁.state.RecordsLe s₂.state) := by
    refine Transition.run_history (I := fun s es => s.LoopAhead ∧
      ((∀ e ∈ es, e.isReset = false) → s₁.state.RecordsLe s.state)) ?_ hgets₂
      ⟨hahead₁, fun _ => .of_eq rfl⟩ hrest
    rintro s es a s' es' hp ⟨hahead, hle⟩ hstep
    refine ⟨hahead.step hp hstep, fun hreset => ?_⟩
    exact (hle fun e he => hreset e (by simp [he])).trans
      (((step_moves hstep).records hahead hp).recordsLe hahead
        fun e he => hreset e (by simp [he]))
  exact hgrows.2

/-! ## A late `Get` handler -/

def lateGet : Op where
  operation := "Get"
  key := "k"
  value := ""
  clientId := "c"
  requestId := 1
  ttlMs := 0
  expireAtMs := 0

def retriedAppend : Op where
  operation := "Append"
  key := "k"
  value := "v"
  clientId := "c"
  requestId := 2
  ttlMs := 0
  expireAtMs := 0

/-- The log of the leader in which both requests were retried. -/
def retriedLog : List LogEntry :=
  [{ command := Raft.noop 1, logTerm := 1, logIndex := 1 },
    { command := lateGet, logTerm := 1, logIndex := 2 },
    { command := lateGet, logTerm := 1, logIndex := 3 },
    { command := retriedAppend, logTerm := 1, logIndex := 4 },
    { command := retriedAppend, logTerm := 1, logIndex := 5 }]

/-- Server 1 acknowledges the first entries of the log. -/
def acknowledged (k : ℕ) : KvAction 3 :=
  .receive (.sendAppendEntries 1
    { term := 1, leaderId := 0, prevLogIndex := 0, prevLogTerm := 0,
      entries := retriedLog.take k, leaderCommit := 0 }
    { term := 1, success := true, updateNextIndex := 0,
      appState := .appNormal } 1)

/-- The apply loop takes `Noop` and both copies of the `Get`, and the first
handler answers the clerk. -/
def answeredGet : List (KvAction 3) :=
  [.readSnapShotToInstall, .receive .doElection,
    .receive (.sendRequestVote 1
      { term := 1, voteGranted := true, voteState := .normal }),
    .call "c" (.get "k"), .arrive 0 0, .arrive 0 0, .start 0, .registerWait 0,
    .start 1, .registerWait 1, acknowledged 3, .getApplyLogs,
    .pushCommand, .pushCommand, .pushCommand] ++
    applyOne ++ applyOne ++ applyOne ++
    [.timeOutPop 0, .timeOutPop 1, .executeGet 0 0, .eraseWait 0,
      .answered "c" 0]

/-- The clerk goes on to an `Append` and retries it; `between` runs between
its two copies. -/
def retriedRun (before between : List (KvAction 3)) : List (KvAction 3) :=
  answeredGet ++ before ++
    [.call "c" (.putAppend "k" "v" "Append" 0), .arrive 1 0, .arrive 1 0,
      .start 2, .registerWait 2, .start 3, .registerWait 3, acknowledged 5,
      .getApplyLogs, .pushCommand, .pushCommand] ++
    applyOne ++ between ++ applyOne

theorem at_most_once_in_time :
    ∃ s₁ s₂ es₁ es₂, (start 0).run answeredGet = some (s₁, es₁) ∧
      s₁.run ((retriedRun [.executeGet 1 0] []).drop answeredGet.length) =
        some (s₂, es₂) ∧
      s₂.state.engine "k" = some "v" ∧ AtMostOnce (es₁ ++ es₂) ∧
      ((∀ e ∈ es₂, e.isReset = false) → s₁.state.RecordsLe s₂.state) := by
  obtain ⟨s₁, es₁, hfirst, s₂, es₂, hrest, hvalue⟩ : ∃ s₁ es₁,
      (start 0).run answeredGet = some (s₁, es₁) ∧ ∃ s₂ es₂,
        s₁.run ((retriedRun [.executeGet 1 0] []).drop answeredGet.length) =
          some (s₂, es₂) ∧ s₂.state.engine "k" = some "v" := by
    decide +kernel
  exact ⟨s₁, s₂, es₁, es₂, hfirst, hrest, hvalue,
    at_most_once (by decide +kernel) hfirst hrest⟩

/-- Two executions without a reset in between. -/
theorem not_atMostOnce {k : ℕ} (hfirst : ∃ e ∈ es.take k, e.Executes c r)
    (hsecond : ∃ e ∈ es[k]?, e.Executes c r)
    (hreset : ∀ e ∈ es, e.isReset = false) : ¬AtMostOnce es := by
  intro honce
  obtain ⟨e, he, hexecutes⟩ := hsecond
  obtain ⟨e', he', hexecutes'⟩ := hfirst
  obtain ⟨l₁, l₂, hsplit⟩ := List.append_of_mem he'
  have hes : es = es.take k ++ e :: es.drop (k + 1) := by
    obtain ⟨hk, rfl⟩ := List.getElem?_eq_some_iff.mp he
    rw [List.cons_getElem_drop_succ, List.take_append_drop]
  refine honce (es.take k) e _ c r hes hexecutes
    ⟨l₁, e', l₂, hsplit, hexecutes', fun x hx hforgets => ?_⟩
  have hmem : x ∈ es.take k := by simp [hsplit, hx]
  have hkept := hreset x (List.mem_of_mem_take hmem)
  simp [hforgets.isReset] at hkept

/-- The second handler of the answered `Get` takes the record of its client
back, and the second copy of the `Append` is executed. -/
theorem late_get_repeats_write :
    ∃ s es, (start 0).run (retriedRun [] [.executeGet 1 0]) = some (s, es) ∧
      s.state.engine "k" = some "vv" ∧ ¬AtMostOnce es := by
  obtain ⟨s, es, hrun, hvalue, hfirst, hsecond, hreset⟩ : ∃ s es,
      (start 0).run (retriedRun [] [.executeGet 1 0]) = some (s, es) ∧
        s.state.engine "k" = some "vv" ∧
        (∃ e ∈ es.take 8, e.Executes "c" 2) ∧
        (∃ e ∈ es[8]?, e.Executes "c" 2) ∧
        ∀ e ∈ es, e.isReset = false := by
    decide +kernel
  exact ⟨s, es, hrun, hvalue, not_atMostOnce hfirst hsecond hreset⟩

end KvServer

end KVRaftStorage
