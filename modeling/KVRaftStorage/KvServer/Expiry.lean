import KVRaftStorage.KvServer.State
import Mathlib.Data.List.Pairwise

/-!
# What readers see of the expiry of keys

The values and the moments at which they expire are in two maps.  One read
path deletes an expired key, the other one leaves it where it is.  To readers
whose clock does not run backwards the two maps are one: every read finds what
a map from keys to values with their expiry holds, and no read changes
anything.
-/

namespace KVRaftStorage

/-- An operation on the maps of a server, for a request that is executed for
the first time. -/
inductive KvCall where
  | put (op : Op)
  | append (op : Op)
  | get (op : Op)
  | readOnlyGet (op : Op)

namespace KvState

def perform (st : KvState) (now : ℕ) : KvCall → KvState
  | .put op => st.executePutOpOnKVDB op
  | .append op => st.executeAppendOpOnKVDB now op
  | .get op => (st.executeGetOpOnKVDB now op).1
  | .readOnlyGet _ => st

/-- The state after calls, each at a reading of the clock. -/
def performAll (st : KvState) (calls : List (ℕ × KvCall)) : KvState :=
  calls.foldl (fun st call => st.perform call.1 call.2) st

end KvState

/-- Values with the moment at which they expire, if they do. -/
abbrev ExpiringMap := String → Option (String × Option ℕ)

namespace ExpiringMap

def empty : ExpiringMap := fun _ => none

/-- The value of the key, unless it has expired. -/
def find (m : ExpiringMap) (now : ℕ) (key : String) : Option String :=
  match m key with
  | none => none
  | some (value, none) => some value
  | some (value, some expireAt) => if expireAt < now then none else some value

def expiry (op : Op) : Option ℕ :=
  if 0 < op.expireAtMs then some op.expireAtMs.toNat else none

def put (m : ExpiringMap) (op : Op) : ExpiringMap :=
  Function.update m op.key (some (op.value, expiry op))

def append (m : ExpiringMap) (now : ℕ) (op : Op) : ExpiringMap :=
  let value :=
    match m.find now op.key with
    | none => op.value
    | some oldValue => oldValue ++ op.value
  Function.update m op.key (some (value, expiry op))

/-- Only the writes do something. -/
def perform (m : ExpiringMap) (now : ℕ) : KvCall → ExpiringMap
  | .put op => m.put op
  | .append op => m.append now op
  | .get _ => m
  | .readOnlyGet _ => m

def performAll (m : ExpiringMap) (calls : List (ℕ × KvCall)) : ExpiringMap :=
  calls.foldl (fun m call => m.perform call.1 call.2) m

/-- What a read answers with. -/
def read (m : ExpiringMap) (now : ℕ) (key : String) : String × Bool :=
  ((m.find now key).getD "", (m.find now key).isSome)

end ExpiringMap

namespace KvState

/-- What a read finds. -/
def find (st : KvState) (now : ℕ) (key : String) : Option String :=
  if st.isKeyExpired now key then none else st.engine key

/-- From the given moment on the two maps look like the one. -/
def LooksLike (st : KvState) (m : ExpiringMap) (start : ℕ) : Prop :=
  ∀ now, start ≤ now → ∀ key, st.find now key = m.find now key

variable {st : KvState} {m : ExpiringMap} {start now : ℕ} {op : Op}
  {key value : String}

theorem isKeyExpired_iff : st.isKeyExpired now key = true ↔
    ∃ expireAt, st.expireMap key = some expireAt ∧ expireAt < now := by
  unfold isKeyExpired
  cases st.expireMap key <;> simp

theorem find_eq (st : KvState) (now : ℕ) (key : String) :
    st.find now key =
      match st.expireMap key with
      | none => st.engine key
      | some expireAt => if expireAt < now then none else st.engine key := by
  unfold find isKeyExpired
  cases st.expireMap key <;> simp

theorem find_congr {st' : KvState}
    (hexpire : st.expireMap key = st'.expireMap key)
    (hengine : st.engine key = st'.engine key) (now : ℕ) :
    st.find now key = st'.find now key := by
  rw [find_eq, find_eq, hexpire, hengine]

theorem isKeyExpired_mono {later : ℕ} (hle : now ≤ later)
    (h : st.isKeyExpired now key = true) :
    st.isKeyExpired later key = true := by
  rw [isKeyExpired_iff] at h ⊢
  obtain ⟨expireAt, hexpire, hlt⟩ := h
  exact ⟨expireAt, hexpire, hlt.trans_le hle⟩

theorem executeGet_snd (st : KvState) (now : ℕ) (op : Op) :
    (st.executeGetOpOnKVDB now op).2 =
      ((st.find now op.key).getD "", (st.find now op.key).isSome) := by
  unfold executeGetOpOnKVDB find
  split <;> rfl

theorem executeReadOnlyGet_eq (st : KvState) (now : ℕ) (op : Op) :
    st.executeReadOnlyGetOpOnKVDB now op =
      ((st.find now op.key).getD "", (st.find now op.key).isSome) := by
  unfold executeReadOnlyGetOpOnKVDB find
  split <;> rfl

/-- Deleting an expired key shows at no later moment. -/
theorem find_dropExpired {later : ℕ} (hle : now ≤ later) (key other : String) :
    (st.dropExpired now key).find later other = st.find later other := by
  unfold dropExpired
  split
  · next hexpired =>
      by_cases heq : other = key
      · subst heq
        rw [find, find, if_pos (isKeyExpired_mono hle hexpired)]
        simp [isKeyExpired]
      · exact find_congr (Function.update_of_ne heq ..)
          (Function.update_of_ne heq ..) later
  · rfl

theorem find_recordRequest (st : KvState) (op : Op) :
    (st.recordRequest op).find now key = st.find now key := rfl

/-- The value and the expiry of a write. -/
theorem find_write (st : KvState) (op : Op) (value : String) (now : ℕ)
    (key : String) :
    (((st.put op.key value).setKeyExpire op.key op.expireAtMs).recordRequest
        op).find now key =
      if key = op.key then
        match ExpiringMap.expiry op with
        | none => some value
        | some expireAt => if expireAt < now then none else some value
      else st.find now key := by
  rw [find_recordRequest]
  by_cases heq : key = op.key
  · subst heq
    rw [find_eq, if_pos rfl]
    simp only [setKeyExpire, put, Function.update_self]
    rfl
  · rw [if_neg heq]
    exact find_congr (Function.update_of_ne heq ..)
      (Function.update_of_ne heq ..) now

end KvState

namespace ExpiringMap

theorem find_write (m : ExpiringMap) (op : Op) (value : String) (now : ℕ)
    (key : String) :
    find (Function.update m op.key (some (value, expiry op))) now key =
      if key = op.key then
        match expiry op with
        | none => some value
        | some expireAt => if expireAt < now then none else some value
      else m.find now key := by
  by_cases heq : key = op.key
  · subst heq
    rw [find, Function.update_self, if_pos rfl]
    cases expiry op <;> rfl
  · rw [find, Function.update_of_ne heq, if_neg heq]
    rfl

end ExpiringMap

namespace KvState

variable {st : KvState} {m : ExpiringMap} {start now : ℕ} {op : Op}

theorem LooksLike.mono {later : ℕ} (h : st.LooksLike m start)
    (hle : start ≤ later) : st.LooksLike m later :=
  fun now hnow => h now (hle.trans hnow)

theorem LooksLike.put (h : st.LooksLike m start) (op : Op) :
    (st.executePutOpOnKVDB op).LooksLike (m.put op) start := by
  intro now hnow key
  rw [executePutOpOnKVDB, find_write, ExpiringMap.put, ExpiringMap.find_write,
    h now hnow key]

/-- What is appended to is what a reader finds at that moment. -/
theorem LooksLike.append (h : st.LooksLike m now) (op : Op) :
    (st.executeAppendOpOnKVDB now op).LooksLike (m.append now op) now := by
  have hold : (st.dropExpired now op.key).engine op.key =
      m.find now op.key := by
    rw [← h now le_rfl op.key]
    unfold dropExpired find
    split
    · exact Function.update_self ..
    · rfl
  intro later hlater key
  rw [executeAppendOpOnKVDB, ExpiringMap.append, find_write,
    ExpiringMap.find_write, hold, find_dropExpired hlater]
  exact if_congr Iff.rfl rfl (h later hlater key)

theorem LooksLike.get (h : st.LooksLike m now) (op : Op) :
    (st.executeGetOpOnKVDB now op).1.LooksLike m now := by
  intro later hlater key
  rw [← h later hlater key]
  unfold executeGetOpOnKVDB
  split
  · rw [find_recordRequest, find_dropExpired hlater]
  · rw [find_recordRequest]

theorem LooksLike.perform (h : st.LooksLike m start) (hle : start ≤ now)
    (call : KvCall) :
    (st.perform now call).LooksLike (m.perform now call) now := by
  have hnow := h.mono hle
  cases call with
  | put op => exact hnow.put op
  | append op => exact hnow.append op
  | get op => exact hnow.get op
  | readOnlyGet op => exact hnow

theorem LooksLike.performAll (h : st.LooksLike m start)
    {calls : List (ℕ × KvCall)} {last : ℕ}
    (hclock : (start :: calls.map Prod.fst ++ [last]).Pairwise (· ≤ ·)) :
    (st.performAll calls).LooksLike (m.performAll calls) last := by
  induction calls generalizing st m start with
  | nil =>
      apply h.mono
      simpa using hclock
  | cons call calls ih =>
      rw [List.map_cons, List.cons_append] at hclock
      obtain ⟨hle, hrest⟩ := List.pairwise_cons.mp hclock
      exact ih (h.perform (hle call.1 (by simp)) call.2) hrest

theorem empty_looksLike : empty.LooksLike .empty 0 := fun _ _ _ => rfl

end KvState

/-- The writes of a sequence of calls. -/
def KvCall.Writes : KvCall → Bool
  | .put _ => true
  | .append _ => true
  | .get _ => false
  | .readOnlyGet _ => false

theorem ExpiringMap.performAll_writes (m : ExpiringMap)
    (calls : List (ℕ × KvCall)) :
    m.performAll (calls.filter (fun call => call.2.Writes)) =
      m.performAll calls := by
  induction calls generalizing m with
  | nil => rfl
  | cons call calls ih =>
      obtain ⟨now, call⟩ := call
      cases call with
      | put op => exact ih _
      | append op => exact ih _
      | get op => exact ih _
      | readOnlyGet op => exact ih _

/-- Every read, on either path and wherever other reads stand, answers what
the map from keys to values and expiries holds after the writes alone. -/
theorem reads_expiring_map {calls : List (ℕ × KvCall)} {now : ℕ}
    (hclock : (calls.map Prod.fst ++ [now]).Pairwise (· ≤ ·)) (op : Op) :
    let st := KvState.empty.performAll calls
    let m := ExpiringMap.empty.performAll
      (calls.filter (fun call => call.2.Writes))
    (st.executeGetOpOnKVDB now op).2 = m.read now op.key ∧
      st.executeReadOnlyGetOpOnKVDB now op = m.read now op.key := by
  intro st m
  have hstart : (0 :: calls.map Prod.fst ++ [now]).Pairwise (· ≤ ·) :=
    List.pairwise_cons.mpr ⟨fun _ _ => Nat.zero_le _, hclock⟩
  have hlooks := KvState.empty_looksLike.performAll hstart now le_rfl op.key
  rw [← ExpiringMap.performAll_writes] at hlooks
  refine ⟨?_, ?_⟩
  · rw [KvState.executeGet_snd, hlooks]
    rfl
  · rw [KvState.executeReadOnlyGet_eq, hlooks]
    rfl

/-- A key that expires, is found expired on both paths, and is appended to
afterwards. -/
theorem reads_expiring_map_appended :
    let op := fun value expireAtMs =>
      ({ operation := "", key := "a", value := value, clientId := ""
         requestId := 0, ttlMs := 0, expireAtMs := expireAtMs } : Op)
    let calls := [(1, KvCall.put (op "x" 5)), (6, .readOnlyGet (op "" 0)),
      (6, .append (op "y" 9)), (7, .get (op "" 0)), (8, .append (op "z" 0)),
      (12, .get (op "" 0))]
    let st := KvState.empty.performAll calls
    let m := ExpiringMap.empty.performAll
      (calls.filter (fun call => call.2.Writes))
    m.read 12 "a" = ("yz", true) ∧
      (st.executeGetOpOnKVDB 12 (op "" 0)).2 = m.read 12 "a" ∧
        st.executeReadOnlyGetOpOnKVDB 12 (op "" 0) = m.read 12 "a" := by
  intro op calls st m
  exact ⟨by decide, reads_expiring_map (by decide) (op "" 0)⟩

end KVRaftStorage
