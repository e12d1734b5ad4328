import KVRaftStorage.Raft.Lookups

/-!
# What `AppendEntries1` makes of the log

The merge loop looks at every carried entry separately, appends it or puts it
into its slot, and never shortens the log.  Its effect is that the window of
the request is overwritten.  This is the log that Raft asks for, unless a
conflict lies in front of entries behind the window: those stay.
-/

namespace KVRaftStorage

variable {n : ℕ} {Image : Type}

/-! ## Overwriting a window of a list -/

section Overwrite

variable {α : Type*} {l xs : List α} {k : ℕ}

/-- The list with `xs` written over it from position `k` on. -/
def overwrite (l : List α) (k : ℕ) (xs : List α) : List α :=
  l.take k ++ xs ++ l.drop (k + xs.length)

theorem overwrite_nil (l : List α) (k : ℕ) : overwrite l k [] = l := by
  simp [overwrite]

theorem length_overwrite (hk : k ≤ l.length) :
    (overwrite l k xs).length = max l.length (k + xs.length) := by
  simp only [overwrite, List.length_append, List.length_take, List.length_drop]
  omega

theorem overwrite_cons (hk : k ≤ l.length) (x : α) (xs : List α) :
    overwrite (overwrite l k [x]) (k + 1) xs = overwrite l k (x :: xs) := by
  have hlen : (l.take k ++ [x]).length = k + 1 := by
    simp [Nat.min_eq_left hk]
  have hsplit : overwrite l k [x] = (l.take k ++ [x]) ++ l.drop (k + 1) := rfl
  have hdrop : (overwrite l k [x]).drop (k + 1 + xs.length) =
      l.drop (k + (x :: xs).length) := by
    rw [hsplit, ← List.drop_drop, List.drop_left' hlen, List.drop_drop,
      List.length_cons]
    congr 1
    omega
  rw [overwrite, hdrop, hsplit, List.take_left' hlen, overwrite,
    List.append_assoc (l.take k), List.singleton_append]

theorem getElem?_overwrite_left {j : ℕ} (hk : k ≤ l.length) (hj : j < k) :
    (overwrite l k xs)[j]? = l[j]? := by
  have hlen : (l.take k).length = k := List.length_take_of_le hk
  rw [overwrite, List.append_assoc, List.getElem?_append_left (by omega),
    List.getElem?_take, if_pos hj]

/-- The window holds what was written. -/
theorem getElem?_overwrite_add {j : ℕ} (hk : k ≤ l.length)
    (hj : j < xs.length) : (overwrite l k xs)[k + j]? = xs[j]? := by
  have hlen : (l.take k).length = k := List.length_take_of_le hk
  rw [overwrite, List.append_assoc, List.getElem?_append_right (by omega), hlen,
    Nat.add_sub_cancel_left, List.getElem?_append_left hj]

theorem overwrite_idem (hk : k ≤ l.length) :
    overwrite (overwrite l k xs) k xs = overwrite l k xs := by
  have hlen : (l.take k).length = k := List.length_take_of_le hk
  have hlen' : (l.take k ++ xs).length = k + xs.length := by
    rw [List.length_append, hlen]
  rw [overwrite]
  conv_rhs => rw [overwrite]
  congr 1
  · rw [overwrite, List.append_assoc, List.take_left' hlen]
  · rw [overwrite, List.drop_left' hlen']

/-- Where the window agrees with the list, only what is missing is added. -/
theorem overwrite_eq_append (hk : k ≤ l.length)
    (h : ∀ j x y, xs[j]? = some x → l[k + j]? = some y → x = y) :
    overwrite l k xs = l ++ xs.drop (l.length - k) := by
  have hwindow : (l.drop k).take xs.length = xs.take (l.length - k) := by
    apply List.ext_getElem?
    intro j
    rw [List.getElem?_take, List.getElem?_drop, List.getElem?_take]
    by_cases hj : j < xs.length
    · by_cases hj' : k + j < l.length
      · rw [if_pos hj, if_pos (by omega), List.getElem?_eq_getElem hj',
          List.getElem?_eq_getElem hj]
        exact congrArg some (h j _ _ (List.getElem?_eq_getElem hj)
          (List.getElem?_eq_getElem hj')).symm
      · rw [if_pos hj, if_neg (by omega), List.getElem?_eq_none (by omega)]
    · rw [if_neg hj]
      split
      · rw [List.getElem?_eq_none (by omega)]
      · rfl
  rcases Nat.le_total (k + xs.length) l.length with hle | hle
  · rw [List.take_of_length_le (by omega : xs.length ≤ l.length - k)] at hwindow
    rw [List.drop_eq_nil_of_le (by omega : xs.length ≤ l.length - k),
      List.append_nil, overwrite]
    conv_lhs => rw [← hwindow]
    rw [List.append_assoc, List.length_take, List.length_drop,
      Nat.min_eq_left (by omega), ← List.drop_drop, List.take_append_drop,
      List.take_append_drop]
  · rw [List.take_of_length_le
      (by rw [List.length_drop]; omega : (l.drop k).length ≤ xs.length)]
      at hwindow
    rw [overwrite, List.drop_eq_nil_of_le hle, List.append_nil]
    conv_lhs => rw [← List.take_append_drop (l.length - k) xs, ← hwindow]
    rw [← List.append_assoc, List.take_append_drop]

end Overwrite

/-! ## Entries up to an index -/

namespace Consecutive

variable {base : ℕ} {logs : List LogEntry}

theorem filter_lt (h : Consecutive base logs) (i : ℕ) :
    logs.filter (fun entry => entry.logIndex < i) =
      logs.take (i - base - 1) := by
  induction logs generalizing base with
  | nil => simp
  | cons entry logs ih =>
      have hhead := h.head
      rw [List.filter_cons, ih h.tail]
      by_cases hlt : entry.logIndex < i
      · rw [if_pos (decide_eq_true hlt),
          show i - base - 1 = i - (base + 1) - 1 + 1 by omega,
          List.take_succ_cons]
      · rw [if_neg (by simpa using hlt),
          show i - base - 1 = 0 by omega,
          show i - (base + 1) - 1 = 0 by omega]
        simp

theorem filter_le (h : Consecutive base logs) (i : ℕ) :
    logs.filter (fun entry => i ≤ entry.logIndex) =
      logs.drop (i - base - 1) := by
  induction logs generalizing base with
  | nil => simp
  | cons entry logs ih =>
      have hhead := h.head
      rw [List.filter_cons, ih h.tail]
      by_cases hle : i ≤ entry.logIndex
      · rw [if_pos (decide_eq_true hle),
          show i - base - 1 = 0 by omega,
          show i - (base + 1) - 1 = 0 by omega]
        simp
      · rw [if_neg (by simpa using hle),
          show i - base - 1 = i - (base + 1) - 1 + 1 by omega,
          List.drop_succ_cons]

theorem overwrite (h : Consecutive base logs) {entries : List LogEntry} {k : ℕ}
    (hk : k ≤ logs.length) (hentries : Consecutive (base + k) entries) :
    Consecutive base (overwrite logs k entries) := by
  have hlen : (logs.take k).length = k := List.length_take_of_le hk
  intro j entry hj
  rw [KVRaftStorage.overwrite] at hj
  rcases Nat.lt_or_ge j (k + entries.length) with hlt | hge
  · rw [List.getElem?_append_left (by
      rw [List.length_append, hlen]; exact hlt)] at hj
    rcases Nat.lt_or_ge j k with hlt | hge
    · rw [List.getElem?_append_left (by omega), List.getElem?_take,
        if_pos hlt] at hj
      exact h j entry hj
    · rw [List.getElem?_append_right (by omega), hlen] at hj
      have := hentries _ entry hj
      omega
  · rw [List.getElem?_append_right (by
      rw [List.length_append, hlen]; exact hge), List.getElem?_drop,
      List.length_append, hlen] at hj
    have := h _ entry hj
    omega

end Consecutive

namespace Raft

variable {r r' : Raft n Image} {args : AppendEntriesArgs n}

/-! ## The merge loop -/

/-- Where a carried entry meets one of its index and term, the commands are the
same, as the loop asserts. -/
def SameCommands (logs entries : List LogEntry) : Prop :=
  ∀ here ∈ logs, ∀ log ∈ entries, here.logIndex = log.logIndex →
    here.logTerm = log.logTerm → here.command = log.command

instance (logs entries : List LogEntry) :
    Decidable (SameCommands logs entries) :=
  inferInstanceAs (Decidable (∀ here ∈ logs, ∀ log ∈ entries, _))

theorem SameCommands.eq {logs entries : List LogEntry}
    (h : SameCommands logs entries) {here log : LogEntry} (hhere : here ∈ logs)
    (hlog : log ∈ entries) (hindex : here.logIndex = log.logIndex)
    (hterm : here.logTerm = log.logTerm) : here = log := by
  have hcommand := h here hhere log hlog hindex hterm
  cases here
  cases log
  simp_all

/-- One iteration writes its entry into its slot. -/
theorem mergeEntry_overwrites {log : LogEntry} {prev : ℕ}
    (h : Consecutive r.lastSnapshotIncludeIndex r.logs)
    (hge : r.lastSnapshotIncludeIndex ≤ prev) (hle : prev ≤ r.getLastLogIndex)
    (hlog : log.logIndex = prev + 1) (hsame : SameCommands r.logs [log]) :
    r.mergeEntry log = .ok { r with
      logs := overwrite r.logs (prev - r.lastSnapshotIncludeIndex) [log] } := by
  have hlen := getLastLogIndex_eq h
  by_cases hlast : r.getLastLogIndex < log.logIndex
  · rw [mergeEntry, if_pos hlast, overwrite,
      List.take_of_length_le (by omega), List.drop_eq_nil_of_le (by omega),
      List.append_nil]
  have hlast := Nat.le_of_not_lt hlast
  have hlt : r.lastSnapshotIncludeIndex < log.logIndex := by omega
  obtain ⟨here, hhere, hmem, hindex⟩ := entryAt_ok h hlt hlast
  have hslot := (entryAt_eq_ok hhere).2.2
  rw [entryAt?, if_pos hlt, hlog,
    show prev + 1 - r.lastSnapshotIncludeIndex - 1 =
      prev - r.lastSnapshotIncludeIndex by omega] at hslot
  have hset : r.logs.set (prev - r.lastSnapshotIncludeIndex) log =
      overwrite r.logs (prev - r.lastSnapshotIncludeIndex) [log] := by
    rw [List.set_eq_take_append_cons_drop, if_pos (by omega), overwrite]
    simp
  have hcommands : ¬(here.logTerm = log.logTerm ∧
      here.command ≠ log.command) := by
    rintro ⟨hterm, hne⟩
    exact hne (hsame here hmem log (by simp) hindex hterm)
  rw [mergeEntry, if_neg (Nat.not_lt_of_le hlast),
    getSlicesIndexFromLogIndex_ok hlt hlast]
  simp only [bind, Except.bind, hhere, myAssert, if_pos hcommands]
  by_cases hterm : here.logTerm = log.logTerm
  · obtain rfl := hsame.eq hmem (by simp) hindex hterm
    have hkeep : r.logs.set (prev - r.lastSnapshotIncludeIndex) here =
        r.logs := by
      obtain ⟨hslot, heq⟩ := List.getElem?_eq_some_iff.mp hslot
      rw [← heq, List.set_getElem_self]
    rw [if_neg (not_not.mpr rfl), ← hset, hkeep]
    rfl
  · rw [if_pos hterm, hlog,
      show prev + 1 - r.lastSnapshotIncludeIndex - 1 =
        prev - r.lastSnapshotIncludeIndex by omega, hset]
    rfl

/-- The loop writes its entries over the log. -/
theorem mergeLoop_overwrites {entries : List LogEntry} {prev : ℕ}
    (h : Consecutive r.lastSnapshotIncludeIndex r.logs)
    (hge : r.lastSnapshotIncludeIndex ≤ prev) (hle : prev ≤ r.getLastLogIndex)
    (hentries : Consecutive prev entries) (hsame : SameCommands r.logs entries) :
    entries.foldlM mergeEntry r = .ok { r with
      logs :=
        overwrite r.logs (prev - r.lastSnapshotIncludeIndex) entries } := by
  induction entries generalizing r prev with
  | nil =>
      rw [overwrite_nil]
      rfl
  | cons log entries ih =>
      have hhead := hentries.head
      have hlen := getLastLogIndex_eq h
      have hk : prev - r.lastSnapshotIncludeIndex ≤ r.logs.length := by omega
      let next := { r with
        logs := overwrite r.logs (prev - r.lastSnapshotIncludeIndex) [log] }
      have hfirst : r.mergeEntry log = .ok next :=
        mergeEntry_overwrites h hge hle hhead fun here hhere log' hlog' =>
          hsame here hhere log' (List.mem_singleton.mp hlog' ▸ by simp)
      obtain ⟨hnext, hlast, hmem⟩ := mergeEntry_consecutive hfirst h (by omega)
      -- the entry just written is in front of the remaining ones
      have hsame' : SameCommands next.logs entries := by
        intro here hhere log' hlog' hindex
        rcases hmem here hhere with hold | rfl
        · exact hsame here hold log' (List.mem_cons_of_mem _ hlog') hindex
        · obtain ⟨j, hj⟩ := List.mem_iff_getElem?.mp hlog'
          have := hentries.tail j log' hj
          omega
      have hprev : next.lastSnapshotIncludeIndex ≤ prev + 1 :=
        hge.trans (Nat.le_succ prev)
      have hrest := ih hnext hprev (by omega) hentries.tail hsame'
      rw [List.foldlM_cons, hfirst]
      refine hrest.trans ?_
      have hslot : prev + 1 - next.lastSnapshotIncludeIndex =
          prev - r.lastSnapshotIncludeIndex + 1 := by
        change prev + 1 - r.lastSnapshotIncludeIndex = _
        omega
      rw [hslot]
      exact congrArg (fun logs => Except.ok { r with logs := logs })
        (overwrite_cons hk log entries)

/-- The branch behind a successful `matchLog` writes the window and raises the
commit index within the new log. -/
theorem mergeEntries_overwrites
    (h : Consecutive r.lastSnapshotIncludeIndex r.logs)
    (hge : r.lastSnapshotIncludeIndex ≤ args.prevLogIndex)
    (hle : args.prevLogIndex ≤ r.getLastLogIndex)
    (hcommit : r.commitIndex ≤ r.getLastLogIndex)
    (hentries : Consecutive args.prevLogIndex args.entries)
    (hsame : SameCommands r.logs args.entries) :
    ∃ r', r.mergeEntries args = .ok r' ∧
      r' = { r with
        logs := overwrite r.logs
          (args.prevLogIndex - r.lastSnapshotIncludeIndex) args.entries
        commitIndex := r'.commitIndex } ∧
      r'.commitIndex ≤ r'.getLastLogIndex := by
  obtain ⟨next, hnext⟩ : ∃ next, next = { r with
    logs := overwrite r.logs
      (args.prevLogIndex - r.lastSnapshotIncludeIndex) args.entries } :=
    ⟨_, rfl⟩
  have hloop := mergeLoop_overwrites h hge hle hentries hsame
  rw [← hnext] at hloop
  have hlen := getLastLogIndex_eq h
  have hk : args.prevLogIndex - r.lastSnapshotIncludeIndex ≤ r.logs.length := by
    omega
  have hlast : next.getLastLogIndex = max r.getLastLogIndex
      (args.prevLogIndex + args.entries.length) := by
    have hwindow : Consecutive (r.lastSnapshotIncludeIndex +
        (args.prevLogIndex - r.lastSnapshotIncludeIndex)) args.entries := by
      rwa [Nat.add_sub_cancel' hge]
    have hlogs := h.overwrite hk hwindow
    rw [hnext, getLastLogIndex_eq hlogs]
    simp only [length_overwrite hk]
    omega
  have hold : next.commitIndex = r.commitIndex := by rw [hnext]
  cases hmerge : r.mergeEntries args with
  | ok r' =>
      obtain ⟨r₂, hloop', -, rfl⟩ := mergeEntries_eq_ok hmerge
      obtain rfl : next = r₂ := Except.ok.inj (hloop.symm.trans hloop')
      refine ⟨_, rfl, by rw [hnext], ?_⟩
      change (if _ then _ else _) ≤ next.getLastLogIndex
      split
      · exact Nat.min_le_right _ _
      · omega
  | error p =>
      simp only [mergeEntries, hloop, exec_bind_eq_error, myAssert_eq_error,
        Except.ok.injEq, reduceCtorEq, false_or] at hmerge
      rcases hmerge with ⟨_, rfl, ⟨hshort, -⟩ | ⟨-, -, ⟨hcommit', -⟩ | ⟨-, -, h⟩⟩⟩
      · omega
      · split at hcommit'
        · exact absurd (Nat.min_le_right _ _) hcommit'
        · omega
      · simp at h

theorem examineEntries_of_match
    (hprev : r.getLogTermFromLogIndex args.prevLogIndex =
      .ok args.prevLogTerm)
    (hmerge : r.mergeEntries args = .ok r') :
    r.examineEntries args =
      .ok (r'.persist, r'.appendEntriesReply true 0) := by
  obtain ⟨hge, hle, -⟩ := getLogTermFromLogIndex_eq_ok hprev
  rw [examineEntries, if_neg (Nat.not_lt_of_le hle),
    if_neg (Nat.not_lt_of_le hge), matchLog_of_term hprev,
    decide_eq_true rfl]
  simp only [bind, Except.bind, hmerge, if_true]
  rfl

/-- A request that reaches the merge loop is answered with success, and the
window it carries is written over the log. -/
theorem appendEntries1_overwrites (h : r.ReachesMerge args)
    (hlog : Consecutive r.lastSnapshotIncludeIndex r.logs)
    (hcommit : r.commitIndex ≤ r.getLastLogIndex)
    (hentries : Consecutive args.prevLogIndex args.entries)
    (hsame : SameCommands r.logs args.entries) :
    ∃ r' reply, r.appendEntries1 args = .ok (r', reply) ∧
      reply.success = true ∧
      r'.logs = overwrite r.logs
        (args.prevLogIndex - r.lastSnapshotIncludeIndex) args.entries ∧
      r'.lastSnapshotIncludeIndex = r.lastSnapshotIncludeIndex ∧
      r'.lastSnapshotIncludeTerm = r.lastSnapshotIncludeTerm ∧
      r'.currentTerm = args.term ∧ r'.commitIndex ≤ r'.getLastLogIndex := by
  obtain ⟨hterm, hge, hle, hprev⟩ := h
  have hcurrent : (r.observeTerm args.term).currentTerm = args.term :=
    currentTerm_observeTerm hterm
  obtain ⟨entered, henter⟩ : ∃ entered, entered = r.enterTerm args.term :=
    ⟨_, rfl⟩
  have hsameLog : r.SameLog entered := henter ▸ r.enterTerm_sameLog args.term
  have hlast := hsameLog.lastLogIndex
  have hold : entered.commitIndex = r.commitIndex := by simp [henter, enterTerm]
  have hlog' : Consecutive entered.lastSnapshotIncludeIndex entered.logs := by
    rw [hsameLog.index, hsameLog.logs]
    exact hlog
  have hprev' : entered.termAt? args.prevLogIndex = some args.prevLogTerm := by
    rw [← hprev, termAt?, termAt?, entryAt?, entryAt?, hsameLog.index,
      hsameLog.term, hsameLog.logs]
  have hge' : entered.lastSnapshotIncludeIndex ≤ args.prevLogIndex := by
    rwa [hsameLog.index]
  have hle' : args.prevLogIndex ≤ entered.getLastLogIndex := by rwa [hlast]
  obtain ⟨r', hmerge, heq, hcommit'⟩ := mergeEntries_overwrites hlog' hge' hle'
    (by omega) hentries (hsameLog.logs.symm ▸ hsame)
  have hexamine := examineEntries_of_match
    (getLogTermFromLogIndex_of_termAt? hlog' hge' hle' hprev') hmerge
  refine ⟨r'.persist, r'.appendEntriesReply true 0, ?_, rfl, ?_, ?_, ?_, ?_,
    hcommit'⟩
  · rw [appendEntries1, if_neg (Nat.not_lt_of_le hterm),
      myAssert_ok hcurrent.symm]
    rw [henter] at hexamine
    exact hexamine
  · have hlogs := congrArg Raft.logs heq
    rw [hsameLog.logs, hsameLog.index] at hlogs
    exact hlogs
  · exact (congrArg lastSnapshotIncludeIndex heq).trans hsameLog.index
  · exact (congrArg lastSnapshotIncludeTerm heq).trans hsameLog.term
  · have hentered := congrArg currentTerm heq
    rw [henter] at hentered
    exact hentered.trans hcurrent

/-! ## The merge law -/

/-- The first carried entry inside the log that has another term than the local
one. -/
def conflict? (r : Raft n Image) (entries : List LogEntry) : Option LogEntry :=
  entries.find? fun log => decide (log.logIndex ≤ r.getLastLogIndex ∧
    r.termAt? log.logIndex ≠ some log.logTerm)

/-- The log a request asks for.  Without a conflict only what is missing is
added; otherwise the log before the conflict is followed by the carried entries
from there on. -/
def mergedLog (r : Raft n Image) (entries : List LogEntry) : List LogEntry :=
  match r.conflict? entries with
  | none => r.logs ++ entries.filter fun log => r.getLastLogIndex < log.logIndex
  | some conflict =>
      (r.logs.filter fun here => here.logIndex < conflict.logIndex) ++
        entries.filter fun log => conflict.logIndex ≤ log.logIndex

/-- Outside a conflict the carried entry is the one in the log. -/
theorem window_agrees
    (h : Consecutive r.lastSnapshotIncludeIndex r.logs) {prev : ℕ}
    (hge : r.lastSnapshotIncludeIndex ≤ prev) {entries : List LogEntry}
    (hentries : Consecutive prev entries) (hsame : SameCommands r.logs entries)
    {j : ℕ} {log here : LogEntry} (hlog : entries[j]? = some log)
    (hhere : r.logs[prev - r.lastSnapshotIncludeIndex + j]? = some here)
    (hno : ¬(log.logIndex ≤ r.getLastLogIndex ∧
      r.termAt? log.logIndex ≠ some log.logTerm)) : log = here := by
  have hindex := hentries j log hlog
  have hindex' := h _ here hhere
  have hlen := getLastLogIndex_eq h
  have hlt := (List.getElem?_eq_some_iff.mp hhere).1
  have hterm : r.termAt? log.logIndex = some log.logTerm := by
    by_contra hne
    exact hno ⟨by omega, hne⟩
  rw [termAt?, if_neg (by omega), entryAt?, if_pos (by omega),
    show log.logIndex - r.lastSnapshotIncludeIndex - 1 =
      prev - r.lastSnapshotIncludeIndex + j by omega, hhere] at hterm
  exact (hsame.eq (List.mem_of_getElem? hhere) (List.mem_of_getElem? hlog)
    (by omega) (Option.some.inj hterm)).symm

/-- What the loop writes is the log asked for, unless it meets a conflict and
entries behind the window stay. -/
theorem overwrite_eq_mergedLog_iff
    (h : Consecutive r.lastSnapshotIncludeIndex r.logs) {prev : ℕ}
    (hge : r.lastSnapshotIncludeIndex ≤ prev) (hle : prev ≤ r.getLastLogIndex)
    {entries : List LogEntry} (hentries : Consecutive prev entries)
    (hsame : SameCommands r.logs entries) :
    overwrite r.logs (prev - r.lastSnapshotIncludeIndex) entries =
        r.mergedLog entries ↔
      ¬(prev + entries.length < r.getLastLogIndex ∧
        ∃ log ∈ entries, r.termAt? log.logIndex ≠ some log.logTerm) := by
  have hlen := getLastLogIndex_eq h
  have hk : prev - r.lastSnapshotIncludeIndex ≤ r.logs.length := by omega
  have hinside : ∀ log ∈ entries, log.logIndex ≤ prev + entries.length := by
    intro log hlog
    obtain ⟨j, hj⟩ := List.mem_iff_getElem?.mp hlog
    have hindex := hentries j log hj
    have hlt := (List.getElem?_eq_some_iff.mp hj).1
    omega
  cases hconflict : r.conflict? entries with
  | none =>
      have hno := List.find?_eq_none.mp hconflict
      simp only [decide_eq_true_eq] at hno
      have hmissing := hentries.filter_le (r.getLastLogIndex + 1)
      simp only [Nat.succ_le_iff] at hmissing
      rw [mergedLog, hconflict]
      simp only
      rw [hmissing, overwrite_eq_append hk fun j log here hlog hhere =>
        window_agrees h hge hentries hsame hlog hhere
          (hno log (List.mem_of_getElem? hlog)),
        show r.getLastLogIndex + 1 - prev - 1 =
          r.logs.length - (prev - r.lastSnapshotIncludeIndex) by omega]
      refine ⟨fun _ => ?_, fun _ => rfl⟩
      rintro ⟨hbehind, log, hlog, hne⟩
      have := hinside log hlog
      exact hno log hlog ⟨by omega, hne⟩
  | some conflict =>
      obtain ⟨hhere, before, after, rfl, hno⟩ :=
        List.find?_eq_some_iff_append.mp hconflict
      simp only [decide_eq_true_eq] at hhere
      have hindex := hentries before.length conflict (by simp)
      have hkept : (r.logs.drop (prev - r.lastSnapshotIncludeIndex)).take
          before.length = before := by
        apply List.ext_getElem (by
          rw [List.length_take, List.length_drop]
          omega)
        intro j hj hj'
        have hat := List.getElem?_eq_getElem
          (show prev - r.lastSnapshotIncludeIndex + j < r.logs.length by omega)
        rw [List.getElem_take, List.getElem_drop]
        have hno := hno _ (List.getElem_mem hj')
        simp only [Bool.not_eq_true', decide_eq_false_iff_not] at hno
        exact (window_agrees h hge hentries hsame
          (by rw [List.getElem?_append_left hj', List.getElem?_eq_getElem hj'])
          hat hno).symm
      have hmerged : r.mergedLog (before ++ conflict :: after) =
          r.logs.take (prev - r.lastSnapshotIncludeIndex) ++
            (before ++ conflict :: after) := by
        rw [mergedLog, hconflict]
        simp only
        rw [h.filter_lt, hentries.filter_le,
          show conflict.logIndex - r.lastSnapshotIncludeIndex - 1 =
            prev - r.lastSnapshotIncludeIndex + before.length by omega,
          show conflict.logIndex - prev - 1 = before.length by omega,
          List.take_add, hkept, List.drop_left, List.append_assoc]
      rw [hmerged, overwrite, List.append_right_eq_self,
        List.drop_eq_nil_iff]
      constructor
      · rintro hshort ⟨hbehind, -⟩
        omega
      · intro hnot
        by_contra hbehind
        exact hnot ⟨by omega, conflict, by simp, hhere.2⟩

/-- A request that has been merged finds its window in place. -/
theorem appendEntries1_twice {reply : AppendEntriesReply}
    (h : r.ReachesMerge args)
    (hlog : Consecutive r.lastSnapshotIncludeIndex r.logs)
    (hcommit : r.commitIndex ≤ r.getLastLogIndex)
    (hentries : Consecutive args.prevLogIndex args.entries)
    (hsame : SameCommands r.logs args.entries)
    (hok : r.appendEntries1 args = .ok (r', reply)) :
    ∃ r'' reply', r'.appendEntries1 args = .ok (r'', reply') ∧
      r''.logs = r'.logs := by
  obtain ⟨r₁, reply₁, hok₁, -, hlogs, hindex, hboundary, hterm, hcommit'⟩ :=
    appendEntries1_overwrites h hlog hcommit hentries hsame
  obtain ⟨rfl, rfl⟩ := Prod.mk.inj (Except.ok.inj (hok₁.symm.trans hok))
  obtain ⟨-, hge, hle, hprev⟩ := h
  have hlen := getLastLogIndex_eq hlog
  have hk : args.prevLogIndex - r.lastSnapshotIncludeIndex ≤ r.logs.length := by
    omega
  have hlog' : Consecutive r₁.lastSnapshotIncludeIndex r₁.logs := by
    rw [hindex, hlogs]
    refine hlog.overwrite hk ?_
    rwa [show r.lastSnapshotIncludeIndex +
      (args.prevLogIndex - r.lastSnapshotIncludeIndex) = args.prevLogIndex by
        omega]
  have hlast := getLastLogIndex_eq hlog'
  rw [hlogs, length_overwrite hk, hindex] at hlast
  have hreach : r₁.ReachesMerge args := by
    refine ⟨hterm.le, hindex ▸ hge, by omega, ?_⟩
    rw [← hprev, termAt?, termAt?, entryAt?, entryAt?, hindex, hboundary, hlogs]
    split
    · rfl
    split
    · rw [getElem?_overwrite_left hk (by omega)]
    · rfl
  have hsame' : SameCommands r₁.logs args.entries := by
    intro here hhere log hmem heq _
    obtain ⟨p, hp⟩ := List.mem_iff_getElem?.mp hhere
    obtain ⟨j, hj⟩ := List.mem_iff_getElem?.mp hmem
    have hat := hlog' p here hp
    have hat' := hentries j log hj
    rw [hindex] at hat
    rw [hlogs, show p = args.prevLogIndex - r.lastSnapshotIncludeIndex + j by
      omega, getElem?_overwrite_add hk (List.getElem?_eq_some_iff.mp hj).1,
      hj] at hp
    rw [Option.some.inj hp]
  obtain ⟨r₂, reply₂, hok₂, -, hlogs₂, -⟩ :=
    appendEntries1_overwrites hreach hlog' hcommit' hentries hsame'
  refine ⟨r₂, reply₂, hok₂, ?_⟩
  rw [hlogs₂, hindex, hlogs, overwrite_idem hk]

/-- A request whose previous entry matches leaves the log that the merge law
asks for exactly if it meets no conflict in front of entries behind its window.
Processing it again changes nothing. -/
theorem merge_law_iff (h : r.ReachesMerge args)
    (hlog : Consecutive r.lastSnapshotIncludeIndex r.logs)
    (hcommit : r.commitIndex ≤ r.getLastLogIndex)
    (hentries : Consecutive args.prevLogIndex args.entries)
    (hsame : SameCommands r.logs args.entries) :
    (∃ r' reply, r.appendEntries1 args = .ok (r', reply) ∧
      r'.logs = r.mergedLog args.entries ∧
      ∃ r'' reply', r'.appendEntries1 args = .ok (r'', reply') ∧
        r''.logs = r'.logs) ↔ ¬r.KeepsStaleEntries args := by
  obtain ⟨r', reply, hok, -, hlogs, -⟩ :=
    appendEntries1_overwrites h hlog hcommit hentries hsame
  have hiff := overwrite_eq_mergedLog_iff hlog h.2.1 h.2.2.1 hentries hsame
  rw [KeepsStaleEntries, and_iff_right h, ← hiff]
  constructor
  · rintro ⟨r₁, reply₁, hok₁, hmerged, -⟩
    obtain ⟨rfl, rfl⟩ := Prod.mk.inj (Except.ok.inj (hok.symm.trans hok₁))
    exact hlogs.symm.trans hmerged
  · intro hmerged
    exact ⟨r', reply, hok, hlogs.trans hmerged,
      appendEntries1_twice h hlog hcommit hentries hsame hok⟩

/-- A follower with two entries of term 1. -/
def follower : Raft 3 Unit :=
  { init 1 ⟨none, none⟩ with
    currentTerm := 1
    logs := [⟨noop 1, 1, 1⟩, ⟨noop 7, 1, 2⟩] }

/-- The leader of term 2 sends its entries behind the given one. -/
def requestBehind (prevLogIndex prevLogTerm : ℕ) (entries : List LogEntry) :
    AppendEntriesArgs 3 where
  term := 2
  leaderId := 2
  prevLogIndex := prevLogIndex
  prevLogTerm := prevLogTerm
  entries := entries
  leaderCommit := 0

theorem merge_law_follower :
    ∃ r' reply, follower.appendEntries1
        (requestBehind 1 1 [⟨noop 2, 2, 2⟩, ⟨noop 8, 2, 3⟩]) =
          .ok (r', reply) ∧
      r'.logs = follower.mergedLog [⟨noop 2, 2, 2⟩, ⟨noop 8, 2, 3⟩] ∧
      ∃ r'' reply', r'.appendEntries1
          (requestBehind 1 1 [⟨noop 2, 2, 2⟩, ⟨noop 8, 2, 3⟩]) =
            .ok (r'', reply') ∧
        r''.logs = r'.logs :=
  (merge_law_iff (by decide)
    ((Consecutive.singleton rfl).append (.singleton rfl)) (by decide)
    ((Consecutive.singleton rfl).append (.singleton rfl)) (by decide)).mpr
    (by decide)

/-- The conflict is at index 1, and the entry of term 1 at index 2 stays. -/
theorem stale_entry_stays :
    follower.ReachesMerge (requestBehind 0 0 [⟨noop 2, 2, 1⟩]) ∧
      ¬∃ r' reply, follower.appendEntries1
          (requestBehind 0 0 [⟨noop 2, 2, 1⟩]) = .ok (r', reply) ∧
        r'.logs = follower.mergedLog [⟨noop 2, 2, 1⟩] := by
  refine ⟨by decide, ?_⟩
  rintro ⟨r', reply, hok, hlogs⟩
  have hstays : (follower.appendEntries1
      (requestBehind 0 0 [⟨noop 2, 2, 1⟩])).toOption.map
        (fun result => result.1.logs) ≠
      some (follower.mergedLog [⟨noop 2, 2, 1⟩]) := by
    decide +kernel
  rw [hok] at hstays
  exact hstays (congrArg some hlogs)

end Raft

end KVRaftStorage
