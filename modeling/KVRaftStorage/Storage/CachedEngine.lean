import KVRaftStorage.Storage.KVEngine
import KVRaftStorage.Storage.LsmCodec
import KVRaftStorage.Support.Transition

/-!
# The read cache under concurrent reads

`CachedKVEngine` over any base engine that behaves as a finite map.  A `Get`
takes the shared lock and then three steps: it looks into the cache, reads the
base, and fills the cache.  The steps of several `Get`s interleave; `Put`,
`Delete` and `Restore` hold the lock alone, so each of them is one step that
finds no `Get` under way.

The calls, in the order in which they end, return what the base engine alone
returns for them.
-/

namespace KVRaftStorage

/-- An engine that behaves as a finite map.  What it returns depends on the
map only; a `Restore` that throws leaves the map as it is. -/
structure MapEngine where
  State : Type
  Image : Type
  map : State → Std.ExtTreeMap String String
  get : State → String → Option String × State
  put : State → String → String → State
  delete : State → String → State
  snapshot : State → Except Fault Image × State
  /-- whether it returns -/
  restore : State → Image → Bool × State
  imageOf : Std.ExtTreeMap String String → Except Fault Image
  load : Image → Option (Std.ExtTreeMap String String)
  get_fst : ∀ s key, (get s key).1 = (map s)[key]?
  get_snd : ∀ s key, map (get s key).2 = map s
  map_put : ∀ s key value, map (put s key value) = (map s).insert key value
  map_delete : ∀ s key, map (delete s key) = (map s).erase key
  snapshot_fst : ∀ s, (snapshot s).1 = imageOf (map s)
  snapshot_snd : ∀ s, map (snapshot s).2 = map s
  restore_fst : ∀ s image, (restore s image).1 = (load image).isSome
  restore_snd : ∀ s image,
    map (restore s image).2 = (load image).getD (map s)

/-- A call of the interface. -/
inductive EngineCall (Image : Type) where
  | get (key : String)
  | put (key value : String)
  | delete (key : String)
  | restore (image : Image)
  | snapshot

/-- How a call ends. -/
inductive EngineReply (Image : Type) where
  | value (found : Option String)
  | done
  | thrown
  | image (result : Except Fault Image)
  | fault (f : Fault)

namespace MapEngine

variable (base : MapEngine)

/-- A call of the engine alone. -/
def call (s : base.State) :
    EngineCall base.Image → EngineReply base.Image × base.State
  | .get key => (.value (base.get s key).1, (base.get s key).2)
  | .put key value => (.done, base.put s key value)
  | .delete key => (.done, base.delete s key)
  | .restore image =>
      (if (base.restore s image).1 then .done else .thrown,
        (base.restore s image).2)
  | .snapshot => (.image (base.snapshot s).1, (base.snapshot s).2)

/-- The replies of the engine alone to a sequence of calls. -/
def replies :
    base.State → List (EngineCall base.Image) → List (EngineReply base.Image)
  | _, [] => []
  | s, c :: cs => (base.call s c).1 :: replies (base.call s c).2 cs

def after (s : base.State) (calls : List (EngineCall base.Image)) :
    base.State :=
  calls.foldl (fun s c => (base.call s c).2) s

/-- A call, as it shows on the map. -/
def onMap (m : Std.ExtTreeMap String String) :
    EngineCall base.Image →
      EngineReply base.Image × Std.ExtTreeMap String String
  | .get key => (.value m[key]?, m)
  | .put key value => (.done, m.insert key value)
  | .delete key => (.done, m.erase key)
  | .restore image =>
      (if (base.load image).isSome then .done else .thrown,
        (base.load image).getD m)
  | .snapshot => (.image (base.imageOf m), m)

theorem call_onMap (s : base.State) (c : EngineCall base.Image) :
    (base.call s c).1 = (base.onMap (base.map s) c).1 ∧
      base.map (base.call s c).2 = (base.onMap (base.map s) c).2 := by
  cases c with
  | get key =>
      exact ⟨congrArg EngineReply.value (base.get_fst s key),
        base.get_snd s key⟩
  | put key value => exact ⟨rfl, base.map_put s key value⟩
  | delete key => exact ⟨rfl, base.map_delete s key⟩
  | restore image =>
      refine ⟨?_, base.restore_snd s image⟩
      rw [call, onMap, base.restore_fst]
  | snapshot =>
      exact ⟨congrArg EngineReply.image (base.snapshot_fst s),
        base.snapshot_snd s⟩

theorem replies_concat (s : base.State) (calls : List (EngineCall base.Image))
    (c : EngineCall base.Image) :
    base.replies s (calls ++ [c]) =
      base.replies s calls ++ [(base.call (base.after s calls) c).1] := by
  induction calls generalizing s with
  | nil => rfl
  | cons first calls ih =>
      rw [List.cons_append, replies, ih, replies, List.cons_append]
      rfl

/-- A finite map itself. -/
def finiteMap : MapEngine where
  State := Std.ExtTreeMap String String
  Image := Std.ExtTreeMap String String
  map := id
  get s key := (s[key]?, s)
  put s key value := s.insert key value
  delete s key := s.erase key
  snapshot s := (.ok s, s)
  restore _ image := (true, image)
  imageOf := .ok
  load := some
  get_fst _ _ := rfl
  get_snd _ _ := rfl
  map_put _ _ _ := rfl
  map_delete _ _ := rfl
  snapshot_fst _ := rfl
  snapshot_snd _ := rfl
  restore_fst _ _ := rfl
  restore_snd _ _ := rfl

instance : EmptyCollection finiteMap.State :=
  inferInstanceAs (EmptyCollection (Std.ExtTreeMap String String))

/-- The LSM engine without file paths, with the map that it stands for. -/
def lsmTreeEngine (hash : String → UInt64) : MapEngine where
  State := { s : LSMTreeEngine × Std.ExtTreeMap String String //
    LSMTreeEngine.Refines hash s.1 s.2 }
  Image := String
  map s := s.val.2
  get s key := (s.val.1.get hash key, s)
  put s key value := ⟨(s.val.1.put hash key value, s.val.2.insert key value),
    s.property.put key value⟩
  delete s key := ⟨(s.val.1.delete hash key, s.val.2.erase key),
    s.property.delete key⟩
  snapshot s := (s.val.1.snapshot, s)
  restore s image :=
    match hrestore : s.val.1.restore hash image with
    | .error _ => (false, s)
    | .ok e => (true, ⟨(e, (LSMTreeEngine.restoredMap image).getD ∅), by
        obtain ⟨m, hload, hrefines⟩ := LSMTreeEngine.restore_ok hrestore
        rwa [hload]⟩)
  imageOf m := LSMTreeEngine.writeSnapshot m.toList
  load := LSMTreeEngine.restoredMap
  get_fst s key := s.property.answers.get key
  get_snd _ _ := rfl
  map_put _ _ _ := rfl
  map_delete _ _ := rfl
  snapshot_fst s := by
    rw [s.property.answers.snapshot]
  snapshot_snd _ := rfl
  restore_fst s image := by
    split
    · next hrestore => rw [LSMTreeEngine.restore_error hrestore]; rfl
    · next hrestore =>
        obtain ⟨m, hload, -⟩ := LSMTreeEngine.restore_ok hrestore
        show true = (LSMTreeEngine.restoredMap image).isSome
        rw [hload]
        rfl
  restore_snd s image := by
    split
    · next hrestore => rw [LSMTreeEngine.restore_error hrestore]; rfl
    · next hrestore =>
        obtain ⟨m, hload, -⟩ := LSMTreeEngine.restore_ok hrestore
        show (LSMTreeEngine.restoredMap image).getD ∅ =
          (LSMTreeEngine.restoredMap image).getD s.val.2
        rw [hload]
        rfl

end MapEngine

/-- A `Get` that holds the shared lock. -/
inductive Reader where
  | started (key : String)
  | missed (key : String)
  | found (key value : String)
deriving DecidableEq

/-- A `CachedKVEngine` with the `Get`s under way, by their threads. -/
structure CachedKVEngine (base : MapEngine) where
  state : base.State
  cache : LRUCache
  readers : Std.ExtTreeMap ℕ Reader

namespace CachedKVEngine

inductive Action (base : MapEngine) where
  /-- a thread takes the shared lock for a `Get` -/
  | beginGet (thread : ℕ) (key : String)
  /-- the next step of the thread's `Get` -/
  | stepGet (thread : ℕ)
  | put (key value : String)
  | delete (key : String)
  | restore (image : base.Image)
  | snapshot

/-- A call that has ended, with its reply. -/
abbrev Event (base : MapEngine) :=
  EngineCall base.Image × EngineReply base.Image

variable {base : MapEngine}

def new (s : base.State) (capacity : ℕ) : CachedKVEngine base where
  state := s
  cache := .new capacity
  readers := ∅

def leave (x : CachedKVEngine base) (thread : ℕ) : CachedKVEngine base :=
  { x with readers := x.readers.erase thread }

def become (x : CachedKVEngine base) (thread : ℕ) (reader : Reader) :
    CachedKVEngine base :=
  { x with readers := x.readers.insert thread reader }

/-- `Get` of one thread, step by step. -/
def advance (x : CachedKVEngine base) (thread : ℕ) :
    Reader → CachedKVEngine base × List (Event base)
  | .started key =>
      match x.cache.get key with
      | .error f => (x.leave thread, [(.get key, .fault f)])
      | .ok (some value, cache) =>
          ({ x with cache := cache }.leave thread,
            [(.get key, .value (some value))])
      | .ok (none, cache) =>
          ({ x with cache := cache }.become thread (.missed key), [])
  | .missed key =>
      match base.get x.state key with
      | (none, s) => ({ x with state := s }.leave thread,
          [(.get key, .value none)])
      | (some value, s) =>
          ({ x with state := s }.become thread (.found key value), [])
  | .found key value =>
      match x.cache.put key value with
      | .error f => (x.leave thread, [(.get key, .fault f)])
      | .ok cache => ({ x with cache := cache }.leave thread,
          [(.get key, .value (some value))])

def put (x : CachedKVEngine base) (key value : String) :
    CachedKVEngine base × List (Event base) :=
  let x := { x with state := base.put x.state key value }
  match x.cache.put key value with
  | .error f => (x, [(.put key value, .fault f)])
  | .ok cache => ({ x with cache := cache }, [(.put key value, .done)])

def delete (x : CachedKVEngine base) (key : String) :
    CachedKVEngine base × List (Event base) :=
  ({ x with
    state := base.delete x.state key
    cache := x.cache.delete key }, [(.delete key, .done)])

/-- The cache is cleared only if the base returns. -/
def restore (x : CachedKVEngine base) (image : base.Image) :
    CachedKVEngine base × List (Event base) :=
  match base.restore x.state image with
  | (false, s) => ({ x with state := s }, [(.restore image, .thrown)])
  | (true, s) =>
      ({ x with state := s, cache := x.cache.clear }, [(.restore image, .done)])

def snapshot (x : CachedKVEngine base) :
    CachedKVEngine base × List (Event base) :=
  ({ x with state := (base.snapshot x.state).2 },
    [(.snapshot, .image (base.snapshot x.state).1)])

def step (x : CachedKVEngine base) :
    Action base → Option (CachedKVEngine base × List (Event base))
  | .beginGet thread key =>
      if thread ∈ x.readers then none
      else some (x.become thread (.started key), [])
  | .stepGet thread => x.readers[thread]?.map (x.advance thread)
  | .put key value =>
      if x.readers.isEmpty then some (x.put key value) else none
  | .delete key => if x.readers.isEmpty then some (x.delete key) else none
  | .restore image => if x.readers.isEmpty then some (x.restore image) else none
  | .snapshot => some x.snapshot

/-! ## Coherence -/

/-- Every cached pair is one of the base, and so is what a `Get` under way has
read. -/
structure Coherent (x : CachedKVEngine base) : Prop where
  cache : x.cache.Sound (base.map x.state)
  found : ∀ (thread : ℕ) key value,
    x.readers[thread]? = some (.found key value) →
      (base.map x.state)[key]? = some value

/-- What a step shows: nothing, or a call with the reply of the base. -/
def Shows (x x' : CachedKVEngine base) (events : List (Event base)) : Prop :=
  (events = [] ∧ base.map x'.state = base.map x.state) ∨
  ∃ c, events = [(c, (base.onMap (base.map x.state) c).1)] ∧
    base.map x'.state = (base.onMap (base.map x.state) c).2

variable {x x' : CachedKVEngine base} {events : List (Event base)}
  {thread : ℕ} {key value : String}

theorem Coherent.leave (h : x.Coherent) (thread : ℕ) :
    (x.leave thread).Coherent := by
  refine ⟨h.cache, ?_⟩
  intro other key value hother
  apply h.found other key value
  rw [CachedKVEngine.leave, Std.ExtTreeMap.getElem?_erase] at hother
  split at hother
  · cases hother
  · exact hother

theorem Coherent.become (h : x.Coherent) (thread : ℕ) {reader : Reader}
    (hreader : ∀ key value, reader = .found key value →
      (base.map x.state)[key]? = some value) :
    (x.become thread reader).Coherent := by
  refine ⟨h.cache, ?_⟩
  intro other key value hother
  rw [CachedKVEngine.become, Std.ExtTreeMap.getElem?_insert] at hother
  split at hother
  · exact hreader key value (Option.some.inj hother)
  · exact h.found other key value hother

/-- Another cache and another state of the base, for the same map. -/
theorem Coherent.replace (h : x.Coherent) {cache : LRUCache} {s : base.State}
    (hs : base.map s = base.map x.state)
    (hcache : cache.Sound (base.map x.state)) :
    Coherent { x with state := s, cache := cache } := by
  refine ⟨by rw [hs]; exact hcache, ?_⟩
  intro other key value hother
  rw [hs]
  exact h.found other key value hother

/-- Nothing is under way, and the cache fits the new map. -/
theorem Coherent.of_isEmpty (hreaders : x.readers.isEmpty)
    {cache : LRUCache} {s : base.State} (hcache : cache.Sound (base.map s)) :
    Coherent { x with state := s, cache := cache } := by
  refine ⟨hcache, ?_⟩
  intro other key value hother
  rw [Std.ExtTreeMap.isEmpty_iff.mp hreaders] at hother
  simp at hother

/-- One step of a `Get`. -/
theorem Coherent.advance (h : x.Coherent) {reader : Reader}
    (hreader : x.readers[thread]? = some reader) :
    (x.advance thread reader).1.Coherent ∧
      Shows x (x.advance thread reader).1 (x.advance thread reader).2 := by
  cases reader with
  | started key =>
      obtain ⟨hit, cache, hget, hcache, hvalue⟩ := h.cache.get key
      have hnew := h.replace (s := x.state) rfl hcache
      cases hit with
      | none =>
          simp only [CachedKVEngine.advance, hget]
          exact ⟨hnew.become thread (by intro _ _ heq; cases heq),
            .inl ⟨rfl, rfl⟩⟩
      | some value =>
          simp only [CachedKVEngine.advance, hget]
          refine ⟨hnew.leave thread, .inr ⟨.get key, ?_, rfl⟩⟩
          rw [MapEngine.onMap, hvalue value rfl]
  | missed key =>
      have hfst := base.get_fst x.state key
      have hsnd := base.get_snd x.state key
      have hnew := h.replace hsnd h.cache
      rw [CachedKVEngine.advance]
      split
      · next s hget =>
          rw [hget] at hfst hsnd hnew
          refine ⟨hnew.leave thread, .inr ⟨.get key, ?_, hsnd⟩⟩
          rw [MapEngine.onMap, ← hfst]
      · next value s hget =>
          rw [hget] at hfst hsnd hnew
          refine ⟨hnew.become thread ?_, .inl ⟨rfl, hsnd⟩⟩
          rintro _ _ heq
          cases heq
          rw [show base.map s = base.map x.state from hsnd, ← hfst]
  | found key value =>
      have hfound := h.found thread key value hreader
      obtain ⟨cache, hput, hcache⟩ := h.cache.put key value
      rw [KVEngine.insert_eq_self hfound] at hcache
      have hnew := h.replace (s := x.state) rfl hcache
      simp only [CachedKVEngine.advance, hput]
      refine ⟨hnew.leave thread, .inr ⟨.get key, ?_, rfl⟩⟩
      rw [MapEngine.onMap, hfound]

theorem Coherent.put (h : x.Coherent) (hreaders : x.readers.isEmpty)
    (key value : String) :
    (x.put key value).1.Coherent ∧
      Shows x (x.put key value).1 (x.put key value).2 := by
  obtain ⟨cache, hput, hcache⟩ := h.cache.put key value
  rw [← base.map_put] at hcache
  simp only [CachedKVEngine.put, hput]
  exact ⟨.of_isEmpty hreaders hcache,
    .inr ⟨.put key value, rfl, base.map_put ..⟩⟩

theorem Coherent.delete (h : x.Coherent) (hreaders : x.readers.isEmpty)
    (key : String) :
    (x.delete key).1.Coherent ∧
      Shows x (x.delete key).1 (x.delete key).2 := by
  have hcache := h.cache.delete key
  rw [← base.map_delete] at hcache
  exact ⟨.of_isEmpty hreaders hcache,
    .inr ⟨.delete key, rfl, base.map_delete ..⟩⟩

theorem Coherent.restore (h : x.Coherent) (hreaders : x.readers.isEmpty)
    (image : base.Image) :
    (x.restore image).1.Coherent ∧
      Shows x (x.restore image).1 (x.restore image).2 := by
  have hfst := base.restore_fst x.state image
  have hsnd := base.restore_snd x.state image
  rw [CachedKVEngine.restore]
  split
  · next s hrestore =>
      rw [hrestore] at hfst hsnd
      have hload : base.load image = none := by simpa using hfst.symm
      rw [hload] at hsnd
      refine ⟨h.replace hsnd h.cache, .inr ⟨.restore image, ?_, ?_⟩⟩
      · rw [MapEngine.onMap, hload]
        rfl
      · rw [MapEngine.onMap, hload]
        exact hsnd
  · next s hrestore =>
      rw [hrestore] at hfst hsnd
      refine ⟨.of_isEmpty hreaders (.empty rfl rfl _),
        .inr ⟨.restore image, ?_, hsnd⟩⟩
      rw [MapEngine.onMap, ← hfst]
      rfl

theorem Coherent.snapshot (h : x.Coherent) :
    x.snapshot.1.Coherent ∧ Shows x x.snapshot.1 x.snapshot.2 := by
  refine ⟨h.replace (base.snapshot_snd x.state) h.cache,
    .inr ⟨.snapshot, ?_, base.snapshot_snd x.state⟩⟩
  rw [MapEngine.onMap, ← base.snapshot_fst]
  rfl

theorem Coherent.step {a : Action base} (h : x.Coherent)
    (hstep : x.step a = some (x', events)) :
    x'.Coherent ∧ Shows x x' events := by
  cases a with
  | beginGet thread key =>
      rw [CachedKVEngine.step] at hstep
      split at hstep
      · cases hstep
      · cases hstep
        exact ⟨h.become thread (by intro _ _ heq; cases heq), .inl ⟨rfl, rfl⟩⟩
  | stepGet thread =>
      rw [CachedKVEngine.step, Option.map_eq_some_iff] at hstep
      obtain ⟨reader, hreader, heq⟩ := hstep
      have hadvance := h.advance hreader
      rwa [heq] at hadvance
  | put key value =>
      rw [CachedKVEngine.step, Option.ite_none_right_eq_some] at hstep
      have hput := h.put hstep.1 key value
      rwa [Option.some.inj hstep.2] at hput
  | delete key =>
      rw [CachedKVEngine.step, Option.ite_none_right_eq_some] at hstep
      have hdelete := h.delete hstep.1 key
      rwa [Option.some.inj hstep.2] at hdelete
  | restore image =>
      rw [CachedKVEngine.step, Option.ite_none_right_eq_some] at hstep
      have hrestore := h.restore hstep.1 image
      rwa [Option.some.inj hstep.2] at hrestore
  | snapshot =>
      have hsnapshot := h.snapshot
      rwa [Option.some.inj hstep] at hsnapshot

/-- The calls that have ended are those of the base alone, which has come to
the same map. -/
structure Replayed (s : base.State) (x : CachedKVEngine base)
    (events : List (Event base)) : Prop where
  coherent : x.Coherent
  replies : events.map Prod.snd = base.replies s (events.map Prod.fst)
  map : base.map x.state = base.map (base.after s (events.map Prod.fst))

theorem Replayed.step {s : base.State} {a : Action base}
    {before : List (Event base)} (h : Replayed s x before)
    (hstep : x.step a = some (x', events)) :
    Replayed s x' (before ++ events) := by
  obtain ⟨hcoherent, ⟨rfl, hmap⟩ | ⟨c, rfl, hmap⟩⟩ := h.coherent.step hstep
  · rw [List.append_nil]
    exact ⟨hcoherent, h.replies, hmap.trans h.map⟩
  · obtain ⟨hreply, hafter⟩ :=
      base.call_onMap (base.after s (before.map Prod.fst)) c
    rw [← h.map] at hreply hafter
    refine ⟨hcoherent, ?_, ?_⟩
    · rw [List.map_append, List.map_append, List.map_singleton,
        List.map_singleton, base.replies_concat, hreply, h.replies]
    · rw [hmap, ← hafter, MapEngine.after, MapEngine.after, List.map_append,
        List.foldl_append]
      rfl

/-- The cache is invisible: in every run, whatever the order in which the
steps of concurrent `Get`s are taken, the calls in the order in which they end
return what the base alone returns, and every cached pair is one of the
base. -/
theorem cache_invisible (s : base.State) (capacity : ℕ)
    (actions : List (Action base))
    (hrun : Transition.run CachedKVEngine.step (new s capacity) actions =
      some (x, events)) :
    events.map Prod.snd = base.replies s (events.map Prod.fst) ∧
      ∀ node ∈ x.cache.items,
        (base.get x.state node.key).1 = some node.value := by
  have hnew : Replayed s (new s capacity) [] :=
    ⟨⟨.empty rfl rfl _, by intro _ _ _ h; simp [new] at h⟩, rfl, rfl⟩
  have hreplayed := Transition.run_history (I := Replayed s)
    (fun _ _ _ _ _ _ hI hstep => hI.step hstep)
    (Transition.throughout_true ..) hnew hrun
  refine ⟨hreplayed.replies, ?_⟩
  intro node hnode
  rw [base.get_fst]
  exact hreplayed.coherent.cache.pair node hnode

/-- Two threads that miss the same key, and a third one that finds what the
first has filled in, in a cache with room for one key. -/
theorem cache_invisible_interleaved :
    let actions : List (Action .finiteMap) :=
      [.put "a" "1", .put "b" "2", .beginGet 0 "a", .beginGet 1 "a",
        .stepGet 0, .stepGet 1, .stepGet 1, .stepGet 0, .stepGet 0,
        .beginGet 2 "a", .stepGet 2, .stepGet 1, .delete "a"]
    ∃ (x : CachedKVEngine .finiteMap) (events : List (Event .finiteMap)),
      Transition.run CachedKVEngine.step (new ∅ 1) actions =
        some (x, events) ∧
      events.length = 6 ∧
      events.map Prod.snd =
        MapEngine.finiteMap.replies ∅ (events.map Prod.fst) ∧
      ∀ node ∈ x.cache.items,
        (MapEngine.finiteMap.get x.state node.key).1 = some node.value := by
  intro actions
  obtain ⟨x, events, hrun, hlength⟩ : ∃ x events,
      Transition.run CachedKVEngine.step
        (new ∅ 1) actions = some (x, events) ∧
      events.length = 6 := by decide +kernel
  exact ⟨x, events, hrun, hlength, cache_invisible _ 1 actions hrun⟩

end CachedKVEngine

end KVRaftStorage
