import KVRaftStorage.Support.Transition
import Mathlib.Data.List.Basic

/-!
# One `MprpcChannel`

The calls on one channel take turns under `m_clientFd_mutex` and share one
connection.  A response carries neither a length nor an id: the bytes of a
single `recv` are taken as the whole response.  Here every byte in the
connection remembers the call it answers, which the code cannot see.

What TCP does is a choice of the run: whether a connection is made, whether a
request is sent, and how many of the waiting bytes a `recv` returns.
-/

namespace KVRaftStorage

/-- The response messages of a service, with their protobuf encoding. -/
structure ResponseCodec (Method Msg : Type) where
  serialize : Method → Msg → List UInt8
  parse : Method → List UInt8 → Option Msg

/-- What was serialized is read back. -/
def ResponseCodec.RoundTrips {Method Msg : Type}
    (codec : ResponseCodec Method Msg) : Prop :=
  ∀ method msg, codec.parse method (codec.serialize method msg) = some msg

/-- Calls are numbered in the order of the channel. -/
structure MprpcChannel (Method : Type) where
  /-- `m_clientFd` is a socket -/
  connected : Bool
  /-- the bytes of the connection that were not received yet -/
  stream : List (ℕ × UInt8)
  /-- the requests of the connection that the server has not answered -/
  unanswered : List ℕ
  calls : List Method
  /-- the call that waits in `recv` -/
  waiting : Option ℕ

/-- How `CallMethod` gets to its `recv`, or fails before. -/
inductive Sending where
  | notConnected
  | notSerialized
  | notSent
  | sent
deriving DecidableEq

inductive ChannelAction (Method Msg : Type) where
  | callMethod (method : Method) (sending : Sending)
  /-- the server runs `SendRpcResponse` for a request -/
  | sendRpcResponse (call : ℕ) (response : Msg)
  /-- `recv` returns this many bytes -/
  | recv (size : ℕ)
  | recvError

inductive ChannelEvent (Msg : Type) where
  | produced (call : ℕ) (response : Msg)
  /-- the bytes that were parsed as the response of the call -/
  | received (call : ℕ) (bytes : List (ℕ × UInt8))
  | returned (call : ℕ) (response : Msg)
  /-- the controller of the call was set to failed -/
  | failed (call : ℕ)
deriving DecidableEq

namespace MprpcChannel

variable {Method Msg : Type}

/-- `MprpcChannel(ip, port, false)`. -/
def start : MprpcChannel Method where
  connected := false
  stream := []
  unanswered := []
  calls := []
  waiting := none

/-- `close(m_clientFd)`. -/
def close (c : MprpcChannel Method) : MprpcChannel Method :=
  { c with connected := false, stream := [], unanswered := [], waiting := none }

/-- `CallMethod` up to the `recv`. -/
def callMethod (c : MprpcChannel Method) (method : Method)
    (sending : Sending) :
    Option (MprpcChannel Method × List (ChannelEvent Msg)) :=
  match c.waiting with
  | some _ => none
  | none =>
      let call := c.calls.length
      let c := { c with calls := c.calls ++ [method] }
      match sending with
      | .notConnected => if c.connected then none else some (c, [.failed call])
      | .notSerialized => some ({ c with connected := true }, [.failed call])
      | .notSent => some (c.close, [.failed call])
      | .sent =>
          some ({ c with
            connected := true
            unanswered := c.unanswered ++ [call]
            waiting := some call }, [])

/-- `SendRpcResponse` appends the serialized response to the connection. -/
def sendRpcResponse (codec : ResponseCodec Method Msg)
    (c : MprpcChannel Method) (call : ℕ) (response : Msg) :
    Option (MprpcChannel Method × List (ChannelEvent Msg)) := do
  let method ← c.calls[call]?
  if call ∈ c.unanswered then
    some ({ c with
      unanswered := c.unanswered.erase call
      stream := c.stream ++
        (codec.serialize method response).map fun byte => (call, byte) },
      [.produced call response])
  else none

/-- The size of `recv_buf`. -/
def recvBufSize : ℕ := 4096

/-- The rest of `CallMethod` behind a `recv` of `size` bytes.  A response that
cannot be parsed leaves the socket open. -/
def recv (codec : ResponseCodec Method Msg) (c : MprpcChannel Method)
    (size : ℕ) : Option (MprpcChannel Method × List (ChannelEvent Msg)) := do
  let call ← c.waiting
  let method ← c.calls[call]?
  if 0 < size ∧ size ≤ recvBufSize ∧ size ≤ c.stream.length then
    let bytes := c.stream.take size
    some ({ c with stream := c.stream.drop size, waiting := none },
      [.received call bytes,
        match codec.parse method (bytes.map Prod.snd) with
        | none => .failed call
        | some response => .returned call response])
  else none

/-- `recv` times out, or the peer has closed the connection. -/
def recvError (c : MprpcChannel Method) :
    Option (MprpcChannel Method × List (ChannelEvent Msg)) := do
  let call ← c.waiting
  some (c.close, [.failed call])

/-- One step of the channel; `none` when the action is not enabled. -/
def step (codec : ResponseCodec Method Msg) (c : MprpcChannel Method) :
    ChannelAction Method Msg →
      Option (MprpcChannel Method × List (ChannelEvent Msg))
  | .callMethod method sending => c.callMethod method sending
  | .sendRpcResponse call response => c.sendRpcResponse codec call response
  | .recv size => c.recv codec size
  | .recvError => c.recvError

/-- A `recv` returns everything the connection holds. -/
def RecvsWhole (c : MprpcChannel Method) :
    ChannelAction Method Msg → Prop
  | .recv size => size = c.stream.length
  | _ => True

instance (c : MprpcChannel Method) :
    ∀ a : ChannelAction Method Msg, Decidable (c.RecvsWhole a)
  | .recv size => inferInstanceAs (Decidable (size = c.stream.length))
  | .callMethod .. => .isTrue trivial
  | .sendRpcResponse .. => .isTrue trivial
  | .recvError => .isTrue trivial

end MprpcChannel

/-- Each call parses only bytes of its own response, and returns what the
server produced for it. -/
structure MatchesResponses {Msg : Type} (es : List (ChannelEvent Msg)) :
    Prop where
  own : ∀ call bytes, .received call bytes ∈ es → ∀ byte ∈ bytes, byte.1 = call
  returned : ∀ call response, .returned call response ∈ es →
    .produced call response ∈ es

namespace MprpcChannel

variable {Method Msg : Type} {codec : ResponseCodec Method Msg}
  {c c' : MprpcChannel Method} {a : ChannelAction Method Msg}
  {es es' : List (ChannelEvent Msg)}

/-- Between calls nothing is left in the connection.  During a call there is
its unanswered request or its whole response. -/
inductive Paired (codec : ResponseCodec Method Msg) (c : MprpcChannel Method)
    (es : List (ChannelEvent Msg)) : Prop where
  | idle (hwaiting : c.waiting = none) (hstream : c.stream = [])
      (hunanswered : c.unanswered = [])
  | asked {call : ℕ} (hwaiting : c.waiting = some call)
      (hstream : c.stream = []) (hunanswered : c.unanswered = [call])
  | answered {call : ℕ} {method : Method} {response : Msg}
      (hwaiting : c.waiting = some call) (hunanswered : c.unanswered = [])
      (hmethod : c.calls[call]? = some method)
      (hproduced : .produced call response ∈ es)
      (hstream : c.stream =
        (codec.serialize method response).map fun byte => (call, byte))

theorem Paired.callMethod {method : Method} {sending : Sending}
    (h : Paired codec c es)
    (hstep : c.callMethod method sending = some (c', es')) :
    Paired codec c' (es ++ es') ∧ ∀ e ∈ es', ∃ call, e = .failed call := by
  unfold MprpcChannel.callMethod at hstep
  split at hstep
  · cases hstep
  · next hnone =>
      obtain ⟨hstream, hunanswered⟩ : c.stream = [] ∧ c.unanswered = [] := by
        cases h with
        | idle _ hstream hunanswered => exact ⟨hstream, hunanswered⟩
        | asked hwaiting => simp [hnone] at hwaiting
        | answered hwaiting => simp [hnone] at hwaiting
      cases sending with
      | notConnected =>
          simp only [Option.ite_none_left_eq_some] at hstep
          obtain ⟨-, hstep⟩ := hstep
          obtain ⟨rfl, rfl⟩ : _ = c' ∧ _ = es' := by simpa using hstep
          exact ⟨.idle hnone hstream hunanswered, by simp⟩
      | notSerialized =>
          obtain ⟨rfl, rfl⟩ : _ = c' ∧ _ = es' := by simpa using hstep
          exact ⟨.idle hnone hstream hunanswered, by simp⟩
      | notSent =>
          obtain ⟨rfl, rfl⟩ : _ = c' ∧ _ = es' := by simpa using hstep
          exact ⟨.idle rfl rfl rfl, by simp⟩
      | sent =>
          obtain ⟨rfl, rfl⟩ : _ = c' ∧ [] = es' := by simpa using hstep
          exact ⟨.asked rfl hstream (by simp [hunanswered]), by simp⟩

theorem Paired.sendRpcResponse {call : ℕ} {response : Msg}
    (h : Paired codec c es)
    (hstep : c.sendRpcResponse codec call response = some (c', es')) :
    Paired codec c' (es ++ es') ∧ es' = [.produced call response] := by
  simp only [MprpcChannel.sendRpcResponse, Option.bind_eq_bind,
    Option.bind_eq_some_iff, Option.ite_none_right_eq_some] at hstep
  obtain ⟨method, hmethod, hmem, hstep⟩ := hstep
  obtain ⟨rfl, rfl⟩ : _ = c' ∧ _ = es' := by simpa using hstep
  refine ⟨?_, rfl⟩
  cases h with
  | idle _ _ hunanswered => simp [hunanswered] at hmem
  | @asked call' hwaiting hstream hunanswered =>
      obtain rfl : call = call' := by simpa [hunanswered] using hmem
      exact .answered hwaiting (by simp [hunanswered]) hmethod
        (List.mem_append_right es (List.mem_singleton_self _))
        (by simp [hstream])
  | answered _ hunanswered => simp [hunanswered] at hmem

theorem Paired.recv {size : ℕ} (h : Paired codec c es)
    (hround : codec.RoundTrips) (hwhole : size = c.stream.length)
    (hstep : c.recv codec size = some (c', es')) :
    Paired codec c' (es ++ es') ∧ ∃ call response,
      .produced call response ∈ es ∧
      es' = [.received call c.stream, .returned call response] ∧
      ∀ byte ∈ c.stream, byte.1 = call := by
  simp only [MprpcChannel.recv, Option.bind_eq_bind, Option.bind_eq_some_iff,
    Option.ite_none_right_eq_some] at hstep
  obtain ⟨call, hwaiting, method, hmethod, ⟨hpos, -, -⟩, hstep⟩ := hstep
  subst hwhole
  obtain ⟨rfl, rfl⟩ : _ = c' ∧ _ = es' := by simpa using hstep
  cases h with
  | idle hnone => simp [hnone] at hwaiting
  | asked _ hstream => simp [hstream] at hpos
  | @answered call' method' response hwaiting' hunanswered hmethod' hproduced
      hstream =>
      obtain rfl : call' = call := by simpa [hwaiting'] using hwaiting
      obtain rfl : method' = method := by simpa [hmethod'] using hmethod
      refine ⟨.idle rfl (by simp) hunanswered, call', response, hproduced,
        ?_, ?_⟩
      · have hbytes : c.stream.map Prod.snd =
            codec.serialize method' response := by
          rw [hstream, List.map_map]
          exact List.map_id _
        simp [hbytes, hround method' response]
      · rw [hstream]
        simp

theorem Paired.step (h : Paired codec c es) (hmatches : MatchesResponses es)
    (hround : codec.RoundTrips) (hwhole : c.RecvsWhole a)
    (hstep : c.step codec a = some (c', es')) :
    Paired codec c' (es ++ es') ∧ MatchesResponses (es ++ es') := by
  cases a with
  | callMethod method sending =>
      obtain ⟨hpaired, hfailed⟩ := h.callMethod hstep
      refine ⟨hpaired, fun call bytes hmem => ?_, fun call response hmem => ?_⟩
      · rcases List.mem_append.mp hmem with hmem | hmem
        · exact hmatches.own call bytes hmem
        · obtain ⟨_, heq⟩ := hfailed _ hmem
          cases heq
      · rcases List.mem_append.mp hmem with hmem | hmem
        · exact List.mem_append_left _ (hmatches.returned call response hmem)
        · obtain ⟨_, heq⟩ := hfailed _ hmem
          cases heq
  | sendRpcResponse call response =>
      obtain ⟨hpaired, rfl⟩ := h.sendRpcResponse hstep
      refine ⟨hpaired, fun call bytes hmem => ?_, fun call response hmem => ?_⟩
      · exact hmatches.own call bytes (by simpa using hmem)
      · exact List.mem_append_left _
          (hmatches.returned call response (by simpa using hmem))
  | recv size =>
      obtain ⟨hpaired, call₀, response₀, hproduced, rfl, hown⟩ :=
        h.recv hround hwhole hstep
      refine ⟨hpaired, fun call bytes hmem => ?_, fun call response hmem => ?_⟩
      · rcases List.mem_append.mp hmem with hmem | hmem
        · exact hmatches.own call bytes hmem
        · obtain ⟨rfl, rfl⟩ : call = call₀ ∧ bytes = c.stream := by
            simpa using hmem
          exact hown
      · rcases List.mem_append.mp hmem with hmem | hmem
        · exact List.mem_append_left _ (hmatches.returned call response hmem)
        · obtain ⟨rfl, rfl⟩ : call = call₀ ∧ response = response₀ := by
            simpa using hmem
          exact List.mem_append_left _ hproduced
  | recvError =>
      simp only [MprpcChannel.step, MprpcChannel.recvError,
        Option.bind_eq_bind, Option.bind_eq_some_iff] at hstep
      obtain ⟨call₀, -, hstep⟩ := hstep
      obtain ⟨rfl, rfl⟩ : _ = c' ∧ _ = es' := by simpa using hstep
      refine ⟨.idle rfl rfl rfl, fun call bytes hmem => ?_,
        fun call response hmem => ?_⟩
      · exact hmatches.own call bytes (by simpa using hmem)
      · exact List.mem_append_left _
          (hmatches.returned call response (by simpa using hmem))

/-- When every `recv` returns a whole response, each call gets its own. -/
theorem responses_matched {as : List (ChannelAction Method Msg)}
    (hround : codec.RoundTrips)
    (hwhole : Transition.Throughout (step codec) RecvsWhole start as)
    (hrun : Transition.run (step codec) start as = some (c, es)) :
    MatchesResponses es := by
  have hinvariant : Paired codec c es ∧ MatchesResponses es := by
    refine Transition.run_history
      (I := fun c es => Paired codec c es ∧ MatchesResponses es) ?_ hwhole
      ⟨.idle rfl rfl rfl, by simp, by simp⟩ hrun
    rintro c es a c' es' hp ⟨hpaired, hmatches⟩ hstep
    exact hpaired.step hmatches hround hp hstep
  exact hinvariant.2

/-! ## Small integer fields -/

/-- A response as a list of integer fields, number and value, each small
enough for one byte of the wire format. -/
abbrev SmallFields := List (Fin 16 × Fin 128)

/-- A varint field is its tag, eight times the number, and its value. -/
def serializeFields (fields : SmallFields) : List UInt8 :=
  fields.flatMap fun field =>
    [UInt8.ofNat (8 * field.1), UInt8.ofNat field.2]

def parseFields : List UInt8 → Option SmallFields
  | [] => some []
  | [_] => none
  | tag :: value :: rest => do
      if tag.toNat % 8 = 0 then
        let fields ← parseFields rest
        some ((Fin.ofNat 16 (tag.toNat / 8), Fin.ofNat 128 value.toNat) ::
          fields)
      else none

/-- The replies of `AppendEntries` and `RequestVote` with small values. -/
def smallCodec : ResponseCodec Unit SmallFields where
  serialize := fun _ => serializeFields
  parse := fun _ => parseFields

theorem roundTrips_smallCodec : smallCodec.RoundTrips := by
  intro _ fields
  change parseFields (serializeFields fields) = some fields
  induction fields with
  | nil => rfl
  | cons field fields ih =>
      obtain ⟨number, value⟩ := field
      have hnumber : (UInt8.ofNat (8 * number)).toNat = 8 * number := by
        rw [UInt8.toNat_ofNat']
        omega
      have hvalue : (UInt8.ofNat value).toNat = value := by
        rw [UInt8.toNat_ofNat']
        omega
      rw [serializeFields, List.flatMap_cons, ← serializeFields]
      simp only [List.cons_append, List.nil_append, parseFields, hnumber,
        hvalue, ih]
      simp

/-- `Term = 1` and `Success`. -/
def firstReply : SmallFields := [(1, 1), (2, 1)]

/-- The second half of it. -/
def strayReply : SmallFields := [(2, 1)]

instance : DecidableEq (ChannelEvent SmallFields) := inferInstance

/-- Two calls of `AppendEntries`; the reply of the first comes in pieces of the
given sizes. -/
def pairedCalls (sizes : List ℕ) : List (ChannelAction Unit SmallFields) :=
  [.callMethod () .sent, .sendRpcResponse 0 firstReply] ++
    sizes.flatMap (fun size => [.recv size, .callMethod () .sent])

theorem responses_matched_whole :
    ∃ (c : MprpcChannel Unit) (es : List (ChannelEvent SmallFields)),
      Transition.run (step smallCodec) start (pairedCalls [4]) = some (c, es) ∧
        .returned 0 firstReply ∈ es ∧ MatchesResponses es := by
  obtain ⟨c, es, hrun, hmem⟩ :
      ∃ (c : MprpcChannel Unit) (es : List (ChannelEvent SmallFields)),
        Transition.run (step smallCodec) start (pairedCalls [4]) =
          some (c, es) ∧ .returned 0 firstReply ∈ es := by
    decide +kernel
  exact ⟨c, es, hrun, hmem,
    responses_matched roundTrips_smallCodec (by decide +kernel) hrun⟩

/-- The first piece is returned as a reply without `Success`, and the second
one as the reply of the next call. -/
theorem response_split :
    ∃ (c : MprpcChannel Unit) (es : List (ChannelEvent SmallFields)),
      smallCodec.RoundTrips ∧
      Transition.run (step smallCodec) start (pairedCalls [2, 2]) =
        some (c, es) ∧ ¬MatchesResponses es := by
  obtain ⟨c, es, hrun, hreturned, hproduced⟩ :
      ∃ (c : MprpcChannel Unit) (es : List (ChannelEvent SmallFields)),
        Transition.run (step smallCodec) start (pairedCalls [2, 2]) =
          some (c, es) ∧ .returned 1 strayReply ∈ es ∧
            .produced 1 strayReply ∉ es := by
    decide +kernel
  exact ⟨c, es, roundTrips_smallCodec, hrun,
    fun h => hproduced (h.returned 1 _ hreturned)⟩

end MprpcChannel

end KVRaftStorage
