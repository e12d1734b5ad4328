import KVRaftStorage.Support.Varint

/-!
# The frames of an RPC connection

`MprpcChannel::CallMethod` writes a varint with the length of the header, the
header and the arguments.  `RpcProvider::OnMessage` takes all bytes that muduo
has read so far, parses one request from their start and drops the rest.  Its
bytes are whatever TCP delivered at once, so it sees the requests that were
sent only if each arrives whole and alone.
-/

namespace KVRaftStorage

abbrev Bytes := List UInt8

/-- The message `RPC::RpcHeader`. -/
structure RpcHeader where
  serviceName : Bytes
  methodName : Bytes
  argsSize : ℕ
deriving DecidableEq

/-- The protobuf encoding of the header. -/
structure HeaderCodec where
  serialize : RpcHeader → Bytes
  parse : Bytes → Option RpcHeader

/-- Messages are limited to two gigabytes. -/
def maxMessageSize : ℕ := 2 ^ 31

/-- What was serialized is read back, and serializing writes no more bytes than
any encoding of the same header has. -/
structure HeaderCodec.Lawful (codec : HeaderCodec) : Prop where
  parse_serialize : ∀ header, header.argsSize < 2 ^ 32 →
    (codec.serialize header).length < maxMessageSize →
    codec.parse (codec.serialize header) = some header
  shortest : ∀ bytes header, codec.parse bytes = some header →
    (codec.serialize header).length ≤ bytes.length

/-- A request as the caller means it and the provider dispatches it. -/
structure RpcRequest where
  serviceName : Bytes
  methodName : Bytes
  args : Bytes
deriving DecidableEq

/-- `m_serviceMap` with the methods of each service; a method knows the
argument bytes that its request message can parse. -/
structure RpcProvider where
  service? : Bytes → Option (Bytes → Option (Bytes → Bool))

/-! ## Sending -/

def writeVarint32 (n : ℕ) : Bytes := Varint.encode 4 n

/-- The header that goes with the arguments; `args_size` is a `uint32_t`. -/
def RpcRequest.header (request : RpcRequest) : RpcHeader where
  serviceName := request.serviceName
  methodName := request.methodName
  argsSize := request.args.length % 2 ^ 32

/-- The bytes `CallMethod` sends.  `SerializeToString` fails on messages that
are too large. -/
def callMethod (codec : HeaderCodec) (request : RpcRequest) : Option Bytes :=
  if maxMessageSize ≤ request.args.length then none
  else
    let rpcHeaderStr := codec.serialize request.header
    if maxMessageSize ≤ rpcHeaderStr.length then none
    else some (writeVarint32 rpcHeaderStr.length ++ rpcHeaderStr ++ request.args)

/-! ## Receiving -/

/-- `ReadVarint32`: ten bytes at most, cut to 32 bits. -/
def readVarint32 (bytes : Bytes) : Option (ℕ × Bytes) :=
  (Varint.decode 9 bytes).map fun p => (p.1 % 2 ^ 32, p.2)

/-- `ReadString` with a size that becomes an `int`: whether all was there, what
was read, and what is left. -/
def readString (size : ℕ) (bytes : Bytes) : Bool × Bytes × Bytes :=
  if maxMessageSize ≤ size then (false, [], bytes)
  else (size ≤ bytes.length, bytes.take size, bytes.drop size)

/-- The request that one `OnMessage` dispatches, if any.  The results of
reading the header are not checked. -/
def RpcProvider.onMessage (provider : RpcProvider) (codec : HeaderCodec)
    (recvBuf : Bytes) : Option RpcRequest := do
  let (headerSize, input) := (readVarint32 recvBuf).getD (0, [])
  let (_, rpcHeaderStr, input) := readString headerSize input
  let rpcHeader ← codec.parse rpcHeaderStr
  let (readArgsSuccess, argsStr, _) := readString rpcHeader.argsSize input
  if readArgsSuccess then
    let methodMap ← provider.service? rpcHeader.serviceName
    let parses ← methodMap rpcHeader.methodName
    if parses argsStr then
      some
        { serviceName := rpcHeader.serviceName
          methodName := rpcHeader.methodName
          args := argsStr }
    else none
  else none

/-- The requests that a sequence of `OnMessage` calls dispatches, each on the
bytes that have come since the last one. -/
def RpcProvider.dispatched (provider : RpcProvider) (codec : HeaderCodec)
    (chunks : List Bytes) : List RpcRequest :=
  chunks.filterMap (provider.onMessage codec)

/-- The provider has the method, and the arguments are a message of it. -/
def RpcProvider.Offers (provider : RpcProvider) (request : RpcRequest) :
    Prop :=
  ∃ methodMap parses, provider.service? request.serviceName = some methodMap ∧
    methodMap request.methodName = some parses ∧ parses request.args = true

variable {codec : HeaderCodec} {provider : RpcProvider} {request : RpcRequest}
  {frame chunk : Bytes}

/-! ## One frame -/

theorem readVarint32_write {n : ℕ} (hn : n < maxMessageSize) (rest : Bytes) :
    readVarint32 (writeVarint32 n ++ rest) = some (n, rest) := by
  rw [maxMessageSize] at hn
  rw [readVarint32, writeVarint32,
    Varint.decode_encode (by omega) (by omega) rest]
  simp only [Option.map_some, Option.some.injEq, Prod.mk.injEq, and_true]
  omega

theorem readVarint32_length {n size : ℕ} {bytes rest : Bytes}
    (h : readVarint32 bytes = some (size, rest)) (hn : n ≤ size) :
    (writeVarint32 n).length + rest.length ≤ bytes.length := by
  rw [readVarint32, Option.map_eq_some_iff] at h
  obtain ⟨⟨m, rest'⟩, hdecode, heq⟩ := h
  obtain ⟨rfl, rfl⟩ : m % 2 ^ 32 = size ∧ rest' = rest := by simpa using heq
  exact Varint.length_encode_add_le hdecode (hn.trans (Nat.mod_le m _))

theorem readString_append {bytes : Bytes} (hsize : bytes.length < maxMessageSize)
    (rest : Bytes) :
    readString bytes.length (bytes ++ rest) = (true, bytes, rest) := by
  simp [readString, Nat.not_le_of_lt hsize]

/-- The bytes that were read and those that are left were there. -/
theorem readString_length (size : ℕ) (bytes : Bytes) :
    (readString size bytes).2.1.length ≤ size ∧
      (readString size bytes).2.1.length + (readString size bytes).2.2.length ≤
        bytes.length ∧
      ((readString size bytes).1 = true →
        (readString size bytes).2.1.length = size ∧ size < maxMessageSize) := by
  unfold readString
  split
  · simp
  · next hsize =>
      refine ⟨by simp, by simp; omega, fun hle => ⟨?_, by omega⟩⟩
      have hle : size ≤ bytes.length := by simpa using hle
      simp [hle]

theorem callMethod_eq_some (h : callMethod codec request = some frame) :
    request.args.length < maxMessageSize ∧
      (codec.serialize request.header).length < maxMessageSize ∧
      frame = writeVarint32 (codec.serialize request.header).length ++
        codec.serialize request.header ++ request.args := by
  simp only [callMethod, Option.ite_none_left_eq_some, Option.some.injEq] at h
  obtain ⟨hargs, hheader, rfl⟩ := h
  exact ⟨by omega, by omega, rfl⟩

/-- A whole frame is dispatched as the request it was written for. -/
theorem onMessage_frame (hcodec : codec.Lawful)
    (hoffers : provider.Offers request)
    (hframe : callMethod codec request = some frame) :
    provider.onMessage codec frame = some request := by
  obtain ⟨hargs, hheader, rfl⟩ := callMethod_eq_some hframe
  obtain ⟨methodMap, parses, hservice, hmethod, hparses⟩ := hoffers
  have hsize : request.header.argsSize = request.args.length := by
    rw [maxMessageSize] at hargs
    exact Nat.mod_eq_of_lt (by omega)
  have hparse := hcodec.parse_serialize request.header
    (Nat.mod_lt _ (by decide)) hheader
  have hread := readString_append hargs []
  rw [List.append_nil] at hread
  unfold RpcProvider.onMessage
  rw [List.append_assoc, readVarint32_write hheader]
  simp only [Option.getD_some, readString_append hheader, hparse,
    Option.bind_eq_bind, Option.bind_some, hsize, hread]
  simp [RpcRequest.header, hservice, hmethod, hparses]

/-- Nothing shorter than its frame is dispatched as a request. -/
theorem frame_length_le (hcodec : codec.Lawful) (hchunk : chunk ≠ [])
    (h : provider.onMessage codec chunk = some request)
    (hframe : callMethod codec request = some frame) :
    frame.length ≤ chunk.length := by
  obtain ⟨hargs, hheader, rfl⟩ := callMethod_eq_some hframe
  unfold RpcProvider.onMessage at h
  rcases hread : (readVarint32 chunk).getD (0, []) with ⟨headerSize, input⟩
  rcases hstr : readString headerSize input with ⟨complete, rpcHeaderStr, input'⟩
  simp only [hread, hstr, Option.bind_eq_bind, Option.bind_eq_some_iff,
    Option.ite_none_right_eq_some] at h
  obtain ⟨rpcHeader, hparse, hok, methodMap, -, parses, -, -, heq⟩ := h
  obtain ⟨hstrLe, hstrLen, -⟩ := readString_length headerSize input
  simp only [hstr] at hstrLe hstrLen
  obtain ⟨-, hargsLen, hall⟩ := readString_length rpcHeader.argsSize input'
  obtain ⟨hargsEq, hargsLt⟩ := hall hok
  have hrequest : request.header = rpcHeader ∧
      request.args.length = rpcHeader.argsSize := by
    rw [← Option.some.inj heq]
    refine ⟨?_, hargsEq⟩
    rw [maxMessageSize] at hargsLt
    rw [RpcRequest.header, hargsEq, Nat.mod_eq_of_lt (by omega)]
  have hshort : (codec.serialize request.header).length ≤
      rpcHeaderStr.length := hrequest.1 ▸ hcodec.shortest _ _ hparse
  -- the length in front is read, or nothing is
  have hfront : (writeVarint32 (codec.serialize request.header).length).length
      + input.length ≤ chunk.length := by
    cases hvarint : readVarint32 chunk with
    | some p =>
        rw [hvarint, Option.getD_some] at hread
        rw [hread] at hvarint
        exact readVarint32_length hvarint (hshort.trans hstrLe)
    | none =>
        obtain ⟨rfl, rfl⟩ : 0 = headerSize ∧ [] = input := by
          simpa [hvarint] using hread
        have hzero : (codec.serialize request.header).length = 0 := by omega
        have hpos := List.length_pos_of_ne_nil hchunk
        rw [hzero]
        exact hpos
  simp only [List.length_append]
  omega

/-! ## The stream -/

/-- The requests dispatched from the chunks need at least the bytes of their
frames, and all bytes only if each chunk has the length of its frame. -/
theorem frames_length_le (hcodec : codec.Lawful) {chunks frames : List Bytes}
    {requests : List RpcRequest} (hne : ∀ chunk ∈ chunks, chunk ≠ [])
    (hdispatched : provider.dispatched codec chunks = requests)
    (hframes : requests.mapM (callMethod codec) = some frames) :
    (frames.map List.length).sum ≤ (chunks.map List.length).sum ∧
      ((frames.map List.length).sum = (chunks.map List.length).sum →
        frames.map List.length = chunks.map List.length) := by
  induction chunks generalizing requests frames with
  | nil =>
      obtain rfl : requests = [] := hdispatched.symm
      obtain rfl : frames = [] := by simpa using hframes.symm
      simp
  | cons chunk chunks ih =>
      have hchunk : chunk ≠ [] := hne chunk (by simp)
      have hrest : ∀ chunk ∈ chunks, chunk ≠ [] := fun c hc => hne c (by simp [hc])
      have hpos := List.length_pos_of_ne_nil hchunk
      rw [RpcProvider.dispatched, List.filterMap_cons] at hdispatched
      cases hmessage : provider.onMessage codec chunk with
      | none =>
          rw [hmessage] at hdispatched
          obtain ⟨hle, -⟩ := ih hrest hdispatched hframes
          simp only [List.map_cons, List.sum_cons]
          omega
      | some request =>
          rw [hmessage] at hdispatched
          obtain rfl := hdispatched
          simp only [List.mapM_cons, Option.bind_eq_bind,
            Option.bind_eq_some_iff] at hframes
          obtain ⟨frame, hframe, frames, hframes, heq⟩ := hframes
          obtain rfl := Option.some.inj heq
          have hlen := frame_length_le hcodec hchunk hmessage hframe
          obtain ⟨hle, hall⟩ := ih hrest rfl hframes
          simp only [List.map_cons, List.sum_cons]
          refine ⟨by omega, fun hsum => ?_⟩
          rw [hall (by omega), show frame.length = chunk.length by omega]

/-- The provider dispatches exactly the requests that were sent when and only
when every `OnMessage` finds one whole frame and nothing else. -/
theorem dispatched_iff (hcodec : codec.Lawful) {chunks frames : List Bytes}
    {requests : List RpcRequest}
    (hframes : requests.mapM (callMethod codec) = some frames)
    (hoffers : ∀ request ∈ requests, provider.Offers request)
    (hne : ∀ chunk ∈ chunks, chunk ≠ [])
    (hstream : chunks.flatten = frames.flatten) :
    provider.dispatched codec chunks = requests ↔ chunks = frames := by
  constructor
  · intro hdispatched
    obtain ⟨-, hall⟩ := frames_length_le hcodec hne hdispatched hframes
    have hsum : (frames.map List.length).sum = (chunks.map List.length).sum := by
      rw [← List.length_flatten, ← List.length_flatten, hstream]
    exact List.eq_iff_flatten_eq.mpr ⟨hstream, (hall hsum).symm⟩
  · rintro rfl
    clear hne hstream
    induction requests generalizing chunks with
    | nil =>
        obtain rfl : chunks = [] := by simpa using hframes.symm
        rfl
    | cons request requests ih =>
        simp only [List.mapM_cons, Option.bind_eq_bind,
          Option.bind_eq_some_iff] at hframes
        obtain ⟨frame, hframe, frames, hframes, heq⟩ := hframes
        obtain rfl := Option.some.inj heq
        have hmessage := onMessage_frame hcodec (hoffers request (by simp)) hframe
        rw [RpcProvider.dispatched, List.filterMap_cons, hmessage]
        exact congrArg _ (ih (fun r hr => hoffers r (by simp [hr])) hframes)

/-! ## Headers without surplus -/

/-- A field of bytes in the wire format; an empty one is left out. -/
def bytesField (tag : UInt8) (value : Bytes) : Bytes :=
  if value = [] then [] else tag :: (Varint.encode 4 value.length ++ value)

def sizeField (size : ℕ) : Bytes :=
  if size = 0 then [] else 24 :: Varint.encode 4 size

def serializeHeader (header : RpcHeader) : Bytes :=
  bytesField 10 header.serviceName ++
    (bytesField 18 header.methodName ++ sizeField header.argsSize)

def takeBytesField (tag : UInt8) : Bytes → Bytes × Bytes
  | [] => ([], [])
  | byte :: bytes =>
      if byte = tag then
        match Varint.decode 9 bytes with
        | some (size, rest) => (rest.take size, rest.drop size)
        | none => ([], byte :: bytes)
      else ([], byte :: bytes)

def takeSizeField : Bytes → ℕ
  | 24 :: bytes => ((Varint.decode 9 bytes).map Prod.fst).getD 0
  | _ => 0

/-- Reads the fields in their order, and accepts only what `serializeHeader`
writes. -/
def parseHeader (bytes : Bytes) : Option RpcHeader :=
  let (serviceName, rest) := takeBytesField 10 bytes
  let (methodName, rest) := takeBytesField 18 rest
  let header :=
    { serviceName := serviceName
      methodName := methodName
      argsSize := takeSizeField rest : RpcHeader }
  if serializeHeader header = bytes then some header else none

def plainCodec : HeaderCodec where
  serialize := serializeHeader
  parse := parseHeader

theorem takeBytesField_append (tag : UInt8) (value rest : Bytes)
    (hvalue : value.length < 128 ^ 5) (hrest : ∀ bytes, rest ≠ tag :: bytes) :
    takeBytesField tag (bytesField tag value ++ rest) = (value, rest) := by
  unfold bytesField
  split
  · next hnil =>
      subst hnil
      cases rest with
      | nil => rfl
      | cons byte rest =>
          have hne : byte ≠ tag := fun heq => hrest rest (heq ▸ rfl)
          simp [takeBytesField, hne]
  · rw [List.cons_append, List.append_assoc]
    simp [takeBytesField,
      Varint.decode_encode (show 4 ≤ 9 by omega) hvalue (value ++ rest)]

theorem takeSizeField_sizeField (size : ℕ) (hsize : size < 128 ^ 5) :
    takeSizeField (sizeField size) = size := by
  have hread := Varint.decode_encode (show 4 ≤ 9 by omega) hsize []
  rw [List.append_nil] at hread
  unfold sizeField
  split
  · next hzero => simp [takeSizeField, hzero]
  · simp [takeSizeField, hread]

theorem length_le_bytesField (tag : UInt8) (value : Bytes) :
    value.length ≤ (bytesField tag value).length := by
  unfold bytesField
  split
  · next hnil => simp [hnil]
  · simp
    omega

theorem lawful_plainCodec : plainCodec.Lawful where
  parse_serialize := by
    intro header hsize hlen
    change (serializeHeader header).length < 2 ^ 31 at hlen
    change parseHeader (serializeHeader header) = some header
    obtain ⟨serviceName, methodName, argsSize⟩ := header
    simp only [serializeHeader, List.length_append] at hlen
    have hservice := length_le_bytesField 10 serviceName
    have hmethod := length_le_bytesField 18 methodName
    have hfirst := takeBytesField_append 10 serviceName
      (bytesField 18 methodName ++ sizeField argsSize) (by omega)
      (by
        intro bytes
        unfold bytesField sizeField
        split <;> split <;> simp)
    have hsecond := takeBytesField_append 18 methodName (sizeField argsSize)
      (by omega)
      (by
        intro bytes
        unfold sizeField
        split <;> simp)
    have hthird := takeSizeField_sizeField argsSize (by simp only at hsize; omega)
    simp only [parseHeader, serializeHeader, hfirst, hsecond, hthird, if_true]
  shortest := by
    intro bytes header hparse
    change parseHeader bytes = some header at hparse
    simp only [parseHeader, Option.ite_none_right_eq_some,
      Option.some.injEq] at hparse
    obtain ⟨hsame, rfl⟩ := hparse
    exact (congrArg List.length hsame).le

/-! ## Two requests -/

/-- The service `raftRpc`. -/
def raftRpc : Bytes := [114, 97, 102, 116, 82, 112, 99]

/-- Its method `RequestVote`. -/
def requestVoteName : Bytes :=
  [82, 101, 113, 117, 101, 115, 116, 86, 111, 116, 101]

/-- A provider with one method, whose arguments are two bytes for each
field. -/
def raftProvider : RpcProvider where
  service? := fun serviceName =>
    if serviceName = raftRpc then
      some fun methodName =>
        if methodName = requestVoteName then
          some fun args => args.length % 2 = 0
        else none
    else none

/-- `RequestVote` with a term below 128. -/
def voteRequest (term : UInt8) : RpcRequest where
  serviceName := raftRpc
  methodName := requestVoteName
  args := [8, term]

def voteFrame (term : UInt8) : Bytes :=
  [24, 10, 7] ++ raftRpc ++ [18, 11] ++ requestVoteName ++ [24, 2] ++ [8, term]

theorem offers_voteRequest (term : UInt8) :
    raftProvider.Offers (voteRequest term) :=
  ⟨_, _, rfl, rfl, by simp [voteRequest]⟩

theorem voteFrames_sent :
    [voteRequest 1, voteRequest 2].mapM (callMethod plainCodec) =
      some [voteFrame 1, voteFrame 2] := by
  decide +kernel

theorem dispatched_separately :
    raftProvider.dispatched plainCodec [voteFrame 1, voteFrame 2] =
      [voteRequest 1, voteRequest 2] := by
  refine (dispatched_iff lawful_plainCodec voteFrames_sent ?_
    (by decide +kernel) rfl).mpr rfl
  simpa using ⟨offers_voteRequest 1, offers_voteRequest 2⟩

/-- Both frames arrive at once, and the second request is lost. -/
theorem coalesced_request_lost :
    plainCodec.Lawful ∧
      [voteRequest 1, voteRequest 2].mapM (callMethod plainCodec) =
        some [voteFrame 1, voteFrame 2] ∧
      (∀ request ∈ [voteRequest 1, voteRequest 2],
        raftProvider.Offers request) ∧
      [voteFrame 1 ++ voteFrame 2].flatten =
        [voteFrame 1, voteFrame 2].flatten ∧
      raftProvider.dispatched plainCodec [voteFrame 1 ++ voteFrame 2] ≠
        [voteRequest 1, voteRequest 2] := by
  refine ⟨lawful_plainCodec, voteFrames_sent, ?_, rfl, by decide +kernel⟩
  simpa using ⟨offers_voteRequest 1, offers_voteRequest 2⟩

end KVRaftStorage
