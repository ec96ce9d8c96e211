import LibtorrentSN.Peer.ReceiveBuffer

/-!
# Receiving BitTorrent messages

The receiving side of a BitTorrent connection after the handshake: `on_receive_data` of
`src/peer_connection.cpp`, which appends what the socket read to the receive buffer and feeds it
to the upper layer, and `on_receive_impl` and `dispatch_message` of `src/bt_peer_connection.cpp`,
which find the messages in it.

The effects of a message handler on the rest of the client are left out. What is kept of a handler
is the call itself (`handled`: the bytes it saw and whether the packet was finished), how many
bytes it counted as received, and whether it closed the connection, which ends the run.
-/

namespace LibtorrentSN

namespace Peer

/-- The value of big-endian bytes. -/
def bigEndian (s : List UInt8) : ℕ := s.foldl (fun n b => n * 256 + b.toNat) 0

/-- `aux::read_int32`: four bytes as a signed number. -/
def readInt32 (s : List UInt8) : ℤ :=
  let n := bigEndian (s.take 4)
  if n < 2 ^ 31 then n else n - 2 ^ 32

def msgPiece : ℕ := 7

/-- The message types `dispatch_message` has a handler for. -/
def knownTypes : List ℕ :=
  [ 0, -- choke
    1, -- unchoke
    2, -- interested
    3, -- not interested
    4, -- have
    5, -- bitfield
    6, -- request
    msgPiece,
    8, -- cancel
    13, -- suggest piece
    14, -- have all
    15, -- have none
    16, -- reject request
    17, -- allowed fast
    20 ] -- extended

/-- What the handlers decide: whether the handler of a message, called with its size and the bytes
received of it, leaves the connection open, and whether an extension takes a message of another
type. -/
structure Handlers where
  accepts : ℕ → List UInt8 → Bool
  onUnknownMessage : ℕ → ℕ → List UInt8 → Bool

inductive State where
  | readPacketSize
  | readPacket
deriving DecidableEq, Repr

structure Connection where
  state : State
  recvBuffer : ReceiveBuffer
  /-- bytes counted as received, payload and protocol -/
  payload : ℕ := 0
  protocol : ℕ := 0
  /-- the calls of message handlers, with the bytes of the packet and whether it was finished -/
  handled : List (List UInt8 × Bool) := []

namespace Connection

variable (A : Malloc) (h : Handlers)

def receivedBytes (c : Connection) (bytesPayload bytesProtocol : ℕ) : Connection :=
  { c with payload := c.payload + bytesPayload, protocol := c.protocol + bytesProtocol }

/-- The count of `on_piece`: the first nine bytes of the message are protocol, the others
payload. -/
def countPiece (c : Connection) (received : ℕ) : Connection :=
  let recvPos := c.recvBuffer.recvPos
  let headerSize := 9
  if recvPos ≤ headerSize then c.receivedBytes 0 received
  else if recvPos - received ≥ headerSize then c.receivedBytes received 0
  else c.receivedBytes (recvPos - headerSize) (headerSize - (recvPos - received))

/-- `dispatch_message`: call the handler for the message type. `none` when it closed the
connection. -/
def dispatchMessage (c : Connection) (received : ℕ) : Option Connection :=
  let recvBuffer := c.recvBuffer.get
  let packetType := (recvBuffer.headD 0).toNat
  let packetSize := c.recvBuffer.packetSize
  let called : Connection :=
    { c with handled := c.handled ++ [(recvBuffer, c.recvBuffer.packetFinished)] }
  if packetType ∈ knownTypes then
    if h.accepts packetSize recvBuffer then
      if packetType = msgPiece then some (called.countPiece received)
      else some (called.receivedBytes 0 received)
    else none
  else if h.onUnknownMessage packetSize packetType recvBuffer.tail then some called
  -- nothing takes it: an invalid message
  else none

/-- The state `read_packet` of `on_receive_impl`. -/
def onReadPacket (c : Connection) (bytesTransferred : ℕ) : Option Connection :=
  (c.dispatchMessage h bytesTransferred).map fun c =>
    if c.recvBuffer.packetFinished then
      { c with state := .readPacketSize, recvBuffer := c.recvBuffer.reset 5 }
    else c

/-- The state `read_packet_size` of `on_receive_impl`: four bytes of length and the first byte of
the message. -/
def onReadPacketSize (c : Connection) (bytesTransferred : ℕ) : Option Connection :=
  let recvBuffer := c.recvBuffer.get
  -- the fifth byte is counted by the message handler
  let usedBytes := if recvBuffer.length > 4 then bytesTransferred - 1 else bytesTransferred
  let counted := c.receivedBytes 0 usedBytes
  let bytesLeft := bytesTransferred - usedBytes
  if recvBuffer.length < 4 then some counted
  else
    let packetSize := readInt32 recvBuffer
    -- do not accept packets larger than 1 MB
    if packetSize > 1024 * 1024 ∨ packetSize < 0 then none
    else if packetSize = 0 then
      -- keep-alive
      let counted := counted.receivedBytes 0 bytesLeft
      some { counted with
        recvBuffer := c.recvBuffer.cut 4 5, handled := c.handled ++ [([], true)] }
    else if recvBuffer.length < 5 then some counted
    else
      onReadPacket h
        { counted with state := .readPacket, recvBuffer := c.recvBuffer.cut 4 packetSize.toNat }
        bytesLeft

def onReceiveImpl (c : Connection) (bytesTransferred : ℕ) : Option Connection :=
  match c.state with
  | .readPacketSize => c.onReadPacketSize h bytesTransferred
  | .readPacket => c.onReadPacket h bytesTransferred

/-- The loop of `on_receive_data` that feeds `bytes` bytes of the receive buffer to the upper
layer. Each round passes on at least one of them. -/
def feed : ℕ → Connection → ℕ → Option Connection
  | 0, c, _ => some c
  | fuel + 1, c, bytes =>
    if bytes = 0 then some c
    else
      let subTransferred := (c.recvBuffer.advancePos bytes).2
      match onReceiveImpl h { c with recvBuffer := (c.recvBuffer.advancePos bytes).1 }
        subTransferred with
      | none => none
      | some c => if subTransferred > 0 then feed fuel c (bytes - subTransferred) else some c

/-- The end of `on_receive_data`: normalise the buffer, which shrinks when the peer just choked us,
and grow it when it is full. -/
def tidy (c : Connection) (choked : Bool) (limit : ℕ) : Connection :=
  let recvBuffer := c.recvBuffer.normalize A (if choked then 100 else 0)
  { c with
    recvBuffer := if recvBuffer.maxReceive = 0 then recvBuffer.grow A limit else recvBuffer }

/-- Feed all of `bytes` bytes and tidy up. -/
def feedAll (c : Connection) (bytes : ℕ) (choked : Bool) (limit : ℕ) : Option Connection :=
  (feed h bytes c bytes).map fun c => c.tidy A choked limit

/-- One asynchronous read. When it filled the buffer, what the socket has available may be read at
once, into a buffer of the given size. -/
structure Read where
  chunk : List UInt8
  more : Option (ℕ × List UInt8) := none
  /-- the peer choked us while its messages were handled -/
  choked : Bool := false
  /-- `max_peer_recv_buffer_size` -/
  limit : ℕ

def Read.bytes (r : Read) : List UInt8 := r.chunk ++ (r.more.map Prod.snd).getD []

/-- The read fits what the buffer offered. -/
def Read.Fits (r : Read) (c : Connection) : Prop :=
  0 < r.chunk.length ∧ r.chunk.length ≤ c.recvBuffer.maxReceive ∧
    ∀ m ∈ r.more, r.chunk.length = c.recvBuffer.maxReceive ∧ 0 < m.2.length ∧ m.2.length ≤ m.1

def onReceiveData (c : Connection) (r : Read) : Option Connection :=
  let recvBuffer := c.recvBuffer.received r.chunk
  let recvBuffer :=
    match r.more with
    | none => recvBuffer
    | some (bufferSize, bytes) => (recvBuffer.reserve A bufferSize).received bytes
  feedAll A h { c with recvBuffer } r.bytes.length r.choked r.limit

/-- The buffer side of `setup_receive`: offer the socket room for at most `quota` bytes. -/
def setupReceive (c : Connection) (quota : ℕ) : Connection :=
  let recvBuffer :=
    if c.recvBuffer.capacity < 100 ∧ c.recvBuffer.maxReceive = 0 then c.recvBuffer.reserve A 100
    else c.recvBuffer
  let maxReceive := min recvBuffer.maxReceive quota
  { c with
    recvBuffer := if maxReceive = 0 then recvBuffer else recvBuffer.reserve A maxReceive }

/-- The connection just after the handshake: `pending` bytes came with it and wait to be fed. -/
structure Ready (c : Connection) (pending : List UInt8) : Prop where
  state : c.state = .readPacketSize
  packetSize : c.recvBuffer.packetSize = 5
  holds : c.recvBuffer.Holds [] pending
  payload : c.payload = 0
  protocol : c.protocol = 0
  handled : c.handled = []

/-- A run without a disconnect in which the bytes `s` were received after the handshake. -/
inductive Run (c₀ : Connection) (pending : List UInt8) : List UInt8 → Connection → Prop where
  | start {c : Connection} (choked : Bool) (limit : ℕ)
    (hfeed : feedAll A h c₀ pending.length choked limit = some c) : Run c₀ pending pending c
  | setup {s : List UInt8} {c : Connection} (run : Run c₀ pending s c) (quota : ℕ) :
    Run c₀ pending s (c.setupReceive A quota)
  | read {s : List UInt8} {c c' : Connection} (run : Run c₀ pending s c) (r : Read)
    (hfits : r.Fits c) (hread : c.onReceiveData A h r = some c') :
    Run c₀ pending (s ++ r.bytes) c'

/-- The packets for which a handler saw `packet_finished`, a keep-alive being the empty one. -/
def finished (c : Connection) : List (List UInt8) :=
  c.handled.filterMap fun e => if e.2 then some e.1 else none

end Connection

/-! ### The frames of a stream -/

/-- Read frames from `s` as long as there are complete ones: their payloads, and what is left. -/
def splitFrames : ℕ → List UInt8 → List (List UInt8) × List UInt8
  | 0, s => ([], s)
  | fuel + 1, s =>
    let n := bigEndian (s.take 4)
    if 4 ≤ s.length ∧ n ≤ 2 ^ 20 ∧ 4 + n ≤ s.length then
      let rest := splitFrames fuel (s.drop (4 + n))
      ((s.drop 4).take n :: rest.1, rest.2)
    else ([], s)

/-- The payloads of the frames in `s`. -/
def frames (s : List UInt8) : List (List UInt8) := (splitFrames s.length s).1

/-- The frame of `s` that is not complete. -/
def unfinished (s : List UInt8) : List UInt8 := (splitFrames s.length s).2

/-- The first byte of a payload, if there is one, is a type there is a handler for. -/
def Known (payload : List UInt8) : Prop := ∀ t ∈ payload.head?, t.toNat ∈ knownTypes

instance (payload : List UInt8) : Decidable (Known payload) :=
  match h : payload.head? with
  | none => isTrue fun t ht => absurd (h ▸ ht) (by simp)
  | some t => decidable_of_iff (t.toNat ∈ knownTypes) (by simp [Known, h])

/-- Every message that begins in `s` has a type there is a handler for. -/
def KnownTypes (s : List UInt8) : Prop :=
  (∀ f ∈ frames s, Known f) ∧ Known ((unfinished s).drop 4)

instance (s : List UInt8) : Decidable (KnownTypes s) :=
  inferInstanceAs (Decidable (_ ∧ _))

end Peer

end LibtorrentSN
