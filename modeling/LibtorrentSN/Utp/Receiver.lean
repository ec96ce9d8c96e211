import Mathlib
import LibtorrentSN.Utp.PacketRing

/-!
# The receiving half of a uTP socket

What `utp_socket_impl` (`src/utp_stream.cpp`) does with the data it is sent: the reorder buffer
`m_inbuf`, the queue `m_receive_buffer` of payload nobody has read yet, and the buffers
`m_read_buffer` the user has posted for a read.

`m_inbuf` is the map a `packet_buffer` stands for. A posted buffer is the number of bytes it still
has room for, and what has been copied into the posted buffers, in the order it was copied, is
`copied`. What `incoming_packet` reads of the sending half is passed to it as arguments.
-/

namespace LibtorrentSN

namespace Utp

/-- The types of uTP packets, `ST_DATA` to `ST_SYN`. -/
inductive PacketType where
  | data
  | fin
  | state
  | reset
  | syn
deriving Repr, DecidableEq

/-- `state_t`, the states of a socket. -/
inductive SocketState where
  | none
  | synSent
  | connected
  | finSent
  | errorWait
  | deleting
deriving Repr, DecidableEq

/-- A `packet` that holds payload. -/
structure Packet where
  buf : List UInt8
  /-- the number of bytes of `buf` that are in use -/
  size : ℕ
  /-- the offset of the payload that has not been consumed yet -/
  headerSize : ℕ
deriving Repr, DecidableEq

namespace Packet

/-- `p->size - p->header_size`. -/
def payloadSize (p : Packet) : ℕ := p.size - p.headerSize

/-- The payload from `p->buf + p->header_size` on. -/
def payload (p : Packet) : List UInt8 := (p.buf.take p.size).drop p.headerSize

/-- A packet acquired for `bytes`, with no header. -/
def acquire (bytes : List UInt8) : Packet :=
  { buf := bytes, size := bytes.length % 65536, headerSize := 0 }

/-- `p->header_size += std::uint16_t(n)`. -/
def consume (p : Packet) (n : ℕ) : Packet := { p with headerSize := (p.headerSize + n) % 65536 }

end Packet

structure Receiver where
  state : SocketState := .connected
  ackNr : ℕ
  inbuf : ℕ → Option Packet := fun _ => none
  receiveBuffer : List Packet := []
  receiveBufferSize : ℤ := 0
  bufferedIncomingBytes : ℤ := 0
  readBuffer : List ℕ := []
  readBufferSize : ℤ := 0
  /-- the bytes read so far into the buffers of the outstanding read, `m_read` -/
  read : ℤ := 0
  readHandler : Bool := false
  nullBuffers : Bool := false
  inEof : Bool := false
  inEofSeqNr : ℕ := 0
  copied : List UInt8 := []

/-- `m_receive_buffer_capacity`, which nothing assigns. -/
def receiveBufferCapacity : ℤ := 1024 * 1024

namespace Receiver

/-! ### Reading -/

def addReadBuffer (s : Receiver) (len : ℕ) : Receiver :=
  if len = 0 then s
  else { s with readBuffer := s.readBuffer ++ [len], readBufferSize := s.readBufferSize + len }

/-- `m_read_buffer_size = 0; m_read_buffer.clear();` -/
def clearReadBuffer (s : Receiver) : Receiver := { s with readBuffer := [], readBufferSize := 0 }

/-- All data has been passed up to the application, and we're at EOF. -/
def atEof (s : Receiver) : Bool :=
  s.receiveBuffer.isEmpty && s.inEof && s.inEofSeqNr == s.ackNr

/-- One round of the loop of `read_some`: copy from the first packet into the first buffer. -/
def readRound (s : Receiver) (p : Packet) (packets : List Packet) (target : ℕ)
    (targets : List ℕ) (toCopy : ℕ) : Receiver :=
  { s with
    copied := s.copied ++ p.payload.take toCopy
    receiveBufferSize := s.receiveBufferSize - toCopy
    readBufferSize := s.readBufferSize - toCopy
    readBuffer := if target - toCopy = 0 then targets else (target - toCopy) :: targets
    -- a packet consumed entirely is popped
    receiveBuffer :=
      if (p.consume toCopy).headerSize = p.size then packets else p.consume toCopy :: packets }

/-- The loop of `read_some`, with the number of bytes it has copied. Each round uses up a packet
or a buffer, so there are no more rounds than packets and buffers. -/
def readLoop : ℕ → Receiver → ℕ → Receiver × ℕ
  | 0, s, ret => (s, ret)
  | fuel + 1, s, ret =>
    match s.receiveBuffer, s.readBuffer with
    | p :: packets, target :: targets =>
      -- the number of bytes to copy is added to the 16 bit field `header_size`
      let toCopy := min (min p.payloadSize target) (65535 - p.headerSize)
      let s' := s.readRound p packets target targets toCopy
      if s'.receiveBufferSize ≤ 0 then (s', ret + toCopy) else readLoop fuel s' (ret + toCopy)
    | _, _ => (s, ret)

/-- `read_some`: the number of bytes read, and whether the error code is `eof`. -/
def readSome (s : Receiver) (clearBuffers : Bool) : Receiver × ℕ × Bool :=
  if s.receiveBufferSize ≤ 0 then
    let s' := if clearBuffers then s.clearReadBuffer else s
    (s', 0, s'.atEof)
  else
    let r := readLoop (s.receiveBuffer.length + s.readBuffer.length) s 0
    let s' := if clearBuffers then r.1.clearReadBuffer else r.1
    (s', r.2, r.2 == 0 && s'.atEof)

/-- `maybe_trigger_receive_callback`; `ec` tells whether there is an error to report. -/
def maybeTriggerReceiveCallback (s : Receiver) (ec : Bool) : Receiver :=
  if s.readHandler = false then s
  else if s.nullBuffers && s.receiveBufferSize == 0 && !ec then s
  else if !s.nullBuffers && s.read == 0 && !ec then s
  else { s.clearReadBuffer with readHandler := false, read := 0 }

def issueRead (s : Receiver) : Receiver :=
  let r := readSome { s with nullBuffers := s.readBufferSize == 0, readHandler := true } false
  maybeTriggerReceiveCallback { r.1 with read := r.1.read + r.2.1 } r.2.2

/-! ### Arrivals -/

/-- The loop of `incoming` and what follows it. `buf` is what remains of the payload; it comes
from the packet `p` if there is one. -/
def incomingLoop (s : Receiver) (buf : List UInt8) (p : Option Packet) : List ℕ → Receiver
  | [] =>
    -- save this packet until the client issues another read
    let q := p.getD (Packet.acquire buf)
    { s with
      receiveBufferSize := s.receiveBufferSize + q.payloadSize
      receiveBuffer := s.receiveBuffer ++ [q] }
  | target :: targets =>
    let toCopy := min buf.length target
    let s' := { s with
      copied := s.copied ++ buf.take toCopy
      read := s.read + toCopy
      readBufferSize := s.readBufferSize - toCopy
      readBuffer := if target - toCopy = 0 then targets else (target - toCopy) :: targets }
    if buf.length - toCopy = 0 then s'
    else incomingLoop s' (buf.drop toCopy) (p.map (·.consume toCopy)) targets

/-- `incoming`: if a packet is passed in, `buf` is ignored. -/
def incoming (s : Receiver) (buf : List UInt8) (p : Option Packet) : Receiver :=
  let bytes := (p.map Packet.payload).getD buf
  if bytes.length = 0 then s else s.incomingLoop bytes p s.readBuffer

/-- The loop of `consume_incoming_data` that moves the packets that have become in order out of
the reorder buffer. It holds at most one packet for each 16-bit number. -/
def reorderLoop : ℕ → Receiver → Receiver
  | 0, s => s
  | fuel + 1, s =>
    let nextAckNr := (s.ackNr + 1) &&& 0xffff
    match s.inbuf nextAckNr with
    | none => s
    | some p =>
      let s' := { s with
        inbuf := Function.update s.inbuf nextAckNr none
        bufferedIncomingBytes := s.bufferedIncomingBytes - p.payloadSize }
      reorderLoop fuel { s'.incoming [] (some p) with ackNr := nextAckNr }

/-- `consume_incoming_data` on an `ST_DATA` packet. It returns true when it ignores the packet. -/
def consumeIncomingData (s : Receiver) (seqNr : ℕ) (payload : List UInt8) : Receiver × Bool :=
  -- we've already received a FIN and everything up to it has been acked
  if s.inEof && s.ackNr == s.inEofSeqNr then (s, true)
  -- there is no buffer from the upper layer and the advertised receive window is exceeded
  else if s.readBufferSize = 0 ∧
      s.receiveBufferSize ≥ receiveBufferCapacity - s.bufferedIncomingBytes then (s, false)
  else if seqNr = (s.ackNr + 1) &&& 0xffff then
    if s.bufferedIncomingBytes + s.receiveBufferSize + payload.length > receiveBufferCapacity then
      (s, true)
    else
      let s' := s.incoming payload none
      (reorderLoop 65536 { s' with ackNr := (s'.ackNr + 1) &&& 0xffff }, false)
  -- have we already received this packet and passed it on to the client?
  else if !compareLessWrap s.ackNr seqNr 0xffff then (s, true)
  else if (s.inbuf seqNr).isSome then (s, true)
  else if s.bufferedIncomingBytes + s.receiveBufferSize + payload.length > receiveBufferCapacity then
    (s, true)
  else
    let p := Packet.acquire payload
    ({ s with
      bufferedIncomingBytes := s.bufferedIncomingBytes + p.size
      inbuf := Function.update s.inbuf seqNr (some p) }, false)

/-- What `incoming_packet` reads of the sending half: `m_seq_nr` and `m_acked_seq_nr`. -/
structure SendSide where
  seqNr : ℕ
  ackedSeqNr : ℕ
deriving Repr, DecidableEq

/-- `cmp_seq_nr`: the highest number an incoming packet may acknowledge. -/
def cmpSeqNr (s : Receiver) (own : SendSide) (type : PacketType) : ℕ :=
  let stateOrFin := type = .state ∨ type = .fin
  if (s.state = .synSent ∨ s.state = .finSent ∨ s.state = .deleting) ∧ stateOrFin then own.seqNr
  else sub32 own.seqNr 1 &&& 0xffff

/-- The other end is acknowledging a packet that hasn't been sent yet, or one that is long
acknowledged. `dup_ack_limit` is 3. -/
def ackInvalid (s : Receiver) (own : SendSide) (type : PacketType) (ackNr : ℕ) : Bool :=
  (s.state != .none || type != .syn) &&
    (compareLessWrap (s.cmpSeqNr own type) ackNr 0xffff ||
      compareLessWrap ackNr (sub32 own.ackedSeqNr 3) 0xffff)

/-- The packet comes after the FIN. -/
def pastEof (s : Receiver) (type : PacketType) (seqNr : ℕ) : Bool :=
  s.inEof && compareLessWrap s.inEofSeqNr seqNr 0xffff &&
    !(s.inEofSeqNr == seqNr && (type == .state || type == .fin))

/-- The number of packets that'll fit in the reorder buffer. -/
def maxPacketsReorder : ℕ := (max 16 (receiveBufferCapacity.tdiv 1100)).toNat

/-- The packet is too far out to fit in our reorder buffer. -/
def tooFarOut (s : Receiver) (seqNr : ℕ) : Bool :=
  s.state != .none && s.state != .synSent &&
    compareLessWrap (add32 s.ackNr maxPacketsReorder &&& 0xffff) seqNr 0xffff

/-- The FIN branch of `incoming_packet`. -/
def incomingFin (s : Receiver) (seqNr payloadSize : ℕ) : Receiver :=
  let s := if seqNr = (s.ackNr + 1) &&& 0xffff ∨ seqNr = s.ackNr then { s with ackNr := seqNr } else s
  let s :=
    if s.inEof then s
    else { s with
      inEof := true
      -- even though invalid, tolerate FIN packets with payload
      inEofSeqNr := if payloadSize > 0 then (seqNr + 1) &&& 0xffff else seqNr }
  if s.ackNr = s.inEofSeqNr ∧ s.receiveBuffer.isEmpty then s.maybeTriggerReceiveCallback true else s

/-- `consume_incoming_data`, which ignores everything but `ST_DATA`. -/
def consumePacket (s : Receiver) (type : PacketType) (seqNr : ℕ) (payload : List UInt8) :
    Receiver :=
  if type = .data then (s.consumeIncomingData seqNr payload).1 else s

/-- What `incoming_packet` does to the receiving half, once the checks have passed. -/
def acceptPacket (s : Receiver) (own : SendSide) (type : PacketType) (seqNr ackNr : ℕ)
    (payload : List UInt8) : Receiver :=
  match s.state with
  | .none =>
    -- the only thing we accept are SYN packets
    if type = .syn then { s with state := .connected, ackNr := seqNr } else s
  | .synSent =>
    -- just wait for an ack to our SYN, ignore everything else
    if ackNr ≠ sub32 own.seqNr 1 &&& 0xffff then s
    else
      let first := if type = .data then seqNr else sub32 seqNr 1 &&& 0xffff
      { s with state := .connected, ackNr := first }.consumePacket type seqNr payload
  | .connected => s.consumePacket type seqNr payload
  | .finSent => s.consumePacket type seqNr payload
  | .errorWait => s
  | .deleting => s

def incomingPacket (s : Receiver) (own : SendSide) (type : PacketType) (seqNr ackNr : ℕ)
    (payload : List UInt8) : Receiver :=
  if s.state ≠ .none ∧ type = .syn then s
  else if s.ackInvalid own type ackNr then s
  else if s.pastEof type seqNr then s
  else if s.tooFarOut seqNr then s
  else if type = .reset then { s with state := .errorWait }
  else if type = .fin then s.incomingFin seqNr payload.length
  else s.acceptPacket own type seqNr ackNr payload

end Receiver

end Utp

end LibtorrentSN
