import Mathlib
import LibtorrentSN.Utp.Receiver

/-!
# The sending half of a uTP socket

What `utp_socket_impl` (`src/utp_stream.cpp`) does with the payload it is given: `send_pkt` and
`resend_packet`, the acknowledgements of `incoming_packet` and `parse_sack`, the sweep of `tick`, and
what `close` and `writable` do about the FIN.

`m_outbuf` is the map a `packet_buffer` stands for, and a packet is kept as the bytes that follow the
20 bytes of its header, as far as they are allocated, with the fields of the header beside them. The
congestion window, the path MTU and the outcome of a UDP send are inputs of the calls that depend on
them, and so is what they read of the receiving half.
-/

namespace LibtorrentSN

namespace Utp

/-- How a UDP send ends. `try_again` is the same as `would_block`. -/
inductive SendOutcome where
  | ok
  | wouldBlock
  | messageSize
  | error
deriving Repr, DecidableEq

/-- `utp_no_extension`, `utp_sack` and `utp_close_reason`. -/
def noExtension : UInt8 := 0

@[inherit_doc noExtension]
def sackExtension : UInt8 := 1

@[inherit_doc noExtension]
def closeReasonExtension : UInt8 := 3

/-- `memcpy` into a buffer. -/
def overwrite (buf : List UInt8) (offset : ℕ) (bytes : List UInt8) : List UInt8 :=
  buf.take offset ++ bytes ++ buf.drop (offset + bytes.length)

/-- A `packet` on its way out, or waiting in `m_outbuf` to be acknowledged. -/
structure OutPacket where
  type : PacketType
  seqNr : ℕ
  ackNr : ℕ := 0
  extension : UInt8 := noExtension
  /-- the buffer, from the end of the `utp_header` on -/
  body : List UInt8 := []
  size : ℕ := 20
  headerSize : ℕ := 20
  needResend : Bool := false
  /-- how many packets with payload were sent before this one -/
  index : ℕ := 0
deriving Repr, DecidableEq

namespace OutPacket

def allocated (p : OutPacket) : ℕ := 20 + p.body.length

/-- `p->size - p->header_size`. -/
def payloadSize (p : OutPacket) : ℕ := p.size - p.headerSize

/-- What a packet in flight counts for. -/
def inFlight (p : OutPacket) : ℕ := if p.needResend then 0 else p.payloadSize

def removeSackHeader (p : OutPacket) : OutPacket :=
  let sackSize := (p.body.getD 1 0).toNat
  { p with
    extension := p.body.getD 0 0
    body := overwrite p.body 0 ((p.body.drop (sackSize + 2)).take p.payloadSize)
    headerSize := p.headerSize - (sackSize + 2)
    size := p.size - (sackSize + 2) }

end OutPacket

/-- What the sending half reads of the receiving half: `m_ack_nr`, `m_inbuf.at` and whether
`m_inbuf.size()` is positive. -/
structure RecvSide where
  ackNr : ℕ
  holds : ℕ → Bool
  any : Bool

namespace RecvSide

/-- One byte of the bitfield: its bits stand for the eight packets from `nr` on. -/
def sackByte (rx : RecvSide) (nr : ℕ) : UInt8 :=
  (List.range 8).foldl
    (fun byte i => if rx.holds ((nr + i) &&& 0xffff) then byte ||| (1 <<< i.toUInt8) else byte) 0

def writeSack (rx : RecvSide) (size : ℕ) : List UInt8 :=
  (List.range size).map fun i => rx.sackByte ((rx.ackNr + 2 + 8 * i) &&& 0xffff)

end RecvSide

/-- What `resend_packet` makes of the SACK header of a packet: it is kept if it was written for the
current `m_ack_nr`, and otherwise written again or removed. -/
def OutPacket.refreshSack (p : OutPacket) (rx : RecvSide) : OutPacket :=
  if p.extension = sackExtension ∧ p.ackNr ≠ rx.ackNr then
    if rx.any then
      { p with body := overwrite p.body 2 (rx.writeSack (p.body.getD 1 0).toNat) }
    else p.removeSackHeader
  else p

structure Sender where
  state : SocketState
  seqNr : ℕ
  ackedSeqNr : ℕ
  outbuf : ℕ → Option OutPacket := fun _ => none
  bytesInFlight : ℤ := 0
  /-- the UDP socket returned `would_block`, and has not become writable since -/
  stalled : Bool := false
  outEof : Bool := false
  writeBuffer : List UInt8 := []
  writeHandler : Bool := false
  written : ℕ := 0
  naglePacket : Option OutPacket := none
  nagleSeqNr : ℕ := 0
  closeReason : ℕ := 0
  /-- the bytes that have been taken from the user's buffers -/
  taken : List UInt8 := []
  /-- how many packets with payload have been sent -/
  count : ℕ := 0
  /-- the packets handed to the UDP socket -/
  wire : List OutPacket := []

/-- What `resend_packet` depends on: `min(m_cwnd >> 16, m_adv_wnd)`, and how the UDP send ends. -/
structure ResendInput where
  window : ℤ
  outcome : SendOutcome

/-- What `send_pkt` depends on. -/
structure SendInput where
  rx : RecvSide
  /-- for the packets that are sent again first -/
  resend : ℕ → ResendInput
  window : ℤ
  cwndFull : Bool
  effectiveMtu : ℕ
  /-- `m_inbuf.span()`, which the reorder-window check bounds -/
  span : ℕ
  /-- the buffer of a packet acquired for `effectiveMtu` bytes -/
  buffer : List UInt8
  outcome : SendOutcome
  /-- how the second send ends, if the first one ends in `message_size` -/
  retryOutcome : SendOutcome
  span_le : span ≤ 2040
  buffer_ge : effectiveMtu ≤ 20 + buffer.length

namespace Sender

/-! ### Sending again -/

/-- `resend_packet` on the packet `p` numbered `nr`. -/
def resendPacket (s : Sender) (nr : ℕ) (p : OutPacket) (fastResend : Bool) (rx : RecvSide)
    (inp : ResendInput) : Sender × Bool :=
  if s.stalled then (s, false)
  -- some packets that are larger than the congestion window must be allowed through, but only if
  -- there are no outstanding bytes
  else if ¬ fastResend ∧ inp.window - s.bytesInFlight < p.payloadSize ∧ 0 < s.bytesInFlight then
    (s, false)
  else
    let inFlight := s.bytesInFlight + if p.needResend then (p.payloadSize : ℤ) else 0
    let q := { p.refreshSack rx with needResend := false, ackNr := rx.ackNr }
    let sent := { s with
      bytesInFlight := inFlight
      outbuf := Function.update s.outbuf nr (some q)
      wire := s.wire ++ [q] }
    match inp.outcome with
    | .ok => (sent, true)
    | .wouldBlock =>
      ({ sent with
        stalled := true
        bytesInFlight := inFlight - q.payloadSize
        outbuf := Function.update s.outbuf nr (some { q with needResend := true }) }, false)
    | .messageSize => ({ sent with state := .errorWait }, false)
    | .error => ({ sent with state := .errorWait }, false)

/-- The loop of `send_pkt` that resends packets, from number `i` on. The result tells whether to go
on and send the packet itself. -/
def resendLoop (rx : RecvSide) (inp : ℕ → ResendInput) (force : Bool) :
    ℕ → ℕ → Sender → Sender × Bool
  | 0, _, s => (s, true)
  | fuel + 1, i, s =>
    if i = s.seqNr then (s, true)
    else
      match s.outbuf i with
      | none => resendLoop rx inp force fuel ((i + 1) &&& 0xffff) s
      | some p =>
        if !p.needResend then resendLoop rx inp force fuel ((i + 1) &&& 0xffff) s
        else
          let r := s.resendPacket i p false rx (inp i)
          if r.2 then resendLoop rx inp force fuel ((i + 1) &&& 0xffff) r.1
          -- it probably doesn't fit in our cwnd; if force is set we send our packet anyway
          else if !force then (r.1, false)
          else if r.1.state = .errorWait ∨ r.1.state = .deleting then (r.1, false)
          else if r.1.stalled then (r.1, false)
          else (r.1, true)

/-! ### Sending -/

/-- `write_payload`: the next `n` bytes are taken from the user's buffers. -/
def writePayload (s : Sender) (n : ℕ) : Sender :=
  { s with
    writeBuffer := s.writeBuffer.drop n
    written := s.written + min n s.writeBuffer.length
    taken := s.taken ++ s.writeBuffer.take n }

/-- The size of the bitfield of a new packet. -/
def sackSize (s : Sender) (inp : SendInput) : ℕ :=
  if inp.rx.any then
    min ((inp.span + 7) / 8) (inp.effectiveMtu - 20 - 2 - if s.closeReason ≠ 0 then 6 else 0)
  else 0

def newHeaderSize (s : Sender) (inp : SendInput) : ℕ :=
  20 + (if s.sackSize inp ≠ 0 then s.sackSize inp + 2 else 0) + if s.closeReason ≠ 0 then 6 else 0

/-- `payload_size`, before the window is looked at. -/
def payloadSize (s : Sender) (inp : SendInput) : ℕ :=
  min (s.writeBuffer.length + (s.naglePacket.map OutPacket.payloadSize).getD 0)
    (inp.effectiveMtu - s.newHeaderSize inp)

/-- A new packet with `payloadSize` bytes of payload. The extension headers are not written yet. -/
def newPacket (s : Sender) (inp : SendInput) (payloadSize : ℕ) : OutPacket :=
  { type := if payloadSize ≠ 0 then .data else .state
    seqNr := s.seqNr
    extension :=
      if s.sackSize inp ≠ 0 then sackExtension
      else if s.closeReason ≠ 0 then closeReasonExtension else noExtension
    body := overwrite inp.buffer (s.newHeaderSize inp - 20) (s.writeBuffer.take payloadSize)
    size := s.newHeaderSize inp + payloadSize
    headerSize := s.newHeaderSize inp
    index := s.count }

/-- The nagle packet, without its SACK header if there is no selective ack to be sent any more. -/
def pickedUp (p : OutPacket) (rx : RecvSide) : OutPacket :=
  if p.extension = sackExtension ∧ !rx.any then p.removeSackHeader else p

/-- The size of the bitfield in a nagle packet that is picked up. -/
def pickedUpSack (p : OutPacket) (rx : RecvSide) : ℕ :=
  if p.extension = sackExtension ∧ rx.any then (p.body.getD 1 0).toNat else 0

/-- The bytes that are added to a nagle packet. -/
def sizeLeft (s : Sender) (p : OutPacket) (inp : SendInput) : ℕ :=
  min (p.allocated - p.size) (min s.writeBuffer.length (inp.effectiveMtu - p.size))

/-- `write_payload(p->buf + p->size, n); p->size += n;` -/
def fill (s : Sender) (p : OutPacket) (n : ℕ) : OutPacket :=
  { p with body := overwrite p.body (p.size - 20) (s.writeBuffer.take n), size := p.size + n }

/-- The close reason extension header, `write_uint32` included. -/
def closeReasonHeader (code : ℕ) : List UInt8 :=
  [noExtension, 4, (code >>> 24).toUInt8, (code >>> 16).toUInt8, (code >>> 8).toUInt8, code.toUInt8]

/-- The part of `send_pkt` that writes the extension headers, with `sack` bytes of bitfield. -/
def writeExtensions (s : Sender) (rx : RecvSide) (sack : ℕ) (p : OutPacket) : OutPacket :=
  let next := if s.closeReason ≠ 0 then closeReasonExtension else noExtension
  let body :=
    if sack ≠ 0 then overwrite p.body 0 (next :: sack.toUInt8 :: rx.writeSack sack) else p.body
  let offset := if sack ≠ 0 then sack + 2 else 0
  { p with
    body := if s.closeReason ≠ 0 then overwrite body offset (closeReasonHeader s.closeReason)
      else body }

/-- Hold off: the packet is not full and an undersized packet is outstanding. -/
def holdsOff (s : Sender) (p : OutPacket) (inp : SendInput) (force : Bool) : Bool :=
  0 < s.bytesInFlight && p.size < min p.allocated inp.effectiveMtu && !force &&
    compareLessWrap s.ackedSeqNr s.nagleSeqNr 0xffff

/-- `m_outbuf.insert(m_seq_nr, p)`; the bytes of a packet it replaces are no longer in flight. -/
def insertPacket (s : Sender) (p : OutPacket) : Sender :=
  { s with
    outbuf := Function.update s.outbuf s.seqNr (some p)
    bytesInFlight := s.bytesInFlight - ((s.outbuf s.seqNr).map OutPacket.inFlight).getD 0 }

/-- The end of `send_pkt`: the packet `p` goes to the UDP socket, and is kept if it has payload or
is a FIN. -/
def transmit (s : Sender) (p : OutPacket) (fin : Bool) (inp : SendInput) : Sender :=
  let q := { p with ackNr := inp.rx.ackNr, type := if fin then .fin else p.type }
  -- resend the packet immediately without it being an MTU probe
  let retried := inp.outcome = .messageSize
  let sent := { s with wire := s.wire ++ if retried then [q, q] else [q] }
  match if retried then inp.retryOutcome else inp.outcome with
  | .messageSize => { sent with state := .errorWait }
  | .error => { sent with state := .errorWait }
  | .ok =>
    if q.headerSize < q.size then
      let r := sent.insertPacket q
      { r with
        nagleSeqNr := if q.size < min q.allocated inp.effectiveMtu then s.seqNr else s.nagleSeqNr
        seqNr := (s.seqNr + 1) &&& 0xffff
        bytesInFlight := r.bytesInFlight + q.payloadSize
        count := s.count + 1 }
    else if fin then sent.insertPacket q
    else sent
  | .wouldBlock =>
    -- if we're stalled we'll need to resend
    let stalled := { sent with stalled := true }
    if q.headerSize < q.size then
      { stalled.insertPacket { q with needResend := true } with
        nagleSeqNr := if q.size < min q.allocated inp.effectiveMtu then s.seqNr else s.nagleSeqNr
        seqNr := (s.seqNr + 1) &&& 0xffff
        count := s.count + 1 }
    else if fin then stalled.insertPacket { q with needResend := true }
    else stalled

/-- `send_pkt`, up to the re-entrant call of `send_fin`. The flags are `pkt_ack` and `pkt_fin`. -/
def sendPktBody (s : Sender) (ack fin : Bool) (inp : SendInput) : Sender :=
  if s.stalled then s
  else
    -- when closing, all payload is flushed before the FIN
    let force := ack || fin || s.outEof
    let r := resendLoop inp.rx inp.resend force 65536 ((s.ackedSeqNr + 1) &&& 0xffff) s
    if !r.2 then r.1
    else
      let s := r.1
      let exceeded := inp.window < s.bytesInFlight + s.payloadSize inp
      -- if we're sending an ACK, we can send a packet without payload
      let payload := if exceeded ∧ ack then 0 else s.payloadSize inp
      if exceeded ∧ !force then s
      else if payload = 0 ∧ !force then s
      else
        match s.naglePacket with
        | some p =>
          if payload = 0 ∧ force ∧ (inp.cwndFull ∨ exceeded) then
            -- only acknowledge, and leave the nagle packet alone
            transmit s (s.writeExtensions inp.rx (s.sackSize inp) (s.newPacket inp 0)) fin inp
          else
            -- pick up the nagle packet and keep adding bytes to it
            let p' := pickedUp p inp.rx
            let n := s.sizeLeft p' inp
            let q := s.fill p' n
            let s := { s.writePayload n with naglePacket := none }
            if s.holdsOff q inp force then { s with naglePacket := some q }
            else transmit s (s.writeExtensions inp.rx (pickedUpSack p inp.rx) q) fin inp
        | none =>
          let q := s.writeExtensions inp.rx (s.sackSize inp) (s.newPacket inp payload)
          let s := s.writePayload payload
          if s.holdsOff q inp force then { s with naglePacket := some q } else transmit s q fin inp

/-- The condition of the re-entrant call of `send_fin`, and of the calls of `send_fin` in
`maybe_trigger_send_callback`, `close` and `writable`, all of which imply it. -/
def finDue (s : Sender) : Prop :=
  s.outEof ∧ s.writeBuffer = [] ∧ s.naglePacket = none ∧ s.state = .connected

instance (s : Sender) : Decidable s.finDue :=
  inferInstanceAs (Decidable (_ ∧ _ ∧ _ ∧ _))

/-- `send_fin`: unless there was an error, we're now in FIN-SENT state. -/
def sendFin (s : Sender) (inp : SendInput) : Sender :=
  let r := s.sendPktBody false true inp
  if r.state = .errorWait then r else { r with state := .finSent }

/-! ### Acknowledgements -/

/-- The number `m_acked_seq_nr` does not reach. Once we're in the fin_sent state it can equal
`m_seq_nr`. -/
def ackLimit (s : Sender) : ℕ := if s.state = .finSent then (s.seqNr + 1) &&& 0xffff else s.seqNr

/-- The loop of `maybe_inc_acked_seq_nr`. -/
def incAckedSeqNr : ℕ → Sender → Sender
  | 0, s => s
  | fuel + 1, s =>
    let next := (s.ackedSeqNr + 1) &&& 0xffff
    if next ≠ s.ackLimit ∧ s.outbuf next = none then
      incAckedSeqNr fuel { s with ackedSeqNr := next }
    else s

def maybeIncAckedSeqNr (s : Sender) : Sender := incAckedSeqNr 65536 s

/-- `m_outbuf.remove(nr)`, and `ack_packet` if there was such a packet. -/
def removeAcked (s : Sender) (nr : ℕ) : Sender :=
  match s.outbuf nr with
  | none => s
  | some p =>
    maybeIncAckedSeqNr { s with
      outbuf := Function.update s.outbuf nr none
      bytesInFlight := s.bytesInFlight - p.inFlight }

/-- The loop of `incoming_packet` over the packets that are acknowledged, `n` of them from `nr`
on. -/
def ackLoop : ℕ → ℕ → Sender → Sender
  | 0, _, s => s
  | n + 1, nr, s => ackLoop n ((nr + 1) &&& 0xffff) (s.removeAcked nr)

/-- The loop of `parse_sack` over the bits of the bitfield; `nr` is the number the first bit stands
for. It ends at the first number that hasn't been sent. -/
def sackLoop : List Bool → ℕ → Sender → Sender
  | [], _, s => s
  | bit :: bits, nr, s =>
    let s' :=
      if bit then
        -- this packet might have been acked by a previous selective ack
        if s.outbuf nr = none then s.maybeIncAckedSeqNr else s.removeAcked nr
      else s
    if (nr + 1) &&& 0xffff = s'.seqNr then s' else sackLoop bits ((nr + 1) &&& 0xffff) s'

/-- The bits of a bitfield, in the order `parse_sack` reads them. -/
def sackBits (bitfield : List UInt8) : List Bool :=
  bitfield.flatMap fun byte => (List.range 8).map fun i => (byte &&& ((1 : UInt8) <<< i.toUInt8)) != 0

def parseSack (s : Sender) (packetAck : ℕ) (bitfield : List UInt8) : Sender :=
  sackLoop (sackBits bitfield) ((packetAck + 2) &&& 0xffff) s

/-- `cmp_seq_nr`: the highest number an incoming packet may acknowledge. -/
def cmpSeqNr (s : Sender) (type : PacketType) : ℕ :=
  if (s.state = .synSent ∨ s.state = .finSent ∨ s.state = .deleting) ∧
      (type = .state ∨ type = .fin) then s.seqNr
  else sub32 s.seqNr 1 &&& 0xffff

/-- The part of `incoming_packet` that acts on `ack_nr`. -/
def ackPackets (s : Sender) (ackNr : ℕ) : Sender :=
  if compareLessWrap s.ackedSeqNr ackNr 0xffff then
    maybeIncAckedSeqNr (ackLoop (sub32 ackNr s.ackedSeqNr &&& 0xffff)
      ((s.ackedSeqNr + 1) &&& 0xffff) s)
  else s

/-- What `incoming_packet` does with the acknowledgements of a packet: nothing if it acknowledges a
packet that hasn't been sent yet or one that is long acknowledged. A packet of ours has one SACK
header at most, a packet from someone else can have more. `dup_ack_limit` is 3. -/
def incomingAcks (s : Sender) (type : PacketType) (ackNr : ℕ) (sacks : List (List UInt8)) : Sender :=
  if compareLessWrap (s.cmpSeqNr type) ackNr 0xffff ||
      compareLessWrap ackNr (sub32 s.ackedSeqNr 3) 0xffff then s
  else sacks.foldl (fun s bitfield => s.parseSack ackNr bitfield) (s.ackPackets ackNr)

/-! ### Timeouts -/

/-- The loop of `tick` that marks packets as needing to be resent, `n` of them from `nr` on. -/
def sweepLoop : ℕ → ℕ → Sender → Sender
  | 0, _, s => s
  | n + 1, nr, s =>
    match s.outbuf nr with
    | none => sweepLoop n ((nr + 1) &&& 0xffff) s
    | some p =>
      if p.needResend then sweepLoop n ((nr + 1) &&& 0xffff) s
      else
        sweepLoop n ((nr + 1) &&& 0xffff) { s with
          outbuf := Function.update s.outbuf nr (some { p with needResend := true })
          bytesInFlight := s.bytesInFlight - p.payloadSize }

/-- The numbers from `m_acked_seq_nr` to `m_seq_nr`. -/
def sweep (s : Sender) : Sender :=
  sweepLoop ((sub32 (s.seqNr + 1) s.ackedSeqNr) &&& 0xffff) s.ackedSeqNr s

end Sender

end Utp

end LibtorrentSN
