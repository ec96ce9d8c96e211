import Mathlib.Data.List.Basic
import Mathlib.Data.Int.ModEq
import Mathlib.Tactic.Common

/-!
# The metadata extension

The info section of a magnet link is requested from the peers in slots of 16 KiB, and sent to them once we
have it (`src/ut_metadata.cpp`). A byte of the buffer carries the number of the message that wrote it, and
the state keeps what was received, requested and sent; the code reads none of this.

The torrent tells whether it accepts the metadata, the clock and the send buffers of the peers are inputs,
and a message is what `bdecode` makes of it.
-/

namespace LibtorrentSN

namespace Peer

/-- `msg_t`. -/
inductive MetadataMsg
  | request
  | piece
  | dontHave
  deriving DecidableEq

/-- The size of a slot. -/
def slotSize : ℕ := 16 * 1024

/-- `div_round_up` -/
def divRoundUp (numerator denominator : ℕ) : ℕ := (numerator + denominator - 1) / denominator

/-- `std::numeric_limits<int>::max()`. -/
def intMax : ℤ := 2 ^ 31 - 1

/-- `min_time`. Times are in nanoseconds. -/
def minTime : ℤ := -2 ^ 63

/-- A duration in nanoseconds. -/
def seconds (n : ℤ) : ℤ := n * 10 ^ 9

/-- The conversion of an integer of a message to `int`. -/
def toInt (n : ℤ) : ℤ := n.bmod (2 ^ 32)

/-- `metadata_piece` -/
structure MetadataPiece where
  numRequests : ℤ := 0
  lastRequest : ℤ := minTime
  source : Option ℕ := none
  deriving DecidableEq

/-- We have the slot. -/
abbrev MetadataPiece.Held (mp : MetadataPiece) : Prop := mp.numRequests = intMax

/-- A byte of `m_metadata`, and the message it came with. -/
structure MetadataByte where
  value : UInt8 := 0
  message : Option ℕ := none
  deriving DecidableEq

/-- `ut_metadata_peer_plugin`, with what it asks its connection. -/
structure PeerPlugin where
  messageIndex : ℤ := 0
  requestLimit : ℤ := minTime
  sentRequests : List ℤ := []
  incomingRequests : List ℤ := []
  hasMetadata : Bool := true
  disconnecting : Bool := false
  alive : Bool := true
  deriving DecidableEq

/-- A message to a peer. -/
structure MetadataPacket where
  peer : ℕ
  type : MetadataMsg
  piece : ℤ
  totalSize : Option ℕ
  data : List UInt8
  deriving DecidableEq

/-- A piece that was copied to the buffer. -/
structure BlockMessage where
  peer : ℕ
  piece : ℕ
  payload : List UInt8
  deriving DecidableEq

abbrev BlockMessage.offset (m : BlockMessage) : ℕ := m.piece * slotSize

/-- All slots have become held, or `set_metadata` is called. -/
inductive Completion
  | allHeld
  | setMetadata
  deriving DecidableEq

/-- What `torrent::set_metadata` does: it returns false, returns true for a torrent that does not get the
metadata, or returns true with the metadata in place. -/
inductive SetMetadata
  | rejected
  | dropped
  | accepted (infoSection : List UInt8)

/-- What the extension handshake says of the metadata. -/
structure ExtensionHandshake where
  utMetadata : Option ℤ
  metadataSize : Option ℤ

/-- A message of the extension. -/
structure ExtendedMsg where
  msgType : ℤ
  piece : ℤ
  totalSize : Option ℤ
  payload : List UInt8

/-- `ut_metadata_plugin`, with its peers. -/
structure UtMetadata where
  -- the torrent
  infoSection : Option (List UInt8) := none
  metadata : List MetadataByte := []
  requestedMetadata : List MetadataPiece := []
  peers : List PeerPlugin := []
  -- the history
  messages : List BlockMessage := []
  requests : List ℤ := []
  sent : List MetadataPacket := []
  completions : List Completion := []
  deriving DecidableEq

/-- `h` and `msg` are none if a key is missing or has the wrong type. -/
inductive MetadataEvent
  | newConnection
  | onExtensionHandshake (p : ℕ) (now : ℤ) (h : Option ExtensionHandshake)
  | onExtended (p : ℕ) (now : ℤ) (length : ℕ) (msg : Option ExtendedMsg) (sendBuffer : ℕ) (result : SetMetadata)
      (random : ℕ → ℕ)
  -- the send buffer has room for a number of queued pieces
  | tick (p : ℕ) (now : ℤ) (room : ℕ)
  | setHasMetadata (p : ℕ)
  | disconnect (p : ℕ)
  | destroy (p : ℕ)
  -- `torrent_handle::set_metadata`
  | setMetadata (result : SetMetadata)

/-- No piece is missing. -/
def AllHeld (t : List MetadataPiece) : Prop := t ≠ [] ∧ ∀ mp ∈ t, mp.Held

instance (t : List MetadataPiece) : Decidable (AllHeld t) := inferInstanceAs (Decidable (_ ∧ _))

/-- `std::vector::resize`. -/
def resize {α : Type} (l : List α) (n : ℕ) (a : α) : List α := l.take n ++ List.replicate (n - l.length) a

/-- `std::memcpy` to an offset. -/
def memcpy {α : Type} (l : List α) (offset : ℕ) (data : List α) : List α :=
  l.take offset ++ data ++ l.drop (offset + data.length)

/-- `std::min_element`. -/
def minElement (t : List MetadataPiece) : ℕ :=
  t.findIdx fun mp => t.all fun mp' => mp.numRequests ≤ mp'.numRequests

/-- The 16 KiB of `l` from a slot on. -/
def slotOf (l : List UInt8) (piece : ℤ) : List UInt8 :=
  (l.drop (piece * slotSize).toNat).take (min (l.length - piece * slotSize) slotSize).toNat

namespace UtMetadata

section Model

variable (maxMetadataSize : ℤ) (s : UtMetadata)

/-- `valid_metadata()` -/
abbrev ValidMetadata : Prop := s.infoSection.isSome

/-- `metadata()`. -/
def metadataSpan : List UInt8 :=
  if s.metadata ≠ [] then s.metadata.map MetadataByte.value else s.infoSection.getD []

/-- The table of slots is written. -/
def withTable (t : List MetadataPiece) : UtMetadata :=
  { s with
    requestedMetadata := t
    completions :=
      if ¬ AllHeld s.requestedMetadata ∧ AllHeld t then s.completions ++ [.allHeld] else s.completions }

/-- `ut_metadata_peer_plugin` of a peer. -/
def peer (p : ℕ) : PeerPlugin := s.peers.getD p { alive := false }

/-- One peer is changed. -/
def updatePeer (p : ℕ) (f : PeerPlugin → PeerPlugin) : UtMetadata := { s with peers := s.peers.modify p f }

/-- The source of a slot is still connected. -/
def sourceActive (source : Option ℕ) : Prop :=
  ∃ p ∈ source, (s.peer p).alive ∧ ¬ (s.peer p).disconnecting

instance (source : Option ℕ) : Decidable (s.sourceActive source) := by unfold sourceActive; infer_instance

/-- `metadata_size` -/
def metadataSize (size : ℤ) : UtMetadata :=
  if s.ValidMetadata then s
  else if size ≤ 0 ∨ size > 4 * 1024 * 1024 then s
  else { s with metadata := resize s.metadata size.toNat {} }.withTable
      (resize s.requestedMetadata (divRoundUp size.toNat slotSize) {})

/-- `metadata_request` -/
def metadataRequest (now : ℤ) (hasMetadata : Bool) : UtMetadata × Option ℕ :=
  let t := if s.requestedMetadata = [] then [{}] else s.requestedMetadata
  let piece := minElement t
  let mp := t.getD piece {}
  -- not more than once every 3 seconds unless the source is gone
  if mp.lastRequest ≠ minTime ∧ s.sourceActive mp.source ∧ (now - mp.lastRequest).tdiv (seconds 1) < 3 then
    (s.withTable t, none)
  else
    let mp' := { mp with
      numRequests := toInt (mp.numRequests + 1)
      lastRequest := if hasMetadata then now else mp.lastRequest }
    ({ s with requests := s.requests ++ [mp.numRequests] }.withTable (t.set piece mp'), some piece)

/-- `write_metadata_packet` -/
def writeMetadataPacket (p : ℕ) (type : MetadataMsg) (piece : ℤ) : UtMetadata :=
  if (s.peer p).messageIndex = 0 then s
  else
    let packet : MetadataPacket := {
      peer := p
      type := type
      piece := piece
      totalSize := if s.ValidMetadata then some s.metadataSpan.length else none
      data := if type = .piece then slotOf s.metadataSpan piece else [] }
    { s with sent := s.sent ++ [packet] }

/-- `maybe_send_request` -/
def maybeSendRequest (p : ℕ) (now : ℤ) : UtMetadata :=
  let pl := s.peer p
  if pl.disconnecting then s
  else if ¬ s.ValidMetadata ∧ pl.messageIndex ≠ 0 ∧ pl.sentRequests.length < 2 ∧
      (pl.hasMetadata ∨ now > pl.requestLimit) then
    match s.metadataRequest now pl.hasMetadata with
    | (s', none) => s'
    | (s', some piece) =>
      (s'.updatePeer p fun pl => { pl with sentRequests := pl.sentRequests ++ [(piece : ℤ)] }).writeMetadataPacket
        p .request piece
  else s

/-- `on_extension_handshake` -/
def onExtensionHandshake (p : ℕ) (now : ℤ) (h : Option ExtensionHandshake) : UtMetadata :=
  let s := s.updatePeer p fun pl => { pl with messageIndex := 0 }
  match h with
  | none => s
  | some h =>
    let index := toInt (h.utMetadata.getD (-1))
    if index = -1 then s
    else
      let s := s.updatePeer p fun pl => { pl with messageIndex := index }
      let size := toInt (h.metadataSize.getD 0)
      let s :=
        if size > 0 then s.metadataSize size
        else s.updatePeer p fun pl => { pl with hasMetadata := false }
      s.maybeSendRequest p now

/-- The payload is copied and the slot is marked. -/
def storePiece (p piece : ℕ) (buf : List UInt8) : UtMetadata :=
  let n := s.messages.length
  let mp := s.requestedMetadata.getD piece {}
  { s with
    metadata := memcpy s.metadata (piece * slotSize) (buf.map fun v => { value := v, message := some n })
    messages := s.messages ++ [BlockMessage.mk p piece buf] }.withTable
      (s.requestedMetadata.set piece { mp with numRequests := intMax, source := some p })

/-- `failed_hash_check` for the sources of the slots. -/
def failedHashCheck (now : ℤ) (random : ℕ → ℕ) : UtMetadata :=
  let now := if s.requestedMetadata.length = 1 then now + seconds (5 * 60) else now
  s.requestedMetadata.zipIdx.foldl (fun s x =>
    match x.1.source with
    | none => s
    | some p =>
      s.updatePeer p fun pl =>
        if pl.alive then { pl with requestLimit := now + seconds (20 + random x.2) } else pl) s

/-- `set_metadata` is called if we have all slots. -/
def trySetMetadata (now : ℤ) (result : SetMetadata) (random : ℕ → ℕ) : UtMetadata :=
  if AllHeld s.requestedMetadata then
    let s : UtMetadata := { s with completions := s.completions ++ [.setMetadata] }
    match result with
    | .rejected =>
      (s.failedHashCheck now random).withTable (s.requestedMetadata.map fun mp => { mp with numRequests := 0 })
    | .dropped => { s with metadata := [] }.withTable []
    | .accepted info => { s with metadata := [], infoSection := some info }.withTable []
  else s

/-- `received_metadata` -/
def receivedMetadata (p : ℕ) (now : ℤ) (buf : List UInt8) (piece totalSize : ℤ) (result : SetMetadata)
    (random : ℕ → ℕ) : UtMetadata :=
  if s.ValidMetadata then s
  else if s.metadata = [] ∧ (totalSize ≤ 0 ∨ totalSize > maxMetadataSize) then s
  else
    let s :=
      if s.metadata = [] then
        { s with metadata := resize [] totalSize.toNat {} }.withTable
          (resize s.requestedMetadata (divRoundUp totalSize.toNat slotSize) {})
      else s
    if piece < 0 ∨ piece ≥ s.requestedMetadata.length then s
    else if totalSize ≠ s.metadata.length then s
    else if piece * slotSize + buf.length > s.metadata.length then s
    else (s.storePiece p piece.toNat buf).trySetMetadata now result random

/-- A request of a peer. -/
def onRequest (p : ℕ) (piece : ℤ) (sendBuffer : ℕ) : UtMetadata :=
  if ¬ s.ValidMetadata ∨ piece < 0 ∨ piece ≥ divRoundUp s.metadataSpan.length slotSize then
    s.writeMetadataPacket p .dontHave piece
  else if sendBuffer < 0x4000 * 10 then s.writeMetadataPacket p .piece piece
  else if (s.peer p).incomingRequests.length < 1024 then
    s.updatePeer p fun pl => { pl with incomingRequests := pl.incomingRequests ++ [piece] }
  else s.writeMetadataPacket p .dontHave piece

/-- A piece from a peer. -/
def onPiece (p : ℕ) (now : ℤ) (msg : ExtendedMsg) (result : SetMetadata) (random : ℕ → ℕ) : UtMetadata :=
  let piece := toInt msg.piece
  if piece ∈ (s.peer p).sentRequests then
    ((s.updatePeer p fun pl => { pl with sentRequests := pl.sentRequests.erase piece }).receivedMetadata
      maxMetadataSize p now msg.payload piece (toInt (msg.totalSize.getD 0)) result random).maybeSendRequest p now
  else s

/-- A peer that does not have a piece. -/
def onDontHave (p : ℕ) (now : ℤ) (piece : ℤ) : UtMetadata :=
  s.updatePeer p fun pl =>
    { pl with
      requestLimit := max (now + seconds 60) pl.requestLimit
      sentRequests := pl.sentRequests.erase piece }

/-- `on_extended` -/
def onExtended (p : ℕ) (now : ℤ) (length : ℕ) (msg : Option ExtendedMsg) (sendBuffer : ℕ) (result : SetMetadata)
    (random : ℕ → ℕ) : UtMetadata :=
  if (s.peer p).messageIndex = 0 then s
  else if length > 17 * 1024 then s.updatePeer p fun pl => { pl with disconnecting := true }
  else
    match msg with
    | none => s.updatePeer p fun pl => { pl with disconnecting := true }
    | some msg =>
      -- the type is converted to eight bits
      match msg.msgType % 256 with
      | 0 => s.onRequest p (toInt msg.piece) sendBuffer
      | 1 => s.onPiece maxMetadataSize p now msg result random
      | 2 => s.onDontHave p now (toInt msg.piece)
      | _ => s

/-- The queued requests are served. -/
def serve (p : ℕ) : ℕ → UtMetadata → UtMetadata
  | 0, s => s
  | room + 1, s =>
    match (s.peer p).incomingRequests with
    | [] => s
    | piece :: rest =>
      serve p room ((s.updatePeer p fun pl => { pl with incomingRequests := rest }).writeMetadataPacket p .piece piece)

/-- `tick` of a peer. -/
def tick (p : ℕ) (now : ℤ) (room : ℕ) : UtMetadata := serve p room (s.maybeSendRequest p now)

/-- `torrent::set_metadata`, not called by the plugin. -/
def setMetadata : SetMetadata → UtMetadata
  | .accepted info => if s.ValidMetadata then s else { s with infoSection := some info }
  | _ => s

/-- One event. -/
def step : MetadataEvent → UtMetadata
  | .newConnection => { s with peers := s.peers ++ [{}] }
  | .onExtensionHandshake p now h => if (s.peer p).alive then s.onExtensionHandshake p now h else s
  | .onExtended p now length msg sendBuffer result random =>
    if (s.peer p).alive then s.onExtended maxMetadataSize p now length msg sendBuffer result random else s
  | .tick p now room => if (s.peer p).alive then s.tick p now room else s
  | .setHasMetadata p => s.updatePeer p fun pl => { pl with hasMetadata := true }
  | .disconnect p => s.updatePeer p fun pl => { pl with disconnecting := true }
  | .destroy p => s.updatePeer p fun pl => { pl with alive := false }
  | .setMetadata result => s.setMetadata result

end Model

/-- The bytes of slot `i` are those of message `n`. -/
def CarriedBy (metadata : List MetadataByte) (n : ℕ) (m : BlockMessage) (i : ℕ) : Prop :=
  ∀ j, i * slotSize ≤ j → j < (i + 1) * slotSize → j < metadata.length →
    m.offset ≤ j ∧ ∃ v, m.payload[j - m.offset]? = some v ∧ metadata[j]? = some ⟨v, some n⟩

/-- The bytes of slot `i` are from one message. -/
def Whole (messages : List BlockMessage) (metadata : List MetadataByte) (i : ℕ) : Prop :=
  ∃ n m, messages[n]? = some m ∧ CarriedBy metadata n m i

/-- `set_metadata` follows each time that all slots become held. -/
def Paired : List Completion → Prop
  | [] => True
  | .allHeld :: .setMetadata :: l => Paired l
  | _ => False

/-- `data` is slot `piece` of the info section. -/
def IsSlice (info : List UInt8) (piece : ℤ) (data : List UInt8) : Prop :=
  0 ≤ piece ∧ piece * slotSize < info.length ∧ data = (info.drop (piece.toNat * slotSize)).take slotSize

/-- The download is sound. -/
structure Sound (s : UtMetadata) : Prop where
  held : s.infoSection = none →
    ∀ i mp, s.requestedMetadata[i]? = some mp → mp.Held → Whole s.messages s.metadata i
  completions : Paired s.completions
  requests : ∀ c ∈ s.requests, c < intMax
  sent : ∀ pk ∈ s.sent, pk.type = .piece → ∃ info, s.infoSection = some info ∧ IsSlice info pk.piece pk.data

section Condition

variable (s : UtMetadata)

/-- No counter is one request from the value that marks a held slot. -/
def FewRequests : Prop := ∀ mp ∈ s.requestedMetadata, mp.numRequests + 1 ≠ intMax

instance : Decidable s.FewRequests := inferInstanceAs (Decidable (∀ _ ∈ _, _))

/-- With the new size no held slot gets more bytes, and a slot is left that is not held. -/
def SizeFits (size : ℕ) : Prop :=
  (∀ i, ∀ h : i < s.requestedMetadata.length, s.requestedMetadata[i].Held →
    size ≤ s.metadata.length ∨ (i + 1) * slotSize ≤ s.metadata.length) ∧
  (s.requestedMetadata.length < divRoundUp size slotSize ∨
    ∃ mp ∈ s.requestedMetadata.take (divRoundUp size slotSize), ¬ mp.Held)

instance (size : ℕ) : Decidable (s.SizeFits size) := inferInstanceAs (Decidable (_ ∧ _))

/-- The payload fills its slot, and it reaches into a held slot only if it fills that one too. -/
def PayloadFits (piece : ℕ) (buf : List UInt8) (totalSize : ℕ) : Prop :=
  min ((piece + 1) * slotSize) totalSize ≤ piece * slotSize + buf.length ∧
  ∀ i, ∀ h : i < s.requestedMetadata.length, piece < i → s.requestedMetadata[i].Held →
    piece * slotSize + buf.length ≤ i * slotSize ∨
      min ((i + 1) * slotSize) totalSize ≤ piece * slotSize + buf.length

instance (piece : ℕ) (buf : List UInt8) (totalSize : ℕ) : Decidable (s.PayloadFits piece buf totalSize) :=
  inferInstanceAs (Decidable (_ ∧ _))

/-- A piece is asked for and agrees with what we know about the size. -/
def Wanted (maxMetadataSize : ℤ) (p : ℕ) (m : ExtendedMsg) : Prop :=
  m.msgType % 256 = 1 ∧ toInt m.piece ∈ (s.peer p).sentRequests ∧ 0 ≤ toInt m.piece ∧
  (if s.metadata = [] then
    0 < toInt (m.totalSize.getD 0) ∧ toInt (m.totalSize.getD 0) ≤ maxMetadataSize
  else toInt (m.totalSize.getD 0) = s.metadata.length) ∧
  toInt m.piece * slotSize + m.payload.length ≤ toInt (m.totalSize.getD 0)

instance (maxMetadataSize : ℤ) (p : ℕ) (m : ExtendedMsg) : Decidable (s.Wanted maxMetadataSize p m) :=
  inferInstanceAs (Decidable (_ ∧ _))

/-- The condition under which a step keeps the download sound. -/
def Fair (maxMetadataSize : ℤ) : MetadataEvent → Prop
  | .onExtensionHandshake _ _ h =>
    s.infoSection = none → ∀ h' ∈ h, toInt (h'.utMetadata.getD (-1)) ≠ -1 → s.FewRequests ∧
      (0 < toInt (h'.metadataSize.getD 0) → toInt (h'.metadataSize.getD 0) ≤ 4 * 1024 * 1024 →
        s.SizeFits (toInt (h'.metadataSize.getD 0)).toNat)
  | .onExtended p _ _ msg _ _ _ =>
    s.infoSection = none → s.FewRequests ∧
      ∀ m ∈ msg, s.Wanted maxMetadataSize p m →
        s.PayloadFits (toInt m.piece).toNat m.payload (toInt (m.totalSize.getD 0)).toNat
  | .tick _ _ _ => s.infoSection = none → s.FewRequests
  | .setMetadata (.accepted info) =>
    s.infoSection = none → s.metadata = [] ∨ s.metadata.map MetadataByte.value = info
  | _ => True

instance (maxMetadataSize : ℤ) (e : MetadataEvent) : Decidable (s.Fair maxMetadataSize e) := by
  unfold Fair
  split <;> infer_instance

end Condition

/-- Every step of a run meets the condition. -/
def FairRun (maxMetadataSize : ℤ) : UtMetadata → List MetadataEvent → Prop
  | _, [] => True
  | s, e :: es => s.Fair maxMetadataSize e ∧ FairRun maxMetadataSize (s.step maxMetadataSize e) es

instance decidableFairRun (maxMetadataSize : ℤ) :
    (s : UtMetadata) → (es : List MetadataEvent) → Decidable (FairRun maxMetadataSize s es)
  | _, [] => isTrue trivial
  | s, e :: es =>
    have := decidableFairRun maxMetadataSize (s.step maxMetadataSize e) es
    inferInstanceAs (Decidable (_ ∧ _))

/-! ### Buffers and tables -/

section Lists

variable {α : Type}

/-- The vector has its new length. -/
theorem length_resize (l : List α) (n : ℕ) (a : α) : (resize l n a).length = n := by
  simp [resize]
  omega

/-- Old elements are kept. -/
theorem getElem?_resize_left {l : List α} {n i : ℕ} (a : α) (hn : i < n) (hl : i < l.length) :
    (resize l n a)[i]? = l[i]? := by
  rw [resize, List.getElem?_append_left (by simp; omega), List.getElem?_take_of_lt hn]

/-- New ones are all the same. -/
theorem getElem?_resize_right {l : List α} {n i : ℕ} (a : α) (hn : i < n) (hl : l.length ≤ i) :
    (resize l n a)[i]? = some a := by
  rw [resize, List.getElem?_append_right (by simp; omega), List.getElem?_replicate]
  simp
  omega

/-- Nothing else is in it. -/
theorem mem_resize {l : List α} {n : ℕ} {a x : α} (hx : x ∈ resize l n a) : x ∈ l ∨ x = a := by
  rw [resize, List.mem_append] at hx
  rcases hx with h | h
  · exact Or.inl (List.mem_of_mem_take h)
  · exact Or.inr (List.eq_of_mem_replicate h)

/-- Bytes are copied over others. -/
theorem length_memcpy {l data : List α} {offset : ℕ} (h : offset + data.length ≤ l.length) :
    (memcpy l offset data).length = l.length := by
  simp [memcpy]
  omega

/-- They are there afterwards. -/
theorem getElem?_memcpy_inside {l data : List α} {offset j : ℕ} (h : offset + data.length ≤ l.length)
    (hl : offset ≤ j) (hu : j < offset + data.length) : (memcpy l offset data)[j]? = data[j - offset]? := by
  have htake : (l.take offset).length = offset := by simp; omega
  rw [memcpy, List.append_assoc, List.getElem?_append_right (by omega), htake,
    List.getElem?_append_left (by omega)]

/-- The others are kept. -/
theorem getElem?_memcpy_outside {l data : List α} {offset j : ℕ} (h : offset + data.length ≤ l.length)
    (hj : j < offset ∨ offset + data.length ≤ j) : (memcpy l offset data)[j]? = l[j]? := by
  have htake : (l.take offset).length = offset := by simp; omega
  rcases hj with hj | hj
  · rw [memcpy, List.append_assoc, List.getElem?_append_left (by omega), List.getElem?_take_of_lt hj]
  · rw [memcpy, List.getElem?_append_right (by simp; omega), List.getElem?_drop]
    congr 1
    simp
    omega

end Lists

/-- Some piece has been requested least. -/
theorem exists_least (t : List MetadataPiece) (h : t ≠ []) :
    ∃ mp ∈ t, ∀ mp' ∈ t, mp.numRequests ≤ mp'.numRequests := by
  induction t with
  | nil => exact absurd rfl h
  | cons a t ih =>
    rcases eq_or_ne t [] with rfl | ht
    · exact ⟨a, by simp, by simp⟩
    · obtain ⟨b, hb, hle⟩ := ih ht
      rcases le_total a.numRequests b.numRequests with hab | hba
      · refine ⟨a, by simp, fun c hc => ?_⟩
        rcases List.mem_cons.mp hc with rfl | hc
        · exact le_rfl
        · exact hab.trans (hle c hc)
      · refine ⟨b, by simp [hb], fun c hc => ?_⟩
        rcases List.mem_cons.mp hc with rfl | hc
        · exact hba
        · exact hle c hc

/-- `min_element` is a piece. -/
theorem minElement_lt {t : List MetadataPiece} (h : t ≠ []) : minElement t < t.length := by
  obtain ⟨mp, hm, hle⟩ := exists_least t h
  exact List.findIdx_lt_length_of_exists ⟨mp, hm, by simpa using hle⟩

/-- No piece has been requested less. -/
theorem minElement_le {t : List MetadataPiece} (h : t ≠ []) :
    ∀ mp ∈ t, (t.getD (minElement t) {}).numRequests ≤ mp.numRequests := by
  have hlt := minElement_lt h
  have hmin := @List.findIdx_getElem _ _ t hlt
  rw [List.getD_eq_getElem?_getD, List.getElem?_eq_getElem hlt]
  intro mp hmp
  exact of_decide_eq_true (List.all_eq_true.mp hmin mp hmp)

/-- A number that fits is not cut. -/
theorem toInt_of_lt {n : ℤ} (h0 : 0 ≤ n) (h : n ≤ intMax) : toInt n = n := by
  unfold intMax at h
  exact Int.bmod_eq_of_le (by omega) (by omega)

/-- Metadata has a piece. -/
theorem divRoundUp_pos {n : ℕ} (h : 0 < n) : 0 < divRoundUp n slotSize := by
  unfold divRoundUp slotSize
  omega

/-- A piece begins before the end. -/
theorem lt_divRoundUp {n : ℕ} {i : ℤ} : i < divRoundUp n slotSize ↔ i * slotSize < n := by
  unfold divRoundUp slotSize
  omega

/-! ### The invariant -/

/-- A queued piece is one of the info section. -/
def Served (s : UtMetadata) (piece : ℤ) : Prop :=
  ∃ info, s.infoSection = some info ∧ 0 ≤ piece ∧ piece * slotSize < info.length

/-- What holds between the messages. -/
structure Inv (s : UtMetadata) : Prop extends Sound s where
  unfinished : s.infoSection = none → ¬ AllHeld s.requestedMetadata
  short : s.infoSection = none → s.metadata = [] → s.requestedMetadata.length ≤ 1
  counters : ∀ mp ∈ s.requestedMetadata, 0 ≤ mp.numRequests ∧ mp.numRequests ≤ intMax
  buffer : ∀ info, s.infoSection = some info → s.metadata = [] ∨ s.metadata.map MetadataByte.value = info
  incoming : ∀ pl ∈ s.peers, ∀ piece ∈ pl.incomingRequests, s.Served piece

/-- Nothing is known at first. -/
theorem Inv.init : Inv {} := by
  refine ⟨⟨?_, trivial, by simp, by simp⟩, ?_, by simp, by simp, by simp, by simp⟩
  · intro _ i mp hi
    simp at hi
  · intro _ h
    exact h.1 rfl

/-- Metadata that is complete is set at once. -/
theorem Paired.append {l : List Completion} (h : Paired l) : Paired (l ++ [.allHeld, .setMetadata]) := by
  induction l using Paired.induct with
  | case1 => trivial
  | case2 l ih => exact ih h
  | case3 l h₁ h₂ => exact absurd h (by simp [Paired])

/-- `s'` is `s` with other peers, which have no other requests to serve. -/
structure SamePieces (s s' : UtMetadata) : Prop where
  eq : s' = { s with peers := s'.peers }
  incoming : ∀ pl ∈ s'.peers, ∀ piece ∈ pl.incomingRequests, s.Served piece ∨
    ∃ pl' ∈ s.peers, piece ∈ pl'.incomingRequests

theorem SamePieces.refl (s : UtMetadata) : SamePieces s s :=
  ⟨rfl, fun pl hpl _ hq => Or.inr ⟨pl, hpl, hq⟩⟩

/-- What may be served depends on the pieces. -/
theorem SamePieces.served {s s' : UtMetadata} (h : SamePieces s s') (piece : ℤ) :
    s'.Served piece ↔ s.Served piece := by
  rw [h.eq]
  rfl

theorem SamePieces.trans {s₁ s₂ s₃ : UtMetadata} (h₁₂ : SamePieces s₁ s₂) (h₂₃ : SamePieces s₂ s₃) :
    SamePieces s₁ s₃ := by
  refine ⟨?_, fun pl hpl piece hq => ?_⟩
  · rw [h₂₃.eq, h₁₂.eq]
  · rcases h₂₃.incoming pl hpl piece hq with h | ⟨pl', hpl', hq'⟩
    · exact Or.inl ((h₁₂.served piece).mp h)
    · exact h₁₂.incoming pl' hpl' piece hq'

/-- A change of a peer is none of the pieces. -/
theorem samePieces_updatePeer (s : UtMetadata) (p : ℕ) {f : PeerPlugin → PeerPlugin}
    (hf : ∀ pl, ∀ piece ∈ (f pl).incomingRequests, piece ∈ pl.incomingRequests ∨ s.Served piece) :
    SamePieces s (s.updatePeer p f) := by
  refine ⟨rfl, fun pl hpl piece hq => ?_⟩
  obtain ⟨i, hi, rfl⟩ := List.mem_iff_getElem.mp hpl
  simp only [updatePeer, List.length_modify] at hi
  simp only [updatePeer, List.getElem_modify] at hq
  split at hq
  · rcases hf _ piece hq with h | h
    · exact Or.inr ⟨_, List.getElem_mem hi, h⟩
    · exact Or.inl h
  · exact Or.inr ⟨_, List.getElem_mem hi, hq⟩

/-- The invariant is about the pieces. -/
theorem Inv.samePieces {s s' : UtMetadata} (h : Inv s) (hs : SamePieces s s') : Inv s' := by
  have hin : ∀ pl ∈ s'.peers, ∀ piece ∈ pl.incomingRequests, s.Served piece := by
    intro pl hpl piece hq
    rcases hs.incoming pl hpl piece hq with h' | ⟨pl', hpl', hq'⟩
    · exact h'
    · exact h.incoming pl' hpl' piece hq'
  rw [hs.eq]
  exact ⟨⟨h.held, h.completions, h.requests, h.sent⟩, h.unfinished, h.short, h.counters, h.buffer, hin⟩

/-- The span is the info section, once it is there. -/
theorem Inv.metadataSpan_eq {s : UtMetadata} (h : Inv s) {info : List UInt8} (hi : s.infoSection = some info) :
    s.metadataSpan = info := by
  unfold metadataSpan
  split
  · rename_i hne
    exact (h.buffer info hi).resolve_left hne
  · simp [hi]

/-- What is sent is a part of the metadata. -/
theorem isSlice_slotOf {info : List UInt8} {piece : ℤ} (h0 : 0 ≤ piece) (h : piece * slotSize < info.length) :
    IsSlice info piece (slotOf info piece) := by
  obtain ⟨k, rfl⟩ := Int.eq_ofNat_of_zero_le h0
  refine ⟨h0, h, ?_⟩
  have hoff : ((k : ℤ) * slotSize).toNat = k * slotSize := by
    rw [← Nat.cast_mul]
    exact Int.toNat_natCast _
  rw [slotOf, hoff, Int.toNat_natCast]
  rcases le_total (info.length - k * slotSize) slotSize with hle | hle
  · rw [List.take_of_length_le (by simp; omega), List.take_of_length_le (by simp; omega)]
  · congr 1
    omega

/-- A piece that may be served is sent. -/
theorem Inv.writeMetadataPacket {s : UtMetadata} (h : Inv s) (p : ℕ) (type : MetadataMsg) (piece : ℤ)
    (hp : type = .piece → s.Served piece) : Inv (s.writeMetadataPacket p type piece) := by
  unfold UtMetadata.writeMetadataPacket
  split
  · exact h
  refine ⟨⟨h.held, h.completions, h.requests, ?_⟩, h.unfinished, h.short, h.counters, h.buffer, h.incoming⟩
  intro pk hpk htype
  rcases List.mem_append.mp hpk with hpk | hpk
  · exact h.sent pk hpk htype
  · obtain rfl := List.mem_singleton.mp hpk
    obtain ⟨info, hinfo, h0, hlt⟩ := hp htype
    refine ⟨info, hinfo, ?_⟩
    have hspan := h.metadataSpan_eq hinfo
    simp only at htype
    simpa [htype, hspan] using isSlice_slotOf h0 hlt

/-- A new table, of which not all slots are held. -/
theorem Inv.withTable {s : UtMetadata} (h : Inv s) (hn : s.infoSection = none) {metadata : List MetadataByte}
    {requests : List ℤ} {messages : List BlockMessage} {t : List MetadataPiece}
    (held : ∀ i mp, t[i]? = some mp → mp.Held → Whole messages metadata i) (unfinished : ¬ AllHeld t)
    (short : metadata = [] → t.length ≤ 1) (counters : ∀ mp ∈ t, 0 ≤ mp.numRequests ∧ mp.numRequests ≤ intMax)
    (hreq : ∀ c ∈ requests, c < intMax) :
    Inv ({ s with metadata := metadata, requests := requests, messages := messages }.withTable t) := by
  unfold UtMetadata.withTable
  rw [if_neg (fun hc => unfinished hc.2)]
  refine ⟨⟨fun _ => held, h.completions, hreq, h.sent⟩, fun _ => unfinished, fun _ => short, counters, ?_, h.incoming⟩
  intro info hinfo
  exact absurd (hn.symm.trans hinfo) (by simp)

/-- A piece stays whole if it is not cut off. -/
theorem Whole.shrink {messages : List BlockMessage} {metadata : List MetadataByte} {i size : ℕ}
    (h : Whole messages metadata i) (hs : size ≤ metadata.length ∨ (i + 1) * slotSize ≤ metadata.length) :
    Whole messages (resize metadata size {}) i := by
  obtain ⟨n, m, hm, hc⟩ := h
  refine ⟨n, m, hm, fun j hl hu hj => ?_⟩
  rw [length_resize] at hj
  have hj' : j < metadata.length := by omega
  rw [getElem?_resize_left _ hj hj']
  exact hc j hl hu hj'

/-- The vectors get the size of the metadata. -/
theorem Inv.resize {s : UtMetadata} (h : Inv s) (hn : s.infoSection = none) {size : ℕ} (h0 : 0 < size)
    (hfit : s.SizeFits size) :
    Inv ({ s with metadata := resize s.metadata size {} }.withTable
      (Peer.resize s.requestedMetadata (divRoundUp size slotSize) {})) := by
  obtain ⟨hgrow, hleft⟩ := hfit
  refine h.withTable hn ?_ ?_ ?_ ?_ h.requests
  · intro i mp hi hheld
    have hlt : i < divRoundUp size slotSize := by
      have := (List.getElem?_eq_some_iff.mp hi).1
      rwa [length_resize] at this
    rcases Nat.lt_or_ge i s.requestedMetadata.length with hil | hil
    · rw [getElem?_resize_left _ hlt hil] at hi
      refine (h.held hn i mp hi hheld).shrink (hgrow i hil ?_)
      obtain ⟨_, rfl⟩ := List.getElem?_eq_some_iff.mp hi
      exact hheld
    · rw [getElem?_resize_right _ hlt hil] at hi
      obtain rfl := Option.some.inj hi
      exact absurd hheld (by decide)
  · rintro ⟨_, hall⟩
    rcases hleft with hlt | ⟨mp, hmp, hnot⟩
    · have hmem : ({} : MetadataPiece) ∈ Peer.resize s.requestedMetadata (divRoundUp size slotSize) {} :=
        List.mem_of_getElem? (getElem?_resize_right _ hlt le_rfl)
      exact absurd (hall _ hmem) (by decide)
    · exact hnot (hall mp (List.mem_append_left _ hmp))
  · intro hnil
    have hlen := congrArg List.length hnil
    rw [length_resize] at hlen
    exact absurd hlen (by simp; omega)
  · intro mp hmp
    rcases mem_resize hmp with hmp | rfl
    · exact h.counters mp hmp
    · decide

/-- A size that fits is taken over. -/
theorem Inv.metadataSize {s : UtMetadata} (h : Inv s) {size : ℤ}
    (hfit : s.infoSection = none → 0 < size → size ≤ 4 * 1024 * 1024 → s.SizeFits size.toNat) :
    Inv (s.metadataSize size) := by
  unfold UtMetadata.metadataSize
  split
  · exact h
  rename_i hv
  split
  · exact h
  rename_i hsize
  have hn : s.infoSection = none := by simpa [ValidMetadata] using hv
  exact h.resize hn (by omega) (hfit hn (by omega) (by omega))

/-- A request goes to a slot that is not held, and does not make it held. -/
theorem Inv.metadataRequest {s : UtMetadata} (h : Inv s) (hn : s.infoSection = none) (hf : s.FewRequests) (now : ℤ)
    (hasMetadata : Bool) : Inv (s.metadataRequest now hasMetadata).1 := by
  unfold UtMetadata.metadataRequest
  set t := if s.requestedMetadata = [] then [{}] else s.requestedMetadata with ht
  have hne : t ≠ [] := by
    rw [ht]
    split <;> simp_all
  have hmem : ∀ mp ∈ t, mp = {} ∨ mp ∈ s.requestedMetadata := by
    intro mp hmp
    rw [ht] at hmp
    split at hmp
    · exact Or.inl (List.mem_singleton.mp hmp)
    · exact Or.inr hmp
  have hcounters : ∀ mp ∈ t, 0 ≤ mp.numRequests ∧ mp.numRequests ≤ intMax := by
    intro mp hmp
    rcases hmem mp hmp with rfl | hmp
    · decide
    · exact h.counters mp hmp
  have hheld : ∀ i mp, t[i]? = some mp → mp.Held → Whole s.messages s.metadata i := by
    intro i mp hi hh
    rw [ht] at hi
    split at hi
    · obtain rfl := List.mem_singleton.mp (List.mem_of_getElem? hi)
      exact absurd hh (by decide)
    · exact h.held hn i mp hi hh
  have hnotAll : ¬ AllHeld t := by
    rw [ht]
    split
    · exact fun ha => absurd (ha.2 {} (by simp)) (by decide)
    · exact h.unfinished hn
  have hshort : s.metadata = [] → t.length ≤ 1 := by
    intro hm
    rw [ht]
    split
    · simp
    · exact h.short hn hm
  have hlt := minElement_lt hne
  have hle := minElement_le hne
  set mp := t.getD (minElement t) {} with hmp
  have hmpmem : mp ∈ t := by
    rw [hmp, List.getD_eq_getElem?_getD, List.getElem?_eq_getElem hlt]
    exact List.getElem_mem hlt
  have hcount : mp.numRequests < intMax := by
    by_contra hge
    refine hnotAll ⟨hne, fun mp' hmp' => ?_⟩
    have h₁ := hle mp' hmp'
    have h₂ := (hcounters mp' hmp').2
    show mp'.numRequests = intMax
    omega
  have hnext : mp.numRequests + 1 ≠ intMax := by
    rcases hmem mp hmpmem with hmp' | hmp'
    · rw [hmp']
      decide
    · exact hf mp hmp'
  have hbound := (hcounters mp hmpmem).1
  have hint : toInt (mp.numRequests + 1) = mp.numRequests + 1 := toInt_of_lt (by omega) (by omega)
  dsimp only
  split
  · exact h.withTable hn hheld hnotAll hshort hcounters h.requests
  · refine h.withTable hn ?_ ?_ ?_ ?_ ?_
    · intro i mp' hi hh
      rcases eq_or_ne (minElement t) i with rfl | hi'
      · rw [List.getElem?_set_self hlt] at hi
        obtain rfl := Option.some.inj hi
        exact absurd (hint.symm.trans hh) hnext
      · rw [List.getElem?_set_ne hi'] at hi
        exact hheld i mp' hi hh
    · rintro ⟨_, hall⟩
      have := hall _ (List.mem_set hlt _)
      exact absurd (hint.symm.trans this) hnext
    · simpa using hshort
    · intro mp' hmp'
      rcases List.mem_or_eq_of_mem_set hmp' with hmp' | rfl
      · exact hcounters mp' hmp'
      · have : 0 ≤ mp.numRequests + 1 ∧ mp.numRequests + 1 ≤ intMax := by omega
        rwa [← hint] at this
    · intro c hc
      rcases List.mem_append.mp hc with hc | hc
      · exact h.requests c hc
      · obtain rfl := List.mem_singleton.mp hc
        exact hcount

/-- A request is sent. -/
theorem Inv.maybeSendRequest {s : UtMetadata} (h : Inv s) (p : ℕ) (now : ℤ)
    (hf : s.infoSection = none → s.FewRequests) : Inv (s.maybeSendRequest p now) := by
  unfold UtMetadata.maybeSendRequest
  dsimp only
  split
  · exact h
  split
  · rename_i hcond
    have hn : s.infoSection = none := by simpa [ValidMetadata] using hcond.1
    have hreq := h.metadataRequest hn (hf hn) now (s.peer p).hasMetadata
    split
    · rename_i heq
      rwa [heq] at hreq
    · rename_i piece heq
      rw [heq] at hreq
      refine (hreq.samePieces (samePieces_updatePeer _ p ?_)).writeMetadataPacket p .request piece (by simp)
      exact fun pl q hq => Or.inl hq
  · exact h

/-! ### A piece is received -/

section Receive

variable {s : UtMetadata} {p piece : ℕ} {buf : List UInt8}

@[simp]
theorem storePiece_requestedMetadata : (s.storePiece p piece buf).requestedMetadata =
    s.requestedMetadata.set piece
      { s.requestedMetadata.getD piece {} with numRequests := intMax, source := some p } := rfl

/-- The payload of a message is copied into the metadata. -/
theorem storePiece_metadata : (s.storePiece p piece buf).metadata =
    memcpy s.metadata (piece * slotSize) (buf.map fun v => ⟨v, some s.messages.length⟩) := rfl

@[simp]
theorem storePiece_messages : (s.storePiece p piece buf).messages = s.messages ++ [⟨p, piece, buf⟩] := rfl

/-- The metadata keeps its length. -/
theorem length_storePiece (hlen : piece * slotSize + buf.length ≤ s.metadata.length) :
    (s.storePiece p piece buf).metadata.length = s.metadata.length := by
  rw [storePiece_metadata, length_memcpy (by simpa using hlen)]

/-- Metadata that is empty then was empty before. -/
theorem storePiece_eq_nil (hlen : piece * slotSize + buf.length ≤ s.metadata.length)
    (h : (s.storePiece p piece buf).metadata = []) : s.metadata = [] := by
  have := length_storePiece (p := p) hlen
  rw [h] at this
  exact List.length_eq_zero_iff.mp this.symm

/-- The piece is whole after that. -/
theorem whole_stored (hlen : piece * slotSize + buf.length ≤ s.metadata.length)
    (hfit : s.PayloadFits piece buf s.metadata.length) {i : ℕ}
    (hi : i = piece ∨ piece < i ∧ min ((i + 1) * slotSize) s.metadata.length ≤ piece * slotSize + buf.length) :
    Whole (s.storePiece p piece buf).messages (s.storePiece p piece buf).metadata i := by
  have hcover : min ((i + 1) * slotSize) s.metadata.length ≤ piece * slotSize + buf.length := by
    rcases hi with rfl | hi
    · exact hfit.1
    · exact hi.2
  have hstart : piece * slotSize ≤ i * slotSize := by
    refine Nat.mul_le_mul_right _ ?_
    omega
  refine ⟨s.messages.length, ⟨p, piece, buf⟩, by simp, fun j hl hu hj => ?_⟩
  rw [length_storePiece hlen] at hj
  have hin : j - piece * slotSize < buf.length := by omega
  refine ⟨hstart.trans hl, buf[j - piece * slotSize], List.getElem?_eq_getElem hin, ?_⟩
  rw [storePiece_metadata, getElem?_memcpy_inside (by simpa using hlen) (hstart.trans hl) (by simp; omega)]
  simp [hin]

/-- Another piece stays whole. -/
theorem Whole.outside {i : ℕ} (hlen : piece * slotSize + buf.length ≤ s.metadata.length)
    (hi : i < piece ∨ piece * slotSize + buf.length ≤ i * slotSize) (h : Whole s.messages s.metadata i) :
    Whole (s.storePiece p piece buf).messages (s.storePiece p piece buf).metadata i := by
  obtain ⟨n, m, hm, hc⟩ := h
  have hn := (List.getElem?_eq_some_iff.mp hm).1
  refine ⟨n, m, by simpa [List.getElem?_append_left hn] using hm, fun j hl hu hj => ?_⟩
  rw [length_storePiece hlen] at hj
  have hout : j < piece * slotSize ∨ piece * slotSize + buf.length ≤ j := by
    rcases hi with hi | hi
    · have : (i + 1) * slotSize ≤ piece * slotSize := Nat.mul_le_mul_right _ hi
      exact Or.inl (by omega)
    · exact Or.inr (hi.trans hl)
  rw [storePiece_metadata, getElem?_memcpy_outside (by simpa using hlen) (by simpa using hout)]
  exact hc j hl hu hj

/-- Pieces that are held are whole. -/
theorem Inv.held_stored (h : Inv s) (hn : s.infoSection = none)
    (hlen : piece * slotSize + buf.length ≤ s.metadata.length) (hfit : s.PayloadFits piece buf s.metadata.length)
    {i : ℕ} {mp : MetadataPiece} (hi : (s.storePiece p piece buf).requestedMetadata[i]? = some mp) (hheld : mp.Held) :
    Whole (s.storePiece p piece buf).messages (s.storePiece p piece buf).metadata i := by
  rcases eq_or_ne piece i with rfl | hne
  · exact whole_stored hlen hfit (Or.inl rfl)
  have hi' : s.requestedMetadata[i]? = some mp := by
    simpa [List.getElem?_set_ne hne] using hi
  have hold := h.held hn i mp hi' hheld
  obtain ⟨hlt, rfl⟩ := List.getElem?_eq_some_iff.mp hi'
  rcases Nat.lt_or_gt_of_ne hne with hgt | hgt
  · rcases hfit.2 i hlt hgt hheld with hout | hcover
    · exact hold.outside hlen (Or.inr hout)
    · exact whole_stored hlen hfit (Or.inr ⟨hgt, hcover⟩)
  · exact hold.outside hlen (Or.inl hgt)

/-- The counters of the table with the slot marked. -/
theorem mem_stored {mp : MetadataPiece} (buf : List UInt8)
    (hmp : mp ∈ (s.storePiece p piece buf).requestedMetadata) :
    mp ∈ s.requestedMetadata ∨ mp.Held := by
  rcases List.mem_or_eq_of_mem_set hmp with hmp | rfl
  · exact Or.inl hmp
  · exact Or.inr rfl

/-- A failed hash check only makes peers wait. -/
theorem samePieces_failedHashCheck (s : UtMetadata) (now : ℤ) (random : ℕ → ℕ) :
    SamePieces s (s.failedHashCheck now random) := by
  unfold failedHashCheck
  dsimp only
  generalize s.requestedMetadata.zipIdx = l
  generalize (if s.requestedMetadata.length = 1 then now + seconds (5 * 60) else now) = now'
  induction l generalizing s with
  | nil => exact SamePieces.refl s
  | cons x l ih =>
    rw [List.foldl_cons]
    refine SamePieces.trans ?_ (ih _)
    split
    · exact SamePieces.refl s
    · refine samePieces_updatePeer s _ fun pl q hq => ?_
      split at hq <;> exact Or.inl hq

/-- The last slot is stored, and `set_metadata` is called. -/
theorem Inv.complete (h : Inv s) (hn : s.infoSection = none) (now : ℤ) (result : SetMetadata) (random : ℕ → ℕ)
    (hlen : piece * slotSize + buf.length ≤ s.metadata.length)
    (hall : AllHeld (s.storePiece p piece buf).requestedMetadata) :
    Inv ((s.storePiece p piece buf).trySetMetadata now result random) := by
  have hpaired : Paired ((s.storePiece p piece buf).completions ++ [.setMetadata]) := by
    have hc : (s.storePiece p piece buf).completions = s.completions ++ [.allHeld] :=
      if_pos ⟨h.unfinished hn, hall⟩
    rw [hc, List.append_assoc]
    exact h.completions.append
  have hnot : ¬ AllHeld [] := fun ha => ha.1 rfl
  have hsent : ∀ pk ∈ s.sent, pk.type ≠ .piece := by
    intro pk hpk htype
    obtain ⟨info, hinfo, _⟩ := h.sent pk hpk htype
    exact absurd (hn.symm.trans hinfo) (by simp)
  have hserved : ∀ piece, ¬ s.Served piece := by
    rintro q ⟨info, hinfo, _⟩
    exact absurd (hn.symm.trans hinfo) (by simp)
  unfold trySetMetadata
  rw [if_pos hall]
  cases result with
  | rejected =>
    dsimp only
    have hsame := samePieces_failedHashCheck
      { s.storePiece p piece buf with completions := (s.storePiece p piece buf).completions ++ [.setMetadata] } now random
    rw [hsame.eq]
    set t := (s.storePiece p piece buf).requestedMetadata.map fun mp => { mp with numRequests := 0 } with ht
    have hzero : ∀ mp ∈ t, mp.numRequests = 0 := by
      intro mp hmp
      obtain ⟨_, _, rfl⟩ := List.mem_map.mp hmp
      rfl
    have hnotHeld : ∀ mp ∈ t, ¬ mp.Held := by
      intro mp hmp hh
      exact absurd ((hzero mp hmp).symm.trans hh) (by decide)
    have hnotAll : ¬ AllHeld t := by
      rintro ⟨hne, hall'⟩
      obtain ⟨mp, hmp⟩ := List.exists_mem_of_ne_nil t hne
      exact hnotHeld mp hmp (hall' mp hmp)
    unfold UtMetadata.withTable
    rw [if_neg (fun hc => hnotAll hc.2)]
    refine ⟨⟨fun _ i mp hi hh => ?_, hpaired, h.requests, h.sent⟩, fun _ => hnotAll, ?_, ?_, ?_, ?_⟩
    · exact absurd hh (hnotHeld mp (List.mem_of_getElem? hi))
    · intro _ hnil
      simpa [ht] using h.short hn (storePiece_eq_nil (p := p) hlen hnil)
    · intro mp hmp
      rw [hzero mp hmp]
      decide
    · intro info hinfo
      exact absurd (hn.symm.trans hinfo) (by simp)
    · intro pl hpl q hq
      rcases hsame.incoming pl hpl q hq with hs | ⟨pl', hpl', hq'⟩
      · exact absurd hs (hserved q)
      · exact absurd (h.incoming pl' hpl' q hq') (hserved q)
  | dropped =>
    dsimp only [UtMetadata.withTable]
    rw [if_neg (fun hc => hnot hc.2)]
    exact ⟨⟨fun _ i mp hi => by simp at hi, hpaired, h.requests, h.sent⟩, fun _ => hnot, fun _ _ => by simp, by simp,
      fun _ _ => Or.inl rfl, h.incoming⟩
  | accepted info =>
    dsimp only [UtMetadata.withTable]
    rw [if_neg (fun hc => hnot hc.2)]
    refine ⟨⟨fun _ i mp hi => by simp at hi, hpaired, h.requests, ?_⟩, fun _ => hnot, fun _ _ => by simp, by simp,
      fun _ _ => Or.inl rfl, ?_⟩
    · intro pk hpk htype
      exact absurd htype (hsent pk hpk)
    · intro pl hpl q hq
      exact absurd (h.incoming pl hpl q hq) (hserved q)

/-- A piece is stored, and the metadata is set if it is the last. -/
theorem Inv.store (h : Inv s) (hn : s.infoSection = none) (now : ℤ) (result : SetMetadata) (random : ℕ → ℕ)
    (hlen : piece * slotSize + buf.length ≤ s.metadata.length) (hfit : s.PayloadFits piece buf s.metadata.length) :
    Inv ((s.storePiece p piece buf).trySetMetadata now result random) := by
  by_cases hall : AllHeld (s.storePiece p piece buf).requestedMetadata
  · exact h.complete hn now result random hlen hall
  unfold trySetMetadata
  rw [if_neg hall]
  refine h.withTable hn (fun i mp hi hh => h.held_stored hn hlen hfit hi hh) hall ?_ ?_ h.requests
  · intro hnil
    simpa using h.short hn (storePiece_eq_nil (p := p) hlen hnil)
  · intro mp hmp
    rcases mem_stored buf hmp with hmp | hmp
    · exact h.counters mp hmp
    · rw [hmp]
      decide

end Receive

/-- The first message tells the size. -/
theorem Inv.start {s : UtMetadata} (h : Inv s) (hn : s.infoSection = none) (hm : s.metadata = []) {size : ℕ}
    (h0 : 0 < size) :
    Inv ({ s with metadata := Peer.resize [] size {} }.withTable
      (Peer.resize s.requestedMetadata (divRoundUp size slotSize) {})) := by
  have hshort := h.short hn hm
  have hnone : ∀ i, ∀ hi : i < s.requestedMetadata.length, ¬ s.requestedMetadata[i].Held := by
    intro i hi hh
    refine h.unfinished hn ⟨List.ne_nil_of_length_pos (by omega), fun _ hmp => ?_⟩
    obtain ⟨j, hj, rfl⟩ := List.mem_iff_getElem.mp hmp
    have hij : i = j := by omega
    subst hij
    exact hh
  have hpos := divRoundUp_pos h0
  rw [← hm]
  refine h.resize hn h0 ⟨fun i hi hh => absurd hh (hnone i hi), ?_⟩
  rcases Nat.lt_or_ge s.requestedMetadata.length (divRoundUp size slotSize) with hlt | hge
  · exact Or.inl hlt
  · have hlen : 0 < s.requestedMetadata.length := by omega
    refine Or.inr ⟨s.requestedMetadata[0], ?_, hnone 0 hlen⟩
    rw [List.mem_take_iff_getElem]
    exact ⟨0, by omega, rfl⟩

/-- A payload that fits in the metadata as it will be. -/
theorem PayloadFits.resize {s : UtMetadata} {piece size : ℕ} {buf : List UInt8} (h : s.PayloadFits piece buf size)
    (hm : s.metadata = []) (hn : s.infoSection = none) (hi : Inv s) :
    ({ s with metadata := Peer.resize [] size {} }.withTable
      (Peer.resize s.requestedMetadata (divRoundUp size slotSize) {})).PayloadFits piece buf size := by
  refine ⟨h.1, fun i hlt hgt hheld => ?_⟩
  change i < (Peer.resize s.requestedMetadata (divRoundUp size slotSize) {}).length at hlt
  change (Peer.resize s.requestedMetadata (divRoundUp size slotSize) {})[i].Held at hheld
  rcases mem_resize (List.getElem_mem hlt) with hmem | heq
  · -- the table had one slot at most, and piece 0 comes before
    have hshort := hi.short hn hm
    have hsome := List.getElem?_eq_getElem hlt
    rw [length_resize] at hlt
    rcases Nat.lt_or_ge i s.requestedMetadata.length with hil | hil
    · omega
    · rw [getElem?_resize_right _ hlt hil] at hsome
      rw [← Option.some.inj hsome] at hheld
      exact absurd hheld (by decide)
  · rw [heq] at hheld
    exact absurd hheld (by decide)

/-- A piece of metadata arrives. -/
theorem Inv.receivedMetadata {s : UtMetadata} (h : Inv s) {maxMetadataSize : ℤ} {p : ℕ} {buf : List UInt8}
    {piece totalSize : ℤ} (now : ℤ) (result : SetMetadata) (random : ℕ → ℕ)
    (hfit : s.infoSection = none → 0 ≤ piece →
      (if s.metadata = [] then 0 < totalSize ∧ totalSize ≤ maxMetadataSize else totalSize = s.metadata.length) →
      piece * slotSize + buf.length ≤ totalSize → s.PayloadFits piece.toNat buf totalSize.toNat) :
    Inv (s.receivedMetadata maxMetadataSize p now buf piece totalSize result random) := by
  unfold UtMetadata.receivedMetadata
  split
  · exact h
  rename_i hv
  have hn : s.infoSection = none := by simpa [ValidMetadata] using hv
  split
  · exact h
  rename_i hsize
  dsimp only
  set s₁ := if s.metadata = [] then
    { s with metadata := Peer.resize [] totalSize.toNat {} }.withTable
      (Peer.resize s.requestedMetadata (divRoundUp totalSize.toNat slotSize) {}) else s with hs₁
  have h₁ : Inv s₁ := by
    rw [hs₁]
    split
    · rename_i hm
      exact h.start hn hm (by have := mt (And.intro hm) hsize; omega)
    · exact h
  have hn₁ : s₁.infoSection = none := by
    rw [hs₁]
    split
    · exact hn
    · exact hn
  split
  · exact h₁
  split
  · exact h₁
  split
  · exact h₁
  rename_i hpiece htotal hend
  have h0 : 0 ≤ piece := by omega
  have hfit' := hfit hn h0
  have hcast : (piece.toNat : ℤ) = piece := Int.toNat_of_nonneg h0
  have hend' : piece.toNat * slotSize + buf.length ≤ s₁.metadata.length := by
    have : (piece.toNat : ℤ) * slotSize + buf.length ≤ s₁.metadata.length := by
      rw [hcast]
      omega
    exact_mod_cast this
  refine h₁.store hn₁ now result random hend' ?_
  have htotal' : totalSize = s₁.metadata.length := by omega
  have hnat : s₁.metadata.length = totalSize.toNat := by omega
  rw [hnat]
  have hle : piece * slotSize + buf.length ≤ totalSize := by omega
  rw [hs₁]
  split
  · rename_i hm
    have hrange := mt (And.intro hm) hsize
    exact (hfit' (by rw [if_pos hm]; omega) hle).resize hm hn h
  · rename_i hm
    refine hfit' ?_ hle
    rw [if_neg hm, htotal', hs₁, if_neg hm]

/-- The counters of the table after a message are those from before, or one of a held or a new slot. -/
theorem mem_receivedMetadata {s : UtMetadata} {maxMetadataSize : ℤ} {p : ℕ} {buf : List UInt8}
    {piece totalSize now : ℤ} {result : SetMetadata} {random : ℕ → ℕ} {mp : MetadataPiece}
    (hmp : mp ∈ (s.receivedMetadata maxMetadataSize p now buf piece totalSize result random).requestedMetadata) :
    mp ∈ s.requestedMetadata ∨ mp.Held ∨ mp.numRequests = 0 := by
  unfold UtMetadata.receivedMetadata at hmp
  split at hmp
  · exact Or.inl hmp
  split at hmp
  · exact Or.inl hmp
  dsimp only at hmp
  set s₁ := if s.metadata = [] then
    { s with metadata := Peer.resize [] totalSize.toNat {} }.withTable
      (Peer.resize s.requestedMetadata (divRoundUp totalSize.toNat slotSize) {}) else s with hs₁
  have h₁ : ∀ mp ∈ s₁.requestedMetadata, mp ∈ s.requestedMetadata ∨ mp.Held ∨ mp.numRequests = 0 := by
    intro mp hmp
    rw [hs₁] at hmp
    split at hmp
    · rcases mem_resize hmp with h | rfl
      · exact Or.inl h
      · exact Or.inr (Or.inr rfl)
    · exact Or.inl hmp
  split at hmp
  · exact h₁ mp hmp
  split at hmp
  · exact h₁ mp hmp
  split at hmp
  · exact h₁ mp hmp
  unfold trySetMetadata at hmp
  split at hmp
  · dsimp only at hmp
    split at hmp
    · obtain ⟨_, _, rfl⟩ := List.mem_map.mp hmp
      exact Or.inr (Or.inr rfl)
    · simp [withTable] at hmp
    · simp [withTable] at hmp
  · rcases mem_stored buf hmp with hmp | hmp
    · exact h₁ mp hmp
    · exact Or.inr (Or.inl hmp)

/-! ### The events -/

/-- A change of a peer that queues no request. -/
theorem Inv.updatePeer {s : UtMetadata} (h : Inv s) (p : ℕ) {f : PeerPlugin → PeerPlugin}
    (hf : ∀ pl, (f pl).incomingRequests = pl.incomingRequests) : Inv (s.updatePeer p f) :=
  h.samePieces (samePieces_updatePeer s p fun pl _ hq => Or.inl (hf pl ▸ hq))

/-- A handshake arrives. -/
theorem Inv.onExtensionHandshake {s : UtMetadata} (h : Inv s) (p : ℕ) (now : ℤ) (hs : Option ExtensionHandshake)
    (maxMetadataSize : ℤ) (hf : s.Fair maxMetadataSize (.onExtensionHandshake p now hs)) :
    Inv (s.onExtensionHandshake p now hs) := by
  unfold UtMetadata.onExtensionHandshake
  have h₁ := h.updatePeer p (f := fun pl => { pl with messageIndex := 0 }) fun _ => rfl
  cases hs with
  | none => exact h₁
  | some hs =>
    dsimp only
    split
    · exact h₁
    rename_i hindex
    have h₂ := h₁.updatePeer p (f := fun pl => { pl with messageIndex := toInt (hs.utMetadata.getD (-1)) }) fun _ => rfl
    have hfair := fun hn => hf hn hs rfl hindex
    split
    · rename_i hpos
      refine (h₂.metadataSize fun hn _ hle => (hfair hn).2 hpos hle).maybeSendRequest p now fun hn mp hmp => ?_
      -- the new slots have no requests
      have hn' : s.infoSection = none := by
        unfold UtMetadata.metadataSize at hn
        split at hn
        · exact hn
        · split at hn <;> exact hn
      unfold UtMetadata.metadataSize at hmp
      split at hmp
      · exact (hfair hn').1 mp hmp
      split at hmp
      · exact (hfair hn').1 mp hmp
      · rcases mem_resize hmp with hmp | rfl
        · exact (hfair hn').1 mp hmp
        · decide
    · refine (h₂.updatePeer p (f := fun pl => { pl with hasMetadata := false }) fun _ => rfl).maybeSendRequest p now ?_
      exact fun hn => (hfair hn).1

/-- All pieces may be served once the metadata is known. -/
theorem Inv.served {s : UtMetadata} (h : Inv s) {piece : ℤ} (hv : s.ValidMetadata) (h0 : 0 ≤ piece)
    (hlt : piece < divRoundUp s.metadataSpan.length slotSize) : s.Served piece := by
  obtain ⟨info, hinfo⟩ := Option.isSome_iff_exists.mp hv
  rw [h.metadataSpan_eq hinfo] at hlt
  exact ⟨info, hinfo, h0, lt_divRoundUp.mp hlt⟩

/-- A request is answered or queued. -/
theorem Inv.onRequest {s : UtMetadata} (h : Inv s) (p : ℕ) (piece : ℤ) (sendBuffer : ℕ) :
    Inv (s.onRequest p piece sendBuffer) := by
  unfold UtMetadata.onRequest
  split
  · exact h.writeMetadataPacket p .dontHave piece (by simp)
  rename_i hcond
  push Not at hcond
  have hserved : s.Served piece := h.served hcond.1 hcond.2.1 hcond.2.2
  split
  · exact h.writeMetadataPacket p .piece piece fun _ => hserved
  split
  · refine h.samePieces (samePieces_updatePeer s p fun pl q hq => ?_)
    rcases List.mem_append.mp hq with hq | hq
    · exact Or.inl hq
    · rw [List.mem_singleton.mp hq]
      exact Or.inr hserved
  · exact h.writeMetadataPacket p .dontHave piece (by simp)

/-- A message with a piece is handled. -/
theorem Inv.onPiece {s : UtMetadata} (h : Inv s) {maxMetadataSize : ℤ} {p : ℕ} {m : ExtendedMsg} (now : ℤ)
    (result : SetMetadata) (random : ℕ → ℕ) (htype : m.msgType % 256 = 1)
    (hf : s.infoSection = none → s.FewRequests ∧ (s.Wanted maxMetadataSize p m →
      s.PayloadFits (toInt m.piece).toNat m.payload (toInt (m.totalSize.getD 0)).toNat)) :
    Inv (s.onPiece maxMetadataSize p now m result random) := by
  unfold UtMetadata.onPiece
  dsimp only
  split
  · rename_i hasked
    have h₁ := h.updatePeer p
      (f := fun pl => { pl with sentRequests := pl.sentRequests.erase (toInt m.piece) }) fun _ => rfl
    refine (h₁.receivedMetadata now result random ?_).maybeSendRequest p now ?_
    · exact fun hn h0 htotal hend => (hf hn).2 ⟨htype, hasked, h0, htotal, hend⟩
    · intro hn mp hmp
      have hn' : s.infoSection = none := by
        by_contra hc
        have hv : s.ValidMetadata := Option.isSome_iff_ne_none.mpr hc
        unfold UtMetadata.receivedMetadata at hn
        rw [if_pos (by exact hv)] at hn
        exact hc hn
      rcases mem_receivedMetadata hmp with hmp | hmp | hmp
      · exact (hf hn').1 mp hmp
      · rw [hmp]
        decide
      · rw [hmp]
        decide
  · exact h

/-- Any message is handled. -/
theorem Inv.onExtended {s : UtMetadata} (h : Inv s) {maxMetadataSize : ℤ} (p : ℕ) (now : ℤ) (length : ℕ)
    (msg : Option ExtendedMsg) (sendBuffer : ℕ) (result : SetMetadata) (random : ℕ → ℕ)
    (hf : s.Fair maxMetadataSize (.onExtended p now length msg sendBuffer result random)) :
    Inv (s.onExtended maxMetadataSize p now length msg sendBuffer result random) := by
  unfold UtMetadata.onExtended
  split
  · exact h
  split
  · exact h.updatePeer p fun _ => rfl
  split
  · exact h.updatePeer p fun _ => rfl
  rename_i m
  split
  · exact h.onRequest p _ sendBuffer
  · rename_i htype
    exact h.onPiece now result random htype fun hn => ⟨(hf hn).1, (hf hn).2 m rfl⟩
  · exact h.updatePeer p fun _ => rfl
  · exact h

/-- Only requests that may be served are queued. -/
theorem Inv.served_of_peer {s : UtMetadata} (h : Inv s) {p : ℕ} {piece : ℤ}
    (hmem : piece ∈ (s.peer p).incomingRequests) : s.Served piece := by
  unfold UtMetadata.peer at hmem
  rw [List.getD_eq_getElem?_getD] at hmem
  rcases hp : s.peers[p]? with _ | pl
  · simp [hp] at hmem
  · rw [hp] at hmem
    exact h.incoming pl (List.mem_of_getElem? hp) piece hmem

/-- Queued requests are answered. -/
theorem Inv.serve {s : UtMetadata} (h : Inv s) (p room : ℕ) : Inv (s.serve p room) := by
  induction room generalizing s with
  | zero => exact h
  | succ room ih =>
    unfold UtMetadata.serve
    split
    · exact h
    rename_i piece rest heq
    have hserved : s.Served piece := h.served_of_peer (p := p) (by rw [heq]; simp)
    have hrest : ∀ q ∈ rest, s.Served q := by
      intro q hq
      have hq' : q ∈ (s.peer p).incomingRequests := by rw [heq]; simp [hq]
      exact h.served_of_peer hq'
    have h₁ : Inv (s.updatePeer p fun pl => { pl with incomingRequests := rest }) :=
      h.samePieces (samePieces_updatePeer s p fun _ q hq => Or.inr (hrest q hq))
    exact ih (h₁.writeMetadataPacket p .piece piece fun _ => hserved)

/-- The timer of a peer. -/
theorem Inv.tick {s : UtMetadata} (h : Inv s) (p : ℕ) (now : ℤ) (room : ℕ)
    (hf : s.infoSection = none → s.FewRequests) : Inv (s.tick p now room) :=
  (h.maybeSendRequest p now hf).serve p room

/-- The metadata comes from elsewhere. -/
theorem Inv.setMetadata {s : UtMetadata} (h : Inv s) (result : SetMetadata) (maxMetadataSize : ℤ)
    (hf : s.Fair maxMetadataSize (.setMetadata result)) : Inv (s.setMetadata result) := by
  cases result with
  | rejected => exact h
  | dropped => exact h
  | accepted info =>
    unfold UtMetadata.setMetadata
    dsimp only
    split
    · exact h
    rename_i hv
    have hn : s.infoSection = none := by simpa [ValidMetadata] using hv
    have habsurd : ∀ info, s.infoSection ≠ some info := by simp [hn]
    refine ⟨⟨by simp, h.completions, h.requests, ?_⟩, by simp, by simp, h.counters, ?_, ?_⟩
    · intro pk hpk htype
      obtain ⟨info', hinfo, _⟩ := h.sent pk hpk htype
      exact absurd hinfo (habsurd info')
    · intro info' hinfo
      obtain rfl := Option.some.inj hinfo
      exact hf hn
    · intro pl hpl q hq
      obtain ⟨info', hinfo, _⟩ := h.incoming pl hpl q hq
      exact absurd hinfo (habsurd info')

/-- One event keeps the invariant. -/
theorem Inv.step {s : UtMetadata} (h : Inv s) {maxMetadataSize : ℤ} (e : MetadataEvent)
    (hf : s.Fair maxMetadataSize e) : Inv (s.step maxMetadataSize e) := by
  cases e with
  | newConnection =>
    refine h.samePieces ⟨rfl, fun pl hpl q hq => ?_⟩
    rcases List.mem_append.mp hpl with hpl | hpl
    · exact Or.inr ⟨pl, hpl, hq⟩
    · obtain rfl := List.mem_singleton.mp hpl
      simp at hq
  | onExtensionHandshake p now hs =>
    unfold UtMetadata.step
    dsimp only
    split
    · exact h.onExtensionHandshake p now hs maxMetadataSize hf
    · exact h
  | onExtended p now length msg sendBuffer result random =>
    unfold UtMetadata.step
    dsimp only
    split
    · exact h.onExtended p now length msg sendBuffer result random hf
    · exact h
  | tick p now room =>
    unfold UtMetadata.step
    dsimp only
    split
    · exact h.tick p now room hf
    · exact h
  | setHasMetadata p => exact h.updatePeer p fun _ => rfl
  | disconnect p => exact h.updatePeer p fun _ => rfl
  | destroy p => exact h.updatePeer p fun _ => rfl
  | setMetadata result => exact h.setMetadata result maxMetadataSize hf

/-- So does a run. -/
theorem Inv.run {maxMetadataSize : ℤ} (es : List MetadataEvent) {s : UtMetadata} (h : Inv s)
    (hf : FairRun maxMetadataSize s es) : Inv (es.foldl (UtMetadata.step maxMetadataSize) s) := by
  induction es generalizing s with
  | nil => exact h
  | cons e es ih => exact ih (h.step e hf.1) hf.2

/-- The download is sound as long as no handshake, short piece or metadata from elsewhere gets in its way. -/
theorem run_sound (maxMetadataSize : ℤ) (es : List MetadataEvent) (hf : FairRun maxMetadataSize {} es) :
    Sound (es.foldl (UtMetadata.step maxMetadataSize) {}) :=
  (Inv.init.run es hf).toSound

/-- A peer sends three bytes of metadata, and then asks for them. -/
def download : List MetadataEvent :=
  [.newConnection,
    .onExtensionHandshake 0 0 (some ⟨some 1, some 3⟩),
    .onExtended 0 0 100 (some ⟨1, 0, some 3, [1, 2, 3]⟩) 0 (.accepted [1, 2, 3]) (fun _ => 0),
    .onExtended 0 0 100 (some ⟨0, 0, none, []⟩) 0 .rejected (fun _ => 0)]

/-- The metadata is downloaded from a peer. -/
theorem run_sound_download : Sound (download.foldl (UtMetadata.step 100) {}) :=
  run_sound 100 download (by decide +kernel)

/-- The calls of a run are paired. -/
theorem Sound.paired {s : UtMetadata} (h : Sound s) {l : List Completion} (hl : s.completions = l) : Paired l := by
  subst hl
  exact h.completions

/-- The metadata comes from elsewhere while there is a buffer for three bytes. -/
def setElsewhere : List MetadataEvent :=
  [.newConnection,
    .onExtensionHandshake 0 0 (some ⟨some 1, some 3⟩),
    .setMetadata (.accepted [1, 2, 3, 4]),
    .onExtended 0 0 100 (some ⟨0, 0, none, []⟩) 0 .rejected (fun _ => 0)]

/-- The first of two slots is received without a payload. -/
def emptyPayload : List MetadataEvent :=
  [.newConnection,
    .onExtensionHandshake 0 0 (some ⟨some 1, some 16385⟩),
    .onExtended 0 0 100 (some ⟨1, 0, some 16385, []⟩) 0 .rejected (fun _ => 0)]

/-- Then the second slot is removed by another handshake. -/
def sizeReduced : List MetadataEvent :=
  emptyPayload ++ [.onExtensionHandshake 0 0 (some ⟨some 1, some 16384⟩)]

/-- Three runs that are not fair, and what they make of the metadata. -/
theorem not_run_sound :
    ¬ Sound (setElsewhere.foldl (UtMetadata.step 100) {}) ∧
    ¬ Sound (emptyPayload.foldl (UtMetadata.step 100000) {}) ∧
    ¬ Sound (sizeReduced.foldl (UtMetadata.step 100000) {}) := by
  have helsewhere : ⟨0, .piece, 0, some 3, [0, 0, 0]⟩ ∈ (setElsewhere.foldl (UtMetadata.step 100) {}).sent ∧
      (setElsewhere.foldl (UtMetadata.step 100) {}).infoSection = some [1, 2, 3, 4] := by decide +kernel
  have hslots : (emptyPayload.foldl (UtMetadata.step 100000) {}).requestedMetadata[0]? = some ⟨intMax, 0, some 0⟩ ∧
      (emptyPayload.foldl (UtMetadata.step 100000) {}).metadata[0]? = some ⟨0, none⟩ ∧
      (emptyPayload.foldl (UtMetadata.step 100000) {}).infoSection = none ∧
      (sizeReduced.foldl (UtMetadata.step 100000) {}).completions = [.allHeld] := by decide +kernel
  obtain ⟨hmp, hbyte, hnone, hcompletions⟩ := hslots
  refine ⟨fun h => ?_, fun h => ?_, fun h => ?_⟩
  · obtain ⟨info, hinfo, _, _, hdata⟩ := h.sent _ helsewhere.1 rfl
    obtain rfl := Option.some.inj (hinfo.symm.trans helsewhere.2)
    exact absurd hdata (by decide)
  · obtain ⟨n, m, _, hc⟩ := h.held hnone 0 _ hmp rfl
    have hpos := (List.getElem?_eq_some_iff.mp hbyte).1
    obtain ⟨_, v, _, hv⟩ := hc 0 (by simp) (by simp [slotSize]) hpos
    exact absurd (hbyte.symm.trans hv) (by simp)
  · exact h.paired hcompletions

end UtMetadata

end Peer

end LibtorrentSN
