import Mathlib

/-!
# The block requests of a peer connection

The part of `src/peer_connection.cpp` that keeps the queue of requested blocks and the number of
bytes outstanding: sending requests, receiving blocks, rejects, chokes and cancels.

What the rest of the client answers during a call (the piece picker, the torrent, the extensions)
is a `World`, any one for each call. The connection is not disconnecting: a call that closes it
ends the run.
-/

namespace LibtorrentSN

namespace Peer

/-- The sizes of the torrent, whose metadata is known. -/
structure Torrent where
  numPieces : ℤ
  pieceLength : ℤ
  lastPieceSize : ℤ
  pos : 0 < pieceLength

structure PieceBlock where
  pieceIndex : ℤ
  blockIndex : ℤ
deriving DecidableEq, Repr

structure PeerRequest where
  piece : ℤ
  start : ℤ
  length : ℤ
deriving DecidableEq, Repr

namespace Torrent

variable (t : Torrent)

def blockSize : ℤ := min t.pieceLength 0x4000

def lastPiece : ℤ := t.numPieces - 1

def pieceSize (piece : ℤ) : ℤ := if piece = t.lastPiece then t.lastPieceSize else t.pieceLength

/-- `to_req`: the request for a whole block. -/
def toReq (b : PieceBlock) : PeerRequest :=
  let blockOffset := b.blockIndex * t.blockSize
  { piece := b.pieceIndex
    start := blockOffset
    length := min (t.pieceSize b.pieceIndex - blockOffset) t.blockSize }

/-- The block a request asks for. -/
def blockOf (p : PeerRequest) : PieceBlock := ⟨p.piece, p.start / t.blockSize⟩

def validatePieceRequest (p : PeerRequest) : Bool :=
  0 ≤ p.piece ∧ p.piece < t.numPieces ∧ 0 ≤ p.start ∧ p.start < t.pieceLength ∧
    t.toReq (t.blockOf p) = p

/-- A block the piece picker knows. -/
def HasBlock (b : PieceBlock) : Prop :=
  0 ≤ b.blockIndex ∧ b.blockIndex * t.blockSize < t.pieceSize b.pieceIndex

end Torrent

structure PendingBlock where
  block : PieceBlock
  notWanted : Bool := false
  timedOut : Bool := false
  busy : Bool := false
deriving DecidableEq, Repr

/-- The queues of a peer connection. -/
structure PeerConnection where
  /-- the blocks we have requested -/
  downloadQueue : List PendingBlock := []
  /-- the blocks we have reserved in the piece picker and will request -/
  requestQueue : List PendingBlock := []
  queuedTimeCritical : ℕ := 0
  outstandingBytes : ℤ := 0
  /-- the block of the piece message being received -/
  receivingBlock : Option PieceBlock := none
  /-- the piece message being received, from its header on -/
  message : Option PeerRequest := none
  /-- the payload bytes received of it -/
  receivedInPiece : ℤ := 0
  supportsFast : Bool
  requestLargeBlocks : Bool := false

/-- What the rest of the client answers during one call. -/
structure World (t : Torrent) where
  isSeed : Bool := false
  hasPicker : Bool := true
  onParole : Bool := false
  /-- no graceful pause, no upload mode, and a state in which pieces can be downloaded -/
  canDownload : Bool := true
  desiredQueueSize : ℕ := 4
  isRequested : PieceBlock → Bool := fun _ => true
  isDownloaded : PieceBlock → Bool := fun _ => false
  /-- blocks of the piece that are still free -/
  freeBlocks : ℤ → ℕ := fun _ => 0
  /-- an extension handles the message -/
  onPiece : Bool := false
  onReject : Bool := false
  onChoke : Bool := false
  /-- what `request_a_block` makes of the queue of requests to send and its time-critical part -/
  requestABlock : PeerConnection → List PendingBlock × ℕ := fun c =>
    (c.requestQueue, c.queuedTimeCritical)
  /-- it only adds blocks of the torrent -/
  picks : ∀ c, ∀ pb ∈ (requestABlock c).1, pb ∈ c.requestQueue ∨ t.HasBlock pb.block := by
    exact fun c pb h => Or.inl h

namespace PeerConnection

variable {t : Torrent} (w : World t)

/-- Subtract from the outstanding bytes, which are never less than zero. -/
def subOutstanding (c : PeerConnection) (bytes : ℤ) : PeerConnection :=
  { c with outstandingBytes := max (c.outstandingBytes - bytes) 0 }

def requestABlock (c : PeerConnection) : PeerConnection :=
  { c with
    requestQueue := (w.requestABlock c).1
    queuedTimeCritical := (w.requestABlock c).2 }

/-- The blocks are requested one by one, or merged with the ones that follow them. -/
def mergeRequests (t : Torrent) : ℕ → PeerConnection → PieceBlock → PeerConnection
  | 0, c, _ => c
  | fuel + 1, c, block =>
    match c.requestQueue with
    | [] => c
    | front :: rest =>
      let blocksPerPiece := (t.pieceLength + t.blockSize - 1) / t.blockSize
      if front.block.pieceIndex * blocksPerPiece + front.block.blockIndex ≠
          block.pieceIndex * blocksPerPiece + block.blockIndex + 1 then c
      else
        mergeRequests t fuel
          { c with
            requestQueue := rest
            downloadQueue := c.downloadQueue ++ [front]
            queuedTimeCritical := c.queuedTimeCritical - 1
            outstandingBytes := c.outstandingBytes + (t.toReq front.block).length }
          front.block

/-- The loop of `send_block_requests_impl`; each round takes a block from the request queue. -/
def sendRequests : ℕ → PeerConnection → PeerConnection
  | 0, c => c
  | fuel + 1, c =>
    match c.requestQueue with
    | [] => c
    | pb :: rest =>
      if c.downloadQueue.length < w.desiredQueueSize ∨ c.queuedTimeCritical > 0 then
        let c := { c with requestQueue := rest, queuedTimeCritical := c.queuedTimeCritical - 1 }
        if !w.hasPicker then sendRequests fuel c
        -- this can happen if a block times out, is re-requested and then arrives
        else if w.isDownloaded pb.block then sendRequests fuel c
        else
          let c := { c with
            downloadQueue := c.downloadQueue ++ [pb]
            outstandingBytes := c.outstandingBytes + (t.toReq pb.block).length }
          sendRequests fuel
            (if c.requestLargeBlocks then mergeRequests t c.requestQueue.length c pb.block else c)
      else c

def sendBlockRequests (c : PeerConnection) : PeerConnection :=
  if !w.canDownload then c
  else if c.downloadQueue.length ≥ w.desiredQueueSize then c
  else sendRequests w c.requestQueue.length c

/-- Remove the first entry of a queue that is for the block. -/
def eraseBlock (queue : List PendingBlock) (b : PieceBlock) : List PendingBlock :=
  queue.eraseP fun pb => pb.block = b

/-- `start_receive_piece`: the header of a piece message has arrived. -/
def startReceivePiece (c : PeerConnection) (r : PeerRequest) : Option PeerConnection :=
  if !t.validatePieceRequest r then none
  else
    let b := t.blockOf r
    let c := { c with receivingBlock := some b, message := some r, receivedInPiece := 0 }
    if c.downloadQueue.any fun pb => pb.block = b then some c
    else
      -- we have to assume that our outstanding bytes include this block too
      let i := c.requestQueue.findIdx fun pb => pb.block = b
      let inReqQueue := c.requestQueue.any fun pb => pb.block = b
      some { c with
        requestQueue := eraseBlock c.requestQueue b
        queuedTimeCritical :=
          if inReqQueue ∧ i < c.queuedTimeCritical then c.queuedTimeCritical - 1
          else c.queuedTimeCritical
        downloadQueue := { block := b, notWanted := !inReqQueue } :: c.downloadQueue
        outstandingBytes := c.outstandingBytes + r.length }

def incomingPieceFragment (c : PeerConnection) (bytes : ℤ) : PeerConnection :=
  { c.subOutstanding bytes with receivedInPiece := c.receivedInPiece + bytes }

/-- The part of `incoming_reject_request` that takes the request out of the download queue. -/
def dropRequest (c : PeerConnection) (r : PeerRequest) : PeerConnection :=
  match c.downloadQueue.find? fun pb => pb.block = t.blockOf r with
  | none => c
  | some pb =>
    { c.subOutstanding r.length with
      downloadQueue := eraseBlock c.downloadQueue (t.blockOf r)
      -- if the peer is in parole mode, keep the request
      requestQueue :=
        if w.onParole ∧ !pb.timedOut ∧ !pb.notWanted then pb :: c.requestQueue
        else c.requestQueue }

/-- The checks `incoming_reject_request` makes on the message. -/
def validReject (t : Torrent) (r : PeerRequest) : Bool :=
  0 ≤ r.piece ∧ r.piece < t.numPieces ∧ 0 ≤ r.start ∧ r.start < t.pieceLength ∧
    r.start % t.blockSize = 0 ∧ r.length = min (t.pieceSize r.piece - r.start) t.blockSize

def incomingRejectRequest (c : PeerConnection) (r : PeerRequest) : PeerConnection :=
  if w.onReject then c
  else if !validReject t r then c
  else
    let d := c.dropRequest w r
    if d.requestQueue.isEmpty ∧ d.downloadQueue.length < 2 then d.requestABlock w else d

/-- `incoming_piece`: all bytes of a piece message have arrived. -/
def incomingPiece (c : PeerConnection) (p : PeerRequest) : PeerConnection :=
  let c := { c with receivingBlock := none, message := none, receivedInPiece := 0 }
  if w.onPiece then c
  -- this is used as a reject-request by bitcomet
  else if p.length = 0 then c.incomingRejectRequest w p
  -- if we are already seeding, just ignore it
  else if w.isSeed then { c with downloadQueue := c.downloadQueue.tail }
  else if c.downloadQueue.any fun pb => pb.block = t.blockOf p then
    -- the block was downloaded already, or it is written to disk now
    { c with downloadQueue := eraseBlock c.downloadQueue (t.blockOf p) }.requestABlock w
  else
    -- the bytes were deducted as they were received, but the block was not in the queue
    { c with outstandingBytes := c.outstandingBytes + p.length }

/-- `on_piece`, from the moment the header of the message is complete: `bytes` of payload
arrived. -/
def onPiece (c : PeerConnection) (p : PeerRequest) (bytes : ℤ) : Option PeerConnection :=
  let started := if c.message = none then c.startReceivePiece (t := t) p else some c
  started.map fun c =>
    let c := c.incomingPieceFragment bytes
    if c.receivedInPiece = p.length then c.incomingPiece w p else c

/-- The request `on_choke` pretends was rejected. -/
def rejectOf (t : Torrent) (b : PieceBlock) : PeerRequest :=
  let start := b.blockIndex * t.blockSize
  { piece := b.pieceIndex
    start
    length :=
      if b.pieceIndex = t.lastPiece then min (t.pieceSize b.pieceIndex - start) t.blockSize
      else t.blockSize }

def incomingChoke (c : PeerConnection) : PeerConnection :=
  if w.onChoke then c
  else if !w.hasPicker then { c with requestQueue := [] }
  else if !w.onParole then { c with requestQueue := [], queuedTimeCritical := 0 }
  else c

/-- `on_choke`: a peer without the fast extension rejects all requests with it. -/
def onChoke (c : PeerConnection) : PeerConnection :=
  let choked := c.incomingChoke w
  if choked.supportsFast then choked
  else
    choked.downloadQueue.foldl (fun c pb => c.incomingRejectRequest w (rejectOf t pb.block)) choked

/-- `write_cancel`: a peer without the fast extension does not answer, so the request counts as
rejected. -/
def writeCancel (c : PeerConnection) (r : PeerRequest) : PeerConnection :=
  if c.supportsFast then c else c.incomingRejectRequest w r

def cancelAllRequests (c : PeerConnection) : PeerConnection :=
  let c := { c with requestQueue := [], queuedTimeCritical := 0 }
  c.downloadQueue.foldl (fun c pb =>
    -- we can't cancel the piece if we've started receiving it
    if c.receivingBlock = some pb.block then c else c.writeCancel w (t.toReq pb.block)) c

/-- Mark the first entry for the block as not wanted. -/
def markNotWanted (queue : List PendingBlock) (b : PieceBlock) : List PendingBlock :=
  match queue with
  | [] => []
  | pb :: queue =>
    if pb.block = b then { pb with notWanted := true } :: queue
    else pb :: markNotWanted queue b

def cancelRequest (c : PeerConnection) (block : PieceBlock) : PeerConnection :=
  -- if all the peers that requested this block have been cancelled, ignore the cancel
  if !w.isRequested block then c
  else if c.downloadQueue.any fun pb => pb.block = block then
    let c := { c with downloadQueue := markNotWanted c.downloadQueue block }
    if c.outstandingBytes < (t.toReq block).length then c else c.writeCancel w (t.toReq block)
  else if c.requestQueue.any fun pb => pb.block = block then
    let i := c.requestQueue.findIdx fun pb => pb.block = block
    { c with
      requestQueue := eraseBlock c.requestQueue block
      queuedTimeCritical :=
        if i < c.queuedTimeCritical then c.queuedTimeCritical - 1 else c.queuedTimeCritical }
  else c

/-- Time out the last request that is neither timed out nor unwanted, when its piece has no free
block. -/
def timeOutLast (w : World t) : List PendingBlock → List PendingBlock × Bool
  | [] => ([], false)
  | pb :: queue =>
    let (rest, found) := timeOutLast w queue
    if found then (pb :: rest, true)
    else if !pb.timedOut ∧ !pb.notWanted then
      if w.freeBlocks pb.block.pieceIndex > 0 then (pb :: rest, true)
      else ({ pb with timedOut := true } :: rest, true)
    else (pb :: rest, false)

def snubPeer (c : PeerConnection) : PeerConnection :=
  if w.onParole then c
  else if !w.hasPicker then c
  else
    let c := { c with requestQueue := [], queuedTimeCritical := 0 }
    let timed := { c with downloadQueue := (timeOutLast w c.downloadQueue).1 }
    -- a new block is requested before the previous one is removed
    if timed.downloadQueue = c.downloadQueue then c
    else
      { timed with
        requestQueue := (w.requestABlock c).1, queuedTimeCritical := (w.requestABlock c).2 }

end PeerConnection

end Peer

end LibtorrentSN
