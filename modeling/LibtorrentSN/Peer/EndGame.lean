import LibtorrentSN.Peer.Requests
import LibtorrentSN.Picker.Marks

/-!
# The end game

Near the end of a download the same block is requested from several peers. When it arrives from one of them,
`incoming_piece` tells the piece picker that it is being written, and then asks all connections of the torrent to
cancel it. Each of them looks up in the picker whether the block is still requested, and it is not any more.
-/

namespace LibtorrentSN

namespace PiecePicker

variable (s : PiecePicker) (p b : ℕ)

def isRequested : Bool :=
  match s.findDlPiece p with
  | none => false
  | some dp => (s.block dp b).state = .requested

def isDownloaded : Bool :=
  if s.havePiece p then true
  else match s.findDlPiece p with
    | none => false
    | some dp => (s.block dp b).state = .finished ∨ (s.block dp b).state = .writing

/-- The number of peers that the block is requested from. -/
def numPeersOf : ℕ :=
  match s.findDlPiece p with
  | none => 0
  | some dp => (s.block dp b).numPeers

variable {s p b} {peer : Option ℕ}

theorem isRequested_eq_mark : s.isRequested p b = decide ((s.mark p b).2 = .requested) := by
  rw [isRequested]
  rcases hdp : s.findDlPiece p with - | dp
  · rw [PickerCore.mark_of_none hdp]
    rfl
  · rw [PickerCore.mark_of_find hdp]
    rfl

/-- A block that is written to disk is not requested from anyone. -/
theorem isRequested_markAsWriting (h : s.Book True) (ha : s.asserts (.markAsWriting p b peer))
    (hnot : s.isDownloaded p b = false) : (s.markAsWriting p b peer).2.isRequested p b = false := by
  have hhave : ¬ s.havePiece p := fun hc => by
    rw [isDownloaded, if_pos hc] at hnot
    cases hnot
  rw [isRequested_eq_mark, decide_eq_false_iff_not, markAsWriting_mark h ha fun _ => hhave]
  split_ifs with hnew
  · exact not_false
  · -- it had been received before
    have hrec : s.received p b := by_contra fun hc => hnew ⟨rfl, rfl, hc⟩
    obtain hw | hf := hrec
    · rw [hw]
      exact BlockState.noConfusion
    · rw [hf]
      exact BlockState.noConfusion

end PiecePicker

namespace Peer

variable {t : Torrent}

/-- A connection, as the torrent sees it. -/
structure Member where
  conn : PeerConnection
  peerInfo : Option ℕ := none
  /-- the connection still belongs to the torrent -/
  attached : Bool := true
  /-- the peer has choked us -/
  choked : Bool := false

/-- The torrent with its connections. -/
structure Download where
  picker : PiecePicker
  connections : List Member

/-- What the rest of the client answers to a connection, and what its picks do to the picker. -/
structure Answers (t : Torrent) where
  world : World t
  picks : PiecePicker → PiecePicker := id

/-- `cancel_request`. It returns the CANCEL messages as well. -/
def Member.cancelRequest (a : Answers t) (picker : PiecePicker) (m : Member) (block : PieceBlock) :
    PiecePicker × Member × List PeerRequest :=
  let p := block.pieceIndex.toNat
  let b := block.blockIndex.toNat
  let w := { a.world with isRequested := fun _ => picker.isRequested p b }
  -- this peer might be disconnecting
  if !m.attached then (picker, m, [])
  else if !picker.isRequested p b then (picker, m, [])
  else
    let m' := { m with conn := m.conn.cancelRequest w block }
    if m.conn.downloadQueue.any fun pb => pb.block = block then
      if m.conn.outstandingBytes < (t.toReq block).length then (picker, m', [])
      else (if m.conn.supportsFast then picker else a.picks picker, m', [t.toReq block])
    else if m.conn.requestQueue.any fun pb => pb.block = block then
      (picker.abortDownload p b m.peerInfo, m', [])
    else (picker, m, [])

/-- `cancel_block`. The connections are numbered, and the messages are returned with these numbers. -/
def cancelBlock (a : ℕ → Answers t) (block : PieceBlock) :
    ℕ → PiecePicker → List Member → PiecePicker × List Member × List (ℕ × PeerRequest)
  | _, picker, [] => (picker, [], [])
  | i, picker, m :: members =>
    let r := m.cancelRequest (a i) picker block
    let q := cancelBlock a block (i + 1) r.1 members
    (q.1, r.2.1 :: q.2.1, r.2.2.map (i, ·) ++ q.2.2)

namespace Download

variable (a : ℕ → Answers t) (s : Download) (self : ℕ) (block : PieceBlock)

def peerInfo : Option ℕ := s.connections[self]?.bind Member.peerInfo

/-- `incoming_piece` accepts the block for writing: it is in the download queue, and the picker does not have it. -/
def Accepts : Prop :=
  (∃ m, s.connections[self]? = some m ∧ m.conn.downloadQueue.any fun pb => pb.block = block) ∧
    s.picker.isDownloaded block.pieceIndex.toNat block.blockIndex.toNat = false

/-- The part of `incoming_piece` behind the checks, for the connection `self`. -/
def writeBlock : Download × List (ℕ × PeerRequest) :=
  let p := block.pieceIndex.toNat
  let b := block.blockIndex.toNat
  let erased := s.connections.modify self fun m =>
    { m with conn := { m.conn with downloadQueue := PeerConnection.eraseBlock m.conn.downloadQueue block } }
  -- did we request this block from any other peers?
  let multi := 1 < s.picker.numPeersOf p b
  let picker := (s.picker.markAsWriting p b (s.peerInfo self)).2
  -- if we requested this block from other peers, cancel it now
  let r := if multi then cancelBlock a block 0 picker erased else (picker, erased, [])
  -- `verify_piece`, `request_a_block` and `send_block_requests`
  let w := (a self).world
  (⟨(a self).picks r.1, r.2.1.modify self fun m =>
    { m with conn := (m.conn.requestABlock w).sendBlockRequests w }⟩, r.2.2)

/-- The connection still waits for the block. -/
def Wants (m : Member) (block : PieceBlock) : Prop :=
  ∃ pb ∈ m.conn.downloadQueue, pb.block = block ∧ pb.timedOut = false ∧ pb.notWanted = false

/-- The block is cancelled at all other connections, in the state `s'` and with the messages `sent`. -/
def Cancelled (t : Torrent) (s s' : Download) (sent : List (ℕ × PeerRequest)) (self : ℕ) (block : PieceBlock) : Prop :=
  ∀ i m, i ≠ self → s.connections[i]? = some m → m.attached = true →
    ((m.choked = false ∧ Wants m block) → (i, t.toReq block) ∈ sent ∧
      ∃ m', s'.connections[i]? = some m' ∧ ∃ pb ∈ m'.conn.downloadQueue, pb.block = block ∧ pb.notWanted = true) ∧
    ((∃ pb ∈ m.conn.requestQueue, pb.block = block) →
      ∃ m', s'.connections[i]? = some m' ∧ ∀ pb ∈ m'.conn.requestQueue, pb.block ≠ block)

/-- No other connection has anything to cancel. -/
def Alone : Prop :=
  ∀ i m, i ≠ self → s.connections[i]? = some m → m.attached = true →
    ¬ (m.choked = false ∧ Wants m block) ∧ ∀ pb ∈ m.conn.requestQueue, pb.block ≠ block

variable {a s self block} {picker : PiecePicker}

theorem cancelRequest_of_not_requested {a : Answers t} {m : Member}
    (h : picker.isRequested block.pieceIndex.toNat block.blockIndex.toNat = false) :
    m.cancelRequest a picker block = (picker, m, []) := by
  rw [Member.cancelRequest]
  cases m.attached with
  | false => rfl
  | true => simp only [h, Bool.not_true, Bool.false_eq_true, if_false, Bool.not_false, if_true]

theorem cancelBlock_of_not_requested {members : List Member} {i : ℕ}
    (h : picker.isRequested block.pieceIndex.toNat block.blockIndex.toNat = false) :
    cancelBlock a block i picker members = (picker, members, []) := by
  induction members generalizing i with
  | nil => rfl
  | cons m members ih => rw [cancelBlock, cancelRequest_of_not_requested h, ih, List.map_nil, List.nil_append]

/-- The other connections are left alone, and no message is sent. -/
theorem writeBlock_others (h : Reach anyCall s.picker)
    (ha : s.picker.asserts (.markAsWriting block.pieceIndex.toNat block.blockIndex.toNat (s.peerInfo self)))
    (hacc : s.Accepts self block) :
    (s.writeBlock a self block).2 = [] ∧
      ∀ i, i ≠ self → (s.writeBlock a self block).1.connections[i]? = s.connections[i]? := by
  have hnot := PiecePicker.isRequested_markAsWriting h.book ha hacc.2
  have hidle : ∀ (multi : Prop) [Decidable multi] (members : List Member),
      (if multi then cancelBlock a block 0
          (s.picker.markAsWriting block.pieceIndex.toNat block.blockIndex.toNat (s.peerInfo self)).2 members
        else ((s.picker.markAsWriting block.pieceIndex.toNat block.blockIndex.toNat (s.peerInfo self)).2, members, [])) =
      ((s.picker.markAsWriting block.pieceIndex.toNat block.blockIndex.toNat (s.peerInfo self)).2, members, []) := by
    intro multi _ members
    split_ifs
    · exact cancelBlock_of_not_requested hnot
    · rfl
  rw [writeBlock, hidle]
  refine ⟨rfl, fun i hi => ?_⟩
  dsimp only
  rw [List.getElem?_modify_ne _ _ (Ne.symm hi), List.getElem?_modify_ne _ _ (Ne.symm hi)]

/-- One piece of two blocks. -/
def twoBlocks : Torrent := ⟨1, 0x8000, 0x8000, Int.natCast_succ_pos 0x7fff⟩

def idleAnswers : Answers twoBlocks := ⟨{ desiredQueueSize := 0 }, id⟩

/-- The first block is requested from two peers, and the first one of them sends it. -/
def shared (picker : PiecePicker) (second : List PendingBlock) : Download where
  picker := picker
  connections :=
    [{ conn := { downloadQueue := [{ block := ⟨0, 0⟩ }], outstandingBytes := 0, supportsFast := true }, peerInfo := some 1 },
      { conn := { downloadQueue := second, outstandingBytes := 0x4000, supportsFast := true }, peerInfo := some 2 }]

theorem exists_shared : ∃ picker, Reach anyCall picker ∧
    picker.asserts (.markAsWriting 0 0 (some 1)) ∧ picker.isDownloaded 0 0 = false ∧ picker.numPeersOf 0 0 = 2 := by
  obtain ⟨s, hs, h⟩ := Reach.exists_of_freshRun anyCall 1 2
    [.markAsDownloading 0 0 (some 1) false false, .markAsDownloading 0 0 (some 2) false false]
    (fun s => s.asserts (.markAsWriting 0 0 (some 1)) ∧ s.isDownloaded 0 0 = false ∧ s.numPeersOf 0 0 = 2)
    (by decide) (by decide +kernel)
  exact ⟨s, hs, h⟩

/-- The second peer is not told that the block is not wanted any more. -/
theorem writeBlock_not_cancelled :
    ¬ ∀ (t : Torrent) (a : ℕ → Answers t) (s : Download) (self : ℕ) (block : PieceBlock), Reach anyCall s.picker →
      s.picker.asserts (.markAsWriting block.pieceIndex.toNat block.blockIndex.toNat (s.peerInfo self)) →
      s.Accepts self block → 2 ≤ s.picker.numPeersOf block.pieceIndex.toNat block.blockIndex.toNat →
      Cancelled t s (s.writeBlock a self block).1 (s.writeBlock a self block).2 self block := by
  intro hclaim
  obtain ⟨picker, hreach, hassert, hnew, hpeers⟩ := exists_shared
  have hacc : (shared picker [{ block := ⟨0, 0⟩ }]).Accepts 0 ⟨0, 0⟩ := ⟨⟨_, rfl, rfl⟩, hnew⟩
  have hcancel := hclaim twoBlocks (fun _ => idleAnswers) (shared picker [{ block := ⟨0, 0⟩ }]) 0 ⟨0, 0⟩ hreach hassert
    hacc hpeers.ge
  have hsent := (writeBlock_others (a := fun _ => idleAnswers) hreach hassert hacc).1
  have hsecond := (hcancel 1 _ (by decide) rfl rfl).1 ⟨rfl, _, List.mem_singleton_self _, rfl, rfl, rfl⟩
  rw [hsent] at hsecond
  exact List.not_mem_nil hsecond.1

/-- The block is cancelled where it should be if and only if there is nothing to cancel. -/
theorem writeBlock_cancelled_iff (h : Reach anyCall s.picker)
    (ha : s.picker.asserts (.markAsWriting block.pieceIndex.toNat block.blockIndex.toNat (s.peerInfo self)))
    (hacc : s.Accepts self block) :
    Cancelled t s (s.writeBlock a self block).1 (s.writeBlock a self block).2 self block ↔ s.Alone self block := by
  obtain ⟨hsent, hsame⟩ := writeBlock_others (a := a) h ha hacc
  rw [hsent]
  constructor
  · intro hc i m hi hm hatt
    obtain ⟨hdown, hreq⟩ := hc i m hi hm hatt
    refine ⟨fun hw => List.not_mem_nil (hdown hw).1, fun pb hpb hblock => ?_⟩
    obtain ⟨m', hm', hgone⟩ := hreq ⟨pb, hpb, hblock⟩
    rw [hsame i hi, hm] at hm'
    obtain rfl := Option.some.inj hm'
    exact hgone pb hpb hblock
  · intro halone i m hi hm hatt
    obtain ⟨hdown, hreq⟩ := halone i m hi hm hatt
    exact ⟨fun hw => absurd hw hdown, fun ⟨pb, hpb, hblock⟩ => absurd hblock (hreq pb hpb)⟩

/-- The second peer has timed out. -/
theorem writeBlock_cancelled_iff_timed : ∃ s : Download,
    2 ≤ s.picker.numPeersOf 0 0 ∧ s.Accepts 0 ⟨0, 0⟩ ∧
      (Cancelled twoBlocks s (s.writeBlock (fun _ => idleAnswers) 0 ⟨0, 0⟩).1
        (s.writeBlock (fun _ => idleAnswers) 0 ⟨0, 0⟩).2 0 ⟨0, 0⟩ ↔ s.Alone 0 ⟨0, 0⟩) := by
  obtain ⟨picker, hreach, hassert, hnew, hpeers⟩ := exists_shared
  have hacc : (shared picker [{ block := ⟨0, 0⟩, timedOut := true }]).Accepts 0 ⟨0, 0⟩ := ⟨⟨_, rfl, rfl⟩, hnew⟩
  exact ⟨shared picker [{ block := ⟨0, 0⟩, timedOut := true }], hpeers.ge, hacc,
    writeBlock_cancelled_iff (s := shared picker [{ block := ⟨0, 0⟩, timedOut := true }]) hreach hassert hacc⟩

end Download

end Peer

end LibtorrentSN
