import LibtorrentSN.Peer.Outstanding
import LibtorrentSN.Picker.PickSound

/-!
# The blocks of a peer that chokes us

A peer without the fast extension does not answer the requests it drops when it chokes us, so `on_choke` goes through a
copy of the download queue and handles a reject message it makes up for every entry. This file follows the blocks that
are handed back to the piece picker on the way.

The lengths of these messages are right for whole blocks and for the last piece. When the piece length is no multiple
of the block size, the last block of every other piece is shorter than that, and its reject is dropped as invalid.
-/

namespace LibtorrentSN

namespace Peer

variable {t : Torrent}

/-- What the rest of the client answers while the messages of a choke are handled. -/
structure ChokeWorld where
  isSeed : Bool := false
  hasPicker : Bool := true
  onParole : Bool := false
  gracefulPause : Bool := false
  /-- no graceful pause aside, blocks may be requested from this peer -/
  canDownload : Bool := true
  desiredQueueSize : ℤ := 4
  preferContiguousBlocks : ℤ := 0
  /-- strict end game mode, with pieces left that nobody is asked for -/
  strictEndGame : Bool := false
  /-- the bitfield of the peer -/
  bitfield : ℤ → Bool := fun _ => true
  numPeers : PieceBlock → ℕ := fun _ => 0
  markAsDownloading : PieceBlock → Bool := fun _ => true
  /-- the picks for a bitmask, which depend on the blocks handed back before -/
  pickPieces : List PieceBlock → (ℤ → Bool) → ℤ → List PieceBlock := fun _ _ _ => []
  /-- nothing is picked that is not in the mask (`PiecePicker.pickPieces_mask`) -/
  pickPieces_mask : ∀ aborted mask n, ∀ b ∈ pickPieces aborted mask n, mask b.pieceIndex = true := by
    exact fun _ _ _ b hb => absurd hb List.not_mem_nil
  /-- the piece picker is dropped when all pieces are there -/
  seed_of_not_hasPicker : hasPicker = false → isSeed = true := by decide

/-- The picker after the blocks of a list have been handed back to it. -/
def handBack (peer : Option ℕ) (s : PiecePicker) (aborted : List PieceBlock) : PiecePicker :=
  aborted.foldl (fun s b =>
    let op : LibtorrentSN.Op := .abortDownload b.pieceIndex.toNat b.blockIndex.toNat peer
    if s.asserts op then s.apply op else s) s

/-- The picks of this picker for a bitmask. -/
def picksOf (s : PiecePicker) (a : PickRequest) (mask : ℤ → Bool) (n : ℤ) : List PieceBlock :=
  let pieces := (List.range s.numPieces).map fun p : ℕ => mask p
  (s.pickPieces { a with pieces := pieces, numBlocks := n }).1.interestingBlocks.map fun pb =>
    ⟨pb.pieceIndex, pb.blockIndex⟩

/-- The picker is in a reachable state again. -/
theorem reach_handBack {s : PiecePicker} (h : Reach anyCall s) (peer : Option ℕ) (aborted : List PieceBlock) :
    Reach anyCall (handBack peer s aborted) := by
  induction aborted generalizing s with
  | nil => exact h
  | cons b aborted ih =>
    rw [handBack, List.foldl_cons]
    dsimp only
    split_ifs with ha
    · exact ih (.step h ha trivial)
    · exact ih h

/-- A block outside of the mask is not picked. -/
theorem picksOf_mask {s : PiecePicker} (h : Reach anyCall s) (a : PickRequest) (mask : ℤ → Bool) (n : ℤ) :
    ∀ b ∈ picksOf s a mask n, mask b.pieceIndex = true := by
  intro b hb
  obtain ⟨pb, hpb, rfl⟩ := List.mem_map.mp hb
  have hbit := PiecePicker.pickPieces_mask h.book.buckets _ pb hpb
  have hlt : pb.pieceIndex < s.numPieces := by
    by_contra hge
    rw [List.getD_eq_default _ _ (by simpa using hge)] at hbit
    cases hbit
  simpa [List.getD_eq_getElem?_getD, hlt] using hbit

/-- Nor is one after blocks have been handed back. -/
theorem handBack_mask (s : {s : PiecePicker // Reach anyCall s}) (peer : Option ℕ) (a : PickRequest)
    (aborted : List PieceBlock) (mask : ℤ → Bool) (n : ℤ) :
    ∀ b ∈ picksOf (handBack peer s.1 aborted) a mask n, mask b.pieceIndex = true :=
  picksOf_mask (reach_handBack s.2 peer aborted) a mask n

/-- The answers with the picks of a piece picker. -/
def ChokeWorld.ofPicker (w : ChokeWorld) (s : {s : PiecePicker // Reach anyCall s}) (peer : Option ℕ)
    (a : PickRequest) : ChokeWorld :=
  { w with
    pickPieces := fun aborted mask n => picksOf (handBack peer s.1 aborted) a mask n
    pickPieces_mask := handBack_mask s peer a }

/-- The answers, as the calls on the queues alone need them. -/
def ChokeWorld.world (w : ChokeWorld) : World t :=
  { isSeed := w.isSeed, hasPicker := w.hasPicker, onParole := w.onParole }

/-- A connection, and the calls of `abort_download` it has made. -/
structure Choking where
  conn : PeerConnection
  peerChoked : Bool := false
  allowedFast : List ℤ := []
  disconnecting : Bool := false
  aborted : List PieceBlock := []

/-- The request still counts in the piece picker. -/
def PendingBlock.wanted (pb : PendingBlock) : Bool := !pb.timedOut && !pb.notWanted

namespace Torrent

variable (t : Torrent)

/-- A block of the torrent. -/
structure Owns (b : PieceBlock) : Prop where
  piece : 0 ≤ b.pieceIndex ∧ b.pieceIndex < t.numPieces
  block : t.HasBlock b

/-- The reject made up for the block has the right length: it is a whole block, or in the last piece. -/
def rejectFits (b : PieceBlock) : Bool :=
  b.pieceIndex = t.lastPiece ∨ b.blockIndex * t.blockSize + t.blockSize ≤ t.pieceLength

variable {t} {b : PieceBlock}

/-- The reject is for the block. -/
theorem blockOf_rejectOf (b : PieceBlock) : t.blockOf (PeerConnection.rejectOf t b) = b := by
  have h : b.blockIndex * t.blockSize / t.blockSize = b.blockIndex :=
    Int.mul_ediv_cancel _ t.blockSize_pos.ne'
  rw [blockOf, PeerConnection.rejectOf, h]

/-- Its length is right for a whole block, and in the last piece. -/
theorem rejectOf_length (hf : t.rejectFits b = true) :
    (PeerConnection.rejectOf t b).length = t.blockLength b := by
  rw [rejectFits, decide_eq_true_iff] at hf
  simp only [PeerConnection.rejectOf, blockLength, toReq, pieceSize]
  split_ifs with hl
  · rfl
  · have hle := hf.resolve_left hl
    exact (min_eq_right (by omega)).symm

/-- A reject that is too long is not a valid one. -/
theorem validReject_rejectOf (hlast : t.lastPieceSize ≤ t.pieceLength) (hb : t.Owns b) :
    PeerConnection.validReject t (PeerConnection.rejectOf t b) = t.rejectFits b := by
  obtain ⟨⟨h0, hn⟩, hi, hlt⟩ := hb
  have hstart : 0 ≤ b.blockIndex * t.blockSize := Int.mul_nonneg hi t.blockSize_pos.le
  have hle : t.pieceSize b.pieceIndex ≤ t.pieceLength := by
    rw [pieceSize]
    split_ifs
    · exact hlast
    · exact Int.le_refl _
  have hmod : b.blockIndex * t.blockSize % t.blockSize = 0 := Int.mul_emod_left _ _
  rw [PeerConnection.validReject, rejectFits, decide_eq_decide]
  simp only [PeerConnection.rejectOf]
  constructor
  · rintro ⟨-, -, -, -, -, hlen⟩
    refine or_iff_not_imp_left.mpr fun hl => ?_
    rw [if_neg hl, pieceSize, if_neg hl] at hlen
    have := min_le_left (t.pieceLength - b.blockIndex * t.blockSize) t.blockSize
    omega
  · intro hf
    have hlen := rejectOf_length (decide_eq_true hf)
    exact ⟨h0, hn, hstart, by omega, hmod, hlen⟩

end Torrent

namespace Choking

open LibtorrentSN.Peer.PeerConnection

variable (w : ChokeWorld) (s : Choking)

/-- `abort_download` of the picker. -/
def abortDownload (b : PieceBlock) : Choking := { s with aborted := s.aborted ++ [b] }

/-- `incoming_choke`, with `clear_request_queue`. -/
def incomingChoke : Choking :=
  let s := { s with peerChoked := true }
  if !w.hasPicker then { s with conn := { s.conn with requestQueue := [] } }
  else if !w.onParole then
    { s with
      aborted := s.aborted ++ s.conn.requestQueue.map PendingBlock.block
      conn := { s.conn with requestQueue := [], queuedTimeCritical := 0 } }
  else s

/-- Hand back a request the picker still counts. -/
def release (pb : PendingBlock) : Choking := if pb.wanted then s.abortDownload pb.block else s

/-- `clear_download_queue`, from the back of the queue. -/
def clearDownloadQueue (t : Torrent) (s : Choking) : Choking :=
  s.conn.downloadQueue.foldr (fun pb s =>
    let s := s.release pb
    { s with
      conn := { s.conn.subOutstanding (t.toReq pb.block).length with
        downloadQueue := s.conn.downloadQueue.dropLast } }) s

/-- The part of `disconnect` that empties the queues. -/
def disconnect (t : Torrent) (s : Choking) : Choking :=
  let s := { s with disconnecting := true }
  let s :=
    if w.hasPicker then
      let s := s.clearDownloadQueue t
      let s := s.conn.requestQueue.foldr (fun pb s => s.release pb) s
      { s with conn := { s.conn with requestQueue := [] } }
    else { s with conn := { s.conn with downloadQueue := [], requestQueue := [], outstandingBytes := 0 } }
  { s with conn := { s.conn with queuedTimeCritical := 0 } }

/-- `check_graceful_pause`. -/
def checkGracefulPause (t : Torrent) (s : Choking) : Choking :=
  if !w.gracefulPause then s
  else if s.conn.outstandingBytes > 0 then s
  else s.disconnect w t

/-- `add_request` for a block that the picker offers. -/
def addRequest (b : PieceBlock) (busy : Bool) : Option Choking :=
  if busy ∧ (s.conn.downloadQueue.any PendingBlock.busy ∨ s.conn.requestQueue.any PendingBlock.busy) then none
  else if !w.markAsDownloading b then none
  else some { s with
    conn := { s.conn with requestQueue := s.conn.requestQueue ++ [{ block := b, busy := busy }] } }

/-- The loop over the picks. It returns the number of requests left to make, and a busy block. -/
def pickLoop (dontPickBusyBlocks : Bool) : List PieceBlock → Choking → ℤ → Option PieceBlock →
    Choking × ℤ × Option PieceBlock
  | [], s, n, busyBlock => (s, n, busyBlock)
  | pb :: picks, s, n, busyBlock =>
    if w.preferContiguousBlocks = 0 ∧ n ≤ 0 then (s, n, busyBlock)
    else if w.numPeers pb > 0 then
      -- the following blocks are busy as well
      if n ≤ 0 ∨ dontPickBusyBlocks then (s, n, busyBlock)
      else pickLoop dontPickBusyBlocks picks s n (some pb)
    else if (s.conn.downloadQueue ++ s.conn.requestQueue).any fun q => q.block = pb then
      pickLoop dontPickBusyBlocks picks s n busyBlock
    else match s.addRequest w pb false with
      | none => pickLoop dontPickBusyBlocks picks s n busyBlock
      | some s => pickLoop dontPickBusyBlocks picks s (n - 1) busyBlock

/-- `request_a_block`. -/
def requestABlock : Choking :=
  if w.isSeed ∨ !w.canDownload ∨ s.disconnecting ∨ w.gracefulPause then s
  else
    let queued : ℤ := s.conn.downloadQueue.length + s.conn.requestQueue.length
    let numRequests := w.desiredQueueSize - queued
    if numRequests ≤ 0 then s
    else
      -- if we are choked we can only pick pieces from the allowed fast set
      let bits := fun p => w.bitfield p && (!s.peerChoked || s.allowedFast.contains p)
      let picks := w.pickPieces s.aborted bits numRequests
      match pickLoop w (w.strictEndGame || decide (queued > 0)) picks s numRequests none with
      | (s, n, busyBlock) =>
        if n ≤ 0 then s
        else match busyBlock with
          | none => s
          | some b =>
            if s.conn.downloadQueue.length + s.conn.requestQueue.length > 0 then s
            else (s.addRequest w b true).getD s

/-- The part of `incoming_reject_request` that takes the request out of the download queue. -/
def dropRequest (r : PeerRequest) : Choking :=
  match s.conn.downloadQueue.find? fun pb => pb.block = t.blockOf r with
  | none => s
  | some pb =>
    let s := { s with
      conn := { s.conn.subOutstanding r.length with
        downloadQueue := eraseBlock s.conn.downloadQueue (t.blockOf r) } }
    -- if the peer is in parole mode, keep the request
    if w.onParole then
      if pb.wanted then { s with conn := { s.conn with requestQueue := pb :: s.conn.requestQueue } } else s
    else if !w.isSeed && pb.wanted then s.abortDownload pb.block
    else s

/-- `incoming_reject_request`. -/
def incomingRejectRequest (t : Torrent) (s : Choking) (r : PeerRequest) : Choking :=
  if s.disconnecting then s
  else if !validReject t r then s
  else
    let s := s.dropRequest (t := t) w r
    let s := if s.peerChoked then { s with allowedFast := s.allowedFast.erase r.piece } else s
    let s := s.checkGracefulPause w t
    if s.disconnecting then s
    else if s.conn.requestQueue.isEmpty ∧ s.conn.downloadQueue.length < 2 then s.requestABlock w
    else s

/-- `on_choke`, for a message that is complete. -/
def onChoke (t : Torrent) (s : Choking) : Choking :=
  let choked := s.incomingChoke w
  if choked.conn.supportsFast then choked
  else
    choked.conn.downloadQueue.foldl (fun s pb => s.incomingRejectRequest w t (rejectOf t pb.block)) choked

variable {w : ChokeWorld} {s : Choking}

/-! ### One reject -/

/-- The loop over the queue, for a peer that has nothing left to send. -/
structure Choked (s : Choking) : Prop where
  peerChoked : s.peerChoked = true
  allowedFast : s.allowedFast = []
  requestQueue : s.conn.requestQueue = []
  disconnecting : s.disconnecting = false

/-- Nothing is requested from a peer that has choked us. -/
theorem Choked.requestABlock (h : Choked s) : s.requestABlock w = s := by
  have hpicks : ∀ n, w.pickPieces s.aborted
      (fun p => w.bitfield p && (!s.peerChoked || s.allowedFast.contains p)) n = [] := by
    intro n
    refine List.eq_nil_iff_forall_not_mem.mpr fun b hb => ?_
    have hbit := w.pickPieces_mask _ _ _ b hb
    rw [h.peerChoked, h.allowedFast] at hbit
    simp at hbit
  rw [Choking.requestABlock]
  split_ifs with hno
  · rfl
  · dsimp only
    rw [hpicks, pickLoop]
    split_ifs <;> rfl

/-- The blocks that the picker still counts. -/
def wantedBlocks (l : List PendingBlock) : List PieceBlock := (l.filter PendingBlock.wanted).map PendingBlock.block

/-- The blocks of two queues. -/
theorem wantedBlocks_append (l l' : List PendingBlock) :
    wantedBlocks (l ++ l') = wantedBlocks l ++ wantedBlocks l' := by
  rw [wantedBlocks, List.filter_append, List.map_append, wantedBlocks, wantedBlocks]

/-- They are those of the entries that count. -/
theorem mem_wantedBlocks {l : List PendingBlock} {b : PieceBlock} :
    b ∈ wantedBlocks l ↔ ∃ pb ∈ l, pb.wanted = true ∧ pb.block = b := by
  simp only [wantedBlocks, List.mem_map, List.mem_filter, and_assoc]

/-- A request that counts is handed back. -/
theorem release_aborted (s : Choking) (pb : PendingBlock) :
    (s.release pb).aborted = s.aborted ++ wantedBlocks [pb] := by
  rw [release, wantedBlocks]
  cases hw : pb.wanted <;> simp [hw, abortDownload]

/-- The queues are left to the caller. -/
theorem release_conn (s : Choking) (pb : PendingBlock) : (s.release pb).conn = s.conn := by
  rw [release]
  split_ifs <;> rfl

/-- The connection is not closed by this. -/
theorem release_disconnecting (s : Choking) (pb : PendingBlock) :
    (s.release pb).disconnecting = s.disconnecting := by
  rw [release]
  split_ifs <;> rfl

/-- What `clear_download_queue` has done when it got through the entries `q`. -/
structure Cleared (s : Choking) (q : List PendingBlock) (s' : Choking) : Prop where
  downloadQueue : s'.conn.downloadQueue.length = s.conn.downloadQueue.length - q.length
  requestQueue : s'.conn.requestQueue = s.conn.requestQueue
  outstandingBytes : s.conn.outstandingBytes = 0 → s'.conn.outstandingBytes = 0
  disconnecting : s'.disconnecting = s.disconnecting
  aborted : s'.aborted = s.aborted ++ wantedBlocks q.reverse

/-- The queue is cleared from the back. -/
theorem foldr_cleared {q : List PendingBlock} (hq : Sized t q) (s : Choking) :
    Cleared s q (q.foldr (fun pb s =>
      let s := s.release pb
      { s with
        conn := { s.conn.subOutstanding (t.toReq pb.block).length with
          downloadQueue := s.conn.downloadQueue.dropLast } }) s) := by
  induction q with
  | nil => exact ⟨rfl, rfl, id, rfl, (List.append_nil _).symm⟩
  | cons pb q ih =>
    obtain ⟨hlen, hreq, hout, hdis, hab⟩ := ih fun pb hpb => hq pb (List.mem_cons_of_mem _ hpb)
    have h0 : 0 ≤ (t.toReq pb.block).length := hq pb List.mem_cons_self
    rw [List.foldr_cons]
    dsimp only
    refine ⟨?_, ?_, fun hs => ?_, ?_, ?_⟩
    · rw [release_conn, List.length_dropLast, hlen, List.length_cons]
      omega
    · rw [release_conn]
      exact hreq
    · rw [release_conn]
      change max (_ - _) 0 = (0 : ℤ)
      rw [hout hs]
      omega
    · rw [release_disconnecting, hdis]
    · rw [release_aborted, hab, List.append_assoc, ← wantedBlocks_append, List.reverse_cons]

/-- All of it is. -/
theorem clearDownloadQueue_cleared (s : Choking) (hq : Sized t s.conn.downloadQueue) :
    Cleared s s.conn.downloadQueue (s.clearDownloadQueue t) := foldr_cleared hq s

/-- What `disconnect` makes of a connection that waits for nothing it has not asked for. -/
structure Disconnected (w : ChokeWorld) (s s' : Choking) : Prop where
  downloadQueue : s'.conn.downloadQueue = []
  requestQueue : s'.conn.requestQueue = []
  outstandingBytes : s'.conn.outstandingBytes = 0
  disconnecting : s'.disconnecting = true
  aborted : s'.aborted = s.aborted ++ if w.hasPicker then wantedBlocks s.conn.downloadQueue.reverse else []

/-- The queues are empty when the connection is closed. -/
theorem disconnect_spec (s : Choking) (hr : s.conn.requestQueue = []) (hout : s.conn.outstandingBytes = 0)
    (hq : Sized t s.conn.downloadQueue) : Disconnected w s (s.disconnect w t) := by
  obtain ⟨hlen, hreq, hout', hdis, hab⟩ := clearDownloadQueue_cleared { s with disconnecting := true } hq
  have hnil : ({ s with disconnecting := true }.clearDownloadQueue t).conn.requestQueue = [] := hreq.trans hr
  rw [disconnect]
  dsimp only
  by_cases hp : w.hasPicker = true
  · rw [if_pos hp, hnil]
    refine ⟨List.eq_nil_of_length_eq_zero (hlen.trans (Nat.sub_self _)), rfl, hout' hout, hdis, ?_⟩
    rw [if_pos hp]
    exact hab
  · rw [if_neg hp]
    refine ⟨rfl, rfl, rfl, rfl, ?_⟩
    rw [if_neg hp]
    exact (List.append_nil _).symm

/-- A graceful pause closes the connection when nothing is outstanding. -/
theorem checkGracefulPause_cases (s : Choking) :
    ((w.gracefulPause = true → 0 < s.conn.outstandingBytes) ∧ s.checkGracefulPause w t = s) ∨
      (w.gracefulPause = true ∧ s.conn.outstandingBytes ≤ 0) ∧ s.checkGracefulPause w t = s.disconnect w t := by
  rw [checkGracefulPause]
  split_ifs with hp hout
  · refine .inl ⟨fun h => ?_, rfl⟩
    rw [h] at hp
    cases hp
  · exact .inl ⟨fun _ => hout, rfl⟩
  · exact .inr ⟨⟨by simpa using hp, Int.not_lt.mp hout⟩, rfl⟩

/-- The blocks a list of rejected requests returns. -/
def returned (w : ChokeWorld) (l : List PendingBlock) : List PieceBlock :=
  if w.isSeed then [] else wantedBlocks l

/-- Rejects one after the other. -/
theorem returned_append (l l' : List PendingBlock) :
    returned w (l ++ l') = returned w l ++ returned w l' := by
  rw [returned, returned, returned]
  split_ifs
  · rfl
  · exact wantedBlocks_append l l'

/-- No reject returns nothing. -/
theorem returned_nil : returned w [] = [] := ite_self _

/-- The state after the request `pb` has been rejected, with the queue that is left. -/
def reject (t : Torrent) (w : ChokeWorld) (s : Choking) (pb : PendingBlock) (queue : List PendingBlock) : Choking :=
  { s with
    conn := { s.conn.subOutstanding (t.blockLength pb.block) with downloadQueue := queue }
    aborted := s.aborted ++ returned w [pb] }

/-- The peer stays choked. -/
theorem Choked.reject (h : Choked s) (pb : PendingBlock) (queue : List PendingBlock) :
    Choked (s.reject t w pb queue) :=
  ⟨h.peerChoked, h.allowedFast, h.requestQueue, h.disconnecting⟩

/-- The entry is the first one for its block. -/
theorem dropRequest_eq (hp : w.onParole = false) {skipped rest : List PendingBlock} {pb : PendingBlock}
    (hq : s.conn.downloadQueue = skipped ++ pb :: rest) (hskip : ∀ q ∈ skipped, q.block ≠ pb.block)
    (hf : t.rejectFits pb.block = true) :
    s.dropRequest (t := t) w (rejectOf t pb.block) = s.reject t w pb (skipped ++ rest) := by
  have hne : ∀ q ∈ skipped, ¬ (decide (q.block = pb.block)) = true := fun q hq => by
    rw [decide_eq_true_iff]
    exact hskip q hq
  have hfind : (s.conn.downloadQueue.find? fun q => q.block = pb.block) = some pb := by
    rw [hq, List.find?_append, List.find?_eq_none.mpr hne, List.find?_cons_of_pos (by simp)]
    rfl
  have herase : eraseBlock s.conn.downloadQueue pb.block = skipped ++ rest := by
    rw [eraseBlock, hq, List.eraseP_append_right _ hne, List.eraseP_cons_of_pos (by simp)]
  rw [dropRequest, Torrent.blockOf_rejectOf, hfind]
  dsimp only
  rw [hp, herase, Torrent.rejectOf_length hf, Choking.reject, returned]
  cases hs : w.isSeed <;> cases hw : pb.wanted <;> simp [hw, abortDownload, wantedBlocks]

/-- An invalid reject is ignored. -/
theorem incomingRejectRequest_of_not_fits (hlast : t.lastPieceSize ≤ t.pieceLength) {pb : PendingBlock}
    (hb : t.Owns pb.block) (hf : t.rejectFits pb.block = false) :
    s.incomingRejectRequest w t (rejectOf t pb.block) = s := by
  rw [incomingRejectRequest, Torrent.validReject_rejectOf hlast hb, hf]
  split_ifs with hd hn
  · rfl
  · rfl
  · exact absurd rfl hn

/-- A valid reject takes the entry out, and may then close the connection. -/
theorem incomingRejectRequest_of_fits (hlast : t.lastPieceSize ≤ t.pieceLength) (h : Choked s)
    (hp : w.onParole = false) {skipped rest : List PendingBlock} {pb : PendingBlock}
    (hq : s.conn.downloadQueue = skipped ++ pb :: rest) (hsized : Sized t s.conn.downloadQueue)
    (hskip : ∀ q ∈ skipped, q.block ≠ pb.block) (hb : t.Owns pb.block) (hf : t.rejectFits pb.block = true) :
    let s' := s.reject t w pb (skipped ++ rest)
    ((w.gracefulPause = true → 0 < s'.conn.outstandingBytes) ∧
        s.incomingRejectRequest w t (rejectOf t pb.block) = s') ∨
      (w.gracefulPause = true ∧ s'.conn.outstandingBytes = 0) ∧
        Disconnected w s' (s.incomingRejectRequest w t (rejectOf t pb.block)) := by
  set s' := s.reject t w pb (skipped ++ rest) with hs'
  have hc : Choked s' := h.reject pb _
  have hfast : { s' with allowedFast := s'.allowedFast.erase (rejectOf t pb.block).piece } = s' := by
    rw [hc.allowedFast, List.erase_nil, ← hc.allowedFast]
  rw [incomingRejectRequest, if_neg (by rw [h.disconnecting]; exact Bool.false_ne_true),
    Torrent.validReject_rejectOf hlast hb, hf, if_neg (by decide)]
  dsimp only
  rw [dropRequest_eq hp hq hskip hf, ← hs', if_pos hc.peerChoked, hfast]
  rcases checkGracefulPause_cases (t := t) (w := w) s' with ⟨hopen, heq⟩ | ⟨⟨hpause, hle⟩, heq⟩
  · rw [heq, hc.disconnecting, if_neg Bool.false_ne_true, hc.requestABlock]
    exact .inl ⟨hopen, ite_self _⟩
  · have h0 : s'.conn.outstandingBytes = 0 := Int.le_antisymm hle (Int.le_max_right _ _)
    have hsub : Sized t s'.conn.downloadQueue := fun q hq' => hsized q <| by
      rw [hq]
      exact List.Sublist.subset ((List.sublist_cons_self pb rest).append_left skipped) hq'
    have hd := disconnect_spec (w := w) s' hc.requestQueue h0 hsub
    rw [heq, if_pos hd.disconnecting]
    exact .inr ⟨⟨hpause, h0⟩, hd⟩

/-! ### The loop -/

/-- The entries whose rejects are valid, and the others. -/
def fits (t : Torrent) (l : List PendingBlock) : List PendingBlock := l.filter fun pb => t.rejectFits pb.block

/-- Those whose rejects are not. -/
def shorts (t : Torrent) (l : List PendingBlock) : List PendingBlock := l.filter fun pb => !t.rejectFits pb.block

/-- In a graceful pause, rejects for the entries `l` bring the counter to zero, which closes the connection. -/
def closes (w : ChokeWorld) (t : Torrent) (out : ℤ) (l : List PendingBlock) : Prop :=
  w.gracefulPause = true ∧ fits t l ≠ [] ∧ out ≤ total t (fits t l)

theorem fits_cons_of_fits {pb : PendingBlock} (hf : t.rejectFits pb.block = true) (l : List PendingBlock) :
    fits t (pb :: l) = pb :: fits t l := List.filter_cons_of_pos hf

theorem fits_cons_of_not_fits {pb : PendingBlock} (hf : t.rejectFits pb.block = false) (l : List PendingBlock) :
    fits t (pb :: l) = fits t l := List.filter_cons_of_neg (by rw [hf]; exact Bool.false_ne_true)

theorem shorts_cons_of_fits {pb : PendingBlock} (hf : t.rejectFits pb.block = true) (l : List PendingBlock) :
    shorts t (pb :: l) = shorts t l := List.filter_cons_of_neg (by rw [hf]; decide)

theorem shorts_cons_of_not_fits {pb : PendingBlock} (hf : t.rejectFits pb.block = false) (l : List PendingBlock) :
    shorts t (pb :: l) = pb :: shorts t l := List.filter_cons_of_pos (by rw [hf]; rfl)

/-- An invalid reject does not count. -/
theorem closes_cons_of_not_fits {pb : PendingBlock} (hf : t.rejectFits pb.block = false) (out : ℤ)
    (l : List PendingBlock) : closes w t out (pb :: l) ↔ closes w t out l := by
  rw [closes, fits_cons_of_not_fits hf]
  rfl

/-- A valid one that leaves bytes outstanding is not the one that closes the connection. -/
theorem closes_cons_of_fits {pb : PendingBlock} (hf : t.rejectFits pb.block = true) {out : ℤ}
    (hopen : w.gracefulPause = true → 0 < max (out - t.blockLength pb.block) 0) (l : List PendingBlock) :
    closes w t out (pb :: l) ↔ closes w t (max (out - t.blockLength pb.block) 0) l := by
  rw [closes, closes, fits_cons_of_fits hf, total_cons]
  refine and_congr_right fun hp => ?_
  have hpos := hopen hp
  have heq : max (out - t.blockLength pb.block) 0 = out - t.blockLength pb.block := by omega
  rw [heq] at hpos ⊢
  constructor
  · rintro ⟨-, hle⟩
    refine ⟨fun hnil => ?_, by omega⟩
    rw [hnil] at hle
    have : total t [] = 0 := rfl
    omega
  · rintro ⟨-, hle⟩
    exact ⟨List.cons_ne_nil _ _, by omega⟩

/-- What the loop over `l` makes of a connection that stays open; `skipped` is what it left in the queue before. -/
structure StaysOpen (w : ChokeWorld) (t : Torrent) (s : Choking) (skipped l : List PendingBlock) (s' : Choking) :
    Prop where
  downloadQueue : s'.conn.downloadQueue = skipped ++ shorts t l
  requestQueue : s'.conn.requestQueue = []
  outstandingBytes : s'.conn.outstandingBytes = max (s.conn.outstandingBytes - total t (fits t l)) 0
  aborted : s'.aborted = s.aborted ++ returned w (fits t l)

/-- What it makes of a connection that is closed on the way, with the reject for `pb`. -/
structure Closed (w : ChokeWorld) (t : Torrent) (s : Choking) (skipped l : List PendingBlock) (s' : Choking) :
    Prop where
  downloadQueue : s'.conn.downloadQueue = []
  requestQueue : s'.conn.requestQueue = []
  outstandingBytes : s'.conn.outstandingBytes = 0
  aborted : ∃ pre pb post, l = pre ++ pb :: post ∧ t.rejectFits pb.block = true ∧
    ¬ closes w t s.conn.outstandingBytes pre ∧ closes w t s.conn.outstandingBytes (pre ++ [pb]) ∧
    s'.aborted = s.aborted ++ (returned w (fits t (pre ++ [pb])) ++
      if w.hasPicker then wantedBlocks (skipped ++ shorts t pre ++ post).reverse else [])

variable {skipped l : List PendingBlock} {pb : PendingBlock} {s' : Choking}

/-- The entry of an invalid reject stays in the queue. -/
theorem StaysOpen.cons_of_not_fits (hf : t.rejectFits pb.block = false)
    (h : StaysOpen w t s (skipped ++ [pb]) l s') : StaysOpen w t s skipped (pb :: l) s' where
  downloadQueue := by
    rw [h.downloadQueue, shorts_cons_of_not_fits hf, List.append_assoc]
    rfl
  requestQueue := h.requestQueue
  outstandingBytes := by rw [h.outstandingBytes, fits_cons_of_not_fits hf]
  aborted := by rw [h.aborted, fits_cons_of_not_fits hf]

/-- It is still there when the connection is closed. -/
theorem Closed.cons_of_not_fits (hf : t.rejectFits pb.block = false)
    (h : Closed w t s (skipped ++ [pb]) l s') : Closed w t s skipped (pb :: l) s' where
  downloadQueue := h.downloadQueue
  requestQueue := h.requestQueue
  outstandingBytes := h.outstandingBytes
  aborted := by
    obtain ⟨pre, last, post, rfl, hlast, hnot, hyes, ha⟩ := h.aborted
    refine ⟨pb :: pre, last, post, rfl, hlast, ?_, (closes_cons_of_not_fits hf _ _).mpr hyes, ?_⟩
    · exact fun hc => hnot ((closes_cons_of_not_fits hf _ _).mp hc)
    · rw [ha, List.cons_append, fits_cons_of_not_fits hf, shorts_cons_of_not_fits hf,
        List.append_assoc skipped [pb]]
      rfl

/-- The entry of a valid reject leaves the queue. -/
theorem StaysOpen.cons_of_fits (hf : t.rejectFits pb.block = true) (hl : Sized t (fits t l))
    (h : StaysOpen w t (s.reject t w pb (skipped ++ l)) skipped l s') : StaysOpen w t s skipped (pb :: l) s' where
  downloadQueue := by rw [h.downloadQueue, shorts_cons_of_fits hf]
  requestQueue := h.requestQueue
  outstandingBytes := by
    have h0 := hl.total_nonneg
    have heq : (s.reject t w pb (skipped ++ l)).conn.outstandingBytes =
      max (s.conn.outstandingBytes - t.blockLength pb.block) 0 := rfl
    rw [h.outstandingBytes, fits_cons_of_fits hf, total_cons, heq]
    omega
  aborted := by
    rw [h.aborted, fits_cons_of_fits hf, ← List.singleton_append, returned_append, ← List.append_assoc]
    rfl

/-- A later reject closes the connection. -/
theorem Closed.cons_of_fits (hf : t.rejectFits pb.block = true)
    (hopen : w.gracefulPause = true → 0 < (s.reject t w pb (skipped ++ l)).conn.outstandingBytes)
    (h : Closed w t (s.reject t w pb (skipped ++ l)) skipped l s') : Closed w t s skipped (pb :: l) s' where
  downloadQueue := h.downloadQueue
  requestQueue := h.requestQueue
  outstandingBytes := h.outstandingBytes
  aborted := by
    obtain ⟨pre, last, post, hl, hlast, hnot, hyes, ha⟩ := h.aborted
    refine ⟨pb :: pre, last, post, by rw [hl]; rfl, hlast, ?_, (closes_cons_of_fits hf hopen _).mpr hyes, ?_⟩
    · exact fun hc => hnot ((closes_cons_of_fits hf hopen _).mp hc)
    · have hr : (s.reject t w pb (skipped ++ l)).aborted = s.aborted ++ returned w [pb] := rfl
      have hcons : returned w (pb :: fits t (pre ++ [last])) = returned w [pb] ++ returned w (fits t (pre ++ [last])) :=
        returned_append [pb] _
      rw [ha, hr, List.cons_append, fits_cons_of_fits hf, shorts_cons_of_fits hf, hcons]
      simp only [List.append_assoc]

/-- The reject for the front of the queue closes the connection. -/
theorem Closed.of_disconnected (hf : t.rejectFits pb.block = true) (hpause : w.gracefulPause = true)
    (hle : s.conn.outstandingBytes ≤ t.blockLength pb.block)
    (h : Disconnected w (s.reject t w pb (skipped ++ l)) s') : Closed w t s skipped (pb :: l) s' where
  downloadQueue := h.downloadQueue
  requestQueue := h.requestQueue
  outstandingBytes := h.outstandingBytes
  aborted := by
    have hfits : fits t [pb] = [pb] := fits_cons_of_fits hf []
    refine ⟨[], pb, l, rfl, hf, fun hc => hc.2.1 rfl, ⟨hpause, ?_, ?_⟩, ?_⟩
    · rw [List.nil_append, hfits]
      exact List.cons_ne_nil _ _
    · rw [List.nil_append, hfits]
      exact hle.trans_eq (Int.add_zero _).symm
    · rw [h.aborted, List.nil_append, hfits, ← List.append_assoc]
      rw [shorts, List.filter_nil, List.append_nil]
      rfl

/-- Nothing is done for a connection that is closed. -/
theorem foldl_of_disconnecting (h : s.disconnecting = true) (l : List PendingBlock) :
    l.foldl (fun s pb => s.incomingRejectRequest w t (rejectOf t pb.block)) s = s := by
  induction l with
  | nil => rfl
  | cons pb l ih =>
    have hstep : s.incomingRejectRequest w t (rejectOf t pb.block) = s := by
      rw [incomingRejectRequest, if_pos h]
    rw [List.foldl_cons, hstep]
    exact ih

/-- The loop either leaves the connection open or closes it. -/
theorem foldl_rejects (hlast : t.lastPieceSize ≤ t.pieceLength) (hp : w.onParole = false)
    {skipped l : List PendingBlock} (h : Choked s) (hout : 0 ≤ s.conn.outstandingBytes)
    (hq : s.conn.downloadQueue = skipped ++ l) (hskip : ∀ q ∈ skipped, t.rejectFits q.block = false)
    (hown : ∀ q ∈ skipped ++ l, t.Owns q.block) :
    let s' := l.foldl (fun s pb => s.incomingRejectRequest w t (rejectOf t pb.block)) s
    ¬ closes w t s.conn.outstandingBytes l ∧ StaysOpen w t s skipped l s' ∨
      closes w t s.conn.outstandingBytes l ∧ Closed w t s skipped l s' := by
  induction l generalizing s skipped with
  | nil =>
    refine .inl ⟨fun hc => hc.2.1 rfl, hq, h.requestQueue, ?_, ?_⟩
    · change s.conn.outstandingBytes = max (s.conn.outstandingBytes - 0) 0
      omega
    · change s.aborted = s.aborted ++ returned w []
      rw [returned_nil, List.append_nil]
  | cons pb l ih =>
    have hpb : t.Owns pb.block := hown pb (List.mem_append_right _ List.mem_cons_self)
    have hpre : skipped ++ [pb] ++ l = skipped ++ pb :: l := (List.append_cons skipped pb l).symm
    rw [List.foldl_cons]
    cases hf : t.rejectFits pb.block with
    | false =>
      rw [incomingRejectRequest_of_not_fits hlast hpb hf, closes_cons_of_not_fits hf]
      have hskip' : ∀ q ∈ skipped ++ [pb], t.rejectFits q.block = false := by
        intro q hq
        rcases List.mem_append.mp hq with hq | hq
        · exact hskip q hq
        · rw [List.mem_singleton.mp hq]
          exact hf
      have hrun := ih h hout (hq.trans hpre.symm) hskip' fun q hq => hown q (hpre ▸ hq)
      exact hrun.imp (And.imp_right (.cons_of_not_fits hf)) (And.imp_right (.cons_of_not_fits hf))
    | true =>
      have hne : ∀ q ∈ skipped, q.block ≠ pb.block := fun q hq he => by
        have := hskip q hq
        rw [he, hf] at this
        cases this
      have hsized : Sized t (skipped ++ pb :: l) := fun q hq => (hown q hq).block.length_nonneg
      have hfits : Sized t (fits t l) := fun q hq =>
        hsized q (List.mem_append_right _ (List.mem_cons_of_mem _ (List.mem_of_mem_filter hq)))
      rcases incomingRejectRequest_of_fits hlast h hp hq (hq ▸ hsized) hne hpb hf with
        ⟨hopen, heq⟩ | ⟨⟨hpause, h0⟩, hd⟩
      · have hrun := ih (h.reject (t := t) (w := w) pb (skipped ++ l)) (le_max_right _ _) rfl hskip fun q hq => hown q <|
          ((List.sublist_cons_self pb l).append_left skipped).subset hq
        rw [heq, closes_cons_of_fits hf hopen]
        exact hrun.imp (And.imp_right (.cons_of_fits hf hfits)) (And.imp_right (.cons_of_fits hf hopen))
      · have hle : s.conn.outstandingBytes ≤ t.blockLength pb.block := by
          change max (s.conn.outstandingBytes - t.blockLength pb.block) 0 = 0 at h0
          omega
        rw [foldl_of_disconnecting hd.disconnecting]
        refine .inr ⟨⟨hpause, ?_, ?_⟩, .of_disconnected hf hpause hle hd⟩
        · rw [fits_cons_of_fits hf]
          exact List.cons_ne_nil _ _
        · have := hfits.total_nonneg
          rw [fits_cons_of_fits hf, total_cons]
          omega

/-! ### All blocks -/

/-- A peer without the fast extension, between two messages. -/
structure Ready (t : Torrent) (s : Choking) : Prop where
  supportsFast : s.conn.supportsFast = false
  /-- the message that fills the set is an error without the extension -/
  allowedFast : s.allowedFast = []
  disconnecting : s.disconnecting = false
  aborted : s.aborted = []
  outstandingBytes : 0 ≤ s.conn.outstandingBytes
  blocks : ∀ pb ∈ s.conn.downloadQueue, t.Owns pb.block
  unique : ((s.conn.downloadQueue ++ s.conn.requestQueue).map PendingBlock.block).Nodup

/-- The choke has returned every block that was queued. -/
structure AllReturned (s s' : Choking) : Prop where
  downloadQueue : s'.conn.downloadQueue = []
  requestQueue : s'.conn.requestQueue = []
  outstandingBytes : s'.conn.outstandingBytes = 0
  aborted : ∀ pb ∈ s.conn.downloadQueue ++ s.conn.requestQueue, pb.wanted = true → s'.aborted.count pb.block = 1

/-- When it does: every reject is valid, and they add up to at least what is outstanding (or they close a connection
that is pausing). Without a picker, and for a seed, there is nothing to return. -/
structure Returns (w : ChokeWorld) (t : Torrent) (s : Choking) : Prop where
  rejects : closes w t s.conn.outstandingBytes s.conn.downloadQueue ∨
    (∀ pb ∈ s.conn.downloadQueue, t.rejectFits pb.block = true) ∧
      s.conn.outstandingBytes ≤ total t s.conn.downloadQueue
  picker : w.hasPicker = false → ∀ pb ∈ s.conn.downloadQueue ++ s.conn.requestQueue, pb.wanted = false
  seed : w.isSeed = true → ∀ pre pb post, s.conn.downloadQueue = pre ++ pb :: post →
    t.rejectFits pb.block = true → pb.wanted = true → closes w t s.conn.outstandingBytes pre

/-- The blocks that `clear_request_queue` hands back. -/
def cleared (w : ChokeWorld) (l : List PendingBlock) : List PieceBlock :=
  if w.hasPicker then l.map PendingBlock.block else []

/-- The choke comes first. -/
theorem Ready.choked (h : Ready t s) (hp : w.onParole = false) : Choked (s.incomingChoke w) := by
  rw [incomingChoke, hp]
  dsimp only
  split_ifs with h₁ h₂
  · exact ⟨rfl, h.allowedFast, rfl, h.disconnecting⟩
  · exact ⟨rfl, h.allowedFast, rfl, h.disconnecting⟩
  · exact absurd rfl h₂

/-- It leaves the download queue to the loop. -/
theorem incomingChoke_downloadQueue (s : Choking) :
    (s.incomingChoke w).conn.downloadQueue = s.conn.downloadQueue := by
  rw [incomingChoke]
  dsimp only
  split_ifs <;> rfl

/-- And the counter. -/
theorem incomingChoke_outstandingBytes (s : Choking) :
    (s.incomingChoke w).conn.outstandingBytes = s.conn.outstandingBytes := by
  rw [incomingChoke]
  dsimp only
  split_ifs <;> rfl

/-- The peer is what it was. -/
theorem incomingChoke_supportsFast (s : Choking) :
    (s.incomingChoke w).conn.supportsFast = s.conn.supportsFast := by
  rw [incomingChoke]
  dsimp only
  split_ifs <;> rfl

/-- The requests that were not sent are handed back. -/
theorem Ready.incomingChoke_aborted (h : Ready t s) (hp : w.onParole = false) :
    (s.incomingChoke w).aborted = cleared w s.conn.requestQueue := by
  rw [incomingChoke, hp, cleared]
  cases hw : w.hasPicker
  · exact h.aborted
  · change s.aborted ++ _ = _
    rw [h.aborted]
    rfl

/-- All of `on_choke`. -/
theorem onChoke_cases (hlast : t.lastPieceSize ≤ t.pieceLength) (hp : w.onParole = false) (h : Ready t s) :
    ¬ closes w t s.conn.outstandingBytes s.conn.downloadQueue ∧
        StaysOpen w t (s.incomingChoke w) [] s.conn.downloadQueue (s.onChoke w t) ∨
      closes w t s.conn.outstandingBytes s.conn.downloadQueue ∧
        Closed w t (s.incomingChoke w) [] s.conn.downloadQueue (s.onChoke w t) := by
  have hrun := foldl_rejects (w := w) hlast hp (h.choked hp)
    (h.outstandingBytes.trans_eq (incomingChoke_outstandingBytes s).symm) (incomingChoke_downloadQueue s)
    (fun q hq => absurd hq List.not_mem_nil) h.blocks
  rw [incomingChoke_outstandingBytes] at hrun
  rw [onChoke, incomingChoke_supportsFast, h.supportsFast, if_neg Bool.false_ne_true, incomingChoke_downloadQueue]
  exact hrun

/-- More rejects close it as well. -/
theorem closes.mono {out : ℤ} {l : List PendingBlock} (h : closes w t out l) {l' : List PendingBlock}
    (hl : Sized t l') : closes w t out (l ++ l') := by
  obtain ⟨hp, hne, hle⟩ := h
  have heq : fits t (l ++ l') = fits t l ++ fits t l' := List.filter_append ..
  have h0 : 0 ≤ total t (fits t l') := by
    have hsub : Sized t (fits t l') := fun q hq => hl q (List.mem_of_mem_filter hq)
    exact hsub.total_nonneg
  refine ⟨hp, ?_, ?_⟩
  · rw [heq]
    exact List.append_ne_nil_of_left_ne_nil hne _
  · rw [heq, total_append]
    omega

/-- Only blocks of the queue are returned. -/
theorem returned_sublist (l : List PendingBlock) : (returned w l).Sublist (l.map PendingBlock.block) := by
  rw [returned]
  split_ifs
  · exact List.nil_sublist _
  · exact List.filter_sublist.map _

/-- Only blocks of the other queue are cleared. -/
theorem cleared_sublist (l : List PendingBlock) : (cleared w l).Sublist (l.map PendingBlock.block) := by
  rw [cleared]
  split_ifs
  · exact List.Sublist.refl _
  · exact List.nil_sublist _

/-- No block is queued twice. -/
theorem Ready.nodup_downloadQueue (h : Ready t s) : (s.conn.downloadQueue.map PendingBlock.block).Nodup := by
  have hnd := h.unique
  rw [List.map_append] at hnd
  exact hnd.of_append_left

/-- What comes behind `last` has it in front. -/
theorem prefix_of_mem_right {q pre post pre' post' : List PendingBlock} {last pb : PendingBlock} (hq : q.Nodup)
    (h : q = pre ++ last :: post) (h' : q = pre' ++ pb :: post') (hpb : pb ∈ post) :
    ∃ gap, pre' = pre ++ last :: gap := by
  subst h
  rw [List.nodup_append, List.nodup_cons] at hq
  rcases List.append_eq_append_iff.mp h' with ⟨gap, hpre, hpost⟩ | ⟨gap, hpre, hpost⟩
  · cases gap with
    | nil =>
      obtain ⟨rfl, -⟩ := List.cons.inj hpost
      exact absurd hpb hq.2.1.1
    | cons x gap =>
      obtain ⟨rfl, -⟩ := List.cons.inj hpost
      exact ⟨gap, hpre⟩
  · cases gap with
    | nil =>
      obtain ⟨rfl, -⟩ := List.cons.inj hpost
      exact absurd hpb hq.2.1.1
    | cons x gap =>
      obtain ⟨rfl, -⟩ := List.cons.inj hpost
      refine absurd rfl (hq.2.2 pb ?_ pb (List.mem_cons_of_mem _ hpb))
      rw [hpre]
      exact List.mem_append_right _ List.mem_cons_self

/-- Blocks are not handed back twice. -/
theorem Ready.count_eq_one_iff (h : Ready t s) {blocks : List PieceBlock} {rejected left : List PendingBlock}
    (hq : (rejected ++ left).Perm s.conn.downloadQueue) {extra : List PieceBlock}
    (hextra : extra.Subperm (left.map PendingBlock.block))
    (hb : blocks = cleared w s.conn.requestQueue ++ (returned w rejected ++ extra)) (b : PieceBlock) :
    blocks.count b = 1 ↔ b ∈ blocks := by
  have hsub : blocks.Subperm ((s.conn.downloadQueue ++ s.conn.requestQueue).map PendingBlock.block) := by
    have hrej : (returned w rejected ++ extra).Subperm (s.conn.downloadQueue.map PendingBlock.block) := by
      refine List.Subperm.trans ?_ (hq.map _).subperm
      rw [List.map_append]
      exact (returned_sublist rejected).subperm.append hextra
    rw [hb, List.map_append]
    exact ((cleared_sublist _).subperm.append hrej).trans List.perm_append_comm.subperm
  have hle : blocks.count b ≤ 1 := (hsub.count_le b).trans (List.nodup_iff_count_le_one.mp h.unique b)
  rw [← List.count_pos_iff]
  omega

/-- The block is not queued to be sent. -/
theorem Ready.not_mem_cleared (h : Ready t s) {pb : PendingBlock} (hpb : pb ∈ s.conn.downloadQueue) :
    pb.block ∉ cleared w s.conn.requestQueue := by
  intro hmem
  have hnd := h.unique
  rw [List.map_append, List.nodup_append] at hnd
  exact hnd.2.2 _ (List.mem_map_of_mem hpb) _ ((cleared_sublist _).subset hmem) rfl

/-- All of them are, with a picker. -/
theorem mem_cleared {pb : PendingBlock} {l : List PendingBlock} (hp : w.hasPicker = true) (hpb : pb ∈ l) :
    pb.block ∈ cleared w l := by
  rw [cleared, if_pos hp]
  exact List.mem_map_of_mem hpb

/-- The blocks returned are those that count, unless we are a seed. -/
theorem mem_returned {l : List PendingBlock} {b : PieceBlock} :
    b ∈ returned w l ↔ w.isSeed = false ∧ ∃ pb ∈ l, pb.wanted = true ∧ pb.block = b := by
  rw [returned]
  cases w.isSeed
  · simp [mem_wantedBlocks]
  · simp

/-- Without a picker nothing is handed back. -/
theorem hasPicker_of_mem_cleared {l : List PendingBlock} {b : PieceBlock} (h : b ∈ cleared w l) :
    w.hasPicker = true := by
  rw [cleared] at h
  by_contra hno
  rw [if_neg hno] at h
  exact absurd h List.not_mem_nil

/-- Nor is anything returned. -/
theorem hasPicker_of_mem_returned {l : List PendingBlock} {b : PieceBlock} (h : b ∈ returned w l) :
    w.hasPicker = true := by
  have hs := (mem_returned.mp h).1
  by_contra hno
  rw [w.seed_of_not_hasPicker (Bool.eq_false_iff.mpr hno)] at hs
  cases hs

/-- The connection stayed open. -/
theorem StaysOpen.allReturned_iff (h : Ready t s) (hp : w.onParole = false) {s' : Choking}
    (hnot : ¬ closes w t s.conn.outstandingBytes s.conn.downloadQueue)
    (hs : StaysOpen w t (s.incomingChoke w) [] s.conn.downloadQueue s') : AllReturned s s' ↔ Returns w t s := by
  have hab : s'.aborted =
      cleared w s.conn.requestQueue ++ (returned w (fits t s.conn.downloadQueue) ++ []) := by
    rw [hs.aborted, h.incomingChoke_aborted hp, List.append_nil]
  have hperm : (fits t s.conn.downloadQueue ++ shorts t s.conn.downloadQueue).Perm s.conn.downloadQueue :=
    List.filter_append_perm _ _
  have hcount := h.count_eq_one_iff hperm List.nil_subperm hab
  have hmem : ∀ b, b ∈ s'.aborted ↔
      b ∈ cleared w s.conn.requestQueue ∨ b ∈ returned w (fits t s.conn.downloadQueue) := fun b => by
    rw [hab, List.append_nil, List.mem_append]
  have hout := hs.outstandingBytes
  rw [incomingChoke_outstandingBytes] at hout
  constructor
  · intro hall
    have hshort : shorts t s.conn.downloadQueue = [] := hs.downloadQueue.symm.trans hall.downloadQueue
    have hfits : ∀ pb ∈ s.conn.downloadQueue, t.rejectFits pb.block = true := fun pb hpb => by
      have := List.filter_eq_nil_iff.mp hshort pb hpb
      simpa using this
    have heq : fits t s.conn.downloadQueue = s.conn.downloadQueue := List.filter_eq_self.mpr hfits
    refine ⟨.inr ⟨hfits, ?_⟩, fun hno pb hpb => ?_, fun hseed pre pb post hq hf hw => ?_⟩
    · rw [hall.outstandingBytes, heq] at hout
      omega
    · refine Bool.eq_false_iff.mpr fun hw => ?_
      have hyes := ((hmem _).mp ((hcount _).mp (hall.aborted pb hpb hw))).elim hasPicker_of_mem_cleared
        hasPicker_of_mem_returned
      rw [hno] at hyes
      cases hyes
    · have hpb : pb ∈ s.conn.downloadQueue := hq ▸ List.mem_append_right _ List.mem_cons_self
      rcases (hmem _).mp ((hcount _).mp (hall.aborted pb (List.mem_append_left _ hpb) hw)) with hm | hm
      · exact absurd hm (h.not_mem_cleared hpb)
      · have := (mem_returned.mp hm).1
        rw [hseed] at this
        cases this
  · rintro ⟨hrej, hpick, hseed⟩
    obtain ⟨hfits, hle⟩ := hrej.resolve_left hnot
    have heq : fits t s.conn.downloadQueue = s.conn.downloadQueue := List.filter_eq_self.mpr hfits
    refine ⟨?_, hs.requestQueue, ?_, fun pb hpb hw => (hcount _).mpr ((hmem _).mpr ?_)⟩
    · rw [hs.downloadQueue]
      refine List.filter_eq_nil_iff.mpr fun pb hpb => ?_
      rw [hfits pb hpb]
      decide
    · rw [heq] at hout
      omega
    · have hpicker : w.hasPicker = true := by
        by_contra hno
        rw [hpick (Bool.eq_false_iff.mpr hno) pb hpb] at hw
        cases hw
      rcases List.mem_append.mp hpb with hd | hr
      · have hns : w.isSeed = false := by
          refine Bool.eq_false_iff.mpr fun hs => hnot ?_
          obtain ⟨pre, post, hq⟩ := List.append_of_mem hd
          rw [hq]
          refine (hseed hs pre pb post hq (hfits pb hd) hw).mono fun p hp => ?_
          exact (h.blocks p (hq ▸ List.mem_append_right _ hp)).block.length_nonneg
        exact .inr (mem_returned.mpr ⟨hns, pb, List.mem_filter.mpr ⟨hd, hfits pb hd⟩, hw, rfl⟩)
      · exact .inl (mem_cleared hpicker hr)

/-- The connection was closed. -/
theorem Closed.allReturned_iff (h : Ready t s) (hp : w.onParole = false) {s' : Choking}
    (hc : closes w t s.conn.outstandingBytes s.conn.downloadQueue)
    (hs : Closed w t (s.incomingChoke w) [] s.conn.downloadQueue s') : AllReturned s s' ↔ Returns w t s := by
  obtain ⟨pre, last, post, hq, hlast, hnot, hyes, hab⟩ := hs.aborted
  rw [incomingChoke_outstandingBytes] at hnot hyes
  rw [h.incomingChoke_aborted hp, List.nil_append] at hab
  have hsized : Sized t s.conn.downloadQueue := fun p hp => (h.blocks p hp).block.length_nonneg
  have hperm : (fits t (pre ++ [last]) ++ (shorts t pre ++ post)).Perm s.conn.downloadQueue := by
    have hfits : fits t (pre ++ [last]) = fits t pre ++ [last] := by
      rw [fits, List.filter_append]
      exact congrArg _ (fits_cons_of_fits hlast [])
    rw [hfits, hq, List.append_assoc]
    refine List.Perm.trans ?_ ((List.filter_append_perm (fun pb => t.rejectFits pb.block) pre).append_right _)
    rw [List.append_assoc]
    exact (@List.perm_middle _ _ (shorts t pre) _).symm.append_left (fits t pre)
  have hextra : (if w.hasPicker then wantedBlocks (shorts t pre ++ post).reverse else []).Subperm
      ((shorts t pre ++ post).map PendingBlock.block) := by
    split_ifs
    · exact (List.filter_sublist.map _).subperm.trans ((List.reverse_perm _).map _).subperm
    · exact List.nil_subperm
  have hcount := h.count_eq_one_iff hperm hextra hab
  have hmem : ∀ b, b ∈ s'.aborted ↔ b ∈ cleared w s.conn.requestQueue ∨ b ∈ returned w (fits t (pre ++ [last])) ∨
      w.hasPicker = true ∧ ∃ pb ∈ shorts t pre ++ post, pb.wanted = true ∧ pb.block = b := fun b => by
    rw [hab, List.mem_append, List.mem_append]
    cases w.hasPicker
    · simp
    · simp only [mem_wantedBlocks, List.mem_reverse, if_true, true_and]
  constructor
  · intro hall
    refine ⟨.inl hc, fun hno pb hpb => ?_, fun hseed pre' pb post' hq' hf hw => ?_⟩
    · refine Bool.eq_false_iff.mpr fun hw => ?_
      have hyes := ((hmem _).mp ((hcount _).mp (hall.aborted pb hpb hw))).elim hasPicker_of_mem_cleared
        fun h => h.elim hasPicker_of_mem_returned And.left
      rw [hno] at hyes
      cases hyes
    · have hpb : pb ∈ s.conn.downloadQueue := hq' ▸ List.mem_append_right _ List.mem_cons_self
      rcases (hmem _).mp ((hcount _).mp (hall.aborted pb (List.mem_append_left _ hpb) hw)) with hm | hm | ⟨-, hm⟩
      · exact absurd hm (h.not_mem_cleared hpb)
      · have := (mem_returned.mp hm).1
        rw [hseed] at this
        cases this
      · -- it was still in the queue when the connection was closed
        obtain ⟨p, hp, -, hblock⟩ := hm
        have hpost : p ∈ post := (List.mem_append.mp hp).resolve_left fun hshort => by
          have := (List.mem_filter.mp hshort).2
          rw [hblock, hf] at this
          cases this
        have hmid : p ∈ s.conn.downloadQueue :=
          hq ▸ List.mem_append_right _ (List.mem_cons_of_mem _ hpost)
        obtain rfl := List.inj_on_of_nodup_map h.nodup_downloadQueue hmid hpb hblock
        obtain ⟨gap, rfl⟩ := prefix_of_mem_right (h.nodup_downloadQueue.of_map _) hq hq' hpost
        refine List.append_assoc pre [last] gap ▸ hyes.mono fun x hx => hsized x ?_
        rw [hq']
        exact List.mem_append_left _ (List.mem_append_right _ (List.mem_cons_of_mem _ hx))
  · rintro ⟨-, hpick, hseed⟩
    refine ⟨hs.downloadQueue, hs.requestQueue, hs.outstandingBytes, fun pb hpb hw => (hcount _).mpr ((hmem _).mpr ?_)⟩
    have hpicker : w.hasPicker = true := by
      by_contra hno
      rw [hpick (Bool.eq_false_iff.mpr hno) pb hpb] at hw
      cases hw
    rcases List.mem_append.mp hpb with hd | hr
    · refine .inr ?_
      by_cases hleft : pb ∈ shorts t pre ++ post
      · exact .inr ⟨hpicker, pb, hleft, hw, rfl⟩
      · have hmem : pb ∈ fits t (pre ++ [last]) :=
          (List.mem_append.mp (hperm.symm.subset hd)).resolve_right hleft
        refine .inl (mem_returned.mpr ⟨Bool.eq_false_iff.mpr fun hs => hnot ?_, pb, hmem, hw, rfl⟩)
        obtain ⟨hin, hf⟩ := List.mem_filter.mp hmem
        rcases List.mem_append.mp hin with hpre | hl
        · obtain ⟨a, b, rfl⟩ := List.append_of_mem hpre
          refine (hseed hs a pb (b ++ last :: post) (by rw [hq, List.append_assoc]; rfl) hf hw).mono fun x hx => ?_
          exact hsized x (hq ▸ List.mem_append_left _ (List.mem_append_right _ hx))
        · obtain rfl := List.mem_singleton.mp hl
          exact hseed hs pre pb post hq hf hw
    · exact .inl (mem_cleared hpicker hr)

/-- After a choke the queues are empty, nothing is outstanding and every block that was asked for has been returned
once, exactly when all the rejects are valid. -/
theorem onChoke_returns_iff (hlast : t.lastPieceSize ≤ t.pieceLength) (hp : w.onParole = false) (h : Ready t s) :
    AllReturned s (s.onChoke w t) ↔ Returns w t s := by
  rcases onChoke_cases hlast hp h with ⟨hnot, hopen⟩ | ⟨hc, hclosed⟩
  · exact hopen.allReturned_iff h hp hnot
  · exact hclosed.allReturned_iff h hp hc

/-! ### The queues alone -/

/-- The queues after the first part of the choke. -/
theorem incomingChoke_conn (s : Choking) : (s.incomingChoke w).conn = s.conn.incomingChoke (w.world (t := t)) := by
  cases hpicker : w.hasPicker <;> cases hparole : w.onParole <;>
    simp [incomingChoke, PeerConnection.incomingChoke, ChokeWorld.world, hpicker, hparole]

/-- The queues without the request. -/
theorem dropRequest_conn (s : Choking) (r : PeerRequest) :
    (s.dropRequest (t := t) w r).conn = s.conn.dropRequest (w.world (t := t)) r := by
  rw [dropRequest, PeerConnection.dropRequest]
  cases s.conn.downloadQueue.find? fun pb => pb.block = t.blockOf r with
  | none => rfl
  | some pb =>
    have hwanted : pb.wanted = true ↔ !pb.timedOut ∧ !pb.notWanted := by rw [PendingBlock.wanted, Bool.and_eq_true]
    dsimp only [ChokeWorld.world]
    simp only [← hwanted]
    cases w.onParole <;> cases pb.wanted <;> cases w.isSeed <;> rfl

/-- A peer that is not on parole keeps no request. -/
theorem dropRequest_requestQueue (hp : w.onParole = false) (s : Choking) (r : PeerRequest) :
    (s.dropRequest (t := t) w r).conn.requestQueue = s.conn.requestQueue := by
  rw [dropRequest_conn, PeerConnection.dropRequest]
  split
  · rfl
  · exact if_neg fun hc => Bool.false_ne_true (hp.symm.trans hc.1)

/-- The peer stays choked. -/
theorem Choked.dropRequest (h : Choked s) (hp : w.onParole = false) (r : PeerRequest) :
    Choked (s.dropRequest (t := t) w r) := by
  refine ⟨?_, ?_, (dropRequest_requestQueue hp s r).trans h.requestQueue, ?_⟩
  all_goals
    rw [Choking.dropRequest]
    split
    · first | exact h.peerChoked | exact h.allowedFast | exact h.disconnecting
    · rw [hp, if_neg Bool.false_ne_true]
      dsimp only
      split_ifs
      all_goals first | exact h.peerChoked | exact h.allowedFast | exact h.disconnecting

/-- Outside of a graceful pause a reject does the same to the queues of a connection as `incomingRejectRequest`. -/
theorem Choked.incomingRejectRequest_conn (h : Choked s) (hp : w.onParole = false) (hpause : w.gracefulPause = false)
    (r : PeerRequest) : Choked (s.incomingRejectRequest w t r) ∧
      (s.incomingRejectRequest w t r).conn = s.conn.incomingRejectRequest (w.world (t := t)) r := by
  have honReject : (w.world (t := t)).onReject = false := rfl
  rw [Choking.incomingRejectRequest, h.disconnecting, if_neg Bool.false_ne_true, PeerConnection.incomingRejectRequest,
    honReject, if_neg Bool.false_ne_true]
  split_ifs with hvalid
  · exact ⟨h, rfl⟩
  have hd : Choked (s.dropRequest (t := t) w r) := h.dropRequest hp r
  have hconn : (s.dropRequest (t := t) w r).conn = s.conn.dropRequest (w.world (t := t)) r := dropRequest_conn s r
  generalize s.dropRequest (t := t) w r = d at hd hconn
  have hfast : { d with allowedFast := d.allowedFast.erase r.piece } = d := by
    rw [hd.allowedFast, List.erase_nil, ← hd.allowedFast]
  have hopen : d.checkGracefulPause w t = d := by
    rw [checkGracefulPause, hpause]
    rfl
  dsimp only
  rw [if_pos hd.peerChoked, hfast, hopen, hd.disconnecting, if_neg Bool.false_ne_true, hd.requestABlock, ite_self,
    ← hconn]
  exact ⟨hd, (ite_self _).symm⟩

/-- Outside of a graceful pause a choke does the same to the queues as `PeerConnection.onChoke`. -/
theorem onChoke_conn (h : Ready t s) (hp : w.onParole = false) (hpause : w.gracefulPause = false) :
    (s.onChoke w t).conn = s.conn.onChoke (w.world (t := t)) := by
  have hrun : ∀ (l : List PendingBlock) (s : Choking), Choked s →
      (l.foldl (fun s pb => s.incomingRejectRequest w t (rejectOf t pb.block)) s).conn =
        l.foldl (fun c pb => c.incomingRejectRequest (w.world (t := t)) (rejectOf t pb.block)) s.conn := by
    intro l
    induction l with
    | nil => exact fun _ _ => rfl
    | cons pb l ih =>
      intro s hs
      obtain ⟨hs', hconn⟩ := hs.incomingRejectRequest_conn (t := t) hp hpause (rejectOf t pb.block)
      rw [List.foldl_cons, List.foldl_cons, ← hconn]
      exact ih _ hs'
  rw [onChoke, PeerConnection.onChoke, ← incomingChoke_conn]
  split_ifs
  · rfl
  · exact hrun _ _ (h.choked hp)

/-! ### A block that is short -/

/-- Two pieces of 20480 bytes. The first one has a whole block and one of 4096 bytes. -/
def unevenTorrent : Torrent := ⟨2, 0x5000, 0x5000, by decide⟩

/-- The second block of the second piece is returned. The picks are those of a piece picker for the torrent, in which
the block is requested. -/
theorem onChoke_returns_iff_last : ∃ s : {s : PiecePicker // Reach anyCall s}, s.1.downloading 1 ∧
    AllReturned ⟨⟨[⟨⟨1, 1⟩, false, false, false⟩], [], 0, 0x1000, none, none, 0, false, false⟩, false, [], false, []⟩
      (onChoke (.ofPicker {} s (some 1) ⟨[], 1, 0, some 1, {}, [], 1⟩) unevenTorrent
        ⟨⟨[⟨⟨1, 1⟩, false, false, false⟩], [], 0, 0x1000, none, none, 0, false, false⟩, false, [], false, []⟩) := by
  have hany : ((PiecePicker.create 0xa000 0x5000 []).bind
      (PiecePicker.run anyCall · [.markAsDownloading 1 1 (some 1) false false])).any (·.downloading 1) = true := by
    decide +kernel
  obtain ⟨s, hs, hdown⟩ := (Option.any_eq_true _ _).mp hany
  obtain ⟨s₀, hcreate, hrun⟩ := Option.bind_eq_some_iff.mp hs
  refine ⟨⟨s, .run (.create (by decide) (by decide) hcreate) hrun⟩, of_decide_eq_true hdown, ?_⟩
  refine (onChoke_returns_iff (by decide) rfl ⟨rfl, rfl, rfl, rfl, by decide, ?_, by decide⟩).mpr ?_
  · intro pb hpb
    obtain rfl := List.mem_singleton.mp hpb
    exact ⟨by decide, by decide, by decide⟩
  · exact ⟨.inr ⟨by decide, by decide⟩, fun h => Bool.noConfusion h, fun h => Bool.noConfusion h⟩

/-- The second block of the first piece stays in the queue. -/
theorem onChoke_not_returned : ¬ ∀ (t : Torrent) (w : ChokeWorld) (s : Choking),
    0 < t.lastPieceSize → t.lastPieceSize ≤ t.pieceLength → w.onParole = false → Ready t s →
      s.conn.outstandingBytes = total t s.conn.downloadQueue → AllReturned s (s.onChoke w t) := by
  intro h
  have hall := h unevenTorrent {}
    ⟨⟨[⟨⟨0, 1⟩, false, false, false⟩], [], 0, 0x1000, none, none, 0, false, false⟩, false, [], false, []⟩
    (by decide) (by decide) rfl ⟨rfl, rfl, rfl, rfl, by decide, ?_, by decide⟩ (by decide)
  · exact absurd hall.downloadQueue (by decide)
  · intro pb hpb
    obtain rfl := List.mem_singleton.mp hpb
    exact ⟨by decide, by decide, by decide⟩

end Choking

end Peer

end LibtorrentSN
