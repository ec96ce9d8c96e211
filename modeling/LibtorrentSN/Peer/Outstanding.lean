import LibtorrentSN.Peer.Requests

/-!
# Outstanding bytes

The counter of outstanding bytes against the download queue, along every run of a peer connection:
it is the length of all blocks in the queue less what was received of the block being received.
-/

namespace LibtorrentSN

namespace Peer

variable {t : Torrent}

/-- The number of bytes of a block. -/
def Torrent.blockLength (t : Torrent) (b : PieceBlock) : ℤ := (t.toReq b).length

theorem Torrent.blockSize_pos (t : Torrent) : 0 < t.blockSize := lt_min t.pos (by decide)

theorem Torrent.HasBlock.length_nonneg {b : PieceBlock} (h : t.HasBlock b) :
    0 ≤ t.blockLength b := by
  obtain ⟨-, hlt⟩ := h
  exact le_min (by omega) t.blockSize_pos.le

/-- A valid request is as long as its block. -/
theorem Torrent.validate_length {p : PeerRequest} (h : t.validatePieceRequest p = true) :
    t.blockLength (t.blockOf p) = p.length := by
  simp only [Torrent.validatePieceRequest, decide_eq_true_iff] at h
  rw [Torrent.blockLength, h.2.2.2.2]

namespace PeerConnection

/-- The bytes of all blocks in a queue. -/
def total (t : Torrent) (queue : List PendingBlock) : ℤ :=
  (queue.map fun pb => t.blockLength pb.block).sum

/-- The queue has an entry for the block. -/
def HasEntry (queue : List PendingBlock) (b : PieceBlock) : Prop := ∃ pb ∈ queue, pb.block = b

theorem any_block_iff {queue : List PendingBlock} {b : PieceBlock} :
    (queue.any fun pb => pb.block = b) = true ↔ HasEntry queue b := by
  simp [HasEntry]

theorem total_cons (pb : PendingBlock) (queue : List PendingBlock) :
    total t (pb :: queue) = t.blockLength pb.block + total t queue := rfl

theorem total_append (q q' : List PendingBlock) : total t (q ++ q') = total t q + total t q' := by
  simp [total]

/-- A block taken out takes its length with it. -/
theorem total_eraseBlock {queue : List PendingBlock} {b : PieceBlock} (h : HasEntry queue b) :
    total t (eraseBlock queue b) = total t queue - t.blockLength b := by
  induction queue with
  | nil =>
    obtain ⟨pb, hpb, -⟩ := h
    exact absurd hpb List.not_mem_nil
  | cons a queue ih =>
    by_cases hab : a.block = b
    · have : eraseBlock (a :: queue) b = queue := List.eraseP_cons_of_pos (by simpa using hab)
      rw [this, total_cons, hab]
      omega
    · have hrest : HasEntry queue b := by
        obtain ⟨pb, hpb, hb⟩ := h
        rcases List.mem_cons.mp hpb with rfl | hpb
        · exact absurd hb hab
        · exact ⟨pb, hpb, hb⟩
      have : eraseBlock (a :: queue) b = a :: eraseBlock queue b :=
        List.eraseP_cons_of_neg (by simpa using hab)
      rw [this, total_cons, total_cons, ih hrest]
      omega

/-- The entries of other blocks stay. -/
theorem hasEntry_eraseBlock {queue : List PendingBlock} {b d : PieceBlock}
    (h : HasEntry queue d) (hne : d ≠ b) : HasEntry (eraseBlock queue b) d := by
  obtain ⟨pb, hpb, rfl⟩ := h
  refine ⟨pb, ?_, rfl⟩
  rw [eraseBlock, List.mem_eraseP_of_neg (by simpa using hne)]
  exact hpb

/-- Every block of the queue has a length. -/
def Sized (t : Torrent) (queue : List PendingBlock) : Prop :=
  ∀ pb ∈ queue, 0 ≤ t.blockLength pb.block

/-- A queue of blocks of the torrent has no negative total. -/
theorem Sized.total_nonneg {queue : List PendingBlock} (h : Sized t queue) :
    0 ≤ total t queue := by
  refine List.sum_nonneg fun x hx => ?_
  obtain ⟨pb, hpb, rfl⟩ := List.mem_map.mp hx
  exact h pb hpb

/-- No block is longer than the total. -/
theorem Sized.le_total {queue : List PendingBlock} (h : Sized t queue) {b : PieceBlock}
    (hb : HasEntry queue b) : t.blockLength b ≤ total t queue := by
  have hsub : Sized t (eraseBlock queue b) := fun pb hpb => h pb (List.mem_of_mem_eraseP hpb)
  have := hsub.total_nonneg
  rw [total_eraseBlock hb] at this
  omega

/-! ### Calls and runs -/

/-- A call on the connection: messages of the peer and requests of the client. -/
inductive Op (t : Torrent) where
  | sendBlockRequests (w : World t)
  /-- payload of a piece message, with its header if the message is new -/
  | piece (w : World t) (p : PeerRequest) (bytes : ℤ)
  | reject (w : World t) (r : PeerRequest)
  | choke (w : World t)
  | cancelRequest (w : World t) (block : PieceBlock)
  | cancelAllRequests (w : World t)
  | snubPeer (w : World t)
  /-- `add_request` and `make_time_critical` change the queue of requests to send -/
  | request (queue : List PendingBlock) (timeCritical : ℕ)

/-- The call on a connection; `none` when it closes it. -/
def step (c : PeerConnection) : Op t → Option PeerConnection
  | .sendBlockRequests w => some (c.sendBlockRequests w)
  | .piece w p bytes => c.onPiece w p bytes
  | .reject w r => some (c.incomingRejectRequest w r)
  | .choke w => some (c.onChoke w)
  | .cancelRequest w block => some (c.cancelRequest w block)
  | .cancelAllRequests w => some (c.cancelAllRequests w)
  | .snubPeer w => some (c.snubPeer w)
  | .request queue n => some { c with requestQueue := queue, queuedTimeCritical := n }

/-- The call can come now: messages come one after the other, with the payload their headers
announce, and requests are for blocks of the torrent. -/
def Possible (c : PeerConnection) : Op t → Prop
  | .piece _ p bytes =>
    (c.message = none ∨ c.message = some p) ∧ 0 ≤ bytes ∧ c.receivedInPiece + bytes ≤ p.length
  | .reject _ _ => c.message = none
  | .choke _ => c.message = none
  | .request queue _ => ∀ pb ∈ queue, pb ∈ c.requestQueue ∨ t.HasBlock pb.block
  | _ => True

/-- The bytes complete the message. -/
def Completes (c : PeerConnection) (p : PeerRequest) (bytes : ℤ) : Prop :=
  c.receivedInPiece + bytes = p.length

/-- The calls after which the counter is exact: no cancel of the block being received counts as its
reject, and a block that is complete is the one that leaves the queue (no extension takes it, and
for a seed, which removes the front of the queue, the front is as long). -/
def Exact (c : PeerConnection) : Op t → Prop
  | .piece w p bytes =>
    c.Completes p bytes →
      w.onPiece = false ∧
      (p.length ≠ 0 → w.isSeed = true →
        (c.message = none ∧ ¬ HasEntry c.downloadQueue (t.blockOf p)) ∨
          ∃ front ∈ c.downloadQueue.head?, t.blockLength front.block = p.length)
  | .cancelRequest w block =>
    c.receivingBlock = some block → c.supportsFast = true ∨ w.isRequested block = false ∨
      w.onReject = true ∨ c.outstandingBytes < t.blockLength block
  | _ => True

/-- A connection with nothing requested yet. -/
structure Fresh (t : Torrent) (c : PeerConnection) : Prop where
  downloadQueue : c.downloadQueue = []
  requestQueue : ∀ pb ∈ c.requestQueue, t.HasBlock pb.block
  outstandingBytes : c.outstandingBytes = 0
  receivingBlock : c.receivingBlock = none
  message : c.message = none
  receivedInPiece : c.receivedInPiece = 0

/-- The connections reached by calls that all meet the condition `ok`. -/
inductive Run (t : Torrent) (ok : PeerConnection → Op t → Prop) : PeerConnection → Prop where
  | start {c : PeerConnection} (h : Fresh t c) : Run t ok c
  | step {c c' : PeerConnection} (run : Run t ok c) (op : Op t) (hp : c.Possible op)
    (hok : ok c op) (hs : c.step op = some c') : Run t ok c'

/-- The bytes received of the block being received, when it is in the queue. -/
def received (c : PeerConnection) : ℤ :=
  match c.receivingBlock with
  | none => 0
  | some b => if c.downloadQueue.any fun pb => pb.block = b then c.receivedInPiece else 0

/-- The counter is exact. -/
def Balanced (t : Torrent) (c : PeerConnection) : Prop :=
  c.outstandingBytes = total t c.downloadQueue - c.received

instance (t : Torrent) (c : PeerConnection) : Decidable (Balanced t c) :=
  inferInstanceAs (Decidable (_ = _))

/-- What holds between calls. -/
structure Inv (t : Torrent) (c : PeerConnection) : Prop where
  requests : Sized t c.requestQueue
  sized : Sized t c.downloadQueue
  idle : c.message = none → c.receivingBlock = none ∧ c.receivedInPiece = 0
  busy : ∀ p, c.message = some p → t.validatePieceRequest p = true ∧
    c.receivingBlock = some (t.blockOf p) ∧ 0 ≤ c.receivedInPiece ∧
    c.receivedInPiece ≤ p.length ∧ HasEntry c.downloadQueue (t.blockOf p)
  sum : c.outstandingBytes = total t c.downloadQueue - c.receivedInPiece

/-- The invariant contains the balance. -/
theorem Inv.balanced {c : PeerConnection} (h : Inv t c) : Balanced t c := by
  rw [Balanced, h.sum, received]
  cases hm : c.message with
  | none =>
    obtain ⟨hr, h0⟩ := h.idle hm
    rw [hr, h0]
  | some p =>
    obtain ⟨-, hr, -, -, hmem⟩ := h.busy p hm
    rw [hr]
    simp only [any_block_iff.mpr hmem, if_true]

/-- A new connection satisfies the invariant. -/
theorem Fresh.inv {c : PeerConnection} (h : Fresh t c) : Inv t c := by
  refine ⟨fun pb hpb => (h.requestQueue pb hpb).length_nonneg, ?_, fun _ => ⟨h.receivingBlock, h.receivedInPiece⟩,
    fun p hp => ?_, ?_⟩
  · rw [h.downloadQueue]
    exact fun pb hpb => absurd hpb List.not_mem_nil
  · rw [h.message] at hp
    cases hp
  · rw [h.outstandingBytes, h.downloadQueue, h.receivedInPiece]
    rfl

/-! ### One call -/

variable {c c' : PeerConnection} {w : World t}

/-- The queue of requests to send does not matter. -/
theorem Inv.setRequests (h : Inv t c) {queue : List PendingBlock} (n : ℕ)
    (hq : Sized t queue) :
    Inv t { c with requestQueue := queue, queuedTimeCritical := n } :=
  ⟨hq, h.sized, h.idle, h.busy, h.sum⟩

theorem Inv.clearRequests (h : Inv t c) (n : ℕ) :
    Inv t { c with requestQueue := [], queuedTimeCritical := n } :=
  h.setRequests n fun _ hpb => absurd hpb List.not_mem_nil

/-- Filling the request queue keeps the invariant. -/
theorem Inv.requestABlock (h : Inv t c) : Inv t (c.requestABlock w) := by
  refine h.setRequests _ fun pb hpb => ?_
  rcases w.picks c pb hpb with hold | hnew
  · exact h.requests pb hold
  · exact hnew.length_nonneg

/-- A request is appended to the download queue. -/
theorem Inv.push (h : Inv t c) {pb : PendingBlock} (hb : 0 ≤ t.blockLength pb.block) :
    Inv t { c with
      downloadQueue := c.downloadQueue ++ [pb]
      outstandingBytes := c.outstandingBytes + (t.toReq pb.block).length } := by
  refine ⟨h.requests, ?_, h.idle, fun p hp => ?_, ?_⟩
  · intro x hx
    rcases List.mem_append.mp hx with hx | hx
    · exact h.sized x hx
    · rw [List.mem_singleton.mp hx]
      exact hb
  · obtain ⟨h1, h2, h3, h4, x, hx, hxb⟩ := h.busy p hp
    exact ⟨h1, h2, h3, h4, x, List.mem_append_left _ hx, hxb⟩
  · have hone : total t [pb] = (t.toReq pb.block).length := by
      rw [total_cons]
      exact add_zero _
    dsimp only
    rw [total_append, hone, h.sum]
    omega

/-- Merging requests keeps the invariant. -/
theorem Inv.mergeRequests {fuel : ℕ} {block : PieceBlock} (h : Inv t c) :
    Inv t (mergeRequests t fuel c block) := by
  induction fuel generalizing c block with
  | zero => exact h
  | succ fuel ih =>
    rw [PeerConnection.mergeRequests]
    cases hq : c.requestQueue with
    | nil => exact h
    | cons front rest =>
      dsimp only
      split
      · exact h
      · have hfront : 0 ≤ t.blockLength front.block := h.requests front (hq ▸ List.mem_cons_self)
        have hrest : Sized t rest := fun pb hpb =>
          h.requests pb (hq ▸ List.mem_cons_of_mem _ hpb)
        exact ih ((h.push hfront).setRequests _ hrest)

/-- The loop that sends requests keeps the invariant. -/
theorem Inv.sendRequests {fuel : ℕ} (h : Inv t c) : Inv t (sendRequests w fuel c) := by
  induction fuel generalizing c with
  | zero => exact h
  | succ fuel ih =>
    rw [PeerConnection.sendRequests]
    cases hq : c.requestQueue with
    | nil => exact h
    | cons pb rest =>
      have hpb : 0 ≤ t.blockLength pb.block := h.requests pb (hq ▸ List.mem_cons_self)
      have hrest : Sized t rest := fun x hx =>
        h.requests x (hq ▸ List.mem_cons_of_mem _ hx)
      have htaken := h.setRequests (c.queuedTimeCritical - 1) hrest
      dsimp only
      split
      · split
        · exact ih htaken
        · split
          · exact ih htaken
          · split
            · exact ih (htaken.push hpb).mergeRequests
            · exact ih (htaken.push hpb)
      · exact h

theorem Inv.sendBlockRequests (h : Inv t c) : Inv t (c.sendBlockRequests w) := by
  rw [PeerConnection.sendBlockRequests]
  split
  · exact h
  · split
    · exact h
    · exact h.sendRequests

/-! ### Rejects -/

/-- A valid reject is as long as its block. -/
theorem validReject_length {r : PeerRequest} (h : validReject t r = true) :
    t.blockLength (t.blockOf r) = r.length := by
  simp only [validReject, decide_eq_true_iff] at h
  obtain ⟨-, -, -, -, hmod, hlen⟩ := h
  have hstart : r.start / t.blockSize * t.blockSize = r.start :=
    Int.ediv_mul_cancel (Int.dvd_of_emod_eq_zero hmod)
  rw [Torrent.blockLength, Torrent.toReq, hlen]
  dsimp only [Torrent.blockOf]
  rw [hstart]

/-- Taking a request out of the queue that is not being received. -/
theorem Inv.dropRequest (h : Inv t c) {r : PeerRequest}
    (hlen : t.blockLength (t.blockOf r) = r.length)
    (hne : c.receivingBlock ≠ some (t.blockOf r)) : Inv t (c.dropRequest w r) := by
  rw [PeerConnection.dropRequest]
  cases hf : c.downloadQueue.find? fun pb => pb.block = t.blockOf r with
  | none => exact h
  | some pb =>
    have hmem : pb ∈ c.downloadQueue := List.mem_of_find?_eq_some hf
    have hpb : pb.block = t.blockOf r := by simpa using List.find?_some hf
    have hentry : HasEntry c.downloadQueue (t.blockOf r) := ⟨pb, hmem, hpb⟩
    have hsized : Sized t (eraseBlock c.downloadQueue (t.blockOf r)) :=
      fun x hx => h.sized x (List.mem_of_mem_eraseP hx)
    have htotal := total_eraseBlock (t := t) hentry
    -- what is left is enough for what was received
    have hrec : c.receivedInPiece ≤ total t (eraseBlock c.downloadQueue (t.blockOf r)) := by
      cases hm : c.message with
      | none =>
        rw [(h.idle hm).2]
        exact hsized.total_nonneg
      | some p =>
        obtain ⟨hv, hrb, -, hle, hent⟩ := h.busy p hm
        have hpr : t.blockOf p ≠ t.blockOf r := fun he => hne (hrb.trans (congrArg some he))
        have := hsized.le_total (hasEntry_eraseBlock hent hpr)
        rw [Torrent.validate_length hv] at this
        omega
    have hsum := h.sum
    refine ⟨?_, hsized, h.idle, fun p hp => ?_, ?_⟩
    · intro x hx
      dsimp only at hx
      split at hx
      · rcases List.mem_cons.mp hx with rfl | hx
        · exact h.sized x hmem
        · exact h.requests x hx
      · exact h.requests x hx
    · obtain ⟨hv, hrb, h0, hle, hent⟩ := h.busy p hp
      have hpr : t.blockOf p ≠ t.blockOf r := fun he => hne (hrb.trans (congrArg some he))
      exact ⟨hv, hrb, h0, hle, hasEntry_eraseBlock hent hpr⟩
    · dsimp only [subOutstanding]
      rw [htotal, hlen, max_eq_left (by omega)]
      omega

theorem dropRequest_message (c : PeerConnection) (r : PeerRequest) :
    (c.dropRequest w r).message = c.message := by
  rw [PeerConnection.dropRequest]
  split <;> rfl

theorem incomingRejectRequest_message (c : PeerConnection) (r : PeerRequest) :
    (c.incomingRejectRequest w r).message = c.message := by
  have h := dropRequest_message (w := w) c r
  rw [PeerConnection.incomingRejectRequest]
  split
  · rfl
  · split
    · rfl
    · dsimp only
      split
      · exact h
      · exact h

/-- A reject keeps the invariant, unless its block is being received. -/
theorem Inv.incomingRejectRequest (h : Inv t c) {r : PeerRequest}
    (hne : c.receivingBlock ≠ some (t.blockOf r)) : Inv t (c.incomingRejectRequest w r) := by
  rw [PeerConnection.incomingRejectRequest]
  split
  · exact h
  · split
    next => exact h
    next hvalid =>
      have hvalid' : validReject t r = true := by simpa using hvalid
      have hdrop := h.dropRequest (w := w) (validReject_length hvalid') hne
      dsimp only
      split
      · exact hdrop.requestABlock
      · exact hdrop

/-- A choke comes between messages: the requests it rejects are not being received. -/
theorem Inv.rejectAll {queue : List PendingBlock} (h : Inv t c) (hm : c.message = none) :
    Inv t (queue.foldl (fun c pb => c.incomingRejectRequest w (rejectOf t pb.block)) c) := by
  induction queue generalizing c with
  | nil => exact h
  | cons pb queue ih =>
    have hnone := (h.idle hm).1
    have hsame := incomingRejectRequest_message (w := w) c (rejectOf t pb.block)
    refine ih (h.incomingRejectRequest ?_) (hsame.trans hm)
    rw [hnone]
    simp

/-- A choke keeps the invariant. -/
theorem Inv.incomingChoke (h : Inv t c) : Inv t (c.incomingChoke w) := by
  rw [PeerConnection.incomingChoke]
  split
  · exact h
  · split
    · exact h.clearRequests _
    · split
      · exact h.clearRequests _
      · exact h

theorem incomingChoke_message (c : PeerConnection) : (c.incomingChoke w).message = c.message := by
  rw [PeerConnection.incomingChoke]
  split
  · rfl
  · split
    · rfl
    · split <;> rfl

/-- A choke between two messages keeps the invariant. -/
theorem Inv.onChoke (h : Inv t c) (hm : c.message = none) : Inv t (c.onChoke w) := by
  rw [PeerConnection.onChoke]
  split
  · exact h.incomingChoke
  · exact h.incomingChoke.rejectAll ((incomingChoke_message c).trans hm)

/-- The request of a block is for that block. -/
theorem blockOf_toReq (b : PieceBlock) : t.blockOf (t.toReq b) = b := by
  have := t.blockSize_pos
  simp only [Torrent.blockOf, Torrent.toReq, Int.mul_ediv_cancel _ this.ne']

/-- A cancel keeps the invariant. -/
theorem Inv.writeCancel (h : Inv t c) {b : PieceBlock}
    (hne : c.receivingBlock = some b → c.supportsFast = true) :
    Inv t (c.writeCancel w (t.toReq b)) := by
  rw [PeerConnection.writeCancel]
  split
  next => exact h
  next hfast =>
    refine h.incomingRejectRequest fun hc => ?_
    rw [blockOf_toReq] at hc
    exact hfast (hne hc)

/-- Cancelling everything keeps the invariant. -/
theorem Inv.cancelAllRequests (h : Inv t c) : Inv t (c.cancelAllRequests w) := by
  have key : ∀ (queue : List PendingBlock) {c : PeerConnection}, Inv t c →
      Inv t (queue.foldl (fun c pb => if c.receivingBlock = some pb.block then c
        else c.writeCancel w (t.toReq pb.block)) c) := by
    intro queue
    induction queue with
    | nil => exact fun h => h
    | cons pb queue ih =>
      intro c h
      rw [List.foldl_cons]
      split
      next => exact ih h
      next hne => exact ih (h.writeCancel fun hc => absurd hc hne)
  exact key _ (h.clearRequests 0)

/-! ### Cancels and time-outs -/

/-- A queue that differs in flags only. -/
theorem Inv.reflag (h : Inv t c) {queue : List PendingBlock}
    (hq : queue.map PendingBlock.block = c.downloadQueue.map PendingBlock.block) :
    Inv t { c with downloadQueue := queue } := by
  have hlen : (queue.map fun pb => t.blockLength pb.block) =
      c.downloadQueue.map fun pb => t.blockLength pb.block := by
    have := congrArg (List.map t.blockLength) hq
    rw [List.map_map, List.map_map] at this
    exact this
  refine ⟨h.requests, fun pb hpb => ?_, h.idle, fun p hp => ?_, ?_⟩
  · have hmem : pb.block ∈ c.downloadQueue.map PendingBlock.block :=
      hq ▸ List.mem_map_of_mem hpb
    obtain ⟨x, hx, hxb⟩ := List.mem_map.mp hmem
    exact hxb ▸ h.sized x hx
  · obtain ⟨h1, h2, h3, h4, x, hx, hxb⟩ := h.busy p hp
    have hmem : x.block ∈ queue.map PendingBlock.block := hq.symm ▸ List.mem_map_of_mem hx
    obtain ⟨y, hy, hyb⟩ := List.mem_map.mp hmem
    exact ⟨h1, h2, h3, h4, y, hy, hyb.trans hxb⟩
  · have htotal : total t queue = total t c.downloadQueue := congrArg List.sum hlen
    dsimp only
    rw [htotal]
    exact h.sum

theorem markNotWanted_blocks (queue : List PendingBlock) (b : PieceBlock) :
    (markNotWanted queue b).map PendingBlock.block = queue.map PendingBlock.block := by
  induction queue with
  | nil => rfl
  | cons pb queue ih =>
    rw [markNotWanted]
    split
    · rfl
    · rw [List.map_cons, ih, List.map_cons]

theorem timeOutLast_blocks (queue : List PendingBlock) :
    (timeOutLast w queue).1.map PendingBlock.block = queue.map PendingBlock.block := by
  induction queue with
  | nil => rfl
  | cons pb queue ih =>
    simp only [timeOutLast]
    split
    · rw [List.map_cons, ih, List.map_cons]
    · split
      · split
        · rw [List.map_cons, ih, List.map_cons]
        · rw [List.map_cons, ih, List.map_cons]
      · rw [List.map_cons, ih, List.map_cons]

theorem Inv.cancelRequest (h : Inv t c) {b : PieceBlock}
    (hok : c.Exact (.cancelRequest w b)) : Inv t (c.cancelRequest w b) := by
  rw [PeerConnection.cancelRequest]
  split
  next => exact h
  next hreq =>
  have hreq' : w.isRequested b = true := by simpa using hreq
  split
  next hmem =>
    have hflag := h.reflag (markNotWanted_blocks c.downloadQueue b)
    dsimp only
    split
    next => exact hflag
    next hout =>
      -- the cancel is sent: it counts as a reject for a peer without the fast extension
      by_cases hrej : w.onReject = true
      · have hskip : PeerConnection.writeCancel w
            { c with downloadQueue := markNotWanted c.downloadQueue b } (t.toReq b) =
            { c with downloadQueue := markNotWanted c.downloadQueue b } := by
          rw [PeerConnection.writeCancel]
          split
          · rfl
          · rw [PeerConnection.incomingRejectRequest, if_pos hrej]
        rw [hskip]
        exact hflag
      · refine hflag.writeCancel fun hc => ?_
        rcases hok hc with hfast | hno | hno | hlt
        · exact hfast
        · rw [hno] at hreq'
          cases hreq'
        · exact absurd hno hrej
        · exact absurd hlt hout
  next hmem =>
    split
    next =>
      exact h.setRequests _ fun pb hpb => h.requests pb (List.mem_of_mem_eraseP hpb)
    next => exact h

/-- Snubbing the peer keeps the invariant. -/
theorem Inv.snubPeer (h : Inv t c) : Inv t (c.snubPeer w) := by
  have hclear := h.clearRequests 0
  rw [PeerConnection.snubPeer]
  split
  · exact h
  · split
    · exact h
    · dsimp only
      split
      · exact hclear
      · refine (hclear.reflag (timeOutLast_blocks c.downloadQueue)).setRequests _ ?_
        intro pb hpb
        exact hclear.requestABlock.requests pb hpb

/-! ### Piece messages -/

/-- The header of a piece message: the block is in the queue from now on. -/
theorem Inv.startReceivePiece (h : Inv t c) (hm : c.message = none) {p : PeerRequest}
    (hlen : 0 ≤ p.length) (hs : c.startReceivePiece (t := t) p = some c') :
    Inv t c' ∧ c'.message = some p ∧ c'.receivedInPiece = 0 ∧
      (c'.downloadQueue = c.downloadQueue ∨
        ¬ HasEntry c.downloadQueue (t.blockOf p) ∧
          ∃ pb, pb.block = t.blockOf p ∧ c'.downloadQueue = pb :: c.downloadQueue) := by
  have h0 := (h.idle hm).2
  have hsum := h.sum
  rw [PeerConnection.startReceivePiece] at hs
  split at hs
  next => cases hs
  next hvalid =>
  have hv : t.validatePieceRequest p = true := by simpa using hvalid
  have hblock := Torrent.validate_length hv
  dsimp only at hs
  split at hs
  next hany =>
    obtain rfl := Option.some.inj hs
    have hent := any_block_iff.mp hany
    refine ⟨⟨h.requests, h.sized, fun hc => absurd hc (by simp), fun q hq => ?_, ?_⟩,
      rfl, rfl, .inl rfl⟩
    · obtain rfl := Option.some.inj hq
      exact ⟨hv, rfl, le_rfl, hlen, hent⟩
    · rw [hsum, h0]
  next hany =>
    obtain rfl := Option.some.inj hs
    have hno : ¬ HasEntry c.downloadQueue (t.blockOf p) := fun hc => hany (any_block_iff.mpr hc)
    refine ⟨⟨fun pb hpb => h.requests pb (List.mem_of_mem_eraseP hpb), ?_,
      fun hc => absurd hc (by simp), fun q hq => ?_, ?_⟩, rfl, rfl, .inr ⟨hno, _, rfl, rfl⟩⟩
    · intro pb hpb
      rcases List.mem_cons.mp hpb with rfl | hpb
      · exact hblock.symm ▸ hlen
      · exact h.sized pb hpb
    · obtain rfl := Option.some.inj hq
      exact ⟨hv, rfl, le_rfl, hlen, _, List.mem_cons_self, rfl⟩
    · dsimp only
      rw [total_cons, hblock, hsum, h0]
      omega

/-- Payload of the message. -/
theorem Inv.incomingPieceFragment (h : Inv t c) {p : PeerRequest} (hm : c.message = some p)
    {bytes : ℤ} (h0 : 0 ≤ bytes) (hle : c.receivedInPiece + bytes ≤ p.length) :
    Inv t (c.incomingPieceFragment bytes) := by
  obtain ⟨hv, hrb, hr0, -, hent⟩ := h.busy p hm
  have hblock := Torrent.validate_length hv
  have htotal := h.sized.le_total hent
  have hsum := h.sum
  refine ⟨h.requests, h.sized, fun hc => ?_, fun q hq => ?_, ?_⟩
  · rw [show (c.incomingPieceFragment bytes).message = c.message from rfl, hm] at hc
    cases hc
  · have hpq : p = q := Option.some.inj (hm.symm.trans hq)
    subst hpq
    refine ⟨hv, hrb, ?_, hle, hent⟩
    change 0 ≤ c.receivedInPiece + bytes
    omega
  · change max (c.outstandingBytes - bytes) 0 =
      total t c.downloadQueue - (c.receivedInPiece + bytes)
    rw [max_eq_left (by omega)]
    omega

/-- The message is complete. -/
theorem Inv.incomingPiece (h : Inv t c) {p : PeerRequest} (hm : c.message = some p)
    (hfull : c.receivedInPiece = p.length) (hext : w.onPiece = false)
    (hseed : p.length ≠ 0 → w.isSeed = true →
      ∃ front ∈ c.downloadQueue.head?, t.blockLength front.block = p.length) :
    Inv t (c.incomingPiece w p) := by
  obtain ⟨hv, hrb, -, -, hent⟩ := h.busy p hm
  have hblock := Torrent.validate_length hv
  have hsum := h.sum
  rw [hfull] at hsum
  rw [PeerConnection.incomingPiece]
  dsimp only
  rw [if_neg (by rw [hext]; simp)]
  split
  next hzero =>
    -- an empty block: a reject of it
    have hdone : Inv t { c with receivingBlock := none, message := none, receivedInPiece := 0 } := by
      refine ⟨h.requests, h.sized, fun _ => ⟨rfl, rfl⟩, fun q hq => absurd hq (by simp), ?_⟩
      dsimp only
      rw [hsum, hzero]
    exact hdone.incomingRejectRequest (by simp)
  next hzero =>
  split
  next hw =>
    obtain ⟨front, hfront, hlen⟩ := hseed hzero hw
    obtain ⟨rest, hq⟩ : ∃ rest, c.downloadQueue = front :: rest := by
      cases hdq : c.downloadQueue with
      | nil =>
        rw [hdq] at hfront
        cases hfront
      | cons a rest =>
        rw [hdq] at hfront
        obtain rfl := Option.mem_some_iff.mp hfront
        exact ⟨rest, rfl⟩
    refine ⟨h.requests, fun pb hpb => h.sized pb (List.mem_of_mem_tail hpb),
      fun _ => ⟨rfl, rfl⟩, fun q hq => absurd hq (by simp), ?_⟩
    dsimp only
    rw [hsum, hq, total_cons, hlen, List.tail_cons]
    omega
  next hw =>
    rw [if_pos (any_block_iff.mpr hent)]
    refine Inv.requestABlock ⟨h.requests, fun pb hpb => h.sized pb (List.mem_of_mem_eraseP hpb),
      fun _ => ⟨rfl, rfl⟩, fun q hq => absurd hq (by simp), ?_⟩
    dsimp only
    rw [hsum, total_eraseBlock hent, hblock]
    omega

/-- A part of a piece message keeps the invariant. -/
theorem Inv.onPiece (h : Inv t c) {p : PeerRequest} {bytes : ℤ}
    (hp : c.Possible (.piece w p bytes)) (hok : c.Exact (.piece w p bytes))
    (hs : c.onPiece w p bytes = some c') : Inv t c' := by
  obtain ⟨hmsg, h0, hle⟩ := hp
  -- the connection once the header was handled
  have hstart : ∃ d : PeerConnection, Inv t d ∧ d.message = some p ∧
      d.receivedInPiece = c.receivedInPiece ∧
      (d.downloadQueue = c.downloadQueue ∨
        (c.message = none ∧ ¬ HasEntry c.downloadQueue (t.blockOf p)) ∧
          ∃ pb, pb.block = t.blockOf p ∧ d.downloadQueue = pb :: c.downloadQueue) ∧
      c' = if (d.incomingPieceFragment bytes).receivedInPiece = p.length then
        (d.incomingPieceFragment bytes).incomingPiece w p else d.incomingPieceFragment bytes := by
    rw [PeerConnection.onPiece] at hs
    obtain ⟨d, hd, rfl⟩ := Option.map_eq_some_iff.mp hs
    by_cases hm : c.message = none
    · rw [if_pos hm] at hd
      have hr0 := (h.idle hm).2
      obtain ⟨hinv, hdm, hd0, hq⟩ := h.startReceivePiece hm (by omega) hd
      refine ⟨d, hinv, hdm, hd0.trans hr0.symm, ?_, rfl⟩
      exact hq.imp_right fun hq => ⟨⟨hm, hq.1⟩, hq.2⟩
    · rw [if_neg hm] at hd
      obtain rfl := Option.some.inj hd
      exact ⟨c, h, hmsg.resolve_left hm, rfl, .inl rfl, rfl⟩
  obtain ⟨d, hinv, hdm, hrec, hqueue, rfl⟩ := hstart
  have hfrag := hinv.incomingPieceFragment hdm h0 (by omega)
  split
  next hfull =>
    have hcomp : c.Completes p bytes := by
      rw [Completes, ← hrec]
      exact hfull
    obtain ⟨hext, hseed⟩ := hok hcomp
    refine hfrag.incomingPiece hdm hfull hext fun hz hw => ?_
    obtain ⟨hv, -, -, -, -⟩ := hinv.busy p hdm
    have hdq : (d.incomingPieceFragment bytes).downloadQueue = d.downloadQueue := rfl
    rw [hdq]
    rcases hqueue with hq | ⟨-, pb, hpb, hq⟩
    · rw [hq]
      rcases hseed hz hw with ⟨hm, hno⟩ | hfront
      · obtain ⟨-, -, -, -, hent⟩ := hinv.busy p hdm
        rw [hq] at hent
        exact absurd hent hno
      · exact hfront
    · rw [hq]
      exact ⟨pb, by simp, by rw [hpb, Torrent.validate_length hv]⟩
  next => exact hfrag

/-! ### Runs -/

/-- Every exact step keeps the invariant. -/
theorem Inv.step (h : Inv t c) {op : Op t} (hp : c.Possible op) (hok : c.Exact op)
    (hs : c.step op = some c') : Inv t c' := by
  cases op with
  | sendBlockRequests w =>
    obtain rfl := Option.some.inj hs
    exact h.sendBlockRequests
  | piece w p bytes => exact h.onPiece hp hok hs
  | reject w r =>
    obtain rfl := Option.some.inj hs
    refine h.incomingRejectRequest ?_
    rw [(h.idle hp).1]
    simp
  | choke w =>
    obtain rfl := Option.some.inj hs
    exact h.onChoke hp
  | cancelRequest w b =>
    obtain rfl := Option.some.inj hs
    exact h.cancelRequest hok
  | cancelAllRequests w =>
    obtain rfl := Option.some.inj hs
    exact h.cancelAllRequests
  | snubPeer w =>
    obtain rfl := Option.some.inj hs
    exact h.snubPeer
  | request queue n =>
    obtain rfl := Option.some.inj hs
    refine h.setRequests n fun pb hpb => ?_
    rcases hp pb hpb with hold | hnew
    · exact h.requests pb hold
    · exact hnew.length_nonneg

/-- The invariant holds in every exact run. -/
theorem Run.inv (run : Run t Exact c) : Inv t c := by
  induction run with
  | start h => exact h.inv
  | step _ op hp hok hs ih => exact ih.step hp hok hs

/-- In every run whose calls meet the condition, the outstanding bytes are those of the blocks in
the download queue less what was received of the block being received. They are never negative, and
zero when the queue is empty. -/
theorem run_balanced (run : Run t Exact c) :
    Balanced t c ∧ 0 ≤ c.outstandingBytes ∧ (c.downloadQueue = [] → c.outstandingBytes = 0) := by
  have h := run.inv
  have hsum := h.sum
  refine ⟨h.balanced, ?_, fun hq => ?_⟩
  · cases hm : c.message with
    | none =>
      rw [hsum, (h.idle hm).2]
      have := h.sized.total_nonneg
      omega
    | some p =>
      obtain ⟨hv, -, -, hle, hent⟩ := h.busy p hm
      have := h.sized.le_total hent
      rw [Torrent.validate_length hv] at this
      omega
  · cases hm : c.message with
    | none =>
      rw [hsum, (h.idle hm).2, hq]
      rfl
    | some p =>
      obtain ⟨-, -, -, -, pb, hpb, -⟩ := h.busy p hm
      rw [hq] at hpb
      exact absurd hpb List.not_mem_nil

/-! ### The two slips -/

/-- Two pieces of eight and six bytes, of one block each. -/
def smallTorrent : Torrent := ⟨2, 8, 6, by decide⟩

/-- A connection to a peer without the fast extension that asks for both blocks. -/
def slowPeer : PeerConnection :=
  { requestQueue := [⟨⟨1, 0⟩, false, false, false⟩, ⟨⟨0, 0⟩, false, false, false⟩]
    supportsFast := false }

theorem slowPeer_fresh : Fresh smallTorrent slowPeer := by
  refine ⟨rfl, fun pb hpb => ?_, rfl, rfl, rfl, rfl⟩
  simp only [slowPeer, List.mem_cons, List.not_mem_nil, or_false] at hpb
  rcases hpb with rfl | rfl <;> exact ⟨by decide, by decide⟩

/-- A call that leaves the connection open, by evaluation. -/
theorem Run.step_get {ok : PeerConnection → Op t → Prop} (run : Run t ok c) (op : Op t)
    (hp : c.Possible op) (hok : ok c op) (hs : (c.step op).isSome) :
    Run t ok ((c.step op).get hs) :=
  run.step op hp hok (Option.some_get hs).symm

/-- Both requests are sent and the second block arrives in two fragments. -/
theorem run_balanced_fragments : ∃ c, Run smallTorrent Exact c ∧
    c.downloadQueue.map PendingBlock.block = [⟨1, 0⟩] ∧ Balanced smallTorrent c ∧
      c.outstandingBytes = 6 := by
  have run₀ : Run smallTorrent Exact slowPeer := .start slowPeer_fresh
  have run₁ := run₀.step_get (.sendBlockRequests {}) trivial trivial (by decide)
  have run₂ := run₁.step_get (.piece {} ⟨0, 0, 8⟩ 3) ⟨.inl (by decide), by decide, by decide⟩
    (fun hc => absurd hc (by unfold Completes; decide)) (by decide)
  have run₃ := run₂.step_get (.piece {} ⟨0, 0, 8⟩ 5) ⟨.inr (by decide), by decide, by decide⟩
    (fun _ => ⟨rfl, fun _ hw => absurd hw (by decide)⟩) (by decide)
  exact ⟨_, run₃, by decide, (run_balanced run₃).1, by decide⟩

/-- A cancel of the block being received counts all its bytes as no longer outstanding, and a seed
removes the front of the queue in place of the block that arrived. -/
theorem run_not_balanced :
    (∃ c, Run smallTorrent (fun _ _ => True) c ∧
      c.downloadQueue.map PendingBlock.block = [⟨1, 0⟩] ∧ c.receivingBlock = some ⟨0, 0⟩ ∧
      c.outstandingBytes = 3 ∧ ¬ Balanced smallTorrent c) ∧
    ∃ c, Run smallTorrent (fun _ _ => True) c ∧
      c.downloadQueue.map PendingBlock.block = [⟨0, 0⟩] ∧ c.receivingBlock = none ∧
      c.outstandingBytes = 6 ∧ ¬ Balanced smallTorrent c := by
  have run₀ : Run smallTorrent (fun _ _ => True) slowPeer := .start slowPeer_fresh
  have run₁ := run₀.step_get (.sendBlockRequests {}) trivial trivial (by decide)
  have run₂ := run₁.step_get (.piece {} ⟨0, 0, 8⟩ 3) ⟨.inl (by decide), by decide, by decide⟩
    trivial (by decide)
  have run₃ := run₂.step_get (.cancelRequest {} ⟨0, 0⟩) trivial trivial (by decide)
  have run₄ := run₁.step_get (.piece { isSeed := true } ⟨0, 0, 8⟩ 8)
    ⟨.inl (by decide), by decide, by decide⟩ trivial (by decide)
  exact ⟨⟨_, run₃, by decide, by decide, by decide, by decide⟩,
    ⟨_, run₄, by decide, by decide, by decide, by decide⟩⟩

end PeerConnection

end Peer

end LibtorrentSN
