import LibtorrentSN.Picker.State

/-!
# The piece picker: its operations

Every function of `piece_picker` that changes its state, as a function from state to
state. `pick_pieces`, which only rebuilds the list and forgets finished extents, is in
`Picker.Pick`.

A function that looks for a partial piece leaves the state as it is when there is none.
Where the source holds an iterator to a partial piece across calls, the model looks the
piece up again.
-/

namespace LibtorrentSN

namespace PickerCore

variable (s : PickerCore)

/-! ## Partial pieces and their blocks -/

/-- Change `m_piece_map[p]`. -/
def modifyPos (p : ℕ) (f : PiecePos → PiecePos) : PickerCore :=
  { s with pieceMap := s.pieceMap.modify p f }

/-- `p.state(st)`. -/
def setState (p : ℕ) (st : DownloadState) : PickerCore :=
  s.modifyPos p fun pos => { pos with downloadState := st }

/-- Change the partial piece `p`. -/
def modifyDl (p : ℕ) (f : DownloadingPiece → DownloadingPiece) : PickerCore :=
  { s with
    downloads := s.downloads.on (s.downloadQueue p)
      (SortedVector.modify DownloadingPiece.index · p f) }

/-- Change block `b` of the partial piece `dp`. -/
def modifyBlock (dp : DownloadingPiece) (b : ℕ) (f : BlockInfo → BlockInfo) : PickerCore :=
  { s with blockInfo := s.blockInfo.modify dp.infoIdx (·.modify b f) }

/-- The state `update_piece_state` computes for the partial piece `dp`. -/
def newState (dp : DownloadingPiece) : DownloadState :=
  let busy := dp.requested + dp.finished + dp.writing
  if s.filtered dp.index then .pieceZeroPrio
  else if busy = 0 ∧ dp.hashing = false then .pieceOpen
  else if busy < s.blocksInPiece dp.index then
    if (s.state dp.index).reverse then .pieceDownloadingReverse else .pieceDownloading
  else if 0 < dp.requested then
    if (s.state dp.index).reverse then .pieceFullReverse else .pieceFull
  else .pieceFinished

/-- Move `dp` to the bucket of the state `st`. -/
def moveDl (dp : DownloadingPiece) (st : DownloadState) : PickerCore :=
  { s.setState dp.index st with
    downloads := (s.downloads.on (s.downloadQueue dp.index)
      (SortedVector.erase DownloadingPiece.index · dp.index)).on st.downloadQueue
        (SortedVector.insert DownloadingPiece.index · dp) }

/-- Blocks of a new partial piece: those from `payload` on are padding. -/
def freshBlocks (payload n : ℕ) : List BlockInfo :=
  (List.range n).map fun i => ⟨none, 0, if payload ≤ i then .finished else .none⟩

/-- The slot a new partial piece takes: a free one, or a new one at the end. -/
def nextSlot : ℕ :=
  match s.freeBlockInfos with
  | [] => s.blockInfo.length
  | i :: _ => i

/-- Take that slot. -/
def takeSlot : PickerCore :=
  match s.freeBlockInfos with
  | [] => { s with blockInfo := s.blockInfo ++ [List.replicate s.blocksPerPiece default] }
  | _ :: rest => { s with freeBlockInfos := rest }

/-- The number of blocks before the padding of `p` starts. -/
def firstPadBlock (p : ℕ) : ℕ := s.blocksPerPiece - s.padBytesInPiece p / s.blockSize

/-- A new partial piece. Its padding counts as finished. -/
def freshDl (p : ℕ) : DownloadingPiece :=
  ⟨p, s.nextSlot % 2 ^ 16, s.blocksInPiece p - s.firstPadBlock p, 0, 0, false, false, false⟩

/-- Put a new partial piece into the bucket `piece_downloading`. -/
def insertDl (p : ℕ) : PickerCore :=
  let n := s.blocksInPiece p
  { s.takeSlot with
    blockInfo := s.takeSlot.blockInfo.modify (s.freshDl p).infoIdx fun sl =>
      freshBlocks (s.firstPadBlock p) n ++ sl.drop n
    downloads := s.downloads.on (some .pieceDownloading)
      (SortedVector.insert DownloadingPiece.index · (s.freshDl p)) }

/-- Remove `dp` from its bucket, free its slot and make the piece an open one. -/
def eraseDl (dp : DownloadingPiece) : PickerCore :=
  { s.setState dp.index .pieceOpen with
    freeBlockInfos := dp.infoIdx :: s.freeBlockInfos
    downloads := s.downloads.on (s.downloadQueue dp.index)
      (SortedVector.erase DownloadingPiece.index · dp.index) }

end PickerCore

namespace PiecePicker

variable (s : PiecePicker)

/-! ## Writing -/

def withCore (c : PickerCore) : PiecePicker := { s with toPickerCore := c }

/-- `p.state(st)`. -/
def setState (p : ℕ) (st : DownloadState) : PiecePicker :=
  s.withCore (s.toPickerCore.setState p st)

def addPeers (p : ℕ) (n : ℤ) : PiecePicker :=
  s.withCore (s.modifyPos p fun pos => { pos with peerCount := pos.peerCount + n })

/-- `p.piece_priority = n`. -/
def setPriority (p n : ℕ) : PiecePicker :=
  s.withCore (s.modifyPos p fun pos => { pos with piecePriority := n })

/-- `p.index = v`. -/
def setIndex (p : ℕ) (v : ℤ) : PiecePicker := { s with list := s.list.setIdx p v }

/-- Change the partial piece `p`. -/
def modifyDl (p : ℕ) (f : DownloadingPiece → DownloadingPiece) : PiecePicker :=
  s.withCore (s.toPickerCore.modifyDl p f)

/-- Change block `b` of the partial piece `dp`. -/
def modifyBlock (dp : DownloadingPiece) (b : ℕ) (f : BlockInfo → BlockInfo) : PiecePicker :=
  s.withCore (s.toPickerCore.modifyBlock dp b f)

/-- Count passed pieces up or down. -/
def addPassed (n : ℤ) : PiecePicker := { s with numPassed := s.numPassed + n }

/-- The partial piece `dp` no longer counts as passed. -/
def unpass (dp : DownloadingPiece) : PiecePicker := s.addPassed (if dp.passedHashCheck then -1 else 0)

/-! ## The priority list -/

/-- Add `p` to the list, at a random place among the pieces of its priority. -/
def add (p : ℕ) : PiecePicker :=
  let prio := s.priority p
  if prio < 0 then s
  else
    let (r, rng) := draw s.rng
    { s with list := s.list.insert prio.toNat p r, rng := rng }

/-- Remove the piece at `elemIndex`, which had the priority `prio`. -/
def remove (prio elemIndex : ℤ) : PiecePicker :=
  { s with list := s.list.erase prio.toNat elemIndex.toNat }

/-- Move the piece at `elemIndex`, which had the priority `prio`, to where its priority
says. -/
def update (prio elemIndex : ℤ) : PiecePicker :=
  let (r, rng) := draw s.rng
  let new := s.priority (s.list.item elemIndex.toNat)
  { s with list := s.list.update prio.toNat elemIndex.toNat new r, rng := rng }

/-- The caller knows the priority `prev` of `p` before a change, and `p` may have to be
added: `if (prev == -1) add(p) else update(prev, p.index)`, unless nothing changed. -/
def reposition (prev : ℤ) (p : ℕ) : PiecePicker :=
  if s.dirty ∨ s.priority p = prev then s
  else if prev = -1 then s.add p
  else s.update prev (s.list.idx p)

/-- The same where the change cannot make a piece pickable:
`if (prev >= 0 && !m_dirty) update(prev, p.index)`. -/
def updateFrom (prev : ℤ) (p : ℕ) : PiecePicker :=
  if 0 ≤ prev ∧ s.dirty = false then s.update prev (s.list.idx p) else s

/-- Build the list from scratch. -/
def updatePieces : PiecePicker :=
  let (list, rng) := s.list.rebuild s.priority s.rng
  { s with list := list, rng := rng, dirty := false }

/-! ## Partial pieces -/

/-- Put the partial piece `p` into the bucket its counters ask for. This never removes a
partial piece. -/
def updatePieceState (p : ℕ) : PiecePicker :=
  match s.findDlPiece p with
  | none => s
  | some dp =>
    let new := s.newState dp
    if new = s.state p ∨ new = .pieceOpen then s
    else (s.withCore (s.moveDl dp new)).reposition (s.priority p) p

/-- Make `p` a partial piece, in the bucket `piece_downloading`. If every block is padding
it belongs to another bucket. -/
def addDownloadPiece (p : ℕ) : PiecePicker :=
  (s.withCore (s.insertDl p)).updatePieceState p

/-- Forget the partial piece `dp` and free its slot. -/
def eraseDownloadPiece (dp : DownloadingPiece) : PiecePicker :=
  s.withCore (s.eraseDl dp)

/-! ## Availability -/

def incRefcountAll : PiecePicker :=
  { s with seeds := s.seeds + 1, dirty := s.dirty || decide (s.seeds + 1 = 1) }

def decRefcountAll : PiecePicker :=
  if 0 < s.seeds then
    { s with seeds := s.seeds - 1, dirty := s.dirty || decide (s.seeds - 1 = 0) }
  else
    { s with
      pieceMap := s.pieceMap.map fun pos => { pos with peerCount := pos.peerCount - 1 }
      dirty := true }

/-- `inc_refcount(index)`. -/
def incRefcount (p : ℕ) : PiecePicker :=
  (s.addPeers p 1).reposition (s.priority p) p

/-- Count one seed piece by piece. -/
def breakOneSeed : PiecePicker :=
  { s with
    seeds := s.seeds - 1
    pieceMap := s.pieceMap.map fun pos => { pos with peerCount := pos.peerCount + 1 }
    dirty := true }

/-- A piece that only seeds have needs a seed to be broken before it can be counted down. -/
def breakFor (p : ℕ) : PiecePicker :=
  if (s.pos p).peerCount = 0 then s.breakOneSeed else s

/-- `dec_refcount(index)`. -/
def decRefcount (p : ℕ) : PiecePicker :=
  let s := s.breakFor p
  (s.addPeers p (-1)).updateFrom (s.priority p) p

/-- The pieces set in a bitmask. -/
def setPieces (bitmask : List Bool) : List ℕ :=
  (List.range bitmask.length).filter fun p => bitmask.getD p false

/-- Up to how many pieces of a bitmask the list is kept up to date. -/
def incrementalSize (bitmask : List Bool) : ℕ := min 50 (bitmask.length / 2)

/-- `inc_refcount(bitmask)`. The loop that counts the set pieces stops at
`incrementalSize`; here they are compared at once. -/
def incRefcountBitmask (bitmask : List Bool) : PiecePicker :=
  let set := setPieces bitmask
  if set = [] then s
  else if bitmask.all id ∧ bitmask.length = s.numPieces then s.incRefcountAll
  else if s.dirty = false ∧ set.length < incrementalSize bitmask then
    set.foldl incRefcount s
  else { set.foldl (fun s p => s.addPeers p 1) s with dirty := true }

/-- One piece of the incremental loop of `dec_refcount(bitmask)`: the priority is read
before a seed is broken. -/
def decOne (p : ℕ) : PiecePicker :=
  ((s.breakFor p).addPeers p (-1)).updateFrom (s.priority p) p

/-- `dec_refcount(bitmask)`. -/
def decRefcountBitmask (bitmask : List Bool) : PiecePicker :=
  let set := setPieces bitmask
  if set = [] then s
  else if bitmask.all id ∧ bitmask.length = s.numPieces then s.decRefcountAll
  else if s.dirty = false ∧ set.length < incrementalSize bitmask then
    set.foldl decOne s
  else { set.foldl (fun s p => (s.breakFor p).addPeers p (-1)) s with dirty := true }

/-! ## Cursors -/

/-- Neither cursor stops at a piece we have or do not want. -/
def passedOver (p : ℕ) : Prop := s.havePiece p ∨ s.filtered p

instance (p : ℕ) : Decidable (s.passedOver p) := inferInstanceAs (Decidable (_ ∨ _))

/-- Advance `m_cursor` from `c`, over at most `fuel` pieces. -/
def skipUp : ℕ → ℕ → ℕ
  | 0, c => c
  | fuel + 1, c => if s.passedOver c then skipUp fuel (c + 1) else c

/-- Move `m_reverse_cursor` down from `c`. -/
def skipDown : ℕ → ℕ
  | 0 => 0
  | c + 1 => if s.passedOver c then skipDown c else c + 1

/-- Piece `p` is no longer one we are after: move the cursors past it. -/
def closeCursors (p : ℕ) : PiecePicker :=
  if s.cursor + 1 = s.reverseCursor ∧ s.cursor = p then
    { s with cursor := s.numPieces, reverseCursor := 0 }
  else if s.cursor = p then
    { s with cursor := s.skipUp (s.numPieces - (s.cursor + 1)) (s.cursor + 1) }
  else if s.reverseCursor = p + 1 then
    { s with reverseCursor := s.skipDown (s.reverseCursor - 1) }
  else s

/-- Piece `p` is one we are after again: move the cursors to include it. -/
def openCursors (p : ℕ) : PiecePicker :=
  let s := if p < s.cursor then { s with cursor := p } else s
  let s := if s.reverseCursor ≤ p then { s with reverseCursor := p + 1 } else s
  if s.reverseCursor = s.cursor then { s with reverseCursor := 0, cursor := s.numPieces }
  else s

/-! ## Having pieces -/

/-- Forget the partial piece `p`, if there is one; it no longer counts as passed. -/
def dropPassed (p : ℕ) : PiecePicker :=
  match s.findDlPiece p with
  | none => s
  | some dp => (s.unpass dp).eraseDownloadPiece dp

/-- Count the piece `p`, which we are about to have. -/
def countHave (p : ℕ) : PiecePicker :=
  let pad : ℤ := s.padBytesInPiece p
  let s := { s with
    numHave := s.numHave + 1
    numPassed := s.numPassed + 1
    havePadBytes := s.havePadBytes + pad }
  if s.filtered p then
    { s with
      filteredPadBytes := s.filteredPadBytes - pad
      numFiltered := s.numFiltered - 1
      haveFilteredPadBytes := s.haveFilteredPadBytes + pad
      numHaveFiltered := s.numHaveFiltered + 1 }
  else s

/-- Count the piece `p`, which we are about to lose. -/
def countNotHave (p : ℕ) : PiecePicker :=
  let pad : ℤ := s.padBytesInPiece p
  let s := { s with
    numHave := s.numHave - 1
    numPassed := s.numPassed - 1
    havePadBytes := s.havePadBytes - pad }
  if s.filtered p then
    { s with
      filteredPadBytes := s.filteredPadBytes + pad
      numFiltered := s.numFiltered + 1
      haveFilteredPadBytes := s.haveFilteredPadBytes - pad
      numHaveFiltered := s.numHaveFiltered - 1 }
  else s.openCursors p

/-- We have the piece `p`: it is no longer a partial one, and is not to be picked. The
list still holds it at the index it had. -/
def weHave (p : ℕ) : PiecePicker :=
  if s.havePiece p then s
  else
    let s' := (((s.dropPassed p).countHave p).setIndex p (-1)).closeCursors p
    if s.priority p = -1 ∨ s.dirty then s' else s'.remove (s.priority p) (s.list.idx p)

/-- We no longer have the piece `p`, or it did not pass after all. -/
def weDontHave (p : ℕ) : PiecePicker :=
  if ¬ s.havePiece p then s.dropPassed p
  else
    let s := (s.countNotHave p).setIndex p 0
    if s.dirty then s else if 0 ≤ s.priority p then s.add p else s

def weHaveAll : PiecePicker :=
  { s with
    list := ⟨[], [0], List.replicate s.list.index.length (-1)⟩
    blockInfo := []
    freeBlockInfos := []
    dirty := false
    numHaveFiltered := s.numHaveFiltered + s.numFiltered
    numFiltered := 0
    haveFilteredPadBytes := s.haveFilteredPadBytes + s.filteredPadBytes
    filteredPadBytes := 0
    cursor := s.numPieces
    reverseCursor := 0
    numPassed := s.numPieces
    numHave := s.numPieces
    downloads := .empty
    pieceMap := s.pieceMap.map fun pos => { pos with downloadState := .pieceOpen } }

/-- The partial piece `p` passed its hash check. -/
def piecePassed (p : ℕ) : PiecePicker :=
  match s.findDlPiece p with
  | none => s
  | some dp =>
    if dp.locked then s
    else
      let s := (s.modifyDl p ({ · with passedHashCheck := true })).addPassed 1
      if dp.finished < s.blocksInPiece p then s else s.weHave p

/-! ## Piece priorities -/

/-- The piece `p`, which we may have, is being filtered. -/
def countFiltered (p : ℕ) : PiecePicker :=
  if s.havePiece p then
    { s with
      haveFilteredPadBytes := s.haveFilteredPadBytes + s.padBytesInPiece p
      numHaveFiltered := s.numHaveFiltered + 1 }
  else
    { s with
      filteredPadBytes := s.filteredPadBytes + s.padBytesInPiece p
      numFiltered := s.numFiltered + 1 }.closeCursors p

/-- The piece `p`, which we may have, is no longer filtered. -/
def countUnfiltered (p : ℕ) : PiecePicker :=
  if s.havePiece p then
    { s with
      haveFilteredPadBytes := s.haveFilteredPadBytes - s.padBytesInPiece p
      numHaveFiltered := s.numHaveFiltered - 1 }
  else
    { s with
      filteredPadBytes := s.filteredPadBytes - s.padBytesInPiece p
      numFiltered := s.numFiltered - 1 }.openCursors p

/-- Count the piece `p`, which is about to get the priority `newPriority`; the result says
whether it got filtered or unfiltered. -/
def countPriority (p newPriority : ℕ) : Bool × PiecePicker :=
  if newPriority = 0 ∧ ¬ s.filtered p then (true, s.countFiltered p)
  else if newPriority ≠ 0 ∧ s.filtered p then (true, s.countUnfiltered p)
  else (false, s)

/-- Set the priority of `p`. -/
def setPiecePriority (p newPriority : ℕ) : Bool × PiecePicker :=
  if newPriority = (s.pos p).piecePriority then (false, s)
  else
    let r := s.countPriority p newPriority
    let s' := (r.2.setPriority p newPriority).reposition (s.priority p) p
    (r.1, if s'.downloading p then s'.updatePieceState p else s')

/-! ## Blocks -/

/-- Remember the extent of a piece that is being downloaded, to prefer its neighbours. -/
def recordDownloadingPiece (p : ℕ) : PiecePicker :=
  if maxPieceAffinityExtent ≤ s.blocksPerPiece then s
  else
    let thisExtent := s.extentFor p
    let others := (s.extentPieces thisExtent).filter (· ≠ p)
    if thisExtent ∈ s.recentExtents then s
    else if ∃ q ∈ others, (s.pos q).piecePriority ≠ (s.pos p).piecePriority then s
    else if ∀ q ∈ others, s.havePiece q then s
    else if s.recentExtents.length < 5 then
      { s with recentExtents := s.recentExtents ++ [thisExtent] }
    else s

/-- Make the open piece `p` a partial one in state `st`. -/
def beginDownload (p : ℕ) (st : DownloadState) (affinity : Bool) : PiecePicker :=
  let prio := s.priority p
  let s := (s.setState p st).updateFrom prio p
  let s := if affinity then s.recordDownloadingPiece p else s
  s.addDownloadPiece p

/-- A reverse peer requests from a piece no other peer downloads from: it becomes a
reverse one. -/
def makeReverse (p : ℕ) (dp : DownloadingPiece) (reverse : Bool) : PiecePicker :=
  if reverse ∧ (s.state p).reverse = false ∧ dp.requested = 0 then
    (s.setState p (s.state p).makeReverse).updateFrom (s.priority p) p
  else s

/-- A request that is not reverse undoes the reverse state. -/
def unreverse (p : ℕ) (reverse : Bool) : PiecePicker :=
  if reverse = false ∧ (s.state p).reverse then
    (s.setState p (s.state p).unreverse).updateFrom (s.priority p) p
  else s

/-- Make block `b` of the partial piece `dp` a requested one. -/
def requestBlock (p b : ℕ) (dp : DownloadingPiece) (peer : Option ℕ) : PiecePicker :=
  if (s.block dp b).state = .requested then s.modifyBlock dp b fun i => { i with peer := peer }
  else
    let s := s.modifyBlock dp b fun i => { i with peer := peer, state := .requested }
    let s := s.modifyDl p fun dp => { dp with requested := dp.requested + 1 }
    s.updatePieceState p

/-- Mark a block as requested from `peer`. `reverse` and `affinity` are the options
`reverse` and `piece_extent_affinity`. The result is false if the block is beyond
requesting. -/
def markAsDownloading (p b : ℕ) (peer : Option ℕ) (reverse affinity : Bool) :
    Bool × PiecePicker :=
  match s.downloadQueue p with
  | none =>
    let s := s.beginDownload p
      (if reverse then .pieceDownloadingReverse else .pieceDownloading) affinity
    match s.findDlPiece p with
    | none => (false, s)
    | some dp =>
      if (s.block dp b).state = .finished then (false, s)
      else
        let s := s.modifyBlock dp b fun _ => ⟨peer, 1, .requested⟩
        let s := s.modifyDl p fun dp => { dp with requested := dp.requested + 1 }
        (true, s.updatePieceState p)
  | some _ =>
    match s.findDlPiece p with
    | none => (false, s)
    | some dp =>
      if (s.block dp b).state = .writing ∨ (s.block dp b).state = .finished then (false, s)
      else
        let s := (s.makeReverse p dp reverse).requestBlock p b dp peer
        let s := s.modifyBlock dp b fun i => { i with numPeers := (i.numPeers + 1) % 2 ^ 14 }
        (true, s.unreverse p reverse)

/-- Make block `b` of the partial piece `dp` a writing one. All other requests for it should
have been cancelled now. -/
def writeBlock (p b : ℕ) (dp : DownloadingPiece) (peer : Option ℕ) : PiecePicker :=
  let info := s.block dp b
  let s := s.modifyBlock dp b fun _ => ⟨peer, 0, .writing⟩
  let s := s.modifyDl p fun dp =>
    { dp with
      requested := if info.state = .requested then dp.requested - 1 else dp.requested
      writing := dp.writing + 1 }
  s.updatePieceState p

/-- Mark a block as received and on its way to the disk. -/
def markAsWriting (p b : ℕ) (peer : Option ℕ) : Bool × PiecePicker :=
  match s.downloadQueue p with
  | none =>
    if s.havePiece p then (false, s)
    else
      let s := s.beginDownload p .pieceDownloading false
      match s.findDlPiece p with
      | none => (false, s)
      | some dp =>
        if (s.block dp b).state = .finished then (false, s)
        else
          let s := s.modifyBlock dp b fun _ => ⟨peer, 0, .writing⟩
          let s := s.modifyDl p fun dp => { dp with writing := 1 }
          (true, s.updatePieceState p)
  | some _ =>
    match s.findDlPiece p with
    | none => (false, s)
    | some dp =>
      if (s.block dp b).state = .writing ∨ (s.block dp b).state = .finished then
        (false, s.modifyBlock dp b fun i => { i with peer := peer })
      else (true, s.writeBlock p b dp peer)

/-- Make block `b` of the partial piece `dp` a finished one. The peer may be gone by now:
if so, do not forget whom the block came from. -/
def finishBlock (p b : ℕ) (dp : DownloadingPiece) (peer : Option ℕ) : PiecePicker :=
  let info := s.block dp b
  let peer := if info.state ≠ .writing ∨ peer ≠ none then peer else info.peer
  let s := s.modifyBlock dp b fun i => { i with peer := peer, state := .finished }
  let s := s.modifyDl p fun dp =>
    { dp with
      finished := dp.finished + 1
      writing := if info.state = .writing then dp.writing - 1 else dp.writing }
  s.updatePieceState p

/-- A piece whose blocks are all finished, and that has passed, is one we have. -/
def haveIfDone (p : ℕ) : PiecePicker :=
  match s.findDlPiece p with
  | none => s
  | some dp =>
    if dp.finished < s.blocksInPiece p then s
    else if dp.passedHashCheck ∧ dp.hashing = false then s.weHave p
    else s

/-- Mark a block as written to disk. -/
def markAsFinished (p b : ℕ) (peer : Option ℕ) : PiecePicker :=
  match s.downloadQueue p with
  | none =>
    if s.havePiece p then s
    else
      let s := s.beginDownload p .pieceDownloading false
      match s.findDlPiece p with
      | none => s
      | some dp =>
        if (s.block dp b).state = .finished then s
        else
          let s := s.modifyBlock dp b fun i => { i with peer := peer, state := .finished }
          let s := s.modifyDl p fun dp => { dp with finished := dp.finished + 1 }
          s.updatePieceState p
  | some _ =>
    match s.findDlPiece p with
    | none => s
    | some dp =>
      if (s.block dp b).state = .finished then s
      else (s.finishBlock p b dp peer).haveIfDone p

/-- Forget the partial piece `p` if nothing is left of it. -/
def eraseIfUnused (p : ℕ) : PiecePicker :=
  match s.findDlPiece p with
  | none => s
  | some dp =>
    if dp.finished + dp.writing + dp.requested = 0 ∧ dp.hashing = false then
      (s.eraseDownloadPiece dp).reposition (s.priority p) p
    else s

/-- The write of a block was given up. -/
def markAsCanceled (p b : ℕ) (peer : Option ℕ) : PiecePicker :=
  match s.findDlPiece p with
  | none => s
  | some dp =>
    let info := s.block dp b
    if info.state = .finished then s
    else if info.state = .writing then
      let s := s.modifyBlock dp b fun i => { i with peer := peer, state := .none }
      let s := s.modifyDl p fun dp => { dp with writing := dp.writing - 1 }
      (s.updatePieceState p).eraseIfUnused p
    else s.modifyBlock dp b fun i => { i with peer := peer }

/-- A block could not be written. The piece is locked until it is restored. -/
def writeFailed (p b : ℕ) : PiecePicker :=
  match s.findDlPiece p with
  | none => s
  | some dp =>
    let info := s.block dp b
    if info.state = .finished then s
    else
      let s := (s.unpass dp).modifyBlock dp b fun i => { i with peer := none, state := .none }
      let s := s.modifyDl p fun dp =>
        { dp with
          writing := if info.state = .writing then dp.writing - 1 else dp.writing
          passedHashCheck := false
          locked := true }
      (s.updatePieceState p).eraseIfUnused p

/-- Keep the piece `p` from being picked until it is restored. -/
def lockPiece (p : ℕ) : PiecePicker :=
  match s.findDlPiece p with
  | none => s
  | some dp =>
    (s.unpass dp).modifyDl p fun dp => { dp with passedHashCheck := false, locked := true }

/-- One block of the list given to `restore_piece`: a requested block is left alone. -/
def restoreBlock (p : ℕ) (s : PiecePicker) (b : ℕ) : PiecePicker :=
  match s.findDlPiece p with
  | none => s
  | some dp =>
    let info := s.block dp b
    if info.state = .requested then s
    else
      let s := s.modifyDl p fun dp =>
        { dp with
          writing := if info.state = .writing then dp.writing - 1 else dp.writing
          finished := if info.state = .finished then dp.finished - 1 else dp.finished }
      s.modifyBlock dp b fun i => { i with peer := none, state := .none }

/-- Restore a piece that failed its hash check: the blocks that are known to be bad, or
(with no blocks given) the whole piece. -/
def restorePiece (p : ℕ) (blocks : List ℕ) : PiecePicker :=
  match s.findDlPiece p with
  | none => s
  | some _ =>
    let s := s.modifyDl p ({ · with locked := false })
    let prev := s.priority p
    let s := if blocks = [] then s else (blocks.foldl (restoreBlock p) s).updatePieceState p
    match s.findDlPiece p with
    | none => s
    | some dp =>
      if blocks = [] ∨ dp.requested + dp.finished + dp.writing = 0 then
        (s.eraseDownloadPiece dp).reposition prev p
      else s

/-- The request of a block from `peer` was rejected, or the peer is gone. -/
def abortDownload (p b : ℕ) (peer : Option ℕ) : PiecePicker :=
  match s.findDlPiece p with
  | none => s
  | some dp =>
    let info := s.block dp b
    if info.state ≠ .requested then s
    else
      let prev := s.priority p
      -- if there are other peers, leave the block requested
      if 0 < info.numPeers - 1 then
        s.modifyBlock dp b fun i =>
          { i with
            numPeers := i.numPeers - 1
            peer := if i.peer = peer then none else i.peer }
      else
        let s := s.modifyBlock dp b fun i => ⟨none, i.numPeers - 1, .none⟩
        let s := s.modifyDl p fun dp => { dp with requested := dp.requested - 1 }
        if dp.requested - 1 + dp.finished + dp.writing = 0 ∧ dp.hashing = false then
          (s.eraseDownloadPiece dp).reposition prev p
        else s.updatePieceState p

def startedHashJob (p : ℕ) : PiecePicker := s.modifyDl p ({ · with hashing := true })

def completedHashJob (p : ℕ) : PiecePicker := s.modifyDl p ({ · with hashing := false })

/-- Forget a peer that is about to be destroyed. -/
def clearPeer (peer : Option ℕ) : PiecePicker :=
  { s with
    blockInfo := s.blockInfo.map (·.map fun b => if b.peer = peer then { b with peer := none } else b) }

/-! ## Set-up -/

/-- The last `bytes` bytes of `p` are padding. -/
def setPadBytes (p bytes : ℕ) : PiecePicker :=
  let s := { s with
    numPadBytes := s.numPadBytes + bytes
    padsInPiece := (p, bytes) :: s.padsInPiece }
  let s :=
    if s.havePiece p then
      { s with
        havePadBytes := s.havePadBytes + bytes
        haveFilteredPadBytes :=
          if s.filtered p then s.haveFilteredPadBytes + bytes else s.haveFilteredPadBytes }
    else if s.filtered p then { s with filteredPadBytes := s.filteredPadBytes + bytes }
    else s
  -- a piece that is all padding is one we have
  if s.sizeOfPiece p = bytes then s.weHave p else s

/-- Set all pieces to dont-have, for a torrent of these sizes; fails for pieces of too
many blocks. -/
def resize (totalSize pieceSize : ℕ) : Option PiecePicker :=
  let s := { s with totalSize := totalSize, pieceSize := pieceSize }
  let blocksInLastPiece := (totalSize % pieceSize + s.blockSize - 1) / s.blockSize
  let numPieces := (totalSize + pieceSize - 1) / pieceSize
  if maxBlocksPerPiece < s.blocksPerPiece then none
  else
    let old : List PiecePos := s.pieceMap.take numPieces ++
      List.replicate (numPieces - s.pieceMap.length) ⟨0, .pieceOpen, defaultPriority⟩
    let s : PiecePicker := { s with
      pieceMap := old.map fun pos => { pos with peerCount := 0, downloadState := .pieceOpen }
      list := { s.list with index := List.replicate numPieces 0 }
      downloads := .empty
      blockInfo := []
      freeBlockInfos := []
      numFiltered := s.numFiltered + s.numHaveFiltered
      numHaveFiltered := 0
      numHave := 0
      havePadBytes := 0
      filteredPadBytes := s.filteredPadBytes + s.haveFilteredPadBytes
      haveFilteredPadBytes := 0
      numPassed := 0
      dirty := true }
    some { s with
      cursor := s.skipUp numPieces 0
      reverseCursor := s.skipDown numPieces
      blocksInLastPiece :=
        if blocksInLastPiece = 0 then s.blocksPerPiece else blocksInLastPiece }

/-- The constructor: no piece is known before the first `resize`. -/
def create (totalSize pieceSize : ℕ) (rng : List ℕ) : Option PiecePicker :=
  resize
    { pieceMap := [], list := ⟨[], [0], []⟩, dirty := false, seeds := 0, downloads := .empty,
      blockInfo := [], freeBlockInfos := [], numFiltered := 0, numHaveFiltered := 0,
      numHave := 0, numPassed := 0, padsInPiece := [], numPadBytes := 0, havePadBytes := 0,
      filteredPadBytes := 0, haveFilteredPadBytes := 0, recentExtents := [], cursor := 0,
      reverseCursor := 0, totalSize := 0, pieceSize := 0, blocksInLastPiece := 0, rng := rng }
    totalSize pieceSize

end PiecePicker

end LibtorrentSN
