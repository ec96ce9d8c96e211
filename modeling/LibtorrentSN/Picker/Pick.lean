import LibtorrentSN.Picker.Mutators

/-!
# The piece picker: `pick_pieces`

The stages of `pick_pieces` in the order of the source: partial pieces first (if asked
for), suggested pieces, one of the four orders (sequential, rarest first, reverse rarest
first, random), the two lists of backup blocks, and the end game. Each stage takes and
returns a `PickState`; the source returns as soon as enough blocks are found, which a
stage shows by leaving `numBlocks ≤ 0`. The statistics counters are left out.
-/

namespace LibtorrentSN

/-- `piece_block`. -/
structure PieceBlock where
  pieceIndex : ℕ
  blockIndex : ℕ
  deriving DecidableEq, Repr

/-- `picker_options_t`. -/
structure PickerOptions where
  rarestFirst : Bool := false
  reverse : Bool := false
  onParole : Bool := false
  prioritizePartials : Bool := false
  sequential : Bool := false
  alignExpandedPieces : Bool := false
  pieceExtentAffinity : Bool := false
  deriving DecidableEq, Repr

/-- The flags of `picker_log_alert` that `pick_pieces` reports. -/
inductive PickerFlag where
  | partialRatio
  | preferContiguous
  | rarestFirstPartials
  | prioritizePartials
  | suggestedPieces
  | prioSequentialPieces
  | sequentialPieces
  | reverseSequential
  | rarestFirst
  | reverseRarestFirst
  | extentAffinity
  | randomPieces
  | backup1
  | backup2
  | endGame
  deriving DecidableEq, Repr

/-- The arguments of `pick_pieces`. -/
structure PickRequest where
  /-- what the peer has -/
  pieces : List Bool
  numBlocks : ℤ
  preferContiguousBlocks : ℤ
  peer : Option ℕ
  options : PickerOptions
  suggestedPieces : List ℕ
  numPeers : ℕ
  deriving DecidableEq, Repr

/-- What the stages hand on. -/
structure PickState where
  interestingBlocks : List PieceBlock
  backupBlocks : List PieceBlock
  backupBlocks2 : List PieceBlock
  ignoredPieces : List ℕ
  /-- the number of blocks still wanted -/
  numBlocks : ℤ
  preferContiguousBlocks : ℤ
  flags : List PickerFlag
  deriving DecidableEq, Repr

namespace PickState

/-- `ret |= f`. -/
def flag (st : PickState) (f : PickerFlag) : PickState :=
  if f ∈ st.flags then st else { st with flags := st.flags ++ [f] }

/-- Pick block `b` of piece `p`. -/
def push (st : PickState) (p b : ℕ) : PickState :=
  { st with
    interestingBlocks := st.interestingBlocks ++ [⟨p, b⟩]
    numBlocks := st.numBlocks - 1 }

/-- `append_blocks` from `backup_blocks`. -/
def appendBackup (st : PickState) : PickState :=
  let n := min st.backupBlocks.length st.numBlocks.toNat
  { st with
    interestingBlocks := st.interestingBlocks ++ st.backupBlocks.take n
    backupBlocks := st.backupBlocks.drop n
    numBlocks := st.numBlocks - n }

/-- `append_blocks` from `backup_blocks2`. -/
def appendBackup2 (st : PickState) : PickState :=
  let n := min st.backupBlocks2.length st.numBlocks.toNat
  { st with
    interestingBlocks := st.interestingBlocks ++ st.backupBlocks2.take n
    backupBlocks2 := st.backupBlocks2.drop n
    numBlocks := st.numBlocks - n }

end PickState

namespace PiecePicker

variable (s : PiecePicker) (a : PickRequest)

/-! ## Pieces to pick from -/

def isPieceFree (p : ℕ) : Prop :=
  a.pieces.getD p false = true ∧ ¬ s.havePiece p ∧ ¬ s.filtered p

instance (p : ℕ) : Decidable (s.isPieceFree a p) := inferInstanceAs (Decidable (_ ∧ _ ∧ _))

def canPick (p : ℕ) : Prop :=
  a.pieces.getD p false = true ∧ ¬ s.havePiece p ∧ ¬ s.downloading p ∧ ¬ s.filtered p

instance (p : ℕ) : Decidable (s.canPick a p) := inferInstanceAs (Decidable (_ ∧ _ ∧ _ ∧ _))

/-- Move the start of a range down from `c`, not below `lower`. -/
def growDown (lower : ℤ) : ℕ → ℕ
  | 0 => 0
  | c + 1 => if lower < c + 1 ∧ s.canPick a c then growDown lower c else c + 1

/-- Move the end of a range up from `c`, not above `upper`. -/
def growUp (upper : ℤ) : ℕ → ℕ → ℕ
  | 0, c => c
  | fuel + 1, c => if (c : ℤ) < upper ∧ s.canPick a c then growUp upper fuel (c + 1) else c

/-- The range of pieces around `piece` that holds about `contiguousBlocks` blocks and
nothing but pieces that can be picked. (The source divides by `whole` if the range is
aligned; it is zero for some negative numbers of blocks, where the remainder is taken to
be the dividend.) -/
def expandPiece (piece : ℕ) (contiguousBlocks : ℤ) : ℕ × ℕ :=
  if contiguousBlocks = 0 then (piece, piece + 1)
  else
    let blocks : ℤ := s.blocksPerPiece
    let whole := (contiguousBlocks + blocks - 1).tdiv blocks
    let align := a.options.alignExpandedPieces
    let lower : ℤ :=
      if align then piece - (piece : ℤ).tmod whole else max (piece - whole + 1) 0
    let start := s.growDown a lower piece
    let upper : ℤ := min (if align then lower + whole else start + whole) a.pieces.length
    (start, s.growUp a upper a.pieces.length (piece + 1))

/-- The pieces of a range. -/
def rangePieces (r : ℕ × ℕ) : List ℕ := (List.range (r.2 - r.1)).map (r.1 + ·)

/-! ## Picking from one piece -/

/-- What `requested_from` finds out about the blocks of a piece. -/
structure RequestedFrom where
  /-- only this peer was asked for blocks -/
  exclusive : Bool := true
  /-- only this peer is being asked for blocks -/
  exclusiveActive : Bool := true
  contiguousBlocks : ℕ := 0
  maxContiguous : ℕ := 0
  firstBlock : ℕ := 0
  idx : ℕ := 0
  deriving DecidableEq, Repr

/-- End a run of free blocks, which becomes the largest run if it is longer. -/
def RequestedFrom.endRun (r : RequestedFrom) : RequestedFrom :=
  if r.maxContiguous < r.contiguousBlocks then
    { r with maxContiguous := r.contiguousBlocks, firstBlock := r.idx - r.contiguousBlocks }
  else r

def requestedStep (peer : Option ℕ) (r : RequestedFrom) (info : BlockInfo) : RequestedFrom :=
  if info.state = .none then
    { r with contiguousBlocks := r.contiguousBlocks + 1, idx := r.idx + 1 }
  else
    let r := r.endRun
    { r with
      contiguousBlocks := 0
      idx := r.idx + 1
      exclusive := r.exclusive && decide (info.peer = peer)
      exclusiveActive := r.exclusiveActive &&
        !decide (info.peer ≠ peer ∧ info.state = .requested ∧ info.peer ≠ none) }

def requestedFrom (dp : DownloadingPiece) (peer : Option ℕ) : RequestedFrom :=
  ((s.blocksForPiece dp).foldl (requestedStep peer) {}).endRun

/-- The free blocks of a partial piece, starting at `first`. -/
def freeBlocksFrom (dp : DownloadingPiece) (first : ℕ) : List ℕ :=
  let n := s.blocksInPiece dp.index
  ((List.range n).map fun j => (j + first) % n).filter fun b => (s.block dp b).state = .none

/-- Pick free blocks: all of them as long as contiguous blocks are preferred, else until
enough are picked. -/
def takeFree (p : ℕ) : List ℕ → ℤ → PickState → PickState
  | [], _, st => st
  | b :: bs, prefer, st =>
    let st := st.push p b
    if 0 < prefer then takeFree p bs (prefer - 1) st
    else if st.numBlocks ≤ 0 then st
    else takeFree p bs prefer st

/-- Pick from the partial piece `dp`. -/
def addBlocksDownloading (dp : DownloadingPiece) (prefer : ℤ) (st : PickState) : PickState :=
  if a.pieces.getD dp.index false = false then st
  -- the piece failed to write, and is being restored
  else if dp.locked then st
  else
    let r := s.requestedFrom dp a.peer
    let first := if prefer = 0 then 0 else r.firstBlock
    if a.options.onParole ∧ r.exclusive = false then st
    else if (r.maxContiguous : ℤ) < prefer ∧ r.exclusiveActive = false ∧
        a.options.onParole = false then
      if st.numBlocks ≤ st.backupBlocks2.length then st
      else { st with
        backupBlocks2 := st.backupBlocks2 ++
          (s.freeBlocksFrom dp first).map fun b => ⟨dp.index, b⟩ }
    else
      let st := takeFree dp.index (s.freeBlocksFrom dp first) prefer st
      { st with numBlocks := max st.numBlocks 0 }

/-- Pick the blocks `js` of the open piece `k`, until `stop` says so. -/
def pushBlocks (stop : ℤ → ℤ → Bool) (k : ℕ) : List ℕ → PickState × ℤ → PickState × ℤ
  | [], r => r
  | j :: js, (st, prefer) =>
    let st := st.push k j
    let prefer := prefer - 1
    if stop prefer st.numBlocks then (st, prefer) else pushBlocks stop k js (st, prefer)

/-- Pick the first `count k` blocks of every piece `k` of a range, but for the pieces
that are ignored. -/
def pushRange (stop : ℤ → ℤ → Bool) (count : ℕ → ℕ) : List ℕ → PickState × ℤ → PickState × ℤ
  | [], r => r
  | k :: ks, (st, prefer) =>
    if k ∈ st.ignoredPieces then
      let prefer := prefer - 1
      if prefer = 0 ∧ st.numBlocks ≤ 0 then (st, prefer)
      else pushRange stop count ks (st, prefer)
    else
      let st := { st with ignoredPieces := st.ignoredPieces ++ [k] }
      pushRange stop count ks (pushBlocks stop k (List.range (count k)) (st, prefer))

/-- The number of blocks of an open piece that are not padding. -/
def payloadBlocks (p : ℕ) : ℕ := s.blocksInPiece p - s.padBytesInPiece p / s.blockSize

/-- Pick from the open piece `p`, or (if contiguous blocks are preferred) from the range
around it. -/
def addBlocksOpen (p : ℕ) (prefer : ℤ) (st : PickState) : PickState :=
  let st :=
    if prefer = 0 then
      let payload := min (s.payloadBlocks p) st.numBlocks.toNat
      { st with
        interestingBlocks := st.interestingBlocks ++ (List.range payload).map fun j => ⟨p, j⟩
        numBlocks := st.numBlocks - payload }
    else
      (pushRange (fun prefer num => prefer = 0 ∧ num ≤ 0) s.payloadBlocks
        (rangePieces (s.expandPiece a p prefer)) (st, prefer)).1
  { st with numBlocks := max st.numBlocks 0 }

/-- Pick from the piece `p`, which is free. -/
def addBlocks (p : ℕ) (prefer : ℤ) (st : PickState) : PickState :=
  if p ∈ st.ignoredPieces then st
  else match s.downloadQueue p with
    | none => s.addBlocksOpen a p prefer st
    | some .pieceDownloading =>
      -- partial pieces have been looked at already
      if a.options.prioritizePartials then st
      else match s.findDlPiece p with
        | none => st
        | some dp => s.addBlocksDownloading a dp prefer st
    | some _ => st

/-- Pick from the free pieces of a list, in order, until there are enough blocks. -/
def scan (f : PickerFlag) : List ℕ → PickState → PickState
  | [], st => st
  | p :: ps, st =>
    if ¬ s.isPieceFree a p then scan f ps st
    else
      let st := s.addBlocks a p st.preferContiguousBlocks (st.flag f)
      if st.numBlocks ≤ 0 then st else scan f ps st

/-! ## Partial pieces first -/

/-- `partial_compare_rarest_first`: lower availability comes first, then the piece that is
closest to being complete. -/
def partialCompareRarestFirst (lhs rhs : DownloadingPiece) : Prop :=
  if (s.pos lhs.index).peerCount ≠ (s.pos rhs.index).peerCount then
    (s.pos lhs.index).peerCount < (s.pos rhs.index).peerCount
  else rhs.finished + rhs.writing + rhs.requested < lhs.finished + lhs.writing + lhs.requested

instance (x y : DownloadingPiece) : Decidable (s.partialCompareRarestFirst x y) := by
  unfold partialCompareRarestFirst
  infer_instance

/-- The partial pieces in the order they are picked from. Sorting is not stable: the pieces
are shuffled first. -/
def orderedPartials : List DownloadingPiece × PiecePicker :=
  let partials := s.downloads.downloading.filter fun dp => s.isPieceFree a dp.index
  if a.options.rarestFirst then
    let (partials, rng) := randomShuffle partials s.rng
    (partials.insertionSort fun x y => ¬ s.partialCompareRarestFirst y x,
      { s with rng := rng })
  else (partials, s)

/-- Pick from partial pieces until there are enough blocks, or enough of both kinds of
backup blocks. -/
def scanPartials : List DownloadingPiece → PickState → PickState
  | [], st => st
  | dp :: dps, st =>
    let st := s.addBlocksDownloading a dp st.preferContiguousBlocks (st.flag .prioritizePartials)
    if st.numBlocks ≤ 0 then st
    else if st.numBlocks ≤ st.backupBlocks.length ∧ st.numBlocks ≤ st.backupBlocks2.length then st
    else scanPartials dps st

def partialsStage (st : PickState) : PickState × PiecePicker :=
  if a.options.prioritizePartials then
    let st := if a.options.rarestFirst then st.flag .rarestFirstPartials else st
    let (partials, s') := s.orderedPartials a
    let st := s.scanPartials a partials st
    let st := if st.numBlocks ≤ 0 then st else st.appendBackup
    let st := if st.numBlocks ≤ 0 then st else st.appendBackup2
    (st, s')
  else (st, s)

/-! ## Suggested pieces -/

def suggestedStage : List ℕ → PickState → PickState
  | [], st => st
  | p :: ps, st =>
    if ¬ s.isPieceFree a p then suggestedStage ps st
    else
      let st := s.addBlocks a p st.preferContiguousBlocks (st.flag .suggestedPieces)
      -- we have picked from this piece
      let st := { st with ignoredPieces := st.ignoredPieces ++ [p] }
      if st.numBlocks ≤ 0 then st else suggestedStage ps st

/-! ## The main stage -/

/-- `update_pieces()` if the list is out of date. -/
def refresh : PiecePicker := if s.dirty then s.updatePieces else s

/-- The pieces from `m_cursor` to `m_reverse_cursor`. -/
def cursorRange : List ℕ := rangePieces (s.cursor, s.reverseCursor)

/-- Pieces of top priority as the list has them, then the others by index. -/
def sequentialStage (st : PickState) : PickState :=
  let top := fun p => (s.pos p).piecePriority = topPriority
  let st := s.scan a .prioSequentialPieces (s.list.items.takeWhile fun p => top p) st
  if st.numBlocks ≤ 0 then st
  else
    let rest := s.cursorRange.filter fun p => ¬ top p
    if a.options.reverse then s.scan a .reverseSequential rest.reverse st
    else s.scan a .sequentialPieces rest st

/-- The list from its last priority to its first. -/
def reverseItems : List ℕ :=
  (List.range s.list.bounds.length).reverse.flatMap fun q =>
    (rangePieces (s.list.lo q, s.list.hi q)).reverse.map s.list.item

/-- Pick from the recent extents. `toErase` is the last extent found to be complete. -/
def scanExtents : List ℕ → ℕ → Option ℕ → PickState → PickState × Option ℕ
  | [], _, toErase, st => (st, toErase)
  | e :: es, idx, toErase, st =>
    let st := s.scan a .extentAffinity (s.extentPieces e) st
    if st.numBlocks ≤ 0 then (st, toErase)
    else
      let haveAll := ∀ p ∈ s.extentPieces e, s.havePiece p
      scanExtents es (idx + 1) (if haveAll then some idx else toErase) st

/-- The recent extents, less one that is complete. -/
def extentsStage (st : PickState) : PickState × PiecePicker :=
  let (st, toErase) := s.scanExtents a s.recentExtents 0 none st
  match toErase with
  | none => (st, s)
  | some i => (st, { s with recentExtents := s.recentExtents.eraseIdx i })

def rarestFirstStage (st : PickState) : PickState × PiecePicker :=
  if a.options.reverse then (s.scan a .reverseRarestFirst s.reverseItems st, s)
  else
    let (st, s) := if a.options.pieceExtentAffinity then s.extentsStage a st else (st, s)
    if st.numBlocks ≤ 0 then (st, s) else (s.scan a .rarestFirst s.list.items st, s)

/-- The next piece after `p`, in a circle. -/
def wrap (p : ℕ) : ℕ := if p = s.numPieces then 0 else p

/-- The first piece from `p` on that can be picked from, if there is one before
`start`. -/
def skipToFree (start : ℕ) (ignored : List ℕ) : ℕ → ℕ → Option ℕ
  | 0, _ => none
  | fuel + 1, p =>
    if ¬ s.isPieceFree a p ∨ p ∈ ignored then
      let p := s.wrap (p + 1)
      if p = start then none else skipToFree start ignored fuel p
    else some p

/-- Pick from the piece `p` in the random scan; the result is one past the pieces looked
at. -/
def randomStep (p : ℕ) (st : PickState) : ℕ × PickState :=
  let st := st.flag .randomPieces
  if 1 < st.preferContiguousBlocks ∧ ¬ s.downloading p then
    let range := s.expandPiece a p st.preferContiguousBlocks
    let (st, prefer) := pushRange (fun prefer num => prefer ≤ 0 ∧ num ≤ 0) s.blocksInPiece
      (rangePieces range) (st, st.preferContiguousBlocks)
    (range.2, { st with preferContiguousBlocks := prefer })
  else (p + 1, s.addBlocks a p st.preferContiguousBlocks st)

/-- Scan the pieces in a circle, from `p` to `start`. -/
def randomScan (start : ℕ) : ℕ → ℕ → PickState → PickState
  | 0, _, st => st
  | fuel + 1, p, st =>
    if st.numBlocks ≤ 0 then st
    else match s.skipToFree a start st.ignoredPieces s.numPieces p with
      | none => st
      | some p =>
        let (next, st) := s.randomStep a p st
        let next := s.wrap next
        if next = start then st else randomScan start fuel next st

/-- The scan starts at a random piece. Every turn of the loop that goes past `start`
ignores another piece, which bounds the number of turns. -/
def randomStage (st : PickState) : PickState × PiecePicker :=
  let (r, rng) := draw s.rng
  let start := random r (s.numPieces - 1)
  (s.randomScan a start ((s.numPieces + 1) * (s.numPieces + 1)) start st, { s with rng := rng })

def mainStage (st : PickState) : PickState × PiecePicker :=
  if a.options.sequential then
    let s := s.refresh
    (s.sequentialStage a st, s)
  else if a.options.rarestFirst then s.refresh.rarestFirstStage a st
  else s.randomStage a st

/-! ## The end game -/

/-- The blocks of a partial piece that are requested from someone else. -/
def busyBlocks (dp : DownloadingPiece) : List PieceBlock :=
  ((List.range (s.blocksForPiece dp).length).filter fun b =>
    (s.block dp b).state = .requested ∧ (s.block dp b).peer ≠ a.peer).map fun b => ⟨dp.index, b⟩

/-- Pick a random busy block of a random piece; a piece without one is dropped. -/
def busyLoop : ℕ → List DownloadingPiece → PickState → List ℕ → PickState × List ℕ
  | 0, _, st, rng => (st, rng)
  | fuel + 1, partials, st, rng =>
    let (r, rng) := draw rng
    let i := random r (partials.length - 1)
    match partials[i]? with
    | none => (st, rng)
    | some dp =>
      let temp := s.busyBlocks a dp
      if temp ≠ [] then
        let (r, rng) := draw rng
        match temp[random r (temp.length - 1)]? with
        | none => (st, rng)
        | some b =>
          let st := st.flag .endGame
          ({ st with
            interestingBlocks := st.interestingBlocks ++ [b]
            numBlocks := st.numBlocks - 1 }, rng)
      else
        let partials := match partials.getLast? with
          | none => partials
          | some last => (partials.set i last).dropLast
        busyLoop fuel partials st rng

/-- One busy block of a full piece this peer has, unless the peer is on parole. -/
def endGame (st : PickState) : PickState × PiecePicker :=
  if a.options.onParole then (st, s)
  else
    let size := min 200 (s.downloads.downloading.length + s.downloads.full.length)
    let partials :=
      (s.downloads.full.filter fun dp => a.pieces.getD dp.index false).take size
    let (st, rng) := s.busyLoop a partials.length partials st s.rng
    (st, { s with rng := rng })

/-! ## All stages -/

/-- With too many partial pieces, they are completed first. -/
def limitPartials : PickRequest × List PickerFlag :=
  let numPartials := s.downloads.downloading.length
  if a.numPeers * 3 / 2 < numPartials ∨ 2048 < numPartials * s.blocksPerPiece then
    ({ a with
      options := { a.options with prioritizePartials := true }
      preferContiguousBlocks := 0 }, [.partialRatio])
  else (a, [])

/-- What comes after the main stage. -/
def backupStage (st : PickState) : PickState × PiecePicker :=
  let st := (st.flag .backup1).appendBackup
  if st.numBlocks ≤ 0 then (st, s)
  else
    let st := (st.flag .backup2).appendBackup2
    if st.numBlocks ≤ 0 then (st, s) else s.endGame a st

/-- What the stages start from. -/
def startState (a : PickRequest) (flags : List PickerFlag) : PickState :=
  let st : PickState := ⟨[], [], [], [], a.numBlocks, a.preferContiguousBlocks, flags⟩
  if a.preferContiguousBlocks ≠ 0 then st.flag .preferContiguous else st

/-- The stages, one after the other until there are enough blocks. -/
def pickStages (st : PickState) : PickState × PiecePicker :=
  let r := s.partialsStage a st
  if r.1.numBlocks ≤ 0 then r
  else
    let st := r.2.suggestedStage a a.suggestedPieces r.1
    if st.numBlocks ≤ 0 then (st, r.2)
    else
      let r := r.2.mainStage a st
      if r.1.numBlocks ≤ 0 then r else r.2.backupStage a r.1

/-- `pick_pieces`: the blocks picked with the flags are in the `PickState`. -/
def pickPieces : PickState × PiecePicker :=
  let (a, flags) := s.limitPartials a
  s.pickStages a (startState a flags)

end PiecePicker

end LibtorrentSN
