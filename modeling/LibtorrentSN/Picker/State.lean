import LibtorrentSN.BucketRebuild
import LibtorrentSN.BucketFrame
import LibtorrentSN.SortedVector

/-!
# The piece picker: its state

The data of `piece_picker` and the functions that only read it. Pieces are natural
numbers. What the source keeps in one vector of `piece_pos` is split in two here: the
`index` fields of all pieces are the `index` of the bucketed list (`m_pieces`,
`m_priority_boundaries`), the other fields are a `PiecePos` each.

`m_block_info` is a list of slots of `blocks_per_piece` blocks. A peer is a number, and
`none` is the null pointer. Random numbers come from a list of raw draws in the state.

`peer_count` is an integer, for less than `2 ^ 26` peers that have a piece: a torrent has fewer
connections than that, since it counts them in 24 bits.
-/

namespace LibtorrentSN

/-- The buckets of `m_downloads`. -/
inductive DownloadQueue where
  | pieceDownloading
  | pieceFull
  | pieceFinished
  | pieceZeroPrio
  deriving DecidableEq, Repr

/-- The values of `piece_pos::download_state`. -/
inductive DownloadState where
  | pieceDownloading
  | pieceFull
  | pieceFinished
  | pieceZeroPrio
  | pieceOpen
  | pieceDownloadingReverse
  | pieceFullReverse
  deriving DecidableEq, Repr

namespace DownloadState

/-- The bucket a piece in this state is in; `none` for an open piece. -/
def downloadQueue : DownloadState → Option DownloadQueue
  | pieceDownloading | pieceDownloadingReverse => some .pieceDownloading
  | pieceFull | pieceFullReverse => some .pieceFull
  | pieceFinished => some .pieceFinished
  | pieceZeroPrio => some .pieceZeroPrio
  | pieceOpen => none

def reverse : DownloadState → Bool
  | pieceDownloadingReverse | pieceFullReverse => true
  | _ => false

def unreverse : DownloadState → DownloadState
  | pieceDownloadingReverse => pieceDownloading
  | pieceFullReverse => pieceFull
  | st => st

def makeReverse : DownloadState → DownloadState
  | pieceDownloading => pieceDownloadingReverse
  | pieceFull => pieceFullReverse
  | st => st

end DownloadState

/-- `piece_pos`, less its `index`. -/
structure PiecePos where
  /-- the peers that have the piece and are not counted as seeds -/
  peerCount : ℤ
  downloadState : DownloadState
  piecePriority : ℕ
  deriving DecidableEq, Repr

/-- The number of priority levels. -/
def priorityLevels : ℤ := 8

/-- Downloading, open and reverse pieces of one availability. -/
def prioFactor : ℤ := 3

def topPriority : ℕ := 7

def defaultPriority : ℕ := 4

namespace PiecePos

def filtered (pos : PiecePos) : Prop := pos.piecePriority = 0

instance (pos : PiecePos) : Decidable pos.filtered := inferInstanceAs (Decidable (_ = _))

/-- The sort order of a piece in the list, or `-1` if it should not be there. `has` says
whether we have the piece. -/
def priority (pos : PiecePos) (has : Bool) (seeds : ℤ) : ℤ :=
  if pos.filtered ∨ has = true ∨ pos.peerCount + seeds = 0 ∨
      pos.downloadState = .pieceFull ∨ pos.downloadState = .pieceFinished then -1
  else
    let adjustment : ℤ :=
      if pos.downloadState.reverse then -1
      else if pos.downloadState ≠ .pieceOpen then -3
      else -2
    (pos.peerCount + 1) * (priorityLevels - pos.piecePriority) * prioFactor + adjustment

end PiecePos

/-- The states of a block. -/
inductive BlockState where
  | none
  | requested
  | writing
  | finished
  deriving DecidableEq, Repr

/-- `block_info`. -/
structure BlockInfo where
  peer : Option ℕ
  /-- a counter of 14 bits -/
  numPeers : ℕ
  state : BlockState
  deriving DecidableEq, Repr

instance : Inhabited BlockInfo := ⟨⟨none, 0, .none⟩⟩

/-- `downloading_piece`: a partial piece. -/
structure DownloadingPiece where
  index : ℕ
  /-- the slot of its blocks -/
  infoIdx : ℕ
  finished : ℕ
  writing : ℕ
  requested : ℕ
  passedHashCheck : Bool
  locked : Bool
  hashing : Bool
  deriving DecidableEq, Repr

/-- The number of blocks that are not free. -/
def DownloadingPiece.busy (dp : DownloadingPiece) : ℕ := dp.requested + dp.finished + dp.writing

/-- `m_downloads`: one sorted vector per bucket. -/
structure Downloads where
  downloading : List DownloadingPiece
  full : List DownloadingPiece
  finished : List DownloadingPiece
  zeroPrio : List DownloadingPiece
  deriving DecidableEq, Repr

namespace Downloads

def empty : Downloads := ⟨[], [], [], []⟩

def get (d : Downloads) : DownloadQueue → List DownloadingPiece
  | .pieceDownloading => d.downloading
  | .pieceFull => d.full
  | .pieceFinished => d.finished
  | .pieceZeroPrio => d.zeroPrio

def set (d : Downloads) (q : DownloadQueue) (l : List DownloadingPiece) : Downloads :=
  match q with
  | .pieceDownloading => { d with downloading := l }
  | .pieceFull => { d with full := l }
  | .pieceFinished => { d with finished := l }
  | .pieceZeroPrio => { d with zeroPrio := l }

/-- Change the bucket of a download state; an open piece has none. -/
def on (d : Downloads) (q : Option DownloadQueue)
    (f : List DownloadingPiece → List DownloadingPiece) : Downloads :=
  match q with
  | none => d
  | some q => d.set q (f (d.get q))

/-- All partial pieces. -/
def all (d : Downloads) : List DownloadingPiece :=
  d.downloading ++ d.full ++ d.finished ++ d.zeroPrio

theorem get_set (d : Downloads) (q j : DownloadQueue) (l : List DownloadingPiece) :
    (d.set q l).get j = if j = q then l else d.get j := by
  cases q <;> cases j <;> rfl

@[simp] theorem get_empty (j : DownloadQueue) : empty.get j = [] := by cases j <;> rfl

theorem mem_all {d : Downloads} {dp : DownloadingPiece} : dp ∈ d.all ↔ ∃ j, dp ∈ d.get j := by
  simp only [all, List.mem_append]
  constructor
  · rintro (((h | h) | h) | h)
    · exact ⟨.pieceDownloading, h⟩
    · exact ⟨.pieceFull, h⟩
    · exact ⟨.pieceFinished, h⟩
    · exact ⟨.pieceZeroPrio, h⟩
  · rintro ⟨j, h⟩
    cases j with
    | pieceDownloading => exact .inl (.inl (.inl h))
    | pieceFull => exact .inl (.inl (.inr h))
    | pieceFinished => exact .inl (.inr h)
    | pieceZeroPrio => exact .inr h

end Downloads

/-- `default_block_size`. -/
def defaultBlockSize : ℕ := 0x4000

/-- The counters of a partial piece have 15 bits. -/
def maxBlocksPerPiece : ℕ := 2 ^ 15 - 1

/-- The number of blocks to create an affinity for. -/
def maxPieceAffinityExtent : ℕ := 4 * 1024 * 1024 / defaultBlockSize

/-- The part of `piece_picker` that describes the pieces and their partial downloads. -/
structure PickerCore where
  pieceMap : List PiecePos
  downloads : Downloads
  blockInfo : List (List BlockInfo)
  /-- a stack, its top first -/
  freeBlockInfos : List ℕ
  padsInPiece : List (ℕ × ℕ)
  totalSize : ℕ
  pieceSize : ℕ
  blocksInLastPiece : ℕ
  deriving DecidableEq, Repr

/-- `piece_picker`: the pieces, the list of pieces to pick and the counters. -/
structure PiecePicker extends PickerCore where
  /-- `m_pieces`, `m_priority_boundaries` and the `index` of every piece -/
  list : BucketList
  dirty : Bool
  seeds : ℤ
  numFiltered : ℤ
  numHaveFiltered : ℤ
  numHave : ℤ
  numPassed : ℤ
  numPadBytes : ℤ
  havePadBytes : ℤ
  filteredPadBytes : ℤ
  haveFilteredPadBytes : ℤ
  recentExtents : List ℕ
  cursor : ℕ
  reverseCursor : ℕ
  /-- raw draws of the random number generator -/
  rng : List ℕ
  deriving DecidableEq, Repr

namespace PickerCore

variable (s : PickerCore)

/-! ## Sizes -/

def numPieces : ℕ := s.pieceMap.length

def blockSize : ℕ := min s.pieceSize defaultBlockSize

def blocksPerPiece : ℕ := (s.pieceSize + s.blockSize - 1) / s.blockSize

def blocksInPiece (p : ℕ) : ℕ :=
  if p + 1 = s.numPieces then s.blocksInLastPiece else s.blocksPerPiece

/-- `piece_size(p)`. -/
def sizeOfPiece (p : ℕ) : ℕ :=
  if p + 1 ≠ s.numPieces then s.pieceSize
  else s.totalSize - (s.numPieces - 1) * s.pieceSize

def padBytesInPiece (p : ℕ) : ℕ := (s.padsInPiece.lookup p).getD 0

/-! ## Pieces -/

/-- `m_piece_map[p]`. -/
def pos (p : ℕ) : PiecePos := s.pieceMap.getD p ⟨0, .pieceOpen, 0⟩

def state (p : ℕ) : DownloadState := (s.pos p).downloadState

def downloadQueue (p : ℕ) : Option DownloadQueue := (s.state p).downloadQueue

def downloading (p : ℕ) : Prop := s.state p ≠ .pieceOpen

instance (p : ℕ) : Decidable (s.downloading p) := inferInstanceAs (Decidable (_ ≠ _))

def filtered (p : ℕ) : Prop := (s.pos p).filtered

instance (p : ℕ) : Decidable (s.filtered p) := inferInstanceAs (Decidable (PiecePos.filtered _))

/-! ## Partial pieces -/

/-- The partial piece `p`, in the bucket of its state. -/
def findDlPiece (p : ℕ) : Option DownloadingPiece :=
  match s.downloadQueue p with
  | none => none
  | some q => SortedVector.find DownloadingPiece.index (s.downloads.get q) p

def blocksForPiece (dp : DownloadingPiece) : List BlockInfo :=
  (s.blockInfo.getD dp.infoIdx []).take (s.blocksInPiece dp.index)

def block (dp : DownloadingPiece) (b : ℕ) : BlockInfo :=
  (s.blocksForPiece dp).getD b default

/-! ## Extents -/

/-- `extent_for(p)`: the extent of a piece. -/
def extentFor (p : ℕ) : ℕ := p / (maxPieceAffinityExtent / s.blocksPerPiece)

/-- `extent_for(e)`: the pieces of an extent. -/
def extentPieces (e : ℕ) : List ℕ :=
  let extentSize := maxPieceAffinityExtent / s.blocksPerPiece
  let first := e * extentSize
  let last := min (first + extentSize) s.numPieces
  (List.range (last - first)).map (first + ·)

end PickerCore

namespace PiecePicker

variable (s : PiecePicker)

/-! ## What the picker knows of a piece -/

/-- The index of a piece we have is `we_have_index`. -/
def havePiece (p : ℕ) : Prop := s.list.idx p = -1

instance (p : ℕ) : Decidable (s.havePiece p) := inferInstanceAs (Decidable (_ = _))

def priority (p : ℕ) : ℤ := (s.pos p).priority (decide (s.havePiece p)) s.seeds

def getAvailability (p : ℕ) : ℤ := (s.pos p).peerCount + s.seeds

def hasPiecePassed (p : ℕ) : Bool :=
  if s.havePiece p then true
  else match s.findDlPiece p with
    | none => false
    | some dp => dp.passedHashCheck

/-- `is_finished()`: all the pieces we want have passed the hash check. -/
def isFinished : Bool := (s.numPieces : ℤ) - s.numFiltered ≤ s.numPassed

end PiecePicker

end LibtorrentSN
