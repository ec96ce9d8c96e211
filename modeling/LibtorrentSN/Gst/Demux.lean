import Mathlib.Data.List.Basic
import Mathlib.Data.Int.Interval
import Mathlib.Tactic.Common

/-!
# The btdemux element

`GstBtDemux` plays the files of one torrent. Each video file is a `GstBtDemuxStream`; the one that is
played is `requested`. A piece is asked for with `read_piece`, comes back as an alert, is queued in
`ipc` and taken from there by the push loop, which then asks for the next one. Where the next pieces
are missing they are set to top priority, and the stream is `buffering` until they have come.

Pieces are the `gint` of the source. The byte offsets inside a piece and the segment events, which
only say what part of a buffer is pushed, are left out, and so is the plumbing of the pads.
-/

namespace LibtorrentSN

namespace Gst

/-! ### The torrent, as the element sees it -/

def dontDownload : ℕ := 0
def lowPriority : ℕ := 1
def defaultPriority : ℕ := 4
def topPriority : ℕ := 7

/-- A torrent behind a `torrent_handle`: which pieces have passed their hash check, which of them
are on disk, and the priorities. -/
structure Handle where
  numPieces : ℕ
  pieceLength : ℤ
  passed : ℤ → Bool
  flushed : ℤ → Bool
  prio : ℤ → ℕ

namespace Handle

variable (h : Handle)

/-- `index` is neither negative nor at or past `end_piece`. -/
def inRange (p : ℤ) : Bool := decide (0 ≤ p) && decide (p < h.numPieces)

/-- `torrent::user_have_piece`. -/
def havePiece (p : ℤ) : Bool := h.inRange p && h.flushed p

/-- `torrent::has_piece_passed`. -/
def hasPiecePassed (p : ℤ) : Bool := h.inRange p && h.passed p

def piecePriority (p : ℤ) : ℕ := if h.inRange p then h.prio p else dontDownload

/-- `torrent::set_piece_priority`, which ignores a piece that does not exist. -/
def setPiecePriority (p : ℤ) (prio : ℕ) : Handle :=
  if h.inRange p then { h with prio := Function.update h.prio p prio } else h

@[simp] theorem setPiecePriority_havePiece (p q : ℤ) (prio : ℕ) :
    (h.setPiecePriority p prio).havePiece q = h.havePiece q := by
  unfold setPiecePriority
  split <;> rfl

@[simp] theorem setPiecePriority_hasPiecePassed (p q : ℤ) (prio : ℕ) :
    (h.setPiecePriority p prio).hasPiecePassed q = h.hasPiecePassed q := by
  unfold setPiecePriority
  split <;> rfl

@[simp] theorem setPiecePriority_inRange (p q : ℤ) (prio : ℕ) :
    (h.setPiecePriority p prio).inRange q = h.inRange q := by
  unfold setPiecePriority
  split <;> rfl

theorem setPiecePriority_piecePriority (p q : ℤ) (prio : ℕ) :
    (h.setPiecePriority p prio).piecePriority q =
      if q = p ∧ h.inRange p then prio else h.piecePriority q := by
  unfold piecePriority setPiecePriority
  by_cases hp : h.inRange p
  · rw [if_pos hp]
    by_cases hq : q = p
    · subst hq
      simp [inRange] at hp ⊢
      simp [hp]
    · simp [hq, inRange]
  · simp [hp]

end Handle

/-- The alerts that the element is fed. The buffer of a `read_piece_alert` is `NULL` when the read
failed. -/
inductive Alert where
  | readPiece (piece : ℤ) (buffer : Bool)
  | pieceFinished (piece : ℤ)
deriving Repr, DecidableEq

/-- `GstBtDemuxStream`. The pieces waiting in `ipc` are the ones that have been read; `pushing` is
the piece in the hands of `gst_pad_push`, with the `old_current_piece` of that iteration, `task`
says that the push loop runs, and `eosSent` that the end of the stream was sent since it was last
activated. -/
structure Stream where
  fileIdx : ℤ
  startByteGlobal : ℤ
  endByteGlobal : ℤ
  lastPiece : ℤ
  startPiece : ℤ
  endPiece : ℤ
  currentPiece : ℤ := 0
  pendingSegment : Bool := false
  moovAfterMdat : Bool := false
  requested : Bool := false
  buffering : Bool := false
  bufferingLevel : ℕ := 0
  bufferingCount : ℕ := 0
  curBufferingFlags : List Bool := []
  ipc : List ℤ := []
  pushing : Option (ℤ × ℤ) := none
  task : Bool := false
  eosSent : Bool := false
deriving Repr, DecidableEq

/-- The places of the code where the window of a stream, or what is noted about it, is changed or
read, with what is found there. -/
inductive Call where
  /-- `gst_bt_demux_stream_activate`. -/
  | activate (h : Handle) (st : Stream)
  /-- The push loop makes a piece the current one. -/
  | push (q : ℤ) (st : Stream)
  /-- The piece before it is the current one again. -/
  | rePush (st : Stream)
  /-- The push loop starts to buffer the piece `next`. -/
  | bufferNext (h : Handle) (next : ℤ) (st : Stream)
  /-- `gst_bt_demux_stream_update_buffering`. -/
  | updateBuffering (h : Handle) (st : Stream)
  /-- `btdemux_feed_piece_finished_alert`. -/
  | pieceFinished (h : Handle) (p : ℤ)

/-- What the element shares with the session: the torrent, the `read_piece` calls that are not done
and the alerts that are not handled. `calls` is a record of what has been called. -/
structure Port where
  handle : Handle
  reads : List ℤ
  alerts : List Alert
  calls : List Call

namespace Port

variable (s : Port)

def readPiece (p : ℤ) : Port := { s with reads := s.reads ++ [p] }

def note (c : Call) : Port := { s with calls := s.calls ++ [c] }

def setPiecePriority (p : ℤ) (prio : ℕ) : Port :=
  { s with handle := s.handle.setPiecePriority p prio }

/-- The two loops of the source that lower priorities again: `lower` says which of the missing
pieces are to get `prio`. -/
def lowerPriority (lower : ℕ → Bool) (prio : ℕ) : List ℤ → Port → Port
  | [], s => s
  | p :: ps, s =>
    if s.handle.havePiece p then lowerPriority lower prio ps s
    else if lower (s.handle.piecePriority p) then
      lowerPriority lower prio ps (s.setPiecePriority p prio)
    else lowerPriority lower prio ps s

end Port

/-! ### The window of pieces that is buffered -/

/-- The pieces from `a` to `b`. -/
def pieceRange (a b : ℤ) : List ℤ := (List.range (b + 1 - a).toNat).map (fun k : ℕ => a + k)

/-- `max_pieces` pieces from `start` on, without exceeding the piece boundary. -/
def window (start : ℤ) (maxPieces : ℕ) (endPiece : ℤ) : List ℤ :=
  if start ≥ endPiece then [endPiece]
  else pieceRange start (min (start + maxPieces - 1) endPiece)

/-- The loop over pieces that fills `cur_buffering_flags`: one flag a piece, set for the missing
ones. A missing piece is set to top priority and counted, unless it has that priority already. -/
def scan (h : Handle) : List ℤ → Handle × List Bool × ℕ
  | [] => (h, [], 0)
  | p :: ps =>
    if h.havePiece p then
      let r := scan h ps
      (r.1, false :: r.2.1, r.2.2)
    else if h.piecePriority p = topPriority then
      let r := scan h ps
      (r.1, true :: r.2.1, r.2.2)
    else
      let r := scan (h.setPiecePriority p topPriority) ps
      (r.1, true :: r.2.1, r.2.2 + 1)

theorem scan_cons (h : Handle) (p : ℤ) (ps : List ℤ) : scan h (p :: ps) =
    if h.havePiece p then ((scan h ps).1, false :: (scan h ps).2.1, (scan h ps).2.2)
    else if h.piecePriority p = topPriority then ((scan h ps).1, true :: (scan h ps).2.1, (scan h ps).2.2)
    else
      ((scan (h.setPiecePriority p topPriority) ps).1, true :: (scan (h.setPiecePriority p topPriority) ps).2.1,
        (scan (h.setPiecePriority p topPriority) ps).2.2 + 1) := rfl

namespace Stream

variable (st : Stream)

/-- The window of `gst_bt_demux_stream_update_buffering`. -/
def nextWindow (maxPieces : ℕ) : List ℤ := window (st.currentPiece + 1) maxPieces st.endPiece

/-- `gst_bt_demux_stream_activate`; the result says that there is something to buffer. -/
def activate (s : Port) (maxPieces : ℕ) : Bool × Port × Stream :=
  let r := scan s.handle (window st.startPiece maxPieces st.endPiece)
  (decide (0 < r.2.2), { s.note (.activate s.handle st) with handle := r.1 },
    { st with
      requested := true
      currentPiece := st.startPiece - 1
      pendingSegment := true
      bufferingLevel := 0
      bufferingCount := r.2.2
      curBufferingFlags := r.2.1
      buffering := decide (0 < r.2.2)
      eosSent := false })

/-- The positions of `cur_buffering_flags` that `gst_bt_demux_stream_update_buffering` reads: those
of the pieces that we have. -/
def flagReads (h : Handle) (maxPieces : ℕ) : List ℕ :=
  ((st.nextWindow maxPieces).zipIdx.filter (fun x => h.havePiece x.1)).map Prod.snd

/-- The pieces counted as buffered. -/
def bufferedPieces (h : Handle) (maxPieces : ℕ) : ℕ :=
  (st.flagReads h maxPieces).countP (fun i => st.curBufferingFlags.getD i false)

/-- The level that `gst_bt_demux_stream_update_buffering` stores. -/
def newLevel (h : Handle) (maxPieces : ℕ) : ℕ :=
  min (st.bufferedPieces h maxPieces) st.bufferingCount * 100 / st.bufferingCount

/-- `gst_bt_demux_stream_update_buffering`. -/
def updateBuffering (s : Port) (maxPieces : ℕ) : Port × Stream :=
  (s.note (.updateBuffering s.handle st),
    { st with bufferingLevel := st.newLevel s.handle maxPieces })

end Stream

/-- A loop over the streams, with what it carries along. -/
def walk {σ α : Type} (f : σ → α → σ × α) : σ → List α → σ × List α
  | s, [] => (s, [])
  | s, a :: l =>
    let r := f s a
    let rest := walk f r.1 l
    (rest.1, r.2 :: rest.2)

/-- A loop keeps what each of its rounds keeps, and each of the results is that of a round. -/
theorem walk_inv {σ α : Type} {f : σ → α → σ × α} {I : σ → Prop} {l : List α} {s : σ} (hs : I s)
    (hf : ∀ s, I s → ∀ a ∈ l, I (f s a).1) :
    I (walk f s l).1 ∧
    ∀ (j : ℕ) (b : α), (walk f s l).2[j]? = some b →
      ∃ s' a, I s' ∧ l[j]? = some a ∧ b = (f s' a).2 := by
  induction l generalizing s with
  | nil => exact ⟨hs, fun j b hb => by cases hb⟩
  | cons a l ih =>
    obtain ⟨h1, h2⟩ := ih (hf s hs a List.mem_cons_self)
      (fun s' hs' x hx => hf s' hs' x (List.mem_cons_of_mem a hx))
    refine ⟨h1, fun j b hb => ?_⟩
    cases j with
    | zero => exact ⟨s, a, hs, rfl, (Option.some.inj hb).symm⟩
    | succ j => exact h2 j b hb

/-- What the handler of a seek event gets: the byte positions inside the file, negative where they
are not given, and whether the seek is the user's. -/
structure Seek where
  start : ℤ
  stop : ℤ
  isUserSeek : Bool
deriving Repr, DecidableEq

/-- The outcomes of `gst_pad_push`: the buffer was taken, it has to be pushed again (flushing, and
no type was found yet), or the stream ends here. -/
inductive Flow where
  | ok
  | rePush
  | failed
deriving Repr, DecidableEq

/-- `GstBtDemux`. -/
structure Demux where
  bufferPieces : ℕ
  port : Port
  streams : List Stream

namespace Demux

variable (d : Demux)

/-- Something done with one stream. -/
def withStream (i : ℕ) (f : Port → Stream → Port × Stream) : Demux :=
  match d.streams[i]? with
  | none => d
  | some st => { d with port := (f d.port st).1, streams := d.streams.set i (f d.port st).2 }

/-- The part of `gst_bt_demux_send_buffering` for one stream, with `start_pushing_requested`. -/
def sendBufferingStream (x : Port × Bool) (st : Stream) : (Port × Bool) × Stream :=
  if !st.requested || !st.buffering then (x, st)
  else if 100 ≤ st.bufferingLevel then
    ((x.1.readPiece (st.currentPiece + 1), true),
      { st with buffering := false, bufferingLevel := 0 })
  else if x.2 then ((x.1.readPiece (st.currentPiece + 1), true), st)
  else (x, st)

/-- `gst_bt_demux_send_buffering`. -/
def sendBuffering : Demux :=
  let r := walk sendBufferingStream (d.port, false) d.streams
  { d with port := r.1.1, streams := r.2 }

/-- A stream is activated; it is then either buffering, or its first piece is read. -/
def start (i : ℕ) : Demux :=
  match d.streams[i]? with
  | none => d
  | some st =>
    let r := st.activate d.port d.bufferPieces
    if r.1 then { d with port := r.2.1, streams := d.streams.set i r.2.2 }.sendBuffering
    else { d with port := r.2.1.readPiece st.startPiece, streams := d.streams.set i r.2.2 }

/-- The window of a stream that is no longer played gets low priority, and its counters are
cleared. -/
def dismiss (maxPieces : ℕ) (s : Port) (st : Stream) : Port × Stream :=
  let area := st.nextWindow maxPieces
  let st' := { st with bufferingCount := 0, bufferingLevel := 0 }
  if min (st.currentPiece + 1) st.endPiece < st.startPiece then (s, st')
  else (s.lowerPriority (fun prio => decide (lowPriority < prio)) lowPriority area, st')

/-- The whole file, as `gst_bt_demux_stream_info` has it. -/
def wholeFile (pieceLength : ℤ) (st : Stream) : Stream :=
  { st with
    startPiece := st.startByteGlobal.tdiv pieceLength
    endPiece := st.endByteGlobal.tdiv pieceLength }

/-- One round of the loop of `gst_bt_demux_switch_streams`. -/
def switchStream (desired : ℤ) (d : Demux) (i : ℕ) : Demux :=
  match d.streams[i]? with
  | none => d
  | some st =>
    if st.fileIdx = desired ∧ st.requested then
      (d.withStream i (fun s st => (s, wholeFile s.handle.pieceLength st))).start i
    else d.withStream i (dismiss d.bufferPieces)

/-- `gst_bt_demux_switch_streams`. -/
def switchStreams (desired : ℤ) : Demux :=
  (List.range d.streams.length).foldl (switchStream desired) d

/-- One round of the loop of `update_requested_stream`. -/
def requestStream (desired : ℤ) (d : Demux) (i : ℕ) : Demux :=
  match d.streams[i]? with
  | none => d
  | some st =>
    if st.fileIdx ≠ desired then
      d.withStream i (fun s st => (s, { st with requested := false, task := false }))
    else
      (d.withStream i (fun s st => (s, { st with requested := true }))).switchStreams desired

/-- `update_requested_stream`, for a new `current-video-file-index`. -/
def updateRequestedStream (desired : ℤ) : Demux :=
  (List.range d.streams.length).foldl (requestStream desired) d

/-- The byte position where a seek ends. The length of a file that is not on one piece only is
computed with `int`. -/
def seekStop (pieceLength : ℤ) (st : Stream) (stop : ℤ) : ℤ :=
  if stop < 0 then
    let startPiece := st.startByteGlobal.tdiv pieceLength
    let startOffset := st.startByteGlobal.tmod pieceLength
    let endPiece := st.endByteGlobal.tdiv pieceLength
    let endOffset := st.endByteGlobal.tmod pieceLength
    let numPieces := endPiece - startPiece + 1
    if numPieces = 1 then endOffset - startOffset
    else ((numPieces - 2) * pieceLength).bmod (2 ^ 32) + (pieceLength - startOffset) + endOffset
  else stop

/-- The new range of a stream, in `gst_bt_demux_stream_seek`. -/
def seekRange (pieceLength : ℤ) (st : Stream) (k : Seek) : Stream :=
  { st with
    moovAfterMdat := st.moovAfterMdat || !k.isUserSeek
    endPiece := (st.startByteGlobal + seekStop pieceLength st k.stop).tdiv pieceLength
    startPiece := (st.startByteGlobal + max k.start 0).tdiv pieceLength }

/-- The part of `gst_bt_demux_stream_seek` under the lock, up to the activation: the pieces that
were buffered get the default priority again. -/
def leaveWindow (maxPieces : ℕ) (s : Port) (st : Stream) : Port :=
  let oldStart := min (st.currentPiece + 1) st.endPiece
  if st.startPiece ≠ oldStart then
    s.lowerPriority (fun prio => decide (prio = topPriority)) defaultPriority
      (st.nextWindow maxPieces)
  else s

/-- `gst_bt_demux_stream_seek`. -/
def seek (i : ℕ) (k : Seek) : Demux :=
  match d.streams[i]? with
  | none => d
  | some st =>
    let st1 := seekRange d.port.handle.pieceLength st k
    let r := st1.activate (leaveWindow d.bufferPieces d.port st1) d.bufferPieces
    if r.1 then
      let u := r.2.2.updateBuffering r.2.1 d.bufferPieces
      { d with port := u.1, streams := d.streams.set i u.2 }.sendBuffering
    else { d with port := r.2.1.readPiece st1.startPiece, streams := d.streams.set i r.2.2 }

/-- The push loop takes a piece from `ipc`. It drops a piece that is not the one after
`current_piece`; the other one goes to `gst_pad_push`. -/
def takePiece (s : Port) (st : Stream) : Port × Stream :=
  if !st.task || st.pushing.isSome then (s, st)
  else if !st.requested then (s, { st with task := false })
  else match st.ipc with
    | [] => (s, st)
    | q :: rest =>
      if (q < st.startPiece ∧ q > st.endPiece) ∨ q ≠ st.currentPiece + 1 then
        (s, { st with ipc := rest })
      else
        (s.note (.push q st), { st with
          ipc := rest
          pendingSegment := false
          currentPiece := q
          pushing := some (q, st.currentPiece) })

/-- The `send_eos` of the push loop: the push has failed, or it was the one of the last piece and it
did not trigger a new seek. -/
def sendEos (q : ℤ) (r : Flow) (st : Stream) : Bool :=
  decide (r = .failed) || (!st.moovAfterMdat && decide (q = st.lastPiece) && !st.pendingSegment)

/-- `gst_pad_push` has returned. The piece goes back to the front of the queue when it has to be
pushed again. -/
def pushed (q old : ℤ) (r : Flow) (s : Port) (st : Stream) : Port × Stream :=
  let st1 := if sendEos q r st then { st with eosSent := true, task := false } else st
  if r = .rePush then
    (s.note (.rePush st), { st1 with pushing := none, ipc := q :: st.ipc, currentPiece := old })
  else (s, { st1 with pushing := none })

/-- The flags are filled anew for the piece `next`. The loop of the source never moves on from it:
its `idx` is `next` in each of the `buffer_pieces - 1` rounds. -/
def bufferNext (maxPieces : ℕ) (next : ℤ) (s : Port) (st : Stream) : Port × Stream :=
  let r := scan s.handle (List.replicate (maxPieces - 1) next)
  ({ s.note (.bufferNext s.handle next st) with handle := r.1 },
    { st with
      bufferingLevel := 0
      bufferingCount := r.2.2
      curBufferingFlags := r.2.1
      buffering := st.buffering || decide (0 < r.2.2) })

/-- The last part of the push loop: the piece `next` is read, or buffered. -/
def readNext (i : ℕ) (next : ℤ) (sendEos : Bool) : Demux :=
  match d.streams[i]? with
  | none => d
  | some st =>
    if next ≤ st.endPiece ∧ st.currentPiece < next ∧
        next ≤ st.currentPiece + d.bufferPieces - 1 then
      if d.port.handle.havePiece next then
        if sendEos then d else { d with port := d.port.readPiece next }
      else (d.withStream i (bufferNext d.bufferPieces next)).sendBuffering
    else d

/-- When the `moov` header came after the `mdat`, the push loop goes back to the first piece of the
file. -/
def moovReset (i : ℕ) (q : ℤ) : Demux :=
  match d.streams[i]? with
  | none => d
  | some st =>
    if st.moovAfterMdat ∧ q = st.endPiece then
      ((d.withStream i (fun s st => (s, wholeFile s.handle.pieceLength st))).start i).withStream i
        (fun s st => (s, { st with moovAfterMdat := false }))
    else d

/-- The push loop after `gst_pad_push`. -/
def pushDone (i : ℕ) (r : Flow) : Demux :=
  match d.streams[i]? with
  | none => d
  | some st =>
    match st.pushing with
    | none => d
    | some (q, old) =>
      let d1 := d.withStream i (pushed q old r)
      let d2 := d1.moovReset i q
      if r = .rePush then d2 else d2.readNext i (q + 1) (sendEos q r st)

/-- `btdemux_feed_read_piece_alert`, for one stream. -/
def feedReadPiece (maxPieces : ℕ) (p : ℤ) (s : Port) (st : Stream) : Port × Stream :=
  if p < st.startPiece ∨ p > st.endPiece then (s, st)
  else if !st.requested then (s, { st with task := false })
  else if p ≤ st.currentPiece ∨ p > st.currentPiece + maxPieces - 1 then (s, st)
  else (s, { st with ipc := st.ipc ++ [p], task := true })

/-- `btdemux_feed_piece_finished_alert`, for one stream; it carries `update_buffering`. -/
def feedPieceFinished (maxPieces : ℕ) (p : ℤ) (x : Port × Bool) (st : Stream) :
    (Port × Bool) × Stream :=
  if p < st.startPiece ∨ p > st.endPiece ∨ !st.requested then (x, st)
  else
    let s := x.1.setPiecePriority p dontDownload
    if st.buffering then
      let u := st.updateBuffering s maxPieces
      ((u.1, true), u.2)
    else ((s, x.2), st)

/-- An alert is handled. -/
def feed : Alert → Demux
  | .readPiece p buffer =>
    if buffer then
      let r := walk (feedReadPiece d.bufferPieces p) d.port d.streams
      { d with port := r.1, streams := r.2 }
    else d
  | .pieceFinished p =>
    let r := walk (feedPieceFinished d.bufferPieces p)
      (d.port.note (.pieceFinished d.port.handle p), false) d.streams
    let d' := { d with port := r.1.1, streams := r.2 }
    if r.1.2 then d'.sendBuffering else d'

/-- The steps of the element and of the session. -/
inductive Event where
  | switch (fileIdx : ℤ)
  | seek (i : ℕ) (k : Seek)
  | take (i : ℕ)
  | pushDone (i : ℕ) (r : Flow)
  | readDone (k : ℕ)
  | passes (p : ℤ)
  | flushes (p : ℤ)
  | alert
deriving Repr, DecidableEq

/-- One step. A read gives data when the piece has passed its hash check, a piece that passes is
announced with an alert, it is on disk some time later, and alerts are handled in order. -/
def step : Event → Demux
  | .switch f => d.updateRequestedStream f
  | .seek i k => d.seek i k
  | .take i => d.withStream i takePiece
  | .pushDone i r => d.pushDone i r
  | .readDone k =>
    match d.port.reads[k]? with
    | none => d
    | some p => { d with port := { d.port with
        reads := d.port.reads.eraseIdx k
        alerts := d.port.alerts ++ [.readPiece p (d.port.handle.hasPiecePassed p)] } }
  | .passes p =>
    if d.port.handle.inRange p ∧ ¬ d.port.handle.passed p then
      { d with port := { d.port with
        handle := { d.port.handle with passed := Function.update d.port.handle.passed p true }
        alerts := d.port.alerts ++ [.pieceFinished p] } }
    else d
  | .flushes p =>
    if d.port.handle.passed p then
      { d with port := { d.port with
        handle := { d.port.handle with flushed := Function.update d.port.handle.flushed p true } } }
    else d
  | .alert =>
    match d.port.alerts with
    | [] => d
    | a :: rest => { d with port := { d.port with alerts := rest } }.feed a

/-- A run of the element. -/
def run (evs : List Event) : Demux := evs.foldl step d

end Demux

/-- A stream as `btdemux_feed_playlist` makes it for a file. -/
def Stream.ofFile (pieceLength : ℤ) (fileIdx offset size : ℤ) : Stream where
  fileIdx := fileIdx
  startByteGlobal := offset
  endByteGlobal := offset + size
  lastPiece := (offset + size).tdiv pieceLength
  startPiece := offset.tdiv pieceLength
  endPiece := (offset + size).tdiv pieceLength

/-- `btdemux_feed_playlist`: a stream for each of the videos, `files` being their numbers, offsets
and sizes, and low priority for every piece. -/
def feedPlaylist (bufferPieces : ℕ) (h : Handle) (files : List (ℤ × ℤ × ℤ)) : Demux where
  bufferPieces := bufferPieces
  port := ⟨{ h with prio := fun _ => lowPriority }, [], [], []⟩
  streams := files.map (fun f => Stream.ofFile h.pieceLength f.1 f.2.1 f.2.2)

end Gst

end LibtorrentSN
