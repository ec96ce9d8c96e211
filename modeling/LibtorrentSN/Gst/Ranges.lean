import LibtorrentSN.Gst.Buffering

/-!
# The bytes that are played

A stream plays a range of bytes of the torrent, which is kept as a piece and an offset inside it for each of its ends.
The end is exclusive: it is the position behind the last byte. The buffers are cut from the pieces `start_piece` to
`end_piece`, so when the end is on a piece boundary the last of these pieces has nothing to give, and at the end of
the torrent it does not even exist.
-/

namespace LibtorrentSN

namespace Gst

/-- The sizes of a torrent. The number of pieces and the piece length are `int`. -/
structure Layout where
  pieceLength : ℤ
  totalSize : ℤ
  pieceLength_pos : 0 < pieceLength
  pieceLength_lt : pieceLength < 2 ^ 31
  numPieces_lt : (totalSize + pieceLength - 1) / pieceLength < 2 ^ 31

namespace Layout

variable (l : Layout)

def numPieces : ℤ := (l.totalSize + l.pieceLength - 1) / l.pieceLength

def pieceSize (p : ℤ) : ℤ :=
  if p = l.numPieces - 1 then l.totalSize - p * l.pieceLength else l.pieceLength

end Layout

/-- The range of a stream. -/
@[ext] structure ByteRange where
  startPiece : ℤ
  startOffset : ℤ
  endPiece : ℤ
  endOffset : ℤ
deriving Repr, DecidableEq

/-- A buffer: where it starts inside of the piece, and its size. -/
structure Buffer where
  data : ℤ
  size : ℤ
deriving Repr, DecidableEq

/-- `gst_bt_demux_buffer_new`. -/
def bufferNew (r : ByteRange) (piece size : ℤ) : Buffer :=
  -- one piece only
  if r.startPiece = r.endPiece then ⟨r.startOffset, r.endOffset - r.startOffset⟩
  else if piece = r.startPiece then ⟨r.startOffset, size - r.startOffset⟩
  else if piece = r.endPiece then ⟨0, size - (size - r.endOffset)⟩
  else ⟨0, size⟩

/-- The places that set the range. -/
inductive Setup where
  /-- `gst_bt_demux_stream_info`, when a stream is switched to. -/
  | info
  /-- `gst_bt_demux_stream_seek`. -/
  | seek (k : Seek)
  /-- The push loop has got a `moov` header behind the `mdat`. -/
  | moovReset
deriving Repr, DecidableEq

namespace Setup

variable (pieceLength : ℤ) (st : Stream)

/-- The stream with its new range of pieces. -/
def stream : Setup → Stream
  | info => Demux.wholeFile pieceLength st
  | seek k => Demux.seekRange pieceLength st k
  | moovReset => Demux.wholeFile pieceLength st

def startOffset : Setup → ℤ
  | info => st.startByteGlobal.tmod pieceLength
  | seek k => (st.startByteGlobal + max k.start 0).tmod pieceLength
  | moovReset => st.startByteGlobal.tmod pieceLength

/-- The position behind the last byte, as the code computes it. -/
def stop : Setup → ℤ
  | info => st.endByteGlobal
  | seek k => st.startByteGlobal + Demux.seekStop pieceLength st k.stop
  | moovReset => st.endByteGlobal

def endOffset (s : Setup) : ℤ := (s.stop pieceLength st).tmod pieceLength

def range (s : Setup) : ByteRange :=
  ⟨(s.stream pieceLength st).startPiece, s.startOffset pieceLength st, (s.stream pieceLength st).endPiece,
    s.endOffset pieceLength st⟩

/-- The first byte asked for, as a position in the torrent. -/
def firstByte : Setup → ℤ
  | info => st.startByteGlobal
  | seek k => st.startByteGlobal + k.start
  | moovReset => st.startByteGlobal

/-- The position behind the last byte asked for. -/
def lastByte : Setup → ℤ
  | info => st.endByteGlobal
  | seek k => if k.stop = -1 then st.endByteGlobal else st.startByteGlobal + k.stop
  | moovReset => st.endByteGlobal

/-- A seek inside of the file, to its end when the stop is not given. -/
def Valid : Setup → Prop
  | info => True
  | seek k => 0 ≤ k.start ∧ k.start < st.endByteGlobal - st.startByteGlobal ∧
      (k.stop = -1 ∨ k.start < k.stop ∧ k.stop ≤ st.endByteGlobal - st.startByteGlobal)
  | moovReset => True

/-- The whole pieces of the file, which a seek to its end counts with `int`, are less than 2 GiB. -/
def NoOverflow : Setup → Prop
  | seek k => k.stop = -1 →
      (st.endByteGlobal / pieceLength - st.startByteGlobal / pieceLength - 1) * pieceLength < 2 ^ 31
  | _ => True

end Setup

/-- The positions from `a` up to `b`. -/
def positions (a b : ℤ) : List ℤ := (List.range (b - a).toNat).map fun k : ℕ => a + k

/-- The bytes of a piece that the range of the stream lets through. -/
def cut (l : Layout) (r : ByteRange) (p : ℤ) : List ℤ :=
  let b := bufferNew r p (l.pieceSize p)
  positions (p * l.pieceLength + b.data) (p * l.pieceLength + b.data + b.size)

/-- The pieces of the range give the bytes from `first` up to `last`, each with a buffer that is not empty. -/
structure Streams (l : Layout) (r : ByteRange) (first last : ℤ) : Prop where
  valid : ∀ p ∈ pieceRange r.startPiece r.endPiece, 0 ≤ p ∧ p < l.numPieces
  within : ∀ p ∈ pieceRange r.startPiece r.endPiece,
    0 < (bufferNew r p (l.pieceSize p)).size ∧ 0 ≤ (bufferNew r p (l.pieceSize p)).data ∧
      (bufferNew r p (l.pieceSize p)).data + (bufferNew r p (l.pieceSize p)).size ≤ l.pieceSize p
  bytes : (pieceRange r.startPiece r.endPiece).flatMap (cut l r) = positions first last

/-! ### Positions -/

theorem positions_append {a b c : ℤ} (h : a ≤ b) (h' : b ≤ c) :
    positions a b ++ positions b c = positions a c := by
  have hc : (c - a).toNat = (b - a).toNat + (c - b).toNat := by omega
  rw [positions, positions, positions, hc, List.range_add, List.map_append, List.map_map]
  refine congrArg _ (List.map_congr_left fun k _ => ?_)
  simp only [Function.comp_apply, Nat.cast_add]
  omega

theorem getLast?_positions {a b : ℤ} (h : a < b) : (positions a b).getLast? = some (b - 1) := by
  have hsplit : positions a b = positions a (b - 1) ++ positions (b - 1) b :=
    (positions_append (by omega) (by omega)).symm
  have hone : positions (b - 1) b = [b - 1] := by
    have h1 : (b - (b - 1)).toNat = 1 := by omega
    rw [positions, h1]
    simp
  rw [hsplit, hone, List.getLast?_concat]

theorem pieceRange_of_lt {a b : ℤ} (h : b < a) : pieceRange a b = [] := by
  rw [pieceRange, Int.toNat_of_nonpos (by omega)]
  rfl

theorem pieceRange_succ {a b : ℤ} (h : a ≤ b) : pieceRange a b = pieceRange a (b - 1) ++ [b] := by
  have h1 : (b + 1 - a).toNat = (b - 1 + 1 - a).toNat + 1 := by omega
  rw [pieceRange, pieceRange, h1, List.range_succ, List.map_append]
  refine congrArg _ ?_
  simp only [List.map_cons, List.map_nil]
  congr 1
  omega

/-! ### The end of a range -/

variable {l : Layout} {r : ByteRange} {first last : ℤ} {st : Stream}

theorem bufferNew_end (r : ByteRange) (size : ℤ) :
    (bufferNew r r.endPiece size).data + (bufferNew r r.endPiece size).size = r.endOffset := by
  rw [bufferNew]
  split_ifs with h₁ h₂ h₃
  · change r.startOffset + (r.endOffset - r.startOffset) = r.endOffset
    omega
  · exact absurd h₂.symm h₁
  · change 0 + (size - (size - r.endOffset)) = r.endOffset
    omega
  · exact absurd rfl h₃

theorem Streams.start_le (h : Streams l r first last) (hlt : first < last) : r.startPiece ≤ r.endPiece := by
  by_contra hgt
  have hlast := getLast?_positions hlt
  rw [← h.bytes, pieceRange_of_lt (by omega)] at hlast
  cases hlast

/-- The buffers end where the range does. -/
theorem Streams.last_eq (h : Streams l r first last) (hlt : first < last) :
    r.endPiece * l.pieceLength + r.endOffset = last := by
  have hle := h.start_le hlt
  have hmem : r.endPiece ∈ pieceRange r.startPiece r.endPiece := mem_pieceRange.mpr ⟨hle, Int.le_refl _⟩
  have hpos := (h.within _ hmem).1
  have hcut : (cut l r r.endPiece).getLast? = some (r.endPiece * l.pieceLength + r.endOffset - 1) := by
    rw [cut, getLast?_positions (by omega), Int.add_assoc, bufferNew_end]
  have hlast := getLast?_positions hlt
  rw [← h.bytes, pieceRange_succ hle, List.flatMap_append, List.flatMap_singleton, List.getLast?_append, hcut] at hlast
  have := Option.some.inj hlast
  omega

/-- It is not on a piece boundary. -/
theorem Streams.endOffset_pos (h : Streams l r first last) (hlt : first < last) : 0 < r.endOffset := by
  have hmem : r.endPiece ∈ pieceRange r.startPiece r.endPiece :=
    mem_pieceRange.mpr ⟨h.start_le hlt, Int.le_refl _⟩
  obtain ⟨hpos, hdata, -⟩ := h.within _ hmem
  have := bufferNew_end r (l.pieceSize r.endPiece)
  omega

/-! ### A range that does not end on a boundary -/

/-- The range between two positions. -/
def rangeOf (l : Layout) (first last : ℤ) : ByteRange :=
  ⟨first / l.pieceLength, first % l.pieceLength, last / l.pieceLength, last % l.pieceLength⟩

theorem Layout.div_mul_add_mod (l : Layout) (n : ℤ) : n / l.pieceLength * l.pieceLength + n % l.pieceLength = n := by
  rw [Int.mul_comm]
  exact Int.mul_ediv_add_emod n l.pieceLength

theorem Layout.mod_bounds (l : Layout) (n : ℤ) : 0 ≤ n % l.pieceLength ∧ n % l.pieceLength < l.pieceLength :=
  ⟨Int.emod_nonneg n l.pieceLength_pos.ne', Int.emod_lt_of_pos n l.pieceLength_pos⟩

/-- The last byte is in a piece. -/
theorem div_lt_numPieces (hlast : last ≤ l.totalSize) (hdvd : last % l.pieceLength ≠ 0) :
    last / l.pieceLength < l.numPieces := by
  have h1 := l.div_mul_add_mod last
  have h2 := l.mod_bounds last
  have h3 : last / l.pieceLength + 1 ≤ l.numPieces := by
    rw [Layout.numPieces, Int.le_ediv_iff_mul_le l.pieceLength_pos, Int.add_mul, Int.one_mul]
    omega
  omega

theorem Layout.mul_le_mul (l : Layout) {p q : ℤ} (h : p ≤ q) : p * l.pieceLength ≤ q * l.pieceLength :=
  Int.mul_le_mul_of_nonneg_right h l.pieceLength_pos.le

/-- The buffer of a piece has its part of the range. -/
theorem bufferNew_rangeOf (hlast : last ≤ l.totalSize) (hdvd : last % l.pieceLength ≠ 0) {p : ℤ}
    (hp : first / l.pieceLength ≤ p) (hp' : p ≤ last / l.pieceLength) :
    let b := bufferNew (rangeOf l first last) p (l.pieceSize p)
    p * l.pieceLength + b.data = max first (p * l.pieceLength) ∧
      p * l.pieceLength + b.data + b.size = min last ((p + 1) * l.pieceLength) ∧
      b.data + b.size ≤ l.pieceSize p := by
  have hf := l.div_mul_add_mod first
  have hl := l.div_mul_add_mod last
  have hfm := l.mod_bounds first
  have hlm := l.mod_bounds last
  have hnum := div_lt_numPieces hlast hdvd
  have hlo := l.mul_le_mul hp
  have hhi := l.mul_le_mul hp'
  have hsucc : (p + 1) * l.pieceLength = p * l.pieceLength + l.pieceLength := by rw [Int.add_mul, Int.one_mul]
  have hsize : p < last / l.pieceLength → l.pieceSize p = l.pieceLength := fun h =>
    if_neg (by omega)
  have hbefore : p < last / l.pieceLength → (p + 1) * l.pieceLength ≤ last / l.pieceLength * l.pieceLength :=
    fun h => l.mul_le_mul h
  have hbehind : first / l.pieceLength < p → first / l.pieceLength * l.pieceLength + l.pieceLength ≤
      p * l.pieceLength := fun h => by
    have := l.mul_le_mul h
    rw [Int.add_mul, Int.one_mul] at this
    exact this
  have hend : last - last / l.pieceLength * l.pieceLength ≤ l.pieceSize (last / l.pieceLength) := by
    rw [Layout.pieceSize]
    split_ifs <;> omega
  dsimp only [bufferNew, rangeOf]
  split_ifs with h₁ h₂ h₃ <;> dsimp only
  · have hpf : p = first / l.pieceLength := by omega
    have hpl : p = last / l.pieceLength := by omega
    rw [← hpl] at hend hl
    rw [← hpf] at hf
    omega
  · rw [h₂] at hsize hsucc hbefore ⊢
    have hb := hbefore (by omega)
    rw [hsize (by omega)]
    omega
  · have hb := hbehind (by omega)
    rw [← h₃] at hend hl hhi
    omega
  · have hb := hbehind (by omega)
    have hb' := hbefore (by omega)
    rw [hsize (by omega)]
    omega

/-- The pieces up to `c` give the range up to there. -/
theorem flatMap_cut (hlast : last ≤ l.totalSize) (hdvd : last % l.pieceLength ≠ 0) {c : ℤ}
    (hc : first / l.pieceLength ≤ c) (hc' : c ≤ last / l.pieceLength) :
    (pieceRange (first / l.pieceLength) c).flatMap (cut l (rangeOf l first last)) =
      positions first (min last ((c + 1) * l.pieceLength)) := by
  have hf := l.div_mul_add_mod first
  have hfm := l.mod_bounds first
  induction c, hc using Int.leInduction with
  | base =>
    obtain ⟨h₁, h₂, -⟩ := bufferNew_rangeOf hlast hdvd (Int.le_refl (first / l.pieceLength)) hc'
    rw [pieceRange_succ (Int.le_refl _), List.flatMap_append, List.flatMap_singleton, cut, h₂, h₁,
      max_eq_left (by omega), pieceRange_of_lt (by omega)]
    rfl
  | succ c hc ih =>
    obtain ⟨h₁, h₂, -⟩ := bufferNew_rangeOf hlast hdvd (Int.le_add_one hc) hc'
    have hl := l.div_mul_add_mod last
    have hlm := l.mod_bounds last
    have hbehind : (c + 1) * l.pieceLength ≤ last / l.pieceLength * l.pieceLength := l.mul_le_mul hc'
    have hsucc : (c + 1 + 1) * l.pieceLength = (c + 1) * l.pieceLength + l.pieceLength := by
      rw [Int.add_mul (c + 1), Int.one_mul]
    have hbefore : first / l.pieceLength * l.pieceLength + l.pieceLength ≤ (c + 1) * l.pieceLength := by
      have := l.mul_le_mul (show first / l.pieceLength + 1 ≤ c + 1 by omega)
      rw [Int.add_mul (first / l.pieceLength), Int.one_mul] at this
      exact this
    have hstep : c + 1 - 1 = c := by omega
    rw [pieceRange_succ (by omega), hstep, List.flatMap_append, List.flatMap_singleton, ih (by omega), cut, h₂, h₁,
      max_eq_right (by omega), min_eq_right (by omega)]
    exact positions_append (by omega) (by omega)

/-- A range that does not end on a piece boundary is played exactly. -/
theorem streams_rangeOf (h0 : 0 ≤ first) (hlt : first < last) (hlast : last ≤ l.totalSize)
    (hdvd : last % l.pieceLength ≠ 0) : Streams l (rangeOf l first last) first last := by
  have hnum := div_lt_numPieces hlast hdvd
  have hle : first / l.pieceLength ≤ last / l.pieceLength := Int.ediv_le_ediv l.pieceLength_pos hlt.le
  have h0' : 0 ≤ first / l.pieceLength := Int.ediv_nonneg h0 l.pieceLength_pos.le
  have hl := l.div_mul_add_mod last
  have hlm := l.mod_bounds last
  refine ⟨fun p hp => ?_, fun p hp => ?_, ?_⟩
  · obtain ⟨h₁, h₂⟩ := mem_pieceRange.mp hp
    exact ⟨h0'.trans h₁, h₂.trans_lt hnum⟩
  · obtain ⟨h₁, h₂⟩ : first / l.pieceLength ≤ p ∧ p ≤ last / l.pieceLength := mem_pieceRange.mp hp
    obtain ⟨hdata, hend, hin⟩ := bufferNew_rangeOf hlast hdvd h₁ h₂
    have hp₁ := l.mul_le_mul (show p ≤ last / l.pieceLength from h₂)
    have hp₂ := l.mul_le_mul (show first / l.pieceLength ≤ p from h₁)
    have hf := l.div_mul_add_mod first
    have hfm := l.mod_bounds first
    have hsucc : (p + 1) * l.pieceLength = p * l.pieceLength + l.pieceLength := by rw [Int.add_mul, Int.one_mul]
    have hbehind : p * l.pieceLength < last := by
      have : last % l.pieceLength ≠ 0 := hdvd
      omega
    have hbefore : first < (p + 1) * l.pieceLength := by
      have := l.mul_le_mul (show first / l.pieceLength + 1 ≤ p + 1 by omega)
      rw [Int.add_mul (first / l.pieceLength), Int.one_mul] at this
      omega
    refine ⟨?_, ?_, hin⟩
    · omega
    · omega
  · have hsucc : (last / l.pieceLength + 1) * l.pieceLength = last / l.pieceLength * l.pieceLength + l.pieceLength := by
      rw [Int.add_mul, Int.one_mul]
    exact (flatMap_cut hlast hdvd hle (Int.le_refl _)).trans (by rw [min_eq_left (by omega)])

/-! ### The ranges of the code -/

/-- A stream of a file of the torrent. -/
structure Layout.Holds (l : Layout) (st : Stream) : Prop where
  start_nonneg : 0 ≤ st.startByteGlobal
  start_lt : st.startByteGlobal < st.endByteGlobal
  end_le : st.endByteGlobal ≤ l.totalSize

variable {s : Setup}

theorem Setup.firstByte_lt (h : l.Holds st) (hs : s.Valid st) :
    0 ≤ s.firstByte st ∧ s.firstByte st < s.lastByte st ∧ s.lastByte st ≤ l.totalSize := by
  obtain ⟨h0, hlt, hle⟩ := h
  cases s with
  | info => exact ⟨h0, hlt, hle⟩
  | moovReset => exact ⟨h0, hlt, hle⟩
  | seek k =>
    obtain ⟨hk0, hk, hstop⟩ := hs
    dsimp only [Setup.firstByte, Setup.lastByte]
    split_ifs <;> omega

theorem Layout.tdiv_eq (l : Layout) {n : ℤ} (h : 0 ≤ n) : n.tdiv l.pieceLength = n / l.pieceLength :=
  Int.tdiv_eq_ediv_of_nonneg h

theorem Layout.tmod_eq (l : Layout) {n : ℤ} (h : 0 ≤ n) : n.tmod l.pieceLength = n % l.pieceLength :=
  Int.tmod_eq_emod_of_nonneg h

theorem Setup.range_start (h : l.Holds st) (hs : s.Valid st) :
    (s.range l.pieceLength st).startPiece = s.firstByte st / l.pieceLength ∧
      (s.range l.pieceLength st).startOffset = s.firstByte st % l.pieceLength := by
  have h0 := h.start_nonneg
  cases s with
  | info => exact ⟨l.tdiv_eq h0, l.tmod_eq h0⟩
  | moovReset => exact ⟨l.tdiv_eq h0, l.tmod_eq h0⟩
  | seek k =>
    have hmax : max k.start 0 = k.start := max_eq_left hs.1
    have hpos : 0 ≤ st.startByteGlobal + k.start := Int.add_nonneg h0 hs.1
    change (st.startByteGlobal + max k.start 0).tdiv l.pieceLength = _ ∧
      (st.startByteGlobal + max k.start 0).tmod l.pieceLength = _
    rw [hmax]
    exact ⟨l.tdiv_eq hpos, l.tmod_eq hpos⟩

theorem Setup.range_end (s : Setup) (st : Stream) (l : Layout) :
    (s.range l.pieceLength st).endPiece * l.pieceLength + (s.range l.pieceLength st).endOffset =
      s.stop l.pieceLength st := by
  have hall : ∀ n : ℤ, n.tdiv l.pieceLength * l.pieceLength + n.tmod l.pieceLength = n := fun n => by
    rw [Int.mul_comm]
    exact Int.mul_tdiv_add_tmod n l.pieceLength
  cases s <;> exact hall _

theorem bmod_eq_self_iff {n : ℤ} (h : 0 ≤ n) : n.bmod (2 ^ 32) = n ↔ n < 2 ^ 31 := by
  constructor
  · intro heq
    have hlt : n.bmod (2 ^ 32) < (((2 ^ 32 : ℕ) : ℤ) + 1) / 2 := Int.bmod_lt (by decide)
    rw [heq] at hlt
    omega
  · intro hlt
    exact Int.bmod_eq_of_le (by omega) (by omega)

theorem Setup.range_endPiece (s : Setup) (st : Stream) (l : Layout) :
    (s.range l.pieceLength st).endPiece = (s.stop l.pieceLength st).tdiv l.pieceLength := by
  cases s <;> rfl

/-- The end of the range is right, unless the size of the file does not fit. -/
theorem Setup.stop_eq_iff (h : l.Holds st) (hs : s.Valid st) :
    s.stop l.pieceLength st = s.lastByte st ↔ s.NoOverflow l.pieceLength st := by
  cases s with
  | info => exact iff_of_true rfl trivial
  | moovReset => exact iff_of_true rfl trivial
  | seek k =>
    obtain ⟨h0, hlt, -⟩ := h
    obtain ⟨hk0, hk, hstop⟩ := hs
    dsimp only [Setup.stop, Setup.lastByte, Setup.NoOverflow]
    rcases hstop with hstop | ⟨hlow, -⟩
    · rw [if_pos hstop, hstop]
      simp only [Demux.seekStop, if_pos (show (-1 : ℤ) < 0 by decide), forall_true_left]
      rw [l.tdiv_eq h0, l.tdiv_eq (h0.trans hlt.le), l.tmod_eq h0, l.tmod_eq (h0.trans hlt.le)]
      have hs := l.div_mul_add_mod st.startByteGlobal
      have he := l.div_mul_add_mod st.endByteGlobal
      have hpos := l.pieceLength_pos
      have hle : st.startByteGlobal / l.pieceLength ≤ st.endByteGlobal / l.pieceLength :=
        Int.ediv_le_ediv hpos hlt.le
      set a := st.startByteGlobal / l.pieceLength
      set b := st.endByteGlobal / l.pieceLength
      have hfull : (b - a - 1) * l.pieceLength = b * l.pieceLength - a * l.pieceLength - l.pieceLength := by
        rw [Int.sub_mul, Int.sub_mul, Int.one_mul]
      split_ifs with hone
      · have hab : a = b := by omega
        have hmul : a * l.pieceLength = b * l.pieceLength := congrArg (· * l.pieceLength) hab
        exact iff_of_true (by omega) (by omega)
      · have hn : b - a + 1 - 2 = b - a - 1 := by omega
        have hnn : 0 ≤ (b - a - 1) * l.pieceLength := Int.mul_nonneg (by omega) hpos.le
        rw [hn, ← bmod_eq_self_iff hnn]
        omega
    · have hne : ¬ k.stop = -1 := by omega
      have hnn : ¬ k.stop < 0 := by omega
      rw [if_neg hne, Demux.seekStop, if_neg hnn]
      exact iff_of_true rfl fun h => absurd h hne

/-- A stream plays the bytes it was set to, exactly when these do not end on a piece boundary and the size of the file
could be computed. -/
theorem streams_iff (h : l.Holds st) (hs : s.Valid st) :
    Streams l (s.range l.pieceLength st) (s.firstByte st) (s.lastByte st) ↔
      ¬ l.pieceLength ∣ s.lastByte st ∧ s.NoOverflow l.pieceLength st := by
  obtain ⟨h0, hlt, hle⟩ := Setup.firstByte_lt h hs
  obtain ⟨hstart, hoffset⟩ := Setup.range_start h hs
  have hend := s.range_end st l
  rw [← Setup.stop_eq_iff h hs, Int.dvd_iff_emod_eq_zero]
  constructor
  · intro hstr
    have hlast : s.stop l.pieceLength st = s.lastByte st := hend.symm.trans (hstr.last_eq hlt)
    refine ⟨fun hz => ?_, hlast⟩
    have heq : (s.range l.pieceLength st).endOffset = s.lastByte st % l.pieceLength := by
      change (s.stop l.pieceLength st).tmod l.pieceLength = _
      rw [hlast, l.tmod_eq (h0.trans hlt.le)]
    have hpos := hstr.endOffset_pos hlt
    omega
  · rintro ⟨hdvd, hlast⟩
    have hpiece := s.range_endPiece st l
    have hoff : (s.range l.pieceLength st).endOffset = (s.stop l.pieceLength st).tmod l.pieceLength := rfl
    rw [hlast, l.tdiv_eq (h0.trans hlt.le)] at hpiece
    rw [hlast, l.tmod_eq (h0.trans hlt.le)] at hoff
    have hrange : s.range l.pieceLength st = rangeOf l (s.firstByte st) (s.lastByte st) :=
      ByteRange.ext hstart hoffset hpiece hoff
    rw [hrange]
    exact streams_rangeOf h0 hlt hle hdvd

/-- Two pieces of 16 KiB, and a file that fills them but for one byte. -/
def twoPieces : Layout := ⟨0x4000, 0x8000, by decide, by decide, by decide⟩

theorem streams_iff_info :
    Streams twoPieces (Setup.info.range 0x4000 (Stream.ofFile 0x4000 0 0 0x7fff)) 0 0x7fff := by
  have hst : twoPieces.Holds (Stream.ofFile 0x4000 0 0 0x7fff) := ⟨by decide, by decide, by decide⟩
  exact (streams_iff (s := .info) hst trivial).mpr ⟨by decide, trivial⟩

/-- The file that ends with the second piece: its range ends with a third one, which the torrent does not have. -/
theorem streams_not_info : ¬ ∀ (l : Layout) (st : Stream) (s : Setup), l.Holds st → s.Valid st →
    Streams l (s.range l.pieceLength st) (s.firstByte st) (s.lastByte st) := by
  intro h
  have hst : twoPieces.Holds (Stream.ofFile 0x4000 0 0 0x8000) := ⟨by decide, by decide, by decide⟩
  have hstr := h twoPieces (Stream.ofFile 0x4000 0 0 0x8000) .info hst trivial
  have hvalid := hstr.valid 2 (mem_pieceRange.mpr ⟨by decide, by decide⟩)
  exact absurd hvalid.2 (by decide)

end Gst

end LibtorrentSN
