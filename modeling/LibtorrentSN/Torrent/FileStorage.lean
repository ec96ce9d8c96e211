import Mathlib

/-!
# The files of a torrent

What `file_storage` (`src/file_storage.cpp`) says about where the files of a torrent lie: they follow
one another without gaps, and the pieces are cut from the whole.
-/

namespace LibtorrentSN

namespace Torrent

/-- The sizes of the files, in order, and the piece length. -/
structure FileStorage where
  sizes : List ℕ
  pieceLength : ℕ
  pieceLength_pos : 0 < pieceLength

namespace FileStorage

variable (fs : FileStorage) {i p : ℕ}

def numFiles : ℕ := fs.sizes.length

def totalSize : ℕ := fs.sizes.sum

/-- `calc_num_pieces`. -/
def numPieces : ℕ := (fs.totalSize + fs.pieceLength - 1) / fs.pieceLength

def fileSize (i : ℕ) : ℕ := fs.sizes.getD i 0

def fileOffset (i : ℕ) : ℕ := (fs.sizes.take i).sum

/-- `map_file(i, offset, …)`: the piece a byte of a file is in, and where in the piece. -/
def mapFile (i offset : ℕ) : ℕ × ℕ :=
  if fs.numFiles ≤ i then (fs.numPieces, 0)
  else if fs.totalSize ≤ fs.fileOffset i + offset then (fs.numPieces, 0)
  else ((fs.fileOffset i + offset) / fs.pieceLength, (fs.fileOffset i + offset) % fs.pieceLength)

/-- The pieces a file extends over, as a half-open range. -/
def filePieceRangeInclusive (i : ℕ) : ℕ × ℕ :=
  let range := fs.mapFile i 0
  (range.1, (range.1 * fs.pieceLength + range.2 + fs.fileSize i - 1) / fs.pieceLength + 1)

/-- The file `i` has a byte in the piece `p`. -/
def HasByteIn (i p : ℕ) : Prop :=
  ∃ b, fs.fileOffset i ≤ b ∧ b < fs.fileOffset i + fs.fileSize i ∧ b / fs.pieceLength = p

theorem hasByteIn_iff : fs.HasByteIn i p ↔ 0 < fs.fileSize i ∧
    fs.fileOffset i / fs.pieceLength ≤ p ∧
    p ≤ (fs.fileOffset i + fs.fileSize i - 1) / fs.pieceLength := by
  have hpos := fs.pieceLength_pos
  constructor
  · rintro ⟨b, hle, hlt, rfl⟩
    exact ⟨by omega, Nat.div_le_div_right hle, Nat.div_le_div_right (by omega)⟩
  · rintro ⟨hsize, hle, hge⟩
    -- the first byte of the file, or of the piece, whichever comes later
    refine ⟨max (fs.fileOffset i) (p * fs.pieceLength), le_max_left _ _, ?_, ?_⟩
    · have hlast := Nat.mul_le_of_le_div _ _ _ hge
      omega
    · rcases le_total (fs.fileOffset i) (p * fs.pieceLength) with h | h
      · rw [max_eq_right h, Nat.mul_div_cancel _ hpos]
      · rw [max_eq_left h]
        exact le_antisymm hle ((Nat.le_div_iff_mul_le hpos).mpr h)

instance : Decidable (fs.HasByteIn i p) := decidable_of_iff _ fs.hasByteIn_iff.symm

theorem fileOffset_add_le (i : ℕ) : fs.fileOffset i + fs.fileSize i ≤ fs.totalSize := by
  rw [fileOffset, fileSize, totalSize]
  rcases Nat.lt_or_ge i fs.sizes.length with hi | hi
  · have hsucc : (fs.sizes.take (i + 1)).sum = (fs.sizes.take i).sum + fs.sizes.getD i 0 := by
      rw [List.getD_eq_getElem _ _ hi, List.sum_take_succ _ _ hi]
    have hsplit := congrArg List.sum (List.take_append_drop (i + 1) fs.sizes)
    rw [List.sum_append] at hsplit
    omega
  · rw [List.take_of_length_le hi, List.getD_eq_default _ _ hi]
    omega

/-- The range holds just the pieces the file has bytes in. -/
theorem mem_filePieceRange (hsize : fs.fileSize i ≠ 0) :
    (fs.filePieceRangeInclusive i).1 ≤ p ∧ p < (fs.filePieceRangeInclusive i).2 ↔
      fs.HasByteIn i p := by
  have hi : ¬ fs.numFiles ≤ i := fun hc => hsize (List.getD_eq_default _ _ hc)
  have hend := fs.fileOffset_add_le i
  have hmap : fs.mapFile i 0 =
      (fs.fileOffset i / fs.pieceLength, fs.fileOffset i % fs.pieceLength) := by
    rw [mapFile, if_neg hi, if_neg (by omega)]
    rfl
  have hstart : fs.fileOffset i / fs.pieceLength * fs.pieceLength + fs.fileOffset i % fs.pieceLength =
      fs.fileOffset i := by
    rw [Nat.mul_comm]
    exact Nat.div_add_mod _ _
  rw [hasByteIn_iff]
  simp only [filePieceRangeInclusive, hmap, hstart]
  omega

theorem HasByteIn.lt_numFiles {fs : FileStorage} (h : fs.HasByteIn i p) : i < fs.numFiles := by
  obtain ⟨hsize, -⟩ := fs.hasByteIn_iff.mp h
  refine lt_of_not_ge fun hc => hsize.ne' (List.getD_eq_default _ _ hc)

/-- Where there are pieces, some file has a byte. -/
theorem exists_fileSize_ne_zero (h : fs.numPieces ≠ 0) : ∃ i < fs.numFiles, fs.fileSize i ≠ 0 := by
  have htotal : fs.totalSize ≠ 0 := by
    intro hc
    refine h ?_
    rw [numPieces, hc, Nat.zero_add]
    exact Nat.div_eq_of_lt (Nat.sub_lt fs.pieceLength_pos Nat.one_pos)
  obtain ⟨n, hn, hne⟩ : ∃ n ∈ fs.sizes, n ≠ 0 := by
    by_contra hc
    push Not at hc
    exact htotal (List.sum_eq_zero hc)
  obtain ⟨i, hi, rfl⟩ := List.mem_iff_getElem.mp hn
  exact ⟨i, hi, by rwa [fileSize, List.getD_eq_getElem _ _ hi]⟩

end FileStorage

end Torrent

end LibtorrentSN
