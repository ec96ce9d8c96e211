import LibtorrentSN.Torrent.FileStorage

/-!
# File progress

The bytes of each file that are in pieces we have (`src/file_progress.cpp`). A piece is spread over the files
it has bytes in when it is added.
-/

namespace LibtorrentSN

namespace Torrent

namespace FileStorage

variable (fs : FileStorage)

def pieceSize (p : ℕ) : ℕ :=
  if p + 1 = fs.numPieces then fs.totalSize - (fs.numPieces - 1) * fs.pieceLength else fs.pieceLength

/-- The last file that begins at or before the offset. -/
def fileIndexAtOffset (offset : ℕ) : ℕ :=
  Nat.findGreatest (fun i => fs.fileOffset i ≤ offset) (fs.numFiles - 1)

/-- The number of bytes that two ranges have in common. -/
def overlap (start size start' size' : ℕ) : ℕ := min (start + size) (start' + size') - max start start'

/-- The bytes of a file in a piece. -/
def bytesIn (i p : ℕ) : ℕ :=
  overlap (fs.fileOffset i) (fs.fileSize i) (p * fs.pieceLength) (fs.pieceSize p)

end FileStorage

/-- `m_file_progress` and `m_total_on_disk`. -/
structure FileProgress where
  files : ℕ → ℕ := fun _ => 0
  totalOnDisk : ℕ := 0

namespace FileProgress

/-- The loop of `update`: the sizes of the files from `i` on, of which the first begins at `fileOffset`. -/
def updateFrom : List ℕ → (i fileOffset off size : ℕ) → FileProgress → FileProgress
  | [], _, _, _, _, fp => fp
  | fileSize :: rest, i, fileOffset, off, size, fp =>
    if size = 0 then fp
    else
      let add := min (fileSize - (off - fileOffset)) size
      updateFrom rest (i + 1) (fileOffset + fileSize) (off + add) (size - add)
        { files := Function.update fp.files i (fp.files i + add), totalOnDisk := fp.totalOnDisk + add }

/-- `update` -/
def update (fs : FileStorage) (p : ℕ) (fp : FileProgress) : FileProgress :=
  let off := p * fs.pieceLength
  let i := fs.fileIndexAtOffset off
  updateFrom (fs.sizes.drop i) i (fs.fileOffset i) off (fs.pieceSize p) fp

end FileProgress

namespace FileStorage

variable {fs : FileStorage} {i j p : ℕ}

theorem fileOffset_succ (fs : FileStorage) (i : ℕ) : fs.fileOffset (i + 1) = fs.fileOffset i + fs.fileSize i := by
  unfold fileOffset fileSize
  obtain hi | hi := Nat.lt_or_ge i fs.sizes.length
  · rw [List.getD_eq_getElem _ _ hi, List.sum_take_succ _ _ hi]
  · rw [List.take_of_length_le hi, List.take_of_length_le (by omega), List.getD_eq_default _ _ hi, Nat.add_zero]

theorem fileOffset_mono (fs : FileStorage) : Monotone fs.fileOffset :=
  monotone_nat_of_le_succ fun i => fs.fileOffset_succ i ▸ Nat.le_add_right ..

theorem fileOffset_numFiles (fs : FileStorage) : fs.fileOffset fs.numFiles = fs.totalSize := by
  unfold fileOffset numFiles totalSize
  rw [List.take_length]

/-- The file at an offset contains the byte. -/
theorem fileIndexAtOffset_spec {off : ℕ} (h : off < fs.totalSize) :
    fs.fileIndexAtOffset off < fs.numFiles ∧ fs.fileOffset (fs.fileIndexAtOffset off) ≤ off ∧
      off < fs.fileOffset (fs.fileIndexAtOffset off) + fs.fileSize (fs.fileIndexAtOffset off) := by
  have hpos : 0 < fs.numFiles := by
    refine Nat.pos_of_ne_zero fun hz => ?_
    rw [← fs.fileOffset_numFiles, hz] at h
    exact absurd h (Nat.not_lt_zero _)
  have hle : fs.fileIndexAtOffset off ≤ fs.numFiles - 1 := Nat.findGreatest_le _
  refine ⟨by omega, ?_, ?_⟩
  · exact Nat.findGreatest_spec (P := fun i => fs.fileOffset i ≤ off) (Nat.zero_le _) (Nat.zero_le off)
  · rw [← fs.fileOffset_succ]
    obtain hlt | heq := Nat.lt_or_eq_of_le hle
    · exact not_le.mp (Nat.findGreatest_is_greatest (P := fun i => fs.fileOffset i ≤ off) (Nat.lt_succ_self _) hlt)
    · rw [heq, Nat.sub_add_cancel hpos, fs.fileOffset_numFiles]
      exact h

/-- The file at an offset is the only one that contains it. -/
theorem fileIndexAtOffset_eq {off : ℕ} (hle : fs.fileOffset i ≤ off) (hlt : off < fs.fileOffset i + fs.fileSize i) :
    fs.fileIndexAtOffset off = i := by
  have htotal := fs.fileOffset_add_le i
  obtain ⟨-, hle', hlt'⟩ := fileIndexAtOffset_spec (hlt.trans_le htotal)
  obtain h | h | h := lt_trichotomy (fs.fileIndexAtOffset off) i
  · have := fs.fileOffset_mono (Nat.succ_le_of_lt h)
    rw [Nat.succ_eq_add_one, fs.fileOffset_succ] at this
    omega
  · exact h
  · have := fs.fileOffset_mono (Nat.succ_le_of_lt h)
    rw [Nat.succ_eq_add_one, fs.fileOffset_succ] at this
    omega

theorem pieceSize_spec (hp : p < fs.numPieces) :
    0 < fs.pieceSize p ∧ p * fs.pieceLength + fs.pieceSize p ≤ fs.totalSize := by
  have hpos := fs.pieceLength_pos
  have hn : (fs.numPieces - 1) * fs.pieceLength < fs.totalSize := by
    have h := Nat.div_mul_le_self (fs.totalSize + fs.pieceLength - 1) fs.pieceLength
    change fs.numPieces * fs.pieceLength ≤ _ at h
    have hsub := Nat.sub_mul fs.numPieces 1 fs.pieceLength
    have hone : fs.pieceLength ≤ fs.numPieces * fs.pieceLength := Nat.le_mul_of_pos_left _ (by omega)
    omega
  unfold pieceSize
  split
  next hlast =>
    obtain rfl : p = fs.numPieces - 1 := by omega
    omega
  next hlast =>
    have hle : (p + 1) * fs.pieceLength ≤ (fs.numPieces - 1) * fs.pieceLength :=
      Nat.mul_le_mul_right _ (by omega)
    rw [Nat.succ_mul] at hle
    omega

/-- Every piece has a byte of some file. -/
theorem exists_bytesIn_pos (hp : p < fs.numPieces) : ∃ i, 0 < fs.bytesIn i p := by
  obtain ⟨hsize, hend⟩ := pieceSize_spec hp
  have hstart : p * fs.pieceLength < fs.totalSize := by omega
  obtain ⟨-, hle, hlt⟩ := fileIndexAtOffset_spec hstart
  refine ⟨fs.fileIndexAtOffset (p * fs.pieceLength), ?_⟩
  unfold bytesIn overlap
  omega

end FileStorage

namespace FileProgress

open FileStorage

variable {fs : FileStorage} {p : ℕ}

/-- What a file takes of a range is not in common with a later file. -/
theorem overlap_advance {o n a m off size : ℕ} (hle : o ≤ off) (ha : o + n ≤ a) :
    overlap a m (off + min (n - (off - o)) size) (size - min (n - (off - o)) size) = overlap a m off size := by
  unfold overlap
  obtain hlast | hmore := Nat.le_total size (n - (off - o))
  · -- the range ends in the file, or is empty
    have hend : off + size ≤ max a off := by omega
    rw [min_eq_right hlast, Nat.sub_self, Nat.add_zero, Nat.sub_eq_zero_of_le, Nat.sub_eq_zero_of_le]
    · exact (min_le_right _ _).trans hend
    · exact (min_le_right _ _).trans (le_max_right _ _)
  · have hsum : off + (n - (off - o)) + (size - (n - (off - o))) = off + size := by omega
    have hstart : max a (off + (n - (off - o))) = max a off := by omega
    rw [min_eq_left hmore, hsum, hstart]

/-- What the loop adds to a file. -/
theorem updateFrom_files (files : List ℕ) (i fileOffset off size : ℕ) (fp : FileProgress)
    (h : size ≠ 0 → fileOffset ≤ off) (j : ℕ) :
    (updateFrom files i fileOffset off size fp).files j = fp.files j +
      if i ≤ j ∧ j < i + files.length then
        overlap (fileOffset + (files.take (j - i)).sum) (files.getD (j - i) 0) off size
      else 0 := by
  induction files generalizing i fileOffset off size fp with
  | nil =>
    rw [if_neg (by simp)]
    rfl
  | cons fileSize rest ih =>
    unfold updateFrom
    split
    next hz =>
      -- nothing is left, and what is nothing has no byte in common with a file
      have hnone : ∀ a b, overlap a b off size = 0 := by
        intro a b
        unfold overlap
        omega
      simp [hnone]
    next hz =>
      have hle := h hz
      rw [ih (i + 1) _ _ _ _ (by omega)]
      dsimp only
      obtain hlt | rfl | hgt := lt_trichotomy j i
      · rw [if_neg (by omega), if_neg (by omega), Function.update_of_ne hlt.ne]
      · rw [if_neg (by omega), if_pos (by simp), Function.update_self, Nat.sub_self]
        simp only [List.take_zero, List.sum_nil, List.getD_cons_zero, overlap]
        omega
      · obtain ⟨d, rfl⟩ : ∃ d, j = i + 1 + d := ⟨j - (i + 1), by omega⟩
        have hd : i + 1 + d - (i + 1) = d := by omega
        have hd' : i + 1 + d - i = d + 1 := by omega
        rw [Function.update_of_ne hgt.ne', hd, hd']
        simp only [List.length_cons, List.take_succ_cons, List.sum_cons, List.getD_cons_succ]
        by_cases hlast : d < rest.length
        · rw [if_pos (by omega), if_pos (by omega), overlap_advance hle (Nat.le_add_right _ _), Nat.add_assoc fileOffset]
        · rw [if_neg (by omega), if_neg (by omega)]

/-- The loop adds as many bytes as there are, if the files reach that far. -/
theorem updateFrom_totalOnDisk (files : List ℕ) (i fileOffset off size : ℕ) (fp : FileProgress)
    (h : size ≠ 0 → fileOffset ≤ off) (hend : off + size ≤ fileOffset + files.sum) :
    (updateFrom files i fileOffset off size fp).totalOnDisk = fp.totalOnDisk + size := by
  induction files generalizing i fileOffset off size fp with
  | nil =>
    simp only [List.sum_nil] at hend
    have hz : size = 0 := by
      by_contra hz
      have := h hz
      omega
    rw [hz]
    rfl
  | cons fileSize rest ih =>
    rw [List.sum_cons] at hend
    unfold updateFrom
    split
    next hz => rw [hz, Nat.add_zero]
    next hz =>
      have hle := h hz
      rw [ih (i + 1) _ _ _ _ (by omega) (by omega)]
      dsimp only
      omega

/-- A piece adds its bytes to the files, and its size to the total. -/
theorem update_spec (fp : FileProgress) (hp : p < fs.numPieces) :
    (∀ j, (update fs p fp).files j = fp.files j + fs.bytesIn j p) ∧
      (update fs p fp).totalOnDisk = fp.totalOnDisk + fs.pieceSize p := by
  obtain ⟨hsize, hend⟩ := pieceSize_spec hp
  have hstart : p * fs.pieceLength < fs.totalSize := by omega
  obtain ⟨hi, hle, hlt⟩ := fileIndexAtOffset_spec hstart
  unfold update
  dsimp only
  generalize fs.fileIndexAtOffset (p * fs.pieceLength) = i at hi hle hlt
  have hdrop : ∀ d, ((fs.sizes.drop i).take d).sum + fs.fileOffset i = fs.fileOffset (i + d) := by
    intro d
    unfold fileOffset
    rw [List.take_add, List.sum_append, Nat.add_comm]
  refine ⟨fun j => ?_, ?_⟩
  · rw [updateFrom_files _ _ _ _ _ _ fun _ => hle]
    congr 1
    obtain hji | hij := Nat.lt_or_ge j i
    · -- the file ends before the piece
      have hmono := fs.fileOffset_mono (Nat.succ_le_of_lt hji)
      rw [Nat.succ_eq_add_one, fs.fileOffset_succ] at hmono
      rw [if_neg (by omega)]
      unfold bytesIn overlap
      omega
    · obtain ⟨d, rfl⟩ := Nat.exists_eq_add_of_le hij
      have hoff := hdrop d
      rw [Nat.add_sub_cancel_left, List.length_drop, List.getD_eq_getElem?_getD, List.getElem?_drop,
        ← List.getD_eq_getElem?_getD]
      by_cases hend : i + d < fs.numFiles
      · rw [if_pos ⟨by omega, by unfold numFiles at *; omega⟩, Nat.add_comm (fs.fileOffset i), hoff]
        rfl
      · rw [if_neg fun hc => hend (by unfold numFiles at *; omega)]
        have hz : fs.fileSize (i + d) = 0 := List.getD_eq_default _ _ (not_lt.mp hend)
        unfold bytesIn overlap
        omega
  · refine updateFrom_totalOnDisk _ _ _ _ _ _ (fun _ => hle) ?_
    have hall := hdrop (fs.numFiles - i)
    rw [Nat.add_sub_cancel' hi.le, fs.fileOffset_numFiles,
      List.take_of_length_le (by rw [List.length_drop]; rfl)] at hall
    omega

end FileProgress

end Torrent

end LibtorrentSN
