import LibtorrentSN.Torrent.FileProgress

/-!
# Blocks and files

`map_block` cuts a range of the torrent into slices of files, and every read and write of the disk goes through it.
`file_piece_range_exclusive` and `file_piece_range_inclusive` say which pieces a file has to itself, and which it has a
part in.
-/

namespace LibtorrentSN

namespace Torrent

structure FileSlice where
  fileIndex : ℕ
  offset : ℤ
  size : ℤ

namespace FileStorage

variable (fs : FileStorage) {i p : ℕ}

/-- `std::upper_bound` over the offsets of the files. -/
def upperBound (target : ℕ) : ℕ := (((List.range fs.numFiles).map fs.fileOffset).takeWhile (· ≤ target)).length

/-- The loop of `map_block`, over the files from the one with index `i` on. It must not go on past the last one. -/
def sliceFiles (i : ℕ) (size fileOffset : ℤ) : List ℕ → Option (List FileSlice)
  | [] => if 0 < size then none else some []
  | n :: files =>
    if 0 < size then
      if fileOffset < n then
        let f : FileSlice := ⟨i, fileOffset, min (n - fileOffset) size⟩
        (sliceFiles (i + 1) (size - f.size) (fileOffset + f.size - n) files).map (f :: ·)
      else sliceFiles (i + 1) size (fileOffset - n) files
    else some []

/-- `file_storage::map_block`. -/
def mapBlock (piece offset size : ℕ) : Option (List FileSlice) :=
  if fs.sizes = [] then some []
  else
    let target := piece * fs.pieceLength + offset
    -- in case the size is past the end, fix it up
    let size : ℤ := if (fs.totalSize : ℤ) - size < target then fs.totalSize - target else size
    let i := fs.upperBound target - 1
    sliceFiles i size (target - fs.fileOffset i) (fs.sizes.drop i)

/-- The slices follow one another in the torrent, from a position on. -/
def Covers (fs : FileStorage) : ℤ → List FileSlice → Prop
  | _, [] => True
  | position, f :: slices => fs.fileOffset f.fileIndex + f.offset = position ∧ Covers fs (position + f.size) slices

/-- What `map_block` is to return. -/
structure Slices (start size : ℤ) (slices : List FileSlice) : Prop where
  nonempty : ∀ f ∈ slices, 0 < f.size
  increasing : slices.Pairwise fun f g => f.fileIndex < g.fileIndex
  within : ∀ f ∈ slices, f.fileIndex < fs.numFiles ∧ 0 ≤ f.offset ∧ f.offset + f.size ≤ fs.fileSize f.fileIndex
  covers : Covers fs start slices
  sum : (slices.map FileSlice.size).sum = size

variable {fs}

theorem sizes_drop_eq_cons {n : ℕ} {files : List ℕ} (h : fs.sizes.drop i = n :: files) :
    fs.fileSize i = n ∧ i < fs.numFiles ∧ fs.sizes.drop (i + 1) = files := by
  have hi : i < fs.sizes.length := by
    by_contra hc
    rw [List.drop_of_length_le (not_lt.mp hc)] at h
    cases h
  rw [List.drop_eq_getElem_cons hi, List.cons.injEq] at h
  exact ⟨by rw [fileSize, List.getD_eq_getElem _ _ hi, h.1], hi, h.2⟩

/-- A slice in front of slices of later files. -/
theorem Slices.cons {start size : ℤ} {f : FileSlice} {slices : List FileSlice}
    (h : fs.Slices (start + f.size) size slices) (hpos : 0 < f.size) (hlater : ∀ g ∈ slices, f.fileIndex < g.fileIndex)
    (hwithin : f.fileIndex < fs.numFiles ∧ 0 ≤ f.offset ∧ f.offset + f.size ≤ fs.fileSize f.fileIndex)
    (hstart : fs.fileOffset f.fileIndex + f.offset = start) : fs.Slices start (f.size + size) (f :: slices) where
  nonempty := List.forall_mem_cons.mpr ⟨hpos, h.nonempty⟩
  increasing := List.pairwise_cons.mpr ⟨hlater, h.increasing⟩
  within := List.forall_mem_cons.mpr ⟨hwithin, h.within⟩
  covers := ⟨hstart, h.covers⟩
  sum := by rw [List.map_cons, List.sum_cons, h.sum]

theorem Slices.nil (start : ℤ) : fs.Slices start 0 [] where
  nonempty := by simp
  increasing := .nil
  within := by simp
  covers := trivial
  sum := rfl

theorem sliceFiles_zero {i : ℕ} {fileOffset : ℤ} (files : List ℕ) : sliceFiles i 0 fileOffset files = some [] := by
  cases files <;> rfl

/-- The loop, from a position that is not before the file it is at. -/
theorem sliceFiles_slices {files : List ℕ} (size fileOffset : ℤ) (hfiles : fs.sizes.drop i = files) (hsize : 0 ≤ size)
    (hoffset : 0 ≤ fileOffset) (hend : fs.fileOffset i + fileOffset + size ≤ fs.totalSize) :
    ∃ slices, sliceFiles i size fileOffset files = some slices ∧
      fs.Slices (fs.fileOffset i + fileOffset) size slices ∧ ∀ f ∈ slices, i ≤ f.fileIndex := by
  induction files generalizing i size fileOffset with
  | nil =>
    -- behind the last file there is nothing left
    have htotal : fs.fileOffset i = fs.totalSize := by
      rw [FileStorage.fileOffset, List.take_of_length_le (List.drop_eq_nil_iff.mp hfiles)]
      rfl
    obtain rfl : size = 0 := by omega
    exact ⟨[], rfl, .nil _, by simp⟩
  | cons n files ih =>
    obtain ⟨hn, hlt, hdrop⟩ := sizes_drop_eq_cons hfiles
    have hnext := fs.fileOffset_succ i
    rw [hn] at hnext
    rw [sliceFiles]
    split_ifs with hpos hin
    · dsimp only
      rcases le_or_gt size (n - fileOffset) with hle | hgt
      · -- the last slice
        rw [min_eq_right hle, sub_self, sliceFiles_zero]
        refine ⟨_, rfl, ?_, by simp⟩
        have hnone : fs.Slices (fs.fileOffset i + fileOffset + size) 0 [] := .nil _
        have hone := hnone.cons (f := ⟨i, fileOffset, size⟩)
          hpos (by simp) ⟨hlt, hoffset, by rw [hn]; dsimp only; omega⟩ rfl
        rwa [add_zero] at hone
      · -- the rest of the file, and on with the next one from its start
        rw [min_eq_left hgt.le, show fileOffset + (n - fileOffset) - n = 0 by ring]
        obtain ⟨slices, heq, hslices, hlater⟩ :=
          ih (size - (n - fileOffset)) 0 hdrop (by omega) le_rfl (by rw [hnext]; push_cast; omega)
        refine ⟨_, by rw [heq]; rfl, ?_, ?_⟩
        · have hstart : (fs.fileOffset (i + 1) : ℤ) + 0 = fs.fileOffset i + fileOffset + (n - fileOffset) := by
            rw [hnext]
            push_cast
            ring
          rw [hstart] at hslices
          have hmore := hslices.cons (f := ⟨i, fileOffset, n - fileOffset⟩) (by dsimp only; omega)
            (fun g hg => hlater g hg) ⟨hlt, hoffset, by rw [hn]; dsimp only; omega⟩ rfl
          rwa [show (n : ℤ) - fileOffset + (size - (n - fileOffset)) = size by ring] at hmore
        · refine List.forall_mem_cons.mpr ⟨le_rfl, fun g hg => ?_⟩
          exact (Nat.le_succ i).trans (hlater g hg)
    · -- an empty file, or one that ends before the position
      obtain ⟨slices, heq, hslices, hlater⟩ :=
        ih size (fileOffset - n) hdrop hsize (by omega) (by rw [hnext]; push_cast; omega)
      refine ⟨slices, heq, ?_, fun g hg => (Nat.le_succ i).trans (hlater g hg)⟩
      rwa [show (fs.fileOffset (i + 1) : ℤ) + (fileOffset - n) = fs.fileOffset i + fileOffset by
        rw [hnext]; push_cast; ring] at hslices
    · obtain rfl : size = 0 := by omega
      exact ⟨[], rfl, .nil _, by simp⟩

/-- The file before the upper bound does not begin after the position. -/
theorem fileOffset_upperBound_le (fs : FileStorage) (target : ℕ) :
    fs.fileOffset (fs.upperBound target - 1) ≤ target := by
  rw [upperBound]
  generalize hl : ((List.range fs.numFiles).map fs.fileOffset).takeWhile (· ≤ target) = l
  rcases Nat.eq_zero_or_pos l.length with hzero | hpos
  · rw [hzero]
    exact Nat.zero_le _
  · have hlast : l.length - 1 < l.length := by omega
    have hmem : l[l.length - 1] ≤ target := by
      have hmemw : l[l.length - 1] ∈ ((List.range fs.numFiles).map fs.fileOffset).takeWhile (· ≤ target) := by
        rw [hl]
        exact List.getElem_mem _
      simpa using List.mem_takeWhile_imp hmemw
    have hprefix : l <+: (List.range fs.numFiles).map fs.fileOffset := hl ▸ List.takeWhile_prefix _
    have hget := hprefix.getElem hlast
    rw [List.getElem_map, List.getElem_range] at hget
    rwa [hget] at hmem

/-- Blocks are cut into slices of files, and each slice is mapped back to where it begins. -/
theorem mapBlock_slices {piece offset : ℕ} (size : ℕ) (h : piece * fs.pieceLength + offset ≤ fs.totalSize) :
    ∃ slices, fs.mapBlock piece offset size = some slices ∧
      fs.Slices ((piece * fs.pieceLength + offset : ℕ) : ℤ)
        (min size ((fs.totalSize : ℤ) - (piece * fs.pieceLength + offset : ℕ))) slices ∧
      ∀ f ∈ slices, fs.mapFile f.fileIndex f.offset.toNat =
        ((fs.fileOffset f.fileIndex + f.offset.toNat) / fs.pieceLength,
          (fs.fileOffset f.fileIndex + f.offset.toNat) % fs.pieceLength) := by
  generalize htarget : piece * fs.pieceLength + offset = target at h ⊢
  obtain ⟨slices, heq, hslices⟩ : ∃ slices, fs.mapBlock piece offset size = some slices ∧
      fs.Slices target (min size ((fs.totalSize : ℤ) - target)) slices := by
    rw [mapBlock, htarget]
    split_ifs with hempty
    · -- no files, and so no bytes
      have htotal : fs.totalSize = 0 := by rw [totalSize, hempty, List.sum_nil]
      obtain rfl : target = 0 := by omega
      refine ⟨[], rfl, ?_⟩
      rw [htotal, Nat.cast_zero, sub_self, min_eq_right (Int.natCast_nonneg size)]
      exact .nil _
    · dsimp only
      have hfixed : (if (fs.totalSize : ℤ) - size < target then (fs.totalSize : ℤ) - target else (size : ℤ)) =
          min (size : ℤ) (fs.totalSize - target) := by
        split_ifs <;> omega
      have hbegin := fileOffset_upperBound_le fs target
      have hdrop : fs.sizes.drop (fs.upperBound target - 1) = fs.sizes.drop (fs.upperBound target - 1) := rfl
      obtain ⟨slices, heq, hslices, -⟩ := sliceFiles_slices (min (size : ℤ) (fs.totalSize - target))
        (target - fs.fileOffset (fs.upperBound target - 1)) hdrop (by omega) (by omega) (by omega)
      refine ⟨slices, by rw [hfixed, heq], ?_⟩
      rwa [add_sub_cancel] at hslices
  refine ⟨slices, heq, hslices, fun f hf => ?_⟩
  obtain ⟨hlt, hoffset, hin⟩ := hslices.within f hf
  have hpos := hslices.nonempty f hf
  have hend := fs.fileOffset_add_le f.fileIndex
  rw [mapFile, if_neg (not_le.mpr hlt), if_neg (by omega)]

/-- The read of twenty bytes goes over the empty file in the middle. -/
theorem mapBlock_slices_emptyFile :
    let fs : FileStorage := ⟨[15, 0, 17], 16, by decide⟩
    0 * fs.pieceLength + 4 ≤ fs.totalSize ∧
      ∃ slices, fs.mapBlock 0 4 20 = some slices ∧
        fs.Slices ((0 * fs.pieceLength + 4 : ℕ) : ℤ)
          (min (20 : ℕ) ((fs.totalSize : ℤ) - (0 * fs.pieceLength + 4 : ℕ))) slices ∧
        ∀ f ∈ slices, fs.mapFile f.fileIndex f.offset.toNat =
          ((fs.fileOffset f.fileIndex + f.offset.toNat) / fs.pieceLength,
            (fs.fileOffset f.fileIndex + f.offset.toNat) % fs.pieceLength) :=
  ⟨by decide, mapBlock_slices 20 (by decide)⟩

/-- The pieces a file has to itself, as a half-open range. -/
def filePieceRangeExclusive (fs : FileStorage) (i : ℕ) : ℕ × ℕ :=
  let range := fs.mapFile i 0
  -- the last piece does not overlap with any other file if this is the last one
  (if range.2 = 0 then range.1 else range.1 + 1,
    if i + 1 = fs.numFiles then fs.numPieces
    else (range.1 * fs.pieceLength + range.2 + fs.fileSize i + 1) / fs.pieceLength)

/-- Every byte of the piece `p` belongs to the file `i`. -/
def WhollyIn (fs : FileStorage) (i p : ℕ) : Prop :=
  p < fs.numPieces ∧ ∀ b, p * fs.pieceLength ≤ b → b < p * fs.pieceLength + fs.pieceSize p →
    fs.fileOffset i ≤ b ∧ b < fs.fileOffset i + fs.fileSize i

theorem lt_numPieces_iff : p < fs.numPieces ↔ p * fs.pieceLength < fs.totalSize := by
  have hpos := fs.pieceLength_pos
  rw [numPieces, Nat.lt_iff_add_one_le, Nat.le_div_iff_mul_le hpos, Nat.succ_mul]
  omega

/-- A piece ends where the next one begins, or with the torrent. -/
theorem mul_add_pieceSize (h : p < fs.numPieces) :
    p * fs.pieceLength + fs.pieceSize p = min (p * fs.pieceLength + fs.pieceLength) fs.totalSize := by
  have hbegin := lt_numPieces_iff.mp h
  have hnext : p + 1 < fs.numPieces ↔ (p + 1) * fs.pieceLength < fs.totalSize := lt_numPieces_iff
  rw [Nat.succ_mul] at hnext
  rw [pieceSize]
  split_ifs with hlast
  · rw [← hlast, Nat.add_sub_cancel]
    omega
  · omega

theorem whollyIn_iff : fs.WhollyIn i p ↔ p * fs.pieceLength < fs.totalSize ∧ fs.fileOffset i ≤ p * fs.pieceLength ∧
    min (p * fs.pieceLength + fs.pieceLength) fs.totalSize ≤ fs.fileOffset i + fs.fileSize i := by
  have hpos := fs.pieceLength_pos
  constructor
  · rintro ⟨hp, hall⟩
    have hbegin := lt_numPieces_iff.mp hp
    rw [mul_add_pieceSize hp] at hall
    -- the first byte and the last one
    have hfirst := hall (p * fs.pieceLength) le_rfl (by omega)
    have hlast := hall (min (p * fs.pieceLength + fs.pieceLength) fs.totalSize - 1) (by omega) (by omega)
    exact ⟨hbegin, hfirst.1, by omega⟩
  · rintro ⟨hbegin, hfirst, hlast⟩
    have hp := lt_numPieces_iff.mpr hbegin
    refine ⟨hp, fun b hle hlt => ?_⟩
    rw [mul_add_pieceSize hp] at hlt
    omega

theorem mapFile_zero (hsize : fs.fileSize i ≠ 0) :
    fs.mapFile i 0 = (fs.fileOffset i / fs.pieceLength, fs.fileOffset i % fs.pieceLength) := by
  have hi : ¬ fs.numFiles ≤ i := fun hc => hsize (List.getD_eq_default _ _ hc)
  have hend := fs.fileOffset_add_le i
  rw [mapFile, if_neg hi, if_neg (by omega)]
  rfl

/-- Where the exclusive range begins. -/
theorem fst_filePieceRangeExclusive_le (hsize : fs.fileSize i ≠ 0) :
    (fs.filePieceRangeExclusive i).1 ≤ p ↔ fs.fileOffset i ≤ p * fs.pieceLength := by
  have hpos := fs.pieceLength_pos
  rw [filePieceRangeExclusive, mapFile_zero hsize]
  dsimp only
  split_ifs with haligned
  · have hoffset := Nat.div_mul_cancel (Nat.dvd_of_mod_eq_zero haligned)
    rw [← Nat.mul_le_mul_right_iff hpos, hoffset]
  · rw [Nat.add_one_le_iff, Nat.div_lt_iff_lt_mul hpos]
    refine ⟨le_of_lt, fun hle => lt_of_le_of_ne hle fun heq => haligned ?_⟩
    rw [heq, Nat.mul_mod_left]

/-- Where it ends, with files behind this one. -/
theorem lt_snd_filePieceRangeExclusive (hsize : fs.fileSize i ≠ 0) (hi : i + 1 ≠ fs.numFiles) :
    p < (fs.filePieceRangeExclusive i).2 ↔
      p * fs.pieceLength + fs.pieceLength ≤ fs.fileOffset i + fs.fileSize i + 1 := by
  have hsplit : fs.fileOffset i / fs.pieceLength * fs.pieceLength + fs.fileOffset i % fs.pieceLength =
      fs.fileOffset i := Nat.div_add_mod' _ _
  rw [filePieceRangeExclusive, mapFile_zero hsize]
  dsimp only
  rw [if_neg hi, hsplit, Nat.lt_iff_add_one_le, Nat.le_div_iff_mul_le fs.pieceLength_pos, Nat.succ_mul]

theorem fileOffset_add_last (hi : i + 1 = fs.numFiles) : fs.fileOffset i + fs.fileSize i = fs.totalSize := by
  rw [← fileOffset_succ, hi, fileOffset_numFiles]

/-- The files that `file_piece_range_exclusive` is right about: the last one, and those whose end is rounded to the
same piece with one byte more. -/
def RoundsRight (fs : FileStorage) (i : ℕ) : Prop :=
  let fileEnd := fs.fileOffset i + fs.fileSize i
  let L := fs.pieceLength
  i + 1 = fs.numFiles ∨
    fileEnd < fs.totalSize ∧ ¬ (L ∣ fileEnd + 1 ∧ fs.fileOffset i ≤ fileEnd / L * L) ∨
    fileEnd = fs.totalSize ∧ 1 < L ∧
      (L ∣ fs.totalSize ∨ L ∣ fs.totalSize + 1 ∨ fs.totalSize / L * L < fs.fileOffset i)

/-- One byte more in the end, and no piece more. -/
theorem forall_le_succ_iff {L o e : ℕ} (hpos : 0 < L) : (∀ p, o ≤ p * L → (p * L + L ≤ e + 1 ↔ p * L + L ≤ e)) ↔
    ¬ (L ∣ e + 1 ∧ o ≤ e / L * L) := by
  constructor
  · rintro hall ⟨hdvd, hle⟩
    -- the piece with the byte behind the end as its last one
    have hround : e / L * L + L = e + 1 := by
      rw [← Nat.add_one_mul, ← Nat.succ_div_of_dvd hdvd, Nat.div_mul_cancel hdvd]
    have hpiece := (hall (e / L) hle).mp hround.le
    omega
  · intro hnone p hle
    refine ⟨fun hend => ?_, fun hend => by omega⟩
    by_contra hc
    have hround : (p + 1) * L = e + 1 := by
      rw [Nat.succ_mul]
      omega
    refine hnone ⟨⟨p + 1, by rw [← hround, Nat.mul_comm]⟩, ?_⟩
    have hdiv : e / L = p := Nat.div_eq_of_lt_le (by omega) (by omega)
    rwa [hdiv]

/-- The same at the end of the torrent, where the last piece may be short. -/
theorem forall_lt_iff {L o T : ℕ} (hpos : 0 < L) (hle : o ≤ T) : (∀ p, o ≤ p * L → (p * L + L ≤ T + 1 ↔ p * L < T)) ↔
    1 < L ∧ (L ∣ T ∨ L ∣ T + 1 ∨ T / L * L < o) := by
  constructor
  · intro hall
    have hlong : 1 < L := by
      by_contra hc
      obtain rfl : L = 1 := by omega
      have hpiece := hall T (by omega)
      omega
    refine ⟨hlong, ?_⟩
    by_contra hnone
    push Not at hnone
    obtain ⟨hdvd, hsucc, hbegin⟩ := hnone
    have hfloor := Nat.div_mul_le_self T L
    have hceil := Nat.lt_div_mul_add hpos (a := T)
    have hne : T / L * L ≠ T := fun hc => hdvd (Dvd.intro_left _ hc)
    have hpiece := (hall (T / L) hbegin).mpr (by omega)
    refine hsucc ⟨T / L + 1, ?_⟩
    rw [Nat.mul_comm, Nat.succ_mul]
    omega
  · rintro ⟨hlong, hround⟩ p hbegin
    refine ⟨fun hend => by omega, fun hlt => ?_⟩
    by_contra hc
    -- the short last piece
    have hnext : (p + 1) * L = p * L + L := Nat.succ_mul _ _
    have hdiv : T / L = p := Nat.div_eq_of_lt_le hlt.le (by omega)
    rcases hround with hdvd | hdvd | hbehind
    · have hfull := Nat.div_mul_cancel hdvd
      rw [hdiv] at hfull
      omega
    · have hfull := Nat.div_mul_cancel hdvd
      rw [Nat.div_eq_of_lt_le (m := T + 1) (k := p) (by omega) (by omega)] at hfull
      omega
    · rw [hdiv] at hbehind
      omega

theorem exclusive_iff_roundsRight (hsize : fs.fileSize i ≠ 0) :
    (∀ p, (fs.filePieceRangeExclusive i).1 ≤ p ∧ p < (fs.filePieceRangeExclusive i).2 ↔ fs.WhollyIn i p) ↔
      RoundsRight fs i := by
  have hpos := fs.pieceLength_pos
  have hend := fs.fileOffset_add_le i
  by_cases hi : i + 1 = fs.numFiles
  · -- the last file ends with the torrent
    have hlast := fileOffset_add_last hi
    refine iff_of_true (fun p => ?_) (.inl hi)
    rw [fst_filePieceRangeExclusive_le hsize, whollyIn_iff, hlast]
    have hsnd : (fs.filePieceRangeExclusive i).2 = fs.numPieces := if_pos hi
    rw [hsnd, lt_numPieces_iff, and_comm]
    exact and_congr_right fun _ => ⟨fun hle => ⟨hle, min_le_right _ _⟩, fun h => h.1⟩
  · have hrange : (∀ p, (fs.filePieceRangeExclusive i).1 ≤ p ∧ p < (fs.filePieceRangeExclusive i).2 ↔
        fs.WhollyIn i p) ↔ ∀ p, fs.fileOffset i ≤ p * fs.pieceLength →
          (p * fs.pieceLength + fs.pieceLength ≤ fs.fileOffset i + fs.fileSize i + 1 ↔
            p * fs.pieceLength < fs.totalSize ∧
              min (p * fs.pieceLength + fs.pieceLength) fs.totalSize ≤ fs.fileOffset i + fs.fileSize i) := by
      refine forall_congr' fun p => ?_
      rw [fst_filePieceRangeExclusive_le hsize, lt_snd_filePieceRangeExclusive hsize hi, whollyIn_iff, and_left_comm]
      exact and_congr_right_iff
    rw [hrange, RoundsRight, or_iff_right hi]
    rcases hend.lt_or_eq with hlt | heq
    · -- bytes of other files follow
      rw [or_iff_left fun h => hlt.ne h.1, and_iff_right hlt, ← forall_le_succ_iff hpos]
      refine forall_congr' fun p => imp_congr_right fun _ => iff_congr Iff.rfl ?_
      omega
    · -- the files behind are empty
      rw [or_iff_right fun h => h.1.ne heq, and_iff_right heq, ← forall_lt_iff hpos (by omega), heq]
      refine forall_congr' fun p => imp_congr_right fun _ => iff_congr Iff.rfl ?_
      omega

/-- The two ranges hold the pieces they are to hold just where the end of the file is rounded right. -/
theorem filePieceRanges_iff (hsize : fs.fileSize i ≠ 0) :
    ((∀ p, (fs.filePieceRangeExclusive i).1 ≤ p ∧ p < (fs.filePieceRangeExclusive i).2 ↔ fs.WhollyIn i p) ∧
      ∀ p, (fs.filePieceRangeInclusive i).1 ≤ p ∧ p < (fs.filePieceRangeInclusive i).2 ↔ fs.HasByteIn i p) ↔
    RoundsRight fs i := by
  rw [and_iff_left fun p => fs.mem_filePieceRange hsize]
  exact exclusive_iff_roundsRight hsize

/-- The only file of a torrent. -/
theorem filePieceRanges_iff_single :
    let fs : FileStorage := ⟨[20], 16, by decide⟩
    fs.fileSize 0 ≠ 0 ∧
      (((∀ p, (fs.filePieceRangeExclusive 0).1 ≤ p ∧ p < (fs.filePieceRangeExclusive 0).2 ↔ fs.WhollyIn 0 p) ∧
        ∀ p, (fs.filePieceRangeInclusive 0).1 ≤ p ∧ p < (fs.filePieceRangeInclusive 0).2 ↔ fs.HasByteIn 0 p) ↔
      RoundsRight fs 0) :=
  ⟨by decide, filePieceRanges_iff (by decide)⟩

/-- A file that ends one byte before the end of a piece: the piece is in the range, and its last byte is in the next
file. -/
theorem filePieceRangeExclusive_foreignByte :
    ¬ ∀ (fs : FileStorage) (i p : ℕ), fs.fileSize i ≠ 0 →
      ((fs.filePieceRangeExclusive i).1 ≤ p ∧ p < (fs.filePieceRangeExclusive i).2 ↔ fs.WhollyIn i p) := by
  intro hall
  have hmem := (hall ⟨[15, 17], 16, by decide⟩ 0 0 (by decide)).mp (by decide)
  have hbyte := hmem.2 15 (by decide) (by decide)
  exact absurd hbyte (by decide)

end FileStorage

end Torrent

end LibtorrentSN
