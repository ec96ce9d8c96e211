import LibtorrentSN.Torrent.FileProgress

/-!
# The bytes of the files in the pieces we have

`init` (`src/file_progress.cpp`) walks the pieces and the files with one cursor; `update` looks the file of its
piece up. Both spread the bytes of a piece over the files in the same way, so that the progress of a file is the
number of its bytes in pieces we have, in whatever order the pieces came.
-/

namespace LibtorrentSN

namespace Torrent

namespace FileProgress

open FileStorage

/-! ## The walk of `init` -/

/-- The sizes of the files that are left, and the index of the first of them. -/
structure Cursor where
  files : List ℕ
  index : ℕ

/-- `while (file_offset >= fs.file_size(file_index)) ++file_index` -/
def seek (fs : FileStorage) (off : ℕ) : List ℕ → ℕ → Cursor
  | [], i => ⟨[], i⟩
  | fileSize :: rest, i =>
    if fileSize ≤ off - fs.fileOffset i then seek fs off rest (i + 1) else ⟨fileSize :: rest, i⟩

/-- `while (size)` of `init`: the next file is only turned to when bytes are left for it. -/
def spread : List ℕ → (i fileOffset size : ℕ) → FileProgress → Cursor × FileProgress
  | [], i, _, _, fp => (⟨[], i⟩, fp)
  | fileSize :: rest, i, fileOffset, size, fp =>
    if size = 0 then (⟨fileSize :: rest, i⟩, fp)
    else
      let add := min size (fileSize - fileOffset)
      let fp' : FileProgress :=
        { files := Function.update fp.files i (fp.files i + add), totalOnDisk := fp.totalOnDisk + add }
      if 0 < size - add then spread rest (i + 1) 0 (size - add) fp' else (⟨fileSize :: rest, i⟩, fp')

/-- One piece in the loop of `init`. -/
def initPiece (fs : FileStorage) (havePiece : ℕ → Bool) (s : Cursor × FileProgress) (piece : ℕ) :
    Cursor × FileProgress :=
  let off := piece * fs.pieceLength
  let c := seek fs off s.1.files s.1.index
  if havePiece piece then
    spread c.files c.index (off - fs.fileOffset c.index) (min fs.pieceLength (fs.totalSize - off)) s.2
  else (c, s.2)

/-- `init` -/
def init (fs : FileStorage) (havePiece : ℕ → Bool) : FileProgress :=
  ((List.range fs.numPieces).foldl (initPiece fs havePiece) (⟨fs.sizes, 0⟩, {})).2

/-! ## The calls of `update` -/

/-- The loop of `update`, with the files `completed_cb` is called for. -/
def reportFrom : List ℕ → (i fileOffset off size : ℕ) → FileProgress → FileProgress × List ℕ
  | [], _, _, _, _, fp => (fp, [])
  | fileSize :: rest, i, fileOffset, off, size, fp =>
    if size = 0 then (fp, [])
    else
      let add := min (fileSize - (off - fileOffset)) size
      let fp' : FileProgress :=
        { files := Function.update fp.files i (fp.files i + add), totalOnDisk := fp.totalOnDisk + add }
      let r := reportFrom rest (i + 1) (fileOffset + fileSize) (off + add) (size - add) fp'
      (r.1, if fileSize ≤ fp'.files i then i :: r.2 else r.2)

/-- `update`, with these files. -/
def report (fs : FileStorage) (p : ℕ) (fp : FileProgress) : FileProgress × List ℕ :=
  let off := p * fs.pieceLength
  let i := fs.fileIndexAtOffset off
  reportFrom (fs.sizes.drop i) i (fs.fileOffset i) off (fs.pieceSize p) fp

/-- The files `update` calls `completed_cb` for, in the order of the calls. -/
def completedBy (fs : FileStorage) (p : ℕ) (fp : FileProgress) : List ℕ := (report fs p fp).2

/-- The pieces of the list are added, one after the other. -/
def addPieces (fs : FileStorage) (fp : FileProgress) (ps : List ℕ) : FileProgress :=
  ps.foldl (fun fp p => update fs p fp) fp

/-- The calls made while the pieces are added. -/
def reported (fs : FileStorage) : FileProgress → List ℕ → List ℕ
  | _, [] => []
  | fp, p :: ps => completedBy fs p fp ++ reported fs (report fs p fp).1 ps

/-! ## What they are for -/

/-- The number of bytes of a file that are in the pieces. -/
def heldBytes (fs : FileStorage) (pieces : Finset ℕ) (f : ℕ) : ℕ :=
  ((Finset.Ico (fs.fileOffset f) (fs.fileOffset f + fs.fileSize f)).filter (· / fs.pieceLength ∈ pieces)).card

/-- With the pieces we had, this is the last piece the file was waiting for. -/
def LastMissing (fs : FileStorage) (had : Finset ℕ) (p f : ℕ) : Prop :=
  fs.HasByteIn f p ∧ p ∉ had ∧ ∀ q, fs.HasByteIn f q → q = p ∨ q ∈ had

section Held
variable {fs : FileStorage} {held : Finset ℕ} {f p : ℕ}

theorem totalSize_le_numPieces_mul (fs : FileStorage) : fs.totalSize ≤ fs.numPieces * fs.pieceLength := by
  have hpos := fs.pieceLength_pos
  have hceil := Nat.lt_div_mul_add hpos (a := fs.totalSize + fs.pieceLength - 1)
  change _ < fs.numPieces * fs.pieceLength + _ at hceil
  omega

theorem pieceSize_eq_min (hp : p < fs.numPieces) :
    fs.pieceSize p = min fs.pieceLength (fs.totalSize - p * fs.pieceLength) := by
  obtain ⟨-, hend⟩ := pieceSize_spec hp
  have hall := totalSize_le_numPieces_mul fs
  unfold pieceSize at *
  split at hend
  next hlast =>
    rw [if_pos hlast]
    rw [← hlast, Nat.succ_mul] at hall
    obtain rfl : p = fs.numPieces - 1 := by omega
    omega
  next hlast =>
    rw [if_neg hlast]
    omega

/-- The bytes of a file in a piece are those whose piece it is. -/
theorem bytesIn_eq_card (fs : FileStorage) (f p : ℕ) :
    fs.bytesIn f p = ((Finset.Ico (fs.fileOffset f) (fs.fileOffset f + fs.fileSize f)).filter
      (· / fs.pieceLength = p)).card := by
  have hpos := fs.pieceLength_pos
  have hall := totalSize_le_numPieces_mul fs
  have hfile := fs.fileOffset_add_le f
  have hlen : p * fs.pieceLength + fs.pieceLength = (p + 1) * fs.pieceLength := (Nat.succ_mul _ _).symm
  have hrange : (Finset.Ico (fs.fileOffset f) (fs.fileOffset f + fs.fileSize f)).filter (· / fs.pieceLength = p) =
      Finset.Ico (max (fs.fileOffset f) (p * fs.pieceLength))
        (min (fs.fileOffset f + fs.fileSize f) (p * fs.pieceLength + fs.pieceSize p)) := by
    ext b
    have hdiv : b / fs.pieceLength = p ↔ p * fs.pieceLength ≤ b ∧ b < (p + 1) * fs.pieceLength := by
      rw [Nat.div_eq_iff hpos]
      omega
    rw [Finset.mem_filter, Finset.mem_Ico, Finset.mem_Ico, hdiv]
    unfold pieceSize
    split
    next hlast =>
      -- the last piece ends where the files do
      obtain rfl : p = fs.numPieces - 1 := by omega
      rw [hlast] at hlen ⊢
      omega
    next hlast => omega
  rw [hrange, Nat.card_Ico]
  rfl

theorem bytesIn_pos_iff : 0 < fs.bytesIn f p ↔ fs.HasByteIn f p := by
  rw [bytesIn_eq_card, Finset.card_pos]
  constructor
  · rintro ⟨b, hb⟩
    obtain ⟨hb, hp⟩ := Finset.mem_filter.mp hb
    exact ⟨b, (Finset.mem_Ico.mp hb).1, (Finset.mem_Ico.mp hb).2, hp⟩
  · rintro ⟨b, hle, hlt, hp⟩
    exact ⟨b, Finset.mem_filter.mpr ⟨Finset.mem_Ico.mpr ⟨hle, hlt⟩, hp⟩⟩

theorem heldBytes_empty (fs : FileStorage) (f : ℕ) : heldBytes fs ∅ f = 0 := by
  simp [heldBytes]

/-- A piece that was not there before adds its bytes. -/
theorem heldBytes_insert (hp : p ∉ held) (f : ℕ) :
    heldBytes fs (insert p held) f = heldBytes fs held f + fs.bytesIn f p := by
  rw [heldBytes, heldBytes, bytesIn_eq_card]
  simp only [Finset.mem_insert]
  rw [Finset.filter_or, Finset.card_union_of_disjoint, Nat.add_comm]
  rw [Finset.disjoint_filter]
  rintro b - rfl
  exact hp

theorem heldBytes_le (fs : FileStorage) (held : Finset ℕ) (f : ℕ) : heldBytes fs held f ≤ fs.fileSize f := by
  refine (Finset.card_filter_le _ _).trans_eq ?_
  rw [Nat.card_Ico, Nat.add_sub_cancel_left]

/-- All bytes of a file are there when all its pieces are. -/
theorem heldBytes_eq_iff : heldBytes fs held f = fs.fileSize f ↔ ∀ q, fs.HasByteIn f q → q ∈ held := by
  have hcard : fs.fileSize f = (Finset.Ico (fs.fileOffset f) (fs.fileOffset f + fs.fileSize f)).card := by
    rw [Nat.card_Ico, Nat.add_sub_cancel_left]
  refine (Eq.congr_right hcard).trans (Finset.card_filter_eq_iff.trans ?_)
  constructor
  · rintro h q ⟨b, hle, hlt, rfl⟩
    exact h b (Finset.mem_Ico.mpr ⟨hle, hlt⟩)
  · intro h b hb
    exact h _ ⟨b, (Finset.mem_Ico.mp hb).1, (Finset.mem_Ico.mp hb).2, rfl⟩

end Held

/-! ## Runs of `update` -/

section Run
variable {fs : FileStorage} {held : Finset ℕ} {fp : FileProgress} {f p : ℕ} {ps : List ℕ}

theorem addPieces_cons (fs : FileStorage) (fp : FileProgress) (p : ℕ) (ps : List ℕ) :
    addPieces fs fp (p :: ps) = addPieces fs (update fs p fp) ps := rfl

theorem addPieces_append (fs : FileStorage) (fp : FileProgress) (ps qs : List ℕ) :
    addPieces fs fp (ps ++ qs) = addPieces fs (addPieces fs fp ps) qs := List.foldl_append

theorem addPieces_files (hps : ∀ p ∈ ps, p < fs.numPieces) (fp : FileProgress) (f : ℕ) :
    (addPieces fs fp ps).files f = fp.files f + (ps.map (fs.bytesIn f)).sum := by
  induction ps generalizing fp with
  | nil => rfl
  | cons p ps ih =>
    obtain ⟨hp, hps⟩ := List.forall_mem_cons.mp hps
    rw [addPieces_cons, ih hps, (update_spec fp hp).1 f, List.map_cons, List.sum_cons, Nat.add_assoc]

theorem addPieces_totalOnDisk (hps : ∀ p ∈ ps, p < fs.numPieces) (fp : FileProgress) :
    (addPieces fs fp ps).totalOnDisk = fp.totalOnDisk + (ps.map fs.pieceSize).sum := by
  induction ps generalizing fp with
  | nil => rfl
  | cons p ps ih =>
    obtain ⟨hp, hps⟩ := List.forall_mem_cons.mp hps
    rw [addPieces_cons, ih hps, (update_spec fp hp).2, List.map_cons, List.sum_cons, Nat.add_assoc]

/-- The order of the pieces does not matter. -/
theorem addPieces_perm {qs : List ℕ} (h : ps.Perm qs) (hps : ∀ p ∈ ps, p < fs.numPieces) (fp : FileProgress) :
    addPieces fs fp ps = addPieces fs fp qs := by
  have hqs : ∀ p ∈ qs, p < fs.numPieces := fun p hp => hps p (h.mem_iff.mpr hp)
  have hfiles : (addPieces fs fp ps).files = (addPieces fs fp qs).files := by
    funext f
    rw [addPieces_files hps, addPieces_files hqs, (h.map _).sum_eq]
  have htotal : (addPieces fs fp ps).totalOnDisk = (addPieces fs fp qs).totalOnDisk := by
    rw [addPieces_totalOnDisk hps, addPieces_totalOnDisk hqs, (h.map _).sum_eq]
  cases hl : addPieces fs fp ps
  cases hr : addPieces fs fp qs
  rw [hl, hr] at hfiles htotal
  exact congrArg₂ FileProgress.mk hfiles htotal

/-- The progress counts the bytes of the pieces. -/
theorem addPieces_held (hps : ∀ p ∈ ps, p < fs.numPieces ∧ p ∉ held) (hnodup : ps.Nodup)
    (h : ∀ f, fp.files f = heldBytes fs held f) (f : ℕ) :
    (addPieces fs fp ps).files f = heldBytes fs (held ∪ ps.toFinset) f := by
  induction ps generalizing held fp with
  | nil => rw [List.toFinset_nil, Finset.union_empty, ← h]; rfl
  | cons p ps ih =>
    obtain ⟨⟨hp, hnew⟩, hps⟩ := List.forall_mem_cons.mp hps
    obtain ⟨hfresh, hnodup⟩ := List.nodup_cons.mp hnodup
    have hstep : ∀ f, (update fs p fp).files f = heldBytes fs (insert p held) f := by
      intro f
      rw [(update_spec fp hp).1, heldBytes_insert hnew, h]
    have hrest : ∀ q ∈ ps, q < fs.numPieces ∧ q ∉ insert p held := by
      intro q hq
      refine ⟨(hps q hq).1, fun hc => ?_⟩
      obtain rfl | hc := Finset.mem_insert.mp hc
      · exact hfresh hq
      · exact (hps q hq).2 hc
    rw [addPieces_cons, ih hrest hnodup hstep, List.toFinset_cons, Finset.union_insert, Finset.insert_union]

/-- What is added to the files is added to the total. -/
theorem updateFrom_sum (files : List ℕ) (i fileOffset off size : ℕ) (fp : FileProgress) {n : ℕ}
    (hn : i + files.length ≤ n) (h : fp.totalOnDisk = ∑ f ∈ Finset.range n, fp.files f) :
    (updateFrom files i fileOffset off size fp).totalOnDisk =
      ∑ f ∈ Finset.range n, (updateFrom files i fileOffset off size fp).files f := by
  induction files generalizing i fileOffset off size fp with
  | nil => exact h
  | cons fileSize rest ih =>
    rw [List.length_cons] at hn
    unfold updateFrom
    split
    next hz => exact h
    next hz =>
      refine ih _ _ _ _ _ (by omega) ?_
      have hi : i ∈ Finset.range n := Finset.mem_range.mpr (by omega)
      have hsum := Finset.sum_update_of_mem hi fp.files (fp.files i + min (fileSize - (off - fileOffset)) size)
      have hsplit := Finset.sum_eq_add_sum_sdiff_singleton_of_mem hi fp.files
      dsimp only
      omega

theorem addPieces_sum (fs : FileStorage) (ps : List ℕ)
    (h : fp.totalOnDisk = ∑ f ∈ Finset.range fs.numFiles, fp.files f) :
    (addPieces fs fp ps).totalOnDisk = ∑ f ∈ Finset.range fs.numFiles, (addPieces fs fp ps).files f := by
  induction ps generalizing fp with
  | nil => exact h
  | cons p ps ih =>
    by_cases hi : fs.fileIndexAtOffset (p * fs.pieceLength) ≤ fs.numFiles
    · refine ih (updateFrom_sum _ _ _ _ _ _ ?_ h)
      rw [List.length_drop]
      exact (Nat.add_sub_of_le hi).le
    · exact absurd ((Nat.findGreatest_le _).trans (Nat.sub_le _ _)) hi

end Run

/-! ## The cursor -/

section Walk
variable {fs : FileStorage} {off i p n : ℕ} {fp : FileProgress}

/-- The cursor is at a file of the torrent that begins at or before the offset. -/
def Cursor.At (fs : FileStorage) (off : ℕ) (c : Cursor) : Prop :=
  c.files = fs.sizes.drop c.index ∧ fs.fileOffset c.index ≤ off

theorem Cursor.At.mono {c : Cursor} {off' : ℕ} (h : c.At fs off) (hle : off ≤ off') : c.At fs off' :=
  ⟨h.1, h.2.trans hle⟩

theorem drop_eq_cons {a : ℕ} {rest : List ℕ} (h : a :: rest = fs.sizes.drop i) :
    fs.fileSize i = a ∧ rest = fs.sizes.drop (i + 1) := by
  have hi : i < fs.sizes.length := by
    by_contra hc
    rw [List.drop_eq_nil_of_le (not_lt.mp hc)] at h
    cases h
  rw [List.drop_eq_getElem_cons hi] at h
  obtain ⟨rfl, rfl⟩ := List.cons.inj h
  exact ⟨List.getD_eq_getElem _ _ hi, rfl⟩

/-- The cursor comes to the file at the offset. -/
theorem seek_spec (files : List ℕ) (i : ℕ) (h : Cursor.At fs off ⟨files, i⟩) (hoff : off < fs.totalSize) :
    (seek fs off files i).At fs off ∧ (seek fs off files i).index = fs.fileIndexAtOffset off := by
  induction files generalizing i with
  | nil =>
    -- there is a file for every offset
    have hend : fs.fileOffset i = fs.totalSize := by
      have hlen : fs.sizes.length ≤ i := List.drop_eq_nil_iff.mp h.1.symm
      rw [fileOffset, List.take_of_length_le hlen]
      rfl
    have hle := h.2
    dsimp only at hle
    omega
  | cons fileSize rest ih =>
    obtain ⟨hsize, hrest⟩ := drop_eq_cons (i := i) h.1
    have hle : fs.fileOffset i ≤ off := h.2
    unfold seek
    split
    next hpast =>
      refine ih (i + 1) ⟨hrest, ?_⟩
      dsimp only
      rw [fs.fileOffset_succ]
      omega
    next hin => exact ⟨h, (fileIndexAtOffset_eq hle (by omega)).symm⟩

/-- The walk of `init` spreads the bytes as `update` does, and ends at a file that begins before the next ones. -/
theorem spread_spec (files : List ℕ) (i off size : ℕ) (fp : FileProgress)
    (h : Cursor.At fs off ⟨files, i⟩) (hle : off ≤ fs.fileOffset i + files.headD 0) :
    (spread files i (off - fs.fileOffset i) size fp).1.At fs (off + size) ∧
      (spread files i (off - fs.fileOffset i) size fp).2 = updateFrom files i (fs.fileOffset i) off size fp := by
  induction files generalizing i off size fp with
  | nil => exact ⟨h.mono (Nat.le_add_right _ _), rfl⟩
  | cons fileSize rest ih =>
    obtain ⟨hsize, hrest⟩ := drop_eq_cons (i := i) h.1
    have hstart : fs.fileOffset i ≤ off := h.2
    rw [List.headD_cons] at hle
    unfold spread updateFrom
    split
    next hz => exact ⟨h.mono (Nat.le_add_right _ _), rfl⟩
    next hz =>
      rw [Nat.min_comm size]
      dsimp only
      split
      next hmore =>
        -- the file is used up, and the next one begins where it ends
        have hadd : min (fileSize - (off - fs.fileOffset i)) size = fileSize - (off - fs.fileOffset i) := by omega
        have hnext : off + min (fileSize - (off - fs.fileOffset i)) size = fs.fileOffset (i + 1) := by
          rw [fs.fileOffset_succ, hadd]
          omega
        have hzero : fs.fileOffset (i + 1) - fs.fileOffset (i + 1) = 0 := Nat.sub_self _
        have hnext' : fs.fileOffset i + fileSize = fs.fileOffset (i + 1) := by
          rw [fs.fileOffset_succ, hsize]
        have hrec := ih (i + 1) (fs.fileOffset (i + 1)) (size - min (fileSize - (off - fs.fileOffset i)) size)
          { files := Function.update fp.files i (fp.files i + min (fileSize - (off - fs.fileOffset i)) size)
            totalOnDisk := fp.totalOnDisk + min (fileSize - (off - fs.fileOffset i)) size }
          ⟨hrest, le_rfl⟩ (Nat.le_add_right _ _)
        rw [hzero] at hrec
        rw [hnext, hnext']
        exact ⟨hrec.1.mono (by omega), hrec.2⟩
      next hdone =>
        refine ⟨h.mono (Nat.le_add_right _ _), ?_⟩
        have hnone : size - min (fileSize - (off - fs.fileOffset i)) size = 0 := by omega
        rw [hnone]
        cases rest <;> rfl

/-- One round of `init` is one call of `update`, if we have the piece. -/
theorem initPiece_spec (havePiece : ℕ → Bool) {c : Cursor} (hp : p < fs.numPieces) (h : c.At fs (p * fs.pieceLength)) :
    (initPiece fs havePiece (c, fp) p).1.At fs ((p + 1) * fs.pieceLength) ∧
      (initPiece fs havePiece (c, fp) p).2 = if havePiece p then update fs p fp else fp := by
  obtain ⟨hsize, hend⟩ := pieceSize_spec hp
  have hoff : p * fs.pieceLength < fs.totalSize := by omega
  obtain ⟨hat, hindex⟩ := seek_spec c.files c.index h hoff
  have hnext : p * fs.pieceLength + fs.pieceSize p ≤ (p + 1) * fs.pieceLength := by
    rw [pieceSize_eq_min hp, Nat.succ_mul]
    omega
  unfold initPiece
  dsimp only
  split
  next hhave =>
    obtain ⟨-, -, hlt⟩ := fileIndexAtOffset_spec hoff
    have hhead : (seek fs (p * fs.pieceLength) c.files c.index).files.headD 0 =
        fs.fileSize (fs.fileIndexAtOffset (p * fs.pieceLength)) := by
      rw [hat.1, hindex, List.headD_eq_head?_getD, List.head?_drop, fileSize, List.getD_eq_getElem?_getD]
    obtain ⟨hat', hfp⟩ := spread_spec _ _ _ (fs.pieceSize p) fp hat (by rw [hhead, hindex]; exact hlt.le)
    rw [← pieceSize_eq_min hp]
    refine ⟨hat'.mono hnext, hfp.trans ?_⟩
    rw [hat.1, hindex]
    rfl
  next hnot => exact ⟨hat.mono (by rw [Nat.succ_mul]; omega), rfl⟩

/-- `init` adds the pieces we have. -/
theorem init_eq_addPieces (fs : FileStorage) (havePiece : ℕ → Bool) :
    init fs havePiece = addPieces fs {} ((List.range fs.numPieces).filter havePiece) := by
  suffices h : ∀ n ≤ fs.numPieces,
      ((List.range n).foldl (initPiece fs havePiece) (⟨fs.sizes, 0⟩, {})).1.At fs (n * fs.pieceLength) ∧
      ((List.range n).foldl (initPiece fs havePiece) (⟨fs.sizes, 0⟩, {})).2 =
        addPieces fs {} ((List.range n).filter havePiece) from (h _ le_rfl).2
  intro n hn
  induction n with
  | zero => exact ⟨⟨rfl, Nat.zero_le _⟩, rfl⟩
  | succ n ih =>
    obtain ⟨hat, hfp⟩ := ih (Nat.le_of_succ_le hn)
    obtain ⟨hat', hfp'⟩ := initPiece_spec havePiece (Nat.lt_of_succ_le hn) hat
    rw [List.range_succ, List.foldl_append, List.filter_append, addPieces_append, ← hfp]
    refine ⟨hat', hfp'.trans ?_⟩
    rw [List.filter_singleton]
    cases havePiece n <;> rfl

end Walk

/-! ## The completed files -/

section Reports
variable {fs : FileStorage} {held : Finset ℕ} {f p : ℕ} {ps : List ℕ}

/-- The loop with the calls does what the loop does. -/
theorem reportFrom_fst (files : List ℕ) (i fileOffset off size : ℕ) (fp : FileProgress) :
    (reportFrom files i fileOffset off size fp).1 = updateFrom files i fileOffset off size fp := by
  induction files generalizing i fileOffset off size fp with
  | nil => rfl
  | cons fileSize rest ih =>
    unfold reportFrom updateFrom
    split
    next hz => rfl
    next hz => exact ih ..

theorem report_fst (fs : FileStorage) (p : ℕ) (fp : FileProgress) : (report fs p fp).1 = update fs p fp :=
  reportFrom_fst ..

theorem le_of_mem_reportFrom {files : List ℕ} {i fileOffset off size : ℕ} {fp : FileProgress} {j : ℕ}
    (h : j ∈ (reportFrom files i fileOffset off size fp).2) : i ≤ j := by
  induction files generalizing i fileOffset off size fp with
  | nil => cases h
  | cons fileSize rest ih =>
    unfold reportFrom at h
    split at h
    next hz => cases h
    next hz =>
      dsimp only at h
      split at h
      next hfull =>
        obtain rfl | h := List.mem_cons.mp h
        · exact le_rfl
        · exact Nat.le_of_succ_le (ih h)
      next hpart => exact Nat.le_of_succ_le (ih h)

/-- The loop calls back for a file once, if bytes are added to it and it is full then. -/
theorem reportFrom_count (files : List ℕ) (i fileOffset off size : ℕ) (fp : FileProgress) {j : ℕ} (hj : i ≤ j)
    (hsize : 0 < files.getD (j - i) 0)
    (h : size ≠ 0 → off = fileOffset ∨ fileOffset ≤ off ∧ off < fileOffset + files.headD 0) :
    (reportFrom files i fileOffset off size fp).2.count j =
      if 0 < overlap (fileOffset + (files.take (j - i)).sum) (files.getD (j - i) 0) off size ∧
        files.getD (j - i) 0 ≤ fp.files j +
          overlap (fileOffset + (files.take (j - i)).sum) (files.getD (j - i) 0) off size
      then 1 else 0 := by
  induction files generalizing i fileOffset off size fp with
  | nil => exact absurd hsize (by simp)
  | cons fileSize rest ih =>
    unfold reportFrom
    split
    next hz =>
      rw [if_neg]
      · rfl
      · unfold overlap
        omega
    next hz =>
      rw [List.headD_cons] at h
      have hstart := h hz
      dsimp only
      obtain rfl | hlt := eq_or_lt_of_le hj
      · -- the file itself: the rest of the loop is about the files after it
        have hnot : (reportFrom rest (i + 1) (fileOffset + fileSize)
            (off + min (fileSize - (off - fileOffset)) size) (size - min (fileSize - (off - fileOffset)) size)
            { files := Function.update fp.files i (fp.files i + min (fileSize - (off - fileOffset)) size)
              totalOnDisk := fp.totalOnDisk + min (fileSize - (off - fileOffset)) size }).2.count i = 0 :=
          List.count_eq_zero.mpr fun hc => absurd (le_of_mem_reportFrom hc) (Nat.not_succ_le_self i)
        rw [Nat.sub_self, List.getD_cons_zero] at hsize
        have hover : overlap (fileOffset + 0) fileSize off size = min (fileSize - (off - fileOffset)) size := by
          unfold overlap
          omega
        rw [Nat.sub_self, List.take_zero, List.sum_nil, List.getD_cons_zero, hover]
        split
        next hfull =>
          rw [Function.update_self] at hfull
          rw [List.count_cons_self, hnot, if_pos]
          exact ⟨by omega, hfull⟩
        next hpart =>
          rw [Function.update_self] at hpart
          rw [hnot, if_neg]
          exact fun hc => hpart hc.2
      · obtain ⟨d, rfl⟩ : ∃ d, j = i + 1 + d := ⟨j - (i + 1), by omega⟩
        have hd : i + 1 + d - (i + 1) = d := by omega
        have hd' : i + 1 + d - i = d + 1 := by omega
        rw [hd', List.getD_cons_succ] at hsize
        have hrec := ih (i + 1) (fileOffset + fileSize) (off + min (fileSize - (off - fileOffset)) size)
          (size - min (fileSize - (off - fileOffset)) size)
          { files := Function.update fp.files i (fp.files i + min (fileSize - (off - fileOffset)) size)
            totalOnDisk := fp.totalOnDisk + min (fileSize - (off - fileOffset)) size } hlt
          (by rw [hd]; exact hsize) (fun _ => .inl (by omega))
        have hover : ∀ a b, fileOffset + fileSize ≤ a →
            overlap a b (off + min (fileSize - (off - fileOffset)) size)
              (size - min (fileSize - (off - fileOffset)) size) = overlap a b off size :=
          fun a b ha => overlap_advance (by omega) ha
        have hne : i + 1 + d ≠ i := hlt.ne'
        simp only [hd, Function.update_of_ne hne, hover _ _ (Nat.le_add_right _ _)] at hrec
        rw [hd', List.getD_cons_succ, List.take_succ_cons, List.sum_cons, ← Nat.add_assoc, ← hrec]
        split
        next hfull => rw [List.count_cons_of_ne (by omega)]
        next hpart => rfl

/-- A piece completes the files it adds the last missing bytes to. -/
theorem completedBy_count (fp : FileProgress) (hp : p < fs.numPieces) (hf : 0 < fs.fileSize f) :
    (completedBy fs p fp).count f =
      if 0 < fs.bytesIn f p ∧ fs.fileSize f ≤ fp.files f + fs.bytesIn f p then 1 else 0 := by
  obtain ⟨hsize, hend⟩ := pieceSize_spec hp
  have hstart : p * fs.pieceLength < fs.totalSize := by omega
  obtain ⟨hi, hle, hlt⟩ := fileIndexAtOffset_spec hstart
  unfold completedBy report
  dsimp only
  generalize fs.fileIndexAtOffset (p * fs.pieceLength) = i at hi hle hlt
  obtain hfi | hif := Nat.lt_or_ge f i
  · -- the file ends before the piece
    have hmono := fs.fileOffset_mono (Nat.succ_le_of_lt hfi)
    rw [Nat.succ_eq_add_one, fs.fileOffset_succ] at hmono
    have hnot : f ∉ (reportFrom (fs.sizes.drop i) i (fs.fileOffset i) (p * fs.pieceLength) (fs.pieceSize p) fp).2 :=
      fun hc => absurd (le_of_mem_reportFrom hc) (not_le.mpr hfi)
    rw [List.count_eq_zero.mpr hnot, if_neg]
    unfold bytesIn overlap
    omega
  · have hget : (fs.sizes.drop i).getD (f - i) 0 = fs.fileSize f := by
      rw [List.getD_eq_getElem?_getD, List.getElem?_drop, Nat.add_sub_of_le hif, fileSize,
        List.getD_eq_getElem?_getD]
    have hoff : fs.fileOffset i + ((fs.sizes.drop i).take (f - i)).sum = fs.fileOffset f := by
      rw [fileOffset, fileOffset, ← List.sum_append, ← List.take_add, Nat.add_sub_of_le hif]
    have hhead : (fs.sizes.drop i).headD 0 = fs.fileSize i := by
      rw [List.headD_eq_head?_getD, List.head?_drop, fileSize, List.getD_eq_getElem?_getD]
    rw [reportFrom_count _ _ _ _ _ _ hif (by rw [hget]; exact hf)
      (fun _ => .inr ⟨hle, by rw [hhead]; exact hlt⟩), hget, hoff]
    rfl

/-- In a state that counts the bytes of the pieces we have, the call is for the last missing piece of the file. -/
theorem completedBy_count_held {fp : FileProgress} (hp : p < fs.numPieces) (hnew : p ∉ held)
    (hfp : ∀ f, fp.files f = heldBytes fs held f) (hf : 0 < fs.fileSize f) :
    (LastMissing fs held p f → (completedBy fs p fp).count f = 1) ∧
      (¬ LastMissing fs held p f → (completedBy fs p fp).count f = 0) := by
  have hfull : fs.fileSize f ≤ fp.files f + fs.bytesIn f p ↔ ∀ q, fs.HasByteIn f q → q = p ∨ q ∈ held := by
    rw [hfp, ← heldBytes_insert hnew]
    have hall : heldBytes fs (insert p held) f = fs.fileSize f ↔ ∀ q, fs.HasByteIn f q → q ∈ insert p held :=
      heldBytes_eq_iff
    simp only [Finset.mem_insert] at hall
    rw [← hall]
    exact ⟨fun h => (heldBytes_le _ _ _).antisymm h, fun h => h.ge⟩
  have hiff : LastMissing fs held p f ↔
      0 < fs.bytesIn f p ∧ fs.fileSize f ≤ fp.files f + fs.bytesIn f p := by
    rw [hfull, bytesIn_pos_iff]
    exact ⟨fun h => ⟨h.1, h.2.2⟩, fun h => ⟨h.1, hnew, h.2⟩⟩
  rw [completedBy_count fp hp hf]
  exact ⟨fun h => if_pos (hiff.mp h), fun h => if_neg fun hc => h (hiff.mpr hc)⟩

/-- Over a run the call is made once, if the file was incomplete and is complete in the end. -/
theorem reported_count {fp : FileProgress} (hps : ∀ p ∈ ps, p < fs.numPieces ∧ p ∉ held) (hnodup : ps.Nodup)
    (hfp : ∀ f, fp.files f = heldBytes fs held f) (hf : 0 < fs.fileSize f) :
    (reported fs fp ps).count f =
      if fp.files f < fs.fileSize f ∧ (addPieces fs fp ps).files f = fs.fileSize f then 1 else 0 := by
  induction ps generalizing held fp with
  | nil =>
    rw [if_neg]
    · rfl
    · exact fun h => absurd h.2 h.1.ne
  | cons p ps ih =>
    obtain ⟨⟨hp, hnew⟩, hps⟩ := List.forall_mem_cons.mp hps
    obtain ⟨hfresh, hnodup⟩ := List.nodup_cons.mp hnodup
    have hstep : ∀ f, (update fs p fp).files f = heldBytes fs (insert p held) f := by
      intro f
      rw [(update_spec fp hp).1, heldBytes_insert hnew, hfp]
    have hrest : ∀ q ∈ ps, q < fs.numPieces ∧ q ∉ insert p held := by
      intro q hq
      refine ⟨(hps q hq).1, fun hc => ?_⟩
      obtain rfl | hc := Finset.mem_insert.mp hc
      · exact hfresh hq
      · exact (hps q hq).2 hc
    have hbefore : (update fs p fp).files f = fp.files f + fs.bytesIn f p := (update_spec fp hp).1 f
    have hle : (update fs p fp).files f ≤ fs.fileSize f := by
      rw [hstep]
      exact heldBytes_le _ _ _
    have hmono := addPieces_files (fun q hq => (hrest q hq).1) (update fs p fp) f
    have hend : (addPieces fs (update fs p fp) ps).files f ≤ fs.fileSize f := by
      rw [addPieces_held hrest hnodup hstep]
      exact heldBytes_le _ _ _
    rw [reported, report_fst, List.count_append, completedBy_count fp hp hf, ih hrest hnodup hstep, addPieces_cons]
    -- the file is complete from the call on, or it is not yet
    by_cases hfull : fs.fileSize f ≤ fp.files f + fs.bytesIn f p
    · rw [if_neg (by omega : ¬ ((update fs p fp).files f < _ ∧ _)), Nat.add_zero]
      exact if_congr (by omega) rfl rfl
    · rw [if_neg (by omega : ¬ (0 < fs.bytesIn f p ∧ _)), Nat.zero_add]
      exact if_congr (by omega) rfl rfl

/-- The progress of the files is exact: `init` and `update` count the bytes of the files in the pieces we have, and a
file that is not empty is reported just when its last missing piece comes. -/
theorem fileProgress_exact (fs : FileStorage) (held : Finset ℕ) (ps : List ℕ)
    (hheld : ∀ p ∈ held, p < fs.numPieces) (hps : ∀ p ∈ ps, p < fs.numPieces ∧ p ∉ held) (hnodup : ps.Nodup) :
    (∀ f, (addPieces fs (init fs (· ∈ held)) ps).files f = heldBytes fs (held ∪ ps.toFinset) f) ∧
    (addPieces fs (init fs (· ∈ held)) ps).totalOnDisk =
      ∑ f ∈ Finset.range fs.numFiles, (addPieces fs (init fs (· ∈ held)) ps).files f ∧
    (∀ f, 0 < fs.fileSize f → ∀ qs p rs, ps = qs ++ p :: rs →
      (LastMissing fs (held ∪ qs.toFinset) p f →
        (completedBy fs p (addPieces fs (init fs (· ∈ held)) qs)).count f = 1) ∧
      (¬ LastMissing fs (held ∪ qs.toFinset) p f →
        (completedBy fs p (addPieces fs (init fs (· ∈ held)) qs)).count f = 0)) ∧
    (∀ f, 0 < fs.fileSize f → (reported fs (init fs (· ∈ held)) ps).count f =
      if (init fs (· ∈ held)).files f < fs.fileSize f ∧
        (addPieces fs (init fs (· ∈ held)) ps).files f = fs.fileSize f then 1 else 0) ∧
    ∀ ds : List ℕ, ds.Nodup → ds.toFinset = held →
      init fs (· ∈ held) = addPieces fs (init fs fun _ => false) ds := by
  have hlist : ∀ p ∈ (List.range fs.numPieces).filter (· ∈ held), p < fs.numPieces ∧ p ∉ (∅ : Finset ℕ) :=
    fun p hp => ⟨List.mem_range.mp (List.mem_filter.mp hp).1, Finset.notMem_empty p⟩
  have hset : ((List.range fs.numPieces).filter (· ∈ held)).toFinset = held := by
    ext p
    rw [List.mem_toFinset, List.mem_filter, List.mem_range, decide_eq_true_iff]
    exact ⟨And.right, fun h => ⟨hheld p h, h⟩⟩
  have hdistinct : ((List.range fs.numPieces).filter (· ∈ held)).Nodup := List.nodup_range.filter _
  have hempty : init fs (fun _ => false) = {} := by
    rw [init_eq_addPieces, List.filter_eq_nil_iff.mpr fun _ _ => Bool.false_ne_true]
    rfl
  have hinit : ∀ f, (init fs (· ∈ held)).files f = heldBytes fs held f := by
    intro f
    rw [init_eq_addPieces, addPieces_held hlist hdistinct fun f => (heldBytes_empty fs f).symm, hset,
      Finset.empty_union]
  refine ⟨addPieces_held hps hnodup hinit, ?_, ?_, fun f hf => reported_count hps hnodup hinit hf, ?_⟩
  · refine addPieces_sum fs ps ?_
    rw [init_eq_addPieces]
    exact addPieces_sum fs _ (by simp)
  · rintro f hf qs p rs rfl
    obtain ⟨hqs, hp⟩ := List.forall_mem_append.mp hps
    obtain ⟨hnodupq, -, hdisj⟩ := List.nodup_append.mp hnodup
    refine completedBy_count_held (hp p List.mem_cons_self).1 ?_ (addPieces_held hqs hnodupq hinit) hf
    rw [Finset.mem_union, List.mem_toFinset, not_or]
    exact ⟨(hp p List.mem_cons_self).2, fun hc => hdisj p hc p List.mem_cons_self rfl⟩
  · rintro ds hds rfl
    rw [hempty, init_eq_addPieces]
    refine addPieces_perm ?_ (fun p hp => (hlist p hp).1) {}
    refine (List.perm_ext_iff_of_nodup hdistinct hds).mpr fun p => ?_
    rw [← List.mem_toFinset, hset, List.mem_toFinset]

/-- Three files, the second of them empty, of which the first piece was there. -/
theorem fileProgress_exact_three :
    (∀ p ∈ ({0} : Finset ℕ), p < FileStorage.numPieces ⟨[3, 0, 4], 2, by decide⟩) ∧
    ([3, 1] : List ℕ).Nodup ∧
    (addPieces ⟨[3, 0, 4], 2, by decide⟩ (init ⟨[3, 0, 4], 2, by decide⟩ (· ∈ ({0} : Finset ℕ))) [3, 1]).files 2 =
      heldBytes ⟨[3, 0, 4], 2, by decide⟩ ({0} ∪ [3, 1].toFinset) 2 :=
  ⟨by decide, by decide, (fileProgress_exact ⟨[3, 0, 4], 2, by decide⟩ {0} [3, 1] (by decide) (by decide)
    (by decide)).1 2⟩

end Reports

end FileProgress

end Torrent

end LibtorrentSN
