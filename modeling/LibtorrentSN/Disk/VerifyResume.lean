import LibtorrentSN.Torrent.MapBlock
import LibtorrentSN.Torrent.ResumeData

/-!
# The files of resume data

`verify_resume_data` (`src/storage_utils.cpp`) looks for the files that hold the pieces of the resume data,
through the `stat_cache` (`src/stat_cache.cpp`). What `stat_file` finds is an input. Once a file is found,
the pieces up to its end are skipped, and the loop then goes on one piece too far: a file that begins there
may never be looked for.
-/

namespace LibtorrentSN

namespace Disk

open Torrent (FileStorage)
open Torrent.ResumeData (AddTorrentParams)

namespace VerifyResume

inductive ErrorCode
  | noSuchFileOrDirectory
  | mismatchingFileSize
  | other (value : ℕ)
  deriving DecidableEq

inductive Operation
  | fileStat
  | checkResume
  deriving DecidableEq

structure StorageError where
  ec : ErrorCode
  file : ℕ
  operation : Operation
  deriving DecidableEq

def dontDownload : ℕ := 0

/-- What `stat_file` finds: the sizes of the files that exist. -/
abbrev FileSystem := ℕ → Except ErrorCode ℕ

/-! ## `stat_cache` -/

def notInCache : ℤ := -1

def fileError : ℤ := -2

/-- An entry is a size, `notInCache`, or `fileError` less the index of an error. -/
structure StatCache where
  entries : List ℤ
  errors : List ErrorCode
  indexed : ∀ sz ∈ entries, sz < notInCache → (-sz + fileError).toNat < errors.length

namespace StatCache

def empty : StatCache := ⟨[], [], by simp⟩

variable (c : StatCache) (disk : FileSystem)

def entry (i : ℕ) : ℤ := c.entries.getD i notInCache

/-- `resize`, where the file has no entry yet. -/
def resized (i : ℕ) : List ℤ := c.entries ++ List.replicate (i + 1 - c.entries.length) notInCache

variable {c}

theorem getD_resized (i j : ℕ) : (c.resized i).getD j notInCache = c.entry j := by
  unfold resized entry
  obtain hj | hj := Nat.lt_or_ge j c.entries.length
  · rw [List.getD_append _ _ _ _ hj]
  · rw [List.getD_append_right _ _ _ _ hj, List.getD_eq_default _ _ hj, List.getD_eq_getElem?_getD,
      List.getElem?_replicate]
    split_ifs <;> rfl

theorem getD_set_resized (i j : ℕ) (sz : ℤ) :
    ((c.resized i).set i sz).getD j notInCache = if j = i then sz else c.entry j := by
  have hlen : i < (c.resized i).length := by
    unfold resized
    rw [List.length_append, List.length_replicate]
    omega
  split_ifs with h
  · rw [h, List.getD_eq_getElem _ _ (by rwa [List.length_set]), List.getElem_set_self]
  · rw [← c.getD_resized i j]
    simp only [List.getD_eq_getElem?_getD, List.getElem?_set_ne (Ne.symm h)]

theorem indexed_resized (i : ℕ) :
    ∀ sz ∈ c.resized i, sz < notInCache → (-sz + fileError).toNat < c.errors.length := by
  intro sz hsz hlt
  obtain hold | hnew := List.mem_append.mp hsz
  · exact c.indexed sz hold hlt
  · exact absurd (List.eq_of_mem_replicate hnew ▸ hlt) (lt_irrefl _)

theorem indexed_setCache (i size : ℕ) :
    ∀ sz ∈ (c.resized i).set i (size : ℤ), sz < notInCache → (-sz + fileError).toNat < c.errors.length := by
  intro sz hsz hlt
  obtain hold | rfl := List.mem_or_eq_of_mem_set hsz
  · exact indexed_resized i sz hold hlt
  · exact absurd hlt (by unfold notInCache; omega)

variable (c)

/-- `add_error`, without the index, which is that of the error. -/
def addError (ec : ErrorCode) : List ErrorCode := if ec ∈ c.errors then c.errors else c.errors ++ [ec]

variable {c}

theorem idxOf_addError (ec : ErrorCode) : c.errors.idxOf ec < (c.addError ec).length := by
  unfold addError
  split_ifs with h
  · exact List.idxOf_lt_length_of_mem h
  · rw [List.idxOf_eq_length h, List.length_append]
    exact Nat.lt_succ_self _

theorem indexed_setError (i : ℕ) (ec : ErrorCode) :
    ∀ sz ∈ (c.resized i).set i (fileError - c.errors.idxOf ec), sz < notInCache →
      (-sz + fileError).toNat < (c.addError ec).length := by
  intro sz hsz hlt
  obtain hold | rfl := List.mem_or_eq_of_mem_set hsz
  · refine (indexed_resized i sz hold hlt).trans_le ?_
    unfold addError
    split_ifs
    · exact le_rfl
    · simp
  · have hidx := c.idxOf_addError ec
    rwa [neg_sub, sub_add_cancel, Int.toNat_natCast]

theorem entry_indexed {i : ℕ} (h : c.entry i < notInCache) : (-c.entry i + fileError).toNat < c.errors.length := by
  refine c.indexed _ ?_ h
  obtain hi | hi := Nat.lt_or_ge i c.entries.length
  · rw [entry, List.getD_eq_getElem _ _ hi]
    exact List.getElem_mem hi
  · exact absurd h (by rw [entry, List.getD_eq_default _ _ hi]; exact lt_irrefl _)

variable (c)

def resize (i : ℕ) : StatCache := ⟨c.resized i, c.errors, indexed_resized i⟩

def setCacheImpl (i size : ℕ) : StatCache := ⟨(c.resized i).set i size, c.errors, indexed_setCache i size⟩

def setErrorImpl (i : ℕ) (ec : ErrorCode) : StatCache :=
  ⟨(c.resized i).set i (fileError - c.errors.idxOf ec), c.addError ec, indexed_setError i ec⟩

/-- `stat_cache::get_filesize`. Where there is an error the source returns `file_error`. -/
def getFilesize (i : ℕ) : Except ErrorCode ℤ × StatCache :=
  if h : c.entry i < notInCache then (.error (c.errors.get ⟨_, c.entry_indexed h⟩), c.resize i)
  else if c.entry i = notInCache then
    -- query the file system
    match disk i with
    | .error ec => (.error ec, c.setErrorImpl i ec)
    | .ok size => (.ok size, c.setCacheImpl i size)
  else (.ok (c.entry i), c.resize i)

end StatCache

/-! ## `storage_utils` -/

section Model

variable (rd : AddTorrentParams) (fs : FileStorage) (filePriority : List ℕ) (disk : FileSystem)

/-- `get_filesize` -/
def getFilesize (c : StatCache) (i : ℕ) : Except StorageError ℤ × StatCache :=
  match c.getFilesize disk i with
  | (.ok size, c) => (.ok size, c)
  | (.error error, c) =>
    if error ≠ .noSuchFileOrDirectory then (.error ⟨error, i, .fileStat⟩, c)
    else (.error ⟨.mismatchingFileSize, i, .fileStat⟩, c)

/-- `all_set` -/
def allSet (bits : List Bool) : Bool := bits ≠ [] && bits.all (·)

def isSeed : Bool :=
  fs.numPieces ≤ rd.havePieces.length && allSet rd.havePieces || rd.flags.has Torrent.ResumeData.seedMode

/-- The loop over the files of a seed. -/
def verifyFiles : List ℕ → StatCache → Option StorageError × StatCache
  | [], c => (none, c)
  | i :: files, c =>
    if filePriority[i]? = some dontDownload ∧ rd.flags.has Torrent.ResumeData.seedMode = false then
      verifyFiles files c
    else
      match getFilesize disk c i with
      | (.error ec, c) => (some ec, c)
      | (.ok size, c) =>
        if size < fs.fileSize i then (some ⟨.mismatchingFileSize, i, .checkResume⟩, c) else verifyFiles files c

/-- `map_block(i, 0, 1)[0].file_index`. There is a slice for every piece of the torrent. -/
def fileOfPiece (i : ℕ) : ℕ :=
  match fs.mapBlock i 0 1 with
  | some (f :: _) => f.fileIndex
  | _ => fs.numFiles

def endPiece : ℕ := min rd.havePieces.length fs.numPieces

/-- The loop over the pieces, from `i` on. -/
def verifyPieces (i : ℕ) (c : StatCache) : Option StorageError × StatCache :=
  if i < endPiece rd fs then
    if rd.havePieces.getD i false = false then verifyPieces (i + 1) c
    else if filePriority[fileOfPiece fs i]? = some dontDownload then verifyPieces (i + 1) c
    else
      match getFilesize disk c (fileOfPiece fs i) with
      | (.error ec, c) => (some ec, c)
      | (.ok _, c) =>
        -- skip all remaining pieces in this file
        let pr := fs.mapFile (fileOfPiece fs i) (fs.fileSize (fileOfPiece fs i) + 1)
        verifyPieces (max (i + 1) pr.1 + 1) c
  else (none, c)
termination_by endPiece rd fs - i

/-- `verify_resume_data`: the error, which is none where the source returns true. -/
def verifyResumeData (c : StatCache) : Option StorageError × StatCache :=
  if isSeed rd fs then verifyFiles rd fs filePriority disk (List.range fs.numFiles) c
  else verifyPieces rd fs filePriority disk 0 c

end Model

/-! ## What the cache reports -/

/-- The size the cache has for a file, or the file system. -/
def StatCache.reports (c : StatCache) (disk : FileSystem) (i : ℕ) : Option ℤ :=
  if c.entry i < notInCache then none
  else if c.entry i = notInCache then (disk i).toOption.map (↑)
  else some (c.entry i)

variable {c : StatCache} {disk : FileSystem}

theorem StatCache.getFilesize_toOption (i : ℕ) : (c.getFilesize disk i).1.toOption = c.reports disk i := by
  unfold StatCache.getFilesize StatCache.reports
  split_ifs
  · rfl
  · cases disk i <;> rfl
  · rfl

/-- To look a file up changes nothing in what is reported. -/
theorem StatCache.getFilesize_reports (i : ℕ) : (c.getFilesize disk i).2.reports disk = c.reports disk := by
  funext j
  have hresize : (c.resize i).reports disk j = c.reports disk j := by
    unfold StatCache.reports
    rw [show (c.resize i).entry j = c.entry j from c.getD_resized i j]
  unfold StatCache.getFilesize
  split_ifs with hlt heq
  · exact hresize
  · cases hdisk : disk i with
    | error ec =>
      have hentry : (c.setErrorImpl i ec).entry j = if j = i then fileError - c.errors.idxOf ec else c.entry j :=
        c.getD_set_resized i j _
      unfold StatCache.reports
      rw [hentry]
      by_cases hj : j = i
      · subst hj
        rw [if_pos rfl, if_pos (by unfold fileError notInCache; omega), if_neg hlt, if_pos heq, hdisk]
        rfl
      · rw [if_neg hj]
    | ok size =>
      have hentry : (c.setCacheImpl i size).entry j = if j = i then (size : ℤ) else c.entry j :=
        c.getD_set_resized i j _
      unfold StatCache.reports
      rw [hentry]
      by_cases hj : j = i
      · subst hj
        rw [if_pos rfl, if_neg (by unfold notInCache; omega), if_neg (by unfold notInCache; omega), if_neg hlt,
          if_pos heq, hdisk]
        rfl
      · rw [if_neg hj]
  · exact hresize

theorem getFilesize_toOption (i : ℕ) : (getFilesize disk c i).1.toOption = c.reports disk i := by
  rw [← StatCache.getFilesize_toOption]
  unfold getFilesize
  obtain ⟨ec | size, c'⟩ := c.getFilesize disk i
  · dsimp only
    split_ifs <;> rfl
  · rfl

theorem getFilesize_reports (i : ℕ) : (getFilesize disk c i).2.reports disk = c.reports disk := by
  rw [← c.getFilesize_reports i]
  unfold getFilesize
  obtain ⟨ec | size, c'⟩ := c.getFilesize disk i
  · dsimp only
    split_ifs <;> rfl
  · rfl

/-- A file is reported, and its size is at hand, or it isn't, and there is an error. -/
theorem getFilesize_cases (disk : FileSystem) (c : StatCache) (i : ℕ) :
    (∃ ec c', getFilesize disk c i = (.error ec, c') ∧ c.reports disk i = none) ∨
      ∃ size c', getFilesize disk c i = (.ok size, c') ∧ c.reports disk i = some size ∧
        c'.reports disk = c.reports disk := by
  have hsize := @getFilesize_toOption c disk i
  have hsame := @getFilesize_reports c disk i
  rcases hget : getFilesize disk c i with ⟨ec | size, c'⟩
  · rw [hget] at hsize
    exact .inl ⟨ec, c', rfl, hsize.symm⟩
  · rw [hget] at hsize hsame
    exact .inr ⟨size, c', rfl, hsize.symm, hsame⟩

/-! ## Seeds -/

variable {rd : AddTorrentParams} {fs : FileStorage} {filePriority : List ℕ}

/-! ## Pieces -/

/-- The first slice of a piece is in the file of its first byte. -/
theorem fileOfPiece_eq {i : ℕ} (h : i < fs.numPieces) :
    fileOfPiece fs i = fs.fileIndexAtOffset (i * fs.pieceLength) := by
  have hbegin := FileStorage.lt_numPieces_iff.mp h
  obtain ⟨slices, heq, hslices, -⟩ := @FileStorage.mapBlock_slices fs i 0 1 (by omega)
  unfold fileOfPiece
  rw [heq]
  cases slices with
  | nil =>
    have hsum := hslices.sum
    simp only [List.map_nil, List.sum_nil] at hsum
    omega
  | cons f slices =>
    have hcovers := hslices.covers.1
    have hwithin := hslices.within f List.mem_cons_self
    have hpos := hslices.nonempty f List.mem_cons_self
    have hle : fs.fileOffset f.fileIndex ≤ i * fs.pieceLength := by omega
    have hlt : i * fs.pieceLength < fs.fileOffset f.fileIndex + fs.fileSize f.fileIndex := by omega
    exact (FileStorage.fileIndexAtOffset_eq hle hlt).symm

variable (rd fs filePriority) in
/-- The piece is held, in a file that is not exempt. -/
def Wanted (i : ℕ) : Prop :=
  i < endPiece rd fs ∧ rd.havePieces.getD i false = true ∧
    filePriority[fs.fileIndexAtOffset (i * fs.pieceLength)]? ≠ some dontDownload

/-- Where the file of the first byte of a piece ends. -/
def fileEnd (fs : FileStorage) (i : ℕ) : ℕ := fs.fileOffset (fs.fileIndexAtOffset (i * fs.pieceLength) + 1)

variable (rd fs filePriority) in
/-- A wanted piece is looked at, unless it is right behind a piece that is looked at, or begins before the
file of such a piece ends or no more than a byte behind it. -/
def LookedAt (i : ℕ) : Prop :=
  Wanted rd fs filePriority i ∧
    ∀ j, (h : j < i) → LookedAt j → i ≠ j + 1 ∧ fileEnd fs j + 1 < i * fs.pieceLength
termination_by i

theorem lookedAt_iff {i : ℕ} : LookedAt rd fs filePriority i ↔ Wanted rd fs filePriority i ∧
    ∀ j < i, LookedAt rd fs filePriority j → i ≠ j + 1 ∧ fileEnd fs j + 1 < i * fs.pieceLength := by
  rw [LookedAt]

theorem LookedAt.wanted {i : ℕ} (h : LookedAt rd fs filePriority i) : Wanted rd fs filePriority i :=
  (lookedAt_iff.mp h).1

theorem Wanted.lt_numPieces {i : ℕ} (h : Wanted rd fs filePriority i) : i < fs.numPieces :=
  h.1.trans_le (min_le_right _ _)

/-- Where the index is when a file was found at a piece. -/
def landing (fs : FileStorage) (i : ℕ) : ℕ :=
  max (i + 1) (fs.mapFile (fileOfPiece fs i) (fs.fileSize (fileOfPiece fs i) + 1)).1

theorem landing_lt_iff {i p : ℕ} (hip : i < p) (hp : p < fs.numPieces) :
    landing fs i < p ↔ p ≠ i + 1 ∧ fileEnd fs i + 1 < p * fs.pieceLength := by
  have hi := FileStorage.lt_numPieces_iff.mp (hip.trans hp)
  have hbegin := FileStorage.lt_numPieces_iff.mp hp
  obtain ⟨hfile, -, -⟩ := FileStorage.fileIndexAtOffset_spec hi
  have hend : fs.fileOffset (fs.fileIndexAtOffset (i * fs.pieceLength)) +
      (fs.fileSize (fs.fileIndexAtOffset (i * fs.pieceLength)) + 1) = fileEnd fs i + 1 := by
    rw [fileEnd, fs.fileOffset_succ]
    rfl
  rw [landing, fileOfPiece_eq (hip.trans hp), max_lt_iff, FileStorage.mapFile, if_neg (not_le.mpr hfile), hend]
  by_cases hlast : fs.totalSize ≤ fileEnd fs i + 1
  · rw [if_pos hlast]
    exact ⟨fun h => absurd h.2 (not_lt.mpr hp.le), fun h => absurd (h.2.trans hbegin) (not_lt.mpr hlast)⟩
  · rw [if_neg hlast, Nat.div_lt_iff_lt_mul fs.pieceLength_pos]
    exact and_congr_left' ⟨fun h => h.ne', fun h => lt_of_le_of_ne hip h.symm⟩

/-- A wanted piece is looked at when everything before it has landed before it. -/
theorem Wanted.lookedAt {i : ℕ} (h : Wanted rd fs filePriority i)
    (hlanded : ∀ j < i, LookedAt rd fs filePriority j → landing fs j < i) : LookedAt rd fs filePriority i :=
  lookedAt_iff.mpr ⟨h, fun j hj hlooked => (landing_lt_iff hj h.lt_numPieces).mp (hlanded j hj hlooked)⟩

theorem LookedAt.landing_lt {i j : ℕ} (h : LookedAt rd fs filePriority i) (hj : j < i)
    (hlooked : LookedAt rd fs filePriority j) : landing fs j < i :=
  (landing_lt_iff hj h.wanted.lt_numPieces).mpr ((lookedAt_iff.mp h).2 j hj hlooked)

/-- The loop, where every file that was found before lets it go on at `i`. -/
theorem verifyPieces_eq_none_iff (i : ℕ) (c : StatCache)
    (hlanded : ∀ j < i, LookedAt rd fs filePriority j → landing fs j < i) :
    (verifyPieces rd fs filePriority disk i c).1 = none ↔ ∀ p, i ≤ p → LookedAt rd fs filePriority p →
      c.reports disk (fs.fileIndexAtOffset (p * fs.pieceLength)) ≠ none := by
  obtain ⟨n, hn⟩ : ∃ n, n = endPiece rd fs - i := ⟨_, rfl⟩
  induction n using Nat.strong_induction_on generalizing i c with
  | _ n ih =>
    rw [verifyPieces]
    by_cases hi : i < endPiece rd fs
    · rw [if_pos hi]
      -- a piece that is not wanted is passed by
      have hpass (hnot : ¬ Wanted rd fs filePriority i) :
          (verifyPieces rd fs filePriority disk (i + 1) c).1 = none ↔ ∀ p, i ≤ p → LookedAt rd fs filePriority p →
            c.reports disk (fs.fileIndexAtOffset (p * fs.pieceLength)) ≠ none := by
        rw [ih (endPiece rd fs - (i + 1)) (by omega) (i + 1) c ?_ rfl]
        · refine ⟨fun h p hp hlooked => ?_, fun h p hp => h p (by omega)⟩
          obtain rfl | hlt := hp.eq_or_lt
          · exact absurd hlooked.wanted hnot
          · exact h p hlt hlooked
        · intro j hj hlooked
          obtain rfl | hlt := (Nat.le_of_lt_succ hj).eq_or_lt
          · exact absurd hlooked.wanted hnot
          · exact (hlanded j hlt hlooked).trans (Nat.lt_succ_self i)
      by_cases hbit : rd.havePieces.getD i false = false
      · rw [if_pos hbit]
        exact hpass fun h => Bool.false_ne_true (hbit.symm.trans h.2.1)
      have hfile := fileOfPiece_eq (hi.trans_le (min_le_right _ _))
      rw [if_neg hbit, hfile]
      by_cases hexempt : filePriority[fs.fileIndexAtOffset (i * fs.pieceLength)]? = some dontDownload
      · rw [if_pos hexempt]
        exact hpass fun h => h.2.2 hexempt
      rw [if_neg hexempt]
      have hlooked : LookedAt rd fs filePriority i :=
        Wanted.lookedAt ⟨hi, (Bool.not_eq_false _).mp hbit, hexempt⟩ hlanded
      obtain ⟨ec, c', heq, hnone⟩ | ⟨size, c', heq, hsome, hsame⟩ :=
        getFilesize_cases disk c (fs.fileIndexAtOffset (i * fs.pieceLength))
      · rw [heq]
        exact ⟨fun h => (Option.some_ne_none _ h).elim, fun h => absurd hnone (h i le_rfl hlooked)⟩
      · rw [heq]
        dsimp only
        have hland : max (i + 1) (fs.mapFile (fs.fileIndexAtOffset (i * fs.pieceLength))
            (fs.fileSize (fs.fileIndexAtOffset (i * fs.pieceLength)) + 1)).1 = landing fs i := by
          rw [landing, hfile]
        have hle : i + 1 ≤ landing fs i := le_max_left _ _
        rw [hland, ih (endPiece rd fs - (landing fs i + 1)) (by omega) (landing fs i + 1) c' ?_ rfl, hsame]
        · refine ⟨fun h p hp hp' => ?_, fun h p hp => h p (by omega)⟩
          obtain rfl | hlt := hp.eq_or_lt
          · rw [hsome]
            exact Option.some_ne_none _
          · exact h p (hp'.landing_lt hlt hlooked) hp'
        · intro j hj hj'
          obtain hlt | rfl | hgt := lt_trichotomy j i
          · exact (hlanded j hlt hj').trans (by omega)
          · exact Nat.lt_succ_self _
          · exact absurd (hj'.landing_lt hgt hlooked) (by omega)
    · rw [if_neg hi]
      exact ⟨fun _ p hp hlooked => absurd hlooked.wanted.1 (by omega), fun _ => rfl⟩

/-! ## Missing files -/

def FileSystem.Exists (disk : FileSystem) (f : ℕ) : Prop := ∃ size, disk f = .ok size

variable (rd fs filePriority disk c) in
/-- If all is said to be well, the file of the first byte of every piece with its bit set is exempt or exists. -/
def Notices : Prop :=
  (verifyResumeData rd fs filePriority disk c).1 = none →
    ∀ i < fs.numPieces, rd.havePieces.getD i false = true →
      ∀ f, fs.fileOffset f ≤ i * fs.pieceLength → i * fs.pieceLength < fs.fileOffset f + fs.fileSize f →
        filePriority[f]? = some dontDownload ∨ disk.Exists f

theorem notices_of_wanted_exists
    (h : ∀ i, Wanted rd fs filePriority i → disk.Exists (fs.fileIndexAtOffset (i * fs.pieceLength))) :
    Notices c disk rd fs filePriority := by
  intro _ i hi hbit f hle hlt
  obtain rfl := (FileStorage.fileIndexAtOffset_eq hle hlt).symm
  by_cases hexempt : filePriority[fs.fileIndexAtOffset (i * fs.pieceLength)]? = some dontDownload
  · exact .inl hexempt
  · refine .inr (h i ⟨lt_min ?_ hi, hbit, hexempt⟩)
    refine lt_of_not_ge fun hc => ?_
    rw [List.getD_eq_default _ _ hc] at hbit
    exact Bool.false_ne_true hbit

theorem Notices.wanted_exists (h : Notices c disk rd fs filePriority)
    (hnone : (verifyResumeData rd fs filePriority disk c).1 = none) {i : ℕ} (hwanted : Wanted rd fs filePriority i) :
    disk.Exists (fs.fileIndexAtOffset (i * fs.pieceLength)) := by
  obtain ⟨-, hle, hlt⟩ := FileStorage.fileIndexAtOffset_spec (FileStorage.lt_numPieces_iff.mp hwanted.lt_numPieces)
  obtain hexempt | hexists := h hnone i hwanted.lt_numPieces hwanted.2.1 _ hle hlt
  · exact absurd hexempt hwanted.2.2
  · exact hexists

/-- Missing files are noticed just when there are none, or one of the pieces looked at shows one. -/
theorem verifyResumeData_notices_iff (hseed : isSeed rd fs = false) :
    Notices c disk rd fs filePriority ↔
      (∀ i, Wanted rd fs filePriority i → disk.Exists (fs.fileIndexAtOffset (i * fs.pieceLength))) ∨
        ∃ i, LookedAt rd fs filePriority i ∧
          c.reports disk (fs.fileIndexAtOffset (i * fs.pieceLength)) = none := by
  have hrun : verifyResumeData rd fs filePriority disk c = verifyPieces rd fs filePriority disk 0 c := by
    rw [verifyResumeData, if_neg (by rw [hseed]; exact Bool.false_ne_true)]
  have hnone := @verifyPieces_eq_none_iff disk rd fs filePriority 0 c
    (fun j hj (_ : LookedAt rd fs filePriority j) => absurd hj (Nat.not_lt_zero j))
  rw [← hrun] at hnone
  constructor
  · intro h
    by_cases hres : (verifyResumeData rd fs filePriority disk c).1 = none
    · exact .inl fun i hwanted => h.wanted_exists hres hwanted
    · rw [hnone] at hres
      push Not at hres
      obtain ⟨i, -, hlooked, hmissing⟩ := hres
      exact .inr ⟨i, hlooked, hmissing⟩
  · rintro (hexists | ⟨i, hlooked, hmissing⟩)
    · exact notices_of_wanted_exists hexists
    · exact fun hres => absurd hmissing (hnone.mp hres i (Nat.zero_le i) hlooked)

/-- Of three files of one piece each, the second is missing: the first is looked at, and the second isn't. -/
theorem not_notices :
    let fs : FileStorage := ⟨[16384, 16384, 16384], 16384, by decide⟩
    let rd : AddTorrentParams := { havePieces := [true, true, false] }
    let disk : FileSystem := fun i => if i = 1 then .error .noSuchFileOrDirectory else .ok 16384
    isSeed rd fs = false ∧ ¬ Notices .empty disk rd fs [] := by
  intro fs rd disk
  refine ⟨by decide, fun h => ?_⟩
  have hres : (verifyResumeData rd fs [] disk .empty).1 = none := by
    have hfile : fileOfPiece fs 0 = 0 := by decide
    have hget : getFilesize disk .empty 0 = (.ok (16384 : ℕ), StatCache.empty.setCacheImpl 0 16384) := rfl
    have hland : max (0 + 1) (fs.mapFile 0 (fs.fileSize 0 + 1)).1 + 1 = 2 := by decide
    rw [verifyResumeData, if_neg (by decide), verifyPieces, if_pos (by decide), if_neg (by decide), hfile,
      if_neg (by decide), hget]
    dsimp only
    rw [hland, verifyPieces, if_pos (by decide), if_pos (by decide), verifyPieces, if_neg (by decide)]
  obtain hexempt | ⟨size, hsize⟩ := h hres 1 (by decide) rfl 1 (by decide) (by decide)
  · cases hexempt
  · cases hsize

/-- Where the third file is missing and its piece is held too, the third piece is looked at. -/
theorem verifyResumeData_notices_third :
    let fs : FileStorage := ⟨[16384, 16384, 16384], 16384, by decide⟩
    let rd : AddTorrentParams := { havePieces := [true, false, true] }
    let disk : FileSystem := fun i => if i = 2 then .error .noSuchFileOrDirectory else .ok 16384
    isSeed rd fs = false ∧ (Notices .empty disk rd fs [] ↔
      (∀ i, Wanted rd fs [] i → disk.Exists (fs.fileIndexAtOffset (i * fs.pieceLength))) ∨
        ∃ i, LookedAt rd fs [] i ∧
          StatCache.empty.reports disk (fs.fileIndexAtOffset (i * fs.pieceLength)) = none) :=
  ⟨by decide, verifyResumeData_notices_iff (by decide)⟩

end VerifyResume

end Disk

end LibtorrentSN
