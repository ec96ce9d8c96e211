import LibtorrentSN.Torrent.Sanitize

/-!
# The paths of the files

How `file_storage` (`src/file_storage.cpp`, `src/path.cpp`) stores the path of a file: the name of the
torrent once, the directories once each, and the last component with the file. The last component is
copied from the path or borrowed from the buffer of the info dictionary.
-/

namespace LibtorrentSN

namespace Torrent

namespace Info

open Bencode (ascii)

/-! ## Taking paths apart -/

def isComplete (f : List UInt8) : Bool := f.head? = some (ascii '/')

/-- The path up to the last separator, and what comes after it. One separator at the end is left
out. -/
def rsplitPath (p : List UInt8) : List UInt8 × List UInt8 :=
  let p := if p.getLast? = some (ascii '/') then p.dropLast else p
  if ascii '/' ∈ p then
    let leaf := (p.reverse.takeWhile (· ≠ ascii '/')).reverse
    (p.take (p.length - leaf.length - 1), leaf)
  else ([], p)

/-- The path up to the first separator, and what comes after it. One separator at the start is left
out. -/
def lsplitPath (p : List UInt8) : List UInt8 × List UInt8 :=
  let p := if p.head? = some (ascii '/') then p.tail else p
  (p.takeWhile (· ≠ ascii '/'), (p.dropWhile (· ≠ ascii '/')).tail)

def hasParentPath (f : List UInt8) : Bool :=
  if f = [] ∨ f = [ascii '/'] then false
  else
    let isSep := fun b => decide (b = ascii '/' ∨ b = ascii '\\')
    (if f.getLast?.any isSep then f.dropLast else f).any isSep

/-- `filename`: the last component. -/
def pathFilename (f : List UInt8) : List UInt8 :=
  if f.getLast? = some (ascii '/') then (f.dropLast.reverse.takeWhile (· ≠ ascii '/')).reverse
  else (f.reverse.takeWhile (· ≠ ascii '/')).reverse

def appendPath (branch leaf : List UInt8) : List UInt8 :=
  if branch = [] ∨ branch = [ascii '.'] then leaf
  else if leaf = [] then branch
  else if branch.getLast? = some (ascii '/') then branch ++ leaf
  else branch ++ ascii '/' :: leaf

variable {leaf root : List UInt8}

theorem getLast?_branch (h : Named leaf) (branch : List UInt8) :
    (branch ++ ascii '/' :: leaf).getLast? = leaf.getLast? := by
  rw [List.append_cons, List.getLast?_append_of_ne_nil _ h.ne_nil]

theorem rsplitPath_eq (h : Named leaf) (branch : List UInt8) :
    rsplitPath (branch ++ ascii '/' :: leaf) = (branch, leaf) := by
  have htake : ((branch ++ ascii '/' :: leaf).reverse.takeWhile (· ≠ ascii '/')).reverse = leaf := by
    rw [List.reverse_append, List.reverse_cons, List.append_assoc, List.singleton_append,
      List.takeWhile_append_of_pos, List.takeWhile_cons_of_neg (by simp), List.append_nil,
      List.reverse_reverse]
    exact fun b hb => h.forall_ne b (List.mem_reverse.mp hb)
  rw [rsplitPath, getLast?_branch h, if_neg h.getLast?_ne]
  dsimp only
  rw [if_pos (by simp), htake]
  congr 1
  rw [List.length_append, List.length_cons, Nat.add_sub_assoc (by omega), Nat.add_sub_assoc (by omega)]
  simp

theorem rsplitPath_named (h : Named leaf) : rsplitPath leaf = ([], leaf) := by
  rw [rsplitPath, if_neg h.getLast?_ne]
  dsimp only
  rw [if_neg h.not_mem]

theorem lsplitPath_cons (h : Named root) (rest : List UInt8) :
    lsplitPath (root ++ ascii '/' :: rest) = (root, rest) := by
  have hhead : (root ++ ascii '/' :: rest).head? ≠ some (ascii '/') := by
    rw [List.head?_append_of_ne_nil _ h.ne_nil]
    exact h.head?_ne
  rw [lsplitPath, if_neg hhead]
  rw [List.takeWhile_append_of_pos h.forall_ne, List.dropWhile_append_of_pos h.forall_ne,
    List.takeWhile_cons_of_neg (by simp), List.dropWhile_cons_of_neg (by simp), List.append_nil,
    List.tail_cons]

theorem lsplitPath_named (h : Named root) : lsplitPath root = (root, []) := by
  rw [lsplitPath, if_neg h.head?_ne]
  rw [List.takeWhile_eq_self_iff.mpr h.forall_ne, List.dropWhile_eq_nil_iff.mpr h.forall_ne,
    List.tail_nil]

/-! ## Files -/

inductive PathIndex
  | noPath
  | pathIsAbsolute
  | path (index : ℕ)
  deriving DecidableEq

/-- `aux::file_entry`. The name is what `filename()` returns. -/
structure FileEntry where
  name : List UInt8 := []
  -- the name points into the buffer of the info dictionary
  borrowed : Bool := false
  pathIndex : PathIndex := .noPath
  noRootDir : Bool := false
  size : ℕ := 0
  offset : ℕ := 0

/-- The value of the 12 bit length field that says that the name is owned, and ends with a null. -/
def nameIsOwned : ℕ := 2 ^ 12 - 1

/-- `file_entry::set_name`. A borrowed name that is too long for the length field loses its front. An
empty name leaves the length field as it is. -/
def FileEntry.setName (e : FileEntry) (n : List UInt8) (borrow : Bool) : FileEntry :=
  { e with
    name :=
      if borrow then if nameIsOwned ≤ n.length then n.drop (nameIsOwned - 1) else n
      else n.takeWhile (· ≠ 0)
    borrowed := if n = [] then e.borrowed else borrow }

/-- `file_storage` -/
structure FileStorage where
  pieceLength : ℤ := 0
  numPieces : ℤ := 0
  totalSize : ℕ := 0
  name : List UInt8 := []
  paths : List (List UInt8) := []
  files : List FileEntry := []
  -- these point into the buffer of the info dictionary
  fileHashes : List (Option (List UInt8)) := []

inductive ErrorCode
  | torrentInfoNoDict
  | metadataTooLarge
  | torrentMissingPieceLength
  | torrentMissingName
  | torrentInvalidName
  | torrentInvalidLength
  | noFilesInTorrent
  | tooManyPiecesInTorrent
  | torrentMissingPieces
  | torrentInvalidHashes
  | fileTooLarge
  | filenameTooLong
  -- `false` is returned and the error code is left alone
  | noError
  deriving DecidableEq

namespace FileStorage

variable (fs : FileStorage)

def maxFileOffset : ℕ := 2 ^ 48 - 1

def defaultBlockSize : ℕ := 0x4000

def maxFileSize : ℕ := min (2 ^ 48 - 1) ((2 ^ 31 - 1) / 2 * defaultBlockSize)

def maxNumPieces : ℤ := 2 ^ 30 - 1

def maxPieceSize : ℤ := (2 ^ 15 - 1) * 0x4000

/-- `get_or_add_path`: the last index of the path. -/
def getOrAddPath (path : List UInt8) : FileStorage × ℕ :=
  match ((List.range fs.paths.length).filter fun k => fs.paths[k]? = some path).getLast? with
  | some k => (fs, k)
  | none => ({ fs with paths := fs.paths ++ [path] }, fs.paths.length)

/-- The directory of a path below the name of the torrent, and whether it is below it at all. -/
def directory (branchPath : List UInt8) : List UInt8 × Bool :=
  if (lsplitPath branchPath).1 = fs.name then
    ((lsplitPath branchPath).2.dropWhile (· = ascii '/'), true)
  else (branchPath, false)

/-- `update_path_index` -/
def updatePathIndex (e : FileEntry) (path : List UInt8) (setName : Bool) : FileStorage × FileEntry :=
  if isComplete path then (fs, { e.setName path false with pathIndex := .pathIsAbsolute })
  else
    let (branchPath, leaf) := rsplitPath path
    let e := if setName then e.setName leaf false else e
    if branchPath = [] then (fs, { e with pathIndex := .noPath })
    else
      let (dir, inRoot) := fs.directory branchPath
      ((fs.getOrAddPath dir).1,
        { e with noRootDir := !inRoot, pathIndex := .path (fs.getOrAddPath dir).2 })

/-- The name of the torrent is the first component of the path of its first file. -/
def withName (path : List UInt8) : FileStorage :=
  if hasParentPath path then
    if fs.files = [] then { fs with name := (lsplitPath path).1 } else fs
  else { fs with name := path }

/-- The entry of a new file, and the storage with its directory. -/
def newEntry (filename path : List UInt8) : FileStorage × FileEntry :=
  let (fs, e) := (fs.withName path).updatePathIndex {} path (filename = [])
  (fs, if filename ≠ [] then e.setName filename true else e)

/-- The length of the name of a file, which is limited. -/
def nameLength (filename path : List UInt8) : ℕ :=
  if filename ≠ [] then filename.length else (pathFilename path).length

/-- The hashes with that of a new file, if it has one. -/
def hashesWith (filehash : Option (List UInt8)) : List (Option (List UInt8)) :=
  if filehash = none then fs.fileHashes
  else fs.fileHashes ++ List.replicate (fs.files.length - fs.fileHashes.length) none ++ [filehash]

/-- `add_file_borrow` -/
def addFileBorrow (filename path : List UInt8) (fileSize : ℕ) (filehash : Option (List UInt8)) :
    Except ErrorCode FileStorage :=
  if maxFileSize < fileSize then .error .fileTooLarge
  else if maxFileOffset - fs.totalSize < fileSize then .error .torrentInvalidLength
  else if 2 ^ 12 ≤ nameLength filename path then .error .filenameTooLong
  else
    let (fs, e) := fs.newEntry filename path
    let e := { e with size := fileSize % 2 ^ 48, offset := fs.totalSize % 2 ^ 48 }
    .ok { fs with
      files := fs.files ++ [e], fileHashes := fs.hashesWith filehash, totalSize := fs.totalSize + e.size }

/-- `file_path`, with an empty save path. -/
def entryPath (fe : FileEntry) : List UInt8 :=
  match fe.pathIndex with
  | .pathIsAbsolute => fe.name
  | .noPath => appendPath [] fe.name
  | .path index =>
    let p := fs.paths.getD index []
    if fe.noRootDir then appendPath (appendPath [] p) fe.name
    else appendPath (appendPath (appendPath [] fs.name) p) fe.name

def filePath (i : ℕ) : List UInt8 := fs.entryPath (fs.files.getD i {})

/-! ## Specifications -/

variable {fs} {fs' : FileStorage} {filename path : List UInt8} {fileSize : ℕ} {filehash : Option (List UInt8)}

theorem addFileBorrow_ok (h : fs.addFileBorrow filename path fileSize filehash = .ok fs') :
    fileSize ≤ maxFileSize ∧ fs.totalSize + fileSize ≤ max maxFileOffset fs.totalSize ∧
    fs' = { (fs.newEntry filename path).1 with
      files := (fs.newEntry filename path).1.files ++ [{ (fs.newEntry filename path).2 with
        size := fileSize % 2 ^ 48, offset := (fs.newEntry filename path).1.totalSize % 2 ^ 48 }]
      fileHashes := (fs.newEntry filename path).1.hashesWith filehash
      totalSize := (fs.newEntry filename path).1.totalSize + fileSize % 2 ^ 48 } := by
  rw [addFileBorrow] at h
  split at h
  · cases h
  · next hsize =>
    split at h
    · cases h
    · split at h
      · cases h
      · exact ⟨Nat.le_of_not_lt hsize, by omega, (Except.ok.inj h).symm⟩

@[simp]
theorem withName_files (fs : FileStorage) (path : List UInt8) : (fs.withName path).files = fs.files := by
  rw [withName]
  split_ifs <;> rfl

@[simp]
theorem withName_paths (fs : FileStorage) (path : List UInt8) : (fs.withName path).paths = fs.paths := by
  rw [withName]
  split_ifs <;> rfl

@[simp]
theorem withName_totalSize (fs : FileStorage) (path : List UInt8) :
    (fs.withName path).totalSize = fs.totalSize := by
  rw [withName]
  split_ifs <;> rfl

@[simp]
theorem withName_pieceLength (fs : FileStorage) (path : List UInt8) :
    (fs.withName path).pieceLength = fs.pieceLength := by
  rw [withName]
  split_ifs <;> rfl

/-- Only the paths are changed. -/
theorem getOrAddPath_eq (fs : FileStorage) (path : List UInt8) :
    (fs.getOrAddPath path).1 = { fs with paths := (fs.getOrAddPath path).1.paths } := by
  rw [getOrAddPath]
  split <;> rfl

theorem updatePathIndex_eq (fs : FileStorage) (e : FileEntry) (path : List UInt8) (setName : Bool) :
    (fs.updatePathIndex e path setName).1 =
      { fs with paths := (fs.updatePathIndex e path setName).1.paths } := by
  rw [updatePathIndex]
  split
  · rfl
  · dsimp only
    split
    · rfl
    · exact getOrAddPath_eq fs _

theorem newEntry_eq (fs : FileStorage) (filename path : List UInt8) : (fs.newEntry filename path).1 =
    { fs.withName path with paths := (fs.newEntry filename path).1.paths } :=
  updatePathIndex_eq (fs.withName path) {} path _

/-- The files and sizes of a storage that files are added to. -/
structure Sized (fs : FileStorage) (sizes : List ℕ) : Prop where
  map_size : fs.files.map FileEntry.size = sizes
  map_offset : fs.files.map FileEntry.offset = (List.range sizes.length).map fun i => (sizes.take i).sum
  totalSize_eq : fs.totalSize = sizes.sum
  le_max : fs.totalSize ≤ maxFileOffset

theorem Sized.addFileBorrow {sizes : List ℕ} (hs : fs.Sized sizes)
    (h : fs.addFileBorrow filename path fileSize filehash = .ok fs') :
    fs'.Sized (sizes ++ [fileSize]) ∧ fs'.pieceLength = fs.pieceLength := by
  obtain ⟨hsize, htotal, rfl⟩ := addFileBorrow_ok h
  rw [max_eq_left hs.le_max] at htotal
  have hmax : maxFileOffset < 2 ^ 48 := by decide
  have hfits : fileSize % 2 ^ 48 = fileSize := Nat.mod_eq_of_lt (by omega)
  have hoffset : fs.totalSize % 2 ^ 48 = fs.totalSize := Nat.mod_eq_of_lt (by omega)
  have heq := newEntry_eq fs filename path
  generalize fs.newEntry filename path = r at heq ⊢
  obtain ⟨r, e⟩ := r
  dsimp only at heq ⊢
  rw [heq]
  simp only [withName_files, withName_totalSize, withName_pieceLength, hfits, hoffset]
  refine ⟨⟨?_, ?_, ?_, htotal⟩, trivial⟩
  · rw [List.map_append, hs.map_size]
    rfl
  · rw [List.map_append, hs.map_offset, List.length_append, List.length_singleton, List.range_succ,
      List.map_append]
    congr 1
    · refine List.map_congr_left fun i hi => ?_
      rw [List.take_append_of_le_length (List.mem_range.mp hi).le]
    · rw [List.map_singleton, List.map_singleton, List.take_left, hs.totalSize_eq]
  · rw [List.sum_append, List.sum_singleton, hs.totalSize_eq]

end FileStorage

end Info

end Torrent

end LibtorrentSN
