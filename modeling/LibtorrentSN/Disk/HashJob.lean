import LibtorrentSN.Disk.ReadWrite

/-!
# Hash jobs

`mmap_disk_io::do_hash` (`src/mmap_disk_io.cpp`) hashes a piece block by block, from the store buffer or
through `mmap_storage::hash`, which hands `readwrite` an operation that reads and hashes a part of one
file. What the file system does in each call is an input. A block that fails at its
first file ends the job. A block that fails later has read some bytes: the job goes on, and the next
block that is read clears the error.
-/

namespace LibtorrentSN

namespace Disk

namespace Mmap

open Torrent (FileStorage FileSlice)
open ReadWrite

/-! ## The file operation -/

def noSuchFileOrDirectory : ErrorCode := .other 2

/-- An error of the file system. -/
def inputOutputError : ErrorCode := .other 5

/-- A read of the part file: the piece is not there, or it is read, and may fail after a number of
bytes. A part file that can't be opened fails at once. -/
inductive PartAccess
  | noSlot
  | read (failsAfter : Option ℕ)

/-- A read of a file: through its descriptor, all or nothing, or through a mapping, which may be shorter
than the file should be. -/
inductive FileAccess
  | openFailed
  | pread (fails : Bool)
  | mapped (size : ℕ)

/-- What the file system does in one call. -/
structure Access where
  part : PartAccess := .read none
  file : FileAccess := .pread false

/-- What has been hashed, the bytes counted, and the error. -/
structure Read where
  hashed : List UInt8
  ret : ℕ := 0
  ec : Option StorageError := none

section Model

variable (fs : FileStorage) (inPartfile : ℕ → Bool) (content : ℕ → UInt8)

/-- Bytes of the torrent. -/
def bytesFrom (content : ℕ → UInt8) (pos n : ℕ) : List UInt8 := (List.range n).map fun k => content (pos + k)

/-- The operation of `hash` on a part of one file: what it passes to the hasher, and its answer.
`open_file` stops at an error that was there before. -/
def hashOp (x : Access) (ec : Option StorageError) (f : FileSlice) : List UInt8 × Answer :=
  let pos := fs.fileOffset f.fileIndex + f.offset.toNat
  let len := f.size.toNat
  if inPartfile f.fileIndex then
    match x.part with
    | .noSlot => ([], .error (noSuchFileOrDirectory, .partfileRead))
    | .read none => (bytesFrom content pos len, .ok len)
    | .read (some n) =>
      -- the whole buffer is hashed before the error is looked at
      let n := min n (len - 1)
      (bytesFrom content pos n ++ List.replicate (len - n) 0, .error (inputOutputError, .partfileRead))
  else
    match ec with
    | some e => ([], .error (e.ec, e.operation))
    | none =>
      match x.file with
      | .openFailed => ([], .error (inputOutputError, .fileOpen))
      | .pread true => ([], .error (inputOutputError, .fileRead))
      | .pread false => (bytesFrom content pos len, .ok len)
      | .mapped size =>
        let n := min (size - f.offset.toNat) len
        (bytesFrom content pos n, .ok n)

/-- No more is read than `readwrite` asks for. -/
theorem hashOp_le (x : Access) (ec : Option StorageError) (f : FileSlice) {n : ℕ}
    (h : (hashOp fs inPartfile content x ec f).2 = .ok n) : n ≤ f.size.toNat := by
  unfold hashOp at h
  dsimp only at h
  split at h
  · split at h <;> cases h
    exact le_rfl
  · split at h
    · cases h
    · split at h <;> cases h
      · exact le_rfl
      · exact min_le_right _ _

/-- What `readwrite` is given. -/
def hashFile (calls : ℕ → Access) : FileOp where
  answer k ec f := (hashOp fs inPartfile content (calls k) ec f).2
  le k ec f _ := hashOp_le fs inPartfile content (calls k) ec f

/-- What the calls pass to the hasher. -/
def hashedBy (calls : ℕ → Access) (made : List Call) : List UInt8 :=
  made.zipIdx.flatMap fun c => (hashOp fs inPartfile content (calls c.2) c.1.ec c.1.request).1

/-- `mmap_storage::hash`, which adds to what has been hashed. -/
def storageHash (calls : ℕ → Access) (hashed : List UInt8) (piece offset len : ℕ) : Read :=
  match readwrite fs piece offset len (hashFile fs inPartfile content calls) with
  | some r => ⟨hashed ++ hashedBy fs inPartfile content calls r.calls, r.ret, r.ec⟩
  -- only for a buffer of 2 GiB or more
  | none => { hashed }

end Model

/-! ## The job -/

def defaultBlockSize : ℕ := 0x4000

/-- A job for a piece, the blocks of it that are in the store buffer, the files that are in the part
file, and what the file system does in each call for each block. -/
structure HashJob (fs : FileStorage) where
  piece : ℕ
  buffered : ℕ → Bool
  inPartfile : ℕ → Bool
  calls : ℕ → ℕ → Access
  piece_lt : piece < fs.numPieces

/-- The bytes of the torrent, in the store buffer and in the storage. -/
structure Contents where
  buffer : ℕ → UInt8
  storage : ℕ → UInt8

namespace HashJob

variable {fs : FileStorage} (j : HashJob fs) (c : Contents)

/-- Where the piece begins in the torrent. -/
def start : ℕ := j.piece * fs.pieceLength

def pieceSize : ℕ := fs.pieceSize j.piece

def blocksInPiece : ℕ := (j.pieceSize + defaultBlockSize - 1) / defaultBlockSize

/-- The last block of a piece may be shorter. -/
def blockLen (offset : ℕ) : ℕ := min defaultBlockSize (j.pieceSize - offset)

/-- One block. Before a block is read from the storage the error is cleared. -/
def hashBlock (b : ℕ) (r : Read) : Read :=
  let offset := b * defaultBlockSize
  let len := j.blockLen offset
  if j.buffered b then { r with hashed := r.hashed ++ bytesFrom c.buffer (j.start + offset) len, ret := len }
  else storageHash fs j.inPartfile c.storage (j.calls b) r.hashed j.piece offset len

/-- The blocks from `b` on, up to one that gives no bytes. -/
def hashBlocks : ℕ → (b : ℕ) → Read → Read
  | 0, _, r => r
  | m + 1, b, r =>
    let r := j.hashBlock c b r
    if r.ret = 0 then r else hashBlocks m (b + 1) r

/-- `do_hash`. The hash of the job is that of the bytes in `hashed`. -/
def doHash : Read := j.hashBlocks c j.blocksInPiece 0 { hashed := [] }

/-- The bytes of the piece, block by block those of the store buffer or those of the storage. -/
def pieceBytes : List UInt8 :=
  (List.range j.pieceSize).map fun k =>
    if j.buffered (k / defaultBlockSize) then c.buffer (j.start + k) else c.storage (j.start + k)

end HashJob

/-! ## Calls that fail -/

section Fails

variable (fs : FileStorage) (inPartfile : ℕ → Bool) (calls : ℕ → Access)

/-- The number of bytes that a call gives. -/
def given (x : Access) (pos left : ℕ) : ℕ :=
  let i := fs.fileIndexAtOffset pos
  let len := min (fs.fileOffset i + fs.fileSize i - pos) left
  if inPartfile i then
    match x.part with
    | .read none => len
    | _ => 0
  else
    match x.file with
    | .openFailed => 0
    | .pread fails => if fails then 0 else len
    | .mapped size => min (size - (pos - fs.fileOffset i)) len

/-- A read from the call with number `k` on comes to a call that gives nothing. -/
inductive Fails : (k pos left : ℕ) → Prop
  | call {k pos left : ℕ} (hleft : 0 < left) (h : given fs inPartfile (calls k) pos left = 0) :
    Fails k pos left
  | later {k pos left : ℕ} (h : 0 < given fs inPartfile (calls k) pos left)
      (hrest : Fails (k + 1) (pos + given fs inPartfile (calls k) pos left)
        (left - given fs inPartfile (calls k) pos left)) : Fails k pos left

end Fails

section Read

variable {fs : FileStorage} {inPartfile : ℕ → Bool} {content : ℕ → UInt8} {calls : ℕ → Access} {x : Access}
  {left pos n off fuel : ℕ} {f : FileSlice} {s : Loop} {slices : List FileSlice}

/-- Bytes one after the other. -/
theorem bytesFrom_add (content : ℕ → UInt8) (pos m n : ℕ) :
    bytesFrom content pos (m + n) = bytesFrom content pos m ++ bytesFrom content (pos + m) n := by
  simp only [bytesFrom, List.range_add, List.map_append, List.map_map]
  congr 1
  exact List.map_congr_left fun k _ => by simp [Nat.add_assoc]

@[simp] theorem length_bytesFrom : (bytesFrom content pos n).length = n := by simp [bytesFrom]

/-- The last call adds what it passes. -/
theorem hashedBy_concat (made : List Call) (c : Call) :
    hashedBy fs inPartfile content calls (made ++ [c]) = hashedBy fs inPartfile content calls made ++
      (hashOp fs inPartfile content (calls made.length) c.ec c.request).1 := by
  simp [hashedBy, List.zipIdx_append]

/-- What a call does when there was no error before: it gives bytes, or it fails, and then it has
hashed nothing or a buffer with a zero that was not read. -/
theorem hashOp_spec (h : Asks fs s f off) (hleft : 0 < s.size)
    (hpos : pos = fs.fileOffset s.fileIndex + s.fileOffset) :
    (hashOp fs inPartfile content x none f =
        (bytesFrom content pos (given fs inPartfile x pos s.size), .ok (given fs inPartfile x pos s.size)) ∧
      (given fs inPartfile x pos s.size = 0 → inPartfile f.fileIndex = false)) ∨
    ∃ a e, hashOp fs inPartfile content x none f = (a, .error e) ∧ given fs inPartfile x pos s.size = 0 ∧
      (a = [] ∨ 0 ∈ a) := by
  have hasked := h.pos
  have hlt := h.lt
  have hi : fs.fileIndexAtOffset pos = f.fileIndex := FileStorage.fileIndexAtOffset_eq (by omega) (by omega)
  have hsub : pos - fs.fileOffset f.fileIndex = off := by omega
  have hsum : fs.fileOffset f.fileIndex + off = pos := by omega
  have hlen : min (fs.fileOffset f.fileIndex + fs.fileSize f.fileIndex - pos) s.size = f.size.toNat := by
    rw [h.size]
    omega
  have hn := h.size_pos hleft
  rw [given, hashOp.eq_def, hi]
  dsimp only
  rw [hlen, hsub, h.offset, Int.toNat_natCast, hsum]
  by_cases hin : inPartfile f.fileIndex = true
  · rw [if_pos hin, if_pos hin]
    rcases x.part with _ | _ | m
    · exact .inr ⟨_, _, rfl, rfl, .inl rfl⟩
    · exact .inl ⟨rfl, fun h => absurd h (by dsimp only; omega)⟩
    · refine .inr ⟨_, _, rfl, rfl, .inr ?_⟩
      exact List.mem_append_right _ (List.mem_replicate.mpr ⟨by omega, rfl⟩)
  · have hfile := Bool.eq_false_of_not_eq_true hin
    rw [if_neg hin, if_neg hin]
    rcases x.file with _ | fails | size
    · exact .inr ⟨_, _, rfl, rfl, .inl rfl⟩
    · cases fails with
      | false => exact .inl ⟨rfl, fun _ => hfile⟩
      | true => exact .inr ⟨_, _, rfl, rfl, .inl rfl⟩
    · exact .inl ⟨rfl, fun _ => hfile⟩

/-- No more is given than there is in the file and in the block. -/
theorem given_le : given fs inPartfile x pos left ≤
    min (fs.fileOffset (fs.fileIndexAtOffset pos) + fs.fileSize (fs.fileIndexAtOffset pos) - pos) left := by
  rw [given]
  split
  · split
    · exact le_rfl
    · exact Nat.zero_le _
  · split
    · exact Nat.zero_le _
    · split
      · exact Nat.zero_le _
      · exact le_rfl
    · exact min_le_right _ _

/-- A call that gives bytes: `readwrite` goes on behind them. -/
theorem turn_gives (hat : At fs s slices) (hleft : 0 < s.size) (hsize : s.size < 2 ^ 31) (hec : s.ec = none)
    (hpos : pos = fs.fileOffset s.fileIndex + s.fileOffset)
    (hgives : 0 < given fs inPartfile (calls s.calls.length) pos s.size) :
    ∃ s' slices', turn fs (hashFile fs inPartfile content calls) s = .more s' ∧ At fs s' slices' ∧ s'.ec = none ∧
      s'.size = s.size - given fs inPartfile (calls s.calls.length) pos s.size ∧
      s'.ret = s.ret + given fs inPartfile (calls s.calls.length) pos s.size ∧
      s'.calls.length = s.calls.length + 1 ∧
      pos + given fs inPartfile (calls s.calls.length) pos s.size = fs.fileOffset s'.fileIndex + s'.fileOffset ∧
      hashedBy fs inPartfile content calls s'.calls = hashedBy fs inPartfile content calls s.calls ++
        bytesFrom content pos (given fs inPartfile (calls s.calls.length) pos s.size) := by
  obtain ⟨f, rest, off, -, hasks, hturn, hnext⟩ :=
    turn_eq (hashFile fs inPartfile content calls) hat hleft hsize
  have hrequest : (⟨f.fileIndex, off, f.size⟩ : FileSlice) = f := by rw [← hasks.offset]
  have hplace := hasks.pos
  rcases @hashOp_spec fs inPartfile content (calls s.calls.length) pos off f s hasks hleft hpos with
    ⟨hop, -⟩ | ⟨a, e, -, hzero, -⟩
  · generalize given fs inPartfile (calls s.calls.length) pos s.size = t at hop hgives ⊢
    have hle : t ≤ f.size.toNat := hashOp_le fs inPartfile content (calls s.calls.length) none f (by rw [hop])
    rw [hturn, transfer, if_neg (not_lt.mpr (hasks.size_pos hleft).le)]
    dsimp only [hashFile]
    rw [hrequest, hec, hop]
    dsimp only
    rw [if_neg fun h => hgives.ne' h.1]
    refine ⟨_, _, rfl, hnext t (by omega) _ rfl rfl rfl, rfl, rfl, rfl, List.length_append, ?_, ?_⟩
    · dsimp only
      omega
    · dsimp only
      rw [hashedBy_concat, hop]
  · exact absurd hzero hgives.ne'

/-- A call that gives nothing: `readwrite` ends with an error, at the latest in the next call. -/
theorem loop_fails (hat : At fs s slices) (hleft : 0 < s.size) (hsize : s.size < 2 ^ 31) (hec : s.ec = none)
    (hpos : pos = fs.fileOffset s.fileIndex + s.fileOffset)
    (hzero : given fs inPartfile (calls s.calls.length) pos s.size = 0) (fuel : ℕ) :
    ∃ r g, loop fs (hashFile fs inPartfile content calls) (fuel + 2) s = some r ∧ r.ec ≠ none ∧ r.ret = s.ret ∧
      hashedBy fs inPartfile content calls r.calls = hashedBy fs inPartfile content calls s.calls ++ g ∧
      (g = [] ∨ 0 ∈ g) := by
  obtain ⟨f, rest, off, rfl, hasks, hturn, hnext⟩ :=
    turn_eq (hashFile fs inPartfile content calls) hat hleft hsize
  have hrequest : (⟨f.fileIndex, off, f.size⟩ : FileSlice) = f := by rw [← hasks.offset]
  have hfpos := hasks.size_pos hleft
  rw [loop_succ, if_neg hleft.ne', hturn, transfer, if_neg (not_lt.mpr hfpos.le)]
  dsimp only [hashFile]
  rw [hrequest, hec]
  rcases @hashOp_spec fs inPartfile content (calls s.calls.length) pos off f s hasks hleft hpos with
    ⟨hop, hin⟩ | ⟨a, e, hop, -, ha⟩
  · -- the end of the file: the next call stops at the error
    rw [hzero] at hop hin
    rw [hop]
    dsimp only
    rw [if_pos ⟨rfl, hfpos⟩]
    have hat' := hnext 0 hfpos.le
      { s with
        calls := s.calls ++ [⟨f, none, .ok 0⟩]
        size := s.size - 0
        fileIndex := f.fileIndex
        fileOffset := off + 0
        ret := s.ret + 0
        ec := some ⟨.eof, f.fileIndex, .fileRead⟩ } rfl rfl rfl
    rw [advance_zero hfpos] at hat'
    obtain ⟨r, hr, hcalls, hret, hagain⟩ :=
      loop_again (hashFile fs inPartfile content calls) hat' hleft hsize rfl fuel
    refine ⟨r, [], hr, ?_, hret, ?_, .inl rfl⟩
    · rcases hagain with ⟨n, -, hrec⟩ | ⟨e, -, hrec⟩ <;> simp [hrec]
    · rw [hcalls, hashedBy_concat, hashedBy_concat, hop]
      simp [hashOp, hin rfl, bytesFrom]
  · rw [hop]
    refine ⟨_, a, rfl, by simp, rfl, ?_, ha⟩
    dsimp only
    rw [hashedBy_concat, hop]

/-- A read of which no call fails. -/
theorem loop_of_not_fails (hat : At fs s slices) (hsize : s.size < 2 ^ 31) (hec : s.ec = none)
    (hpos : pos = fs.fileOffset s.fileIndex + s.fileOffset)
    (hf : ¬ Fails fs inPartfile calls s.calls.length pos s.size) (hfuel : s.size < fuel) :
    ∃ r, loop fs (hashFile fs inPartfile content calls) fuel s = some r ∧ r.ec = none ∧
      r.ret = s.ret + s.size ∧ hashedBy fs inPartfile content calls r.calls =
        hashedBy fs inPartfile content calls s.calls ++ bytesFrom content pos s.size := by
  induction fuel generalizing s slices pos with
  | zero => exact absurd hfuel (Nat.not_lt_zero _)
  | succ fuel ih =>
    rw [loop_succ]
    rcases Nat.eq_zero_or_pos s.size with hzero | hleft
    · rw [if_pos hzero, hzero]
      exact ⟨s, rfl, hec, rfl, (List.append_nil _).symm⟩
    · have hgives : 0 < given fs inPartfile (calls s.calls.length) pos s.size :=
        Nat.pos_of_ne_zero fun h => hf (.call hleft h)
      have hle : given fs inPartfile (calls s.calls.length) pos s.size ≤ s.size := given_le.trans (min_le_right _ _)
      obtain ⟨s', slices', hturn, hat', hec', hsize', hret', hlen', hpos', hhashed'⟩ :=
        @turn_gives fs inPartfile content calls pos s slices hat hleft hsize hec hpos hgives
      have hrest : ¬ Fails fs inPartfile calls s'.calls.length
          (pos + given fs inPartfile (calls s.calls.length) pos s.size) s'.size := by
        rw [hlen', hsize']
        exact fun h => hf (.later hgives h)
      obtain ⟨r, hr, hrec, hret, hhashed⟩ := ih hat' (by omega) hec' hpos' hrest (by omega)
      have hsum : s.size = given fs inPartfile (calls s.calls.length) pos s.size + s'.size := by omega
      rw [if_neg hleft.ne', hturn]
      refine ⟨r, hr, hrec, by omega, ?_⟩
      conv_rhs => rw [hsum, bytesFrom_add]
      rw [hhashed, hhashed', List.append_assoc]

/-- A read with a call that fails: some bytes have been read, and counted, before it. None have if it
was the first. -/
theorem loop_of_fails (hat : At fs s slices) (hsize : s.size < 2 ^ 31) (hec : s.ec = none)
    (hpos : pos = fs.fileOffset s.fileIndex + s.fileOffset)
    (hf : Fails fs inPartfile calls s.calls.length pos s.size) (hfuel : s.size + 1 < fuel) :
    ∃ r m g, loop fs (hashFile fs inPartfile content calls) fuel s = some r ∧ r.ec ≠ none ∧ r.ret = s.ret + m ∧
      hashedBy fs inPartfile content calls r.calls =
        hashedBy fs inPartfile content calls s.calls ++ bytesFrom content pos m ++ g ∧
      m < s.size ∧ (g = [] ∨ 0 ∈ g) ∧ (m = 0 ↔ given fs inPartfile (calls s.calls.length) pos s.size = 0) := by
  induction fuel generalizing s slices pos with
  | zero => exact absurd hfuel (Nat.not_lt_zero _)
  | succ fuel ih =>
    cases hf with
    | call hleft hzero =>
      obtain ⟨fuel, rfl⟩ := Nat.exists_eq_succ_of_ne_zero (show fuel ≠ 0 by omega)
      obtain ⟨r, g, hr, hrec, hret, hhashed, hg⟩ :=
        @loop_fails fs inPartfile content calls pos s slices hat hleft hsize hec hpos hzero fuel
      exact ⟨r, 0, g, hr, hrec, hret, by simpa [bytesFrom] using hhashed, hleft, hg, iff_of_true rfl hzero⟩
    | later hgives hrest =>
      have hle : given fs inPartfile (calls s.calls.length) pos s.size ≤ s.size := given_le.trans (min_le_right _ _)
      have hleft : 0 < s.size := hgives.trans_le hle
      obtain ⟨s', slices', hturn, hat', hec', hsize', hret', hlen', hpos', hhashed'⟩ :=
        @turn_gives fs inPartfile content calls pos s slices hat hleft hsize hec hpos hgives
      rw [← hlen', ← hsize'] at hrest
      obtain ⟨r, m, g, hr, hrec, hret, hhashed, hm, hg, -⟩ := ih hat' (by omega) hec' hpos' hrest (by omega)
      refine ⟨r, given fs inPartfile (calls s.calls.length) pos s.size + m, g, ?_, hrec, by omega, ?_, by omega, hg,
        iff_of_false (by omega) hgives.ne'⟩
      · rw [loop_succ, if_neg hleft.ne', hturn]
        exact hr
      · rw [hhashed, hhashed', bytesFrom_add]
        simp only [List.append_assoc]

/-- Where the loop begins. -/
theorem pos_start {piece offset : ℕ} (size : ℕ) (h : piece * fs.pieceLength + offset < fs.totalSize) :
    piece * fs.pieceLength + offset =
      fs.fileOffset (start fs piece offset size).fileIndex + (start fs piece offset size).fileOffset := by
  have hle := (FileStorage.fileIndexAtOffset_spec h).2.1
  simp only [start]
  omega

/-- A block of which no call fails is hashed whole. -/
theorem storageHash_of_not_fails {hashed : List UInt8} {piece offset len : ℕ} (hlen : 0 < len) (hsize : len < 2 ^ 31)
    (hend : piece * fs.pieceLength + offset + len ≤ fs.totalSize)
    (hf : ¬ Fails fs inPartfile calls 0 (piece * fs.pieceLength + offset) len) :
    storageHash fs inPartfile content calls hashed piece offset len =
      { hashed := hashed ++ bytesFrom content (piece * fs.pieceLength + offset) len, ret := len } := by
  obtain ⟨slices, -, hat⟩ := at_start hlen hend
  obtain ⟨r, hr, hec, hret, hhashed⟩ := @loop_of_not_fails fs inPartfile content calls _
    (len + fs.numFiles + 2) _ slices hat hsize rfl (pos_start len (by omega)) hf (by simp only [start]; omega)
  rw [storageHash, readwrite, hr]
  dsimp only
  rw [hhashed, hret, hec]
  simp [start, hashedBy]

/-- A block with a call that fails is cut short, with an error. -/
theorem storageHash_of_fails {hashed : List UInt8} {piece offset len : ℕ} (hlen : 0 < len) (hsize : len < 2 ^ 31)
    (hend : piece * fs.pieceLength + offset + len ≤ fs.totalSize)
    (hf : Fails fs inPartfile calls 0 (piece * fs.pieceLength + offset) len) :
    ∃ m g, (storageHash fs inPartfile content calls hashed piece offset len).hashed =
        hashed ++ bytesFrom content (piece * fs.pieceLength + offset) m ++ g ∧
      (storageHash fs inPartfile content calls hashed piece offset len).ec ≠ none ∧
      (storageHash fs inPartfile content calls hashed piece offset len).ret = m ∧ m < len ∧ (g = [] ∨ 0 ∈ g) ∧
      (m = 0 ↔ given fs inPartfile (calls 0) (piece * fs.pieceLength + offset) len = 0) := by
  obtain ⟨slices, -, hat⟩ := at_start hlen hend
  obtain ⟨r, m, g, hr, hec, hret, hhashed, hm, hg, hzero⟩ := @loop_of_fails fs inPartfile content calls _
    (len + fs.numFiles + 2) _ slices hat hsize rfl (pos_start len (by omega)) hf (by simp only [start]; omega)
  rw [storageHash, readwrite, hr]
  refine ⟨m, g, ?_, hec, ?_, hm, hg, hzero⟩
  · dsimp only
    rw [hhashed]
    simp [start, hashedBy]
  · simpa [start] using hret

end Read

/-! ## Blocks -/

namespace HashJob

variable {fs : FileStorage} {j : HashJob fs} {c : Contents} {b m n : ℕ} {r : Read} {h h' : List UInt8}

/-- A call for a block fails, if the block is read from the storage. -/
def BlockFails (j : HashJob fs) (b : ℕ) : Prop :=
  Fails fs j.inPartfile (j.calls b) 0 (j.start + b * defaultBlockSize) (j.blockLen (b * defaultBlockSize))

/-- The first call for a block gives some bytes. -/
def BlockBegins (j : HashJob fs) (b : ℕ) : Prop :=
  0 < given fs j.inPartfile (j.calls b 0) (j.start + b * defaultBlockSize)
    (j.blockLen (b * defaultBlockSize))

/-- An error is lost: a block fails, every block that is read gives some bytes first, and the last one
does not fail. -/
structure ErrorLost (j : HashJob fs) : Prop where
  fails : ∃ b < j.blocksInPiece, j.buffered b = false ∧ j.BlockFails b
  begins : ∀ b < j.blocksInPiece, j.buffered b = false → j.BlockBegins b
  last : ∃ l < j.blocksInPiece, j.buffered l = false ∧ ¬ j.BlockFails l ∧
    ∀ b, l < b → b < j.blocksInPiece → j.buffered b = true

theorem blockLen_pos (hb : b < j.blocksInPiece) : 0 < j.blockLen (b * defaultBlockSize) := by
  rw [blocksInPiece, defaultBlockSize] at hb
  rw [blockLen, defaultBlockSize]
  omega

/-- A block ends within the torrent. -/
theorem block_end_le (hb : b < j.blocksInPiece) : j.start + b * defaultBlockSize +
    j.blockLen (b * defaultBlockSize) ≤ fs.totalSize := by
  have hend := (FileStorage.pieceSize_spec j.piece_lt).2
  rw [blocksInPiece, pieceSize, defaultBlockSize] at hb
  rw [start, blockLen, pieceSize, defaultBlockSize]
  omega

theorem hashBlock_buffered (hbuf : j.buffered b = true) :
    j.hashBlock c b r = { r with
      hashed := r.hashed ++ bytesFrom c.buffer (j.start + b * defaultBlockSize)
        (j.blockLen (b * defaultBlockSize))
      ret := j.blockLen (b * defaultBlockSize) } :=
  if_pos hbuf

/-- A block is shorter than 2 GiB. -/
theorem blockLen_lt (offset : ℕ) : j.blockLen offset < 2 ^ 31 :=
  (min_le_left _ _).trans_lt (by decide)

theorem hashBlock_of_not_fails (hb : b < j.blocksInPiece) (hbuf : j.buffered b = false)
    (hf : ¬ j.BlockFails b) : j.hashBlock c b r =
      { hashed := r.hashed ++ bytesFrom c.storage (j.start + b * defaultBlockSize)
          (j.blockLen (b * defaultBlockSize))
        ret := j.blockLen (b * defaultBlockSize) } := by
  rw [hashBlock, if_neg (Bool.eq_false_iff.mp hbuf)]
  exact storageHash_of_not_fails (blockLen_pos hb) (blockLen_lt _) (block_end_le hb) hf

theorem hashBlock_of_fails (hb : b < j.blocksInPiece) (hbuf : j.buffered b = false)
    (hf : j.BlockFails b) : ∃ m g, (j.hashBlock c b r).hashed =
        r.hashed ++ bytesFrom c.storage (j.start + b * defaultBlockSize) m ++ g ∧
      (j.hashBlock c b r).ec ≠ none ∧ m < j.blockLen (b * defaultBlockSize) ∧ (g = [] ∨ 0 ∈ g) ∧
      ((j.hashBlock c b r).ret = 0 ↔ ¬ j.BlockBegins b) := by
  rw [hashBlock, if_neg (Bool.eq_false_iff.mp hbuf)]
  obtain ⟨m, g, hhashed, hec, hret, hm, hg, hzero⟩ :=
    storageHash_of_fails (blockLen_pos hb) (blockLen_lt _) (block_end_le hb) hf
  refine ⟨m, g, hhashed, hec, hm, hg, ?_⟩
  rw [hret, hzero, BlockBegins, Nat.pos_iff_ne_zero, not_not]
  rfl

/-- A block that fails at once begins with nothing. -/
theorem blockFails_of_not_begins (hb : b < j.blocksInPiece) (h : ¬ j.BlockBegins b) : j.BlockFails b :=
  .call (blockLen_pos hb) (Nat.eq_zero_of_not_pos h)

/-! ### The error at the end -/

/-- Whether the error is clear after `m` blocks from `b` on, if `clear` says that it was before. -/
def EndsClear (j : HashJob fs) : ℕ → ℕ → Prop → Prop
  | 0, _, clear => clear
  | m + 1, b, clear =>
    if j.buffered b then EndsClear j m (b + 1) clear
    else j.BlockBegins b ∧ EndsClear j m (b + 1) (¬ j.BlockFails b)

theorem hashBlocks_ec (h : b + m ≤ j.blocksInPiece) :
    (j.hashBlocks c m b r).ec = none ↔ j.EndsClear m b (r.ec = none) := by
  induction m generalizing b r with
  | zero => rfl
  | succ m ih =>
    have hb : b < j.blocksInPiece := by omega
    have hpos := blockLen_pos hb
    rw [hashBlocks, EndsClear]
    cases hbuf : j.buffered b with
    | true =>
      rw [hashBlock_buffered hbuf, if_neg hpos.ne', if_pos rfl]
      exact ih (by omega)
    | false =>
      rw [if_neg Bool.false_ne_true]
      by_cases hf : j.BlockFails b
      · obtain ⟨k, g, -, hec, -, -, hret⟩ := hashBlock_of_fails (c := c) (r := r) hb hbuf hf
        by_cases hbegins : j.BlockBegins b
        · rw [if_neg fun hzero => hret.mp hzero hbegins, ih (by omega)]
          simp [hbegins, hf, hec]
        · rw [if_pos (hret.mpr hbegins)]
          simp [hbegins, hec]
      · have hbegins : j.BlockBegins b := not_not.mp fun hno => hf (blockFails_of_not_begins hb hno)
        rw [hashBlock_of_not_fails hb hbuf hf, if_neg hpos.ne', ih (by omega)]
        simp [hbegins, hf]

/-- The error is clear when every block that is read begins, and the last of them does not fail. -/
theorem endsClear_iff {clear : Prop} : j.EndsClear m b clear ↔
    (∀ x, b ≤ x → x < b + m → j.buffered x = false → j.BlockBegins x) ∧
    ((∃ l, b ≤ l ∧ l < b + m ∧ j.buffered l = false ∧ ¬ j.BlockFails l ∧
        ∀ x, l < x → x < b + m → j.buffered x = true) ∨
      clear ∧ ∀ x, b ≤ x → x < b + m → j.buffered x = true) := by
  induction m generalizing b clear with
  | zero =>
    simp only [EndsClear]
    constructor
    · exact fun h => ⟨fun x _ _ => by omega, .inr ⟨h, fun x _ _ => by omega⟩⟩
    · rintro ⟨-, ⟨l, _, _, -⟩ | ⟨h, -⟩⟩
      · omega
      · exact h
  | succ m ih =>
    -- every block from `b` on is `b` or later
    have hfrom : ∀ P : ℕ → Prop, (∀ x, b ≤ x → x < b + (m + 1) → P x) ↔
        P b ∧ ∀ x, b + 1 ≤ x → x < b + 1 + m → P x := by
      intro P
      constructor
      · exact fun h => ⟨h b le_rfl (by omega), fun x h1 h2 => h x (by omega) (by omega)⟩
      · rintro ⟨hb, h⟩ x h1 h2
        rcases Nat.eq_or_lt_of_le h1 with rfl | hlt
        · exact hb
        · exact h x hlt (by omega)
    have hsum : b + 1 + m = b + (m + 1) := by omega
    rw [EndsClear, hfrom, hfrom]
    cases hbuf : j.buffered b with
    | true =>
      rw [if_pos rfl, ih]
      constructor
      · rintro ⟨hbegins, hlast⟩
        refine ⟨⟨by simp, hbegins⟩, hlast.imp ?_ fun h => ⟨h.1, rfl, h.2⟩⟩
        rintro ⟨l, hl, hlt, h⟩
        exact ⟨l, by omega, by omega, by rw [← hsum]; exact h⟩
      · rintro ⟨⟨-, hbegins⟩, hlast⟩
        refine ⟨hbegins, hlast.imp ?_ fun h => ⟨h.1, h.2.2⟩⟩
        rintro ⟨l, hl, hlt, hlbuf, h⟩
        have hne : l ≠ b := by
          rintro rfl
          rw [hbuf] at hlbuf
          cases hlbuf
        exact ⟨l, by omega, by omega, hlbuf, by rw [hsum]; exact h⟩
    | false =>
      rw [if_neg Bool.false_ne_true, ih]
      constructor
      · rintro ⟨hb, hbegins, hlast⟩
        refine ⟨⟨fun _ => hb, hbegins⟩, .inl ?_⟩
        rcases hlast with ⟨l, hl, hlt, h⟩ | ⟨hok, hlater⟩
        · exact ⟨l, by omega, by omega, by rw [← hsum]; exact h⟩
        · exact ⟨b, le_rfl, by omega, hbuf, hok, fun x h1 h2 => hlater x h1 (by omega)⟩
      · rintro ⟨⟨hb, hbegins⟩, hlast⟩
        refine ⟨hb rfl, hbegins, ?_⟩
        rcases hlast with ⟨l, hl, hlt, hlbuf, hok, hlater⟩ | ⟨-, hno, -⟩
        · rcases Nat.eq_or_lt_of_le hl with rfl | hlt'
          · exact .inr ⟨hok, fun x h1 h2 => hlater x h1 (by omega)⟩
          · exact .inl ⟨l, hlt', by omega, hlbuf, hok, by rw [hsum]; exact hlater⟩
        · cases hno

/-! ### The bytes hashed -/

/-- Bytes of the piece from an offset on. -/
def wanted (j : HashJob fs) (c : Contents) (offset n : ℕ) : List UInt8 :=
  (List.range n).map fun k => if j.buffered ((offset + k) / defaultBlockSize) then
    c.buffer (j.start + (offset + k)) else c.storage (j.start + (offset + k))

theorem wanted_add (offset m n : ℕ) :
    j.wanted c offset (m + n) = j.wanted c offset m ++ j.wanted c (offset + m) n := by
  simp only [wanted, List.range_add, List.map_append, List.map_map]
  congr 1
  exact List.map_congr_left fun k _ => by simp [Nat.add_assoc]

theorem pieceBytes_eq : j.pieceBytes c = j.wanted c 0 j.pieceSize := by simp [pieceBytes, wanted]

/-- The bytes of one block. -/
theorem wanted_block (b : ℕ) : j.wanted c (b * defaultBlockSize) (j.blockLen (b * defaultBlockSize)) =
    bytesFrom (if j.buffered b then c.buffer else c.storage) (j.start + b * defaultBlockSize)
      (j.blockLen (b * defaultBlockSize)) := by
  refine List.map_congr_left fun k hk => ?_
  have hk : k < defaultBlockSize := (List.mem_range.mp hk).trans_le (min_le_left _ _)
  have hdiv : (b * defaultBlockSize + k) / defaultBlockSize = b := by
    rw [defaultBlockSize] at hk ⊢
    omega
  rw [hdiv, Nat.add_assoc]
  split <;> rfl

/-- The offset of a block, or the end of the piece. -/
def offsetOf (j : HashJob fs) (b : ℕ) : ℕ := min (b * defaultBlockSize) j.pieceSize

theorem offsetOf_eq (hb : b < j.blocksInPiece) : j.offsetOf b = b * defaultBlockSize := by
  rw [blocksInPiece, defaultBlockSize] at hb
  rw [offsetOf, defaultBlockSize]
  omega

theorem offsetOf_blocks : j.offsetOf j.blocksInPiece = j.pieceSize := by
  rw [offsetOf, blocksInPiece, defaultBlockSize]
  omega

theorem offsetOf_succ (b : ℕ) :
    j.offsetOf (b + 1) = j.offsetOf b + j.blockLen (b * defaultBlockSize) := by
  rw [offsetOf, offsetOf, blockLen, defaultBlockSize]
  omega

/-- When no block fails, the bytes of the piece are hashed. -/
theorem hashBlocks_hashed (h : b + m = j.blocksInPiece)
    (hok : ∀ x, b ≤ x → x < b + m → j.buffered x = false → ¬ j.BlockFails x) :
    (j.hashBlocks c m b r).hashed =
      r.hashed ++ j.wanted c (j.offsetOf b) (j.pieceSize - j.offsetOf b) := by
  induction m generalizing b r with
  | zero =>
    obtain rfl : b = j.blocksInPiece := h
    rw [offsetOf_blocks, Nat.sub_self]
    exact (List.append_nil _).symm
  | succ m ih =>
    have hb : b < j.blocksInPiece := by omega
    have hpos := blockLen_pos hb
    have hsucc := offsetOf_succ (j := j) b
    have hblock : (j.hashBlock c b r).ret ≠ 0 ∧ (j.hashBlock c b r).hashed =
        r.hashed ++ j.wanted c (j.offsetOf b) (j.blockLen (b * defaultBlockSize)) := by
      rw [offsetOf_eq hb, wanted_block]
      cases hbuf : j.buffered b with
      | true =>
        rw [hashBlock_buffered hbuf]
        exact ⟨hpos.ne', rfl⟩
      | false =>
        rw [hashBlock_of_not_fails hb hbuf (hok b le_rfl (by omega) hbuf)]
        exact ⟨hpos.ne', rfl⟩
    have hle : j.offsetOf (b + 1) ≤ j.pieceSize := min_le_right _ _
    have hsum : j.pieceSize - j.offsetOf b = j.blockLen (b * defaultBlockSize) +
        (j.pieceSize - j.offsetOf (b + 1)) := by omega
    rw [hashBlocks, if_neg hblock.1, ih (by omega) (fun x h1 h2 => hok x (by omega) (by omega)),
      hblock.2, hsum, wanted_add, ← hsucc, List.append_assoc]

/-- Bytes are missing, or a zero has been hashed. -/
def Short (h : List UInt8) (n : ℕ) : Prop := 0 ∈ h ∨ h.length < n

theorem Short.append (hs : Short h n) : Short (h ++ h') (n + h'.length) := by
  refine hs.imp (List.mem_append_left _) fun hlt => ?_
  rw [List.length_append]
  exact Nat.add_lt_add_right hlt _

/-- A failed block leaves something out. -/
theorem hashBlocks_short (h : b + m = j.blocksInPiece)
    (hbegins : ∀ x, b ≤ x → x < b + m → j.buffered x = false → j.BlockBegins x)
    (hupto : Short r.hashed (j.offsetOf b + 1))
    (hshort : Short r.hashed (j.offsetOf b) ∨
      ∃ x, b ≤ x ∧ x < b + m ∧ j.buffered x = false ∧ j.BlockFails x) :
    Short (j.hashBlocks c m b r).hashed j.pieceSize := by
  induction m generalizing b r with
  | zero =>
    obtain rfl : b = j.blocksInPiece := h
    rcases hshort with hshort | ⟨x, h1, h2, -⟩
    · exact offsetOf_blocks ▸ hshort
    · omega
  | succ m ih =>
    have hb : b < j.blocksInPiece := by omega
    have hpos := blockLen_pos hb
    have hsucc := offsetOf_succ (j := j) b
    have hrest : ∀ x, b + 1 ≤ x → x < b + 1 + m → j.buffered x = false → j.BlockBegins x :=
      fun x h1 h2 => hbegins x (by omega) (by omega)
    rw [hashBlocks]
    by_cases hf : j.buffered b = false ∧ j.BlockFails b
    · obtain ⟨k, g, hhashed, -, hk, hg, hret⟩ := hashBlock_of_fails (c := c) (r := r) hb hf.1 hf.2
      rw [if_neg fun hzero => hret.mp hzero (hbegins b le_rfl (by omega) hf.1)]
      have hblock : Short (j.hashBlock c b r).hashed (j.offsetOf (b + 1)) := by
        rw [hhashed, hsucc]
        rcases hg with rfl | hg
        · rw [List.append_nil]
          refine hupto.imp (List.mem_append_left _) fun hlt => ?_
          rw [List.length_append, length_bytesFrom]
          omega
        · exact .inl (List.mem_append_right _ hg)
      exact ih (by omega) hrest (hblock.imp_right (Nat.lt_succ_of_lt)) (.inl hblock)
    · -- the block is read whole
      have hblock : (j.hashBlock c b r).ret ≠ 0 ∧ ∃ x : List UInt8,
          (j.hashBlock c b r).hashed = r.hashed ++ x ∧ x.length = j.blockLen (b * defaultBlockSize) := by
        cases hbuf : j.buffered b with
        | true =>
          rw [hashBlock_buffered hbuf]
          exact ⟨hpos.ne', _, rfl, length_bytesFrom⟩
        | false =>
          rw [hashBlock_of_not_fails hb hbuf fun h => hf ⟨hbuf, h⟩]
          exact ⟨hpos.ne', _, rfl, length_bytesFrom⟩
      obtain ⟨hret, x, hhashed, hx⟩ := hblock
      rw [if_neg hret]
      refine ih (by omega) hrest ?_ ?_
      · rw [hhashed, hsucc, ← hx, Nat.add_right_comm]
        exact hupto.append
      · rcases hshort with hshort | ⟨y, h1, h2, hbuf, hfails⟩
        · refine .inl ?_
          rw [hhashed, hsucc, ← hx]
          exact hshort.append
        · refine .inr ⟨y, ?_, by omega, hbuf, hfails⟩
          rcases Nat.eq_or_lt_of_le h1 with rfl | hlt
          · exact absurd ⟨hbuf, hfails⟩ hf
          · exact hlt

/-! ### The job -/

/-- When the job ends without an error. -/
theorem doHash_ec : (j.doHash c).ec = none ↔
    (∀ b < j.blocksInPiece, j.buffered b = false → j.BlockBegins b) ∧
    ((∃ l < j.blocksInPiece, j.buffered l = false ∧ ¬ j.BlockFails l ∧
        ∀ b, l < b → b < j.blocksInPiece → j.buffered b = true) ∨
      ∀ b < j.blocksInPiece, j.buffered b = true) := by
  rw [doHash, hashBlocks_ec (by omega), endsClear_iff]
  simp only [Nat.zero_le, Nat.zero_add, true_and, forall_const]

/-- When an error is lost, some content of the piece is not what has been hashed. -/
theorem exists_of_errorLost (h : j.ErrorLost) :
    ∃ c : Contents, (j.doHash c).ec = none ∧ (j.doHash c).hashed ≠ j.pieceBytes c := by
  refine ⟨⟨fun _ => 1, fun _ => 1⟩, doHash_ec.mpr ⟨h.begins, .inl h.last⟩, ?_⟩
  obtain ⟨b, hb, hbuf, hfails⟩ := h.fails
  have hshort := hashBlocks_short (c := ⟨fun _ => 1, fun _ => 1⟩) (r := { hashed := [] })
    (Nat.zero_add j.blocksInPiece) (fun x _ hx => h.begins x (by omega)) (.inr (Nat.succ_pos _))
    (.inr ⟨b, Nat.zero_le b, by omega, hbuf, hfails⟩)
  intro heq
  rw [← doHash, heq] at hshort
  rcases hshort with hzero | hlen
  · obtain ⟨k, -, hk⟩ := List.mem_map.mp hzero
    split at hk <;> cases hk
  · simp [pieceBytes] at hlen

/-- A job that ends without an error has hashed the bytes of the piece, whatever they are, exactly
when no error is lost. -/
theorem doHash_exact_iff (j : HashJob fs) :
    (∀ c : Contents, (j.doHash c).ec = none → (j.doHash c).hashed = j.pieceBytes c) ↔
      ¬ j.ErrorLost := by
  constructor
  · intro h hlost
    obtain ⟨c, hec, hne⟩ := exists_of_errorLost hlost
    exact hne (h c hec)
  · intro hlost c hec
    obtain ⟨hbegins, hlast⟩ := doHash_ec.mp hec
    have hok : ∀ x, 0 ≤ x → x < 0 + j.blocksInPiece → j.buffered x = false → ¬ j.BlockFails x := by
      intro x _ hx hbuf hfails
      have hx : x < j.blocksInPiece := by omega
      rcases hlast with hlast | hall
      · exact hlost ⟨⟨x, hx, hbuf, hfails⟩, hbegins, hlast⟩
      · rw [hall x hx] at hbuf
        cases hbuf
    have hzero : j.offsetOf 0 = 0 := by simp [offsetOf]
    have hhashed := hashBlocks_hashed (c := c) (r := { hashed := [] }) (Nat.zero_add j.blocksInPiece) hok
    rw [pieceBytes_eq, doHash, hhashed, hzero, Nat.sub_zero, List.nil_append]

/-- A piece of two blocks. The first block begins in a file of one byte, and the file after it can't be
opened; when the second block is read, it can. -/
def lostJob : HashJob ⟨[1, 0x7FFF], 0x8000, by decide⟩ where
  piece := 0
  buffered _ := false
  inPartfile _ := false
  calls b k := if b = 0 ∧ k = 1 then { file := .openFailed } else {}
  piece_lt := by decide

theorem errorLost_lostJob : lostJob.ErrorLost where
  fails := ⟨0, by decide, rfl, .later (by decide) (.call (by decide) (by decide))⟩
  begins := by
    intro b hb _
    have hb : b < 2 := hb
    interval_cases b <;> (rw [BlockBegins]; decide)
  last := by
    refine ⟨1, by decide, rfl, ?_, ?_⟩
    · intro hf
      cases hf with
      | call hleft h => exact absurd h (by decide)
      | later h hrest =>
        cases hrest with
        | call hleft h => exact absurd hleft (by decide)
        | later h hrest => exact absurd h (by decide)
    · intro b h1 h2
      have h2 : b < 2 := h2
      omega

theorem doHash_not_exact : ¬ ∀ (fs : FileStorage) (j : HashJob fs) (c : Contents),
    (j.doHash c).ec = none → (j.doHash c).hashed = j.pieceBytes c := by
  intro h
  obtain ⟨c, hec, hne⟩ := exists_of_errorLost errorLost_lostJob
  exact hne (h _ lostJob c hec)

end HashJob

end Mmap

end Disk

end LibtorrentSN
