import LibtorrentSN.Torrent.MapBlock

/-!
# Reading and writing the slices of a block

`readwrite` (`src/storage_utils.cpp`) walks over the files itself while it hands the parts of a buffer to a file
operation, and is to ask for what `map_block` returns. An operation that transfers nothing is to end the walk, but the
loop only sets the error and asks once more.
-/

namespace LibtorrentSN

namespace Disk

open Torrent (FileStorage FileSlice)

namespace ReadWrite

/-- `error_code`, as far as it matters here. -/
inductive ErrorCode
  | eof
  | other (value : ℕ)
  deriving DecidableEq

inductive Operation
  | fileOpen
  | fileRead
  | partfileRead
  | other (value : ℕ)
  deriving DecidableEq

structure StorageError where
  ec : ErrorCode
  file : ℕ
  operation : Operation
  deriving DecidableEq

/-- What the operation answers: how many bytes it transferred, or the error that it set. -/
abbrev Answer := Except (ErrorCode × Operation) ℕ

/-- `fileop`: the answer to the call with this number, which sees the error that is set. It transfers at most what it
is asked for. -/
structure FileOp where
  answer : ℕ → Option StorageError → FileSlice → Answer
  le : ∀ k ec f n, answer k ec f = .ok n → n ≤ f.size.toNat

/-- A call, the error that was set when it was made, and its answer. -/
structure Call where
  request : FileSlice
  ec : Option StorageError
  answer : Answer

/-- The variables of the loop, and the calls that were made. -/
structure Loop where
  -- `buf.size()`
  size : ℕ
  fileIndex : ℕ
  fileOffset : ℕ
  ret : ℕ := 0
  ec : Option StorageError := none
  calls : List Call := []

/-- `int(n)` -/
def toInt (n : ℤ) : ℤ := n.bmod (2 ^ 32)

/-- The number of bytes left in the current file. -/
def fileBytesLeft (fs : FileStorage) (size fileIndex fileOffset : ℕ) : ℤ :=
  let left := toInt size
  if (fs.fileSize fileIndex : ℤ) < fileOffset + left then max (toInt (fs.fileSize fileIndex - fileOffset)) 0 else left

/-- The next file that is not empty, from the one with index `i` on. -/
def nextFile (i : ℕ) : List ℕ → Option ℕ
  | [] => none
  | n :: files => if n = 0 then nextFile (i + 1) files else some i

/-- A turn of the loop goes on, returns, or has no meaning: the part of the buffer would be of a negative length. -/
inductive Turn
  | more (s : Loop)
  | done (s : Loop)
  | undefined

/-- The call, and what becomes of its answer. -/
def transfer (op : FileOp) (s : Loop) (fileBytesLeft : ℤ) : Turn :=
  if fileBytesLeft < 0 then .undefined
  else
    let request : FileSlice := ⟨s.fileIndex, s.fileOffset, fileBytesLeft⟩
    let answer := op.answer s.calls.length s.ec request
    let call : Call := ⟨request, s.ec, answer⟩
    let s := { s with calls := s.calls ++ [call] }
    match answer with
    | .error e => .done { s with ec := some ⟨e.1, s.fileIndex, e.2⟩ }
    | .ok n =>
      match s.ec with
      | some ec => .done { s with ec := some { ec with file := s.fileIndex } }
      | none =>
        let s := { s with size := s.size - n, fileOffset := s.fileOffset + n, ret := s.ret + n }
        -- the end of the file, but the loop goes on
        .more (if n = 0 ∧ 0 < fileBytesLeft then { s with ec := some ⟨.eof, s.fileIndex, .fileRead⟩ } else s)

/-- One turn of the loop. -/
def turn (fs : FileStorage) (op : FileOp) (s : Loop) : Turn :=
  let left := fileBytesLeft fs s.size s.fileIndex s.fileOffset
  if left = 0 then
    match nextFile (s.fileIndex + 1) (fs.sizes.drop (s.fileIndex + 1)) with
    | none => .done s
    | some i => transfer op { s with fileIndex := i, fileOffset := 0 } (fileBytesLeft fs s.size i 0)
  else transfer op s left

/-- After a turn the loop goes on with `next`, or ends. -/
def Turn.run (next : Loop → Option Loop) : Turn → Option Loop
  | .more s => next s
  | .done s => some s
  | .undefined => none

/-- The loop, which ends when the buffer is full. -/
def loop (fs : FileStorage) (op : FileOp) : ℕ → Loop → Option Loop
  | 0 => fun _ => none
  | fuel + 1 => fun s => if s.size = 0 then some s else (turn fs op s).run (loop fs op fuel)

theorem loop_succ (fs : FileStorage) (op : FileOp) (fuel : ℕ) (s : Loop) :
    loop fs op (fuel + 1) s = if s.size = 0 then some s else (turn fs op s).run (loop fs op fuel) := rfl

/-- The file that the walk begins in, and the position in it. -/
def start (fs : FileStorage) (piece offset size : ℕ) : Loop :=
  let torrentOffset := piece * fs.pieceLength + offset
  let fileIndex := fs.fileIndexAtOffset torrentOffset
  { size, fileIndex, fileOffset := torrentOffset - fs.fileOffset fileIndex }

/-- `readwrite`, with a buffer of `size` bytes. -/
def readwrite (fs : FileStorage) (piece offset size : ℕ) (op : FileOp) : Option Loop :=
  loop fs op (size + fs.numFiles + 2) (start fs piece offset size)

/-! ## What the calls are to be -/

/-- The bytes that a call transferred. -/
def Call.transferred (c : Call) : ℕ :=
  match c.answer with
  | .ok n => n
  | .error _ => 0

/-- The error that ends the walk: the one of the operation, or the end of the file where nothing is transferred. -/
def Call.failure (c : Call) : Option (ErrorCode × ℕ) :=
  match c.answer with
  | .ok n => if n = 0 then some (.eof, c.request.fileIndex) else none
  | .error e => some (e.1, c.request.fileIndex)

/-- What is left of the slices after `n` bytes of the first one. -/
def advance (f : FileSlice) (slices : List FileSlice) (n : ℕ) : List FileSlice :=
  if f.size = n then slices else ⟨f.fileIndex, f.offset + n, f.size - n⟩ :: slices

/-- Each call asks for what is left of the slice that it is at. -/
def Follows : List FileSlice → List Call → Prop
  | _, [] => True
  | [], _ :: _ => False
  | f :: slices, c :: calls => c.request = f ∧ Follows (advance f slices c.transferred) calls

def firstFailure (calls : List Call) : Option (ErrorCode × ℕ) := calls.findSome? Call.failure

/-- The bytes that were transferred before the first error. -/
def bytesBefore (calls : List Call) : ℕ :=
  ((calls.takeWhile fun c => c.failure.isNone).map Call.transferred).sum

/-- The calls are those that the slices ask for, and what they transferred before the first error is counted. -/
structure Performs (slices : List FileSlice) (size : ℕ) (calls : List Call) (ret : ℕ) : Prop where
  follows : Follows slices calls
  ret : ret = bytesBefore calls
  complete : firstFailure calls = none → bytesBefore calls = size
  exact : (∀ c ∈ calls, (c.transferred : ℤ) = c.request.size) → calls.map Call.request = slices

/-- `readwrite` ends, performs the slices of `map_block`, and reports the first error with its file. -/
def PerformsSlices (fs : FileStorage) (piece offset size : ℕ) (op : FileOp) : Prop :=
  ∃ slices r, fs.mapBlock piece offset size = some slices ∧ readwrite fs piece offset size op = some r ∧
    Performs slices size r.calls r.ret ∧ r.ec.map (fun e => (e.ec, e.file)) = firstFailure r.calls

/-- The transfers of an operation along slices, from the call with number `k` on. -/
inductive Transfers (op : FileOp) : ℕ → List FileSlice → ℕ → List FileSlice → Prop
  | refl (k : ℕ) (slices : List FileSlice) : Transfers op k slices k slices
  | step {k n k' : ℕ} {f : FileSlice} {slices slices' : List FileSlice} (h : op.answer k none f = .ok n) (hn : 0 < n)
      (hrest : Transfers op (k + 1) (advance f slices n) k' slices') : Transfers op k (f :: slices) k' slices'

/-- An operation that has transferred nothing does not fail in another way when it is asked once more. -/
def EndsWithEof (op : FileOp) (k : ℕ) (slices : List FileSlice) : Prop :=
  ∀ k' f rest, Transfers op k slices k' (f :: rest) → op.answer k' none f = .ok 0 →
    ∀ e, op.answer (k' + 1) (some ⟨.eof, f.fileIndex, .fileRead⟩) f = .error e → e.1 = .eof

/-! ## The walk over the files -/

section Walk
variable {fs : FileStorage} {op : FileOp} {s r : Loop} {f : FileSlice} {slices rest : List FileSlice}

/-- Below 2 GiB nothing is cut off. -/
theorem toInt_of_lt {n : ℤ} (h : 0 ≤ n) (hn : n < 2 ^ 31) : toInt n = n := by
  rw [toInt, Int.bmod_eq_of_le] <;> omega

/-- Below 2 GiB, what is left of the file is what is left of the slice. -/
theorem fileBytesLeft_eq {size i off : ℕ} (hsize : size < 2 ^ 31) (hoff : off ≤ fs.fileSize i) :
    fileBytesLeft fs size i off = min ((fs.fileSize i : ℤ) - off) size := by
  rw [fileBytesLeft, toInt_of_lt (Int.natCast_nonneg size) (by omega)]
  split
  next h => rw [toInt_of_lt (by omega) (by omega)]; omega
  next h => omega

/-- The slices that are left at the position of the loop. -/
structure At (fs : FileStorage) (s : Loop) (slices : List FileSlice) : Prop where
  offset_le : s.fileOffset ≤ fs.fileSize s.fileIndex
  slices : FileStorage.sliceFiles s.fileIndex s.size s.fileOffset (fs.sizes.drop s.fileIndex) = some slices

/-- The slice at a position inside a file, and what is left after a part of it. -/
theorem slice_cons {i size off : ℕ} (hi : i < fs.numFiles) (hsize : 0 < size) (hoff : off < fs.fileSize i)
    (h : FileStorage.sliceFiles i size off (fs.sizes.drop i) = some slices) :
    ∃ rest, slices = ⟨i, off, min ((fs.fileSize i : ℤ) - off) size⟩ :: rest ∧
      ∀ n : ℕ, (n : ℤ) ≤ min ((fs.fileSize i : ℤ) - off) size →
        FileStorage.sliceFiles i (size - n : ℕ) (off + n : ℕ) (fs.sizes.drop i) =
          some (advance ⟨i, off, min ((fs.fileSize i : ℤ) - off) size⟩ rest n) := by
  have hdrop := List.drop_eq_getElem_cons hi
  have hget : fs.sizes[i] = fs.fileSize i := by
    rw [FileStorage.fileSize, List.getD_eq_getElem _ _ hi]
  rw [hget] at hdrop
  rw [hdrop] at h ⊢
  rw [FileStorage.sliceFiles, if_pos (by omega), if_pos (by omega)] at h
  obtain ⟨rest, hrest, rfl⟩ := Option.map_eq_some_iff.mp h
  refine ⟨rest, rfl, fun n hn => ?_⟩
  dsimp only at hrest
  rw [FileStorage.sliceFiles, advance]
  dsimp only
  split
  next hpos =>
    split
    next hin =>
      -- a part of the slice
      have hmin : min ((fs.fileSize i : ℤ) - (off + n : ℕ)) (size - n : ℕ) =
          min ((fs.fileSize i : ℤ) - off) size - n := by omega
      have hsize' : ((size - n : ℕ) : ℤ) - (min ((fs.fileSize i : ℤ) - off) size - n) =
          size - min ((fs.fileSize i : ℤ) - off) size := by omega
      have hoff' : ((off + n : ℕ) : ℤ) + (min ((fs.fileSize i : ℤ) - off) size - n) - fs.fileSize i =
          off + min ((fs.fileSize i : ℤ) - off) size - fs.fileSize i := by omega
      rw [hmin, hsize', hoff', hrest, if_neg (by omega)]
      rfl
    next hin =>
      -- the rest of the file
      have hsize' : ((size - n : ℕ) : ℤ) = size - min ((fs.fileSize i : ℤ) - off) size := by omega
      have hoff' : ((off + n : ℕ) : ℤ) - fs.fileSize i =
          off + min ((fs.fileSize i : ℤ) - off) size - fs.fileSize i := by omega
      rw [hsize', hoff', hrest, if_pos (by omega)]
  next hpos =>
    -- the rest of the buffer
    have hzero : (size : ℤ) - min ((fs.fileSize i : ℤ) - off) size = 0 := by omega
    rw [hzero, FileStorage.sliceFiles_zero] at hrest
    rw [if_pos (by omega), ← hrest]

/-- The files without bytes are passed over. -/
theorem nextFile_slices {i size : ℕ} {files : List ℕ} (hfiles : fs.sizes.drop i = files) (hsize : 0 < size)
    (h : FileStorage.sliceFiles i size 0 files = some slices) :
    ∃ j, nextFile i files = some j ∧ j < fs.numFiles ∧ 0 < fs.fileSize j ∧ fs.fileOffset j = fs.fileOffset i ∧
      FileStorage.sliceFiles j size 0 (fs.sizes.drop j) = some slices := by
  induction files generalizing i with
  | nil =>
    rw [FileStorage.sliceFiles, if_pos (by omega)] at h
    cases h
  | cons n files ih =>
    obtain ⟨hn, hi, hdrop⟩ := FileStorage.sizes_drop_eq_cons hfiles
    rw [nextFile]
    by_cases hzero : n = 0
    · rw [if_pos hzero]
      rw [FileStorage.sliceFiles, if_pos (by omega), if_neg (by omega), hzero, Nat.cast_zero, sub_zero] at h
      obtain ⟨j, hj, hlt, hpos, hoff, hslices⟩ := ih hdrop h
      exact ⟨j, hj, hlt, hpos, by rw [hoff, fs.fileOffset_succ]; omega, hslices⟩
    · rw [if_neg hzero]
      exact ⟨i, rfl, hi, by omega, rfl, by rwa [hfiles]⟩

/-- The files that end before the position are passed over. -/
theorem sliceFiles_skip {i j target size : ℕ} (hij : i ≤ j) (hj : fs.fileOffset j ≤ target) (hsize : 0 < size) :
    FileStorage.sliceFiles i size ((target : ℤ) - fs.fileOffset i) (fs.sizes.drop i) =
      FileStorage.sliceFiles j size ((target : ℤ) - fs.fileOffset j) (fs.sizes.drop j) := by
  induction j, hij using Nat.le_induction with
  | base => rfl
  | succ j hij ih =>
    have hnext := fs.fileOffset_succ j
    rw [ih (by omega)]
    rcases Nat.lt_or_ge j fs.numFiles with hlt | hge
    · have hget : fs.sizes[j] = fs.fileSize j := by
        rw [FileStorage.fileSize, List.getD_eq_getElem _ _ hlt]
      have hoff : (target : ℤ) - fs.fileOffset j - fs.fileSize j = target - fs.fileOffset (j + 1) := by omega
      rw [List.drop_eq_getElem_cons hlt, FileStorage.sliceFiles, if_pos (by omega), hget, if_neg (by omega), hoff]
    · rw [List.drop_of_length_le hge, List.drop_of_length_le (Nat.le_succ_of_le hge)]
      rfl

/-- A request of the loop: in the file that has the next byte, as much as there is of it. -/
structure Asks (fs : FileStorage) (s : Loop) (f : FileSlice) (off : ℕ) : Prop where
  offset : f.offset = off
  pos : fs.fileOffset f.fileIndex + off = fs.fileOffset s.fileIndex + s.fileOffset
  lt : off < fs.fileSize f.fileIndex
  size : f.size = min ((fs.fileSize f.fileIndex : ℤ) - off) s.size

theorem Asks.size_pos {off : ℕ} (h : Asks fs s f off) (hpos : 0 < s.size) : 0 < f.size := by
  have := h.lt
  rw [h.size]
  omega

theorem Asks.size_le {off : ℕ} (h : Asks fs s f off) : f.size ≤ s.size := by
  rw [h.size]
  exact min_le_right _ _

/-- A turn asks for the first of the slices that are left. -/
theorem turn_eq (op : FileOp) (h : At fs s slices) (hpos : 0 < s.size) (hsize : s.size < 2 ^ 31) :
    ∃ (f : FileSlice) (rest : List FileSlice) (off : ℕ), slices = f :: rest ∧ Asks fs s f off ∧
      turn fs op s = transfer op { s with fileIndex := f.fileIndex, fileOffset := off } f.size ∧
      ∀ n : ℕ, (n : ℤ) ≤ f.size → ∀ s' : Loop, s'.size = s.size - n → s'.fileIndex = f.fileIndex →
        s'.fileOffset = off + n → At fs s' (advance f rest n) := by
  obtain ⟨hoff, hslices⟩ := h
  rw [turn, fileBytesLeft_eq hsize hoff]
  by_cases hend : s.fileOffset = fs.fileSize s.fileIndex
  · -- the file ends here
    have hzero : min ((fs.fileSize s.fileIndex : ℤ) - s.fileOffset) s.size = 0 := by omega
    rw [if_pos hzero]
    obtain ⟨j, hnext, hj, hjpos, hjoff, hslices⟩ : ∃ j,
        nextFile (s.fileIndex + 1) (fs.sizes.drop (s.fileIndex + 1)) = some j ∧ j < fs.numFiles ∧
          0 < fs.fileSize j ∧ fs.fileOffset j = fs.fileOffset (s.fileIndex + 1) ∧ FileStorage.sliceFiles j s.size 0 (fs.sizes.drop j) = some slices := by
      refine nextFile_slices rfl hpos ?_
      rcases Nat.lt_or_ge s.fileIndex fs.numFiles with hi | hi
      · rw [List.drop_eq_getElem_cons hi, FileStorage.sliceFiles, if_pos (by omega)] at hslices
        have hget : fs.sizes[s.fileIndex] = fs.fileSize s.fileIndex := by
          rw [FileStorage.fileSize, List.getD_eq_getElem _ _ hi]
        rw [hget, if_neg (by omega), hend, sub_self] at hslices
        exact hslices
      · rw [List.drop_of_length_le hi, FileStorage.sliceFiles, if_pos (by omega)] at hslices
        cases hslices
    rw [hnext]
    dsimp only
    rw [fileBytesLeft_eq hsize (Nat.zero_le _)]
    obtain ⟨rest, rfl, hrest⟩ := @slice_cons fs _ j s.size 0 hj hpos hjpos (by exact_mod_cast hslices)
    rw [fs.fileOffset_succ] at hjoff
    refine ⟨_, rest, 0, rfl, ⟨rfl, by dsimp only; omega, hjpos, rfl⟩, rfl, ?_⟩
    rintro n hn s' hs hi ho
    refine ⟨by rw [hi, ho]; dsimp only at hn ⊢; omega, ?_⟩
    rw [hi, hs, ho]
    exact hrest n hn
  · have hlt : s.fileOffset < fs.fileSize s.fileIndex := by omega
    have hi : s.fileIndex < fs.numFiles := by
      by_contra hi
      rw [FileStorage.fileSize, List.getD_eq_default _ _ (not_lt.mp hi)] at hlt
      omega
    rw [if_neg (by omega)]
    obtain ⟨rest, rfl, hrest⟩ := slice_cons hi hpos hlt hslices
    refine ⟨_, rest, s.fileOffset, rfl, ⟨rfl, rfl, hlt, rfl⟩, rfl, ?_⟩
    rintro n hn s' hs hi ho
    refine ⟨by rw [hi, ho]; dsimp only at hn ⊢; omega, ?_⟩
    rw [hi, hs, ho]
    exact hrest n hn

theorem firstFailure_error (f : FileSlice) (e : ErrorCode × Operation) (calls : List Call) :
    firstFailure (⟨f, none, .error e⟩ :: calls) = some (e.1, f.fileIndex) := rfl

theorem firstFailure_zero (f : FileSlice) (calls : List Call) :
    firstFailure (⟨f, none, .ok 0⟩ :: calls) = some (.eof, f.fileIndex) := rfl

theorem failure_pos (f : FileSlice) {n : ℕ} (hn : 0 < n) : Call.failure ⟨f, none, .ok n⟩ = none := if_neg hn.ne'

theorem firstFailure_pos (f : FileSlice) {n : ℕ} (hn : 0 < n) (calls : List Call) :
    firstFailure (⟨f, none, .ok n⟩ :: calls) = firstFailure calls := by
  rw [firstFailure, List.findSome?_cons, failure_pos f hn]
  rfl

theorem bytesBefore_pos (f : FileSlice) {n : ℕ} (hn : 0 < n) (calls : List Call) :
    bytesBefore (⟨f, none, .ok n⟩ :: calls) = n + bytesBefore calls := by
  rw [bytesBefore, List.takeWhile_cons_of_pos (by rw [failure_pos f hn]; rfl), List.map_cons, List.sum_cons]
  rfl

/-- What is performed begins with a call that transfers something. -/
theorem Performs.cons {size n ret : ℕ} {calls : List Call} (h : Performs (advance f rest n) (size - n) calls ret)
    (hn : 0 < n) (hle : n ≤ size) : Performs (f :: rest) size (⟨f, none, .ok n⟩ :: calls) (n + ret) where
  follows := ⟨rfl, h.follows⟩
  ret := by rw [bytesBefore_pos f hn, h.ret]
  complete hnone := by
    rw [firstFailure_pos f hn] at hnone
    rw [bytesBefore_pos f hn, h.complete hnone]
    omega
  exact hfull := by
    obtain ⟨hfirst, hrest⟩ := List.forall_mem_cons.mp hfull
    have hall : f.size = n := hfirst.symm
    have hexact := h.exact hrest
    rw [advance, if_pos hall] at hexact
    rw [List.map_cons, hexact]

/-- What is performed ends with a call that transfers nothing, whatever is called after it. -/
theorem Performs.of_failure {size : ℕ} {c : Call} {calls : List Call} (hpos : 0 < f.size) (hc : c.request = f)
    (hzero : c.transferred = 0) (hfail : c.failure.isNone = false) (hfollows : Follows (f :: rest) calls) :
    Performs (f :: rest) size (c :: calls) 0 where
  follows := by
    refine ⟨hc, ?_⟩
    rwa [hzero, advance, if_neg (by omega), Nat.cast_zero, add_zero, sub_zero]
  ret := by
    rw [bytesBefore, List.takeWhile_cons_of_neg (by rw [hfail]; exact Bool.false_ne_true)]
    rfl
  complete hnone := by
    rw [firstFailure, List.findSome?_cons] at hnone
    cases hfailure : c.failure with
    | none =>
      rw [hfailure] at hfail
      cases hfail
    | some e =>
      rw [hfailure] at hnone
      cases hnone
  exact hfull := by
    have hfirst := hfull c List.mem_cons_self
    rw [hzero, hc] at hfirst
    exact absurd hfirst (by omega)

theorem advance_zero (hpos : 0 < f.size) (rest : List FileSlice) : advance f rest 0 = f :: rest := by
  rw [advance, if_neg (by omega), Nat.cast_zero, add_zero, sub_zero]

theorem endsWithEof_nil (op : FileOp) (k : ℕ) : EndsWithEof op k [] := by
  intro k' f rest h
  cases h

/-- Once nothing is transferred, only the next call matters. -/
theorem endsWithEof_zero {k : ℕ} (h : op.answer k none f = .ok 0) :
    EndsWithEof op k (f :: rest) ↔
      ∀ e, op.answer (k + 1) (some ⟨.eof, f.fileIndex, .fileRead⟩) f = .error e → e.1 = .eof := by
  refine ⟨fun hends => hends k f rest (.refl _ _) h, fun hnext k' f' rest' htransfers h' => ?_⟩
  cases htransfers with
  | refl => exact hnext
  | step hn hpos _ =>
    rw [h] at hn
    cases hn
    omega

theorem endsWithEof_error {k : ℕ} {e : ErrorCode × Operation} (h : op.answer k none f = .error e) :
    EndsWithEof op k (f :: rest) := by
  intro k' f' rest' htransfers h'
  cases htransfers with
  | refl =>
    rw [h] at h'
    cases h'
  | step hn _ _ =>
    rw [h] at hn
    cases hn

theorem endsWithEof_step {k n : ℕ} (h : op.answer k none f = .ok n) (hn : 0 < n) :
    EndsWithEof op k (f :: rest) ↔ EndsWithEof op (k + 1) (advance f rest n) := by
  refine ⟨fun hends k' f' rest' htransfers => hends k' f' rest' (.step h hn htransfers),
    fun hends k' f' rest' htransfers h' => ?_⟩
  cases htransfers with
  | refl =>
    rw [h] at h'
    cases h'
    omega
  | step hm hpos hrest =>
    rw [h] at hm
    cases hm
    exact hends k' f' rest' hrest h'

/-- With an error set, the operation is called once more, and what it transfers is not counted. -/
theorem loop_again {ec : StorageError} (op : FileOp) (h : At fs s (f :: rest)) (hpos : 0 < s.size) (hsize : s.size < 2 ^ 31)
    (hec : s.ec = some ec) (fuel : ℕ) :
    ∃ r, loop fs op (fuel + 1) s = some r ∧
      r.calls = s.calls ++ [⟨f, some ec, op.answer s.calls.length (some ec) f⟩] ∧ r.ret = s.ret ∧
      ((∃ n, op.answer s.calls.length (some ec) f = .ok n ∧ r.ec = some { ec with file := f.fileIndex }) ∨
        ∃ e, op.answer s.calls.length (some ec) f = .error e ∧ r.ec = some ⟨e.1, f.fileIndex, e.2⟩) := by
  obtain ⟨⟨i, offset, left⟩, rest', off, heq, hasks, hturn, -⟩ := turn_eq op h hpos hsize
  obtain ⟨rfl, rfl⟩ := List.cons.inj heq
  have hleft := hasks.size_pos hpos
  obtain rfl : offset = off := hasks.offset
  dsimp only at hleft hturn
  rw [loop_succ, if_neg hpos.ne', hturn, transfer, if_neg (not_lt.mpr hleft.le)]
  dsimp only
  rw [hec]
  cases op.answer s.calls.length (some ec) ⟨i, off, left⟩ with
  | error e => exact ⟨_, rfl, rfl, rfl, .inr ⟨e, rfl, rfl⟩⟩
  | ok n => exact ⟨_, rfl, rfl, rfl, .inl ⟨n, rfl, rfl⟩⟩

/-- The loop performs the slices that are left, and reports the first error unless it is overwritten. -/
theorem loop_spec {fuel : ℕ} (op : FileOp) (h : At fs s slices) (hsize : s.size < 2 ^ 31) (hec : s.ec = none)
    (hfuel : s.size + 2 ≤ fuel) :
    ∃ r calls, loop fs op fuel s = some r ∧ r.calls = s.calls ++ calls ∧
      (∃ ret, r.ret = s.ret + ret ∧ Performs slices s.size calls ret) ∧
      (r.ec.map (fun e => (e.ec, e.file)) = firstFailure calls ↔ EndsWithEof op s.calls.length slices) := by
  induction fuel generalizing s slices with
  | zero => omega
  | succ fuel ih =>
    rw [loop_succ]
    rcases Nat.eq_zero_or_pos s.size with hzero | hpos
    · have hslices := h.slices
      rw [hzero, Nat.cast_zero, FileStorage.sliceFiles_zero] at hslices
      obtain rfl := Option.some.inj hslices
      rw [if_pos hzero]
      refine ⟨s, [], rfl, (List.append_nil _).symm, ⟨0, rfl, trivial, rfl, fun _ => hzero.symm, fun _ => rfl⟩, ?_⟩
      exact iff_of_true (by rw [hec]; rfl) (endsWithEof_nil _ _)
    · rw [if_neg hpos.ne']
      obtain ⟨⟨i, offset, left⟩, rest, off, rfl, hasks, hturn, hnext⟩ := turn_eq op h hpos hsize
      have hleft := hasks.size_pos hpos
      have hle := hasks.size_le
      obtain rfl : offset = off := hasks.offset
      dsimp only at hleft hle hturn hnext
      rw [hturn, transfer, if_neg (not_lt.mpr hleft.le)]
      dsimp only
      rw [hec]
      cases hanswer : op.answer s.calls.length none ⟨i, off, left⟩ with
      | error e =>
        refine ⟨_, [⟨⟨i, off, left⟩, none, .error e⟩], rfl, rfl, ⟨0, rfl, .of_failure hleft rfl rfl rfl trivial⟩, ?_⟩
        rw [firstFailure_error]
        exact iff_of_true rfl (endsWithEof_error hanswer)
      | ok n =>
        have hn : (n : ℤ) ≤ left := by
          have hn := op.le _ _ _ _ hanswer
          dsimp only at hn
          omega
        dsimp only
        rcases Nat.eq_zero_or_pos n with rfl | hnpos
        · -- nothing is transferred, and the operation is called once more
          obtain ⟨fuel, rfl⟩ := Nat.exists_eq_succ_of_ne_zero (show fuel ≠ 0 by omega)
          rw [endsWithEof_zero hanswer, if_pos ⟨rfl, hleft⟩]
          have hat := hnext 0 hn
            { s with
              calls := s.calls ++ [⟨⟨i, off, left⟩, none, .ok 0⟩]
              size := s.size - 0
              fileIndex := i
              fileOffset := off + 0
              ret := s.ret + 0
              ec := some ⟨.eof, i, .fileRead⟩ } rfl rfl rfl
          rw [advance_zero hleft] at hat
          obtain ⟨r, hr, hcalls, hret, hagain⟩ := loop_again op hat hpos hsize rfl fuel
          have hlast (c : Call) : (s.calls ++ [c]).length = s.calls.length + 1 := List.length_append
          dsimp only at hcalls hret hagain
          rw [hlast] at hcalls hagain
          refine ⟨r, [⟨⟨i, off, left⟩, none, .ok 0⟩, ⟨⟨i, off, left⟩, some ⟨.eof, i, .fileRead⟩,
            op.answer (s.calls.length + 1) (some ⟨.eof, i, .fileRead⟩) ⟨i, off, left⟩⟩], hr,
            by rw [hcalls, List.append_assoc]; rfl, ⟨0, hret, .of_failure hleft rfl rfl rfl ⟨rfl, trivial⟩⟩, ?_⟩
          rw [firstFailure_zero]
          rcases hagain with ⟨m, hm, hrec⟩ | ⟨e, he, hrec⟩
          · rw [hm, hrec]
            exact iff_of_true rfl fun e he => by cases he
          · rw [he, hrec]
            simp
        · have hat := hnext n hn
            { s with
              calls := s.calls ++ [⟨⟨i, off, left⟩, none, .ok n⟩]
              size := s.size - n
              fileIndex := i
              fileOffset := off + n
              ret := s.ret + n
              ec := none } rfl rfl rfl
          obtain ⟨r, calls, hr, hcalls, ⟨ret, hret, hperforms⟩, hiff⟩ := ih hat (by dsimp only; omega) rfl
            (by dsimp only; omega)
          rw [if_neg fun hc => hnpos.ne' hc.1]
          refine ⟨r, ⟨⟨i, off, left⟩, none, .ok n⟩ :: calls, hr, ?_, ⟨n + ret, ?_, hperforms.cons hnpos (by omega)⟩, ?_⟩
          · rw [hcalls, List.append_assoc, List.singleton_append]
          · rw [hret, Nat.add_assoc]
          · rw [firstFailure_pos _ hnpos, hiff, endsWithEof_step hanswer hnpos, List.length_append,
              List.length_singleton]

/-- The position of the torrent lies in the file that the loop begins with, and `map_block` begins there too. -/
theorem at_start {piece offset size : ℕ} (hpos : 0 < size)
    (hend : piece * fs.pieceLength + offset + size ≤ fs.totalSize) :
    ∃ slices, fs.mapBlock piece offset size = some slices ∧
      At fs (start fs piece offset size) slices := by
  obtain ⟨slices, hslices, -⟩ := @FileStorage.mapBlock_slices fs piece offset size (by omega)
  refine ⟨slices, hslices, ?_⟩
  rw [FileStorage.mapBlock] at hslices
  unfold start
  dsimp only
  generalize htarget : piece * fs.pieceLength + offset = target at hend hslices ⊢
  obtain ⟨hi, hle, hlt⟩ := @FileStorage.fileIndexAtOffset_spec fs target (by omega)
  have hfirst : fs.upperBound target - 1 ≤ fs.fileIndexAtOffset target := by
    refine Nat.le_findGreatest ?_ (FileStorage.fileOffset_upperBound_le fs target)
    have hle : fs.upperBound target ≤ _ := (List.takeWhile_prefix _).length_le
    rw [List.length_map, List.length_range] at hle
    exact Nat.sub_le_sub_right hle 1
  have hne : fs.sizes ≠ [] := by
    intro hnil
    rw [FileStorage.numFiles, hnil] at hi
    exact absurd hi (Nat.not_lt_zero _)
  rw [if_neg hne] at hslices
  dsimp only at hslices
  rw [if_neg (by omega)] at hslices
  refine ⟨by dsimp only; omega, ?_⟩
  dsimp only
  rw [Nat.cast_sub hle, ← sliceFiles_skip hfirst hle hpos]
  exact hslices

/-- The operation that transfers all it is asked for. -/
def transferAll : FileOp where
  answer _ _ f := .ok f.size.toNat
  le _ _ f n h := by
    cases h
    exact Nat.le_refl _

/-- From 2 GiB on, what is left in the file is counted short of the whole buffer by at least 2 GiB. -/
theorem fileBytesLeft_le {size i off : ℕ} (hsize : 2 ^ 31 ≤ size) (hoff : off ≤ fs.fileSize i)
    (hleft : 0 ≤ fileBytesLeft fs size i off) :
    fileBytesLeft fs size i off + 2 ^ 31 ≤ size ∧ off + fileBytesLeft fs size i off ≤ fs.fileSize i := by
  have hint : 0 ≤ toInt size → toInt size + 2 ^ 31 ≤ size := by
    rw [toInt]
    intro hnonneg
    rw [Int.bmod_def] at hnonneg ⊢
    split at hnonneg <;> omega
  rw [fileBytesLeft] at hleft ⊢
  split at hleft
  next h =>
    rw [if_pos h]
    have hsub : toInt ((fs.fileSize i : ℤ) - off) = fs.fileSize i - off := by
      have hhalf : toInt size < 2 ^ 31 := by
        rw [toInt, Int.bmod_def]
        split <;> omega
      exact toInt_of_lt (by omega) (by omega)
    rw [hsub]
    omega
  next h =>
    rw [if_neg h]
    omega

/-- A buffer of 2 GiB or more is never filled: the loop returns without an error before. -/
theorem loop_transferAll {fuel : ℕ} (hsize : 2 ^ 31 ≤ s.size) (hec : s.ec = none)
    (hoff : s.fileOffset ≤ fs.fileSize s.fileIndex) (h : loop fs transferAll fuel s = some r) :
    r.ec = none ∧ r.ret < s.ret + s.size := by
  induction fuel generalizing s with
  | zero => cases h
  | succ fuel ih =>
    -- whatever file is asked for, the rest of the buffer is too long again
    have hcall : ∀ s' : Loop, s'.size = s.size → s'.ret = s.ret → s'.ec = none →
        s'.fileOffset ≤ fs.fileSize s'.fileIndex →
        (transfer transferAll s' (fileBytesLeft fs s'.size s'.fileIndex s'.fileOffset)).run
          (loop fs transferAll fuel) = some r → r.ec = none ∧ r.ret < s.ret + s.size := by
      intro s' hs' hret hec' hoff' h
      have hle := @fileBytesLeft_le fs _ s'.fileIndex _ (hs' ▸ hsize) hoff'
      generalize fileBytesLeft fs s'.size s'.fileIndex s'.fileOffset = left at h hle
      rw [transfer] at h
      by_cases hneg : left < 0
      · rw [if_pos hneg] at h
        cases h
      · obtain ⟨hshort, hin⟩ := hle (not_lt.mp hneg)
        rw [if_neg hneg, transferAll] at h
        dsimp only at h
        rw [hec'] at h
        dsimp only at h
        rw [if_neg (by omega)] at h
        obtain ⟨hnone, hlt⟩ := ih (by dsimp only; omega) rfl (by dsimp only; omega) h
        dsimp only at hlt
        exact ⟨hnone, by omega⟩
    rw [loop_succ, if_neg (by omega), turn] at h
    split at h
    · split at h
      next =>
        obtain rfl := Option.some.inj h
        exact ⟨hec, by omega⟩
      next i hnext => exact hcall { s with fileIndex := i, fileOffset := 0 } rfl rfl hec (Nat.zero_le _) h
    · exact hcall s rfl rfl hec hoff h

theorem performsSlices_transferAll_not {piece offset size : ℕ}
    (hend : piece * fs.pieceLength + offset + size ≤ fs.totalSize) (hsize : 2 ^ 31 ≤ size) :
    ¬ PerformsSlices fs piece offset size transferAll := by
  rintro ⟨slices, r, hslices, hr, hperforms, herror⟩
  obtain ⟨slices', hslices', hat⟩ := @at_start fs piece offset size (by omega) hend
  obtain ⟨hec, hlt⟩ := loop_transferAll (s := start fs piece offset size) hsize rfl hat.offset_le hr
  rw [hec] at herror
  have hret := hperforms.ret
  have hcomplete := hperforms.complete herror.symm
  change r.ret < 0 + size at hlt
  omega

/-- The case of a buffer below 2 GiB. -/
theorem performsSlices_iff_endsWithEof {piece offset size : ℕ} (hpos : 0 < size)
    (hend : piece * fs.pieceLength + offset + size ≤ fs.totalSize) (hsize : size < 2 ^ 31) (op : FileOp) :
    PerformsSlices fs piece offset size op ↔
      ∀ slices, fs.mapBlock piece offset size = some slices → EndsWithEof op 0 slices := by
  obtain ⟨slices, hslices, hat⟩ := at_start hpos hend
  obtain ⟨r, calls, hr, hcalls, ⟨ret, hret, hperforms⟩, hiff⟩ :=
    @loop_spec fs _ slices (size + fs.numFiles + 2) op hat hsize rfl (by change size + 2 ≤ _; omega)
  replace hcalls : r.calls = calls := hcalls
  replace hret : r.ret = ret := hret.trans (Nat.zero_add ret)
  subst hcalls hret
  constructor
  · rintro ⟨slices', r', -, hr', -, herror⟩ slices'' hslices''
    obtain rfl := Option.some.inj (hslices.symm.trans hslices'')
    obtain rfl := Option.some.inj (hr.symm.trans hr')
    exact hiff.mp herror
  · exact fun hends => ⟨slices, r, hslices, hr, hperforms, hiff.mpr (hends slices hslices)⟩

/-- Below 2 GiB the slices of `map_block` are performed just when an operation that has transferred nothing does not
then fail in another way. A buffer of 2 GiB or more is too long for the loop. -/
theorem performsSlices_iff (fs : FileStorage) (piece offset size : ℕ) (hpos : 0 < size)
    (hend : piece * fs.pieceLength + offset + size ≤ fs.totalSize) :
    (size < 2 ^ 31 → ∀ op, PerformsSlices fs piece offset size op ↔
      ∀ slices, fs.mapBlock piece offset size = some slices → EndsWithEof op 0 slices) ∧
    (2 ^ 31 ≤ size → ∃ op, ¬ PerformsSlices fs piece offset size op) :=
  ⟨fun hsize => performsSlices_iff_endsWithEof hpos hend hsize,
    fun hsize => ⟨transferAll, performsSlices_transferAll_not hend hsize⟩⟩

/-- Two files with an empty one between them. -/
def emptyBetween : FileStorage := ⟨[10, 0, 10], 4, by decide⟩

theorem performsSlices_iff_whole : PerformsSlices emptyBetween 2 0 5 transferAll :=
  ((performsSlices_iff emptyBetween 2 0 5 (by decide) (by decide)).1 (by decide) transferAll).mpr
    fun _ _ _ _ _ _ _ e he => by cases he

/-- An operation that transfers nothing, and fails when it is asked again. -/
def emptyThenFails : FileOp where
  answer k _ _ := if k = 0 then .ok 0 else .error (.other 5, .fileRead)
  le k _ f n h := by
    split at h
    · cases h
      exact Nat.zero_le _
    · cases h

/-- The end of the file is then not what is reported. -/
theorem performsSlices_not : ¬ PerformsSlices emptyBetween 2 0 5 emptyThenFails := by
  rw [performsSlices_iff_endsWithEof (by decide) (by decide) (by decide)]
  intro hends
  have heof := hends [⟨0, 8, 2⟩, ⟨2, 0, 3⟩] rfl 0 _ _ (.refl _ _) rfl (.other 5, .fileRead) rfl
  cases heof

end Walk

end ReadWrite

end Disk

end LibtorrentSN
