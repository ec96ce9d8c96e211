import Mathlib

/-!
# The store buffer

A block that has been handed to `async_write` and is not on disk yet is found in the store buffer
(`aux_/store_buffer.hpp`), so that it can be read back. The jobs are executed by the disk threads in any
order (`src/mmap_disk_io.cpp`). Storage reads and writes succeed here, and each is one step; a write job
removes its entry from the store buffer in a step of its own.
-/

namespace LibtorrentSN

namespace Disk

def defaultBlockSize : ℕ := 0x4000

/-- A piece of a storage. -/
structure PieceId where
  storage : ℕ
  piece : ℕ
  deriving DecidableEq

/-- `torrent_location`: where a block begins. -/
structure TorrentLocation where
  piece : PieceId
  offset : ℕ
  deriving DecidableEq

/-- The bytes of a buffer. What has not been written to it is arbitrary. -/
abbrev Buffer := ℕ → UInt8

structure WriteJob where
  id : ℕ
  loc : TorrentLocation
  length : ℕ
  -- the buffer is a whole block, also where fewer bytes were copied to it
  data : Buffer
  -- the storage has been written, the entry is still there
  written : Bool := false

/-- A read is for `length` bytes from `start`. The bytes from `bufferOffset` on, `bufferSize` of them, are
still to be read from the storage at `offset`. -/
structure ReadJob where
  id : ℕ
  piece : PieceId
  start : ℕ
  length : ℕ
  offset : ℕ
  bufferSize : ℕ
  bufferOffset : ℕ
  buffer : Buffer
  -- the values of the last writes that were submitted before the read, and those of later writes
  expected : Buffer
  later : ℕ → List UInt8 := fun _ => []

/-- What a handler was given. -/
structure Delivery where
  length : ℕ
  buffer : Buffer
  expected : Buffer
  later : ℕ → List UInt8

structure DiskIo where
  disk : PieceId → ℕ → UInt8
  -- the entries, with the write job whose buffer they point to
  storeBuffer : TorrentLocation → Option (ℕ × Buffer) := fun _ => none
  writes : List WriteJob := []
  reads : List ReadJob := []
  nextId : ℕ := 0
  -- the bytes as the writes that were submitted leave them
  latest : PieceId → ℕ → UInt8
  delivered : List Delivery := []
  -- whether each erase found the entry of its own write
  erased : List Bool := []

inductive DiskEvent
  | asyncWrite (loc : TorrentLocation) (length : ℕ) (data : Buffer)
  -- a new buffer has arbitrary content
  | asyncRead (piece : PieceId) (start length : ℕ) (fresh : Buffer)
  | doWrite (id : ℕ)
  | eraseWrite (id : ℕ)
  | doRead (id : ℕ)

namespace WriteJob

/-- The write covers the byte. -/
def covers (w : WriteJob) (piece : PieceId) (offset : ℕ) : Prop :=
  w.loc.piece = piece ∧ w.loc.offset ≤ offset ∧ offset < w.loc.offset + w.length

instance (w : WriteJob) (piece : PieceId) (offset : ℕ) : Decidable (w.covers piece offset) :=
  inferInstanceAs (Decidable (_ ∧ _))

/-- The bytes after the write. -/
def apply (w : WriteJob) (bytes : PieceId → ℕ → UInt8) (piece : PieceId) (offset : ℕ) : UInt8 :=
  if w.covers piece offset then w.data (offset - w.loc.offset) else bytes piece offset

/-- A read that is in flight learns of the write. -/
def noteIn (w : WriteJob) (r : ReadJob) : ReadJob :=
  { r with later := fun k =>
      if w.covers r.piece (r.start + k) then r.later k ++ [w.data (r.start + k - w.loc.offset)]
      else r.later k }

end WriteJob

/-- `n` bytes of another buffer are copied to where `dest` points. -/
def Buffer.copy (b : Buffer) (dest n : ℕ) (src : Buffer) : Buffer := fun k =>
  if dest ≤ k ∧ k < dest + n then src (k - dest) else b k

namespace DiskIo

variable (s : DiskIo)

/-- `async_write`. `insert` leaves an entry that is there already as it is. -/
def asyncWrite (loc : TorrentLocation) (length : ℕ) (data : Buffer) : DiskIo :=
  let w : WriteJob := { id := s.nextId, loc, length, data }
  { s with
    nextId := s.nextId + 1
    storeBuffer := if (s.storeBuffer loc).isSome then s.storeBuffer
      else Function.update s.storeBuffer loc (some (w.id, data))
    writes := s.writes ++ [w]
    latest := w.apply s.latest
    reads := s.reads.map w.noteIn }

/-- The read is answered at once. -/
def deliver (length : ℕ) (buffer expected : Buffer) : DiskIo :=
  { s with delivered := s.delivered ++ [⟨length, buffer, expected, fun _ => []⟩] }

/-- A read job for what is not in the buffer. -/
def postRead (piece : PieceId) (start length offset bufferSize bufferOffset : ℕ)
    (buffer : Buffer) : DiskIo :=
  { s with
    nextId := s.nextId + 1
    reads := s.reads ++ [⟨s.nextId, piece, start, length, offset, bufferSize, bufferOffset, buffer,
      fun k => s.latest piece (start + k), fun _ => []⟩] }

/-- `async_read` -/
def asyncRead (piece : PieceId) (start length : ℕ) (fresh : Buffer) : DiskIo :=
  let blockOffset := start - start % defaultBlockSize
  let readOffset := start - blockOffset
  let expected : Buffer := fun k => s.latest piece (start + k)
  if defaultBlockSize < readOffset + length then
    -- an unaligned request spanning two blocks
    let len1 := defaultBlockSize - readOffset
    match s.storeBuffer ⟨piece, blockOffset⟩, s.storeBuffer ⟨piece, blockOffset + defaultBlockSize⟩ with
    | none, none => s.postRead piece start length start length 0 fresh
    | some (_, buf1), some (_, buf2) =>
      s.deliver length ((fresh.copy 0 len1 fun k => buf1 (readOffset + k)).copy len1 (length - len1) buf2)
        expected
    | none, some (_, buf2) =>
      s.postRead piece start length start len1 0 (fresh.copy len1 (length - len1) buf2)
    | some (_, buf1), none =>
      s.postRead piece start length (blockOffset + defaultBlockSize) (length - len1) len1
        (fresh.copy 0 len1 fun k => buf1 (readOffset + k))
  else
    match s.storeBuffer ⟨piece, blockOffset⟩ with
    | some (_, buf) => s.deliver length (fresh.copy 0 length fun k => buf (readOffset + k)) expected
    | none => s.postRead piece start length start length 0 fresh

/-- `do_write`, up to the write of the storage. -/
def doWrite (w : WriteJob) : DiskIo :=
  { s with
    disk := w.apply s.disk
    writes := s.writes.map fun w' => if w'.id = w.id then { w' with written := true } else w' }

/-- The end of `do_write`: `erase` removes the entry of the block. Where there is none, the source erases
the end of the map, which is undefined. -/
def eraseWrite (w : WriteJob) : DiskIo :=
  { s with
    storeBuffer := Function.update s.storeBuffer w.loc none
    writes := s.writes.filter fun w' => w'.id ≠ w.id
    erased := s.erased ++ [((s.storeBuffer w.loc).map Prod.fst = some w.id : Bool)] }

/-- `do_read` and `do_partial_read` -/
def doRead (r : ReadJob) : DiskIo :=
  { s with
    reads := s.reads.filter fun r' => r'.id ≠ r.id
    delivered := s.delivered ++
      [⟨r.length, r.buffer.copy r.bufferOffset r.bufferSize fun k => s.disk r.piece (r.offset + k),
        r.expected, r.later⟩] }

/-- One event. The sizes of the pieces are a parameter. -/
def step (pieceSize : PieceId → ℕ) (s : DiskIo) : DiskEvent → Option DiskIo
  | .asyncWrite loc length data =>
    if loc.offset % defaultBlockSize = 0 ∧ 0 < length ∧ length ≤ defaultBlockSize ∧
      loc.offset + length ≤ pieceSize loc.piece then some (s.asyncWrite loc length data) else none
  | .asyncRead piece start length fresh =>
    if 0 < length ∧ length ≤ defaultBlockSize ∧ start + length ≤ pieceSize piece then
      some (s.asyncRead piece start length fresh) else none
  | .doWrite id => (s.writes.find? fun w => w.id = id ∧ w.written = false).map s.doWrite
  | .eraseWrite id => (s.writes.find? fun w => w.id = id ∧ w.written = true).map s.eraseWrite
  | .doRead id => (s.reads.find? fun r => r.id = id).map s.doRead

/-- Nothing has been submitted. -/
def start (disk : PieceId → ℕ → UInt8) : DiskIo := { disk, latest := disk }

/-- The states of the runs whose steps all meet a condition. -/
inductive Reached (pieceSize : PieceId → ℕ) (disk : PieceId → ℕ → UInt8)
    (permitted : DiskIo → DiskEvent → Prop) : DiskIo → Prop
  | start : Reached pieceSize disk permitted (start disk)
  | step {s s' : DiskIo} {e : DiskEvent} (hs : Reached pieceSize disk permitted s) (hp : permitted s e)
      (h : s.step pieceSize e = some s') : Reached pieceSize disk permitted s'

/-- No block is written while a write of it is outstanding, and no byte is read that is beyond the end of an
outstanding write that ends before its block does. -/
def Permitted (s : DiskIo) : DiskEvent → Prop
  | .asyncWrite loc _ _ => ∀ w ∈ s.writes, w.loc ≠ loc
  | .asyncRead piece start length _ => ∀ w ∈ s.writes, ∀ k < length, w.loc.piece = piece →
      w.loc.offset ≤ start + k → start + k < w.loc.offset + defaultBlockSize →
      start + k < w.loc.offset + w.length
  | _ => True

end DiskIo

/-- Every byte has the value of the last write that was submitted before the read, or that of a write
submitted after the read and before its job was executed. -/
def Delivery.Sound (d : Delivery) : Prop :=
  ∀ k < d.length, d.buffer k = d.expected k ∨ d.buffer k ∈ d.later k

theorem Buffer.copy_of_mem {b src : Buffer} {dest n k : ℕ} (h : dest ≤ k ∧ k < dest + n) :
    b.copy dest n src k = src (k - dest) := if_pos h

theorem Buffer.copy_of_not_mem {b src : Buffer} {dest n k : ℕ} (h : ¬ (dest ≤ k ∧ k < dest + n)) :
    b.copy dest n src k = b k := if_neg h

namespace WriteJob

theorem apply_of_covers {w : WriteJob} {bytes : PieceId → ℕ → UInt8} {p : PieceId} {o : ℕ}
    (h : w.covers p o) : w.apply bytes p o = w.data (o - w.loc.offset) := if_pos h

theorem apply_of_not_covers {w : WriteJob} {bytes : PieceId → ℕ → UInt8} {p : PieceId} {o : ℕ}
    (h : ¬ w.covers p o) : w.apply bytes p o = bytes p o := if_neg h

/-- A write of one block. -/
structure InBlock (w : WriteJob) : Prop where
  aligned : w.loc.offset % defaultBlockSize = 0
  length_le : w.length ≤ defaultBlockSize

/-- Writes of different blocks have no byte in common. -/
theorem InBlock.loc_eq {w w' : WriteJob} (h : w.InBlock) (h' : w'.InBlock) {p : PieceId} {o : ℕ}
    (hc : w.covers p o) (hc' : w'.covers p o) : w.loc = w'.loc := by
  obtain ⟨hp, hle, hlt⟩ := hc
  obtain ⟨hp', hle', hlt'⟩ := hc'
  have hoff : w.loc.offset = w'.loc.offset := by
    have ha := h.aligned
    have ha' := h'.aligned
    have hl := h.length_le
    have hl' := h'.length_le
    unfold defaultBlockSize at *
    omega
  cases hw : w.loc
  cases hw' : w'.loc
  simp_all

end WriteJob

namespace ReadJob

/-- What a byte of the read may be. -/
def Admits (r : ReadJob) (k : ℕ) (v : UInt8) : Prop := v = r.expected k ∨ v ∈ r.later k

/-- The bytes that are still to be read from the storage. -/
def FromDisk (r : ReadJob) (k : ℕ) : Prop := r.bufferOffset ≤ k ∧ k < r.bufferOffset + r.bufferSize

theorem Admits.noteIn {r : ReadJob} {k : ℕ} {v : UInt8} (h : r.Admits k v) (w : WriteJob) :
    (w.noteIn r).Admits k v := by
  obtain h | h := h
  · exact .inl h
  · refine .inr ?_
    by_cases hc : w.covers r.piece (r.start + k) <;> simp [WriteJob.noteIn, hc, h]

theorem admits_noteIn {w : WriteJob} {r : ReadJob} {k : ℕ} (hc : w.covers r.piece (r.start + k)) :
    (w.noteIn r).Admits k (w.data (r.start + k - w.loc.offset)) := by
  refine .inr ?_
  simp [WriteJob.noteIn, hc]

end ReadJob

namespace DiskIo

/-- The values that the storage has or will have at a byte, once some of the outstanding writes are done. -/
def Pending (s : DiskIo) (p : PieceId) (o : ℕ) (v : UInt8) : Prop :=
  v = s.disk p o ∨ ∃ w ∈ s.writes, w.covers p o ∧ v = w.data (o - w.loc.offset)

structure Inv (s : DiskIo) : Prop where
  id_lt : ∀ w ∈ s.writes, w.id < s.nextId
  id_inj : ∀ w ∈ s.writes, ∀ w' ∈ s.writes, w.id = w'.id → w = w'
  loc_inj : ∀ w ∈ s.writes, ∀ w' ∈ s.writes, w.loc = w'.loc → w = w'
  inBlock : ∀ w ∈ s.writes, w.InBlock
  -- the store buffer has the outstanding writes
  entry_of_mem : ∀ w ∈ s.writes, s.storeBuffer w.loc = some (w.id, w.data)
  mem_of_entry : ∀ loc entry, s.storeBuffer loc = some entry →
    ∃ w ∈ s.writes, w.loc = loc ∧ entry = (w.id, w.data)
  latest_of_covers : ∀ w ∈ s.writes, ∀ p o, w.covers p o → s.latest p o = w.data (o - w.loc.offset)
  disk_of_written : ∀ w ∈ s.writes, w.written = true → ∀ p o, w.covers p o →
    s.disk p o = w.data (o - w.loc.offset)
  disk_eq_latest : ∀ p o, (∀ w ∈ s.writes, ¬ w.covers p o) → s.disk p o = s.latest p o
  fromDisk : ∀ r ∈ s.reads, ∀ k < r.length, r.FromDisk k →
    r.offset + (k - r.bufferOffset) = r.start + k ∧ ∀ v, s.Pending r.piece (r.start + k) v → r.Admits k v
  fromBuffer : ∀ r ∈ s.reads, ∀ k < r.length, ¬ r.FromDisk k → r.Admits k (r.buffer k)
  delivered : ∀ d ∈ s.delivered, d.Sound
  erased : ∀ b ∈ s.erased, b = true

theorem inv_start (disk : PieceId → ℕ → UInt8) : Inv (start disk) where
  id_lt := by simp [start]
  id_inj := by simp [start]
  loc_inj := by simp [start]
  inBlock := by simp [start]
  entry_of_mem := by simp [start]
  mem_of_entry := by simp [start]
  latest_of_covers := by simp [start]
  disk_of_written := by simp [start]
  disk_eq_latest := fun _ _ _ => rfl
  fromDisk := by simp [start]
  fromBuffer := by simp [start]
  delivered := by simp [start]
  erased := by simp [start]

variable {s : DiskIo}

/-- At most one outstanding write covers a byte. -/
theorem Inv.eq_of_covers (h : Inv s) {w w' : WriteJob} (hw : w ∈ s.writes) (hw' : w' ∈ s.writes)
    {p : PieceId} {o : ℕ} (hc : w.covers p o) (hc' : w'.covers p o) : w = w' :=
  h.loc_inj w hw w' hw' ((h.inBlock w hw).loc_eq (h.inBlock w' hw') hc hc')

theorem Inv.asyncWrite (h : Inv s) {loc : TorrentLocation} {length : ℕ} (data : Buffer)
    (hal : loc.offset % defaultBlockSize = 0) (hlen : length ≤ defaultBlockSize)
    (hp : ∀ w ∈ s.writes, w.loc ≠ loc) : Inv (s.asyncWrite loc length data) := by
  set w₀ : WriteJob := { id := s.nextId, loc := loc, length := length, data := data } with hw₀
  have hblock : w₀.InBlock := ⟨hal, hlen⟩
  have hnone : s.storeBuffer loc = none := by
    by_contra hne
    obtain ⟨e, he⟩ := Option.ne_none_iff_exists'.mp hne
    obtain ⟨w, hw, hloc, -⟩ := h.mem_of_entry loc e he
    exact hp w hw hloc
  have hapart : ∀ w ∈ s.writes, ∀ p o, w.covers p o → ¬ w₀.covers p o := fun w hw p o hc hc₀ =>
    hp w hw ((h.inBlock w hw).loc_eq hblock hc hc₀)
  have hwrites : ∀ {w}, w ∈ (s.asyncWrite loc length data).writes → w ∈ s.writes ∨ w = w₀ := by
    intro w hw
    simpa [DiskIo.asyncWrite, hw₀] using hw
  have hstore : (s.asyncWrite loc length data).storeBuffer =
      Function.update s.storeBuffer loc (some (s.nextId, data)) := by
    simp [DiskIo.asyncWrite, hnone]
  constructor
  case id_lt =>
    intro w hw
    obtain hw | rfl := hwrites hw
    · exact Nat.lt_succ_of_lt (h.id_lt w hw)
    · exact Nat.lt_succ_self _
  case id_inj =>
    intro w hw w' hw' hid
    obtain hw | rfl := hwrites hw <;> obtain hw' | rfl := hwrites hw'
    · exact h.id_inj w hw w' hw' hid
    · exact absurd hid (h.id_lt w hw).ne
    · exact absurd hid (h.id_lt w' hw').ne'
    · rfl
  case loc_inj =>
    intro w hw w' hw' hloc
    obtain hw | rfl := hwrites hw <;> obtain hw' | rfl := hwrites hw'
    · exact h.loc_inj w hw w' hw' hloc
    · exact absurd hloc (hp w hw)
    · exact absurd hloc.symm (hp w' hw')
    · rfl
  case inBlock =>
    intro w hw
    obtain hw | rfl := hwrites hw
    · exact h.inBlock w hw
    · exact hblock
  case entry_of_mem =>
    intro w hw
    rw [hstore]
    obtain hw | rfl := hwrites hw
    · rw [Function.update_of_ne (hp w hw), h.entry_of_mem w hw]
    · exact Function.update_self ..
  case mem_of_entry =>
    intro l entry he
    rw [hstore] at he
    by_cases hl : l = loc
    · subst hl
      rw [Function.update_self] at he
      exact ⟨w₀, by simp [DiskIo.asyncWrite, hw₀], rfl, (Option.some.inj he).symm⟩
    · rw [Function.update_of_ne hl] at he
      obtain ⟨w, hw, hloc, hent⟩ := h.mem_of_entry l entry he
      exact ⟨w, by simp [DiskIo.asyncWrite, hw], hloc, hent⟩
  case latest_of_covers =>
    intro w hw p o hc
    obtain hw | rfl := hwrites hw
    · exact (w₀.apply_of_not_covers (hapart w hw p o hc)).trans (h.latest_of_covers w hw p o hc)
    · exact w₀.apply_of_covers hc
  case disk_of_written =>
    intro w hw hwr p o hc
    obtain hw | rfl := hwrites hw
    · exact h.disk_of_written w hw hwr p o hc
    · cases hwr
  case disk_eq_latest =>
    intro p o hnc
    have hnc₀ : ¬ w₀.covers p o := hnc w₀ (by simp [DiskIo.asyncWrite, hw₀])
    refine (h.disk_eq_latest p o fun w hw => hnc w (by simp [DiskIo.asyncWrite, hw])).trans ?_
    exact (w₀.apply_of_not_covers hnc₀).symm
  case fromDisk =>
    intro r' hr' k hk hd
    obtain ⟨r, hr, rfl⟩ := List.mem_map.mp hr'
    obtain ⟨hoff, hadm⟩ := h.fromDisk r hr k hk hd
    refine ⟨hoff, ?_⟩
    rintro v (hv | ⟨w, hw, hc, rfl⟩)
    · exact (hadm v (.inl hv)).noteIn w₀
    · obtain hw | rfl := hwrites hw
      · exact (hadm _ (.inr ⟨w, hw, hc, rfl⟩)).noteIn w₀
      · exact ReadJob.admits_noteIn hc
  case fromBuffer =>
    intro r' hr' k hk hd
    obtain ⟨r, hr, rfl⟩ := List.mem_map.mp hr'
    exact (h.fromBuffer r hr k hk hd).noteIn w₀
  case delivered => exact h.delivered
  case erased => exact h.erased

theorem Inv.deliver (h : Inv s) {length : ℕ} {buffer expected : Buffer}
    (hb : ∀ k < length, buffer k = expected k) : Inv (s.deliver length buffer expected) :=
  { h with
    delivered := by
      intro d hd
      obtain hd | rfl : d ∈ s.delivered ∨ d = _ := by simpa [DiskIo.deliver] using hd
      · exact h.delivered d hd
      · exact fun k hk => .inl (hb k hk) }

theorem Inv.postRead (h : Inv s) {piece : PieceId} {start length offset bufferSize bufferOffset : ℕ}
    {buffer : Buffer}
    (hd : ∀ k < length, bufferOffset ≤ k ∧ k < bufferOffset + bufferSize →
      offset + (k - bufferOffset) = start + k ∧ ∀ w ∈ s.writes, ¬ w.covers piece (start + k))
    (hb : ∀ k < length, ¬ (bufferOffset ≤ k ∧ k < bufferOffset + bufferSize) →
      buffer k = s.latest piece (start + k)) :
    Inv (s.postRead piece start length offset bufferSize bufferOffset buffer) :=
  { h with
    id_lt := fun w hw => Nat.lt_succ_of_lt (h.id_lt w hw)
    fromDisk := by
      intro r hr k hk hfrom
      obtain hr | rfl : r ∈ s.reads ∨ r = _ := by simpa [DiskIo.postRead] using hr
      · exact h.fromDisk r hr k hk hfrom
      · obtain ⟨hoff, hnc⟩ := hd k hk hfrom
        refine ⟨hoff, ?_⟩
        rintro v (rfl | ⟨w, hw, hc, -⟩)
        · exact .inl (h.disk_eq_latest piece (start + k) hnc)
        · exact absurd hc (hnc w hw)
    fromBuffer := by
      intro r hr k hk hfrom
      obtain hr | rfl : r ∈ s.reads ∨ r = _ := by simpa [DiskIo.postRead] using hr
      · exact h.fromBuffer r hr k hk hfrom
      · exact .inl (hb k hk hfrom) }

/-- A block with no entry in the store buffer is on disk. -/
theorem Inv.not_covers (h : Inv s) {piece : PieceId} {b o : ℕ} (hn : s.storeBuffer ⟨piece, b⟩ = none)
    (hb : b % defaultBlockSize = 0) (hle : b ≤ o) (hlt : o < b + defaultBlockSize) :
    ∀ w ∈ s.writes, ¬ w.covers piece o := by
  rintro w hw ⟨rfl, hwle, hwlt⟩
  have hoff : w.loc.offset = b := by
    have ha := (h.inBlock w hw).aligned
    have hl := (h.inBlock w hw).length_le
    unfold defaultBlockSize at *
    omega
  have he := h.entry_of_mem w hw
  rw [← hoff] at hn
  exact absurd (hn.symm.trans he) (by simp)

/-- A block with an entry is read from it. -/
theorem Inv.entry_byte (h : Inv s) {piece : PieceId} {b o id : ℕ} {buf : Buffer}
    (he : s.storeBuffer ⟨piece, b⟩ = some (id, buf)) (hle : b ≤ o)
    (hcov : ∀ w ∈ s.writes, w.loc.piece = piece → w.loc.offset = b → o < w.loc.offset + w.length) :
    buf (o - b) = s.latest piece o := by
  obtain ⟨w, hw, hloc, hent⟩ := h.mem_of_entry _ _ he
  obtain ⟨rfl, rfl⟩ : w.loc.piece = piece ∧ w.loc.offset = b := by simp [hloc]
  obtain ⟨-, rfl⟩ := Prod.mk.inj hent
  exact (h.latest_of_covers w hw _ o ⟨rfl, hle, hcov w hw rfl rfl⟩).symm

theorem Inv.asyncRead (h : Inv s) {piece : PieceId} {start length : ℕ} (fresh : Buffer)
    (hlen : length ≤ defaultBlockSize) (hp : s.Permitted (.asyncRead piece start length fresh)) :
    Inv (s.asyncRead piece start length fresh) := by
  set b := start - start % defaultBlockSize with hbdef
  have hB : defaultBlockSize = 16384 := rfl
  have hb : b % defaultBlockSize = 0 ∧ b ≤ start ∧ start < b + defaultBlockSize := by
    unfold defaultBlockSize at *
    omega
  have hb₂ : (b + defaultBlockSize) % defaultBlockSize = 0 := by rw [Nat.add_mod_right, hb.1]
  -- a byte that is copied out of an entry
  have hbyte : ∀ {id : ℕ} {buf : Buffer} {c k : ℕ}, s.storeBuffer ⟨piece, c⟩ = some (id, buf) → k < length →
      c ≤ start + k → start + k < c + defaultBlockSize → buf (start + k - c) = s.latest piece (start + k) :=
    fun he hk hle hlt => h.entry_byte he hle fun w hw hwp hwo =>
      hp w hw _ hk hwp (hwo ▸ hle) (hwo ▸ hlt)
  unfold DiskIo.asyncRead
  simp only [← hbdef]
  split
  next hspan =>
    split
    next hn₁ hn₂ =>
      refine h.postRead (fun k hk _ => ⟨by omega, ?_⟩) (fun k hk hnot => absurd ⟨k.zero_le, by omega⟩ hnot)
      by_cases hk₁ : start + k < b + defaultBlockSize
      · exact h.not_covers hn₁ hb.1 (by omega) hk₁
      · exact h.not_covers hn₂ hb₂ (by omega) (by omega)
    next id₁ buf₁ id₂ buf₂ he₁ he₂ =>
      refine h.deliver fun k hk => ?_
      by_cases hk₁ : start + k < b + defaultBlockSize
      · rw [Buffer.copy_of_not_mem (by omega), Buffer.copy_of_mem (by omega), ← hbyte he₁ hk (by omega) hk₁]
        exact congrArg buf₁ (by omega : start - b + (k - 0) = start + k - b)
      · rw [Buffer.copy_of_mem (by omega), ← hbyte he₂ hk (by omega) (by omega)]
        exact congrArg buf₂ (by omega)
    next id₂ buf₂ hn₁ he₂ =>
      refine h.postRead (fun k hk hk₁ => ⟨by omega, h.not_covers hn₁ hb.1 (by omega) (by omega)⟩)
        fun k hk hk₁ => ?_
      rw [Buffer.copy_of_mem (by omega), ← hbyte he₂ hk (by omega) (by omega)]
      exact congrArg buf₂ (by omega)
    next id₁ buf₁ he₁ hn₂ =>
      refine h.postRead (fun k hk hk₁ => ⟨by omega, h.not_covers hn₂ hb₂ (by omega) (by omega)⟩)
        fun k hk hk₁ => ?_
      rw [Buffer.copy_of_mem (by omega), ← hbyte he₁ hk (by omega) (by omega)]
      exact congrArg buf₁ (by omega : start - b + (k - 0) = start + k - b)
  next hone =>
    split
    next id buf he =>
      refine h.deliver fun k hk => ?_
      rw [Buffer.copy_of_mem (by omega), ← hbyte he hk (by omega) (by omega)]
      exact congrArg buf (by omega : start - b + (k - 0) = start + k - b)
    next hn =>
      exact h.postRead (fun k hk _ => ⟨by omega, h.not_covers hn hb.1 (by omega) (by omega)⟩)
        fun k hk hnot => absurd ⟨k.zero_le, by omega⟩ hnot

/-- The reads in flight do not notice what takes no value away from the bytes they wait for. -/
theorem Inv.fromDisk_of_pending (h : Inv s) {s' : DiskIo} (hr : s'.reads = s.reads)
    (hp : ∀ p o v, s'.Pending p o v → s.Pending p o v) : ∀ r ∈ s'.reads, ∀ k < r.length, r.FromDisk k →
      r.offset + (k - r.bufferOffset) = r.start + k ∧
        ∀ v, s'.Pending r.piece (r.start + k) v → r.Admits k v := by
  rw [hr]
  intro r hr k hk hd
  obtain ⟨hoff, hadm⟩ := h.fromDisk r hr k hk hd
  exact ⟨hoff, fun v hv => hadm v (hp _ _ _ hv)⟩

/-- The outstanding writes after a write of the storage. -/
theorem mem_doWrite_writes {w w' : WriteJob} (h : w' ∈ (s.doWrite w).writes) :
    ∃ w₁ ∈ s.writes, (w₁.id ≠ w.id ∧ w' = w₁) ∨ (w₁.id = w.id ∧ w' = { w₁ with written := true }) := by
  obtain ⟨w₁, hw₁, rfl⟩ := List.mem_map.mp h
  refine ⟨w₁, hw₁, ?_⟩
  split
  next hid => exact .inr ⟨hid, rfl⟩
  next hid => exact .inl ⟨hid, rfl⟩

theorem Inv.doWrite (h : Inv s) {w : WriteJob} (hw : w ∈ s.writes) : Inv (s.doWrite w) := by
  -- everything but `written` is as before
  have hsame : ∀ w' ∈ (s.doWrite w).writes, ∃ w₁ ∈ s.writes, w'.id = w₁.id ∧ w'.loc = w₁.loc ∧
      w'.length = w₁.length ∧ w'.data = w₁.data := by
    intro w' hw'
    obtain ⟨w₁, hw₁, ⟨-, rfl⟩ | ⟨-, rfl⟩⟩ := mem_doWrite_writes hw' <;> exact ⟨_, hw₁, rfl, rfl, rfl, rfl⟩
  have hcovers : ∀ {w₁ w' : WriteJob} {p o}, w'.loc = w₁.loc → w'.length = w₁.length →
      w'.covers p o → w₁.covers p o := by
    intro w₁ w' p o hl hn hc
    rwa [WriteJob.covers, hl, hn] at hc
  have hmem : ∀ w₁ ∈ s.writes, ∃ w' ∈ (s.doWrite w).writes, w'.id = w₁.id ∧ w'.loc = w₁.loc ∧
      w'.length = w₁.length ∧ w'.data = w₁.data := by
    intro w₁ hw₁
    refine ⟨_, List.mem_map_of_mem hw₁, ?_⟩
    split <;> exact ⟨rfl, rfl, rfl, rfl⟩
  have heq : ∀ {w'₁ w'₂}, w'₁ ∈ (s.doWrite w).writes → w'₂ ∈ (s.doWrite w).writes →
      (∀ w₁ ∈ s.writes, ∀ w₂ ∈ s.writes, w'₁.id = w₁.id → w'₁.loc = w₁.loc → w'₂.id = w₂.id →
        w'₂.loc = w₂.loc → w₁ = w₂) → w'₁ = w'₂ := by
    intro w'₁ w'₂ h₁ h₂ hall
    obtain ⟨w₁, hw₁, rfl⟩ := List.mem_map.mp h₁
    obtain ⟨w₂, hw₂, rfl⟩ := List.mem_map.mp h₂
    have : w₁ = w₂ := by
      refine hall w₁ hw₁ w₂ hw₂ ?_ ?_ ?_ ?_ <;> split <;> rfl
    rw [this]
  have hpend : ∀ p o v, (s.doWrite w).Pending p o v → s.Pending p o v := by
    rintro p o v (hv | ⟨w', hw', hc, rfl⟩)
    · by_cases hc : w.covers p o
      · exact .inr ⟨w, hw, hc, hv.trans (w.apply_of_covers hc)⟩
      · exact .inl (hv.trans (w.apply_of_not_covers hc))
    · obtain ⟨w₁, hw₁, -, hl, hn, hd⟩ := hsame w' hw'
      exact .inr ⟨w₁, hw₁, hcovers hl hn hc, by rw [hd, hl]⟩
  exact {
    id_lt := by
      intro w' hw'
      obtain ⟨w₁, hw₁, hid, -⟩ := hsame w' hw'
      exact hid ▸ h.id_lt w₁ hw₁
    id_inj := fun w₁ h₁ w₂ h₂ hid => heq h₁ h₂ fun w₁' h₁' w₂' h₂' hi₁ _ hi₂ _ =>
      h.id_inj w₁' h₁' w₂' h₂' (hi₁ ▸ hi₂ ▸ hid)
    loc_inj := fun w₁ h₁ w₂ h₂ hl => heq h₁ h₂ fun w₁' h₁' w₂' h₂' _ hl₁ _ hl₂ =>
      h.loc_inj w₁' h₁' w₂' h₂' (hl₁ ▸ hl₂ ▸ hl)
    inBlock := by
      intro w' hw'
      obtain ⟨w₁, hw₁, -, hl, hn, -⟩ := hsame w' hw'
      exact ⟨hl ▸ (h.inBlock w₁ hw₁).aligned, hn ▸ (h.inBlock w₁ hw₁).length_le⟩
    entry_of_mem := by
      intro w' hw'
      obtain ⟨w₁, hw₁, hid, hl, -, hd⟩ := hsame w' hw'
      rw [hid, hl, hd]
      exact h.entry_of_mem w₁ hw₁
    mem_of_entry := by
      intro loc entry he
      obtain ⟨w₁, hw₁, hl, hent⟩ := h.mem_of_entry loc entry he
      obtain ⟨w', hw', hid, hl', -, hd⟩ := hmem w₁ hw₁
      exact ⟨w', hw', hl'.trans hl, by rw [hent, hid, hd]⟩
    latest_of_covers := by
      intro w' hw' p o hc
      obtain ⟨w₁, hw₁, -, hl, hn, hd⟩ := hsame w' hw'
      rw [hd, hl]
      exact h.latest_of_covers w₁ hw₁ p o (hcovers hl hn hc)
    disk_of_written := by
      intro w' hw' hwr p o hc
      obtain ⟨w₁, hw₁, ⟨hid, rfl⟩ | ⟨hid, rfl⟩⟩ := mem_doWrite_writes hw'
      · have hnc : ¬ w.covers p o := fun hcw => hid (h.eq_of_covers hw₁ hw hc hcw ▸ rfl)
        exact (w.apply_of_not_covers hnc).trans (h.disk_of_written w' hw₁ hwr p o hc)
      · obtain rfl := h.id_inj w₁ hw₁ w hw hid
        exact w₁.apply_of_covers hc
    disk_eq_latest := by
      intro p o hnc
      have hnc' : ∀ w₁ ∈ s.writes, ¬ w₁.covers p o := by
        intro w₁ hw₁ hc
        obtain ⟨w', hw', -, hl, hn, -⟩ := hmem w₁ hw₁
        exact hnc w' hw' (hcovers hl.symm hn.symm hc)
      exact (w.apply_of_not_covers (hnc' w hw)).trans (h.disk_eq_latest p o hnc')
    fromDisk := h.fromDisk_of_pending rfl hpend
    fromBuffer := h.fromBuffer
    delivered := h.delivered
    erased := h.erased }

theorem Inv.eraseWrite (h : Inv s) {w : WriteJob} (hw : w ∈ s.writes) (hwr : w.written = true) :
    Inv (s.eraseWrite w) := by
  have hwrites : ∀ {w'}, w' ∈ (s.eraseWrite w).writes ↔ w' ∈ s.writes ∧ w'.id ≠ w.id := by
    intro w'
    simp [DiskIo.eraseWrite]
  have hloc : ∀ {w'}, w' ∈ (s.eraseWrite w).writes → w'.loc ≠ w.loc := by
    intro w' hw' hl
    obtain ⟨hm, hid⟩ := hwrites.mp hw'
    exact hid (h.loc_inj w' hm w hw hl ▸ rfl)
  exact {
    id_lt := fun w' hw' => h.id_lt w' (hwrites.mp hw').1
    id_inj := fun w₁ h₁ w₂ h₂ => h.id_inj w₁ (hwrites.mp h₁).1 w₂ (hwrites.mp h₂).1
    loc_inj := fun w₁ h₁ w₂ h₂ => h.loc_inj w₁ (hwrites.mp h₁).1 w₂ (hwrites.mp h₂).1
    inBlock := fun w' hw' => h.inBlock w' (hwrites.mp hw').1
    entry_of_mem := fun w' hw' =>
      (Function.update_of_ne (hloc hw') _ _).trans (h.entry_of_mem w' (hwrites.mp hw').1)
    mem_of_entry := by
      intro loc entry he
      by_cases hl : loc = w.loc
      · subst hl
        have hnone : (s.eraseWrite w).storeBuffer w.loc = none := Function.update_self ..
        exact absurd (hnone.symm.trans he) (by simp)
      · obtain ⟨w', hw', hl', hent⟩ :=
          h.mem_of_entry loc entry ((Function.update_of_ne hl _ _).symm.trans he)
        refine ⟨w', hwrites.mpr ⟨hw', fun hid => hl ?_⟩, hl', hent⟩
        rw [← hl', h.id_inj w' hw' w hw hid]
    latest_of_covers := fun w' hw' => h.latest_of_covers w' (hwrites.mp hw').1
    disk_of_written := fun w' hw' => h.disk_of_written w' (hwrites.mp hw').1
    disk_eq_latest := by
      intro p o hnc
      by_cases hc : w.covers p o
      · exact (h.disk_of_written w hw hwr p o hc).trans (h.latest_of_covers w hw p o hc).symm
      · refine h.disk_eq_latest p o fun w' hw' hc' => ?_
        by_cases hid : w'.id = w.id
        · exact hc (h.id_inj w' hw' w hw hid ▸ hc')
        · exact hnc w' (hwrites.mpr ⟨hw', hid⟩) hc'
    fromDisk := by
      refine h.fromDisk_of_pending rfl ?_
      rintro p o v (hv | ⟨w', hw', hc, rfl⟩)
      · exact .inl hv
      · exact .inr ⟨w', (hwrites.mp hw').1, hc, rfl⟩
    fromBuffer := h.fromBuffer
    delivered := h.delivered
    erased := by
      intro b hb
      obtain hb | rfl : b ∈ s.erased ∨ b = _ := by simpa [DiskIo.eraseWrite] using hb
      · exact h.erased b hb
      · simp [h.entry_of_mem w hw] }

/-- The bytes that a read job hands over. -/
theorem Inv.admits_read (h : Inv s) {r : ReadJob} (hr : r ∈ s.reads) {k : ℕ} (hk : k < r.length) :
    r.Admits k (r.buffer.copy r.bufferOffset r.bufferSize (fun k => s.disk r.piece (r.offset + k)) k) := by
  by_cases hfrom : r.FromDisk k
  · obtain ⟨hoff, hadm⟩ := h.fromDisk r hr k hk hfrom
    rw [Buffer.copy_of_mem hfrom, hoff]
    exact hadm _ (.inl rfl)
  · rw [Buffer.copy_of_not_mem hfrom]
    exact h.fromBuffer r hr k hk hfrom

theorem Inv.doRead (h : Inv s) {r : ReadJob} (hr : r ∈ s.reads) : Inv (s.doRead r) :=
  have hreads : ∀ {r'}, r' ∈ (s.doRead r).reads → r' ∈ s.reads := List.mem_of_mem_filter
  { h with
    fromDisk := fun r' hr' => h.fromDisk r' (hreads hr')
    fromBuffer := fun r' hr' => h.fromBuffer r' (hreads hr')
    delivered := by
      intro d hd
      obtain hd | rfl : d ∈ s.delivered ∨ d = _ := by simpa [DiskIo.doRead] using hd
      · exact h.delivered d hd
      · exact fun k hk => h.admits_read hr hk }

theorem Inv.step (h : Inv s) {pieceSize : PieceId → ℕ} {s' : DiskIo} {e : DiskEvent} (hp : s.Permitted e)
    (hstep : s.step pieceSize e = some s') : Inv s' := by
  cases e with
  | asyncWrite loc length data =>
    obtain ⟨⟨hal, -, hlen, -⟩, hs⟩ := Option.ite_none_right_eq_some.mp hstep
    obtain rfl := Option.some.inj hs
    exact h.asyncWrite data hal hlen hp
  | asyncRead piece start length fresh =>
    obtain ⟨⟨-, hlen, -⟩, hs⟩ := Option.ite_none_right_eq_some.mp hstep
    obtain rfl := Option.some.inj hs
    exact h.asyncRead fresh hlen hp
  | doWrite id =>
    obtain ⟨w, hw, rfl⟩ := Option.map_eq_some_iff.mp hstep
    exact h.doWrite (List.mem_of_find?_eq_some hw)
  | eraseWrite id =>
    obtain ⟨w, hw, rfl⟩ := Option.map_eq_some_iff.mp hstep
    have hwr := List.find?_some hw
    exact h.eraseWrite (List.mem_of_find?_eq_some hw) (by simpa using (decide_eq_true_eq.mp hwr).2)
  | doRead id =>
    obtain ⟨r, hr, rfl⟩ := Option.map_eq_some_iff.mp hstep
    exact h.doRead (List.mem_of_find?_eq_some hr)

theorem Inv.reached {pieceSize : PieceId → ℕ} {disk : PieceId → ℕ → UInt8}
    (h : Reached pieceSize disk Permitted s) : Inv s := by
  induction h with
  | start => exact inv_start disk
  | step _ hp hstep ih => exact ih.step hp hstep

/-- Reads see the writes before them, and every write erases its own entry. -/
theorem reads_see_writes {pieceSize : PieceId → ℕ} {disk : PieceId → ℕ → UInt8}
    (h : Reached pieceSize disk Permitted s) :
    (∀ d ∈ s.delivered, d.Sound) ∧ ∀ b ∈ s.erased, b = true :=
  have hinv := Inv.reached h
  ⟨hinv.delivered, hinv.erased⟩

/-- A block is read while it is written, and again when it is on disk. -/
theorem reads_see_writes_block : ∃ s, Reached (fun _ => 16384) (fun _ _ => 0) Permitted s ∧
    (s.delivered.map fun d => d.buffer 0) = [7, 7] ∧ s.erased = [true] ∧
    (∀ d ∈ s.delivered, d.Sound) ∧ ∀ b ∈ s.erased, b = true := by
  have hstart := @Reached.start (fun _ => 16384) (fun _ _ => 0) Permitted
  have hwrite := hstart.step (e := .asyncWrite ⟨⟨0, 0⟩, 0⟩ 16384 fun _ => 7) (by simp [Permitted, start]) rfl
  have hread := hwrite.step (e := .asyncRead ⟨0, 0⟩ 0 1 fun _ => 0)
    (by simp [Permitted, start, asyncWrite]) rfl
  have hdone := (hread.step (e := .doWrite 0) trivial rfl).step (e := .eraseWrite 0) trivial rfl
  have hagain := hdone.step (e := .asyncRead ⟨0, 0⟩ 0 1 fun _ => 0) (fun w hw => by cases hw) rfl
  have hend := hagain.step (e := .doRead 1) trivial rfl
  exact ⟨_, hend, rfl, rfl, reads_see_writes hend⟩

/-- Where two writes of a block are outstanding, the first is read, and the second finds no entry to erase. A
read that is overtaken by a later write sees that one. A write of a part of a block leaves the rest of the
buffer as it was. -/
theorem reads_not_latest :
    (∃ s, Reached (fun _ => 16384) (fun _ _ => 0) (fun _ _ => True) s ∧
      (s.delivered.map fun d => (d.buffer 0, d.expected 0)) = [(1, 2)] ∧ s.erased = [true, false]) ∧
    (∃ s, Reached (fun _ => 16384) (fun _ _ => 0) (fun _ _ => True) s ∧
      (s.delivered.map fun d => (d.buffer 0, d.expected 0)) = [(1, 0)]) ∧
    ∃ s, Reached (fun _ => 16384) (fun _ _ => 0) (fun _ _ => True) s ∧
      (s.delivered.map fun d => (d.buffer 0, d.expected 0)) = [(9, 0)] := by
  have hstart := @Reached.start (fun _ => 16384) (fun _ _ => 0) (fun _ _ => True)
  refine ⟨?_, ?_, ?_⟩
  · have hwrites := (hstart.step (e := .asyncWrite ⟨⟨0, 0⟩, 0⟩ 16384 fun _ => 1) trivial rfl).step
      (e := .asyncWrite ⟨⟨0, 0⟩, 0⟩ 16384 fun _ => 2) trivial rfl
    have hread := hwrites.step (e := .asyncRead ⟨0, 0⟩ 0 1 fun _ => 0) trivial rfl
    have hfirst := (hread.step (e := .doWrite 0) trivial rfl).step (e := .eraseWrite 0) trivial rfl
    have hsecond := (hfirst.step (e := .doWrite 1) trivial rfl).step (e := .eraseWrite 1) trivial rfl
    exact ⟨_, hsecond, rfl, rfl⟩
  · have hread := hstart.step (e := .asyncRead ⟨0, 0⟩ 0 1 fun _ => 0) trivial rfl
    have hwrite := (hread.step (e := .asyncWrite ⟨⟨0, 0⟩, 0⟩ 16384 fun _ => 1) trivial rfl).step
      (e := .doWrite 1) trivial rfl
    exact ⟨_, hwrite.step (e := .doRead 0) trivial rfl, rfl⟩
  · have hwrite := hstart.step (e := .asyncWrite ⟨⟨0, 0⟩, 0⟩ 1 fun k => if k = 0 then 1 else 9) trivial rfl
    exact ⟨_, hwrite.step (e := .asyncRead ⟨0, 0⟩ 1 1 fun _ => 0) trivial rfl, rfl⟩

end DiskIo

end Disk

end LibtorrentSN
