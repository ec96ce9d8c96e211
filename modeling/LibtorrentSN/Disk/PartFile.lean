import LibtorrentSN.Torrent.FileProgress

/-!
# The part file

Pieces of files that are not wanted are kept in the slots of one file, which begins with a table of the slots
(`src/part_file.cpp`). A file of the file system is a map from positions to bytes; what may fail is an input.
-/

namespace LibtorrentSN

namespace Disk

namespace Mmap

structure File where
  size : ℕ := 0
  byte : ℕ → UInt8 := fun _ => 0

/-- `eof` is made up by `pread_all`; the others are told by the file system. -/
inductive Errc
  | eof
  | noSuchFileOrDirectory
  | system
  deriving DecidableEq

namespace File

variable (f : File)

def get? (k : ℕ) : Option UInt8 := if k < f.size then some (f.byte k) else none

/-- A gap before the offset is filled with zeros. -/
def pwrite (offset : ℕ) (buf : List UInt8) : File where
  size := max f.size (offset + buf.length)
  byte k :=
    if offset ≤ k ∧ k < offset + buf.length then buf.getD (k - offset) 0
    else if k < f.size then f.byte k else 0

def readUint32 (offset : ℕ) : ℕ :=
  ((f.byte offset).toNat * 256 + (f.byte (offset + 1)).toNat) * 65536 +
    ((f.byte (offset + 2)).toNat * 256 + (f.byte (offset + 3)).toNat)

def readInt32 (offset : ℕ) : ℤ := (f.readUint32 offset : ℤ).bmod (2 ^ 32)

end File

/-- A byte of a file that may not exist. -/
def byteAt (f : Option File) (k : ℕ) : Option UInt8 := f.bind fun f => f.get? k

theorem get?_pwrite_inside {f : File} {offset k : ℕ} {buf : List UInt8} (hl : offset ≤ k)
    (hu : k < offset + buf.length) : (f.pwrite offset buf).get? k = buf[k - offset]? := by
  have hlt : k - offset < buf.length := by omega
  rw [File.get?, if_pos (by simp only [File.pwrite]; omega), List.getElem?_eq_getElem hlt]
  simp [File.pwrite, hl, hu, hlt]

theorem get?_pwrite_outside {f : File} {offset k : ℕ} {buf : List UInt8} {b : UInt8}
    (hk : k < offset ∨ offset + buf.length ≤ k) (h : f.get? k = some b) : (f.pwrite offset buf).get? k = some b := by
  unfold File.get? at h
  split at h
  · rename_i hlt
    rw [File.get?, if_pos (by simp only [File.pwrite]; omega), ← h]
    simp only [File.pwrite]
    rw [if_neg (by omega), if_pos hlt]
  · exact absurd h (by simp)

theorem byteAt_pwrite_outside {f : Option File} {offset k : ℕ} {buf : List UInt8} {b : UInt8}
    (hk : k < offset ∨ offset + buf.length ≤ k) (h : byteAt f k = some b) :
    byteAt (some ((f.getD {}).pwrite offset buf)) k = some b := by
  cases f with
  | none => exact absurd h (by simp [byteAt])
  | some f => exact get?_pwrite_outside hk h

def writeUint32 (n : ℕ) : List UInt8 := [16777216, 65536, 256, 1].map fun d => UInt8.ofNat (n / d)

def writeInt32 (n : ℤ) : List UInt8 := writeUint32 (n % 2 ^ 32).toNat

/-- Up to an even kilobyte. -/
def roundUp (n : ℕ) : ℕ := (n + 1023) / 1024 * 1024

structure PartFile where
  maxPieces : ℕ
  pieceSize : ℕ
  freeSlots : List ℕ := []
  numAllocated : ℕ := 0
  pieceMap : List (ℕ × ℕ) := []
  dirtyMetadata : Bool := false

/-- What fails in a call of `write`. -/
structure PartWriteFault where
  -- the directory of the file can't be made
  mkdir : Bool := false
  -- the file can't be opened, which is not reported
  openPart : Bool := false
  -- a write fails after a number of bytes
  write : Option ℕ := none

namespace PartFile

section Model

variable (pf : PartFile) (part : Option File)

def headerSize : ℕ := roundUp ((2 + pf.maxPieces) * 4)

def slotOffset (slot : ℕ) : ℕ := slot * pf.pieceSize + pf.headerSize

/-- The entries of the table in a header. -/
def readEntries (f : File) (numPieces : ℕ) : List (ℕ × ℕ) :=
  (List.range numPieces).filterMap fun i =>
    let slot := f.readInt32 (8 + 4 * i)
    if 0 ≤ slot ∧ slot < numPieces then some (i, slot.toNat) else none

/-- The constructor. -/
def load (numPieces pieceSize : ℕ) (part : Option File) : PartFile :=
  let pf : PartFile := { maxPieces := numPieces, pieceSize := pieceSize }
  match part with
  | none => pf
  | some f =>
    if f.size < pf.headerSize then pf
    else if f.readUint32 0 ≠ numPieces ∨ f.readUint32 4 ≠ pieceSize then pf
    else
      let entries := readEntries f numPieces
      let numAllocated := entries.foldl (fun n e => max n (e.2 + 1)) 0
      { pf with
        pieceMap := entries
        numAllocated := numAllocated
        freeSlots := (List.range numAllocated).filter fun slot => slot ∉ entries.map Prod.snd }

def find (piece : ℕ) : Option ℕ := pf.pieceMap.lookup piece

def allocateSlot (piece : ℕ) : PartFile × ℕ :=
  match pf.freeSlots with
  | slot :: rest =>
    ({ pf with freeSlots := rest, pieceMap := (piece, slot) :: pf.pieceMap, dirtyMetadata := true }, slot)
  | [] =>
    ({ pf with
      numAllocated := pf.numAllocated + 1
      pieceMap := (piece, pf.numAllocated) :: pf.pieceMap
      dirtyMetadata := true }, pf.numAllocated)

/-- The slot of a piece, a new one if it has none. -/
def slotFor (piece : ℕ) : PartFile × ℕ :=
  match pf.find piece with
  | some slot => (pf, slot)
  | none => pf.allocateSlot piece

def write (buf : List UInt8) (piece offset : ℕ) (x : PartWriteFault) : PartFile × Option File × Option Errc :=
  if x.mkdir then (pf, part, some .system)
  else
    let (pf, slot) := pf.slotFor piece
    if x.openPart then (pf, part, some .system)
    else
      let f := part.getD {}
      match x.write with
      | none => (pf, some (f.pwrite (pf.slotOffset slot + offset) buf), none)
      | some n => (pf, some (f.pwrite (pf.slotOffset slot + offset) (buf.take n)), some .system)

def freePiece (piece : ℕ) : PartFile :=
  match pf.find piece with
  | none => pf
  | some slot =>
    { pf with
      freeSlots := pf.freeSlots ++ [slot]
      pieceMap := pf.pieceMap.filter fun e => e.1 ≠ piece
      dirtyMetadata := true }

def header : List UInt8 :=
  let l := writeUint32 pf.maxPieces ++ writeUint32 pf.pieceSize ++
    (List.range pf.maxPieces).flatMap fun piece => writeInt32 (((pf.find piece).map Int.ofNat).getD (-1))
  l ++ List.replicate (pf.headerSize - l.length) 0

/-- `flush_metadata`, with a flag that tells that a call fails. -/
def flushMetadata (fails : Bool) : PartFile × Option File × Option Errc :=
  if ¬ pf.dirtyMetadata then (pf, part, none)
  else if pf.pieceMap = [] then
    if fails then (pf, part, some .system) else (pf, none, none)
  else if fails then (pf, part, some .system)
  else ({ pf with dirtyMetadata := false }, some ((part.getD {}).pwrite 0 pf.header), none)

end Model

/-- The table is one-to-one, and the free slots are not in it. -/
structure Wf (pf : PartFile) : Prop where
  pieces : (pf.pieceMap.map Prod.fst).Nodup
  slots : (pf.pieceMap.map Prod.snd).Nodup
  used : ∀ e ∈ pf.pieceMap, e.2 < pf.numAllocated
  free : ∀ slot ∈ pf.freeSlots, slot < pf.numAllocated ∧ slot ∉ pf.pieceMap.map Prod.snd
  freeNodup : pf.freeSlots.Nodup

/-- A byte of a piece. -/
def get? (pf : PartFile) (part : Option File) (piece k : ℕ) : Option UInt8 :=
  (pf.find piece).bind fun slot => byteAt part (pf.slotOffset slot + k)

variable {pf : PartFile} {part : Option File} {p q slot : ℕ}

theorem length_writeUint32 (n : ℕ) : (writeUint32 n).length = 4 := rfl

theorem length_header (pf : PartFile) : pf.header.length ≤ pf.headerSize := by
  have htable : ((List.range pf.maxPieces).flatMap fun piece =>
      writeInt32 (((pf.find piece).map Int.ofNat).getD (-1))).length = pf.maxPieces * 4 := by
    rw [List.length_flatMap]
    have hfour : ∀ n, (writeInt32 n).length = 4 := fun _ => rfl
    simp [hfour]
  unfold header headerSize roundUp
  simp only [List.length_append, List.length_replicate, length_writeUint32, htable]
  omega

theorem mem_of_find (h : pf.find p = some slot) : (p, slot) ∈ pf.pieceMap := by
  obtain ⟨l₁, l₂, heq, -⟩ := List.lookup_eq_some_iff.mp h
  rw [heq]
  simp

theorem not_mem_of_find (h : pf.find p = none) : p ∉ pf.pieceMap.map Prod.fst := by
  intro hmem
  obtain ⟨e, he, rfl⟩ := List.mem_map.mp hmem
  have := List.lookup_eq_none_iff.mp h e he
  simp at this

theorem Wf.find_inj (h : pf.Wf) (hp : pf.find p = some slot) (hq : pf.find q = some slot) : p = q := by
  have := List.inj_on_of_nodup_map h.slots (mem_of_find hp) (mem_of_find hq) rfl
  exact congrArg Prod.fst this

theorem Wf.find_lt (h : pf.Wf) (hp : pf.find p = some slot) : slot < pf.numAllocated := h.used _ (mem_of_find hp)

/-- What a new slot changes. -/
structure Allocated (pf pf' : PartFile) (p slot : ℕ) : Prop where
  wf : pf'.Wf
  maxPieces : pf'.maxPieces = pf.maxPieces
  pieceSize : pf'.pieceSize = pf.pieceSize
  find_self : pf'.find p = some slot
  find_of_ne : ∀ q, q ≠ p → pf'.find q = pf.find q

theorem Allocated.slotOffset {pf' : PartFile} (h : Allocated pf pf' p slot) (s : ℕ) :
    pf'.slotOffset s = pf.slotOffset s := by
  unfold PartFile.slotOffset headerSize
  rw [h.maxPieces, h.pieceSize]

theorem Wf.allocateSlot (h : pf.Wf) (hp : pf.find p = none) :
    Allocated pf (pf.allocateSlot p).1 p (pf.allocateSlot p).2 := by
  have hnot := not_mem_of_find hp
  unfold PartFile.allocateSlot
  split
  · rename_i slot rest hfree
    obtain ⟨hlt, hslot⟩ := h.free slot (by rw [hfree]; simp)
    have hnodup := h.freeNodup
    rw [hfree] at hnodup
    obtain ⟨hnotin, hrest⟩ := List.nodup_cons.mp hnodup
    refine ⟨⟨?_, ?_, ?_, ?_, hrest⟩, rfl, rfl, by simp [find], fun q hq => ?_⟩
    · exact List.nodup_cons.mpr ⟨hnot, h.pieces⟩
    · exact List.nodup_cons.mpr ⟨hslot, h.slots⟩
    · intro e he
      rcases List.mem_cons.mp he with rfl | he
      · exact hlt
      · exact h.used e he
    · intro s hs
      obtain ⟨hs₁, hs₂⟩ := h.free s (by rw [hfree]; simp [hs])
      refine ⟨hs₁, fun hmem => ?_⟩
      rcases List.mem_cons.mp hmem with rfl | hmem
      · exact hnotin hs
      · exact hs₂ hmem
    · simp [find, List.lookup_cons, beq_eq_false_iff_ne.mpr hq]
  · rename_i hfree
    refine ⟨⟨?_, ?_, ?_, ?_, ?_⟩, rfl, rfl, by simp [find], fun q hq => ?_⟩
    · exact List.nodup_cons.mpr ⟨hnot, h.pieces⟩
    · refine List.nodup_cons.mpr ⟨fun hmem => ?_, h.slots⟩
      obtain ⟨e, he, heq⟩ := List.mem_map.mp hmem
      exact absurd (h.used e he) (by simp only [heq]; omega)
    · intro e he
      rcases List.mem_cons.mp he with rfl | he
      · exact Nat.lt_succ_self _
      · exact Nat.lt_succ_of_lt (h.used e he)
    · simp [hfree]
    · exact h.freeNodup
    · simp [find, List.lookup_cons, beq_eq_false_iff_ne.mpr hq]

theorem Wf.slotFor (h : pf.Wf) (p : ℕ) : Allocated pf (pf.slotFor p).1 p (pf.slotFor p).2 := by
  unfold PartFile.slotFor
  split
  · rename_i slot hfind
    exact ⟨h, rfl, rfl, hfind, fun _ _ => rfl⟩
  · rename_i hfind
    exact h.allocateSlot hfind

theorem Wf.freePiece (h : pf.Wf) (p : ℕ) : (pf.freePiece p).Wf := by
  unfold PartFile.freePiece
  split
  · exact h
  · rename_i slot hfind
    have hmem := mem_of_find hfind
    have hsub : (pf.pieceMap.filter fun e => e.1 ≠ p).Sublist pf.pieceMap := List.filter_sublist
    refine ⟨h.pieces.sublist (hsub.map _), h.slots.sublist (hsub.map _), ?_, ?_, ?_⟩
    · intro e he
      exact h.used e (List.mem_of_mem_filter he)
    · intro s hs
      rcases List.mem_append.mp hs with hs | hs
      · obtain ⟨h₁, h₂⟩ := h.free s hs
        exact ⟨h₁, fun hc => h₂ ((hsub.map _).subset hc)⟩
      · obtain rfl := List.mem_singleton.mp hs
        refine ⟨h.used _ hmem, fun hc => ?_⟩
        obtain ⟨e, he, heq⟩ := List.mem_map.mp hc
        have := List.inj_on_of_nodup_map h.slots (List.mem_of_mem_filter he) hmem heq
        simp [this] at he
    · refine List.nodup_append.mpr ⟨h.freeNodup, by simp, ?_⟩
      rintro a ha b hb rfl
      obtain rfl := List.mem_singleton.mp hb
      exact (h.free a ha).2 (List.mem_map.mpr ⟨_, hmem, rfl⟩)

theorem Allocated.get?_of_ne {pf' : PartFile} (h : Allocated pf pf' p slot) (hq : q ≠ p) (k : ℕ) :
    pf'.get? part q k = pf.get? part q k := by
  unfold get?
  rw [h.find_of_ne q hq]
  congr 1
  funext s
  rw [h.slotOffset]

/-- A piece that has a slot keeps it. -/
theorem get?_slotFor (h : pf.Wf) {k : ℕ} {b : UInt8} (hb : pf.get? part q k = some b) :
    (pf.slotFor p).1.get? part q k = some b := by
  rcases eq_or_ne q p with rfl | hq
  · obtain ⟨slot, hfind, -⟩ := Option.bind_eq_some_iff.mp hb
    unfold slotFor
    rw [hfind]
    exact hb
  · rw [(h.slotFor p).get?_of_ne hq, hb]

/-- Positions of different bytes are different. -/
theorem Wf.position_ne (h : pf.Wf) {s t j k : ℕ} (hp : pf.find p = some s) (hq : pf.find q = some t)
    (hj : j < pf.pieceSize) (hk : k < pf.pieceSize) (hne : p ≠ q) : pf.slotOffset s + j ≠ pf.slotOffset t + k := by
  intro heq
  have hst : s ≠ t := by
    rintro rfl
    exact hne (h.find_inj hp hq)
  unfold slotOffset at heq
  rcases Nat.lt_or_gt_of_ne hst with hlt | hlt
  · have := Nat.mul_le_mul_right pf.pieceSize hlt
    rw [Nat.succ_mul] at this
    omega
  · have := Nat.mul_le_mul_right pf.pieceSize hlt
    rw [Nat.succ_mul] at this
    omega

/-- Bytes outside the range that is written stay. -/
theorem Wf.get?_pwrite (h : pf.Wf) {s offset j : ℕ} {buf : List UInt8} {b : UInt8} (hp : pf.find p = some s)
    (hend : offset + buf.length ≤ pf.pieceSize) (hj : j < pf.pieceSize)
    (hout : q ≠ p ∨ j < offset ∨ offset + buf.length ≤ j) (hb : pf.get? part q j = some b) :
    pf.get? (some ((part.getD {}).pwrite (pf.slotOffset s + offset) buf)) q j = some b := by
  obtain ⟨t, hfind, hbyte⟩ := Option.bind_eq_some_iff.mp hb
  refine Option.bind_eq_some_iff.mpr ⟨t, hfind, byteAt_pwrite_outside ?_ hbyte⟩
  by_contra hc
  have hin : pf.slotOffset s + offset ≤ pf.slotOffset t + j ∧
      pf.slotOffset t + j < pf.slotOffset s + offset + buf.length := by omega
  rcases eq_or_ne q p with rfl | hne
  · obtain rfl := Option.some.inj (hp.symm.trans hfind)
    rcases hout with hout | hout
    · exact hout rfl
    · omega
  · refine h.position_ne hfind hp hj (k := pf.slotOffset t + j - pf.slotOffset s) (by omega) hne ?_
    omega

/-- What a write does to the part file and to its bytes. -/
structure Written (pf pf' : PartFile) (part part' : Option File) (p offset : ℕ) (buf : List UInt8)
    (e : Option Errc) : Prop where
  wf : pf'.Wf
  maxPieces : pf'.maxPieces = pf.maxPieces
  pieceSize : pf'.pieceSize = pf.pieceSize
  keeps : ∀ q k b, k < pf.pieceSize → (q ≠ p ∨ k < offset ∨ offset + buf.length ≤ k) →
    pf.get? part q k = some b → pf'.get? part' q k = some b
  stores : e = none → ∀ k, offset ≤ k → k < offset + buf.length → pf'.get? part' p k = buf[k - offset]?

theorem Wf.write (h : pf.Wf) (part : Option File) {buf : List UInt8} {offset : ℕ}
    (hend : offset + buf.length ≤ pf.pieceSize) (p : ℕ) (x : PartWriteFault) :
    Written pf (pf.write part buf p offset x).1 part (pf.write part buf p offset x).2.1 p offset buf
      (pf.write part buf p offset x).2.2 := by
  have ha := h.slotFor p
  unfold PartFile.write
  split
  · exact ⟨h, rfl, rfl, fun _ _ _ _ _ hb => hb, by simp⟩
  dsimp only
  split
  · exact ⟨ha.wf, ha.maxPieces, ha.pieceSize, fun _ _ _ _ _ hb => get?_slotFor h hb, by simp⟩
  split
  · refine ⟨ha.wf, ha.maxPieces, ha.pieceSize, fun q k b hk hout hb => ?_, fun _ k hl hu => ?_⟩
    · rw [← ha.pieceSize] at hk hend
      exact ha.wf.get?_pwrite ha.find_self hend hk hout (get?_slotFor h hb)
    · unfold get?
      rw [ha.find_self]
      have := @get?_pwrite_inside (part.getD {}) ((pf.slotFor p).1.slotOffset (pf.slotFor p).2 + offset)
        ((pf.slotFor p).1.slotOffset (pf.slotFor p).2 + k) buf (by omega) (by omega)
      rw [Nat.add_sub_add_left] at this
      exact this
  · rename_i n _
    refine ⟨ha.wf, ha.maxPieces, ha.pieceSize, fun q k b hk hout hb => ?_, by simp⟩
    rw [← ha.pieceSize] at hk hend
    have hlen : (buf.take n).length ≤ buf.length := by simp
    exact ha.wf.get?_pwrite ha.find_self (by omega) hk (by omega) (get?_slotFor h hb)

/-- The header is before the slots. -/
theorem flushMetadata_spec (h : pf.Wf) (part : Option File) (fails : Bool) :
    (pf.flushMetadata part fails).1.Wf ∧
    (pf.flushMetadata part fails).1.maxPieces = pf.maxPieces ∧
    (pf.flushMetadata part fails).1.pieceSize = pf.pieceSize ∧
    (∀ q k b, pf.get? part q k = some b →
      (pf.flushMetadata part fails).1.get? (pf.flushMetadata part fails).2.1 q k = some b) ∧
    (fails = false → (pf.flushMetadata part fails).2.2 = none) := by
  unfold flushMetadata
  split
  · exact ⟨h, rfl, rfl, fun _ _ _ hb => hb, fun _ => rfl⟩
  split
  · rename_i hempty
    split
    · rename_i hf
      exact ⟨h, rfl, rfl, fun _ _ _ hb => hb, fun hc => by simp [hc] at hf⟩
    · refine ⟨h, rfl, rfl, fun q k b hb => ?_, fun _ => rfl⟩
      obtain ⟨slot, hfind, -⟩ := Option.bind_eq_some_iff.mp hb
      exact absurd (mem_of_find hfind) (by simp [hempty])
  split
  · rename_i hf
    exact ⟨h, rfl, rfl, fun _ _ _ hb => hb, fun hc => by simp [hc] at hf⟩
  · refine ⟨⟨h.pieces, h.slots, h.used, h.free, h.freeNodup⟩, rfl, rfl, fun q k b hb => ?_, fun _ => rfl⟩
    obtain ⟨slot, hfind, hbyte⟩ := Option.bind_eq_some_iff.mp hb
    refine Option.bind_eq_some_iff.mpr ⟨slot, hfind, byteAt_pwrite_outside (Or.inr ?_) hbyte⟩
    have hheader : pf.header.length ≤ pf.headerSize := pf.length_header
    change 0 + pf.header.length ≤ slot * pf.pieceSize + pf.headerSize + k
    omega

theorem le_foldl_max (l : List (ℕ × ℕ)) (n : ℕ) :
    n ≤ l.foldl (fun n e => max n (e.2 + 1)) n ∧ ∀ e ∈ l, e.2 < l.foldl (fun n e => max n (e.2 + 1)) n := by
  induction l generalizing n with
  | nil => exact ⟨le_rfl, by simp⟩
  | cons a l ih =>
    obtain ⟨h₁, h₂⟩ := ih (max n (a.2 + 1))
    refine ⟨(le_max_left _ _).trans h₁, fun e he => ?_⟩
    rcases List.mem_cons.mp he with rfl | he
    · exact lt_of_lt_of_le (Nat.lt_succ_self _) ((le_max_right _ _).trans h₁)
    · exact h₂ e he

theorem sublist_filterMap_fst {g : ℕ → Option (ℕ × ℕ)} (hg : ∀ i e, g i = some e → e.1 = i) (l : List ℕ) :
    ((l.filterMap g).map Prod.fst).Sublist l := by
  induction l with
  | nil => simp
  | cons a l ih =>
    cases ha : g a with
    | none =>
      rw [List.filterMap_cons_none ha]
      exact ih.cons a
    | some e =>
      rw [List.filterMap_cons_some ha, List.map_cons, hg a e ha]
      exact ih.cons_cons a

theorem nodup_readEntries (f : File) (n : ℕ) : ((readEntries f n).map Prod.fst).Nodup := by
  refine (sublist_filterMap_fst (fun i e he => ?_) _).nodup List.nodup_range
  dsimp only at he
  split at he
  · rw [← Option.some.inj he]
  · exact absurd he (by simp)

theorem pieceSize_load (numPieces pieceSize : ℕ) (part : Option File) :
    (load numPieces pieceSize part).pieceSize = pieceSize := by
  unfold load
  dsimp only
  split
  · rfl
  split
  · rfl
  split <;> rfl

/-- A part file on disk whose table lists no slot twice. -/
theorem wf_load {numPieces pieceSize : ℕ} {part : Option File}
    (h : ((load numPieces pieceSize part).pieceMap.map Prod.snd).Nodup) : (load numPieces pieceSize part).Wf := by
  unfold load at h ⊢
  have hempty : ({ maxPieces := numPieces, pieceSize := pieceSize } : PartFile).Wf :=
    ⟨List.nodup_nil, List.nodup_nil, by simp, by simp, List.nodup_nil⟩
  cases part with
  | none => exact hempty
  | some f =>
    dsimp only at h ⊢
    split at h
    · rename_i hc
      rw [if_pos hc]
      exact hempty
    rename_i hc
    rw [if_neg hc]
    split at h
    · rename_i hc'
      rw [if_pos hc']
      exact hempty
    rename_i hc'
    rw [if_neg hc']
    refine ⟨nodup_readEntries f numPieces, h, (le_foldl_max _ 0).2, fun slot hslot => ?_, ?_⟩
    · obtain ⟨h₁, h₂⟩ := List.mem_filter.mp hslot
      exact ⟨List.mem_range.mp h₁, by simpa using h₂⟩
    · exact List.nodup_range.filter _

end PartFile

end Mmap

end Disk

end LibtorrentSN
