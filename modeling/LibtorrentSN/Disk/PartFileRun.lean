import LibtorrentSN.Disk.PartFile

/-!
# The slots of the part file

What holds of the slots of the part file over whole runs, from any header that is found on disk. An export reads
one piece after the other (`src/part_file.cpp`). It does not hold the lock while it reads, so that anything else may
happen to the part file meanwhile.
-/

namespace LibtorrentSN

namespace Disk

namespace Mmap

namespace PartFile

/-- The variables of `export_file`. -/
structure Export where
  piece : ℕ
  endPiece : ℕ
  pieceOffset : ℕ
  size : ℕ
  -- the slot that is being read, without the lock
  reading : Option ℕ := none

namespace Export

variable (e : Export)

def blockToCopy (pieceSize : ℕ) : ℕ := min (pieceSize - e.pieceOffset) e.size

/-- The next turn of the loop. -/
def next (pieceSize : ℕ) : Export where
  piece := e.piece + 1
  endPiece := e.endPiece
  pieceOffset := 0
  size := e.size - e.blockToCopy pieceSize

end Export

variable (pf : PartFile)

/-- `export_file` up to its loop. It does nothing if nothing is stored or the file can't be opened. -/
def startExport (offset size : ℕ) (openFails : Bool) : Option Export :=
  if pf.pieceMap = [] ∨ openFails then none
  else some {
    piece := offset / pf.pieceSize
    endPiece := (offset + size + pf.pieceSize - 1) / pf.pieceSize
    pieceOffset := offset - offset / pf.pieceSize * pf.pieceSize
    size }

/-- A turn of the loop up to the read, and the export unless it ends there. -/
def lookExport (e : Export) : Option Export :=
  if e.piece < e.endPiece then
    match pf.find e.piece with
    | some slot => some { e with reading := some slot }
    | none => some (e.next pf.pieceSize)
  else none

/-- The rest of the turn. A piece that was read whole is freed, if it is still there. -/
def readExport (e : Export) (readFails : Bool) : PartFile × Option Export :=
  if readFails then (pf, none)
  else if e.blockToCopy pf.pieceSize = pf.pieceSize then (pf.freePiece e.piece, some (e.next pf.pieceSize))
  else (pf, some (e.next pf.pieceSize))

/-- The part file, its file, and the exports that run. -/
structure Run where
  pf : PartFile
  part : Option File
  exports : List Export := []

inductive Step (s : Run) : Run → Prop
  | write (buf : List UInt8) (piece offset : ℕ) (x : PartWriteFault) (hpiece : piece < s.pf.maxPieces)
      (hend : offset + buf.length ≤ s.pf.pieceSize) :
      Step s { s with
        pf := (s.pf.write s.part buf piece offset x).1
        part := (s.pf.write s.part buf piece offset x).2.1 }
  | freePiece (piece : ℕ) : Step s { s with pf := s.pf.freePiece piece }
  | flushMetadata (fails : Bool) :
      Step s { s with pf := (s.pf.flushMetadata s.part fails).1, part := (s.pf.flushMetadata s.part fails).2.1 }
  | startExport (offset size : ℕ) (openFails : Bool) :
      Step s { s with exports := s.exports ++ (s.pf.startExport offset size openFails).toList }
  | lookExport (i : ℕ) (e : Export) (he : s.exports[i]? = some e) (hlook : e.reading = none) :
      Step s { s with exports := s.exports.take i ++ (s.pf.lookExport e).toList ++ s.exports.drop (i + 1) }
  | readExport (i : ℕ) (e : Export) (readFails : Bool) (he : s.exports[i]? = some e) (hread : e.reading ≠ none) :
      Step s { s with
        pf := (s.pf.readExport e readFails).1
        exports := s.exports.take i ++ (s.pf.readExport e readFails).2.toList ++ s.exports.drop (i + 1) }

/-- The states of the runs from a part file on disk. -/
inductive Reached (numPieces pieceSize : ℕ) (part : Option File) : Run → Prop
  | load : Reached numPieces pieceSize part { pf := load numPieces pieceSize part, part }
  | step {s s' : Run} (hs : Reached numPieces pieceSize part s) (h : Step s s') : Reached numPieces pieceSize part s'

/-- The slots of the pieces are different and below the mark, and each slot below the mark is the one of a piece or
stands once among the free ones. -/
structure SlotMap : Prop where
  one : ∀ p q slot, pf.find p = some slot → pf.find q = some slot → p = q
  below : ∀ p slot, pf.find p = some slot → slot < pf.numAllocated
  used_or_free : ∀ slot < pf.numAllocated, ((∃ p, pf.find p = some slot) ∧ slot ∉ pf.freeSlots) ∨
    ((∀ p, pf.find p ≠ some slot) ∧ pf.freeSlots.count slot = 1)

/-- A write leaves the bytes of the other pieces alone. -/
def KeepsOthers (part : Option File) : Prop :=
  ∀ (buf : List UInt8) (p offset : ℕ) (x : PartWriteFault), offset + buf.length ≤ pf.pieceSize →
    ∀ q k b, q ≠ p → k < pf.pieceSize → pf.get? part q k = some b →
      (pf.write part buf p offset x).1.get? (pf.write part buf p offset x).2.1 q k = some b

/-- The invariant: the table is one-to-one, and no slot is lost. -/
structure Complete : Prop extends Wf pf where
  covers : ∀ slot < pf.numAllocated, slot ∈ pf.freeSlots ∨ slot ∈ pf.pieceMap.map Prod.snd

variable {pf} {numPieces pieceSize p slot : ℕ} {part : Option File} {s s' : Run}

theorem find_of_mem (h : (pf.pieceMap.map Prod.fst).Nodup) (hmem : (p, slot) ∈ pf.pieceMap) :
    pf.find p = some slot := by
  cases hfind : pf.find p with
  | none => exact absurd (List.mem_map_of_mem hmem) (not_mem_of_find hfind)
  | some slot' =>
    have heq := List.inj_on_of_nodup_map h (mem_of_find hfind) hmem rfl
    exact congrArg (some ∘ Prod.snd) heq

theorem Wf.mem_slots_iff (h : pf.Wf) : slot ∈ pf.pieceMap.map Prod.snd ↔ ∃ p, pf.find p = some slot := by
  constructor
  · intro hmem
    obtain ⟨e, he, rfl⟩ := List.mem_map.mp hmem
    exact ⟨e.1, find_of_mem h.pieces he⟩
  · rintro ⟨p, hp⟩
    exact List.mem_map.mpr ⟨_, mem_of_find hp, rfl⟩

theorem Complete.slotMap (h : pf.Complete) : pf.SlotMap := by
  refine ⟨fun p q slot hp hq => h.find_inj hp hq, fun p slot hp => h.find_lt hp, fun slot hlt => ?_⟩
  by_cases hmem : slot ∈ pf.pieceMap.map Prod.snd
  · exact .inl ⟨h.mem_slots_iff.mp hmem, fun hfree => (h.free slot hfree).2 hmem⟩
  · refine .inr ⟨fun p hp => hmem (h.mem_slots_iff.mpr ⟨p, hp⟩), ?_⟩
    exact List.count_eq_one_of_mem h.freeNodup ((h.covers slot hlt).resolve_right hmem)

theorem Complete.keepsOthers (h : pf.Complete) (part : Option File) : pf.KeepsOthers part :=
  fun _ p _ x hend q k b hq hk hb => (h.toWf.write part hend p x).keeps q k b hk (.inl hq) hb

/-! ## Steps -/

theorem Complete.slotFor (h : pf.Complete) (p : ℕ) : (pf.slotFor p).1.Complete := by
  refine ⟨(h.toWf.slotFor p).wf, ?_⟩
  rw [PartFile.slotFor]
  split
  · exact h.covers
  · rw [PartFile.allocateSlot]
    split
    · next slot rest hfree =>
      intro s hs
      rcases h.covers s hs with hmem | hmem
      · rw [hfree] at hmem
        rcases List.mem_cons.mp hmem with rfl | hmem
        · exact .inr List.mem_cons_self
        · exact .inl hmem
      · exact .inr (List.mem_cons_of_mem _ hmem)
    · intro s hs
      rcases Nat.lt_succ_iff_lt_or_eq.mp hs with hs | rfl
      · exact (h.covers s hs).imp_right (List.mem_cons_of_mem _)
      · exact .inr List.mem_cons_self

theorem Complete.write (h : pf.Complete) (part : Option File) {buf : List UInt8} {offset : ℕ}
    (x : PartWriteFault) : (pf.write part buf p offset x).1.Complete := by
  rw [PartFile.write]
  split
  · exact h
  · dsimp only
    split
    · exact h.slotFor p
    · split <;> exact h.slotFor p

theorem Complete.freePiece (h : pf.Complete) (p : ℕ) : (pf.freePiece p).Complete := by
  refine ⟨h.toWf.freePiece p, ?_⟩
  rw [PartFile.freePiece]
  split
  · exact h.covers
  · next slot hfind =>
    intro s hs
    rcases h.covers s hs with hmem | hmem
    · exact .inl (List.mem_append_left _ hmem)
    · obtain ⟨e, he, rfl⟩ := List.mem_map.mp hmem
      by_cases heq : e.1 = p
      · have hslot : pf.find p = some e.2 := heq ▸ find_of_mem h.pieces he
        obtain rfl := Option.some.inj (hfind.symm.trans hslot)
        exact .inl (List.mem_append_right _ (List.mem_singleton_self _))
      · exact .inr (List.mem_map_of_mem (List.mem_filter.mpr ⟨he, decide_eq_true heq⟩))

theorem Complete.flushMetadata (h : pf.Complete) (part : Option File) (fails : Bool) :
    (pf.flushMetadata part fails).1.Complete := by
  refine ⟨(flushMetadata_spec h.toWf part fails).1, ?_⟩
  rw [PartFile.flushMetadata]
  split
  · exact h.covers
  · split
    · split <;> exact h.covers
    · split <;> exact h.covers

theorem Complete.readExport (h : pf.Complete) (e : Export) (readFails : Bool) :
    (pf.readExport e readFails).1.Complete := by
  rw [PartFile.readExport]
  split
  · exact h
  · split
    · exact h.freePiece e.piece
    · exact h

theorem Complete.step (h : s.pf.Complete) (hstep : Step s s') : s'.pf.Complete := by
  cases hstep with
  | write buf piece offset x _ hend => exact h.write s.part x
  | freePiece piece => exact h.freePiece piece
  | flushMetadata fails => exact h.flushMetadata s.part fails
  | startExport offset size openFails => exact h
  | lookExport i e _ _ => exact h
  | readExport i e readFails _ _ => exact h.readExport e readFails

theorem Reached.complete (h : Reached numPieces pieceSize part s) (hload : (PartFile.load numPieces pieceSize part).Complete) :
    s.pf.Complete := by
  induction h with
  | load => exact hload
  | step _ hstep ih => exact ih.step hstep

/-! ## Headers -/

/-- No two pieces have the same slot in the table of a header. -/
def DistinctSlots (f : File) (numPieces : ℕ) : Prop :=
  ∀ i < numPieces, ∀ j < numPieces, 0 ≤ f.readInt32 (8 + 4 * i) → f.readInt32 (8 + 4 * i) < numPieces →
    f.readInt32 (8 + 4 * i) = f.readInt32 (8 + 4 * j) → i = j

/-- A header of the size that is asked for, with the numbers that are asked for. -/
structure Matches (f : File) (numPieces pieceSize : ℕ) : Prop where
  size : roundUp ((2 + numPieces) * 4) ≤ f.size
  pieces : f.readUint32 0 = numPieces
  pieceSize : f.readUint32 4 = pieceSize

theorem load_eq {f : File} (h : Matches f numPieces pieceSize) : load numPieces pieceSize (some f) =
    { maxPieces := numPieces
      pieceSize := pieceSize
      pieceMap := readEntries f numPieces
      numAllocated := (readEntries f numPieces).foldl (fun n e => max n (e.2 + 1)) 0
      freeSlots := (List.range ((readEntries f numPieces).foldl (fun n e => max n (e.2 + 1)) 0)).filter
        fun slot => slot ∉ (readEntries f numPieces).map Prod.snd } := by
  have hsize : ¬ f.size < PartFile.headerSize { maxPieces := numPieces, pieceSize := pieceSize } := not_lt.mpr h.size
  rw [load]
  dsimp only
  rw [if_neg hsize, if_neg (not_or.mpr ⟨not_not.mpr h.pieces, not_not.mpr h.pieceSize⟩)]

theorem mem_readEntries {f : File} : (p, slot) ∈ readEntries f numPieces ↔
    p < numPieces ∧ f.readInt32 (8 + 4 * p) = slot ∧ slot < numPieces := by
  simp only [readEntries, List.mem_filterMap, List.mem_range]
  constructor
  · rintro ⟨i, hi, heq⟩
    split at heq
    · next hin =>
      obtain ⟨rfl, rfl⟩ := Prod.mk.inj (Option.some.inj heq)
      omega
    · cases heq
  · rintro ⟨hp, heq, hlt⟩
    refine ⟨p, hp, ?_⟩
    rw [if_pos (by omega), heq]
    rfl

theorem nodup_slots_iff {f : File} :
    ((readEntries f numPieces).map Prod.snd).Nodup ↔ DistinctSlots f numPieces := by
  have hpieces := nodup_readEntries f numPieces
  constructor
  · intro hnodup i hi j hj hlow hhigh heq
    have hmem : ∀ k < numPieces, f.readInt32 (8 + 4 * k) = f.readInt32 (8 + 4 * i) →
        (k, (f.readInt32 (8 + 4 * i)).toNat) ∈ readEntries f numPieces := fun k hk heq =>
      mem_readEntries.mpr ⟨hk, by omega, by omega⟩
    exact congrArg Prod.fst (List.inj_on_of_nodup_map hnodup (hmem i hi rfl) (hmem j hj heq.symm) rfl)
  · intro hdistinct
    refine List.Nodup.map_on (fun e he e' he' heq => ?_) (List.Nodup.of_map _ hpieces)
    obtain ⟨hp, hslot, hlt⟩ := mem_readEntries.mp he
    obtain ⟨hp', hslot', -⟩ := mem_readEntries.mp he'
    have hsame := hdistinct e.1 hp e'.1 hp' (by omega) (by omega) (by omega)
    exact Prod.ext hsame heq

theorem complete_load {f : File} (h : Matches f numPieces pieceSize) (hdistinct : DistinctSlots f numPieces) :
    (load numPieces pieceSize (some f)).Complete := by
  have hnodup := nodup_slots_iff.mpr hdistinct
  have hload := load_eq h
  refine ⟨wf_load (by rw [hload]; exact hnodup), ?_⟩
  rw [hload]
  intro slot hlt
  by_cases hmem : slot ∈ (readEntries f numPieces).map Prod.snd
  · exact .inr hmem
  · exact .inl (List.mem_filter.mpr ⟨List.mem_range.mpr hlt, decide_eq_true hmem⟩)

/-- From a header the slots stay in order in every run if and only if its table has no slot twice. -/
theorem reached_slotMap_iff {f : File} (h : Matches f numPieces pieceSize) :
    (∀ s, Reached numPieces pieceSize (some f) s → s.pf.SlotMap ∧ s.pf.KeepsOthers s.part) ↔
      DistinctSlots f numPieces := by
  constructor
  · intro hall
    have hmap := (hall _ .load).1
    intro i hi j hj hlow hhigh heq
    have hpieces : ((load numPieces pieceSize (some f)).pieceMap.map Prod.fst).Nodup := by
      rw [load_eq h]
      exact nodup_readEntries f numPieces
    have hfind : ∀ k < numPieces, f.readInt32 (8 + 4 * k) = f.readInt32 (8 + 4 * i) →
        (load numPieces pieceSize (some f)).find k = some (f.readInt32 (8 + 4 * i)).toNat := by
      intro k hk heq
      refine find_of_mem hpieces ?_
      rw [load_eq h]
      exact mem_readEntries.mpr ⟨hk, by omega, by omega⟩
    exact hmap.one i j _ (hfind i hi rfl) (hfind j hj heq.symm)
  · intro hdistinct s hs
    have hcomplete := hs.complete (complete_load h hdistinct)
    exact ⟨hcomplete.slotMap, hcomplete.keepsOthers s.part⟩

/-- A part file for two pieces, with these slots in its table. -/
def twoPieces (slots : List ℤ) : File where
  size := 1024
  byte k := (writeUint32 2 ++ writeUint32 16384 ++ slots.flatMap writeInt32).getD k 0

/-- Only the first piece has a slot. -/
theorem reached_slotMap_iff_one : DistinctSlots (twoPieces [0, -1]) 2 ∧
    ∀ s, Reached 2 16384 (some (twoPieces [0, -1])) s → s.pf.SlotMap ∧ s.pf.KeepsOthers s.part := by
  have hdistinct : DistinctSlots (twoPieces [0, -1]) 2 := by
    rw [DistinctSlots]
    decide
  exact ⟨hdistinct, (reached_slotMap_iff ⟨by decide, by decide, by decide⟩).mpr hdistinct⟩

/-- Both pieces have the first slot. -/
theorem not_reached_slotMap : ∃ s, Reached 2 16384 (some (twoPieces [0, 0])) s ∧ s.pf.find 0 = some 0 ∧
    s.pf.find 1 = some 0 ∧ ¬ s.pf.SlotMap :=
  ⟨_, .load, by decide, by decide, fun h => absurd (h.one 0 1 0 (by decide) (by decide)) (by decide)⟩

end PartFile

end Mmap

end Disk

end LibtorrentSN
