import Mathlib.Data.List.Perm.Subperm
import LibtorrentSN.Disk.PartFileRun

/-!
# The header of the part file

The table of the slots that is written to disk is read back as it was.
-/

namespace LibtorrentSN

namespace Disk

namespace Mmap

variable {f : File} {offset n : ℕ}

/-- The bytes of a file from a place on. -/
def BytesAt (f : File) (offset : ℕ) (bytes : List UInt8) : Prop :=
  offset + bytes.length ≤ f.size ∧ ∀ k < bytes.length, f.byte (offset + k) = bytes.getD k 0

theorem BytesAt.left {bytes bytes' : List UInt8} (h : BytesAt f offset (bytes ++ bytes')) : BytesAt f offset bytes := by
  obtain ⟨hsize, hbyte⟩ := h
  rw [List.length_append] at hsize hbyte
  refine ⟨by omega, fun k hk => ?_⟩
  rw [hbyte k (by omega), List.getD_append _ _ _ _ hk]

theorem BytesAt.right {bytes bytes' : List UInt8} (h : BytesAt f offset (bytes ++ bytes')) :
    BytesAt f (offset + bytes.length) bytes' := by
  obtain ⟨hsize, hbyte⟩ := h
  rw [List.length_append] at hsize hbyte
  refine ⟨by omega, fun k hk => ?_⟩
  rw [Nat.add_assoc, hbyte _ (by omega), List.getD_append_right _ _ _ _ (Nat.le_add_right _ _), Nat.add_sub_cancel_left]

/-- What was written is there. -/
theorem bytesAt_pwrite (f : File) (offset : ℕ) (bytes : List UInt8) : BytesAt (f.pwrite offset bytes) offset bytes := by
  refine ⟨le_max_right _ _, fun k hk => ?_⟩
  rw [File.pwrite]
  dsimp only
  rw [if_pos ⟨Nat.le_add_right _ _, by omega⟩, Nat.add_sub_cancel_left]

/-- What is written behind the bytes leaves them alone. -/
theorem BytesAt.pwrite {bytes : List UInt8} (h : BytesAt f offset bytes) {offset' : ℕ} (buf : List UInt8)
    (hle : offset + bytes.length ≤ offset') : BytesAt (f.pwrite offset' buf) offset bytes := by
  obtain ⟨hsize, hbyte⟩ := h
  refine ⟨hsize.trans (le_max_left _ _), fun k hk => ?_⟩
  rw [File.pwrite]
  dsimp only
  rw [if_neg (by omega), if_pos (by omega), hbyte k hk]

theorem readUint32_of_bytesAt (h : BytesAt f offset (writeUint32 n)) (hn : n < 2 ^ 32) : f.readUint32 offset = n := by
  have hbyte : ∀ k < 4, f.byte (offset + k) = (writeUint32 n).getD k 0 := h.2
  have hzero := hbyte 0 (by decide)
  have hone := hbyte 1 (by decide)
  have htwo := hbyte 2 (by decide)
  have hthree := hbyte 3 (by decide)
  rw [Nat.add_zero] at hzero
  rw [File.readUint32, hzero, hone, htwo, hthree]
  simp only [writeUint32, List.map_cons, List.map_nil, List.getD_cons_zero, List.getD_cons_succ, UInt8.toNat_ofNat']
  omega

theorem bmod_toNat_emod {z : ℤ} (hlow : -2147483648 ≤ z) (hhigh : z < 2147483648) :
    ((z % 2 ^ 32).toNat : ℤ).bmod (2 ^ 32) = z := by
  have hmod : ((z % 2 ^ 32).toNat : ℤ) = z % 2 ^ 32 := Int.toNat_of_nonneg (Int.emod_nonneg z (by norm_num))
  have hpow : (2 ^ 32 : ℕ) = 4294967296 := by norm_num
  rw [hmod, hpow, Int.bmod]
  split <;> omega

theorem readInt32_of_bytesAt {z : ℤ} (h : BytesAt f offset (writeInt32 z)) (hlow : -2147483648 ≤ z)
    (hhigh : z < 2147483648) : f.readInt32 offset = z := by
  have hlt : (z % 2 ^ 32).toNat < 2 ^ 32 := by omega
  have hread : f.readUint32 offset = (z % 2 ^ 32).toNat := readUint32_of_bytesAt h hlt
  unfold File.readInt32
  simp only [hread]
  exact bmod_toNat_emod hlow hhigh

/-- An entry of a table whose entries have four bytes. -/
theorem BytesAt.entry {α : Type} {g : α → List UInt8} (hg : ∀ a, (g a).length = 4) {l : List α} {i : ℕ} {a : α}
    (h : BytesAt f offset (l.flatMap g)) (ha : l[i]? = some a) : BytesAt f (offset + 4 * i) (g a) := by
  induction l generalizing offset i with
  | nil => cases ha
  | cons b l ih =>
    rw [List.flatMap_cons] at h
    cases i with
    | zero =>
      obtain rfl := Option.some.inj ha
      exact h.left
    | succ i =>
      have hright := ih (hg b ▸ h.right) ha
      rwa [Nat.mul_succ, Nat.add_comm (4 * i), ← Nat.add_assoc]

namespace PartFile

variable {pf : PartFile} {part : Option File} {s s' : Run} {numPieces pieceSize p slot : ℕ}

/-- The pieces and their slots are in the range of the table, and the table is on disk unless it has changed. -/
structure Kept (s : Run) : Prop extends Complete s.pf where
  pieces_lt : ∀ e ∈ s.pf.pieceMap, e.1 < s.pf.maxPieces
  alloc_le : s.pf.numAllocated ≤ s.pf.maxPieces
  stored : s.pf.dirtyMetadata = false → s.pf.pieceMap ≠ [] → ∃ f, s.part = some f ∧ BytesAt f 0 s.pf.header

theorem length_header_eq (pf : PartFile) : pf.header.length = pf.headerSize := by
  refine le_antisymm pf.length_header ?_
  rw [header, List.length_append, List.length_replicate]
  omega

/-- A new slot is needed only if all slots are in use, by other pieces. -/
theorem Complete.alloc_lt (h : pf.Complete) (hpieces : ∀ e ∈ pf.pieceMap, e.1 < pf.maxPieces)
    (hfree : pf.freeSlots = []) (hfind : pf.find p = none) (hp : p < pf.maxPieces) :
    pf.numAllocated < pf.maxPieces := by
  have hslots : pf.numAllocated ≤ pf.pieceMap.length := by
    have hsub : List.range pf.numAllocated ⊆ pf.pieceMap.map Prod.snd := fun slot hslot =>
      (h.covers slot (List.mem_range.mp hslot)).resolve_left (by simp [hfree])
    have hle := (List.subperm_of_subset List.nodup_range hsub).length_le
    rwa [List.length_range, List.length_map] at hle
  have hnodup : (p :: pf.pieceMap.map Prod.fst).Nodup := List.nodup_cons.mpr ⟨not_mem_of_find hfind, h.pieces⟩
  have hsub : p :: pf.pieceMap.map Prod.fst ⊆ List.range pf.maxPieces := by
    refine List.cons_subset.mpr ⟨List.mem_range.mpr hp, fun q hq => ?_⟩
    obtain ⟨e, he, rfl⟩ := List.mem_map.mp hq
    exact List.mem_range.mpr (hpieces e he)
  have hle := (List.subperm_of_subset hnodup hsub).length_le
  rw [List.length_cons, List.length_map, List.length_range] at hle
  omega

/-- A piece that has no slot gets one, and the table has changed then. -/
theorem Kept.slotFor (h : Kept s) (hp : p < s.pf.maxPieces) :
    (s.pf.slotFor p).1 = s.pf ∨ ((s.pf.slotFor p).1.dirtyMetadata = true ∧
      (∀ e ∈ (s.pf.slotFor p).1.pieceMap, e.1 < (s.pf.slotFor p).1.maxPieces) ∧
      (s.pf.slotFor p).1.numAllocated ≤ (s.pf.slotFor p).1.maxPieces) := by
  rw [PartFile.slotFor]
  split
  · exact .inl rfl
  · next hfind =>
    have hpieces : ∀ slot, ∀ e ∈ (p, slot) :: s.pf.pieceMap, e.1 < s.pf.maxPieces := fun slot =>
      List.forall_mem_cons.mpr ⟨hp, h.pieces_lt⟩
    rw [allocateSlot]
    split
    · exact .inr ⟨rfl, hpieces _, h.alloc_le⟩
    · next hfree => exact .inr ⟨rfl, hpieces _, h.alloc_lt h.pieces_lt hfree hfind hp⟩

theorem Kept.of_dirty {pf : PartFile} {part : Option File} {exports : List Export} (h : pf.Complete)
    (hdirty : pf.dirtyMetadata = true) (hpieces : ∀ e ∈ pf.pieceMap, e.1 < pf.maxPieces)
    (halloc : pf.numAllocated ≤ pf.maxPieces) : Kept { pf, part, exports } := by
  refine ⟨h, hpieces, halloc, fun hclean => ?_⟩
  rw [hdirty] at hclean
  cases hclean

theorem Kept.write (h : Kept s) {buf : List UInt8} {offset : ℕ} (hp : p < s.pf.maxPieces) (x : PartWriteFault) :
    Kept { s with
      pf := (s.pf.write s.part buf p offset x).1
      part := (s.pf.write s.part buf p offset x).2.1 } := by
  have hcomplete := h.toComplete.slotFor p
  -- a write to a slot leaves the header alone
  have hpwrite : ∀ buf, Kept { s with
      pf := (s.pf.slotFor p).1
      part := some ((s.part.getD {}).pwrite ((s.pf.slotFor p).1.slotOffset (s.pf.slotFor p).2 + offset) buf) } := by
    intro buf
    rcases h.slotFor hp with heq | ⟨hdirty, hpieces, halloc⟩
    · rw [heq]
      refine ⟨h.toComplete, h.pieces_lt, h.alloc_le, fun hclean hne => ?_⟩
      obtain ⟨f, hf, hbytes⟩ := h.stored hclean hne
      rw [hf]
      refine ⟨_, rfl, hbytes.pwrite buf ?_⟩
      rw [length_header_eq, slotOffset]
      omega
    · exact .of_dirty hcomplete hdirty hpieces halloc
  rw [PartFile.write]
  split
  · exact h
  · dsimp only
    split
    · rcases h.slotFor hp with heq | ⟨hdirty, hpieces, halloc⟩
      · rw [heq]
        exact h
      · exact .of_dirty hcomplete hdirty hpieces halloc
    · split
      · exact hpwrite buf
      · exact hpwrite _

theorem Kept.freePiece (h : Kept s) (p : ℕ) (exports : List Export) :
    Kept { s with pf := s.pf.freePiece p, exports } := by
  have hcomplete := h.toComplete.freePiece p
  rw [PartFile.freePiece] at hcomplete ⊢
  split at hcomplete
  · exact ⟨h.toComplete, h.pieces_lt, h.alloc_le, h.stored⟩
  · exact .of_dirty hcomplete rfl (fun e he => h.pieces_lt e (List.mem_of_mem_filter he)) h.alloc_le

theorem Kept.flushMetadata (h : Kept s) (fails : Bool) :
    Kept { s with pf := (s.pf.flushMetadata s.part fails).1, part := (s.pf.flushMetadata s.part fails).2.1 } := by
  have hcomplete := h.toComplete.flushMetadata s.part fails
  rw [PartFile.flushMetadata] at hcomplete ⊢
  split
  · exact h
  · next hdirty =>
    rw [if_neg hdirty] at hcomplete
    have hdirty : s.pf.dirtyMetadata = true := not_not.mp hdirty
    split
    · next hempty =>
      split
      · exact .of_dirty h.toComplete hdirty h.pieces_lt h.alloc_le
      · exact .of_dirty h.toComplete hdirty h.pieces_lt h.alloc_le
    · next hempty =>
      rw [if_neg hempty] at hcomplete
      split
      · exact .of_dirty h.toComplete hdirty h.pieces_lt h.alloc_le
      · next hfails =>
        rw [if_neg hfails] at hcomplete
        exact ⟨hcomplete, h.pieces_lt, h.alloc_le, fun _ _ => ⟨_, rfl, bytesAt_pwrite _ 0 _⟩⟩

theorem Kept.readExport (h : Kept s) (e : Export) (readFails : Bool) (exports : List Export) :
    Kept { s with pf := (s.pf.readExport e readFails).1, exports } := by
  have hsame : Kept { s with exports } := ⟨h.toComplete, h.pieces_lt, h.alloc_le, h.stored⟩
  rw [PartFile.readExport]
  split
  · exact hsame
  · split
    · exact h.freePiece e.piece exports
    · exact hsame

theorem Kept.step (h : Kept s) (hstep : Step s s') : Kept s' := by
  cases hstep with
  | write buf piece offset x hpiece _ => exact h.write hpiece x
  | freePiece piece => exact h.freePiece piece s.exports
  | flushMetadata fails => exact h.flushMetadata fails
  | startExport offset size openFails => exact ⟨h.toComplete, h.pieces_lt, h.alloc_le, h.stored⟩
  | lookExport i e _ _ => exact ⟨h.toComplete, h.pieces_lt, h.alloc_le, h.stored⟩
  | readExport i e readFails _ _ => exact h.readExport e readFails _

theorem kept_load (numPieces pieceSize : ℕ) : Kept { pf := load numPieces pieceSize none, part := none } := by
  refine ⟨⟨@wf_load numPieces pieceSize none List.nodup_nil, fun slot hslot => ?_⟩, fun e he => ?_, Nat.zero_le _,
    fun _ hne => ?_⟩
  · exact absurd hslot (Nat.not_lt_zero slot)
  · exact absurd he List.not_mem_nil
  · exact absurd rfl hne

theorem Reached.kept (h : Reached numPieces pieceSize none s) : Kept s := by
  induction h with
  | load => exact kept_load numPieces pieceSize
  | step _ hstep ih => exact ih.step hstep

theorem Reached.sizes (h : Reached numPieces pieceSize part s) (hload : (PartFile.load numPieces pieceSize part).Complete)
    (hmax : (PartFile.load numPieces pieceSize part).maxPieces = numPieces) :
    s.pf.maxPieces = numPieces ∧ s.pf.pieceSize = pieceSize := by
  induction h with
  | load => exact ⟨hmax, pieceSize_load numPieces pieceSize part⟩
  | @step s s' hs hstep ih =>
    have hwf := (hs.complete hload).toWf
    have hfreePiece : ∀ p, (s.pf.freePiece p).maxPieces = numPieces ∧ (s.pf.freePiece p).pieceSize = pieceSize := by
      intro p
      rw [PartFile.freePiece]
      split <;> exact ih
    cases hstep with
    | write buf piece offset x _ hend =>
      have hwritten := hwf.write s.part hend piece x
      exact ⟨hwritten.maxPieces.trans ih.1, hwritten.pieceSize.trans ih.2⟩
    | freePiece piece => exact hfreePiece piece
    | flushMetadata fails =>
      obtain ⟨-, hpieces, hsize, -⟩ := flushMetadata_spec hwf s.part fails
      exact ⟨hpieces.trans ih.1, hsize.trans ih.2⟩
    | startExport offset size openFails => exact ih
    | lookExport i e _ _ => exact ih
    | readExport i e readFails _ _ =>
      rw [PartFile.readExport]
      split
      · exact ih
      · split
        · exact hfreePiece e.piece
        · exact ih

/-! ## Reading the header back -/

/-- The entry of a piece in the table. -/
def tableEntry (pf : PartFile) (piece : ℕ) : ℤ := ((pf.find piece).map Int.ofNat).getD (-1)

theorem matches_of_header {f : File} (h : BytesAt f 0 pf.header) (hpieces : pf.maxPieces < 2 ^ 32)
    (hsize : pf.pieceSize < 2 ^ 32) : Matches f pf.maxPieces pf.pieceSize := by
  have hlen := h.1
  rw [length_header_eq, Nat.zero_add] at hlen
  rw [header, List.append_assoc, List.append_assoc] at h
  exact ⟨hlen, readUint32_of_bytesAt h.left hpieces, readUint32_of_bytesAt h.right.left hsize⟩

theorem readInt32_of_header {f : File} (h : BytesAt f 0 pf.header) (hp : p < pf.maxPieces)
    (hfind : ∀ slot, pf.find p = some slot → slot < 2147483648) : f.readInt32 (8 + 4 * p) = pf.tableEntry p := by
  rw [header, List.append_assoc, List.append_assoc] at h
  have htable := h.right.right.left
  have hentry : BytesAt f (8 + 4 * p) (writeInt32 (pf.tableEntry p)) :=
    htable.entry (fun _ => rfl) (List.getElem?_range hp)
  have hrange : -2147483648 ≤ pf.tableEntry p ∧ pf.tableEntry p < 2147483648 := by
    rw [tableEntry]
    cases h' : pf.find p with
    | none => exact ⟨by decide, by decide⟩
    | some slot =>
      have hlt := hfind slot h'
      rw [Option.map_some, Option.getD_some, Int.ofNat_eq_natCast]
      omega
  exact readInt32_of_bytesAt hentry hrange.1 hrange.2

/-- The highest slot is the one of an entry. -/
theorem exists_foldl_max (l : List (ℕ × ℕ)) (n : ℕ) : l.foldl (fun n e => max n (e.2 + 1)) n = n ∨
    ∃ e ∈ l, l.foldl (fun n e => max n (e.2 + 1)) n = e.2 + 1 := by
  induction l generalizing n with
  | nil => exact .inl rfl
  | cons a l ih =>
    rw [List.foldl_cons]
    rcases ih (max n (a.2 + 1)) with heq | ⟨e, he, heq⟩
    · rcases max_choice n (a.2 + 1) with hmax | hmax
      · exact .inl (heq.trans hmax)
      · exact .inr ⟨a, List.mem_cons_self, heq.trans hmax⟩
    · exact .inr ⟨e, List.mem_cons_of_mem a he, heq⟩

/-- A part file that is loaded has the slots of the one that was saved, and no slot behind the last one in use. -/
structure LoadsAs (pf pf' : PartFile) : Prop where
  find : ∀ p, pf'.find p = pf.find p
  free : ∀ slot, slot ∈ pf'.freeSlots ↔ slot < pf'.numAllocated ∧ ∀ p, pf'.find p ≠ some slot
  freeNodup : pf'.freeSlots.Nodup
  below : ∀ p slot, pf'.find p = some slot → slot < pf'.numAllocated
  last : ∃ p, pf'.find p = some (pf'.numAllocated - 1)

/-- The entries that are read from the table are the pieces with their slots. -/
theorem mem_readEntries_of_header {f : File} (h : BytesAt f 0 pf.header) (hpieces : pf.maxPieces < 2 ^ 31)
    (hslot : ∀ p slot, pf.find p = some slot → p < pf.maxPieces ∧ slot < pf.maxPieces) (p slot : ℕ) :
    (p, slot) ∈ readEntries f pf.maxPieces ↔ pf.find p = some slot := by
  have hread : p < pf.maxPieces → f.readInt32 (8 + 4 * p) = pf.tableEntry p := by
    refine fun hp => readInt32_of_header h hp fun slot hfind => ?_
    have hlt := (hslot p slot hfind).2
    omega
  rw [mem_readEntries]
  constructor
  · rintro ⟨hp, heq, -⟩
    rw [hread hp, tableEntry] at heq
    cases hfind : pf.find p with
    | none =>
      rw [hfind] at heq
      exact absurd heq (by simp)
    | some slot' =>
      rw [hfind] at heq
      exact congrArg some (Int.ofNat.inj heq)
  · intro hfind
    obtain ⟨hp, hlt⟩ := hslot p slot hfind
    refine ⟨hp, ?_, hlt⟩
    rw [hread hp, tableEntry, hfind]
    rfl

theorem Kept.loadsAs (h : Kept s) (hclean : s.pf.dirtyMetadata = false) (hne : s.pf.pieceMap ≠ [])
    (hpieces : s.pf.maxPieces < 2 ^ 31) (hsize : s.pf.pieceSize < 2 ^ 31) :
    LoadsAs s.pf (load s.pf.maxPieces s.pf.pieceSize s.part) := by
  obtain ⟨f, hpart, hbytes⟩ := h.stored hclean hne
  have hmatches := matches_of_header hbytes (by omega) (by omega)
  have hload := load_eq hmatches
  have hmem := mem_readEntries_of_header hbytes hpieces fun p slot hfind =>
    ⟨h.pieces_lt _ (mem_of_find hfind), (h.find_lt hfind).trans_le h.alloc_le⟩
  have hfind : ∀ p, (load s.pf.maxPieces s.pf.pieceSize (some f)).find p = s.pf.find p := by
    intro p
    refine Option.ext fun slot => ?_
    rw [← hmem, hload]
    exact ⟨fun hfind => mem_of_find hfind, fun hmem => find_of_mem (nodup_readEntries f _) hmem⟩
  have hcomplete : (load s.pf.maxPieces s.pf.pieceSize (some f)).Complete := by
    refine complete_load hmatches (nodup_slots_iff.mp ?_)
    refine List.Nodup.map_on (fun e he e' he' heq => ?_) (List.Nodup.of_map _ (nodup_readEntries f _))
    have hpiece := h.find_inj ((hmem _ _).mp he) (heq ▸ (hmem _ _).mp he')
    exact Prod.ext hpiece heq
  rw [hpart]
  refine ⟨hfind, fun slot => ?_, hcomplete.freeNodup, fun p slot hp => hcomplete.find_lt hp, ?_⟩
  · constructor
    · intro hfree
      obtain ⟨hlt, hnot⟩ := hcomplete.free slot hfree
      exact ⟨hlt, fun p hp => hnot (List.mem_map_of_mem (mem_of_find hp))⟩
    · rintro ⟨hlt, hnot⟩
      refine (hcomplete.covers slot hlt).resolve_right fun hused => ?_
      obtain ⟨p, hp⟩ := hcomplete.mem_slots_iff.mp hused
      exact hnot p hp
  · obtain ⟨e, he⟩ := List.exists_mem_of_ne_nil _ hne
    have hpos := (le_foldl_max _ 0).2 _ ((hmem e.1 e.2).mpr (find_of_mem h.pieces he))
    have hlast := (exists_foldl_max (readEntries f s.pf.maxPieces) 0).resolve_left (by omega)
    obtain ⟨e', he', heq⟩ := hlast
    refine ⟨e'.1, ?_⟩
    rw [hfind, hload]
    dsimp only
    rw [heq]
    exact (hmem e'.1 e'.2).mp he'

theorem flushMetadata_ok (hne : pf.pieceMap ≠ []) {fails : Bool} (hflush : (pf.flushMetadata part fails).2.2 = none) :
    (pf.flushMetadata part fails).1.pieceMap = pf.pieceMap ∧
      (pf.flushMetadata part fails).1.dirtyMetadata = false := by
  by_cases hdirty : pf.dirtyMetadata = true
  · rw [PartFile.flushMetadata, if_neg (not_not.mpr hdirty), if_neg hne] at hflush ⊢
    cases fails with
    | true => cases hflush
    | false => exact ⟨rfl, rfl⟩
  · rw [PartFile.flushMetadata, if_pos hdirty]
    exact ⟨rfl, eq_false_of_ne_true hdirty⟩

/-- A part file that was begun without a file and is flushed is the same when it is loaded. -/
theorem Reached.flushed_loadsAs (h : Reached numPieces pieceSize none s) (hpieces : numPieces < 2 ^ 31)
    (hsize : pieceSize < 2 ^ 31) (hne : s.pf.pieceMap ≠ []) {fails : Bool}
    (hflush : (s.pf.flushMetadata s.part fails).2.2 = none) :
    LoadsAs s.pf (PartFile.load numPieces pieceSize (s.pf.flushMetadata s.part fails).2.1) := by
  have hkept := h.kept.flushMetadata fails
  obtain ⟨rfl, rfl⟩ := h.sizes (kept_load numPieces pieceSize).toComplete rfl
  obtain ⟨hmap, hclean⟩ := flushMetadata_ok hne hflush
  obtain ⟨-, hpieces', hsize', -⟩ := flushMetadata_spec h.kept.toWf s.part fails
  have hloads := hkept.loadsAs hclean (by rwa [hmap]) (by rwa [hpieces']) (by rwa [hsize'])
  dsimp only at hloads
  rw [hpieces', hsize'] at hloads
  exact ⟨fun p => (hloads.find p).trans (by rw [PartFile.find, PartFile.find, hmap]), hloads.free, hloads.freeNodup,
    hloads.below, hloads.last⟩

/-- A byte of the second piece is written. -/
theorem flushed_loadsAs_written : ∃ s, Reached 2 16384 none s ∧ s.pf.find 1 = some 0 ∧
    LoadsAs s.pf (load 2 16384 (s.pf.flushMetadata s.part false).2.1) := by
  have hstep := Step.write (s := { pf := load 2 16384 none, part := none }) [1] 1 0 {} (by decide) (by decide)
  have hreached : Reached 2 16384 none _ := .step .load hstep
  exact ⟨_, hreached, rfl, hreached.flushed_loadsAs (by decide) (by decide) (by decide) rfl⟩

end PartFile

end Mmap

end Disk

end LibtorrentSN
