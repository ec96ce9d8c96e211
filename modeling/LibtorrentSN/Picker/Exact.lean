import LibtorrentSN.Picker.Invariants

/-!
# The piece picker: its data are exact

What the invariants say of the picker's data, in terms of the data: the priority list, the
partial pieces with their blocks and slots, and the counters of passed and filtered pieces.

Each of these can go wrong, and is shown to in a short run; in a run without the calls to
blame it is right in every state.
-/

namespace LibtorrentSN

namespace PiecePicker

open PickerCore

variable {s : PiecePicker} {p : ℕ} {dp : DownloadingPiece}

/-! ## The priority list -/

/-- The pieces of priority `q` in the list, from `priority_begin(q)` to `priority_end(q)`. -/
def slice (s : PiecePicker) (q : ℕ) : List ℕ :=
  (s.list.items.drop (s.list.lo q)).take (s.list.hi q - s.list.lo q)

/-- The list holds the pieces that have a priority, sorted by it. -/
structure ListExact (s : PiecePicker) : Prop where
  /-- a piece with a priority is listed once, and no other piece is listed -/
  count : ∀ p < s.numPieces, s.list.items.count p = if 0 ≤ s.priority p then 1 else 0
  valid : ∀ p ∈ s.list.items, p < s.numPieces
  /-- the index of a piece is its place -/
  index : ∀ k p : ℕ, s.list.items[k]? = some p → s.list.idx p = k
  /-- the slice of a priority holds the pieces of that priority -/
  slice : ∀ q p, p < s.numPieces → q < s.list.bounds.length →
    (p ∈ s.slice q ↔ s.priority p = q)
  /-- every priority has a slice -/
  level : ∀ p < s.numPieces, s.priority p < s.list.bounds.length
  mono : s.list.bounds.Pairwise (· ≤ ·)
  last : s.list.bounds.getLast? = some s.list.items.length

theorem mem_slice_iff {q : ℕ} : p ∈ s.slice q ↔
    ∃ k, s.list.lo q ≤ k ∧ k < s.list.hi q ∧ s.list.items[k]? = some p := by
  rw [slice, List.mem_iff_getElem?]
  constructor
  · rintro ⟨i, hi⟩
    rw [List.getElem?_take] at hi
    split_ifs at hi with hlt
    rw [List.getElem?_drop] at hi
    exact ⟨s.list.lo q + i, by omega, by omega, hi⟩
  · rintro ⟨k, h₁, h₂, hk⟩
    refine ⟨k - s.list.lo q, ?_⟩
    rw [List.getElem?_take, if_pos (by omega), List.getElem?_drop,
      show s.list.lo q + (k - s.list.lo q) = k by omega]
    exact hk

theorem item_of_getElem? {l : BucketList} {k p : ℕ} (h : l.items[k]? = some p) :
    k < l.items.length ∧ l.item k = p := by
  obtain ⟨hk, rfl⟩ := List.getElem?_eq_some_iff.mp h
  exact ⟨hk, List.getD_eq_getElem _ _ hk⟩

theorem getElem?_of_item {l : BucketList} {k : ℕ} (h : k < l.items.length) :
    l.items[k]? = some (l.item k) := by
  rw [List.getElem?_eq_getElem h, BucketList.item, List.getD_eq_getElem _ _ h]

/-- A sorted list is exact. -/
theorem Listed.listExact (hl : s.Listed) (hd : s.dirty = false) : s.ListExact := by
  have hs := hl.sorted hd
  have hlen := hl.index_length
  have hmem : ∀ p ∈ s.list.items, p < s.numPieces ∧ 0 ≤ s.priority p := by
    intro p hp
    obtain ⟨k, hk⟩ := List.mem_iff_getElem?.mp hp
    obtain ⟨hkl, rfl⟩ := item_of_getElem? hk
    obtain ⟨h₁, q, -, h₂, -⟩ := hs.slot k hkl
    exact ⟨by rw [← hlen]; exact h₁, by omega⟩
  have hnodup := hs.nodup
  refine ⟨fun p hp => ?_, fun p hp => (hmem p hp).1, fun k p hk => ?_, fun q p hp hq => ?_,
    fun p hp => ?_, ?_, ?_⟩
  · split_ifs with h0
    · obtain ⟨k, hk, rfl⟩ := hs.listed p (by rw [hlen]; exact hp) h0
      exact List.count_eq_one_of_mem hnodup (List.mem_of_getElem? (getElem?_of_item hk))
    · exact List.count_eq_zero.mpr fun hc => h0 (hmem p hc).2
  · obtain ⟨hkl, rfl⟩ := item_of_getElem? hk
    exact hs.idx_item k hkl
  · rw [mem_slice_iff]
    constructor
    · rintro ⟨k, h₁, h₂, hk⟩
      obtain ⟨-, rfl⟩ := item_of_getElem? hk
      exact hs.key_item hq h₁ h₂
    · intro hkey
      obtain ⟨k, q', hk, hitem, -, -, hkey', h₁, h₂⟩ :=
        hs.locate (p := p) (by rw [hlen]; exact hp) (by omega)
      have : q' = q := by omega
      subst this
      exact ⟨k, h₁, h₂, by rw [getElem?_of_item hk, hitem]⟩
  · rcases hl.priority_or p with hneg | h0
    · have := hs.pos
      omega
    · obtain ⟨k, q, -, -, -, hq, hkey, -, -⟩ := hs.locate (p := p) (by rw [hlen]; exact hp) h0
      omega
  · rw [List.pairwise_iff_getElem]
    intro i j hi hj hij
    have := hs.mono i j (Nat.le_of_lt hij) hj
    rwa [BucketList.bound, BucketList.bound, List.getD_eq_getElem _ _ hi,
      List.getD_eq_getElem _ _ hj] at this
  · have hpos := hs.pos
    have hne : s.list.bounds ≠ [] := List.ne_nil_of_length_pos hpos
    rw [List.getLast?_eq_getLast_of_ne_nil hne, List.getLast_eq_getElem]
    have := hs.last
    rw [BucketList.bound, List.getD_eq_getElem _ _ (by omega)] at this
    rw [this]

/-- In every run of calls that do not leave the list behind, the list is exact whenever it is
up to date. -/
theorem priorityList_exact (h : Reach listCall s) (hd : s.dirty = false) : s.ListExact :=
  (h.listed fun _ _ hok => hok).1.listExact hd

/-- Pick one block in sequential mode from a peer that has all of `n` pieces. -/
def sequentialPick (n : ℕ) : Op :=
  .pickPieces ⟨List.replicate n true, 1, 0, some 1, { sequential := true }, [], 100⟩

/-- A seed joins, one block is picked and requested. -/
theorem priorityList_exact_requested : ∃ s : PiecePicker, Reach listCall s ∧
    s.list.items.length = 2 ∧ s.downloading 0 ∧ s.ListExact := by
  obtain ⟨s, hs, hd, hlen, hdl⟩ := Reach.exists_of_freshRun listCall 2 2
    [.incRefcountAll, sequentialPick 2, .markAsDownloading 0 0 (some 1) false false]
    (fun s => s.dirty = false ∧ s.list.items.length = 2 ∧ s.downloading 0)
    (by decide) (by decide +kernel)
  exact ⟨s, hs, hlen, hdl, priorityList_exact hs hd⟩

/-- A piece all of whose blocks failed the hash check, restored while it is still being hashed,
is listed twice: `update_piece_state` has added it, and `restore_piece` adds it again. -/
theorem priorityList_not_exact : ¬ ∀ s : PiecePicker, Reach anyCall s → s.dirty = false →
    s.ListExact := by
  obtain ⟨s, hs, hd, hn, hcount⟩ := Reach.exists_of_freshRun anyCall 2 2
    [.incRefcountAll, sequentialPick 2, .markAsFinished 0 0 (some 1),
      .markAsFinished 0 1 (some 1), .startedHashJob 0, .restorePiece 0 [0, 1]]
    (fun s => s.dirty = false ∧ s.numPieces = 2 ∧ s.list.items.count 0 = 2)
    (by decide) (by decide +kernel)
  intro h
  have hc := (h s hs hd).count 0 (by omega)
  rw [hcount] at hc
  split_ifs at hc
  omega

/-! ## Partial pieces -/

/-- The bucket the blocks of a partial piece ask for. -/
def bucketFor (s : PiecePicker) (dp : DownloadingPiece) : DownloadQueue :=
  if s.filtered dp.index then .pieceZeroPrio
  else if ∃ info ∈ s.blocksForPiece dp, info.state = .none then .pieceDownloading
  else if ∃ info ∈ s.blocksForPiece dp, info.state = .requested then .pieceFull
  else .pieceFinished

/-- The partial pieces, their blocks and their slots are in order. -/
structure DownloadsExact (s : PiecePicker) : Prop where
  sorted : ∀ j, (s.downloads.get j).Pairwise fun dp dp' => dp.index < dp'.index
  mem : ∀ j p, (∃ dp ∈ s.downloads.get j, dp.index = p) ↔ s.downloadQueue p = some j
  length : ∀ dp ∈ s.downloads.all, (s.blocksForPiece dp).length = s.blocksInPiece dp.index
  requested : ∀ dp ∈ s.downloads.all, dp.requested = tally .requested (s.blocksForPiece dp)
  writing : ∀ dp ∈ s.downloads.all, dp.writing = tally .writing (s.blocksForPiece dp)
  finished : ∀ dp ∈ s.downloads.all, dp.finished = tally .finished (s.blocksForPiece dp)
  /-- exactly the requested blocks have peers -/
  peers : ∀ dp ∈ s.downloads.all, ∀ info ∈ s.blocksForPiece dp,
    0 < info.numPeers ↔ info.state = .requested
  bucket : ∀ j, ∀ dp ∈ s.downloads.get j, j = s.bucketFor dp
  /-- every slot is that of one partial piece, or free -/
  slots : (s.downloads.all.map DownloadingPiece.infoIdx ++ s.freeBlockInfos).Perm
    (List.range s.blockInfo.length)
  slotLength : ∀ sl ∈ s.blockInfo, sl.length = s.blocksPerPiece
  haveOpen : ∀ p, s.havePiece p → s.downloadQueue p = none

/-- A piece has a free block if and only if not all of them are busy. -/
theorem exists_free_iff (h : s.Book False) (hdp : s.findDlPiece p = some dp) :
    (∃ info ∈ s.blocksForPiece dp, info.state = .none) ↔ dp.busy < s.blocksInPiece p := by
  have hc := h.counts p dp hdp
  have hsum := tally_sum (s.blocksForPiece dp)
  rw [h.length hdp] at hsum
  rw [← tally_pos, DownloadingPiece.busy, hc.requested, hc.writing, hc.finished]
  omega

theorem exists_requested_iff (h : s.Book False) (hdp : s.findDlPiece p = some dp) :
    (∃ info ∈ s.blocksForPiece dp, info.state = .requested) ↔ 0 < dp.requested := by
  rw [← tally_pos, (h.counts p dp hdp).requested]

/-- The category of a piece is its bucket. -/
theorem bucketFor_eq (h : s.Book False) (hdp : s.findDlPiece p = some dp) {j : DownloadQueue}
    (hj : s.downloadQueue p = some j) : j = s.bucketFor dp := by
  have hcat := h.category p dp hdp
  rw [bucketFor]
  simp only [exists_free_iff h hdp, exists_requested_iff h hdp]
  obtain rfl := h.buckets.find_index hdp
  obtain ⟨h₁, h₂, h₃, h₄, h₅⟩ := hcat
  simp only [hj, Option.some.injEq] at h₁ h₂ h₃ h₄ h₅
  split_ifs with hf hfree hreq
  · exact h₁ hf
  all_goals cases j with
  | pieceDownloading => have := h₃ rfl; first | rfl | omega
  | pieceFull => have := h₄ rfl; first | rfl | omega
  | pieceFinished => have := h₅ rfl; first | rfl | omega
  | pieceZeroPrio => exact (h₂ rfl hf).1.elim

/-- Bookkeeping without any slip. -/
theorem downloadsExact_of_book (h : s.Book False) (hs : s.Sane) : s.DownloadsExact := by
  have hfind : ∀ dp ∈ s.downloads.all, s.findDlPiece dp.index = some dp :=
    fun dp hdp => h.buckets.find_eq_some.mpr ⟨hdp, rfl⟩
  refine ⟨h.buckets.sorted, fun j p => ⟨?_, h.buckets.listed p j⟩,
    fun dp hdp => h.length (hfind dp hdp), fun dp hdp => (h.counts _ dp (hfind dp hdp)).requested,
    fun dp hdp => (h.counts _ dp (hfind dp hdp)).writing,
    fun dp hdp => (h.counts _ dp (hfind dp hdp)).finished, fun dp hdp info hi => ⟨?_, ?_⟩,
    fun j dp hdp => ?_, h.slots.perm, h.slots.length, fun p hp => ?_⟩
  · rintro ⟨dp, hdp, rfl⟩
    exact h.buckets.queue j dp hdp
  · exact (h.counts _ dp (hfind dp hdp)).peers info hi
  · exact fun hst => ((h.counts _ dp (hfind dp hdp)).asked info hi hst).resolve_left not_false
  · exact bucketFor_eq h (hfind dp (Downloads.mem_all.mpr ⟨j, hdp⟩)) (h.buckets.queue j dp hdp)
  · rw [downloadQueue, hs.have_open p hp]
    rfl

/-- The calls after which neither the list nor a partial piece is left behind. -/
def exactCall (s : PiecePicker) (op : Op) : Prop := listCall s op ∧ strictCall s op

instance (s : PiecePicker) (op : Op) : Decidable (exactCall s op) :=
  inferInstanceAs (Decidable (_ ∧ _))

/-- In every run of such calls the partial pieces are in order. -/
theorem downloads_exact (h : Reach exactCall s) : s.DownloadsExact :=
  downloadsExact_of_book (h.strictBook fun _ _ hok => hok.2)
    (h.listed fun _ _ hok => hok.1).1.toSane

/-- A piece of which one block is requested and one written. -/
theorem downloads_exact_full : ∃ s : PiecePicker, Reach exactCall s ∧
    s.downloadQueue 0 = some .pieceFull ∧ s.DownloadsExact := by
  obtain ⟨s, hs, hq⟩ := Reach.exists_of_freshRun exactCall 2 2
    [.markAsDownloading 0 0 (some 1) false false, .markAsWriting 0 1 (some 2)]
    (fun s => s.downloadQueue 0 = some .pieceFull)
    (by decide) (by decide +kernel)
  exact ⟨s, hs, hq, downloads_exact hs⟩

/-- A piece without busy blocks that is kept for its hash job, filtered and wanted again stays
in the bucket `piece_zero_prio`: `update_piece_state` does not move a piece to no bucket. -/
theorem downloads_not_exact : ¬ ∀ s : PiecePicker, Reach anyCall s → s.DownloadsExact := by
  obtain ⟨s, hs, hf, hq⟩ := Reach.exists_of_freshRun anyCall 2 2
    [.markAsDownloading 0 0 (some 1) false false, .startedHashJob 0,
      .abortDownload 0 0 (some 1), .completedHashJob 0, .setPiecePriority 0 0,
      .setPiecePriority 0 4]
    (fun s => ¬ s.filtered 0 ∧ s.downloadQueue 0 = some .pieceZeroPrio)
    (by decide) (by decide +kernel)
  intro h
  obtain ⟨dp, hdp, hi⟩ := ((h s hs).mem .pieceZeroPrio 0).mpr hq
  have hb := (h s hs).bucket .pieceZeroPrio dp hdp
  rw [bucketFor, hi, if_neg hf] at hb
  split_ifs at hb

/-! ## Passed pieces -/

/-- The calls after which neither the list nor a passed piece is left behind. -/
def countedCall (s : PiecePicker) (op : Op) : Prop := listCall s op ∧ passedCall s op

instance (s : PiecePicker) (op : Op) : Decidable (countedCall s op) :=
  inferInstanceAs (Decidable (_ ∧ _))

/-- In every run of such calls `m_num_passed` counts the pieces we have and the partial pieces
that passed. -/
theorem numPassed_exact (h : Reach countedCall s) :
    s.numPassed = s.haveCount + s.downloads.passed := by
  have := h.surplus (fun _ _ hok => hok.1) fun _ _ hok => hok.2
  rw [surplus] at this
  omega

/-- One piece we have, and one that passed before it was written. -/
theorem numPassed_exact_writing : ∃ s : PiecePicker, Reach countedCall s ∧
    s.haveCount = 1 ∧ s.downloads.passed = 1 ∧ s.numPassed = 2 := by
  obtain ⟨s, hs, hh, hd⟩ := Reach.exists_of_freshRun countedCall 3 1
    [.weHave 2, .markAsWriting 0 0 (some 1), .piecePassed 0]
    (fun s => s.haveCount = 1 ∧ s.downloads.passed = 1)
    (by decide) (by decide +kernel)
  exact ⟨s, hs, hh, hd, by rw [numPassed_exact hs, hh, hd]; rfl⟩

/-- A piece that passed while its only busy block was being written is forgotten when the write
is canceled, but still counted. -/
theorem numPassed_not_exact : ¬ ∀ s : PiecePicker, Reach anyCall s →
    s.numPassed = s.haveCount + s.downloads.passed := by
  obtain ⟨s, hs, hc⟩ := Reach.exists_of_freshRun anyCall 2 2
    [.markAsWriting 0 0 (some 1), .piecePassed 0, .markAsCanceled 0 0 (some 1)]
    (fun s => s.numPassed ≠ s.haveCount + s.downloads.passed)
    (by decide) (by decide +kernel)
  exact fun h => hc (h s hs)

/-! ## Being finished -/

/-- The pieces we want that have not passed. -/
def missingPieces (s : PiecePicker) : ℕ :=
  countUpTo s.numPieces fun p => ¬ s.filtered p ∧ s.hasPiecePassed p = false

/-- The partial pieces that passed, but that we do not want (any more). -/
def unwantedPassed (s : PiecePicker) : ℕ :=
  countUpTo s.numPieces fun p => s.filtered p ∧ ¬ s.havePiece p ∧ s.hasPiecePassed p = true

theorem hasPiecePassed_of_have (h : s.havePiece p) : s.hasPiecePassed p = true := if_pos h

/-- The indices of the partial pieces are distinct. -/
theorem all_index_nodup (h : s.Book True) :
    (s.downloads.all.map DownloadingPiece.index).Nodup := by
  refine List.Nodup.map_on (fun x hx y hy he => ?_)
    (List.Nodup.of_map _ (List.Nodup.of_append_left h.slots.nodup))
  have hx' := h.buckets.find_eq_some.mpr ⟨hx, rfl⟩
  have hy' := h.buckets.find_eq_some.mpr ⟨hy, rfl⟩
  rw [he, hy'] at hx'
  exact (Option.some.inj hx').symm

/-- The passed partial pieces, counted by their indices. -/
theorem passed_eq_countUpTo (h : s.Book True) (hs : s.Sane) : s.downloads.passed =
    countUpTo s.numPieces fun p => ¬ s.havePiece p ∧ s.hasPiecePassed p = true := by
  have hperm : ((s.downloads.all.filter (·.passedHashCheck)).map DownloadingPiece.index).Perm
      ((List.range s.numPieces).filter fun p => ¬ s.havePiece p ∧ s.hasPiecePassed p = true) := by
    refine (List.perm_ext_iff_of_nodup ?_ (List.nodup_range.filter _)).mpr fun p => ?_
    · exact (all_index_nodup h).sublist (List.filter_sublist.map _)
    · simp only [List.mem_map, List.mem_filter, List.mem_range, decide_eq_true_eq]
      constructor
      · rintro ⟨dp, ⟨hdp, hpass⟩, rfl⟩
        have hfind := h.buckets.find_eq_some.mpr ⟨hdp, rfl⟩
        have hdl := h.buckets.downloading_of_find hfind
        have hnot : ¬ s.havePiece dp.index := fun hc => hdl (hs.have_open _ hc)
        refine ⟨lt_of_downloading hdl, hnot, ?_⟩
        rw [hasPiecePassed, if_neg hnot, hfind]
        exact hpass
      · rintro ⟨-, hnot, hpass⟩
        rw [hasPiecePassed, if_neg hnot] at hpass
        rcases hfind : s.findDlPiece p with - | dp <;> rw [hfind] at hpass
        · cases hpass
        · obtain ⟨hdp, hi⟩ := h.buckets.find_eq_some.mp hfind
          exact ⟨dp, ⟨hdp, hpass⟩, hi⟩
  have hlen := hperm.length_eq
  rw [List.length_map, ← List.countP_eq_length_filter, ← List.countP_eq_length_filter] at hlen
  exact hlen

/-- Every piece is one that is filtered and that we do not have, one we have, one that passed
or one that is missing, and only the unwanted passed pieces are two of these. -/
theorem countUpTo_partition {F H P : ℕ → Prop} [DecidablePred F] [DecidablePred H]
    [DecidablePred P] (hHP : ∀ p, H p → P p) (n : ℕ) :
    n + countUpTo n (fun p => F p ∧ ¬ H p ∧ P p) = countUpTo n (fun p => F p ∧ ¬ H p) +
      countUpTo n H + countUpTo n (fun p => ¬ H p ∧ P p) + countUpTo n fun p => ¬ F p ∧ ¬ P p := by
  induction n with
  | zero => rfl
  | succ n ih =>
    simp only [countUpTo_succ]
    have hn := hHP n
    by_cases hF : F n <;> by_cases hH : H n <;> by_cases hP : P n <;>
      simp only [hF, hH, hP, not_true, not_false_eq_true, and_true, and_false, and_self,
        if_true, if_false, imp_false, imp_self] at hn ⊢ <;> omega

/-- What `is_finished()` compares. -/
theorem isFinished_iff (h : Reach countedCall s) :
    s.isFinished = true ↔ s.missingPieces ≤ s.unwantedPassed := by
  obtain ⟨hl, ht⟩ := h.listed fun _ _ hok => hok.1
  have hsurplus := h.surplus (fun _ _ hok => hok.1) fun _ _ hok => hok.2
  have hpart := countUpTo_partition (F := s.filtered) (H := s.havePiece)
    (P := fun p => s.hasPiecePassed p = true) (fun _ => hasPiecePassed_of_have) s.numPieces
  simp only [Bool.not_eq_true] at hpart
  rw [surplus, passed_eq_countUpTo h.book hl.toSane, haveCount] at hsurplus
  rw [isFinished, decide_eq_true_eq, ht.numFiltered, missingPieces, unwantedPassed]
  omega

/-- `is_finished()` is right unless the unwanted pieces that passed make up for the wanted ones
that did not. -/
theorem isFinished_exact_iff (h : Reach countedCall s) :
    (s.isFinished = true ↔
      ∀ p < s.numPieces, ¬ s.filtered p → s.hasPiecePassed p = true) ↔
    (s.missingPieces = 0 ∨ s.unwantedPassed < s.missingPieces) := by
  have hall : (∀ p < s.numPieces, ¬ s.filtered p → s.hasPiecePassed p = true) ↔
      s.missingPieces = 0 := by
    simp only [missingPieces, countUpTo_eq_zero, not_and, Bool.not_eq_false]
  rw [isFinished_iff h, hall]
  omega

/-- A torrent of which the only wanted piece passed is finished. -/
theorem isFinished_exact_one : ∃ s : PiecePicker, Reach countedCall s ∧ s.isFinished = true ∧
    ∀ p < s.numPieces, ¬ s.filtered p → s.hasPiecePassed p = true := by
  obtain ⟨s, hs, hf, hm⟩ := Reach.exists_of_freshRun countedCall 2 2
    [.setPiecePriority 1 0, .markAsWriting 0 0 (some 1), .piecePassed 0]
    (fun s => s.isFinished = true ∧ s.missingPieces = 0)
    (by decide) (by decide +kernel)
  exact ⟨s, hs, hf, ((isFinished_exact_iff hs).mpr (.inl hm)).mp hf⟩

/-- A piece that passed and was filtered while it was being written stands in for a wanted piece
that has not passed. -/
theorem isFinished_not_exact : ¬ ∀ s : PiecePicker, Reach anyCall s →
    (s.isFinished = true ↔
      ∀ p < s.numPieces, ¬ s.filtered p → s.hasPiecePassed p = true) := by
  obtain ⟨s, hs, hf, hn, h₁, h₂⟩ := Reach.exists_of_freshRun anyCall 2 2
    [.markAsWriting 0 0 (some 1), .piecePassed 0, .setPiecePriority 0 0]
    (fun s => s.isFinished = true ∧ s.numPieces = 2 ∧ ¬ s.filtered 1 ∧
      s.hasPiecePassed 1 = false)
    (by decide) (by decide +kernel)
  intro h
  rw [(h s hs).mp hf 1 (by omega) h₁] at h₂
  cases h₂

end PiecePicker

end LibtorrentSN
