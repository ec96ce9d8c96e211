import LibtorrentSN.Picker.Invariants

/-!
# The piece picker: picking from one piece

What the functions that pick from one piece (or from the range around it) add to the blocks
found so far. `Adds` says which blocks and which ignored pieces are new; `Offer` says what the
new blocks of `add_blocks` are like. The stages of `pick_pieces` only see `add_blocks` through
these.
-/

namespace LibtorrentSN

namespace PickState

/-- All blocks found so far, picked or kept as a backup. -/
def blocks (st : PickState) : List PieceBlock :=
  st.interestingBlocks ++ st.backupBlocks ++ st.backupBlocks2

/-- `st'` has the blocks `news` and ignores the pieces `ks` on top of what `st` has. -/
structure Adds (st st' : PickState) (news : List PieceBlock) (ks : List ℕ) : Prop where
  perm : st'.blocks.Perm (st.blocks ++ news)
  ignored : st'.ignoredPieces = st.ignoredPieces ++ ks
  prefer : st'.preferContiguousBlocks = st.preferContiguousBlocks

variable {st st' st'' : PickState} {news news' : List PieceBlock} {ks ks' : List ℕ}

theorem Adds.nothing (hb : st'.blocks = st.blocks) (hi : st'.ignoredPieces = st.ignoredPieces)
    (hp : st'.preferContiguousBlocks = st.preferContiguousBlocks) : Adds st st' [] [] :=
  ⟨by rw [hb, List.append_nil], by rw [hi, List.append_nil], hp⟩

theorem Adds.refl (st : PickState) : Adds st st [] [] := .nothing rfl rfl rfl

theorem Adds.trans (h : Adds st st' news ks) (h' : Adds st' st'' news' ks') :
    Adds st st'' (news ++ news') (ks ++ ks') := by
  refine ⟨?_, by rw [h'.ignored, h.ignored, List.append_assoc], h'.prefer.trans h.prefer⟩
  rw [← List.append_assoc]
  exact h'.perm.trans (h.perm.append_right news')

theorem Adds.mem (h : Adds st st' news ks) {pb : PieceBlock} :
    pb ∈ st'.blocks ↔ pb ∈ st.blocks ∨ pb ∈ news := by
  rw [h.perm.mem_iff, List.mem_append]

theorem flag_adds (st : PickState) (f : PickerFlag) : Adds st (st.flag f) [] [] := by
  rw [flag]
  split_ifs
  · exact .refl st
  · exact .nothing rfl rfl rfl

theorem Adds.clamp (h : Adds st st' news ks) (n : ℤ) :
    Adds st { st' with numBlocks := n } news ks :=
  ⟨h.perm, h.ignored, h.prefer⟩

/-- More blocks are picked. -/
theorem picked_adds (st : PickState) (news : List PieceBlock) (n : ℤ) : Adds st { st with
    interestingBlocks := st.interestingBlocks ++ news, numBlocks := n } news [] := by
  refine ⟨?_, (List.append_nil _).symm, rfl⟩
  simp only [blocks, List.append_assoc]
  refine List.Perm.append_left _ ?_
  exact List.perm_append_comm.trans (.of_eq (List.append_assoc ..))

theorem push_adds (st : PickState) (p b : ℕ) : Adds st (st.push p b) [⟨p, b⟩] [] :=
  picked_adds st _ _

theorem ignore_adds (st : PickState) (p : ℕ) :
    Adds st { st with ignoredPieces := st.ignoredPieces ++ [p] } [] [p] :=
  ⟨by rw [List.append_nil]; exact .refl _, rfl, rfl⟩

/-- Keeping or picking blocks of the backup lists changes nothing but the order. -/
theorem appendBackup_adds (st : PickState) : Adds st st.appendBackup [] [] := by
  refine ⟨?_, (List.append_nil _).symm, rfl⟩
  simp only [blocks, appendBackup, List.append_nil, List.append_assoc]
  rw [← List.append_assoc (List.take _ _), List.take_append_drop]

theorem appendBackup2_adds (st : PickState) : Adds st st.appendBackup2 [] [] := by
  refine ⟨?_, (List.append_nil _).symm, rfl⟩
  simp only [blocks, appendBackup2, List.append_nil, List.append_assoc]
  refine List.Perm.append_left _ ?_
  rw [← List.append_assoc]
  refine (List.perm_append_comm.append_right _).trans ?_
  rw [List.append_assoc, List.take_append_drop]

end PickState

namespace PiecePicker

open PickerCore PickState

variable {s : PiecePicker} {a : PickRequest} {p b k : ℕ} {prefer : ℤ} {st : PickState}
  {dp : DownloadingPiece} {pb : PieceBlock}

/-! ## Ranges of pieces -/

theorem growDown_spec (s : PiecePicker) (a : PickRequest) (lower : ℤ) (c : ℕ) :
    ∀ k, s.growDown a lower c ≤ k → k < c → s.canPick a k := by
  induction c with
  | zero => exact fun k _ hk => absurd hk (Nat.not_lt_zero k)
  | succ c ih =>
    intro k hle hlt
    rw [growDown] at hle
    split_ifs at hle with hc
    · rcases Nat.lt_succ_iff_lt_or_eq.mp hlt with hk | rfl
      · exact ih k hle hk
      · exact hc.2
    · omega

theorem growUp_spec (s : PiecePicker) (a : PickRequest) (upper : ℤ) (fuel c : ℕ) :
    ∀ k, c ≤ k → k < s.growUp a upper fuel c → s.canPick a k := by
  induction fuel generalizing c with
  | zero =>
    intro k hle hlt
    rw [growUp] at hlt
    omega
  | succ fuel ih =>
    intro k hle hlt
    rw [growUp] at hlt
    split_ifs at hlt with hc
    · rcases Nat.eq_or_lt_of_le hle with rfl | hk
      · exact hc.2
      · exact ih (c + 1) k hk hlt
    · omega

theorem mem_rangePieces {r : ℕ × ℕ} : k ∈ rangePieces r ↔ r.1 ≤ k ∧ k < r.2 := by
  rw [rangePieces, List.mem_map]
  constructor
  · rintro ⟨i, hi, rfl⟩
    have := List.mem_range.mp hi
    omega
  · rintro ⟨h₁, h₂⟩
    exact ⟨k - r.1, List.mem_range.mpr (by omega), by omega⟩

/-- The range around a piece holds nothing but pieces that can be picked. -/
theorem expandPiece_spec (hk : k ∈ rangePieces (s.expandPiece a p prefer)) :
    k = p ∨ s.canPick a k := by
  rw [mem_rangePieces, expandPiece] at hk
  split_ifs at hk with h0
  · exact .inl (by omega)
  · dsimp only at hk
    rcases Nat.lt_trichotomy k p with hlt | rfl | hgt
    · exact .inr (growDown_spec s a _ p k hk.1 hlt)
    · exact .inl rfl
    · exact .inr (growUp_spec s a _ _ (p + 1) k hgt hk.2)

/-! ## Open pieces -/

/-- Some of the blocks of the piece are picked, from the first one on. -/
theorem pushBlocks_adds (stop : ℤ → ℤ → Bool) (k : ℕ) (js : List ℕ) (st : PickState)
    (prefer : ℤ) : ∃ n, Adds st (pushBlocks stop k js (st, prefer)).1
      ((js.take n).map fun j => ⟨k, j⟩) [] := by
  induction js generalizing st prefer with
  | nil => exact ⟨0, .refl st⟩
  | cons j js ih =>
    simp only [pushBlocks]
    split_ifs
    · exact ⟨1, push_adds st k j⟩
    · obtain ⟨n, hn⟩ := ih (st.push k j) (prefer - 1)
      exact ⟨n + 1, (push_adds st k j).trans hn⟩

theorem map_block_nodup {js : List ℕ} (hnd : js.Nodup) (k : ℕ) :
    (js.map fun j => (⟨k, j⟩ : PieceBlock)).Nodup := by
  refine hnd.map fun i j hij => ?_
  simpa using hij

/-- Every piece a range is picked from is one that was not ignored, and is now. -/
theorem pushRange_adds (stop : ℤ → ℤ → Bool) (count : ℕ → ℕ) (r : List ℕ) (st : PickState)
    (prefer : ℤ) : ∃ news ks, Adds st (pushRange stop count r (st, prefer)).1 news ks ∧
      news.Nodup ∧ (∀ pb ∈ news, pb.pieceIndex ∈ ks ∧ pb.blockIndex < count pb.pieceIndex) ∧
      ∀ k ∈ ks, k ∈ r ∧ k ∉ st.ignoredPieces := by
  induction r generalizing st prefer with
  | nil => exact ⟨[], [], .refl st, List.nodup_nil, by simp, by simp⟩
  | cons k r ih =>
    rw [pushRange]
    by_cases hk : k ∈ st.ignoredPieces
    · rw [if_pos hk]
      dsimp only
      split_ifs
      · exact ⟨[], [], .refl st, List.nodup_nil, by simp, by simp⟩
      · obtain ⟨news, ks, hadd, hnd, hmem, hks⟩ := ih st (prefer - 1)
        exact ⟨news, ks, hadd, hnd, hmem, fun k' hk' =>
          ⟨List.mem_cons_of_mem k (hks k' hk').1, (hks k' hk').2⟩⟩
    · rw [if_neg hk]
      dsimp only
      set st₁ : PickState := { st with ignoredPieces := st.ignoredPieces ++ [k] } with hst₁
      obtain ⟨n, hn⟩ := pushBlocks_adds stop k (List.range (count k)) st₁ prefer
      obtain ⟨news, ks, hadd, hnd, hmem, hks⟩ :=
        ih (pushBlocks stop k (List.range (count k)) (st₁, prefer)).1
          (pushBlocks stop k (List.range (count k)) (st₁, prefer)).2
      have hign : (pushBlocks stop k (List.range (count k)) (st₁, prefer)).1.ignoredPieces =
          st.ignoredPieces ++ [k] := by
        rw [hn.ignored, List.append_nil]
      rw [hign] at hks
      refine ⟨_, _, ((ignore_adds st k).trans hn).trans hadd, ?_, ?_, ?_⟩
      · -- the blocks of `k` are distinct, and the others are of other pieces
        rw [List.nil_append]
        refine List.Nodup.append ?_ hnd ?_
        · exact map_block_nodup (List.nodup_range.sublist (List.take_sublist n _)) k
        · intro pb hpb hpb'
          obtain ⟨j, -, rfl⟩ := List.mem_map.mp hpb
          exact (hks k (hmem _ hpb').1).2 (by simp)
      · intro pb hpb
        rw [List.nil_append] at hpb
        rcases List.mem_append.mp hpb with hpb | hpb
        · obtain ⟨j, hj, rfl⟩ := List.mem_map.mp hpb
          exact ⟨by simp, List.mem_range.mp (List.mem_of_mem_take hj)⟩
        · exact ⟨List.mem_append_right _ (hmem pb hpb).1, (hmem pb hpb).2⟩
      · intro k' hk'
        rw [List.append_nil, List.singleton_append] at hk'
        rcases List.mem_cons.mp hk' with rfl | hk'
        · exact ⟨List.mem_cons_self, hk⟩
        · exact ⟨List.mem_cons_of_mem k (hks k' hk').1,
            fun hc => (hks k' hk').2 (List.mem_append_left _ hc)⟩

/-! ## Partial pieces -/

theorem endRun_exclusive (r : RequestedFrom) : r.endRun.exclusive = r.exclusive := by
  rw [RequestedFrom.endRun]
  split_ifs <;> rfl

/-- Only this peer was asked for blocks. -/
theorem requestedStep_exclusive (peer : Option ℕ) (infos : List BlockInfo) (r : RequestedFrom) :
    (infos.foldl (requestedStep peer) r).exclusive = true ↔
      r.exclusive = true ∧ ∀ info ∈ infos, info.state ≠ .none → info.peer = peer := by
  induction infos generalizing r with
  | nil => simp
  | cons info infos ih =>
    rw [List.foldl_cons, ih, requestedStep]
    split_ifs with h
    · simp [h]
    · simp only [endRun_exclusive, Bool.and_eq_true, decide_eq_true_eq, List.mem_cons,
        forall_eq_or_imp, and_assoc]
      simp [h]

theorem requestedFrom_exclusive (s : PiecePicker) (dp : DownloadingPiece) (peer : Option ℕ) :
    (s.requestedFrom dp peer).exclusive = true ↔
      ∀ info ∈ s.blocksForPiece dp, info.state ≠ .none → info.peer = peer := by
  rw [requestedFrom, endRun_exclusive, requestedStep_exclusive]
  exact and_iff_right rfl

theorem mem_freeBlocksFrom {first : ℕ} (hb : b ∈ s.freeBlocksFrom dp first) :
    b < s.blocksInPiece dp.index ∧ (s.block dp b).state = .none := by
  obtain ⟨hm, hst⟩ := List.mem_filter.mp hb
  obtain ⟨j, hj, rfl⟩ := List.mem_map.mp hm
  have := List.mem_range.mp hj
  exact ⟨Nat.mod_lt _ (by omega), by simpa using hst⟩

theorem freeBlocksFrom_nodup (s : PiecePicker) (dp : DownloadingPiece) (first : ℕ) :
    (s.freeBlocksFrom dp first).Nodup := by
  refine List.Nodup.filter _ (List.Nodup.map_on (fun i hi j hj he => ?_) List.nodup_range)
  have hi := List.mem_range.mp hi
  have hj := List.mem_range.mp hj
  have : i ≡ j [MOD s.blocksInPiece dp.index] := Nat.ModEq.add_right_cancel' first he
  exact Nat.ModEq.eq_of_lt_of_lt this hi hj

/-- Some free blocks are picked, from the first one on; if no run of blocks is preferred, as
many as are still wanted. -/
theorem takeFree_eq (p : ℕ) (bs : List ℕ) (prefer : ℤ) (st : PickState) : ∃ n ≤ bs.length,
    takeFree p bs prefer st = { st with
      interestingBlocks := st.interestingBlocks ++ (bs.take n).map fun b => ⟨p, b⟩
      numBlocks := st.numBlocks - n } ∧
    (prefer ≤ 0 → 0 < st.numBlocks → n = min bs.length st.numBlocks.toNat) := by
  induction bs generalizing prefer st with
  | nil => exact ⟨0, Nat.le_refl 0, by simp [takeFree], fun _ _ => by simp⟩
  | cons b bs ih =>
    simp only [takeFree]
    split_ifs with h₁ h₂
    · obtain ⟨n, hle, heq, -⟩ := ih (prefer - 1) (st.push p b)
      refine ⟨n + 1, by simpa using hle, ?_, fun h => by omega⟩
      rw [heq]
      simp [push]
      omega
    · refine ⟨1, by simp, by simp [push], fun _ h => ?_⟩
      simp only [push] at h₂
      simp
      omega
    · obtain ⟨n, hle, heq, hn⟩ := ih prefer (st.push p b)
      refine ⟨n + 1, by simpa using hle, ?_, fun hp h => ?_⟩
      · rw [heq]
        simp [push]
        omega
      · simp only [push] at h₂ hn
        have := hn hp (by omega)
        simp only [List.length_cons]
        omega

/-- The peer may be asked for blocks of the partial piece `dp`. -/
def askable (s : PiecePicker) (a : PickRequest) (dp : DownloadingPiece) : Prop :=
  a.pieces.getD dp.index false = true ∧ dp.locked = false ∧ (a.options.onParole = true →
    ∀ info ∈ s.blocksForPiece dp, info.state ≠ .none → info.peer = a.peer)

/-- The blocks `news` are free blocks of the partial piece `dp`. -/
structure PartialOffer (s : PiecePicker) (a : PickRequest) (dp : DownloadingPiece)
    (news : List PieceBlock) : Prop where
  nodup : news.Nodup
  index : ∀ pb ∈ news, pb.pieceIndex = dp.index
  block : ∀ pb ∈ news, pb.blockIndex < s.blocksInPiece dp.index
  state : ∀ pb ∈ news, (s.block dp pb.blockIndex).state = .none
  askable : news ≠ [] → s.askable a dp

theorem PartialOffer.nil (s : PiecePicker) (a : PickRequest) (dp : DownloadingPiece) :
    s.PartialOffer a dp [] :=
  ⟨List.nodup_nil, by simp, by simp, by simp, fun h => absurd rfl h⟩

theorem partialOffer_of_sublist {bs : List ℕ} {first : ℕ}
    (hs : bs.Sublist (s.freeBlocksFrom dp first)) (h : s.askable a dp) :
    s.PartialOffer a dp (bs.map fun b => ⟨dp.index, b⟩) := by
  refine ⟨map_block_nodup ((s.freeBlocksFrom_nodup dp first).sublist hs) _, fun pb hpb => ?_,
    fun pb hpb => ?_, fun pb hpb => ?_, fun _ => h⟩ <;> obtain ⟨b, hb, rfl⟩ := List.mem_map.mp hpb
  · rfl
  · exact (mem_freeBlocksFrom (hs.subset hb)).1
  · exact (mem_freeBlocksFrom (hs.subset hb)).2

/-- What is picked (or kept as a backup) from a partial piece. -/
theorem addBlocksDownloading_adds (s : PiecePicker) (a : PickRequest) (dp : DownloadingPiece)
    (prefer : ℤ) (st : PickState) : ∃ news,
      Adds st (s.addBlocksDownloading a dp prefer st) news [] ∧ s.PartialOffer a dp news := by
  have hnone : ∃ news, Adds st st news [] ∧ s.PartialOffer a dp news :=
    ⟨[], .refl st, .nil s a dp⟩
  simp only [addBlocksDownloading]
  generalize (if prefer = 0 then 0 else (s.requestedFrom dp a.peer).firstBlock) = first
  split_ifs with h₁ h₂ h₃ h₄ h₅
  · exact hnone
  · exact hnone
  · exact hnone
  · exact hnone
  all_goals
    have hask : s.askable a dp := by
      refine ⟨by simpa using h₁, by simpa using h₂, fun hpar => ?_⟩
      rw [← requestedFrom_exclusive]
      simpa [hpar] using h₃
  · refine ⟨_, ⟨?_, (List.append_nil _).symm, rfl⟩,
      partialOffer_of_sublist (List.Sublist.refl (s.freeBlocksFrom dp first)) hask⟩
    simp only [PickState.blocks, List.append_assoc]
    exact .refl _
  · obtain ⟨n, -, heq, -⟩ := takeFree_eq dp.index (s.freeBlocksFrom dp first) prefer st
    rw [heq]
    exact ⟨_, picked_adds st _ _, partialOffer_of_sublist (List.take_sublist n _) hask⟩

/-! ## Free blocks -/

/-- A free block of a piece we want and the peer has, which may be asked for. -/
structure FreePick (s : PiecePicker) (a : PickRequest) (pb : PieceBlock) : Prop where
  piece : s.isPieceFree a pb.pieceIndex
  block : pb.blockIndex < s.blocksInPiece pb.pieceIndex
  state : s.onPartial pb.pieceIndex fun dp => (s.block dp pb.blockIndex).state = .none
  askable : s.onPartial pb.pieceIndex (s.askable a)

theorem onPartial_of_open {P : DownloadingPiece → Prop} (h : s.downloadQueue p = none) :
    s.onPartial p P := by
  rw [onPartial, findDlPiece, h]
  trivial

theorem onPartial_of_find {P : DownloadingPiece → Prop} (h : s.findDlPiece p = some dp)
    (hP : P dp) : s.onPartial p P := by
  rw [onPartial, h]
  exact hP

theorem FreePick.of_open (hf : s.isPieceFree a pb.pieceIndex)
    (hq : s.downloadQueue pb.pieceIndex = none)
    (hb : pb.blockIndex < s.blocksInPiece pb.pieceIndex) : s.FreePick a pb :=
  ⟨hf, hb, onPartial_of_open hq, onPartial_of_open hq⟩

theorem PartialOffer.freePick {news : List PieceBlock} (h : s.PartialOffer a dp news)
    (hdp : s.findDlPiece dp.index = some dp) (hf : s.isPieceFree a dp.index) (hpb : pb ∈ news) :
    s.FreePick a pb := by
  have hi := h.index pb hpb
  have hask := h.askable (List.ne_nil_of_mem hpb)
  refine ⟨by rwa [hi], by rw [hi]; exact h.block pb hpb, ?_, ?_⟩ <;> rw [hi]
  · exact onPartial_of_find hdp (h.state pb hpb)
  · exact onPartial_of_find hdp hask

theorem canPick_free (h : s.canPick a k) : s.isPieceFree a k ∧ s.downloadQueue k = none := by
  obtain ⟨h₁, h₂, h₃, h₄⟩ := h
  exact ⟨⟨h₁, h₂, h₄⟩, DownloadState.downloadQueue_eq_none.mpr (not_not.mp h₃)⟩

/-! ## `add_blocks` -/

/-- What `add_blocks` finds for the piece `p`: the blocks `news`, and pieces `ks` to ignore. -/
structure Offer (s : PiecePicker) (a : PickRequest) (p : ℕ) (prefer : ℤ) (ignored : List ℕ)
    (news : List PieceBlock) (ks : List ℕ) : Prop where
  nodup : news.Nodup
  free : ∀ pb ∈ news, s.FreePick a pb
  mem : ∀ pb ∈ news, pb.pieceIndex = p ∧ p ∉ ignored ∨ pb.pieceIndex ∈ ks
  fresh : ∀ k ∈ ks, k ∉ ignored ∧ s.downloadQueue k = none
  single : prefer = 0 → ks = []
  /-- an open piece in a range is ignored from now on -/
  recorded : prefer ≠ 0 → s.downloadQueue p = none → ∀ pb ∈ news, pb.pieceIndex ∈ ks
  /-- a partial piece is not, and it is left alone if it has been looked at or cannot be asked
  for -/
  partials : s.downloadQueue p ≠ none → ks = [] ∧ (news ≠ [] →
    a.options.prioritizePartials = false ∧ s.downloadQueue p = some .pieceDownloading ∧
      s.onPartial p (s.askable a))

theorem Offer.nil (s : PiecePicker) (a : PickRequest) (p : ℕ) (prefer : ℤ) (ignored : List ℕ) :
    s.Offer a p prefer ignored [] [] :=
  ⟨List.nodup_nil, by simp, by simp, by simp, fun _ => rfl, fun _ _ => by simp,
    fun _ => ⟨rfl, fun h => absurd rfl h⟩⟩

/-- Blocks of the range around an open piece. -/
theorem pushRange_offer (hf : s.isPieceFree a p) (hq : s.downloadQueue p = none)
    (stop : ℤ → ℤ → Bool) {count : ℕ → ℕ} (hc : ∀ k, count k ≤ s.blocksInPiece k)
    (hp : prefer ≠ 0) (n : ℤ) (st : PickState) : ∃ news ks,
      Adds st (pushRange stop count (rangePieces (s.expandPiece a p prefer)) (st, n)).1 news ks ∧
      s.Offer a p prefer st.ignoredPieces news ks ∧ ∀ pb ∈ news, pb.pieceIndex ∈ ks := by
  obtain ⟨news, ks, hadd, hnd, hmem, hks⟩ :=
    pushRange_adds stop count (rangePieces (s.expandPiece a p prefer)) st n
  have hopen : ∀ k ∈ ks, s.isPieceFree a k ∧ s.downloadQueue k = none := by
    intro k hk
    rcases expandPiece_spec (hks k hk).1 with rfl | hk
    · exact ⟨hf, hq⟩
    · exact canPick_free hk
  refine ⟨news, ks, hadd, ⟨hnd, fun pb hpb => ?_, fun pb hpb => .inr (hmem pb hpb).1,
    fun k hk => ⟨(hks k hk).2, (hopen k hk).2⟩, fun h0 => absurd h0 hp,
    fun _ _ pb hpb => (hmem pb hpb).1, fun hc => absurd hq hc⟩, fun pb hpb => (hmem pb hpb).1⟩
  obtain ⟨h₁, h₂⟩ := hopen _ (hmem pb hpb).1
  exact .of_open h₁ h₂ (Nat.lt_of_lt_of_le (hmem pb hpb).2 (hc _))

theorem payloadBlocks_le (s : PiecePicker) (k : ℕ) : s.payloadBlocks k ≤ s.blocksInPiece k :=
  Nat.sub_le _ _

theorem addBlocksOpen_offer (hf : s.isPieceFree a p) (hq : s.downloadQueue p = none)
    (hign : p ∉ st.ignoredPieces) (prefer : ℤ) : ∃ news ks,
      Adds st (s.addBlocksOpen a p prefer st) news ks ∧
      s.Offer a p prefer st.ignoredPieces news ks := by
  simp only [addBlocksOpen]
  split_ifs with h0
  · refine ⟨_, [], picked_adds st _ _, map_block_nodup List.nodup_range p, fun pb hpb => ?_,
      fun pb hpb => .inl ?_, by simp, fun _ => rfl, fun hc => absurd h0 hc,
      fun hc => absurd hq hc⟩ <;>
        obtain ⟨j, hj, rfl⟩ := List.mem_map.mp hpb
    · refine .of_open hf hq ?_
      have := s.payloadBlocks_le p
      have := List.mem_range.mp hj
      dsimp only
      omega
    · exact ⟨rfl, hign⟩
  · obtain ⟨news, ks, hadd, hoff, -⟩ := pushRange_offer hf hq
      (fun prefer num => prefer = 0 ∧ num ≤ 0) s.payloadBlocks_le h0 prefer st
    exact ⟨news, ks, hadd.clamp _, hoff⟩

/-- What `add_blocks` finds. -/
theorem addBlocks_offer (hb : s.Buckets) (hf : s.isPieceFree a p) (prefer : ℤ) (st : PickState) :
    ∃ news ks, Adds st (s.addBlocks a p prefer st) news ks ∧
      s.Offer a p prefer st.ignoredPieces news ks := by
  have hnone : ∃ news ks, Adds st st news ks ∧ s.Offer a p prefer st.ignoredPieces news ks :=
    ⟨[], [], .refl st, .nil s a p prefer _⟩
  rw [addBlocks]
  by_cases hign : p ∈ st.ignoredPieces
  · rw [if_pos hign]
    exact hnone
  rw [if_neg hign]
  rcases hq : s.downloadQueue p with - | q
  · exact addBlocksOpen_offer hf hq hign prefer
  cases q with
  | pieceFull => exact hnone
  | pieceFinished => exact hnone
  | pieceZeroPrio => exact hnone
  | pieceDownloading =>
    dsimp only
    split_ifs with hpp
    · exact hnone
    rcases hdp : s.findDlPiece p with - | dp
    · exact hnone
    obtain rfl := hb.find_index hdp
    obtain ⟨news, hadd, hoff⟩ := addBlocksDownloading_adds s a dp prefer st
    refine ⟨news, [], hadd, hoff.nodup, fun pb hpb => hoff.freePick hdp hf hpb,
      fun pb hpb => .inl ⟨hoff.index pb hpb, hign⟩, by simp, fun _ => rfl, fun _ hc => ?_,
      fun _ => ⟨rfl, fun hne => ⟨by simpa using hpp, hq, onPartial_of_find hdp (hoff.askable hne)⟩⟩⟩
    rw [hq] at hc
    cases hc

end PiecePicker

end LibtorrentSN
