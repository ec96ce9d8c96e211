import LibtorrentSN.Picker.PickBlocks

/-!
# The piece picker: what `pick_pieces` picks

Every stage of `pick_pieces` but the last adds nothing but free blocks of pieces that we want,
that the peer has and that are not locked: they all go through `add_blocks` or
`add_blocks_downloading`. The end game may add one busy block.
-/

namespace LibtorrentSN

namespace PiecePicker

open PickerCore PickState

variable {s s' : PiecePicker} {a : PickRequest} {st st' st'' : PickState} {p : ℕ}
  {pb : PieceBlock}

/-- Every block of `st'` is one of `st` or a free one. -/
def Finds (s : PiecePicker) (a : PickRequest) (st st' : PickState) : Prop :=
  ∀ pb ∈ st'.blocks, pb ∈ st.blocks ∨ s.FreePick a pb

theorem Finds.trans (h : s.Finds a st st') (h' : s.Finds a st' st'') : s.Finds a st st'' := by
  intro pb hpb
  rcases h' pb hpb with hpb | hpb
  · exact h pb hpb
  · exact .inr hpb

theorem finds_of_adds {news : List PieceBlock} {ks : List ℕ} (h : Adds st st' news ks)
    (hnews : ∀ pb ∈ news, s.FreePick a pb) : s.Finds a st st' := by
  intro pb hpb
  exact (h.mem.mp hpb).imp_right (hnews pb)

theorem finds_of_nothing {ks : List ℕ} (h : Adds st st' [] ks) : s.Finds a st st' :=
  finds_of_adds h (by simp)

theorem Finds.refl (s : PiecePicker) (a : PickRequest) (st : PickState) : s.Finds a st st :=
  finds_of_nothing (.refl st)

theorem addBlocks_finds (hb : s.Buckets) (hf : s.isPieceFree a p) (prefer : ℤ) (f : PickerFlag)
    (st : PickState) : s.Finds a st (s.addBlocks a p prefer (st.flag f)) := by
  obtain ⟨news, ks, hadd, hoff⟩ := addBlocks_offer hb hf prefer (st.flag f)
  exact (finds_of_nothing (flag_adds st f)).trans (finds_of_adds hadd hoff.free)

/-! ## The stages -/

/-- A scan finds free blocks only. -/
theorem scan_finds (hb : s.Buckets) (f : PickerFlag) (l : List ℕ) (st : PickState) :
    s.Finds a st (s.scan a f l st) := by
  induction l generalizing st with
  | nil => exact .refl s a st
  | cons p l ih =>
    rw [scan]
    by_cases hf : s.isPieceFree a p
    · rw [if_neg (not_not.mpr hf)]
      dsimp only
      have hstep := addBlocks_finds hb hf st.preferContiguousBlocks f st
      split_ifs
      · exact hstep
      · exact hstep.trans (ih _)
    · rw [if_pos hf]
      exact ih st

/-- So do the suggested pieces. -/
theorem suggestedStage_finds (hb : s.Buckets) (l : List ℕ) (st : PickState) :
    s.Finds a st (s.suggestedStage a l st) := by
  induction l generalizing st with
  | nil => exact .refl s a st
  | cons p l ih =>
    rw [suggestedStage]
    by_cases hf : s.isPieceFree a p
    · rw [if_neg (not_not.mpr hf)]
      dsimp only
      have hstep := (addBlocks_finds hb hf st.preferContiguousBlocks .suggestedPieces st).trans
        (finds_of_nothing (ignore_adds _ p))
      split_ifs
      · exact hstep
      · exact hstep.trans (ih _)
    · rw [if_pos hf]
      exact ih st

/-- The partial pieces that are picked from first. -/
theorem mem_orderedPartials {dp : DownloadingPiece} (h : dp ∈ (s.orderedPartials a).1) :
    dp ∈ s.downloads.downloading ∧ s.isPieceFree a dp.index := by
  rw [orderedPartials] at h
  dsimp only at h
  have hfilter : dp ∈ s.downloads.downloading.filter fun dp => s.isPieceFree a dp.index := by
    split_ifs at h
    · exact (randomShuffle_perm _ _).mem_iff.mp ((List.mem_insertionSort _).mp h)
    · exact h
  obtain ⟨h₁, h₂⟩ := List.mem_filter.mp hfilter
  exact ⟨h₁, of_decide_eq_true h₂⟩

theorem scanPartials_finds (hb : s.Buckets) (dps : List DownloadingPiece)
    (hdps : ∀ dp ∈ dps, dp ∈ s.downloads.downloading ∧ s.isPieceFree a dp.index)
    (st : PickState) : s.Finds a st (s.scanPartials a dps st) := by
  induction dps generalizing st with
  | nil => exact .refl s a st
  | cons dp dps ih =>
    obtain ⟨hdp, hf⟩ := hdps dp List.mem_cons_self
    have hfind : s.findDlPiece dp.index = some dp :=
      hb.find_eq_some.mpr ⟨Downloads.mem_all.mpr ⟨.pieceDownloading, hdp⟩, rfl⟩
    obtain ⟨news, hadd, hoff⟩ := addBlocksDownloading_adds s a dp st.preferContiguousBlocks
      (st.flag .prioritizePartials)
    have hstep : s.Finds a st (s.addBlocksDownloading a dp st.preferContiguousBlocks
        (st.flag .prioritizePartials)) :=
      (finds_of_nothing (flag_adds st _)).trans
        (finds_of_adds hadd fun pb hpb => hoff.freePick hfind hf hpb)
    simp only [scanPartials]
    split_ifs
    · exact hstep
    · exact hstep
    · exact hstep.trans (ih (fun dp hdp => hdps dp (List.mem_cons_of_mem _ hdp)) _)

/-- So do the partial pieces. -/
theorem partialsStage_finds (hb : s.Buckets) (st : PickState) :
    s.Finds a st (s.partialsStage a st).1 := by
  rw [partialsStage]
  by_cases hpp : a.options.prioritizePartials = true
  · rw [if_pos hpp]
    dsimp only
    have h₁ : s.Finds a st (if a.options.rarestFirst then st.flag .rarestFirstPartials else st) := by
      split_ifs
      · exact finds_of_nothing (flag_adds st _)
      · exact .refl s a st
    have h₂ := h₁.trans (scanPartials_finds hb (s.orderedPartials a).1
      (fun dp hdp => mem_orderedPartials hdp) _)
    have h₃ : ∀ st' : PickState, s.Finds a st st' →
        s.Finds a st (if st'.numBlocks ≤ 0 then st' else st'.appendBackup) := by
      intro st' h
      split_ifs
      · exact h
      · exact h.trans (finds_of_nothing (appendBackup_adds st'))
    have h₄ : ∀ st' : PickState, s.Finds a st st' →
        s.Finds a st (if st'.numBlocks ≤ 0 then st' else st'.appendBackup2) := by
      intro st' h
      split_ifs
      · exact h
      · exact h.trans (finds_of_nothing (appendBackup2_adds st'))
    exact h₄ _ (h₃ _ h₂)
  · rw [if_neg hpp]
    exact .refl s a st

theorem scanExtents_finds (hb : s.Buckets) (es : List ℕ) (idx : ℕ) (toErase : Option ℕ)
    (st : PickState) : s.Finds a st (s.scanExtents a es idx toErase st).1 := by
  induction es generalizing idx toErase st with
  | nil => exact .refl s a st
  | cons e es ih =>
    have hstep := scan_finds (a := a) hb .extentAffinity (s.extentPieces e) st
    rw [scanExtents]
    dsimp only
    by_cases hn : (s.scan a .extentAffinity (s.extentPieces e) st).numBlocks ≤ 0
    · rw [if_pos hn]
      exact hstep
    · rw [if_neg hn]
      exact hstep.trans (ih _ _ _)

theorem skipToFree_spec {start : ℕ} {ignored : List ℕ} {fuel q : ℕ}
    (h : s.skipToFree a start ignored fuel q = some p) : s.isPieceFree a p ∧ p ∉ ignored := by
  induction fuel generalizing q with
  | zero => cases h
  | succ fuel ih =>
    rw [skipToFree] at h
    dsimp only at h
    by_cases hc : ¬ s.isPieceFree a q ∨ q ∈ ignored
    · rw [if_pos hc] at h
      split_ifs at h
      exact ih h
    · rw [if_neg hc] at h
      obtain rfl := Option.some.inj h
      rw [not_or, not_not] at hc
      exact hc

/-- One turn of the random scan. -/
theorem randomStep_offer (hb : s.Buckets) (hf : s.isPieceFree a p) (st : PickState) :
    s.Finds a st (s.randomStep a p st).2 := by
  rw [randomStep]
  dsimp only
  have hflag : s.Finds a st (st.flag .randomPieces) := finds_of_nothing (flag_adds st _)
  by_cases hc : 1 < (st.flag .randomPieces).preferContiguousBlocks ∧ ¬ s.downloading p
  · rw [if_pos hc]
    have hq := DownloadState.downloadQueue_eq_none.mpr (not_not.mp hc.2)
    obtain ⟨news, ks, hadd, hoff, -⟩ := pushRange_offer hf hq
      (fun prefer num => prefer ≤ 0 ∧ num ≤ 0) (fun k => Nat.le_refl (s.blocksInPiece k))
      (Int.ne_of_gt (Int.lt_trans Int.zero_lt_one hc.1))
      (st.flag .randomPieces).preferContiguousBlocks (st.flag .randomPieces)
    intro pb hpb
    exact hflag.trans (finds_of_adds hadd hoff.free) pb hpb
  · rw [if_neg hc]
    exact addBlocks_finds hb hf _ _ st

/-- So does the random scan. -/
theorem randomScan_finds (hb : s.Buckets) (start fuel q : ℕ) (st : PickState) :
    s.Finds a st (s.randomScan a start fuel q st) := by
  induction fuel generalizing q st with
  | zero => exact .refl s a st
  | succ fuel ih =>
    rw [randomScan]
    split_ifs with hn
    · exact .refl s a st
    rcases hskip : s.skipToFree a start st.ignoredPieces s.numPieces q with - | p
    · exact .refl s a st
    · dsimp only
      have hstep := randomStep_offer hb (skipToFree_spec hskip).1 st
      split_ifs
      · exact hstep
      · exact hstep.trans (ih _ _)

/-! ## All stages before the end game -/

/-- The blocks of another state of the picker with the same pieces are free here, too. -/
theorem FreePick.of_effect (he : PickEffect s s') (h : s'.FreePick a pb) : s.FreePick a pb := by
  have hcore := he.core
  have hhave := he.have_iff
  obtain ⟨c, _, _, _, _, _, _, _, _, _, _, _, _, _, _, _⟩ := s
  obtain ⟨c', _, _, _, _, _, _, _, _, _, _, _, _, _, _, _⟩ := s'
  obtain rfl : c' = c := hcore
  exact ⟨⟨h.piece.1, fun hc => h.piece.2.1 ((hhave _).mpr hc), h.piece.2.2⟩, h.block, h.state,
    h.askable⟩

theorem PickEffect.buckets (he : PickEffect s s') (hb : s.Buckets) : s'.Buckets := by
  rw [he.core]
  exact hb

theorem Finds.of_effect (he : PickEffect s s') (h : s'.Finds a st st') : s.Finds a st st' :=
  fun pb hpb => (h pb hpb).imp_right (.of_effect he)

theorem sequentialStage_finds (hb : s.Buckets) (st : PickState) :
    s.Finds a st (s.sequentialStage a st) := by
  simp only [sequentialStage]
  split_ifs
  · exact scan_finds hb _ _ st
  · exact (scan_finds hb _ _ st).trans (scan_finds hb _ _ _)
  · exact (scan_finds hb _ _ st).trans (scan_finds hb _ _ _)

theorem extentsStage_finds (hb : s.Buckets) (st : PickState) :
    s.Finds a st (s.extentsStage a st).1 := by
  have h := scanExtents_finds (a := a) hb s.recentExtents 0 none st
  simp only [extentsStage]
  split
  · exact h
  · exact h

theorem rarestFirstStage_finds (hb : s.Buckets) (st : PickState) :
    s.Finds a st (s.rarestFirstStage a st).1 := by
  rw [rarestFirstStage]
  by_cases hr : a.options.reverse = true
  · rw [if_pos hr]
    exact scan_finds hb _ _ st
  rw [if_neg hr]
  dsimp only
  by_cases he : a.options.pieceExtentAffinity = true
  · simp only [if_pos he]
    have h := extentsStage_finds (a := a) hb st
    obtain ⟨e, hs⟩ := s.extentsStage_state a st
    have heff : PickEffect s (s.extentsStage a st).2 := ⟨s.rng, e, .inl hs⟩
    split_ifs
    · exact h
    · exact h.trans (.of_effect heff (scan_finds (heff.buckets hb) _ _ _))
  · simp only [if_neg he]
    split_ifs
    · exact .refl s a st
    · exact scan_finds hb _ _ st

/-- So does every order of the main stage. -/
theorem mainStage_finds (hb : s.Buckets) (st : PickState) : s.Finds a st (s.mainStage a st).1 := by
  have he : PickEffect s s.refresh := s.refresh_effect s.rng
  have hb' : s.refresh.Buckets := he.buckets hb
  rw [mainStage]
  split_ifs
  · exact .of_effect he (sequentialStage_finds hb' st)
  · exact .of_effect he (rarestFirstStage_finds hb' st)
  · exact randomScan_finds hb _ _ _ st

/-- Take blocks from the two lists of backup blocks. -/
def takeBackups (st : PickState) : PickState :=
  let st := (st.flag .backup1).appendBackup
  if st.numBlocks ≤ 0 then st else (st.flag .backup2).appendBackup2

/-- `pick_pieces` without the end game. -/
def freeStages (s : PiecePicker) (a : PickRequest) (st : PickState) : PickState × PiecePicker :=
  let r := s.partialsStage a st
  if r.1.numBlocks ≤ 0 then r
  else
    let st := r.2.suggestedStage a a.suggestedPieces r.1
    if st.numBlocks ≤ 0 then (st, r.2)
    else
      let r := r.2.mainStage a st
      if r.1.numBlocks ≤ 0 then r else (takeBackups r.1, r.2)

theorem pickStages_eq (s : PiecePicker) (a : PickRequest) (st : PickState) :
    s.pickStages a st = if (s.freeStages a st).1.numBlocks ≤ 0 then s.freeStages a st
      else (s.freeStages a st).2.endGame a (s.freeStages a st).1 := by
  simp only [pickStages, freeStages]
  by_cases h₁ : (s.partialsStage a st).1.numBlocks ≤ 0
  · simp only [if_pos h₁]
  simp only [if_neg h₁]
  by_cases h₂ : ((s.partialsStage a st).2.suggestedStage a a.suggestedPieces
      (s.partialsStage a st).1).numBlocks ≤ 0
  · simp only [if_pos h₂]
  simp only [if_neg h₂]
  set r := (s.partialsStage a st).2.mainStage a ((s.partialsStage a st).2.suggestedStage a
    a.suggestedPieces (s.partialsStage a st).1)
  by_cases h₃ : r.1.numBlocks ≤ 0
  · simp only [if_pos h₃]
  simp only [if_neg h₃, backupStage, takeBackups]
  by_cases h₄ : (r.1.flag .backup1).appendBackup.numBlocks ≤ 0
  · simp only [if_pos h₄]
  · simp only [if_neg h₄]

theorem takeBackups_adds (st : PickState) : Adds st (takeBackups st) [] [] := by
  have h₁ := (flag_adds st .backup1).trans (appendBackup_adds _)
  simp only [takeBackups]
  split_ifs
  · exact h₁
  · exact h₁.trans ((flag_adds _ .backup2).trans (appendBackup2_adds _))

/-- All stages before the end game find free blocks only. -/
theorem freeStages_finds (hb : s.Buckets) (st : PickState) :
    s.Finds a st (s.freeStages a st).1 := by
  have he : PickEffect s (s.partialsStage a st).2 := by
    obtain ⟨rng, hrng⟩ := s.partialsStage_state a st
    exact ⟨rng, s.recentExtents, .inl hrng⟩
  have hb' := he.buckets hb
  have h₁ := partialsStage_finds (a := a) hb st
  have h₂ := h₁.trans (.of_effect he
    (suggestedStage_finds hb' a.suggestedPieces (s.partialsStage a st).1))
  have h₃ := h₂.trans (.of_effect he (mainStage_finds hb' _))
  simp only [freeStages]
  split_ifs
  · exact h₁
  · exact h₂
  · exact h₃
  · exact h₃.trans (finds_of_nothing (takeBackups_adds _))

/-! ## The end game -/

/-- The end game adds at most one block: a busy one of one of the pieces given. -/
theorem busyLoop_spec (s : PiecePicker) (a : PickRequest) (fuel : ℕ)
    (partials : List DownloadingPiece) (st : PickState) (rng : List ℕ) :
    (s.busyLoop a fuel partials st rng).1 = st ∨ ∃ dp ∈ partials, ∃ pb ∈ s.busyBlocks a dp,
      (s.busyLoop a fuel partials st rng).1.interestingBlocks = st.interestingBlocks ++ [pb] := by
  induction fuel generalizing partials rng with
  | zero => exact .inl rfl
  | succ fuel ih =>
    simp only [busyLoop]
    rcases hdp : partials[random (draw rng).1 (partials.length - 1)]? with - | dp
    · exact .inl rfl
    dsimp only
    by_cases htemp : s.busyBlocks a dp ≠ []
    · rw [if_pos htemp]
      rcases hpb : (s.busyBlocks a dp)[random (draw (draw rng).2).1
          ((s.busyBlocks a dp).length - 1)]? with - | pb
      · exact .inl rfl
      · refine .inr ⟨dp, List.mem_of_getElem? hdp, pb, List.mem_of_getElem? hpb, ?_⟩
        dsimp only
        rw [flag]
        split_ifs <;> rfl
    · rw [if_neg htemp]
      rcases hlast : partials.getLast? with - | last
      · exact ih partials (draw rng).2
      · refine (ih ((partials.set _ last).dropLast) (draw rng).2).imp_right ?_
        rintro ⟨dp', hdp', h⟩
        refine ⟨dp', ?_, h⟩
        rcases List.mem_or_eq_of_mem_set (List.mem_of_mem_dropLast hdp') with h | rfl
        · exact h
        · exact List.mem_of_getLast? hlast

/-- The partial pieces that the end game looks at. -/
def endGamePartials (s : PiecePicker) (a : PickRequest) : List DownloadingPiece :=
  (s.downloads.full.filter fun dp => a.pieces.getD dp.index false).take
    (min 200 (s.downloads.downloading.length + s.downloads.full.length))

theorem mem_endGamePartials {dp : DownloadingPiece} (h : dp ∈ s.endGamePartials a) :
    dp ∈ s.downloads.full ∧ a.pieces.getD dp.index false = true :=
  List.mem_filter.mp (List.mem_of_mem_take h)

/-- The block `pb` is a busy one of the piece `dp`, which the end game looks at. -/
def BusyOf (s : PiecePicker) (a : PickRequest) (dp : DownloadingPiece) (pb : PieceBlock) : Prop :=
  dp ∈ s.endGamePartials a ∧ pb ∈ s.busyBlocks a dp

/-- The end game picks nothing, or one busy block. -/
theorem endGame_spec (s : PiecePicker) (a : PickRequest) (st : PickState) :
    (s.endGame a st).1 = st ∨ a.options.onParole = false ∧ ∃ dp pb, s.BusyOf a dp pb ∧
      (s.endGame a st).1.interestingBlocks = st.interestingBlocks ++ [pb] := by
  rw [endGame]
  split_ifs with hpar
  · exact .inl rfl
  · dsimp only
    refine (busyLoop_spec s a _ _ st s.rng).imp_right ?_
    rintro ⟨dp, hdp, pb, hpb, h⟩
    exact ⟨by simpa using hpar, dp, pb, ⟨hdp, hpb⟩, h⟩

theorem mem_busyBlocks {dp : DownloadingPiece} (h : pb ∈ s.busyBlocks a dp) :
    pb.pieceIndex = dp.index ∧ pb.blockIndex < (s.blocksForPiece dp).length ∧
      (s.block dp pb.blockIndex).state = .requested ∧ (s.block dp pb.blockIndex).peer ≠ a.peer := by
  obtain ⟨b, hb, rfl⟩ := List.mem_map.mp h
  obtain ⟨hr, hc⟩ := List.mem_filter.mp hb
  obtain ⟨h₁, h₂⟩ := of_decide_eq_true hc
  exact ⟨rfl, List.mem_range.mp hr, h₁, h₂⟩

theorem busyBlocks_congr (hcore : s'.toPickerCore = s.toPickerCore) (dp : DownloadingPiece) :
    s'.busyBlocks a dp = s.busyBlocks a dp := by
  simp only [busyBlocks, hcore]

theorem endGamePartials_congr (hcore : s'.toPickerCore = s.toPickerCore) :
    s'.endGamePartials a = s.endGamePartials a := by
  simp only [endGamePartials, hcore]

/-! ## All of `pick_pieces` -/

/-- A requested block of a piece we want and the peer has, recorded for another peer. -/
structure BusyPick (s : PiecePicker) (a : PickRequest) (pb : PieceBlock) : Prop where
  piece : s.isPieceFree a pb.pieceIndex
  block : pb.blockIndex < s.blocksInPiece pb.pieceIndex
  busy : ∃ dp, s.findDlPiece pb.pieceIndex = some dp ∧ dp.locked = false ∧
    (s.block dp pb.blockIndex).state = .requested ∧ (s.block dp pb.blockIndex).peer ≠ a.peer
  parole : a.options.onParole = false

/-- The blocks are free ones, but for the last one, which may be busy. -/
def PickSound (s : PiecePicker) (a : PickRequest) (blocks : List PieceBlock) : Prop :=
  ∃ free busy, blocks = free ++ busy ∧ busy.length ≤ 1 ∧ (∀ pb ∈ free, s.FreePick a pb) ∧
    ∀ pb ∈ busy, s.BusyPick a pb

theorem freeStages_core (s : PiecePicker) (a : PickRequest) (st : PickState) :
    (s.freeStages a st).2.toPickerCore = s.toPickerCore := by
  have he := s.pickStages_effect a st
  rw [pickStages_eq] at he
  split_ifs at he
  · exact he.core
  · obtain ⟨rng, hrng⟩ := endGame_state (s.freeStages a st).2 a (s.freeStages a st).1
    rw [hrng] at he
    exact he.core

/-- The blocks of a call: those found before the end game, and at most one busy block. -/
theorem pickStages_spec (s : PiecePicker) (a : PickRequest) (st : PickState) :
    (s.pickStages a st).1.interestingBlocks = (s.freeStages a st).1.interestingBlocks ∨
    0 < (s.freeStages a st).1.numBlocks ∧ a.options.onParole = false ∧ ∃ dp pb, s.BusyOf a dp pb ∧
      (s.pickStages a st).1.interestingBlocks =
        (s.freeStages a st).1.interestingBlocks ++ [pb] := by
  have hcore := s.freeStages_core a st
  rw [pickStages_eq]
  split_ifs with hn
  · exact .inl rfl
  · refine (endGame_spec (s.freeStages a st).2 a (s.freeStages a st).1).imp (fun h => by rw [h]) ?_
    rintro ⟨hpar, dp, pb, ⟨h₁, h₂⟩, h⟩
    rw [endGamePartials_congr hcore] at h₁
    rw [busyBlocks_congr hcore] at h₂
    exact ⟨by omega, hpar, dp, pb, ⟨h₁, h₂⟩, h⟩

/-- No block is picked at the start. -/
theorem startState_blocks (a : PickRequest) (flags : List PickerFlag) :
    (startState a flags).blocks = [] := by
  simp only [startState]
  split_ifs
  · exact (flag_adds _ _).perm.eq_nil
  · rfl

/-- All blocks found before the end game are free. -/
theorem freeStages_free (hb : s.Buckets) (flags : List PickerFlag) :
    ∀ pb ∈ (s.freeStages a (startState a flags)).1.interestingBlocks, s.FreePick a pb := by
  intro pb hpb
  have hmem : pb ∈ (s.freeStages a (startState a flags)).1.blocks :=
    List.mem_append_left _ (List.mem_append_left _ hpb)
  rcases freeStages_finds hb _ pb hmem with hold | hnew
  · rw [startState_blocks] at hold
    exact absurd hold List.not_mem_nil
  · exact hnew

/-- The options and the preferred run are all that `limit_partials` changes. -/
theorem limitPartials_same (s : PiecePicker) (a : PickRequest) :
    (s.limitPartials a).1.pieces = a.pieces ∧ (s.limitPartials a).1.peer = a.peer ∧
      (s.limitPartials a).1.options.onParole = a.options.onParole := by
  rw [limitPartials]
  dsimp only
  split_ifs <;> exact ⟨rfl, rfl, rfl⟩

theorem FreePick.of_limit (h : s.FreePick (s.limitPartials a).1 pb) : s.FreePick a pb := by
  obtain ⟨h₁, h₂, h₃⟩ := s.limitPartials_same a
  have hask : s.askable (s.limitPartials a).1 = s.askable a := by
    funext dp
    simp only [PiecePicker.askable, h₁, h₂, h₃]
  obtain ⟨hp, hb, hs, hk⟩ := h
  rw [hask] at hk
  simp only [isPieceFree, h₁] at hp
  exact ⟨hp, hb, hs, hk⟩

theorem endGame_limit (s : PiecePicker) (a : PickRequest) :
    s.endGamePartials (s.limitPartials a).1 = s.endGamePartials a ∧
      ∀ dp, s.busyBlocks (s.limitPartials a).1 dp = s.busyBlocks a dp := by
  obtain ⟨h₁, h₂, -⟩ := s.limitPartials_same a
  simp only [endGamePartials, busyBlocks, h₁, h₂, implies_true, and_self]

theorem BusyOf.of_limit {dp : DownloadingPiece} (h : s.BusyOf (s.limitPartials a).1 dp pb) :
    s.BusyOf a dp pb := by
  obtain ⟨hpartials, hblocks⟩ := s.endGame_limit a
  rwa [BusyOf, hpartials, hblocks] at h

/-- All blocks are of pieces the peer has. -/
theorem pickPieces_mask (hb : s.Buckets) (a : PickRequest) :
    ∀ pb ∈ (s.pickPieces a).1.interestingBlocks, a.pieces.getD pb.pieceIndex false = true := by
  intro pb hpb
  set st := startState (s.limitPartials a).1 (s.limitPartials a).2
  change pb ∈ (s.pickStages (s.limitPartials a).1 st).1.interestingBlocks at hpb
  have hfree : ∀ pb ∈ (s.freeStages (s.limitPartials a).1 st).1.interestingBlocks,
      a.pieces.getD pb.pieceIndex false = true :=
    fun pb hpb => (FreePick.of_limit (freeStages_free hb _ pb hpb)).piece.1
  rcases s.pickStages_spec (s.limitPartials a).1 st with heq | ⟨-, -, dp, busy, hbusy, heq⟩
  · rw [heq] at hpb
    exact hfree pb hpb
  · rw [heq] at hpb
    rcases List.mem_append.mp hpb with hm | hm
    · exact hfree pb hm
    · obtain rfl := List.mem_singleton.mp hm
      obtain ⟨hlooked, hblock⟩ := hbusy.of_limit
      rw [(mem_busyBlocks hblock).1]
      exact (mem_endGamePartials hlooked).2

end PiecePicker

end LibtorrentSN
