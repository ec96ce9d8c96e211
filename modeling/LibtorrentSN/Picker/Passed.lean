import LibtorrentSN.Picker.Exact

/-!
# The piece picker: which pieces have passed

A piece passes by `piece_passed`, and by nothing that happens to its blocks: `mark_as_finished` can
only make a piece that has passed one that we have.
-/

namespace LibtorrentSN

namespace PiecePicker

open PickerCore

variable {s s' : PiecePicker} {p b y : ℕ} {dp : DownloadingPiece} {peer : Option ℕ}

theorem hasPiecePassed_iff : s.hasPiecePassed y = true ↔
    s.havePiece y ∨ ∃ dp, s.findDlPiece y = some dp ∧ dp.passedHashCheck = true := by
  rw [hasPiecePassed]
  by_cases hh : s.havePiece y
  · simp [hh]
  · rw [if_neg hh]
    rcases s.findDlPiece y with - | dp
    · simp [hh]
    · simp [hh]

/-- Marking a block of a partial piece leaves the flags of all pieces alone. -/
theorem mark_passed (hb : s.Buckets) {f : BlockInfo → BlockInfo}
    {g : DownloadingPiece → DownloadingPiece} (hi : ∀ dp, (g dp).index = dp.index)
    (hg : ∀ dp, (g dp).passedHashCheck = dp.passedHashCheck) {dp' : DownloadingPiece}
    (hdp' : (((s.modifyBlock dp b f).modifyDl p g).updatePieceState p).findDlPiece y = some dp')
    (hpass : dp'.passedHashCheck = true) :
    ∃ x, s.findDlPiece y = some x ∧ x.passedHashCheck = true := by
  have hb₁ : (s.modifyBlock dp b f).Buckets := hb.congr rfl fun _ => rfl
  have hb₂ : ((s.modifyBlock dp b f).modifyDl p g).Buckets := Buckets.modifyDl hb₁ hi
  rw [updatePieceState_core, hb₂.find_recategorize] at hdp'
  change ((s.modifyBlock dp b f).toPickerCore.modifyDl p g).findDlPiece y = some dp' at hdp'
  rw [hb₁.find_modifyDl hi] at hdp'
  change (if y = p then (s.findDlPiece y).map g else s.findDlPiece y) = some dp' at hdp'
  split_ifs at hdp' with hy
  · obtain ⟨x, hx, rfl⟩ := Option.map_eq_some_iff.mp hdp'
    exact ⟨x, hx, (hg x).symm.trans hpass⟩
  · exact ⟨dp', hdp', hpass⟩

/-- So no piece passes by it. -/
theorem mark_hasPassed (hb : s.Buckets) (hl : s.Listed) {f : BlockInfo → BlockInfo}
    {g : DownloadingPiece → DownloadingPiece} (hi : ∀ dp, (g dp).index = dp.index)
    (hg : ∀ dp, (g dp).passedHashCheck = dp.passedHashCheck)
    (hy : (((s.modifyBlock dp b f).modifyDl p g).updatePieceState p).hasPiecePassed y = true) :
    s.hasPiecePassed y = true := by
  rw [hasPiecePassed_iff] at hy ⊢
  rcases hy with hy | ⟨dp', hdp', hpass⟩
  · have hk := @mark_keeps s p b dp hb f g hi hg
    exact .inl (((hk.list hl).2 y).mp hy)
  · exact .inr (mark_passed hb hi hg hdp' hpass)

/-- A piece we get to have is the only one that can be new. -/
theorem weHave_passed (hb : s.Buckets) (hl : s.Listed) (hp : p < s.numPieces)
    (h : (s.weHave p).hasPiecePassed y = true) : y = p ∨ s.hasPiecePassed y = true := by
  by_cases hh : s.havePiece p
  · rw [weHave, if_pos hh] at h
    exact .inr h
  · rw [hasPiecePassed_iff] at h ⊢
    rcases h with hy | ⟨dp, hdp, hpass⟩
    · rcases (((weHave_gains hb hp hh).list hl).2 y).mp hy with hy | hy
      · exact .inr (.inl hy)
      · exact .inl hy
    · rw [weHave_core, if_neg hh, dropPassed] at hdp
      rcases hf : s.findDlPiece p with - | x <;> rw [hf] at hdp
      · exact .inr (.inr ⟨dp, hdp, hpass⟩)
      · change (s.toPickerCore.eraseDl x).findDlPiece y = some dp at hdp
        rw [hb.find_eraseDl hf] at hdp
        split_ifs at hdp with hy
        exact .inr (.inr ⟨dp, hdp, hpass⟩)

theorem weHave_have (hb : s.Buckets) (hl : s.Listed) (hp : p < s.numPieces) :
    (s.weHave p).havePiece p := by
  by_cases hh : s.havePiece p
  · rwa [weHave, if_pos hh]
  · exact (((weHave_gains hb hp hh).list hl).2 p).mpr (.inr rfl)

/-- `piece_passed` lets one piece pass. -/
theorem piecePassed_passed (h : s.Book True) (hl : s.Listed) (ha : s.asserts (.piecePassed p))
    (hy : (s.piecePassed p).hasPiecePassed y = true) : y = p ∨ s.hasPiecePassed y = true := by
  have hb := h.buckets
  obtain ⟨hvalid, -, hpart⟩ := ha
  have hflag : ∀ t, t = (s.modifyDl p ({ · with passedHashCheck := true })).addPassed 1 →
      t.hasPiecePassed y = true → y = p ∨ s.hasPiecePassed y = true := by
    rintro t rfl hy
    rw [hasPiecePassed_iff] at hy ⊢
    rcases hy with hy | ⟨dp, hdp, hpass⟩
    · exact .inr (.inl hy)
    · have hfind : (s.toPickerCore.modifyDl p ({ · with passedHashCheck := true })).findDlPiece y
          = some dp := hdp
      rw [hb.find_modifyDl (f := ({ · with passedHashCheck := true })) fun _ => rfl] at hfind
      split_ifs at hfind with heq
      · exact .inl heq
      · exact .inr (.inr ⟨dp, hfind, hpass⟩)
  rw [onPartial] at hpart
  rw [piecePassed] at hy
  rcases hdp : s.findDlPiece p with - | dp <;> rw [hdp] at hy hpart
  · exact .inr hy
  · dsimp only at hy hpart
    obtain ⟨hlock, hpass, -⟩ := hpart
    rw [if_neg (by rw [hlock]; decide)] at hy
    split_ifs at hy
    · exact hflag _ rfl hy
    · have hk : Keeps 0 s ((s.modifyDl p ({ · with passedHashCheck := true })).addPassed 1) := by
        refine flag_keeps hb hdp ({ · with passedHashCheck := true }) (n := 1) ?_
        rw [DownloadingPiece.passes, DownloadingPiece.passes, hpass]
        rfl
      have hb' : ((s.modifyDl p ({ · with passedHashCheck := true })).addPassed 1).Buckets :=
        hb.modifyDl fun _ => rfl
      rcases weHave_passed hb' (hk.list hl).1 (by rw [hk.numPieces]; exact hvalid) hy with hy | hy
      · exact .inl hy
      · exact hflag _ rfl hy

/-- It does let it pass. -/
theorem piecePassed_self (hb : s.Buckets) (hl : s.Listed) (ha : s.asserts (.piecePassed p)) :
    (s.piecePassed p).hasPiecePassed p = true := by
  obtain ⟨hvalid, hdown, hpart⟩ := ha
  obtain ⟨dp, hdp⟩ := hb.exists_find hdown
  rw [onPartial, hdp] at hpart
  obtain ⟨hlock, hpass, -⟩ := hpart
  have hfind : (s.toPickerCore.modifyDl p ({ · with passedHashCheck := true })).findDlPiece p =
      some { dp with passedHashCheck := true } := by
    rw [hb.find_modifyDl (f := ({ · with passedHashCheck := true })) fun _ => rfl, if_pos rfl, hdp]
    rfl
  have hflag : ((s.modifyDl p ({ · with passedHashCheck := true })).addPassed 1).hasPiecePassed p
      = true := hasPiecePassed_iff.mpr (.inr ⟨_, hfind, rfl⟩)
  rw [piecePassed, hdp]
  dsimp only
  rw [if_neg (by rw [hlock]; decide)]
  split_ifs
  · exact hflag
  · have hk : Keeps 0 s ((s.modifyDl p ({ · with passedHashCheck := true })).addPassed 1) := by
      refine flag_keeps hb hdp ({ · with passedHashCheck := true }) (n := 1) ?_
      rw [DownloadingPiece.passes, DownloadingPiece.passes, hpass]
      rfl
    refine hasPiecePassed_of_have ?_
    exact weHave_have (hb.modifyDl fun _ => rfl) (hk.list hl).1 (by rw [hk.numPieces]; exact hvalid)

/-- No piece passes because a block of it has been written. -/
theorem markAsFinished_passed (h : s.Book True) (hl : s.Listed)
    (ha : s.asserts (.markAsFinished p b peer))
    (hy : (s.markAsFinished p b peer).hasPiecePassed y = true) : s.hasPiecePassed y = true := by
  have hb := h.buckets
  obtain ⟨⟨hlt, hblock⟩, hroom, hpart⟩ := ha
  rw [markAsFinished] at hy
  rcases hq : s.downloadQueue p with - | q <;> rw [hq] at hy
  · dsimp only at hy
    by_cases hnot : s.havePiece p
    · rwa [if_pos hnot] at hy
    rw [if_neg hnot] at hy
    have hst : DownloadState.pieceDownloading.downloadQueue = some .pieceDownloading := rfl
    have h' := beginDownload_book h hst hlt hq hroom false
    have hk := beginDownload_keeps hb hst hlt hq hnot false
    have hopen := DownloadState.downloadQueue_eq_none.mp hq
    have hbegin : (s.beginDownload p .pieceDownloading false).hasPiecePassed y = true →
        s.hasPiecePassed y = true := by
      intro hy
      rw [hasPiecePassed_iff] at hy ⊢
      rcases hy with hy | ⟨dp, hdp, hpass⟩
      · exact .inl (((hk.list hl).2 y).mp hy)
      · rw [beginDownload_core, (hb.startDl hst hlt hopen).find_recategorize,
          hb.find_startDl hst hlt hopen] at hdp
        split_ifs at hdp with heq
        · rw [← Option.some.inj hdp] at hpass
          exact absurd hpass (by simp [PickerCore.freshDl])
        · exact .inr ⟨dp, hdp, hpass⟩
    have hl' := (hk.list hl).1
    generalize s.beginDownload p .pieceDownloading false = t at hy h' hl' hbegin
    rcases hdp : t.findDlPiece p with - | dp <;> rw [hdp] at hy
    · exact hbegin hy
    · dsimp only at hy
      split_ifs at hy
      · exact hbegin hy
      · refine hbegin (mark_hasPassed h'.buckets hl' ?_ ?_ hy)
        · exact fun _ => rfl
        · exact fun _ => rfl
  · dsimp only at hy
    rw [onPartial] at hpart
    rcases hdp : s.findDlPiece p with - | dp <;> rw [hdp] at hy hpart
    · exact hy
    · dsimp only at hy hpart
      split_ifs at hy with hfin
      · exact hy
      obtain ⟨hpeers, hstate⟩ := hpart.resolve_left hfin
      have h₁ : (s.finishBlock p b dp peer).Book True := finishBlock_book h hdp hblock hpeers hstate
      have hk : Keeps 0 s (s.finishBlock p b dp peer) := mark_keeps hb (fun _ => rfl) fun _ => rfl
      have hfinish : (s.finishBlock p b dp peer).hasPiecePassed y = true →
          s.hasPiecePassed y = true := mark_hasPassed hb hl (fun _ => rfl) (fun _ => rfl)
      rw [haveIfDone] at hy
      rcases hdp' : (s.finishBlock p b dp peer).findDlPiece p with - | dp' <;> rw [hdp'] at hy
      · exact hfinish hy
      · dsimp only at hy
        split_ifs at hy with hdone hpass
        · exact hfinish hy
        · -- the piece that is complete had passed
          rcases weHave_passed h₁.buckets (hk.list hl).1 (by rw [hk.numPieces]; exact hlt) hy with
            rfl | hy
          · exact hfinish (hasPiecePassed_iff.mpr (.inr ⟨dp', hdp', hpass.1⟩))
          · exact hfinish hy
        · exact hfinish hy

/-- No call changes the number of pieces. -/
theorem Effect.numPieces {ok : Prop} (he : Effect ok s s') (ht : s.Tallied) :
    s'.numPieces = s.numPieces := by
  cases he with
  | keeps h _ => exact h.numPieces
  | recounts h _ => exact h.numPieces
  | gains hk _ _ h => exact h.numPieces.trans hk.numPieces
  | loses _ _ h => exact h.numPieces
  | reprioritizes _ h => exact h.numPieces
  | all h => rw [h, weHaveAll_numPieces]
  | resized h => exact h.numPieces.trans ht.sized.symm

theorem hasPiecePassed_lt (hb : s.Buckets) (hl : s.Listed) (h : s.hasPiecePassed p = true) :
    p < s.numPieces := by
  rcases hasPiecePassed_iff.mp h with hh | ⟨dp, hdp, -⟩
  · by_contra hc
    rw [havePiece, BucketList.idx,
      List.getD_eq_default _ _ (by rw [hl.index_length]; exact Nat.le_of_not_lt hc)] at hh
    cases hh
  · obtain ⟨q, hq, -⟩ := hb.find_mem hdp
    exact lt_of_downloadQueue hq

/-- If as many pieces are counted as passed as there are, all of them have. -/
theorem hasPiecePassed_of_numPassed (h : Reach countedCall s) (hall : s.numPassed = s.numPieces)
    (hp : p < s.numPieces) : s.hasPiecePassed p = true := by
  obtain ⟨hl, -⟩ := h.listed fun _ _ hok => hok.1
  have hexact := numPassed_exact h
  rw [passed_eq_countUpTo h.book hl.toSane, haveCount, hall] at hexact
  have hpart := countUpTo_partition (F := fun _ => False) (H := s.havePiece)
    (P := fun p => s.hasPiecePassed p = true) (fun _ => hasPiecePassed_of_have) s.numPieces
  have hnone : countUpTo s.numPieces (fun _ => False) = 0 :=
    countUpTo_eq_zero.mpr fun _ _ hc => hc
  simp only [false_and, hnone, not_false_eq_true, true_and] at hpart
  have hmissing : countUpTo s.numPieces (fun p => ¬ s.hasPiecePassed p = true) = 0 := by omega
  exact not_not.mp (countUpTo_eq_zero.mp hmissing p hp)

end PiecePicker

end LibtorrentSN
