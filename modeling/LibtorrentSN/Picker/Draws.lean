import LibtorrentSN.Picker.Pick

/-!
# The piece picker: random draws

The stages of `pick_pieces` draw random numbers one after the other. A stage does not look at the
numbers that come after those it draws (`DrawsSome`), so what a later stage draws can be anything.
-/

namespace LibtorrentSN

/-- A random shuffle looks at the numbers it draws and at no others. -/
theorem exists_draws_randomShuffle {α : Type*} (l : List α) (rng : List ℕ) :
    ∃ used, ∀ tail, randomShuffle l (used ++ tail) = ((randomShuffle l rng).1, tail) := by
  induction l generalizing rng with
  | nil => exact ⟨[], fun tail => rfl⟩
  | cons a l ih =>
    obtain ⟨used, hused⟩ := ih (draw rng).2
    refine ⟨(draw rng).1 :: used, fun tail => ?_⟩
    rw [List.cons_append, randomShuffle, draw, randomShuffle]
    dsimp only
    rw [hused]

namespace BucketList

theorem exists_draws_shuffleBuckets (bounds : List ℕ) (start : ℕ) (items rng : List ℕ) : ∃ used, ∀ tail,
    shuffleBuckets start bounds items (used ++ tail) = ((shuffleBuckets start bounds items rng).1, tail) := by
  induction bounds generalizing start items rng with
  | nil => exact ⟨[], fun tail => rfl⟩
  | cons b bounds ih =>
    by_cases hb : start = b
    · simp only [shuffleBuckets, if_pos hb]
      exact ih start items rng
    · simp only [shuffleBuckets, if_neg hb]
      obtain ⟨first, hfirst⟩ := exists_draws_randomShuffle (items.take (b - start)) rng
      obtain ⟨rest, hrest⟩ := ih b (items.drop (b - start)) (randomShuffle (items.take (b - start)) rng).2
      refine ⟨first ++ rest, fun tail => ?_⟩
      rw [List.append_assoc, hfirst, hrest]

/-- To build the list anew is a number of shuffles. -/
theorem exists_draws_rebuild (l : BucketList) (key : ℕ → ℤ) (rng : List ℕ) :
    ∃ used, ∀ tail, l.rebuild key (used ++ tail) = ((l.rebuild key rng).1, tail) := by
  simp only [rebuild]
  generalize (List.range _).foldl (fillStep key) _ = l'
  obtain ⟨used, hused⟩ := exists_draws_shuffleBuckets l'.bounds 0 l'.items rng
  exact ⟨used, fun tail => by rw [hused]⟩

end BucketList

namespace PiecePicker

/-- The picker with other random numbers. -/
def withRng (s : PiecePicker) (rng : List ℕ) : PiecePicker := { s with rng := rng }

variable {s : PiecePicker} {a : PickRequest} {β γ : Type*}

/-! ## What does not depend on them -/

section
variable (s) (a) (rng : List ℕ)

theorem growDown_withRng (lower : ℤ) (c : ℕ) : (s.withRng rng).growDown a lower c = s.growDown a lower c := by
  induction c with
  | zero => rfl
  | succ c ih =>
    rw [growDown, growDown, ih]
    rfl

theorem growUp_withRng (upper : ℤ) (fuel c : ℕ) : (s.withRng rng).growUp a upper fuel c = s.growUp a upper fuel c := by
  induction fuel generalizing c with
  | zero => rfl
  | succ fuel ih =>
    rw [growUp, growUp, ih]
    rfl

theorem expandPiece_withRng (p : ℕ) (contiguous : ℤ) :
    (s.withRng rng).expandPiece a p contiguous = s.expandPiece a p contiguous := by
  simp only [expandPiece, growDown_withRng, growUp_withRng]
  rfl

theorem addBlocks_withRng (p : ℕ) (prefer : ℤ) (st : PickState) :
    (s.withRng rng).addBlocks a p prefer st = s.addBlocks a p prefer st := by
  simp only [addBlocks, addBlocksOpen, expandPiece_withRng]
  rfl

theorem scan_withRng (f : PickerFlag) (l : List ℕ) (st : PickState) :
    (s.withRng rng).scan a f l st = s.scan a f l st := by
  induction l generalizing st with
  | nil => rfl
  | cons p l ih =>
    simp only [scan, addBlocks_withRng, ih]
    rfl

theorem suggestedStage_withRng (l : List ℕ) (st : PickState) :
    (s.withRng rng).suggestedStage a l st = s.suggestedStage a l st := by
  induction l generalizing st with
  | nil => rfl
  | cons p l ih =>
    simp only [suggestedStage, addBlocks_withRng, ih]
    rfl

theorem scanPartials_withRng (l : List DownloadingPiece) (st : PickState) :
    (s.withRng rng).scanPartials a l st = s.scanPartials a l st := by
  induction l generalizing st with
  | nil => rfl
  | cons dp l ih =>
    simp only [scanPartials, ih]
    rfl

theorem scanExtents_withRng (es : List ℕ) (idx : ℕ) (toErase : Option ℕ) (st : PickState) :
    (s.withRng rng).scanExtents a es idx toErase st = s.scanExtents a es idx toErase st := by
  induction es generalizing idx toErase st with
  | nil => rfl
  | cons e es ih =>
    simp only [scanExtents, scan_withRng, ih]
    rfl

theorem skipToFree_withRng (start : ℕ) (ignored : List ℕ) (fuel p : ℕ) :
    (s.withRng rng).skipToFree a start ignored fuel p = s.skipToFree a start ignored fuel p := by
  induction fuel generalizing p with
  | zero => rfl
  | succ fuel ih =>
    simp only [skipToFree, ih]
    rfl

theorem randomScan_withRng (start fuel p : ℕ) (st : PickState) :
    (s.withRng rng).randomScan a start fuel p st = s.randomScan a start fuel p st := by
  induction fuel generalizing p st with
  | zero => rfl
  | succ fuel ih =>
    have hskip : (s.withRng rng).skipToFree a start st.ignoredPieces (s.withRng rng).numPieces p =
        s.skipToFree a start st.ignoredPieces s.numPieces p := skipToFree_withRng ..
    simp only [randomScan, randomStep, hskip, expandPiece_withRng, addBlocks_withRng, ih]
    rfl

end

/-! ## Parts of the call -/

/-- A part of the call draws some numbers, and does not look at those that come after them. -/
def DrawsSome (F : PiecePicker → β × PiecePicker) (s : PiecePicker) : Prop :=
  ∃ used, ∀ tail, F (s.withRng (used ++ tail)) = ((F s).1, (F s).2.withRng tail)

namespace DrawsSome

theorem nothing {F : PiecePicker → β × PiecePicker} (h : ∀ rng, F (s.withRng rng) = ((F s).1, (F s).2.withRng rng)) :
    DrawsSome F s := ⟨[], fun tail => h tail⟩

/-- One part after another. -/
theorem bind {F : PiecePicker → β × PiecePicker} {G : β → PiecePicker → γ × PiecePicker} (hF : DrawsSome F s)
    (hG : DrawsSome (G (F s).1) (F s).2) : DrawsSome (fun s => G (F s).1 (F s).2) s := by
  obtain ⟨first, hfirst⟩ := hF
  obtain ⟨rest, hrest⟩ := hG
  refine ⟨first ++ rest, fun tail => ?_⟩
  dsimp only
  rw [List.append_assoc, hfirst]
  exact hrest tail

end DrawsSome

theorem orderedPartials_draws (s : PiecePicker) (a : PickRequest) : DrawsSome (fun s => s.orderedPartials a) s := by
  set partials := s.downloads.downloading.filter fun dp => s.isPieceFree a dp.index with hpartials
  by_cases hr : a.options.rarestFirst = true
  · have heq : ∀ rng, (s.withRng rng).orderedPartials a =
        ((randomShuffle partials rng).1.insertionSort fun x y => ¬s.partialCompareRarestFirst y x,
          s.withRng (randomShuffle partials rng).2) := by
      intro rng
      rw [orderedPartials]
      dsimp only
      rw [if_pos hr]
      rfl
    obtain ⟨used, hused⟩ := exists_draws_randomShuffle partials s.rng
    refine ⟨used, fun tail => ?_⟩
    dsimp only
    rw [heq, hused, show s.orderedPartials a = _ from heq s.rng]
    rfl
  · refine .nothing fun rng => ?_
    simp only [orderedPartials, if_neg hr]
    rfl

theorem orderedPartials_withRng (s : PiecePicker) (a : PickRequest) :
    ∃ rng, (s.orderedPartials a).2 = s.withRng rng := by
  rw [orderedPartials]
  dsimp only
  split_ifs
  · exact ⟨_, rfl⟩
  · exact ⟨s.rng, rfl⟩

/-- The partial pieces in their order, picked from. -/
def pickPartials (a : PickRequest) (st : PickState) (partials : List DownloadingPiece) (s : PiecePicker) :
    PickState × PiecePicker :=
  let st := s.scanPartials a partials (if a.options.rarestFirst then st.flag .rarestFirstPartials else st)
  let st := if st.numBlocks ≤ 0 then st else st.appendBackup
  (if st.numBlocks ≤ 0 then st else st.appendBackup2, s)

theorem partialsStage_draws (s : PiecePicker) (a : PickRequest) (st : PickState) :
    DrawsSome (fun s => s.partialsStage a st) s := by
  by_cases hp : a.options.prioritizePartials = true
  · have heq : ∀ s : PiecePicker, s.partialsStage a st = pickPartials a st (s.orderedPartials a).1 (s.orderedPartials a).2 := by
      intro s
      obtain ⟨rng, hrng⟩ := s.orderedPartials_withRng a
      rw [partialsStage, if_pos hp, pickPartials, hrng]
      dsimp only
      rw [scanPartials_withRng, ← hrng]
    simp only [heq]
    refine (s.orderedPartials_draws a).bind (.nothing fun rng => ?_)
    simp only [pickPartials, scanPartials_withRng]
  · refine .nothing fun rng => ?_
    simp only [partialsStage, if_neg hp]

theorem refresh_draws (s : PiecePicker) : DrawsSome (fun s => ((), s.refresh)) s := by
  by_cases hd : s.dirty = true
  · have heq : ∀ rng, (s.withRng rng).refresh = { s with
        list := (s.list.rebuild s.priority rng).1, rng := (s.list.rebuild s.priority rng).2, dirty := false } := by
      intro rng
      have hd' : (s.withRng rng).dirty = true := hd
      rw [refresh, if_pos hd']
      rfl
    obtain ⟨used, hused⟩ := s.list.exists_draws_rebuild s.priority s.rng
    refine ⟨used, fun tail => ?_⟩
    dsimp only
    rw [heq, hused, show s.refresh = _ from heq s.rng]
    rfl
  · refine .nothing fun rng => ?_
    have hd' : ¬(s.withRng rng).dirty = true := hd
    simp only [refresh, if_neg hd, if_neg hd']

theorem sequentialStage_draws (s : PiecePicker) (a : PickRequest) (st : PickState) :
    DrawsSome (fun s => (s.sequentialStage a st, s)) s := by
  refine .nothing fun rng => ?_
  simp only [sequentialStage, scan_withRng]
  rfl

theorem extentsStage_draws (s : PiecePicker) (a : PickRequest) (st : PickState) :
    DrawsSome (fun s => s.extentsStage a st) s := by
  refine .nothing fun rng => ?_
  have hscan : (s.withRng rng).scanExtents a (s.withRng rng).recentExtents 0 none st =
      s.scanExtents a s.recentExtents 0 none st := scanExtents_withRng ..
  simp only [extentsStage, hscan]
  split <;> rfl

theorem rarestFirstStage_draws (s : PiecePicker) (a : PickRequest) (st : PickState) :
    DrawsSome (fun s => s.rarestFirstStage a st) s := by
  have hlist : ∀ (s : PiecePicker) (st : PickState), DrawsSome (fun s =>
      if st.numBlocks ≤ 0 then (st, s) else (s.scan a .rarestFirst s.list.items st, s)) s := by
    intro s st
    refine .nothing fun rng => ?_
    simp only [scan_withRng]
    split_ifs <;> rfl
  by_cases hr : a.options.reverse = true
  · refine .nothing fun rng => ?_
    simp only [rarestFirstStage, if_pos hr, scan_withRng]
    rfl
  by_cases he : a.options.pieceExtentAffinity = true
  · simp only [rarestFirstStage, if_neg hr, if_pos he]
    exact (s.extentsStage_draws a st).bind (G := fun st s =>
      if st.numBlocks ≤ 0 then (st, s) else (s.scan a .rarestFirst s.list.items st, s)) (hlist _ _)
  · simp only [rarestFirstStage, if_neg hr, if_neg he]
    exact hlist s st

theorem randomStage_draws (s : PiecePicker) (a : PickRequest) (st : PickState) :
    DrawsSome (fun s => s.randomStage a st) s := by
  refine ⟨[(draw s.rng).1], fun tail => ?_⟩
  simp only [randomStage, randomScan_withRng]
  rfl

theorem mainStage_draws (s : PiecePicker) (a : PickRequest) (st : PickState) :
    DrawsSome (fun s => s.mainStage a st) s := by
  by_cases hs : a.options.sequential = true
  · simp only [mainStage, if_pos hs]
    exact s.refresh_draws.bind (G := fun _ s => (s.sequentialStage a st, s)) (s.refresh.sequentialStage_draws a st)
  by_cases hr : a.options.rarestFirst = true
  · simp only [mainStage, if_neg hs, if_pos hr]
    exact s.refresh_draws.bind (G := fun _ s => s.rarestFirstStage a st) (s.refresh.rarestFirstStage_draws a st)
  · simp only [mainStage, if_neg hs, if_neg hr]
    exact s.randomStage_draws a st

end PiecePicker

end LibtorrentSN
