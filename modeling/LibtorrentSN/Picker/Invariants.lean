import LibtorrentSN.Picker.Effects

/-!
# The piece picker: invariants of runs

From the effects of the calls: the list is exact (`Listed`) and the counters count
(`Tallied`) in every state reached by calls that keep the list, and the passed pieces are
counted as well (`surplus`) if none is forgotten.
-/

namespace LibtorrentSN

/-! ## Counting pieces -/

section Count
variable {P Q : ℕ → Prop} [DecidablePred P] [DecidablePred Q] {n p : ℕ}

/-- The number of pieces with the property `P`, of the first `n`. -/
def countUpTo (n : ℕ) (P : ℕ → Prop) [DecidablePred P] : ℕ := (List.range n).countP (P ·)

theorem countUpTo_succ (n : ℕ) : countUpTo (n + 1) P = countUpTo n P + (if P n then 1 else 0) := by
  rw [countUpTo, List.range_succ, List.countP_append, List.countP_singleton]
  simp [countUpTo]

theorem countUpTo_congr (h : ∀ y < n, P y ↔ Q y) : countUpTo n P = countUpTo n Q := by
  refine List.countP_congr fun y hy => ?_
  simpa using h y (List.mem_range.mp hy)

/-- A property that changes for one piece only. -/
theorem countUpTo_update (hp : p < n) (h : ∀ y, y ≠ p → (Q y ↔ P y)) :
    countUpTo n Q + (if P p then 1 else 0) = countUpTo n P + (if Q p then 1 else 0) := by
  induction n with
  | zero => exact absurd hp (Nat.not_lt_zero p)
  | succ n ih =>
    rw [countUpTo_succ, countUpTo_succ]
    by_cases hpn : p = n
    · subst hpn
      have : countUpTo p Q = countUpTo p P :=
        countUpTo_congr fun y hy => h y (Nat.ne_of_lt hy)
      omega
    · have := ih (by omega)
      have hn : (if Q n then 1 else 0) = if P n then 1 else 0 := by
        simp only [h n (Ne.symm hpn)]
      omega

theorem countUpTo_eq_zero : countUpTo n P = 0 ↔ ∀ y < n, ¬ P y := by
  simp [countUpTo]

theorem countUpTo_all (h : ∀ y < n, P y) : countUpTo n P = n := by
  rw [countUpTo, List.countP_eq_length.mpr (by simpa using h), List.length_range]

/-- The pieces with a property, with another one and without it. -/
theorem countUpTo_split (n : ℕ) :
    countUpTo n (fun y => P y ∧ Q y) + countUpTo n (fun y => P y ∧ ¬ Q y) = countUpTo n P := by
  induction n with
  | zero => rfl
  | succ n ih =>
    rw [countUpTo_succ, countUpTo_succ, countUpTo_succ, ← ih]
    by_cases hP : P n <;> by_cases hQ : Q n <;> simp [hP, hQ] <;> omega

end Count

namespace PiecePicker

open PickerCore

variable {s s' : PiecePicker} {p : ℕ}

/-- The number of pieces we have. -/
def haveCount (s : PiecePicker) : ℕ := countUpTo s.numPieces s.havePiece

/-- The counters of the pieces we have and want are right, and the cursors enclose all the
pieces we are after. -/
structure Tallied (s : PiecePicker) : Prop where
  sized : s.numPieces = (s.totalSize + s.pieceSize - 1) / s.pieceSize
  numHave : s.numHave = s.haveCount
  numFiltered : s.numFiltered = countUpTo s.numPieces fun y => s.filtered y ∧ ¬ s.havePiece y
  numHaveFiltered : s.numHaveFiltered = countUpTo s.numPieces fun y => s.filtered y ∧ s.havePiece y
  between : s.Between (¬ s.passedOver ·)

/-! ## From one state to the next -/

theorem haveCount_congr (hn : s'.numPieces = s.numPieces)
    (hh : ∀ y, s'.havePiece y ↔ s.havePiece y) : s'.haveCount = s.haveCount := by
  rw [haveCount, haveCount, hn]
  exact countUpTo_congr fun y _ => hh y

theorem passedOver_congr (hh : ∀ y, s'.havePiece y ↔ s.havePiece y) (hw : SameWants s s')
    (y : ℕ) : s'.passedOver y ↔ s.passedOver y :=
  or_congr (hh y) (hw.filtered y)

/-- Nothing changes that is counted. -/
theorem Tallied.congr (h : s.Tallied) (hn : s'.numPieces = s.numPieces)
    (hz : SameSizes s.toPickerCore s'.toPickerCore) (hw : SameWants s s')
    (hh : ∀ y, s'.havePiece y ↔ s.havePiece y) : s'.Tallied := by
  refine ⟨?_, ?_, ?_, ?_, ?_⟩
  · rw [hn, hz.1, hz.2]
    exact h.sized
  · rw [hw.numHave, h.numHave, haveCount_congr hn hh]
  · rw [hw.numFiltered, h.numFiltered, hn]
    simp only [hh, hw.filtered]
  · rw [hw.numHaveFiltered, h.numHaveFiltered, hn]
    simp only [hh, hw.filtered]
  · refine Between.congr hn hw.cursor hw.reverseCursor ?_
    exact fun y hy hP => h.between y hy (mt (passedOver_congr hh hw y).mpr hP)

theorem Keeps.tallied {n : ℤ} (hk : Keeps n s s') (hl : s.Listed) (h : s.Tallied) : s'.Tallied :=
  h.congr hk.numPieces hk.sizes hk.toSameWants (hk.list hl).2

theorem filtered_congr (hprio : ∀ y, (s'.pos y).piecePriority = (s.pos y).piecePriority)
    (y : ℕ) : s'.filtered y ↔ s.filtered y := by
  rw [filtered, filtered, PiecePos.filtered, PiecePos.filtered, hprio]

theorem Gains.tallied (hg : Gains s s' p) (hl : s.Listed) (hp : p < s.numPieces)
    (hnot : ¬ s.havePiece p) (h : s.Tallied) : s'.Tallied ∧ s'.haveCount = s.haveCount + 1 := by
  obtain ⟨-, hh⟩ := hg.list hl
  have hfil := filtered_congr hg.prio
  have hcount : s'.haveCount = s.haveCount + 1 := by
    have := countUpTo_update (P := s.havePiece) (Q := s'.havePiece) hp fun y hy => by
      rw [hh]
      simp [hy]
    rw [if_neg hnot, if_pos ((hh p).mpr (.inr rfl))] at this
    rw [haveCount, haveCount, hg.numPieces]
    omega
  refine ⟨⟨?_, ?_, ?_, ?_, ?_⟩, hcount⟩
  · rw [hg.numPieces, hg.sizes.1, hg.sizes.2]
    exact h.sized
  · rw [hg.numHave, h.numHave, hcount]
    push_cast
    rfl
  · have := countUpTo_update (P := fun y => s.filtered y ∧ ¬ s.havePiece y)
      (Q := fun y => s'.filtered y ∧ ¬ s'.havePiece y) hp fun y hy => by
        simp only [hh, hfil, hy, or_false]
    simp only [hfil, hh, hnot, or_true, not_true, and_false, if_false, not_false_eq_true,
      and_true] at this
    rw [hg.numFiltered, h.numFiltered, hg.numPieces]
    simp only [hfil, hh]
    split_ifs at this ⊢ <;> omega
  · have := countUpTo_update (P := fun y => s.filtered y ∧ s.havePiece y)
      (Q := fun y => s'.filtered y ∧ s'.havePiece y) hp fun y hy => by
        simp only [hh, hfil, hy, or_false]
    simp only [hfil, hh, hnot, or_true, and_false, if_false, and_true] at this
    rw [hg.numHaveFiltered, h.numHaveFiltered, hg.numPieces]
    simp only [hfil, hh]
    split_ifs at this ⊢ <;> omega
  · refine hg.between _ (fun y hy => ?_) (fun y hy hP => h.between y hy ?_)
    · refine ⟨fun he => hy (.inl ((hh y).mpr (.inr he))), fun hc => hy ?_⟩
      exact hc.imp (fun hc => (hh y).mpr (.inl hc)) (hfil y).mpr
    · exact fun hc => hP (hc.imp (fun hc => (hh y).mpr (.inl hc)) (hfil y).mpr)

theorem Loses.tallied (hg : Loses s s' p) (hl : s.Listed) (hp : p < s.numPieces)
    (hhave : s.havePiece p) (h : s.Tallied) : s'.Tallied ∧ s'.haveCount + 1 = s.haveCount := by
  obtain ⟨-, hh⟩ := hg.list hl
  have hfil := filtered_congr hg.prio
  have hcount : s'.haveCount + 1 = s.haveCount := by
    have := countUpTo_update (P := s.havePiece) (Q := s'.havePiece) hp fun y hy => by
      rw [hh]
      simp [hy]
    rw [if_pos hhave, if_neg (fun hc => ((hh p).mp hc).2 rfl)] at this
    rw [haveCount, haveCount, hg.numPieces]
    omega
  refine ⟨⟨?_, ?_, ?_, ?_, ?_⟩, hcount⟩
  · rw [hg.numPieces, hg.sizes.1, hg.sizes.2]
    exact h.sized
  · rw [hg.numHave, h.numHave, ← hcount]
    push_cast
    omega
  · have := countUpTo_update (P := fun y => s.filtered y ∧ ¬ s.havePiece y)
      (Q := fun y => s'.filtered y ∧ ¬ s'.havePiece y) hp fun y hy => by
        simp only [hh, hfil, hy, ne_eq, not_false_eq_true, and_true]
    simp only [hfil, hh, hhave, ne_eq, not_true, and_false, if_false, not_false_eq_true,
      and_true] at this
    rw [hg.numFiltered, h.numFiltered, hg.numPieces]
    simp only [hfil, hh, ne_eq]
    split_ifs at this ⊢ <;> omega
  · have := countUpTo_update (P := fun y => s.filtered y ∧ s.havePiece y)
      (Q := fun y => s'.filtered y ∧ s'.havePiece y) hp fun y hy => by
        simp only [hh, hfil, hy, ne_eq, not_false_eq_true, and_true]
    simp only [hfil, hh, hhave, ne_eq, not_true, and_false, if_false, and_true] at this
    rw [hg.numHaveFiltered, h.numHaveFiltered, hg.numPieces]
    simp only [hfil, hh, ne_eq]
    split_ifs at this ⊢ <;> omega
  · have hb := hg.between _ h.between
    refine fun y hy hP => hb y hy ?_
    replace hP : ¬ s'.havePiece y ∧ ¬ s'.filtered y := not_or.mp hP
    rw [hh, hfil] at hP
    by_cases hyp : y = p
    · exact .inr ⟨hyp, by rw [← hyp]; exact hP.2⟩
    · exact .inl (not_or.mpr ⟨fun hc => hP.1 ⟨hc, hyp⟩, hP.2⟩)

theorem Reprioritizes.tallied {n : ℕ} (hg : Reprioritizes s s' p n) (hl : s.Listed)
    (hp : p < s.numPieces) (h : s.Tallied) : s'.Tallied ∧ s'.haveCount = s.haveCount := by
  obtain ⟨-, hh⟩ := hg.list hl
  have hfil : ∀ y, s'.filtered y ↔ if y = p then n = 0 else s.filtered y := by
    intro y
    rw [filtered, PiecePos.filtered, hg.prio]
    split_ifs
    · rfl
    · rfl
  have hcount : s'.haveCount = s.haveCount := haveCount_congr hg.numPieces hh
  refine ⟨⟨?_, ?_, ?_, ?_, ?_⟩, hcount⟩
  · rw [hg.numPieces, hg.sizes.1, hg.sizes.2]
    exact h.sized
  · rw [hg.numHave, h.numHave, hcount]
  · have := countUpTo_update (P := fun y => s.filtered y ∧ ¬ s.havePiece y)
      (Q := fun y => s'.filtered y ∧ ¬ s'.havePiece y) hp fun y hy => by
        simp only [hh, hfil, if_neg hy]
    rw [hg.numFiltered, h.numFiltered, hg.numPieces]
    have hq : (s'.filtered p ∧ ¬ s'.havePiece p) ↔ (n = 0 ∧ ¬ s.havePiece p) := by
      rw [hfil, if_pos rfl, hh]
    simp only [hq] at this
    split_ifs at this ⊢ <;> omega
  · have := countUpTo_update (P := fun y => s.filtered y ∧ s.havePiece y)
      (Q := fun y => s'.filtered y ∧ s'.havePiece y) hp fun y hy => by
        simp only [hh, hfil, if_neg hy]
    rw [hg.numHaveFiltered, h.numHaveFiltered, hg.numPieces]
    have hq : (s'.filtered p ∧ s'.havePiece p) ↔ (n = 0 ∧ s.havePiece p) := by
      rw [hfil, if_pos rfl, hh]
    simp only [hq] at this
    split_ifs at this ⊢ <;> omega
  · have hb := hg.between h.between
    refine fun y hy hP => hb y hy ?_
    replace hP : ¬ s'.havePiece y ∧ ¬ s'.filtered y := not_or.mp hP
    rw [hh, hfil] at hP
    by_cases hyp : y = p
    · rw [if_pos hyp] at hP
      simp only [if_pos hyp]
      rw [← hyp]
      exact hP
    · rw [if_neg hyp] at hP
      simp only [if_neg hyp]
      exact not_or.mpr hP

/-! ## Having everything, and starting over -/

theorem weHaveAll_have (hl : s.Listed) (y : ℕ) : s.weHaveAll.havePiece y ↔ y < s.numPieces := by
  simp only [havePiece, weHaveAll, BucketList.idx, List.getD_eq_getElem?_getD,
    List.getElem?_replicate, hl.index_length]
  split_ifs with h
  · simp [h]
  · simp [h]

theorem weHaveAll_pos (s : PiecePicker) (y : ℕ) : (s.weHaveAll.pos y).peerCount =
    (s.pos y).peerCount ∧ (s.weHaveAll.pos y).piecePriority = (s.pos y).piecePriority := by
  simp only [weHaveAll, pos, List.getD_eq_getElem?_getD, List.getElem?_map]
  rcases s.pieceMap[y]? with - | x
  · exact ⟨rfl, rfl⟩
  · exact ⟨rfl, rfl⟩

theorem weHaveAll_numPieces (s : PiecePicker) : s.weHaveAll.numPieces = s.numPieces :=
  List.length_map _

theorem weHaveAll_listed (hl : s.Listed) : s.weHaveAll.Listed := by
  have hpos := s.weHaveAll_pos
  have hn := s.weHaveAll_numPieces
  have hsane : s.weHaveAll.Sane := by
    refine ⟨?_, fun y => ?_, hl.seeds, fun y => ?_, fun y _ => ?_⟩
    · rw [hn]
      exact (List.length_replicate).trans hl.index_length
    · rw [(hpos y).1]
      exact hl.peers y
    · rw [(hpos y).2]
      exact hl.prio y
    · exact state_of_map (s := s.weHaveAll) (fun _ => rfl) rfl y
  refine ⟨hsane, fun _ => ⟨Nat.one_pos, ?_, rfl, ?_, ?_, fun y hy h0 => ?_⟩⟩
  · intro i j hij hj
    have : j = 0 := Nat.lt_one_iff.mp hj
    have : i = 0 := by omega
    subst this
    exact Nat.zero_le _
  · exact fun k hk => absurd hk (Nat.not_lt_zero k)
  · exact fun k hk => absurd hk (Nat.not_lt_zero k)
  · -- no piece has a priority
    rw [hsane.index_length, hn] at hy
    have := hsane.priority_neg_iff.mpr (.inr (.inl ((weHaveAll_have hl y).mpr hy)))
    omega

theorem weHaveAll_tallied (hl : s.Listed) (h : s.Tallied) :
    s.weHaveAll.Tallied ∧ s.weHaveAll.surplus = s.weHaveAll.haveCount := by
  have hn := s.weHaveAll_numPieces
  have hh := weHaveAll_have hl
  have hfil : ∀ y, s.weHaveAll.filtered y ↔ s.filtered y :=
    filtered_congr fun y => (s.weHaveAll_pos y).2
  have hcount : s.weHaveAll.haveCount = s.numPieces := by
    rw [haveCount, hn]
    exact countUpTo_all fun y hy => (hh y).mpr hy
  have hsplit := countUpTo_split (P := s.filtered) (Q := s.havePiece) s.numPieces
  refine ⟨⟨?_, ?_, ?_, ?_, ?_⟩, ?_⟩
  · rw [hn]
    exact h.sized
  · rw [hcount]
    rfl
  · rw [hn, countUpTo_eq_zero.mpr fun y hy hc => hc.2 ((hh y).mpr hy)]
    rfl
  · rw [hn, countUpTo_congr (Q := s.filtered) fun y hy => by simp [hfil, hh, hy], ← hsplit]
    have h₁ := h.numFiltered
    have h₂ := h.numHaveFiltered
    simp only [weHaveAll]
    omega
  · intro y hy hP
    rw [hn] at hy
    exact absurd (.inl ((hh y).mpr hy)) hP
  · rw [hcount, surplus]
    exact Int.sub_zero _

section Resized
variable {totalSize pieceSize : ℕ} (hr : Resized s totalSize pieceSize s')
include hr

theorem Resized.numPieces : s'.numPieces = (totalSize + pieceSize - 1) / pieceSize := by
  rw [PickerCore.numPieces, hr.pieceMap]
  simp only [List.length_map, List.length_append, List.length_take, List.length_replicate]
  omega

theorem Resized.not_have (y : ℕ) : ¬ s'.havePiece y := by
  rw [havePiece, BucketList.idx, hr.index, List.getD_eq_getElem?_getD, List.getElem?_replicate]
  split_ifs
  · decide
  · decide

theorem Resized.pos (y : ℕ) : (s'.pos y).peerCount = 0 ∧
    (s'.pos y).piecePriority = if y < s'.numPieces then
      (if y < s.numPieces then (s.pos y).piecePriority else defaultPriority) else 0 := by
  have hn := hr.numPieces
  set n := (totalSize + pieceSize - 1) / pieceSize with hn'
  rw [PickerCore.pos, hr.pieceMap, List.getD_eq_getElem?_getD, List.getElem?_map, hn, ← hn']
  by_cases hy : y < n
  · rw [if_pos hy]
    by_cases hs : y < s.numPieces
    · rw [if_pos hs, List.getElem?_append_left (by
        rw [List.length_take]
        exact Nat.lt_min.mpr ⟨hy, hs⟩), List.getElem?_take_of_lt hy,
        List.getElem?_eq_getElem (show y < s.pieceMap.length from hs), PickerCore.pos,
        List.getD_eq_getElem _ _ hs]
      exact ⟨rfl, rfl⟩
    · have hle : s.pieceMap.length ≤ y := Nat.le_of_not_lt hs
      rw [if_neg hs, List.getElem?_append_right (by
        rw [List.length_take]
        omega), List.getElem?_replicate, if_pos (by
        rw [List.length_take]
        omega)]
      exact ⟨rfl, rfl⟩
  · rw [if_neg hy, List.getElem?_eq_none (by
      rw [List.length_append, List.length_take, List.length_replicate]
      omega)]
    exact ⟨rfl, rfl⟩

theorem Resized.listed (hseeds : 0 ≤ s.seeds) (hprio : ∀ y, (s.pos y).piecePriority ≤ topPriority) :
    s'.Listed := by
  refine listed_of_dirty ⟨?_, fun y => ?_, ?_, fun y => ?_, fun y hy => ?_⟩ hr.dirty
  · rw [hr.index, List.length_replicate, hr.numPieces]
  · rw [(hr.pos y).1]
  · rw [hr.seeds]
    exact hseeds
  · rw [(hr.pos y).2]
    split_ifs
    · exact hprio y
    · decide
    · decide
  · exact absurd hy (hr.not_have y)

theorem Resized.tallied (hcount : s.numFiltered + s.numHaveFiltered =
    countUpTo s'.numPieces s'.filtered) : s'.Tallied ∧ s'.surplus = s'.haveCount := by
  have hnot := hr.not_have
  have hzero : s'.haveCount = 0 := countUpTo_eq_zero.mpr fun y _ => hnot y
  refine ⟨⟨?_, ?_, ?_, ?_, ?_⟩, ?_⟩
  · rw [hr.sizes.1, hr.sizes.2]
    exact hr.numPieces
  · rw [hr.have_zero.1, hzero]
    rfl
  · rw [hr.numFiltered, hcount, countUpTo_congr fun y _ => (and_iff_left (hnot y)).symm]
  · rw [hr.have_zero.2.2, countUpTo_eq_zero.mpr fun y _ hc => hnot y hc.2]
    rfl
  · intro y hy hP
    rw [hr.cursors.1, hr.cursors.2]
    exact ⟨le_skipUp (P := (¬ s'.passedOver ·)) _ _ (fun _ h => h) hP (Nat.zero_le y),
      lt_skipDown (P := (¬ s'.passedOver ·)) _ (fun _ h => h) hP hy⟩
  · rw [surplus, hr.have_zero.2.1, hr.downloads, hzero]
    rfl

end Resized

/-- Starting over with the same sizes, the same pieces are filtered. -/
theorem resized_filtered (hr : Resized s s.totalSize s.pieceSize s') (h : s.Tallied) :
    s.numFiltered + s.numHaveFiltered = countUpTo s'.numPieces s'.filtered := by
  have hn : s'.numPieces = s.numPieces := hr.numPieces.trans h.sized.symm
  have hsplit := countUpTo_split (P := s.filtered) (Q := s.havePiece) s.numPieces
  have hfil : countUpTo s'.numPieces s'.filtered = countUpTo s.numPieces s.filtered := by
    rw [hn]
    refine countUpTo_congr fun y hy => ?_
    rw [filtered, filtered, PiecePos.filtered, PiecePos.filtered, (hr.pos y).2, hn, if_pos hy,
      if_pos hy]
  rw [hfil, h.numFiltered, h.numHaveFiltered, ← hsplit]
  push_cast
  omega

/-! ## Runs -/

theorem create_eq {totalSize pieceSize : ℕ} {rng : List ℕ}
    (h : create totalSize pieceSize rng = some s) : ∃ s₀ : PiecePicker,
    Resized s₀ totalSize pieceSize s ∧ s₀.pieceMap = [] ∧ s₀.seeds = 0 ∧ s₀.numFiltered = 0 ∧
      s₀.numHaveFiltered = 0 :=
  ⟨_, resize_spec h, rfl, rfl, rfl, rfl⟩

theorem create_listed {totalSize pieceSize : ℕ} {rng : List ℕ}
    (h : create totalSize pieceSize rng = some s) : s.Listed := by
  obtain ⟨s₀, hr, hm, hseeds, -, -⟩ := create_eq h
  refine hr.listed (by rw [hseeds]) fun y => ?_
  rw [PickerCore.pos, hm]
  exact Nat.zero_le _

theorem create_tallied {totalSize pieceSize : ℕ} {rng : List ℕ}
    (h : create totalSize pieceSize rng = some s) : s.Tallied ∧ s.surplus = s.haveCount := by
  obtain ⟨s₀, hr, hm, -, hf, hhf⟩ := create_eq h
  refine hr.tallied ?_
  have hnone : countUpTo s.numPieces s.filtered = 0 := by
    refine countUpTo_eq_zero.mpr fun y hy hc => ?_
    have hzero : s₀.numPieces = 0 := by
      rw [PickerCore.numPieces, hm]
      rfl
    rw [filtered, PiecePos.filtered, (hr.pos y).2, if_pos hy, hzero,
      if_neg (Nat.not_lt_zero y)] at hc
    cases hc
  rw [hnone, hf, hhf]
  rfl

theorem Effect.listed {ok : Prop} (h : Effect ok s s') (hl : s.Listed) : s'.Listed := by
  cases h with
  | keeps h _ => exact (h.list hl).1
  | recounts _ h => exact (h hl).1
  | gains hk _ _ h => exact (h.list (hk.list hl).1).1
  | loses _ _ h => exact (h.list hl).1
  | reprioritizes _ h => exact (h.list hl).1
  | all h =>
    rw [h]
    exact weHaveAll_listed hl
  | resized h => exact h.listed hl.seeds hl.prio

theorem Effect.tallied {ok : Prop} (h : Effect ok s s') (hl : s.Listed) (ht : s.Tallied) :
    s'.Tallied := by
  cases h with
  | keeps h _ => exact h.tallied hl ht
  | recounts h hk => exact ht.congr h.numPieces h.sizes h.toSameWants (hk hl).2
  | gains hk hp hnot h => exact (h.tallied (hk.list hl).1 hp hnot (hk.tallied hl ht)).1
  | loses hp hh h => exact (h.tallied hl hp hh ht).1
  | reprioritizes hp h => exact (h.tallied hl hp ht).1
  | all h =>
    rw [h]
    exact (weHaveAll_tallied hl ht).1
  | resized h => exact (h.tallied (resized_filtered h ht)).1

/-- The passed pieces are counted, unless one is forgotten. -/
theorem Effect.surplus {ok : Prop} (hok : ok) (h : Effect ok s s') (hl : s.Listed)
    (ht : s.Tallied) (hs : s.surplus = s.haveCount) : s'.surplus = s'.haveCount := by
  cases h with
  | keeps h hn =>
    rw [h.surplus, hn hok, hs, haveCount_congr h.numPieces (h.list hl).2]
    exact Int.add_zero _
  | recounts h hk => rw [h.surplus, hs, haveCount_congr h.numPieces (hk hl).2]
  | gains hk hp hnot h =>
    obtain ⟨hl', hh'⟩ := hk.list hl
    rw [h.surplus, (h.tallied hl' hp hnot (hk.tallied hl ht)).2, hk.surplus, Int.add_zero, hs,
      haveCount_congr hk.numPieces hh']
    rfl
  | loses hp hh h =>
    rw [h.surplus, hs, ← (h.tallied hl hp hh ht).2]
    push_cast
    omega
  | reprioritizes hp h => rw [h.surplus, hs, (h.tallied hl hp ht).2]
  | all h =>
    rw [h]
    exact (weHaveAll_tallied hl ht).2
  | resized h => exact (h.tallied (resized_filtered h ht)).2

end PiecePicker

section Reach
variable {ok : PiecePicker → Op → Prop} {s : PiecePicker}

/-- In a run of calls that keep the list, the list is exact and the counters count. -/
theorem Reach.listed (hle : ∀ s op, ok s op → PiecePicker.listCall s op) (h : Reach ok s) :
    s.Listed ∧ s.Tallied := by
  induction h with
  | create _ _ h => exact ⟨PiecePicker.create_listed h, (PiecePicker.create_tallied h).1⟩
  | step h ha hok ih =>
    have he := PiecePicker.apply_effect h.book ha (hle _ _ hok)
    exact ⟨he.listed ih.1, he.tallied ih.1 ih.2⟩

/-- If moreover no passed piece is forgotten, the passed pieces are counted. -/
theorem Reach.surplus (hle : ∀ s op, ok s op → PiecePicker.listCall s op)
    (hpass : ∀ s op, ok s op → PiecePicker.passedCall s op) (h : Reach ok s) :
    s.surplus = s.haveCount := by
  induction h with
  | create _ _ h => exact (PiecePicker.create_tallied h).2
  | step h ha hok ih =>
    obtain ⟨hl, ht⟩ := h.listed hle
    exact (PiecePicker.apply_effect h.book ha (hle _ _ hok)).surplus (hpass _ _ hok) hl ht ih

end Reach

end LibtorrentSN
