import LibtorrentSN.Picker.Availability

/-!
# The piece picker: having and wanting pieces

The operations that change which pieces we have and which of them we want: what they do to
the list, to the counters and to the cursors.
-/

namespace LibtorrentSN

namespace PiecePicker

open PickerCore

variable {s s' : PiecePicker} {p b : ℕ} {dp : DownloadingPiece} {peer : Option ℕ} {P : ℕ → Prop}

/-! ## Cursors -/

/-- The pieces of `P` are between the cursors. -/
def Between (s : PiecePicker) (P : ℕ → Prop) : Prop :=
  ∀ y < s.numPieces, P y → s.cursor ≤ y ∧ y < s.reverseCursor

theorem le_skipUp (fuel c : ℕ) (hP : ∀ y, P y → ¬ s.passedOver y) {y : ℕ} (hy : P y)
    (hc : c ≤ y) : s.skipUp fuel c ≤ y := by
  induction fuel generalizing c with
  | zero => exact hc
  | succ fuel ih =>
    rw [skipUp]
    split_ifs with hp
    · refine ih (c + 1) (Nat.lt_of_le_of_ne hc ?_)
      rintro rfl
      exact hP c hy hp
    · exact hc

theorem lt_skipDown (c : ℕ) (hP : ∀ y, P y → ¬ s.passedOver y) {y : ℕ} (hy : P y)
    (hc : y < c) : y < s.skipDown c := by
  induction c with
  | zero => exact absurd hc (Nat.not_lt_zero y)
  | succ c ih =>
    rw [skipDown]
    split_ifs with hp
    · refine ih (Nat.lt_of_le_of_ne (Nat.le_of_lt_succ hc) ?_)
      rintro rfl
      exact hP y hy hp
    · exact hc

/-- The cursors do not pass a piece we are after. -/
theorem closeCursors_between (hP : ∀ y, P y → y ≠ p ∧ ¬ s.passedOver y) (h : s.Between P) :
    (s.closeCursors p).Between P := by
  intro y hy hPy
  have hn : (s.closeCursors p).numPieces = s.numPieces := by rw [closeCursors_core]
  rw [hn] at hy
  obtain ⟨h₁, h₂⟩ := h y hy hPy
  obtain ⟨hne, -⟩ := hP y hPy
  have hP' : ∀ y, P y → ¬ s.passedOver y := fun y hy => (hP y hy).2
  rw [closeCursors]
  split_ifs with hc₁ hc₂ hc₃
  · omega
  · exact ⟨le_skipUp _ _ hP' hPy (by omega), h₂⟩
  · exact ⟨h₁, lt_skipDown _ hP' hPy (by omega)⟩
  · exact ⟨h₁, h₂⟩

theorem openCursors_eq (s : PiecePicker) (p : ℕ) : s.openCursors p =
    { s with cursor := min s.cursor p, reverseCursor := max s.reverseCursor (p + 1) } := by
  simp only [openCursors]
  by_cases h₁ : p < s.cursor
  · rw [if_pos h₁, Nat.min_eq_right (Nat.le_of_lt h₁)]
    by_cases h₂ : s.reverseCursor ≤ p
    · rw [if_pos h₂, Nat.max_eq_right (by omega), if_neg (by dsimp only; omega)]
    · rw [if_neg h₂, Nat.max_eq_left (by omega), if_neg (by dsimp only; omega)]
  · rw [if_neg h₁, Nat.min_eq_left (by omega)]
    by_cases h₂ : s.reverseCursor ≤ p
    · rw [if_pos h₂, Nat.max_eq_right (by omega), if_neg (by dsimp only; omega)]
    · rw [if_neg h₂, Nat.max_eq_left (by omega), if_neg (by omega)]

/-- The cursors include a piece that is opened. -/
theorem openCursors_between (h : s.Between P) :
    (s.openCursors p).Between fun y => P y ∨ y = p := by
  rw [openCursors_eq]
  rintro y hy (hP | rfl)
  · obtain ⟨h₁, h₂⟩ := h y hy hP
    exact ⟨(Nat.min_le_left _ _).trans h₁, Nat.lt_of_lt_of_le h₂ (Nat.le_max_left _ _)⟩
  · exact ⟨Nat.min_le_right _ _, Nat.lt_of_lt_of_le (Nat.lt_succ_self y) (Nat.le_max_right _ _)⟩

theorem Between.congr (hn : s'.numPieces = s.numPieces) (hc : s'.cursor = s.cursor)
    (hr : s'.reverseCursor = s.reverseCursor) (h : s.Between P) : s'.Between P := by
  intro y hy
  rw [hn] at hy
  rw [hc, hr]
  exact h y hy

/-! ## Getting a piece -/

/-- What happens when we get the piece `p`. -/
structure Gains (s s' : PiecePicker) (p : ℕ) : Prop extends SamePeers s s' where
  prio : ∀ y, (s'.pos y).piecePriority = (s.pos y).piecePriority
  surplus : s'.surplus = s.surplus + 1
  numHave : s'.numHave = s.numHave + 1
  numFiltered : s'.numFiltered = s.numFiltered - (if s.filtered p then 1 else 0)
  numHaveFiltered : s'.numHaveFiltered = s.numHaveFiltered + (if s.filtered p then 1 else 0)
  between : ∀ P : ℕ → Prop, (∀ y, P y → y ≠ p ∧ ¬ s.passedOver y) → s.Between P → s'.Between P
  list : s.Listed → s'.Listed ∧ ∀ y, s'.havePiece y ↔ s.havePiece y ∨ y = p

theorem dropPassed_rest (hb : s.Buckets) (p : ℕ) : SamePeers s (s.dropPassed p) ∧
    SameWants s (s.dropPassed p) ∧ (s.dropPassed p).surplus = s.surplus ∧
    (s.dropPassed p).list = s.list ∧ (s.dropPassed p).dirty = s.dirty ∧
    ∀ y, (s.dropPassed p).state y = if y = p then .pieceOpen else s.state y := by
  rw [dropPassed]
  rcases hdp : s.findDlPiece p with - | dp
  · refine ⟨.refl s, .refl s, rfl, rfl, rfl, fun y => ?_⟩
    split_ifs with hy
    · rw [hy]
      exact hb.find_eq_none.mp hdp
    · rfl
  · obtain rfl := hb.find_index hdp
    have hm : ((s.unpass dp).eraseDl dp).pieceMap =
        ((s.unpass dp).toPickerCore.setState dp.index .pieceOpen).pieceMap := rfl
    have hp := hb.passed_eraseDl hdp
    refine ⟨?_, ?_, ?_, rfl, rfl, fun y => ?_⟩
    · have : SamePeers s (s.unpass dp) := ⟨⟨rfl, rfl⟩, rfl, fun _ => rfl, rfl⟩
      exact this.trans (samePeers_setState hm ⟨rfl, rfl⟩)
    · have : SameWants s (s.unpass dp) := ⟨fun _ => rfl, rfl, rfl, rfl, rfl, rfl⟩
      exact this.trans (sameWants_setState hm)
    · rw [surplus, surplus, ← hp]
      simp only [eraseDownloadPiece, withCore, unpass, addPassed]
      split_ifs <;> omega
    · have hlt := lt_of_downloading (hb.downloading_of_find hdp)
      refine (s.toPickerCore.setState_state dp.index y .pieceOpen).trans ?_
      simp only [hlt, and_true]

/-- The counters when we get a piece. -/
theorem countHave_rest (s : PiecePicker) (p : ℕ) : (s.countHave p).list = s.list ∧
    (s.countHave p).dirty = s.dirty ∧ (s.countHave p).seeds = s.seeds ∧
    (s.countHave p).cursor = s.cursor ∧ (s.countHave p).reverseCursor = s.reverseCursor ∧
    (s.countHave p).numHave = s.numHave + 1 ∧ (s.countHave p).numPassed = s.numPassed + 1 ∧
    (s.countHave p).numFiltered = s.numFiltered - (if s.filtered p then 1 else 0) ∧
    (s.countHave p).numHaveFiltered = s.numHaveFiltered + (if s.filtered p then 1 else 0) := by
  rw [countHave]
  by_cases hf : s.filtered p
  · rw [if_pos (show PickerCore.filtered _ p from hf)]
    simp [hf]
  · rw [if_neg (show ¬ PickerCore.filtered _ p from hf)]
    simp [hf]

theorem closeCursors_rest (s : PiecePicker) (p : ℕ) : ∃ c r,
    s.closeCursors p = { s with cursor := c, reverseCursor := r } := by
  rw [closeCursors]
  split_ifs
  · exact ⟨_, _, rfl⟩
  · exact ⟨_, _, rfl⟩
  · exact ⟨_, _, rfl⟩
  · exact ⟨s.cursor, s.reverseCursor, rfl⟩

/-- The state in which `we_have` looks at the list. -/
def gained (s : PiecePicker) (p : ℕ) : PiecePicker :=
  (((s.dropPassed p).countHave p).setIndex p (-1)).closeCursors p

theorem weHave_eq (h : ¬ s.havePiece p) : s.weHave p =
    if s.priority p = -1 ∨ s.dirty then s.gained p
    else (s.gained p).remove (s.priority p) (s.list.idx p) := by
  rw [weHave, if_neg h]
  rfl

theorem gained_rest (hb : s.Buckets) (p : ℕ) : SamePeers s (s.gained p) ∧
    (∀ y, ((s.gained p).pos y).piecePriority = (s.pos y).piecePriority) ∧
    (s.gained p).surplus = s.surplus + 1 ∧ (s.gained p).numHave = s.numHave + 1 ∧
    (s.gained p).numFiltered = s.numFiltered - (if s.filtered p then 1 else 0) ∧
    (s.gained p).numHaveFiltered = s.numHaveFiltered + (if s.filtered p then 1 else 0) ∧
    (s.gained p).list = s.list.setIdx p (-1) ∧ (s.gained p).dirty = s.dirty ∧
    ∀ y, (s.gained p).state y = if y = p then .pieceOpen else s.state y := by
  obtain ⟨hA, hB, hC, hD, hE, hF⟩ := dropPassed_rest hb p
  obtain ⟨k₁, k₂, k₃, k₄, k₅, k₆, k₇, k₈, k₉⟩ := countHave_rest (s.dropPassed p) p
  obtain ⟨c, r, hcr⟩ := closeCursors_rest (((s.dropPassed p).countHave p).setIndex p (-1)) p
  have hfil : (if (s.dropPassed p).filtered p then (1 : ℤ) else 0) =
      if s.filtered p then 1 else 0 := by
    simp only [hB.filtered p]
  have hcore : (s.gained p).toPickerCore = (s.dropPassed p).toPickerCore := by simp [gained]
  refine ⟨⟨by rw [hcore]; exact hA.sizes, by rw [hcore]; exact hA.numPieces,
    fun y => by rw [hcore]; exact hA.peers y, ?_⟩, fun y => by rw [hcore]; exact hB.prio y,
    ?_, ?_, ?_, ?_, ?_, ?_, fun y => by rw [hcore]; exact hF y⟩ <;> rw [gained, hcr]
  · exact k₃.trans hA.seeds
  · rw [surplus, surplus] at hC
    rw [surplus, surplus]
    simp only [setIndex, countHave_core, k₇]
    omega
  · exact k₆.trans (by rw [hB.numHave])
  · exact k₈.trans (by rw [hfil, hB.numFiltered])
  · exact k₉.trans (by rw [hfil, hB.numHaveFiltered])
  · simp only [setIndex, k₁, hD]
  · exact k₂.trans hE

theorem gained_between (hb : s.Buckets) (hP : ∀ y, P y → y ≠ p ∧ ¬ s.passedOver y)
    (h : s.Between P) : (s.gained p).Between P := by
  obtain ⟨hA, hB, -, hD, -, -⟩ := dropPassed_rest hb p
  obtain ⟨k₁, -, -, k₄, k₅, -⟩ := countHave_rest (s.dropPassed p) p
  refine closeCursors_between (fun y hy => ⟨(hP y hy).1, ?_⟩) (h.congr ?_ ?_ ?_)
  · rintro (hc | hc)
    · refine (hP y hy).2 (.inl ?_)
      rw [havePiece, setIndex, BucketList.setIdx_idx, if_neg (fun hc => (hP y hy).1 hc.1.symm), k₁,
        hD] at hc
      exact hc
    · refine (hP y hy).2 (.inr ((hB.filtered y).mp ?_))
      rwa [setIndex_core, countHave_core] at hc
  · rw [setIndex_core, countHave_core]
    exact hA.numPieces
  · exact k₄.trans hB.cursor
  · exact k₅.trans hB.reverseCursor

/-- The list once we have `p`. -/
def gainedList (s : PiecePicker) (p : ℕ) : BucketList :=
  if s.priority p = -1 ∨ s.dirty then s.list.setIdx p (-1)
  else (s.list.setIdx p (-1)).erase (s.priority p).toNat (s.list.idx p).toNat

theorem weHave_eq_gained (hb : s.Buckets) (h : ¬ s.havePiece p) :
    s.weHave p = { s.gained p with list := s.gainedList p } := by
  obtain ⟨-, -, -, -, -, -, hlist, -, -⟩ := gained_rest hb p
  rw [weHave_eq h, gainedList]
  split_ifs
  · rw [← hlist]
  · rw [remove, hlist]

/-- The list is exact when `p` is gone from it, and the mark is set. -/
theorem gainedList_spec (hl : s.Listed) (hp : p < s.numPieces) :
    (s.gainedList p).index.length = s.list.index.length ∧
    (∀ y, (s.gainedList p).idx y = -1 ↔ s.havePiece y ∨ y = p) ∧
    (s.dirty = false → (s.gainedList p).Sorted fun y => if y = p then -1 else s.priority y) := by
  have hlen : p < s.list.index.length := by
    rw [hl.index_length]
    exact hp
  have hmark : ∀ (l : BucketList) (y : ℕ), l.index.length = s.list.index.length →
      ((l.setIdx p (-1)).idx y = -1 ↔ l.idx y = -1 ∨ y = p) := by
    intro l y hll
    rw [BucketList.setIdx_idx, hll]
    by_cases hy : p = y
    · simp [hy.symm, hlen]
    · simp [hy, Ne.symm hy]
  rw [gainedList]
  split_ifs with hno
  · refine ⟨by simp, fun y => hmark s.list y rfl, fun hd => ?_⟩
    have hneg : s.priority p = -1 := hno.resolve_right (by rw [hd]; decide)
    have hkey : (fun y => if y = p then -1 else s.priority y) = s.priority := by
      funext y
      split_ifs with hy
      · rw [hy, hneg]
      · rfl
    rw [hkey]
    exact (hl.sorted hd).setIdx (by omega) _
  · rw [not_or, Bool.not_eq_true] at hno
    have hsort := hl.sorted hno.2
    obtain ⟨k, q, hk, hitem, hidx, hq, hkey, hlo, hhi⟩ :=
      hsort.locate hlen ((hl.priority_or p).resolve_left hno.1)
    rw [hidx, hkey, Int.toNat_natCast, Int.toNat_natCast]
    have hcomm := hsort.erase_setIdx (q := q) hk (-1)
    rw [hitem] at hcomm
    rw [hcomm]
    refine ⟨by simp, fun y => ?_, fun _ => ?_⟩
    · rw [hmark _ y (by simp)]
      exact or_congr_left (hsort.erase_markEq hq hlo hhi y)
    · refine BucketList.Sorted.setIdx ?_ (by simp) _
      refine hsort.erase hq hlo hhi (by simp [hitem]) fun y hy => ?_
      rw [hitem] at hy
      exact if_neg hy

/-- We get a piece. -/
theorem weHave_gains (hb : s.Buckets) (hp : p < s.numPieces) (hnot : ¬ s.havePiece p) :
    Gains s (s.weHave p) p := by
  obtain ⟨hA, hB, hC, hD, hE, hF, -, hdirty, hstate⟩ := gained_rest hb p
  rw [weHave_eq_gained hb hnot]
  refine ⟨⟨hA.sizes, hA.numPieces, hA.peers, hA.seeds⟩, hB, hC, hD, hE, hF,
    fun P hP h => gained_between hb hP h, fun hl => ?_⟩
  obtain ⟨h₁, h₂, h₃⟩ := gainedList_spec hl hp
  refine ⟨⟨⟨?_, fun y => ?_, ?_, fun y => ?_, fun y hy => ?_⟩, fun hd => ?_⟩, h₂⟩
  · rw [h₁, hl.index_length]
    exact hA.numPieces.symm
  · rw [hA.peers]
    exact hl.peers y
  · exact hA.seeds.symm ▸ hl.seeds
  · rw [hB]
    exact hl.prio y
  · rw [hstate]
    split_ifs with hyp
    · rfl
    · exact hl.have_open y (((h₂ y).mp hy).resolve_right hyp)
  · have hprio : ({ s.gained p with list := s.gainedList p } : PiecePicker).priority =
        fun y => if y = p then -1 else s.priority y := by
      funext y
      have hh : ({ s.gained p with list := s.gainedList p } : PiecePicker).havePiece y ↔
          s.havePiece y ∨ y = p := h₂ y
      rw [priority, hA.seeds]
      split_ifs with hyp
      · exact PiecePos.priority_of_unlisted (.inr (.inl (decide_eq_true (hh.mpr (.inr hyp)))))
      · have hpos : (s.gained p).pos y = s.pos y :=
          PiecePos.eq_of_fields (hA.peers y) (hB y) ((hstate y).trans (if_neg hyp))
        rw [hpos, priority]
        simp only [hh, hyp, or_false]
    rw [hprio]
    exact h₃ (hdirty ▸ hd)

/-! ## Losing a piece -/

/-- What happens when we lose the piece `p`. -/
structure Loses (s s' : PiecePicker) (p : ℕ) : Prop extends SamePeers s s' where
  prio : ∀ y, (s'.pos y).piecePriority = (s.pos y).piecePriority
  surplus : s'.surplus = s.surplus - 1
  numHave : s'.numHave = s.numHave - 1
  numFiltered : s'.numFiltered = s.numFiltered + (if s.filtered p then 1 else 0)
  numHaveFiltered : s'.numHaveFiltered = s.numHaveFiltered - (if s.filtered p then 1 else 0)
  between : ∀ P : ℕ → Prop, s.Between P → s'.Between fun y => P y ∨ y = p ∧ ¬ s.filtered p
  list : s.Listed → s'.Listed ∧ ∀ y, s'.havePiece y ↔ s.havePiece y ∧ y ≠ p

/-- The state in which `we_dont_have` looks at the list. -/
def lost (s : PiecePicker) (p : ℕ) : PiecePicker := (s.countNotHave p).setIndex p 0

theorem lost_rest (s : PiecePicker) (p : ℕ) : (s.lost p).toPickerCore = s.toPickerCore ∧
    (s.lost p).seeds = s.seeds ∧ (s.lost p).numHave = s.numHave - 1 ∧
    (s.lost p).surplus = s.surplus - 1 ∧
    (s.lost p).numFiltered = s.numFiltered + (if s.filtered p then 1 else 0) ∧
    (s.lost p).numHaveFiltered = s.numHaveFiltered - (if s.filtered p then 1 else 0) ∧
    (s.lost p).list = s.list.setIdx p 0 ∧ (s.lost p).dirty = s.dirty := by
  rw [lost, countNotHave]
  by_cases hf : s.filtered p
  · have h₁ : (if s.filtered p then (1 : ℤ) else 0) = 1 := if_pos hf
    rw [h₁, if_pos (show PickerCore.filtered _ p from hf)]
    refine ⟨rfl, rfl, rfl, ?_, rfl, rfl, rfl, rfl⟩
    simp only [surplus, setIndex]
    omega
  · have h₀ : (if s.filtered p then (1 : ℤ) else 0) = 0 := if_neg hf
    rw [h₀, if_neg (show ¬ PickerCore.filtered _ p from hf), openCursors_eq]
    refine ⟨rfl, rfl, rfl, ?_, (Int.add_zero _).symm, (Int.sub_zero _).symm, rfl, rfl⟩
    simp only [surplus, setIndex]
    omega

theorem lost_between (h : s.Between P) :
    (s.lost p).Between fun y => P y ∨ y = p ∧ ¬ s.filtered p := by
  rw [lost, countNotHave]
  by_cases hf : s.filtered p
  · rw [if_pos (show PickerCore.filtered _ p from hf)]
    rintro y hy (hP | hP)
    · exact h y hy hP
    · exact absurd hf hP.2
  · rw [if_neg (show ¬ PickerCore.filtered _ p from hf)]
    have ho := openCursors_between (p := p) h
    rw [openCursors_eq] at ho ⊢
    exact fun y hy hP => ho y hy (hP.imp_right fun hc => hc.1)

/-- The list is told, and nothing else changes. -/
theorem weDontHave_rest (hh : s.havePiece p) :
    ∃ l rng, s.weDontHave p = { s.lost p with list := l, rng := rng } := by
  rw [weDontHave, if_neg (not_not.mpr hh)]
  change ∃ l rng, (if (s.lost p).dirty then s.lost p
    else if 0 ≤ (s.lost p).priority p then (s.lost p).add p else s.lost p) = _
  rw [add]
  split_ifs
  · exact ⟨_, _, rfl⟩
  · exact ⟨_, _, rfl⟩
  · exact ⟨_, _, rfl⟩
  · exact ⟨_, _, rfl⟩

/-- We lose a piece. -/
theorem weDontHave_loses (hp : p < s.numPieces) (hh : s.havePiece p) :
    Loses s (s.weDontHave p) p := by
  obtain ⟨hcore, hseeds, h₁, h₂, h₃, h₄, hlist, hdirty⟩ := lost_rest s p
  have hL : s.Listed →
      (s.weDontHave p).Listed ∧ ∀ y, (s.weDontHave p).havePiece y ↔ s.havePiece y ∧ y ≠ p := by
    intro hl
    have hlen : p < s.list.index.length := by
      rw [hl.index_length]
      exact hp
    have hmark : ∀ y, (s.lost p).havePiece y ↔ s.havePiece y ∧ y ≠ p := by
      intro y
      rw [havePiece, hlist, BucketList.setIdx_idx]
      by_cases hy : p = y
      · simp [hy.symm, hlen]
      · simp [hy, Ne.symm hy, havePiece]
    have hsane : (s.lost p).Sane := by
      refine ⟨?_, ?_, ?_, ?_, fun y hy => ?_⟩
      · rw [hlist, BucketList.setIdx_index_length, hcore]
        exact hl.index_length
      · rw [hcore]
        exact hl.peers
      · rw [hseeds]
        exact hl.seeds
      · rw [hcore]
        exact hl.prio
      · rw [hcore]
        exact hl.have_open y ((hmark y).mp hy).1
    have hold : s.priority p < 0 := hl.priority_neg_iff.mpr (.inr (.inl hh))
    have hprio : ∀ y, y ≠ p → (s.lost p).priority y = s.priority y := by
      intro y hy
      rw [priority, priority, hcore, hseeds]
      simp only [hmark, hy, ne_eq, not_false_eq_true, and_true]
    rw [weDontHave, if_neg (not_not.mpr hh)]
    change (if (s.lost p).dirty then s.lost p
      else if 0 ≤ (s.lost p).priority p then (s.lost p).add p else s.lost p).Listed ∧
      ∀ y, (if (s.lost p).dirty then s.lost p
      else if 0 ≤ (s.lost p).priority p then (s.lost p).add p else s.lost p).havePiece y ↔ _
    by_cases hd : (s.lost p).dirty = true
    · rw [if_pos hd]
      exact ⟨listed_of_dirty hsane hd, hmark⟩
    rw [if_neg hd]
    rw [Bool.not_eq_true, hdirty] at hd
    have hsort : (s.lost p).list.Sorted s.priority := by
      rw [hlist]
      exact (hl.sorted hd).setIdx hold 0
    by_cases hnew : 0 ≤ (s.lost p).priority p
    · rw [if_pos hnew, add]
      dsimp only
      rw [if_neg (by omega)]
      have hq : (s.lost p).priority p = (((s.lost p).priority p).toNat : ℤ) :=
        (Int.toNat_of_nonneg hnew).symm
      have hlen' : p < (s.lost p).list.index.length := by
        rw [hlist, BucketList.setIdx_index_length]
        exact hlen
      have hnm : (s.lost p).list.idx p ≠ -1 := fun hc => ((hmark p).mp hc).2 rfl
      obtain ⟨hA, hB⟩ := relist hsane (draw (s.lost p).rng).2 (l := (s.lost p).list.insert
          ((s.lost p).priority p).toNat p (draw (s.lost p).rng).1)
        (by simp) (hsort.insert_markEq _ hlen' hold hprio hq hnm)
        fun _ => hsort.insert _ hlen' hold hprio hq
      exact ⟨hA, fun y => (hB y).trans (hmark y)⟩
    · rw [if_neg hnew]
      refine ⟨⟨hsane, fun _ => ?_⟩, hmark⟩
      have heq : (s.lost p).priority = s.priority := by
        funext y
        by_cases hy : y = p
        · have h₁ := hl.priority_or p
          have h₂ := hsane.priority_or p
          rw [hy]
          omega
        · exact hprio y hy
      rw [heq]
      exact hsort
  obtain ⟨l, rng, hr⟩ := weDontHave_rest hh
  refine ⟨⟨?_, ?_, fun y => ?_, ?_⟩, fun y => ?_, ?_, ?_, ?_, ?_, fun P hP => ?_, hL⟩
  all_goals rw [hr]
  · exact hcore ▸ ⟨rfl, rfl⟩
  · exact congrArg PickerCore.numPieces hcore
  · exact congrArg (fun c : PickerCore => (c.pos y).peerCount) hcore
  · exact hseeds
  · exact congrArg (fun c : PickerCore => (c.pos y).piecePriority) hcore
  · exact h₂
  · exact h₁
  · exact h₃
  · exact h₄
  · exact lost_between hP

/-- A piece we do not have: whatever there is of it is forgotten, and the list is not told. -/
theorem weDontHave_drop (hb : s.Buckets) (hnot : ¬ s.havePiece p) :
    SamePeers s (s.weDontHave p) ∧ SameWants s (s.weDontHave p) ∧
      (s.weDontHave p).surplus = s.surplus ∧
      (listCall s (.weDontHave p) → KeepsList s (s.weDontHave p)) := by
  obtain ⟨hA, hB, hC, hlist, hdirty, hstate⟩ := dropPassed_rest hb p
  rw [weDontHave, if_pos hnot]
  refine ⟨hA, hB, hC, fun hcall hl => ?_⟩
  have hhave : ∀ y, (s.dropPassed p).havePiece y ↔ s.havePiece y := by
    intro y
    rw [havePiece, havePiece, hlist]
  have hpos : ∀ y, y ≠ p → (s.dropPassed p).pos y = s.pos y := fun y hy =>
    PiecePos.eq_of_fields (hA.peers y) (hB.prio y) ((hstate y).trans (if_neg hy))
  have hsh : Shift s (s.dropPassed p) p := by
    refine ⟨hlist, hdirty, fun y hy => ?_, ⟨?_, fun y => ?_, ?_, fun y => ?_, fun y hy => ?_⟩⟩
    · rw [priority, priority, hpos y hy, hA.seeds]
      simp only [hhave]
    · rw [hlist, hA.numPieces]
      exact hl.index_length
    · rw [hA.peers]
      exact hl.peers y
    · rw [hA.seeds]
      exact hl.seeds
    · rw [hB.prio]
      exact hl.prio y
    · rw [hstate]
      split_ifs with hyp
      · rfl
      · exact hl.have_open y ((hhave y).mp hy)
  refine ⟨hsh.same hl fun hd => ?_, hhave⟩
  -- the piece was open, or it is not in the list in either state
  have hown : ∀ y, (s.dropPassed p).priority y =
      ((s.dropPassed p).pos y).priority (decide (s.havePiece y)) s.seeds := by
    intro y
    rw [priority, hA.seeds]
    simp only [hhave]
  have hp' : (s.dropPassed p).pos p = { s.pos p with downloadState := .pieceOpen } :=
    PiecePos.eq_of_fields (hA.peers p) (hB.prio p) ((hstate p).trans (if_pos rfl))
  rw [hown, hp', priority]
  rcases hcall with hc | hc | hc | hc | hc
  · exact absurd hc hnot
  · have ho : (s.pos p).downloadState = .pieceOpen := not_not.mp hc
    rw [← ho]
  · exact (PiecePos.priority_restate (.inl hc) _).symm
  · exact (PiecePos.priority_restate (.inr hc) _).symm
  · rw [hd] at hc
    cases hc

/-! ## Wanting a piece -/

/-- What happens when the piece `p` gets the priority `n`. -/
structure Reprioritizes (s s' : PiecePicker) (p n : ℕ) : Prop extends SamePeers s s' where
  prio : ∀ y, (s'.pos y).piecePriority = if y = p then n else (s.pos y).piecePriority
  surplus : s'.surplus = s.surplus
  numHave : s'.numHave = s.numHave
  numFiltered : s'.numFiltered = s.numFiltered -
    (if s.filtered p ∧ ¬ s.havePiece p then 1 else 0) +
    (if n = 0 ∧ ¬ s.havePiece p then 1 else 0)
  numHaveFiltered : s'.numHaveFiltered = s.numHaveFiltered -
    (if s.filtered p ∧ s.havePiece p then 1 else 0) +
    (if n = 0 ∧ s.havePiece p then 1 else 0)
  between : s.Between (¬ s.passedOver ·) →
    s'.Between fun y => if y = p then ¬ s.havePiece p ∧ n ≠ 0 else ¬ s.passedOver y
  list : KeepsList s s'

theorem countPriority_rest (s : PiecePicker) (p n : ℕ) :
    (s.countPriority p n).2.list = s.list ∧ (s.countPriority p n).2.dirty = s.dirty ∧
    (s.countPriority p n).2.seeds = s.seeds ∧ (s.countPriority p n).2.numPassed = s.numPassed ∧
    (s.countPriority p n).2.numHave = s.numHave ∧
    (s.countPriority p n).2.numFiltered = s.numFiltered -
      (if s.filtered p ∧ ¬ s.havePiece p then 1 else 0) +
      (if n = 0 ∧ ¬ s.havePiece p then 1 else 0) ∧
    (s.countPriority p n).2.numHaveFiltered = s.numHaveFiltered -
      (if s.filtered p ∧ s.havePiece p then 1 else 0) +
      (if n = 0 ∧ s.havePiece p then 1 else 0) := by
  rw [countPriority]
  by_cases hf : s.filtered p
  · by_cases hn : n = 0
    · rw [if_neg (fun hc => hc.2 hf), if_neg (fun hc => hc.1 hn)]
      simp [hf, hn]
    · rw [if_neg (fun hc => hn hc.1), if_pos ⟨hn, hf⟩, countUnfiltered]
      by_cases hh : s.havePiece p
      · rw [if_pos hh]
        simp [hf, hn, hh]
      · rw [if_neg hh, openCursors_eq]
        simp [hf, hn, hh]
  · by_cases hn : n = 0
    · rw [if_pos ⟨hn, hf⟩, countFiltered]
      by_cases hh : s.havePiece p
      · rw [if_pos hh]
        simp [hf, hn, hh]
      · rw [if_neg hh]
        obtain ⟨c, r, hcr⟩ := closeCursors_rest { s with
          filteredPadBytes := s.filteredPadBytes + s.padBytesInPiece p
          numFiltered := s.numFiltered + 1 } p
        rw [hcr]
        simp [hf, hn, hh]
    · rw [if_neg (fun hc => hn hc.1), if_neg (fun hc => hf hc.2)]
      simp [hf, hn]

theorem countPriority_between (h : s.Between (¬ s.passedOver ·)) (p n : ℕ) :
    (s.countPriority p n).2.Between
      fun y => if y = p then ¬ s.havePiece p ∧ n ≠ 0 else ¬ s.passedOver y := by
  -- as long as `p` is not opened, the pieces we are after are among the old ones
  have hsub : ∀ t : PiecePicker, t.numPieces = s.numPieces → t.cursor = s.cursor →
      t.reverseCursor = s.reverseCursor → (s.havePiece p ∨ n = 0 ∨ ¬ s.filtered p) →
      t.Between fun y => if y = p then ¬ s.havePiece p ∧ n ≠ 0 else ¬ s.passedOver y := by
    intro t hn hc hr hcase y hy hP
    rw [hn] at hy
    rw [hc, hr]
    refine h y hy ?_
    split_ifs at hP with hyp
    · subst hyp
      rintro (hh | hf)
      · exact hP.1 hh
      · rcases hcase with hh | hz | hnf
        · exact hP.1 hh
        · exact hP.2 hz
        · exact hnf hf
    · exact hP
  rw [countPriority]
  by_cases hf : s.filtered p
  · by_cases hn : n = 0
    · rw [if_neg (fun hc => hc.2 hf), if_neg (fun hc => hc.1 hn)]
      exact hsub s rfl rfl rfl (.inr (.inl hn))
    · rw [if_neg (fun hc => hn hc.1), if_pos ⟨hn, hf⟩, countUnfiltered]
      by_cases hh : s.havePiece p
      · rw [if_pos hh]
        exact hsub _ rfl rfl rfl (.inl hh)
      · rw [if_neg hh]
        have ho := openCursors_between (p := p) h
        rw [openCursors_eq] at ho ⊢
        refine fun y hy hP => ho y hy ?_
        by_cases hyp : y = p
        · exact .inr hyp
        · simp only [if_neg hyp] at hP
          exact .inl hP
  · by_cases hn : n = 0
    · rw [if_pos ⟨hn, hf⟩, countFiltered]
      by_cases hh : s.havePiece p
      · rw [if_pos hh]
        exact hsub _ rfl rfl rfl (.inl hh)
      · rw [if_neg hh]
        refine closeCursors_between (fun y hP => ?_) (hsub _ rfl rfl rfl (.inr (.inl hn)))
        split_ifs at hP with hyp
        · exact absurd hn hP.2
        · exact ⟨hyp, hP⟩
    · rw [if_neg (fun hc => hn hc.1), if_neg (fun hc => hf hc.2)]
      exact hsub s rfl rfl rfl (.inr (.inr hf))

/-- The state in which `set_piece_priority` looks at the list. -/
def prioritized (s : PiecePicker) (p n : ℕ) : PiecePicker :=
  (s.countPriority p n).2.setPriority p n

theorem prioritized_core (s : PiecePicker) (p n : ℕ) :
    (s.prioritized p n).toPickerCore = (s.setPriority p n).toPickerCore := by
  simp only [prioritized, setPriority, withCore_core, countPriority_core]

theorem prioritized_pos (s : PiecePicker) (p n y : ℕ) : (s.prioritized p n).pos y =
    if y = p ∧ p < s.numPieces then { s.pos p with piecePriority := n } else s.pos y := by
  rw [prioritized_core]
  exact s.toPickerCore.modifyPos_pos p y _

theorem prioritized_peers (s : PiecePicker) (p n : ℕ) : SamePeers s (s.prioritized p n) := by
  obtain ⟨-, -, hseeds, -⟩ := countPriority_rest s p n
  refine ⟨by rw [prioritized_core]; exact ⟨rfl, rfl⟩, ?_, fun y => ?_, hseeds⟩
  · rw [prioritized_core]
    exact s.modifyPos_numPieces p _
  · rw [prioritized_pos]
    split_ifs with h
    · rw [h.1]
    · rfl

theorem shift_prioritized (hl : s.Listed) {n : ℕ} (hn : n ≤ topPriority) :
    Shift s (s.prioritized p n) p := by
  obtain ⟨hlist, hdirty, hseeds, -⟩ := countPriority_rest s p n
  have hpos := s.prioritized_pos p n
  have hhave : ∀ y, (s.prioritized p n).havePiece y ↔ s.havePiece y := by
    intro y
    rw [havePiece, havePiece]
    exact Eq.congr_left (congrArg (BucketList.idx · y) hlist)
  have hpeers := prioritized_peers s p n
  refine ⟨hlist, hdirty, fun y hy => ?_, ⟨?_, fun y => ?_, ?_, fun y => ?_, fun y hy => ?_⟩⟩
  · rw [priority, priority, hpos, if_neg (fun hc => hy hc.1), hpeers.seeds]
    simp only [hhave]
  · rw [hpeers.numPieces]
    exact (congrArg (fun l : BucketList => l.index.length) hlist).trans hl.index_length
  · rw [hpeers.peers]
    exact hl.peers y
  · rw [hpeers.seeds]
    exact hl.seeds
  · rw [hpos]
    split_ifs
    · exact hn
    · exact hl.prio y
  · rw [PickerCore.state, hpos]
    have := hl.have_open y ((hhave y).mp hy)
    split_ifs with h
    · rw [h.1] at this
      exact this
    · exact this

/-- What `set_piece_priority` does after it told the list. -/
theorem prioritized_keeps (hb : s.Buckets) {n : ℕ} :
    Keeps 0 ((s.prioritized p n).reposition (s.priority p) p)
      (if ((s.prioritized p n).reposition (s.priority p) p).downloading p then
        ((s.prioritized p n).reposition (s.priority p) p).updatePieceState p
      else (s.prioritized p n).reposition (s.priority p) p) := by
  split_ifs
  · refine updatePieceState_keeps ?_ p
    rw [reposition_core, prioritized_core]
    refine hb.congr rfl fun y => ?_
    rw [downloadQueue, downloadQueue, state, state]
    have := s.toPickerCore.modifyPos_pos p y fun pos => { pos with piecePriority := n }
    rw [show (s.setPriority p n).pos y = _ from this]
    split_ifs with h
    · rw [h.1]
    · rfl
  · exact .refl _

/-- A piece gets a priority. -/
theorem setPiecePriority_reprioritizes (hb : s.Buckets) (hp : p < s.numPieces) {n : ℕ}
    (hn : n ≤ topPriority) : Reprioritizes s (s.setPiecePriority p n).2 p n := by
  rw [setPiecePriority]
  by_cases hsame : n = (s.pos p).piecePriority
  · rw [if_pos hsame]
    have hfil : s.filtered p ↔ n = 0 := by rw [hsame]; rfl
    refine ⟨.refl s, fun y => ?_, rfl, rfl, ?_, ?_, fun h y hy hP => h y hy ?_, .refl s⟩
    · split_ifs with hy
      · rw [hy, hsame]
      · rfl
    · simp only [hfil]
      omega
    · simp only [hfil]
      omega
    · by_cases hyp : y = p
      · simp only [if_pos hyp, ne_eq, ← hfil] at hP
        rw [hyp]
        exact not_or.mpr hP
      · simp only [if_neg hyp] at hP
        exact hP
  rw [if_neg hsame]
  dsimp only
  change Reprioritizes s (if ((s.prioritized p n).reposition (s.priority p) p).downloading p then
    ((s.prioritized p n).reposition (s.priority p) p).updatePieceState p
    else (s.prioritized p n).reposition (s.priority p) p) p n
  set t := (s.prioritized p n).reposition (s.priority p) p with ht
  have htcore : t.toPickerCore = (s.setPriority p n).toPickerCore := by
    rw [ht, reposition_core, prioritized_core]
  have hk : Keeps 0 t (if t.downloading p then t.updatePieceState p else t) := prioritized_keeps hb
  obtain ⟨l, rng, hrest⟩ := (s.prioritized p n).reposition_rest p (s.priority p)
  obtain ⟨-, -, -, hpassed, hnum, hfilt, hhfilt⟩ := countPriority_rest s p n
  have htp : SamePeers s t := by
    rw [ht, hrest]
    exact (prioritized_peers s p n).trans ⟨⟨rfl, rfl⟩, rfl, fun _ => rfl, rfl⟩
  refine ⟨htp.trans hk.toSamePeers, fun y => ?_, ?_, ?_, ?_, ?_, fun h => ?_, fun hl => ?_⟩
  · rw [hk.prio, ht, reposition_core, prioritized_pos]
    simp only [hp, and_true]
    split_ifs <;> rfl
  · rw [hk.surplus, Int.add_zero, surplus, surplus, htcore, ht, hrest]
    exact congrArg (fun z : ℤ => z - (s.downloads.passed : ℤ)) hpassed
  · rw [hk.numHave, ht, hrest]
    exact hnum
  · rw [hk.numFiltered, ht, hrest]
    exact hfilt
  · rw [hk.numHaveFiltered, ht, hrest]
    exact hhfilt
  · refine Between.congr (s := t) hk.numPieces hk.cursor hk.reverseCursor ?_
    have := countPriority_between h p n
    refine Between.congr (s := (s.countPriority p n).2) ?_ ?_ ?_ this
    · rw [htp.numPieces, countPriority_core]
    · rw [ht, hrest]
      rfl
    · rw [ht, hrest]
      rfl
  · have hsh := shift_prioritized (p := p) hl hn
    obtain ⟨h₁, h₂⟩ := hsh.reposition hl
    obtain ⟨h₃, h₄⟩ := hk.list h₁
    exact ⟨h₃, fun y => (h₄ y).trans ((h₂ y).trans (hsh.have_iff y))⟩

end PiecePicker

end LibtorrentSN
