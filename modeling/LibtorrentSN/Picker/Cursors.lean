import LibtorrentSN.Picker.Exact
import LibtorrentSN.Picker.PadFree

/-!
# The piece picker: its cursors

`m_cursor` is the first piece that we neither have nor filter, and `m_reverse_cursor` is one past the
last such piece. Both are moved by the calls that change what we have or want, each time from where
they are; that this is enough is the subject of `Hull`, the exact bounds of a set of numbers.

The counters of the pieces we have and of the filtered ones are exact as well, and so are the sums
`want()`, `have()` and `have_want()`. `num_want_left()` counts the filtered pieces that we have as if
they were wanted.
-/

namespace LibtorrentSN

/-! ## The bounds of a set -/

/-- Of the numbers below `n`, `lo` is the first in `Q` and `hi` is one past the last; `n` and 0 if there
is none. -/
structure Hull (n : ℕ) (Q : ℕ → Prop) (lo hi : ℕ) : Prop where
  within : ∀ y < n, Q y → lo ≤ y ∧ y < hi
  attained : lo = n ∧ hi = 0 ∨ lo < hi ∧ hi ≤ n ∧ Q lo ∧ Q (hi - 1)

namespace Hull

variable {n lo hi p : ℕ} {Q Q' : ℕ → Prop}

theorem congr (h : Hull n Q lo hi) (hQ : ∀ y < n, Q y ↔ Q' y) : Hull n Q' lo hi := by
  refine ⟨fun y hy hq => h.within y hy ((hQ y hy).mpr hq), h.attained.imp_right ?_⟩
  rintro ⟨h₁, h₂, h₃, h₄⟩
  exact ⟨h₁, h₂, (hQ lo (by omega)).mp h₃, (hQ (hi - 1) (by omega)).mp h₄⟩

theorem empty_iff (h : Hull n Q lo hi) : (lo = n ∧ hi = 0) ↔ ∀ y < n, ¬ Q y := by
  constructor
  · rintro ⟨-, rfl⟩ y hy hq
    exact absurd (h.within y hy hq).2 (Nat.not_lt_zero y)
  · intro hnone
    refine h.attained.resolve_right fun hc => ?_
    exact hnone lo (by omega) hc.2.2.1

theorem isLeast (h : Hull n Q lo hi) {y : ℕ} (hy : y < n) (hq : Q y) : IsLeast {y | y < n ∧ Q y} lo := by
  obtain ⟨h₁, h₂, h₃, -⟩ := h.attained.resolve_left fun hc => by
    have := h.within y hy hq
    omega
  exact ⟨⟨by omega, h₃⟩, fun y hy => (h.within y hy.1 hy.2).1⟩

theorem isGreatest (h : Hull n Q lo hi) {y : ℕ} (hy : y < n) (hq : Q y) :
    0 < hi ∧ IsGreatest {y | y < n ∧ Q y} (hi - 1) := by
  obtain ⟨h₁, h₂, -, h₄⟩ := h.attained.resolve_left fun hc => by
    have := h.within y hy hq
    omega
  exact ⟨by omega, ⟨by omega, h₄⟩, fun y hy => Nat.le_sub_one_of_lt (h.within y hy.1 hy.2).2⟩

/-- One more number. -/
theorem insert (h : Hull n Q lo hi) (hp : p < n) :
    Hull n (fun y => Q y ∨ y = p) (min lo p) (max hi (p + 1)) := by
  refine ⟨fun y hy hq => ?_, .inr ?_⟩
  · rcases hq with hq | rfl
    · obtain ⟨h₁, h₂⟩ := h.within y hy hq
      exact ⟨(Nat.min_le_left _ _).trans h₁, h₂.trans_le (Nat.le_max_left _ _)⟩
    · exact ⟨Nat.min_le_right _ _, (Nat.lt_succ_self y).trans_le (Nat.le_max_right _ _)⟩
  · rcases h.attained with ⟨rfl, rfl⟩ | ⟨h₁, h₂, h₃, h₄⟩
    · rw [Nat.min_eq_right hp.le, Nat.max_eq_right (Nat.zero_le _)]
      exact ⟨Nat.lt_succ_self p, hp, .inr rfl, .inr rfl⟩
    · refine ⟨by omega, by omega, ?_, ?_⟩
      · rcases Nat.le_total lo p with hle | hle
        · rw [Nat.min_eq_left hle]
          exact .inl h₃
        · rw [Nat.min_eq_right hle]
          exact .inr rfl
      · rcases Nat.le_total hi (p + 1) with hle | hle
        · rw [Nat.max_eq_right hle]
          exact .inr rfl
        · rw [Nat.max_eq_left hle]
          exact .inl h₄

end Hull

namespace PiecePicker

open PickerCore

variable {s s' : PiecePicker} {p n : ℕ} {Q : ℕ → Prop}

/-! ## Moving the cursors -/

/-- The cursor stops at the end of its range or at a piece we are after. -/
theorem skipUp_stops (s : PiecePicker) (fuel c : ℕ) : c ≤ s.skipUp fuel c ∧
    (s.skipUp fuel c = c + fuel ∨ s.skipUp fuel c < c + fuel ∧ ¬ s.passedOver (s.skipUp fuel c)) := by
  induction fuel generalizing c with
  | zero => exact ⟨Nat.le_refl c, .inl rfl⟩
  | succ fuel ih =>
    rw [skipUp]
    split_ifs with hp
    · obtain ⟨h₁, h₂⟩ := ih (c + 1)
      rw [Nat.add_right_comm] at h₂
      exact ⟨by omega, h₂⟩
    · exact ⟨Nat.le_refl c, .inr ⟨by omega, hp⟩⟩

theorem skipDown_stops (s : PiecePicker) (c : ℕ) : s.skipDown c ≤ c ∧
    (s.skipDown c = 0 ∨ 0 < s.skipDown c ∧ ¬ s.passedOver (s.skipDown c - 1)) := by
  induction c with
  | zero => exact ⟨Nat.le_refl 0, .inl rfl⟩
  | succ c ih =>
    rw [skipDown]
    split_ifs with hp
    · exact ⟨ih.1.trans (Nat.le_succ c), ih.2⟩
    · exact ⟨Nat.le_refl _, .inr ⟨Nat.succ_pos c, hp⟩⟩

/-- The piece `p` is closed. While the cursors move, the other pieces are as they will be. -/
theorem closeCursors_hull (h : Hull s.numPieces Q s.cursor s.reverseCursor) (hp : p < s.numPieces)
    (hQ : ∀ y, y ≠ p → (Q y ↔ ¬ s.passedOver y)) :
    Hull s.numPieces (fun y => Q y ∧ y ≠ p) (s.closeCursors p).cursor (s.closeCursors p).reverseCursor := by
  have hbetween := closeCursors_between (s := s) (p := p) (P := fun y => Q y ∧ y ≠ p)
    (fun y hy => ⟨hy.2, (hQ y hy.2).mp hy.1⟩) fun y hy hq => h.within y hy hq.1
  refine ⟨fun y hy => hbetween y (by rwa [closeCursors_core]), ?_⟩
  have hafter : ∀ y, Q y ∧ y ≠ p → ¬ s.passedOver y := fun y hy => (hQ y hy.2).mp hy.1
  rw [closeCursors]
  split_ifs with h₁ h₂ h₃
  · exact .inl ⟨rfl, rfl⟩
  · -- the last piece is another one, and the cursor stops there at the latest
    obtain ⟨g₁, g₂, g₃, g₄⟩ := h.attained.resolve_left fun hc => by omega
    have hlast : Q (s.reverseCursor - 1) ∧ s.reverseCursor - 1 ≠ p := ⟨g₄, by omega⟩
    have hle := le_skipUp (s.numPieces - (s.cursor + 1)) (s.cursor + 1) hafter hlast (by omega)
    obtain ⟨k₁, k₂⟩ := s.skipUp_stops (s.numPieces - (s.cursor + 1)) (s.cursor + 1)
    obtain ⟨k₃, k₄⟩ := k₂.resolve_left fun hc => by omega
    have hne : s.skipUp (s.numPieces - (s.cursor + 1)) (s.cursor + 1) ≠ p := by omega
    exact .inr ⟨by dsimp only; omega, g₂, ⟨(hQ _ hne).mpr k₄, hne⟩, hlast⟩
  · obtain ⟨g₁, g₂, g₃, g₄⟩ := h.attained.resolve_left fun hc => by omega
    have hfirst : Q s.cursor ∧ s.cursor ≠ p := ⟨g₃, h₂⟩
    have hlt := lt_skipDown (s.reverseCursor - 1) hafter hfirst (by omega)
    obtain ⟨k₁, k₂⟩ := s.skipDown_stops (s.reverseCursor - 1)
    obtain ⟨k₃, k₄⟩ := k₂.resolve_left fun hc => by omega
    have hne : s.skipDown (s.reverseCursor - 1) - 1 ≠ p := by omega
    exact .inr ⟨hlt, by dsimp only; omega, hfirst, (hQ _ hne).mpr k₄, hne⟩
  · refine h.attained.imp_right ?_
    rintro ⟨g₁, g₂, g₃, g₄⟩
    exact ⟨g₁, g₂, ⟨g₃, h₂⟩, g₄, by omega⟩

/-- The cursors are where they should be. -/
def CursorsExact (s : PiecePicker) : Prop :=
  Hull s.numPieces (¬ s.passedOver ·) s.cursor s.reverseCursor

/-! ## The calls -/

theorem CursorsExact.congr (h : s.CursorsExact) (hn : s'.numPieces = s.numPieces)
    (hh : ∀ y, s'.havePiece y ↔ s.havePiece y) (hw : SameWants s s') : s'.CursorsExact := by
  rw [CursorsExact, hn, hw.cursor, hw.reverseCursor]
  exact Hull.congr h fun y _ => not_congr (passedOver_congr hh hw y).symm

theorem weHave_cursors (hb : s.Buckets) (hl : s.Listed) (hp : p < s.numPieces) (hnot : ¬ s.havePiece p)
    (h : s.CursorsExact) : (s.weHave p).CursorsExact := by
  have hg := weHave_gains hb hp hnot
  obtain ⟨hA, hB, -, hD, -, -⟩ := dropPassed_rest hb p
  obtain ⟨k₁, -, -, k₄, k₅, -⟩ := countHave_rest (s.dropPassed p) p
  -- the state the cursors are moved in: only `p` has changed
  set t := ((s.dropPassed p).countHave p).setIndex p (-1) with ht
  have hn : t.numPieces = s.numPieces := by
    rw [ht, setIndex_core, countHave_core]
    exact hA.numPieces
  have hother : ∀ y, y ≠ p → (¬ s.passedOver y ↔ ¬ t.passedOver y) := by
    intro y hy
    refine not_congr (or_congr ?_ ?_)
    · rw [havePiece, havePiece, ht, setIndex, BucketList.setIdx_idx, if_neg (fun hc => hy hc.1.symm), k₁, hD]
    · rw [ht, setIndex_core, countHave_core]
      exact (hB.filtered y).symm
  have hc : t.cursor = s.cursor := k₄.trans hB.cursor
  have hr : t.reverseCursor = s.reverseCursor := k₅.trans hB.reverseCursor
  have hhull : Hull t.numPieces (¬ s.passedOver ·) t.cursor t.reverseCursor := by
    rw [hn, hc, hr]
    exact h
  have hclose := closeCursors_hull hhull (by rwa [hn]) hother
  have heq := weHave_eq_gained hb hnot
  rw [CursorsExact, hg.numPieces]
  have hcursor : (s.weHave p).cursor = (t.closeCursors p).cursor := by
    rw [heq]
    rfl
  have hreverse : (s.weHave p).reverseCursor = (t.closeCursors p).reverseCursor := by
    rw [heq]
    rfl
  rw [hcursor, hreverse]
  rw [hn] at hclose
  refine hclose.congr fun y _ => ?_
  have hhave := (hg.list hl).2 y
  have hfil := filtered_congr hg.prio y
  rw [passedOver, passedOver, hhave, hfil]
  tauto

theorem weDontHave_cursors (hl : s.Listed) (hp : p < s.numPieces) (hh : s.havePiece p) (h : s.CursorsExact) :
    (s.weDontHave p).CursorsExact := by
  have hg := weDontHave_loses hp hh
  obtain ⟨l, rng, heq⟩ := weDontHave_rest hh
  have hcursor : (s.weDontHave p).cursor = (s.countNotHave p).cursor := by
    rw [heq]
    rfl
  have hreverse : (s.weDontHave p).reverseCursor = (s.countNotHave p).reverseCursor := by
    rw [heq]
    rfl
  rw [CursorsExact, hg.numPieces, hcursor, hreverse]
  have hpass : ∀ y, ¬ (s.weDontHave p).passedOver y ↔ ¬ s.passedOver y ∨ y = p ∧ ¬ s.filtered p := by
    intro y
    have hhave := (hg.list hl).2 y
    have hfil := filtered_congr hg.prio y
    rw [passedOver, passedOver, hhave, hfil]
    by_cases hy : y = p
    · subst hy
      tauto
    · tauto
  rw [countNotHave]
  by_cases hf : s.filtered p
  · rw [if_pos (show PickerCore.filtered _ p from hf)]
    refine Hull.congr h fun y _ => ?_
    rw [hpass]
    tauto
  · rw [if_neg (show ¬ PickerCore.filtered _ p from hf)]
    rw [openCursors_eq]
    refine (Hull.insert h hp).congr fun y _ => ?_
    rw [hpass]
    tauto

/-- The cursors once the change of a priority is counted. -/
theorem countPriority_hull (hp : p < s.numPieces) (h : s.CursorsExact) :
    Hull s.numPieces (fun y => if y = p then ¬ s.havePiece p ∧ n ≠ 0 else ¬ s.passedOver y)
      (s.countPriority p n).2.cursor (s.countPriority p n).2.reverseCursor := by
  -- the same pieces are wanted
  have hsame : (¬ s.passedOver p ↔ ¬ s.havePiece p ∧ n ≠ 0) → Hull s.numPieces
      (fun y => if y = p then ¬ s.havePiece p ∧ n ≠ 0 else ¬ s.passedOver y) s.cursor s.reverseCursor := by
    refine fun hiff => Hull.congr h fun y _ => ?_
    split_ifs with hy
    · rw [hy]
      exact hiff
    · exact Iff.rfl
  have hpass : s.passedOver p ↔ s.havePiece p ∨ s.filtered p := Iff.rfl
  rw [countPriority]
  by_cases hf : s.filtered p
  · by_cases hn : n = 0
    · rw [if_neg (fun hc => hc.2 hf), if_neg (fun hc => hc.1 hn)]
      exact hsame (by tauto)
    · rw [if_neg (fun hc => hn hc.1), if_pos ⟨hn, hf⟩, countUnfiltered]
      by_cases hh : s.havePiece p
      · rw [if_pos hh]
        exact hsame (by tauto)
      · rw [if_neg hh, openCursors_eq]
        refine (Hull.insert h hp).congr fun y _ => ?_
        split_ifs with hy
        · exact iff_of_true (.inr hy) ⟨hh, hn⟩
        · exact or_iff_left hy
  · by_cases hn : n = 0
    · rw [if_pos ⟨hn, hf⟩, countFiltered]
      by_cases hh : s.havePiece p
      · rw [if_pos hh]
        exact hsame (by tauto)
      · rw [if_neg hh]
        set t : PiecePicker := { s with
          filteredPadBytes := s.filteredPadBytes + s.padBytesInPiece p, numFiltered := s.numFiltered + 1 } with ht
        have hclose := closeCursors_hull (s := t) h hp fun y _ => Iff.rfl
        refine Hull.congr hclose fun y _ => ?_
        split_ifs with hy
        · exact iff_of_false (fun hc => hc.2 hy) fun hc => hc.2 hn
        · exact and_iff_left hy
    · rw [if_neg (fun hc => hn hc.1), if_neg (fun hc => hf hc.2)]
      exact hsame (by tauto)

theorem setPiecePriority_cursors (hb : s.Buckets) (hl : s.Listed) (hp : p < s.numPieces) (hn : n ≤ topPriority)
    (h : s.CursorsExact) : (s.setPiecePriority p n).2.CursorsExact := by
  have hg := setPiecePriority_reprioritizes hb hp hn
  have hhull := countPriority_hull (n := n) hp h
  have hcursor : (s.setPiecePriority p n).2.cursor = (s.countPriority p n).2.cursor ∧
      (s.setPiecePriority p n).2.reverseCursor = (s.countPriority p n).2.reverseCursor := by
    rw [setPiecePriority]
    by_cases hsame : n = (s.pos p).piecePriority
    · have hfil : s.filtered p ↔ n = 0 := by
        rw [hsame]
        rfl
      rw [if_pos hsame, countPriority, if_neg (by tauto), if_neg (by tauto)]
      exact ⟨rfl, rfl⟩
    · rw [if_neg hsame]
      have hk := prioritized_keeps (p := p) (n := n) hb
      obtain ⟨l, rng, hrest⟩ := (s.prioritized p n).reposition_rest p (s.priority p)
      refine ⟨hk.cursor.trans ?_, hk.reverseCursor.trans ?_⟩
      · rw [hrest]
        rfl
      · rw [hrest]
        rfl
  rw [CursorsExact, hg.numPieces, hcursor.1, hcursor.2]
  refine hhull.congr fun y _ => ?_
  have hhave := (hg.list hl).2
  have hfil : (s.setPiecePriority p n).2.filtered y ↔ if y = p then n = 0 else s.filtered y := by
    rw [filtered, PiecePos.filtered, hg.prio]
    split_ifs <;> rfl
  rw [passedOver, passedOver, hhave, hfil]
  split_ifs with hy
  · rw [hy, not_or]
  · exact Iff.rfl

theorem weHaveAll_cursors (hl : s.Listed) : s.weHaveAll.CursorsExact := by
  refine ⟨fun y hy hq => ?_, .inl ⟨s.weHaveAll_numPieces.symm, rfl⟩⟩
  rw [weHaveAll_numPieces] at hy
  exact absurd (.inl ((weHaveAll_have hl y).mpr hy)) hq

theorem Resized.cursorsExact {totalSize pieceSize : ℕ} (hr : Resized s totalSize pieceSize s') :
    s'.CursorsExact := by
  obtain ⟨hc, hrc⟩ := hr.cursors
  obtain ⟨-, hup⟩ := s'.skipUp_stops s'.numPieces 0
  obtain ⟨hle, hdown⟩ := s'.skipDown_stops s'.numPieces
  rw [Nat.zero_add, ← hc] at hup
  rw [← hrc] at hle hdown
  have hwithin : ∀ y < s'.numPieces, ¬ s'.passedOver y → s'.cursor ≤ y ∧ y < s'.reverseCursor := by
    intro y hy hq
    rw [hc, hrc]
    exact ⟨le_skipUp (P := (¬ s'.passedOver ·)) _ _ (fun _ h => h) hq (Nat.zero_le y),
      lt_skipDown (P := (¬ s'.passedOver ·)) _ (fun _ h => h) hq hy⟩
  refine ⟨hwithin, ?_⟩
  rcases hup with hend | ⟨hlt, hfirst⟩
  · refine .inl ⟨hend, hdown.resolve_right fun hd => ?_⟩
    have := hwithin _ (by omega) hd.2
    omega
  · have hlast := hwithin _ hlt hfirst
    exact .inr ⟨by omega, hle, hfirst, (hdown.resolve_left (by omega)).2⟩

theorem Action.cursorsExact {ok : Prop} (h : Action ok s s') (hb : s.Buckets) (hl : s.Listed)
    (hc : s.CursorsExact) : s'.CursorsExact := by
  cases h with
  | keeps h _ => exact hc.congr h.numPieces (h.list hl).2 h.toSameWants
  | recounts h hk => exact hc.congr h.numPieces (hk hl).2 h.toSameWants
  | gains hk hbt hp hnot h =>
    rw [h]
    obtain ⟨hlt, hht⟩ := hk.list hl
    exact weHave_cursors hbt hlt hp hnot (hc.congr hk.numPieces hht hk.toSameWants)
  | loses hp hh h =>
    rw [h]
    exact weDontHave_cursors hl hp hh hc
  | reprioritizes hp hn h =>
    rw [h]
    exact setPiecePriority_cursors hb hl hp hn hc
  | all h =>
    rw [h]
    exact weHaveAll_cursors hl
  | resized h => exact h.cursorsExact

end PiecePicker

/-- In a run of calls that keep the list, the cursors are exact. -/
theorem Reach.cursorsExact {ok : PiecePicker → Op → Prop} {s : PiecePicker}
    (hle : ∀ s op, ok s op → PiecePicker.listCall s op) (h : Reach ok s) : s.CursorsExact := by
  induction h with
  | create _ _ h =>
    obtain ⟨s₀, hr, -⟩ := PiecePicker.create_eq h
    exact hr.cursorsExact
  | step h ha hok ih =>
    exact (PiecePicker.apply_action h.book ha (hle _ _ hok)).cursorsExact h.book.buckets (h.listed hle).1 ih

/-! ## The sums -/

/-- `piece_count`: a set of pieces. -/
structure PieceCount where
  numPieces : ℤ
  padBytes : ℤ
  lastPiece : Bool
  deriving DecidableEq, Repr

namespace PiecePicker

variable {s : PiecePicker}

section Sums
variable (s)

def want : PieceCount :=
  ⟨s.numPieces - s.numFiltered - s.numHaveFiltered,
    s.numPadBytes - s.filteredPadBytes - s.haveFilteredPadBytes, ¬ s.filtered (s.numPieces - 1)⟩

def haveWant : PieceCount :=
  ⟨s.numHave - s.numHaveFiltered, s.havePadBytes - s.haveFilteredPadBytes,
    s.havePiece (s.numPieces - 1) ∧ ¬ s.filtered (s.numPieces - 1)⟩

/-- `have()`. -/
def have' : PieceCount := ⟨s.numHave, s.havePadBytes, s.havePiece (s.numPieces - 1)⟩

/-- `num_want_left()`. -/
def numWantLeft : ℤ := s.numPieces - s.numHave - s.numFiltered + s.numHaveFiltered

/-- The pieces in `Q`. -/
def countOf (Q : ℕ → Prop) [DecidablePred Q] : PieceCount :=
  ⟨countUpTo s.numPieces Q, (((List.range s.numPieces).filter (Q ·)).map s.padBytesInPiece).sum,
    Q (s.numPieces - 1)⟩

end Sums

/-- The cursors, the counters and the sums are what the pieces say. -/
structure WantsExact (s : PiecePicker) : Prop where
  cursor : ∀ y < s.numPieces, ¬ s.passedOver y →
    IsLeast {y | y < s.numPieces ∧ ¬ s.passedOver y} s.cursor
  reverseCursor : ∀ y < s.numPieces, ¬ s.passedOver y → 0 < s.reverseCursor ∧
    IsGreatest {y | y < s.numPieces ∧ ¬ s.passedOver y} (s.reverseCursor - 1)
  none : s.cursor = s.numPieces ∧ s.reverseCursor = 0 ↔ ∀ y < s.numPieces, s.passedOver y
  numHave : s.numHave = countUpTo s.numPieces s.havePiece
  numFiltered : s.numFiltered = countUpTo s.numPieces fun y => s.filtered y ∧ ¬ s.havePiece y
  numHaveFiltered : s.numHaveFiltered = countUpTo s.numPieces fun y => s.filtered y ∧ s.havePiece y
  want : s.want = s.countOf (¬ s.filtered ·)
  have' : s.have' = s.countOf s.havePiece
  haveWant : s.haveWant = s.countOf fun y => s.havePiece y ∧ ¬ s.filtered y

/-- The number of pieces we want and do not have. -/
def wantedLeft (s : PiecePicker) : ℕ := countUpTo s.numPieces (¬ s.passedOver ·)

/-- The pieces by whether they are filtered and whether we have them. -/
theorem countUpTo_kinds {F H : ℕ → Prop} [DecidablePred F] [DecidablePred H] (n : ℕ) :
    countUpTo n (¬ F ·) + countUpTo n (fun y => F y ∧ ¬ H y) + countUpTo n (fun y => F y ∧ H y) = n ∧
      countUpTo n (fun y => H y ∧ ¬ F y) + countUpTo n (fun y => F y ∧ H y) = countUpTo n H ∧
        countUpTo n (fun y => ¬ (H y ∨ F y)) + countUpTo n H + countUpTo n (fun y => F y ∧ ¬ H y) = n := by
  induction n with
  | zero => exact ⟨rfl, rfl, rfl⟩
  | succ n ih =>
    obtain ⟨h₁, h₂, h₃⟩ := ih
    simp only [countUpTo_succ]
    by_cases hF : F n <;> by_cases hH : H n <;>
      simp only [hF, hH, not_true, not_false_eq_true, and_true, and_false, and_self, or_true, or_false,
        or_self, if_true, if_false] <;> omega

theorem PadFree.padBytes (h : s.PadFree) (l : List ℕ) : (l.map s.padBytesInPiece).sum = 0 := by
  induction l with
  | nil => rfl
  | cons p l ih => rw [List.map_cons, List.sum_cons, ih, h.padBytesInPiece p]

/-- The calls that keep the list and make no padding. -/
def unpaddedCall (s : PiecePicker) (op : Op) : Prop := listCall s op ∧ padFreeCall op

instance (s : PiecePicker) (op : Op) : Decidable (unpaddedCall s op) :=
  inferInstanceAs (Decidable (_ ∧ _))

theorem wantsExact_of_reach (h : Reach unpaddedCall s) : s.WantsExact := by
  have hc : s.CursorsExact := h.cursorsExact fun _ _ hok => hok.1
  have ht : s.Tallied := (h.listed fun _ _ hok => hok.1).2
  have hpad : s.PadFree := h.padFree fun _ _ hok => hok.2
  obtain ⟨k₁, k₂, -⟩ := countUpTo_kinds (F := s.filtered) (H := s.havePiece) s.numPieces
  have hpads := hpad
  simp only [PadFree, pads, Prod.mk.injEq] at hpads
  obtain ⟨-, p₁, p₂, p₃, p₄⟩ := hpads
  refine ⟨fun y hy hq => hc.isLeast hy hq, fun y hy hq => hc.isGreatest hy hq, ?_, ht.numHave, ht.numFiltered,
    ht.numHaveFiltered, ?_, ?_, ?_⟩
  · rw [hc.empty_iff]
    exact forall₂_congr fun y _ => not_not
  · rw [want, countOf, ht.numFiltered, ht.numHaveFiltered, p₁, p₃, p₄, hpad.padBytes]
    congr 1
    omega
  · rw [have', countOf, ht.numHave, p₂, hpad.padBytes]
    rfl
  · rw [haveWant, countOf, ht.numHave, ht.numHaveFiltered, p₂, p₄, hpad.padBytes, haveCount]
    congr 1
    omega

/-- In every run of such calls the cursors, the counters and the sums are exact, but
`num_want_left()` only as long as no piece that we have is filtered. -/
theorem wants_exact (h : Reach unpaddedCall s) : s.WantsExact ∧
    (s.numWantLeft = s.wantedLeft ↔ ∀ y < s.numPieces, s.havePiece y → ¬ s.filtered y) := by
  have hexact := wantsExact_of_reach h
  refine ⟨hexact, ?_⟩
  obtain ⟨-, -, k₃⟩ := countUpTo_kinds (F := s.filtered) (H := s.havePiece) s.numPieces
  have hsum : s.numWantLeft = s.wantedLeft + countUpTo s.numPieces fun y => s.filtered y ∧ s.havePiece y := by
    have hleft : s.wantedLeft = countUpTo s.numPieces fun y => ¬ (s.havePiece y ∨ s.filtered y) :=
      countUpTo_congr fun y _ => Iff.rfl
    rw [numWantLeft, hexact.numHave, hexact.numFiltered, hexact.numHaveFiltered, hleft]
    omega
  have hzero : s.numWantLeft = s.wantedLeft ↔
      countUpTo s.numPieces (fun y => s.filtered y ∧ s.havePiece y) = 0 := by
    rw [hsum]
    omega
  rw [hzero, countUpTo_eq_zero]
  exact forall₂_congr fun y _ => ⟨fun h hh hf => h ⟨hf, hh⟩, fun h hc => h hc.2 hc.1⟩

/-- Three pieces: we have the first, the second is filtered. -/
theorem wants_exact_three : ∃ s : PiecePicker, Reach unpaddedCall s ∧ s.cursor = 2 ∧ s.reverseCursor = 3 ∧
    s.numWantLeft = 1 ∧ s.WantsExact ∧
      (s.numWantLeft = s.wantedLeft ↔ ∀ y < s.numPieces, s.havePiece y → ¬ s.filtered y) := by
  obtain ⟨s, hs, hc, hr, hl⟩ := Reach.exists_of_freshRun unpaddedCall 3 1 [.weHave 0, .setPiecePriority 1 0]
    (fun s => s.cursor = 2 ∧ s.reverseCursor = 3 ∧ s.numWantLeft = 1) (by decide) (by decide +kernel)
  exact ⟨s, hs, hc, hr, hl, wants_exact hs⟩

/-- A piece that `restore_piece` has listed twice gets an index in the list again after we have it, and
the cursor has passed it by. A filtered piece that we have is counted as wanted and left. -/
theorem wants_not_exact :
    (¬ ∀ s : PiecePicker, Reach (fun _ op => padFreeCall op) s → s.WantsExact) ∧
      ¬ ∀ s : PiecePicker, Reach (fun _ op => padFreeCall op) s → s.numWantLeft = s.wantedLeft := by
  constructor
  · obtain ⟨s, hs, hc, hn, hp⟩ := Reach.exists_of_freshRun (fun _ op => padFreeCall op) 2 2
      [.incRefcountAll, sequentialPick 2, .markAsFinished 0 0 (some 1), .markAsFinished 0 1 (some 1),
        .startedHashJob 0, .restorePiece 0 [0, 1], .weHave 0, .setPiecePriority 1 7]
      (fun s => s.cursor = 1 ∧ s.numPieces = 2 ∧ ¬ s.passedOver 0) (by decide) (by decide +kernel)
    intro h
    have := ((h s hs).cursor 0 (by omega) hp).2 ⟨by omega, hp⟩
    omega
  · obtain ⟨s, hs, hl⟩ := Reach.exists_of_freshRun (fun _ op => padFreeCall op) 1 1
      [.weHave 0, .setPiecePriority 0 0] (fun s => s.numWantLeft ≠ s.wantedLeft)
      (by decide) (by decide +kernel)
    exact fun h => hl (h s hs)

end PiecePicker

end LibtorrentSN
