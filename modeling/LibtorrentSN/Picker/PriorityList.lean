import LibtorrentSN.Picker.BookReach

/-!
# The piece picker: keeping the priority list exact

`Listed` says that the list is exact unless it is out of date: `m_pieces` is sorted by
`priority()`. Whether we have a piece is recorded in the index of the piece, so the
operations on the list also have to leave these marks alone.

Almost every operation is a chain of small steps, each of which changes the state of one
piece and moves it in the list. `Keeps n s s'` says what all of them leave as it is, and
that they keep the list exact; such steps compose.
-/

namespace LibtorrentSN

/-! ## Priorities -/

namespace PiecePos

variable {pos : PiecePos} {has : Bool} {seeds : ℤ}

theorem eq_of_fields {pos pos' : PiecePos} (h₁ : pos.peerCount = pos'.peerCount)
    (h₂ : pos.piecePriority = pos'.piecePriority) (h₃ : pos.downloadState = pos'.downloadState) :
    pos = pos' := by
  cases pos
  cases pos'
  simp_all

/-- Why a piece is not in the list. -/
def unlisted (pos : PiecePos) (has : Bool) (seeds : ℤ) : Prop :=
  pos.filtered ∨ has = true ∨ pos.peerCount + seeds = 0 ∨
    pos.downloadState = .pieceFull ∨ pos.downloadState = .pieceFinished

theorem priority_of_unlisted (h : pos.unlisted has seeds) : pos.priority has seeds = -1 :=
  if_pos h

/-- A piece that is filtered or that nobody has is not in the list, in whatever state. -/
theorem priority_restate (h : pos.filtered ∨ pos.peerCount + seeds = 0) (st : DownloadState) :
    pos.priority has seeds = ({ pos with downloadState := st } : PiecePos).priority has seeds := by
  have hneg : ∀ pos' : PiecePos, pos'.filtered ∨ pos'.peerCount + seeds = 0 →
      pos'.priority has seeds = -1 := by
    rintro pos' (hf | ha)
    · exact priority_of_unlisted (.inl hf)
    · exact priority_of_unlisted (.inr (.inr (.inl ha)))
  rw [hneg pos h, hneg { pos with downloadState := st } h]

theorem priority_nonneg (hp : 0 ≤ pos.peerCount) (hl : pos.piecePriority ≤ topPriority)
    (h : ¬ pos.unlisted has seeds) : 0 ≤ pos.priority has seeds := by
  have hlevel : 0 < priorityLevels - pos.piecePriority := by
    rw [topPriority] at hl
    rw [priorityLevels]
    omega
  have hpos : 0 < (pos.peerCount + 1) * (priorityLevels - pos.piecePriority) :=
    Int.mul_pos (by omega) hlevel
  rw [priority]
  rw [unlisted] at h
  rw [if_neg h, show prioFactor = 3 from rfl]
  dsimp only
  split_ifs <;> omega

end PiecePos

namespace Downloads

/-- The number of partial pieces that passed their hash check. -/
def passed (d : Downloads) : ℕ := d.all.countP (·.passedHashCheck)

end Downloads

/-- The sizes of the torrent are the same. -/
def SameSizes (c c' : PickerCore) : Prop :=
  c'.totalSize = c.totalSize ∧ c'.pieceSize = c.pieceSize

namespace PiecePicker

variable {s s' s'' : PiecePicker} {p y : ℕ} {st : DownloadState} {dp : DownloadingPiece}

/-! ## The invariant -/

/-- The values of the fields of the pieces are sensible. -/
structure Sane (s : PiecePicker) : Prop where
  index_length : s.list.index.length = s.numPieces
  peers : ∀ p, 0 ≤ (s.pos p).peerCount
  seeds : 0 ≤ s.seeds
  prio : ∀ p, (s.pos p).piecePriority ≤ topPriority
  have_open : ∀ p, s.havePiece p → s.state p = .pieceOpen

/-- The list is exact, unless it is out of date. -/
structure Listed (s : PiecePicker) : Prop extends Sane s where
  sorted : s.dirty = false → s.list.Sorted s.priority

theorem Sane.priority_or (h : s.Sane) (p : ℕ) : s.priority p = -1 ∨ 0 ≤ s.priority p :=
  (Classical.em _).imp PiecePos.priority_of_unlisted
    (PiecePos.priority_nonneg (h.peers p) (h.prio p))

theorem Sane.priority_neg_iff (h : s.Sane) : s.priority p < 0 ↔
    s.filtered p ∨ s.havePiece p ∨ s.getAvailability p = 0 ∨
      s.state p = .pieceFull ∨ s.state p = .pieceFinished := by
  have hun : (s.pos p).unlisted (decide (s.havePiece p)) s.seeds ↔ s.filtered p ∨
      s.havePiece p ∨ s.getAvailability p = 0 ∨
        s.state p = .pieceFull ∨ s.state p = .pieceFinished := by
    rw [PiecePos.unlisted, decide_eq_true_eq]
    rfl
  rw [← hun]
  constructor
  · intro hneg
    by_contra hc
    have := PiecePos.priority_nonneg (h.peers p) (h.prio p) hc
    rw [priority] at hneg
    omega
  · intro hc
    rw [priority, PiecePos.priority_of_unlisted hc]
    decide

theorem pos_of_ge (h : s.numPieces ≤ p) : s.pos p = ⟨0, .pieceOpen, 0⟩ :=
  List.getD_eq_default _ _ h

theorem lt_of_priority (h : 0 ≤ s.priority p) : p < s.numPieces := by
  by_contra hc
  have hpos := s.pos_of_ge (Nat.le_of_not_lt hc)
  rw [priority, hpos, PiecePos.priority, if_pos (.inl rfl)] at h
  omega

/-- The pieces that count as passed, less the partial pieces among them. -/
def surplus (s : PiecePicker) : ℤ := s.numPassed - s.downloads.passed

/-! ## What most operations leave alone -/

/-- The availability of every piece is the same. -/
structure SamePeers (s s' : PiecePicker) : Prop where
  sizes : SameSizes s.toPickerCore s'.toPickerCore
  numPieces : s'.numPieces = s.numPieces
  peers : ∀ y, (s'.pos y).peerCount = (s.pos y).peerCount
  seeds : s'.seeds = s.seeds

/-- The pieces we want, the counters of them and the cursors are the same. -/
structure SameWants (s s' : PiecePicker) : Prop where
  prio : ∀ y, (s'.pos y).piecePriority = (s.pos y).piecePriority
  numFiltered : s'.numFiltered = s.numFiltered
  numHaveFiltered : s'.numHaveFiltered = s.numHaveFiltered
  numHave : s'.numHave = s.numHave
  cursor : s'.cursor = s.cursor
  reverseCursor : s'.reverseCursor = s.reverseCursor

/-- The list stays exact and we have the same pieces. -/
def KeepsList (s s' : PiecePicker) : Prop :=
  s.Listed → s'.Listed ∧ ∀ y, s'.havePiece y ↔ s.havePiece y

/-- What most operations leave as it is. They may forget to count down for `n` passed
pieces. -/
structure Keeps (n : ℤ) (s s' : PiecePicker) : Prop extends SamePeers s s', SameWants s s' where
  surplus : s'.surplus = s.surplus + n
  list : KeepsList s s'

theorem SamePeers.refl (s : PiecePicker) : SamePeers s s := ⟨⟨rfl, rfl⟩, rfl, fun _ => rfl, rfl⟩

theorem SamePeers.trans (h : SamePeers s s') (h' : SamePeers s' s'') : SamePeers s s'' :=
  ⟨⟨h'.sizes.1.trans h.sizes.1, h'.sizes.2.trans h.sizes.2⟩, h'.numPieces.trans h.numPieces,
    fun y => (h'.peers y).trans (h.peers y), h'.seeds.trans h.seeds⟩

theorem SameWants.refl (s : PiecePicker) : SameWants s s :=
  ⟨fun _ => rfl, rfl, rfl, rfl, rfl, rfl⟩

theorem SameWants.trans (h : SameWants s s') (h' : SameWants s' s'') : SameWants s s'' :=
  ⟨fun y => (h'.prio y).trans (h.prio y), h'.numFiltered.trans h.numFiltered,
    h'.numHaveFiltered.trans h.numHaveFiltered, h'.numHave.trans h.numHave,
    h'.cursor.trans h.cursor, h'.reverseCursor.trans h.reverseCursor⟩

theorem SameWants.filtered (h : SameWants s s') (y : ℕ) : s'.filtered y ↔ s.filtered y := by
  rw [PickerCore.filtered, PickerCore.filtered, PiecePos.filtered, PiecePos.filtered, h.prio]

theorem KeepsList.refl (s : PiecePicker) : KeepsList s s := fun h => ⟨h, fun _ => Iff.rfl⟩

theorem KeepsList.trans (h : KeepsList s s') (h' : KeepsList s' s'') : KeepsList s s'' := by
  intro hl
  obtain ⟨hl', hh⟩ := h hl
  obtain ⟨hl'', hh'⟩ := h' hl'
  exact ⟨hl'', fun y => (hh' y).trans (hh y)⟩

theorem Keeps.refl (s : PiecePicker) : Keeps 0 s s :=
  ⟨.refl s, .refl s, (Int.add_zero _).symm, .refl s⟩

theorem Keeps.trans {n : ℤ} (h : Keeps 0 s s') (h' : Keeps n s' s'') : Keeps n s s'' :=
  ⟨h.toSamePeers.trans h'.toSamePeers, h.toSameWants.trans h'.toSameWants,
    by rw [h'.surplus, h.surplus, Int.add_zero], h.list.trans h'.list⟩

/-! ## Moving one piece -/

/-- Another list with the same marks. -/
theorem relist (hs : s.Sane) {l : BucketList} (rng : List ℕ)
    (hlen : l.index.length = s.list.index.length) (hm : BucketList.MarkEq s.list l)
    (hsorted : s.dirty = false → l.Sorted s.priority) :
    ({ s with list := l, rng := rng } : PiecePicker).Listed ∧
      ∀ y, ({ s with list := l, rng := rng } : PiecePicker).havePiece y ↔ s.havePiece y := by
  set t : PiecePicker := { s with list := l, rng := rng } with ht
  have hhave : ∀ y, t.havePiece y ↔ s.havePiece y := hm
  have hprio : t.priority = s.priority := by
    funext y
    simp only [priority, hhave]
    rfl
  refine ⟨⟨⟨hlen.trans hs.index_length, hs.peers, hs.seeds, hs.prio, fun y hy => ?_⟩, ?_⟩, hhave⟩
  · exact hs.have_open y ((hhave y).mp hy)
  · intro hd
    rw [hprio]
    exact hsorted hd

/-- `s'` is `s` with another priority for the piece `p`, and the list is yet to be told. -/
structure Shift (s s' : PiecePicker) (p : ℕ) : Prop where
  list : s'.list = s.list
  dirty : s'.dirty = s.dirty
  others : ∀ y, y ≠ p → s'.priority y = s.priority y
  sane : s'.Sane

namespace Shift

theorem have_iff (h : Shift s s' p) (y : ℕ) : s'.havePiece y ↔ s.havePiece y := by
  rw [havePiece, havePiece, h.list]

/-- Nothing is to be done if the priority is what it was. -/
theorem same (h : Shift s s' p) (hl : s.Listed)
    (he : s.dirty = false → s'.priority p = s.priority p) : s'.Listed := by
  refine ⟨h.sane, fun hd => ?_⟩
  rw [h.dirty] at hd
  have hprio : s'.priority = s.priority := by
    funext y
    by_cases hy : y = p
    · rw [hy, he hd]
    · exact h.others y hy
  rw [hprio, h.list]
  exact hl.sorted hd

theorem add (h : Shift s s' p) (hl : s.Listed) (hd : s.dirty = false) (hprev : s.priority p < 0)
    (hnew : 0 ≤ s'.priority p) :
    (s'.add p).Listed ∧ ∀ y, (s'.add p).havePiece y ↔ s'.havePiece y := by
  have hsort := hl.sorted hd
  have hlt : p < s'.list.index.length := by
    rw [h.sane.index_length]
    exact lt_of_priority hnew
  have hnot : ¬ s'.havePiece p := by
    intro hc
    have := h.sane.priority_neg_iff.mpr (.inr (.inl hc))
    omega
  rw [PiecePicker.add]
  dsimp only
  rw [if_neg (by omega)]
  rw [← h.list] at hsort
  have hq : s'.priority p = ((s'.priority p).toNat : ℤ) := (Int.toNat_of_nonneg hnew).symm
  refine relist h.sane _ (by simp) ?_ fun _ => ?_
  · exact hsort.insert_markEq _ hlt hprev h.others hq hnot
  · exact hsort.insert _ hlt hprev h.others hq

theorem update (h : Shift s s' p) (hl : s.Listed) (hd : s.dirty = false)
    (hprev : 0 ≤ s.priority p) :
    (s'.update (s.priority p) (s'.list.idx p)).Listed ∧
      ∀ y, (s'.update (s.priority p) (s'.list.idx p)).havePiece y ↔ s'.havePiece y := by
  have hsort := hl.sorted hd
  have hlt : p < s.list.index.length := by
    rw [hl.index_length]
    exact lt_of_priority hprev
  obtain ⟨k, q, hk, hitem, hidx, hq, hkey, hlo, hhi⟩ := hsort.locate hlt hprev
  rw [← h.list] at hsort hk hitem hidx hq hlo hhi
  have hothers : ∀ y, y ≠ s'.list.item k → s'.priority y = s.priority y := by
    rw [hitem]
    exact h.others
  rw [PiecePicker.update]
  dsimp only
  rw [hidx, hkey, Int.toNat_natCast, Int.toNat_natCast]
  refine relist h.sane _ (by simp) ?_ fun _ => ?_
  · exact hsort.update_markEq _ hq hlo hhi hothers
  · exact hsort.update _ hq hlo hhi hothers

/-- Telling the list of any change. -/
theorem reposition (h : Shift s s' p) (hl : s.Listed) :
    (s'.reposition (s.priority p) p).Listed ∧
      ∀ y, (s'.reposition (s.priority p) p).havePiece y ↔ s'.havePiece y := by
  rw [PiecePicker.reposition]
  split_ifs with hno hadd
  · refine ⟨h.same hl fun hd => ?_, fun _ => Iff.rfl⟩
    exact hno.resolve_left (by rw [h.dirty, hd]; decide)
  · rw [not_or, Bool.not_eq_true, h.dirty] at hno
    refine h.add hl hno.1 (by omega) ?_
    exact (h.sane.priority_or p).resolve_left fun hc => hno.2 (by rw [hc, hadd])
  · rw [not_or, Bool.not_eq_true, h.dirty] at hno
    exact h.update hl hno.1 ((hl.priority_or p).resolve_left hadd)

/-- Telling the list of a change that does not make the piece pickable. -/
theorem updateFrom (h : Shift s s' p) (hl : s.Listed)
    (hstay : s.priority p < 0 → s'.priority p < 0) :
    (s'.updateFrom (s.priority p) p).Listed ∧
      ∀ y, (s'.updateFrom (s.priority p) p).havePiece y ↔ s'.havePiece y := by
  rw [PiecePicker.updateFrom]
  split_ifs with hup
  · exact h.update hl (by rw [← h.dirty]; exact hup.2) hup.1
  · refine ⟨h.same hl fun hd => ?_, fun _ => Iff.rfl⟩
    have hneg : s.priority p < 0 := by
      by_contra hc
      exact hup ⟨by omega, by rw [h.dirty, hd]⟩
    have h₁ := hl.priority_or p
    have h₂ := h.sane.priority_or p
    have h₃ := hstay hneg
    omega

end Shift

/-! ## Steps on the core -/

section Rest
variable (s : PiecePicker) (p : ℕ) (prev : ℤ)

/-- The list moves, and nothing else but the random numbers. -/
theorem reposition_rest : ∃ l rng, s.reposition prev p = { s with list := l, rng := rng } := by
  rw [reposition, add, update]
  split_ifs
  · exact ⟨s.list, s.rng, rfl⟩
  · exact ⟨s.list, s.rng, rfl⟩
  · exact ⟨_, _, rfl⟩
  · exact ⟨_, _, rfl⟩

theorem updateFrom_rest : ∃ l rng, s.updateFrom prev p = { s with list := l, rng := rng } := by
  rw [updateFrom, update]
  split_ifs
  · exact ⟨_, _, rfl⟩
  · exact ⟨s.list, s.rng, rfl⟩

end Rest

/-- A change of the core that leaves the pieces alone, and of the count of passed ones. -/
theorem keeps_counted {c : PickerCore} {n : ℤ} (hm : c.pieceMap = s.pieceMap)
    (hz : SameSizes s.toPickerCore c) (hp : n - c.downloads.passed = s.surplus) :
    Keeps 0 s { s with toPickerCore := c, numPassed := n } := by
  set t : PiecePicker := { s with toPickerCore := c, numPassed := n } with ht
  have hpos : ∀ y, t.pos y = s.pos y := by
    intro y
    rw [PickerCore.pos, PickerCore.pos, ht, hm]
  have hn : t.numPieces = s.numPieces := by
    rw [PickerCore.numPieces, PickerCore.numPieces, ht, hm]
  have hprio : t.priority = s.priority := by
    funext y
    exact congrArg (PiecePos.priority · (decide (s.havePiece y)) s.seeds) (hpos y)
  refine ⟨⟨hz, hn, fun y => congrArg PiecePos.peerCount (hpos y), rfl⟩,
    ⟨fun y => congrArg PiecePos.piecePriority (hpos y), rfl, rfl, rfl, rfl, rfl⟩, ?_, ?_⟩
  · rw [Int.add_zero]
    exact hp
  · intro hl
    refine ⟨⟨⟨hl.index_length.trans hn.symm, fun y => ?_, hl.seeds, fun y => ?_, fun y hy => ?_⟩,
      fun hd => ?_⟩, fun _ => Iff.rfl⟩
    · rw [hpos]
      exact hl.peers y
    · rw [hpos]
      exact hl.prio y
    · rw [PickerCore.state, hpos]
      exact hl.have_open y hy
    · rw [hprio]
      exact hl.sorted hd

theorem keeps_same {c : PickerCore} (hm : c.pieceMap = s.pieceMap)
    (hz : SameSizes s.toPickerCore c) (hp : c.downloads.passed = s.downloads.passed) :
    Keeps 0 s (s.withCore c) :=
  keeps_counted hm hz (by rw [surplus, hp])

section State
variable {c : PickerCore} (hm : c.pieceMap = (s.toPickerCore.setState p st).pieceMap)
include hm

theorem pos_of_setState (y : ℕ) : c.pos y = if y = p ∧ p < s.numPieces then
    { s.pos p with downloadState := st } else s.pos y := by
  rw [PickerCore.pos, hm]
  exact s.toPickerCore.modifyPos_pos p y _

/-- The piece `p` gets the state `st`, and the list is yet to be told. -/
theorem shift_setState (hs : s.Sane) (hst : s.havePiece p → st = .pieceOpen) :
    Shift s (s.withCore c) p := by
  have hpos := pos_of_setState hm
  have hn : c.numPieces = s.numPieces := by
    rw [PickerCore.numPieces, hm]
    exact s.toPickerCore.setState_numPieces p st
  refine ⟨rfl, rfl, fun y hy => ?_, ⟨hs.index_length.trans hn.symm, fun y => ?_, hs.seeds,
    fun y => ?_, fun y hy => ?_⟩⟩
  · have := hpos y
    rw [if_neg (fun hc => hy hc.1)] at this
    exact congrArg (PiecePos.priority · (decide (s.havePiece y)) s.seeds) this
  · rw [withCore_core, hpos]
    split_ifs
    · exact hs.peers p
    · exact hs.peers y
  · rw [withCore_core, hpos]
    split_ifs
    · exact hs.prio p
    · exact hs.prio y
  · rw [withCore_core, PickerCore.state, hpos]
    split_ifs with hyp
    · rw [hyp.1] at hy
      exact hst hy
    · exact hs.have_open y hy

theorem samePeers_setState (hz : SameSizes s.toPickerCore c) : SamePeers s (s.withCore c) := by
  have hpos := pos_of_setState hm
  refine ⟨hz, ?_, fun y => ?_, rfl⟩
  · rw [withCore_core, PickerCore.numPieces, hm]
    exact s.toPickerCore.setState_numPieces p st
  · rw [withCore_core, hpos]
    split_ifs with hyp
    · rw [hyp.1]
    · rfl

theorem sameWants_setState : SameWants s (s.withCore c) := by
  have hpos := pos_of_setState hm
  refine ⟨fun y => ?_, rfl, rfl, rfl, rfl, rfl⟩
  rw [withCore_core, hpos]
  split_ifs with hyp
  · rw [hyp.1]
  · rfl

/-- The piece `p` gets the state `st`, and the list is told. -/
theorem keeps_reposition {n : ℕ} (hz : SameSizes s.toPickerCore c)
    (hp : c.downloads.passed + n = s.downloads.passed)
    (hst : s.havePiece p → s.state p = .pieceOpen → st = .pieceOpen) :
    Keeps n s ((s.withCore c).reposition (s.priority p) p) := by
  obtain ⟨l, rng, hr⟩ := (s.withCore c).reposition_rest p (s.priority p)
  refine ⟨?_, ?_, ?_, fun hl => ?_⟩
  · rw [hr]
    exact (samePeers_setState hm hz).trans ⟨⟨rfl, rfl⟩, rfl, fun _ => rfl, rfl⟩
  · rw [hr]
    exact (sameWants_setState hm).trans ⟨fun _ => rfl, rfl, rfl, rfl, rfl, rfl⟩
  · rw [hr, surplus, surplus, ← hp]
    simp only [withCore]
    omega
  · have hsh := shift_setState hm hl.toSane fun hh => hst hh (hl.have_open p hh)
    obtain ⟨h₁, h₂⟩ := hsh.reposition hl
    exact ⟨h₁, fun y => (h₂ y).trans (hsh.have_iff y)⟩

/-- The same for a state that does not make the piece pickable. -/
theorem keeps_updateFrom (hz : SameSizes s.toPickerCore c)
    (hp : c.downloads.passed = s.downloads.passed)
    (hst : s.Listed → ¬ s.havePiece p)
    (hstay : s.Listed → s.priority p < 0 → (s.withCore c).priority p < 0) :
    Keeps 0 s ((s.withCore c).updateFrom (s.priority p) p) := by
  obtain ⟨l, rng, hr⟩ := (s.withCore c).updateFrom_rest p (s.priority p)
  refine ⟨?_, ?_, ?_, fun hl => ?_⟩
  · rw [hr]
    exact (samePeers_setState hm hz).trans ⟨⟨rfl, rfl⟩, rfl, fun _ => rfl, rfl⟩
  · rw [hr]
    exact (sameWants_setState hm).trans ⟨fun _ => rfl, rfl, rfl, rfl, rfl, rfl⟩
  · rw [hr, surplus, surplus, ← hp]
    simp only [withCore, Int.add_zero]
  · have hsh := shift_setState hm hl.toSane fun hh => absurd hh (hst hl)
    obtain ⟨h₁, h₂⟩ := hsh.updateFrom hl (hstay hl)
    exact ⟨h₁, fun y => (h₂ y).trans (hsh.have_iff y)⟩

end State

end PiecePicker

end LibtorrentSN
