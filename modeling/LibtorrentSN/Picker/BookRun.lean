import LibtorrentSN.Picker.Bookkeeping

/-!
# The piece picker: the bookkeeping in every run

Every operation keeps the bookkeeping in order, and so every reachable state has it.
-/

namespace LibtorrentSN

namespace PickerCore

variable {c c' : PickerCore} {lax : Prop} {p y b : ℕ} {dp dp' : DownloadingPiece}
  {st : DownloadState}

/-! ## Steps on the core -/

/-- A piece is open again without busy blocks. -/
theorem newState_eq_open (h : c.newState dp = .pieceOpen) :
    ¬ c.filtered dp.index ∧ dp.busy = 0 ∧ dp.hashing = false := by
  have hbusy : dp.requested + dp.finished + dp.writing = dp.busy := rfl
  rw [newState, hbusy] at h
  split_ifs at h with h₁ h₂
  exact ⟨h₁, h₂.1, h₂.2⟩

/-- A piece with a busy block is never left in a wrong bucket. -/
theorem BookBut.recategorize_busy (h : c.BookBut lax p)
    (hbusy : ∀ dp, c.findDlPiece p = some dp → 0 < dp.busy) : (c.recategorize p).Book lax := by
  refine h.recategorize fun dp hdp ho => ?_
  have := hbusy dp hdp
  have := (newState_eq_open ho).2.1
  omega

section Touch
variable {f : BlockInfo → BlockInfo} {g : DownloadingPiece → DownloadingPiece}

/-- A block changes, and its piece gets its bucket. -/
theorem BookBut.touch_recategorize (h : c.BookBut lax p) (hdp : c.findDlPiece p = some dp)
    (hb : b < c.blocksInPiece p) (hfol : Follows lax (c.block dp b) dp f g)
    (hbusy : 0 < (g dp).busy) : ((c.touch dp b f g).recategorize p).Book lax := by
  refine (h.touch hdp hb hfol).recategorize_busy fun x hx => ?_
  rw [h.find_touch hdp hfol, if_pos rfl] at hx
  rwa [← Option.some.inj hx]

/-- To change nothing. -/
theorem modifyDl_id : c.modifyDl p id = c := by
  have h : ∀ l, SortedVector.modify DownloadingPiece.index l p id = l := by
    intro l
    simp [SortedVector.modify]
  rw [modifyDl]
  rcases c.downloadQueue p with - | q
  · rfl
  · cases q <;> simp only [Downloads.on, Downloads.set, Downloads.get, h]

/-- Changing a block without changing its state. -/
theorem Book.modifyBlock (h : c.Book lax) (hdp : c.findDlPiece p = some dp)
    (hb : b < c.blocksInPiece p) (hstate : (f (c.block dp b)).state = (c.block dp b).state)
    (hpeers : 0 < (f (c.block dp b)).numPeers → (c.block dp b).state = .requested)
    (hasked : (c.block dp b).state = .requested → lax ∨ 0 < (f (c.block dp b)).numPeers) :
    (c.modifyBlock dp b f).Book lax := by
  have hfol : Follows lax (c.block dp b) dp f id :=
    ⟨fun _ => rfl, fun _ => rfl, by simp [hstate], by simp [hstate], by simp [hstate],
      fun hp => by rw [hstate]; exact hpeers hp, fun hs => hasked (by rwa [hstate] at hs)⟩
  have heq : c.touch dp b f id = c.modifyBlock dp b f := modifyDl_id
  have hbut := (h.but p).touch hdp hb hfol
  rw [heq] at hbut
  refine hbut.book fun x hx => ?_
  obtain ⟨h₁, h₂, h₃, h₄, h₅⟩ := h.category p x hx
  exact ⟨h₁, h₂, h₃, h₄, h₅⟩

/-- Changing flags of a partial piece. -/
theorem Book.modifyDl (h : c.Book lax) (hi : ∀ dp, (g dp).index = dp.index)
    (hx : ∀ dp, (g dp).infoIdx = dp.infoIdx) (hr : ∀ dp, (g dp).requested = dp.requested)
    (hw : ∀ dp, (g dp).writing = dp.writing) (hf : ∀ dp, (g dp).finished = dp.finished) :
    (c.modifyDl p g).Book lax := by
  have hfind := h.buckets.find_modifyDl (p := p) hi
  have hrec : ∀ y x, (c.modifyDl p g).findDlPiece y = some x →
      ∃ x₀, c.findDlPiece y = some x₀ ∧ (x = x₀ ∨ x = g x₀) := by
    intro y x hy
    rw [hfind] at hy
    split_ifs at hy
    · obtain ⟨x₀, h₀, rfl⟩ := Option.map_eq_some_iff.mp hy
      exact ⟨x₀, h₀, .inr rfl⟩
    · exact ⟨x, hy, .inl rfl⟩
  refine ⟨⟨h.last_pos, h.last_le, h.buckets.modifyDl hi, h.slots.modifyDl hx, ?_⟩, ?_⟩
  · intro y x hy
    obtain ⟨x₀, h₀, rfl | rfl⟩ := hrec y x hy
    · obtain ⟨h₁, h₂, h₃, h₄, h₅⟩ := h.counts y x h₀
      exact ⟨h₁, h₂, h₃, h₄, h₅⟩
    · obtain ⟨h₁, h₂, h₃, h₄, h₅⟩ := h.counts y x₀ h₀
      have hbl : (c.modifyDl p g).blocksForPiece (g x₀) = c.blocksForPiece x₀ := by
        rw [blocksForPiece, blocksForPiece, hx, hi]
        rfl
      exact ⟨by rw [hr, hbl]; exact h₁, by rw [hw, hbl]; exact h₂, by rw [hf, hbl]; exact h₃,
        by rw [hbl]; exact h₄, by rw [hbl]; exact h₅⟩
  · intro y x hy
    obtain ⟨x₀, h₀, rfl | rfl⟩ := hrec y x hy
    · obtain ⟨h₁, h₂, h₃, h₄, h₅⟩ := h.category y x h₀
      exact ⟨h₁, h₂, h₃, h₄, h₅⟩
    · obtain ⟨h₁, h₂, h₃, h₄, h₅⟩ := h.category y x₀ h₀
      have hbusy : (g x₀).busy = x₀.busy := by
        rw [DownloadingPiece.busy, DownloadingPiece.busy, hr, hw, hf]
      constructor <;> simp only [hi, hbusy, hr] <;> assumption

end Touch

/-- The state of a piece changes within its bucket. -/
theorem sameBook_setState (hq : st.downloadQueue = c.downloadQueue p) :
    SameBook c (c.setState p st) := by
  refine ⟨rfl, rfl, rfl, rfl, rfl, c.setState_numPieces p st, fun y => ?_⟩
  rw [setState_downloadQueue, hq]
  split_ifs with h
  · rw [h.1]
  · rfl

/-- A reverse piece is in the same bucket. -/
theorem makeReverse_queue (st : DownloadState) :
    st.makeReverse.downloadQueue = st.downloadQueue := by cases st <;> rfl

/-- So is one that is reverse no more. -/
theorem unreverse_queue (st : DownloadState) :
    st.unreverse.downloadQueue = st.downloadQueue := by cases st <;> rfl

/-- A block of the slot. -/
theorem Ledger.block_mem (h : c.Ledger lax) (hdp : c.findDlPiece p = some dp)
    (hb : b < c.blocksInPiece p) : c.block dp b ∈ c.blocksForPiece dp := by
  have hlt : b < (c.blocksForPiece dp).length := by
    rw [h.length hdp]
    exact hb
  rw [block, List.getD_eq_getElem _ _ hlt]
  exact List.getElem_mem hlt

/-- A block of a piece with no requested block is not requested, and so on. -/
theorem Ledger.block_ne (h : c.Ledger lax) (hdp : c.findDlPiece p = some dp)
    (hb : b < c.blocksInPiece p) :
    (dp.requested = 0 → (c.block dp b).state ≠ .requested) ∧
    (dp.writing = 0 → (c.block dp b).state ≠ .writing) ∧
    (dp.finished = 0 → (c.block dp b).state ≠ .finished) := by
  have hmem := h.block_mem hdp hb
  have hc := h.counts p dp hdp
  refine ⟨?_, ?_, ?_⟩ <;> intro h0 hs
  · have := tally_pos.mpr ⟨_, hmem, hs⟩
    have := hc.requested
    omega
  · have := tally_pos.mpr ⟨_, hmem, hs⟩
    have := hc.writing
    omega
  · have := tally_pos.mpr ⟨_, hmem, hs⟩
    have := hc.finished
    omega

/-- A block with peers is requested. -/
theorem Ledger.block_peers (h : c.Ledger lax) (hdp : c.findDlPiece p = some dp)
    (hb : b < c.blocksInPiece p) :
    0 < (c.block dp b).numPeers → (c.block dp b).state = .requested :=
  (h.counts p dp hdp).peers _ (h.block_mem hdp hb)

/-- A requested block has peers. -/
theorem Ledger.block_asked (h : c.Ledger lax) (hdp : c.findDlPiece p = some dp)
    (hb : b < c.blocksInPiece p) :
    (c.block dp b).state = .requested → lax ∨ 0 < (c.block dp b).numPeers :=
  (h.counts p dp hdp).asked _ (h.block_mem hdp hb)

/-- A core without partial pieces. -/
theorem book_of_empty (hlast : 0 < c.blocksInLastPiece)
    (hle : c.blocksInLastPiece ≤ c.blocksPerPiece) (hd : c.downloads = .empty)
    (hb : c.blockInfo = []) (hf : c.freeBlockInfos = [])
    (hs : ∀ y, c.state y = .pieceOpen) : c.Book lax := by
  have hfind : ∀ y, c.findDlPiece y = none := by
    intro y
    rw [findDlPiece, downloadQueue, hs]
    rfl
  have hq : ∀ y, c.downloadQueue y = none := fun y => by
    rw [downloadQueue, hs]
    rfl
  refine ⟨⟨hlast, hle, ⟨?_, ?_, ?_⟩, ⟨?_, ?_, ?_⟩, ?_⟩, ?_⟩
  · intro j
    rw [hd, Downloads.get_empty]
    exact List.Pairwise.nil
  · intro j dp hm
    rw [hd, Downloads.get_empty] at hm
    exact absurd hm List.not_mem_nil
  · intro y j hy
    rw [hq] at hy
    cases hy
  · rw [hd, hf, hb]
    exact List.Perm.refl _
  · rw [hb]
    exact fun sl hsl => absurd hsl List.not_mem_nil
  · rw [hb]
    decide
  · intro y dp hdp
    rw [hfind] at hdp
    cases hdp
  · intro y dp hdp
    rw [hfind] at hdp
    cases hdp

end PickerCore

namespace PiecePicker

open PickerCore

variable {s s' : PiecePicker} {lax : Prop} {p y b : ℕ} {dp : DownloadingPiece} {peer : Option ℕ}

/-! ## Availability -/

/-- Two states whose pieces differ in their peer counts at most. -/
def PeersOnly (s s' : PiecePicker) : Prop :=
  SameBook s.toPickerCore s'.toPickerCore ∧ ∀ y, s'.filtered y ↔ s.filtered y

theorem PeersOnly.refl (s : PiecePicker) : PeersOnly s s :=
  ⟨⟨rfl, rfl, rfl, rfl, rfl, rfl, fun _ => rfl⟩, fun _ => Iff.rfl⟩

/-- No partial piece has changed. -/
theorem PeersOnly.of_core (h : s'.toPickerCore = s.toPickerCore) : PeersOnly s s' := by
  rw [PeersOnly, h]
  exact PeersOnly.refl s

/-- One step after the other. -/
theorem PeersOnly.trans {s₁ s₂ s₃ : PiecePicker} (h : PeersOnly s₁ s₂) (h' : PeersOnly s₂ s₃) :
    PeersOnly s₁ s₃ := by
  obtain ⟨⟨a₁, a₂, a₃, a₄, a₅, a₆, a₇⟩, a₈⟩ := h
  obtain ⟨⟨b₁, b₂, b₃, b₄, b₅, b₆, b₇⟩, b₈⟩ := h'
  exact ⟨⟨b₁.trans a₁, b₂.trans a₂, b₃.trans a₃, b₄.trans a₄, b₅.trans a₅, b₆.trans a₆,
    fun y => (b₇ y).trans (a₇ y)⟩, fun y => (b₈ y).trans (a₈ y)⟩

/-- The book has nothing to do with peers. -/
theorem PeersOnly.book (h : PeersOnly s s') (hb : s.Book lax) : s'.Book lax := h.1.book h.2 hb

/-- A loop over pieces. -/
theorem PeersOnly.foldl {f : PiecePicker → ℕ → PiecePicker} (hf : ∀ s p, PeersOnly s (f s p))
    (l : List ℕ) (s : PiecePicker) : PeersOnly s (l.foldl f s) := by
  induction l generalizing s with
  | nil => exact .refl s
  | cons p l ih => exact (hf s p).trans (ih _)

/-- Peers come or leave. -/
theorem peersOnly_addPeers (s : PiecePicker) (p : ℕ) (n : ℤ) : PeersOnly s (s.addPeers p n) := by
  have hpos : ∀ y, ((s.addPeers p n).pos y).downloadState = (s.pos y).downloadState ∧
      ((s.addPeers p n).pos y).piecePriority = (s.pos y).piecePriority := by
    intro y
    simp only [addPeers, withCore_core, modifyPos_pos]
    split_ifs with h
    · rw [h.1]
      exact ⟨rfl, rfl⟩
    · exact ⟨rfl, rfl⟩
  refine ⟨⟨rfl, rfl, rfl, rfl, rfl, s.modifyPos_numPieces p _, fun y => ?_⟩, fun y => ?_⟩
  · rw [downloadQueue, downloadQueue, state, state, (hpos y).1]
  · rw [filtered, filtered, PiecePos.filtered, PiecePos.filtered, (hpos y).2]

/-- Counting all pieces up or down. -/
theorem peersOnly_map (s : PiecePicker) (n : ℤ) (seeds : ℤ) (dirty : Bool) : PeersOnly s
    { s with
      pieceMap := s.pieceMap.map fun pos => { pos with peerCount := pos.peerCount + n }
      seeds := seeds
      dirty := dirty } := by
  set s' : PiecePicker := { s with
      pieceMap := s.pieceMap.map fun pos => { pos with peerCount := pos.peerCount + n }
      seeds := seeds
      dirty := dirty } with hs'
  have hpos : ∀ y, (s'.pos y).downloadState = (s.pos y).downloadState ∧
      (s'.pos y).piecePriority = (s.pos y).piecePriority := by
    intro y
    simp only [hs', pos, List.getD_eq_getElem?_getD, List.getElem?_map]
    rcases s.pieceMap[y]? with - | x
    · exact ⟨rfl, rfl⟩
    · exact ⟨rfl, rfl⟩
  refine ⟨⟨rfl, rfl, rfl, rfl, rfl, by simp [hs', numPieces], fun y => ?_⟩, fun y => ?_⟩
  · rw [downloadQueue, downloadQueue, state, state, (hpos y).1]
  · rw [filtered, filtered, PiecePos.filtered, PiecePos.filtered, (hpos y).2]

/-- A seed leaves. -/
theorem peersOnly_decRefcountAll (s : PiecePicker) : PeersOnly s s.decRefcountAll := by
  rw [decRefcountAll]
  split_ifs
  · exact .refl s
  · exact peersOnly_map s (-1) s.seeds true

/-- A seed is broken up. -/
theorem peersOnly_breakFor (s : PiecePicker) (p : ℕ) : PeersOnly s (s.breakFor p) := by
  rw [breakFor]
  split_ifs
  · exact peersOnly_map s 1 (s.seeds - 1) true
  · exact .refl s

/-- A peer of a piece comes. -/
theorem peersOnly_incRefcount (s : PiecePicker) (p : ℕ) : PeersOnly s (s.incRefcount p) :=
  (peersOnly_addPeers s p 1).trans (.of_core (reposition_core _ _ _))

/-- It leaves. -/
theorem peersOnly_decRefcount (s : PiecePicker) (p : ℕ) : PeersOnly s (s.decRefcount p) :=
  (peersOnly_breakFor s p).trans
    ((peersOnly_addPeers _ p (-1)).trans (.of_core (updateFrom_core _ _ _)))

/-- The same in the loop. -/
theorem peersOnly_decOne (s : PiecePicker) (p : ℕ) : PeersOnly s (s.decOne p) :=
  (peersOnly_breakFor s p).trans
    ((peersOnly_addPeers _ p (-1)).trans (.of_core (updateFrom_core _ _ _)))

/-- A peer with some pieces comes. -/
theorem peersOnly_incRefcountBitmask (s : PiecePicker) (bitmask : List Bool) :
    PeersOnly s (s.incRefcountBitmask bitmask) := by
  simp only [incRefcountBitmask]
  split_ifs
  · exact .refl s
  · exact .refl s
  · exact PeersOnly.foldl peersOnly_incRefcount _ s
  · exact (PeersOnly.foldl (fun s p => peersOnly_addPeers s p 1) _ s).trans (.refl _)

/-- It leaves. -/
theorem peersOnly_decRefcountBitmask (s : PiecePicker) (bitmask : List Bool) :
    PeersOnly s (s.decRefcountBitmask bitmask) := by
  simp only [decRefcountBitmask]
  split_ifs
  · exact .refl s
  · exact peersOnly_decRefcountAll s
  · exact PeersOnly.foldl peersOnly_decOne _ s
  · exact (PeersOnly.foldl
      (fun s p => (peersOnly_breakFor s p).trans (peersOnly_addPeers _ p (-1))) _ s).trans (.refl _)

/-! ## Pieces -/

/-- An entry is removed. -/
theorem dropPassed_book (h : s.Book lax) (p : ℕ) : (s.dropPassed p).Book lax := by
  rw [dropPassed]
  rcases hdp : s.findDlPiece p with - | dp
  · exact h
  · exact (h.but p).eraseDl hdp

/-- A piece that we have is not partial. -/
theorem weHave_core (s : PiecePicker) (p : ℕ) : (s.weHave p).toPickerCore =
    if s.havePiece p then s.toPickerCore else (s.dropPassed p).toPickerCore := by
  simp only [weHave]
  split_ifs <;> simp

/-- The books after `we_have`. -/
theorem weHave_book (h : s.Book lax) (p : ℕ) : (s.weHave p).Book lax := by
  rw [weHave_core]
  split_ifs
  · exact h
  · exact dropPassed_book h p

/-- The books after `we_dont_have`. -/
theorem weDontHave_book (h : s.Book lax) (p : ℕ) : (s.weDontHave p).Book lax := by
  rw [weDontHave]
  by_cases hp : s.havePiece p
  · rw [if_neg (not_not.mpr hp)]
    dsimp only
    split_ifs <;> simpa using h
  · rw [if_pos hp]
    exact dropPassed_book h p

/-- `we_have_all` and `resize` forget all partial pieces. -/
theorem state_of_map {pieceMap : List PiecePos} {f : PiecePos → PiecePos}
    (hf : ∀ pos, (f pos).downloadState = .pieceOpen)
    (hm : s.pieceMap = pieceMap.map f) (y : ℕ) : s.state y = .pieceOpen := by
  simp only [state, pos, hm, List.getD_eq_getElem?_getD, List.getElem?_map]
  rcases pieceMap[y]? with - | x
  · rfl
  · exact hf x

/-- The books after `we_have_all`. -/
theorem weHaveAll_book (h : s.Book lax) : s.weHaveAll.Book lax :=
  book_of_empty h.last_pos h.last_le rfl rfl rfl (state_of_map (fun _ => rfl) rfl)

/-- The books after `piece_passed`. -/
theorem piecePassed_book (h : s.Book lax) (p : ℕ) : (s.piecePassed p).Book lax := by
  have hm : (s.modifyDl p ({ · with passedHashCheck := true })).Book lax :=
    Book.modifyDl h (fun _ => rfl) (fun _ => rfl) (fun _ => rfl) (fun _ => rfl) fun _ => rfl
  rw [piecePassed]
  rcases s.findDlPiece p with - | dp
  · exact h
  · dsimp only
    split_ifs
    · exact h
    · exact hm
    · exact weHave_book (s := (s.modifyDl p _).addPassed 1) hm p

/-- A change of the priority of `p`, before its bucket is looked at. -/
theorem setPriority_sameBook (s : PiecePicker) (p n : ℕ) :
    SameBook s.toPickerCore (s.setPriority p n).toPickerCore := by
  refine ⟨rfl, rfl, rfl, rfl, rfl, s.modifyPos_numPieces p _, fun y => ?_⟩
  have hpos : (s.setPriority p n).pos y = if y = p ∧ p < s.numPieces then
      { s.pos p with piecePriority := n } else s.pos y := modifyPos_pos ..
  rw [downloadQueue, downloadQueue, state, state, hpos]
  split_ifs with hy
  · rw [hy.1]
  · rfl

/-- A new priority may ask for another bucket. -/
theorem setPriority_bookBut (h : s.Book lax) (p n : ℕ)
    (hstuck : lax ∨ (s.filtered p → n ≠ 0 → s.onPartial p fun dp =>
      ¬ (dp.busy = 0 ∧ dp.hashing = false))) : (s.setPriority p n).BookBut lax p ∧
    ∀ dp, (s.setPriority p n).findDlPiece p = some dp →
      (s.setPriority p n).newState dp = .pieceOpen → (s.setPriority p n).Category lax dp := by
  have hpos : ∀ y, (s.setPriority p n).pos y = if y = p ∧ p < s.numPieces then
      { s.pos p with piecePriority := n } else s.pos y := fun y => modifyPos_pos ..
  have hsb := setPriority_sameBook s p n
  refine ⟨hsb.bookBut (fun y hy => ?_) h, fun dp hdp ho => ?_⟩
  · rw [filtered, filtered, hpos, if_neg (fun hc => hy hc.1)]
  · obtain ⟨hnf, hz, hh⟩ := newState_eq_open ho
    rw [hsb.find] at hdp
    have hidx := h.buckets.find_index hdp
    obtain ⟨h₁, h₂, h₃, h₄, h₅⟩ := h.category p dp hdp
    constructor <;> simp only [hsb.queue, hsb.blocksInPiece]
    · exact fun hf => absurd hf hnf
    · intro hq _
      refine ⟨?_, hz⟩
      by_cases hfil : s.filtered p
      · refine hstuck.resolve_right fun hc => ?_
        have hlt := lt_of_downloading (h.buckets.downloading_of_find hdp)
        have hn : n ≠ 0 := by
          rintro rfl
          rw [hidx, filtered, hpos, if_pos ⟨rfl, hlt⟩] at hnf
          exact hnf rfl
        have := hc hfil hn
        rw [onPartial, hdp] at this
        exact this ⟨hz, hh⟩
      · exact (h₂ hq (by rwa [hidx])).1
    · exact h₃
    · exact h₄
    · exact h₅

/-- And then the piece gets it. -/
theorem setPiecePriority_core (s : PiecePicker) (p n : ℕ) :
    (s.setPiecePriority p n).2.toPickerCore =
      if n = (s.pos p).piecePriority then s.toPickerCore
      else if (s.setPriority p n).downloading p then
        (s.setPriority p n).toPickerCore.recategorize p
      else (s.setPriority p n).toPickerCore := by
  have hcore : ((s.countPriority p n).2.setPriority p n).toPickerCore =
      (s.setPriority p n).toPickerCore := by
    simp only [setPriority, countPriority_core, withCore_core]
  rw [setPiecePriority]
  by_cases hsame : n = (s.pos p).piecePriority
  · rw [if_pos hsame, if_pos hsame]
  · rw [if_neg hsame, if_neg hsame]
    dsimp only
    rw [reposition_core, hcore]
    split_ifs
    · rw [updatePieceState_core, reposition_core, hcore]
    · rw [reposition_core, hcore]

/-- The books after `set_piece_priority`. -/
theorem setPiecePriority_book (h : s.Book lax) (p n : ℕ)
    (hstuck : lax ∨ (s.filtered p → n ≠ 0 → s.onPartial p fun dp =>
      ¬ (dp.busy = 0 ∧ dp.hashing = false))) : (s.setPiecePriority p n).2.Book lax := by
  obtain ⟨hbut, hfix⟩ := setPriority_bookBut h p n hstuck
  rw [setPiecePriority_core]
  split_ifs with h₁ h₂
  · exact h
  · exact hbut.recategorize hfix
  · exact hbut.book fun dp hdp => absurd (hbut.buckets.downloading_of_find hdp) h₂

/-! ## Blocks -/

/-- A piece is started. -/
theorem beginDownload_book (h : s.Book lax) {st : DownloadState}
    (hst : st.downloadQueue = some .pieceDownloading) (hlt : p < s.numPieces)
    (ho : s.downloadQueue p = none) (hroom : s.hasSlot) (affinity : Bool) :
    (s.beginDownload p st affinity).Book lax := by
  rw [beginDownload_core]
  exact h.startDl_recategorize hst hlt (DownloadState.downloadQueue_eq_none.mp ho) hroom

/-- The piece that was just begun has no requested and no writing block. -/
theorem beginDownload_find (h : s.Book lax) {st : DownloadState}
    (hst : st.downloadQueue = some .pieceDownloading) (hlt : p < s.numPieces)
    (ho : s.downloadQueue p = none) (hroom : s.hasSlot) (affinity : Bool)
    (hdp : (s.beginDownload p st affinity).findDlPiece p = some dp) :
    dp.requested = 0 ∧ dp.writing = 0 ∧ dp.passedHashCheck = false := by
  have hopen := DownloadState.downloadQueue_eq_none.mp ho
  rw [beginDownload_core, (h.startDl hst hlt hopen hroom).find_recategorize,
    h.buckets.find_startDl hst hlt hopen, if_pos rfl] at hdp
  rw [← Option.some.inj hdp]
  exact ⟨rfl, rfl, rfl⟩

/-- It has the blocks it had. -/
theorem beginDownload_blocksInPiece (s : PiecePicker) (p : ℕ) (st : DownloadState)
    (affinity : Bool) (y : ℕ) :
    (s.beginDownload p st affinity).blocksInPiece y = s.blocksInPiece y := by
  rw [beginDownload_core, recategorize_blocksInPiece, startDl_blocksInPiece]

/-- A block and its entry change. -/
theorem touch_core {f : BlockInfo → BlockInfo} {g : DownloadingPiece → DownloadingPiece}
    (hidx : dp.index = p) : ((s.modifyBlock dp b f).modifyDl p g).toPickerCore =
      s.toPickerCore.touch dp b f g := by
  subst hidx
  rfl

/-- Mark a block of a piece and put the piece where it belongs. -/
theorem mark_book (h : s.Book lax) (hdp : s.findDlPiece p = some dp) (hb : b < s.blocksInPiece p)
    {f : BlockInfo → BlockInfo} {g : DownloadingPiece → DownloadingPiece}
    (hfol : Follows lax (s.block dp b) dp f g) (hbusy : 0 < (g dp).busy) :
    (((s.modifyBlock dp b f).modifyDl p g).updatePieceState p).Book lax := by
  rw [updatePieceState_core, touch_core (h.buckets.find_index hdp)]
  exact (h.but p).touch_recategorize hdp hb hfol hbusy

/-- In a piece that was just begun, a block that is not padding is free. -/
theorem block_eq_none (h : s.Book lax) (hdp : s.findDlPiece p = some dp)
    (hb : b < s.blocksInPiece p) (hr : dp.requested = 0) (hw : dp.writing = 0)
    (hf : (s.block dp b).state ≠ .finished) : (s.block dp b).state = .none := by
  obtain ⟨h₁, h₂, -⟩ := h.block_ne hdp hb
  have := h₁ hr
  have := h₂ hw
  rcases hs : (s.block dp b).state <;> simp_all

/-- Another state of the same bucket. -/
theorem sameBook_setState' (p : ℕ) {st : DownloadState}
    (hq : st.downloadQueue = s.downloadQueue p) (hb : s.Book lax) : (s.setState p st).Book lax :=
  (sameBook_setState hq).book (fun y => s.toPickerCore.setState_filtered p y st) hb

/-- Making a piece a reverse one changes no block and no bucket. -/
theorem makeReverse_book (h : s.Book lax) (hdp : s.findDlPiece p = some dp)
    (hb : b < s.blocksInPiece p) (reverse : Bool) :
    (s.makeReverse p dp reverse).Book lax ∧ (s.makeReverse p dp reverse).findDlPiece p = some dp ∧
      b < (s.makeReverse p dp reverse).blocksInPiece p ∧
      (s.makeReverse p dp reverse).block dp b = s.block dp b := by
  rw [makeReverse]
  split_ifs
  · have hsb : SameBook s.toPickerCore (s.setState p (s.state p).makeReverse).toPickerCore :=
      sameBook_setState (makeReverse_queue _)
    rw [updateFrom_core]
    refine ⟨sameBook_setState' p (makeReverse_queue _) h, ?_, ?_, ?_⟩
    · rw [hsb.find, hdp]
    · rwa [hsb.blocksInPiece]
    · rw [block, block, hsb.blocksForPiece]
  · exact ⟨h, hdp, hb, rfl⟩

/-- A piece is reverse no more. -/
theorem unreverse_book (h : s.Book lax) (p : ℕ) (reverse : Bool) : (s.unreverse p reverse).Book lax := by
  rw [unreverse]
  split_ifs
  · rw [updateFrom_core]
    exact sameBook_setState' p (unreverse_queue _) h
  · exact h

/-- Looking for the bucket of a piece does not read its blocks. -/
theorem recategorize_modifyBlock (c : PickerCore) (f : BlockInfo → BlockInfo) :
    (c.recategorize p).modifyBlock dp b f = (c.modifyBlock dp b f).recategorize p := by
  have hf : (c.modifyBlock dp b f).findDlPiece p = c.findDlPiece p := rfl
  rw [PickerCore.recategorize, PickerCore.recategorize, hf]
  rcases c.findDlPiece p with - | x
  · rfl
  · dsimp only
    have hn : (c.modifyBlock dp b f).newState x = c.newState x := rfl
    have hs : (c.modifyBlock dp b f).state p = c.state p := rfl
    rw [hn, hs]
    split_ifs <;> rfl

/-- A block changes twice. -/
theorem modifyBlock_modifyBlock (c : PickerCore) (f g : BlockInfo → BlockInfo) :
    (c.modifyBlock dp b f).modifyBlock dp b g = c.modifyBlock dp b (g ∘ f) := by
  simp only [PickerCore.modifyBlock, List.modify_modify_eq, Function.comp_def]

/-- A request, and the count of its peers. -/
theorem requestBlock_core (hidx : dp.index = p)
    (f : BlockInfo → BlockInfo) :
    ((s.requestBlock p b dp peer).modifyBlock dp b f).toPickerCore =
      if (s.block dp b).state = .requested then
        s.toPickerCore.modifyBlock dp b (f ∘ fun i => { i with peer := peer })
      else (s.toPickerCore.touch dp b (f ∘ fun i => { i with peer := peer, state := .requested })
        fun dp => { dp with requested := dp.requested + 1 }).recategorize p := by
  rw [requestBlock]
  split_ifs
  · exact modifyBlock_modifyBlock _ _ _
  · dsimp only
    rw [PiecePicker.modifyBlock, withCore_core, updatePieceState_core, recategorize_modifyBlock,
      touch_core hidx, PickerCore.touch, PickerCore.touch, ← modifyBlock_modifyBlock]
    rfl

/-- A block is requested from one more peer. -/
theorem requestBlock_book (h : s.Book lax) (hdp : s.findDlPiece p = some dp)
    (hb : b < s.blocksInPiece p)
    (hfree : ¬ ((s.block dp b).state = .writing ∨ (s.block dp b).state = .finished))
    (hwrap : lax ∨ (s.block dp b).numPeers < 2 ^ 14 - 1) :
    ((s.requestBlock p b dp peer).modifyBlock dp b fun i =>
      { i with numPeers := (i.numPeers + 1) % 2 ^ 14 }).Book lax := by
  have hcount : ∀ n : ℕ, n < 2 ^ 14 - 1 → 0 < (n + 1) % 2 ^ 14 := by
    intro n hn
    rw [Nat.mod_eq_of_lt (by omega)]
    omega
  rw [requestBlock_core (h.buckets.find_index hdp)]
  split_ifs with hreq
  · exact h.modifyBlock hdp hb rfl (fun _ => hreq) fun _ => hwrap.imp_right (hcount _)
  · have hnone : (s.block dp b).state = .none := by
      rcases hs : (s.block dp b).state <;> simp_all
    have hzero : (s.block dp b).numPeers = 0 := by
      by_contra hc
      exact hreq (h.block_peers hdp hb (Nat.pos_of_ne_zero hc))
    refine (h.but p).touch_recategorize hdp hb
      ⟨fun _ => rfl, fun _ => rfl, ?_, ?_, ?_, fun _ => rfl, fun _ => .inr ?_⟩ ?_
    · simp [hnone]
    · simp [hnone]
    · simp [hnone]
    · exact hcount _ (by simp [hzero])
    · simp only [DownloadingPiece.busy]
      omega

/-- The books after `mark_as_downloading`. -/
theorem markAsDownloading_book (h : s.Book lax) {reverse affinity : Bool}
    (ha : s.asserts (.markAsDownloading p b peer reverse affinity))
    (hwrap : lax ∨ s.onPartial p fun dp => (s.block dp b).numPeers < 2 ^ 14 - 1) :
    (s.markAsDownloading p b peer reverse affinity).2.Book lax := by
  obtain ⟨⟨hlt, hb⟩, -, hroom, -⟩ := ha
  rw [onPartial] at hwrap
  rw [markAsDownloading]
  rcases hq : s.downloadQueue p with - | q
  · dsimp only
    set st : DownloadState :=
      if reverse then .pieceDownloadingReverse else .pieceDownloading with hst'
    have hst : st.downloadQueue = some .pieceDownloading := by
      rw [hst']
      cases reverse <;> rfl
    have h' := beginDownload_book h hst hlt hq hroom affinity
    rcases hdp : (s.beginDownload p st affinity).findDlPiece p with - | dp
    · exact h'
    · dsimp only
      split_ifs with hfin
      · exact h'
      · obtain ⟨hr, hw, -⟩ := beginDownload_find h hst hlt hq hroom affinity hdp
        have hb' : b < (s.beginDownload p st affinity).blocksInPiece p := by
          rwa [beginDownload_blocksInPiece]
        have hnone := block_eq_none h' hdp hb' hr hw hfin
        refine mark_book h' hdp hb'
          ⟨fun _ => rfl, fun _ => rfl, ?_, ?_, ?_, fun _ => rfl, fun _ => .inr Nat.one_pos⟩ ?_
        · simp [hnone]
        · simp [hnone]
        · simp [hnone]
        · simp only [DownloadingPiece.busy]
          omega
  · dsimp only
    rcases hdp : s.findDlPiece p with - | dp
    · exact h
    · dsimp only
      split_ifs with hbusy
      · exact h
      · obtain ⟨h₁, hdp₁, hb₁, hst₁⟩ := makeReverse_book h hdp hb (b := b) reverse
        rw [hdp] at hwrap
        dsimp only at hwrap
        rw [← hst₁] at hwrap
        rw [← hst₁] at hbusy
        exact unreverse_book (requestBlock_book h₁ hdp₁ hb₁ hbusy hwrap) p reverse

/-- A block is written. -/
theorem writeBlock_book (h : s.Book lax) (hdp : s.findDlPiece p = some dp)
    (hb : b < s.blocksInPiece p)
    (hbusy : ¬ ((s.block dp b).state = .writing ∨ (s.block dp b).state = .finished)) :
    (s.writeBlock p b dp peer).Book lax := by
  have hr : (s.block dp b).state = .requested → 0 < dp.requested := fun hs =>
    Nat.pos_of_ne_zero fun h0 => (h.block_ne hdp hb).1 h0 hs
  have hs : (s.block dp b).state = .none ∨ (s.block dp b).state = .requested := by
    rcases hs : (s.block dp b).state <;> simp_all
  refine mark_book h hdp hb ⟨fun _ => rfl, fun _ => rfl, ?_, ?_, ?_, ?_, fun hc => by cases hc⟩ ?_
  · rcases hs with hs | hs
    · simp [hs]
    · have := hr hs
      simp [hs]
      omega
  · rcases hs with hs | hs <;> simp [hs]
  · rcases hs with hs | hs <;> simp [hs]
  · exact fun hp => absurd hp (Nat.not_lt_zero 0)
  · simp only [DownloadingPiece.busy]
    omega

/-- The books after `mark_as_writing`. -/
theorem markAsWriting_book (h : s.Book lax) (ha : s.asserts (.markAsWriting p b peer)) :
    (s.markAsWriting p b peer).2.Book lax := by
  obtain ⟨⟨hlt, hb⟩, hroom, -⟩ := ha
  rw [markAsWriting]
  rcases hq : s.downloadQueue p with - | q
  · dsimp only
    split_ifs
    · exact h
    have hst : DownloadState.pieceDownloading.downloadQueue = some .pieceDownloading := rfl
    have h' := beginDownload_book h hst hlt hq hroom false
    rcases hdp : (s.beginDownload p .pieceDownloading false).findDlPiece p with - | dp
    · exact h'
    · dsimp only
      split_ifs with hfin
      · exact h'
      · obtain ⟨hr, hw, -⟩ := beginDownload_find h hst hlt hq hroom false hdp
        have hb' : b < (s.beginDownload p .pieceDownloading false).blocksInPiece p := by
          rwa [beginDownload_blocksInPiece]
        have hnone := block_eq_none h' hdp hb' hr hw hfin
        refine mark_book h' hdp hb' ⟨fun _ => rfl, fun _ => rfl, ?_, ?_, ?_, ?_, fun hc => by cases hc⟩ ?_
        · simp [hnone]
        · simp [hnone, hw]
        · simp [hnone]
        · exact fun hp => absurd hp (Nat.not_lt_zero 0)
        · simp only [DownloadingPiece.busy]
          omega
  · dsimp only
    rcases hdp : s.findDlPiece p with - | dp
    · exact h
    · dsimp only
      by_cases hbusy : (s.block dp b).state = .writing ∨ (s.block dp b).state = .finished
      · rw [if_pos hbusy]
        exact h.modifyBlock hdp hb rfl (h.block_peers hdp hb) (h.block_asked hdp hb)
      · rw [if_neg hbusy]
        exact writeBlock_book h hdp hb hbusy

/-- A block is finished. -/
theorem finishBlock_book (h : s.Book lax) (hdp : s.findDlPiece p = some dp)
    (hb : b < s.blocksInPiece p) (hpeers : (s.block dp b).numPeers = 0)
    (hstate : (s.block dp b).state = .writing ∨ (s.block dp b).state = .none) :
    (s.finishBlock p b dp peer).Book lax := by
  have hw : (s.block dp b).state = .writing → 0 < dp.writing := fun hs =>
    Nat.pos_of_ne_zero fun h0 => (h.block_ne hdp hb).2.1 h0 hs
  refine mark_book h hdp hb ⟨fun _ => rfl, fun _ => rfl, ?_, ?_, ?_, ?_, fun hc => by cases hc⟩ ?_
  · rcases hstate with hs | hs <;> simp [hs]
  · rcases hstate with hs | hs
    · have := hw hs
      simp [hs]
      omega
    · simp [hs]
  · rcases hstate with hs | hs <;> simp [hs]
  · intro hp
    simp only at hp
    omega
  · simp only [DownloadingPiece.busy]
    omega

/-- A piece is complete. -/
theorem haveIfDone_book (h : s.Book lax) (p : ℕ) : (s.haveIfDone p).Book lax := by
  rw [haveIfDone]
  split
  · exact h
  · split_ifs
    · exact h
    · exact weHave_book h p
    · exact h

/-- The books after `mark_as_finished`. -/
theorem markAsFinished_book (h : s.Book lax) (ha : s.asserts (.markAsFinished p b peer)) :
    (s.markAsFinished p b peer).Book lax := by
  obtain ⟨⟨hlt, hb⟩, hroom, hpart⟩ := ha
  rw [markAsFinished]
  rcases hq : s.downloadQueue p with - | q
  · dsimp only
    split_ifs
    · exact h
    have hst : DownloadState.pieceDownloading.downloadQueue = some .pieceDownloading := rfl
    have h' := beginDownload_book h hst hlt hq hroom false
    rcases hdp : (s.beginDownload p .pieceDownloading false).findDlPiece p with - | dp
    · exact h'
    · dsimp only
      split_ifs with hfin
      · exact h'
      · obtain ⟨hr, hw, -⟩ := beginDownload_find h hst hlt hq hroom false hdp
        have hb' : b < (s.beginDownload p .pieceDownloading false).blocksInPiece p := by
          rwa [beginDownload_blocksInPiece]
        have hnone := block_eq_none h' hdp hb' hr hw hfin
        refine mark_book h' hdp hb' ⟨fun _ => rfl, fun _ => rfl, ?_, ?_, ?_, ?_, fun hc => by cases hc⟩ ?_
        · simp [hnone]
        · simp [hnone]
        · simp [hnone]
        · intro hp
          have := h'.block_peers hdp hb' hp
          rw [hnone] at this
          cases this
        · simp only [DownloadingPiece.busy]
          omega
  · dsimp only
    rw [onPartial] at hpart
    rcases hdp : s.findDlPiece p with - | dp
    · exact h
    · rw [hdp] at hpart
      dsimp only at hpart ⊢
      split_ifs with hfin
      · exact h
      obtain hc | ⟨hpeers, hstate⟩ := hpart
      · exact absurd hc hfin
      · exact haveIfDone_book (finishBlock_book h hdp hb hpeers hstate) p

end PiecePicker

end LibtorrentSN
