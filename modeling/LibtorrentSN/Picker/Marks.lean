import LibtorrentSN.Picker.BookReach

/-!
# The piece picker: what each call does to the blocks

The mark of a block is what the picker has on record of it: the number of peers it is requested
from, and its state. A piece that is not partial has nothing on record. Every call is described by
the marks it changes.
-/

namespace LibtorrentSN

/-- The mark of a block: `num_peers` and the state. -/
def BlockInfo.mark (i : BlockInfo) : ℕ × BlockState := (i.numPeers, i.state)

namespace PickerCore

variable {c c' : PickerCore} {lax : Prop} {p b y x : ℕ} {dp : DownloadingPiece} {st : DownloadState}
variable {f : BlockInfo → BlockInfo} {g : DownloadingPiece → DownloadingPiece}

/-- The mark of block `b` of the piece `p`. -/
def mark (c : PickerCore) (p b : ℕ) : ℕ × BlockState :=
  match c.findDlPiece p with
  | none => (0, .none)
  | some dp => (c.block dp b).mark

theorem mark_of_find (hdp : c.findDlPiece p = some dp) : c.mark p b = (c.block dp b).mark := by
  rw [mark, hdp]

theorem mark_of_none (hdp : c.findDlPiece p = none) : c.mark p b = (0, .none) := by
  rw [mark, hdp]

/-- What lies beyond the last block has no mark. -/
theorem Ledger.mark_out (h : c.Ledger lax) (hb : c.blocksInPiece p ≤ b) : c.mark p b = (0, .none) := by
  rcases hdp : c.findDlPiece p with - | dp
  · exact mark_of_none hdp
  · rw [mark_of_find hdp, block, List.getD_eq_default _ _ (by rw [h.length hdp]; exact hb)]
    rfl

theorem mark_congr (hf : ∀ y, c'.findDlPiece y = c.findDlPiece y)
    (hb : ∀ dp, c'.blocksForPiece dp = c.blocksForPiece dp) (y x : ℕ) : c'.mark y x = c.mark y x := by
  simp only [mark, hf, block, hb]

theorem SameBook.mark (h : SameBook c c') (y x : ℕ) : c'.mark y x = c.mark y x :=
  mark_congr h.find h.blocksForPiece y x

theorem Buckets.mark_recategorize (h : c.Buckets) (y x : ℕ) :
    (c.recategorize p).mark y x = c.mark y x :=
  mark_congr h.find_recategorize (fun _ => recategorize_blocksForPiece) y x

theorem Ledger.mark_modifyDl (h : c.Ledger lax) (hi : ∀ dp, (g dp).index = dp.index)
    (hx : ∀ dp, (g dp).infoIdx = dp.infoIdx) (y x : ℕ) : (c.modifyDl p g).mark y x = c.mark y x := by
  have hblock : ∀ dp, (c.modifyDl p g).block (g dp) x = c.block dp x := by
    intro dp
    rw [block, block, blocksForPiece, blocksForPiece, hi, hx]
    rfl
  rw [mark, mark, h.buckets.find_modifyDl hi]
  split_ifs
  · rcases c.findDlPiece y with - | dp
    · rfl
    · exact congrArg BlockInfo.mark (hblock dp)
  · rcases c.findDlPiece y with - | dp
    · rfl
    · rfl

/-- Only a requested block has peers. -/
theorem Ledger.mark_peers (h : c.Ledger lax) (hs : (c.mark p b).2 ≠ .requested) :
    (c.mark p b).1 = 0 := by
  by_cases hb : b < c.blocksInPiece p
  · rcases hdp : c.findDlPiece p with - | dp
    · rw [mark_of_none hdp]
    · rw [mark_of_find hdp] at hs ⊢
      by_contra hc
      exact hs (h.block_peers hdp hb (Nat.pos_of_ne_zero hc))
  · rw [h.mark_out (Nat.le_of_not_lt hb)]

/-- Two partial pieces do not share their blocks. -/
theorem Ledger.infoIdx_inj (h : c.Ledger lax) {dp' : DownloadingPiece}
    (hdp : c.findDlPiece p = some dp) (hdp' : c.findDlPiece y = some dp')
    (hx : dp'.infoIdx = dp.infoIdx) : y = p := by
  obtain ⟨hm, rfl⟩ := h.buckets.find_eq_some.mp hdp
  obtain ⟨hm', rfl⟩ := h.buckets.find_eq_some.mp hdp'
  exact congrArg DownloadingPiece.index (h.slots.inj hm' hm hx)

theorem Ledger.mark_modifyBlock (h : c.Ledger lax) (hdp : c.findDlPiece p = some dp)
    (hb : b < c.blocksInPiece p) (y x : ℕ) : (c.modifyBlock dp b f).mark y x =
      if y = p ∧ x = b then (f (c.block dp b)).mark else c.mark y x := by
  have hfind : ∀ y, (c.modifyBlock dp b f).findDlPiece y = c.findDlPiece y := fun _ => rfl
  have hblocks : ∀ z, (c.modifyBlock dp b f).blocksForPiece z =
      if z.infoIdx = dp.infoIdx then (c.blocksForPiece z).modify b f else c.blocksForPiece z :=
    fun z => blocksForPiece_modifyBlock (h.slots.lt (h.buckets.find_eq_some.mp hdp).1)
  rw [mark, mark, hfind]
  rcases hy : c.findDlPiece y with - | dp'
  · rw [if_neg]
    rintro ⟨rfl, -⟩
    rw [hdp] at hy
    cases hy
  · dsimp only
    rw [block, hblocks]
    by_cases hyp : y = p
    · subst hyp
      obtain rfl := Option.some.inj (hdp.symm.trans hy)
      rw [if_pos rfl, getD_modify, h.length hdp]
      by_cases hx : x = b
      · rw [if_pos ⟨hx, hb⟩, if_pos ⟨rfl, hx⟩]
        rfl
      · rw [if_neg fun hc => hx hc.1, if_neg fun hc => hx hc.2]
        rfl
    · rw [if_neg fun hc => hyp (h.infoIdx_inj hdp hy hc), if_neg fun hc => hyp hc.1]
      rfl

theorem Ledger.mark_eraseDl (h : c.Ledger lax) (hdp : c.findDlPiece p = some dp) (y x : ℕ) :
    (c.eraseDl dp).mark y x = if y = p then (0, .none) else c.mark y x := by
  have hn : (c.eraseDl dp).numPieces = c.numPieces := c.setState_numPieces dp.index _
  have hbp : ∀ z, (c.eraseDl dp).blocksForPiece z = c.blocksForPiece z := by
    intro z
    rw [blocksForPiece, blocksForPiece, blocksInPiece, blocksInPiece, hn]
    rfl
  rw [mark, h.buckets.find_eraseDl hdp]
  split_ifs with hy
  · rfl
  · simp only [mark, block, hbp]

/-- A new partial piece has its padding on record. -/
theorem Ledger.mark_startDl (h : c.Ledger lax) (hst : st.downloadQueue = some .pieceDownloading)
    (hlt : p < c.numPieces) (ho : c.state p = .pieceOpen)
    (hroom : c.freeBlockInfos = [] → c.blockInfo.length < 2 ^ 16 - 1) (y x : ℕ) :
    (c.startDl p st).mark y x =
      if y = p then
        (0, if c.firstPadBlock p ≤ x ∧ x < c.blocksInPiece p then .finished else .none)
      else c.mark y x := by
  obtain ⟨hnew, hother⟩ := h.startDl_blocks p st hroom
  rw [mark, h.buckets.find_startDl hst hlt ho]
  by_cases hy : y = p
  · rw [if_pos hy, if_pos hy]
    dsimp only
    rw [block, hnew]
    by_cases hx : x < c.blocksInPiece p
    · rw [List.getD_eq_getElem _ _ (by rwa [freshBlocks_length])]
      simp [freshBlocks, BlockInfo.mark, hx]
    · rw [List.getD_eq_default _ _ (by rw [freshBlocks_length]; exact Nat.le_of_not_lt hx),
        if_neg fun hc => hx hc.2]
      rfl
  · rw [if_neg hy, if_neg hy, mark]
    rcases hdp : c.findDlPiece y with - | dp
    · rfl
    · dsimp only
      rw [block, hother y dp hdp]
      rfl

/-- The marks once the piece `p` is a partial one. -/
def opened (c : PickerCore) (p y x : ℕ) : ℕ × BlockState :=
  if y = p ∧ c.downloadQueue p = none ∧ c.firstPadBlock p ≤ x ∧ x < c.blocksInPiece p then
    (0, .finished)
  else c.mark y x

theorem opened_of_some {q : DownloadQueue} (hq : c.downloadQueue p = some q) :
    c.opened p y x = c.mark y x := by
  rw [opened, if_neg]
  rintro ⟨-, hc, -⟩
  rw [hq] at hc
  cases hc

theorem opened_state (h : (c.opened p y x).2 ≠ .finished) : c.opened p y x = c.mark y x := by
  rw [opened] at h ⊢
  split_ifs at h ⊢ with hc
  · exact absurd rfl h
  · rfl

/-- The block has been received (or is padding). -/
def received (c : PickerCore) (p b : ℕ) : Prop :=
  (c.opened p p b).2 = .writing ∨ (c.opened p p b).2 = .finished

instance (c : PickerCore) (p b : ℕ) : Decidable (c.received p b) :=
  inferInstanceAs (Decidable (_ ∨ _))

/-- No mark of a piece without busy blocks differs from that of an open one. -/
theorem Ledger.mark_of_busy (h : c.Ledger lax) (hdp : c.findDlPiece p = some dp)
    (hbusy : dp.busy = 0) (x : ℕ) : c.mark p x = (0, .none) := by
  by_cases hx : x < c.blocksInPiece p
  · rw [DownloadingPiece.busy] at hbusy
    obtain ⟨hr, hw, hf⟩ := h.block_ne hdp hx
    have hnone : (c.block dp x).state = .none := by
      have := hr (by omega)
      have := hw (by omega)
      have := hf (by omega)
      rcases hs : (c.block dp x).state <;> simp_all
    have hzero : (c.block dp x).numPeers = 0 := by
      by_contra hc
      have := h.block_peers hdp hx (Nat.pos_of_ne_zero hc)
      rw [hnone] at this
      cases this
    rw [mark_of_find hdp, BlockInfo.mark, hnone, hzero]
  · exact h.mark_out (Nat.le_of_not_lt hx)

theorem Ledger.mark_touch (h : c.Ledger lax) (hdp : c.findDlPiece p = some dp)
    (hb : b < c.blocksInPiece p) (hi : ∀ dp, (g dp).index = dp.index)
    (hx : ∀ dp, (g dp).infoIdx = dp.infoIdx) (y x : ℕ) : (c.touch dp b f g).mark y x =
      if y = p ∧ x = b then (f (c.block dp b)).mark else c.mark y x := by
  have hbuckets : (c.modifyBlock dp b f).Buckets := h.buckets.congr rfl fun _ => rfl
  rw [← h.mark_modifyBlock hdp hb]
  have hblock : ∀ z, (c.touch dp b f g).block (g z) x = (c.modifyBlock dp b f).block z x := by
    intro z
    rw [block, block, blocksForPiece, blocksForPiece, hi, hx]
    rfl
  rw [mark, mark, touch, hbuckets.find_modifyDl hi]
  split_ifs
  · rcases (c.modifyBlock dp b f).findDlPiece y with - | z
    · rfl
    · exact congrArg BlockInfo.mark (hblock z)
  · rcases (c.modifyBlock dp b f).findDlPiece y with - | z
    · rfl
    · rfl

theorem Buckets.touch (h : c.Buckets) (hi : ∀ dp, (g dp).index = dp.index) :
    (c.touch dp b f g).Buckets :=
  Buckets.modifyDl (h.congr rfl fun _ => rfl) hi

/-- The same, when the piece is put where it belongs afterwards. -/
theorem Ledger.mark_touch_recategorize (h : c.Ledger lax) (hdp : c.findDlPiece p = some dp)
    (hb : b < c.blocksInPiece p) (hi : ∀ dp, (g dp).index = dp.index)
    (hx : ∀ dp, (g dp).infoIdx = dp.infoIdx) (y x : ℕ) :
    ((c.touch dp b f g).recategorize p).mark y x =
      if y = p ∧ x = b then (f (c.block dp b)).mark else c.mark y x := by
  rw [(h.buckets.touch hi).mark_recategorize, h.mark_touch hdp hb hi hx]

end PickerCore

namespace PiecePicker

open PickerCore

variable {s s' : PiecePicker} {lax : Prop} {p b y x : ℕ} {dp : DownloadingPiece} {peer : Option ℕ}

/-! ## Requesting and writing -/

theorem beginDownload_mark (h : s.Book lax) {st : DownloadState}
    (hst : st.downloadQueue = some .pieceDownloading) (hlt : p < s.numPieces)
    (ho : s.downloadQueue p = none) (hroom : s.hasSlot) (affinity : Bool) (y x : ℕ) :
    (s.beginDownload p st affinity).mark y x = s.opened p y x := by
  have hopen := DownloadState.downloadQueue_eq_none.mp ho
  have hnone : s.findDlPiece p = none := h.buckets.find_eq_none.mpr hopen
  rw [beginDownload_core, (h.buckets.startDl hst hlt hopen).mark_recategorize,
    h.mark_startDl hst hlt hopen hroom, opened]
  by_cases hy : y = p
  · subst hy
    rw [if_pos rfl, mark_of_none hnone]
    by_cases hx : s.firstPadBlock y ≤ x ∧ x < s.blocksInPiece y
    · rw [if_pos hx, if_pos ⟨rfl, ho, hx⟩]
    · rw [if_neg hx, if_neg fun hc => hx hc.2.2]
  · rw [if_neg hy, if_neg fun hc => hy hc.1]

theorem beginDownload_exists (h : s.Book lax) {st : DownloadState}
    (hst : st.downloadQueue = some .pieceDownloading) (hlt : p < s.numPieces)
    (ho : s.downloadQueue p = none) (hroom : s.hasSlot) (affinity : Bool) :
    ∃ dp, (s.beginDownload p st affinity).findDlPiece p = some dp := by
  have hopen := DownloadState.downloadQueue_eq_none.mp ho
  refine ⟨(s.toPickerCore.setState p st).freshDl p, ?_⟩
  rw [beginDownload_core, (h.startDl hst hlt hopen hroom).find_recategorize,
    h.buckets.find_startDl hst hlt hopen, if_pos rfl]

/-- Mark a block of a partial piece and put the piece where it belongs. -/
theorem touch_mark (h : s.Ledger lax) (hdp : s.findDlPiece p = some dp) (hb : b < s.blocksInPiece p)
    {f : BlockInfo → BlockInfo} {g : DownloadingPiece → DownloadingPiece}
    (hi : ∀ dp, (g dp).index = dp.index) (hx : ∀ dp, (g dp).infoIdx = dp.infoIdx) (y x : ℕ) :
    (((s.modifyBlock dp b f).modifyDl p g).updatePieceState p).mark y x =
      if y = p ∧ x = b then (f (s.block dp b)).mark else s.mark y x := by
  rw [updatePieceState_core, touch_core (h.buckets.find_index hdp),
    h.mark_touch_recategorize hdp hb hi hx]

theorem makeReverse_mark (s : PiecePicker) (p : ℕ) (dp : DownloadingPiece) (reverse : Bool)
    (y x : ℕ) : (s.makeReverse p dp reverse).mark y x = s.mark y x := by
  rw [makeReverse]
  split_ifs
  · rw [updateFrom_core]
    exact (sameBook_setState (makeReverse_queue _)).mark y x
  · rfl

theorem unreverse_mark (s : PiecePicker) (p : ℕ) (reverse : Bool) (y x : ℕ) :
    (s.unreverse p reverse).mark y x = s.mark y x := by
  rw [unreverse]
  split_ifs
  · rw [updateFrom_core]
    exact (sameBook_setState (unreverse_queue _)).mark y x
  · rfl

/-- A request, and the count of its peers. -/
theorem requestBlock_mark (h : s.Book lax) (hdp : s.findDlPiece p = some dp)
    (hb : b < s.blocksInPiece p) (y x : ℕ) :
    ((s.requestBlock p b dp peer).modifyBlock dp b fun i =>
      { i with numPeers := (i.numPeers + 1) % 2 ^ 14 }).mark y x =
      if y = p ∧ x = b then (((s.block dp b).numPeers + 1) % 2 ^ 14, .requested)
      else s.mark y x := by
  have hidx := h.buckets.find_index hdp
  rw [requestBlock_core hidx]
  by_cases hreq : (s.block dp b).state = .requested
  · rw [if_pos hreq, h.mark_modifyBlock hdp hb]
    simp [BlockInfo.mark, hreq]
  · rw [if_neg hreq]
    refine (h.mark_touch_recategorize hdp hb ?_ ?_ y x).trans ?_
    · exact fun _ => rfl
    · exact fun _ => rfl
    · simp only [BlockInfo.mark, Function.comp_apply]

/-- In a piece that was just begun, nothing but padding has been received. -/
theorem received_begin (h : s.Book lax) {st : DownloadState}
    (hst : st.downloadQueue = some .pieceDownloading) (hlt : p < s.numPieces)
    (ho : s.downloadQueue p = none) (hroom : s.hasSlot) (affinity : Bool)
    (hb : b < s.blocksInPiece p) (hdp : (s.beginDownload p st affinity).findDlPiece p = some dp) :
    s.received p b ↔ ((s.beginDownload p st affinity).block dp b).state = .finished := by
  have h' := beginDownload_book h hst hlt ho hroom affinity
  obtain ⟨-, hw, -⟩ := beginDownload_find h hst hlt ho hroom affinity hdp
  have hne := (h'.block_ne hdp (by rwa [beginDownload_blocksInPiece])).2.1 hw
  rw [received, ← beginDownload_mark h hst hlt ho hroom affinity, mark_of_find hdp]
  exact or_iff_right hne

theorem received_find {q : DownloadQueue} (hq : s.downloadQueue p = some q)
    (hdp : s.findDlPiece p = some dp) :
    s.received p b ↔ (s.block dp b).state = .writing ∨ (s.block dp b).state = .finished := by
  rw [received, opened_of_some hq, mark_of_find hdp]
  rfl

/-- A request is accepted unless the block has been received, and then it is counted. -/
theorem markAsDownloading_spec (h : s.Book lax) {reverse affinity : Bool}
    (ha : s.asserts (.markAsDownloading p b peer reverse affinity)) :
    ((s.markAsDownloading p b peer reverse affinity).1 = true ↔ ¬ s.received p b) ∧
    ∀ y x, (s.markAsDownloading p b peer reverse affinity).2.mark y x =
      if y = p ∧ x = b ∧ ¬ s.received p b then (((s.mark p b).1 + 1) % 2 ^ 14, .requested)
      else s.opened p y x := by
  obtain ⟨⟨hlt, hb⟩, -, hroom, -⟩ := ha
  rw [markAsDownloading]
  rcases hq : s.downloadQueue p with - | q
  · dsimp only
    set st : DownloadState :=
      if reverse then .pieceDownloadingReverse else .pieceDownloading with hst'
    have hst : st.downloadQueue = some .pieceDownloading := by
      rw [hst']
      cases reverse <;> rfl
    have hopen := DownloadState.downloadQueue_eq_none.mp hq
    have h' := beginDownload_book h hst hlt hq hroom affinity
    have hm := beginDownload_mark h hst hlt hq hroom affinity
    have hb' : b < (s.beginDownload p st affinity).blocksInPiece p := by
      rwa [beginDownload_blocksInPiece]
    obtain ⟨dp, hdp⟩ := beginDownload_exists h hst hlt hq hroom affinity
    have hrec := received_begin h hst hlt hq hroom affinity hb hdp
    rw [hdp]
    dsimp only
    by_cases hfin : ((s.beginDownload p st affinity).block dp b).state = .finished
    · rw [if_pos hfin]
      simp [hrec, hfin, hm]
    · rw [if_neg hfin]
      refine ⟨by simp [hrec, hfin], fun y x => ?_⟩
      rw [mark_of_none (h.buckets.find_eq_none.mpr hopen)]
      refine (touch_mark h'.toLedger hdp hb' ?_ ?_ y x).trans ?_
      · exact fun _ => rfl
      · exact fun _ => rfl
      · simp [hrec, hfin, hm, BlockInfo.mark]
  · dsimp only
    obtain ⟨dp, hdp⟩ := h.buckets.exists_find ((s.downloading_iff p).mpr ⟨q, hq⟩)
    have hrec := received_find hq hdp (b := b)
    rw [mark_of_find hdp, hdp]
    dsimp only
    by_cases hbusy : (s.block dp b).state = .writing ∨ (s.block dp b).state = .finished
    · rw [if_pos hbusy]
      have : s.received p b := hrec.mpr hbusy
      simp [this, opened_of_some hq]
    · rw [if_neg hbusy]
      have hnot : ¬ s.received p b := fun hc => hbusy (hrec.mp hc)
      obtain ⟨h₁, hdp₁, hb₁, hst₁⟩ := makeReverse_book h hdp hb (b := b) reverse
      refine ⟨by simp [hnot], fun y x => ?_⟩
      rw [unreverse_mark, requestBlock_mark h₁ hdp₁ hb₁, hst₁, makeReverse_mark, opened_of_some hq]
      simp [hnot, BlockInfo.mark]

theorem markAsWriting_mark (h : s.Book lax) (ha : s.asserts (.markAsWriting p b peer))
    (hnot : s.downloadQueue p = none → ¬ s.havePiece p) (y x : ℕ) :
    (s.markAsWriting p b peer).2.mark y x =
      if y = p ∧ x = b ∧ ¬ s.received p b then (0, .writing) else s.opened p y x := by
  obtain ⟨⟨hlt, hb⟩, hroom, -⟩ := ha
  rw [markAsWriting]
  rcases hq : s.downloadQueue p with - | q
  · dsimp only
    rw [if_neg (hnot hq)]
    have hst : DownloadState.pieceDownloading.downloadQueue = some .pieceDownloading := rfl
    have h' := beginDownload_book h hst hlt hq hroom false
    have hm := beginDownload_mark h hst hlt hq hroom false
    have hb' : b < (s.beginDownload p .pieceDownloading false).blocksInPiece p := by
      rwa [beginDownload_blocksInPiece]
    obtain ⟨dp, hdp⟩ := beginDownload_exists h hst hlt hq hroom false
    have hrec := received_begin h hst hlt hq hroom false hb hdp
    rw [hdp]
    dsimp only
    by_cases hfin : ((s.beginDownload p .pieceDownloading false).block dp b).state = .finished
    · rw [if_pos hfin]
      simp [hrec, hfin, hm]
    · rw [if_neg hfin]
      refine (touch_mark h'.toLedger hdp hb' ?_ ?_ y x).trans ?_
      · exact fun _ => rfl
      · exact fun _ => rfl
      · simp [hrec, hfin, hm, BlockInfo.mark]
  · dsimp only
    obtain ⟨dp, hdp⟩ := h.buckets.exists_find ((s.downloading_iff p).mpr ⟨q, hq⟩)
    have hrec := received_find hq hdp (b := b)
    rw [hdp]
    dsimp only
    by_cases hbusy : (s.block dp b).state = .writing ∨ (s.block dp b).state = .finished
    · rw [if_pos hbusy, opened_of_some hq]
      refine (h.mark_modifyBlock hdp hb y x).trans ?_
      rw [← opened_of_some hq]
      simp only [hrec, hbusy, not_true_eq_false, and_false, if_false]
      split_ifs with hyx
      · rw [hyx.1, hyx.2, opened_of_some hq, mark_of_find hdp]
        rfl
      · rfl
    · rw [if_neg hbusy]
      refine (touch_mark h.toLedger hdp hb ?_ ?_ y x).trans ?_
      · exact fun _ => rfl
      · exact fun _ => rfl
      · simp [hrec, hbusy, opened_of_some hq, BlockInfo.mark]

/-! ## Pieces that are forgotten -/

/-- The marks are `M`, or those of the piece `p` are forgotten. -/
def MarkedAs (s : PiecePicker) (p : ℕ) (M : ℕ → ℕ → ℕ × BlockState) : Prop :=
  (∀ y x, s.mark y x = M y x) ∨ ∀ y x, s.mark y x = if y = p then (0, .none) else M y x

theorem dropPassed_mark (h : s.Ledger lax) (p y x : ℕ) :
    (s.dropPassed p).mark y x = if y = p then (0, .none) else s.mark y x := by
  rw [dropPassed]
  rcases hdp : s.findDlPiece p with - | dp
  · split_ifs with hy
    · rw [hy, mark_of_none hdp]
    · rfl
  · exact h.mark_eraseDl hdp y x

theorem weHave_markedAs (h : s.Ledger lax) (p : ℕ) : (s.weHave p).MarkedAs p s.mark := by
  by_cases hh : s.havePiece p
  · refine .inl fun y x => ?_
    rw [weHave_core, if_pos hh]
  · refine .inr fun y x => ?_
    rw [weHave_core, if_neg hh, dropPassed_mark h]

theorem weDontHave_markedAs (h : s.Ledger lax) (p : ℕ) : (s.weDontHave p).MarkedAs p s.mark := by
  rw [weDontHave]
  by_cases hh : s.havePiece p
  · rw [if_neg (not_not.mpr hh)]
    refine .inl fun y x => ?_
    have hcore : ((s.countNotHave p).setIndex p 0).toPickerCore = s.toPickerCore := by simp
    dsimp only
    split_ifs
    · rw [hcore]
    · rw [add_core, hcore]
    · rw [hcore]
  · rw [if_pos hh]
    exact .inr (dropPassed_mark h p)

theorem MarkedAs.congr {M M' : ℕ → ℕ → ℕ × BlockState} (h : s.MarkedAs p M)
    (hM : ∀ y x, M y x = M' y x) : s.MarkedAs p M' := by
  refine h.imp (fun h y x => (h y x).trans (hM y x)) fun h y x => ?_
  rw [h, hM]

theorem piecePassed_markedAs (h : s.Book lax) (p : ℕ) : (s.piecePassed p).MarkedAs p s.mark := by
  have hm : (s.modifyDl p ({ · with passedHashCheck := true })).Book lax :=
    Book.modifyDl h (fun _ => rfl) (fun _ => rfl) (fun _ => rfl) (fun _ => rfl) fun _ => rfl
  have hmark : ∀ y x, (s.modifyDl p ({ · with passedHashCheck := true })).mark y x = s.mark y x := by
    refine fun y x => h.mark_modifyDl ?_ ?_ y x
    · exact fun _ => rfl
    · exact fun _ => rfl
  rw [piecePassed]
  rcases s.findDlPiece p with - | dp
  · exact .inl fun _ _ => rfl
  · dsimp only
    split_ifs
    · exact .inl fun _ _ => rfl
    · exact .inl hmark
    · have hadd : ((s.modifyDl p ({ · with passedHashCheck := true })).addPassed 1).Ledger lax :=
        hm.toLedger
      exact (weHave_markedAs hadd p).congr hmark

theorem setPadBytes_markedAs (h : s.Book lax) (p bytes : ℕ) :
    (s.setPadBytes p bytes).MarkedAs p s.mark := by
  have hsame : ∀ t : PiecePicker, t.toPickerCore = { s.toPickerCore with
      padsInPiece := (p, bytes) :: s.padsInPiece } → t.Ledger lax ∧ ∀ y x, t.mark y x = s.mark y x := by
    intro t ht
    have hs : SameBook s.toPickerCore t.toPickerCore := by
      rw [ht]
      exact ⟨rfl, rfl, rfl, rfl, rfl, rfl, fun _ => rfl⟩
    exact ⟨hs.ledger h.toLedger, hs.mark⟩
  simp only [setPadBytes]
  split_ifs
  all_goals first
    | exact .inl (hsame _ rfl).2
    | exact (weHave_markedAs (hsame _ rfl).1 p).congr (hsame _ rfl).2

/-! ## Finishing and giving up -/

theorem haveIfDone_markedAs (h : s.Ledger lax) (p : ℕ) : (s.haveIfDone p).MarkedAs p s.mark := by
  rw [haveIfDone]
  rcases s.findDlPiece p with - | dp
  · exact .inl fun _ _ => rfl
  · dsimp only
    split_ifs
    · exact .inl fun _ _ => rfl
    · exact weHave_markedAs h p
    · exact .inl fun _ _ => rfl

theorem markAsFinished_markedAs (h : s.Book lax) (ha : s.asserts (.markAsFinished p b peer))
    (hnot : s.downloadQueue p = none → ¬ s.havePiece p) :
    (s.markAsFinished p b peer).MarkedAs p fun y x =>
      if y = p ∧ x = b then (0, .finished) else s.opened p y x := by
  obtain ⟨⟨hlt, hb⟩, hroom, hpart⟩ := ha
  rw [markAsFinished]
  rcases hq : s.downloadQueue p with - | q
  · dsimp only
    rw [if_neg (hnot hq)]
    have hst : DownloadState.pieceDownloading.downloadQueue = some .pieceDownloading := rfl
    have h' := beginDownload_book h hst hlt hq hroom false
    have hm := beginDownload_mark h hst hlt hq hroom false
    have hb' : b < (s.beginDownload p .pieceDownloading false).blocksInPiece p := by
      rwa [beginDownload_blocksInPiece]
    obtain ⟨dp, hdp⟩ := beginDownload_exists h hst hlt hq hroom false
    rw [hdp]
    refine .inl fun y x => ?_
    dsimp only
    by_cases hfin : ((s.beginDownload p .pieceDownloading false).block dp b).state = .finished
    · rw [if_pos hfin, hm]
      split_ifs with hyx
      · have hmark : (s.opened p p b).2 = .finished := by
          rw [← hm, mark_of_find hdp]
          exact hfin
        have hzero : (s.opened p p b).1 = 0 := by
          rw [← hm] at hmark ⊢
          exact h'.mark_peers (by rw [hmark]; decide)
        rw [hyx.1, hyx.2]
        exact Prod.ext hzero hmark
      · rfl
    · rw [if_neg hfin]
      obtain ⟨hr, hw, -⟩ := beginDownload_find h hst hlt hq hroom false hdp
      have hnone := block_eq_none h' hdp hb' hr hw hfin
      have hzero : ((s.beginDownload p .pieceDownloading false).block dp b).numPeers = 0 := by
        by_contra hc
        have := h'.block_peers hdp hb' (Nat.pos_of_ne_zero hc)
        rw [hnone] at this
        cases this
      refine (touch_mark h'.toLedger hdp hb' ?_ ?_ y x).trans ?_
      · exact fun _ => rfl
      · exact fun _ => rfl
      · simp [hm, BlockInfo.mark, hzero]
  · dsimp only
    obtain ⟨dp, hdp⟩ := h.buckets.exists_find ((s.downloading_iff p).mpr ⟨q, hq⟩)
    rw [onPartial, hdp] at hpart
    rw [hdp]
    dsimp only at hpart ⊢
    by_cases hfin : (s.block dp b).state = .finished
    · rw [if_pos hfin]
      refine .inl fun y x => ?_
      dsimp only
      rw [opened_of_some hq]
      split_ifs with hyx
      · have hmark : (s.mark p b).2 = .finished := by
          rw [mark_of_find hdp]
          exact hfin
        rw [hyx.1, hyx.2]
        exact Prod.ext (h.mark_peers (by rw [hmark]; decide)) hmark
      · rfl
    · rw [if_neg hfin]
      obtain ⟨hpeers, hstate⟩ := hpart.resolve_left hfin
      have h₁ : (s.finishBlock p b dp peer).Book lax := finishBlock_book h hdp hb hpeers hstate
      refine (haveIfDone_markedAs h₁.toLedger p).congr fun y x => ?_
      refine (touch_mark h.toLedger hdp hb ?_ ?_ y x).trans ?_
      · exact fun _ => rfl
      · exact fun _ => rfl
      · simp [opened_of_some hq, BlockInfo.mark, hpeers]

/-- A piece of which nothing is left is forgotten with marks that say nothing. -/
theorem eraseIfUnused_mark (h : s.Ledger lax) (p y x : ℕ) :
    (s.eraseIfUnused p).mark y x = s.mark y x := by
  rw [eraseIfUnused]
  rcases hdp : s.findDlPiece p with - | dp
  · rfl
  · dsimp only
    split_ifs with hz
    · rw [reposition_core]
      refine (h.mark_eraseDl hdp y x).trans ?_
      split_ifs with hy
      · rw [hy, h.mark_of_busy hdp (by rw [DownloadingPiece.busy]; omega)]
      · rfl
    · rfl

/-- A block is marked, and the piece forgotten if nothing is left of it. -/
theorem touch_erase_mark (h : s.Book lax) (hdp : s.findDlPiece p = some dp)
    (hb : b < s.blocksInPiece p) {f : BlockInfo → BlockInfo}
    {g : DownloadingPiece → DownloadingPiece} (hfol : Follows lax (s.block dp b) dp f g) (y x : ℕ) :
    ((((s.modifyBlock dp b f).modifyDl p g).updatePieceState p).eraseIfUnused p).mark y x =
      if y = p ∧ x = b then (f (s.block dp b)).mark else s.mark y x := by
  have hledger : (((s.modifyBlock dp b f).modifyDl p g).updatePieceState p).Ledger lax := by
    rw [updatePieceState_core, touch_core (h.buckets.find_index hdp)]
    exact ((h.but p).touch hdp hb hfol).recategorize_but.toLedger
  rw [eraseIfUnused_mark hledger, touch_mark h.toLedger hdp hb hfol.index hfol.infoIdx]

theorem markAsCanceled_mark (h : s.Book lax) (ha : s.asserts (.markAsCanceled p b peer)) (y x : ℕ) :
    (s.markAsCanceled p b peer).mark y x =
      if y = p ∧ x = b ∧ (s.mark p b).2 = .writing then (0, .none) else s.mark y x := by
  obtain ⟨⟨-, hb⟩, hpart⟩ := ha
  rw [onPartial] at hpart
  rw [markAsCanceled]
  rcases hdp : s.findDlPiece p with - | dp <;> rw [hdp] at hpart
  · simp [mark_of_none hdp]
  · dsimp only at hpart ⊢
    have hmark : (s.mark p b).2 = (s.block dp b).state := by rw [mark_of_find hdp]; rfl
    rw [hmark]
    by_cases hfin : (s.block dp b).state = .finished
    · simp [hfin]
    rw [if_neg hfin]
    by_cases hwr : (s.block dp b).state = .writing
    · rw [if_pos hwr]
      have hpos : 0 < dp.writing := Nat.pos_of_ne_zero fun h0 => (h.block_ne hdp hb).2.1 h0 hwr
      have hpeers := (hpart.resolve_left hfin).1
      rw [touch_erase_mark h hdp hb]
      · simp [hwr, BlockInfo.mark, hpeers]
      · refine ⟨fun _ => rfl, fun _ => rfl, ?_, ?_, ?_, ?_, fun hc => by cases hc⟩
        · simp [hwr]
        · simp [hwr]
          omega
        · simp [hwr]
        · intro hp
          simp only at hp
          omega
    · rw [if_neg hwr]
      have hskip : ¬ (y = p ∧ x = b ∧ (s.block dp b).state = .writing) := fun hc => hwr hc.2.2
      rw [if_neg hskip]
      refine (h.mark_modifyBlock hdp hb y x).trans ?_
      split_ifs with hyx
      · rw [hyx.1, hyx.2, mark_of_find hdp]
        rfl
      · rfl

theorem writeFailed_mark (h : s.Book lax) (ha : s.asserts (.writeFailed p b)) (y x : ℕ) :
    (s.writeFailed p b).mark y x = if y = p ∧ x = b then (0, .none) else s.mark y x := by
  obtain ⟨⟨-, hb⟩, hpart⟩ := ha
  rw [onPartial] at hpart
  rw [writeFailed]
  rcases hdp : s.findDlPiece p with - | dp <;> rw [hdp] at hpart
  · split_ifs with hyx
    · rw [hyx.1, mark_of_none hdp]
    · rfl
  · dsimp only at hpart ⊢
    obtain ⟨hwr, hpeers⟩ := hpart
    have hpos : 0 < dp.writing := Nat.pos_of_ne_zero fun h0 => (h.block_ne hdp hb).2.1 h0 hwr
    rw [if_neg (by rw [hwr]; decide)]
    refine (touch_erase_mark (s := s.unpass dp) h hdp hb ?_ y x).trans ?_
    · have hblock : (s.unpass dp).block dp b = s.block dp b := rfl
      rw [hblock]
      refine ⟨fun _ => rfl, fun _ => rfl, ?_, ?_, ?_, ?_, fun hc => by cases hc⟩
      · simp [hwr]
      · simp [hwr]
        omega
      · simp [hwr]
      · intro hp
        simp only at hp
        omega
    · simp [BlockInfo.mark, hpeers]

theorem restoreBlock_mark (h : s.BookBut lax p) (hb : b < s.blocksInPiece p) (y x : ℕ) :
    (restoreBlock p s b).mark y x =
      if y = p ∧ x = b ∧ (s.mark p b).2 ≠ .requested then (0, .none) else s.mark y x := by
  rcases hdp : s.findDlPiece p with - | dp
  · rw [restoreBlock, hdp]
    split_ifs with hyx
    · rw [hyx.1, mark_of_none hdp]
    · rfl
  · have hmark : (s.mark p b).2 = (s.block dp b).state := by rw [mark_of_find hdp]; rfl
    rw [hmark]
    by_cases hreq : (s.block dp b).state = .requested
    · rw [restoreBlock, hdp]
      simp [hreq]
    · have hpeers : (s.block dp b).numPeers = 0 := by
        by_contra hc
        exact hreq (h.block_peers hdp hb (Nat.pos_of_ne_zero hc))
      rw [restoreBlock_core h hdp hreq]
      refine (h.mark_touch hdp hb ?_ ?_ y x).trans ?_
      · exact fun _ => rfl
      · exact fun _ => rfl
      · simp [BlockInfo.mark, hpeers, hreq]

theorem restoreBlocks_mark (h : s.BookBut lax p) {blocks : List ℕ}
    (hb : ∀ b ∈ blocks, b < s.blocksInPiece p) (y x : ℕ) :
    (blocks.foldl (restoreBlock p) s).mark y x =
      if y = p ∧ x ∈ blocks ∧ (s.mark p x).2 ≠ .requested then (0, .none) else s.mark y x := by
  induction blocks generalizing s with
  | nil => simp
  | cons b blocks ih =>
    obtain ⟨h₁, hsize⟩ := restoreBlock_book h (hb b List.mem_cons_self)
    have hb₁ : ∀ b' ∈ blocks, b' < (restoreBlock p s b).blocksInPiece p := by
      intro b' hb'
      rw [hsize]
      exact hb b' (List.mem_cons_of_mem b hb')
    have hstep := restoreBlock_mark h (hb b List.mem_cons_self)
    rw [List.foldl_cons, ih h₁ hb₁, hstep, hstep]
    by_cases hy : y = p
    · subst hy
      by_cases hx : x = b
      · subst hx
        by_cases hr : (s.mark y x).2 = .requested
        · simp [hr]
        · simp [hr]
      · simp [hx]
    · simp [hy]

/-- The blocks that are restored are free again; with none given, the whole piece is forgotten. -/
theorem restorePiece_mark (h : s.Book lax) {blocks : List ℕ}
    (ha : s.asserts (.restorePiece p blocks)) (y x : ℕ) :
    (s.restorePiece p blocks).mark y x =
      if y = p ∧ (blocks = [] ∨ x ∈ blocks) then (0, .none) else s.mark y x := by
  obtain ⟨-, -, hb, hpart⟩ := ha
  have h₁ : (s.modifyDl p ({ · with locked := false })).Book lax :=
    Book.modifyDl h (fun _ => rfl) (fun _ => rfl) (fun _ => rfl) (fun _ => rfl) fun _ => rfl
  have hmark₁ : ∀ y x, (s.modifyDl p ({ · with locked := false })).mark y x = s.mark y x := by
    refine fun y x => h.mark_modifyDl ?_ ?_ y x
    · exact fun _ => rfl
    · exact fun _ => rfl
  have hfind₁ : (s.modifyDl p ({ · with locked := false })).findDlPiece p =
      (s.findDlPiece p).map ({ · with locked := false }) := by
    refine (h.buckets.find_modifyDl (f := ({ · with locked := false })) (fun _ => rfl) p).trans ?_
    rw [if_pos rfl]
  rw [onPartial] at hpart
  rw [restorePiece]
  rcases hdp : s.findDlPiece p with - | dp
  · dsimp only
    split_ifs with hyx
    · rw [hyx.1, mark_of_none hdp]
    · rfl
  rw [hdp] at hpart hfind₁
  dsimp only at hpart ⊢
  set s₁ := s.modifyDl p ({ · with locked := false }) with hs₁
  by_cases hbl : blocks = []
  · simp only [hbl, if_pos, true_or, and_true]
    rw [hfind₁]
    dsimp only [Option.map_some]
    rw [reposition_core]
    refine (h₁.toLedger.mark_eraseDl hfind₁ y x).trans ?_
    rw [hmark₁]
  · simp only [hbl, if_neg, not_false_eq_true, false_or]
    have h₂ : (blocks.foldl (restoreBlock p) s₁).BookBut lax p := restoreBlocks_book (h₁.but p) hb
    have hmark₂ := restoreBlocks_mark (h₁.but p) hb
    set s₂ := blocks.foldl (restoreBlock p) s₁ with hs₂
    have hmark₃ : ∀ y x, (s₂.updatePieceState p).mark y x =
        if y = p ∧ x ∈ blocks then (0, .none) else s.mark y x := by
      intro y x
      rw [updatePieceState_core, h₂.buckets.mark_recategorize, hmark₂, hmark₁, hmark₁]
      refine ite_congr (propext ?_) (fun _ => rfl) fun _ => rfl
      refine and_congr_right fun _ => and_iff_left_of_imp fun hx => ?_
      rw [mark_of_find hdp]
      rcases hpart x hx with hs | hs
      · exact fun hc => by cases hs.symm.trans hc
      · exact fun hc => by cases hs.symm.trans hc
    have hledger : (s₂.updatePieceState p).Ledger lax := by
      rw [updatePieceState_core]
      exact h₂.recategorize_but.toLedger
    rcases hdp₂ : (s₂.updatePieceState p).findDlPiece p with - | dp₂
    · exact hmark₃ y x
    · dsimp only
      rw [← hmark₃]
      split_ifs with hz
      · rw [reposition_core]
        refine (hledger.mark_eraseDl hdp₂ y x).trans ?_
        split_ifs with hy
        · rw [hy, hledger.mark_of_busy hdp₂ hz]
        · rfl
      · rfl

theorem abortDownload_mark (h : s.Book lax) (ha : s.asserts (.abortDownload p b peer)) (y x : ℕ) :
    (s.abortDownload p b peer).mark y x =
      if y = p ∧ x = b ∧ (s.mark p b).2 = .requested then
        ((s.mark p b).1 - 1, if 0 < (s.mark p b).1 - 1 then .requested else .none)
      else s.mark y x := by
  obtain ⟨⟨-, hb⟩, -⟩ := ha
  rw [abortDownload]
  rcases hdp : s.findDlPiece p with - | dp
  · simp [mark_of_none hdp]
  dsimp only
  rw [mark_of_find hdp, BlockInfo.mark]
  dsimp only
  by_cases hreq : (s.block dp b).state = .requested
  · rw [if_neg (not_not.mpr hreq)]
    by_cases hmany : 0 < (s.block dp b).numPeers - 1
    · rw [if_pos hmany]
      refine (h.mark_modifyBlock hdp hb y x).trans ?_
      simp [BlockInfo.mark, hreq, hmany]
    · rw [if_neg hmany]
      have hfol := abort_follows h hdp hb hreq hmany
      have hbut := (h.but p).touch hdp hb hfol
      have hfind := (h.but p).find_touch hdp hfol p
      have hmark := h.toLedger.mark_touch (f := fun i => ⟨none, i.numPeers - 1, .none⟩) hdp hb
        hfol.index hfol.infoIdx
      rw [if_pos rfl] at hfind
      rw [← touch_core (h.buckets.find_index hdp)] at hbut hfind hmark
      have hgoal : ((s.modifyBlock dp b fun i => ⟨none, i.numPeers - 1, .none⟩).modifyDl p
          fun dp => { dp with requested := dp.requested - 1 }).mark y x =
          if y = p ∧ x = b ∧ (s.block dp b).state = .requested then
            ((s.block dp b).numPeers - 1,
              if 0 < (s.block dp b).numPeers - 1 then .requested else .none)
          else s.mark y x := by
        rw [hmark]
        simp [BlockInfo.mark, hreq, hmany]
      rw [← hgoal]
      split_ifs with hz
      · rw [reposition_core]
        refine (hbut.toLedger.mark_eraseDl hfind y x :).trans ?_
        split_ifs with hy
        · have hbusy : ({ dp with requested := dp.requested - 1 } : DownloadingPiece).busy = 0 := hz.1
          rw [hy, hbut.toLedger.mark_of_busy hfind hbusy]
        · rfl
      · rw [updatePieceState_core, hbut.buckets.mark_recategorize]
  · simp [hreq]

/-! ## Calls that leave the blocks alone -/

theorem PeersOnly.mark (h : PeersOnly s s') (y x : ℕ) : s'.mark y x = s.mark y x := h.1.mark y x

theorem setPiecePriority_mark (h : s.Ledger lax) (p n y x : ℕ) :
    (s.setPiecePriority p n).2.mark y x = s.mark y x := by
  have hsame := setPriority_sameBook s p n
  rw [setPiecePriority_core]
  split_ifs
  · rfl
  · rw [(hsame.ledger h).buckets.mark_recategorize, hsame.mark]
  · exact hsame.mark y x

theorem clearPeer_mark (s : PiecePicker) (peer : Option ℕ) (y x : ℕ) :
    (s.clearPeer peer).mark y x = s.mark y x := by
  have hfind : (s.clearPeer peer).findDlPiece y = s.findDlPiece y := rfl
  rw [mark, mark, hfind]
  rcases s.findDlPiece y with - | dp
  · rfl
  · have hblocks : (s.clearPeer peer).blocksForPiece dp = (s.blocksForPiece dp).map
        fun i => if i.peer = peer then { i with peer := none } else i := by
      have hn : (s.clearPeer peer).blocksInPiece dp.index = s.blocksInPiece dp.index := rfl
      rw [blocksForPiece, blocksForPiece, hn, List.map_take]
      simp only [clearPeer, List.getD_eq_getElem?_getD, List.getElem?_map]
      rcases s.blockInfo[dp.infoIdx]? with - | sl
      · rfl
      · rfl
    dsimp only
    rw [block, block, hblocks, List.getD_eq_getElem?_getD, List.getElem?_map,
      List.getD_eq_getElem?_getD]
    rcases (s.blocksForPiece dp)[x]? with - | i
    · rfl
    · simp only [Option.map_some, Option.getD_some]
      split_ifs <;> rfl

theorem lockPiece_mark (h : s.Ledger lax) (p y x : ℕ) : (s.lockPiece p).mark y x = s.mark y x := by
  rw [lockPiece]
  rcases s.findDlPiece p with - | dp
  · rfl
  · refine (h.mark_modifyDl ?_ ?_ y x :)
    · exact fun _ => rfl
    · exact fun _ => rfl

theorem startedHashJob_mark (h : s.Ledger lax) (p y x : ℕ) :
    (s.startedHashJob p).mark y x = s.mark y x := by
  refine h.mark_modifyDl ?_ ?_ y x
  · exact fun _ => rfl
  · exact fun _ => rfl

theorem completedHashJob_mark (h : s.Ledger lax) (p y x : ℕ) :
    (s.completedHashJob p).mark y x = s.mark y x := by
  refine h.mark_modifyDl ?_ ?_ y x
  · exact fun _ => rfl
  · exact fun _ => rfl

theorem mark_of_empty {c : PickerCore} (h : c.downloads = .empty) (y x : ℕ) :
    c.mark y x = (0, .none) := by
  refine mark_of_none ?_
  rw [findDlPiece]
  rcases c.downloadQueue y with - | q
  · rfl
  · rw [h]
    cases q <;> rfl

/-- The marks before a call, or those of an open piece. -/
theorem MarkedAs.writing {M : ℕ → ℕ → ℕ × BlockState} (h : s.MarkedAs p M)
    (hw : (s.mark y x).2 = .writing) : (M y x).2 = .writing := by
  rcases h with h | h
  · rwa [h] at hw
  · rw [h] at hw
    split_ifs at hw
    exact hw

theorem opened_writing {c : PickerCore} (hw : (c.opened p y x).2 = .writing) :
    (c.mark y x).2 = .writing := by
  rwa [opened_state (by rw [hw]; decide)] at hw

/-- A block that is finished is not being written, nor is a block of a piece we have. -/
theorem markAsFinished_writing (h : s.Book lax) (ha : s.asserts (.markAsFinished p b peer))
    (hw : ((s.markAsFinished p b peer).mark y x).2 = .writing) :
    (s.mark y x).2 = .writing ∧ ¬ (y = p ∧ x = b) := by
  by_cases hhave : s.downloadQueue p = none ∧ s.havePiece p
  · have hsame : s.markAsFinished p b peer = s := by
      rw [markAsFinished, hhave.1]
      exact if_pos hhave.2
    rw [hsame] at hw
    refine ⟨hw, fun hyx => ?_⟩
    rw [hyx.1, mark_of_none (h.buckets.find_eq_none.mpr
      (DownloadState.downloadQueue_eq_none.mp hhave.1))] at hw
    cases hw
  · have hM := (markAsFinished_markedAs h ha fun hq hh => hhave ⟨hq, hh⟩).writing hw
    split_ifs at hM with hyx
    exact ⟨opened_writing hM, hyx⟩

/-- `mark_as_writing` is the only call that makes a block a writing one. -/
theorem apply_writing (h : s.Book True) {op : Op} (ha : s.asserts op)
    (hop : ∀ p b peer, op ≠ .markAsWriting p b peer) (hw : ((s.apply op).mark y x).2 = .writing) :
    (s.mark y x).2 = .writing := by
  cases op with
  | incRefcountAll => exact hw
  | decRefcountAll => rwa [PiecePicker.apply, (peersOnly_decRefcountAll s).mark] at hw
  | incRefcount p => rwa [PiecePicker.apply, (peersOnly_incRefcount s p).mark] at hw
  | decRefcount p => rwa [PiecePicker.apply, (peersOnly_decRefcount s p).mark] at hw
  | incRefcountBitmask bitmask =>
    rwa [PiecePicker.apply, (peersOnly_incRefcountBitmask s bitmask).mark] at hw
  | decRefcountBitmask bitmask =>
    rwa [PiecePicker.apply, (peersOnly_decRefcountBitmask s bitmask).mark] at hw
  | weHave p => exact (weHave_markedAs h.toLedger p).writing hw
  | weDontHave p => exact (weDontHave_markedAs h.toLedger p).writing hw
  | weHaveAll =>
    rw [PiecePicker.apply, mark_of_empty rfl] at hw
    cases hw
  | setPiecePriority p n => rwa [PiecePicker.apply, setPiecePriority_mark h.toLedger] at hw
  | markAsDownloading p b peer reverse affinity =>
    rw [PiecePicker.apply, (markAsDownloading_spec h ha).2] at hw
    split_ifs at hw
    exact opened_writing hw
  | markAsWriting p b peer => exact absurd rfl (hop p b peer)
  | markAsFinished p b peer => exact (markAsFinished_writing h ha hw).1
  | markAsCanceled p b peer =>
    rw [PiecePicker.apply, markAsCanceled_mark h ha] at hw
    split_ifs at hw
    exact hw
  | writeFailed p b =>
    rw [PiecePicker.apply, writeFailed_mark h ha] at hw
    split_ifs at hw
    exact hw
  | lockPiece p => rwa [PiecePicker.apply, lockPiece_mark h.toLedger] at hw
  | restorePiece p blocks =>
    rw [PiecePicker.apply, restorePiece_mark h ha] at hw
    split_ifs at hw
    exact hw
  | abortDownload p b peer =>
    rw [PiecePicker.apply, abortDownload_mark h ha] at hw
    split_ifs at hw
    exact hw
  | piecePassed p => exact (piecePassed_markedAs h p).writing hw
  | startedHashJob p => rwa [PiecePicker.apply, startedHashJob_mark h.toLedger] at hw
  | completedHashJob p => rwa [PiecePicker.apply, completedHashJob_mark h.toLedger] at hw
  | clearPeer peer => rwa [PiecePicker.apply, clearPeer_mark] at hw
  | setPadBytes p bytes => exact (setPadBytes_markedAs h p bytes).writing hw
  | resize =>
    rw [PiecePicker.apply] at hw
    rcases hr : s.resize s.totalSize s.pieceSize with - | s' <;> rw [hr] at hw
    · exact hw
    · rw [Option.getD_some, mark_of_empty (resize_spec hr).downloads] at hw
      cases hw
  | pickPieces a => rwa [PiecePicker.apply, (s.pickPieces_effect a).core] at hw

end PiecePicker

end LibtorrentSN
