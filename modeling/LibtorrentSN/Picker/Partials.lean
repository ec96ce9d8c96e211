import LibtorrentSN.Picker.Mutators

/-!
# The piece picker: partial pieces

What the core of the picker (pieces, buckets of partial pieces, blocks and slots) is
supposed to look like, and how the steps all operations are made of act on it.

* `Buckets` — the buckets are sorted, and a piece is in the bucket of its state;
* `Slots` — every slot of `m_block_info` belongs to one partial piece or is free.

Under `Buckets` the partial pieces are a partial function, `findDlPiece`, and each step is
described by what it does to that function.
-/

namespace LibtorrentSN

theorem getD_modify {α : Type*} (l : List α) (i j : ℕ) (f : α → α) (d : α) :
    (l.modify i f).getD j d = if j = i ∧ i < l.length then f (l.getD i d) else l.getD j d := by
  simp only [List.getD_eq_getElem?_getD, List.getElem?_modify]
  by_cases hij : i = j
  · subst hij
    by_cases hi : i < l.length
    · simp [hi]
    · simp [hi]
  · simp [hij, Ne.symm hij]

namespace DownloadState

/-- Only an open piece is in no bucket. -/
theorem downloadQueue_eq_none {st : DownloadState} : st.downloadQueue = none ↔ st = pieceOpen := by
  cases st <;> simp [downloadQueue]

end DownloadState

/-- Another bucket is left as it is. -/
theorem Downloads.get_on_some (d : Downloads) (q j : DownloadQueue)
    (f : List DownloadingPiece → List DownloadingPiece) :
    (d.on (some q) f).get j = if j = q then f (d.get q) else d.get j :=
  d.get_set q j _

namespace PickerCore

variable {c : PickerCore} {p y : ℕ} {dp : DownloadingPiece} {st : DownloadState}

/-! ## Reading after writing -/

section Read
variable (c : PickerCore) (p y : ℕ) (st : DownloadState)

@[simp] theorem modifyPos_numPieces (f : PiecePos → PiecePos) :
    (c.modifyPos p f).numPieces = c.numPieces := by simp [modifyPos, numPieces]

/-- Another piece is left as it is. -/
theorem modifyPos_pos (f : PiecePos → PiecePos) :
    (c.modifyPos p f).pos y = if y = p ∧ p < c.numPieces then f (c.pos p) else c.pos y :=
  getD_modify ..

@[simp] theorem setState_numPieces : (c.setState p st).numPieces = c.numPieces :=
  c.modifyPos_numPieces p _

/-- The states after one has been set. -/
theorem setState_state :
    (c.setState p st).state y = if y = p ∧ p < c.numPieces then st else c.state y := by
  simp only [state, setState, modifyPos_pos]
  split_ifs <;> rfl

/-- The buckets that go with these states. -/
theorem setState_downloadQueue : (c.setState p st).downloadQueue y =
    if y = p ∧ p < c.numPieces then st.downloadQueue else c.downloadQueue y := by
  simp only [downloadQueue, setState_state]
  split_ifs <;> rfl

/-- Whether a piece is filtered depends on its priority. -/
theorem setState_filtered : (c.setState p st).filtered y ↔ c.filtered y := by
  simp only [filtered, setState, modifyPos_pos]
  split_ifs with h
  · rw [h.1]
    rfl
  · rfl

/-- A partial piece is a piece. -/
theorem lt_of_downloading {c : PickerCore} {p : ℕ} (h : c.downloading p) : p < c.numPieces := by
  by_contra hc
  apply h
  rw [state, pos, List.getD_eq_default _ _ (Nat.le_of_not_lt hc)]

/-- A partial piece is in a bucket. -/
theorem downloading_iff : c.downloading p ↔ ∃ q, c.downloadQueue p = some q := by
  rw [downloading, ← Option.ne_none_iff_exists', Ne, Ne, downloadQueue,
    DownloadState.downloadQueue_eq_none]

/-- A piece in a bucket is a piece. -/
theorem lt_of_downloadQueue {c : PickerCore} {p : ℕ} {q : DownloadQueue}
    (h : c.downloadQueue p = some q) : p < c.numPieces :=
  lt_of_downloading ((c.downloading_iff p).mpr ⟨q, h⟩)

end Read

/-! ## Buckets -/

/-- Every bucket is sorted, and holds exactly the pieces whose state names it. -/
structure Buckets (c : PickerCore) : Prop where
  sorted : ∀ j, SortedVector.Sorted DownloadingPiece.index (c.downloads.get j)
  queue : ∀ j, ∀ dp ∈ c.downloads.get j, c.downloadQueue dp.index = some j
  listed : ∀ p j, c.downloadQueue p = some j → ∃ dp ∈ c.downloads.get j, dp.index = p

/-- A partial piece is found in the bucket of its state. -/
theorem Buckets.find_eq_some (h : c.Buckets) :
    c.findDlPiece p = some dp ↔ dp ∈ c.downloads.all ∧ dp.index = p := by
  rw [Downloads.mem_all, findDlPiece]
  constructor
  · intro hf
    rcases hq : c.downloadQueue p with - | q <;> rw [hq] at hf
    · cases hf
    · obtain ⟨hm, hi⟩ := (h.sorted q).find_eq_some.mp hf
      exact ⟨⟨q, hm⟩, hi⟩
  · rintro ⟨⟨q, hm⟩, rfl⟩
    rw [h.queue q dp hm]
    exact (h.sorted q).find_eq_some.mpr ⟨hm, rfl⟩

/-- An open piece has no entry. -/
theorem Buckets.find_eq_none (h : c.Buckets) : c.findDlPiece p = none ↔ c.state p = .pieceOpen := by
  rw [← DownloadState.downloadQueue_eq_none]
  constructor
  · intro hf
    rcases hq : c.downloadQueue p with - | q
    · exact hq
    · obtain ⟨dp, hm, rfl⟩ := h.listed p q hq
      rw [h.find_eq_some.mpr ⟨Downloads.mem_all.mpr ⟨q, hm⟩, rfl⟩] at hf
      cases hf
  · intro hq
    have hq' : c.downloadQueue p = none := hq
    rw [findDlPiece, hq']

/-- The entry that is found is that of the piece. -/
theorem Buckets.find_index (h : c.Buckets) (hdp : c.findDlPiece p = some dp) : dp.index = p :=
  (h.find_eq_some.mp hdp).2

/-- It is in the bucket of the piece. -/
theorem Buckets.find_mem (h : c.Buckets) (hdp : c.findDlPiece p = some dp) :
    ∃ q, c.downloadQueue p = some q ∧ dp ∈ c.downloads.get q := by
  obtain ⟨hm, rfl⟩ := h.find_eq_some.mp hdp
  obtain ⟨q, hq⟩ := Downloads.mem_all.mp hm
  exact ⟨q, h.queue q dp hq, hq⟩

/-- A piece with an entry is partial. -/
theorem Buckets.downloading_of_find (h : c.Buckets) (hdp : c.findDlPiece p = some dp) :
    c.downloading p := by
  intro hc
  rw [h.find_eq_none.mpr hc] at hdp
  cases hdp

/-- A partial piece has an entry. -/
theorem Buckets.exists_find (h : c.Buckets) (hd : c.downloading p) :
    ∃ dp, c.findDlPiece p = some dp := by
  rcases hf : c.findDlPiece p with - | dp
  · exact absurd (h.find_eq_none.mp hf) hd
  · exact ⟨dp, rfl⟩

/-- Two cores with the same buckets, whose pieces name the same buckets. -/
theorem Buckets.congr {c' : PickerCore} (h : c.Buckets) (hd : c'.downloads = c.downloads)
    (hq : ∀ y, c'.downloadQueue y = c.downloadQueue y) : c'.Buckets := by
  refine ⟨fun j => by rw [hd]; exact h.sorted j, ?_, ?_⟩
  · intro j dp hm
    rw [hd] at hm
    rw [hq]
    exact h.queue j dp hm
  · intro p j hp
    rw [hq] at hp
    rw [hd]
    exact h.listed p j hp

/-- The entries depend on the buckets alone. -/
theorem findDlPiece_congr {c' : PickerCore} (hd : c'.downloads = c.downloads)
    (hq : ∀ y, c'.downloadQueue y = c.downloadQueue y) (y : ℕ) :
    c'.findDlPiece y = c.findDlPiece y := by
  simp only [findDlPiece, hq, hd]

/-! ### Changing a partial piece -/

section ModifyDl
variable {f : DownloadingPiece → DownloadingPiece}

@[simp] theorem modifyDl_pos : (c.modifyDl p f).pos y = c.pos y := rfl
@[simp] theorem modifyDl_state : (c.modifyDl p f).state y = c.state y := rfl
@[simp] theorem modifyDl_downloadQueue :
    (c.modifyDl p f).downloadQueue y = c.downloadQueue y := rfl
@[simp] theorem modifyDl_blockInfo : (c.modifyDl p f).blockInfo = c.blockInfo := rfl

/-- Another bucket is left as it is. -/
theorem modifyDl_get (j : DownloadQueue) : (c.modifyDl p f).downloads.get j =
    if c.downloadQueue p = some j then
      SortedVector.modify DownloadingPiece.index (c.downloads.get j) p f
    else c.downloads.get j := by
  rw [modifyDl]
  rcases hq : c.downloadQueue p with - | q
  · rw [if_neg (by simp)]
    rfl
  · dsimp only
    rw [Downloads.get_on_some]
    by_cases hj : j = q
    · rw [if_pos hj, if_pos (by rw [hj]), hj]
    · rw [if_neg hj, if_neg (by simpa using Ne.symm hj)]

/-- An entry may change, but not its index. -/
theorem Buckets.modifyDl (h : c.Buckets) (hf : ∀ dp, (f dp).index = dp.index) :
    (c.modifyDl p f).Buckets := by
  refine ⟨?_, ?_, ?_⟩
  · intro j
    rw [modifyDl_get]
    split_ifs
    · exact (h.sorted j).modify hf
    · exact h.sorted j
  · intro j dp hm
    rw [modifyDl_get] at hm
    rw [modifyDl_downloadQueue]
    split_ifs at hm
    · obtain ⟨a, ha, rfl⟩ := SortedVector.mem_modify.mp hm
      split_ifs
      · rw [hf]
        exact h.queue j a ha
      · exact h.queue j a ha
    · exact h.queue j dp hm
  · intro y j hy
    obtain ⟨dp, hm, rfl⟩ := h.listed y j hy
    rw [modifyDl_get]
    split_ifs
    · refine ⟨_, SortedVector.mem_modify.mpr ⟨dp, hm, rfl⟩, ?_⟩
      split_ifs
      · exact hf dp
      · rfl
    · exact ⟨dp, hm, rfl⟩

/-- The entries after one has changed. -/
theorem Buckets.find_modifyDl (h : c.Buckets) (hf : ∀ dp, (f dp).index = dp.index) (y : ℕ) :
    (c.modifyDl p f).findDlPiece y =
      if y = p then (c.findDlPiece y).map f else c.findDlPiece y := by
  rw [findDlPiece, findDlPiece, modifyDl_downloadQueue]
  rcases hq : c.downloadQueue y with - | q
  · split_ifs <;> rfl
  · dsimp only
    rw [modifyDl_get]
    by_cases hp : c.downloadQueue p = some q
    · rw [if_pos hp, (h.sorted q).find_modify hf]
    · rw [if_neg hp, if_neg]
      rintro rfl
      exact hp hq

end ModifyDl

/-! ### Moving, erasing and inserting a partial piece -/

/-- Take the piece out of its bucket. -/
theorem Buckets.get_erase (h : c.Buckets) (hdp : c.findDlPiece p = some dp) (j : DownloadQueue) :
    SortedVector.Sorted DownloadingPiece.index
        ((c.downloads.on (c.downloadQueue p)
          (SortedVector.erase DownloadingPiece.index · p)).get j) ∧
      ∀ x, x ∈ (c.downloads.on (c.downloadQueue p)
          (SortedVector.erase DownloadingPiece.index · p)).get j ↔
        x ∈ c.downloads.get j ∧ x.index ≠ p := by
  obtain ⟨q, hq, hm⟩ := h.find_mem hdp
  rw [hq, Downloads.get_on_some]
  by_cases hj : j = q
  · subst hj
    rw [if_pos rfl]
    exact ⟨(h.sorted j).erase p, fun x => (h.sorted j).mem_erase⟩
  · rw [if_neg hj]
    refine ⟨h.sorted j, fun x => ⟨fun hx => ⟨hx, ?_⟩, fun hx => hx.1⟩⟩
    rintro rfl
    have := h.queue j x hx
    rw [hq] at this
    exact hj (Option.some.inj this).symm

section Move
variable (hst : st ≠ .pieceOpen)
include hst

/-- The buckets after a move. -/
theorem Buckets.moveDl_get (h : c.Buckets) (hdp : c.findDlPiece p = some dp) :
    ∃ q, st.downloadQueue = some q ∧ ∀ j,
      SortedVector.Sorted DownloadingPiece.index ((c.moveDl dp st).downloads.get j) ∧
      ∀ x, x ∈ (c.moveDl dp st).downloads.get j ↔
        (x = dp ∧ j = q) ∨ (x ∈ c.downloads.get j ∧ x.index ≠ p) := by
  obtain rfl := h.find_index hdp
  obtain ⟨q, hq⟩ := Option.ne_none_iff_exists'.mp
    (mt DownloadState.downloadQueue_eq_none.mp hst)
  refine ⟨q, hq, fun j => ?_⟩
  obtain ⟨hs, hmem⟩ := h.get_erase hdp j
  have hget : (c.moveDl dp st).downloads.get j =
      if j = q then SortedVector.insert DownloadingPiece.index
        ((c.downloads.on (c.downloadQueue dp.index)
          (SortedVector.erase DownloadingPiece.index · dp.index)).get q) dp
      else (c.downloads.on (c.downloadQueue dp.index)
          (SortedVector.erase DownloadingPiece.index · dp.index)).get j := by
    rw [moveDl, hq]
    exact Downloads.get_on_some ..
  rw [hget]
  by_cases hj : j = q
  · subst hj
    rw [if_pos rfl]
    refine ⟨hs.insert fun b hb => ((hmem b).mp hb).2, fun x => ?_⟩
    rw [SortedVector.mem_insert, hmem]
    simp
  · rw [if_neg hj]
    refine ⟨hs, fun x => ?_⟩
    rw [hmem]
    simp [hj]

/-- An entry is moved to the bucket of a new state. -/
theorem Buckets.moveDl (h : c.Buckets) (hdp : c.findDlPiece p = some dp) :
    (c.moveDl dp st).Buckets := by
  obtain rfl := h.find_index hdp
  obtain ⟨q, hq, hget⟩ := h.moveDl_get hst hdp
  have hlt : dp.index < c.numPieces := lt_of_downloading (h.downloading_of_find hdp)
  have hqueue : ∀ y, (c.moveDl dp st).downloadQueue y =
      if y = dp.index then some q else c.downloadQueue y := by
    intro y
    rw [← hq]
    refine (c.setState_downloadQueue dp.index y st).trans ?_
    simp [hlt]
  refine ⟨fun j => (hget j).1, ?_, ?_⟩
  · intro j x hx
    rw [hqueue]
    rcases ((hget j).2 x).mp hx with ⟨rfl, rfl⟩ | ⟨hx, hne⟩
    · rw [if_pos rfl]
    · rw [if_neg hne]
      exact h.queue j x hx
  · intro y j hy
    rw [hqueue] at hy
    split_ifs at hy with hyp
    · exact ⟨dp, ((hget j).2 dp).mpr (.inl ⟨rfl, (Option.some.inj hy).symm⟩), hyp.symm⟩
    · obtain ⟨x, hx, rfl⟩ := h.listed y j hy
      exact ⟨x, ((hget j).2 x).mpr (.inr ⟨hx, hyp⟩), rfl⟩

/-- A move does not change which pieces are partial. -/
theorem Buckets.find_moveDl (h : c.Buckets) (hdp : c.findDlPiece p = some dp) (y : ℕ) :
    (c.moveDl dp st).findDlPiece y = c.findDlPiece y := by
  have h' := h.moveDl hst hdp
  obtain ⟨q, hq, hget⟩ := h.moveDl_get hst hdp
  have key : ∀ x, (c.moveDl dp st).findDlPiece y = some x ↔ c.findDlPiece y = some x := by
    intro x
    rw [h'.find_eq_some, h.find_eq_some, Downloads.mem_all, Downloads.mem_all]
    refine and_congr_left fun hxy => ⟨?_, ?_⟩
    · rintro ⟨j, hx⟩
      rcases ((hget j).2 x).mp hx with ⟨rfl, -⟩ | ⟨hx, -⟩
      · exact Downloads.mem_all.mp (h.find_eq_some.mp hdp).1
      · exact ⟨j, hx⟩
    · rintro ⟨j, hx⟩
      by_cases hxp : x.index = p
      · have : x = dp := by
          have := h.find_eq_some.mpr ⟨Downloads.mem_all.mpr ⟨j, hx⟩, hxp⟩
          rw [hdp] at this
          exact (Option.some.inj this).symm
        exact ⟨q, ((hget q).2 x).mpr (.inl ⟨this, rfl⟩)⟩
      · exact ⟨j, ((hget j).2 x).mpr (.inr ⟨hx, hxp⟩)⟩
  exact Option.ext key

end Move

section Erase

/-- An entry is removed, and its piece is open. -/
theorem Buckets.eraseDl (h : c.Buckets) (hdp : c.findDlPiece p = some dp) :
    (c.eraseDl dp).Buckets := by
  obtain rfl := h.find_index hdp
  have hlt : dp.index < c.numPieces := lt_of_downloading (h.downloading_of_find hdp)
  have hqueue : ∀ y, (c.eraseDl dp).downloadQueue y =
      if y = dp.index then none else c.downloadQueue y := by
    intro y
    refine (c.setState_downloadQueue dp.index y .pieceOpen).trans ?_
    simp [hlt, DownloadState.downloadQueue]
  have hget := fun j => h.get_erase hdp j
  refine ⟨fun j => (hget j).1, ?_, ?_⟩
  · intro j x hx
    obtain ⟨hx, hne⟩ := ((hget j).2 x).mp hx
    rw [hqueue, if_neg hne]
    exact h.queue j x hx
  · intro y j hy
    rw [hqueue] at hy
    split_ifs at hy with hyp
    obtain ⟨x, hx, rfl⟩ := h.listed y j hy
    exact ⟨x, ((hget j).2 x).mpr ⟨hx, hyp⟩, rfl⟩

/-- The entries without the one that is removed. -/
theorem Buckets.find_eraseDl (h : c.Buckets) (hdp : c.findDlPiece p = some dp) (y : ℕ) :
    (c.eraseDl dp).findDlPiece y = if y = p then none else c.findDlPiece y := by
  have h' := h.eraseDl hdp
  have hget := fun j => h.get_erase hdp j
  obtain rfl := h.find_index hdp
  apply Option.ext
  intro x
  rw [h'.find_eq_some, Downloads.mem_all]
  split_ifs with hyp
  · simp only [iff_false, not_and]
    rintro ⟨j, hx⟩ rfl
    exact ((hget j).2 x).mp hx |>.2 hyp
  · rw [h.find_eq_some, Downloads.mem_all]
    refine and_congr_left fun hxy => ⟨?_, ?_⟩
    · rintro ⟨j, hx⟩
      exact ⟨j, (((hget j).2 x).mp hx).1⟩
    · rintro ⟨j, hx⟩
      exact ⟨j, ((hget j).2 x).mpr ⟨hx, hxy ▸ hyp⟩⟩

end Erase

section Insert

@[simp] theorem freshDl_index : (c.freshDl p).index = p := rfl

@[simp] theorem takeSlot_pieceMap : c.takeSlot.pieceMap = c.pieceMap := by
  rw [takeSlot]
  split <;> rfl

@[simp] theorem takeSlot_pieceSize : c.takeSlot.pieceSize = c.pieceSize := by
  rw [takeSlot]
  split <;> rfl

@[simp] theorem takeSlot_blocksInLastPiece :
    c.takeSlot.blocksInLastPiece = c.blocksInLastPiece := by
  rw [takeSlot]
  split <;> rfl

@[simp] theorem insertDl_pieceMap : (c.insertDl p).pieceMap = c.pieceMap := takeSlot_pieceMap

/-- A new entry changes no piece. -/
theorem insertDl_pos : (c.insertDl p).pos y = c.pos y := by
  rw [pos, pos, insertDl_pieceMap]

/-- An open piece becomes a partial one in state `st`. -/
def startDl (c : PickerCore) (p : ℕ) (st : DownloadState) : PickerCore :=
  (c.setState p st).insertDl p

variable (hst : st.downloadQueue = some .pieceDownloading)

/-- The states after a piece has been started. -/
theorem startDl_state (hlt : p < c.numPieces) :
    (c.startDl p st).state y = if y = p then st else c.state y := by
  have h : (c.startDl p st).state y = (c.setState p st).state y := by
    rw [state, state, startDl, insertDl_pos]
  rw [h, setState_state]
  simp [hlt]

/-- The buckets after that: a new entry is in `piece_downloading`. -/
theorem startDl_get (j : DownloadQueue) : (c.startDl p st).downloads.get j =
    if j = .pieceDownloading then SortedVector.insert DownloadingPiece.index
      c.downloads.downloading ((c.setState p st).freshDl p)
    else c.downloads.get j :=
  Downloads.get_on_some ..

include hst

/-- An open piece is started. -/
theorem Buckets.startDl (h : c.Buckets) (hlt : p < c.numPieces) (ho : c.state p = .pieceOpen) :
    (c.startDl p st).Buckets := by
  have hno : ∀ j, ∀ b ∈ c.downloads.get j, b.index ≠ p := by
    rintro j b hb rfl
    have := h.queue j b hb
    rw [downloadQueue, ho] at this
    cases this
  have hqueue : ∀ y, (c.startDl p st).downloadQueue y =
      if y = p then some .pieceDownloading else c.downloadQueue y := by
    intro y
    rw [downloadQueue, startDl_state hlt]
    split_ifs
    · exact hst
    · rfl
  refine ⟨?_, ?_, ?_⟩
  · intro j
    rw [startDl_get]
    split_ifs with hj
    · exact (h.sorted .pieceDownloading).insert (hno .pieceDownloading)
    · exact h.sorted j
  · intro j x hx
    rw [startDl_get] at hx
    rw [hqueue]
    split_ifs at hx with hj
    · rcases SortedVector.mem_insert.mp hx with rfl | hx
      · rw [freshDl_index, if_pos rfl, hj]
      · rw [if_neg (hno .pieceDownloading x hx), hj]
        exact h.queue .pieceDownloading x hx
    · rw [if_neg (hno j x hx)]
      exact h.queue j x hx
  · intro y j hy
    rw [hqueue] at hy
    rw [startDl_get]
    split_ifs at hy with hyp
    · obtain rfl := Option.some.inj hy
      rw [if_pos rfl]
      exact ⟨_, SortedVector.mem_insert.mpr (.inl rfl), hyp.symm⟩
    · obtain ⟨x, hx, rfl⟩ := h.listed y j hy
      split_ifs with hj
      · subst hj
        exact ⟨x, SortedVector.mem_insert.mpr (.inr hx), rfl⟩
      · exact ⟨x, hx, rfl⟩

/-- The entries with that of the new piece. -/
theorem Buckets.find_startDl (h : c.Buckets) (hlt : p < c.numPieces)
    (ho : c.state p = .pieceOpen) (y : ℕ) :
    (c.startDl p st).findDlPiece y =
      if y = p then some ((c.setState p st).freshDl p) else c.findDlPiece y := by
  have h' := h.startDl hst hlt ho
  split_ifs with hyp
  · subst hyp
    rw [h'.find_eq_some, Downloads.mem_all]
    refine ⟨⟨.pieceDownloading, ?_⟩, rfl⟩
    rw [startDl_get, if_pos rfl]
    exact SortedVector.mem_insert.mpr (.inl rfl)
  · apply Option.ext
    intro x
    rw [h'.find_eq_some, h.find_eq_some, Downloads.mem_all, Downloads.mem_all]
    refine and_congr_left fun hxy => exists_congr fun j => ?_
    rw [startDl_get]
    split_ifs with hj
    · subst hj
      rw [SortedVector.mem_insert]
      constructor
      · rintro (rfl | hx)
        · exact absurd hxy.symm hyp
        · exact hx
      · exact .inr
    · rfl

end Insert

end PickerCore

/-! ## Slots -/

namespace Downloads

variable {d : Downloads} {dp : DownloadingPiece} {q : DownloadQueue}

/-- Taking a piece out of one bucket takes it out of all partial pieces. -/
theorem all_perm_set {l : List DownloadingPiece} (h : (d.get q).Perm (dp :: l)) :
    d.all.Perm (dp :: (d.set q l).all) := by
  cases q with
  | pieceDownloading =>
    exact ((h.append_right d.full).append_right d.finished).append_right d.zeroPrio
  | pieceFull =>
    have := (h.append_left d.downloading).trans List.perm_middle
    exact (this.append_right d.finished).append_right d.zeroPrio
  | pieceFinished =>
    have := (h.append_left (d.downloading ++ d.full)).trans List.perm_middle
    exact this.append_right d.zeroPrio
  | pieceZeroPrio =>
    exact (h.append_left (d.downloading ++ d.full ++ d.finished)).trans List.perm_middle

/-- All entries are the one that is removed and the others. -/
theorem all_perm_erase (hs : SortedVector.Sorted DownloadingPiece.index (d.get q))
    (hm : dp ∈ d.get q) :
    d.all.Perm (dp :: (d.on (some q)
      (SortedVector.erase DownloadingPiece.index · dp.index)).all) :=
  all_perm_set (hs.perm_erase hm)

/-- All entries are the one that is added and the others. -/
theorem all_perm_insert (d : Downloads) (q : DownloadQueue) (dp : DownloadingPiece) :
    (d.on (some q) (SortedVector.insert DownloadingPiece.index · dp)).all.Perm (dp :: d.all) := by
  have h : ((d.on (some q) (SortedVector.insert DownloadingPiece.index · dp)).get q).Perm
      (dp :: d.get q) := by
    rw [get_on_some, if_pos rfl]
    exact SortedVector.insert_perm
  have := all_perm_set h
  cases q <;> exact this

/-- The slots are kept when an entry changes. -/
theorem all_map_modify {f : DownloadingPiece → DownloadingPiece}
    (hf : ∀ dp, (f dp).infoIdx = dp.infoIdx) (q : Option DownloadQueue) (p : ℕ) :
    (d.on q (SortedVector.modify DownloadingPiece.index · p f)).all.map
      DownloadingPiece.infoIdx = d.all.map DownloadingPiece.infoIdx := by
  have hm : ∀ l : List DownloadingPiece,
      (SortedVector.modify DownloadingPiece.index l p f).map DownloadingPiece.infoIdx =
        l.map DownloadingPiece.infoIdx := by
    intro l
    rw [SortedVector.modify, List.map_map]
    refine List.map_congr_left fun dp _ => ?_
    simp only [Function.comp]
    split_ifs
    · exact hf dp
    · rfl
  rcases q with - | q
  · rfl
  · cases q <;> simp only [on, set, get, all, List.map_append, hm]

end Downloads

namespace PickerCore

variable {c : PickerCore} {p y : ℕ} {dp dp' : DownloadingPiece} {st : DownloadState}

/-- Every slot belongs to one partial piece or is free, and there are no more slots than
16 bits can name. -/
structure Slots (c : PickerCore) : Prop where
  perm : (c.downloads.all.map DownloadingPiece.infoIdx ++ c.freeBlockInfos).Perm
    (List.range c.blockInfo.length)
  length : ∀ sl ∈ c.blockInfo, sl.length = c.blocksPerPiece
  bound : c.blockInfo.length < 2 ^ 16

/-- No slot is used twice, or both used and free. -/
theorem Slots.nodup (h : c.Slots) :
    (c.downloads.all.map DownloadingPiece.infoIdx ++ c.freeBlockInfos).Nodup :=
  h.perm.nodup_iff.mpr List.nodup_range

/-- Two partial pieces do not share a slot. -/
theorem Slots.inj (h : c.Slots) (hd : dp ∈ c.downloads.all) (hd' : dp' ∈ c.downloads.all)
    (he : dp.infoIdx = dp'.infoIdx) : dp = dp' :=
  List.inj_on_of_nodup_map (List.Nodup.of_append_left h.nodup) hd hd' he

/-- A slot in use is there. -/
theorem Slots.lt (h : c.Slots) (hd : dp ∈ c.downloads.all) : dp.infoIdx < c.blockInfo.length := by
  have := h.perm.mem_iff (a := dp.infoIdx)
  rw [List.mem_range] at this
  exact this.mp (List.mem_append_left _ (List.mem_map_of_mem hd))

/-- The slots of a core whose partial pieces have the same slots. -/
theorem Slots.congr {c' : PickerCore} (h : c.Slots)
    (hm : (c'.downloads.all.map DownloadingPiece.infoIdx ++ c'.freeBlockInfos).Perm
      (c.downloads.all.map DownloadingPiece.infoIdx ++ c.freeBlockInfos))
    (hb : c'.blockInfo = c.blockInfo) (hs : c'.pieceSize = c.pieceSize) : c'.Slots := by
  refine ⟨?_, ?_, ?_⟩
  · rw [hb]
    exact hm.trans h.perm
  · rw [hb, blocksPerPiece, blockSize, hs]
    exact h.length
  · rw [hb]
    exact h.bound

/-- An entry may change, but not its slot. -/
theorem Slots.modifyDl (h : c.Slots) {f : DownloadingPiece → DownloadingPiece}
    (hf : ∀ dp, (f dp).infoIdx = dp.infoIdx) : (c.modifyDl p f).Slots := by
  refine h.congr ?_ rfl rfl
  rw [show (c.modifyDl p f).downloads = _ from rfl, PickerCore.modifyDl,
    Downloads.all_map_modify hf]

/-- An entry takes its slot with it. -/
theorem Slots.moveDl (h : c.Slots) (hb : c.Buckets) (hst : st ≠ .pieceOpen)
    (hdp : c.findDlPiece p = some dp) : (c.moveDl dp st).Slots := by
  obtain rfl := hb.find_index hdp
  obtain ⟨q, hq, hm⟩ := hb.find_mem hdp
  obtain ⟨q', hq'⟩ := Option.ne_none_iff_exists'.mp
    (mt DownloadState.downloadQueue_eq_none.mp hst)
  refine h.congr (List.Perm.append_right _ (List.Perm.map _ ?_)) rfl rfl
  have h₁ := Downloads.all_perm_erase (hb.sorted q) hm
  have h₂ : (c.moveDl dp st).downloads.all.Perm (dp :: (c.downloads.on (some q)
      (SortedVector.erase DownloadingPiece.index · dp.index)).all) := by
    rw [PickerCore.moveDl, hq, hq']
    exact Downloads.all_perm_insert _ _ _
  exact h₂.trans h₁.symm

/-- The slot of an entry that is removed is free. -/
theorem Slots.eraseDl (h : c.Slots) (hb : c.Buckets) (hdp : c.findDlPiece p = some dp) :
    (c.eraseDl dp).Slots := by
  obtain rfl := hb.find_index hdp
  obtain ⟨q, hq, hm⟩ := hb.find_mem hdp
  refine h.congr ?_ rfl rfl
  have h₁ := (Downloads.all_perm_erase (hb.sorted q) hm).map DownloadingPiece.infoIdx
  have h₂ := (h₁.append_right c.freeBlockInfos).symm
  refine List.Perm.trans ?_ h₂
  rw [PickerCore.eraseDl, hq]
  exact List.perm_middle

/-- The slots with the one that is taken next. -/
theorem nextSlot_perm (h : c.Slots) :
    (c.nextSlot :: (c.downloads.all.map DownloadingPiece.infoIdx ++ c.takeSlot.freeBlockInfos)).Perm
      (List.range c.takeSlot.blockInfo.length) := by
  have hperm := h.perm
  rw [nextSlot, takeSlot]
  rcases hf : c.freeBlockInfos with - | ⟨i, rest⟩ <;> rw [hf] at hperm
  · dsimp only
    rw [List.length_append, List.length_singleton, List.range_succ]
    exact (hperm.cons _).trans (List.perm_append_singleton _ _).symm
  · exact List.perm_middle.symm.trans hperm

/-- The slot of a new partial piece, as long as there are few enough. -/
theorem Slots.nextSlot_lt (h : c.Slots)
    (hroom : c.freeBlockInfos = [] → c.blockInfo.length < 2 ^ 16 - 1) :
    c.nextSlot < c.takeSlot.blockInfo.length ∧ c.takeSlot.blockInfo.length < 2 ^ 16 := by
  have hlt : c.nextSlot < c.takeSlot.blockInfo.length := by
    have := (nextSlot_perm h).mem_iff (a := c.nextSlot)
    rw [List.mem_range] at this
    exact this.mp List.mem_cons_self
  refine ⟨hlt, ?_⟩
  have hb := h.bound
  rw [takeSlot]
  rcases hf : c.freeBlockInfos with - | ⟨i, rest⟩
  · have := hroom hf
    simp only [List.length_append, List.length_singleton]
    omega
  · exact hb

/-- A new entry has a slot of its own. -/
theorem Slots.insertDl (h : c.Slots) (hn : c.blocksInPiece p ≤ c.blocksPerPiece)
    (hroom : c.freeBlockInfos = [] → c.blockInfo.length < 2 ^ 16 - 1) : (c.insertDl p).Slots := by
  obtain ⟨hlt, hbound⟩ := h.nextSlot_lt hroom
  have hidx : (c.freshDl p).infoIdx = c.nextSlot := Nat.mod_eq_of_lt (by omega)
  have hbpp : (c.insertDl p).blocksPerPiece = c.blocksPerPiece := by
    rw [blocksPerPiece, blocksPerPiece, blockSize, blockSize,
      show (c.insertDl p).pieceSize = c.pieceSize from takeSlot_pieceSize]
  have hlen : (c.insertDl p).blockInfo.length = c.takeSlot.blockInfo.length := by
    simp [PickerCore.insertDl]
  refine ⟨?_, ?_, ?_⟩
  · rw [hlen]
    refine List.Perm.trans ?_ (nextSlot_perm h)
    have h₁ := (c.downloads.all_perm_insert .pieceDownloading (c.freshDl p)).map
      DownloadingPiece.infoIdx
    rw [List.map_cons, hidx] at h₁
    exact h₁.append_right c.takeSlot.freeBlockInfos
  · -- all slots keep their length; that of the new piece is written up to its blocks
    have hold : ∀ sl ∈ c.takeSlot.blockInfo, sl.length = c.blocksPerPiece := by
      intro sl hsl
      rw [takeSlot] at hsl
      split at hsl
      · rcases List.mem_append.mp hsl with hsl | hsl
        · exact h.length sl hsl
        · rw [List.mem_singleton.mp hsl, List.length_replicate]
      · exact h.length sl hsl
    intro sl hsl
    rw [hbpp]
    obtain ⟨i, hi, rfl⟩ := List.mem_iff_getElem.mp hsl
    have hi' : i < c.takeSlot.blockInfo.length := by rwa [hlen] at hi
    simp only [PickerCore.insertDl, List.getElem_modify]
    have := hold _ (List.getElem_mem hi')
    split_ifs
    · simp only [List.length_append, List.length_drop, freshBlocks, List.length_map,
        List.length_range, this]
      omega
    · exact this
  · rwa [hlen]

/-- A block may change. -/
theorem Slots.modifyBlock (h : c.Slots) (b : ℕ) (f : BlockInfo → BlockInfo) :
    (c.modifyBlock dp b f).Slots := by
  have hlen : (c.modifyBlock dp b f).blockInfo.length = c.blockInfo.length := by
    simp [PickerCore.modifyBlock]
  refine ⟨?_, ?_, ?_⟩
  · rw [hlen]
    exact h.perm
  · intro sl hsl
    obtain ⟨i, hi, rfl⟩ := List.mem_iff_getElem.mp hsl
    have hi' : i < c.blockInfo.length := by rwa [hlen] at hi
    have := h.length _ (List.getElem_mem hi')
    simp only [PickerCore.modifyBlock, List.getElem_modify]
    split_ifs
    · rw [List.length_modify]
      exact this
    · exact this
  · rw [hlen]
    exact h.bound

/-! ## Blocks -/

/-- The number of blocks in a state. -/
def tally (st : BlockState) (blocks : List BlockInfo) : ℕ := blocks.countP (·.state = st)

/-- Each block is in one of the four states. -/
theorem tally_sum (blocks : List BlockInfo) :
    tally .none blocks + tally .requested blocks + tally .writing blocks +
      tally .finished blocks = blocks.length := by
  simp only [tally]
  induction blocks with
  | nil => rfl
  | cons b blocks ih =>
    simp only [List.countP_cons, List.length_cons]
    rcases hs : b.state <;> simp <;> omega

/-- Some block is in a state that is counted. -/
theorem tally_pos {st : BlockState} {blocks : List BlockInfo} :
    0 < tally st blocks ↔ ∃ b ∈ blocks, b.state = st := by
  simp [tally, List.countP_pos_iff]

/-- Changing one block moves it from one count to another. -/
theorem tally_modify {blocks : List BlockInfo} {b : ℕ} (hb : b < blocks.length)
    (f : BlockInfo → BlockInfo) (st : BlockState) :
    tally st (blocks.modify b f) + (if (blocks.getD b default).state = st then 1 else 0) =
      tally st blocks + (if (f (blocks.getD b default)).state = st then 1 else 0) := by
  induction blocks generalizing b with
  | nil => exact absurd hb (Nat.not_lt_zero b)
  | cons x blocks ih =>
    cases b with
    | zero =>
      simp only [tally, List.modify_zero_cons, List.countP_cons, List.getD_cons_zero,
        decide_eq_true_eq]
      omega
    | succ b =>
      have := ih (Nat.lt_of_succ_lt_succ hb)
      simp only [tally, List.modify_succ_cons, List.countP_cons, List.getD_cons_succ] at this ⊢
      omega

/-- The slot of a piece has room for all its blocks. -/
theorem blocksForPiece_length (h : c.Slots) (hd : dp ∈ c.downloads.all)
    (hn : c.blocksInPiece dp.index ≤ c.blocksPerPiece) :
    (c.blocksForPiece dp).length = c.blocksInPiece dp.index := by
  have hlt := h.lt hd
  rw [blocksForPiece, List.length_take, List.getD_eq_getElem _ _ hlt,
    h.length _ (List.getElem_mem hlt)]
  omega

/-- The blocks of all pieces after one of them has changed. -/
theorem blocksForPiece_modifyBlock {b : ℕ} {f : BlockInfo → BlockInfo}
    (hlt : dp.infoIdx < c.blockInfo.length) :
    (c.modifyBlock dp b f).blocksForPiece dp' =
      if dp'.infoIdx = dp.infoIdx then (c.blocksForPiece dp').modify b f
      else c.blocksForPiece dp' := by
  have hn : (c.modifyBlock dp b f).blocksInPiece dp'.index = c.blocksInPiece dp'.index := rfl
  rw [blocksForPiece, blocksForPiece, hn]
  simp only [modifyBlock, getD_modify]
  by_cases he : dp'.infoIdx = dp.infoIdx
  · rw [if_pos ⟨he, hlt⟩, if_pos he, he, List.take_modify]
  · rw [if_neg (fun hc => he hc.1), if_neg he]

end PickerCore

end LibtorrentSN
