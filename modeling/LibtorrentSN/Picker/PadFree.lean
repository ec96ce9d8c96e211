import LibtorrentSN.Picker.BookReach

/-!
# The piece picker without padding

Only `set_pad_bytes` makes padding. As long as it is not called, every call leaves the record of the
padding and all the counters of its bytes at zero.
-/

namespace LibtorrentSN

namespace PiecePicker

open PickerCore

variable (s : PiecePicker) (p b : ℕ) (dp : DownloadingPiece) (peer : Option ℕ)

/-- `m_pads_in_piece` and the counters of pad bytes. -/
def pads : List (ℕ × ℕ) × ℤ × ℤ × ℤ × ℤ :=
  (s.padsInPiece, s.numPadBytes, s.havePadBytes, s.filteredPadBytes, s.haveFilteredPadBytes)

/-- No padding, and none that is counted. -/
def PadFree : Prop := s.pads = ([], 0, 0, 0, 0)

/-! ## The functions that do not count padding -/

/-- The pads are in the core. -/
theorem withCore_pads {c : PickerCore} (h : c.padsInPiece = s.padsInPiece) :
    (s.withCore c).pads = s.pads := by
  rw [pads, pads, withCore, h]

/-- A new slot of blocks changes no pads. -/
@[simp] theorem takeSlot_pads (c : PickerCore) : c.takeSlot.padsInPiece = c.padsInPiece := by
  rw [takeSlot]
  split <;> rfl

/-- The number of peers has nothing to do with the pads. -/
@[simp] theorem setState_pads (st : DownloadState) : (s.setState p st).pads = s.pads := rfl
@[simp] theorem addPeers_pads (n : ℤ) : (s.addPeers p n).pads = s.pads := rfl
@[simp] theorem setPriority_pads (n : ℕ) : (s.setPriority p n).pads = s.pads := rfl
@[simp] theorem setIndex_pads (v : ℤ) : (s.setIndex p v).pads = s.pads := rfl
@[simp] theorem modifyDl_pads (f) : (s.modifyDl p f).pads = s.pads := rfl
@[simp] theorem modifyBlock_pads (f) : (s.modifyBlock dp b f).pads = s.pads := rfl
@[simp] theorem addPassed_pads (n : ℤ) : (s.addPassed n).pads = s.pads := rfl
@[simp] theorem unpass_pads : (s.unpass dp).pads = s.pads := rfl
@[simp] theorem remove_pads (prio i : ℤ) : (s.remove prio i).pads = s.pads := rfl
@[simp] theorem update_pads (prio i : ℤ) : (s.update prio i).pads = s.pads := rfl
@[simp] theorem updatePieces_pads : s.updatePieces.pads = s.pads := rfl
@[simp] theorem eraseDownloadPiece_pads : (s.eraseDownloadPiece dp).pads = s.pads := rfl
@[simp] theorem incRefcountAll_pads : s.incRefcountAll.pads = s.pads := rfl
@[simp] theorem clearPeer_pads : (s.clearPeer peer).pads = s.pads := rfl

/-- The list of pieces is another part of the state. -/
@[simp] theorem add_pads : (s.add p).pads = s.pads := by
  rw [add]
  dsimp only
  split_ifs <;> rfl

@[simp] theorem reposition_pads (prev : ℤ) : (s.reposition prev p).pads = s.pads := by
  rw [reposition]
  split_ifs <;> simp

@[simp] theorem updateFrom_pads (prev : ℤ) : (s.updateFrom prev p).pads = s.pads := by
  rw [updateFrom]
  split_ifs <;> simp

@[simp] theorem updatePieceState_pads : (s.updatePieceState p).pads = s.pads := by
  rw [updatePieceState]
  split
  · rfl
  · dsimp only
    split_ifs
    · rfl
    · rw [reposition_pads]
      exact withCore_pads s rfl

/-- A piece that becomes partial keeps its pads. -/
@[simp] theorem addDownloadPiece_pads : (s.addDownloadPiece p).pads = s.pads := by
  rw [addDownloadPiece, updatePieceState_pads]
  exact withCore_pads s (takeSlot_pads _)

/-- The recent extents are another part of the state. -/
@[simp] theorem recordDownloadingPiece_pads : (s.recordDownloadingPiece p).pads = s.pads := by
  rw [recordDownloadingPiece]
  dsimp only
  split_ifs <;> rfl

@[simp] theorem beginDownload_pads (st : DownloadState) (affinity : Bool) :
    (s.beginDownload p st affinity).pads = s.pads := by
  rw [beginDownload]
  split_ifs <;> simp

@[simp] theorem makeReverse_pads (reverse : Bool) : (s.makeReverse p dp reverse).pads = s.pads := by
  rw [makeReverse]
  split_ifs <;> simp

@[simp] theorem unreverse_pads (reverse : Bool) : (s.unreverse p reverse).pads = s.pads := by
  rw [unreverse]
  split_ifs <;> simp

@[simp] theorem requestBlock_pads : (s.requestBlock p b dp peer).pads = s.pads := by
  rw [requestBlock]
  split_ifs <;> simp

@[simp] theorem writeBlock_pads : (s.writeBlock p b dp peer).pads = s.pads := by
  simp [writeBlock]

@[simp] theorem finishBlock_pads : (s.finishBlock p b dp peer).pads = s.pads := by
  simp [finishBlock]

@[simp] theorem dropPassed_pads : (s.dropPassed p).pads = s.pads := by
  rw [dropPassed]
  split <;> simp

@[simp] theorem closeCursors_pads : (s.closeCursors p).pads = s.pads := by
  rw [closeCursors]
  split_ifs <;> rfl

@[simp] theorem openCursors_pads : (s.openCursors p).pads = s.pads := by
  rw [openCursors]
  split_ifs <;> rfl

@[simp] theorem eraseIfUnused_pads : (s.eraseIfUnused p).pads = s.pads := by
  rw [eraseIfUnused]
  split
  · rfl
  · split_ifs <;> simp

@[simp] theorem breakFor_pads : (s.breakFor p).pads = s.pads := by
  rw [breakFor]
  split_ifs <;> rfl

/-! ## The calls -/

/-- A loop keeps the pads if its body does. -/
theorem foldl_pads {β : Type} (f : PiecePicker → β → PiecePicker) (hf : ∀ s x, (f s x).pads = s.pads)
    (l : List β) : (l.foldl f s).pads = s.pads := by
  induction l generalizing s with
  | nil => rfl
  | cons x l ih => exact (ih (f s x)).trans (hf s x)

/-- A seed has left. -/
theorem decRefcountAll_pads : s.decRefcountAll.pads = s.pads := by
  rw [decRefcountAll]
  split_ifs <;> rfl

/-- A peer has come. -/
theorem incRefcountBitmask_pads (bitmask : List Bool) : (s.incRefcountBitmask bitmask).pads = s.pads := by
  rw [incRefcountBitmask]
  dsimp only
  split_ifs
  · rfl
  · exact s.incRefcountAll_pads
  · exact s.foldl_pads _ (fun s p => by rw [incRefcount, reposition_pads, addPeers_pads]) _
  · exact s.foldl_pads _ (fun s p => s.addPeers_pads p 1) _

/-- A peer has left. -/
theorem decRefcountBitmask_pads (bitmask : List Bool) : (s.decRefcountBitmask bitmask).pads = s.pads := by
  rw [decRefcountBitmask]
  dsimp only
  split_ifs
  · rfl
  · exact s.decRefcountAll_pads
  · exact s.foldl_pads _ (fun s p => by rw [decOne, updateFrom_pads, addPeers_pads, breakFor_pads]) _
  · exact s.foldl_pads _ (fun s p => by rw [addPeers_pads, breakFor_pads]) _

/-- A request adds no pads. -/
theorem markAsDownloading_pads (reverse affinity : Bool) :
    (s.markAsDownloading p b peer reverse affinity).2.pads = s.pads := by
  rw [markAsDownloading]
  split
  · dsimp only
    split
    · simp
    · split_ifs <;> simp
  · split
    · rfl
    · split_ifs <;> simp

/-- A block that has arrived adds none. -/
theorem markAsWriting_pads : (s.markAsWriting p b peer).2.pads = s.pads := by
  rw [markAsWriting]
  split
  · split_ifs
    · rfl
    · dsimp only
      split
      · simp
      · split_ifs <;> simp
  · split
    · rfl
    · split_ifs <;> simp

/-- A block that is given up adds none. -/
theorem markAsCanceled_pads : (s.markAsCanceled p b peer).pads = s.pads := by
  rw [markAsCanceled]
  split
  · rfl
  · dsimp only
    split_ifs <;> simp

/-- A block that was not written adds none. -/
theorem writeFailed_pads : (s.writeFailed p b).pads = s.pads := by
  rw [writeFailed]
  split
  · rfl
  · dsimp only
    split_ifs <;> simp

/-- A lock adds none. -/
theorem lockPiece_pads : (s.lockPiece p).pads = s.pads := by
  rw [lockPiece]
  split <;> simp

theorem restoreBlock_pads : (restoreBlock p s b).pads = s.pads := by
  rw [restoreBlock]
  split
  · rfl
  · dsimp only
    split_ifs <;> simp

/-- A piece that is started over keeps its pads. -/
theorem restorePiece_pads (blocks : List ℕ) : (s.restorePiece p blocks).pads = s.pads := by
  have hfold : ∀ s : PiecePicker, (blocks.foldl (restoreBlock p) s).pads = s.pads := fun s =>
    s.foldl_pads _ (fun s b => s.restoreBlock_pads p b) blocks
  rw [restorePiece]
  split
  · rfl
  · dsimp only
    split <;> split_ifs <;> simp [hfold]

/-- A request that is given up adds none. -/
theorem abortDownload_pads : (s.abortDownload p b peer).pads = s.pads := by
  rw [abortDownload]
  split
  · rfl
  · dsimp only
    split_ifs <;> simp

/-- A pick changes the random numbers and the recent extents only. -/
theorem pickPieces_pads (a : PickRequest) : (s.pickPieces a).2.pads = s.pads := by
  obtain ⟨rng, e, h | ⟨-, rng₀, h⟩⟩ := s.pickPieces_effect a <;> rw [h] <;> rfl

/-! ## The calls that count padding -/

variable {s p}

/-- No piece has pad bytes. -/
theorem PadFree.padBytesInPiece (h : s.PadFree) (p : ℕ) : s.padBytesInPiece p = 0 := by
  rw [PadFree, pads, Prod.mk.injEq] at h
  rw [PickerCore.padBytesInPiece, h.1]
  rfl

/-- A step that keeps the pads adds none. -/
theorem PadFree.congr {s' : PiecePicker} (h : s.PadFree) (hs : s'.pads = s.pads) : s'.PadFree := hs.trans h

/-- `we_have` adds no pads. -/
theorem PadFree.weHave (h : s.PadFree) (p : ℕ) : (s.weHave p).PadFree := by
  have hcount : ((s.dropPassed p).countHave p).PadFree := by
    have h' : (s.dropPassed p).PadFree := h.congr (s.dropPassed_pads p)
    have hpad := h'.padBytesInPiece p
    rw [countHave]
    split_ifs <;> simpa [PadFree, pads, hpad] using h'
  rw [PiecePicker.weHave]
  split_ifs
  · exact h
  · exact hcount.congr (by simp)
  · exact hcount.congr (by simp)

/-- `we_dont_have` adds none. -/
theorem PadFree.weDontHave (h : s.PadFree) (p : ℕ) : (s.weDontHave p).PadFree := by
  have hcount : (s.countNotHave p).PadFree := by
    have hpad := h.padBytesInPiece p
    rw [countNotHave]
    split_ifs
    · simpa [PadFree, pads, hpad] using h
    · refine PadFree.congr ?_ (openCursors_pads _ p)
      simpa [PadFree, pads, hpad] using h
  rw [PiecePicker.weDontHave]
  by_cases hh : s.havePiece p
  · rw [if_neg (not_not_intro hh)]
    dsimp only
    split_ifs
    · exact hcount
    · exact hcount.congr (by simp)
    · exact hcount
  · rw [if_pos hh]
    exact h.congr (s.dropPassed_pads p)

/-- `we_have_all` adds none. -/
theorem PadFree.weHaveAll (h : s.PadFree) : s.weHaveAll.PadFree := by
  simp only [PadFree, pads, Prod.mk.injEq] at h ⊢
  obtain ⟨h₁, h₂, h₃, h₄, h₅⟩ := h
  exact ⟨h₁, h₂, h₃, rfl, by rw [PiecePicker.weHaveAll, h₄, h₅]; rfl⟩

/-- `set_piece_priority` adds none. -/
theorem PadFree.setPiecePriority (h : s.PadFree) (p n : ℕ) : (s.setPiecePriority p n).2.PadFree := by
  have hpad := h.padBytesInPiece p
  have hcount : (s.countPriority p n).2.PadFree := by
    rw [countPriority]
    split_ifs
    · rw [countFiltered]
      split_ifs
      · simpa [PadFree, pads, hpad] using h
      · refine PadFree.congr ?_ (closeCursors_pads _ p)
        simpa [PadFree, pads, hpad] using h
    · rw [countUnfiltered]
      split_ifs
      · simpa [PadFree, pads, hpad] using h
      · refine PadFree.congr ?_ (openCursors_pads _ p)
        simpa [PadFree, pads, hpad] using h
    · exact h
  rw [PiecePicker.setPiecePriority]
  dsimp only
  split_ifs
  · exact h
  · exact hcount.congr (by simp)
  · exact hcount.congr (by simp)

/-- A piece that is complete. -/
theorem PadFree.haveIfDone (h : s.PadFree) (p : ℕ) : (s.haveIfDone p).PadFree := by
  rw [PiecePicker.haveIfDone]
  split
  · exact h
  · split_ifs
    · exact h
    · exact h.weHave p
    · exact h

/-- A block that is finished may complete its piece. -/
theorem PadFree.markAsFinished (h : s.PadFree) (p b : ℕ) (peer : Option ℕ) :
    (s.markAsFinished p b peer).PadFree := by
  rw [PiecePicker.markAsFinished]
  split
  · split_ifs
    · exact h
    · dsimp only
      split
      · exact h.congr (by simp)
      · split_ifs <;> exact h.congr (by simp)
  · split
    · exact h
    · split_ifs
      · exact h
      · exact PadFree.haveIfDone (h.congr (finishBlock_pads s p b _ peer)) p

/-- A piece that has passed its hash check may be complete. -/
theorem PadFree.piecePassed (h : s.PadFree) (p : ℕ) : (s.piecePassed p).PadFree := by
  rw [PiecePicker.piecePassed]
  split
  · exact h
  · dsimp only
    split_ifs
    · exact h
    · exact h.congr (by simp)
    · exact PadFree.weHave (h.congr (by simp)) p

/-- The sizes are the only data that a new picker gets. -/
theorem PadFree.resize {s' : PiecePicker} (h : s.PadFree) {totalSize pieceSize : ℕ}
    (hr : s.resize totalSize pieceSize = some s') : s'.PadFree := by
  rw [PiecePicker.resize] at hr
  dsimp only at hr
  simp only [PadFree, pads, Prod.mk.injEq] at h ⊢
  obtain ⟨h₁, h₂, h₃, h₄, h₅⟩ := h
  split at hr
  · cases hr
  · cases hr
    exact ⟨h₁, h₂, rfl, by dsimp only; rw [h₄, h₅]; rfl, rfl⟩

/-- A new picker has no pads. -/
theorem create_padFree {totalSize pieceSize : ℕ} {rng : List ℕ} (h : create totalSize pieceSize rng = some s) :
    s.PadFree := by
  rw [create] at h
  refine PadFree.resize ?_ h
  rfl

/-- The calls that make no padding. -/
def padFreeCall : Op → Prop
  | .setPadBytes _ _ => False
  | _ => True

/-- Only `set_pad_bytes` is ruled out. -/
theorem not_padFreeCall_setPadBytes (p n : ℕ) : ¬ padFreeCall (.setPadBytes p n) := id

instance (op : Op) : Decidable (padFreeCall op) :=
  match op with
  | .setPadBytes p n => .isFalse (not_padFreeCall_setPadBytes p n)
  | .incRefcountAll | .decRefcountAll | .incRefcount _ | .decRefcount _ | .incRefcountBitmask _
  | .decRefcountBitmask _ | .weHave _ | .weDontHave _ | .weHaveAll | .setPiecePriority .. | .markAsDownloading ..
  | .markAsWriting .. | .markAsFinished .. | .markAsCanceled .. | .writeFailed .. | .lockPiece _ | .restorePiece ..
  | .abortDownload .. | .piecePassed _ | .startedHashJob _ | .completedHashJob _ | .clearPeer _ | .resize
  | .pickPieces _ => .isTrue trivial

/-- All other calls keep a picker without pads. -/
theorem PadFree.apply (h : s.PadFree) {op : Op} (hop : padFreeCall op) : (s.apply op).PadFree := by
  cases op with
  | incRefcountAll => exact h.congr s.incRefcountAll_pads
  | decRefcountAll => exact h.congr s.decRefcountAll_pads
  | incRefcount p => exact h.congr (by simp [PiecePicker.apply, incRefcount])
  | decRefcount p => exact h.congr (by simp [PiecePicker.apply, decRefcount])
  | incRefcountBitmask bitmask => exact h.congr (s.incRefcountBitmask_pads bitmask)
  | decRefcountBitmask bitmask => exact h.congr (s.decRefcountBitmask_pads bitmask)
  | weHave p => exact h.weHave p
  | weDontHave p => exact h.weDontHave p
  | weHaveAll => exact h.weHaveAll
  | setPiecePriority p n => exact h.setPiecePriority p n
  | markAsDownloading p b peer reverse affinity => exact h.congr (s.markAsDownloading_pads p b peer reverse affinity)
  | markAsWriting p b peer => exact h.congr (s.markAsWriting_pads p b peer)
  | markAsFinished p b peer => exact h.markAsFinished p b peer
  | markAsCanceled p b peer => exact h.congr (s.markAsCanceled_pads p b peer)
  | writeFailed p b => exact h.congr (s.writeFailed_pads p b)
  | lockPiece p => exact h.congr (s.lockPiece_pads p)
  | restorePiece p blocks => exact h.congr (s.restorePiece_pads p blocks)
  | abortDownload p b peer => exact h.congr (s.abortDownload_pads p b peer)
  | piecePassed p => exact h.piecePassed p
  | startedHashJob p => exact h.congr (s.modifyDl_pads p _)
  | completedHashJob p => exact h.congr (s.modifyDl_pads p _)
  | clearPeer peer => exact h.congr (s.clearPeer_pads peer)
  | setPadBytes p bytes => exact hop.elim
  | resize =>
    rw [PiecePicker.apply]
    rcases hr : s.resize s.totalSize s.pieceSize with - | s'
    · exact h
    · exact h.resize hr
  | pickPieces a => exact h.congr (s.pickPieces_pads a)

end PiecePicker

/-- In a run without `set_pad_bytes` there is no padding. -/
theorem Reach.padFree {ok : PiecePicker → Op → Prop} {s : PiecePicker}
    (hle : ∀ s op, ok s op → PiecePicker.padFreeCall op) (h : Reach ok s) : s.PadFree := by
  induction h with
  | create _ _ h => exact PiecePicker.create_padFree h
  | step _ _ hok ih => exact ih.apply (hle _ _ hok)

end LibtorrentSN
