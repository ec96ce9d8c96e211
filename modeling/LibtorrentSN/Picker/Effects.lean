import LibtorrentSN.Picker.HaveRun

/-!
# The piece picker: the effect of every call

`Effect s s'` lists everything a call can do to what we have, what we want, the counters of
it and the priority list. Every call that meets its assertions and keeps the list (`listCall`)
has one of these effects; the invariants of the picker are derived from that.
-/

namespace LibtorrentSN

namespace PiecePicker

open PickerCore

variable {s s' : PiecePicker} {p b : ℕ} {dp : DownloadingPiece} {peer : Option ℕ}

/-! ## Passing and finishing -/

/-- A call that may end with the piece `p` being one we have. -/
def MayGain (s s' : PiecePicker) (p : ℕ) : Prop :=
  ∃ t, Keeps 0 s t ∧ t.Buckets ∧ (s' = t ∨ s' = t.weHave p)

theorem MayGain.of_keeps (h : Keeps 0 s s') (hb : s'.Buckets) : MayGain s s' p :=
  ⟨s', h, hb, .inl rfl⟩

theorem haveIfDone_mayGain (hb : s.Buckets) : MayGain s (s.haveIfDone p) p := by
  rw [haveIfDone]
  rcases s.findDlPiece p with - | dp
  · exact .of_keeps (.refl s) hb
  · dsimp only
    split_ifs
    · exact .of_keeps (.refl s) hb
    · exact ⟨s, .refl s, hb, .inr rfl⟩
    · exact .of_keeps (.refl s) hb

theorem Keeps.mayGain {t : PiecePicker} (h : Keeps 0 s t) (h' : MayGain t s' p) :
    MayGain s s' p := by
  obtain ⟨u, hu, hb, hs⟩ := h'
  exact ⟨u, h.trans hu, hb, hs⟩

theorem markAsFinished_mayGain (h : s.Book True) (ha : s.asserts (.markAsFinished p b peer)) :
    MayGain s (s.markAsFinished p b peer) p := by
  have hbook := markAsFinished_book h ha
  obtain ⟨⟨hlt, hb⟩, hroom, hpart⟩ := ha
  rw [markAsFinished] at hbook ⊢
  rcases hq : s.downloadQueue p with - | q <;> rw [hq] at hbook
  · dsimp only at hbook ⊢
    by_cases hnot : s.havePiece p
    · rw [if_pos hnot]
      exact .of_keeps (.refl s) h.buckets
    rw [if_neg hnot] at hbook ⊢
    have hst : DownloadState.pieceDownloading.downloadQueue = some .pieceDownloading := rfl
    have h' := beginDownload_book h hst hlt hq hroom false
    have hk := beginDownload_keeps h.buckets hst hlt hq hnot false
    rcases hdp : (s.beginDownload p .pieceDownloading false).findDlPiece p with - | dp <;>
      rw [hdp] at hbook
    · exact .of_keeps hk h'.buckets
    · dsimp only at hbook ⊢
      split_ifs at hbook ⊢ with hfin
      · exact .of_keeps hk h'.buckets
      · exact .of_keeps (hk.trans (mark_keeps h'.buckets (fun _ => rfl) fun _ => rfl))
          hbook.buckets
  · dsimp only
    rw [onPartial] at hpart
    rcases hdp : s.findDlPiece p with - | dp
    · exact .of_keeps (.refl s) h.buckets
    · rw [hdp] at hpart
      dsimp only at hpart ⊢
      by_cases hfin : (s.block dp b).state = .finished
      · rw [if_pos hfin]
        exact .of_keeps (.refl s) h.buckets
      · rw [if_neg hfin]
        obtain ⟨hpeers, hstate⟩ := hpart.resolve_left hfin
        have h₁ : (s.finishBlock p b dp peer).Book True := finishBlock_book h hdp hb hpeers hstate
        have hk : Keeps 0 s (s.finishBlock p b dp peer) :=
          mark_keeps h.buckets (fun _ => rfl) fun _ => rfl
        exact hk.mayGain (haveIfDone_mayGain h₁.buckets)

theorem piecePassed_mayGain (hb : s.Buckets) (ha : s.asserts (.piecePassed p)) :
    MayGain s (s.piecePassed p) p := by
  obtain ⟨-, -, hpart⟩ := ha
  rw [onPartial] at hpart
  rw [piecePassed]
  rcases hdp : s.findDlPiece p with - | dp
  · exact .of_keeps (.refl s) hb
  · rw [hdp] at hpart
    dsimp only at hpart ⊢
    obtain ⟨hlock, hpass, -⟩ := hpart
    rw [if_neg (by rw [hlock]; decide)]
    have hk : Keeps 0 s ((s.modifyDl p ({ · with passedHashCheck := true })).addPassed 1) := by
      refine flag_keeps hb hdp ({ · with passedHashCheck := true }) (n := 1) ?_
      rw [DownloadingPiece.passes, DownloadingPiece.passes, hpass]
      rfl
    have hb' : ((s.modifyDl p ({ · with passedHashCheck := true })).addPassed 1).Buckets :=
      hb.modifyDl fun _ => rfl
    split_ifs
    · exact .of_keeps hk hb'
    · exact ⟨_, hk, hb', .inr rfl⟩

theorem setPadBytes_mayGain (hb : s.Buckets) (p bytes : ℕ) :
    MayGain s (s.setPadBytes p bytes) p := by
  have hsame : ∀ t : PiecePicker, (∃ a b c d e, t = { s with
      numPadBytes := a, padsInPiece := b, havePadBytes := c, haveFilteredPadBytes := d,
      filteredPadBytes := e }) → Keeps 0 s t ∧ t.Buckets := by
    rintro t ⟨a, b, c, d, e, rfl⟩
    exact ⟨⟨⟨⟨rfl, rfl⟩, rfl, fun _ => rfl, rfl⟩, ⟨fun _ => rfl, rfl, rfl, rfl, rfl, rfl⟩,
      (Int.add_zero _).symm, fun hl =>
        ⟨⟨⟨hl.index_length, hl.peers, hl.seeds, hl.prio, hl.have_open⟩, hl.sorted⟩,
          fun _ => Iff.rfl⟩⟩, hb.congr rfl fun _ => rfl⟩
  have hstate : ∃ t, (∃ a b c d e, t = { s with
      numPadBytes := a, padsInPiece := b, havePadBytes := c, haveFilteredPadBytes := d,
      filteredPadBytes := e }) ∧ (s.setPadBytes p bytes = t ∨ s.setPadBytes p bytes = t.weHave p) := by
    simp only [setPadBytes]
    split_ifs
    all_goals exact ⟨_, ⟨_, _, _, _, _, rfl⟩, by first | exact .inl rfl | exact .inr rfl⟩
  obtain ⟨t, ht, hs⟩ := hstate
  exact ⟨t, (hsame t ht).1, (hsame t ht).2, hs⟩

/-! ## Picking -/

theorem priority_of_have (h : s.havePiece p) : s.priority p = -1 :=
  PiecePos.priority_of_unlisted (.inr (.inl (decide_eq_true h)))

/-- A piece we have has no priority, so that its index is left alone. -/
theorem updatePieces_have (s : PiecePicker) (y : ℕ) : s.updatePieces.havePiece y ↔ s.havePiece y := by
  obtain ⟨h₁, h₂, h₃⟩ := BucketList.rebuild_spec s.list s.priority s.rng
  constructor
  · intro hy
    have := h₃ y (h₁.lt_zero_of_mark hy).2
    rwa [havePiece, ← this]
  · intro hy
    have := h₃ y (by rw [priority_of_have hy]; decide)
    rw [havePiece, ← hy]
    exact this

theorem updatePieces_keeps (s : PiecePicker) : Keeps 0 s s.updatePieces := by
  obtain ⟨h₁, h₂, -⟩ := BucketList.rebuild_spec s.list s.priority s.rng
  refine ⟨⟨⟨rfl, rfl⟩, rfl, fun _ => rfl, rfl⟩, ⟨fun _ => rfl, rfl, rfl, rfl, rfl, rfl⟩,
    (Int.add_zero _).symm, fun hl => ?_⟩
  have hd : ({ s with dirty := false } : PiecePicker).Sane :=
    ⟨hl.index_length, hl.peers, hl.seeds, hl.prio, hl.have_open⟩
  have hmark : BucketList.MarkEq s.list (s.list.rebuild s.priority s.rng).1 := updatePieces_have s
  exact relist hd _ h₂ hmark fun _ => h₁

theorem PickEffect.have_iff (h : PickEffect s s') (y : ℕ) : s'.havePiece y ↔ s.havePiece y := by
  obtain ⟨rng, e, rfl | ⟨-, rng₀, rfl⟩⟩ := h
  · exact Iff.rfl
  · have := updatePieces_have ({ s with rng := rng₀ } : PiecePicker) y
    rw [havePiece, havePiece] at this ⊢
    exact this

theorem PickEffect.keeps (h : PickEffect s s') : Keeps 0 s s' := by
  obtain ⟨rng, e, rfl | ⟨-, rng₀, rfl⟩⟩ := h
  · exact keeps_extents s rng e
  · exact (keeps_extents s rng₀ s.recentExtents).trans
      ((updatePieces_keeps _).trans (keeps_extents _ rng e))

/-! ## All effects -/

/-- What a call does. `ok` rules out that a passed piece is forgotten without being
counted. -/
inductive Effect (ok : Prop) (s s' : PiecePicker) : Prop
  | keeps {n : ℕ} (h : Keeps n s s') (hn : ok → n = 0)
  | recounts (h : Recounts s s') (hl : KeepsList s s')
  | gains {t : PiecePicker} {p : ℕ} (hk : Keeps 0 s t) (hp : p < t.numPieces)
      (hnot : ¬ t.havePiece p) (h : Gains t s' p)
  | loses {p : ℕ} (hp : p < s.numPieces) (hh : s.havePiece p) (h : Loses s s' p)
  | reprioritizes {p n : ℕ} (hp : p < s.numPieces) (h : Reprioritizes s s' p n)
  | all (h : s' = s.weHaveAll)
  | resized (h : Resized s s.totalSize s.pieceSize s')

/-- The same, with the functions that change what we have or want named. -/
inductive Action (ok : Prop) (s s' : PiecePicker) : Prop
  | keeps {n : ℕ} (h : Keeps n s s') (hn : ok → n = 0)
  | recounts (h : Recounts s s') (hl : KeepsList s s')
  | gains {t : PiecePicker} {p : ℕ} (hk : Keeps 0 s t) (hb : t.Buckets) (hp : p < t.numPieces)
      (hnot : ¬ t.havePiece p) (h : s' = t.weHave p)
  | loses {p : ℕ} (hp : p < s.numPieces) (hh : s.havePiece p) (h : s' = s.weDontHave p)
  | reprioritizes {p n : ℕ} (hp : p < s.numPieces) (hn : n ≤ topPriority)
      (h : s' = (s.setPiecePriority p n).2)
  | all (h : s' = s.weHaveAll)
  | resized (h : Resized s s.totalSize s.pieceSize s')

theorem MayGain.action {ok : Prop} (h : MayGain s s' p) (hp : p < s.numPieces) :
    Action ok s s' := by
  obtain ⟨t, hk, hb, rfl | rfl⟩ := h
  · exact .keeps (n := 0) hk fun _ => rfl
  · by_cases hh : t.havePiece p
    · rw [weHave, if_pos hh]
      exact .keeps (n := 0) hk fun _ => rfl
    · exact .gains hk hb (by rwa [hk.numPieces]) hh rfl

/-- Every call is one of these. -/
theorem apply_action (h : s.Book True) {op : Op} (ha : s.asserts op) (hc : listCall s op) :
    Action (passedCall s op) s (s.apply op) := by
  cases op with
  | incRefcountAll => exact .recounts (incRefcountAll_recounts s) (incRefcountAll_list s)
  | decRefcountAll => exact .recounts (decRefcountAll_recounts s) (decRefcountAll_list ha)
  | incRefcount p => exact .recounts (incRefcount_recounts s p) (incRefcount_list s p)
  | decRefcount p => exact .recounts (decRefcount_recounts s p) (decRefcount_list ha.1 ha.2)
  | incRefcountBitmask bitmask =>
    exact .recounts (incRefcountBitmask_recounts s bitmask) (incRefcountBitmask_list s bitmask)
  | decRefcountBitmask bitmask =>
    exact .recounts (decRefcountBitmask_recounts s bitmask) (decRefcountBitmask_list ha.1 ha.2)
  | weHave p => exact MayGain.action ⟨s, .refl s, h.buckets, .inr rfl⟩ ha.1
  | weDontHave p =>
    by_cases hh : s.havePiece p
    · exact .loses ha hh rfl
    · obtain ⟨h₁, h₂, h₃, h₄⟩ := weDontHave_drop h.buckets hh
      exact .keeps (n := 0) ⟨h₁, h₂, h₃.trans (Int.add_zero _).symm, h₄ hc⟩ fun _ => rfl
  | weHaveAll => exact .all rfl
  | setPiecePriority p n => exact .reprioritizes ha.1 ha.2 rfl
  | markAsDownloading p b peer reverse affinity =>
    exact .keeps (n := 0) (markAsDownloading_keeps h ha) fun _ => rfl
  | markAsWriting p b peer => exact .keeps (n := 0) (markAsWriting_keeps h ha) fun _ => rfl
  | markAsFinished p b peer => exact (markAsFinished_mayGain h ha).action ha.1.1
  | markAsCanceled p b peer =>
    obtain ⟨n, hk, hn⟩ := markAsCanceled_keeps h ha
    exact .keeps hk hn
  | writeFailed p b => exact .keeps (n := 0) (writeFailed_keeps h ha) fun _ => rfl
  | lockPiece p => exact .keeps (n := 0) (lockPiece_keeps h.buckets p) fun _ => rfl
  | restorePiece p blocks =>
    obtain ⟨n, h₁, h₂, h₃, h₄, h₅⟩ := restorePiece_spec h ha
    exact .keeps ⟨h₁, h₂, h₃, h₅ hc⟩ h₄
  | abortDownload p b peer =>
    obtain ⟨n, hk, hn⟩ := abortDownload_keeps h ha
    exact .keeps hk hn
  | piecePassed p => exact (piecePassed_mayGain h.buckets ha).action ha.1
  | startedHashJob p => exact .keeps (n := 0) (keeps_modifyDl fun _ => rfl) fun _ => rfl
  | completedHashJob p => exact .keeps (n := 0) (keeps_modifyDl fun _ => rfl) fun _ => rfl
  | clearPeer peer =>
    refine .keeps (n := 0) (keeps_same (c := (s.clearPeer peer).toPickerCore) rfl ⟨rfl, rfl⟩ rfl)
      fun _ => rfl
  | setPadBytes p bytes => exact (setPadBytes_mayGain h.buckets p bytes).action ha.1
  | resize =>
    rw [PiecePicker.apply]
    rcases hr : s.resize s.totalSize s.pieceSize with - | s'
    · exact .keeps (n := 0) (.refl s) fun _ => rfl
    · exact .resized (resize_spec hr)
  | pickPieces a => exact .keeps (n := 0) (s.pickPieces_effect a).keeps fun _ => rfl

theorem Action.effect {ok : Prop} (hb : s.Buckets) (h : Action ok s s') : Effect ok s s' := by
  cases h with
  | keeps h hn => exact .keeps h hn
  | recounts h hl => exact .recounts h hl
  | gains hk hbt hp hnot h =>
    rw [h]
    exact .gains hk hp hnot (weHave_gains hbt hp hnot)
  | loses hp hh h =>
    rw [h]
    exact .loses hp hh (weDontHave_loses hp hh)
  | reprioritizes hp hn h =>
    rw [h]
    exact .reprioritizes hp (setPiecePriority_reprioritizes hb hp hn)
  | all h => exact .all h
  | resized h => exact .resized h

/-- Every call has one of these effects. -/
theorem apply_effect (h : s.Book True) {op : Op} (ha : s.asserts op) (hc : listCall s op) :
    Effect (passedCall s op) s (s.apply op) := (apply_action h ha hc).effect h.buckets

end PiecePicker

end LibtorrentSN
