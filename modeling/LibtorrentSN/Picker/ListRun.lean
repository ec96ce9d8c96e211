import LibtorrentSN.Picker.PriorityList

/-!
# The piece picker: what the operations keep

For every operation what it leaves as it is, in terms of `Keeps`. The operations on partial
pieces keep everything; those that change what we have or want are described by what they
change.
-/

namespace LibtorrentSN

/-! ## Counting passed pieces -/

/-- What a partial piece adds to the passed ones. -/
def DownloadingPiece.passes (dp : DownloadingPiece) : ℕ := if dp.passedHashCheck then 1 else 0

namespace PickerCore

variable {c : PickerCore} {p : ℕ} {dp : DownloadingPiece} {st : DownloadState}

theorem passed_of_perm {d d' : Downloads} (h : d'.all.Perm d.all) : d'.passed = d.passed :=
  h.countP_eq _

theorem passed_of_perm_cons {d d' : Downloads} (h : d.all.Perm (dp :: d'.all)) :
    d'.passed + (if dp.passedHashCheck then 1 else 0) = d.passed := by
  rw [Downloads.passed, Downloads.passed, h.countP_eq, List.countP_cons]

theorem passed_modifyDl {f : DownloadingPiece → DownloadingPiece}
    (hf : ∀ dp, (f dp).passedHashCheck = dp.passedHashCheck) :
    (c.modifyDl p f).downloads.passed = c.downloads.passed := by
  have hm : ∀ l : List DownloadingPiece,
      (SortedVector.modify DownloadingPiece.index l p f).countP (·.passedHashCheck) =
        l.countP (·.passedHashCheck) := by
    intro l
    rw [SortedVector.modify, List.countP_map]
    refine List.countP_congr fun dp _ => ?_
    simp only [Function.comp]
    split_ifs
    · rw [hf]
    · rfl
  rw [modifyDl]
  rcases c.downloadQueue p with - | q
  · rfl
  · cases q <;>
      simp only [Downloads.on, Downloads.passed, Downloads.set, Downloads.get, Downloads.all,
        List.countP_append, hm]

/-- A change of the flag of one partial piece is seen in the count. -/
theorem Buckets.passed_modifyDl (h : c.Buckets) (hdp : c.findDlPiece p = some dp)
    (f : DownloadingPiece → DownloadingPiece) :
    (c.modifyDl p f).downloads.passed + (if dp.passedHashCheck then 1 else 0) =
      c.downloads.passed + (if (f dp).passedHashCheck then 1 else 0) := by
  obtain rfl := h.find_index hdp
  obtain ⟨q, hq, hm⟩ := h.find_mem hdp
  have h₁ := passed_of_perm_cons (Downloads.all_perm_erase (h.sorted q) hm)
  have h₂ : (c.modifyDl dp.index f).downloads.all.Perm (f dp :: (c.downloads.on (some q)
      (SortedVector.erase DownloadingPiece.index · dp.index)).all) := by
    have hget : ((c.modifyDl dp.index f).downloads.get q).Perm
        (f dp :: SortedVector.erase DownloadingPiece.index (c.downloads.get q) dp.index) := by
      rw [modifyDl_get, if_pos hq]
      exact (h.sorted q).perm_modify hm f
    have := Downloads.all_perm_set hget
    rw [PickerCore.modifyDl, hq] at this ⊢
    cases q <;> exact this
  have h₃ := passed_of_perm_cons h₂
  omega

theorem Buckets.passed_moveDl (h : c.Buckets) (hst : st ≠ .pieceOpen)
    (hdp : c.findDlPiece p = some dp) :
    (c.moveDl dp st).downloads.passed = c.downloads.passed := by
  obtain rfl := h.find_index hdp
  obtain ⟨q, hq, hm⟩ := h.find_mem hdp
  obtain ⟨q', hq'⟩ := Option.ne_none_iff_exists'.mp
    (mt DownloadState.downloadQueue_eq_none.mp hst)
  have h₁ := Downloads.all_perm_erase (h.sorted q) hm
  refine passed_of_perm (List.Perm.trans ?_ h₁.symm)
  rw [PickerCore.moveDl, hq, hq']
  exact Downloads.all_perm_insert _ _ _

theorem Buckets.passed_eraseDl (h : c.Buckets) (hdp : c.findDlPiece p = some dp) :
    (c.eraseDl dp).downloads.passed + (if dp.passedHashCheck then 1 else 0) =
      c.downloads.passed := by
  obtain rfl := h.find_index hdp
  obtain ⟨q, hq, hm⟩ := h.find_mem hdp
  have h₁ := passed_of_perm_cons (Downloads.all_perm_erase (h.sorted q) hm)
  rw [PickerCore.eraseDl, hq]
  exact h₁

theorem insertDl_sizes : SameSizes c (c.insertDl p) := by
  have h : SameSizes c c.takeSlot := by
    rw [takeSlot]
    split <;> exact ⟨rfl, rfl⟩
  exact h

theorem passed_insertDl : (c.insertDl p).downloads.passed = c.downloads.passed := by
  have h : (c.insertDl p).downloads.all.Perm (c.freshDl p :: c.downloads.all) :=
    Downloads.all_perm_insert _ _ _
  exact (passed_of_perm_cons h).symm

end PickerCore

namespace PiecePicker

open PickerCore

variable {s s' : PiecePicker} {p b : ℕ} {dp : DownloadingPiece} {st : DownloadState}
  {peer : Option ℕ}

/-! ## Partial pieces -/

theorem keeps_modifyBlock (s : PiecePicker) (dp : DownloadingPiece) (b : ℕ)
    (f : BlockInfo → BlockInfo) : Keeps 0 s (s.modifyBlock dp b f) :=
  keeps_same rfl ⟨rfl, rfl⟩ rfl

theorem keeps_modifyDl {f : DownloadingPiece → DownloadingPiece}
    (hf : ∀ dp, (f dp).passedHashCheck = dp.passedHashCheck) : Keeps 0 s (s.modifyDl p f) :=
  keeps_same rfl ⟨rfl, rfl⟩ (passed_modifyDl hf)

/-- A partial piece is none we have. -/
theorem Listed.not_have (hl : s.Listed) (hd : s.downloading p) : ¬ s.havePiece p :=
  fun hh => hd (hl.have_open p hh)

theorem updatePieceState_keeps (hb : s.Buckets) (p : ℕ) : Keeps 0 s (s.updatePieceState p) := by
  rw [updatePieceState]
  rcases hdp : s.findDlPiece p with - | dp
  · exact .refl s
  · dsimp only
    split_ifs with hc
    · exact .refl s
    · rw [not_or] at hc
      have hd := hb.downloading_of_find hdp
      obtain rfl := hb.find_index hdp
      refine keeps_reposition (c := s.moveDl dp (s.newState dp)) (n := 0) rfl ⟨rfl, rfl⟩ ?_
        fun _ ho => absurd ho hd
      exact hb.passed_moveDl hc.2 hdp

/-- Change a block and its piece, and put the piece where it belongs. -/
theorem mark_keeps (hb : s.Buckets) {f : BlockInfo → BlockInfo}
    {g : DownloadingPiece → DownloadingPiece} (hi : ∀ dp, (g dp).index = dp.index)
    (hp : ∀ dp, (g dp).passedHashCheck = dp.passedHashCheck) :
    Keeps 0 s (((s.modifyBlock dp b f).modifyDl p g).updatePieceState p) := by
  have hb' : ((s.modifyBlock dp b f).modifyDl p g).Buckets :=
    Buckets.modifyDl (hb.congr rfl fun _ => rfl) hi
  exact (keeps_modifyBlock s dp b f).trans
    ((keeps_modifyDl hp).trans (updatePieceState_keeps hb' p))

/-- Random numbers and extents are of no importance here. -/
theorem keeps_extents (s : PiecePicker) (rng recentExtents : List ℕ) :
    Keeps 0 s { s with rng := rng, recentExtents := recentExtents } :=
  ⟨⟨⟨rfl, rfl⟩, rfl, fun _ => rfl, rfl⟩, ⟨fun _ => rfl, rfl, rfl, rfl, rfl, rfl⟩,
    (Int.add_zero _).symm, fun hl =>
      ⟨⟨⟨hl.index_length, hl.peers, hl.seeds, hl.prio, hl.have_open⟩, hl.sorted⟩,
        fun _ => Iff.rfl⟩⟩

theorem recordDownloadingPiece_keeps (s : PiecePicker) (p : ℕ) :
    Keeps 0 s (s.recordDownloadingPiece p) := by
  simp only [recordDownloadingPiece]
  split_ifs
  · exact .refl s
  · exact .refl s
  · exact .refl s
  · exact .refl s
  · exact keeps_extents s s.rng _
  · exact .refl s

/-- A new state that is not a full or finished one does not hide the piece. -/
theorem stays_unlisted (hl : s.Listed) (hnot : ¬ s.havePiece p)
    (hold : s.state p ≠ .pieceFull ∧ s.state p ≠ .pieceFinished ∨ st = s.state p)
    (hneg : s.priority p < 0) : (s.setState p st).priority p < 0 := by
  have hsh : Shift s (s.setState p st) p :=
    shift_setState rfl hl.toSane fun hh => absurd hh hnot
  have hpos := pos_of_setState (c := s.toPickerCore.setState p st) rfl (s := s) p
  rw [hsh.sane.priority_neg_iff]
  rcases hl.priority_neg_iff.mp hneg with h | h | h | h
  · exact .inl ((s.toPickerCore.setState_filtered p p st).mpr h)
  · exact absurd h hnot
  · refine .inr (.inr (.inl ?_))
    rw [getAvailability] at h ⊢
    have hp := (samePeers_setState (c := s.toPickerCore.setState p st) rfl ⟨rfl, rfl⟩).peers p
    rw [show ((s.setState p st).pos p).peerCount = (s.pos p).peerCount from hp]
    exact h
  · refine .inr (.inr (.inr ?_))
    obtain ⟨h₁, h₂⟩ | heq := hold
    · exact absurd h (not_or.mpr ⟨h₁, h₂⟩)
    · have : (s.setState p st).state p = s.state p := by
        refine (s.toPickerCore.setState_state p p st).trans ?_
        rw [heq]
        split_ifs <;> rfl
      rw [this]
      exact h

/-- An open piece becomes a partial one. -/
theorem beginDownload_keeps (hb : s.Buckets) (hst : st.downloadQueue = some .pieceDownloading)
    (hlt : p < s.numPieces) (ho : s.downloadQueue p = none) (hnot : ¬ s.havePiece p)
    (affinity : Bool) : Keeps 0 s (s.beginDownload p st affinity) := by
  have hopen : s.state p = .pieceOpen := DownloadState.downloadQueue_eq_none.mp ho
  have h₁ : Keeps 0 s ((s.setState p st).updateFrom (s.priority p) p) := by
    refine keeps_updateFrom rfl ⟨rfl, rfl⟩ rfl (fun _ => hnot) fun hl hneg => ?_
    exact stays_unlisted hl hnot (.inl (by rw [hopen]; decide)) hneg
  set s₁ := (s.setState p st).updateFrom (s.priority p) p with hs₁
  set s₂ := if affinity then s₁.recordDownloadingPiece p else s₁ with hs₂
  have hcore : s₂.toPickerCore = s.toPickerCore.setState p st := by
    rw [hs₂]
    split_ifs
    · rw [recordDownloadingPiece_core, hs₁, updateFrom_core]
      rfl
    · rw [hs₁, updateFrom_core]
      rfl
  have h₂ : Keeps 0 s s₂ := by
    rw [hs₂]
    split_ifs
    · exact h₁.trans (recordDownloadingPiece_keeps s₁ p)
    · exact h₁
  have h₃ : Keeps 0 s (s₂.withCore (s₂.insertDl p)) :=
    h₂.trans (keeps_same insertDl_pieceMap insertDl_sizes passed_insertDl)
  refine h₃.trans (updatePieceState_keeps ?_ p)
  rw [withCore_core, hcore]
  exact hb.startDl hst hlt hopen

/-- Only a piece without requests becomes a reverse one, and so no full piece. -/
theorem makeReverse_keeps (h : s.Book True) (hdp : s.findDlPiece p = some dp) (reverse : Bool) :
    Keeps 0 s (s.makeReverse p dp reverse) := by
  rw [makeReverse]
  split_ifs with hc
  · have hd := h.buckets.downloading_of_find hdp
    refine keeps_updateFrom rfl ⟨rfl, rfl⟩ rfl (fun hl => hl.not_have hd) fun hl hneg => ?_
    refine stays_unlisted hl (hl.not_have hd) ?_ hneg
    have hidx := h.buckets.find_index hdp
    have hcat := h.category p dp hdp
    rcases hs : s.state p with _ | _ | _ | _ | _ | _ | _
    · simp
    · have := (hcat.full (by rw [hidx, downloadQueue, hs]; rfl)).2
      omega
    all_goals simp [DownloadState.makeReverse]
  · exact .refl s

theorem unreverse_keeps (s : PiecePicker) (p : ℕ) (reverse : Bool) :
    Keeps 0 s (s.unreverse p reverse) := by
  rw [unreverse]
  split_ifs with hc
  · have hd : s.downloading p := by
      intro ho
      rw [ho] at hc
      exact absurd hc.2 (by decide)
    refine keeps_updateFrom rfl ⟨rfl, rfl⟩ rfl (fun hl => hl.not_have hd) fun hl hneg => ?_
    refine stays_unlisted hl (hl.not_have hd) (.inl ?_) hneg
    constructor <;>
      · intro hs
        rw [hs] at hc
        exact absurd hc.2 (by decide)
  · exact .refl s

theorem requestBlock_keeps (hb : s.Buckets) (p b : ℕ) (dp : DownloadingPiece)
    (peer : Option ℕ) : Keeps 0 s (s.requestBlock p b dp peer) := by
  rw [requestBlock]
  split_ifs
  · exact keeps_modifyBlock ..
  · exact mark_keeps hb (fun _ => rfl) fun _ => rfl

theorem markAsDownloading_keeps (h : s.Book True) {reverse affinity : Bool}
    (ha : s.asserts (.markAsDownloading p b peer reverse affinity)) :
    Keeps 0 s (s.markAsDownloading p b peer reverse affinity).2 := by
  obtain ⟨⟨hlt, hb⟩, hnot, hroom, -⟩ := ha
  rw [markAsDownloading]
  rcases hq : s.downloadQueue p with - | q
  · dsimp only
    set st : DownloadState :=
      if reverse then .pieceDownloadingReverse else .pieceDownloading with hst'
    have hst : st.downloadQueue = some .pieceDownloading := by
      rw [hst']
      cases reverse <;> rfl
    have h' := beginDownload_book h hst hlt hq hroom affinity
    have hk := beginDownload_keeps h.buckets hst hlt hq hnot affinity
    rcases (s.beginDownload p st affinity).findDlPiece p with - | dp
    · exact hk
    · dsimp only
      split_ifs
      · exact hk
      · exact hk.trans (mark_keeps h'.buckets (fun _ => rfl) fun _ => rfl)
  · dsimp only
    rcases hdp : s.findDlPiece p with - | dp
    · exact .refl s
    · dsimp only
      split_ifs
      · exact .refl s
      · have h₁ := (makeReverse_book h hdp hb reverse).1
        exact (makeReverse_keeps h hdp reverse).trans
          ((requestBlock_keeps h₁.buckets p b dp peer).trans
            ((keeps_modifyBlock ..).trans (unreverse_keeps _ p reverse)))

theorem markAsWriting_keeps (h : s.Book True) (ha : s.asserts (.markAsWriting p b peer)) :
    Keeps 0 s (s.markAsWriting p b peer).2 := by
  obtain ⟨⟨hlt, -⟩, hroom, -⟩ := ha
  rw [markAsWriting]
  rcases hq : s.downloadQueue p with - | q
  · dsimp only
    split_ifs with hnot
    · exact .refl s
    have hst : DownloadState.pieceDownloading.downloadQueue = some .pieceDownloading := rfl
    have h' := beginDownload_book h hst hlt hq hroom false
    have hk := beginDownload_keeps h.buckets hst hlt hq hnot false
    rcases (s.beginDownload p .pieceDownloading false).findDlPiece p with - | dp
    · exact hk
    · dsimp only
      split_ifs
      · exact hk
      · exact hk.trans (mark_keeps h'.buckets (fun _ => rfl) fun _ => rfl)
  · dsimp only
    rcases s.findDlPiece p with - | dp
    · exact .refl s
    · dsimp only
      by_cases hbusy : (s.block dp b).state = .writing ∨ (s.block dp b).state = .finished
      · rw [if_pos hbusy]
        exact keeps_modifyBlock ..
      · rw [if_neg hbusy]
        exact mark_keeps h.buckets (fun _ => rfl) fun _ => rfl

/-! ## Giving blocks up -/

/-- A partial piece is forgotten, and the list is told of some priority. -/
theorem erase_rest (hb : s.Buckets) (hdp : s.findDlPiece p = some dp) (prev : ℤ) :
    SamePeers s ((s.eraseDownloadPiece dp).reposition prev p) ∧
      SameWants s ((s.eraseDownloadPiece dp).reposition prev p) ∧
      ((s.eraseDownloadPiece dp).reposition prev p).surplus = s.surplus + dp.passes := by
  obtain rfl := hb.find_index hdp
  obtain ⟨l, rng, hr⟩ := (s.eraseDownloadPiece dp).reposition_rest dp.index prev
  have hp := hb.passed_eraseDl hdp
  have hm : (s.eraseDl dp).pieceMap = (s.toPickerCore.setState dp.index .pieceOpen).pieceMap := rfl
  refine ⟨?_, ?_, ?_⟩
  · rw [hr]
    exact (samePeers_setState hm ⟨rfl, rfl⟩).trans ⟨⟨rfl, rfl⟩, rfl, fun _ => rfl, rfl⟩
  · rw [hr]
    exact (sameWants_setState hm).trans ⟨fun _ => rfl, rfl, rfl, rfl, rfl, rfl⟩
  · rw [hr, surplus, surplus, DownloadingPiece.passes, ← hp]
    simp only [eraseDownloadPiece, withCore]
    omega

/-- A partial piece is forgotten, and the list is told of the priority it had. -/
theorem erase_keeps (hb : s.Buckets) (hdp : s.findDlPiece p = some dp) :
    Keeps dp.passes s ((s.eraseDownloadPiece dp).reposition (s.priority p) p) := by
  obtain ⟨h₁, h₂, h₃⟩ := erase_rest hb hdp (s.priority p)
  obtain rfl := hb.find_index hdp
  refine ⟨h₁, h₂, h₃, fun hl => ?_⟩
  have hsh : Shift s (s.eraseDownloadPiece dp) dp.index :=
    shift_setState (c := s.eraseDl dp) rfl hl.toSane fun _ => rfl
  obtain ⟨h₁, h₂⟩ := hsh.reposition hl
  exact ⟨h₁, fun y => (h₂ y).trans (hsh.have_iff y)⟩

/-- The piece is put where it belongs, or forgotten if nothing is left of it. -/
theorem eraseIfUnused_keeps (h : s.BookBut True p) : ∃ n : ℕ,
    Keeps n s ((s.updatePieceState p).eraseIfUnused p) ∧
      (n ≠ 0 → ∃ dp, s.findDlPiece p = some dp ∧ dp.passedHashCheck = true ∧ dp.busy = 0 ∧
        dp.hashing = false) := by
  have hk := updatePieceState_keeps h.buckets p
  have hb' : (s.updatePieceState p).Buckets := by
    rw [updatePieceState_core]
    exact h.recategorize_but.buckets
  have hfind : (s.updatePieceState p).findDlPiece p = s.findDlPiece p := by
    rw [updatePieceState_core]
    exact h.find_recategorize p
  rw [eraseIfUnused]
  rcases hdp : (s.updatePieceState p).findDlPiece p with - | dp
  · exact ⟨0, hk, fun hc => absurd rfl hc⟩
  · dsimp only
    split_ifs with hz
    · refine ⟨dp.passes, hk.trans (erase_keeps hb' hdp), fun hn => ⟨dp, ?_, ?_, ?_, hz.2⟩⟩
      · rw [← hfind, hdp]
      · by_contra hc
        exact hn (if_neg hc)
      · rw [DownloadingPiece.busy]
        omega
    · exact ⟨0, hk, fun hc => absurd rfl hc⟩

/-- A block given up: the piece is put where it belongs, or forgotten. -/
theorem giveUp_keeps (h : s.Book True) (hdp : s.findDlPiece p = some dp)
    (hb : b < s.blocksInPiece p) {f : BlockInfo → BlockInfo}
    {g : DownloadingPiece → DownloadingPiece} (hfol : Follows True (s.block dp b) dp f g)
    (hp : ∀ dp, (g dp).passedHashCheck = dp.passedHashCheck) : ∃ n : ℕ,
    Keeps n s ((((s.modifyBlock dp b f).modifyDl p g).updatePieceState p).eraseIfUnused p) ∧
      (n ≠ 0 → dp.passedHashCheck = true ∧ (g dp).busy = 0 ∧ (g dp).hashing = false) := by
  have hidx := h.buckets.find_index hdp
  have hcore := touch_core (s := s) (b := b) (f := f) (g := g) hidx
  have hbut := (h.but p).touch hdp hb hfol
  have hfind := (h.but p).find_touch hdp hfol p
  rw [if_pos rfl, ← hcore] at hfind
  rw [← hcore] at hbut
  obtain ⟨n, hk, hn⟩ := eraseIfUnused_keeps hbut
  refine ⟨n, (keeps_modifyBlock s dp b f).trans ((keeps_modifyDl hp).trans hk), fun hz => ?_⟩
  obtain ⟨x, hx, h₁, h₂, h₃⟩ := hn hz
  rw [hfind] at hx
  obtain rfl := Option.some.inj hx
  exact ⟨by rwa [hp] at h₁, h₂, h₃⟩

theorem markAsCanceled_keeps (h : s.Book True) (ha : s.asserts (.markAsCanceled p b peer)) :
    ∃ n : ℕ, Keeps n s (s.markAsCanceled p b peer) ∧
      (passedCall s (.markAsCanceled p b peer) → n = 0) := by
  obtain ⟨⟨-, hb⟩, hpart⟩ := ha
  rw [onPartial] at hpart
  rw [markAsCanceled, passedCall, onPartial]
  rcases hdp : s.findDlPiece p with - | dp
  · exact ⟨0, .refl s, fun _ => rfl⟩
  rw [hdp] at hpart
  dsimp only at hpart ⊢
  by_cases hfin : (s.block dp b).state = .finished
  · rw [if_pos hfin]
    exact ⟨0, .refl s, fun _ => rfl⟩
  rw [if_neg hfin]
  by_cases hwr : (s.block dp b).state = .writing
  · rw [if_pos hwr]
    have hpos : 0 < dp.writing := Nat.pos_of_ne_zero fun h0 => (h.block_ne hdp hb).2.1 h0 hwr
    have hnum := (hpart.resolve_left hfin).1
    obtain ⟨n, hk, hn⟩ := giveUp_keeps h hdp hb
      (f := fun i => { i with peer := peer, state := .none })
      (g := fun dp => { dp with writing := dp.writing - 1 })
      ⟨fun _ => rfl, fun _ => rfl, by simp [hwr], by simp [hwr]; omega, by simp [hwr],
        fun hp => by simp only at hp; omega, fun hc => by cases hc⟩ fun _ => rfl
    refine ⟨n, hk, fun hcall => ?_⟩
    by_contra hz
    obtain ⟨h₁, h₂, h₃⟩ := hn hz
    refine hcall h₁ hwr h₃ ?_
    simp only [DownloadingPiece.busy] at h₂ ⊢
    omega
  · rw [if_neg hwr]
    exact ⟨0, keeps_modifyBlock .., fun _ => rfl⟩

/-- The flag of a partial piece is set or cleared, and that is counted. -/
theorem flag_keeps (hb : s.Buckets) (hdp : s.findDlPiece p = some dp)
    (f : DownloadingPiece → DownloadingPiece) {n : ℤ}
    (hn : n + dp.passes = (f dp).passes) :
    Keeps 0 s ((s.addPassed n).modifyDl p f) := by
  have hp := hb.passed_modifyDl hdp f
  refine keeps_counted (c := s.toPickerCore.modifyDl p f) (n := s.numPassed + n) rfl ⟨rfl, rfl⟩ ?_
  rw [surplus]
  rw [DownloadingPiece.passes, DownloadingPiece.passes] at hn
  omega

theorem unpass_passes {dp' : DownloadingPiece} (h : dp'.passedHashCheck = false) :
    (if dp.passedHashCheck then -1 else 0 : ℤ) + dp.passes = dp'.passes := by
  rw [DownloadingPiece.passes, DownloadingPiece.passes, h]
  cases dp.passedHashCheck <;> simp

theorem lockPiece_keeps (hb : s.Buckets) (p : ℕ) : Keeps 0 s (s.lockPiece p) := by
  rw [lockPiece]
  rcases hdp : s.findDlPiece p with - | dp
  · exact .refl s
  · exact flag_keeps hb hdp _ (unpass_passes rfl)

theorem writeFailed_keeps (h : s.Book True) (ha : s.asserts (.writeFailed p b)) :
    Keeps 0 s (s.writeFailed p b) := by
  obtain ⟨⟨-, hb⟩, hpart⟩ := ha
  rw [onPartial] at hpart
  rw [writeFailed]
  rcases hdp : s.findDlPiece p with - | dp
  · exact .refl s
  rw [hdp] at hpart
  dsimp only at hpart ⊢
  obtain ⟨hwr, hnum⟩ := hpart
  have hpos : 0 < dp.writing := Nat.pos_of_ne_zero fun h0 => (h.block_ne hdp hb).2.1 h0 hwr
  rw [if_neg (by rw [hwr]; decide)]
  set f : BlockInfo → BlockInfo := fun i => { i with peer := none, state := .none } with hf
  set g : DownloadingPiece → DownloadingPiece := fun x =>
    { x with
      writing := if (s.block dp b).state = .writing then x.writing - 1 else x.writing
      passedHashCheck := false
      locked := true } with hg
  have hfol : Follows True (s.block dp b) dp f g :=
    ⟨fun _ => rfl, fun _ => rfl, by simp [hf, hg, hwr], by simp [hf, hg, hwr]; omega,
      by simp [hf, hg, hwr], fun hp => by simp only [hf] at hp; omega, fun hc => by cases hc⟩
  have hbut := (h.but p).touch hdp hb hfol
  have hfind := (h.but p).find_touch hdp hfol p
  have hcore := touch_core (s := s.unpass dp) (b := b) (f := f) (g := g)
    (h.buckets.find_index hdp)
  rw [unpass_core] at hcore
  rw [if_pos rfl, ← hcore] at hfind
  rw [← hcore] at hbut
  obtain ⟨n, hk, hn⟩ := eraseIfUnused_keeps hbut
  have hz : n = 0 := by
    by_contra hc
    obtain ⟨x, hx, hpass, -⟩ := hn hc
    rw [hfind] at hx
    obtain rfl := Option.some.inj hx
    cases hpass
  rw [hz] at hk
  -- the flag is cleared with the block, and only then is the piece looked at
  have hflag : Keeps 0 s (((s.unpass dp).modifyBlock dp b f).modifyDl p g) :=
    (flag_keeps h.buckets hdp g (unpass_passes rfl)).trans (keeps_modifyBlock _ dp b f)
  exact hflag.trans hk

theorem abortDownload_keeps (h : s.Book True) (ha : s.asserts (.abortDownload p b peer)) :
    ∃ n : ℕ, Keeps n s (s.abortDownload p b peer) ∧
      (passedCall s (.abortDownload p b peer) → n = 0) := by
  obtain ⟨⟨-, hb⟩, hpart⟩ := ha
  rw [abortDownload, passedCall, onPartial]
  rcases hdp : s.findDlPiece p with - | dp
  · exact ⟨0, .refl s, fun _ => rfl⟩
  dsimp only
  by_cases hreq : (s.block dp b).state ≠ .requested
  · rw [if_pos hreq]
    exact ⟨0, .refl s, fun _ => rfl⟩
  rw [if_neg hreq]
  rw [not_not] at hreq
  by_cases hmany : 0 < (s.block dp b).numPeers - 1
  · rw [if_pos hmany]
    exact ⟨0, keeps_modifyBlock .., fun _ => rfl⟩
  rw [if_neg hmany]
  have hpos : 0 < dp.requested := Nat.pos_of_ne_zero fun h0 => (h.block_ne hdp hb).1 h0 hreq
  set f : BlockInfo → BlockInfo := fun i => ⟨none, i.numPeers - 1, .none⟩ with hf
  set g : DownloadingPiece → DownloadingPiece := fun dp =>
    { dp with requested := dp.requested - 1 } with hg
  have hfol : Follows True (s.block dp b) dp f g :=
    ⟨fun _ => rfl, fun _ => rfl, by simp [hf, hg, hreq]; omega, by simp [hf, hg, hreq],
      by simp [hf, hg, hreq], fun hp => absurd hp hmany, fun hc => by cases hc⟩
  have hbut := (h.but p).touch hdp hb hfol
  have hfind := (h.but p).find_touch hdp hfol p
  rw [if_pos rfl] at hfind
  rw [← touch_core (h.buckets.find_index hdp)] at hbut hfind
  have hk : Keeps 0 s ((s.modifyBlock dp b f).modifyDl p g) :=
    (keeps_modifyBlock s dp b f).trans (keeps_modifyDl fun _ => rfl)
  by_cases hz : dp.requested - 1 + dp.finished + dp.writing = 0 ∧ dp.hashing = false
  · rw [if_pos hz]
    have hprio : ((s.modifyBlock dp b f).modifyDl p g).priority p = s.priority p := rfl
    have he := erase_keeps hbut.buckets hfind
    rw [hprio] at he
    refine ⟨dp.passes, hk.trans he, fun hcall => if_neg fun hpass => ?_⟩
    refine hcall hpass hreq (by omega) hz.2 ?_
    rw [DownloadingPiece.busy]
    omega
  · rw [if_neg hz]
    exact ⟨0, hk.trans (updatePieceState_keeps hbut.buckets p), fun _ => rfl⟩

/-! ### Restoring a piece -/

theorem restoreBlock_keeps (s : PiecePicker) (p b : ℕ) : Keeps 0 s (restoreBlock p s b) := by
  rw [restoreBlock]
  rcases s.findDlPiece p with - | dp
  · exact .refl s
  · dsimp only
    by_cases hfree : (s.block dp b).state = .requested
    · rw [if_pos hfree]
      exact .refl s
    · rw [if_neg hfree]
      refine Keeps.trans ?_ (keeps_modifyBlock _ dp b _)
      exact keeps_modifyDl fun _ => rfl

theorem restoreBlocks_keeps (p : ℕ) (blocks : List ℕ) (s : PiecePicker) :
    Keeps 0 s (blocks.foldl (restoreBlock p) s) := by
  induction blocks generalizing s with
  | nil => exact .refl s
  | cons b blocks ih => exact (restoreBlock_keeps s p b).trans (ih _)

/-- What restoring blocks leaves as it is: the requests, the flags, and the other blocks. -/
structure Restored (p : ℕ) (blocks : List ℕ) (s s' : PiecePicker) (dp dp' : DownloadingPiece) :
    Prop where
  find : s'.findDlPiece p = some dp'
  requested : dp'.requested = dp.requested
  hashing : dp'.hashing = dp.hashing
  passed : dp'.passedHashCheck = dp.passedHashCheck
  blocksInPiece : s'.blocksInPiece p = s.blocksInPiece p
  pieceMap : s'.pieceMap = s.pieceMap
  rest : s'.list = s.list ∧ s'.dirty = s.dirty ∧ s'.seeds = s.seeds
  block : ∀ b, b ∉ blocks → s'.block dp' b = s.block dp b

theorem restoreBlock_restored (h : s.BookBut True p) (hdp : s.findDlPiece p = some dp)
    (hb : b < s.blocksInPiece p) : ∃ dp', Restored p [b] s (restoreBlock p s b) dp dp' := by
  by_cases hfree : (s.block dp b).state = .requested
  · refine ⟨dp, ?_⟩
    rw [restoreBlock, hdp]
    dsimp only
    rw [if_pos hfree]
    exact ⟨hdp, rfl, rfl, rfl, rfl, rfl, ⟨rfl, rfl, rfl⟩, fun _ _ => rfl⟩
  · have hcore := restoreBlock_core h hdp hfree
    have hfol := restore_follows h hdp hb hfree
    set g : DownloadingPiece → DownloadingPiece := fun x => { x with
        writing := if (s.block dp b).state = .writing then x.writing - 1 else x.writing
        finished := if (s.block dp b).state = .finished then x.finished - 1 else x.finished }
      with hg
    refine ⟨g dp, ?_, rfl, rfl, rfl, ?_, ?_, ?_, fun b' hb' => ?_⟩
    · rw [hcore, h.find_touch hdp hfol, if_pos rfl]
    · rw [hcore]
      rfl
    · rw [hcore]
      rfl
    · rw [restoreBlock, hdp]
      dsimp only
      rw [if_neg hfree]
      exact ⟨rfl, rfl, rfl⟩
    · rw [hcore, PickerCore.block, h.blocksForPiece_touch hdp, if_pos (hfol.infoIdx dp),
        getD_modify, if_neg (fun hc => hb' (by rw [hc.1]; exact List.mem_singleton_self b))]
      rfl

theorem restoreBlocks_restored (h : s.BookBut True p) (hdp : s.findDlPiece p = some dp)
    {blocks : List ℕ} (hb : ∀ b ∈ blocks, b < s.blocksInPiece p) :
    ∃ dp', Restored p blocks s (blocks.foldl (restoreBlock p) s) dp dp' := by
  induction blocks generalizing s dp with
  | nil => exact ⟨dp, hdp, rfl, rfl, rfl, rfl, rfl, ⟨rfl, rfl, rfl⟩, fun _ _ => rfl⟩
  | cons b blocks ih =>
    obtain ⟨x, hx⟩ := restoreBlock_restored h hdp (hb b List.mem_cons_self)
    have hbook := (restoreBlock_book h (hb b List.mem_cons_self)).1
    obtain ⟨x', hx'⟩ := ih hbook hx.find fun b' hb' => by
      rw [hx.blocksInPiece]
      exact hb b' (List.mem_cons_of_mem b hb')
    refine ⟨x', hx'.find, hx'.requested.trans hx.requested, hx'.hashing.trans hx.hashing,
      hx'.passed.trans hx.passed, hx'.blocksInPiece.trans hx.blocksInPiece,
      hx'.pieceMap.trans hx.pieceMap, ?_, fun b' hb' => ?_⟩
    · obtain ⟨h₁, h₂, h₃⟩ := hx.rest
      obtain ⟨h₁', h₂', h₃'⟩ := hx'.rest
      exact ⟨h₁'.trans h₁, h₂'.trans h₂, h₃'.trans h₃⟩
    · rw [List.mem_cons, not_or] at hb'
      exact (hx'.block b' hb'.2).trans (hx.block b' (by simpa using hb'.1))

/-- The state of a piece that has no busy block (any more). -/
theorem newState_of_busy_zero (h : s.BookBut True p) (hdp : s.findDlPiece p = some dp)
    (hz : dp.busy = 0) : s.newState dp = if s.filtered p then .pieceZeroPrio
      else if dp.hashing = false then .pieceOpen
      else if (s.state p).reverse then .pieceDownloadingReverse else .pieceDownloading := by
  have hbusy : dp.requested + dp.finished + dp.writing = 0 := hz
  have hpos := h.blocks_pos p
  simp only [newState, h.buckets.find_index hdp, hbusy, true_and, if_pos hpos]

/-- A block that is not free keeps its piece busy. -/
theorem block_eq_none_of_busy (h : s.BookBut True p) (hdp : s.findDlPiece p = some dp)
    (hz : dp.busy = 0) (hb : b < s.blocksInPiece p) : (s.block dp b).state = .none := by
  obtain ⟨h₁, h₂, h₃⟩ := h.block_ne hdp hb
  rw [DownloadingPiece.busy] at hz
  have := h₁ (by omega)
  have := h₂ (by omega)
  have := h₃ (by omega)
  rcases hs : (s.block dp b).state <;> simp_all

/-- Restoring all blocks of a piece does not change its priority while it is still partial,
but for the one case that `listCall` excludes. -/
theorem restore_priority (h : s.Book True) (hdp : s.findDlPiece p = some dp)
    {blocks : List ℕ} {dp' : DownloadingPiece} (hr : Restored p blocks s s' dp dp')
    (h' : s'.BookBut True p) (hz : dp'.busy = 0) (hd : s.dirty = false)
    (hcall : listCall s (.restorePiece p blocks)) :
    ((s.pos p).priority false s.seeds) =
      ({ s.pos p with downloadState := s'.newState dp' } : PiecePos).priority false s.seeds ∨
      s'.newState dp' = s'.state p ∨ s'.newState dp' = .pieceOpen := by
  have hpos : s'.pos p = s.pos p := by rw [PickerCore.pos, PickerCore.pos, hr.pieceMap]
  have hst : s'.state p = s.state p := by rw [PickerCore.state, PickerCore.state, hpos]
  have hfil : s'.filtered p ↔ s.filtered p := by rw [filtered, filtered, hpos]
  have hnew := newState_of_busy_zero h' hr.find hz
  have hidx := h.buckets.find_index hdp
  by_cases hf : s.filtered p
  · exact .inl (PiecePos.priority_restate (.inl hf) _)
  rw [if_neg (mt hfil.mp hf)] at hnew
  by_cases hh : dp'.hashing = false
  · rw [if_pos hh] at hnew
    exact .inr (.inr hnew)
  rw [if_neg hh, hst] at hnew
  have hcat := h.category p dp hdp
  rcases hs : s.state p with _ | _ | _ | _ | _ | _ | _ <;> rw [hs] at hnew
  · exact .inr (.inl (by rw [hnew, hst, hs]; rfl))
  · -- a full piece has requests, which are not restored
    have := (hcat.full (by rw [hidx, downloadQueue, hs]; rfl)).2
    rw [DownloadingPiece.busy, hr.requested] at hz
    omega
  · -- a finished piece: either it is not in the list anyway, or a block is left
    rcases hcall with hc | hc | hc | hc | hc | ⟨b, hb, hnb⟩
    · rw [hd] at hc
      cases hc
    · exact absurd hc hf
    · exact .inl (PiecePos.priority_restate (.inr hc) _)
    · exact absurd hs hc
    · rw [onPartial, hdp] at hc
      rw [hr.hashing] at hh
      exact absurd hc hh
    · exfalso
      obtain ⟨hbusy, hreq⟩ := hcat.finished (by rw [hidx, downloadQueue, hs]; rfl)
      have hnone : (s.block dp b).state = .none := by
        rw [← hr.block b hnb]
        exact block_eq_none_of_busy h' hr.find hz (by rw [hr.blocksInPiece]; exact hb)
      have hpos := PickerCore.tally_pos.mpr ⟨_, h.block_mem hdp hb, hnone⟩
      have hsum := PickerCore.tally_sum (s.blocksForPiece dp)
      have hc := h.counts p dp hdp
      rw [h.length hdp, ← hc.requested, ← hc.writing, ← hc.finished] at hsum
      rw [DownloadingPiece.busy, hidx] at hbusy
      omega
  · left
    have hds : (s.pos p).downloadState = .pieceZeroPrio := hs
    rw [hnew, PiecePos.priority, PiecePos.priority, hds]
    simp [PiecePos.filtered, DownloadState.reverse]
  · exact absurd hs (h.buckets.downloading_of_find hdp)
  · exact .inr (.inl (by rw [hnew, hst, hs]; rfl))
  · have := (hcat.full (by rw [hidx, downloadQueue, hs]; rfl)).2
    rw [DownloadingPiece.busy, hr.requested] at hz
    omega

/-- The priority of a partial piece, which we do not have. -/
theorem Listed.priority_partial (hl : s.Listed) (hd : s.downloading p) :
    s.priority p = (s.pos p).priority false s.seeds := by
  rw [priority, decide_eq_false (hl.not_have hd)]

@[simp] theorem updatePieceState_rest (s : PiecePicker) (p : ℕ) :
    (s.updatePieceState p).dirty = s.dirty ∧ (s.updatePieceState p).seeds = s.seeds := by
  rw [updatePieceState]
  rcases s.findDlPiece p with - | dp
  · exact ⟨rfl, rfl⟩
  · dsimp only
    split_ifs
    · exact ⟨rfl, rfl⟩
    · obtain ⟨l, rng, hr⟩ := (s.withCore (s.moveDl dp (s.newState dp))).reposition_rest p
        (s.priority p)
      rw [hr]
      exact ⟨rfl, rfl⟩

theorem restorePiece_spec (h : s.Book True) {blocks : List ℕ}
    (ha : s.asserts (.restorePiece p blocks)) : ∃ n : ℕ,
    SamePeers s (s.restorePiece p blocks) ∧ SameWants s (s.restorePiece p blocks) ∧
      (s.restorePiece p blocks).surplus = s.surplus + n ∧
      (passedCall s (.restorePiece p blocks) → n = 0) ∧
      (listCall s (.restorePiece p blocks) → KeepsList s (s.restorePiece p blocks)) := by
  obtain ⟨-, -, hb, -⟩ := ha
  rw [restorePiece, passedCall, onPartial]
  rcases hdp : s.findDlPiece p with - | dp
  · have hk := Keeps.refl s
    exact ⟨0, hk.toSamePeers, hk.toSameWants, hk.surplus, fun _ => rfl, fun _ => hk.list⟩
  dsimp only
  have h₁ : (s.modifyDl p ({ · with locked := false })).Book True :=
    Book.modifyDl h (fun _ => rfl) (fun _ => rfl) (fun _ => rfl) (fun _ => rfl) fun _ => rfl
  have hk₁ : Keeps 0 s (s.modifyDl p ({ · with locked := false })) := keeps_modifyDl fun _ => rfl
  have hdp₁ := h.buckets.find_modifyDl (p := p) (f := ({ · with locked := false }))
    (fun _ => rfl) p
  rw [if_pos rfl, hdp] at hdp₁
  have hprev : (s.modifyDl p ({ · with locked := false })).priority p = s.priority p := rfl
  have hcall₁ : listCall s (.restorePiece p blocks) →
      listCall (s.modifyDl p ({ · with locked := false })) (.restorePiece p blocks) := by
    rintro (hc | hc | hc | hc | hc | hc)
    · exact .inl hc
    · exact .inr (.inl hc)
    · exact .inr (.inr (.inl hc))
    · exact .inr (.inr (.inr (.inl hc)))
    · refine .inr (.inr (.inr (.inr (.inl ?_))))
      rw [onPartial, hdp] at hc
      rw [onPartial, show (s.modifyDl p ({ · with locked := false })).findDlPiece p = _ from hdp₁]
      exact hc
    · exact .inr (.inr (.inr (.inr (.inr hc))))
  set s₁ := s.modifyDl p ({ · with locked := false }) with hs₁
  set dp₁ : DownloadingPiece := { dp with locked := false } with hdp₁'
  replace hdp₁ : s₁.findDlPiece p = some dp₁ := hdp₁
  by_cases hbl : blocks = []
  · -- the whole piece is forgotten
    simp only [hbl, if_pos, true_or, hdp₁]
    have hk := hk₁.trans (erase_keeps h₁.buckets hdp₁)
    refine ⟨dp₁.passes, hk.toSamePeers, hk.toSameWants, hk.surplus, fun hcall => ?_,
      fun _ => hk.list⟩
    exact if_neg fun hp => (hcall hp).1 rfl
  · simp only [hbl, if_neg, not_false_eq_true, false_or]
    have h₂ : (blocks.foldl (restoreBlock p) s₁).BookBut True p := restoreBlocks_book (h₁.but p) hb
    have hk₂ := hk₁.trans (restoreBlocks_keeps p blocks s₁)
    obtain ⟨dp₂, hr⟩ := restoreBlocks_restored (h₁.but p) hdp₁ hb
    set s₂ := blocks.foldl (restoreBlock p) s₁ with hs₂
    have hk₃ := hk₂.trans (updatePieceState_keeps h₂.buckets p)
    have h₃ : (s₂.updatePieceState p).BookBut True p := by
      rw [updatePieceState_core]
      exact h₂.recategorize_but
    have hfind : (s₂.updatePieceState p).findDlPiece p = some dp₂ := by
      rw [updatePieceState_core, h₂.find_recategorize]
      exact hr.find
    rw [hfind]
    dsimp only
    by_cases hz : dp₂.requested + dp₂.finished + dp₂.writing = 0
    · rw [if_pos hz]
      obtain ⟨hA, hB, hC⟩ := erase_rest h₃.buckets hfind (s₁.priority p)
      refine ⟨dp₂.passes, hk₃.toSamePeers.trans hA, hk₃.toSameWants.trans hB,
        by rw [hC, hk₃.surplus, Int.add_zero], fun hcall => if_neg fun hp => ?_, fun hcall hl => ?_⟩
      · -- a block that is not restored is still there
        obtain ⟨-, b, hbb, hne, hnb⟩ := hcall (by rw [← hr.passed, hp])
        apply hne
        rw [show s.block dp b = s₂.block dp₂ b from (hr.block b hnb).symm]
        exact block_eq_none_of_busy h₂ hr.find hz (by rw [hr.blocksInPiece]; exact hbb)
      · obtain ⟨hl₁, -⟩ := hk₁.list hl
        obtain ⟨hl₃, hh₃⟩ := hk₃.list hl
        have hd₃ := h₃.buckets.downloading_of_find hfind
        by_cases hd : (s₂.updatePieceState p).dirty = true
        · -- the list is out of date anyway
          rw [reposition, if_pos (.inl hd)]
          have hsh : Shift (s₂.updatePieceState p)
              ((s₂.updatePieceState p).eraseDownloadPiece dp₂) p :=
            shift_setState (c := (s₂.updatePieceState p).eraseDl dp₂)
              (by rw [← h₃.buckets.find_index hfind]; rfl) hl₃.toSane fun _ => rfl
          refine ⟨hsh.same hl₃ fun hd' => ?_, fun y => (hsh.have_iff y).trans (hh₃ y)⟩
          rw [hd] at hd'
          cases hd'
        · have hprio : (s₂.updatePieceState p).priority p = s₁.priority p := by
            rw [hl₃.priority_partial hd₃,
              hl₁.priority_partial (h₁.buckets.downloading_of_find hdp₁),
              (updatePieceState_rest s₂ p).2, hr.rest.2.2]
            rw [(updatePieceState_rest s₂ p).1, hr.rest.2.1, Bool.not_eq_true] at hd
            have hpos : s₂.pos p = s₁.pos p := by
              rw [PickerCore.pos, PickerCore.pos, hr.pieceMap]
            have hcases := restore_priority h₁ hdp₁ hr h₂ hz hd (hcall₁ hcall)
            rw [updatePieceState_core, PickerCore.recategorize, hr.find]
            dsimp only
            by_cases hmove : s₂.newState dp₂ = s₂.state p ∨ s₂.newState dp₂ = .pieceOpen
            · rw [if_pos hmove, hpos]
            · rw [if_neg hmove]
              rw [hcases.resolve_right hmove, ← hpos]
              have hm : (s₂.moveDl dp₂ (s₂.newState dp₂)).pieceMap =
                  (s₂.toPickerCore.setState p (s₂.newState dp₂)).pieceMap := by
                rw [← h₂.buckets.find_index hr.find]
                rfl
              have := pos_of_setState hm p
              rw [if_pos ⟨rfl, lt_of_downloading (h₂.buckets.downloading_of_find hr.find)⟩] at this
              rw [this]
          have hk := erase_keeps h₃.buckets hfind
          rw [hprio] at hk
          exact (hk₃.trans hk).list hl
    · rw [if_neg hz]
      exact ⟨0, hk₃.toSamePeers, hk₃.toSameWants, hk₃.surplus, fun _ => rfl, fun _ => hk₃.list⟩

end PiecePicker

end LibtorrentSN
