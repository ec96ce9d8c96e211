import LibtorrentSN.Picker.BookRun

/-!
# The piece picker: the bookkeeping in every reachable state

The operations that give blocks up again, those that set the picker up, and `pick_pieces`,
which does not touch the core at all. With them every reachable state is in order.
-/

namespace LibtorrentSN

namespace PickerCore

variable {c c' : PickerCore} {lax : Prop} {p y b : ℕ} {dp dp' : DownloadingPiece}
  {st : DownloadState}

/-- A piece of which something is left is never left in a wrong bucket. -/
theorem BookBut.recategorize_left (h : c.BookBut lax p)
    (hleft : ∀ dp, c.findDlPiece p = some dp → ¬ (dp.busy = 0 ∧ dp.hashing = false)) :
    (c.recategorize p).Book lax := by
  refine h.recategorize fun dp hdp ho => ?_
  exact absurd (newState_eq_open ho).2 (hleft dp hdp)

/-- The blocks of all partial pieces change in ways the bookkeeping does not see. -/
theorem Book.mapBlocks (h : c.Book lax) {f : BlockInfo → BlockInfo}
    (hs : ∀ i, (f i).state = i.state) (hp : ∀ i, (f i).numPeers = i.numPeers)
    (hc' : c' = { c with blockInfo := c.blockInfo.map (·.map f) }) : c'.Book lax := by
  have hlen : c'.blockInfo.length = c.blockInfo.length := by
    rw [hc', List.length_map]
  have hblocks : ∀ dp, c'.blocksForPiece dp = (c.blocksForPiece dp).map f := by
    intro dp
    have hget : c'.blockInfo.getD dp.infoIdx [] = (c.blockInfo.getD dp.infoIdx []).map f := by
      simp only [hc', List.getD_eq_getElem?_getD, List.getElem?_map]
      rcases c.blockInfo[dp.infoIdx]? with - | sl
      · rfl
      · rfl
    rw [blocksForPiece, blocksForPiece, hget, List.map_take, hc']
    rfl
  have htally : ∀ st dp, tally st (c'.blocksForPiece dp) = tally st (c.blocksForPiece dp) := by
    intro st dp
    rw [hblocks, tally, tally, List.countP_map]
    refine List.countP_congr fun i _ => ?_
    simp only [Function.comp, hs]
  have hfind : ∀ y, c'.findDlPiece y = c.findDlPiece y := by
    intro y
    rw [hc']
    rfl
  refine ⟨⟨?_, ?_, ?_, ⟨?_, ?_, ?_⟩, ?_⟩, ?_⟩
  · rw [hc']
    exact h.last_pos
  · rw [hc']
    exact h.last_le
  · rw [hc']
    exact h.buckets.congr rfl fun _ => rfl
  · rw [hlen, hc']
    exact h.slots.perm
  · intro sl hsl
    rw [hc'] at hsl ⊢
    obtain ⟨sl₀, hsl₀, rfl⟩ := List.mem_map.mp hsl
    rw [List.length_map]
    exact h.slots.length sl₀ hsl₀
  · rw [hlen]
    exact h.slots.bound
  · intro y dp hdp
    rw [hfind] at hdp
    obtain ⟨h₁, h₂, h₃, h₄, h₅⟩ := h.counts y dp hdp
    refine ⟨by rw [htally]; exact h₁, by rw [htally]; exact h₂, by rw [htally]; exact h₃, ?_, ?_⟩
    · intro info hi
      rw [hblocks] at hi
      obtain ⟨i, hi₀, rfl⟩ := List.mem_map.mp hi
      rw [hs, hp]
      exact h₄ i hi₀
    · intro info hi
      rw [hblocks] at hi
      obtain ⟨i, hi₀, rfl⟩ := List.mem_map.mp hi
      rw [hs, hp]
      exact h₅ i hi₀
  · intro y dp hdp
    rw [hfind] at hdp
    obtain ⟨h₁, h₂, h₃, h₄, h₅⟩ := h.category y dp hdp
    rw [hc']
    exact ⟨h₁, h₂, h₃, h₄, h₅⟩

theorem Ledger.pieceSize_pos (h : c.Ledger lax) : 0 < c.pieceSize := by
  have h₁ := h.last_pos
  have h₂ := h.last_le
  rw [blocksPerPiece, blockSize] at h₂
  by_contra hc
  have : c.pieceSize = 0 := by omega
  rw [this] at h₂
  simp at h₂
  omega

end PickerCore

namespace PiecePicker

open PickerCore

variable {s s' : PiecePicker} {lax : Prop} {p y b : ℕ} {dp : DownloadingPiece} {peer : Option ℕ}

/-! ## Giving blocks up -/

/-- A piece is put where it belongs, or forgotten if nothing is left of it. -/
theorem eraseIfUnused_book (h : s.BookBut lax p) : ((s.updatePieceState p).eraseIfUnused p).Book lax := by
  have hcore := updatePieceState_core s p
  have hfind : (s.updatePieceState p).findDlPiece p = s.findDlPiece p := by
    rw [hcore]
    exact h.find_recategorize p
  have hbut := h.recategorize_but
  rw [eraseIfUnused, hfind]
  rcases hdp : s.findDlPiece p with - | dp
  · rw [hcore]
    exact h.recategorize_left fun x hx => by rw [hdp] at hx; cases hx
  · dsimp only
    by_cases hz : dp.finished + dp.writing + dp.requested = 0 ∧ dp.hashing = false
    · rw [if_pos hz, reposition_core, eraseDownloadPiece, withCore_core, hcore]
      exact hbut.eraseDl (by rw [h.find_recategorize, hdp])
    · rw [if_neg hz, hcore]
      refine h.recategorize_left fun x hx hx' => hz ?_
      rw [hdp] at hx
      obtain rfl := Option.some.inj hx
      rw [DownloadingPiece.busy] at hx'
      exact ⟨by omega, hx'.2⟩

theorem markAsCanceled_book (h : s.Book lax) (ha : s.asserts (.markAsCanceled p b peer)) :
    (s.markAsCanceled p b peer).Book lax := by
  obtain ⟨⟨-, hb⟩, hpart⟩ := ha
  rw [onPartial] at hpart
  rw [markAsCanceled]
  rcases hdp : s.findDlPiece p with - | dp
  · exact h
  rw [hdp] at hpart
  dsimp only at hpart ⊢
  by_cases hfin : (s.block dp b).state = .finished
  · rw [if_pos hfin]
    exact h
  rw [if_neg hfin]
  by_cases hwr : (s.block dp b).state = .writing
  · rw [if_pos hwr]
    have hpos : 0 < dp.writing := Nat.pos_of_ne_zero fun h0 => (h.block_ne hdp hb).2.1 h0 hwr
    have hnum := (hpart.resolve_left hfin).1
    apply eraseIfUnused_book
    rw [touch_core (h.buckets.find_index hdp)]
    refine (h.but p).touch hdp hb ⟨fun _ => rfl, fun _ => rfl, ?_, ?_, ?_, ?_, fun hc => by cases hc⟩
    · simp [hwr]
    · simp [hwr]
      omega
    · simp [hwr]
    · intro hp
      simp only at hp
      omega
  · rw [if_neg hwr]
    exact h.modifyBlock hdp hb rfl (h.block_peers hdp hb) (h.block_asked hdp hb)

theorem writeFailed_book (h : s.Book lax) (ha : s.asserts (.writeFailed p b)) :
    (s.writeFailed p b).Book lax := by
  obtain ⟨⟨-, hb⟩, hpart⟩ := ha
  rw [onPartial] at hpart
  rw [writeFailed]
  rcases hdp : s.findDlPiece p with - | dp
  · exact h
  rw [hdp] at hpart
  dsimp only at hpart ⊢
  obtain ⟨hwr, hnum⟩ := hpart
  have hpos : 0 < dp.writing := Nat.pos_of_ne_zero fun h0 => (h.block_ne hdp hb).2.1 h0 hwr
  rw [if_neg (by rw [hwr]; decide)]
  apply eraseIfUnused_book
  rw [touch_core (s := s.unpass dp) (h.buckets.find_index hdp)]
  refine (h.but p).touch hdp hb ⟨fun _ => rfl, fun _ => rfl, ?_, ?_, ?_, ?_, fun hc => by cases hc⟩
  · simp [hwr]
  · simp [hwr]
    omega
  · simp [hwr]
  · intro hp
    simp only at hp
    omega

theorem lockPiece_book (h : s.Book lax) (p : ℕ) : (s.lockPiece p).Book lax := by
  rw [lockPiece]
  rcases s.findDlPiece p with - | dp
  · exact h
  · exact Book.modifyDl h (fun _ => rfl) (fun _ => rfl) (fun _ => rfl) (fun _ => rfl) fun _ => rfl

/-- The core after one block is restored. -/
theorem restoreBlock_core (h : s.BookBut lax p) (hdp : s.findDlPiece p = some dp)
    (hfree : (s.block dp b).state ≠ .requested) : (restoreBlock p s b).toPickerCore =
      s.toPickerCore.touch dp b (fun i => { i with peer := none, state := .none })
        fun x => { x with
          writing := if (s.block dp b).state = .writing then x.writing - 1 else x.writing
          finished := if (s.block dp b).state = .finished then x.finished - 1 else x.finished } := by
  obtain rfl := h.buckets.find_index hdp
  rw [restoreBlock, hdp]
  dsimp only
  rw [if_neg hfree]
  rfl

/-- The counters follow when a block is restored. -/
theorem restore_follows (h : s.BookBut lax p) (hdp : s.findDlPiece p = some dp)
    (hb : b < s.blocksInPiece p) (hfree : (s.block dp b).state ≠ .requested) :
    Follows lax (s.block dp b) dp (fun i => { i with peer := none, state := .none })
      fun x => { x with
        writing := if (s.block dp b).state = .writing then x.writing - 1 else x.writing
        finished := if (s.block dp b).state = .finished then x.finished - 1 else x.finished } := by
  obtain ⟨-, hw, hf⟩ := h.block_ne hdp hb
  refine ⟨fun _ => rfl, fun _ => rfl, ?_, ?_, ?_, ?_, fun hc => by cases hc⟩
  · simp [hfree]
  · by_cases hs : (s.block dp b).state = .writing
    · have : dp.writing ≠ 0 := fun h0 => hw h0 hs
      simp [hs]
      omega
    · simp [hs]
  · by_cases hs : (s.block dp b).state = .finished
    · have : dp.finished ≠ 0 := fun h0 => hf h0 hs
      simp [hs]
      omega
    · simp [hs]
  · exact fun hp => absurd (h.block_peers hdp hb hp) hfree

theorem restoreBlock_book (h : s.BookBut lax p) (hb : b < s.blocksInPiece p) :
    (restoreBlock p s b).BookBut lax p ∧ ∀ y, (restoreBlock p s b).blocksInPiece y =
      s.blocksInPiece y := by
  rcases hdp : s.findDlPiece p with - | dp
  · rw [restoreBlock, hdp]
    exact ⟨h, fun _ => rfl⟩
  · by_cases hfree : (s.block dp b).state = .requested
    · rw [restoreBlock, hdp]
      dsimp only
      rw [if_pos hfree]
      exact ⟨h, fun _ => rfl⟩
    · rw [restoreBlock_core h hdp hfree]
      exact ⟨h.touch hdp hb (restore_follows h hdp hb hfree), fun _ => rfl⟩

theorem restoreBlocks_book (h : s.BookBut lax p) {blocks : List ℕ}
    (hb : ∀ b ∈ blocks, b < s.blocksInPiece p) : (blocks.foldl (restoreBlock p) s).BookBut lax p := by
  induction blocks generalizing s with
  | nil => exact h
  | cons b blocks ih =>
    obtain ⟨h₁, h₂⟩ := restoreBlock_book h (hb b List.mem_cons_self)
    refine ih h₁ fun b' hb' => ?_
    rw [h₂]
    exact hb b' (List.mem_cons_of_mem b hb')

theorem restorePiece_book (h : s.Book lax) {blocks : List ℕ}
    (ha : s.asserts (.restorePiece p blocks)) : (s.restorePiece p blocks).Book lax := by
  obtain ⟨-, -, hb, -⟩ := ha
  have h₁ : (s.modifyDl p ({ · with locked := false })).Book lax :=
    Book.modifyDl h (fun _ => rfl) (fun _ => rfl) (fun _ => rfl) (fun _ => rfl) fun _ => rfl
  rw [restorePiece]
  rcases s.findDlPiece p with - | dp
  · exact h
  dsimp only
  set s₁ := s.modifyDl p ({ · with locked := false }) with hs₁
  by_cases hbl : blocks = []
  · simp only [hbl, if_pos, true_or]
    rcases hdp : s₁.findDlPiece p with - | dp
    · exact h₁
    · dsimp only
      rw [reposition_core]
      exact (h₁.but p).eraseDl hdp
  · simp only [hbl, if_neg, not_false_eq_true, false_or]
    have h₂ : (blocks.foldl (restoreBlock p) s₁).BookBut lax p := restoreBlocks_book (h₁.but p) hb
    set s₂ := blocks.foldl (restoreBlock p) s₁ with hs₂
    have hfind : (s₂.updatePieceState p).findDlPiece p = s₂.findDlPiece p := by
      rw [updatePieceState_core]
      exact h₂.find_recategorize p
    rw [hfind]
    rcases hdp : s₂.findDlPiece p with - | dp
    · dsimp only
      rw [updatePieceState_core]
      exact h₂.recategorize_left fun x hx => by rw [hdp] at hx; cases hx
    · dsimp only
      split_ifs with hz
      · rw [reposition_core, eraseDownloadPiece, withCore_core, updatePieceState_core]
        exact h₂.recategorize_but.eraseDl (by rw [h₂.find_recategorize, hdp])
      · rw [updatePieceState_core]
        refine h₂.recategorize_left fun x hx hx' => hz ?_
        rw [hdp] at hx
        obtain rfl := Option.some.inj hx
        exact hx'.1

/-- The counters follow when the last request of a block is given up. -/
theorem abort_follows (h : s.Book lax) (hdp : s.findDlPiece p = some dp)
    (hb : b < s.blocksInPiece p) (hreq : (s.block dp b).state = .requested)
    (hmany : ¬ 0 < (s.block dp b).numPeers - 1) :
    Follows lax (s.block dp b) dp (fun i => ⟨none, i.numPeers - 1, .none⟩)
      fun dp => { dp with requested := dp.requested - 1 } := by
  have hpos : 0 < dp.requested := Nat.pos_of_ne_zero fun h0 => (h.block_ne hdp hb).1 h0 hreq
  refine ⟨fun _ => rfl, fun _ => rfl, ?_, ?_, ?_, ?_, fun hc => by cases hc⟩
  · simp [hreq]
    omega
  · simp [hreq]
  · simp [hreq]
  · exact fun hp => absurd hp hmany

theorem abortDownload_book (h : s.Book lax) (ha : s.asserts (.abortDownload p b peer)) :
    (s.abortDownload p b peer).Book lax := by
  obtain ⟨⟨-, hb⟩, hpart⟩ := ha
  rw [abortDownload]
  rcases hdp : s.findDlPiece p with - | dp
  · exact h
  dsimp only
  by_cases hreq : (s.block dp b).state ≠ .requested
  · rw [if_pos hreq]
    exact h
  rw [if_neg hreq]
  rw [not_not] at hreq
  by_cases hmany : 0 < (s.block dp b).numPeers - 1
  · rw [if_pos hmany]
    exact h.modifyBlock hdp hb rfl (fun _ => hreq) fun _ => .inr hmany
  rw [if_neg hmany]
  have hfol := abort_follows h hdp hb hreq hmany
  have hbut := (h.but p).touch hdp hb hfol
  have hfind := (h.but p).find_touch hdp hfol p
  rw [if_pos rfl] at hfind
  rw [← touch_core (h.buckets.find_index hdp)] at hbut hfind
  split_ifs with hz
  · rw [reposition_core]
    -- the piece is erased by its index and slot, which did not change
    exact (hbut.eraseDl hfind :)
  · rw [updatePieceState_core]
    refine hbut.recategorize_left fun x hx hx' => hz ?_
    rw [hfind] at hx
    obtain rfl := Option.some.inj hx
    exact hx'

theorem clearPeer_book (h : s.Book lax) (peer : Option ℕ) : (s.clearPeer peer).Book lax := by
  refine Book.mapBlocks (f := fun i => if i.peer = peer then { i with peer := none } else i) h
    (fun i => ?_) (fun i => ?_) rfl
  · split_ifs <;> rfl
  · split_ifs <;> rfl

/-! ## Set-up -/

theorem setPadBytes_book (h : s.Book lax) (p bytes : ℕ) : (s.setPadBytes p bytes).Book lax := by
  have hsame : ∀ c : PickerCore, c = { s.toPickerCore with
      padsInPiece := (p, bytes) :: s.padsInPiece } → c.Book lax := by
    intro c hc
    subst hc
    exact SameBook.book (c := s.toPickerCore) ⟨rfl, rfl, rfl, rfl, rfl, rfl, fun _ => rfl⟩
      (fun _ => Iff.rfl) h
  simp only [setPadBytes]
  split_ifs
  all_goals first | exact weHave_book (hsame _ rfl) p | exact hsame _ rfl

theorem skipUp_congr (h : ∀ p, s'.passedOver p ↔ s.passedOver p) (fuel q : ℕ) :
    s.skipUp fuel q = s'.skipUp fuel q := by
  induction fuel generalizing q with
  | zero => rfl
  | succ fuel ih => simp only [skipUp, h, ih]

theorem skipDown_congr (h : ∀ p, s'.passedOver p ↔ s.passedOver p) (q : ℕ) :
    s.skipDown q = s'.skipDown q := by
  induction q with
  | zero => rfl
  | succ q ih => simp only [skipDown, h, ih]

/-- What `resize` makes of the state. -/
structure Resized (s : PiecePicker) (totalSize pieceSize : ℕ) (s' : PiecePicker) : Prop where
  pieceMap : s'.pieceMap = (s.pieceMap.take ((totalSize + pieceSize - 1) / pieceSize) ++
    List.replicate ((totalSize + pieceSize - 1) / pieceSize - s.pieceMap.length)
      (⟨0, .pieceOpen, defaultPriority⟩ : PiecePos)).map
        fun pos => { pos with peerCount := 0, downloadState := .pieceOpen }
  index : s'.list.index = List.replicate ((totalSize + pieceSize - 1) / pieceSize) 0
  downloads : s'.downloads = .empty
  blockInfo : s'.blockInfo = []
  freeBlockInfos : s'.freeBlockInfos = []
  sizes : s'.totalSize = totalSize ∧ s'.pieceSize = pieceSize
  dirty : s'.dirty = true
  seeds : s'.seeds = s.seeds
  have_zero : s'.numHave = 0 ∧ s'.numPassed = 0 ∧ s'.numHaveFiltered = 0
  numFiltered : s'.numFiltered = s.numFiltered + s.numHaveFiltered
  last : s'.blocksInLastPiece =
    if (totalSize % pieceSize + s'.blockSize - 1) / s'.blockSize = 0 then s'.blocksPerPiece
    else (totalSize % pieceSize + s'.blockSize - 1) / s'.blockSize
  cursors : s'.cursor = s'.skipUp s'.numPieces 0 ∧ s'.reverseCursor = s'.skipDown s'.numPieces

theorem resize_spec {totalSize pieceSize : ℕ} (h : s.resize totalSize pieceSize = some s') :
    Resized s totalSize pieceSize s' := by
  rw [resize] at h
  dsimp only at h
  by_cases hb : maxBlocksPerPiece < ({ s with totalSize := totalSize, pieceSize := pieceSize } :
      PiecePicker).blocksPerPiece
  · rw [if_pos hb] at h
    cases h
  · rw [if_neg hb] at h
    obtain rfl := Option.some.inj h
    have hn : ∀ n : ℕ, ((s.pieceMap.take n ++ List.replicate (n - s.pieceMap.length)
        (⟨0, .pieceOpen, defaultPriority⟩ : PiecePos)).map fun pos =>
          { pos with peerCount := 0, downloadState := .pieceOpen }).length = n := by
      intro n
      simp only [List.length_map, List.length_append, List.length_take, List.length_replicate]
      omega
    refine ⟨rfl, rfl, rfl, rfl, rfl, ⟨rfl, rfl⟩, rfl, rfl, ⟨rfl, rfl, rfl⟩, rfl, rfl, ?_, ?_⟩
    · rw [numPieces, hn]
      apply skipUp_congr
      exact fun _ => Iff.rfl
    · rw [numPieces, hn]
      apply skipDown_congr
      exact fun _ => Iff.rfl

/-- There is at least one block in a piece, and not more than there should be in the last
one. -/
theorem Resized.last_pos {totalSize pieceSize : ℕ} (h : Resized s totalSize pieceSize s')
    (hp : 0 < pieceSize) :
    0 < s'.blocksInLastPiece ∧ s'.blocksInLastPiece ≤ s'.blocksPerPiece := by
  have hlast := h.last
  simp only [blocksPerPiece, blockSize, h.sizes.2] at hlast ⊢
  set bs := min pieceSize defaultBlockSize with hbs
  have hbs0 : 0 < bs := by
    rw [hbs, defaultBlockSize]
    omega
  have hlt := Nat.mod_lt totalSize hp
  have hle : (totalSize % pieceSize + bs - 1) / bs ≤ (pieceSize + bs - 1) / bs :=
    Nat.div_le_div_right (by omega)
  have hpos : 0 < (pieceSize + bs - 1) / bs := Nat.div_pos (by omega) hbs0
  rw [hlast]
  split_ifs with hz
  · exact ⟨hpos, le_rfl⟩
  · exact ⟨Nat.pos_of_ne_zero hz, hle⟩

theorem resize_book {totalSize pieceSize : ℕ} (hp : 0 < pieceSize)
    (h : s.resize totalSize pieceSize = some s') : s'.Book lax := by
  have hr := resize_spec h
  obtain ⟨h₁, h₂⟩ := hr.last_pos hp
  exact book_of_empty h₁ h₂ hr.downloads hr.blockInfo hr.freeBlockInfos
    (state_of_map (fun _ => rfl) hr.pieceMap)

/-! ## Picking -/

/-- What `pick_pieces` may do to the picker: rebuild a list that is out of date, draw random
numbers and forget a recent extent. -/
def PickEffect (s s' : PiecePicker) : Prop :=
  ∃ rng recentExtents, s' = { s with rng := rng, recentExtents := recentExtents } ∨
    s.dirty = true ∧ ∃ rng₀, s' = { ({ s with rng := rng₀ } : PiecePicker).updatePieces with
      rng := rng, recentExtents := recentExtents }

theorem PickEffect.core (h : PickEffect s s') : s'.toPickerCore = s.toPickerCore := by
  obtain ⟨rng, e, rfl | ⟨-, rng₀, rfl⟩⟩ := h <;> rfl

/-- A later stage draws numbers and may forget an extent. -/
theorem PickEffect.draws {s s' s'' : PiecePicker} (h : PickEffect s s')
    (h' : ∃ rng recentExtents, s'' = { s' with rng := rng, recentExtents := recentExtents }) :
    PickEffect s s'' := by
  obtain ⟨rng', e', rfl⟩ := h'
  obtain ⟨rng, e, rfl | ⟨hd, rng₀, rfl⟩⟩ := h
  · exact ⟨rng', e', .inl rfl⟩
  · exact ⟨rng', e', .inr ⟨hd, rng₀, rfl⟩⟩

section Pick
variable (s : PiecePicker) (a : PickRequest) (st : PickState)

theorem partialsStage_state : ∃ rng, (s.partialsStage a st).2 = { s with rng := rng } := by
  rw [partialsStage, orderedPartials]
  split_ifs
  · exact ⟨_, rfl⟩
  · exact ⟨s.rng, rfl⟩
  · exact ⟨s.rng, rfl⟩

theorem extentsStage_state : ∃ e, (s.extentsStage a st).2 = { s with recentExtents := e } := by
  simp only [extentsStage]
  split
  · exact ⟨s.recentExtents, rfl⟩
  · exact ⟨_, rfl⟩

theorem rarestFirstStage_state :
    ∃ e, (s.rarestFirstStage a st).2 = { s with recentExtents := e } := by
  rw [rarestFirstStage]
  by_cases hr : a.options.reverse = true
  · rw [if_pos hr]
    exact ⟨s.recentExtents, rfl⟩
  rw [if_neg hr]
  dsimp only
  by_cases ha : a.options.pieceExtentAffinity = true
  · rw [if_pos ha]
    obtain ⟨e, he⟩ := s.extentsStage_state a st
    split_ifs <;> exact ⟨e, he⟩
  · rw [if_neg ha]
    split_ifs <;> exact ⟨s.recentExtents, rfl⟩

theorem refresh_effect (rng : List ℕ) :
    PickEffect s (({ s with rng := rng } : PiecePicker).refresh) := by
  rw [refresh]
  split_ifs with hd
  · exact ⟨_, s.recentExtents, .inr ⟨hd, rng, rfl⟩⟩
  · exact ⟨rng, s.recentExtents, .inl rfl⟩

theorem mainStage_effect (rng : List ℕ) :
    PickEffect s (({ s with rng := rng } : PiecePicker).mainStage a st).2 := by
  rw [mainStage]
  split_ifs
  · exact s.refresh_effect rng
  · obtain ⟨e, he⟩ := rarestFirstStage_state (({ s with rng := rng } : PiecePicker).refresh) a st
    exact (s.refresh_effect rng).draws ⟨_, e, he⟩
  · exact ⟨_, s.recentExtents, .inl rfl⟩

theorem endGame_state : ∃ rng, (s.endGame a st).2 = { s with rng := rng } := by
  rw [endGame]
  split_ifs
  · exact ⟨s.rng, rfl⟩
  · exact ⟨_, rfl⟩

theorem backupStage_state : ∃ rng, (s.backupStage a st).2 = { s with rng := rng } := by
  rw [backupStage]
  dsimp only
  split_ifs
  · exact ⟨s.rng, rfl⟩
  · exact ⟨s.rng, rfl⟩
  · exact s.endGame_state a _

theorem pickStages_effect : PickEffect s (s.pickStages a st).2 := by
  obtain ⟨rng, hrng⟩ := s.partialsStage_state a st
  simp only [pickStages, hrng]
  split_ifs
  · exact ⟨rng, s.recentExtents, .inl hrng⟩
  · exact ⟨rng, s.recentExtents, .inl rfl⟩
  · exact s.mainStage_effect a _ rng
  · obtain ⟨rng', hrng'⟩ := backupStage_state
      (({ s with rng := rng } : PiecePicker).mainStage a _).2 a _
    exact (s.mainStage_effect a _ rng).draws ⟨rng', _, hrng'⟩

theorem pickPieces_effect : PickEffect s (s.pickPieces a).2 :=
  s.pickStages_effect _ _

end Pick

end PiecePicker

/-! ## Runs -/

open PiecePicker in
/-- Every call keeps the bookkeeping in order. -/
theorem PiecePicker.apply_book {s : PiecePicker} {lax : Prop} (h : s.Book lax) {op : Op}
    (ha : s.asserts op) (hok : lax ∨ strictCall s op) : (s.apply op).Book lax := by
  cases op with
  | incRefcountAll => exact h
  | decRefcountAll => exact (peersOnly_decRefcountAll s).book h
  | incRefcount p => exact (peersOnly_incRefcount s p).book h
  | decRefcount p => exact (peersOnly_decRefcount s p).book h
  | incRefcountBitmask bitmask => exact (peersOnly_incRefcountBitmask s bitmask).book h
  | decRefcountBitmask bitmask => exact (peersOnly_decRefcountBitmask s bitmask).book h
  | weHave p => exact weHave_book h p
  | weDontHave p => exact weDontHave_book h p
  | weHaveAll => exact weHaveAll_book h
  | setPiecePriority p n => exact setPiecePriority_book h p n hok
  | markAsDownloading p b peer reverse affinity => exact markAsDownloading_book h ha hok
  | markAsWriting p b peer => exact markAsWriting_book h ha
  | markAsFinished p b peer => exact markAsFinished_book h ha
  | markAsCanceled p b peer => exact markAsCanceled_book h ha
  | writeFailed p b => exact writeFailed_book h ha
  | lockPiece p => exact lockPiece_book h p
  | restorePiece p blocks => exact restorePiece_book h ha
  | abortDownload p b peer => exact abortDownload_book h ha
  | piecePassed p => exact piecePassed_book h p
  | startedHashJob p =>
    exact PickerCore.Book.modifyDl h (fun _ => rfl) (fun _ => rfl) (fun _ => rfl) (fun _ => rfl)
      fun _ => rfl
  | completedHashJob p =>
    exact PickerCore.Book.modifyDl h (fun _ => rfl) (fun _ => rfl) (fun _ => rfl) (fun _ => rfl)
      fun _ => rfl
  | clearPeer peer => exact clearPeer_book h peer
  | setPadBytes p bytes => exact setPadBytes_book h p bytes
  | resize =>
    rw [PiecePicker.apply]
    rcases hr : s.resize s.totalSize s.pieceSize with - | s'
    · exact h
    · exact resize_book h.pieceSize_pos hr
  | pickPieces a =>
    rw [PiecePicker.apply, (s.pickPieces_effect a).core]
    exact h

/-- The bookkeeping is in order in every reachable state, up to the two slips. -/
theorem Reach.book {ok : PiecePicker → Op → Prop} {s : PiecePicker} (h : Reach ok s) :
    s.Book True := by
  induction h with
  | create _ hp h => exact PiecePicker.resize_book hp h
  | step _ ha _ ih => exact PiecePicker.apply_book ih ha (.inl trivial)

/-- It is so without exception where the slips do not happen. -/
theorem Reach.strictBook {ok : PiecePicker → Op → Prop}
    (hle : ∀ s op, ok s op → PiecePicker.strictCall s op) {s : PiecePicker} (h : Reach ok s) :
    s.Book False := by
  induction h with
  | create _ hp h => exact PiecePicker.resize_book hp h
  | step _ ha hok ih => exact PiecePicker.apply_book ih ha (.inr (hle _ _ hok))

end LibtorrentSN
