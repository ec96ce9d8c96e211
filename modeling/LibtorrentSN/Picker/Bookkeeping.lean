import LibtorrentSN.Picker.Partials
import LibtorrentSN.Picker.Run

/-!
# The piece picker: download bookkeeping

The invariant of the core of the picker, `Book`: buckets and slots are in order, the
counters of every partial piece count its blocks (`Ledger`), and the bucket it is in is the
one its counters ask for (`Category`). Between the change of a block and the call of
`update_piece_state` the category of one piece is out of step; `BookBut` is the invariant
without it.

The invariant holds in every reachable state, whatever the priority list looks like: no
operation on the core reads it. It does so up to two slips of the source, which its parameter
`lax` allows: the counter of the peers of a block may wrap around, and a piece that is no
longer filtered may be left in the bucket `piece_zero_prio`.
-/

namespace LibtorrentSN

namespace PickerCore

variable {c c' : PickerCore} {lax : Prop} {p y : ℕ} {dp dp' : DownloadingPiece}
  {st : DownloadState}

/-! ## The invariant -/

/-- The counters of a partial piece count its blocks, and exactly the requested blocks have
peers. -/
structure Counts (c : PickerCore) (lax : Prop) (dp : DownloadingPiece) : Prop where
  requested : dp.requested = tally .requested (c.blocksForPiece dp)
  writing : dp.writing = tally .writing (c.blocksForPiece dp)
  finished : dp.finished = tally .finished (c.blocksForPiece dp)
  peers : ∀ info ∈ c.blocksForPiece dp, 0 < info.numPeers → info.state = .requested
  asked : ∀ info ∈ c.blocksForPiece dp, info.state = .requested → lax ∨ 0 < info.numPeers

/-- The bucket of a partial piece fits its counters. A piece of the bucket
`piece_zero_prio` that is not filtered (any more) has no busy block. -/
structure Category (c : PickerCore) (lax : Prop) (dp : DownloadingPiece) : Prop where
  filtered : c.filtered dp.index → c.downloadQueue dp.index = some .pieceZeroPrio
  zeroPrio : c.downloadQueue dp.index = some .pieceZeroPrio → ¬ c.filtered dp.index →
    lax ∧ dp.busy = 0
  downloading : c.downloadQueue dp.index = some .pieceDownloading →
    dp.busy < c.blocksInPiece dp.index
  full : c.downloadQueue dp.index = some .pieceFull →
    dp.busy = c.blocksInPiece dp.index ∧ 0 < dp.requested
  finished : c.downloadQueue dp.index = some .pieceFinished →
    dp.busy = c.blocksInPiece dp.index ∧ dp.requested = 0

/-- Buckets, slots and counters are in order. -/
structure Ledger (c : PickerCore) (lax : Prop) : Prop where
  last_pos : 0 < c.blocksInLastPiece
  last_le : c.blocksInLastPiece ≤ c.blocksPerPiece
  buckets : c.Buckets
  slots : c.Slots
  counts : ∀ y dp, c.findDlPiece y = some dp → c.Counts lax dp

/-- The bookkeeping is in order, but for the category of the piece `p`. -/
structure BookBut (c : PickerCore) (lax : Prop) (p : ℕ) : Prop extends Ledger c lax where
  category : ∀ y dp, y ≠ p → c.findDlPiece y = some dp → c.Category lax dp

/-- The bookkeeping is in order. -/
structure Book (c : PickerCore) (lax : Prop) : Prop extends Ledger c lax where
  category : ∀ y dp, c.findDlPiece y = some dp → c.Category lax dp

/-- A book that is right is right but for a piece. -/
theorem Book.but (h : c.Book lax) (p : ℕ) : c.BookBut lax p :=
  { h with category := fun y dp _ hdp => h.category y dp hdp }

/-- It is right if it is right for that piece as well. -/
theorem BookBut.book (h : c.BookBut lax p) (hp : ∀ dp, c.findDlPiece p = some dp → c.Category lax dp) :
    c.Book lax := by
  refine { h with category := fun y dp hdp => ?_ }
  by_cases hy : y = p
  · subst hy
    exact hp dp hdp
  · exact h.category y dp hy hdp

/-- A piece has blocks. -/
theorem Ledger.blocks_pos (h : c.Ledger lax) (p : ℕ) : 0 < c.blocksInPiece p := by
  have := h.last_pos
  have := h.last_le
  rw [blocksInPiece]
  split_ifs <;> omega

/-- It has no more than its slot has room for. -/
theorem Ledger.blocks_le (h : c.Ledger lax) (p : ℕ) : c.blocksInPiece p ≤ c.blocksPerPiece := by
  have := h.last_le
  rw [blocksInPiece]
  split_ifs <;> omega

/-- The slot of a partial piece holds its blocks. -/
theorem Ledger.length (h : c.Ledger lax) (hdp : c.findDlPiece p = some dp) :
    (c.blocksForPiece dp).length = c.blocksInPiece p := by
  obtain ⟨hm, rfl⟩ := h.buckets.find_eq_some.mp hdp
  exact blocksForPiece_length h.slots hm (h.blocks_le _)

/-- No more blocks are busy than there are. -/
theorem Ledger.busy_le (h : c.Ledger lax) (hdp : c.findDlPiece p = some dp) :
    dp.busy ≤ c.blocksInPiece p := by
  have hc := h.counts p dp hdp
  have hsum := tally_sum (c.blocksForPiece dp)
  rw [h.length hdp] at hsum
  rw [DownloadingPiece.busy, hc.requested, hc.writing, hc.finished]
  omega

/-- What the bookkeeping depends on. -/
structure SameBook (c c' : PickerCore) : Prop where
  downloads : c'.downloads = c.downloads
  blockInfo : c'.blockInfo = c.blockInfo
  free : c'.freeBlockInfos = c.freeBlockInfos
  pieceSize : c'.pieceSize = c.pieceSize
  last : c'.blocksInLastPiece = c.blocksInLastPiece
  numPieces : c'.numPieces = c.numPieces
  queue : ∀ y, c'.downloadQueue y = c.downloadQueue y

/-- The size of a slot is the same. -/
theorem SameBook.blocksPerPiece (h : SameBook c c') : c'.blocksPerPiece = c.blocksPerPiece := by
  rw [PickerCore.blocksPerPiece, PickerCore.blocksPerPiece, blockSize, blockSize, h.pieceSize]

/-- Pieces have the same blocks. -/
theorem SameBook.blocksInPiece (h : SameBook c c') (y : ℕ) :
    c'.blocksInPiece y = c.blocksInPiece y := by
  rw [PickerCore.blocksInPiece, PickerCore.blocksInPiece, h.blocksPerPiece, h.last, h.numPieces]

/-- They have the same entries. -/
theorem SameBook.find (h : SameBook c c') (y : ℕ) : c'.findDlPiece y = c.findDlPiece y :=
  findDlPiece_congr h.downloads h.queue y

/-- The blocks are in the same states. -/
theorem SameBook.blocksForPiece (h : SameBook c c') (dp : DownloadingPiece) :
    c'.blocksForPiece dp = c.blocksForPiece dp := by
  rw [PickerCore.blocksForPiece, PickerCore.blocksForPiece, h.blockInfo, h.blocksInPiece]

/-- Then the counters are right as they were. -/
theorem SameBook.ledger (h : SameBook c c') (hl : c.Ledger lax) : c'.Ledger lax := by
  refine ⟨by rw [h.last]; exact hl.last_pos, by rw [h.last, h.blocksPerPiece]; exact hl.last_le,
    hl.buckets.congr h.downloads h.queue, ?_, ?_⟩
  · exact hl.slots.congr (by rw [h.downloads, h.free]) h.blockInfo h.pieceSize
  · intro y dp hdp
    rw [h.find] at hdp
    obtain ⟨h₁, h₂, h₃, h₄, h₅⟩ := hl.counts y dp hdp
    constructor <;> rw [h.blocksForPiece] <;> assumption

/-- And so are the buckets. -/
theorem SameBook.category (h : SameBook c c') (hf : c'.filtered dp.index ↔ c.filtered dp.index)
    (hc : c.Category lax dp) : c'.Category lax dp := by
  obtain ⟨h₁, h₂, h₃, h₄, h₅⟩ := hc
  constructor <;> simp only [h.queue, h.blocksInPiece, hf] <;> assumption

/-- A change that only touches what the bookkeeping does not depend on. -/
theorem SameBook.book (h : SameBook c c') (hf : ∀ y, c'.filtered y ↔ c.filtered y)
    (hb : c.Book lax) : c'.Book lax :=
  { h.ledger hb.toLedger with
    category := fun y dp hdp => h.category (hf _) (hb.category y dp (by rwa [h.find] at hdp)) }

/-- A change of the priority of `p` puts its category in doubt. -/
theorem SameBook.bookBut (h : SameBook c c') (hf : ∀ y, y ≠ p → (c'.filtered y ↔ c.filtered y))
    (hb : c.Book lax) : c'.BookBut lax p := by
  refine { h.ledger hb.toLedger with category := fun y dp hy hdp => ?_ }
  rw [h.find] at hdp
  refine h.category (hf _ ?_) (hb.category y dp hdp)
  rw [hb.buckets.find_index hdp]
  exact hy

/-! ## Changing one block -/

/-- Change block `b` of the partial piece `dp` and its record. -/
def touch (c : PickerCore) (dp : DownloadingPiece) (b : ℕ) (f : BlockInfo → BlockInfo)
    (g : DownloadingPiece → DownloadingPiece) : PickerCore :=
  (c.modifyBlock dp b f).modifyDl dp.index g

section Touch
variable {b : ℕ} {f : BlockInfo → BlockInfo} {g : DownloadingPiece → DownloadingPiece}

/-- The counters follow the change of the block. -/
structure Follows (lax : Prop) (info : BlockInfo) (dp : DownloadingPiece) (f : BlockInfo → BlockInfo)
    (g : DownloadingPiece → DownloadingPiece) : Prop where
  index : ∀ dp, (g dp).index = dp.index
  infoIdx : ∀ dp, (g dp).infoIdx = dp.infoIdx
  requested : (g dp).requested + (if info.state = .requested then 1 else 0) =
    dp.requested + (if (f info).state = .requested then 1 else 0)
  writing : (g dp).writing + (if info.state = .writing then 1 else 0) =
    dp.writing + (if (f info).state = .writing then 1 else 0)
  finished : (g dp).finished + (if info.state = .finished then 1 else 0) =
    dp.finished + (if (f info).state = .finished then 1 else 0)
  peers : 0 < (f info).numPeers → (f info).state = .requested
  asked : (f info).state = .requested → lax ∨ 0 < (f info).numPeers

/-- The entries after one and a block of it have changed. -/
theorem BookBut.find_touch (h : c.BookBut lax p) (hdp : c.findDlPiece p = some dp)
    (hfol : Follows lax (c.block dp b) dp f g) (y : ℕ) :
    (c.touch dp b f g).findDlPiece y = if y = p then some (g dp) else c.findDlPiece y := by
  obtain rfl := h.buckets.find_index hdp
  have h₁ : (c.modifyBlock dp b f).Buckets := h.buckets.congr rfl fun _ => rfl
  have h₂ : ∀ y, (c.modifyBlock dp b f).findDlPiece y = c.findDlPiece y := fun _ => rfl
  rw [touch, h₁.find_modifyDl hfol.index, h₂]
  split_ifs with hy
  · rw [hy, hdp]
    rfl
  · rfl

/-- The blocks of all pieces after that. -/
theorem BookBut.blocksForPiece_touch (h : c.BookBut lax p) (hdp : c.findDlPiece p = some dp)
    (dp' : DownloadingPiece) : (c.touch dp b f g).blocksForPiece dp' =
      if dp'.infoIdx = dp.infoIdx then (c.blocksForPiece dp').modify b f
      else c.blocksForPiece dp' := by
  exact blocksForPiece_modifyBlock (h.slots.lt (h.buckets.find_eq_some.mp hdp).1)

/-- Changing a block and the counters with it keeps everything but the category. -/
theorem BookBut.touch (h : c.BookBut lax p) (hdp : c.findDlPiece p = some dp)
    (hb : b < c.blocksInPiece p) (hfol : Follows lax (c.block dp b) dp f g) :
    (c.touch dp b f g).BookBut lax p := by
  have hfind := h.find_touch hdp hfol
  have hblocks := h.blocksForPiece_touch (b := b) (f := f) (g := g) hdp
  have hlen := h.length hdp
  have hcat : ∀ y x, c.findDlPiece y = some x → y ≠ p → x.infoIdx ≠ dp.infoIdx := by
    intro y x hx hy he
    have := h.slots.inj (h.buckets.find_eq_some.mp hx).1 (h.buckets.find_eq_some.mp hdp).1 he
    exact hy (by rw [← h.buckets.find_index hx, this, h.buckets.find_index hdp])
  refine ⟨⟨h.last_pos, h.last_le, ?_, ?_, ?_⟩, ?_⟩
  · exact Buckets.modifyDl (h.buckets.congr rfl fun _ => rfl) hfol.index
  · exact (h.slots.modifyBlock b f).modifyDl hfol.infoIdx
  · intro y x hx
    rw [hfind] at hx
    split_ifs at hx with hy
    · obtain rfl := Option.some.inj hx
      obtain ⟨h₁, h₂, h₃, h₄, h₅⟩ := h.counts p dp hdp
      have hbl : (c.touch dp b f g).blocksForPiece (g dp) =
          (c.blocksForPiece dp).modify b f := by
        rw [hblocks, if_pos (hfol.infoIdx dp), PickerCore.blocksForPiece,
          PickerCore.blocksForPiece, hfol.infoIdx, hfol.index]
      have hb' : b < (c.blocksForPiece dp).length := by rwa [hlen]
      have ht := fun st => tally_modify hb' f st
      have hinfo : (c.blocksForPiece dp).getD b default = c.block dp b := rfl
      simp only [hinfo] at ht
      -- a block is the changed one or an old one
      have hcase : ∀ info ∈ (c.touch dp b f g).blocksForPiece (g dp),
          info = f (c.block dp b) ∨ info ∈ c.blocksForPiece dp := by
        intro info hi
        rw [hbl] at hi
        obtain ⟨i, hil, rfl⟩ := List.mem_iff_getElem.mp hi
        rw [List.length_modify] at hil
        rw [List.getElem_modify]
        split_ifs with hbi
        · subst hbi
          rw [← hinfo, List.getD_eq_getElem _ _ hil]
          exact .inl rfl
        · exact .inr (List.getElem_mem hil)
      refine ⟨?_, ?_, ?_, ?_, ?_⟩
      · have := ht .requested
        have := hfol.requested
        rw [hbl]
        omega
      · have := ht .writing
        have := hfol.writing
        rw [hbl]
        omega
      · have := ht .finished
        have := hfol.finished
        rw [hbl]
        omega
      · intro info hi hpos
        rcases hcase info hi with rfl | hi
        · exact hfol.peers hpos
        · exact h₄ info hi hpos
      · intro info hi hst
        rcases hcase info hi with rfl | hi
        · exact hfol.asked hst
        · exact h₅ info hi hst
    · obtain ⟨h₁, h₂, h₃, h₄, h₅⟩ := h.counts y x hx
      have hne := hcat y x hx hy
      constructor <;> rw [hblocks, if_neg hne] <;> assumption
  · intro y x hy hx
    rw [hfind, if_neg hy] at hx
    obtain ⟨h₁, h₂, h₃, h₄, h₅⟩ := h.category y x hy hx
    exact ⟨h₁, h₂, h₃, h₄, h₅⟩

end Touch

/-! ## Recategorizing -/

/-- What `update_piece_state` does to the core. -/
def recategorize (c : PickerCore) (p : ℕ) : PickerCore :=
  match c.findDlPiece p with
  | none => c
  | some dp =>
    if c.newState dp = c.state p ∨ c.newState dp = .pieceOpen then c
    else c.moveDl dp (c.newState dp)

section Recategorize

@[simp] theorem moveDl_filtered : (c.moveDl dp st).filtered y ↔ c.filtered y :=
  c.setState_filtered dp.index y st

@[simp] theorem moveDl_blocksForPiece :
    (c.moveDl dp st).blocksForPiece dp' = c.blocksForPiece dp' := by
  have h : (c.moveDl dp st).numPieces = c.numPieces := c.setState_numPieces dp.index st
  rw [blocksForPiece, blocksForPiece, blocksInPiece, blocksInPiece, h]
  rfl

@[simp] theorem moveDl_blocksInPiece : (c.moveDl dp st).blocksInPiece y = c.blocksInPiece y := by
  have h : (c.moveDl dp st).numPieces = c.numPieces := c.setState_numPieces dp.index st
  rw [blocksInPiece, blocksInPiece, h]
  rfl

/-- The buckets after an entry has been moved. -/
theorem moveDl_downloadQueue (hlt : dp.index < c.numPieces) :
    (c.moveDl dp st).downloadQueue y =
      if y = dp.index then st.downloadQueue else c.downloadQueue y := by
  refine (c.setState_downloadQueue dp.index y st).trans ?_
  simp [hlt]

/-- The state that is computed is the right one. -/
theorem newState_category (hle : dp.busy ≤ c.blocksInPiece dp.index)
    (ho : c.newState dp ≠ .pieceOpen)
    (hq : c'.downloadQueue dp.index = (c.newState dp).downloadQueue)
    (hf : c'.filtered dp.index ↔ c.filtered dp.index)
    (hn : c'.blocksInPiece dp.index = c.blocksInPiece dp.index) : c'.Category lax dp := by
  have hbusy : dp.requested + dp.finished + dp.writing = dp.busy := rfl
  rw [newState, hbusy] at ho hq
  by_cases hfil : c.filtered dp.index
  · rw [if_pos hfil] at hq
    constructor <;> simp [hq, hf, hfil, DownloadState.downloadQueue]
  rw [if_neg hfil] at ho hq
  by_cases hz : dp.busy = 0 ∧ dp.hashing = false
  · exact absurd (if_pos hz) ho
  rw [if_neg hz] at hq
  by_cases hlt : dp.busy < c.blocksInPiece dp.index
  · rw [if_pos hlt] at hq
    split_ifs at hq <;>
      constructor <;> simp [hq, hf, hfil, hn, hlt, DownloadState.downloadQueue]
  rw [if_neg hlt] at hq
  have heq : dp.busy = c.blocksInPiece dp.index := by omega
  by_cases hr : 0 < dp.requested
  · rw [if_pos hr] at hq
    split_ifs at hq <;>
      constructor <;> simp [hq, hf, hfil, hn, heq, hr, DownloadState.downloadQueue]
  · rw [if_neg hr] at hq
    constructor <;> simp [hq, hf, hfil, hn, heq, DownloadState.downloadQueue]
    omega

/-- Moving a partial piece to the bucket its counters ask for sets everything right. -/
theorem BookBut.moveDl (h : c.BookBut lax p) (hdp : c.findDlPiece p = some dp)
    (ho : c.newState dp ≠ .pieceOpen) : (c.moveDl dp (c.newState dp)).Book lax := by
  have hlt : dp.index < c.numPieces := by
    rw [h.buckets.find_index hdp]
    exact lt_of_downloading (h.buckets.downloading_of_find hdp)
  have hfind := h.buckets.find_moveDl ho hdp
  have hidx := h.buckets.find_index hdp
  refine ⟨⟨h.last_pos, h.last_le, h.buckets.moveDl ho hdp, h.slots.moveDl h.buckets ho hdp, ?_⟩,
    ?_⟩
  · intro y x hx
    rw [hfind] at hx
    obtain ⟨h₁, h₂, h₃, h₄, h₅⟩ := h.counts y x hx
    constructor <;> rw [moveDl_blocksForPiece] <;> assumption
  · intro y x hx
    rw [hfind] at hx
    by_cases hy : y = p
    · rw [hy, hdp] at hx
      obtain rfl := Option.some.inj hx
      refine newState_category (c := c) (by rw [hidx]; exact h.busy_le hdp) ho ?_
        moveDl_filtered moveDl_blocksInPiece
      rw [moveDl_downloadQueue hlt, if_pos rfl]
    · obtain ⟨h₁, h₂, h₃, h₄, h₅⟩ := h.category y x hy hx
      have hq : (c.moveDl dp (c.newState dp)).downloadQueue x.index =
          c.downloadQueue x.index := by
        rw [moveDl_downloadQueue hlt, if_neg]
        rw [h.buckets.find_index hx, hidx]
        exact hy
      constructor <;> simp only [hq, moveDl_filtered, moveDl_blocksInPiece] <;> assumption

/-- After `update_piece_state` everything is right, provided that it was so for a piece it
leaves alone because nothing is left of it. -/
theorem BookBut.recategorize (h : c.BookBut lax p)
    (hfix : ∀ dp, c.findDlPiece p = some dp → c.newState dp = .pieceOpen → c.Category lax dp) :
    (c.recategorize p).Book lax := by
  rw [PickerCore.recategorize]
  rcases hdp : c.findDlPiece p with - | dp
  · exact h.book fun dp hc => by rw [hdp] at hc; cases hc
  · dsimp only
    by_cases ho : c.newState dp = .pieceOpen
    · rw [if_pos (.inr ho)]
      refine h.book fun x hx => ?_
      rw [hdp] at hx
      obtain rfl := Option.some.inj hx
      exact hfix dp hdp ho
    · by_cases hs : c.newState dp = c.state p
      · rw [if_pos (.inl hs)]
        refine h.book fun x hx => ?_
        rw [hdp] at hx
        obtain rfl := Option.some.inj hx
        have hidx := h.buckets.find_index hdp
        refine newState_category (c := c) (by rw [hidx]; exact h.busy_le hdp) ho ?_ Iff.rfl rfl
        rw [hs, hidx]
        rfl
      · rw [if_neg (not_or.mpr ⟨hs, ho⟩)]
        exact h.moveDl hdp ho

/-- Putting a partial piece into another bucket does not change it. -/
theorem Buckets.find_recategorize (h : c.Buckets) (y : ℕ) :
    (c.recategorize p).findDlPiece y = c.findDlPiece y := by
  rw [PickerCore.recategorize]
  rcases hdp : c.findDlPiece p with - | dp
  · rfl
  · dsimp only
    split_ifs with hc
    · rfl
    · exact h.find_moveDl (not_or.mp hc).2 hdp y

/-- The entries are the same in another bucket. -/
theorem Ledger.find_recategorize (h : c.Ledger lax) (y : ℕ) :
    (c.recategorize p).findDlPiece y = c.findDlPiece y :=
  h.buckets.find_recategorize y

/-- The bucket of the piece is left open. -/
theorem BookBut.recategorize_but (h : c.BookBut lax p) : (c.recategorize p).BookBut lax p := by
  rcases hdp : c.findDlPiece p with - | dp
  · rw [PickerCore.recategorize, hdp]
    exact h
  · by_cases ho : c.newState dp = .pieceOpen
    · rw [PickerCore.recategorize, hdp]
      dsimp only
      rw [if_pos (.inr ho)]
      exact h
    · refine (h.recategorize fun x hx hx' => ?_).but p
      rw [hdp] at hx
      obtain rfl := Option.some.inj hx
      exact absurd hx' ho

@[simp] theorem recategorize_blocksInPiece :
    (c.recategorize p).blocksInPiece y = c.blocksInPiece y := by
  rw [PickerCore.recategorize]
  split
  · rfl
  · split_ifs
    · rfl
    · exact moveDl_blocksInPiece

@[simp] theorem recategorize_blocksForPiece :
    (c.recategorize p).blocksForPiece dp = c.blocksForPiece dp := by
  rw [PickerCore.recategorize]
  split
  · rfl
  · split_ifs
    · rfl
    · exact moveDl_blocksForPiece

end Recategorize

/-! ## Erasing and starting partial pieces -/

/-- A partial piece that is gone has no category. -/
theorem BookBut.eraseDl (h : c.BookBut lax p) (hdp : c.findDlPiece p = some dp) :
    (c.eraseDl dp).Book lax := by
  have hlt : dp.index < c.numPieces := by
    rw [h.buckets.find_index hdp]
    exact lt_of_downloading (h.buckets.downloading_of_find hdp)
  have hidx := h.buckets.find_index hdp
  have hfind := h.buckets.find_eraseDl hdp
  have hn : (c.eraseDl dp).numPieces = c.numPieces := c.setState_numPieces dp.index _
  have hbl : ∀ y, (c.eraseDl dp).blocksInPiece y = c.blocksInPiece y := by
    intro y
    rw [blocksInPiece, blocksInPiece, hn]
    rfl
  have hbp : ∀ x, (c.eraseDl dp).blocksForPiece x = c.blocksForPiece x := by
    intro x
    rw [blocksForPiece, blocksForPiece, hbl]
    rfl
  refine ⟨⟨h.last_pos, h.last_le, h.buckets.eraseDl hdp, h.slots.eraseDl h.buckets hdp, ?_⟩, ?_⟩
  · intro y x hx
    rw [hfind] at hx
    split_ifs at hx
    obtain ⟨h₁, h₂, h₃, h₄, h₅⟩ := h.counts y x hx
    constructor <;> rw [hbp] <;> assumption
  · intro y x hx
    rw [hfind] at hx
    split_ifs at hx with hy
    obtain ⟨h₁, h₂, h₃, h₄, h₅⟩ := h.category y x hy hx
    have hq : (c.eraseDl dp).downloadQueue x.index = c.downloadQueue x.index := by
      refine (c.setState_downloadQueue dp.index x.index .pieceOpen).trans (if_neg ?_)
      rw [h.buckets.find_index hx, hidx]
      exact fun hc => hy hc.1
    have hf : (c.eraseDl dp).filtered x.index ↔ c.filtered x.index :=
      c.setState_filtered dp.index x.index _
    constructor <;> simp only [hq, hf, hbl] <;> assumption

/-- A new piece has its blocks. -/
theorem freshBlocks_length (payload n : ℕ) : (freshBlocks payload n).length = n := by
  simp [freshBlocks]

/-- They are free, but for those that are pads. -/
theorem tally_freshBlocks (payload n : ℕ) (st : BlockState) :
    tally st (freshBlocks payload n) =
      match st with
      | .none => min payload n
      | .finished => n - payload
      | _ => 0 := by
  induction n with
  | zero => cases st <;> simp [tally, freshBlocks]
  | succ n ih =>
    have hsucc : freshBlocks payload (n + 1) =
        freshBlocks payload n ++ [⟨none, 0, if payload ≤ n then .finished else .none⟩] := by
      simp [freshBlocks, List.range_succ]
    rw [hsucc]
    simp only [tally, List.countP_append, List.countP_singleton] at ih ⊢
    rw [ih]
    by_cases hp : payload ≤ n
    · cases st <;> simp [hp] <;> omega
    · cases st <;> simp [hp] <;> omega

/-- The size of a slot does not change when a piece is started. -/
theorem startDl_blocksPerPiece : (c.startDl p st).blocksPerPiece = c.blocksPerPiece := by
  rw [blocksPerPiece, blocksPerPiece, blockSize, blockSize,
    show (c.startDl p st).pieceSize = (c.setState p st).pieceSize from takeSlot_pieceSize]
  rfl

/-- Nor does the last piece. -/
theorem startDl_last : (c.startDl p st).blocksInLastPiece = c.blocksInLastPiece :=
  takeSlot_blocksInLastPiece (c := c.setState p st)

/-- Nor does the number of pieces. -/
theorem startDl_numPieces : (c.startDl p st).numPieces = c.numPieces := by
  rw [← c.setState_numPieces p st]
  exact congrArg List.length (insertDl_pieceMap (c := c.setState p st))

@[simp] theorem startDl_blocksInPiece : (c.startDl p st).blocksInPiece y = c.blocksInPiece y := by
  rw [blocksInPiece, blocksInPiece, startDl_blocksPerPiece, startDl_last, startDl_numPieces]

section Start
variable (hst : st.downloadQueue = some .pieceDownloading)
include hst

omit hst in
/-- The blocks of a new partial piece, and of the others. -/
theorem Ledger.startDl_blocks (h : c.Ledger lax) (p : ℕ) (st : DownloadState)
    (hroom : c.freeBlockInfos = [] → c.blockInfo.length < 2 ^ 16 - 1) :
    (c.startDl p st).blocksForPiece ((c.setState p st).freshDl p) =
      freshBlocks (c.firstPadBlock p) (c.blocksInPiece p) ∧
    ∀ y x, c.findDlPiece y = some x →
      (c.startDl p st).blocksForPiece x = c.blocksForPiece x := by
  set c₁ := c.setState p st with hc₁
  have hb₁ : ∀ y, c₁.blocksInPiece y = c.blocksInPiece y := by
    intro y
    rw [blocksInPiece, blocksInPiece, c.setState_numPieces p st]
    rfl
  have hs₁ : c₁.Slots := h.slots.congr (List.Perm.refl _) rfl rfl
  obtain ⟨hlt', hbound⟩ := hs₁.nextSlot_lt hroom
  have hidx : (c₁.freshDl p).infoIdx = c₁.nextSlot := Nat.mod_eq_of_lt (by omega)
  have hbip : ∀ y, (c.startDl p st).blocksInPiece y = c.blocksInPiece y :=
    fun _ => startDl_blocksInPiece
  have hslot : ∀ i, (c.startDl p st).blockInfo.getD i [] =
      if i = c₁.nextSlot then
        freshBlocks (c₁.firstPadBlock p) (c.blocksInPiece p) ++
          (c₁.takeSlot.blockInfo.getD c₁.nextSlot []).drop (c.blocksInPiece p)
      else c₁.takeSlot.blockInfo.getD i [] := by
    intro i
    simp only [PickerCore.startDl, ← hc₁, insertDl, hidx, hb₁, getD_modify]
    by_cases hi : i = c₁.nextSlot
    · rw [if_pos ⟨hi, hlt'⟩, if_pos hi]
    · rw [if_neg (fun hc => hi hc.1), if_neg hi]
  constructor
  · rw [blocksForPiece, hidx, hslot, if_pos rfl, hbip, freshDl_index,
      List.take_append_of_le_length (by rw [freshBlocks_length]),
      List.take_of_length_le (by rw [freshBlocks_length])]
    rfl
  · intro y x hx
    have hmem := (h.buckets.find_eq_some.mp hx).1
    have hxlt := h.slots.lt hmem
    have hxi : x.infoIdx ≠ c₁.nextSlot := by
      have hnd := ((nextSlot_perm hs₁).nodup_iff.mpr List.nodup_range)
      rw [List.nodup_cons] at hnd
      intro he
      exact hnd.1 (he ▸ List.mem_append_left _ (List.mem_map_of_mem hmem))
    have hold : c₁.takeSlot.blockInfo.getD x.infoIdx [] = c.blockInfo.getD x.infoIdx [] := by
      rw [takeSlot]
      split
      · rw [show c₁.blockInfo = c.blockInfo from rfl, getD_append_single,
          if_neg (Nat.ne_of_lt hxlt)]
      · rfl
    rw [blocksForPiece, blocksForPiece, hslot, if_neg hxi, hold, hbip]

/-- A new partial piece: everything is right, but perhaps for its category. -/
theorem Book.startDl (h : c.Book lax) (hlt : p < c.numPieces) (ho : c.state p = .pieceOpen)
    (hroom : c.freeBlockInfos = [] → c.blockInfo.length < 2 ^ 16 - 1) :
    (c.startDl p st).BookBut lax p := by
  set c₁ := c.setState p st with hc₁
  have hn₁ : c₁.numPieces = c.numPieces := c.setState_numPieces p st
  have hb₁ : ∀ y, c₁.blocksInPiece y = c.blocksInPiece y := by
    intro y
    rw [blocksInPiece, blocksInPiece, hn₁]
    rfl
  have hs₁ : c₁.Slots := h.slots.congr (List.Perm.refl _) rfl rfl
  have hle : c₁.blocksInPiece p ≤ c₁.blocksPerPiece := by
    rw [hb₁]
    exact h.blocks_le p
  have hbpp : (c.startDl p st).blocksPerPiece = c.blocksPerPiece := startDl_blocksPerPiece
  have hlast : (c.startDl p st).blocksInLastPiece = c.blocksInLastPiece := startDl_last
  have hbip : ∀ y, (c.startDl p st).blocksInPiece y = c.blocksInPiece y :=
    fun _ => startDl_blocksInPiece
  have hfind := h.buckets.find_startDl hst hlt ho
  obtain ⟨hnew, hother⟩ := h.toLedger.startDl_blocks p st hroom
  rw [← hc₁] at hnew
  refine ⟨⟨by rw [hlast]; exact h.last_pos, by rw [hlast, hbpp]; exact h.last_le,
    h.buckets.startDl hst hlt ho, hs₁.insertDl hle hroom, ?_⟩, ?_⟩
  · intro y x hx
    rw [hfind] at hx
    split_ifs at hx with hy
    · obtain rfl := Option.some.inj hx
      refine ⟨?_, ?_, ?_, ?_, ?_⟩
      · rw [hnew, tally_freshBlocks]
        rfl
      · rw [hnew, tally_freshBlocks]
        rfl
      · rw [hnew, tally_freshBlocks, ← hb₁]
        rfl
      · intro info hi hpos
        rw [hnew, freshBlocks] at hi
        obtain ⟨i, -, rfl⟩ := List.mem_map.mp hi
        exact absurd hpos (Nat.not_lt_zero 0)
      · intro info hi hst'
        rw [hnew, freshBlocks] at hi
        obtain ⟨i, -, rfl⟩ := List.mem_map.mp hi
        dsimp only at hst'
        split_ifs at hst'
    · obtain ⟨h₁, h₂, h₃, h₄, h₅⟩ := h.counts y x hx
      constructor <;> rw [hother y x hx] <;> assumption
  · intro y x hy hx
    rw [hfind, if_neg hy] at hx
    obtain ⟨h₁, h₂, h₃, h₄, h₅⟩ := h.category y x hx
    have hxy : x.index ≠ p := by
      rw [h.buckets.find_index hx]
      exact hy
    have hq : (c.startDl p st).downloadQueue x.index = c.downloadQueue x.index := by
      rw [downloadQueue, downloadQueue, startDl_state hlt, if_neg hxy]
    have hf : (c.startDl p st).filtered x.index ↔ c.filtered x.index := by
      rw [filtered, PickerCore.startDl, insertDl_pos]
      exact c.setState_filtered p x.index st
    constructor <;> simp only [hq, hf, hbip] <;> assumption

/-- An open piece is started and gets its bucket. -/
theorem Book.startDl_recategorize (h : c.Book lax) (hlt : p < c.numPieces)
    (ho : c.state p = .pieceOpen)
    (hroom : c.freeBlockInfos = [] → c.blockInfo.length < 2 ^ 16 - 1) :
    ((c.startDl p st).recategorize p).Book lax := by
  have hbut := h.startDl hst hlt ho hroom
  refine hbut.recategorize fun dp hdp hopen => ?_
  have hidx := hbut.buckets.find_index hdp
  have hq : (c.startDl p st).downloadQueue dp.index = some .pieceDownloading := by
    rw [downloadQueue, hidx, startDl_state hlt, if_pos rfl, hst]
  have hbusy : dp.requested + dp.finished + dp.writing = dp.busy := rfl
  have hpos := h.blocks_pos dp.index
  rw [newState, hbusy] at hopen
  by_cases hfil : (c.startDl p st).filtered dp.index
  · rw [if_pos hfil] at hopen
    cases hopen
  rw [if_neg hfil] at hopen
  have hz : dp.busy = 0 := by
    by_contra hz
    rw [if_neg (fun hc => hz hc.1)] at hopen
    split_ifs at hopen
  constructor <;> simp [hq, hfil, hz, hpos]

end Start

end PickerCore

/-! ## What the operations do to the core -/

namespace PiecePicker

variable {s : PiecePicker} {p b : ℕ} {dp : DownloadingPiece}

section Core
variable (s : PiecePicker) (p : ℕ)

@[simp] theorem add_core : (s.add p).toPickerCore = s.toPickerCore := by
  rw [add]
  split_ifs <;> rfl

@[simp] theorem withCore_core (c : PickerCore) : (s.withCore c).toPickerCore = c := rfl

@[simp] theorem addPassed_core (n : ℤ) : (s.addPassed n).toPickerCore = s.toPickerCore := rfl

@[simp] theorem unpass_core (dp : DownloadingPiece) :
    (s.unpass dp).toPickerCore = s.toPickerCore := rfl

@[simp] theorem remove_core (prio e : ℤ) : (s.remove prio e).toPickerCore = s.toPickerCore := rfl

@[simp] theorem update_core (prio e : ℤ) : (s.update prio e).toPickerCore = s.toPickerCore := rfl

@[simp] theorem reposition_core (prev : ℤ) :
    (s.reposition prev p).toPickerCore = s.toPickerCore := by
  rw [reposition]
  split_ifs <;> simp

@[simp] theorem updateFrom_core (prev : ℤ) :
    (s.updateFrom prev p).toPickerCore = s.toPickerCore := by
  rw [updateFrom]
  split_ifs <;> simp

@[simp] theorem updatePieces_core : s.updatePieces.toPickerCore = s.toPickerCore := rfl

@[simp] theorem setIndex_core (v : ℤ) : (s.setIndex p v).toPickerCore = s.toPickerCore := rfl

@[simp] theorem closeCursors_core : (s.closeCursors p).toPickerCore = s.toPickerCore := by
  rw [closeCursors]
  split_ifs <;> rfl

@[simp] theorem openCursors_core : (s.openCursors p).toPickerCore = s.toPickerCore := by
  simp only [openCursors]
  split_ifs <;> rfl

@[simp] theorem countHave_core : (s.countHave p).toPickerCore = s.toPickerCore := by
  simp only [countHave]
  split_ifs <;> rfl

@[simp] theorem countNotHave_core : (s.countNotHave p).toPickerCore = s.toPickerCore := by
  simp only [countNotHave]
  split_ifs
  · rfl
  · exact openCursors_core _ p

@[simp] theorem countFiltered_core : (s.countFiltered p).toPickerCore = s.toPickerCore := by
  rw [countFiltered]
  split_ifs <;> simp

@[simp] theorem countUnfiltered_core : (s.countUnfiltered p).toPickerCore = s.toPickerCore := by
  rw [countUnfiltered]
  split_ifs <;> simp

@[simp] theorem countPriority_core (n : ℕ) :
    (s.countPriority p n).2.toPickerCore = s.toPickerCore := by
  rw [countPriority]
  split_ifs <;> simp

@[simp] theorem recordDownloadingPiece_core :
    (s.recordDownloadingPiece p).toPickerCore = s.toPickerCore := by
  simp only [recordDownloadingPiece]
  split_ifs <;> rfl

/-- The bucket is all that `update_piece_state` changes in the core. -/
theorem updatePieceState_core :
    (s.updatePieceState p).toPickerCore = s.toPickerCore.recategorize p := by
  rw [updatePieceState, PickerCore.recategorize]
  rcases s.findDlPiece p with - | dp
  · rfl
  · dsimp only
    split_ifs
    · rfl
    · simp

/-- A piece is started. -/
theorem beginDownload_core (st : DownloadState) (affinity : Bool) :
    (s.beginDownload p st affinity).toPickerCore =
      (s.toPickerCore.startDl p st).recategorize p := by
  simp only [beginDownload, addDownloadPiece, updatePieceState_core]
  cases affinity <;> simp [setState, withCore, PickerCore.startDl]

end Core

end PiecePicker

end LibtorrentSN
