import LibtorrentSN.Picker.Pick

/-!
# The piece picker: runs

The public mutators as one type of operations, the assertions each of them makes about
its caller, and the states that are reached from the constructor by calls that meet them.
-/

namespace LibtorrentSN

/-- A call of a public function that may change the picker. -/
inductive Op where
  | incRefcountAll
  | decRefcountAll
  | incRefcount (p : ℕ)
  | decRefcount (p : ℕ)
  | incRefcountBitmask (bitmask : List Bool)
  | decRefcountBitmask (bitmask : List Bool)
  | weHave (p : ℕ)
  | weDontHave (p : ℕ)
  | weHaveAll
  | setPiecePriority (p newPriority : ℕ)
  | markAsDownloading (p b : ℕ) (peer : Option ℕ) (reverse affinity : Bool)
  | markAsWriting (p b : ℕ) (peer : Option ℕ)
  | markAsFinished (p b : ℕ) (peer : Option ℕ)
  | markAsCanceled (p b : ℕ) (peer : Option ℕ)
  | writeFailed (p b : ℕ)
  | lockPiece (p : ℕ)
  | restorePiece (p : ℕ) (blocks : List ℕ)
  | abortDownload (p b : ℕ) (peer : Option ℕ)
  | piecePassed (p : ℕ)
  | startedHashJob (p : ℕ)
  | completedHashJob (p : ℕ)
  | clearPeer (peer : Option ℕ)
  | setPadBytes (p bytes : ℕ)
  | resize
  | pickPieces (a : PickRequest)
  deriving DecidableEq, Repr

namespace PiecePicker

variable (s : PiecePicker)

/-- The state after a call. `resize` is only called with the sizes the picker has. -/
def apply : Op → PiecePicker
  | .incRefcountAll => s.incRefcountAll
  | .decRefcountAll => s.decRefcountAll
  | .incRefcount p => s.incRefcount p
  | .decRefcount p => s.decRefcount p
  | .incRefcountBitmask bitmask => s.incRefcountBitmask bitmask
  | .decRefcountBitmask bitmask => s.decRefcountBitmask bitmask
  | .weHave p => s.weHave p
  | .weDontHave p => s.weDontHave p
  | .weHaveAll => s.weHaveAll
  | .setPiecePriority p n => (s.setPiecePriority p n).2
  | .markAsDownloading p b peer reverse affinity =>
    (s.markAsDownloading p b peer reverse affinity).2
  | .markAsWriting p b peer => (s.markAsWriting p b peer).2
  | .markAsFinished p b peer => s.markAsFinished p b peer
  | .markAsCanceled p b peer => s.markAsCanceled p b peer
  | .writeFailed p b => s.writeFailed p b
  | .lockPiece p => s.lockPiece p
  | .restorePiece p blocks => s.restorePiece p blocks
  | .abortDownload p b peer => s.abortDownload p b peer
  | .piecePassed p => s.piecePassed p
  | .startedHashJob p => s.startedHashJob p
  | .completedHashJob p => s.completedHashJob p
  | .clearPeer peer => s.clearPeer peer
  | .setPadBytes p bytes => s.setPadBytes p bytes
  | .resize => (s.resize s.totalSize s.pieceSize).getD s
  | .pickPieces a => (s.pickPieces a).2

/-! ## Assertions -/

/-- `p` is a piece. -/
def validPiece (p : ℕ) : Prop := p < s.numPieces

/-- `b` is a block of the piece `p`. -/
def validBlock (p b : ℕ) : Prop := p < s.numPieces ∧ b < s.blocksInPiece p

/-- The slot a new partial piece would take fits in 16 bits. -/
def hasSlot : Prop := s.freeBlockInfos = [] → s.blockInfo.length < 2 ^ 16 - 1

/-- Something holds of the partial piece `p`, if there is one. -/
def onPartial (p : ℕ) (P : DownloadingPiece → Prop) : Prop :=
  match s.findDlPiece p with
  | none => True
  | some dp => P dp

/-- The availability of a piece can be counted down. -/
def countable (p : ℕ) : Prop := (s.pos p).peerCount = 0 → 0 < s.seeds

instance (p : ℕ) : Decidable (s.validPiece p) := inferInstanceAs (Decidable (_ < _))
instance (p b : ℕ) : Decidable (s.validBlock p b) := inferInstanceAs (Decidable (_ ∧ _))
instance : Decidable s.hasSlot := inferInstanceAs (Decidable (_ → _))
instance (p : ℕ) : Decidable (s.countable p) := inferInstanceAs (Decidable (_ → _))

instance (p : ℕ) (P : DownloadingPiece → Prop) [DecidablePred P] :
    Decidable (s.onPartial p P) := by
  unfold onPartial
  split <;> infer_instance

/-- The assertions of a call: its arguments are valid, and the blocks and flags it is about
are in the states the source insists on. The assertions about pad bytes are left out. -/
def asserts : Op → Prop
  | .incRefcountAll => True
  | .decRefcountAll => ∀ p < s.numPieces, s.countable p
  | .incRefcount p => s.validPiece p
  | .decRefcount p => s.validPiece p ∧ s.countable p
  | .incRefcountBitmask bitmask => bitmask.length ≤ s.numPieces
  | .decRefcountBitmask bitmask =>
    bitmask.length ≤ s.numPieces ∧ ∀ p ∈ setPieces bitmask, s.countable p
  | .weHave p => s.validPiece p ∧ s.onPartial p (·.hashing = false)
  | .weDontHave p => s.validPiece p
  | .weHaveAll => True
  | .setPiecePriority p n => s.validPiece p ∧ n ≤ topPriority
  | .markAsDownloading p b _ _ _ => s.validBlock p b ∧ ¬ s.havePiece p ∧ s.hasSlot ∧
    s.onPartial p fun dp => (s.block dp b).state = .requested → 0 < (s.block dp b).numPeers
  | .markAsWriting p b _ => s.validBlock p b ∧ s.hasSlot ∧
    (¬ s.downloading p → ¬ s.havePiece p →
      b < s.firstPadBlock p)
  | .markAsFinished p b _ => s.validBlock p b ∧ s.hasSlot ∧
    s.onPartial p fun dp => (s.block dp b).state = .finished ∨
      (s.block dp b).numPeers = 0 ∧
        ((s.block dp b).state = .writing ∨ (s.block dp b).state = .none)
  | .markAsCanceled p b peer => s.validBlock p b ∧
    s.onPartial p fun dp => (s.block dp b).state = .finished ∨
      (s.block dp b).numPeers = 0 ∧
        ((s.block dp b).state = .writing ∨ peer = none ∧ (s.block dp b).state = .none)
  | .writeFailed p b => s.validBlock p b ∧
    s.onPartial p fun dp => (s.block dp b).state = .writing ∧ (s.block dp b).numPeers = 0
  | .lockPiece p => s.validPiece p ∧ s.onPartial p (·.passedHashCheck = false)
  | .restorePiece p blocks => s.validPiece p ∧ blocks.Nodup ∧
    (∀ b ∈ blocks, b < s.blocksInPiece p) ∧
    s.onPartial p fun dp => ∀ b ∈ blocks,
      (s.block dp b).state = .writing ∨ (s.block dp b).state = .finished
  | .abortDownload p b _ => s.validBlock p b ∧
    s.onPartial p fun dp => (s.block dp b).state ≠ .none ∧
      ((s.block dp b).state = .requested → 0 < (s.block dp b).numPeers)
  | .piecePassed p => s.validPiece p ∧ s.downloading p ∧
    s.onPartial p fun dp => dp.locked = false ∧ dp.passedHashCheck = false ∧
      (s.blocksInPiece p ≤ dp.finished → dp.hashing = false)
  | .startedHashJob p => s.validPiece p ∧ s.downloading p ∧ s.onPartial p (·.hashing = false)
  | .completedHashJob p => s.validPiece p ∧ s.onPartial p (·.hashing = true)
  | .clearPeer _ => True
  | .setPadBytes p bytes => s.validPiece p ∧ 0 < bytes ∧ bytes ≤ s.sizeOfPiece p ∧
    s.padsInPiece.lookup p = none ∧
    (s.sizeOfPiece p = bytes → s.onPartial p (·.hashing = false))
  | .resize => True
  | .pickPieces a => a.pieces.length = s.numPieces ∧ 0 < a.numBlocks ∧
    0 ≤ a.preferContiguousBlocks ∧ (∀ p ∈ a.suggestedPieces, p < s.numPieces) ∧
    ¬ (a.options.rarestFirst ∧ a.options.sequential)

instance (op : Op) : Decidable (s.asserts op) := by
  cases op <;> unfold asserts <;> infer_instance

/-! ## Calls that go wrong

The invariants of the picker are broken by a few calls. Each of the conditions below rules out
those that break one of them. -/

/-- No call leaves the list behind: a piece that is no longer partial is told to the list,
and so is the priority it really had. -/
def listCall : Op → Prop
  | .weDontHave p => s.havePiece p ∨ ¬ s.downloading p ∨ s.filtered p ∨
      s.getAvailability p = 0 ∨ s.dirty = true
  | .restorePiece p blocks => s.dirty = true ∨ s.filtered p ∨ s.getAvailability p = 0 ∨
      s.state p ≠ .pieceFinished ∨ s.onPartial p (·.hashing = false) ∨
        ∃ b < s.blocksInPiece p, b ∉ blocks
  | _ => True

instance (op : Op) : Decidable (s.listCall op) := by
  cases op <;> unfold listCall <;> infer_instance

/-- No request wraps the counter of the peers of a block around, and no change of priority
strands a piece in the bucket `piece_zero_prio`. -/
def strictCall : Op → Prop
  | .markAsDownloading p b _ _ _ => s.onPartial p fun dp => (s.block dp b).numPeers < 2 ^ 14 - 1
  | .setPiecePriority p n => s.filtered p → n ≠ 0 → s.onPartial p fun dp =>
      ¬ (dp.busy = 0 ∧ dp.hashing = false)
  | _ => True

instance (op : Op) : Decidable (s.strictCall op) := by
  cases op <;> unfold strictCall <;> infer_instance

/-- No passed piece is forgotten by a call that does not count it. -/
def passedCall : Op → Prop
  | .markAsCanceled p b _ => s.onPartial p fun dp => dp.passedHashCheck = true →
      (s.block dp b).state = .writing → dp.hashing = false → dp.busy ≠ 1
  | .abortDownload p b _ => s.onPartial p fun dp => dp.passedHashCheck = true →
      (s.block dp b).state = .requested → (s.block dp b).numPeers ≤ 1 → dp.hashing = false →
        dp.busy ≠ 1
  | .restorePiece p blocks => s.onPartial p fun dp => dp.passedHashCheck = true →
      blocks ≠ [] ∧ ∃ b < s.blocksInPiece p, (s.block dp b).state ≠ .none ∧ b ∉ blocks
  | _ => True

instance (op : Op) : Decidable (s.passedCall op) := by
  cases op <;> unfold passedCall <;> infer_instance

end PiecePicker

/-! ## Reachable states -/

/-- The states reached from the constructor by calls that meet their assertions, and of
which `ok` holds as well. -/
inductive Reach (ok : PiecePicker → Op → Prop) : PiecePicker → Prop
  | create {totalSize pieceSize : ℕ} {rng : List ℕ} {s : PiecePicker} (ht : 0 < totalSize)
      (hp : 0 < pieceSize) (h : PiecePicker.create totalSize pieceSize rng = some s) : Reach ok s
  | step {s : PiecePicker} {op : Op} (h : Reach ok s) (ha : s.asserts op) (hok : ok s op) :
      Reach ok (s.apply op)

/-- Every call is allowed. -/
def anyCall : PiecePicker → Op → Prop := fun _ _ => True

instance (s : PiecePicker) (op : Op) : Decidable (anyCall s op) := inferInstanceAs (Decidable True)

section Run
variable (ok : PiecePicker → Op → Prop) [∀ s op, Decidable (ok s op)]

/-- The state after the calls `ops`, if all of them are allowed. -/
def PiecePicker.run (s : PiecePicker) : List Op → Option PiecePicker
  | [] => some s
  | op :: ops => if s.asserts op ∧ ok s op then (s.apply op).run ops else none

/-- A run from the constructor, for a torrent of `numPieces` pieces of `blocks` blocks. -/
def freshRun (numPieces blocks : ℕ) (ops : List Op) : Option PiecePicker :=
  (PiecePicker.create (numPieces * blocks * defaultBlockSize) (blocks * defaultBlockSize) []).bind
    (PiecePicker.run ok · ops)

variable {ok} {s s' : PiecePicker}

theorem Reach.run {ops : List Op} (h : Reach ok s) (hrun : s.run ok ops = some s') :
    Reach ok s' := by
  induction ops generalizing s with
  | nil =>
    obtain rfl := Option.some.inj hrun
    exact h
  | cons op ops ih =>
    rw [PiecePicker.run] at hrun
    split_ifs at hrun with hc
    exact ih (.step h hc.1 hc.2) hrun

variable (ok) in
/-- What a run from the constructor shows to exist. -/
theorem Reach.exists_of_freshRun (numPieces blocks : ℕ) (ops : List Op) (P : PiecePicker → Prop)
    [DecidablePred P] (hn : 0 < numPieces * blocks)
    (h : (freshRun ok numPieces blocks ops).any (P ·) = true) : ∃ s, Reach ok s ∧ P s := by
  rw [Option.any_eq_true] at h
  obtain ⟨s, hs, hP⟩ := h
  obtain ⟨s₀, hcreate, hrun⟩ := Option.bind_eq_some_iff.mp hs
  have hsize : 0 < defaultBlockSize := by decide
  have hb : 0 < blocks := Nat.pos_of_mul_pos_left hn
  exact ⟨s, .run (.create (Nat.mul_pos hn hsize) (Nat.mul_pos hb hsize) hcreate) hrun,
    of_decide_eq_true hP⟩

end Run

end LibtorrentSN
