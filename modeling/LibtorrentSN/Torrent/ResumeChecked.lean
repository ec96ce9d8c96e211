import LibtorrentSN.Torrent.FileProgress

/-!
# Resume data

What `on_resume_data_checked` (`src/torrent.cpp`) does with the pieces of accepted resume data outside seed
mode, and the later calls of `torrent::we_have`. Of the picker there are the pieces it has and the finished
blocks of the others; `init` has made an empty one.
-/

namespace LibtorrentSN

namespace Torrent

namespace FileStorage

variable (fs : FileStorage)

def blocksPerPiece : ℕ := (fs.pieceLength + 0x4000 - 1) / 0x4000

/-- `blocks_in_piece` of the picker, whose blocks are no larger than a piece. -/
def blocksInPiece (p : ℕ) : ℕ :=
  let blockSize := min fs.pieceLength 0x4000
  let blocksPerPiece := (fs.pieceLength + blockSize - 1) / blockSize
  let blocksInLastPiece := (fs.totalSize % fs.pieceLength + blockSize - 1) / blockSize
  if p + 1 = fs.numPieces then if blocksInLastPiece = 0 then blocksPerPiece else blocksInLastPiece
  else blocksPerPiece

end FileStorage

/-- The pieces in `add_torrent_params`. The unfinished ones are a map. -/
structure ResumeData where
  havePieces : List Bool
  unfinishedPieces : List (ℤ × List Bool)
  keys_nodup : (unfinishedPieces.map Prod.fst).Nodup

structure Resume where
  -- the picker
  havePieces : ℕ → Bool := fun _ => false
  blocks : ℕ → List ℕ := fun _ => []
  progress : FileProgress := {}
  -- the calls of `mark_as_finished` and how often `torrent::we_have` was called
  marks : List (ℕ × ℕ) := []
  calls : ℕ → ℕ := fun _ => 0
  -- the pieces that are being hashed because they are complete
  verifyJobs : List ℕ := []
  -- the next piece to check, while the files are being checked, and the pieces that are being hashed for that
  checkingPiece : Option ℕ := none
  checkJobs : List ℕ := []

inductive Verdict
  | passed
  | failed
  | diskError
  deriving DecidableEq

namespace Resume

section Model

variable (fs : FileStorage) (hashChecks : Bool) (s : Resume)

def pickerWeHave (p : ℕ) : Resume :=
  { s with
    havePieces := Function.update s.havePieces p true
    blocks := Function.update s.blocks p [] }

def pickerWeDontHave (p : ℕ) : Resume := { s with havePieces := Function.update s.havePieces p false }

/-- `torrent::we_have` -/
def weHave (p : ℕ) : Resume :=
  { s with
    calls := Function.update s.calls p (s.calls p + 1)
    progress := s.progress.update fs p }

def markAsFinished (p k : ℕ) : Resume :=
  let s := { s with marks := s.marks ++ [(p, k)] }
  if s.havePieces p ∨ k ∈ s.blocks p then s
  else { s with blocks := Function.update s.blocks p (k :: s.blocks p) }

def isPieceFinished (p : ℕ) : Bool :=
  s.havePieces p || (!(s.blocks p).isEmpty && fs.blocksInPiece p ≤ (s.blocks p).length)

/-- `torrent::piece_passed`. The picker ignores a piece of which it has no blocks. -/
def piecePassed (p : ℕ) : Resume :=
  (if (s.blocks p).isEmpty ∨ (s.blocks p).length < fs.blocksInPiece p then s else s.pickerWeHave p).weHave fs p

def onPieceVerified (p : ℕ) (v : Verdict) : Resume :=
  if s.isPieceFinished fs p = false then s
  else
    match v with
    | .passed => s.piecePassed fs p
    | .failed => { s with blocks := Function.update s.blocks p [] }
    | .diskError => s

def verifyPiece (p : ℕ) : Resume :=
  if hashChecks then { s with verifyJobs := s.verifyJobs ++ [p] } else s.onPieceVerified fs p .passed

/-- The first loop, up to a piece. -/
def applyHave (bits : List Bool) : ℕ → Resume → Resume
  | 0, s => s
  | i + 1, s =>
    let s := applyHave bits i s
    if bits.getD i false then (s.pickerWeHave i).weHave fs i else s

/-- The blocks that are set in the mask of an unfinished piece. -/
def setBlocks (mask : List Bool) : List ℕ :=
  (List.range (min fs.blocksPerPiece mask.length)).filter fun k => mask.getD k false

/-- The body of the second loop. -/
def applyPiece (p : ℕ) (mask : List Bool) : Resume :=
  let s := if s.havePieces p then s.pickerWeDontHave p else s
  let s := (setBlocks fs mask).foldl (fun s k => s.markAsFinished p k) s
  if s.isPieceFinished fs p then s.verifyPiece fs hashChecks p else s

def applyUnfinished (e : ℤ × List Bool) : Resume :=
  if e.1 < 0 ∨ (fs.numPieces : ℤ) ≤ e.1 then s else s.applyPiece fs hashChecks e.1.toNat e.2

/-- `on_resume_data_checked`, with the status `no_error`. A shorter `have_pieces` is that of a check that was
not finished. -/
def onResumeDataChecked (d : ResumeData) : Resume :=
  let s : Resume := {}
  let s := s.applyHave fs d.havePieces (min d.havePieces.length fs.numPieces)
  let s := d.unfinishedPieces.foldl (fun s e => s.applyUnfinished fs hashChecks e) s
  if d.havePieces ≠ [] ∧ d.havePieces.length < fs.numPieces then
    { s with checkingPiece := some d.havePieces.length }
  else s

/-- What may happen later, until the torrent is checked anew or has all pieces. -/
inductive LaterEvent
  | submit
  -- `last` is where the file of the piece ends, if it is missing
  | checked (p : ℕ) (passed : Bool) (last : ℕ)
  | checkFailed (p : ℕ)
  | checkDone
  | finish (p k : ℕ)
  | verified (p : ℕ) (v : Verdict)

/-- A check starts over only when no job is in flight. -/
def step : LaterEvent → Option Resume
  | .submit => s.checkingPiece.bind fun c =>
      if c < fs.numPieces then
        if s.havePieces c then some { s with checkingPiece := some (c + 1) }
        else some { s with checkingPiece := some (c + 1), checkJobs := s.checkJobs ++ [c] }
      else none
  | .checked p passed last =>
    if p ∈ s.checkJobs ∧ last ≤ fs.numPieces then
      let s := { s with
        checkJobs := s.checkJobs.erase p
        checkingPiece := s.checkingPiece.map fun c => max c last }
      some (if passed then (s.pickerWeHave p).weHave fs p else s)
    else none
  | .checkFailed p =>
    if s.checkJobs = [p] then some { s with checkJobs := [], checkingPiece := some 0 } else none
  | .checkDone => s.checkingPiece.bind fun c =>
      if fs.numPieces ≤ c ∧ s.checkJobs = [] then some { s with checkingPiece := none } else none
  | .finish p k =>
    if s.checkingPiece = none ∧ p < fs.numPieces ∧ s.havePieces p = false ∧ p ∉ s.verifyJobs ∧
      k < fs.blocksInPiece p ∧ k ∉ s.blocks p then
      let s := s.markAsFinished p k
      some (if s.isPieceFinished fs p then s.verifyPiece fs hashChecks p else s)
    else none
  | .verified p v =>
    if p ∈ s.verifyJobs then
      some ({ s with verifyJobs := s.verifyJobs.erase p }.onPieceVerified fs p v)
    else none

/-- The states that follow. -/
inductive Later : Resume → Prop
  | refl : Later s
  | step {s₁ s₂ : Resume} {e : LaterEvent} (h : Later s₁) (hstep : s₁.step fs hashChecks e = some s₂) : Later s₂

end Model

section Claim

variable (fs : FileStorage) (hashChecks : Bool) (d : ResumeData)

/-- The piece is listed in `have_pieces`. -/
def Listed (p : ℕ) : Prop := p < fs.numPieces ∧ d.havePieces.getD p false = true

/-- The piece is listed in `unfinished_pieces`, with this mask. -/
def Unfinished (p : ℕ) (mask : List Bool) : Prop := p < fs.numPieces ∧ ((p : ℤ), mask) ∈ d.unfinishedPieces

instance (p : ℕ) : Decidable (Listed fs d p) := inferInstanceAs (Decidable (_ ∧ _))

/-- The mask has as many blocks as the piece. -/
def Complete (p : ℕ) (mask : List Bool) : Prop := fs.blocksInPiece p ≤ (setBlocks fs mask).length

instance (p : ℕ) (mask : List Bool) : Decidable (Complete fs p mask) := inferInstanceAs (Decidable (_ ≤ _))

/-- The download state agrees with the resume data, and goes on to. -/
structure Sound (s : Resume) : Prop where
  marks : ∀ m ∈ s.marks, m.2 < fs.blocksInPiece m.1
  havePieces : ∀ p, s.havePieces p = true ↔ Listed fs d p ∧ ∀ mask, ¬ Unfinished fs d p mask
  files : ∀ f, s.progress.files f = ∑ p ∈ Finset.range fs.numPieces, if s.havePieces p then fs.bytesIn f p else 0
  totalOnDisk : s.progress.totalOnDisk =
    ∑ p ∈ Finset.range fs.numPieces, if s.havePieces p then fs.pieceSize p else 0
  once : ∀ s', Later fs hashChecks s s' → ∀ p, s'.calls p ≤ 1

/-- No mask has a block that does not exist, no piece is listed twice, and no unfinished piece is complete
where a check goes on or the hash checks are turned off. -/
structure Consistent : Prop where
  masks : ∀ p mask, Unfinished fs d p mask → ∀ k ∈ setBlocks fs mask, k < fs.blocksInPiece p
  apart : ∀ p mask, Unfinished fs d p mask → ¬ Listed fs d p
  incomplete : (d.havePieces ≠ [] ∧ d.havePieces.length < fs.numPieces) ∨ hashChecks = false →
    ∀ p mask, Unfinished fs d p mask → ¬ Complete fs p mask

end Claim

variable {fs : FileStorage} {hashChecks : Bool} {d : ResumeData} {s s' : Resume}

theorem blocksInPiece_pos (fs : FileStorage) (p : ℕ) : 0 < fs.blocksInPiece p := by
  have hpos := fs.pieceLength_pos
  have hblock : 0 < min fs.pieceLength 0x4000 := by omega
  have hfull : 0 < (fs.pieceLength + min fs.pieceLength 0x4000 - 1) / min fs.pieceLength 0x4000 :=
    Nat.div_pos (by omega) hblock
  unfold FileStorage.blocksInPiece
  dsimp only
  split
  · split
    next => exact hfull
    next hne => exact Nat.pos_of_ne_zero hne
  · exact hfull

theorem setBlocks_nodup (fs : FileStorage) (mask : List Bool) : (setBlocks fs mask).Nodup :=
  List.nodup_range.filter _

/-- The progress is that of the pieces that were counted, each as often as it was. -/
structure Counted (fs : FileStorage) (s : Resume) : Prop where
  files : ∀ f, s.progress.files f = ∑ p ∈ Finset.range fs.numPieces, s.calls p * fs.bytesIn f p
  totalOnDisk : s.progress.totalOnDisk = ∑ p ∈ Finset.range fs.numPieces, s.calls p * fs.pieceSize p

theorem sum_update_mul {n p : ℕ} (hp : p < n) (c w : ℕ → ℕ) :
    ∑ q ∈ Finset.range n, Function.update c p (c p + 1) q * w q = ∑ q ∈ Finset.range n, c q * w q + w p := by
  have hmem : p ∈ Finset.range n := Finset.mem_range.mpr hp
  rw [← Finset.add_sum_erase _ _ hmem, ← Finset.add_sum_erase _ (fun q => c q * w q) hmem,
    Function.update_self]
  have hrest : ∑ q ∈ (Finset.range n).erase p, Function.update c p (c p + 1) q * w q =
      ∑ q ∈ (Finset.range n).erase p, c q * w q := by
    refine Finset.sum_congr rfl fun q hq => ?_
    rw [Function.update_of_ne (Finset.ne_of_mem_erase hq)]
  rw [hrest, Nat.succ_mul]
  omega

theorem Counted.weHave {p : ℕ} (h : Counted fs s) (hp : p < fs.numPieces) : Counted fs (s.weHave fs p) where
  files := by
    intro f
    have hupd := (FileProgress.update_spec s.progress hp).1 f
    exact hupd.trans ((congrArg (· + _) (h.files f)).trans (sum_update_mul hp s.calls _).symm)
  totalOnDisk := by
    have hupd := (FileProgress.update_spec s.progress hp).2
    exact hupd.trans ((congrArg (· + _) h.totalOnDisk).trans (sum_update_mul hp s.calls _).symm)

theorem counted_empty (fs : FileStorage) : Counted fs {} := ⟨by simp, by simp⟩

/-- The first loop gives the picker the pieces that are listed, and counts them. -/
structure HasFirst (fs : FileStorage) (bits : List Bool) (k : ℕ) (s : Resume) : Prop where
  havePieces : ∀ p, s.havePieces p = true ↔ p < k ∧ bits.getD p false = true
  calls : ∀ p, s.calls p = if s.havePieces p then 1 else 0
  counted : Counted fs s
  rest : s.blocks = (fun _ => []) ∧ s.marks = [] ∧ s.verifyJobs = [] ∧ s.checkJobs = [] ∧ s.checkingPiece = none

theorem applyHave_spec (bits : List Bool) {k : ℕ} (hk : k ≤ fs.numPieces) :
    HasFirst fs bits k (applyHave fs bits k {}) := by
  induction k with
  | zero => exact ⟨by simp [applyHave], by simp [applyHave], counted_empty fs, rfl, rfl, rfl, rfl, rfl⟩
  | succ k ih =>
    have h := ih (by omega)
    unfold applyHave
    dsimp only
    generalize applyHave fs bits k {} = s at h
    have hnot : s.havePieces k = false := by
      refine Bool.eq_false_iff.mpr fun hc => ?_
      exact absurd ((h.havePieces k).mp hc).1 (lt_irrefl k)
    cases hbit : bits.getD k false with
    | false =>
      refine ⟨fun p => ?_, h.calls, h.counted, h.rest⟩
      rw [if_neg (by simp), h.havePieces]
      refine and_congr_left fun hp => ⟨by omega, fun hlt => ?_⟩
      refine lt_of_le_of_ne (Nat.le_of_lt_succ hlt) ?_
      rintro rfl
      exact absurd (hp.symm.trans hbit) (by simp)
    | true =>
      rw [if_pos rfl]
      refine ⟨fun p => ?_, fun p => ?_, Counted.weHave ⟨h.counted.files, h.counted.totalOnDisk⟩ (by omega), ?_⟩
      · by_cases hp : p = k
        · subst hp
          simpa [Resume.weHave, pickerWeHave] using hbit
        · have hlt : p < k + 1 ↔ p < k := by omega
          simp only [Resume.weHave, pickerWeHave, Function.update_of_ne hp]
          rw [hlt, h.havePieces]
      · by_cases hp : p = k
        · subst hp
          simp [Resume.weHave, pickerWeHave, h.calls, hnot]
        · simp only [Resume.weHave, pickerWeHave, Function.update_of_ne hp]
          exact h.calls p
      · obtain ⟨hblocks, hrest⟩ := h.rest
        refine ⟨?_, hrest⟩
        simp only [Resume.weHave, pickerWeHave, hblocks]
        exact Function.update_eq_self ..

/-- The blocks of a mask are marked one after the other. -/
theorem foldl_markAsFinished {p : ℕ} (ks : List ℕ) (hks : ks.Nodup) (hp : s.havePieces p = false)
    (hdis : ∀ k ∈ ks, k ∉ s.blocks p) :
    ks.foldl (fun s k => s.markAsFinished p k) s =
      { s with
        marks := s.marks ++ ks.map fun k => (p, k)
        blocks := Function.update s.blocks p (ks.reverse ++ s.blocks p) } := by
  induction ks generalizing s with
  | nil => simp
  | cons k ks ih =>
    have hk : k ∉ s.blocks p := hdis k List.mem_cons_self
    have hone : s.markAsFinished p k =
        { s with
          marks := s.marks ++ [(p, k)]
          blocks := Function.update s.blocks p (k :: s.blocks p) } := by
      simp [markAsFinished, hp, hk]
    rw [List.foldl_cons, hone]
    refine (ih (List.nodup_cons.mp hks).2 ?_ ?_).trans ?_
    · exact hp
    · intro k' hk'
      simp only [Function.update_self, List.mem_cons, not_or]
      refine ⟨?_, hdis k' (List.mem_cons_of_mem _ hk')⟩
      rintro rfl
      exact (List.nodup_cons.mp hks).1 hk'
    · simp

/-- A complete piece that passes is had, and counted. -/
theorem onPieceVerified_passed {p : ℕ} (hfin : s.isPieceFinished fs p = true) (hnot : s.havePieces p = false) :
    s.onPieceVerified fs p .passed = (s.pickerWeHave p).weHave fs p := by
  have hblocks : (s.blocks p).isEmpty = false ∧ fs.blocksInPiece p ≤ (s.blocks p).length := by
    simpa [isPieceFinished, hnot] using hfin
  have hstay : ¬ ((s.blocks p).isEmpty = true ∨ (s.blocks p).length < fs.blocksInPiece p) := by
    rintro (h | h)
    · exact absurd (hblocks.1.symm.trans h) (by simp)
    · exact absurd hblocks.2 (not_le.mpr h)
  rw [onPieceVerified, if_neg (by simp [hfin]), piecePassed, if_neg hstay]

/-- What an unfinished piece does to the piece. -/
structure PieceApplied (fs : FileStorage) (hashChecks : Bool) (p : ℕ) (mask : List Bool) (s s' : Resume) :
    Prop where
  other : ∀ q, q ≠ p → s'.havePieces q = s.havePieces q ∧ s'.blocks q = s.blocks q ∧ s'.calls q = s.calls q
  havePieces : s'.havePieces p = true ↔ hashChecks = false ∧ Complete fs p mask
  calls : s'.calls p = s.calls p + if hashChecks = false ∧ Complete fs p mask then 1 else 0
  verifyJobs : s'.verifyJobs = s.verifyJobs ++ if hashChecks = true ∧ Complete fs p mask then [p] else []
  marks : s'.marks = s.marks ++ (setBlocks fs mask).map fun k => (p, k)
  counted : Counted fs s → Counted fs s'
  check : s'.checkJobs = s.checkJobs ∧ s'.checkingPiece = s.checkingPiece

theorem applyPiece_spec {p : ℕ} (hp : p < fs.numPieces) (hb : s.blocks p = []) (mask : List Bool) :
    PieceApplied fs hashChecks p mask s (s.applyPiece fs hashChecks p mask) := by
  unfold applyPiece
  dsimp only
  -- the piece is not had, and has no blocks
  set s₁ := if s.havePieces p then s.pickerWeDontHave p else s with hs₁
  have hone : s₁ = { s with havePieces := Function.update s.havePieces p false } := by
    rw [hs₁]
    split
    · rfl
    next hnot =>
      have hsame : Function.update s.havePieces p false = s.havePieces := by
        rw [← Bool.eq_false_iff.mpr hnot, Function.update_eq_self]
      rw [hsame]
  rw [hone, foldl_markAsFinished _ (setBlocks_nodup fs mask) (Function.update_self ..) (by simp [hb]), hb,
    List.append_nil]
  have hfin : isPieceFinished fs
      { s with
        havePieces := Function.update s.havePieces p false
        marks := s.marks ++ (setBlocks fs mask).map fun k => (p, k)
        blocks := Function.update s.blocks p (setBlocks fs mask).reverse } p = true ↔ Complete fs p mask := by
    have hpos := blocksInPiece_pos fs p
    simp only [isPieceFinished, Function.update_self, Bool.false_or, Bool.and_eq_true, Complete,
      List.length_reverse, decide_eq_true_eq, Bool.not_eq_true', List.isEmpty_eq_false_iff]
    refine and_iff_right_of_imp fun hle hnil => ?_
    rw [List.reverse_eq_nil_iff.mp hnil, List.length_nil] at hle
    omega
  by_cases hc : Complete fs p mask
  · rw [if_pos (hfin.mpr hc)]
    cases hashChecks with
    | true =>
      simp only [verifyPiece, if_true]
      refine ⟨fun q hq => ?_, by simp, by simp, by simp [hc], rfl, fun h => ⟨h.files, h.totalOnDisk⟩, rfl, rfl⟩
      simp [hq]
    | false =>
      rw [verifyPiece, if_neg (by simp), onPieceVerified_passed (hfin.mpr hc) (Function.update_self ..)]
      refine ⟨fun q hq => ?_, ?_, ?_, ?_, rfl, fun h => ?_, rfl, rfl⟩
      · simp [Resume.weHave, pickerWeHave, hq]
      · simp [Resume.weHave, pickerWeHave, hc]
      · simp [Resume.weHave, pickerWeHave, hc]
      · simp [Resume.weHave, pickerWeHave]
      · exact Counted.weHave ⟨h.files, h.totalOnDisk⟩ hp
  · rw [if_neg fun h => hc (hfin.mp h)]
    refine ⟨fun q hq => ?_, by simp [hc], by simp [hc], by simp [hc], rfl,
      fun h => ⟨h.files, h.totalOnDisk⟩, rfl, rfl⟩
    simp [hq]

/-- What the second loop does. -/
structure Applied (fs : FileStorage) (hashChecks : Bool) (l : List (ℤ × List Bool)) (s s' : Resume) : Prop where
  other : ∀ p : ℕ, (∀ mask, p < fs.numPieces → ((p : ℤ), mask) ∉ l) →
    s'.havePieces p = s.havePieces p ∧ s'.blocks p = s.blocks p ∧ s'.calls p = s.calls p
  listed : ∀ p < fs.numPieces, ∀ mask, ((p : ℤ), mask) ∈ l →
    (s'.havePieces p = true ↔ hashChecks = false ∧ Complete fs p mask) ∧
      s'.calls p = s.calls p + if hashChecks = false ∧ Complete fs p mask then 1 else 0
  verifyJobs : ∀ p, p ∈ s'.verifyJobs ↔ p ∈ s.verifyJobs ∨
    (hashChecks = true ∧ p < fs.numPieces ∧ ∃ mask, ((p : ℤ), mask) ∈ l ∧ Complete fs p mask)
  verifyJobs_nodup : s.verifyJobs.Nodup → (∀ p ∈ s.verifyJobs, ∀ mask, ((p : ℤ), mask) ∉ l) →
    s'.verifyJobs.Nodup
  marks : ∀ m, m ∈ s'.marks ↔ m ∈ s.marks ∨
    (m.1 < fs.numPieces ∧ ∃ mask, ((m.1 : ℤ), mask) ∈ l ∧ m.2 ∈ setBlocks fs mask)
  counted : Counted fs s → Counted fs s'
  check : s'.checkJobs = s.checkJobs ∧ s'.checkingPiece = s.checkingPiece

theorem applyAll_spec (l : List (ℤ × List Bool)) (hl : (l.map Prod.fst).Nodup)
    (hb : ∀ p : ℕ, ∀ mask, ((p : ℤ), mask) ∈ l → s.blocks p = []) :
    Applied fs hashChecks l s (l.foldl (fun s e => s.applyUnfinished fs hashChecks e) s) := by
  induction l generalizing s with
  | nil => exact ⟨by simp, by simp, by simp, fun h _ => h, by simp, id, rfl, rfl⟩
  | cons e l ih =>
    obtain ⟨key, mask⟩ := e
    obtain ⟨hkey, hrest⟩ := List.nodup_cons.mp hl
    have hfresh : ∀ m, (key, m) ∉ l := fun m hm => hkey (List.mem_map.mpr ⟨_, hm, rfl⟩)
    rw [List.foldl_cons]
    by_cases hvalid : key < 0 ∨ (fs.numPieces : ℤ) ≤ key
    · -- the piece does not exist
      have hskip : s.applyUnfinished fs hashChecks (key, mask) = s := if_pos hvalid
      have hne : ∀ p < fs.numPieces, ∀ m, ((p : ℤ), m) ∈ (key, mask) :: l ↔ ((p : ℤ), m) ∈ l := by
        intro p hp m
        refine List.mem_cons.trans (or_iff_right ?_)
        rintro ⟨⟩
        omega
      rw [hskip]
      have h := ih (s := s) hrest fun p m hm => hb p m (List.mem_cons_of_mem _ hm)
      exact {
        other := fun p hp => h.other p fun m hlt hm => hp m hlt (List.mem_cons_of_mem _ hm)
        listed := fun p hp m hm => h.listed p hp m ((hne p hp m).mp hm)
        verifyJobs := by
          intro p
          rw [h.verifyJobs]
          refine or_congr_right (and_congr_right fun _ => and_congr_right fun hp => ?_)
          simp only [hne p hp]
        verifyJobs_nodup := fun hnd hp =>
          h.verifyJobs_nodup hnd fun p hmem m hm => hp p hmem m (List.mem_cons_of_mem _ hm)
        marks := by
          intro m
          rw [h.marks]
          refine or_congr_right (and_congr_right fun hp => ?_)
          simp only [hne m.1 hp]
        counted := h.counted
        check := h.check }
    · obtain ⟨p, rfl⟩ : ∃ p : ℕ, key = p := ⟨key.toNat, by omega⟩
      have hp : p < fs.numPieces := by omega
      have happ : s.applyUnfinished fs hashChecks ((p : ℤ), mask) = s.applyPiece fs hashChecks p mask := by
        rw [applyUnfinished, if_neg hvalid, Int.toNat_natCast]
      have h₁ := @applyPiece_spec _ hashChecks _ _ hp (hb p mask List.mem_cons_self) mask
      rw [happ]
      have hne : ∀ {q : ℕ} {m}, ((q : ℤ), m) ∈ l → q ≠ p := by
        rintro q m hm rfl
        exact hfresh m hm
      have h := ih (s := s.applyPiece fs hashChecks p mask) hrest fun q m hm => by
        rw [(h₁.other q (hne hm)).2.1]
        exact hb q m (List.mem_cons_of_mem _ hm)
      have hcons : ∀ {q : ℕ} {m}, ((q : ℤ), m) ∈ ((p : ℤ), mask) :: l ↔ (q = p ∧ m = mask) ∨ ((q : ℤ), m) ∈ l := by
        simp
      exact {
        other := by
          intro q hq
          have hqp : q ≠ p := by
            rintro rfl
            exact hq mask hp List.mem_cons_self
          obtain ⟨hh', hbl', hc'⟩ := h.other q fun m hlt hm => hq m hlt (List.mem_cons_of_mem _ hm)
          obtain ⟨hh, hbl, hc⟩ := h₁.other q hqp
          exact ⟨hh'.trans hh, hbl'.trans hbl, hc'.trans hc⟩
        listed := by
          intro q hq m hm
          obtain ⟨rfl, rfl⟩ | hm := hcons.mp hm
          · obtain ⟨hh, -, hc⟩ := h.other q fun m _ => hfresh m
            rw [hh, hc]
            exact ⟨h₁.havePieces, h₁.calls⟩
          · rw [← (h₁.other q (hne hm)).2.2]
            exact h.listed q hq m hm
        verifyJobs := by
          intro q
          rw [h.verifyJobs, h₁.verifyJobs]
          simp only [hcons]
          by_cases hdone : hashChecks = true ∧ Complete fs p mask <;> grind
        verifyJobs_nodup := by
          intro hnd hq
          have hpmem : p ∉ s.verifyJobs := fun hmem => hq p hmem mask List.mem_cons_self
          refine h.verifyJobs_nodup ?_ fun q hmem m hm => ?_
          · rw [h₁.verifyJobs]
            split
            · exact List.nodup_append.mpr ⟨hnd, List.nodup_singleton p, by grind⟩
            · rwa [List.append_nil]
          · rw [h₁.verifyJobs] at hmem
            obtain hmem | hmem := List.mem_append.mp hmem
            · exact hq q hmem m (List.mem_cons_of_mem _ hm)
            · have hqp : q = p := by grind
              exact hne hm hqp
        marks := by
          intro m
          rw [h.marks, h₁.marks]
          simp only [hcons, List.mem_append, List.mem_map]
          obtain ⟨q, k⟩ := m
          grind
        counted := fun hc => h.counted (h₁.counted hc)
        check := ⟨h.check.1.trans h₁.check.1, h.check.2.trans h₁.check.2⟩ }

/-- The state once the resume data is applied. -/
structure Loaded (fs : FileStorage) (hashChecks : Bool) (d : ResumeData) (s : Resume) : Prop where
  not_unfinished : ∀ p, (∀ mask, ¬ Unfinished fs d p mask) →
    (s.havePieces p = true ↔ Listed fs d p) ∧ s.calls p = if Listed fs d p then 1 else 0
  unfinished : ∀ p mask, Unfinished fs d p mask →
    (s.havePieces p = true ↔ hashChecks = false ∧ Complete fs p mask) ∧
      s.calls p = (if Listed fs d p then 1 else 0) + if hashChecks = false ∧ Complete fs p mask then 1 else 0
  verifyJobs : ∀ p, p ∈ s.verifyJobs ↔ hashChecks = true ∧ ∃ mask, Unfinished fs d p mask ∧ Complete fs p mask
  verifyJobs_nodup : s.verifyJobs.Nodup
  marks : ∀ m, m ∈ s.marks ↔ ∃ mask, Unfinished fs d m.1 mask ∧ m.2 ∈ setBlocks fs mask
  counted : Counted fs s
  checkJobs : s.checkJobs = []
  checkingPiece : s.checkingPiece =
    if d.havePieces ≠ [] ∧ d.havePieces.length < fs.numPieces then some d.havePieces.length else none

theorem onResumeDataChecked_loaded (fs : FileStorage) (hashChecks : Bool) (d : ResumeData) :
    Loaded fs hashChecks d (onResumeDataChecked fs hashChecks d) := by
  have h₁ := applyHave_spec d.havePieces (min_le_right d.havePieces.length fs.numPieces)
  unfold onResumeDataChecked
  dsimp only
  generalize applyHave fs d.havePieces (min d.havePieces.length fs.numPieces) {} = s₁ at h₁
  obtain ⟨hblocks, hmarks, hjobs, hcheck, hpiece⟩ := h₁.rest
  have h₂ := @applyAll_spec fs hashChecks s₁ d.unfinishedPieces d.keys_nodup
    fun p _ _ => congrFun hblocks p
  have hlisted : ∀ p, s₁.havePieces p = true ↔ Listed fs d p := by
    intro p
    rw [h₁.havePieces, Listed, lt_min_iff]
    refine and_congr_left fun hbit => ⟨And.right, fun hp => ⟨?_, hp⟩⟩
    by_contra hlen
    rw [List.getD_eq_default _ _ (not_lt.mp hlen)] at hbit
    cases hbit
  have hcalls : ∀ p, s₁.calls p = if Listed fs d p then 1 else 0 := fun p => by
    rw [h₁.calls, if_congr (hlisted p) rfl rfl]
  generalize d.unfinishedPieces.foldl (fun s e => s.applyUnfinished fs hashChecks e) s₁ = s₂ at h₂
  have hloaded : Loaded fs hashChecks d { s₂ with checkingPiece :=
      if d.havePieces ≠ [] ∧ d.havePieces.length < fs.numPieces then some d.havePieces.length else none } := {
    not_unfinished := by
      intro p hp
      obtain ⟨hh, -, hc⟩ := h₂.other p fun mask hlt hm => hp mask ⟨hlt, hm⟩
      dsimp only
      rw [hh, hc]
      exact ⟨hlisted p, hcalls p⟩
    unfinished := by
      rintro p mask ⟨hp, hm⟩
      rw [← hcalls]
      exact h₂.listed p hp mask hm
    verifyJobs := by
      intro p
      refine (h₂.verifyJobs p).trans ?_
      rw [hjobs]
      simp only [List.not_mem_nil, false_or, Unfinished]
      grind
    verifyJobs_nodup := h₂.verifyJobs_nodup (hjobs ▸ List.nodup_nil) fun p hp => by
      rw [hjobs] at hp
      cases hp
    marks := by
      intro m
      refine (h₂.marks m).trans ?_
      rw [hmarks]
      simp only [List.not_mem_nil, false_or, Unfinished]
      grind
    counted := by
      have hc := h₂.counted h₁.counted
      exact ⟨hc.files, hc.totalOnDisk⟩
    checkJobs := h₂.check.1.trans hcheck
    checkingPiece := rfl }
  split
  next hpart => simpa only [if_pos hpart] using hloaded
  next hpart =>
    have hnone : s₂.checkingPiece = none := h₂.check.2.trans hpiece
    rw [if_neg hpart, ← hnone] at hloaded
    exact hloaded

/-- Each piece was counted once, when we got it, and none is hashed twice at a time. -/
structure Once (fs : FileStorage) (s : Resume) : Prop where
  calls : ∀ p, s.calls p = if s.havePieces p then 1 else 0
  verify_not : ∀ p ∈ s.verifyJobs, s.havePieces p = false
  verify_nodup : s.verifyJobs.Nodup
  check_not : ∀ p ∈ s.checkJobs, s.havePieces p = false
  check_nodup : s.checkJobs.Nodup
  checking : ∀ c ∈ s.checkingPiece, (∀ p ∈ s.checkJobs, p < c) ∧ s.verifyJobs = []
  not_checking : s.checkingPiece = none → s.checkJobs = []

/-- A piece that we did not have is counted. -/
theorem Once.gain (h : Once fs s) {p : ℕ} (hp : s.havePieces p = false) (hv : p ∉ s.verifyJobs)
    (hc : p ∉ s.checkJobs) : Once fs ((s.pickerWeHave p).weHave fs p) where
  calls := by
    intro q
    by_cases hq : q = p
    · subst hq
      simp [Resume.weHave, pickerWeHave, h.calls, hp]
    · simp only [Resume.weHave, pickerWeHave, Function.update_of_ne hq]
      exact h.calls q
  verify_not := by
    intro q hq
    have hne : q ≠ p := fun he => hv (he ▸ hq)
    simp only [Resume.weHave, pickerWeHave, Function.update_of_ne hne]
    exact h.verify_not q hq
  verify_nodup := h.verify_nodup
  check_not := by
    intro q hq
    have hne : q ≠ p := fun he => hc (he ▸ hq)
    simp only [Resume.weHave, pickerWeHave, Function.update_of_ne hne]
    exact h.check_not q hq
  check_nodup := h.check_nodup
  checking := h.checking
  not_checking := h.not_checking

theorem Once.step (h : Once fs s) {e : LaterEvent} (hstep : s.step fs hashChecks e = some s') : Once fs s' := by
  cases e with
  | submit =>
    obtain ⟨c, hc, hstep⟩ := Option.bind_eq_some_iff.mp hstep
    obtain ⟨hlt, hv⟩ := h.checking c hc
    obtain ⟨-, hstep⟩ := Option.ite_none_right_eq_some.mp hstep
    split at hstep
    · obtain rfl := Option.some.inj hstep
      exact { h with
        checking := fun c' hc' => ⟨fun p hp => by
          obtain rfl := Option.some.inj hc'
          exact Nat.lt_succ_of_lt (hlt p hp), hv⟩
        not_checking := fun hn => by cases hn }
    next hnot =>
      obtain rfl := Option.some.inj hstep
      exact { h with
        check_not := by
          intro p hp
          obtain hp | hp := List.mem_append.mp hp
          · exact h.check_not p hp
          · obtain rfl := List.mem_singleton.mp hp
            exact Bool.eq_false_iff.mpr hnot
        check_nodup := by
          refine List.nodup_append.mpr ⟨h.check_nodup, List.nodup_singleton c, ?_⟩
          intro p hp q hq
          obtain rfl := List.mem_singleton.mp hq
          exact (hlt p hp).ne
        checking := fun c' hc' => ⟨fun p hp => by
          obtain rfl := Option.some.inj hc'
          obtain hp | hp := List.mem_append.mp hp
          · exact Nat.lt_succ_of_lt (hlt p hp)
          · obtain rfl := List.mem_singleton.mp hp
            exact Nat.lt_succ_self _, hv⟩
        not_checking := fun hn => by cases hn }
  | checked p passed last =>
    obtain ⟨⟨hp, -⟩, hstep⟩ := Option.ite_none_right_eq_some.mp hstep
    obtain rfl := Option.some.inj hstep
    have hv : s.verifyJobs = [] := by
      cases hc : s.checkingPiece with
      | none => exact absurd (h.not_checking hc ▸ hp) (by simp)
      | some c => exact (h.checking c hc).2
    have herase : Once fs { s with
        checkJobs := s.checkJobs.erase p
        checkingPiece := s.checkingPiece.map fun c => max c last } := { h with
      check_not := fun q hq => h.check_not q (List.mem_of_mem_erase hq)
      check_nodup := h.check_nodup.erase p
      checking := by
        intro c' hc'
        obtain ⟨c, hc, rfl⟩ := Option.map_eq_some_iff.mp hc'
        exact ⟨fun q hq => lt_max_of_lt_left ((h.checking c hc).1 q (List.mem_of_mem_erase hq)), hv⟩
      not_checking := by
        intro hn
        rw [h.not_checking (Option.map_eq_none_iff.mp hn)]
        rfl }
    cases passed with
    | false => exact herase
    | true =>
      refine herase.gain (h.check_not p hp) ?_ h.check_nodup.not_mem_erase
      dsimp only
      rw [hv]
      exact List.not_mem_nil
  | checkFailed p =>
    obtain ⟨hjobs, hstep⟩ := Option.ite_none_right_eq_some.mp hstep
    obtain rfl := Option.some.inj hstep
    have hv : s.verifyJobs = [] := by
      cases hc : s.checkingPiece with
      | none => exact absurd (hjobs.symm.trans (h.not_checking hc)) (by simp)
      | some c => exact (h.checking c hc).2
    exact { h with
      check_not := by simp
      check_nodup := List.nodup_nil
      checking := fun _ _ => ⟨by simp, hv⟩
      not_checking := fun hn => by cases hn }
  | checkDone =>
    obtain ⟨c, -, hstep⟩ := Option.bind_eq_some_iff.mp hstep
    obtain ⟨⟨-, hjobs⟩, hstep⟩ := Option.ite_none_right_eq_some.mp hstep
    obtain rfl := Option.some.inj hstep
    exact { h with
      checking := fun _ hc => by cases hc
      not_checking := fun _ => hjobs }
  | finish p k =>
    obtain ⟨⟨hc, -, hnot, hv, -, hk⟩, hstep⟩ := Option.ite_none_right_eq_some.mp hstep
    obtain rfl := Option.some.inj hstep
    have hmark : s.markAsFinished p k = { s with
        marks := s.marks ++ [(p, k)]
        blocks := Function.update s.blocks p (k :: s.blocks p) } := by
      simp [markAsFinished, hnot, hk]
    rw [hmark]
    have h' : Once fs { s with
        marks := s.marks ++ [(p, k)]
        blocks := Function.update s.blocks p (k :: s.blocks p) } := { h with }
    split
    next hfin =>
      cases hashChecks with
      | true =>
        exact { h' with
          verify_not := by
            intro q hq
            obtain hq | hq := List.mem_append.mp hq
            · exact h.verify_not q hq
            · obtain rfl := List.mem_singleton.mp hq
              exact hnot
          verify_nodup := by
            refine List.nodup_append.mpr ⟨h.verify_nodup, List.nodup_singleton p, ?_⟩
            intro q hq q' hq'
            obtain rfl := List.mem_singleton.mp hq'
            rintro rfl
            exact hv hq
          checking := fun c hc' => by cases hc.symm.trans hc' }
      | false =>
        rw [verifyPiece, if_neg (by simp), onPieceVerified_passed hfin hnot]
        refine h'.gain hnot hv ?_
        dsimp only
        rw [h.not_checking hc]
        exact List.not_mem_nil
    next => exact h'
  | verified p v =>
    obtain ⟨hp, hstep⟩ := Option.ite_none_right_eq_some.mp hstep
    obtain rfl := Option.some.inj hstep
    have hnot : s.havePieces p = false := h.verify_not p hp
    have hcheck : s.checkJobs = [] := by
      cases hc : s.checkingPiece with
      | none => exact h.not_checking hc
      | some c => exact absurd ((h.checking c hc).2 ▸ hp) (by simp)
    have h' : Once fs { s with verifyJobs := s.verifyJobs.erase p } := { h with
      verify_not := fun q hq => h.verify_not q (List.mem_of_mem_erase hq)
      verify_nodup := h.verify_nodup.erase p
      checking := fun c hc => ⟨(h.checking c hc).1, by
        rw [(h.checking c hc).2]
        rfl⟩ }
    by_cases hfin : isPieceFinished fs { s with verifyJobs := s.verifyJobs.erase p } p = true
    · cases v with
      | passed =>
        rw [onPieceVerified_passed hfin hnot]
        refine h'.gain hnot h.verify_nodup.not_mem_erase ?_
        dsimp only
        rw [hcheck]
        exact List.not_mem_nil
      | failed =>
        unfold onPieceVerified
        rw [if_neg (by simp [hfin])]
        exact { h' with }
      | diskError =>
        unfold onPieceVerified
        rw [if_neg (by simp [hfin])]
        exact h'
    · unfold onPieceVerified
      rw [if_pos (Bool.eq_false_iff.mpr hfin)]
      exact h'

theorem Once.later (h : Once fs s) (hl : Later fs hashChecks s s') : Once fs s' := by
  induction hl with
  | refl => exact h
  | step _ hstep ih => exact ih.step hstep

/-- With consistent resume data every piece that we have was counted once. -/
theorem Loaded.once (h : Loaded fs hashChecks d s) (hd : Consistent fs hashChecks d) : Once fs s where
  calls := by
    intro p
    by_cases hu : ∃ mask, Unfinished fs d p mask
    · obtain ⟨mask, hu⟩ := hu
      obtain ⟨hh, hc⟩ := h.unfinished p mask hu
      have hnot : ¬ (hashChecks = false ∧ Complete fs p mask) := fun ⟨hf, hcomp⟩ =>
        hd.incomplete (.inr hf) p mask hu hcomp
      rw [hc, if_neg (hd.apart p mask hu), if_neg hnot, if_neg (hh.not.mpr hnot)]
    · obtain ⟨hh, hc⟩ := h.not_unfinished p fun mask hm => hu ⟨mask, hm⟩
      rw [hc, if_congr hh rfl rfl]
  verify_not := by
    intro p hp
    obtain ⟨hcheck, mask, hu, -⟩ := (h.verifyJobs p).mp hp
    refine Bool.eq_false_iff.mpr fun hh => ?_
    exact absurd (((h.unfinished p mask hu).1.mp hh).1.symm.trans hcheck) (by simp)
  verify_nodup := h.verifyJobs_nodup
  check_not := by simp [h.checkJobs]
  check_nodup := by simp [h.checkJobs]
  checking := by
    intro c hc
    refine ⟨by simp [h.checkJobs], List.eq_nil_iff_forall_not_mem.mpr fun p hp => ?_⟩
    obtain ⟨-, mask, hu, hcomp⟩ := (h.verifyJobs p).mp hp
    rw [h.checkingPiece] at hc
    exact hd.incomplete (.inl (Option.ite_none_right_eq_some.mp hc).1) p mask hu hcomp
  not_checking := fun _ => h.checkJobs

theorem Loaded.sound (h : Loaded fs hashChecks d s) (hd : Consistent fs hashChecks d) :
    Sound fs hashChecks d s := by
  have honce := h.once hd
  have hmul : ∀ p w, s.calls p * w = if s.havePieces p then w else 0 := by
    intro p w
    rw [honce.calls]
    split <;> simp
  refine ⟨fun m hm => ?_, fun p => ?_, fun f => ?_, ?_, fun s' hl p => ?_⟩
  · obtain ⟨mask, hu, hk⟩ := (h.marks m).mp hm
    exact hd.masks m.1 mask hu m.2 hk
  · by_cases hu : ∃ mask, Unfinished fs d p mask
    · obtain ⟨mask, hu⟩ := hu
      rw [(h.unfinished p mask hu).1]
      refine iff_of_false ?_ fun hp => hp.2 mask hu
      exact fun ⟨hf, hcomp⟩ => hd.incomplete (.inr hf) p mask hu hcomp
    · have hall : ∀ mask, ¬ Unfinished fs d p mask := fun mask hm => hu ⟨mask, hm⟩
      rw [(h.not_unfinished p hall).1, and_iff_left hall]
  · rw [h.counted.files]
    exact Finset.sum_congr rfl fun p _ => hmul p _
  · rw [h.counted.totalOnDisk]
    exact Finset.sum_congr rfl fun p _ => hmul p _
  · rw [(honce.later hl).calls]
    split <;> simp

/-- A piece that is listed twice is counted, though we do not have it. -/
theorem Loaded.apart (h : Loaded fs hashChecks d s) (hs : Sound fs hashChecks d s) {p : ℕ} {mask : List Bool}
    (hu : Unfinished fs d p mask) : ¬ Listed fs d p := by
  intro hl
  have hnot : ¬ s.havePieces p = true := fun hh => ((hs.havePieces p).mp hh).2 mask hu
  have hcalls : 0 < s.calls p := by
    rw [(h.unfinished p mask hu).2, if_pos hl]
    omega
  obtain ⟨f, hf⟩ := FileStorage.exists_bytesIn_pos hl.1
  have hsum := (h.counted.files f).symm.trans (hs.files f)
  refine hsum.not_gt (Finset.sum_lt_sum (fun q _ => ?_) ⟨p, Finset.mem_range.mpr hl.1, ?_⟩)
  · split
    next hh =>
      obtain ⟨hq, hall⟩ := (hs.havePieces q).mp hh
      rw [(h.not_unfinished q hall).2, if_pos hq, Nat.one_mul]
    next => exact Nat.zero_le _
  · rw [if_neg hnot]
    exact Nat.mul_pos hcalls hf

/-- The check comes to a piece that we do not have. -/
theorem Later.submit_up {s₁ : Resume} (hl : Later fs hashChecks s s₁) {c p : ℕ} (hc : s₁.checkingPiece = some c)
    (hcp : c ≤ p) (hp : p < fs.numPieces) (hnot : s₁.havePieces p = false) :
    ∃ s₂, Later fs hashChecks s s₂ ∧ p ∈ s₂.checkJobs ∧ s₂.verifyJobs = s₁.verifyJobs ∧
      s₂.havePieces = s₁.havePieces ∧ s₂.calls = s₁.calls := by
  obtain ⟨n, rfl⟩ := Nat.exists_eq_add_of_le hcp
  induction n generalizing s₁ c with
  | zero =>
    refine ⟨{ s₁ with checkingPiece := some (c + 1), checkJobs := s₁.checkJobs ++ [c] },
      hl.step (e := .submit) ?_, by simp, rfl, rfl, rfl⟩
    rw [Nat.add_zero] at hp hnot
    simp [Resume.step, hc, hp, hnot]
  | succ n ih =>
    have hlt : c < fs.numPieces := by omega
    have hsucc : c + (n + 1) = c + 1 + n := by omega
    rw [hsucc] at hp hnot ⊢
    by_cases hh : s₁.havePieces c = true
    · have hstep : s₁.step fs hashChecks .submit = some { s₁ with checkingPiece := some (c + 1) } := by
        simp [Resume.step, hc, hlt, hh]
      exact ih (hl.step hstep) rfl (by omega) hp hnot
    · have hstep : s₁.step fs hashChecks .submit =
          some { s₁ with checkingPiece := some (c + 1), checkJobs := s₁.checkJobs ++ [c] } := by
        simp [Resume.step, hc, hlt, hh]
      exact ih (hl.step hstep) rfl (by omega) hp hnot

/-- A complete piece that is hashed by a check as well is counted twice. -/
theorem Loaded.not_once (h : Loaded fs true d s) (hpart : d.havePieces ≠ [] ∧ d.havePieces.length < fs.numPieces)
    {p : ℕ} {mask : List Bool} (hu : Unfinished fs d p mask) (hcomp : Complete fs p mask) :
    ∃ s', Later fs true s s' ∧ 1 < s'.calls p := by
  have hjob : p ∈ s.verifyJobs := (h.verifyJobs p).mpr ⟨rfl, mask, hu, hcomp⟩
  have hnot : s.havePieces p = false := Bool.eq_false_iff.mpr fun hh => by
    simpa using (h.unfinished p mask hu).1.mp hh
  have hc : s.checkingPiece = some d.havePieces.length := by rw [h.checkingPiece, if_pos hpart]
  -- the check comes to the piece, after it has started over if need be
  obtain ⟨s₂, hl₂, hmem, hv, hh, -⟩ : ∃ s₂, Later fs true s s₂ ∧ p ∈ s₂.checkJobs ∧
      s₂.verifyJobs = s.verifyJobs ∧ s₂.havePieces = s.havePieces ∧ s₂.calls = s.calls := by
    obtain hlt | hle := Nat.lt_or_ge p d.havePieces.length
    · have hfirst : s.havePieces d.havePieces.length = false := by
        refine Bool.eq_false_iff.mpr fun hh => ?_
        by_cases hu' : ∃ mask, Unfinished fs d d.havePieces.length mask
        · obtain ⟨mask', hu'⟩ := hu'
          simpa using (h.unfinished _ mask' hu').1.mp hh
        · have hl := ((h.not_unfinished _ fun mask' hm => hu' ⟨mask', hm⟩).1.mp hh).2
          rw [List.getD_eq_default _ _ le_rfl] at hl
          cases hl
      have hsubmit : s.step fs true .submit = some { s with
          checkingPiece := some (d.havePieces.length + 1)
          checkJobs := [d.havePieces.length] } := by
        simp [Resume.step, hc, hpart.2, hfirst, h.checkJobs]
      have hfail : ({ s with
          checkingPiece := some (d.havePieces.length + 1)
          checkJobs := [d.havePieces.length] } : Resume).step fs true (.checkFailed d.havePieces.length) =
            some { s with checkingPiece := some 0, checkJobs := [] } := by
        simp [Resume.step]
      exact ((Later.refl.step hsubmit).step hfail).submit_up rfl (Nat.zero_le p) hu.1 hnot
    · exact Later.refl.submit_up hc hle hu.1 hnot
  -- the check finds it first
  have hcheck : s₂.step fs true (.checked p true 0) = some ((({ s₂ with
      checkJobs := s₂.checkJobs.erase p
      checkingPiece := s₂.checkingPiece.map fun c => max c 0 } : Resume).pickerWeHave p).weHave fs p) := by
    simp [Resume.step, hmem]
  have hl₃ := hl₂.step hcheck
  set s₃ := (({ s₂ with
    checkJobs := s₂.checkJobs.erase p
    checkingPiece := s₂.checkingPiece.map fun c => max c 0 } : Resume).pickerWeHave p).weHave fs p with hs₃
  have hhave : s₃.havePieces p = true := by simp [hs₃, Resume.weHave, pickerWeHave]
  have hcalls : s₃.calls p = s₂.calls p + 1 := by simp [hs₃, Resume.weHave, pickerWeHave]
  have hjob₃ : p ∈ s₃.verifyJobs := by
    simp only [hs₃, Resume.weHave, pickerWeHave, hv]
    exact hjob
  have hverified : s₃.step fs true (.verified p .passed) =
      some (({ s₃ with verifyJobs := s₃.verifyJobs.erase p } : Resume).piecePassed fs p) := by
    simp [Resume.step, hjob₃, onPieceVerified, isPieceFinished, hhave]
  refine ⟨_, hl₃.step hverified, ?_⟩
  have hpassed : (({ s₃ with verifyJobs := s₃.verifyJobs.erase p } : Resume).piecePassed fs p).calls p =
      s₃.calls p + 1 := by
    unfold piecePassed
    split <;> simp [Resume.weHave, pickerWeHave]
  omega

theorem two_blocks_pos : 0 < 32768 := by decide

/-- A piece of two blocks and one of one block. -/
def threeBlocks : FileStorage := ⟨[40000], 32768, two_blocks_pos⟩

/-- The mask of the last piece has a bit for a second block. -/
def extraBlock : ResumeData := ⟨[], [(1, [false, true])], by decide⟩

/-- A piece is listed as had and as unfinished. -/
def listedTwice : ResumeData := ⟨[true, true], [(0, [])], by decide⟩

/-- A piece is complete while a check goes on. -/
def completeAtCheck : ResumeData := ⟨[true], [(1, [true])], by decide⟩

end Resume

end Torrent

end LibtorrentSN
