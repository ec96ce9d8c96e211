import LibtorrentSN.Torrent.Checking

/-!
# Resume data that is saved during a check

`write_resume_data` saves the pieces up to `m_num_checked_pieces`, and a torrent that is loaded with fewer
pieces than it has continues the check after them. The counter counts the jobs that are done, in any
order, so it is a prefix of the pieces only while jobs end in the order they were submitted in.
-/

namespace LibtorrentSN

namespace Torrent

namespace Checking

variable (fs : FileStorage) (s : Checking)

/-- `is_seed`. In seed mode and in the state `seeding` it looks no further. -/
def isSeed (seeding : Bool) : Bool :=
  seeding || s.haveAll || s.picker.any fun picked => (List.range fs.numPieces).all picked

/-- The pieces that `write_resume_data` saves. -/
def maxPiece (filesChecked : Bool) : ℕ :=
  if s.state = .checkingFiles then s.numCheckedPieces
  else if filesChecked then fs.numPieces
  else 0

/-- `have_pieces` -/
def havePieces (filesChecked seeding : Bool) : List Bool :=
  if 0 < s.maxPiece fs filesChecked then
    if s.isSeed fs seeding then List.replicate (s.maxPiece fs filesChecked) true
    else if s.picker.isSome then (List.range (s.maxPiece fs filesChecked)).map s.havePiece
    else []
  else []

/-- The picker of a torrent that is loaded: the saved pieces less the unfinished ones. -/
def restoredPicker (pieces : List Bool) (unfinished : List ℕ) : Option (ℕ → Bool) :=
  if (pieces.take fs.numPieces).any id ∨ unfinished.any (· < fs.numPieces) then
    some fun p => (pieces.take fs.numPieces).getD p false && !unfinished.contains p
  else none

/-- The saved pieces are fewer than the torrent has: it was in the middle of a check. -/
def Interrupted (pieces : List Bool) : Prop := pieces ≠ [] ∧ pieces.length < fs.numPieces

instance (pieces : List Bool) : Decidable (Interrupted fs pieces) := inferInstanceAs (Decidable (_ ∧ _))

/-- `on_resume_data_checked` up to the start of the check, in a torrent that is loaded with what `s`
saved. What `s` had examined of these pieces counts for the check that continues. -/
def loaded (accepted : Bool) (pieces : List Bool) (unfinished : List ℕ) (paused sessionPaused : Bool) :
    Checking :=
  if accepted = true ∧ Interrupted fs pieces then
    { checkingPiece := pieces.length
      numCheckedPieces := pieces.length
      picker := restoredPicker fs pieces unfinished
      paused, sessionPaused
      examined := s.examined.filter fun entry => entry.1 < pieces.length
      completed := s.completed }
  else if accepted then
    { state := .other
      picker := restoredPicker fs pieces unfinished
      paused, sessionPaused
      completed := s.completed }
  else { paused, sessionPaused, completed := s.completed }

/-- `on_resume_data_checked` -/
def onResumeDataChecked (accepted : Bool) (pieces : List Bool) (unfinished : List ℕ)
    (paused sessionPaused : Bool) (numOutstanding : ℤ) : Checking :=
  let s := s.loaded fs accepted pieces unfinished paused sessionPaused
  if s.shouldCheckFiles then s.startChecking fs numOutstanding else s

/-- The states of the runs whose steps all meet a condition. At any moment of a check the resume data
may be saved, and the torrent loaded again with it. -/
inductive Resumed (fs : FileStorage) (quiet : Checking → CheckEvent → Prop) : Checking → Prop
  | init (picker : Option (ℕ → Bool)) (haveAll paused sessionPaused : Bool) :
      Resumed fs quiet { picker, haveAll, paused, sessionPaused }
  | step {s s' : Checking} {e : CheckEvent} (hs : Resumed fs quiet s) (hq : quiet s e)
      (h : Step fs s e s') : Resumed fs quiet s'
  | load {s : Checking} (hs : Resumed fs quiet s) (hstate : s.state = .checkingFiles)
      (filesChecked seeding accepted : Bool) (unfinished : List ℕ) (paused sessionPaused : Bool) (n : ℤ) :
      Resumed fs quiet (s.onResumeDataChecked fs accepted (s.havePieces fs filesChecked seeding) unfinished
        paused sessionPaused n)

/-- What is saved during a check covers examined pieces, and a check is complete when it ends, also one
that was continued from what was saved. -/
structure SavesChecked (fs : FileStorage) (s : Checking) : Prop where
  saved : s.state = .checkingFiles → ∀ filesChecked seeding,
    ∀ p < (s.havePieces fs filesChecked seeding).length, ∃ r, (p, r) ∈ s.examined
  missing : ∀ p file, (p, .missing file) ∈ s.examined → WhollyIn fs file p
  completed : ∀ examined ∈ s.completed, AllExamined fs examined

/-! ## The condition on the events -/

/-- The pieces that `start_checking` comes across and that are had form one run at the cursor, and it is
empty while a job is in flight. -/
def HeldFirst (n : ℤ) : Prop :=
  ∃ first, s.checkingPiece ≤ first ∧ (∀ q, s.checkingPiece ≤ q → q < first → s.havePiece q = true) ∧
    (s.outstanding = [] ∨ first = s.checkingPiece) ∧
    ∀ q : ℕ, first ≤ q → q < fs.numPieces →
      (q : ℤ) < first + (n - ((s.checkingPiece : ℤ) - s.numCheckedPieces)) → s.havePiece q = false

/-- The piece at the cursor is had once the hash is recorded. -/
def HeldAfter (r : HashResult) : Prop :=
  match s.picker with
  | some picked => picked s.checkingPiece = true
  | none => s.haveAll = true ∧ r.hashPassed = none ∧ r.error = none

/-- `on_piece_hashed` counts more than the job that has ended: pieces of a file that is missing, or
pieces that are had. -/
def Skips (r : HashResult) : Prop :=
  (∃ file, r.error = some (.shortFile file) ∧ s.checkingPiece < (fs.mapFile file (fs.fileSize file)).1) ∨
    (s.checkingPiece < fs.numPieces ∧ s.HeldAfter r)

/-- Jobs end in the order of their pieces, and pieces are skipped only while no other job is in
flight. -/
def InOrder (s : Checking) : CheckEvent → Prop
  | .hashed p r => (∀ q ∈ s.outstanding, p ≤ q) ∧ (s.Skips fs r → s.outstanding = [p])
  | .startChecking n => s.HeldFirst fs n
  | .resume n => s.sessionPaused = false → s.state = .checkingFiles → s.HeldFirst fs n
  | .sessionResume n => s.paused = false → s.state = .checkingFiles → s.HeldFirst fs n
  | .clearError n | .forceRecheck n =>
    s.error = true → s.state = .checkingFiles → s.paused = false → s.sessionPaused = false →
      s.HeldFirst fs n
  | .recheckDone .needCheck autoManaged n =>
    s.error = false → s.paused = false → autoManaged = false → s.sessionPaused = false →
      s.restart.HeldFirst fs n
  | _ => True

/-! ## What holds while jobs end in order -/

/-- No job is in flight for a piece that is counted. -/
structure Counted (s : Checking) : Prop where
  nodup : s.outstanding.Nodup
  counted_le : ∀ q ∈ s.outstanding, s.numCheckedPieces ≤ q

variable {fs} {s}

theorem Counted.of_outstanding_eq {s' : Checking} (h : Counted s) (ho : s'.outstanding = s.outstanding)
    (hn : s'.numCheckedPieces ≤ s.numCheckedPieces) : Counted s' where
  nodup := ho ▸ h.nodup
  counted_le := fun q hq => hn.trans (h.counted_le q (ho ▸ hq))

theorem counted_of_nil (h : s.outstanding = []) : Counted s := by
  constructor
  · rw [h]
    exact List.nodup_nil
  · rw [h]
    simp

theorem Counted.submit (h : Counted s) (hinv : Inv fs s) : Counted s.submit where
  nodup := by
    refine List.nodup_append.mpr ⟨h.nodup, List.nodup_singleton _, ?_⟩
    intro p hp q hq
    rw [List.mem_singleton.mp hq]
    exact (hinv.outstanding_lt p hp).ne
  counted_le := by
    intro q hq
    rcases List.mem_append.mp hq with hq | hq
    · exact h.counted_le q hq
    · obtain rfl := List.mem_singleton.mp hq
      have heq := hinv.outstanding_eq
      change s.numCheckedPieces ≤ s.checkingPiece
      omega

/-- The pieces before the counter have been examined. -/
theorem Counted.examined (h : Counted s) (hinv : Inv fs s) {p : ℕ} (hp : p < s.numCheckedPieces) :
    ∃ r, (p, r) ∈ s.examined := by
  have heq := hinv.outstanding_eq
  rcases hinv.covered p (by omega) with hmem | hex
  · exact absurd (h.counted_le p hmem) (not_le.mpr hp)
  · exact hex

/-! ### Pieces that are skipped -/

theorem skipHeld_outstanding (fs : FileStorage) (fuel : ℕ) (s : Checking) :
    (skipHeld fs fuel s).outstanding = s.outstanding := by
  induction fuel generalizing s with
  | zero => rfl
  | succ fuel ih =>
    rw [skipHeld]
    split
    · exact ih _
    · rfl

theorem skipHeld_picker (fs : FileStorage) (fuel : ℕ) (s : Checking) :
    (skipHeld fs fuel s).picker = s.picker := by
  induction fuel generalizing s with
  | zero => rfl
  | succ fuel ih =>
    rw [skipHeld]
    split
    · exact ih _
    · rfl

theorem skipHeld_eq_self (h : s.checkingPiece < fs.numPieces → s.havePiece s.checkingPiece = false)
    (fuel : ℕ) : skipHeld fs fuel s = s := by
  cases fuel with
  | zero => rfl
  | succ fuel =>
    rw [skipHeld, if_neg]
    rintro ⟨hlt, hheld⟩
    rw [h hlt] at hheld
    cases hheld

/-- The cursors move together. -/
theorem skipHeld_sub (fs : FileStorage) (fuel : ℕ) (s : Checking) :
    ((skipHeld fs fuel s).checkingPiece : ℤ) - (skipHeld fs fuel s).numCheckedPieces =
      (s.checkingPiece : ℤ) - s.numCheckedPieces := by
  induction fuel generalizing s with
  | zero => rfl
  | succ fuel ih =>
    rw [skipHeld]
    split
    · rw [ih]
      push_cast
      omega
    · rfl

/-- A run of pieces that are had is skipped to its end. -/
theorem skipHeld_checkingPiece {first : ℕ} (hle : s.checkingPiece ≤ first)
    (hheld : ∀ q, s.checkingPiece ≤ q → q < first → s.havePiece q = true)
    (hfirst : first < fs.numPieces → s.havePiece first = false) {fuel : ℕ}
    (hfuel : fs.numPieces ≤ s.checkingPiece + fuel) :
    (skipHeld fs fuel s).checkingPiece = first ∨ fs.numPieces ≤ (skipHeld fs fuel s).checkingPiece := by
  induction fuel generalizing s with
  | zero => exact .inr hfuel
  | succ fuel ih =>
    rcases hle.eq_or_lt with rfl | hlt
    · rw [skipHeld_eq_self hfirst]
      exact .inl rfl
    · rw [skipHeld]
      split
      · refine ih hlt (fun q hq => hheld q ((Nat.le_succ _).trans hq)) hfirst ?_
        dsimp only
        omega
      · next hstop =>
        refine .inr (not_lt.mp fun hpieces => hstop ⟨hpieces, ?_⟩)
        exact hheld _ le_rfl hlt

/-! ### Jobs that are submitted -/

/-- The loop submits as many jobs as it may, or comes to the end. -/
theorem submitLoop_sub (fs : FileStorage) (n : ℕ) (s : Checking) :
    fs.numPieces ≤ (submitLoop fs n s).checkingPiece ∨
      ((submitLoop fs n s).checkingPiece : ℤ) - (submitLoop fs n s).numCheckedPieces =
        (s.checkingPiece : ℤ) - s.numCheckedPieces + n := by
  induction n generalizing s with
  | zero => exact .inr (by simp [submitLoop])
  | succ n ih =>
    rw [submitLoop]
    dsimp only
    split
    · next hend => exact .inl hend
    · split
      · next hend => exact .inl hend
      · refine (ih _).imp_right fun heq => ?_
        have hsub := skipHeld_sub fs fs.numPieces s
        rw [heq, submit]
        push_cast
        omega

/-- No more jobs are submitted by a second call. -/
theorem startChecking_twice (n : ℤ) :
    (s.startChecking fs n).startChecking fs n = s.startChecking fs n := by
  by_cases hn : n - ((s.checkingPiece : ℤ) - s.numCheckedPieces) ≤ 0
  · have hself : s.startChecking fs n = s := if_pos hn
    rw [hself, hself]
  · by_cases hend : fs.numPieces ≤ s.checkingPiece
    · have hself : s.startChecking fs n = s := by
        rw [startChecking, if_neg hn, if_pos hend]
      rw [hself, hself]
    · have hloop : s.startChecking fs n =
          submitLoop fs (n - ((s.checkingPiece : ℤ) - s.numCheckedPieces)).toNat s := by
        rw [startChecking, if_neg hn, if_neg hend]
      rw [hloop, startChecking]
      rcases submitLoop_sub fs (n - ((s.checkingPiece : ℤ) - s.numCheckedPieces)).toNat s with hle | heq
      · rw [if_pos hle, ite_self]
      · exact if_pos (by omega)

theorem submitLoop_counted (h : Counted s) (hinv : Inv fs s) (n : ℕ)
    (hheld : ∀ q, s.checkingPiece ≤ q → q < fs.numPieces → q < s.checkingPiece + n → s.havePiece q = false) :
    Counted (submitLoop fs n s) := by
  induction n generalizing s with
  | zero => exact h
  | succ n ih =>
    rw [submitLoop]
    dsimp only
    rw [skipHeld_eq_self fun hlt => hheld _ le_rfl hlt (by omega)]
    split
    · exact h
    · next hlt =>
      split
      · exact h.submit hinv
      · refine ih (h.submit hinv) (hinv.submit (not_le.mp hlt)) ?_
        intro q hq hpieces hn
        refine hheld q ((Nat.le_succ _).trans hq) hpieces ?_
        change q < s.checkingPiece + 1 + n at hn
        omega

theorem Counted.startChecking (h : Counted s) (hinv : Inv fs s) {n : ℤ} (hheld : s.HeldFirst fs n) :
    Counted (s.startChecking fs n) := by
  rw [Checking.startChecking]
  split
  · exact h
  · next hn =>
    split
    · exact h
    · obtain ⟨first, hle, hrun, hidle, hrest⟩ := hheld
      obtain ⟨m, hm⟩ : ∃ m : ℕ, (n - ((s.checkingPiece : ℤ) - s.numCheckedPieces)).toNat = m + 1 :=
        ⟨_, (Nat.succ_pred_eq_of_pos (by omega)).symm⟩
      have hfirst : first < fs.numPieces → s.havePiece first = false :=
        fun hlt => hrest first le_rfl hlt (by omega)
      rcases hidle with hidle | rfl
      · -- no job is in flight while the run at the cursor is skipped
        rw [hm, submitLoop]
        have hskip := hinv.skipHeld fs.numPieces
        have hcount : Counted (skipHeld fs fs.numPieces s) :=
          counted_of_nil (by rw [skipHeld_outstanding, hidle])
        dsimp only
        split
        · exact hcount
        · next hlt =>
          split
          · exact hcount.submit hskip
          · refine submitLoop_counted (hcount.submit hskip) (hskip.submit (not_le.mp hlt)) m ?_
            intro q hq hpieces hqm
            have hcursor := (skipHeld_checkingPiece hle hrun hfirst (Nat.le_add_left _ _)).resolve_right hlt
            change (skipHeld fs fs.numPieces s).checkingPiece + 1 ≤ q at hq
            change q < (skipHeld fs fs.numPieces s).checkingPiece + 1 + m at hqm
            change (skipHeld fs fs.numPieces s).havePiece q = false
            rw [havePiece, skipHeld_picker]
            exact hrest q (by omega) hpieces (by omega)
      · exact submitLoop_counted h hinv _ fun q hq hpieces hqn => hrest q hq hpieces (by omega)

theorem shouldCheckFiles_iff : s.shouldCheckFiles = true ↔
    s.state = .checkingFiles ∧ s.paused = false ∧ s.error = false ∧ s.sessionPaused = false := by
  simp [shouldCheckFiles, and_assoc]

theorem Counted.clearError (h : Counted s) (hinv : Inv fs s) {n : ℤ}
    (hheld : s.error = true → s.state = .checkingFiles → s.paused = false → s.sessionPaused = false →
      s.HeldFirst fs n) : Counted (s.clearError fs n) := by
  rw [Checking.clearError]
  have hframe : Counted { s with error := false } := h.of_outstanding_eq rfl le_rfl
  split
  · next herror =>
    dsimp only
    split
    · next hcheck =>
      obtain ⟨hstate, hpaused, -, hsession⟩ := shouldCheckFiles_iff.mp hcheck
      exact hframe.startChecking (hinv.frame _ _ _ _ _ _ _) (hheld herror hstate hpaused hsession)
    · exact hframe
  · exact h

theorem Counted.doResume (h : Counted s) (hinv : Inv fs s) {n : ℤ}
    (hheld : s.state = .checkingFiles → s.HeldFirst fs n) : Counted (s.doResume fs n) := by
  have hclear := h.clearError hinv fun _ hstate _ _ => hheld hstate
  rw [Checking.doResume]
  split
  · next hcheck =>
    by_cases herror : s.error = true
    · -- the error is cleared, and the check has been started
      rw [Checking.clearError, if_pos herror] at hcheck hclear ⊢
      dsimp only at hcheck hclear ⊢
      split at hcheck
      · next hstart =>
        rw [if_pos hstart] at hclear ⊢
        rw [startChecking_twice]
        exact hclear
      · next hstop => exact absurd hcheck hstop
    · rw [Checking.clearError, if_neg herror] at hcheck ⊢
      exact h.startChecking hinv (hheld (shouldCheckFiles_iff.mp hcheck).1)
  · exact hclear

/-! ### Jobs that end -/

theorem Counted.hashed (h : Counted s) {p : ℕ} (hp : p ∈ s.outstanding) (hfirst : ∀ q ∈ s.outstanding, p ≤ q) :
    Counted { s with
      outstanding := s.outstanding.erase p
      numCheckedPieces := s.numCheckedPieces + 1
      examined := s.examined ++ [(p, Examined.hashed)] } where
  nodup := h.nodup.erase p
  counted_le := by
    intro q hq
    obtain ⟨hne, hmem⟩ := h.nodup.mem_erase_iff.mp hq
    have hlt : p < q := (hfirst q hmem).lt_of_ne' hne
    exact (Nat.succ_le_succ (h.counted_le p hp)).trans hlt

theorem recordHash_eq (s : Checking) (p : ℕ) (r : HashResult) :
    ∃ picker, s.recordHash p r = { s with picker } := by
  rw [recordHash]
  split
  · split
    · exact ⟨_, rfl⟩
    · exact ⟨s.picker, rfl⟩
  · exact ⟨s.picker, rfl⟩
  · split
    · exact ⟨_, rfl⟩
    · exact ⟨s.picker, rfl⟩

/-- Recording the hash of another piece does not have the piece at the cursor. -/
theorem heldAfter_of_recordHash {p : ℕ} {r : HashResult} (hp : p ≠ s.checkingPiece)
    (h : (s.recordHash p r).havePiece s.checkingPiece = true) : s.HeldAfter r := by
  rw [HeldAfter]
  rw [recordHash] at h
  cases hpicker : s.picker with
  | some picked =>
    rw [hpicker] at h
    split at h
    · simpa [havePiece, Function.update_of_ne hp.symm] using h
    · simpa [havePiece, hpicker] using h
    · split at h <;> simpa [havePiece, hpicker] using h
  | none =>
    rw [hpicker] at h
    split at h
    · split at h
      · next hall => simp_all [havePiece, Function.update_of_ne hp.symm]
      · simp [havePiece, hpicker] at h
    · simp [havePiece, hpicker] at h
    · next hpassed =>
      split at h
      · next herror => exact ⟨by simpa [havePiece] using h, hpassed, Option.isNone_iff_eq_none.mp herror⟩
      · simp [havePiece, hpicker] at h

theorem skipFile_outstanding (fs : FileStorage) (s : Checking) (file : ℕ) :
    (s.skipFile fs file).outstanding = s.outstanding := by
  rw [skipFile]
  split <;> rfl

/-- Pieces that are skipped once a job has ended. -/
theorem Counted.skip (h : Counted s) {t : Checking} {p : ℕ} {r : HashResult} (hp : p ≠ s.checkingPiece)
    (ht : t.outstanding = s.outstanding)
    (hskip : t ≠ s ∨ (s.checkingPiece < fs.numPieces ∧ s.HeldAfter r) → s.outstanding = []) :
    Counted (skipHeld fs fs.numPieces (t.recordHash p r)) := by
  obtain ⟨picker, hrecord⟩ := recordHash_eq t p r
  by_cases hnil : s.outstanding = []
  · refine counted_of_nil ?_
    rw [skipHeld_outstanding, hrecord]
    exact ht.trans hnil
  · obtain ⟨rfl, hheld⟩ : t = s ∧ (s.checkingPiece < fs.numPieces → ¬ s.HeldAfter r) := by
      refine ⟨not_ne_iff.mp fun hne => hnil (hskip (.inl hne)), fun hlt hheld => hnil (hskip (.inr ⟨hlt, hheld⟩))⟩
    rw [skipHeld_eq_self]
    · rw [hrecord]
      exact h.of_outstanding_eq rfl le_rfl
    · intro hlt
      have hcursor : (t.recordHash p r).checkingPiece = t.checkingPiece := by rw [hrecord]
      rw [hcursor] at hlt ⊢
      exact eq_false_of_ne_true fun hhave => hheld hlt (heldAfter_of_recordHash hp hhave)

theorem Counted.continueChecking (h : Counted s) (hinv : Inv fs s) (limited : Bool) :
    Counted (s.continueChecking fs limited) := by
  rw [Checking.continueChecking]
  split
  · split
    · exact h
    · split
      · exact h
      · exact h.submit hinv
  · exact h.of_outstanding_eq rfl (Nat.zero_le _)

theorem Counted.onPieceHashed (h : Counted s) (hinv : Inv fs s) {p : ℕ} {r : HashResult}
    (hp : p ∈ s.outstanding) (hfile : ∀ file, r.error = some (.shortFile file) → fs.HasByteIn file p)
    (hfirst : ∀ q ∈ s.outstanding, p ≤ q) (hskip : s.Skips fs r → s.outstanding = [p]) :
    Counted (s.onPieceHashed fs p r) := by
  have hhashed := h.hashed hp hfirst
  have hinv' := hinv.hashed hp
  have hne : p ≠ s.checkingPiece := (hinv.outstanding_lt p hp).ne
  have hnil : s.Skips fs r → s.outstanding.erase p = [] := fun hs => by
    rw [hskip hs]
    simp
  rw [Checking.onPieceHashed]
  dsimp only
  split
  · exact hhashed.of_outstanding_eq rfl (Nat.zero_le _)
  · next file herror =>
    have hskipped := hinv'.skipFile (hinv.outstanding_lt p hp) (hfile file herror)
    refine Counted.continueChecking ?_ ((hskipped.recordHash p r).skipHeld _) _
    refine hhashed.skip hne (skipFile_outstanding _ _ _) ?_
    rintro (hmoved | hheld)
    · refine hnil (.inl ⟨file, herror, not_le.mp fun hle => hmoved ?_⟩)
      rw [Checking.skipFile]
      exact if_neg (not_lt.mpr hle)
    · exact hnil (.inr hheld)
  · refine Counted.continueChecking ?_ ((hinv'.recordHash p r).skipHeld _) _
    refine hhashed.skip hne rfl ?_
    rintro (hmoved | hheld)
    · exact absurd rfl hmoved
    · exact hnil (.inr hheld)

theorem Counted.step {s' : Checking} {e : CheckEvent} (h : Counted s) (hinv : Inv fs s) (hq : Quiet s e)
    (ho : InOrder fs s e) (hstep : Step fs s e s') : Counted s' := by
  cases hstep with
  | startChecking n => exact h.startChecking hinv ho
  | hashed p r hp hfile => exact h.onPieceHashed hinv hp hfile ho.1 ho.2
  | pause => exact h.of_outstanding_eq rfl le_rfl
  | resume n =>
    have hframe : Counted { s with paused := false } := h.of_outstanding_eq rfl le_rfl
    split
    · exact hframe
    · next hsession => exact hframe.doResume (hinv.frame _ _ _ _ _ _ _) (ho (eq_false_of_ne_true hsession))
  | sessionPause => exact h.of_outstanding_eq rfl le_rfl
  | sessionResume n =>
    have hframe : Counted { s with sessionPaused := false } := h.of_outstanding_eq rfl le_rfl
    split
    · exact hframe
    · next hpaused => exact hframe.doResume (hinv.frame _ _ _ _ _ _ _) (ho (eq_false_of_ne_true hpaused))
  | clearError n => exact h.clearError hinv ho
  | forceRecheck n => exact (h.clearError hinv ho).of_outstanding_eq rfl le_rfl
  | recheckDone r autoManaged n =>
    cases r with
    | error => exact h.of_outstanding_eq rfl le_rfl
    | noFiles => exact h.of_outstanding_eq rfl le_rfl
    | needCheck =>
      have hrestart := (hinv.restart hq).frame s.picker s.haveAll .checkingFiles (s.paused || autoManaged)
        s.sessionPaused s.error (s.rechecks - 1)
      have hcount : Counted { s.restart with
          state := .checkingFiles, paused := s.paused || autoManaged, rechecks := s.rechecks - 1 } :=
        h.of_outstanding_eq rfl (Nat.zero_le _)
      simp only [onForceRecheck]
      split
      · next hcheck =>
        obtain ⟨-, hpaused, herror, hsession⟩ := shouldCheckFiles_iff.mp hcheck
        obtain ⟨hpaused, hmanaged⟩ := Bool.or_eq_false_iff.mp hpaused
        exact hcount.startChecking hrestart (ho herror hpaused hmanaged hsession)
      · exact hcount
  | setPicker picker haveAll => exact h.of_outstanding_eq rfl le_rfl

/-! ### Torrents that are loaded again -/

theorem length_havePieces_le (hstate : s.state = .checkingFiles) (filesChecked seeding : Bool) :
    (s.havePieces fs filesChecked seeding).length ≤ s.numCheckedPieces := by
  have hmax : s.maxPiece fs filesChecked = s.numCheckedPieces := if_pos hstate
  rw [havePieces, hmax]
  split
  · split
    · exact List.length_replicate.le
    · split
      · rw [List.length_map, List.length_range]
      · exact Nat.zero_le _
  · exact Nat.zero_le _

theorem Counted.saved (h : Counted s) (hinv : Inv fs s) (hstate : s.state = .checkingFiles)
    (filesChecked seeding : Bool) {p : ℕ} (hp : p < (s.havePieces fs filesChecked seeding).length) :
    ∃ r, (p, r) ∈ s.examined :=
  h.examined hinv (hp.trans_le (length_havePieces_le hstate filesChecked seeding))

theorem Inv.loaded (hinv : Inv fs s) {pieces : List Bool}
    (hsaved : ∀ p < pieces.length, ∃ r, (p, r) ∈ s.examined) (accepted : Bool) (unfinished : List ℕ)
    (paused sessionPaused : Bool) : Inv fs (s.loaded fs accepted pieces unfinished paused sessionPaused) := by
  rw [Checking.loaded]
  split
  · next hinterrupted =>
    refine ⟨hinterrupted.2.2.le, rfl, by simp, List.nodup_nil, by simp, fun p hp => ?_, fun p file hp => ?_,
      hinv.completed⟩
    · obtain ⟨r, hr⟩ := hsaved p hp
      exact .inr ⟨r, List.mem_filter.mpr ⟨hr, decide_eq_true hp⟩⟩
    · exact hinv.missing p file (List.mem_of_mem_filter hp)
  · split <;> exact ⟨Nat.zero_le _, rfl, by simp, List.nodup_nil, by simp,
      fun p hp => absurd hp (Nat.not_lt_zero p), by simp, hinv.completed⟩

theorem loaded_outstanding (fs : FileStorage) (s : Checking) (accepted : Bool) (pieces : List Bool) (unfinished : List ℕ)
    (paused sessionPaused : Bool) :
    (s.loaded fs accepted pieces unfinished paused sessionPaused).outstanding = [] := by
  rw [loaded]
  split
  · rfl
  · split <;> rfl

/-- No piece at or after the cursor is had when a check starts in a torrent that is loaded. -/
theorem loaded_heldFirst {accepted : Bool} {pieces : List Bool} {unfinished : List ℕ}
    {paused sessionPaused : Bool}
    (hcheck : (s.loaded fs accepted pieces unfinished paused sessionPaused).state = .checkingFiles) (n : ℤ) :
    (s.loaded fs accepted pieces unfinished paused sessionPaused).HeldFirst fs n := by
  refine ⟨_, le_rfl, fun q hq hlt => absurd hq (not_le.mpr hlt), .inr rfl, fun q hq hpieces hn => ?_⟩
  clear hn
  rw [loaded] at hcheck hq ⊢
  split at hcheck
  · next hinterrupted =>
    rw [if_pos hinterrupted] at hq ⊢
    rw [havePiece]
    dsimp only at hq ⊢
    rw [restoredPicker]
    split
    · have hend : (pieces.take fs.numPieces).length ≤ q := (List.length_take_le' _ _).trans hq
      change ((pieces.take fs.numPieces).getD q false && !unfinished.contains q) = false
      rw [List.getD_eq_default _ _ hend]
      rfl
    · rfl
  · next hinterrupted =>
    rw [if_neg hinterrupted] at hq ⊢
    split at hcheck
    · cases hcheck
    · next haccepted =>
      rw [if_neg haccepted]
      rfl

/-- No job is in flight when the cursors are set back, jobs end in the order of their pieces, and pieces
are skipped only while no other job is in flight. -/
def InTurn (fs : FileStorage) (s : Checking) (e : CheckEvent) : Prop := Quiet s e ∧ InOrder fs s e

theorem resumed_inv (h : Resumed fs (InTurn fs) s) : Inv fs s ∧ Counted s := by
  induction h with
  | init picker haveAll paused sessionPaused =>
    exact ⟨⟨Nat.zero_le _, rfl, by simp, List.nodup_nil, by simp, fun p hp => absurd hp (Nat.not_lt_zero p),
      by simp, by simp⟩, counted_of_nil rfl⟩
  | step _ hq hstep ih => exact ⟨ih.1.step hq.1 hstep, ih.2.step ih.1 hq.1 hq.2 hstep⟩
  | @load s _ hstate filesChecked seeding accepted unfinished paused sessionPaused n ih =>
    obtain ⟨hinv, hcount⟩ := ih
    have hloaded := hinv.loaded (fun p hp => hcount.saved hinv hstate filesChecked seeding hp) accepted
      unfinished paused sessionPaused
    have hnil := counted_of_nil (loaded_outstanding fs s accepted (s.havePieces fs filesChecked seeding)
      unfinished paused sessionPaused)
    rw [onResumeDataChecked]
    split
    · next hcheck =>
      exact ⟨hloaded.startChecking n,
        hnil.startChecking hloaded (loaded_heldFirst (shouldCheckFiles_iff.mp hcheck).1 n)⟩
    · exact ⟨hloaded, hnil⟩

/-- In every run in which jobs end in turn, what is saved during a check covers examined pieces, and a
check that is continued after it was saved examines all pieces. -/
theorem resumed_savesChecked (fs : FileStorage) {s : Checking} (h : Resumed fs (InTurn fs) s) :
    SavesChecked fs s := by
  obtain ⟨hinv, hcount⟩ := resumed_inv h
  exact ⟨fun hstate filesChecked seeding p hp => hcount.saved hinv hstate filesChecked seeding hp,
    hinv.missing, hinv.completed⟩

/-- The check is saved and continued after the first of two pieces. -/
theorem resumed_savesChecked_twoPieces : ∃ s, Resumed twoPieces (InTurn twoPieces) s ∧
    s.completed = [[(0, .hashed), (1, .hashed)]] ∧ SavesChecked twoPieces s := by
  have hfree : ∀ s : Checking, s.picker = none → ∀ n, s.HeldFirst twoPieces n := fun s hs n =>
    ⟨_, le_rfl, fun q hq hlt => absurd hq (not_le.mpr hlt), .inr rfl, fun q _ _ _ => by rw [havePiece, hs]; rfl⟩
  have hstart := (@Resumed.init twoPieces (InTurn twoPieces) none false false false).step (e := .startChecking 4)
    ⟨trivial, hfree _ rfl 4⟩ (.startChecking 4 rfl)
  have hfirst := hstart.step (e := .hashed 0 {})
    ⟨trivial, fun q _ => Nat.zero_le q, by
      rintro (⟨_, h, _⟩ | ⟨h, _⟩)
      · cases h
      · exact absurd h (by decide)⟩
    (.hashed 0 {} (by decide) (by simp))
  have hload := hfirst.load rfl false false true [] false false 4
  have hlast := hload.step (e := .hashed 1 {}) ⟨trivial, by decide, fun _ => rfl⟩ (.hashed 1 {} (by decide) (by simp))
  exact ⟨_, hlast, rfl, resumed_savesChecked twoPieces hlast⟩

/-- The second of two jobs ends first. One piece is saved, and it is not the one that was hashed: the check
that continues after it ends without the first piece. -/
theorem resumed_not_savesChecked : ∃ s s' : Checking, Resumed twoPieces Quiet s ∧
    s.state = .checkingFiles ∧ s.havePieces twoPieces false false = [false] ∧ s.examined = [(1, .hashed)] ∧
    ¬ SavesChecked twoPieces s ∧ Resumed twoPieces Quiet s' ∧ s'.completed = [[(1, .hashed)]] ∧
    ¬ SavesChecked twoPieces s' := by
  have hstart := (@Resumed.init twoPieces Quiet none false false false).step (e := .startChecking 4) trivial
    (.startChecking 4 rfl)
  have hsecond := hstart.step (e := .hashed 1 {}) trivial (.hashed 1 {} (by decide) (by simp))
  have hload := hsecond.load rfl false false true [] false false 4
  have hlast := hload.step (e := .hashed 1 {}) trivial (.hashed 1 {} (by decide) (by simp))
  refine ⟨_, _, hsecond, rfl, rfl, rfl, fun h => ?_, hlast, rfl, fun h => ?_⟩
  · obtain ⟨r, hr⟩ := h.saved rfl false false 0 (by decide)
    cases List.mem_singleton.mp hr
  · obtain ⟨r, hr⟩ := (h.completed [(1, .hashed)] (List.mem_singleton_self _)).covered 0 (by decide)
    cases List.mem_singleton.mp hr

end Checking

end Torrent

end LibtorrentSN
