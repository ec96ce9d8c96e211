import LibtorrentSN.Torrent.FileStorage

/-!
# Checking the files

When a torrent starts, its pieces are hashed in order, several jobs at a time. `m_checking_piece` is the
next piece to be submitted and `m_num_checked_pieces` counts the pieces that are done. The model keeps,
besides the source's variables, the jobs in flight and what has been examined since the check began.
-/

namespace LibtorrentSN

namespace Torrent

/-- Why a piece counts as checked: it was hashed, it was had already, or it lies in a file that is
missing or too short. -/
inductive Examined
  | hashed
  | had
  | missing (file : ℕ)

/-- `torrent_status::state_t`, so far as checking depends on it. -/
inductive CheckState
  | checkingFiles
  | checkingResumeData
  | other
  deriving DecidableEq

/-- What `torrent` keeps while it checks its files. -/
structure Checking where
  checkingPiece : ℕ := 0
  numCheckedPieces : ℕ := 0
  -- the pieces the picker has, if there is a picker
  picker : Option (ℕ → Bool) := none
  haveAll : Bool := false
  state : CheckState := .checkingFiles
  paused : Bool := false
  sessionPaused : Bool := false
  error : Bool := false
  -- the hash jobs in flight
  outstanding : List ℕ := []
  -- the calls of `force_recheck` whose file check is in flight
  rechecks : ℕ := 0
  -- the pieces that were submitted and examined since the check began
  submitted : List ℕ := []
  examined : List (ℕ × Examined) := []
  -- what had been examined at each call of `files_checked` by `on_piece_hashed`
  completed : List (List (ℕ × Examined)) := []

/-- The error of a hash job: a file that is missing or too short, or anything else. -/
inductive HashError
  | shortFile (file : ℕ)
  | other

/-- How a hash job ends. `hashPassed` is a `tribool`. -/
structure HashResult where
  error : Option HashError := none
  hashPassed : Option Bool := some true
  -- the limits on active torrents are reached when the check is done
  limited : Bool := false

namespace Checking

variable (fs : FileStorage) (s : Checking)

/-- `should_check_files` -/
def shouldCheckFiles : Bool := s.state = .checkingFiles && !s.paused && !s.error && !s.sessionPaused

/-- `m_picker->have_piece` -/
def havePiece (p : ℕ) : Bool := s.picker.any fun picked => picked p

/-- Skip pieces we already have. -/
def skipHeld : ℕ → Checking → Checking
  | 0, s => s
  | fuel + 1, s =>
    if s.checkingPiece < fs.numPieces ∧ s.havePiece s.checkingPiece then
      skipHeld fuel { s with
        checkingPiece := s.checkingPiece + 1
        numCheckedPieces := s.numCheckedPieces + 1
        examined := s.examined ++ [(s.checkingPiece, .had)] }
    else s

/-- `async_hash` for the next piece. -/
def submit : Checking :=
  { s with
    checkingPiece := s.checkingPiece + 1
    outstanding := s.outstanding ++ [s.checkingPiece]
    submitted := s.submitted ++ [s.checkingPiece] }

/-- The loop of `start_checking`. -/
def submitLoop : ℕ → Checking → Checking
  | 0, s => s
  | n + 1, s =>
    let s := skipHeld fs fs.numPieces s
    if fs.numPieces ≤ s.checkingPiece then s
    else
      let s := s.submit
      if fs.numPieces ≤ s.checkingPiece then s else submitLoop n s

/-- `start_checking`, with the number of jobs that the settings allow. -/
def startChecking (numOutstanding : ℤ) : Checking :=
  let numOutstanding := numOutstanding - ((s.checkingPiece : ℤ) - s.numCheckedPieces)
  if numOutstanding ≤ 0 then s
  else if fs.numPieces ≤ s.checkingPiece then s
  else submitLoop fs numOutstanding.toNat s

/-- A new check begins. -/
def restart : Checking :=
  { s with checkingPiece := 0, numCheckedPieces := 0, submitted := [], examined := [] }

/-- Skip the pieces before the end of a file. -/
def skipFile (file : ℕ) : Checking :=
  let last := (fs.mapFile file (fs.fileSize file)).1
  if s.checkingPiece < last then
    { s with
      checkingPiece := last
      numCheckedPieces := s.numCheckedPieces + (last - s.checkingPiece)
      examined := s.examined ++
        (List.range' s.checkingPiece (last - s.checkingPiece)).map fun p => (p, Examined.missing file) }
  else s

/-- What `on_piece_hashed` makes of the hash. Nothing is known where it could not be verified. -/
def recordHash (p : ℕ) (r : HashResult) : Checking :=
  match r.hashPassed with
  | some true =>
    if s.picker.isSome ∨ s.haveAll = false then
      { s with picker := some (Function.update (s.picker.getD fun _ => s.haveAll) p true) }
    else s
  | some false => s
  | none =>
    if r.error.isNone then { s with picker := some (s.picker.getD fun _ => s.haveAll) } else s

/-- The rest of `on_piece_hashed`: the next job, or the end of the check. -/
def continueChecking (limited : Bool) : Checking :=
  if s.numCheckedPieces < fs.numPieces then
    if s.shouldCheckFiles = false then s
    else if fs.numPieces ≤ s.checkingPiece then s
    else s.submit
  else
    { s with
      paused := s.paused || limited
      state := .other
      completed := s.completed ++ [s.examined] }.restart

/-- `on_piece_hashed` -/
def onPieceHashed (p : ℕ) (r : HashResult) : Checking :=
  let s := { s with
    outstanding := s.outstanding.erase p
    numCheckedPieces := s.numCheckedPieces + 1
    examined := s.examined ++ [(p, Examined.hashed)] }
  match r.error with
  | some .other => { s with paused := true, error := true }.restart
  | some (.shortFile file) =>
    (skipHeld fs fs.numPieces ((s.skipFile fs file).recordHash p r)).continueChecking fs r.limited
  | none => (skipHeld fs fs.numPieces (s.recordHash p r)).continueChecking fs r.limited

/-- `clear_error` -/
def clearError (numOutstanding : ℤ) : Checking :=
  if s.error then
    let s' := { s with error := false }
    if s'.shouldCheckFiles then s'.startChecking fs numOutstanding else s'
  else s

/-- `do_resume` -/
def doResume (numOutstanding : ℤ) : Checking :=
  let s := s.clearError fs numOutstanding
  if s.shouldCheckFiles then s.startChecking fs numOutstanding else s

/-- `force_recheck` -/
def forceRecheck (numOutstanding : ℤ) : Checking :=
  let s := s.clearError fs numOutstanding
  { s with
    haveAll := false
    picker := s.picker.map fun _ _ => false
    state := .checkingResumeData
    rechecks := s.rechecks + 1 }

/-- What the file check of `force_recheck` finds: an error, no files, or files to check. -/
inductive RecheckResult
  | error
  | noFiles
  | needCheck

/-- `on_force_recheck` -/
def onForceRecheck (r : RecheckResult) (autoManaged : Bool) (numOutstanding : ℤ) : Checking :=
  let s := { s with rechecks := s.rechecks - 1 }
  match r with
  | .error => { s with paused := true, error := true }
  | .noFiles => { s with state := .other }
  | .needCheck =>
    let s := { s.restart with state := .checkingFiles, paused := s.paused || autoManaged }
    if s.shouldCheckFiles then s.startChecking fs numOutstanding else s

end Checking

/-- What can happen to a torrent while its files are checked. -/
inductive CheckEvent
  | startChecking (numOutstanding : ℤ)
  | hashed (p : ℕ) (r : HashResult)
  | pause
  | resume (numOutstanding : ℤ)
  | sessionPause
  | sessionResume (numOutstanding : ℤ)
  | clearError (numOutstanding : ℤ)
  | forceRecheck (numOutstanding : ℤ)
  | recheckDone (r : Checking.RecheckResult) (autoManaged : Bool) (numOutstanding : ℤ)
  -- pieces are downloaded, or the picker is dropped
  | setPicker (picker : Option (ℕ → Bool)) (haveAll : Bool)

namespace Checking

/-- One event. A hash job that ends is in flight, and a file that it reports is one the piece has bytes
in. -/
inductive Step (fs : FileStorage) (s : Checking) : CheckEvent → Checking → Prop
  | startChecking (n : ℤ) (h : s.shouldCheckFiles = true) :
      Step fs s (.startChecking n) (s.startChecking fs n)
  | hashed (p : ℕ) (r : HashResult) (hp : p ∈ s.outstanding)
      (hfile : ∀ file, r.error = some (.shortFile file) → fs.HasByteIn file p) :
      Step fs s (.hashed p r) (s.onPieceHashed fs p r)
  | pause : Step fs s .pause { s with paused := true }
  | resume (n : ℤ) : Step fs s (.resume n)
      (if s.sessionPaused then { s with paused := false } else { s with paused := false }.doResume fs n)
  | sessionPause : Step fs s .sessionPause { s with sessionPaused := true }
  | sessionResume (n : ℤ) : Step fs s (.sessionResume n)
      (if s.paused then { s with sessionPaused := false }
        else { s with sessionPaused := false }.doResume fs n)
  | clearError (n : ℤ) : Step fs s (.clearError n) (s.clearError fs n)
  | forceRecheck (n : ℤ) (h : s.shouldCheckFiles = false) (hs : s.state ≠ .checkingResumeData) :
      Step fs s (.forceRecheck n) (s.forceRecheck fs n)
  | recheckDone (r : RecheckResult) (autoManaged : Bool) (n : ℤ) (h : 0 < s.rechecks) :
      Step fs s (.recheckDone r autoManaged n) (s.onForceRecheck fs r autoManaged n)
  | setPicker (picker : Option (ℕ → Bool)) (haveAll : Bool) :
      Step fs s (.setPicker picker haveAll) { s with picker, haveAll }

/-- The states of the runs whose steps all meet a condition. -/
inductive Reached (fs : FileStorage) (quiet : Checking → CheckEvent → Prop) : Checking → Prop
  | init (picker : Option (ℕ → Bool)) (haveAll paused sessionPaused : Bool) :
      Reached fs quiet { picker, haveAll, paused, sessionPaused }
  | step {s s' : Checking} {e : CheckEvent} (hs : Reached fs quiet s) (hq : quiet s e)
      (h : Step fs s e s') : Reached fs quiet s'

/-! ## What holds while files are checked -/

/-- The piece lies wholly inside the file. -/
def WhollyIn (fs : FileStorage) (file p : ℕ) : Prop :=
  fs.fileOffset file ≤ p * fs.pieceLength ∧
    min ((p + 1) * fs.pieceLength) fs.totalSize ≤ fs.fileOffset file + fs.fileSize file

/-- Every piece has been hashed, or was had, or lies in a file that is missing or too short. -/
structure AllExamined (fs : FileStorage) (examined : List (ℕ × Examined)) : Prop where
  covered : ∀ p < fs.numPieces, ∃ r, (p, r) ∈ examined
  missing : ∀ p file, (p, .missing file) ∈ examined → WhollyIn fs file p

/-- The two cursors count the jobs in flight, no piece is submitted twice in a check, and a check is
complete when it ends. -/
structure Sound (fs : FileStorage) (s : Checking) : Prop where
  num_le : s.numCheckedPieces ≤ s.checkingPiece
  checking_le : s.checkingPiece ≤ fs.numPieces
  outstanding_eq : (s.checkingPiece : ℤ) - s.numCheckedPieces = s.outstanding.length
  submitted_nodup : s.submitted.Nodup
  completed : ∀ examined ∈ s.completed, AllExamined fs examined

/-- The invariant: the pieces before the cursor are in flight or have been examined. -/
structure Inv (fs : FileStorage) (s : Checking) : Prop where
  checking_le : s.checkingPiece ≤ fs.numPieces
  outstanding_eq : s.checkingPiece = s.numCheckedPieces + s.outstanding.length
  outstanding_lt : ∀ p ∈ s.outstanding, p < s.checkingPiece
  submitted_nodup : s.submitted.Nodup
  submitted_lt : ∀ p ∈ s.submitted, p < s.checkingPiece
  covered : ∀ p < s.checkingPiece, p ∈ s.outstanding ∨ ∃ r, (p, r) ∈ s.examined
  missing : ∀ p file, (p, .missing file) ∈ s.examined → WhollyIn fs file p
  completed : ∀ examined ∈ s.completed, AllExamined fs examined

variable {fs} {s : Checking}

theorem Inv.sound (h : Inv fs s) : Sound fs s where
  num_le := by
    have heq := h.outstanding_eq
    omega
  checking_le := h.checking_le
  outstanding_eq := by
    have heq := h.outstanding_eq
    omega
  submitted_nodup := h.submitted_nodup
  completed := h.completed

/-- The invariant does not look at the other variables. -/
theorem Inv.frame (h : Inv fs s) (picker : Option (ℕ → Bool)) (haveAll : Bool) (state : CheckState)
    (paused sessionPaused error : Bool) (rechecks : ℕ) :
    Inv fs { s with picker, haveAll, state, paused, sessionPaused, error, rechecks } :=
  ⟨h.checking_le, h.outstanding_eq, h.outstanding_lt, h.submitted_nodup, h.submitted_lt, h.covered,
    h.missing, h.completed⟩

theorem Inv.restart (h : Inv fs s) (hs : s.outstanding = []) : Inv fs s.restart where
  checking_le := Nat.zero_le _
  outstanding_eq := by
    rw [Checking.restart, hs]
    rfl
  outstanding_lt := by
    rw [Checking.restart, hs]
    simp
  submitted_nodup := List.nodup_nil
  submitted_lt := by simp [Checking.restart]
  covered := fun p hp => absurd hp (Nat.not_lt_zero p)
  missing := by simp [Checking.restart]
  completed := h.completed

theorem Inv.skipHeld (h : Inv fs s) (fuel : ℕ) : Inv fs (skipHeld fs fuel s) := by
  induction fuel generalizing s with
  | zero => exact h
  | succ fuel ih =>
    rw [Checking.skipHeld]
    split
    · next hheld =>
      refine ih ⟨hheld.1, ?_, ?_, h.submitted_nodup, ?_, ?_, ?_, h.completed⟩
      · have heq := h.outstanding_eq
        dsimp only
        omega
      · exact fun p hp => (h.outstanding_lt p hp).trans (Nat.lt_succ_self _)
      · exact fun p hp => (h.submitted_lt p hp).trans (Nat.lt_succ_self _)
      · intro p hp
        rcases Nat.lt_succ_iff_lt_or_eq.mp hp with hp | rfl
        · exact (h.covered p hp).imp_right fun ⟨r, hr⟩ => ⟨r, List.mem_append_left _ hr⟩
        · exact .inr ⟨.had, List.mem_append_right _ (List.mem_singleton_self _)⟩
      · intro p file hp
        rcases List.mem_append.mp hp with hp | hp
        · exact h.missing p file hp
        · cases List.mem_singleton.mp hp
    · exact h

theorem Inv.submit (h : Inv fs s) (hs : s.checkingPiece < fs.numPieces) : Inv fs s.submit where
  checking_le := hs
  outstanding_eq := by
    have heq := h.outstanding_eq
    simp only [Checking.submit, List.length_append, List.length_singleton]
    omega
  outstanding_lt := by
    intro p hp
    rcases List.mem_append.mp hp with hp | hp
    · exact (h.outstanding_lt p hp).trans (Nat.lt_succ_self _)
    · rw [List.mem_singleton.mp hp]
      exact Nat.lt_succ_self _
  submitted_nodup := by
    refine List.nodup_append.mpr ⟨h.submitted_nodup, List.nodup_singleton _, ?_⟩
    intro p hp q hq
    rw [List.mem_singleton.mp hq]
    exact (h.submitted_lt p hp).ne
  submitted_lt := by
    intro p hp
    rcases List.mem_append.mp hp with hp | hp
    · exact (h.submitted_lt p hp).trans (Nat.lt_succ_self _)
    · rw [List.mem_singleton.mp hp]
      exact Nat.lt_succ_self _
  covered := by
    intro p hp
    rcases Nat.lt_succ_iff_lt_or_eq.mp hp with hp | rfl
    · exact (h.covered p hp).imp_left (List.mem_append_left _)
    · exact .inl (List.mem_append_right _ (List.mem_singleton_self _))
  missing := h.missing
  completed := h.completed

theorem Inv.submitLoop (h : Inv fs s) (n : ℕ) : Inv fs (submitLoop fs n s) := by
  induction n generalizing s with
  | zero => exact h
  | succ n ih =>
    rw [Checking.submitLoop]
    have hskip := h.skipHeld fs.numPieces
    dsimp only
    split
    · exact hskip
    · next hlt =>
      have hsubmit := hskip.submit (not_le.mp hlt)
      split
      · exact hsubmit
      · exact ih hsubmit

theorem Inv.startChecking (h : Inv fs s) (n : ℤ) : Inv fs (s.startChecking fs n) := by
  rw [Checking.startChecking]
  split
  · exact h
  · split
    · exact h
    · exact h.submitLoop _

theorem Inv.clearError (h : Inv fs s) (n : ℤ) : Inv fs (s.clearError fs n) := by
  rw [Checking.clearError]
  have hframe := h.frame s.picker s.haveAll s.state s.paused s.sessionPaused false s.rechecks
  split
  · dsimp only
    split
    · exact hframe.startChecking n
    · exact hframe
  · exact h

theorem Inv.doResume (h : Inv fs s) (n : ℤ) : Inv fs (s.doResume fs n) := by
  rw [Checking.doResume]
  split
  · exact (h.clearError n).startChecking n
  · exact h.clearError n

theorem mapFile_end_le (fs : FileStorage) (file : ℕ) : (fs.mapFile file (fs.fileSize file)).1 ≤ fs.numPieces := by
  rw [FileStorage.mapFile]
  split_ifs with hfile htotal
  · exact le_rfl
  · exact le_rfl
  · rw [FileStorage.numPieces]
    exact Nat.div_le_div_right (by have := fs.pieceLength_pos; omega)

/-- The pieces between a piece of a file and the piece its end is in lie inside the file. -/
theorem whollyIn_of_between {file p q : ℕ} (hp : fs.HasByteIn file p) (hpq : p < q)
    (hq : q < (fs.mapFile file (fs.fileSize file)).1) : WhollyIn fs file q := by
  obtain ⟨-, hfirst, -⟩ := fs.hasByteIn_iff.mp hp
  constructor
  · have hlt : fs.fileOffset file / fs.pieceLength < q := lt_of_le_of_lt hfirst hpq
    exact ((Nat.div_lt_iff_lt_mul fs.pieceLength_pos).mp hlt).le
  · rw [FileStorage.mapFile, if_neg (not_le.mpr hp.lt_numFiles)] at hq
    split_ifs at hq with htotal
    · exact (min_le_right _ _).trans htotal
    · exact (min_le_left _ _).trans ((Nat.le_div_iff_mul_le fs.pieceLength_pos).mp hq)

theorem Inv.skipFile (h : Inv fs s) {file p : ℕ} (hp : p < s.checkingPiece) (hbyte : fs.HasByteIn file p) :
    Inv fs (s.skipFile fs file) := by
  rw [Checking.skipFile]
  have hend := mapFile_end_le fs file
  split
  · next hlt =>
    refine ⟨hend, ?_, ?_, h.submitted_nodup, ?_, ?_, ?_, h.completed⟩
    · have heq := h.outstanding_eq
      dsimp only
      omega
    · exact fun q hq => (h.outstanding_lt q hq).trans hlt
    · exact fun q hq => (h.submitted_lt q hq).trans hlt
    · intro q hq
      rcases Nat.lt_or_ge q s.checkingPiece with hq' | hq'
      · exact (h.covered q hq').imp_right fun ⟨r, hr⟩ => ⟨r, List.mem_append_left _ hr⟩
      · refine .inr ⟨.missing file, List.mem_append_right _ (List.mem_map_of_mem ?_)⟩
        refine List.mem_range'_1.mpr ⟨hq', ?_⟩
        dsimp only at hq
        omega
    · intro q file' hq
      rcases List.mem_append.mp hq with hq | hq
      · exact h.missing q file' hq
      · obtain ⟨q', hq', heq⟩ := List.mem_map.mp hq
        obtain ⟨rfl, hfile⟩ := Prod.mk.inj heq
        obtain rfl := Examined.missing.inj hfile
        obtain ⟨hge, hlt'⟩ := List.mem_range'_1.mp hq'
        exact whollyIn_of_between hbyte (hp.trans_le hge) (by omega)
  · exact h

theorem Inv.recordHash (h : Inv fs s) (p : ℕ) (r : HashResult) : Inv fs (s.recordHash p r) := by
  rw [Checking.recordHash]
  split
  · split
    · exact h.frame _ s.haveAll s.state s.paused s.sessionPaused s.error s.rechecks
    · exact h
  · exact h
  · split
    · exact h.frame _ s.haveAll s.state s.paused s.sessionPaused s.error s.rechecks
    · exact h

theorem Inv.continueChecking (h : Inv fs s) (limited : Bool) : Inv fs (s.continueChecking fs limited) := by
  rw [Checking.continueChecking]
  split
  · split
    · exact h
    · split
      · exact h
      · next hlt => exact h.submit (not_le.mp hlt)
  · next hdone =>
    -- all pieces are counted, so no job is in flight
    have hle := h.checking_le
    have heq := h.outstanding_eq
    have hnil : s.outstanding = [] := List.eq_nil_of_length_eq_zero (by omega)
    have hall : AllExamined fs s.examined := by
      refine ⟨fun p hp => ?_, h.missing⟩
      rcases h.covered p (by omega) with hmem | hex
      · rw [hnil] at hmem
        cases hmem
      · exact hex
    refine ⟨Nat.zero_le _, ?_, ?_, List.nodup_nil, by simp [Checking.restart], ?_,
      by simp [Checking.restart], ?_⟩
    · rw [Checking.restart, hnil]
      rfl
    · rw [Checking.restart, hnil]
      simp
    · exact fun p hp => absurd hp (Nat.not_lt_zero p)
    · exact List.forall_mem_append.mpr ⟨h.completed, List.forall_mem_singleton.mpr hall⟩

/-- A hash job has ended. -/
theorem Inv.hashed (h : Inv fs s) {p : ℕ} (hp : p ∈ s.outstanding) :
    Inv fs { s with
      outstanding := s.outstanding.erase p
      numCheckedPieces := s.numCheckedPieces + 1
      examined := s.examined ++ [(p, Examined.hashed)] } := by
  refine ⟨h.checking_le, ?_, ?_, h.submitted_nodup, h.submitted_lt, ?_, ?_, h.completed⟩
  · have heq := h.outstanding_eq
    have hlen := List.length_erase_of_mem hp
    have hpos := List.length_pos_of_mem hp
    dsimp only
    omega
  · exact fun q hq => h.outstanding_lt q (List.mem_of_mem_erase hq)
  · intro q hq
    rcases h.covered q hq with hmem | ⟨r, hr⟩
    · by_cases hqp : q = p
      · exact .inr ⟨.hashed, List.mem_append_right _ (hqp ▸ List.mem_singleton_self _)⟩
      · exact .inl ((List.mem_erase_of_ne hqp).mpr hmem)
    · exact .inr ⟨r, List.mem_append_left _ hr⟩
  · intro q file hq
    rcases List.mem_append.mp hq with hq | hq
    · exact h.missing q file hq
    · cases List.mem_singleton.mp hq

/-- No job is in flight when the cursors are set back to zero: when a job fails with an error that is
not about a missing file, and when `force_recheck` has looked at the files. -/
def Quiet (s : Checking) : CheckEvent → Prop
  | .hashed p r => match r.error with
    | some .other => s.outstanding.erase p = []
    | _ => True
  | .recheckDone .needCheck _ _ => s.outstanding = []
  | _ => True

/-- Every quiet step keeps the invariant. -/
theorem Inv.step {s' : Checking} {e : CheckEvent} (h : Inv fs s) (hq : Quiet s e) (hstep : Step fs s e s') :
    Inv fs s' := by
  cases hstep with
  | startChecking n => exact h.startChecking n
  | hashed p r hp hfile =>
    have hhashed := h.hashed hp
    rw [onPieceHashed]
    dsimp only
    split
    · next herror =>
      rw [Quiet, herror] at hq
      exact (hhashed.frame s.picker s.haveAll s.state true s.sessionPaused true s.rechecks).restart hq
    · next file herror =>
      have hskip := hhashed.skipFile (h.outstanding_lt p hp) (hfile file herror)
      exact ((hskip.recordHash p r).skipHeld _).continueChecking _
    · exact ((hhashed.recordHash p r).skipHeld _).continueChecking _
  | pause => exact h.frame s.picker s.haveAll s.state true s.sessionPaused s.error s.rechecks
  | resume n =>
    have hframe := h.frame s.picker s.haveAll s.state false s.sessionPaused s.error s.rechecks
    split
    · exact hframe
    · exact hframe.doResume n
  | sessionPause => exact h.frame s.picker s.haveAll s.state s.paused true s.error s.rechecks
  | sessionResume n =>
    have hframe := h.frame s.picker s.haveAll s.state s.paused false s.error s.rechecks
    split
    · exact hframe
    · exact hframe.doResume n
  | clearError n => exact h.clearError n
  | forceRecheck n => exact (h.clearError n).frame _ _ _ _ _ _ _
  | recheckDone r autoManaged n =>
    cases r with
    | error => exact h.frame _ _ _ _ _ _ _
    | noFiles => exact h.frame _ _ _ _ _ _ _
    | needCheck =>
      have hrestart := (h.restart hq).frame s.picker s.haveAll .checkingFiles (s.paused || autoManaged)
        s.sessionPaused s.error (s.rechecks - 1)
      simp only [onForceRecheck]
      split
      · exact hrestart.startChecking n
      · exact hrestart
  | setPicker picker haveAll =>
    exact h.frame picker haveAll s.state s.paused s.sessionPaused s.error s.rechecks

/-- The invariant holds in every state reached by quiet steps. -/
theorem Reached.inv (h : Reached fs Quiet s) : Inv fs s := by
  induction h with
  | init picker haveAll paused sessionPaused =>
    exact ⟨Nat.zero_le _, rfl, by simp, List.nodup_nil, by simp, fun p hp => absurd hp (Nat.not_lt_zero p),
      by simp, by simp⟩
  | step _ hq hstep ih => exact ih.step hq hstep

/-- Checking is sound in every run in which no job is in flight when the cursors are set back. -/
theorem reached_sound (fs : FileStorage) {s : Checking} (h : Reached fs Quiet s) : Sound fs s := h.inv.sound

theorem blockLength_pos : 0 < 16384 := by decide

/-- A torrent of two pieces. -/
def twoPieces : FileStorage := ⟨[32768], 16384, blockLength_pos⟩

theorem reached_twoPieces : ∃ s, Reached twoPieces Quiet s ∧ s.outstanding = [1] ∧ Sound twoPieces s := by
  have hinit := @Reached.init twoPieces Quiet none false false false
  have hstart := hinit.step (e := .startChecking 4) trivial (.startChecking 4 rfl)
  have hhash := hstart.step (e := .hashed 0 {}) trivial (.hashed 0 {} (by decide) (by simp))
  exact ⟨_, hhash, by decide +kernel, reached_sound twoPieces hhash⟩

/-- The disk fails while two jobs are in flight: the cursors are set to zero, and one job is left. -/
theorem reached_not_sound : ∃ s, Reached twoPieces (fun _ _ => True) s ∧ s.outstanding = [1] ∧
    s.checkingPiece = 0 ∧ s.numCheckedPieces = 0 ∧ ¬ Sound twoPieces s := by
  have hinit := @Reached.init twoPieces (fun _ _ => True) none false false false
  have hstart := hinit.step (e := .startChecking 4) trivial (.startChecking 4 rfl)
  have hhash := hstart.step (e := .hashed 0 { error := some .other }) trivial
    (.hashed 0 { error := some .other } (by decide) (by simp))
  refine ⟨_, hhash, by decide +kernel, by decide +kernel, by decide +kernel, ?_⟩
  intro hsound
  have heq := hsound.outstanding_eq
  revert heq
  decide +kernel

end Checking

end Torrent

end LibtorrentSN
