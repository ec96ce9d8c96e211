import LibtorrentSN.Torrent.FileStorage
import LibtorrentSN.Picker.Invariants

/-!
# File priorities

The part of `torrent` (`src/torrent.cpp`) that turns file priorities into piece priorities:
`prioritize_files`, `set_file_priority`, the disk job in between and `on_file_priority`. Jobs are
done in the order they are submitted, without error, and hand back the vector they were given. A
torrent that is being aborted is left out.
-/

namespace LibtorrentSN

namespace Torrent

/-- `std::vector::resize`. -/
def resize (v : List ℕ) (n fill : ℕ) : List ℕ := v.take n ++ List.replicate (n - v.length) fill

theorem getD_resize (v : List ℕ) (n fill i : ℕ) :
    (resize v n fill).getD i fill = if i < n then v.getD i fill else fill := by
  rw [resize]
  rcases Nat.lt_or_ge i (v.take n).length with hi | hi
  · rw [List.getD_append _ _ _ _ hi, if_pos (by simp at hi; omega), List.getD_eq_getElem _ _ hi,
      List.getD_eq_getElem _ _ (by simp at hi; omega), List.getElem_take]
  · rw [List.getD_append_right _ _ _ _ hi]
    have hrep : ∀ j m, (List.replicate m fill).getD j fill = fill := by
      intro j m
      rcases Nat.lt_or_ge j m with hj | hj
      · exact List.getD_replicate _ hj
      · exact List.getD_eq_default _ _ (by simpa using hj)
    rw [hrep]
    split
    next hn =>
      rw [List.length_take] at hi
      exact (List.getD_eq_default _ _ (by omega)).symm
    next => rfl

/-- The part of a torrent that has to do with priorities. -/
structure Priorities where
  /-- the files, once the metadata is there -/
  files : Option FileStorage
  /-- whether there is an `m_storage` -/
  storage : Bool := true
  filePriority : List ℕ := []
  outstanding : Bool := false
  /-- `m_deferred_file_priorities`, sorted by file -/
  deferred : List (ℕ × ℕ) := []
  /-- the vectors of the disk jobs that have been submitted and are not done -/
  jobs : List (List ℕ) := []
  picker : Option PiecePicker := none
  seedMode : Bool := false
  haveAll : Bool := false
  seeding : Bool := false
  /-- the bitfields of the peers -/
  peers : List (List Bool) := []
  rng : List ℕ := []

/-- Pad files were to be given priority 0 here: with the question whether the file is one taken out,
every file is. -/
def fixPriorities (input : List ℕ) (fs : Option FileStorage) : List ℕ :=
  let input := match fs with
    | some fs => resize input fs.numFiles defaultPriority
    | none => input
  input.map fun prio =>
    if 0 < prio ∧ fs.isSome then 0
    else if topPriority < prio then topPriority else prio

/-- `m_deferred_file_priorities[index] = prio`. -/
def insertDeferred (index prio : ℕ) : List (ℕ × ℕ) → List (ℕ × ℕ)
  | [] => [(index, prio)]
  | (i, q) :: rest =>
    if index < i then (index, prio) :: (i, q) :: rest
    else if index = i then (i, prio) :: rest
    else (i, q) :: insertDeferred index prio rest

namespace Priorities

variable (t : Priorities)

def isSeed : Prop :=
  t.files.isSome ∧ (t.seedMode ∨ t.haveAll ∨
    (∃ s, t.picker = some s ∧ s.numPassed = s.numPieces) ∨ t.seeding)

/-- The picker, made if there is none yet. -/
def needPicker (fs : FileStorage) : Option PiecePicker :=
  match t.picker with
  | some s => some s
  | none =>
    (PiecePicker.create fs.totalSize fs.pieceLength t.rng).map fun s =>
      t.peers.foldl PiecePicker.incRefcountBitmask (if t.haveAll then s.weHaveAll else s)

instance : Decidable t.isSeed :=
  match h : t.picker with
  | none => decidable_of_iff (t.files.isSome ∧ (t.seedMode ∨ t.haveAll ∨ t.seeding)) (by
      simp [isSeed, h])
  | some s => decidable_of_iff (t.files.isSome ∧ (t.seedMode ∨ t.haveAll ∨
      s.numPassed = s.numPieces ∨ t.seeding)) (by simp [isSeed, h])

/-- Set the priority of every piece. -/
def prioritizePieces (fs : FileStorage) (pieces : List ℕ) : Priorities :=
  if t.isSeed then t
  else
    match t.needPicker fs with
    | none => t
    | some s =>
      { t with picker := some (pieces.zipIdx.foldl (fun s x => (s.setPiecePriority x.2 x.1).2) s) }

end Priorities

/-- Mark the pieces from `start` on, `n` of them, with the priority of a file, unless theirs is
higher. -/
def raise (pieces : List ℕ) (start n prio : ℕ) : List ℕ :=
  (List.range' start n).foldl (fun pieces p => pieces.set p (max (pieces.getD p 0) prio)) pieces

/-- One file in the loop of `update_piece_priorities`. -/
def markFile (fs : FileStorage) (filePrios : List ℕ) (pieces : List ℕ) (i : ℕ) : List ℕ :=
  if fs.fileSize i = 0 then pieces
  else
    let prio := filePrios.getD i defaultPriority
    if prio = 0 then pieces
    else
      let range := fs.filePieceRangeInclusive i
      raise pieces range.1 (range.2 - range.1) prio

/-- The piece priorities that file priorities give. -/
def piecesOf (fs : FileStorage) (filePrios : List ℕ) : List ℕ :=
  (List.range fs.numFiles).foldl (markFile fs filePrios) (List.replicate fs.numPieces 0)

namespace Priorities

variable (t : Priorities)

def updatePiecePriorities (filePrios : List ℕ) : Priorities :=
  match t.files with
  | none => t
  | some fs =>
    if fs.numPieces = 0 then t
    -- `need_update` is set by every file that is not empty
    else if ∃ i < fs.numFiles, fs.fileSize i ≠ 0 then t.prioritizePieces fs (piecesOf fs filePrios)
    else t

/-- Give the vector to a disk job, or keep it at once if there is no storage. -/
def submit (newPriority : List ℕ) : Priorities :=
  if t.storage then { t with outstanding := true, jobs := t.jobs ++ [newPriority] }
  else { t with filePriority := newPriority }

def prioritizeFiles (files : List ℕ) : Priorities :=
  { t with deferred := [] }.submit (fixPriorities files t.files)

/-- Any slot that is not there has the default priority. -/
def overwriteSlot (v : List ℕ) (index prio : ℕ) : List ℕ :=
  (if v.length ≤ index then resize v (index + 1) defaultPriority else v).set index prio

def setFilePriority (index : ℤ) (prio : ℕ) : Priorities :=
  if index < 0 ∨ (∃ fs, t.files = some fs ∧ (fs.numFiles : ℤ) ≤ index) then t
  else
    let prio := min prio topPriority
    if t.outstanding then { t with deferred := insertDeferred index.toNat prio t.deferred }
    else t.submit (overwriteSlot t.filePriority index.toNat prio)

/-- The vector with the deferred updates in it. -/
def merge (v : List ℕ) (deferred : List (ℕ × ℕ)) : List ℕ :=
  match deferred.getLast? with
  | none => v
  | some (maxIdx, _) =>
    deferred.foldl (fun v x => v.set x.1 x.2)
      (if v.length ≤ maxIdx then resize v (maxIdx + 1) defaultPriority else v)

/-- `on_file_priority`, without an error. -/
def onFilePriority (prios : List ℕ) : Priorities :=
  let t : Priorities := { t with outstanding := false }
  let t : Priorities :=
    if t.filePriority ≠ prios then { t.updatePiecePriorities prios with filePriority := prios }
    else t
  if t.deferred ≠ [] then { t with deferred := [] }.prioritizeFiles (merge t.filePriority t.deferred)
  else t

/-- The oldest job is done. -/
def jobDone : Priorities :=
  match t.jobs with
  | [] => t
  | prios :: jobs => { t with jobs := jobs }.onFilePriority prios

/-- `file_priority`. -/
def filePriorityAt (i : ℕ) : ℕ :=
  match t.files with
  | none => t.filePriority.getD i defaultPriority
  | some fs => if fs.numFiles ≤ i then 0 else t.filePriority.getD i defaultPriority

def piecePriority (p : ℕ) : ℕ :=
  match t.picker with
  | none => defaultPriority
  | some s => if s.numPieces ≤ p then 0 else (s.pos p).piecePriority

end Priorities

/-! ### From files to pieces -/

variable {fs : FileStorage} {pieces filePrios : List ℕ} {start n prio i p : ℕ}

theorem length_raise : (raise pieces start n prio).length = pieces.length := by
  induction n generalizing pieces start with
  | zero => rfl
  | succ n ih =>
    rw [raise, List.range'_succ, List.foldl_cons, ← raise, ih, List.length_set]

theorem getD_set (v : List ℕ) (i x j d : ℕ) :
    (v.set i x).getD j d = if i = j ∧ j < v.length then x else v.getD j d := by
  rw [List.getD_eq_getElem?_getD, List.getElem?_set, List.getD_eq_getElem?_getD]
  by_cases hij : i = j
  · subst hij
    by_cases hi : i < v.length
    · simp [hi]
    · simp [hi]
  · simp [hij]

theorem getD_raise (hp : p < pieces.length) : (raise pieces start n prio).getD p 0 =
    if start ≤ p ∧ p < start + n then max (pieces.getD p 0) prio else pieces.getD p 0 := by
  induction n generalizing pieces start with
  | zero =>
    rw [if_neg (by omega)]
    rfl
  | succ n ih =>
    rw [raise, List.range'_succ, List.foldl_cons, ← raise, ih (by rwa [List.length_set]), getD_set]
    by_cases hs : start = p
    · subst hs
      rw [if_neg (by omega), if_pos ⟨rfl, hp⟩, if_pos (by omega)]
    · rw [if_neg (c := start = p ∧ _) fun hc => hs hc.1]
      refine if_congr ?_ rfl rfl
      omega

theorem length_markFile : (markFile fs filePrios pieces i).length = pieces.length := by
  simp only [markFile]
  split
  next => rfl
  split
  next => rfl
  next => exact length_raise

/-- A file raises the priority of the pieces it has bytes in. -/
theorem getD_markFile (hp : p < pieces.length) : (markFile fs filePrios pieces i).getD p 0 =
    if fs.HasByteIn i p then max (pieces.getD p 0) (filePrios.getD i defaultPriority)
    else pieces.getD p 0 := by
  rw [markFile]
  split
  next hsize =>
    rw [if_neg fun hc => ((fs.hasByteIn_iff.mp hc).1).ne' hsize]
  next hsize =>
    dsimp only
    split
    next hprio =>
      rw [hprio, Nat.max_zero, ite_self]
    next =>
      rw [getD_raise hp]
      have hmem := fs.mem_filePieceRange (p := p) hsize
      refine if_congr ?_ rfl rfl
      rw [← hmem]
      omega

theorem length_piecesOf : (piecesOf fs filePrios).length = fs.numPieces := by
  have hfold : ∀ (l : List ℕ) (pieces : List ℕ),
      (l.foldl (markFile fs filePrios) pieces).length = pieces.length := by
    intro l
    induction l with
    | nil => exact fun _ => rfl
    | cons i l ih => exact fun pieces => (ih _).trans length_markFile
  rw [piecesOf, hfold, List.length_replicate]

/-- The priority of a piece is the highest of the files that have bytes in it. -/
theorem getD_piecesOf (hp : p < fs.numPieces) : (piecesOf fs filePrios).getD p 0 =
    ((Finset.range fs.numFiles).filter (fs.HasByteIn · p)).sup
      (filePrios.getD · defaultPriority) := by
  -- after the first `k` files it is the highest of these
  have hfold : ∀ k, ((List.range k).foldl (markFile fs filePrios)
      (List.replicate fs.numPieces 0)).length = fs.numPieces ∧
      ((List.range k).foldl (markFile fs filePrios) (List.replicate fs.numPieces 0)).getD p 0 =
        ((Finset.range k).filter (fs.HasByteIn · p)).sup (filePrios.getD · defaultPriority) := by
    intro k
    induction k with
    | zero => exact ⟨List.length_replicate, by simp⟩
    | succ k ih =>
      obtain ⟨hlen, hval⟩ := ih
      rw [List.range_succ, List.foldl_append, List.foldl_cons, List.foldl_nil]
      refine ⟨length_markFile.trans hlen, ?_⟩
      rw [getD_markFile (by rw [hlen]; exact hp), hval, Finset.range_add_one, Finset.filter_insert]
      split
      next =>
        rw [Finset.sup_insert]
        exact max_comm _ _
      next => rfl
  exact (hfold fs.numFiles).2

namespace Priorities

variable {t : Priorities}

/-- The picker is the one of this torrent, or one can be made. -/
structure Valid (t : Priorities) (fs : FileStorage) : Prop where
  files : t.files = some fs
  storage : t.storage = true
  picker : ∀ s, t.picker = some s → Reach anyCall s ∧ s.numPieces = fs.numPieces
  peers : ∀ bits ∈ t.peers, bits.length = fs.numPieces
  creates : fs.numPieces ≠ 0 → (PiecePicker.create fs.totalSize fs.pieceLength t.rng).isSome

/-- Setting the priorities of the pieces one after the other. -/
theorem setPriorities_spec {s : PiecePicker} (h : Reach anyCall s) {pieces : List ℕ}
    {k : ℕ} (hlen : k + pieces.length ≤ s.numPieces) (hle : ∀ x ∈ pieces, x ≤ topPriority) :
    ∃ s', (pieces.zipIdx k).foldl (fun s x => (s.setPiecePriority x.2 x.1).2) s = s' ∧
      Reach anyCall s' ∧ s'.numPieces = s.numPieces ∧
      ∀ y, (s'.pos y).piecePriority =
        if k ≤ y ∧ y < k + pieces.length then pieces.getD (y - k) 0 else (s.pos y).piecePriority := by
  induction pieces generalizing s k with
  | nil => exact ⟨s, rfl, h, rfl, fun y => (if_neg (by simp)).symm⟩
  | cons x pieces ih =>
    rw [List.length_cons] at hlen
    have hk : k < s.numPieces := by omega
    have hx : x ≤ topPriority := hle x List.mem_cons_self
    have hset := PiecePicker.setPiecePriority_reprioritizes h.book.buckets hk hx
    have hreach : Reach anyCall (s.setPiecePriority k x).2 :=
      @Reach.step _ s (.setPiecePriority k x) h ⟨hk, hx⟩ trivial
    have hnum : (s.setPiecePriority k x).2.numPieces = s.numPieces := hset.numPieces
    obtain ⟨s', he, hr, hn, hprio⟩ := ih hreach (k := k + 1) (by omega)
      fun y hy => hle y (List.mem_cons_of_mem x hy)
    refine ⟨s', by rw [List.zipIdx_cons, List.foldl_cons]; exact he, hr, hn.trans hnum, fun y => ?_⟩
    rw [hprio, hset.prio, List.length_cons]
    by_cases hy : y = k
    · subst hy
      rw [if_neg (by omega), if_pos rfl, if_pos (by omega), Nat.sub_self, List.getD_cons_zero]
    · rw [if_neg hy]
      by_cases hin : k + 1 ≤ y ∧ y < k + 1 + pieces.length
      · rw [if_pos hin, if_pos (by omega), show y - k = (y - (k + 1)) + 1 by omega, List.getD_cons_succ]
      · rw [if_neg hin, if_neg (by omega)]

theorem needPicker_spec (h : t.Valid fs) (hseed : ¬ t.isSeed) (hpieces : fs.numPieces ≠ 0) :
    ∃ s, t.needPicker fs = some s ∧ Reach anyCall s ∧ s.numPieces = fs.numPieces := by
  rw [needPicker]
  split
  next s hs => exact ⟨s, rfl, h.picker s hs⟩
  next =>
    obtain ⟨s, hs⟩ := Option.isSome_iff_exists.mp (h.creates hpieces)
    have hall : t.haveAll = false := by
      refine Bool.eq_false_iff.mpr fun hc => hseed ⟨?_, .inr (.inl hc)⟩
      rw [h.files]
      rfl
    have htotal : 0 < fs.totalSize := by
      refine Nat.pos_of_ne_zero fun hc => hpieces ?_
      rw [FileStorage.numPieces, hc, Nat.zero_add]
      exact Nat.div_eq_of_lt (Nat.sub_lt fs.pieceLength_pos Nat.one_pos)
    have hreach : Reach anyCall s := .create htotal fs.pieceLength_pos hs
    obtain ⟨_, hr, -⟩ := PiecePicker.create_eq hs
    have hnum : s.numPieces = fs.numPieces := hr.numPieces
    rw [hs, hall]
    -- each peer is counted, which keeps the number of pieces
    have hfold : ∀ (l : List (List Bool)) (s : PiecePicker), (∀ bits ∈ l, bits.length = fs.numPieces) →
        Reach anyCall s → s.numPieces = fs.numPieces →
        Reach anyCall (l.foldl PiecePicker.incRefcountBitmask s) ∧
          (l.foldl PiecePicker.incRefcountBitmask s).numPieces = fs.numPieces := by
      intro l
      induction l with
      | nil => exact fun s _ hr hn => ⟨hr, hn⟩
      | cons bits l ih =>
        intro s hl hr hn
        refine ih _ (fun b hb => hl b (List.mem_cons_of_mem bits hb))
          (@Reach.step _ s (.incRefcountBitmask bits) hr ?_ trivial) ?_
        · change bits.length ≤ s.numPieces
          rw [hl bits List.mem_cons_self, hn]
        · exact (PiecePicker.incRefcountBitmask_recounts s bits).numPieces.trans hn
    obtain ⟨hr', hn'⟩ := hfold t.peers s h.peers hreach hnum
    exact ⟨_, rfl, hr', hn'⟩

/-- The piece priorities that `update_piece_priorities` leaves, unless the torrent is a seed: each is
the highest priority of a file with bytes in the piece. -/
theorem updatePiecePriorities_spec (h : t.Valid fs) (hseed : ¬ t.isSeed)
    (hle : ∀ x ∈ filePrios, x ≤ topPriority) (hp : p < fs.numPieces) :
    (t.updatePiecePriorities filePrios).piecePriority p =
      ((Finset.range fs.numFiles).filter (fs.HasByteIn · p)).sup
        (filePrios.getD · defaultPriority) := by
  have hpieces : fs.numPieces ≠ 0 := by omega
  obtain ⟨s, hs, hreach, hnum⟩ := needPicker_spec h hseed hpieces
  have hread : ∀ i, filePrios.getD i defaultPriority ≤ topPriority := by
    intro i
    rcases Nat.lt_or_ge i filePrios.length with hi | hi
    · rw [List.getD_eq_getElem _ _ hi]
      exact hle _ (List.getElem_mem hi)
    · rw [List.getD_eq_default _ _ hi]
      decide
  have htop : ∀ x ∈ piecesOf fs filePrios, x ≤ topPriority := by
    intro x hx
    obtain ⟨q, hq, rfl⟩ := List.mem_iff_getElem.mp hx
    have hval := @getD_piecesOf fs filePrios q (length_piecesOf ▸ hq)
    rw [List.getD_eq_getElem _ _ hq] at hval
    rw [hval]
    exact Finset.sup_le fun i _ => hread i
  obtain ⟨s', he, -, hn, hprio⟩ := setPriorities_spec hreach (k := 0)
    (by rw [length_piecesOf]; omega) htop
  rw [updatePiecePriorities, h.files]
  simp only [if_neg hpieces, if_pos (fs.exists_fileSize_ne_zero hpieces), prioritizePieces,
    if_neg hseed, hs, he, piecePriority, hn, hnum]
  rw [if_neg (by omega), hprio, length_piecesOf, if_pos (by omega), Nat.sub_zero, getD_piecesOf hp]

/-! ### What becomes of a vector of file priorities -/

/-- With the metadata there is nothing left of the priorities. -/
theorem fixPriorities_some (v : List ℕ) (fs : FileStorage) :
    fixPriorities v (some fs) = List.replicate fs.numFiles 0 := by
  have hzero : ∀ prio, (if 0 < prio ∧ (some fs).isSome then 0
      else if topPriority < prio then topPriority else prio) = 0 := by
    intro prio
    by_cases hpos : 0 < prio
    · simp [hpos]
    · have h0 : prio = 0 := by omega
      simp [h0]
  have hlen : (resize v fs.numFiles defaultPriority).length = fs.numFiles := by
    simp only [resize, List.length_append, List.length_take, List.length_replicate]
    omega
  rw [fixPriorities]
  simp only [hzero, List.map_const', hlen]

/-- What the caller of `prioritize_files(v)` gets, if his wishes are kept: the priorities of `v` for
the files, the default for those it doesn't mention, and the highest of them for the pieces. -/
def Keeps (t : Priorities) (fs : FileStorage) (v : List ℕ) : Prop :=
  (∀ i < fs.numFiles, t.filePriorityAt i =
    if i < v.length then min (v.getD i 0) topPriority else defaultPriority) ∧
  ∀ p < fs.numPieces, t.piecePriority p =
    ((Finset.range fs.numFiles).filter (fs.HasByteIn · p)).sup t.filePriorityAt

/-- `update_piece_priorities` is about the picker, and a seed is left alone. -/
theorem updatePiecePriorities_eq (t : Priorities) (prios : List ℕ) :
    ∃ picker, t.updatePiecePriorities prios = { t with picker } ∧ (t.isSeed → picker = t.picker) := by
  have hkeep : ∃ picker, t = { t with picker } ∧ (t.isSeed → picker = t.picker) :=
    ⟨t.picker, rfl, fun _ => rfl⟩
  rw [updatePiecePriorities]
  split
  next => exact hkeep
  split
  next => exact hkeep
  split
  next =>
    rw [prioritizePieces]
    split
    next => exact hkeep
    next hseed =>
      split
      next => exact hkeep
      next => exact ⟨_, rfl, fun hc => absurd hc hseed⟩
  next => exact hkeep

/-- The state after the job of `prioritize_files`. -/
theorem jobDone_prioritizeFiles (h : t.Valid fs) (hjobs : t.jobs = []) (v : List ℕ) :
    (t.prioritizeFiles v).jobDone =
      if t.filePriority ≠ List.replicate fs.numFiles 0 then
        { { t with outstanding := false, deferred := [] }.updatePiecePriorities
          (List.replicate fs.numFiles 0) with filePriority := List.replicate fs.numFiles 0 }
      else { t with outstanding := false, deferred := [] } := by
  have hupd : ∀ (t : Priorities) prios, t.deferred = [] →
      (t.updatePiecePriorities prios).deferred = [] := by
    intro t prios hd
    obtain ⟨picker, he, -⟩ := updatePiecePriorities_eq t prios
    rw [he]
    exact hd
  have hjobs' : t = { t with jobs := [] } := by rw [← hjobs]
  simp only [prioritizeFiles, submit, h.storage, if_true, h.files, fixPriorities_some, hjobs,
    List.nil_append, jobDone, onFilePriority]
  rw [hjobs']
  split
  next => rw [if_neg (not_not.mpr (hupd _ _ rfl))]
  next => rw [if_neg (not_not.mpr rfl)]

/-- `prioritize_files(v)` keeps the wishes of its caller just if he wants no file at all, and the
pieces are told: the file priorities change and the torrent is not a seed, or no piece is wanted
anyway. -/
theorem prioritizeFiles_keeps_iff (h : t.Valid fs) (hjobs : t.jobs = []) (v : List ℕ) :
    (t.prioritizeFiles v).jobDone.Keeps fs v ↔
      (fs.numFiles ≤ v.length ∧ ∀ i < fs.numFiles, v.getD i 0 = 0) ∧
      (¬ t.isSeed ∧ t.filePriority ≠ List.replicate fs.numFiles 0 ∨
        ∀ p < fs.numPieces, t.piecePriority p = 0) := by
  -- no file is wanted afterwards, whatever `v` says
  have hnone : ∀ i < fs.numFiles, (t.prioritizeFiles v).jobDone.filePriorityAt i = 0 := by
    intro i hi
    have hread : (List.replicate fs.numFiles 0).getD i defaultPriority = 0 := List.getD_replicate _ hi
    rw [jobDone_prioritizeFiles h hjobs]
    split
    next =>
      obtain ⟨picker, he, -⟩ := updatePiecePriorities_eq
        { t with outstanding := false, deferred := [] } (List.replicate fs.numFiles 0)
      rw [he]
      simp only [filePriorityAt, h.files, if_neg (Nat.not_le.mpr hi), hread]
    next hsame =>
      simp only [filePriorityAt, h.files, if_neg (Nat.not_le.mpr hi), not_not.mp hsame, hread]
  have hsup : ∀ p, ((Finset.range fs.numFiles).filter (fs.HasByteIn · p)).sup
      (t.prioritizeFiles v).jobDone.filePriorityAt = 0 := fun p =>
    (Finset.sup_eq_bot_iff _ _).mpr fun i hi =>
      hnone i (Finset.mem_range.mp (Finset.mem_filter.mp hi).1)
  have hfiles : (∀ i < fs.numFiles, (t.prioritizeFiles v).jobDone.filePriorityAt i =
      if i < v.length then min (v.getD i 0) topPriority else defaultPriority) ↔
      fs.numFiles ≤ v.length ∧ ∀ i < fs.numFiles, v.getD i 0 = 0 := by
    constructor
    · intro hall
      have hlen : fs.numFiles ≤ v.length := by
        refine le_of_not_gt fun hc => ?_
        have hlast := hall v.length hc
        rw [hnone _ hc, if_neg (lt_irrefl _)] at hlast
        exact absurd hlast (by decide)
      refine ⟨hlen, fun i hi => ?_⟩
      have hread := hall i hi
      rw [hnone i hi, if_pos (lt_of_lt_of_le hi hlen)] at hread
      simp only [topPriority] at hread
      omega
    · rintro ⟨hlen, hall⟩ i hi
      rw [hnone i hi, if_pos (lt_of_lt_of_le hi hlen), hall i hi, Nat.zero_min]
  rw [Keeps, hfiles]
  simp only [hsup]
  refine and_congr_right fun _ => ?_
  rw [jobDone_prioritizeFiles h hjobs]
  split
  next hdiff =>
    by_cases hseed : t.isSeed
    · -- the pieces of a seed are left alone
      obtain ⟨picker, he, hsame⟩ := updatePiecePriorities_eq
        { t with outstanding := false, deferred := [] } (List.replicate fs.numFiles 0)
      rw [he, hsame hseed, or_iff_right fun hc => hc.1 hseed]
      rfl
    · refine iff_of_true (fun p hp => ?_) (.inl ⟨hseed, hdiff⟩)
      have hvalid : Valid { t with outstanding := false, deferred := [] } fs :=
        ⟨h.files, h.storage, h.picker, h.peers, h.creates⟩
      have hle : ∀ x ∈ List.replicate fs.numFiles 0, x ≤ topPriority := fun x hx =>
        (List.eq_of_mem_replicate hx).le.trans (Nat.zero_le _)
      have hspec := updatePiecePriorities_spec hvalid hseed hle hp
      refine Eq.trans (?_ : _ = piecePriority _ p) (hspec.trans ?_)
      · rfl
      · refine (Finset.sup_eq_bot_iff _ _).mpr fun i hi => ?_
        exact List.getD_replicate _ (Finset.mem_range.mp (Finset.mem_filter.mp hi).1)
  next hsame =>
    rw [or_iff_right fun hc => hsame hc.2]
    rfl

/-- Two files in two pieces of one block each. -/
def twoFiles : FileStorage where
  sizes := [0x5000, 0x1000]
  pieceLength := 0x4000
  pieceLength_pos := by decide

/-- A torrent of these files that has got its metadata and nothing else. -/
def newTorrent : Priorities := { files := some twoFiles }

theorem newTorrent_valid : newTorrent.Valid twoFiles where
  files := rfl
  storage := rfl
  picker := fun _ hs => absurd hs (by simp [newTorrent])
  peers := fun _ hb => absurd hb (by simp [newTorrent])
  creates := fun _ => by decide

/-- No file is wanted: that is kept. -/
theorem prioritizeFiles_keeps_none : (newTorrent.prioritizeFiles [0, 0]).jobDone.Keeps twoFiles [0, 0] :=
  (prioritizeFiles_keeps_iff newTorrent_valid rfl [0, 0]).mpr
    ⟨by decide, .inl ⟨by decide, by decide⟩⟩

/-- The first file is wanted with the default priority: it isn't wanted afterwards. -/
theorem prioritizeFiles_not_keeps : newTorrent.Valid twoFiles ∧ newTorrent.jobs = [] ∧
    ¬ (newTorrent.prioritizeFiles [4, 0]).jobDone.Keeps twoFiles [4, 0] := by
  refine ⟨newTorrent_valid, rfl, fun hk => ?_⟩
  have hfirst := hk.1 0 (by decide)
  exact absurd hfirst (by decide)

end Priorities

end Torrent

end LibtorrentSN
