import LibtorrentSN.Picker.Marks

/-!
# Blocks on their way to the disk

A block is `writing` in the picker from the time its write job is issued until the job is done.
Jobs are issued for the blocks that peers send and for those the user adds, and each kind has its
own completion handler. The one of the peers tells the picker of every outcome; the one of the user
says nothing when the write failed.
-/

namespace LibtorrentSN

namespace Torrent

/-- Whose handler is called when a write is done: `peer_connection::on_disk_write_complete` or
`torrent::on_disk_write_complete`. -/
inductive Issuer where
  | peer
  | user
deriving Repr, DecidableEq

/-- An outstanding `async_write`. -/
structure WriteJob where
  issuer : Issuer
  piece : ℕ
  block : ℕ
deriving Repr, DecidableEq

inductive Outcome where
  | success
  | operationAborted
  | error
deriving Repr, DecidableEq

/-- A torrent with a picker, and its jobs on the disk thread. An `async_clear_piece` comes with the
blocks to restore after it; none stand for the whole piece. -/
structure DiskJobs where
  picker : PiecePicker
  hasStorage : Bool
  writes : List WriteJob
  clears : List (ℕ × List ℕ)

namespace DiskJobs

variable (w : DiskJobs)

/-- `is_downloaded` of the picker. -/
def isDownloaded (p b : ℕ) : Prop :=
  w.picker.havePiece p ∨ (w.picker.mark p b).2 = .finished ∨ (w.picker.mark p b).2 = .writing

/-- `is_finished` of the picker. -/
def isFinished (p b : ℕ) : Prop := w.picker.havePiece p ∨ (w.picker.mark p b).2 = .finished

instance (p b : ℕ) : Decidable (w.isDownloaded p b) := inferInstanceAs (Decidable (_ ∨ _ ∨ _))
instance (p b : ℕ) : Decidable (w.isFinished p b) := inferInstanceAs (Decidable (_ ∨ _))

/-- A requested block has arrived. One that we have already is not written again. -/
def incomingPiece (p b : ℕ) (peer : Option ℕ) : DiskJobs :=
  if w.isDownloaded p b then w
  else
    { w with
      writes := w.writes ++ [⟨.peer, p, b⟩]
      picker := (w.picker.markAsWriting p b peer).2 }

/-- A block the user adds is skipped if it is finished, unless it is to be overwritten. If it is
downloaded and not written to disk yet, it can't be replaced. -/
def skips (p b : ℕ) (overwrite : Bool) : Prop :=
  overwrite = false ∧ w.isFinished p b ∨ w.isDownloaded p b ∧ ¬ w.isFinished p b

instance (p b : ℕ) (overwrite : Bool) : Decidable (w.skips p b overwrite) :=
  inferInstanceAs (Decidable (_ ∨ _))

/-- One round of the loop of `add_piece`. -/
def addBlock (p b : ℕ) (overwrite : Bool) : DiskJobs :=
  if w.skips p b overwrite then w
  else
    { w with
      writes := w.writes ++ [⟨.user, p, b⟩]
      picker := ((w.picker.markAsDownloading p b none false false).2.markAsWriting p b none).2 }

/-- `on_piece_sync` and `on_piece_fail_sync`. -/
def restore (p : ℕ) (blocks : List ℕ) : DiskJobs :=
  { w with picker := w.picker.restorePiece p blocks }

/-- `on_disk_write_complete` of a peer connection. -/
def peerWriteComplete (p b : ℕ) (outcome : Outcome) (peer : Option ℕ) : DiskJobs :=
  match outcome with
  | .success => { w with picker := w.picker.markAsFinished p b peer }
  | .operationAborted => { w with picker := w.picker.markAsCanceled p b none }
  | .error =>
    let w := { w with picker := w.picker.writeFailed p b }
    if w.hasStorage then { w with clears := w.clears ++ [(p, [])] } else w.restore p []

/-- `on_disk_write_complete` of the torrent. -/
def userWriteComplete (p b : ℕ) (outcome : Outcome) : DiskJobs :=
  match outcome with
  | .success =>
    -- this can happen if the same block is passed in through add_piece multiple times
    if w.isFinished p b then w else { w with picker := w.picker.markAsFinished p b none }
  | .operationAborted | .error => w

def onDiskWriteComplete (j : WriteJob) (outcome : Outcome) (peer : Option ℕ) : DiskJobs :=
  match j.issuer with
  | .peer => w.peerWriteComplete j.piece j.block outcome peer
  | .user => w.userWriteComplete j.piece j.block outcome

/-- A piece did not pass its hash check. -/
def pieceFailed (p : ℕ) (blocks : List ℕ) : DiskJobs :=
  { w with picker := w.picker.lockPiece p, clears := w.clears ++ [(p, blocks)] }

/-- What happens to the torrent. Jobs are done in any order. -/
inductive Event where
  | incomingPiece (p b : ℕ) (peer : Option ℕ)
  | addBlock (p b : ℕ) (overwrite : Bool)
  | writeDone (i : ℕ) (outcome : Outcome) (peer : Option ℕ)
  | clearDone (i : ℕ)
  | pieceFailed (p : ℕ) (blocks : List ℕ)
  /-- any other call of the picker: a piece passes, a block is requested, ... -/
  | call (op : Op)

/-- The write job `i` is done. -/
def takeWrite (i : ℕ) : DiskJobs := { w with writes := w.writes.eraseIdx i }

def takeClear (i : ℕ) : DiskJobs := { w with clears := w.clears.eraseIdx i }

def apply : Event → DiskJobs
  | .incomingPiece p b peer => w.incomingPiece p b peer
  | .addBlock p b overwrite => w.addBlock p b overwrite
  | .writeDone i outcome peer =>
    match w.writes[i]? with
    | none => w
    | some j => (w.takeWrite i).onDiskWriteComplete j outcome peer
  | .clearDone i =>
    match w.clears[i]? with
    | none => w
    | some c => (w.takeClear i).restore c.1 c.2
  | .pieceFailed p blocks => w.pieceFailed p blocks
  | .call op => { w with picker := w.picker.apply op }

/-- The calls made by the handlers meet the assertions of the picker. -/
def EnabledWrite (j : WriteJob) (outcome : Outcome) (peer : Option ℕ) : Prop :=
  match j.issuer, outcome with
  | .peer, .success => w.picker.asserts (.markAsFinished j.piece j.block peer)
  | .peer, .operationAborted => w.picker.asserts (.markAsCanceled j.piece j.block none)
  | .peer, .error => w.picker.asserts (.writeFailed j.piece j.block) ∧ (w.hasStorage = false →
    (w.picker.writeFailed j.piece j.block).asserts (.restorePiece j.piece []))
  | .user, .success => ¬ w.isFinished j.piece j.block →
    w.picker.asserts (.markAsFinished j.piece j.block none)
  | .user, _ => True

/-- The calls meet the assertions of the picker, and `mark_as_writing` is not called without a
write job. -/
def Enabled : Event → Prop
  | .incomingPiece p b peer => ¬ w.isDownloaded p b → w.picker.asserts (.markAsWriting p b peer)
  | .addBlock p b overwrite => ¬ w.skips p b overwrite →
    w.picker.asserts (.markAsDownloading p b none false false) ∧
    (w.picker.markAsDownloading p b none false false).2.asserts (.markAsWriting p b none)
  | .writeDone i outcome peer => ∀ j, w.writes[i]? = some j → w.EnabledWrite j outcome peer
  | .clearDone i => ∀ c, w.clears[i]? = some c → w.picker.asserts (.restorePiece c.1 c.2)
  | .pieceFailed p _ => w.picker.asserts (.lockPiece p)
  | .call op => w.picker.asserts op ∧ ∀ p b peer, op ≠ .markAsWriting p b peer

/-- The runs of events of which `ok` holds, from a torrent without jobs and without writing
blocks. -/
inductive Run (ok : DiskJobs → Event → Prop) : DiskJobs → Prop
  | start {s : PiecePicker} {hasStorage : Bool} (h : Reach anyCall s)
      (hnone : ∀ p b, (s.mark p b).2 ≠ .writing) : Run ok ⟨s, hasStorage, [], []⟩
  | step {w : DiskJobs} (h : Run ok w) (e : Event) (he : w.Enabled e) (hok : ok w e) :
      Run ok (w.apply e)

/-- A clear job after which block `b` of `p` is restored. -/
def Clears (p b : ℕ) : Prop := ∃ c ∈ w.clears, c.1 = p ∧ (c.2 = [] ∨ b ∈ c.2)

/-- When a write of the user fails (or is done for a piece we have), the block is not a writing one,
or is written by another job or restored by one. -/
def Covered (w : DiskJobs) : Event → Prop
  | .writeDone i outcome _ => ∀ j, w.writes[i]? = some j → j.issuer = .user →
    outcome ≠ .success ∨ w.picker.havePiece j.piece →
    (w.picker.mark j.piece j.block).2 ≠ .writing ∨
      (∃ j' ∈ w.writes.eraseIdx i, j'.piece = j.piece ∧ j'.block = j.block) ∨
      w.Clears j.piece j.block
  | _ => True

/-- A piece without outstanding jobs has no writing block, so that all of its blocks but those that
are finished can be requested. -/
def Settled (w : DiskJobs) : Prop :=
  ∀ p, (∀ j ∈ w.writes, j.piece ≠ p) → (∀ c ∈ w.clears, c.1 ≠ p) → ∀ b,
    (w.picker.mark p b).2 ≠ .writing ∧ ∀ peer reverse affinity,
      w.picker.asserts (.markAsDownloading p b peer reverse affinity) →
      (w.picker.opened p p b).2 ≠ .finished →
      (w.picker.markAsDownloading p b peer reverse affinity).1 = true

/-! ### Steps -/

variable {w : DiskJobs} {p b y x : ℕ} {peer : Option ℕ} {j : WriteJob} {i : ℕ}

/-- What keeps a block a writing one. -/
def Backs (w : DiskJobs) (p b : ℕ) : Prop :=
  (∃ j ∈ w.writes, j.piece = p ∧ j.block = b) ∨ w.Clears p b

/-- Every writing block is written by a job, or about to be restored by one. -/
structure Backed (w : DiskJobs) : Prop where
  book : w.picker.Book True
  backs : ∀ p b, (w.picker.mark p b).2 = .writing → w.Backs p b

theorem Backs.mono {w w' : DiskJobs} (h : w.Backs p b) (hw : w.writes ⊆ w'.writes)
    (hc : w.clears ⊆ w'.clears) : w'.Backs p b := by
  rcases h with ⟨j, hj, hb⟩ | ⟨c, hc', hb⟩
  · exact .inl ⟨j, hw hj, hb⟩
  · exact .inr ⟨c, hc hc', hb⟩

theorem mem_eraseIdx_of_ne {α : Type} {l : List α} {i : ℕ} {a c : α} (ha : a ∈ l)
    (hi : l[i]? = some c) (hne : a ≠ c) : a ∈ l.eraseIdx i := by
  obtain ⟨k, hk⟩ := List.mem_iff_getElem?.mp ha
  refine List.mem_eraseIdx_iff_getElem?.mpr ⟨k, ?_, hk⟩
  rintro rfl
  rw [hi] at hk
  exact hne (Option.some.inj hk).symm

/-- Another block does not lose its job when the one of a block is done. -/
theorem Backs.takeWrite (h : w.Backs p b) (hj : w.writes[i]? = some j)
    (hne : ¬ (j.piece = p ∧ j.block = b)) : (w.takeWrite i).Backs p b := by
  rcases h with ⟨j', hj', hb⟩ | hc
  · exact .inl ⟨j', mem_eraseIdx_of_ne hj' hj fun he => hne (he ▸ hb), hb⟩
  · exact .inr hc

/-- `mark_as_writing` makes one block a writing one. -/
theorem markAsWriting_writing {s : PiecePicker} (h : s.Book True)
    (ha : s.asserts (.markAsWriting p b peer))
    (hw : ((s.markAsWriting p b peer).2.mark y x).2 = .writing) :
    (y = p ∧ x = b) ∨ (s.mark y x).2 = .writing := by
  by_cases hhave : s.downloadQueue p = none ∧ s.havePiece p
  · have hsame : (s.markAsWriting p b peer).2 = s := by
      rw [PiecePicker.markAsWriting, hhave.1]
      dsimp only
      rw [if_pos hhave.2]
    rw [hsame] at hw
    exact .inr hw
  · rw [PiecePicker.markAsWriting_mark h ha fun hq hh => hhave ⟨hq, hh⟩] at hw
    split_ifs at hw with hyx
    · exact .inl ⟨hyx.1, hyx.2.1⟩
    · exact .inr (PiecePicker.opened_writing hw)

/-- A call that makes no block a writing one. -/
theorem Backed.call (h : w.Backed) {op : Op} (ha : w.picker.asserts op)
    (hop : ∀ p b peer, op ≠ .markAsWriting p b peer) :
    Backed { w with picker := w.picker.apply op } := by
  refine ⟨PiecePicker.apply_book h.book ha (.inl trivial), fun p b hw => ?_⟩
  exact h.backs p b (PiecePicker.apply_writing h.book ha hop hw)

/-- A block is marked as a writing one once its job has been issued. -/
theorem Backed.write (h : w.Backed) (ha : w.picker.asserts (.markAsWriting p b peer))
    (issuer : Issuer) : Backed { w with
      writes := w.writes ++ [⟨issuer, p, b⟩]
      picker := (w.picker.markAsWriting p b peer).2 } := by
  refine ⟨PiecePicker.markAsWriting_book h.book ha, fun y x hw => ?_⟩
  rcases markAsWriting_writing h.book ha hw with ⟨rfl, rfl⟩ | hw
  · exact .inl ⟨_, List.mem_append_right _ (List.mem_singleton.mpr rfl), rfl, rfl⟩
  · exact (h.backs y x hw).mono (List.subset_append_left _ _) fun _ hc => hc

theorem Backed.incomingPiece (h : w.Backed) (he : w.Enabled (.incomingPiece p b peer)) :
    (w.incomingPiece p b peer).Backed := by
  rw [DiskJobs.incomingPiece]
  split_ifs with hd
  · exact h
  · exact h.write (he hd) .peer

theorem Backed.addBlock (h : w.Backed) {overwrite : Bool}
    (he : w.Enabled (.addBlock p b overwrite)) : (w.addBlock p b overwrite).Backed := by
  rw [DiskJobs.addBlock]
  split_ifs with hs
  · exact h
  · obtain ⟨ha, ha'⟩ := he hs
    have hcall : Backed { w with picker := (w.picker.markAsDownloading p b none false false).2 } :=
      h.call ha fun _ _ _ hc => by cases hc
    exact hcall.write ha' .user

theorem Backed.restore (h : w.Backed) {blocks : List ℕ}
    (ha : w.picker.asserts (.restorePiece p blocks)) : (w.restore p blocks).Backed :=
  h.call ha fun _ _ _ hc => by cases hc

/-- The job of a block may go when the block is no longer a writing one. -/
theorem Backed.finish (h : w.Backed) (hj : w.writes[i]? = some j) {op : Op}
    (ha : w.picker.asserts op) (hop : ∀ p b peer, op ≠ .markAsWriting p b peer)
    (hnot : ((w.picker.apply op).mark j.piece j.block).2 ≠ .writing) :
    Backed { w.takeWrite i with picker := w.picker.apply op } := by
  refine ⟨PiecePicker.apply_book h.book ha (.inl trivial), fun p b hw => ?_⟩
  have hback := h.backs p b (PiecePicker.apply_writing h.book ha hop hw)
  refine hback.takeWrite hj ?_
  rintro ⟨rfl, rfl⟩
  exact hnot hw

/-- So it may if the block is not a writing one, or has another job. -/
theorem Backed.takeWrite (h : w.Backed) (hj : w.writes[i]? = some j)
    (hcov : (w.picker.mark j.piece j.block).2 = .writing →
      (w.takeWrite i).Backs j.piece j.block) : (w.takeWrite i).Backed := by
  refine ⟨h.book, fun p b hw => ?_⟩
  by_cases hjb : j.piece = p ∧ j.block = b
  · obtain ⟨rfl, rfl⟩ := hjb
    exact hcov hw
  · exact (h.backs p b hw).takeWrite hj hjb

theorem Backed.peerWriteComplete (h : w.Backed) (hj : w.writes[i]? = some j) {outcome : Outcome}
    (hissuer : j.issuer = .peer) (he : w.EnabledWrite j outcome peer) :
    ((w.takeWrite i).peerWriteComplete j.piece j.block outcome peer).Backed := by
  cases outcome with
  | success =>
    have ha : w.picker.asserts (.markAsFinished j.piece j.block peer) := by
      simpa only [EnabledWrite, hissuer] using he
    refine h.finish hj ha (fun _ _ _ hc => by cases hc) fun hw => ?_
    exact (PiecePicker.markAsFinished_writing h.book ha hw).2 ⟨rfl, rfl⟩
  | operationAborted =>
    have ha : w.picker.asserts (.markAsCanceled j.piece j.block none) := by
      simpa only [EnabledWrite, hissuer] using he
    refine h.finish hj ha (fun _ _ _ hc => by cases hc) fun hw => ?_
    rw [PiecePicker.apply, PiecePicker.markAsCanceled_mark h.book ha] at hw
    split_ifs at hw with hc
    exact hc ⟨rfl, rfl, hw⟩
  | error =>
    have ha : w.picker.asserts (.writeFailed j.piece j.block) ∧ (w.hasStorage = false →
        (w.picker.writeFailed j.piece j.block).asserts (.restorePiece j.piece [])) := by
      simpa only [EnabledWrite, hissuer] using he
    have hfail : Backed { w.takeWrite i with picker := w.picker.writeFailed j.piece j.block } := by
      refine h.finish hj ha.1 (fun _ _ _ hc => by cases hc) fun hw => ?_
      rw [PiecePicker.apply, PiecePicker.writeFailed_mark h.book ha.1, if_pos ⟨rfl, rfl⟩] at hw
      cases hw
    rw [DiskJobs.peerWriteComplete]
    dsimp only
    split_ifs with hst
    · refine ⟨hfail.book, fun p b hw => ?_⟩
      exact (hfail.backs p b hw).mono (fun _ hm => hm) (List.subset_append_left _ _)
    · exact hfail.restore (ha.2 (Bool.eq_false_iff.mpr hst))

theorem Backed.userWriteComplete (h : w.Backed) (hj : w.writes[i]? = some j) {outcome : Outcome}
    (hissuer : j.issuer = .user) (he : w.EnabledWrite j outcome peer)
    (hok : w.Covered (.writeDone i outcome peer)) :
    ((w.takeWrite i).userWriteComplete j.piece j.block outcome).Backed := by
  have hlost : outcome ≠ .success ∨ w.picker.havePiece j.piece → (w.takeWrite i).Backed := by
    intro hne
    refine h.takeWrite hj fun hw => ?_
    rcases hok j hj hissuer hne with hc | hc
    · exact absurd hw hc
    · exact hc
  cases outcome with
  | success =>
    have ha : ¬ w.isFinished j.piece j.block →
        w.picker.asserts (.markAsFinished j.piece j.block none) := by
      simpa only [EnabledWrite, hissuer] using he
    rw [DiskJobs.userWriteComplete]
    split_ifs with hfin
    · rcases hfin with hhave | hfin
      · exact hlost (.inr hhave)
      · refine h.takeWrite hj fun hw => ?_
        cases hw.symm.trans hfin
    · refine h.finish hj (ha hfin) (fun _ _ _ hc => by cases hc) fun hw => ?_
      exact (PiecePicker.markAsFinished_writing h.book (ha hfin) hw).2 ⟨rfl, rfl⟩
  | operationAborted => exact hlost (.inl fun hc => by cases hc)
  | error => exact hlost (.inl fun hc => by cases hc)

theorem Backed.clearDone (h : w.Backed) {c : ℕ × List ℕ} (hc : w.clears[i]? = some c)
    (ha : w.picker.asserts (.restorePiece c.1 c.2)) : ((w.takeClear i).restore c.1 c.2).Backed := by
  refine ⟨PiecePicker.restorePiece_book h.book ha, fun p b hw => ?_⟩
  have hw' := hw
  rw [DiskJobs.restore, DiskJobs.takeClear, PiecePicker.restorePiece_mark h.book ha] at hw'
  split_ifs at hw' with hin
  rcases h.backs p b hw' with hj | ⟨c', hc', hp, hb⟩
  · exact .inl hj
  · refine .inr ⟨c', mem_eraseIdx_of_ne hc' hc ?_, hp, hb⟩
    rintro rfl
    exact hin ⟨hp.symm, hb⟩

theorem Backed.step (h : w.Backed) {e : Event} (he : w.Enabled e) (hok : w.Covered e) :
    (w.apply e).Backed := by
  cases e with
  | incomingPiece p b peer => exact h.incomingPiece he
  | addBlock p b overwrite => exact h.addBlock he
  | writeDone i outcome peer =>
    rw [DiskJobs.apply]
    rcases hj : w.writes[i]? with - | j
    · exact h
    · dsimp only
      rw [onDiskWriteComplete]
      rcases hissuer : j.issuer with - | -
      · exact h.peerWriteComplete hj hissuer (he j hj)
      · exact h.userWriteComplete hj hissuer (he j hj) hok
  | clearDone i =>
    rw [DiskJobs.apply]
    rcases hc : w.clears[i]? with - | c
    · exact h
    · exact h.clearDone hc (he c hc)
  | pieceFailed p blocks =>
    have ha : w.picker.asserts (.lockPiece p) := he
    have hlock : Backed { w with picker := w.picker.lockPiece p } :=
      h.call ha fun _ _ _ hc => by cases hc
    refine ⟨hlock.book, fun y x hw => ?_⟩
    exact (hlock.backs y x hw).mono (fun _ hm => hm) (List.subset_append_left _ _)
  | call op => exact h.call he.1 he.2

theorem Run.backed (h : Run Covered w) : w.Backed := by
  induction h with
  | start h hnone => exact ⟨h.book, fun p b hw => absurd hw (hnone p b)⟩
  | step _ e he hok ih => exact ih.step he hok

/-- If no write of the user fails with its block left behind, a piece without jobs has no writing
block. -/
theorem run_settles (h : Run Covered w) : w.Settled := by
  intro p hwrites hclears b
  have hnot : (w.picker.mark p b).2 ≠ .writing := by
    intro hw
    rcases h.backed.backs p b hw with ⟨j, hj, hp, -⟩ | ⟨c, hc, hp, -⟩
    · exact hwrites j hj hp
    · exact hclears c hc hp
  refine ⟨hnot, fun peer reverse affinity ha hfin => ?_⟩
  rw [(PiecePicker.markAsDownloading_spec h.backed.book ha).1]
  rintro (hw | hc)
  · exact hnot (PiecePicker.opened_writing hw)
  · exact hfin hc

/-- A block of a peer can't be written. Once the piece has been cleared, all is as before. -/
theorem run_settles_failed : ∃ w, Run Covered w ∧ w.writes = [] ∧ w.clears = [] ∧
    w.picker.numHave = 0 ∧ w.Settled := by
  obtain ⟨s, hs, hempty, ha, ha₁, ha₂, hhave⟩ := Reach.exists_of_freshRun anyCall 1 2 []
    (fun s => s.downloads = .empty ∧ s.asserts (.markAsWriting 0 0 (some 1)) ∧
      (s.markAsWriting 0 0 (some 1)).2.asserts (.writeFailed 0 0) ∧
      ((s.markAsWriting 0 0 (some 1)).2.writeFailed 0 0).asserts (.restorePiece 0 []) ∧
      (((s.markAsWriting 0 0 (some 1)).2.writeFailed 0 0).restorePiece 0 []).numHave = 0 ∧
      ¬ s.havePiece 0)
    (by decide) (by decide +kernel)
  have hnone : ∀ p b, s.mark p b = (0, .none) := PiecePicker.mark_of_empty hempty
  have hrun : Run Covered ⟨s, true, [], []⟩ := .start hs fun p b hc => by
    rw [hnone] at hc
    cases hc
  have hnot : ¬ isDownloaded ⟨s, true, [], []⟩ 0 0 := by
    rintro (hc | hc)
    · exact hhave.2 hc
    · rw [hnone] at hc
      exact hc.elim (fun hc => by cases hc) fun hc => by cases hc
  have hrun := hrun.step (.incomingPiece 0 0 (some 1)) (fun _ => ha) trivial
  have hstep : (⟨s, true, [], []⟩ : DiskJobs).apply (.incomingPiece 0 0 (some 1)) =
      ⟨(s.markAsWriting 0 0 (some 1)).2, true, [⟨.peer, 0, 0⟩], []⟩ := if_neg hnot
  rw [hstep] at hrun
  have hrun := hrun.step (.writeDone 0 .error none)
    (by rintro j ⟨⟩; exact ⟨ha₁, fun hc => by cases hc⟩) (by rintro j ⟨⟩ hc; cases hc)
  have hrun := hrun.step (.clearDone 0) (by rintro c ⟨⟩; exact ha₂) trivial
  exact ⟨_, hrun, rfl, rfl, hhave.1, run_settles hrun⟩

/-- A block the user added can't be written: it is a writing one for good. -/
theorem run_not_settles : ¬ ∀ w, Run (fun _ _ => True) w → w.Settled := by
  intro hall
  obtain ⟨s, hs, hempty, hhave, ha, ha', hw⟩ := Reach.exists_of_freshRun anyCall 1 2 []
    (fun s => s.downloads = .empty ∧ ¬ s.havePiece 0 ∧
      s.asserts (.markAsDownloading 0 0 none false false) ∧
      (s.markAsDownloading 0 0 none false false).2.asserts (.markAsWriting 0 0 none) ∧
      ((((s.markAsDownloading 0 0 none false false).2.markAsWriting 0 0 none).2).mark 0 0).2 =
        .writing)
    (by decide) (by decide +kernel)
  have hnone : ∀ p b, s.mark p b = (0, .none) := PiecePicker.mark_of_empty hempty
  have hrun : Run (fun _ _ => True) ⟨s, true, [], []⟩ := .start hs fun p b hc => by
    rw [hnone] at hc
    cases hc
  have hskip : ¬ skips ⟨s, true, [], []⟩ 0 0 false := by
    rintro (⟨-, hc | hc⟩ | ⟨hc | hc, -⟩)
    · exact hhave hc
    · rw [hnone] at hc
      cases hc
    · exact hhave hc
    · rw [hnone] at hc
      exact hc.elim (fun hc => by cases hc) fun hc => by cases hc
  have hrun := hrun.step (.addBlock 0 0 false) (fun _ => ⟨ha, ha'⟩) trivial
  have hstep : (⟨s, true, [], []⟩ : DiskJobs).apply (.addBlock 0 0 false) =
      ⟨((s.markAsDownloading 0 0 none false false).2.markAsWriting 0 0 none).2, true,
        [⟨.user, 0, 0⟩], []⟩ := if_neg hskip
  rw [hstep] at hrun
  have hrun := hrun.step (.writeDone 0 .error none) (by rintro j ⟨⟩; trivial) trivial
  exact (hall _ hrun 0 (fun _ hj => by cases hj) (fun _ hc => by cases hc) 0).1 hw

end DiskJobs

end Torrent

end LibtorrentSN
