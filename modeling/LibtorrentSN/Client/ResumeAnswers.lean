import Mathlib

/-!
# Resume data that is still due

The client counts the resume data it has asked for. The alert thread takes the alerts in batches and counts the answers
down, and `close` waits until nothing is due (`gtk/Session.cc`, `gtk/DetailsDialog.cc`).
-/

namespace LibtorrentSN

namespace Client

/-- The alerts. A torrent is a number, and so is a call of `save_resume_data`, which an answer belongs to. -/
inductive Alert
  | saveResumeData (call : ℕ)
  | saveResumeDataFailed (call : ℕ)
  | addTorrent (error : Bool) (torrent : ℕ)
  | storageMoved (torrent : ℕ)
  | fileRenamed (torrent : ℕ)
  | torrentPaused (torrent : ℕ)
  | torrentFinished (torrent : ℕ)
  | metadataReceived (torrent : ℕ)
  -- those of trackers, peers, pieces, file progress, statistics and failures, for which nothing is saved
  | other
  deriving DecidableEq

namespace Alert

def isAnswer : Alert → Bool
  | saveResumeData _ => true
  | saveResumeDataFailed _ => true
  | _ => false

/-- The call whose resume data the alert brings. -/
def resumeData? : Alert → Option ℕ
  | saveResumeData call => some call
  | _ => none

end Alert

/-- Where `close` is. -/
inductive ClosePhase
  | running
  -- the torrents whose resume data is still to be asked for
  | saving (rest : List ℕ)
  | waiting
  -- with what was due at the end of the loop
  | returned (due : ℕ)
  | threw
  deriving DecidableEq

structure ResumeAnswers where
  numOutstandingResumeData : ℤ := 0
  close : ClosePhase := .running
  -- the torrents of `m_all_torrents_`
  allTorrents : List ℕ := []
  removed : List ℕ := []
  -- the torrents whose handles are not valid any more
  expired : List ℕ := []
  calls : ℕ := 0
  -- the calls that libtorrent has not answered
  unanswered : List ℕ := []
  queue : List Alert := []
  -- the rest of the alerts that were popped
  batch : List Alert := []
  -- the torrent of the `add_torrent_alert` that is being handled
  adding : Option ℕ := none
  -- the calls whose resume data was popped, and was written by `tr_torrentSaveResume`
  popped : List ℕ := []
  written : List ℕ := []
  deriving DecidableEq

inductive ResumeEvent
  -- libtorrent
  | post (alert : Alert)
  | answer (call : ℕ) (failed : Bool)
  | expire (torrent : ℕ)
  -- the alert thread
  | popAlerts
  | handleAlert
  | finishAdd
  -- the GUI thread
  | removeTorrent (torrent : ℕ)
  | editTrackers (torrent : ℕ)
  | beginClose (torrents : List ℕ)
  | closeSave
  | endClose

namespace ResumeAnswers

variable (s : ResumeAnswers)

def closing : Bool := s.close ≠ .running

def isValid (torrent : ℕ) : Bool := torrent ∉ s.expired

/-- `save_resume_data` of a valid handle, and the count. -/
def save : ResumeAnswers :=
  { s with
    calls := s.calls + 1
    unanswered := s.unanswered ++ [s.calls]
    numOutstandingResumeData := s.numOutstandingResumeData + 1 }

/-- An exception is caught behind the loop over the alerts, so that the rest of the batch is not handled. -/
def abandon : ResumeAnswers := { s with batch := [], adding := none }

/-- `save_resume_data` throws if the handle is not valid. -/
def saveOrThrow (torrent : ℕ) : ResumeAnswers := if s.isValid torrent then s.save else s.abandon

/-- A turn of the switch of `post_alerts_on_session`. A torrent that is added is finished in `finishAdd`. -/
def handle : Alert → ResumeAnswers
  | .saveResumeData call =>
    { s with numOutstandingResumeData := s.numOutstandingResumeData - 1, written := s.written ++ [call] }
  | .saveResumeDataFailed _ => { s with numOutstandingResumeData := s.numOutstandingResumeData - 1 }
  | .addTorrent error torrent =>
    if error then s
    else
      let s := { s with allTorrents := if torrent ∈ s.allTorrents then s.allTorrents else s.allTorrents ++ [torrent] }
      if s.isValid torrent then { s with adding := some torrent } else s
  | .torrentPaused torrent => if s.closing then s else s.saveOrThrow torrent
  | .storageMoved torrent => s.saveOrThrow torrent
  | .fileRenamed torrent => s.saveOrThrow torrent
  | .torrentFinished torrent => s.saveOrThrow torrent
  | .metadataReceived torrent => s.saveOrThrow torrent
  | .other => s

/-- The calls whose answer is in no batch that has been handled. -/
def due : ℕ := s.unanswered.length + s.queue.countP Alert.isAnswer + s.batch.countP Alert.isAnswer

/-- The loop of `close` goes on. The session is paused by then. -/
def waits : Bool := 0 < s.numOutstandingResumeData

def step : ResumeEvent → Option ResumeAnswers
  | .post alert => if alert.isAnswer then none else some { s with queue := s.queue ++ [alert] }
  | .answer call failed =>
    if call ∈ s.unanswered then
      some { s with
        unanswered := s.unanswered.erase call
        queue := s.queue ++ [if failed then .saveResumeDataFailed call else .saveResumeData call] }
    else none
  | .expire torrent => if torrent ∈ s.removed then some { s with expired := s.expired ++ [torrent] } else none
  | .popAlerts =>
    if s.batch = [] ∧ s.adding = none then
      some { s with queue := [], batch := s.queue, popped := s.popped ++ s.queue.filterMap Alert.resumeData? }
    else none
  | .handleAlert =>
    match s.adding, s.batch with
    | none, alert :: batch => some ({ s with batch }.handle alert)
    | _, _ => none
  | .finishAdd =>
    -- the names of all torrents are printed before the resume data is asked for
    s.adding.map fun torrent =>
      if s.allTorrents.all s.isValid then { s with adding := none }.saveOrThrow torrent else s.abandon
  | .removeTorrent torrent =>
    some { s with allTorrents := s.allTorrents.erase torrent, removed := s.removed ++ [torrent] }
  | .editTrackers torrent => some (if s.isValid torrent then s.save else s)
  | .beginClose torrents => if s.closing then none else some { s with close := .saving torrents }
  | .closeSave =>
    match s.close with
    | .saving (torrent :: rest) =>
      some (if s.isValid torrent then { s.save with close := .saving rest } else { s with close := .threw })
    | .saving [] => some { s with close := .waiting }
    | _ => none
  | .endClose =>
    if s.close = .waiting ∧ ¬ s.waits then some { s with close := .returned s.due, allTorrents := [] } else none

/-- The states of the runs whose steps meet a condition. -/
inductive Run (ok : ResumeAnswers → ResumeEvent → Prop) : ResumeAnswers → Prop
  | start : Run ok {}
  | step {s s' : ResumeAnswers} {e : ResumeEvent} (hs : Run ok s) (hok : ok s e) (h : s.step e = some s') : Run ok s'

/-- What is due is counted, `close` waits for it and for nothing else, and what was popped has been written. -/
structure Exact : Prop where
  count : s.numOutstandingResumeData = s.due
  written : s.batch = [] → ∀ call ∈ s.popped, call ∈ s.written
  waits : s.close = .waiting → (s.waits ↔ 0 < s.due)
  returned : ∀ due, s.close = .returned due → due = 0
  returns : s.close ≠ .threw

/-- The torrent whose resume data is asked for when an alert is handled. -/
def savedFor : Alert → Option ℕ
  | .torrentPaused torrent => if s.closing then none else some torrent
  | .storageMoved torrent => some torrent
  | .fileRenamed torrent => some torrent
  | .torrentFinished torrent => some torrent
  | .metadataReceived torrent => some torrent
  | _ => none

/-- No answer is behind an alert in its batch if the handle of its torrent, or one of all torrents for a torrent that is
added, is not valid. The handles that are saved by `close` are valid. -/
def Orderly : ResumeEvent → Prop
  | .handleAlert => ∀ alert batch torrent, s.batch = alert :: batch → s.savedFor alert = some torrent →
    s.isValid torrent = false → batch.countP Alert.isAnswer = 0
  | .finishAdd => ∀ torrent, s.adding = some torrent →
    (s.isValid torrent = false ∨ s.allTorrents.all s.isValid = false) → s.batch.countP Alert.isAnswer = 0
  | .closeSave => ∀ torrent rest, s.close = .saving (torrent :: rest) → s.isValid torrent = true
  | _ => True

variable {s} {s' : ResumeAnswers} {torrent : ℕ} {alert : Alert} {rest : List Alert}

/-- What holds between the steps of an orderly run. -/
structure Inv (s : ResumeAnswers) : Prop where
  count : s.numOutstandingResumeData = s.due
  written : ∀ call ∈ s.popped, call ∈ s.written ∨ .saveResumeData call ∈ s.batch
  returned : ∀ due, s.close = .returned due → due = 0
  returns : s.close ≠ .threw

theorem Inv.waits_iff (h : Inv s) : s.waits ↔ 0 < s.due := by
  rw [ResumeAnswers.waits, decide_eq_true_iff, h.count]
  exact Int.natCast_pos

theorem Inv.exact (h : Inv s) : s.Exact := by
  refine { count := h.count, written := fun hbatch call hcall => ?_, waits := fun _ => h.waits_iff, returned := h.returned,
           returns := h.returns }
  obtain hwritten | hmem := h.written call hcall
  · exact hwritten
  · rw [hbatch] at hmem
    cases hmem

/-! ### Calls and exceptions -/

/-- Nothing depends on the torrents. -/
theorem Inv.torrents (h : Inv s) (allTorrents removed expired : List ℕ) (adding : Option ℕ) :
    Inv { s with allTorrents, removed, expired, adding } :=
  ⟨h.count, h.written, h.returned, h.returns⟩

theorem Inv.save (h : Inv s) : Inv s.save := by
  refine { count := ?_, written := h.written, returned := h.returned, returns := h.returns }
  have hcount := h.count
  rw [due] at hcount ⊢
  rw [ResumeAnswers.save]
  dsimp only
  rw [List.length_append, List.length_singleton]
  omega

theorem Inv.abandon (h : Inv s) (hnone : s.batch.countP Alert.isAnswer = 0) : Inv s.abandon := by
  refine { count := ?_, written := fun call hcall => ?_, returned := h.returned, returns := h.returns }
  · have hcount := h.count
    rw [due, hnone] at hcount
    rw [due, ResumeAnswers.abandon, List.countP_nil]
    exact hcount
  · obtain hwritten | hmem := h.written call hcall
    · exact .inl hwritten
    · exact absurd rfl (List.countP_eq_zero.mp hnone _ hmem)

theorem Inv.saveOrThrow (h : Inv s) (hnone : s.isValid torrent = false → s.batch.countP Alert.isAnswer = 0) :
    Inv (s.saveOrThrow torrent) := by
  rw [ResumeAnswers.saveOrThrow]
  split
  · exact h.save
  · next hvalid => exact h.abandon (hnone (Bool.eq_false_iff.mpr hvalid))

/-! ### The alerts -/

/-- The rest of the batch, when the next alert is not an answer. -/
theorem Inv.next (h : Inv s) (hbatch : s.batch = alert :: rest) (halert : alert.isAnswer = false) :
    Inv { s with batch := rest } := by
  refine { count := ?_, written := fun call hcall => ?_, returned := h.returned, returns := h.returns }
  · have hcount := h.count
    rw [due, hbatch, List.countP_cons_of_neg (by rw [halert]; exact Bool.false_ne_true)] at hcount
    exact hcount
  · obtain hwritten | hmem := h.written call hcall
    · exact .inl hwritten
    · rw [hbatch] at hmem
      obtain rfl | hmem := List.mem_cons.mp hmem
      · cases halert
      · exact .inr hmem

theorem Inv.answered (h : Inv s) (hbatch : s.batch = alert :: rest) (halert : alert.isAnswer = true) {written : List ℕ}
    (hwritten : ∀ call, call ∈ s.written ∨ alert = .saveResumeData call → call ∈ written) :
    Inv { s with batch := rest, numOutstandingResumeData := s.numOutstandingResumeData - 1, written } := by
  refine { count := ?_, written := fun call hcall => ?_, returned := h.returned, returns := h.returns }
  · have hcount := h.count
    rw [due, hbatch, List.countP_cons_of_pos halert] at hcount
    rw [due]
    dsimp only
    omega
  · obtain hcall | hmem := h.written call hcall
    · exact .inl (hwritten call (.inl hcall))
    · rw [hbatch] at hmem
      obtain heq | hmem := List.mem_cons.mp hmem
      · exact .inl (hwritten call (.inr heq.symm))
      · exact .inr hmem

theorem Inv.handle (h : Inv s) (hbatch : s.batch = alert :: rest) (hok : s.Orderly .handleAlert) :
    Inv ({ s with batch := rest }.handle alert) := by
  have hthrow : ∀ torrent, s.savedFor alert = some torrent → s.isValid torrent = false → rest.countP Alert.isAnswer = 0 :=
    fun torrent hsaved => hok alert rest torrent hbatch hsaved
  cases alert with
  | saveResumeData call =>
    refine h.answered hbatch rfl fun c hc => ?_
    obtain hc | hc := hc
    · exact List.mem_append_left _ hc
    · cases hc
      exact List.mem_append_right _ (List.mem_singleton_self _)
  | saveResumeDataFailed call =>
    refine h.answered hbatch rfl fun c hc => ?_
    obtain hc | hc := hc
    · exact hc
    · cases hc
  | addTorrent error torrent =>
    have hnext := h.next hbatch rfl
    rw [ResumeAnswers.handle]
    split
    · exact hnext
    · dsimp only
      generalize (if torrent ∈ s.allTorrents then s.allTorrents else s.allTorrents ++ [torrent]) = torrents
      split
      · exact hnext.torrents torrents s.removed s.expired (some torrent)
      · exact hnext.torrents torrents s.removed s.expired s.adding
  | torrentPaused torrent =>
    have hnext := h.next hbatch rfl
    rw [ResumeAnswers.handle]
    split
    · exact hnext
    · next hclosing => exact hnext.saveOrThrow (hthrow torrent (if_neg hclosing))
  | storageMoved torrent => exact (h.next hbatch rfl).saveOrThrow (hthrow torrent rfl)
  | fileRenamed torrent => exact (h.next hbatch rfl).saveOrThrow (hthrow torrent rfl)
  | torrentFinished torrent => exact (h.next hbatch rfl).saveOrThrow (hthrow torrent rfl)
  | metadataReceived torrent => exact (h.next hbatch rfl).saveOrThrow (hthrow torrent rfl)
  | other => exact h.next hbatch rfl

theorem Inv.finishAdd (h : Inv s) (hadding : s.adding = some torrent) (hok : s.Orderly .finishAdd) :
    Inv (if s.allTorrents.all s.isValid then { s with adding := none }.saveOrThrow torrent else s.abandon) := by
  split
  · refine (h.torrents s.allTorrents s.removed s.expired none).saveOrThrow fun hvalid => ?_
    exact hok torrent hadding (.inl hvalid)
  · next hall =>
    refine h.abandon ?_
    exact hok torrent hadding (.inr (Bool.eq_false_iff.mpr hall))

theorem mem_resumeData? {call : ℕ} {alerts : List Alert} (h : call ∈ alerts.filterMap Alert.resumeData?) :
    .saveResumeData call ∈ alerts := by
  obtain ⟨alert, hmem, halert⟩ := List.mem_filterMap.mp h
  cases alert with
  | saveResumeData c =>
    cases halert
    exact hmem
  | _ => cases halert

theorem Inv.step (h : Inv s) {e : ResumeEvent} (hok : s.Orderly e) (hs : s.step e = some s') : Inv s' := by
  rw [ResumeAnswers.step.eq_def] at hs
  cases e with
  | post alert =>
    dsimp only at hs
    split at hs
    · cases hs
    · next halert =>
      cases hs
      refine { count := ?_, written := h.written, returned := h.returned, returns := h.returns }
      have hcount := h.count
      rw [due] at hcount ⊢
      dsimp only
      rw [List.countP_append, List.countP_singleton, if_neg halert]
      exact hcount
  | answer call failed =>
    dsimp only at hs
    split at hs
    · next hcall =>
      cases hs
      refine { count := ?_, written := h.written, returned := h.returned, returns := h.returns }
      have hcount := h.count
      have hlen := List.length_erase_of_mem hcall
      have hpos := List.length_pos_of_mem hcall
      have halert : (if failed = true then Alert.saveResumeDataFailed call else .saveResumeData call).isAnswer = true := by
        cases failed <;> rfl
      rw [due] at hcount ⊢
      dsimp only
      rw [List.countP_append, List.countP_singleton, if_pos halert]
      omega
    · cases hs
  | expire torrent =>
    dsimp only at hs
    split at hs
    · cases hs
      exact h.torrents s.allTorrents s.removed _ s.adding
    · cases hs
  | popAlerts =>
    dsimp only at hs
    split at hs
    · next hidle =>
      cases hs
      refine { count := ?_, written := fun call hcall => ?_, returned := h.returned, returns := h.returns }
      · have hcount := h.count
        rw [due, hidle.1, List.countP_nil] at hcount
        rw [due]
        dsimp only
        rw [List.countP_nil]
        omega
      · obtain hcall | hcall := List.mem_append.mp hcall
        · obtain hwritten | hmem := h.written call hcall
          · exact .inl hwritten
          · rw [hidle.1] at hmem
            cases hmem
        · exact .inr (mem_resumeData? hcall)
    · cases hs
  | handleAlert =>
    dsimp only at hs
    split at hs
    · next alert batch _ hbatch =>
      cases hs
      exact h.handle hbatch hok
    · cases hs
  | finishAdd =>
    obtain ⟨torrent, hadding, rfl⟩ := Option.map_eq_some_iff.mp hs
    exact h.finishAdd hadding hok
  | removeTorrent torrent =>
    cases hs
    exact h.torrents _ _ s.expired s.adding
  | editTrackers torrent =>
    obtain rfl := Option.some.inj hs
    split
    · exact h.save
    · exact h
  | beginClose torrents =>
    dsimp only at hs
    split at hs
    · cases hs
    · cases hs
      refine { count := h.count, written := h.written, returned := fun due hdue => ?_, returns := fun hthrew => ?_ }
      · cases hdue
      · cases hthrew
  | closeSave =>
    dsimp only at hs
    split at hs
    · next torrent rest hclose =>
      rw [if_pos (hok torrent rest hclose)] at hs
      obtain rfl := Option.some.inj hs
      obtain ⟨hcount, hwritten, -, -⟩ := h.save
      refine { count := hcount, written := hwritten, returned := fun due hdue => ?_, returns := fun hthrew => ?_ }
      · cases hdue
      · cases hthrew
    · cases hs
      refine { count := h.count, written := h.written, returned := fun due hdue => ?_, returns := fun hthrew => ?_ }
      · cases hdue
      · cases hthrew
    · cases hs
  | endClose =>
    dsimp only at hs
    split at hs
    · next hends =>
      cases hs
      refine { count := h.count, written := h.written, returned := fun due hdue => ?_, returns := fun hthrew => ?_ }
      · cases hdue
        exact Nat.eq_zero_of_not_pos fun hpos => hends.2 (h.waits_iff.mpr hpos)
      · cases hthrew
    · cases hs

theorem Run.inv (h : Run Orderly s) : Inv s := by
  induction h with
  | start =>
    refine { count := rfl, written := fun call hcall => ?_, returned := fun due hdue => ?_, returns := fun hthrew => ?_ }
    · cases hcall
    · cases hdue
    · cases hthrew
  | step _ hok h ih => exact ih.step hok h

/-- A torrent has finished, and the client is closed before its resume data comes. -/
def finishedTorrent : ResumeAnswers :=
  { numOutstandingResumeData := 1, close := .waiting, calls := 1, queue := [.saveResumeData 0] }

theorem run_finishedTorrent : Run Orderly finishedTorrent := by
  have hfinished : Run Orderly _ := .step .start (e := .post (.torrentFinished 0)) trivial rfl
  have hpopped : Run Orderly _ := .step hfinished (e := .popAlerts) trivial rfl
  have hsaved : Run Orderly _ := .step hpopped (e := .handleAlert) (fun alert batch torrent _ _ hvalid => by cases hvalid) rfl
  have hanswered : Run Orderly _ := .step hsaved (e := .answer 0 false) trivial rfl
  have hclosing : Run Orderly _ := .step hanswered (e := .beginClose []) trivial rfl
  exact .step hclosing (e := .closeSave) (fun torrent rest hclose => by cases hclose) rfl

end ResumeAnswers

end Client

end LibtorrentSN
