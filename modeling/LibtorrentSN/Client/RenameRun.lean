import LibtorrentSN.Client.RenamePaths

/-!
# Rename edits

A row of a file list is renamed on the GUI thread, and the alert thread handles what libtorrent answers. The file lists
share one callback of the session (`gtk/FileList.cc`, `gtk/Session.cc`).

Left out is a `save_resume_data` that throws, on a handle that is no longer valid, before the alert of a rename has been
handled. An edit of a torrent that has neither a valid handle nor a hash ends before it has done anything, and does not
count as one.
-/

namespace LibtorrentSN

namespace Client

/-- `rename_data`. The file list is a number. -/
structure RenameData where
  newname : List Char
  pathString : List ℕ
  impl : ℕ
  deriving DecidableEq

/-- The callback of an edit, with the counters that it has captured. -/
structure RenameCallback where
  pendingOperations : ℤ
  failedOperations : ℤ
  deriving DecidableEq

/-- A call of `on_rename_done` for the user data of an edit. -/
structure RenameDone where
  number : ℕ
  data : RenameData
  failedCount : ℤ
  deriving DecidableEq

/-- `cell_edited_callback` from its loop on, with the files that the loop has not come to. -/
structure CellEdit where
  number : ℕ
  useHandle : Bool
  pendingOperations : ℤ
  rest : List (ℤ × List Char)
  deriving DecidableEq

structure Renames where
  -- the user data of all edits
  edits : List RenameData := []
  editing : Option CellEdit := none
  -- the edit of each `rename_file` whose alert has not been handled
  inFlight : List ℕ := []
  -- the edit of each alert that has been handled, and whether the rename has failed
  answered : List (ℕ × Bool) := []
  renameDoneCb : Option (RenameCallback × ℕ) := none
  released : List ℕ := []
  usedReleased : Bool := false
  done : List RenameDone := []
  deriving DecidableEq

inductive RenameEvent
  | cellEdited (impl : ℕ) (handleValid hasV1 : Bool) (pathString : List ℕ) (iter : RowIter) (newname : List Char)
  | renameFile
  | fetchTorRenameResult
  | alert (number : ℕ) (failed : Bool)

namespace Renames

variable (s : Renames)

/-- `OnRenameDone`. The callback keeps its counters for the next alert. -/
def onRenameDone (failed : Bool) : Renames :=
  match s.renameDoneCb with
  | none => s
  | some (cb, number) =>
    let cb : RenameCallback :=
      ⟨cb.pendingOperations - 1, if failed then cb.failedOperations + 1 else cb.failedOperations⟩
    let s := { s with renameDoneCb := some (cb, number) }
    if cb.pendingOperations = 0 then
      { s with
        usedReleased := s.usedReleased || s.released.contains number
        released := s.released ++ [number]
        done := s.done ++ (s.edits[number]?.map fun data => ⟨number, data, cb.failedOperations⟩).toList }
    else s

/-- One event. The GUI thread handles one edit at a time, and the alert of a rename can come at any time after it. -/
def step : RenameEvent → Option Renames
  | .cellEdited impl handleValid hasV1 pathString iter newname =>
    if s.editing.isSome then none
    else if ¬ handleValid ∧ ¬ hasV1 then some s
    else
      let data : RenameData := ⟨newname, pathString, impl⟩
      let files := filesToRename iter newname
      let number := s.edits.length
      let s := { s with edits := s.edits ++ [data] }
      if handleValid then some { s with editing := some ⟨number, !hasV1, files.length, files⟩ }
      -- the parameters of a torrent that is not added yet: nothing is waited for
      else some { s with done := s.done ++ [⟨number, data, 0⟩] }
  | .renameFile =>
    match s.editing with
    | none => none
    | some e =>
      match e.rest with
      | [] => none
      | (index, _) :: rest =>
        let s := { s with editing := some { e with rest } }
        if index = -1 then some s else some { s with inFlight := s.inFlight ++ [e.number] }
  | .fetchTorRenameResult =>
    match s.editing with
    | none => none
    | some e =>
      if e.rest ≠ [] then none
      else if e.useHandle ∧ e.pendingOperations ≠ 0 then
        some { s with editing := none, renameDoneCb := some (⟨e.pendingOperations, 0⟩, e.number) }
      else some { s with editing := none }
  | .alert number failed =>
    if number ∈ s.inFlight then
      some ({ s with
        inFlight := s.inFlight.erase number
        answered := s.answered ++ [(number, failed)] }.onRenameDone failed)
    else none

/-- The states of the runs whose steps meet a condition. -/
inductive Run (ok : Renames → RenameEvent → Prop) : Renames → Prop
  | start : Run ok {}
  | step {s s' : Renames} {e : RenameEvent} (hs : Run ok s) (hok : ok s e) (h : s.step e = some s') : Run ok s'

/-- The renames of an edit that have failed. -/
def failures (number : ℕ) : ℕ := s.answered.count (number, true)

/-- What has been reported of an edit. -/
def reports (number : ℕ) : List RenameDone := s.done.filter (·.number = number)

/-- Each edit is reported once, when all its renames have been answered, with the number of those that failed. -/
structure Truthful : Prop where
  once : ∀ number data, s.edits[number]? = some data → (∀ e, s.editing = some e → e.number ≠ number) →
    s.reports number = if number ∈ s.inFlight then [] else [⟨number, data, s.failures number⟩]
  running : ∀ e, s.editing = some e → s.reports e.number = []
  unused : s.usedReleased = false

/-- The callback is set when no rename of another edit is waited for, and before an alert of its own edit is handled. All
files of the edit have an index. -/
def Orderly : RenameEvent → Prop
  | .cellEdited _ handleValid hasV1 _ iter newname =>
    handleValid = true → hasV1 = false ∧ ∀ f ∈ filesToRename iter newname, f.1 ≠ -1
  | .renameFile => True
  | .fetchTorRenameResult => ∀ e, s.editing = some e → ∀ n ∈ s.inFlight, n = e.number
  | .alert number _ => ∀ e, s.editing = some e → number ≠ e.number

variable {s} {s' : Renames} {number : ℕ} {data : RenameData}

/-- What holds between the steps of an orderly run. -/
structure Inv (s : Renames) : Prop where
  inFlight_lt : ∀ n ∈ s.inFlight, n < s.edits.length
  answered_lt : ∀ a ∈ s.answered, a.1 < s.edits.length
  done_lt : ∀ r ∈ s.done, r.number < s.edits.length
  released_done : ∀ n ∈ s.released, ∃ r ∈ s.done, r.number = n
  owned : ∀ n ∈ s.inFlight, (∃ e, s.editing = some e ∧ e.number = n) ∨ ∃ cb, s.renameDoneCb = some (cb, n)
  editing : ∀ e, s.editing = some e → e.number < s.edits.length ∧ e.useHandle = true ∧ (∀ f ∈ e.rest, f.1 ≠ -1) ∧
    0 < e.pendingOperations ∧ e.pendingOperations = s.inFlight.count e.number + e.rest.length ∧
    s.failures e.number = 0 ∧ ∀ cb n, s.renameDoneCb = some (cb, n) → n ≠ e.number
  waiting : ∀ cb n, s.renameDoneCb = some (cb, n) → n < s.edits.length ∧
    cb.pendingOperations = s.inFlight.count n ∧ cb.failedOperations = s.failures n
  truthful : s.Truthful

/-! ### The steps of an edit -/

mutual

theorem gatherRow_ne_nil : ∀ (row : FileRow) (parents : List FileRow) (newname : List Char), gatherRow parents newname row ≠ []
  | .mk label index [], parents, newname => by
    rw [gatherRow]
    exact List.cons_ne_nil _ _
  | .mk label index (child :: children), parents, newname => by
    rw [gatherRow, gatherRows]
    exact List.append_ne_nil_of_left_ne_nil (gatherRow_ne_nil child _ _) _

end

theorem filesToRename_ne_nil {iter : RowIter} {newname : List Char} : filesToRename iter newname ≠ [] := by
  rw [filesToRename]
  split
  · exact List.cons_ne_nil _ _
  · next hdir =>
    obtain ⟨child, children, hchildren⟩ := List.exists_cons_of_ne_nil hdir
    rw [gatherFiles, hchildren, gatherRows]
    exact List.append_ne_nil_of_left_ne_nil (gatherRow_ne_nil child _ _) _

theorem reports_eq_nil (h : ∀ r ∈ s.done, r.number < number) : s.reports number = [] := by
  rw [reports, List.filter_eq_nil_iff]
  intro r hr heq
  exact Nat.ne_of_lt (h r hr) (of_decide_eq_true heq)

theorem failures_eq_zero (h : ∀ a ∈ s.answered, a.1 < number) : s.failures number = 0 := by
  rw [failures, List.count_eq_zero]
  exact fun hmem => Nat.lt_irrefl _ (h _ hmem)

theorem Inv.once (h : Inv s) (hediting : s.editing = none) (hdata : s.edits[number]? = some data) :
    s.reports number = if number ∈ s.inFlight then [] else [⟨number, data, s.failures number⟩] := by
  refine h.truthful.once number data hdata fun e he => ?_
  rw [hediting] at he
  cases he

theorem filter_append_singleton (l : List RenameDone) (r : RenameDone) (number : ℕ) :
    (l ++ [r]).filter (·.number = number) =
      if r.number = number then l.filter (·.number = number) ++ [r] else l.filter (·.number = number) := by
  by_cases h : r.number = number <;> simp [h]

theorem getElem?_append_some {l : List RenameData} {new : RenameData} (h : (l ++ [new])[number]? = some data) :
    l[number]? = some data ∨ number = l.length ∧ data = new := by
  rw [List.getElem?_append] at h
  split at h
  · exact .inl h
  · next hlt =>
    have hnumber : number - l.length < 1 := (List.getElem?_eq_some_iff.mp h).1
    have hzero : number - l.length = 0 := by omega
    rw [hzero] at h
    exact .inr ⟨by omega, (Option.some.inj h).symm⟩

/-- A new edit in a file list with a torrent. -/
theorem Inv.begin (h : Inv s) (hediting : s.editing = none) {e : CellEdit} (hnumber : e.number = s.edits.length)
    (hhandle : e.useHandle = true) (hindex : ∀ f ∈ e.rest, f.1 ≠ -1) (hpos : e.rest ≠ [])
    (hpending : e.pendingOperations = e.rest.length) :
    Inv { s with edits := s.edits ++ [data], editing := some e } := by
  have hlength : (s.edits ++ [data]).length = s.edits.length + 1 := List.length_append
  have hnew : s.reports e.number = [] := reports_eq_nil fun r hr => hnumber ▸ h.done_lt r hr
  have hcount : s.inFlight.count e.number = 0 :=
    List.count_eq_zero.mpr fun hmem => Nat.lt_irrefl _ (hnumber ▸ h.inFlight_lt _ hmem)
  refine {
    inFlight_lt := fun n hn => hlength ▸ (h.inFlight_lt n hn).trans (Nat.lt_succ_self _)
    answered_lt := fun a ha => hlength ▸ (h.answered_lt a ha).trans (Nat.lt_succ_self _)
    done_lt := fun r hr => hlength ▸ (h.done_lt r hr).trans (Nat.lt_succ_self _)
    released_done := h.released_done
    owned := fun n hn => ?_
    editing := fun e' he => ?_
    waiting := fun cb n hcb => ?_
    truthful := { once := fun number data' hdata hne => ?_, running := fun e' he => ?_, unused := h.truthful.unused } }
  · obtain ⟨e', he, -⟩ | howned := h.owned n hn
    · rw [hediting] at he
      cases he
    · exact .inr howned
  · obtain rfl := Option.some.inj he
    have hlen := List.length_pos_iff.mpr hpos
    refine ⟨by rw [hnumber, hlength]; exact Nat.lt_succ_self _, hhandle, hindex, by omega, by rw [hcount, hpending]; omega,
      failures_eq_zero fun a ha => hnumber ▸ h.answered_lt a ha, fun cb n hcb => ?_⟩
    have := (h.waiting cb n hcb).1
    omega
  · obtain ⟨hlt, hrest⟩ := h.waiting cb n hcb
    exact ⟨hlength ▸ hlt.trans (Nat.lt_succ_self _), hrest⟩
  · obtain hdata | ⟨heq, -⟩ := getElem?_append_some hdata
    · exact h.once hediting hdata
    · exact absurd (hnumber.trans heq.symm) (hne e rfl)
  · obtain rfl := Option.some.inj he
    exact hnew

/-- A new edit in a file list without a torrent, which is reported at once. -/
theorem Inv.report (h : Inv s) (hediting : s.editing = none) :
    Inv { s with edits := s.edits ++ [data], done := s.done ++ [⟨s.edits.length, data, 0⟩] } := by
  have hlength : (s.edits ++ [data]).length = s.edits.length + 1 := List.length_append
  refine {
    inFlight_lt := fun n hn => hlength ▸ (h.inFlight_lt n hn).trans (Nat.lt_succ_self _)
    answered_lt := fun a ha => hlength ▸ (h.answered_lt a ha).trans (Nat.lt_succ_self _)
    done_lt := fun r hr => ?_
    released_done := fun n hn => ?_
    owned := h.owned
    editing := fun e he => ?_
    waiting := fun cb n hcb => ?_
    truthful := { once := fun number data' hdata hne => ?_, running := fun e he => ?_, unused := h.truthful.unused } }
  · obtain hr | hr := List.mem_append.mp hr
    · exact hlength ▸ (h.done_lt r hr).trans (Nat.lt_succ_self _)
    · rw [List.mem_singleton.mp hr, hlength]
      exact Nat.lt_succ_self _
  · obtain ⟨r, hr, hrn⟩ := h.released_done n hn
    exact ⟨r, List.mem_append_left _ hr, hrn⟩
  · change s.editing = some e at he
    rw [hediting] at he
    cases he
  · obtain ⟨hlt, hrest⟩ := h.waiting cb n hcb
    exact ⟨hlength ▸ hlt.trans (Nat.lt_succ_self _), hrest⟩
  · rw [reports, filter_append_singleton]
    obtain hdata | ⟨rfl, rfl⟩ := getElem?_append_some hdata
    · have hlt := (List.getElem?_eq_some_iff.mp hdata).1
      rw [if_neg (Nat.ne_of_gt hlt)]
      exact h.once hediting hdata
    · have hold : s.done.filter (·.number = s.edits.length) = [] := reports_eq_nil h.done_lt
      have hfailures : s.failures s.edits.length = 0 := failures_eq_zero h.answered_lt
      rw [if_pos rfl, if_neg fun hmem => Nat.lt_irrefl _ (h.inFlight_lt _ hmem), hold]
      change [_] = [RenameDone.mk _ _ (s.failures s.edits.length : ℤ)]
      rw [hfailures]
      rfl
  · change s.editing = some e at he
    rw [hediting] at he
    cases he

theorem Inv.cellEdited (h : Inv s) {impl : ℕ} {handleValid hasV1 : Bool} {pathString : List ℕ} {iter : RowIter}
    {newname : List Char} (hok : s.Orderly (.cellEdited impl handleValid hasV1 pathString iter newname))
    (hs : s.step (.cellEdited impl handleValid hasV1 pathString iter newname) = some s') : Inv s' := by
  rw [step] at hs
  split_ifs at hs with hediting hnone hvalid
  · cases hs
    exact h
  · cases hs
    obtain ⟨hv1, hindex⟩ := hok hvalid
    have hnone : s.editing = none := Option.not_isSome_iff_eq_none.mp hediting
    exact h.begin hnone rfl (by rw [hv1]; rfl) hindex filesToRename_ne_nil rfl
  · cases hs
    exact h.report (Option.not_isSome_iff_eq_none.mp hediting)

theorem Inv.renameFile (h : Inv s) (hs : s.step .renameFile = some s') : Inv s' := by
  rw [step] at hs
  split at hs
  · cases hs
  next e hediting =>
  split at hs
  · cases hs
  next index path rest hrest =>
  obtain ⟨hlt, hhandle, hindex, hpos, hpending, hfailures, hslot⟩ := h.editing e hediting
  rw [hrest] at hindex hpending
  rw [if_neg (hindex _ List.mem_cons_self)] at hs
  obtain rfl := Option.some.inj hs
  refine {
    inFlight_lt := fun n hn => ?_
    answered_lt := h.answered_lt
    done_lt := h.done_lt
    released_done := h.released_done
    owned := fun n hn => ?_
    editing := fun e' he => ?_
    waiting := fun cb n hcb => ?_
    truthful := { once := fun number data hdata hne => ?_, running := fun e' he => ?_, unused := h.truthful.unused } }
  · obtain hn | hn := List.mem_append.mp hn
    · exact h.inFlight_lt n hn
    · rw [List.mem_singleton.mp hn]
      exact hlt
  · obtain hn | hn := List.mem_append.mp hn
    · obtain ⟨e', he, hnumber⟩ | howned := h.owned n hn
      · obtain rfl := Option.some.inj (hediting.symm.trans he)
        exact .inl ⟨_, rfl, hnumber⟩
      · exact .inr howned
    · exact .inl ⟨_, rfl, (List.mem_singleton.mp hn).symm⟩
  · obtain rfl := Option.some.inj he
    refine ⟨hlt, hhandle, fun f hf => hindex f (List.mem_cons_of_mem _ hf), hpos, ?_, hfailures, hslot⟩
    dsimp only
    rw [hpending, List.count_append, List.count_singleton_self, List.length_cons]
    omega
  · obtain ⟨hlt', hcount, hfailed⟩ := h.waiting cb n hcb
    have hne := hslot cb n hcb
    refine ⟨hlt', ?_, hfailed⟩
    rw [hcount, List.count_append, List.count_cons_of_ne hne.symm, List.count_nil, Nat.add_zero]
  · have hne' : e.number ≠ number := hne { e with rest } rfl
    have honce := h.truthful.once number data hdata fun e' he => by
      obtain rfl := Option.some.inj (hediting.symm.trans he)
      exact hne'
    have hmem : number ∈ s.inFlight ++ [e.number] ↔ number ∈ s.inFlight := by
      rw [List.mem_append, List.mem_singleton]
      exact or_iff_left hne'.symm
    exact honce.trans (if_congr hmem.symm rfl rfl)
  · obtain rfl := Option.some.inj he
    exact h.truthful.running e hediting

theorem Inv.fetchTorRenameResult (h : Inv s) (hok : s.Orderly .fetchTorRenameResult)
    (hs : s.step .fetchTorRenameResult = some s') : Inv s' := by
  rw [step] at hs
  split at hs
  · cases hs
  next e hediting =>
  split at hs
  · cases hs
  next hrest =>
  obtain ⟨hlt, hhandle, -, hpos, hpending, hfailures, -⟩ := h.editing e hediting
  rw [if_pos ⟨hhandle, by omega⟩] at hs
  obtain rfl := Option.some.inj hs
  have hnil : e.rest = [] := not_not.mp hrest
  have hall := hok e hediting
  rw [hnil, List.length_nil] at hpending
  refine {
    inFlight_lt := h.inFlight_lt
    answered_lt := h.answered_lt
    done_lt := h.done_lt
    released_done := h.released_done
    owned := fun n hn => .inr ⟨⟨e.pendingOperations, 0⟩, ?_⟩
    editing := fun e' he => ?_
    waiting := fun cb n hcb => ?_
    truthful := { once := fun number data hdata _ => ?_, running := fun e' he => ?_, unused := h.truthful.unused } }
  · have hn := hall n hn
    subst hn
    rfl
  · cases he
  · cases hcb
    exact ⟨hlt, by rw [hpending]; exact add_zero _, by rw [← Int.natCast_zero, ← hfailures]; rfl⟩
  · by_cases hnumber : e.number = number
    · subst hnumber
      have hmem : e.number ∈ s.inFlight := List.count_pos_iff.mp (by omega)
      have hrunning := h.truthful.running e hediting
      exact hrunning.trans (if_pos hmem).symm
    · refine h.truthful.once number data hdata fun e' he => ?_
      obtain rfl := Option.some.inj (hediting.symm.trans he)
      exact hnumber
  · cases he

/-! ### An alert -/

theorem failures_append (answered : List (ℕ × Bool)) (n : ℕ) (failed : Bool) (m : ℕ) :
    (answered ++ [(n, failed)]).count (m, true) = answered.count (m, true) + if n = m ∧ failed = true then 1 else 0 := by
  rw [List.count_append, List.count_singleton]
  congr 1
  cases failed <;> simp

/-- The counters after an alert of the edit that the callback is for. What is done with the user data is left open. -/
theorem Inv.answer (h : Inv s) {cb : RenameCallback} {n : ℕ} (hslot : s.renameDoneCb = some (cb, n)) (hn : n ∈ s.inFlight)
    (hother : ∀ e, s.editing = some e → n ≠ e.number) {failed : Bool} {done : List RenameDone} {released : List ℕ}
    (hdata : s.edits[n]? = some data) (hdone_lt : ∀ r ∈ done, r.number < s.edits.length)
    (hreleased : ∀ m ∈ released, ∃ r ∈ done, r.number = m)
    (hdone_ne : ∀ m, m ≠ n → done.filter (·.number = m) = s.reports m)
    (hdone : done.filter (·.number = n) = if n ∈ s.inFlight.erase n then [] else
      [⟨n, data, (if failed then cb.failedOperations + 1 else cb.failedOperations)⟩]) :
    Inv { s with
      inFlight := s.inFlight.erase n
      answered := s.answered ++ [(n, failed)]
      renameDoneCb := some (⟨cb.pendingOperations - 1,
        if failed then cb.failedOperations + 1 else cb.failedOperations⟩, n)
      released
      usedReleased := false
      done } := by
  obtain ⟨hlt, hcount, hfailed⟩ := h.waiting cb n hslot
  have hpos : 0 < s.inFlight.count n := List.count_pos_iff.mpr hn
  have hfailures : ((s.answered ++ [(n, failed)]).count (n, true) : ℤ) =
      if failed then cb.failedOperations + 1 else cb.failedOperations := by
    rw [failures_append, hfailed, failures]
    cases failed <;> simp
  have hfailures_ne : ∀ m, m ≠ n → (s.answered ++ [(n, failed)]).count (m, true) = s.failures m := by
    intro m hm
    rw [failures_append, if_neg fun heq => hm heq.1.symm]
    rfl
  refine {
    inFlight_lt := fun m hm => h.inFlight_lt m (List.mem_of_mem_erase hm)
    answered_lt := fun a ha => ?_
    done_lt := hdone_lt
    released_done := hreleased
    owned := fun m hm => ?_
    editing := fun e he => ?_
    waiting := fun cb' m hcb => ?_
    truthful := { once := fun number data' hdata' hne => ?_, running := fun e he => ?_, unused := rfl } }
  · obtain ha | ha := List.mem_append.mp ha
    · exact h.answered_lt a ha
    · rw [List.mem_singleton.mp ha]
      exact hlt
  · obtain howned | ⟨cb', hcb'⟩ := h.owned m (List.mem_of_mem_erase hm)
    · exact .inl howned
    · rw [hslot] at hcb'
      cases hcb'
      exact .inr ⟨_, rfl⟩
  · obtain ⟨helt, hhandle, hindex, hepos, hepending, hefailures, -⟩ := h.editing e he
    have hne := hother e he
    refine ⟨helt, hhandle, hindex, hepos, ?_, ?_, fun cb' m hcb => ?_⟩
    · dsimp only
      rw [List.count_erase_of_ne hne.symm]
      exact hepending
    · exact (hfailures_ne _ hne.symm).trans hefailures
    · cases hcb
      exact hne
  · cases hcb
    refine ⟨hlt, ?_, hfailures.symm⟩
    dsimp only
    rw [List.count_erase_self, hcount]
    omega
  · by_cases hnumber : number = n
    · subst hnumber
      obtain rfl := Option.some.inj (hdata.symm.trans hdata')
      refine hdone.trans ?_
      rw [← hfailures]
      rfl
    · have hmem : number ∈ s.inFlight.erase n ↔ number ∈ s.inFlight := List.mem_erase_of_ne hnumber
      refine (hdone_ne number hnumber).trans ((h.truthful.once number data' hdata' hne).trans ?_)
      rw [← hfailures_ne number hnumber]
      exact if_congr hmem.symm rfl rfl
  · exact (hdone_ne _ (hother e he).symm).trans (h.truthful.running e he)

theorem Inv.alert (h : Inv s) {n : ℕ} {failed : Bool} (hok : s.Orderly (.alert n failed))
    (hs : s.step (.alert n failed) = some s') : Inv s' := by
  rw [step] at hs
  split at hs
  · next hn =>
    obtain rfl := Option.some.inj hs
    obtain ⟨e, he, hnumber⟩ | ⟨cb, hslot⟩ := h.owned n hn
    · exact absurd hnumber.symm (hok e he)
    obtain ⟨hlt, hcount, -⟩ := h.waiting cb n hslot
    obtain ⟨data, hdata⟩ : ∃ data, s.edits[n]? = some data := ⟨_, List.getElem?_eq_getElem hlt⟩
    have hunreported : s.reports n = [] :=
      (h.truthful.once n data hdata fun e he => (hok e he).symm).trans (if_pos hn)
    have hpos : 0 < s.inFlight.count n := List.count_pos_iff.mpr hn
    have herase : (s.inFlight.erase n).count n = s.inFlight.count n - 1 := List.count_erase_self
    rw [onRenameDone, hslot]
    dsimp only
    split
    · next hzero =>
      have hlast : n ∉ s.inFlight.erase n := by
        rw [← List.count_pos_iff]
        omega
      have hreleased : n ∉ s.released := by
        intro hmem
        obtain ⟨r, hr, hnumber⟩ := h.released_done n hmem
        have hreport : r ∈ s.reports n := List.mem_filter.mpr ⟨hr, decide_eq_true hnumber⟩
        rw [hunreported] at hreport
        cases hreport
      have hcontains : s.released.contains n = false := by simpa using hreleased
      rw [hdata, h.truthful.unused, hcontains]
      refine h.answer hslot hn hok hdata (fun r hr => ?_) (fun m hm => ?_) (fun m hm => ?_) ?_
      · obtain hr | hr := List.mem_append.mp hr
        · exact h.done_lt r hr
        · rw [Option.map_some, Option.toList_some, List.mem_singleton] at hr
          rw [hr]
          exact hlt
      · obtain hm | hm := List.mem_append.mp hm
        · obtain ⟨r, hr, hnumber⟩ := h.released_done m hm
          exact ⟨r, List.mem_append_left _ hr, hnumber⟩
        · refine ⟨_, List.mem_append_right _ (List.mem_singleton_self _), ?_⟩
          exact (List.mem_singleton.mp hm).symm
      · exact (filter_append_singleton _ _ _).trans (if_neg hm.symm)
      · refine (filter_append_singleton _ _ _).trans ?_
        rw [if_pos rfl, if_neg hlast]
        exact congrArg (· ++ _) hunreported
    · next hmore =>
      have hmem : n ∈ s.inFlight.erase n := by
        rw [← List.count_pos_iff]
        omega
      have hunused := h.truthful.unused
      have hanswer := @Inv.answer s data h cb n hslot hn hok failed _ _ hdata h.done_lt h.released_done (fun _ _ => rfl)
        (by rw [if_pos hmem]; exact hunreported)
      rwa [← hunused] at hanswer
  · cases hs

theorem Run.inv (h : Run Orderly s) : Inv s := by
  induction h with
  | start =>
    refine {
      inFlight_lt := fun n hn => ?_, answered_lt := fun a ha => ?_, done_lt := fun r hr => ?_, released_done := fun n hn => ?_,
      owned := fun n hn => ?_, editing := fun e he => ?_, waiting := fun cb n hcb => ?_,
      truthful := { once := fun number data hdata _ => ?_, running := fun e he => ?_, unused := rfl } }
    · cases hn
    · cases ha
    · cases hr
    · cases hn
    · cases hn
    · cases he
    · cases hcb
    · cases hdata
    · cases he
  | @step s s' e hs hok h ih =>
    cases e with
    | cellEdited => exact ih.cellEdited hok h
    | renameFile => exact ih.renameFile h
    | fetchTorRenameResult => exact ih.fetchTorRenameResult hok h
    | alert => exact ih.alert hok h

/-- In an orderly run each edit is reported once and truthfully. -/
theorem truthful_of_orderly (h : Run Orderly s) : s.Truthful := h.inv.truthful

/-- The edit of the only file of a torrent. -/
def editFile (impl : ℕ) : RenameEvent := .cellEdited impl true false [0] ⟨.mk ['a'] 0 [], []⟩ ['x']

/-- The renames after an edit whose file could not be renamed. -/
def failedEdit : Renames :=
  { edits := [⟨['x'], [0], 0⟩]
    answered := [(0, true)]
    renameDoneCb := some (⟨0, 1⟩, 0)
    released := [0]
    done := [⟨0, ⟨['x'], [0], 0⟩, 1⟩] }

theorem run_failedEdit : Run Orderly failedEdit := by
  have hedit : Run Orderly _ := .step .start (e := editFile 0) (fun _ => ⟨rfl, by decide⟩) rfl
  have hrename : Run Orderly _ := .step hedit (e := .renameFile) trivial rfl
  have hfetch : Run Orderly _ := .step hrename (e := .fetchTorRenameResult)
    (fun e he n hn => by cases he; exact List.mem_singleton.mp hn) rfl
  exact .step hfetch (e := .alert 0 true) (fun e he => by cases he) rfl

theorem truthful_of_orderly_failedEdit : failedEdit.Truthful := truthful_of_orderly run_failedEdit

/-- Two file lists: the answer to the first edit is taken for the answer to the second one. -/
theorem not_truthful : ¬ ∀ s, Run (fun _ _ => True) s → s.Truthful := by
  intro h
  have hfirst : Run (fun _ _ => True) _ := .step (.step (.step .start (e := editFile 0) trivial rfl)
    (e := .renameFile) trivial rfl) (e := .fetchTorRenameResult) trivial rfl
  have hsecond : Run (fun _ _ => True) _ := .step (.step (.step hfirst (e := editFile 1) trivial rfl)
    (e := .renameFile) trivial rfl) (e := .fetchTorRenameResult) trivial rfl
  have halert : Run (fun _ _ => True) _ := .step hsecond (e := .alert 0 false) trivial rfl
  have honce := (h _ halert).once 1 ⟨['x'], [0], 1⟩ rfl fun e he => by cases he
  revert honce
  decide

end Renames

end Client

end LibtorrentSN
