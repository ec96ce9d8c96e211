import LibtorrentSN.Torrent.FilePriority

/-!
# Overlapping updates of file priorities

`set_file_priority` and `prioritize_files` may be called while the disk job of an earlier call is
still under way. The vector that results should be the one the calls give in the order they were
made. A flag tells whether a job is outstanding; it can't tell that two are, and an update that had
to wait is merged into the vector of the job that is done, not of the one submitted last.
-/

namespace LibtorrentSN

namespace Torrent

/-- A call of the user. -/
inductive Call where
  | prioritizeFiles (files : List ℕ)
  | setFilePriority (index : ℤ) (prio : ℕ)
deriving Repr, DecidableEq

/-- What a slot of a vector of file priorities reads as. -/
def readAt (files : Option FileStorage) (v : List ℕ) (i : ℕ) : ℕ :=
  match files with
  | none => v.getD i defaultPriority
  | some fs => if fs.numFiles ≤ i then 0 else v.getD i defaultPriority

/-- What a call makes of the vector, if it is carried out at once. -/
def Call.onVector (files : Option FileStorage) (v : List ℕ) : Call → List ℕ
  | .prioritizeFiles w => fixPriorities w files
  | .setFilePriority index prio =>
    if index < 0 ∨ (∃ fs, files = some fs ∧ (fs.numFiles : ℤ) ≤ index) then v
    else Priorities.overwriteSlot v index.toNat (min prio topPriority)

namespace Priorities

def call (t : Priorities) : Call → Priorities
  | .prioritizeFiles files => t.prioritizeFiles files
  | .setFilePriority index prio => t.setFilePriority index prio

/-- A call, or the completion of the oldest job. -/
inductive Event where
  | call (c : Call)
  | jobDone

def apply (t : Priorities) : Event → Priorities
  | .call c => t.call c
  | .jobDone => t.jobDone

/-- The vector the calls give in call order. -/
def Event.onVector (files : Option FileStorage) (v : List ℕ) : Event → List ℕ
  | .call c => c.onVector files v
  | .jobDone => v

/-- The runs from a torrent without outstanding jobs, of events of which `ok` holds, with the vector
that the calls so far give in call order. The storage is made when the metadata is there. -/
inductive Run (ok : Priorities → Event → Prop) : Priorities → List ℕ → Prop
  | start {t : Priorities} (hfiles : t.storage = true → t.files.isSome) (hjobs : t.jobs = [])
      (hout : t.outstanding = false) (hdef : t.deferred = []) : Run ok t t.filePriority
  | step {t : Priorities} {v : List ℕ} (h : Run ok t v) (e : Event) (he : ok t e) :
      Run ok (t.apply e) (e.onVector t.files v)

/-- The vector of the job submitted last. -/
def newest (t : Priorities) : List ℕ := t.jobs.getLast?.getD t.filePriority

/-- When an event does what it should. `set_file_priority` may find the flag down while a job is
under way: then the vector it starts from has to read like the one of that job. And when a job is
done while updates wait, it has to be the only one, and as `prioritize_files` is used to carry the
updates out, no file may be wanted. -/
def InOrder (t : Priorities) : Event → Prop
  | .call (.prioritizeFiles _) => True
  | .call (.setFilePriority _ _) =>
    t.outstanding = false → ∀ i, readAt t.files t.newest i = t.filePriorityAt i
  | .jobDone => t.deferred ≠ [] →
    t.jobs.length = 1 ∧ ∀ i, readAt t.files (merge t.newest t.deferred) i = 0

/-! ### Slots -/

variable {t : Priorities} {v : List ℕ} {deferred : List (ℕ × ℕ)} {i index prio : ℕ}

theorem getD_overwriteSlot (v : List ℕ) (index prio i : ℕ) :
    (overwriteSlot v index prio).getD i defaultPriority =
      if i = index then prio else v.getD i defaultPriority := by
  rw [overwriteSlot, getD_set]
  by_cases hi : i = index
  · subst hi
    rw [if_pos rfl, if_pos]
    refine ⟨rfl, ?_⟩
    split
    next h =>
      simp only [resize, List.length_append, List.length_take, List.length_replicate]
      omega
    next h => omega
  · rw [if_neg hi, if_neg fun hc => hi hc.1.symm]
    split
    next h =>
      rw [getD_resize]
      split
      next => rfl
      next hc => exact (List.getD_eq_default _ _ (by omega)).symm
    next => rfl

theorem lookup_cons_ite (k q : ℕ) (rest : List (ℕ × ℕ)) (i : ℕ) :
    ((k, q) :: rest).lookup i = if i = k then some q else rest.lookup i := by
  rw [List.lookup_cons]
  by_cases hi : i = k
  · rw [if_pos hi, beq_iff_eq.mpr hi]
  · rw [if_neg hi, beq_eq_false_iff_ne.mpr hi]

theorem lookup_insertDeferred : (insertDeferred index prio deferred).lookup i =
    if i = index then some prio else deferred.lookup i := by
  induction deferred with
  | nil => rw [insertDeferred, lookup_cons_ite]
  | cons x rest ih =>
    obtain ⟨k, q⟩ := x
    rw [insertDeferred]
    split
    next hlt => rw [lookup_cons_ite]
    next hlt =>
      split
      next heq =>
        subst heq
        rw [lookup_cons_ite, lookup_cons_ite]
        split <;> rfl
      next hne =>
        rw [lookup_cons_ite, lookup_cons_ite, ih]
        by_cases hi : i = k
        · subst hi
          rw [if_pos rfl, if_neg (Ne.symm hne), if_pos rfl]
        · rw [if_neg hi, if_neg hi]

theorem sorted_insertDeferred (h : deferred.Pairwise (·.1 < ·.1)) :
    (insertDeferred index prio deferred).Pairwise (·.1 < ·.1) ∧
    ∀ x ∈ insertDeferred index prio deferred, x.1 = index ∨ ∃ y ∈ deferred, y.1 = x.1 := by
  induction deferred with
  | nil => exact ⟨List.pairwise_singleton _ _, fun x hx => .inl (by simp [insertDeferred] at hx; rw [hx])⟩
  | cons y rest ih =>
    obtain ⟨k, q⟩ := y
    obtain ⟨hhead, hrest⟩ := List.pairwise_cons.mp h
    obtain ⟨hs, hkeys⟩ := ih hrest
    rw [insertDeferred]
    split
    next hlt =>
      refine ⟨List.pairwise_cons.mpr ⟨fun x hx => ?_, h⟩, fun x hx => ?_⟩
      · rcases List.mem_cons.mp hx with rfl | hx
        · exact hlt
        · exact hlt.trans (hhead x hx)
      · rcases List.mem_cons.mp hx with rfl | hx
        · exact .inl rfl
        · exact .inr ⟨x, hx, rfl⟩
    next hlt =>
      split
      next heq =>
        refine ⟨List.pairwise_cons.mpr ⟨hhead, hrest⟩, fun x hx => ?_⟩
        rcases List.mem_cons.mp hx with rfl | hx
        · exact .inl heq.symm
        · exact .inr ⟨x, List.mem_cons_of_mem _ hx, rfl⟩
      next hne =>
        refine ⟨List.pairwise_cons.mpr ⟨fun x hx => ?_, hs⟩, fun x hx => ?_⟩
        · rcases hkeys x hx with hx | ⟨y, hy, hyx⟩
          · change k < x.1
            omega
          · exact hyx ▸ hhead y hy
        · rcases List.mem_cons.mp hx with rfl | hx
          · exact .inr ⟨_, List.mem_cons_self, rfl⟩
          · rcases hkeys x hx with hx | ⟨y, hy, hyx⟩
            · exact .inl hx
            · exact .inr ⟨y, List.mem_cons_of_mem _ hy, hyx⟩

theorem getD_foldl_set (h : deferred.Pairwise (·.1 < ·.1)) (hlen : ∀ x ∈ deferred, x.1 < v.length) :
    (deferred.foldl (fun v x => v.set x.1 x.2) v).getD i defaultPriority =
      (deferred.lookup i).getD (v.getD i defaultPriority) := by
  induction deferred generalizing v with
  | nil => rfl
  | cons y rest ih =>
    obtain ⟨k, q⟩ := y
    obtain ⟨hhead, hrest⟩ := List.pairwise_cons.mp h
    have hk : k < v.length := hlen _ List.mem_cons_self
    rw [List.foldl_cons, ih hrest fun x hx => by
      rw [List.length_set]
      exact hlen x (List.mem_cons_of_mem _ hx)]
    rw [lookup_cons_ite, getD_set]
    by_cases hi : i = k
    · subst hi
      have hnone : rest.lookup i = none := by
        refine List.lookup_eq_none_iff.mpr fun x hx => ?_
        exact bne_iff_ne.mpr (hhead x hx).ne
      rw [hnone, if_pos ⟨rfl, hk⟩, if_pos rfl]
      rfl
    · rw [if_neg hi, if_neg fun hc => hi hc.1.symm]

/-- A deferred update shows in its slot, the other slots are as they were. -/
theorem getD_merge (h : deferred.Pairwise (·.1 < ·.1)) : (merge v deferred).getD i defaultPriority =
    (deferred.lookup i).getD (v.getD i defaultPriority) := by
  rw [merge]
  split
  next hnone =>
    rw [List.getLast?_eq_none_iff.mp hnone]
    rfl
  next m q hlast =>
    have hle : ∀ x ∈ deferred, x.1 ≤ m := by
      intro x hx
      obtain ⟨l, rfl⟩ := List.getLast?_eq_some_iff.mp hlast
      rcases List.mem_append.mp hx with hx | hx
      · exact ((List.pairwise_append.mp h).2.2 x hx _ List.mem_cons_self).le
      · rw [List.mem_singleton.mp hx]
    rw [getD_foldl_set h]
    · congr 1
      split
      next hlen =>
        rw [getD_resize]
        split
        next => rfl
        next hc => exact (List.getD_eq_default _ _ (by omega)).symm
      next => rfl
    · intro x hx
      have := hle x hx
      split
      next hlen =>
        simp only [resize, List.length_append, List.length_take, List.length_replicate]
        omega
      next => omega

/-! ### Runs -/

/-- The invariant: the vector of the job submitted last reads like the one the calls give, once the
deferred updates are in it. -/
structure Pending (t : Priorities) (v : List ℕ) : Prop where
  files : t.storage = true → t.files.isSome
  sync : t.storage = false → t.jobs = []
  idle : t.jobs = [] → t.outstanding = false
  nothingDeferred : t.outstanding = false → t.deferred = []
  sorted : t.deferred.Pairwise (·.1 < ·.1)
  reads : ∀ i, readAt t.files v i = readAt t.files (merge t.newest t.deferred) i

theorem readAt_congr {files : Option FileStorage} {v w : List ℕ}
    (h : v.getD i defaultPriority = w.getD i defaultPriority) : readAt files v i = readAt files w i := by
  cases files with
  | none => exact h
  | some fs => simp only [readAt, h]

theorem filePriorityAt_eq (t : Priorities) (i : ℕ) :
    t.filePriorityAt i = readAt t.files t.filePriority i := rfl

/-- The same update of two vectors that read alike. -/
theorem readAt_update {files : Option FileStorage} {v w v' w' : List ℕ} {k prio : ℕ}
    (hv : v'.getD i defaultPriority = if i = k then prio else v.getD i defaultPriority)
    (hw : w'.getD i defaultPriority = if i = k then prio else w.getD i defaultPriority)
    (h : readAt files v i = readAt files w i) : readAt files v' i = readAt files w' i := by
  by_cases hi : i = k
  · rw [if_pos hi] at hv hw
    exact readAt_congr (hv.trans hw.symm)
  · rw [if_neg hi] at hv hw
    rw [readAt_congr hv, readAt_congr hw, h]

theorem merge_nil (v : List ℕ) : merge v [] = v := rfl

/-- A vector that is submitted while nothing is deferred is the newest. -/
theorem Pending.submit (h : t.Pending v) (hdef : t.deferred = []) {w w' : List ℕ}
    (hread : ∀ i, readAt t.files w' i = readAt t.files w i) : (t.submit w).Pending w' := by
  rw [Priorities.submit]
  split
  next hst =>
    refine ⟨h.files, fun hc => absurd (hst.symm.trans hc) (by simp), fun hc => absurd hc (by simp),
      fun hc => absurd hc (by simp), h.sorted, fun i => ?_⟩
    rw [hread i, newest, hdef, merge_nil, List.getLast?_concat]
    rfl
  next hst =>
    have hst' : t.storage = false := by simpa using hst
    have hjobs := h.sync hst'
    refine ⟨fun hc => absurd hc hst, h.sync, h.idle, h.nothingDeferred, h.sorted, fun i => ?_⟩
    rw [hread i, newest, hdef, merge_nil]
    simp only [hjobs, List.getLast?_nil, Option.getD_none]

theorem prioritizeFiles_files (t : Priorities) (w : List ℕ) : (t.prioritizeFiles w).files = t.files := by
  rw [Priorities.prioritizeFiles, Priorities.submit]
  split <;> rfl

theorem Pending.prioritizeFiles (h : t.Pending v) (w : List ℕ) :
    (t.prioritizeFiles w).Pending (fixPriorities w t.files) := by
  have hclear : Pending { t with deferred := [] } t.newest :=
    ⟨h.files, h.sync, h.idle, fun _ => rfl, .nil, fun _ => rfl⟩
  exact hclear.submit rfl fun _ => rfl

theorem Pending.setFilePriority (h : t.Pending v) (index : ℤ) (prio : ℕ)
    (hok : t.outstanding = false → ∀ i, readAt t.files t.newest i = t.filePriorityAt i) :
    (t.setFilePriority index prio).Pending ((Call.setFilePriority index prio).onVector t.files v) := by
  rw [Priorities.setFilePriority, Call.onVector]
  split
  next => exact h
  split
  next hout =>
    refine ⟨h.files, h.sync, h.idle, fun hc => absurd hout (by simp [show t.outstanding = false from hc]),
      (sorted_insertDeferred h.sorted).1, fun i => ?_⟩
    -- the update waits, and shows in its slot
    refine readAt_update (getD_overwriteSlot _ _ _ _) ?_ (h.reads i)
    change (merge t.newest (insertDeferred _ _ t.deferred)).getD i defaultPriority = _
    rw [getD_merge (sorted_insertDeferred h.sorted).1, getD_merge h.sorted, lookup_insertDeferred]
    split <;> rfl
  next hout =>
    have hout' : t.outstanding = false := by simpa using hout
    have hdef := h.nothingDeferred hout'
    refine h.submit hdef fun i => ?_
    have hread := h.reads i
    rw [hdef, merge_nil, hok hout' i, filePriorityAt_eq] at hread
    exact readAt_update (getD_overwriteSlot _ _ _ _) (getD_overwriteSlot _ _ _ _) hread

/-- The completion of a job keeps everything but the priorities and the flag. -/
theorem Pending.jobDone (h : t.Pending v) (hok : t.deferred ≠ [] →
      t.jobs.length = 1 ∧ ∀ i, readAt t.files (merge t.newest t.deferred) i = 0) :
    t.jobDone.Pending v := by
  rw [Priorities.jobDone]
  split
  next => exact h
  next prios jobs hjobs =>
    have hst : t.storage = true := by
      refine by_contra fun hc => ?_
      rw [h.sync (by simpa using hc)] at hjobs
      exact absurd hjobs (by simp)
    obtain ⟨fs, hfs⟩ := Option.isSome_iff_exists.mp (h.files hst)
    -- `on_file_priority` up to the deferred updates
    have hset : ∃ picker, (if t.filePriority ≠ prios then
        { { t with jobs := jobs, outstanding := false }.updatePiecePriorities prios with
          filePriority := prios } else { t with jobs := jobs, outstanding := false }) =
        { t with jobs := jobs, outstanding := false, filePriority := prios, picker } := by
      obtain ⟨picker, he, -⟩ := updatePiecePriorities_eq
        { t with jobs := jobs, outstanding := false } prios
      split
      next => exact ⟨picker, by rw [he]⟩
      next hsame => exact ⟨t.picker, by rw [← not_not.mp hsame]⟩
    obtain ⟨picker, hset⟩ := hset
    simp only [onFilePriority, hset]
    by_cases hdef : t.deferred = []
    · rw [if_neg (not_not.mpr hdef)]
      refine ⟨h.files, fun hc => absurd (hst.symm.trans hc) (by simp), fun _ => rfl, fun _ => hdef,
        h.sorted, fun i => ?_⟩
      have hnew : newest { t with jobs := jobs, outstanding := false, filePriority := prios, picker } =
          t.newest := by
        simp only [newest, hjobs]
        cases jobs with
        | nil => rfl
        | cons j js => simp [List.getLast?_cons]
      rw [h.reads i]
      exact congrArg (fun w => readAt t.files (merge w t.deferred) i) hnew.symm
    · rw [if_pos hdef]
      obtain ⟨hone, hzero⟩ := hok hdef
      obtain rfl : jobs = [] := by
        rw [hjobs, List.length_cons] at hone
        exact List.length_eq_zero_iff.mp (by omega)
      have hnew : t.newest = prios := by simp [newest, hjobs]
      rw [hnew] at hzero
      have hclear : Pending { t with
          jobs := [], outstanding := false, filePriority := prios, picker, deferred := [] } prios :=
        ⟨h.files, fun hc => absurd (hst.symm.trans hc) (by simp), fun _ => rfl, fun _ => rfl, .nil,
          fun _ => rfl⟩
      have hp := hclear.prioritizeFiles (merge prios t.deferred)
      refine ⟨hp.files, hp.sync, hp.idle, hp.nothingDeferred, hp.sorted, fun i => ?_⟩
      rw [← hp.reads i]
      rw [prioritizeFiles_files]
      change readAt t.files v i = readAt t.files (fixPriorities (merge prios t.deferred) t.files) i
      rw [h.reads i, hnew, hzero i, hfs, fixPriorities_some]
      simp only [readAt]
      split
      next => rfl
      next hi => exact (List.getD_replicate _ (Nat.lt_of_not_le hi)).symm

theorem Run.pending (h : Run InOrder t v) : t.Pending v := by
  induction h with
  | start hfiles hjobs hout hdef =>
    refine ⟨hfiles, fun _ => hjobs, fun _ => hout, fun _ => hdef, by rw [hdef]; exact .nil, fun i => ?_⟩
    rw [newest, hjobs, hdef]
    rfl
  | step h e he ih =>
    cases e with
    | call c =>
      cases c with
      | prioritizeFiles w => exact ih.prioritizeFiles w
      | setFilePriority index prio => exact ih.setFilePriority index prio he
    | jobDone => exact ih.jobDone he

/-- In a run of events that are in order, the file priorities are the ones the calls give in call
order, once no job is outstanding and no update is deferred. -/
theorem run_applies_in_order (h : Run InOrder t v) (hjobs : t.jobs = []) (hdef : t.deferred = [])
    (i : ℕ) : t.filePriorityAt i = readAt t.files v i := by
  rw [h.pending.reads i, newest, hjobs, hdef]
  rfl

/-- Two bulk updates overlap, and a single one comes when they are done. -/
theorem run_applies_in_order_overlap : ∃ t v, Run InOrder t v ∧ t.jobs = [] ∧ t.deferred = [] ∧
    ∀ i, t.filePriorityAt i = readAt t.files v i := by
  have run₀ : Run InOrder newTorrent [] := .start (fun _ => rfl) rfl rfl rfl
  have run₁ := run₀.step (.call (.prioritizeFiles [4, 0])) trivial
  have run₂ := run₁.step (.call (.prioritizeFiles [0, 0])) trivial
  have run₃ := run₂.step .jobDone (fun hc => absurd hc (by decide))
  have run₄ := run₃.step .jobDone (fun hc => absurd hc (by decide))
  have run₅ := run₄.step (.call (.setFilePriority 1 7)) (fun _ _ => rfl)
  have run₆ := run₅.step .jobDone (fun hc => absurd hc (by decide))
  exact ⟨_, _, run₆, by decide, by decide, run_applies_in_order run₆ (by decide) (by decide)⟩

/-- A bulk update overlaps with the job of a single one, which puts the flag down when it is done. The
next single update starts from its vector, and the bulk update is lost. -/
theorem run_loses_update : ∃ t v, Run (fun _ _ => True) t v ∧ t.jobs = [] ∧ t.deferred = [] ∧
    t.filePriorityAt 0 = 1 ∧ readAt t.files v 0 = 0 := by
  have run₀ : Run (fun _ _ => True) newTorrent [] := .start (fun _ => rfl) rfl rfl rfl
  have run₁ := run₀.step (.call (.setFilePriority 0 1)) trivial
  have run₂ := run₁.step (.call (.prioritizeFiles [0, 0])) trivial
  have run₃ := run₂.step .jobDone trivial
  have run₄ := run₃.step (.call (.setFilePriority 1 7)) trivial
  have run₅ := run₄.step .jobDone trivial
  have run₆ := run₅.step .jobDone trivial
  exact ⟨_, _, run₆, by decide, by decide, by decide, by decide⟩

end Priorities

end Torrent

end LibtorrentSN
