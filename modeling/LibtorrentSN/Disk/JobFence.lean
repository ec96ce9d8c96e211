import Mathlib

/-!
# The job fence

A disk job that needs its storage for itself raises a fence: it waits for the jobs that are in progress, and
the jobs that are added after it wait for it (`src/disk_job_fence.cpp`). The fence says which jobs may be
issued; whoever adds and completes jobs issues them (`src/mmap_disk_io.cpp`).
-/

namespace LibtorrentSN

namespace Disk

/-- The flags of an `mmap_disk_job` that the fence reads. -/
structure JobFlags where
  fence : Bool := false
  inProgress : Bool := false
  deriving DecidableEq

/-- What `raise_fence` returns. -/
inductive RaiseFence
  | postFence
  | postNone
  deriving DecidableEq

variable {J : Type*} [DecidableEq J]

/-- `disk_job_fence`, with the flags of the jobs it is given. -/
structure DiskJobFence (J : Type*) where
  hasFence : ℤ := 0
  blockedJobs : List J := []
  outstandingJobs : ℤ := 0
  flags : J → JobFlags := fun _ => {}

namespace DiskJobFence

variable (d : DiskJobFence J)

/-- The job is about to be issued. -/
def issue (j : J) : DiskJobFence J :=
  { d with
    flags := Function.update d.flags j { d.flags j with inProgress := true }
    outstandingJobs := d.outstandingJobs + 1 }

/-- `is_blocked`. An assertion that fails is `none`, here and below. -/
def isBlocked (j : J) : Option (Bool × DiskJobFence J) :=
  if d.hasFence = 0 then
    if (d.flags j).inProgress then none else some (false, d.issue j)
  else some (true, { d with blockedJobs := d.blockedJobs ++ [j] })

/-- `raise_fence` -/
def raiseFence (j : J) : Option (RaiseFence × DiskJobFence J) :=
  if (d.flags j).inProgress ∨ (d.flags j).fence then none
  else
    let d := { d with flags := Function.update d.flags j { d.flags j with fence := true } }
    if d.hasFence = 0 ∧ d.outstandingJobs = 0 then
      some (.postFence, { d with hasFence := d.hasFence + 1 }.issue j)
    else
      some (.postNone, { d with hasFence := d.hasFence + 1, blockedJobs := d.blockedJobs ++ [j] })

/-- The loop of `job_complete` that posts the jobs which were blocked by the fence that was lowered. The last
argument is the queue of blocked jobs. -/
def unblock (d : DiskJobFence J) (ret : ℤ) (jobs : List J) : List J → Option (ℤ × List J × DiskJobFence J)
  | [] => some (ret, jobs, d)
  | bj :: rest =>
    let popped := { d with blockedJobs := rest }
    if (d.flags bj).fence then
      if d.outstandingJobs = 0 ∧ jobs = [] then
        if (d.flags bj).inProgress ∨ d.hasFence ≤ 0 ∧ rest ≠ [] then none
        else some (ret + 1, jobs ++ [bj], popped.issue bj)
      else if d.hasFence ≤ 0 then none
      -- the fence job goes back into the queue
      else some (ret, jobs, { popped with blockedJobs := bj :: popped.blockedJobs })
    else if (d.flags bj).inProgress then none
    else (popped.issue bj).unblock (ret + 1) (jobs ++ [bj]) rest

/-- `job_complete`: how many jobs were added to the queue, the queue, and the fence. -/
def jobComplete (j : J) (jobs : List J) : Option (ℤ × List J × DiskJobFence J) :=
  if (d.flags j).inProgress = false ∨ d.outstandingJobs ≤ 0 then none
  else
    let d := { d with
      flags := Function.update d.flags j { d.flags j with inProgress := false }
      outstandingJobs := d.outstandingJobs - 1 }
    if (d.flags j).fence then
      if d.outstandingJobs = 0 then
        { d with hasFence := d.hasFence - 1 }.unblock 0 jobs d.blockedJobs
      else none
    else if 0 < d.outstandingJobs ∨ d.hasFence = 0 then some (0, jobs, d)
    else
      match d.blockedJobs with
      | [] => none
      | bj :: rest =>
        if (d.flags bj).fence = false ∨ (d.flags bj).inProgress then none
        else some (1, bj :: jobs, { d with blockedJobs := rest }.issue bj)

end DiskJobFence

/-- A call of the fence of one storage. -/
inductive FenceCall (J : Type*)
  | add (j : J)
  | raiseFence (j : J)
  | jobComplete (j : J)

/-- The fence of a storage, and the jobs that were submitted, issued and completed so far, in that order. -/
structure FencedStorage (J : Type*) where
  fence : DiskJobFence J := {}
  submitted : List J := []
  started : List J := []
  completed : List J := []

namespace FencedStorage

variable (s : FencedStorage J)

/-- The jobs that were issued and are not completed. -/
def inProgress : List J := s.started.filter (· ∉ s.completed)

/-- The job raised a fence. -/
def IsFence (j : J) : Prop := (s.fence.flags j).fence = true

instance (j : J) : Decidable (s.IsFence j) := inferInstanceAs (Decidable (_ = true))

/-- A job is submitted once, and completed once, after it was issued. -/
def Permitted : FenceCall J → Prop
  | .add j | .raiseFence j => j ∉ s.submitted
  | .jobComplete j => j ∈ s.inProgress

instance : (c : FenceCall J) → Decidable (s.Permitted c)
  | .add j | .raiseFence j => inferInstanceAs (Decidable (j ∉ s.submitted))
  | .jobComplete j => inferInstanceAs (Decidable (j ∈ s.inProgress))

/-- `add_job`, `add_fence_job`, and a job that completes. The jobs that `job_complete` puts in its queue, which
is empty, are issued. -/
def step : FenceCall J → Option (FencedStorage J)
  | .add j => (s.fence.isBlocked j).map fun r =>
    { s with
      fence := r.2
      submitted := s.submitted ++ [j]
      started := if r.1 then s.started else s.started ++ [j] }
  | .raiseFence j => (s.fence.raiseFence j).map fun r =>
    { s with
      fence := r.2
      submitted := s.submitted ++ [j]
      started := if r.1 = .postFence then s.started ++ [j] else s.started }
  | .jobComplete j => (s.fence.jobComplete j []).map fun r =>
    { s with
      fence := r.2.2
      started := s.started ++ r.2.1
      completed := s.completed ++ [j] }

/-- The states of the runs of permitted calls. -/
inductive Reached : FencedStorage J → Prop
  | start : Reached {}
  | step {s s' : FencedStorage J} {c : FenceCall J} (hs : Reached s) (hp : s.Permitted c)
      (h : s.step c = some s') : Reached s'

/-- What the fence is for. -/
structure Safe : Prop where
  -- no job is lost, none is in two states, and none was issued or completed twice
  nodup : s.submitted.Nodup
  states : s.submitted.Perm (s.fence.blockedJobs ++ s.inProgress ++ s.completed)
  started : s.started.Perm (s.inProgress ++ s.completed)
  flags : ∀ j, (s.fence.flags j).inProgress = true ↔ j ∈ s.inProgress
  outstanding : s.fence.outstandingJobs = s.inProgress.length
  hasFence : s.fence.hasFence = (s.fence.blockedJobs ++ s.inProgress).countP fun j => (s.fence.flags j).fence
  exclusive : ∀ j ∈ s.inProgress, s.IsFence j → s.inProgress = [j]
  -- of two jobs of which one raised a fence, the later one is not issued before the earlier one is completed
  order : ∀ i j, [i, j].Sublist s.submitted → s.IsFence i ∨ s.IsFence j → j ∈ s.started →
    [i, j].Sublist s.started ∧ i ∈ s.completed
  progress : s.fence.blockedJobs ≠ [] → s.inProgress ≠ []
  -- the next call meets no assertion
  asserts : ∀ c, s.Permitted c → (s.step c).isSome

variable {s} {bj j : J} {rest : List J}

theorem mem_inProgress : j ∈ s.inProgress ↔ j ∈ s.started ∧ j ∉ s.completed := by
  simp [inProgress]

/-- What the fence keeps, also while it unblocks jobs. -/
structure Core (s : FencedStorage J) : Prop where
  nodup : s.submitted.Nodup
  submitted : s.submitted = s.started ++ s.fence.blockedJobs
  completed_nodup : s.completed.Nodup
  completed : ∀ j ∈ s.completed, j ∈ s.started
  flags : ∀ j, (s.fence.flags j).inProgress = true ↔ j ∈ s.inProgress
  raised : ∀ j, s.IsFence j → j ∈ s.submitted
  outstanding : s.fence.outstandingJobs = s.inProgress.length
  hasFence : s.fence.hasFence = (s.fence.blockedJobs ++ s.inProgress).countP fun j => (s.fence.flags j).fence
  order : s.started.Pairwise fun i j => s.IsFence i ∨ s.IsFence j → i ∈ s.completed

/-- Between two calls the jobs that are blocked wait for a job that is in progress. -/
structure Inv (s : FencedStorage J) : Prop extends Core s where
  -- the first of them raised a fence, unless they wait for one that is in progress
  head : (∀ k ∈ s.inProgress, ¬ s.IsFence k) → ∀ k ∈ s.fence.blockedJobs.head?, s.IsFence k
  progress : s.fence.blockedJobs ≠ [] → s.inProgress ≠ []

/-- A job has joined the blocked ones, where it may have raised a fence. -/
def queue (s : FencedStorage J) (j : J) (fence : Bool) : FencedStorage J :=
  { s with
    fence := { s.fence with
      flags := Function.update s.fence.flags j { s.fence.flags j with fence }
      hasFence := s.fence.hasFence + if fence then 1 else 0
      blockedJobs := s.fence.blockedJobs ++ [j] }
    submitted := s.submitted ++ [j] }

theorem flags_queue_self (fence : Bool) :
    (s.queue j fence).fence.flags j = { s.fence.flags j with fence } := Function.update_self ..

theorem flags_queue_of_ne {k : J} (hk : k ≠ j) (fence : Bool) :
    (s.queue j fence).fence.flags k = s.fence.flags k := Function.update_of_ne hk ..

namespace Core

theorem started_nodup (h : s.Core) : s.started.Nodup := by
  have hnodup := h.nodup
  rw [h.submitted] at hnodup
  exact hnodup.of_append_left

theorem inProgress_nodup (h : s.Core) : s.inProgress.Nodup := h.started_nodup.filter _

theorem not_started (h : s.Core) (hj : j ∈ s.fence.blockedJobs) : j ∉ s.started := by
  have hnodup := h.nodup
  rw [h.submitted] at hnodup
  exact fun hs => List.disjoint_of_nodup_append hnodup hs hj

theorem not_inProgress (h : s.Core) (hj : j ∉ s.started) : (s.fence.flags j).inProgress = false := by
  rw [Bool.eq_false_iff, ne_eq, h.flags, mem_inProgress]
  exact fun hc => hj hc.1

/-- A fence job has the storage for itself. -/
theorem exclusive (h : s.Core) (hj : j ∈ s.inProgress) (hf : s.IsFence j) : s.inProgress = [j] := by
  have halone : ∀ k ∈ s.inProgress, k = j := by
    intro k hk
    by_contra hne
    rw [mem_inProgress] at hj hk
    have hsym : s.started.Pairwise fun i j => s.IsFence i ∨ s.IsFence j → i ∈ s.completed ∨ j ∈ s.completed :=
      h.order.imp fun hij hor => .inl (hij hor)
    have : Std.Symm fun i j => s.IsFence i ∨ s.IsFence j → i ∈ s.completed ∨ j ∈ s.completed :=
      ⟨fun _ _ hij hor => (hij hor.symm).symm⟩
    rcases hsym.forall hk.1 hj.1 hne (.inr hf) with hc | hc
    · exact hk.2 hc
    · exact hj.2 hc
  by_contra hne
  rcases (h.inProgress_nodup.ne_singleton_iff j).mp hne with hnil | ⟨k, hk, hkj⟩
  · rw [hnil] at hj
    cases hj
  · exact hkj (halone k hk)

theorem queue (h : s.Core) (hj : j ∉ s.submitted) (fence : Bool) : (s.queue j fence).Core := by
  have hne : ∀ k ∈ s.submitted, k ≠ j := fun k hk hkj => hj (hkj ▸ hk)
  have hstarted : ∀ k ∈ s.started, k ≠ j := fun k hk => hne k (h.submitted ▸ List.mem_append_left _ hk)
  constructor
  · exact List.nodup_append.mpr ⟨h.nodup, List.nodup_singleton j, by simpa using hne⟩
  · change s.submitted ++ [j] = s.started ++ (s.fence.blockedJobs ++ [j])
    rw [h.submitted, List.append_assoc]
  · exact h.completed_nodup
  · exact h.completed
  · intro k
    change _ ↔ k ∈ s.inProgress
    rcases eq_or_ne k j with rfl | hk
    · rw [flags_queue_self, h.flags]
    · rw [flags_queue_of_ne hk, h.flags]
  · intro k hk
    rcases eq_or_ne k j with rfl | hkj
    · exact List.mem_append_right _ (List.mem_singleton_self k)
    · exact List.mem_append_left _ (h.raised k (by rwa [IsFence, flags_queue_of_ne hkj] at hk))
  · exact h.outstanding
  · have hcount : ∀ l : List J, (∀ k ∈ l, k ∈ s.submitted) →
        (l.countP fun k => ((s.queue j fence).fence.flags k).fence) = l.countP fun k => (s.fence.flags k).fence :=
      fun l hl => List.countP_congr fun k hk => by rw [flags_queue_of_ne (hne k (hl k hk))]
    have hin : (s.inProgress.countP fun k => ((s.queue j fence).fence.flags k).fence) =
        s.inProgress.countP fun k => (s.fence.flags k).fence :=
      hcount _ fun k hk => h.submitted ▸ List.mem_append_left _ (mem_inProgress.mp hk).1
    have hblocked : (s.fence.blockedJobs.countP fun k => ((s.queue j fence).fence.flags k).fence) =
        s.fence.blockedJobs.countP fun k => (s.fence.flags k).fence :=
      hcount _ fun k hk => h.submitted ▸ List.mem_append_right _ hk
    change s.fence.hasFence + (if fence then 1 else 0) = ((s.fence.blockedJobs ++ [j] ++ s.inProgress).countP
      fun k => ((s.queue j fence).fence.flags k).fence : ℕ)
    rw [List.countP_append, List.countP_append, hin, hblocked, h.hasFence, List.countP_append,
      List.countP_singleton, flags_queue_self]
    push_cast
    split_ifs <;> omega
  · refine h.order.imp_of_mem fun {i k} hi hk hik hor => hik ?_
    rwa [IsFence, IsFence, flags_queue_of_ne (hstarted i hi), flags_queue_of_ne (hstarted k hk)] at hor

/-- The first of the blocked jobs is issued. -/
theorem issueHead (h : s.Core) (hb : s.fence.blockedJobs = bj :: rest) (hf : s.IsFence bj → s.inProgress = [])
    (hn : ∀ k ∈ s.inProgress, ¬ s.IsFence k) :
    let s' := { s with
      fence := { s.fence with blockedJobs := rest }.issue bj
      started := s.started ++ [bj] }
    s'.Core ∧ s'.inProgress = s.inProgress ++ [bj] ∧ ∀ k, s'.IsFence k ↔ s.IsFence k := by
  intro s'
  have hbj : bj ∉ s.started := h.not_started (by rw [hb]; exact List.mem_cons_self)
  have hin : s'.inProgress = s.inProgress ++ [bj] := by
    have hc : bj ∉ s.completed := fun hc => hbj (h.completed bj hc)
    change (s.started ++ [bj]).filter (· ∉ s.completed) = _
    rw [List.filter_append, List.filter_singleton]
    simp only [hc, not_false_eq_true, decide_true, cond_true]
    rfl
  have hfence : ∀ k, s'.IsFence k ↔ s.IsFence k := by
    intro k
    change (Function.update s.fence.flags bj _ k).fence = true ↔ _
    rcases eq_or_ne k bj with rfl | hk
    · rw [Function.update_self]
      rfl
    · rw [Function.update_of_ne hk]
      rfl
  refine ⟨⟨h.nodup, ?_, h.completed_nodup, ?_, ?_, ?_, ?_, ?_, ?_⟩, hin, hfence⟩
  · change s.submitted = s.started ++ [bj] ++ rest
    rw [h.submitted, hb, List.append_assoc, List.singleton_append]
  · exact fun k hk => List.mem_append_left _ (h.completed k hk)
  · intro k
    rw [hin, List.mem_append, List.mem_singleton]
    change (Function.update s.fence.flags bj _ k).inProgress = true ↔ _
    rcases eq_or_ne k bj with rfl | hk
    · rw [Function.update_self]
      exact iff_of_true rfl (.inr rfl)
    · rw [Function.update_of_ne hk, or_iff_left hk]
      exact h.flags k
  · exact fun k hk => h.raised k ((hfence k).mp hk)
  · rw [hin, List.length_append, List.length_singleton]
    change s.fence.outstandingJobs + 1 = _
    rw [h.outstanding]
    rfl
  · change s.fence.hasFence = ((rest ++ s'.inProgress).countP fun k => (s'.fence.flags k).fence : ℕ)
    have hsame : (fun k => (s'.fence.flags k).fence) = fun k => (s.fence.flags k).fence := by
      funext k
      exact Bool.eq_iff_iff.mpr (hfence k)
    rw [h.hasFence, hb, hin, hsame, Nat.cast_inj]
    simp only [List.countP_append, List.countP_cons, List.countP_nil]
    omega
  · refine List.pairwise_append.mpr ⟨?_, List.pairwise_singleton _ _, ?_⟩
    · refine h.order.imp fun {i k} hik hor => hik ?_
      rwa [hfence, hfence] at hor
    · intro i hi k hk hor
      rw [List.mem_singleton] at hk
      subst hk
      by_contra hc
      have hip : i ∈ s.inProgress := mem_inProgress.mpr ⟨hi, hc⟩
      rw [hfence, hfence] at hor
      rcases hor with hor | hor
      · exact hn i hip hor
      · rw [hf hor] at hip
        cases hip

/-- A job that is in progress is completed. -/
theorem complete (h : s.Core) (hj : j ∈ s.inProgress) :
    let s' := { s with
      fence := { s.fence with
        flags := Function.update s.fence.flags j { s.fence.flags j with inProgress := false }
        outstandingJobs := s.fence.outstandingJobs - 1
        hasFence := s.fence.hasFence - if (s.fence.flags j).fence then 1 else 0 }
      completed := s.completed ++ [j] }
    s'.Core ∧ s'.inProgress = s.inProgress.erase j ∧ ∀ k, s'.IsFence k ↔ s.IsFence k := by
  intro s'
  have hin : s'.inProgress = s.inProgress.erase j := by
    rw [h.inProgress_nodup.erase_eq_filter, inProgress, inProgress, List.filter_filter]
    refine List.filter_congr fun k _ => ?_
    by_cases hkj : k = j <;> simp [s', hkj]
  have hfence : ∀ k, (s'.fence.flags k).fence = (s.fence.flags k).fence := by
    intro k
    change (Function.update s.fence.flags j _ k).fence = _
    rcases eq_or_ne k j with rfl | hk
    · rw [Function.update_self]
    · rw [Function.update_of_ne hk]
  have hperm := List.perm_cons_erase hj
  refine ⟨⟨h.nodup, h.submitted, ?_, ?_, ?_, ?_, ?_, ?_, ?_⟩, hin, fun k => by rw [IsFence, hfence, IsFence]⟩
  · refine List.nodup_append.mpr ⟨h.completed_nodup, List.nodup_singleton j, fun k hk l hl hkl => ?_⟩
    rw [List.mem_singleton] at hl
    exact (mem_inProgress.mp hj).2 (hl ▸ hkl ▸ hk)
  · intro k hk
    rcases List.mem_append.mp hk with hk | hk
    · exact h.completed k hk
    · rw [List.mem_singleton.mp hk]
      exact (mem_inProgress.mp hj).1
  · intro k
    rw [hin, h.inProgress_nodup.mem_erase_iff]
    change (Function.update s.fence.flags j _ k).inProgress = true ↔ _
    rcases eq_or_ne k j with rfl | hk
    · rw [Function.update_self]
      exact iff_of_false Bool.false_ne_true fun hc => hc.1 rfl
    · rw [Function.update_of_ne hk, h.flags]
      exact (and_iff_right hk).symm
  · intro k hk
    rw [IsFence, hfence] at hk
    exact h.raised k hk
  · change s.fence.outstandingJobs - 1 = _
    rw [hin, h.outstanding, hperm.length_eq, List.length_cons]
    push_cast
    omega
  · change s.fence.hasFence - _ = ((s.fence.blockedJobs ++ s'.inProgress).countP fun k => (s'.fence.flags k).fence : ℕ)
    rw [hin, funext hfence, h.hasFence, List.countP_append, List.countP_append, hperm.countP_eq,
      List.countP_cons]
    push_cast
    split_ifs <;> omega
  · refine h.order.imp fun {i k} hik hor => List.mem_append_left _ (hik ?_)
    rwa [IsFence, IsFence, hfence, hfence] at hor

theorem outstanding_eq_zero (h : s.Core) : s.fence.outstandingJobs = 0 ↔ s.inProgress = [] := by
  rw [h.outstanding, Nat.cast_eq_zero, List.length_eq_zero_iff]

/-- A fence is up as long as a job that raised one is blocked or in progress. -/
theorem hasFence_pos (h : s.Core) : 0 < s.fence.hasFence ↔
    (∃ k ∈ s.fence.blockedJobs, s.IsFence k) ∨ ∃ k ∈ s.inProgress, s.IsFence k := by
  rw [h.hasFence, Nat.cast_pos, List.countP_pos_iff]
  simp only [List.mem_append, or_and_right, exists_or, IsFence]

/-- The loop issues the blocked jobs up to the next fence, and that one too if there are none before it. -/
theorem unblock {l : List J} (h : s.Core) (hl : s.fence.blockedJobs = l) (hn : ∀ k ∈ s.inProgress, ¬ s.IsFence k)
    {jobs : List J} (hjobs : jobs = [] ↔ s.inProgress = []) (ret : ℤ) :
    ∃ js d, s.fence.unblock ret jobs l = some (ret + js.length, jobs ++ js, d) ∧
      Inv { s with fence := d, started := s.started ++ js } := by
  induction l generalizing s jobs ret with
  | nil =>
    refine ⟨[], s.fence, by simp [DiskJobFence.unblock], ?_⟩
    rw [List.append_nil]
    refine ⟨h, fun _ k hk => ?_, fun hb => absurd hl hb⟩
    rw [hl] at hk
    cases hk
  | cons bj rest ih =>
    have hmem : bj ∈ s.fence.blockedJobs := by
      rw [hl]
      exact List.mem_cons_self
    have hflag := h.not_inProgress (h.not_started hmem)
    rw [DiskJobFence.unblock]
    by_cases hf : s.IsFence bj
    · have hpos : ¬ s.fence.hasFence ≤ 0 := not_le.mpr (h.hasFence_pos.mpr (.inl ⟨bj, hmem, hf⟩))
      have hf' : (s.fence.flags bj).fence = true := hf
      simp only [hf', if_true, hflag, Bool.false_eq_true, false_or, hpos, false_and, if_false]
      by_cases hin : s.inProgress = []
      · obtain ⟨hcore, hin', hfences⟩ := h.issueHead hl (fun _ => hin) hn
        rw [if_pos ⟨h.outstanding_eq_zero.mpr hin, hjobs.mpr hin⟩]
        refine ⟨[bj], _, rfl, hcore, fun hno => ?_, fun _ => ?_⟩
        · have hbj := hno bj (by rw [hin']; exact List.mem_append_right _ List.mem_cons_self)
          exact absurd ((hfences bj).mpr hf) hbj
        · rw [hin']
          exact List.append_ne_nil_of_right_ne_nil _ (List.cons_ne_nil _ _)
      · rw [if_neg fun hc => hin (hjobs.mp hc.2)]
        refine ⟨[], s.fence, by simp [← hl], ?_⟩
        rw [List.append_nil]
        refine ⟨h, fun _ k hk => ?_, fun _ => hin⟩
        rw [hl] at hk
        cases hk
        exact hf
    · have hf' : (s.fence.flags bj).fence = false := Bool.eq_false_iff.mpr hf
      simp only [hf', hflag, Bool.false_eq_true, if_false]
      obtain ⟨hcore, hin', hfences⟩ := h.issueHead hl (fun hc => absurd hc hf) hn
      have hno : ∀ k ∈ s.inProgress ++ [bj], ¬ s.IsFence k := by
        intro k hk
        rcases List.mem_append.mp hk with hk | hk
        · exact hn k hk
        · rwa [List.mem_singleton.mp hk]
      have hne : ∀ l : List J, l ++ [bj] ≠ [] := fun l => List.append_ne_nil_of_right_ne_nil l (List.cons_ne_nil _ _)
      obtain ⟨js, d, hd, hinv⟩ := ih hcore rfl
        (by rw [hin']; exact fun k hk => (hfences k).not.mpr (hno k hk))
        (iff_of_false (hne jobs) (by rw [hin']; exact hne _)) (ret + 1)
      refine ⟨bj :: js, d, ?_, ?_⟩
      · refine hd.trans ?_
        rw [List.append_assoc, List.singleton_append, List.length_cons]
        push_cast
        rw [add_assoc, add_comm 1]
      · rwa [List.append_assoc, List.singleton_append] at hinv

end Core

namespace Inv

theorem start : Inv ({} : FencedStorage J) := by
  constructor
  · constructor <;> simp [inProgress, IsFence]
  · simp
  · simp

/-- While a fence is up a job is in progress. -/
theorem inProgress_ne_nil (h : s.Inv) (hf : s.fence.hasFence ≠ 0) : s.inProgress ≠ [] := by
  have hpos : 0 < s.fence.hasFence := by
    have hcount := h.hasFence
    omega
  rcases h.hasFence_pos.mp hpos with ⟨k, hk, -⟩ | ⟨k, hk, -⟩
  · exact h.progress (List.ne_nil_of_mem hk)
  · exact List.ne_nil_of_mem hk

/-- While no fence is up no job is blocked, and none that raised a fence is in progress. -/
theorem of_hasFence (h : s.Inv) (hf : s.fence.hasFence = 0) :
    s.fence.blockedJobs = [] ∧ ∀ k ∈ s.inProgress, ¬ s.IsFence k := by
  have hpos := mt h.hasFence_pos.mpr (not_lt.mpr hf.le)
  rw [not_or] at hpos
  have hn : ∀ k ∈ s.inProgress, ¬ s.IsFence k := fun k hk hc => hpos.2 ⟨k, hk, hc⟩
  refine ⟨?_, hn⟩
  rcases hb : s.fence.blockedJobs with - | ⟨k, rest⟩
  · rfl
  · have hk := h.head hn k (by rw [hb]; rfl)
    exact absurd ⟨k, by rw [hb]; exact List.mem_cons_self, hk⟩ hpos.1

/-- A job that is queued waits for one that is in progress. -/
theorem queue (h : s.Inv) (hj : j ∉ s.submitted) (fence : Bool) (hin : s.inProgress ≠ [])
    (hf : fence = false → s.fence.hasFence ≠ 0) : (s.queue j fence).Inv := by
  refine ⟨h.toCore.queue hj fence, ?_, fun _ => hin⟩
  have hother : ∀ k ∈ s.submitted, ((s.queue j fence).IsFence k ↔ s.IsFence k) := by
    intro k hk
    have hkj : k ≠ j := fun hkj => hj (hkj ▸ hk)
    rw [IsFence, flags_queue_of_ne hkj, IsFence]
  intro hno k hk
  have hn : ∀ k ∈ s.inProgress, ¬ s.IsFence k := by
    intro k hk hc
    exact hno k hk ((hother k (h.submitted ▸ List.mem_append_left _ (mem_inProgress.mp hk).1)).mpr hc)
  change k ∈ (s.fence.blockedJobs ++ [j]).head? at hk
  rcases hb : s.fence.blockedJobs with - | ⟨i, rest⟩
  · rw [hb] at hk
    cases hk
    rw [IsFence, flags_queue_self]
    refine Bool.of_not_eq_false fun hfalse => ?_
    have hpos : 0 < s.fence.hasFence :=
      lt_of_le_of_ne (h.hasFence ▸ Int.natCast_nonneg _) (hf hfalse).symm
    rcases h.hasFence_pos.mp hpos with ⟨k, hk, -⟩ | ⟨k, hk, hc⟩
    · rw [hb] at hk
      cases hk
    · exact hn k hk hc
  · rw [hb] at hk
    cases hk
    rw [hother k (h.submitted ▸ List.mem_append_right _ (by rw [hb]; exact List.mem_cons_self))]
    exact h.head hn k (by rw [hb]; rfl)

/-- A job is issued at once. -/
theorem issue (h : s.Inv) (hj : j ∉ s.submitted) (hf : s.fence.hasFence = 0) (fence : Bool)
    (hin : fence = true → s.inProgress = []) : Inv { s with
    fence := { (s.queue j fence).fence with blockedJobs := s.fence.blockedJobs }.issue j
    submitted := s.submitted ++ [j]
    started := s.started ++ [j] } := by
  obtain ⟨hb, hn⟩ := h.of_hasFence hf
  have hblocked : (s.queue j fence).fence.blockedJobs = j :: s.fence.blockedJobs := by
    change s.fence.blockedJobs ++ [j] = j :: s.fence.blockedJobs
    rw [hb, List.nil_append]
  have hno : ∀ k ∈ s.inProgress, ¬ (s.queue j fence).IsFence k := by
    intro k hk
    have hks : k ∈ s.submitted := h.submitted ▸ List.mem_append_left _ (mem_inProgress.mp hk).1
    have hkj : k ≠ j := fun hkj => hj (hkj ▸ hks)
    rw [IsFence, flags_queue_of_ne hkj]
    exact hn k hk
  obtain ⟨hcore, -, -⟩ := (h.toCore.queue hj fence).issueHead hblocked
    (fun hc => hin (by rwa [IsFence, flags_queue_self] at hc)) hno
  refine ⟨hcore, fun _ k hk => ?_, fun hc => absurd hb hc⟩
  change k ∈ s.fence.blockedJobs.head? at hk
  rw [hb] at hk
  cases hk

theorem add (h : s.Inv) (hj : j ∉ s.submitted) : ∃ s', s.step (.add j) = some s' ∧ s'.Inv := by
  have hfence : (s.fence.flags j).fence = false := Bool.eq_false_iff.mpr fun hc => hj (h.raised j hc)
  have hflag := h.not_inProgress fun hs => hj (h.submitted ▸ List.mem_append_left _ hs)
  have hqueue : (s.queue j false).fence = { s.fence with blockedJobs := s.fence.blockedJobs ++ [j] } := by
    have hsame : { s.fence.flags j with fence := false } = s.fence.flags j := by rw [← hfence]
    rw [FencedStorage.queue, hsame, Function.update_eq_self, if_neg Bool.false_ne_true, add_zero]
  rw [step, DiskJobFence.isBlocked]
  by_cases hf : s.fence.hasFence = 0
  · have hinv := h.issue hj hf false fun hc => by cases hc
    rw [hqueue] at hinv
    rw [if_pos hf, if_neg (Bool.eq_false_iff.mp hflag)]
    exact ⟨_, rfl, hinv⟩
  · have hinv := h.queue hj false (h.inProgress_ne_nil hf) fun _ => hf
    rw [if_neg hf]
    refine ⟨_, rfl, ?_⟩
    have hs : s.queue j false = { s with fence := (s.queue j false).fence, submitted := s.submitted ++ [j] } := rfl
    rw [hs, hqueue] at hinv
    exact hinv

theorem raiseFence (h : s.Inv) (hj : j ∉ s.submitted) : ∃ s', s.step (.raiseFence j) = some s' ∧ s'.Inv := by
  have hfence : (s.fence.flags j).fence = false := Bool.eq_false_iff.mpr fun hc => hj (h.raised j hc)
  have hflag := h.not_inProgress fun hs => hj (h.submitted ▸ List.mem_append_left _ hs)
  rw [step, DiskJobFence.raiseFence, if_neg (by simp [hfence, hflag])]
  dsimp only
  by_cases hf : s.fence.hasFence = 0 ∧ s.fence.outstandingJobs = 0
  · have hinv := h.issue hj hf.1 true fun _ => h.outstanding_eq_zero.mp hf.2
    rw [if_pos hf]
    exact ⟨_, rfl, hinv⟩
  · have hin : s.inProgress ≠ [] := by
      by_cases hzero : s.fence.hasFence = 0
      · exact fun hc => hf ⟨hzero, h.outstanding_eq_zero.mpr hc⟩
      · exact h.inProgress_ne_nil hzero
    rw [if_neg hf]
    exact ⟨_, rfl, h.queue hj true hin fun hc => by cases hc⟩

theorem jobComplete (h : s.Inv) (hj : j ∈ s.inProgress) : ∃ s', s.step (.jobComplete j) = some s' ∧ s'.Inv := by
  obtain ⟨hcore, hin, hfences⟩ := h.toCore.complete hj
  have hflag := (h.flags j).mpr hj
  have hpos : ¬ s.fence.outstandingJobs ≤ 0 := by
    rw [h.outstanding, not_le, Nat.cast_pos]
    exact List.length_pos_of_mem hj
  have hfence : (Function.update s.fence.flags j { s.fence.flags j with inProgress := false } j).fence =
      (s.fence.flags j).fence := by rw [Function.update_self]
  rw [step, DiskJobFence.jobComplete, if_neg (by simp [hflag, hpos])]
  dsimp only
  rw [hfence]
  by_cases hf : s.IsFence j
  · -- it was the only job in progress
    have hnone : s.inProgress.erase j = [] := by
      rw [h.exclusive hj hf, List.erase_cons_head]
    rw [hnone] at hin
    have hzero := hcore.outstanding_eq_zero.mpr hin
    obtain ⟨js, d, hd, hinv⟩ := hcore.unblock rfl (by rw [hin]; exact fun k hk => by cases hk)
      (iff_of_true rfl hin) 0
    rw [IsFence] at hf
    simp only [hf, if_true] at hd hzero ⊢
    rw [if_pos hzero, hd]
    exact ⟨_, rfl, hinv⟩
  · have hf' : (s.fence.flags j).fence = false := Bool.eq_false_iff.mpr hf
    simp only [hf', Bool.false_eq_true, if_false, sub_zero] at hcore hin hfences ⊢
    have hn : (∀ k ∈ s.inProgress.erase j, ¬ s.IsFence k) → ∀ k ∈ s.inProgress, ¬ s.IsFence k := by
      intro hno k hk
      rcases eq_or_ne k j with rfl | hkj
      · exact hf
      · exact hno k ((List.mem_erase_of_ne hkj).mpr hk)
    by_cases hstay : 0 < s.fence.outstandingJobs - 1 ∨ s.fence.hasFence = 0
    · rw [if_pos hstay]
      refine ⟨_, rfl, ?_⟩
      dsimp only
      rw [List.append_nil]
      refine ⟨hcore, fun hno k hk => ?_, fun hb => ?_⟩
      · rw [hin] at hno
        exact (hfences k).mpr (h.head (hn fun k hk => (hfences k).not.mp (hno k hk)) k hk)
      · rcases hstay with hstay | hstay
        · exact mt hcore.outstanding_eq_zero.mpr hstay.ne'
        · exact absurd (h.of_hasFence hstay).1 hb
    · -- the job was the last one that a fence waited for
      rw [not_or] at hstay
      have hcount := hcore.outstanding
      have hnone : s.inProgress.erase j = [] := by
        rw [← hin]
        refine List.length_eq_zero_iff.mp ?_
        dsimp only at hcount
        omega
      have hno := hn (by rw [hnone]; exact fun k hk => by cases hk)
      rw [hnone] at hin
      rw [if_neg (not_or.mpr hstay)]
      rcases hb : s.fence.blockedJobs with - | ⟨bj, rest⟩
      · rcases h.hasFence_pos.mp (by have hcount := h.hasFence; omega) with ⟨k, hk, -⟩ | ⟨k, hk, hc⟩
        · rw [hb] at hk
          cases hk
        · exact absurd hc (hno k hk)
      · have hbj : s.IsFence bj := h.head hno bj (by rw [hb]; rfl)
        obtain ⟨hissued, hin', hfences'⟩ := hcore.issueHead hb (fun _ => hin)
          (by rw [hin]; exact fun k hk => by cases hk)
        have hflag' := hcore.not_inProgress (hcore.not_started (by rw [hb]; exact List.mem_cons_self))
        have hfence' := (hfences bj).mpr hbj
        rw [IsFence] at hfence'
        dsimp only at hflag' hfence' ⊢
        rw [if_neg (by simp [hflag', hfence'])]
        refine ⟨_, rfl, hissued, fun hno => ?_, fun _ => ?_⟩
        · have hbj' := hno bj (by rw [hin', hin]; exact List.mem_singleton_self bj)
          exact absurd ((hfences' bj).mpr ((hfences bj).mpr hbj)) hbj'
        · rw [hin', hin]
          exact List.cons_ne_nil _ _

theorem step (h : s.Inv) {c : FenceCall J} (hp : s.Permitted c) : ∃ s', s.step c = some s' ∧ s'.Inv := by
  cases c with
  | add j => exact h.add hp
  | raiseFence j => exact h.raiseFence hp
  | jobComplete j => exact h.jobComplete hp

/-- Of two submitted jobs of which the later one was issued, the earlier one was issued before it. -/
theorem sublist_started (h : s.Inv) {i j : J} (hij : [i, j].Sublist s.submitted) (hj : j ∈ s.started) :
    [i, j].Sublist s.started := by
  rw [h.submitted, List.sublist_append_iff] at hij
  obtain ⟨l₁, l₂, hl, h₁, h₂⟩ := hij
  rcases List.eq_nil_or_concat' l₂ with rfl | ⟨l, k, rfl⟩
  · rwa [hl, List.append_nil]
  · rw [← List.append_assoc] at hl
    have hk : j = k := by simpa using congrArg List.getLast? hl
    exact absurd hj (h.not_started (h₂.subset (by simp [hk])))

theorem safe (h : s.Inv) : s.Safe := by
  have hstarted : s.started.Perm (s.inProgress ++ s.completed) := by
    refine (List.filter_append_perm (· ∉ s.completed) s.started).symm.trans (List.Perm.append_left _ ?_)
    refine (List.perm_ext_iff_of_nodup (h.started_nodup.filter _) h.completed_nodup).mpr fun k => ?_
    simp only [List.mem_filter, decide_not, Bool.not_not, decide_eq_true_eq]
    exact and_iff_right_of_imp (h.completed k)
  refine ⟨h.nodup, ?_, hstarted, h.flags, h.outstanding, h.hasFence, fun j hj => h.exclusive hj, ?_, h.progress, ?_⟩
  · rw [h.submitted, List.append_assoc]
    exact List.perm_append_comm.trans (hstarted.append_left _)
  · intro i j hij hor hj
    have hsub := h.sublist_started hij hj
    exact ⟨hsub, List.pairwise_pair.mp (h.order.sublist hsub) hor⟩
  · intro c hp
    obtain ⟨s', hs', -⟩ := h.step hp
    rw [hs']
    rfl

end Inv

theorem Reached.inv {s : FencedStorage J} (h : Reached s) : s.Inv := by
  induction h with
  | start => exact Inv.start
  | step _ hp hstep ih =>
    obtain ⟨s', hs', hinv⟩ := ih.step hp
    rw [hstep] at hs'
    cases hs'
    exact hinv

/-- The fence is safe in every run. -/
theorem reached_safe {s : FencedStorage J} (h : Reached s) : s.Safe := h.inv.safe

/-- A job, a fence and another job are added, and the first one is completed. -/
theorem reached_safe_fence : ∃ s : FencedStorage ℕ, Reached s ∧ s.inProgress = [2] ∧ s.fence.blockedJobs = [3] ∧
    s.Safe := by
  have hadd := (Reached.start (J := ℕ)).step (c := .add 1) (by decide) rfl
  have hraise := hadd.step (c := .raiseFence 2) (by decide) rfl
  have hblocked := hraise.step (c := .add 3) (by decide) rfl
  have hdone := hblocked.step (c := .jobComplete 1) (by decide) rfl
  exact ⟨_, hdone, by decide, by decide, reached_safe hdone⟩

end FencedStorage

end Disk

end LibtorrentSN
