import Mathlib.Data.List.Nodup
import Mathlib.Data.List.Basic
import Mathlib.Logic.Function.Basic
import Mathlib.Data.Int.Order.Basic
import Mathlib.Order.Basic

/-!
# The download queue of the session

`session_impl::set_queue_position` (`src/session_impl.cpp`) inserts a torrent into `m_download_queue`, removes
it, moves it up with a loop of swaps and moves it down with a loop of shifts. Each torrent also holds its own
index. A read or an erase beyond the end of the queue is undefined, which the model answers with `none`.
-/

namespace LibtorrentSN

namespace Session

/-- `no_pos` -/
def noPos : Int := -1

/-- `m_download_queue` with the `m_sequence_number` of every torrent. -/
@[ext]
structure DownloadQueue (τ : Type*) where
  downloadQueue : List τ
  queuePosition : τ → Int

variable {τ : Type*} [DecidableEq τ]

namespace DownloadQueue

/-- A new torrent has no position. -/
def empty : DownloadQueue τ where
  downloadQueue := []
  queuePosition _ := noPos

def setQueuePositionImpl (s : DownloadQueue τ) (t : τ) (p : Int) : DownloadQueue τ :=
  { s with queuePosition := Function.update s.queuePosition t p }

/-- `m_download_queue[i]->set_queue_position_impl(i)` -/
def renumberAt (s : DownloadQueue τ) (i : ℕ) : Option (DownloadQueue τ) := do
  let t ← s.downloadQueue[i]?
  return s.setQueuePositionImpl t i

/-- The loop at the end of an insertion and of a removal. -/
def renumberFrom (s : DownloadQueue τ) (i : ℕ) : Option (DownloadQueue τ) :=
  (List.range' i (s.downloadQueue.length - i)).foldlM renumberAt s

/-- One turn of the loop that moves a torrent up: `std::swap(m_download_queue[i], tmp)` and the new position
of what now stands at `i`. -/
def swapAt (st : DownloadQueue τ × τ) (i : ℕ) : Option (DownloadQueue τ × τ) := do
  let t ← st.1.downloadQueue[i]?
  let s := { st.1 with downloadQueue := st.1.downloadQueue.set i st.2 }
  return (s.setQueuePositionImpl st.2 i, t)

/-- One turn of the loop that moves a torrent down. -/
def shiftAt (s : DownloadQueue τ) (i : ℕ) : Option (DownloadQueue τ) := do
  let t ← s.downloadQueue[i + 1]?
  return { s with downloadQueue := s.downloadQueue.set i t }.setQueuePositionImpl t i

/-- `session_impl::set_queue_position` -/
def setQueuePosition (s : DownloadQueue τ) (me : τ) (p : Int) : Option (DownloadQueue τ) :=
  let currentPos := s.queuePosition me
  if currentPos = p then
    some s
  else if 0 ≤ p ∧ currentPos = noPos then
    let last := s.downloadQueue.length
    if (last : Int) ≤ p then
      some ({ s with downloadQueue := s.downloadQueue ++ [me] }.setQueuePositionImpl me last)
    else
      { s with downloadQueue := s.downloadQueue.insertIdx p.toNat me }.renumberFrom p.toNat
  else if p < 0 then
    if currentPos.toNat < s.downloadQueue.length then
      ({ s with downloadQueue := s.downloadQueue.eraseIdx currentPos.toNat }.setQueuePositionImpl me
        noPos).renumberFrom currentPos.toNat
    else
      none
  else if p < currentPos then do
    let st ← (List.range' p.toNat (currentPos.toNat + 1 - p.toNat)).foldlM swapAt (s, me)
    return st.1
  else do
    let p := min p.toNat (s.downloadQueue.length - 1)
    let s ← (List.range' currentPos.toNat (p - currentPos.toNat)).foldlM shiftAt s
    if p < s.downloadQueue.length then
      some ({ s with downloadQueue := s.downloadQueue.set p me }.setQueuePositionImpl me p)
    else
      none

/-- The calls of a session, from the empty queue on. -/
def run (calls : List (τ × Int)) : Option (DownloadQueue τ) :=
  calls.foldlM (fun s call => s.setQueuePosition call.1 call.2) empty

/-- What a call is for: the torrent is taken out and, unless the position is `no_pos`, put in again. -/
def placed (queue : List τ) (me : τ) (p : Int) : List τ :=
  let rest := queue.erase me
  if p = noPos then rest else rest.insertIdx (min p.toNat rest.length) me

/-- The queue holds the torrents that have a position, each once and at its position. -/
structure Sound (s : DownloadQueue τ) : Prop where
  mem_iff : ∀ t, t ∈ s.downloadQueue ↔ s.queuePosition t ≠ noPos
  nodup : s.downloadQueue.Nodup
  position : ∀ (i : ℕ) (t : τ), s.downloadQueue[i]? = some t → s.queuePosition t = i

/-! ### What the loops write -/

/-- The positions after the torrents of a list were numbered from `i` on. -/
def numbered (i : ℕ) : List τ → (τ → Int) → τ → Int
  | [], pos => pos
  | t :: l, pos => numbered (i + 1) l (Function.update pos t i)

theorem numbered_append (l l' : List τ) (i : ℕ) (pos : τ → Int) :
    numbered i (l ++ l') pos = numbered (i + l.length) l' (numbered i l pos) := by
  induction l generalizing i pos with
  | nil => rfl
  | cons t l ih =>
    simp only [List.cons_append, numbered, ih, List.length_cons]
    congr 1
    omega

theorem numbered_of_notMem {l : List τ} {t : τ} (ht : t ∉ l) (i : ℕ) (pos : τ → Int) :
    numbered i l pos t = pos t := by
  induction l generalizing i pos with
  | nil => rfl
  | cons u l ih =>
    obtain ⟨hne, hl⟩ := not_or.mp (fun h => ht (List.mem_cons.mpr h))
    rw [numbered, ih hl, Function.update_of_ne hne]

theorem numbered_getElem {l : List τ} (hl : l.Nodup) {j : ℕ} {t : τ} (hj : l[j]? = some t) (i : ℕ)
    (pos : τ → Int) : numbered i l pos t = (i + j : ℕ) := by
  induction l generalizing i j pos with
  | nil => cases hj
  | cons u l ih =>
    obtain ⟨hu, hl⟩ := List.nodup_cons.mp hl
    cases j with
    | zero =>
      obtain rfl : u = t := Option.some.inj hj
      rw [numbered, numbered_of_notMem hu, Function.update_self]
      rfl
    | succ j =>
      rw [numbered, ih hl hj]
      congr 1
      omega

theorem foldlM_renumberAt (a b : List τ) (pos : τ → Int) :
    (List.range' a.length b.length).foldlM renumberAt ⟨a ++ b, pos⟩
      = some ⟨a ++ b, numbered a.length b pos⟩ := by
  induction b generalizing a pos with
  | nil => rfl
  | cons t b ih =>
    have hstep : renumberAt ⟨a ++ t :: b, pos⟩ a.length
        = some ⟨a ++ t :: b, Function.update pos t a.length⟩ := by
      simp [renumberAt, setQueuePositionImpl]
    have hrest := ih (a ++ [t]) (Function.update pos t a.length)
    simp only [List.length_append, List.length_singleton, List.append_assoc, List.singleton_append]
      at hrest
    rw [List.length_cons, List.range'_succ, List.foldlM_cons, hstep]
    exact hrest

theorem renumberFrom_append (a b : List τ) (pos : τ → Int) :
    renumberFrom ⟨a ++ b, pos⟩ a.length = some ⟨a ++ b, numbered a.length b pos⟩ := by
  have hlen : (a ++ b).length - a.length = b.length := by simp
  rw [renumberFrom, hlen]
  exact foldlM_renumberAt a b pos

/-- The swaps push the torrents of `b` one place on and take `tmp` in front of them. -/
theorem foldlM_swapAt (a b c mid : List τ) (tmp last : τ) (hmid : tmp :: b = mid ++ [last])
    (pos : τ → Int) :
    (List.range' a.length b.length).foldlM swapAt (⟨a ++ b ++ c, pos⟩, tmp)
      = some (⟨a ++ mid ++ c, numbered a.length mid pos⟩, last) := by
  induction b generalizing a mid tmp pos with
  | nil =>
    obtain ⟨rfl, rfl⟩ : mid = [] ∧ tmp = last := by
      cases mid with
      | nil => exact ⟨rfl, (List.cons.inj hmid).1⟩
      | cons m mid => simp at hmid
    rfl
  | cons t b ih =>
    obtain ⟨mid, rfl, hrest⟩ : ∃ mid', mid = tmp :: mid' ∧ t :: b = mid' ++ [last] := by
      cases mid with
      | nil => simp at hmid
      | cons m mid => exact ⟨mid, by rw [(List.cons.inj hmid).1], (List.cons.inj hmid).2⟩
    have hstep : swapAt (⟨a ++ t :: b ++ c, pos⟩, tmp) a.length
        = some (⟨(a ++ [tmp]) ++ b ++ c, Function.update pos tmp a.length⟩, t) := by
      simp [swapAt, setQueuePositionImpl]
    have hloop := ih (a ++ [tmp]) mid t hrest (Function.update pos tmp a.length)
    rw [List.length_cons, List.range'_succ, List.foldlM_cons, hstep]
    simpa [numbered] using hloop

/-- The shifts pull the torrents of `b` one place back, over the torrent `me` in front of them. The last
torrent then stands there twice. -/
theorem foldlM_shiftAt (a b c : List τ) (me : τ) (pos : τ → Int) :
    ∃ last, (List.range' a.length b.length).foldlM shiftAt ⟨a ++ me :: b ++ c, pos⟩
      = some ⟨a ++ b ++ last :: c, numbered a.length b pos⟩ := by
  induction b generalizing a me pos with
  | nil => exact ⟨me, by simp [numbered]⟩
  | cons t b ih =>
    have hstep : shiftAt ⟨a ++ me :: t :: b ++ c, pos⟩ a.length
        = some ⟨(a ++ [t]) ++ t :: b ++ c, Function.update pos t a.length⟩ := by
      simp [shiftAt, setQueuePositionImpl]
    obtain ⟨last, hrest⟩ := ih (a ++ [t]) t (Function.update pos t a.length)
    refine ⟨last, ?_⟩
    rw [List.length_cons, List.range'_succ, List.foldlM_cons, hstep]
    simpa [numbered] using hrest

/-! ### What a call keeps -/

section Calls
variable {s : DownloadQueue τ} {a b c mid : List τ} {pos : τ → Int} {me : τ} {p : Int}

omit [DecidableEq τ] in
/-- A torrent that has a position stands between those before it and those behind it. -/
theorem Sound.split (h : Sound s) (ht : s.queuePosition me ≠ noPos) :
    ∃ a c, s.downloadQueue = a ++ me :: c ∧ s.queuePosition me = a.length ∧ me ∉ a ∧ me ∉ c := by
  obtain ⟨a, c, hsplit⟩ := List.append_of_mem ((h.mem_iff me).mpr ht)
  have hnodup := h.nodup
  rw [hsplit, List.nodup_middle] at hnodup
  obtain ⟨hnot, -⟩ := List.nodup_cons.mp hnodup
  rw [List.mem_append, not_or] at hnot
  exact ⟨a, c, hsplit, h.position a.length me (by simp [hsplit]), hnot.1, hnot.2⟩

/-- The torrents in front of a stretch of the queue and behind it keep their positions when those in it are
numbered. -/
theorem Sound.of_numbered {d : List τ} (pos : τ → Int) (hnodup : (a ++ mid ++ d).Nodup)
    (ha : ∀ (i : ℕ) t, a[i]? = some t → pos t = i)
    (hd : ∀ (i : ℕ) t, d[i]? = some t → pos t = (a.length + mid.length + i : ℕ))
    (hout : ∀ t, t ∉ a ++ mid ++ d → pos t = noPos) :
    Sound ⟨a ++ mid ++ d, numbered a.length mid pos⟩ := by
  obtain ⟨ham, -, hamc⟩ := List.nodup_append.mp hnodup
  obtain ⟨-, hmid, ham⟩ := List.nodup_append.mp ham
  have hposition : ∀ (i : ℕ) t, (a ++ mid ++ d)[i]? = some t → numbered a.length mid pos t = i := by
    intro i t hi
    rcases Nat.lt_or_ge i (a ++ mid).length with hlt | hge
    · rw [List.getElem?_append_left hlt] at hi
      rcases Nat.lt_or_ge i a.length with hlt' | hge'
      · rw [List.getElem?_append_left hlt'] at hi
        rw [numbered_of_notMem fun hm => ham t (List.mem_of_getElem? hi) t hm rfl, ha i t hi]
      · rw [List.getElem?_append_right hge'] at hi
        rw [numbered_getElem hmid hi]
        congr 1
        omega
    · rw [List.getElem?_append_right hge, List.length_append] at hi
      rw [List.length_append] at hge
      have hnot : t ∉ mid := fun hm => hamc t (List.mem_append_right _ hm) t (List.mem_of_getElem? hi) rfl
      rw [numbered_of_notMem hnot, hd _ t hi]
      congr 1
      omega
  refine ⟨fun t => ⟨fun ht => ?_, fun ht => ?_⟩, hnodup, hposition⟩
  · obtain ⟨i, hi⟩ := List.mem_iff_getElem?.mp ht
    have hpos := hposition i t hi
    dsimp only
    rw [hpos, noPos]
    omega
  · by_contra hnot
    have hmid : t ∉ mid := fun hm => hnot (List.mem_append_left _ (List.mem_append_right _ hm))
    exact ht ((numbered_of_notMem hmid _ _).trans (hout t hnot))

omit [DecidableEq τ] in
theorem Sound.noPos_of_notMem (h : Sound s) (ht : me ∉ s.downloadQueue) : s.queuePosition me = noPos := by
  by_contra hne
  exact ht ((h.mem_iff me).mpr hne)

theorem placed_noPos (queue : List τ) (me : τ) : placed queue me noPos = queue.erase me := by
  rw [placed]
  exact if_pos rfl

theorem placed_of_nonneg (queue : List τ) (me : τ) (hp : 0 ≤ p) :
    placed queue me p = (queue.erase me).insertIdx (min p.toNat (queue.erase me).length) me := by
  have hne : p ≠ noPos := by
    rw [noPos]
    omega
  rw [placed]
  exact if_neg hne

omit [DecidableEq τ] in
theorem insertIdx_append (a b : List τ) (t : τ) : (a ++ b).insertIdx a.length t = a ++ t :: b := by
  induction a with
  | nil => rfl
  | cons u a ih => rw [List.cons_append, List.length_cons, List.insertIdx_succ_cons, ih, List.cons_append]

omit [DecidableEq τ] in
theorem exists_append_of_le (queue : List τ) (i : ℕ) (hi : i ≤ queue.length) :
    ∃ a b, queue = a ++ b ∧ a.length = i :=
  ⟨queue.take i, queue.drop i, (List.take_append_drop _ _).symm, List.length_take_of_le hi⟩

/-- A torrent is put into the queue. -/
theorem setQueuePosition_insert (h : Sound s) (hp : 0 ≤ p) (hme : s.queuePosition me = noPos) :
    ∃ s', s.setQueuePosition me p = some s' ∧ Sound s' ∧ s'.downloadQueue = placed s.downloadQueue me p := by
  have hne : noPos ≠ p := by
    rw [noPos]
    omega
  have hnot : me ∉ s.downloadQueue := fun hm => (h.mem_iff me).mp hm hme
  rw [setQueuePosition, hme, if_neg hne, if_pos ⟨hp, rfl⟩, placed_of_nonneg _ _ hp, List.erase_of_not_mem hnot]
  obtain ⟨queue, pos⟩ := s
  dsimp only at hnot hme ⊢
  by_cases hlast : (queue.length : Int) ≤ p
  · have hmin : min p.toNat queue.length = queue.length := by omega
    rw [if_pos hlast, hmin, List.insertIdx_length_self]
    refine ⟨_, rfl, ?_, rfl⟩
    have hnodup : (queue ++ [me] ++ []).Nodup := by
      rw [List.append_nil, List.nodup_append]
      exact ⟨h.nodup, List.nodup_singleton me, fun t ht u hu htu => hnot (List.mem_singleton.mp hu ▸ htu ▸ ht)⟩
    have hsound := Sound.of_numbered pos hnodup h.position (fun i t hi => by cases hi) fun t ht =>
      h.noPos_of_notMem fun hm => ht (by simp [hm])
    rwa [List.append_nil] at hsound
  · have hlt : p.toNat < queue.length := by omega
    have hmin : min p.toNat queue.length = p.toNat := by omega
    rw [if_neg hlast, hmin]
    obtain ⟨a, b, rfl, ha⟩ := exists_append_of_le queue p.toNat (Nat.le_of_lt hlt)
    rw [← ha, insertIdx_append]
    refine ⟨_, renumberFrom_append a (me :: b) pos, ?_, rfl⟩
    have hnodup : (a ++ me :: b ++ []).Nodup := by
      rw [List.append_nil, List.nodup_middle]
      exact List.nodup_cons.mpr ⟨hnot, h.nodup⟩
    have hsound := Sound.of_numbered pos hnodup
      (fun i t hi => h.position i t (by rw [List.getElem?_append_left (List.getElem?_eq_some_iff.mp hi).1]; exact hi))
      (fun i t hi => by cases hi) fun t ht => h.noPos_of_notMem fun hm => ht (by simp at hm ⊢; tauto)
    rwa [List.append_nil] at hsound

/-- A torrent is taken out of the queue. -/
theorem setQueuePosition_remove (h : Sound s) (hme : s.queuePosition me ≠ noPos) :
    ∃ s', s.setQueuePosition me noPos = some s' ∧ Sound s' ∧ s'.downloadQueue = placed s.downloadQueue me noPos := by
  obtain ⟨a, c, hsplit, hpos, ha, hc⟩ := h.split hme
  have hneg : ¬ (0 ≤ noPos ∧ s.queuePosition me = noPos) := fun hp => hme hp.2
  have hlt : (s.queuePosition me).toNat < s.downloadQueue.length := by
    rw [hpos, hsplit]
    simp
  rw [setQueuePosition, if_neg hme, if_neg hneg, if_pos (by decide), if_pos hlt, placed_noPos, hpos]
  obtain ⟨queue, pos⟩ := s
  obtain rfl : queue = a ++ me :: c := hsplit
  have herase : (a ++ me :: c).eraseIdx a.length = a ++ c := by
    rw [List.eraseIdx_append_of_length_le (Nat.le_refl _), Nat.sub_self, List.eraseIdx_cons_zero]
  rw [List.erase_append_right _ ha, List.erase_cons_head, Int.toNat_natCast, herase]
  refine ⟨_, renumberFrom_append a c _, ?_, rfl⟩
  have hkeep : ∀ t ≠ me, Function.update pos me noPos t = pos t := fun t ht => Function.update_of_ne ht _ _
  have hnodup : (a ++ c ++ []).Nodup := by
    rw [List.append_nil]
    exact (List.nodup_cons.mp (List.nodup_middle.mp h.nodup)).2
  have hsound := Sound.of_numbered (Function.update pos me noPos) hnodup (fun i t hi => ?_)
    (fun i t hi => by cases hi) fun t ht => ?_
  · rwa [List.append_nil] at hsound
  · rw [hkeep t fun hte => ha (hte ▸ List.mem_of_getElem? hi)]
    exact h.position i t (by rw [List.getElem?_append_left (List.getElem?_eq_some_iff.mp hi).1]; exact hi)
  · by_cases hte : t = me
    · rw [hte, Function.update_self]
    · rw [hkeep t hte]
      exact h.noPos_of_notMem fun hm => ht (by simp at hm ⊢; tauto)

/-- A stretch of the queue is put in another order. -/
theorem Sound.of_reordered {old : List τ} (h : Sound ⟨a ++ old ++ c, pos⟩) (mid : List τ) (hperm : mid.Perm old) :
    Sound ⟨a ++ mid ++ c, numbered a.length mid pos⟩ := by
  have hall : (a ++ mid ++ c).Perm (a ++ old ++ c) := (hperm.append_left a).append_right c
  refine Sound.of_numbered pos (hall.nodup_iff.mpr h.nodup) (fun i t hi => ?_) (fun i t hi => ?_) fun t ht => ?_
  · refine h.position i t ?_
    dsimp only
    rw [List.append_assoc, List.getElem?_append_left (List.getElem?_eq_some_iff.mp hi).1]
    exact hi
  · rw [hperm.length_eq]
    refine h.position _ t ?_
    dsimp only
    rw [List.getElem?_append_right (by rw [List.length_append]; omega), List.length_append, Nat.add_sub_cancel_left]
    exact hi
  · exact h.noPos_of_notMem fun hm => ht (hall.mem_iff.mpr hm)

/-- A torrent is moved up. -/
theorem setQueuePosition_up (h : Sound s) (hp : 0 ≤ p) (hlt : p < s.queuePosition me) :
    ∃ s', s.setQueuePosition me p = some s' ∧ Sound s' ∧ s'.downloadQueue = placed s.downloadQueue me p := by
  have hme : s.queuePosition me ≠ noPos := by
    rw [noPos]
    omega
  obtain ⟨front, c, hsplit, hpos, hfront, hc⟩ := h.split hme
  rw [setQueuePosition, if_neg hlt.ne', if_neg fun hp => hme hp.2, if_neg (not_lt.mpr hp), if_pos hlt,
    placed_of_nonneg _ _ hp]
  rw [hpos] at hlt ⊢
  obtain ⟨queue, pos⟩ := s
  obtain rfl : queue = front ++ me :: c := hsplit
  obtain ⟨a, b, rfl, ha⟩ := exists_append_of_le front p.toNat (by omega)
  have hcount : (a ++ b).length + 1 - a.length = (b ++ [me]).length := by
    simp only [List.length_append, List.length_singleton]
    omega
  have hloop := foldlM_swapAt a (b ++ [me]) c (me :: b) me me rfl pos
  have hqueue : a ++ b ++ me :: c = a ++ (b ++ [me]) ++ c := by simp
  have hmin : min a.length (a ++ b ++ c).length = a.length := by simp
  rw [List.erase_append_right _ hfront, List.erase_cons_head, ← ha, hmin, Int.toNat_natCast, hcount,
    List.append_assoc a b c, insertIdx_append]
  rw [hqueue, hloop]
  refine ⟨_, rfl, ?_, by simp⟩
  rw [hqueue] at h
  exact h.of_reordered (me :: b) (List.perm_append_singleton me b).symm

/-- A torrent is moved down, at most to the end. -/
theorem setQueuePosition_down (h : Sound s) (hlt : s.queuePosition me < p) (hme : s.queuePosition me ≠ noPos) :
    ∃ s', s.setQueuePosition me p = some s' ∧ Sound s' ∧ s'.downloadQueue = placed s.downloadQueue me p := by
  obtain ⟨a, back, hsplit, hpos, ha, hback⟩ := h.split hme
  have hp : 0 ≤ p := by omega
  rw [setQueuePosition, if_neg hlt.ne, if_neg fun hp => hme hp.2, if_neg (not_lt.mpr hp), if_neg (not_lt.mpr hlt.le),
    placed_of_nonneg _ _ hp]
  rw [hpos] at hlt ⊢
  obtain ⟨queue, pos⟩ := s
  obtain rfl : queue = a ++ me :: back := hsplit
  obtain ⟨b, c, rfl, hb⟩ := exists_append_of_le back (min (p.toNat - a.length) back.length)
    (Nat.min_le_right _ _)
  rw [List.length_append] at hb
  have hend : min p.toNat ((a ++ me :: (b ++ c)).length - 1) = a.length + b.length := by
    simp only [List.length_append, List.length_cons]
    omega
  have hrest : min p.toNat (a ++ (b ++ c)).length = (a ++ b).length := by
    simp only [List.length_append]
    omega
  obtain ⟨last, hloop⟩ := foldlM_shiftAt a b c me pos
  rw [List.append_assoc, List.cons_append] at hloop
  rw [List.erase_append_right _ ha, List.erase_cons_head, hrest, ← List.append_assoc a b c, insertIdx_append,
    Int.toNat_natCast]
  dsimp only
  rw [hend, Nat.add_sub_cancel_left, hloop]
  have hnumbered := numbered_append b [me] a.length pos
  have hset : (a ++ b ++ last :: c).set (a.length + b.length) me = a ++ b ++ me :: c := by
    rw [← List.length_append, List.set_append_right _ _ (Nat.le_refl _), Nat.sub_self, List.set_cons_zero]
  have hin : a.length + b.length < (a ++ b ++ last :: c).length := by
    simp only [List.length_append, List.length_cons]
    omega
  simp only [Option.bind_eq_bind, Option.bind_some, if_pos hin, hset, setQueuePositionImpl]
  refine ⟨_, rfl, ?_, rfl⟩
  have hqueue : a ++ me :: (b ++ c) = a ++ (me :: b) ++ c := by simp
  rw [hqueue] at h
  have hsound := h.of_reordered (b ++ [me]) (List.perm_append_singleton me b)
  rw [hnumbered] at hsound
  simpa [numbered] using hsound

/-- A call does what it is for, whatever the torrent and the position. -/
theorem setQueuePosition_spec (h : Sound s) (me : τ) (hp : -1 ≤ p) :
    ∃ s', s.setQueuePosition me p = some s' ∧ Sound s' ∧ s'.downloadQueue = placed s.downloadQueue me p := by
  rcases lt_trichotomy p (s.queuePosition me) with hlt | heq | hlt
  · rcases hp.lt_or_eq with hpos | rfl
    · exact setQueuePosition_up h (by omega) hlt
    · exact setQueuePosition_remove h hlt.ne'
  · refine ⟨s, by rw [setQueuePosition, if_pos heq.symm], h, ?_⟩
    by_cases hme : s.queuePosition me = noPos
    · have hnot : me ∉ s.downloadQueue := fun hm => (h.mem_iff me).mp hm hme
      rw [heq, hme, placed_noPos, List.erase_of_not_mem hnot]
    · obtain ⟨a, c, hsplit, hpos, ha, -⟩ := h.split hme
      have hmin : min a.length (a ++ c).length = a.length := by simp
      rw [heq, hpos, placed_of_nonneg _ _ (Int.natCast_nonneg _), hsplit, List.erase_append_right _ ha,
        List.erase_cons_head, Int.toNat_natCast, hmin, insertIdx_append]
  · by_cases hme : s.queuePosition me = noPos
    · rw [hme, noPos] at hlt
      exact setQueuePosition_insert h (by omega) hme
    · exact setQueuePosition_down h hlt hme

omit [DecidableEq τ] in
theorem sound_empty : Sound (empty : DownloadQueue τ) :=
  ⟨fun t => iff_of_false (List.not_mem_nil) fun h => h rfl, List.nodup_nil, fun i t hi => by cases hi⟩

/-- Every run of calls ends, in a queue that is sound. -/
theorem exists_run (calls : List (τ × Int)) (hcalls : ∀ call ∈ calls, -1 ≤ call.2) :
    ∃ s : DownloadQueue τ, run calls = some s ∧ Sound s := by
  suffices hall : ∀ s : DownloadQueue τ, Sound s → ∃ s' : DownloadQueue τ,
      calls.foldlM (fun s call => s.setQueuePosition call.1 call.2) s = some s' ∧ Sound s' from hall empty sound_empty
  induction calls with
  | nil => exact fun s hs => ⟨s, rfl, hs⟩
  | cons call calls ih =>
    intro s hs
    obtain ⟨hcall, hcalls⟩ := List.forall_mem_cons.mp hcalls
    obtain ⟨s', hs', hsound, -⟩ := setQueuePosition_spec hs call.1 hcall
    rw [List.foldlM_cons, hs']
    exact ih hcalls s' hsound

end Calls

/-- After any calls the queue holds the torrents that have a position, each once and at its position, and the next call
takes its torrent out and puts it in again where it is asked to, with the others in their order. -/
theorem run_placed (calls : List (τ × Int)) (hcalls : ∀ call ∈ calls, -1 ≤ call.2) :
    ∃ s : DownloadQueue τ, run calls = some s ∧ Sound s ∧ ∀ (me : τ) (p : Int), -1 ≤ p →
      ∃ s', s.setQueuePosition me p = some s' ∧ Sound s' ∧ s'.downloadQueue = placed s.downloadQueue me p ∧
        s'.downloadQueue.erase me = s.downloadQueue.erase me := by
  obtain ⟨s, hs, hsound⟩ := exists_run calls hcalls
  refine ⟨s, hs, hsound, fun me p hp => ?_⟩
  obtain ⟨s', hs', hsound', hplaced⟩ := setQueuePosition_spec hsound me hp
  refine ⟨s', hs', hsound', hplaced, ?_⟩
  have hnot : me ∉ s.downloadQueue.erase me := fun hm => (hsound.nodup.mem_erase_iff.mp hm).1 rfl
  rw [hplaced, placed]
  split
  · rw [List.erase_of_not_mem hnot]
  · obtain ⟨a, b, hab, ha⟩ := exists_append_of_le _ _ (Nat.min_le_right p.toNat (s.downloadQueue.erase me).length)
    rw [← ha]
    rw [hab] at hnot ⊢
    rw [insertIdx_append, List.erase_append_right _ fun hm => hnot (List.mem_append_left _ hm), List.erase_cons_head]

theorem run_placed_moved : ∃ s : DownloadQueue ℕ, run [(0, 0), (1, 9), (2, 1), (0, 1)] = some s ∧ Sound s ∧
    s.downloadQueue = [2, 0, 1] := by
  obtain ⟨s, hs, hsound, -⟩ := run_placed ([(0, 0), (1, 9), (2, 1), (0, 1)] : List (ℕ × Int)) (by decide)
  have hqueue : (run ([(0, 0), (1, 9), (2, 1), (0, 1)] : List (ℕ × Int))).map downloadQueue = some [2, 0, 1] := rfl
  rw [hs] at hqueue
  exact ⟨s, hs, hsound, Option.some.inj hqueue⟩

end DownloadQueue

end Session

end LibtorrentSN
