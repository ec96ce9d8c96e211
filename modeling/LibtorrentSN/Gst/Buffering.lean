import LibtorrentSN.Gst.Demux
import Mathlib.Tactic.Linarith

/-!
# The bookkeeping of the buffering

`gst_bt_demux_stream_update_buffering` divides by `buffering_count`, reads a flag for each piece of
the window and reports the share of the pieces that have come. The count and the flags are set
elsewhere, by two loops, for the window of that time. We follow them through a run: as long as an
activation counts every missing piece, the push loop moves on only when nothing is buffered, and it
starts to buffer only for the end piece, the flags fit the window whenever they are read.
-/

namespace LibtorrentSN

namespace Gst

/-- What is expected of a call of `gst_bt_demux_stream_update_buffering`. -/
structure Sound (maxPieces : ℕ) (h : Handle) (st : Stream) : Prop where
  count_pos : 0 < st.bufferingCount
  reads_lt : ∀ i ∈ st.flagReads h maxPieces, i < st.curBufferingFlags.length
  level_le : st.newLevel h maxPieces ≤ 100
  full : st.newLevel h maxPieces = 100 → ∀ p, st.currentPiece + 1 ≤ p →
    p ≤ min (st.currentPiece + maxPieces) st.endPiece → h.havePiece p = true

/-- The calls after which the flags still fit the window. -/
def Call.Clean (maxPieces : ℕ) : Call → Prop
  | .activate h st => ∀ p ∈ window st.startPiece maxPieces st.endPiece,
      h.havePiece p = false → h.piecePriority p ≠ topPriority
  | .push q st => st.buffering = false ∨ q = st.endPiece
  | .rePush st => st.buffering = false
  | .bufferNext h next st =>
      (h.piecePriority next = topPriority → st.buffering = false) ∧
      (h.piecePriority next ≠ topPriority →
        next = st.endPiece ∧ next = st.currentPiece + 1)
  | .updateBuffering _ _ => True
  | .pieceFinished _ _ => True

instance (maxPieces : ℕ) (c : Call) : Decidable (c.Clean maxPieces) :=
  match c with
  | .activate h st => inferInstanceAs (Decidable (∀ p ∈ window st.startPiece maxPieces st.endPiece,
      h.havePiece p = false → h.piecePriority p ≠ topPriority))
  | .push q st => inferInstanceAs (Decidable (st.buffering = false ∨ q = st.endPiece))
  | .rePush st => inferInstanceAs (Decidable (st.buffering = false))
  | .bufferNext h next st => inferInstanceAs (Decidable
      ((h.piecePriority next = topPriority → st.buffering = false) ∧
      (h.piecePriority next ≠ topPriority → next = st.endPiece ∧ next = st.currentPiece + 1)))
  | .updateBuffering _ _ => inferInstanceAs (Decidable True)
  | .pieceFinished _ _ => inferInstanceAs (Decidable True)

/-! ### The window -/

/-- A range of pieces with both ends. -/
theorem mem_pieceRange {a b p : ℤ} : p ∈ pieceRange a b ↔ a ≤ p ∧ p ≤ b := by
  simp only [pieceRange, List.mem_map, List.mem_range]
  constructor
  · rintro ⟨k, hk, rfl⟩
    omega
  · intro hp
    exact ⟨(p - a).toNat, by omega, by omega⟩

/-- No piece is in it twice. -/
theorem nodup_pieceRange (a b : ℤ) : (pieceRange a b).Nodup := by
  refine List.Nodup.map ?_ List.nodup_range
  intro k l hkl
  simp only at hkl
  omega

/-- Nor in a window. -/
theorem nodup_window (start : ℤ) (n : ℕ) (e : ℤ) : (window start n e).Nodup := by
  unfold window
  split
  · simp
  · exact nodup_pieceRange _ _

/-- The pieces of a window, up to the end piece. -/
theorem mem_window {start e p : ℤ} {n : ℕ} (h1 : start ≤ p) (h2 : p ≤ min (start + n - 1) e) :
    p ∈ window start n e := by
  unfold window
  split
  · rw [List.mem_singleton]
    omega
  · exact mem_pieceRange.mpr ⟨h1, h2⟩

/-! ### Filling the flags -/

/-- Priorities do not change what we have. -/
@[simp] theorem scan_havePiece (h : Handle) (ps : List ℤ) (q : ℤ) :
    (scan h ps).1.havePiece q = h.havePiece q := by
  induction ps generalizing h with
  | nil => rfl
  | cons p ps ih =>
    simp only [scan_cons]
    split
    · exact ih h
    · split
      · exact ih h
      · exact (ih _).trans (h.setPiecePriority_havePiece p q topPriority)

/-- The flags say which pieces are missing. -/
theorem scan_flags (h : Handle) (ps : List ℤ) :
    (scan h ps).2.1 = ps.map (fun p => !h.havePiece p) := by
  induction ps generalizing h with
  | nil => rfl
  | cons p ps ih =>
    simp only [scan_cons, List.map_cons]
    split
    · rename_i hp
      simp [ih, hp]
    · rename_i hp
      split
      · simp [ih, hp]
      · simp [ih, hp]

/-- Where no missing piece has top priority yet, all of them are counted. -/
theorem scan_count {h : Handle} {ps : List ℤ} (hnd : ps.Nodup)
    (htop : ∀ p ∈ ps, h.havePiece p = false → h.piecePriority p ≠ topPriority) :
    (scan h ps).2.2 = ps.countP (fun p => !h.havePiece p) := by
  induction ps generalizing h with
  | nil => rfl
  | cons p ps ih =>
    obtain ⟨hp, hnd'⟩ := List.nodup_cons.mp hnd
    simp only [scan_cons]
    split
    · rename_i hh
      rw [List.countP_cons_of_neg (by simp [hh])]
      exact ih hnd' (fun x hx => htop x (List.mem_cons_of_mem p hx))
    · rename_i hh
      have hh' : h.havePiece p = false := by simpa using hh
      rw [if_neg (htop p List.mem_cons_self hh'), List.countP_cons_of_pos (by simp [hh'])]
      simp only
      rw [ih hnd']
      · simp
      · intro x hx hmiss
        have hne : x ≠ p := by
          rintro rfl
          exact hp hx
        rw [h.setPiecePriority_piecePriority, if_neg (fun hc => hne hc.1)]
        exact htop x (List.mem_cons_of_mem p hx) (by simpa using hmiss)

/-- A missing piece that has not top priority yet is counted. -/
theorem scan_count_pos {h : Handle} {p : ℤ} {n : ℕ} (hn : 0 < n) (hp : h.havePiece p = false)
    (htop : h.piecePriority p ≠ topPriority) : 0 < (scan h (List.replicate n p)).2.2 := by
  obtain ⟨n, rfl⟩ := Nat.exists_eq_succ_of_ne_zero hn.ne'
  simp only [Nat.succ_eq_add_one, List.replicate_succ, scan_cons]
  rw [if_neg (by simp [hp]), if_neg htop]
  simp

/-- A missing piece of top priority is not. -/
theorem scan_count_top {h : Handle} {p : ℤ} (n : ℕ) (htop : h.piecePriority p = topPriority) :
    (scan h (List.replicate n p)).2.2 = 0 := by
  induction n with
  | zero => rfl
  | succ n ih =>
    simp only [List.replicate_succ, scan_cons, if_pos htop]
    split
    · exact ih
    · exact ih

/-- A piece that we have is not counted as missing. -/
theorem scan_count_have {h : Handle} {p : ℤ} (n : ℕ) (hp : h.havePiece p = true) :
    (scan h (List.replicate n p)).2.2 = 0 := by
  induction n with
  | zero => rfl
  | succ n ih =>
    simp only [List.replicate_succ, scan_cons, if_pos hp]
    exact ih

/-- It is counted once. -/
theorem scan_count_once {h : Handle} {p : ℤ} {n : ℕ} (hp : h.inRange p = true) :
    (scan h (List.replicate n p)).2.2 ≤ 1 := by
  cases n with
  | zero => exact Nat.zero_le 1
  | succ n =>
    simp only [List.replicate_succ, scan_cons]
    have htop : (h.setPiecePriority p topPriority).piecePriority p = topPriority := by
      rw [h.setPiecePriority_piecePriority, if_pos ⟨rfl, hp⟩]
    split
    · rename_i hh
      rw [scan_count_have n hh]
      exact Nat.zero_le 1
    split
    · rename_i h'
      rw [scan_count_top n h']
      exact Nat.zero_le 1
    · simp only
      rw [scan_count_top n htop]

/-! ### Flags that fit the window -/

/-- Every piece of the window has its flag, the flagged ones are counted and the others are on
disk. Past the end piece only the first two matter. -/
structure Fits (maxPieces : ℕ) (have' : ℤ → Bool) (st : Stream) : Prop where
  count_pos : 0 < st.bufferingCount
  length_le : (st.nextWindow maxPieces).length ≤ st.curBufferingFlags.length
  counted : st.currentPiece + 1 ≤ st.endPiece →
    (st.nextWindow maxPieces).zipIdx.countP (fun x => st.curBufferingFlags.getD x.2 false) ≤
      st.bufferingCount
  unflagged : st.currentPiece + 1 ≤ st.endPiece → ∀ x ∈ (st.nextWindow maxPieces).zipIdx,
    st.curBufferingFlags.getD x.2 false = false → have' x.1 = true

/-- If no more elements satisfy `q` than satisfy the stronger `p`, they are the same. -/
theorem of_countP_le {α : Type} {p q : α → Bool} {l : List α} (hpq : ∀ x ∈ l, p x → q x)
    (hle : l.countP q ≤ l.countP p) : ∀ x ∈ l, q x → p x := by
  induction l with
  | nil => exact fun x hx => by cases hx
  | cons a l ih =>
    have hl : ∀ x ∈ l, p x → q x := fun x hx => hpq x (List.mem_cons_of_mem a hx)
    have hmono : l.countP p ≤ l.countP q := List.countP_mono_left hl
    have ha := hpq a List.mem_cons_self
    rw [List.countP_cons, List.countP_cons] at hle
    intro x hx hq
    rcases List.mem_cons.mp hx with rfl | hx
    · by_contra hp
      simp only [hq, hp, if_true] at hle
      simp at hle
      omega
    · refine ih hl ?_ x hx hq
      by_cases hqa : q a <;> by_cases hpa : p a
      · simpa [hqa, hpa] using hle
      · simp [hqa, hpa] at hle
        omega
      · exact absurd (ha hpa) hqa
      · simpa [hqa, hpa] using hle

/-- The number of flags that are set for pieces we have. -/
theorem Stream.bufferedPieces_eq (st : Stream) (h : Handle) (n : ℕ) :
    st.bufferedPieces h n = (st.nextWindow n).zipIdx.countP
      (fun x => st.curBufferingFlags.getD x.2 false && h.havePiece x.1) := by
  unfold Stream.bufferedPieces Stream.flagReads
  rw [List.countP_map, List.countP_filter]
  rfl

/-- Flags that fit are sound. -/
theorem Fits.sound {n : ℕ} {h : Handle} {st : Stream} (hf : Fits n h.havePiece st) :
    Sound n h st where
  count_pos := hf.count_pos
  reads_lt i hi := by
    simp only [Stream.flagReads, List.mem_map, List.mem_filter] at hi
    obtain ⟨x, ⟨hx, -⟩, rfl⟩ := hi
    have hlt := (List.mem_zipIdx hx).2.1
    have hlen := hf.length_le
    omega
  level_le := by
    unfold Stream.newLevel
    refine Nat.div_le_of_le_mul ?_
    have := Nat.min_le_right (st.bufferedPieces h n) st.bufferingCount
    omega
  full := by
    intro hfull p h1 h2
    have hpos := hf.count_pos
    have hend : st.currentPiece + 1 ≤ st.endPiece := by omega
    -- a level of 100 says that as many pieces have come as there are flags
    have hle : st.bufferingCount ≤ st.bufferedPieces h n := by
      by_contra hlt
      unfold Stream.newLevel at hfull
      rw [Nat.min_eq_left (by omega), Nat.div_eq_iff hpos] at hfull
      omega
    have hw : p ∈ st.nextWindow n := mem_window h1 (by omega)
    obtain ⟨i, hi⟩ := List.mem_iff_getElem?.mp hw
    have hx : (p, i) ∈ (st.nextWindow n).zipIdx := List.mem_zipIdx_iff_getElem?.mpr hi
    by_cases hflag : st.curBufferingFlags.getD i false = true
    · have hsame := of_countP_le
        (p := fun x : ℤ × ℕ => st.curBufferingFlags.getD x.2 false && h.havePiece x.1)
        (q := fun x => st.curBufferingFlags.getD x.2 false)
        (fun x _ hp => (Bool.and_eq_true_iff.mp hp).1)
        ((hf.counted hend).trans (hle.trans_eq (st.bufferedPieces_eq h n))) (p, i) hx hflag
      exact (Bool.and_eq_true_iff.mp hsame).2
    · exact hf.unflagged hend (p, i) hx (by simpa using hflag)

/-- More pieces on disk do no harm to the flags. -/
theorem Fits.mono {n : ℕ} {have₁ have₂ : ℤ → Bool} {st : Stream} (h : Fits n have₁ st)
    (hle : ∀ q, have₁ q = true → have₂ q = true) : Fits n have₂ st :=
  ⟨h.count_pos, h.length_le, h.counted, fun hend x hx hflag => hle x.1 (h.unflagged hend x hx hflag)⟩

/-- A stream that is activated begins at its start. -/
theorem Stream.activate_nextWindow (st : Stream) (s : Port) (n : ℕ) :
    (st.activate s n).2.2.nextWindow n = window st.startPiece n st.endPiece := by
  simp only [Stream.nextWindow, Stream.activate, sub_add_cancel]

/-- After an activation each piece of the window has its flag. -/
theorem Stream.activate_flag (st : Stream) (s : Port) (n : ℕ) :
    ∀ x ∈ (window st.startPiece n st.endPiece).zipIdx,
      (st.activate s n).2.2.curBufferingFlags.getD x.2 false = !s.handle.havePiece x.1 := by
  intro x hx
  change (scan s.handle (window st.startPiece n st.endPiece)).2.1.getD x.2 false = _
  rw [scan_flags, List.getD_eq_getElem?_getD, List.getElem?_map, List.mem_zipIdx_iff_getElem?.mp hx]
  rfl

/-- After a clean one the flags that are set are as many as the count says. -/
theorem Stream.activate_count {n : ℕ} {s : Port} {st : Stream}
    (hclean : (Call.activate s.handle st).Clean n) :
    ((st.activate s n).2.2.nextWindow n).zipIdx.countP
      (fun x => (st.activate s n).2.2.curBufferingFlags.getD x.2 false) =
    (st.activate s n).2.2.bufferingCount := by
  have hcount : (st.activate s n).2.2.bufferingCount =
      (window st.startPiece n st.endPiece).countP (fun p => !s.handle.havePiece p) :=
    scan_count (nodup_window _ _ _) hclean
  rw [st.activate_nextWindow, hcount, List.countP_congr (q := fun x => !s.handle.havePiece x.1)
    (fun x hx => by rw [st.activate_flag s n x hx])]
  have hmap := List.countP_map (p := fun p => !s.handle.havePiece p) (f := Prod.fst)
    (l := (window st.startPiece n st.endPiece).zipIdx)
  rw [List.zipIdx_map_fst] at hmap
  exact hmap.symm

/-- On an activation whose window has no missing piece of top priority, the flags fit. -/
theorem Fits.activate {n : ℕ} {s : Port} {st : Stream}
    (hclean : (Call.activate s.handle st).Clean n) (hret : (st.activate s n).1 = true) :
    Fits n s.handle.havePiece (st.activate s n).2.2 := by
  have hpos : 0 < (scan s.handle (window st.startPiece n st.endPiece)).2.2 := by
    simpa [Stream.activate] using hret
  refine ⟨hpos, ?_, fun _ => (Stream.activate_count hclean).le, ?_⟩
  · rw [st.activate_nextWindow]
    change _ ≤ (scan s.handle (window st.startPiece n st.endPiece)).2.1.length
    rw [scan_flags, List.length_map]
  · intro _ x hx hflag
    rw [st.activate_nextWindow] at hx
    rw [st.activate_flag s n x hx] at hflag
    simpa using hflag

/-- It is requested, and buffers. -/
theorem Stream.activate_on (st : Stream) (s : Port) (n : ℕ) (hret : (st.activate s n).1 = true) :
    (st.activate s n).2.2.requested = true ∧ (st.activate s n).2.2.buffering = true :=
  ⟨rfl, hret⟩

/-- When the push loop starts to buffer the end piece, which is the next one, its flags fit. -/
theorem Fits.bufferNext {n : ℕ} {s : Port} {st : Stream} {next : ℤ} (hn : 2 ≤ n)
    (hmiss : s.handle.havePiece next = false) (htop : s.handle.piecePriority next ≠ topPriority)
    (hend : next = st.endPiece) (hcur : next = st.currentPiece + 1) :
    Fits n s.handle.havePiece (Demux.bufferNext n next s st).2 := by
  have hwin : (Demux.bufferNext n next s st).2.nextWindow n = [next] := by
    simp only [Stream.nextWindow, Demux.bufferNext, window, ← hcur, ← hend, ge_iff_le, le_refl,
      if_true]
  have hflags : (Demux.bufferNext n next s st).2.curBufferingFlags = List.replicate (n - 1) true := by
    change (scan s.handle (List.replicate (n - 1) next)).2.1 = _
    rw [scan_flags, List.map_replicate, hmiss]
    rfl
  have hget : (List.replicate (n - 1) true).getD 0 false = true := by
    rw [List.getD_eq_getElem?_getD, List.getElem?_replicate_of_lt (by omega)]
    rfl
  have hpos : 0 < (Demux.bufferNext n next s st).2.bufferingCount :=
    scan_count_pos (by omega) hmiss htop
  refine ⟨hpos, ?_, ?_, ?_⟩
  · rw [hwin, hflags, List.length_replicate, List.length_singleton]
    omega
  · intro _
    rw [hwin, hflags, List.zipIdx_singleton, List.countP_singleton, hget]
    exact hpos
  · intro _ x hx hflag
    rw [hwin, List.zipIdx_singleton, List.mem_singleton] at hx
    rw [hflags, hx, hget] at hflag
    exact absurd hflag (by decide)

/-! ### What each function keeps -/

/-- The flags of a stream that is played and buffering fit. -/
def Stream.Good (n : ℕ) (have' : ℤ → Bool) (st : Stream) : Prop :=
  st.requested = true → st.buffering = true → Fits n have' st

/-- Only the pieces that we have matter. -/
theorem Stream.Good.of_eq {n : ℕ} {have₁ have₂ : ℤ → Bool} {st : Stream} (h : st.Good n have₁)
    (he : ∀ q, have₁ q = have₂ q) : st.Good n have₂ := by
  rwa [← funext he]

/-- The fields that say whether flags fit. -/
def Stream.flagFields (st : Stream) : Bool × Bool × ℕ × List Bool × ℤ × ℤ :=
  (st.requested, st.buffering, st.bufferingCount, st.curBufferingFlags, st.currentPiece,
    st.endPiece)

/-- Only the fields for the flags matter. -/
theorem Stream.Good.of_flagFields {n : ℕ} {have' : ℤ → Bool} {st st' : Stream}
    (he : st'.flagFields = st.flagFields) (h : st.Good n have') : st'.Good n have' := by
  simp only [Stream.flagFields, Prod.mk.injEq] at he
  obtain ⟨hr, hb, hc, hf, hcur, hend⟩ := he
  intro hreq hbuf
  obtain ⟨h1, h2, h3, h4⟩ := h (hr.symm.trans hreq) (hb.symm.trans hbuf)
  have hwin : st'.nextWindow n = st.nextWindow n := by
    rw [Stream.nextWindow, Stream.nextWindow, hcur, hend]
  refine ⟨hc ▸ h1, ?_, ?_, ?_⟩
  · rwa [hwin, hf]
  · rwa [hwin, hf, hcur, hend, hc]
  · rwa [hwin, hf, hcur, hend]

/-- Going from one port to another, and from `G` to `G'`, which say that flags fit: the calls made on
the way are sound, and the flags fit still, where these calls are clean. -/
def Keeps (n : ℕ) (s s' : Port) (G G' : Prop) : Prop :=
  (∀ q, s'.handle.havePiece q = s.handle.havePiece q) ∧
  ∃ cs, s'.calls = s.calls ++ cs ∧ ((∀ c ∈ cs, c.Clean n) → G →
    G' ∧ ∀ h x, .updateBuffering h x ∈ cs → Sound n h x)

/-- Nothing is called. -/
theorem Keeps.of_same {n : ℕ} {s s' : Port} {G G' : Prop}
    (hp : ∀ q, s'.handle.havePiece q = s.handle.havePiece q) (hc : s'.calls = s.calls)
    (hg : G → G') : Keeps n s s' G G' :=
  ⟨hp, [], by simpa using hc, fun _ h => ⟨hg h, fun _ _ hx => by cases hx⟩⟩

/-- A step that keeps more. -/
theorem Keeps.imp {n : ℕ} {s s' : Port} {G₁ G₂ G₁' G₂' : Prop} (h : Keeps n s s' G₁ G₁')
    (h₁ : G₂ → G₁) (h₂ : G₁' → G₂') : Keeps n s s' G₂ G₂' := by
  obtain ⟨hp, cs, hc, hg⟩ := h
  refine ⟨hp, cs, hc, fun hclean h => ?_⟩
  obtain ⟨h3, h4⟩ := hg hclean (h₁ h)
  exact ⟨h₂ h3, h4⟩

/-- One call that is not an update. -/
theorem Keeps.of_call {n : ℕ} {s s' : Port} {G G' : Prop} {c : Call}
    (hp : ∀ q, s'.handle.havePiece q = s.handle.havePiece q) (hc : s'.calls = s.calls ++ [c])
    (hu : ∀ h x, c ≠ .updateBuffering h x) (hg : c.Clean n → G → G') : Keeps n s s' G G' := by
  refine ⟨hp, [c], hc, fun hclean h => ⟨hg (hclean c (List.mem_singleton_self c)) h, ?_⟩⟩
  intro h x hx
  exact absurd (List.mem_singleton.mp hx).symm (hu h x)

/-- Priorities do not change what we have. -/
@[simp] theorem Port.lowerPriority_havePiece (lower : ℕ → Bool) (prio : ℕ) (ps : List ℤ) (s : Port)
    (q : ℤ) : (Port.lowerPriority lower prio ps s).handle.havePiece q = s.handle.havePiece q := by
  induction ps generalizing s with
  | nil => rfl
  | cons p ps ih =>
    simp only [Port.lowerPriority]
    split
    · exact ih s
    · split
      · exact (ih _).trans (s.handle.setPiecePriority_havePiece p q prio)
      · exact ih s

/-- They are no call of interest. -/
@[simp] theorem Port.lowerPriority_calls (lower : ℕ → Bool) (prio : ℕ) (ps : List ℤ) (s : Port) :
    (Port.lowerPriority lower prio ps s).calls = s.calls := by
  induction ps generalizing s with
  | nil => rfl
  | cons p ps ih =>
    simp only [Port.lowerPriority]
    split
    · exact ih s
    · split
      · exact ih _
      · exact ih s

/-- A stream is activated. -/
theorem Keeps.activate {n : ℕ} {s s₁ : Port} (hp : ∀ q, s₁.handle.havePiece q = s.handle.havePiece q)
    (hc : s₁.calls = s.calls) (G : Prop) (st : Stream) :
    Keeps n s (st.activate s₁ n).2.1 G ((st.activate s₁ n).2.2.Good n s.handle.havePiece) := by
  refine Keeps.of_call (c := .activate s₁.handle st) ?_ ?_ ?_ ?_
  · exact fun q => (scan_havePiece _ _ q).trans (hp q)
  · exact congrArg (· ++ _) hc
  · exact fun _ _ => Call.noConfusion
  · intro hclean _ _ hbuf
    rw [← funext hp]
    exact Fits.activate hclean hbuf

/-- A stream is dismissed. -/
theorem Keeps.dismiss {n : ℕ} (s : Port) (st : Stream) {G G' : Prop} (hg : G → G') :
    Keeps n s (Demux.dismiss n s st).1 G G' := by
  refine Keeps.of_same ?_ ?_ hg
  · intro q
    simp only [Demux.dismiss]
    split
    · rfl
    · exact Port.lowerPriority_havePiece _ _ _ _ q
  · simp only [Demux.dismiss]
    split
    · rfl
    · exact Port.lowerPriority_calls _ _ _ _

/-- The push loop makes `q` the current piece, or drops it. -/
theorem Keeps.takePiece {n : ℕ} (s : Port) (st : Stream) :
    Keeps n s (Demux.takePiece s st).1 (st.Good n s.handle.havePiece)
      ((Demux.takePiece s st).2.Good n s.handle.havePiece) := by
  unfold Demux.takePiece
  split
  · exact Keeps.of_same (fun _ => rfl) rfl id
  split
  · exact Keeps.of_same (fun _ => rfl) rfl (Stream.Good.of_flagFields rfl)
  split
  · exact Keeps.of_same (fun _ => rfl) rfl id
  rename_i q rest _
  split
  · exact Keeps.of_same (fun _ => rfl) rfl (Stream.Good.of_flagFields rfl)
  rename_i hq
  have hcur : q = st.currentPiece + 1 := by
    by_contra hne
    exact hq (.inr hne)
  refine Keeps.of_call (c := .push q st) (fun _ => rfl) rfl (fun _ _ => Call.noConfusion) ?_
  intro hclean hgood hreq hbuf
  rcases hclean with hno | hend
  · rw [hno] at hbuf
    exact absurd hbuf (by decide)
  -- past the end piece the window is that piece alone, before and after
  have hfits := hgood hreq hbuf
  refine ⟨hfits.count_pos, ?_, ?_, ?_⟩
  · have h1 : st.nextWindow n = [st.endPiece] := by
      rw [Stream.nextWindow, window, if_pos (by omega)]
    have h2 : window (q + 1) n st.endPiece = [st.endPiece] := by
      rw [window, if_pos (by omega)]
    have hlen := hfits.length_le
    rw [h1] at hlen
    change (window (q + 1) n st.endPiece).length ≤ _
    rw [h2]
    exact hlen
  · intro h
    change q + 1 ≤ st.endPiece at h
    omega
  · intro h
    change q + 1 ≤ st.endPiece at h
    omega

/-- A piece has been pushed. -/
theorem Keeps.pushed {n : ℕ} (q old : ℤ) (r : Flow) (s : Port) (st : Stream) :
    Keeps n s (Demux.pushed q old r s st).1 (st.Good n s.handle.havePiece)
      ((Demux.pushed q old r s st).2.Good n s.handle.havePiece) := by
  have hfields : ∀ e : Bool,
      (if e then { st with eosSent := true, task := false } else st).flagFields =
        st.flagFields := by
    intro e
    cases e <;> rfl
  simp only [Demux.pushed]
  by_cases hr : r = .rePush
  · simp only [if_pos hr]
    refine Keeps.of_call (c := .rePush st) (fun _ => rfl) rfl (fun _ _ => Call.noConfusion) ?_
    intro hclean _ _ hbuf
    have hno : st.buffering = false := hclean
    have hb := congrArg (fun x => x.2.1) (hfields (Demux.sendEos q r st))
    exact absurd (hno.symm.trans (hb.symm.trans hbuf)) (by decide)
  · simp only [if_neg hr]
    refine Keeps.of_same (fun _ => rfl) rfl ?_
    exact Stream.Good.of_flagFields (hfields _)

/-- A stream buffers because its next piece is missing. -/
theorem Keeps.bufferNext {n : ℕ} {next : ℤ} {s : Port} {st : Stream} (hn : 2 ≤ n)
    (hmiss : s.handle.havePiece next = false) :
    Keeps n s (Demux.bufferNext n next s st).1 (st.Good n s.handle.havePiece)
      ((Demux.bufferNext n next s st).2.Good n s.handle.havePiece) := by
  refine Keeps.of_call (c := .bufferNext s.handle next st) (fun q => scan_havePiece _ _ q) rfl
    (fun _ _ => Call.noConfusion) ?_
  intro hclean _ _ hbuf
  by_cases htop : s.handle.piecePriority next = topPriority
  · -- nothing is counted, and `buffering` is what it was
    have hno : st.buffering = false := hclean.1 htop
    simp [Demux.bufferNext, hno, scan_count_top _ htop] at hbuf
  · obtain ⟨hend, hcur⟩ := hclean.2 htop
    exact Fits.bufferNext hn hmiss htop hend hcur

/-- An update is sound where the flags fit. -/
theorem Keeps.updateBuffering {n : ℕ} {s : Port} {st : Stream} (hreq : st.requested = true)
    (hbuf : st.buffering = true) :
    Keeps n s (st.updateBuffering s n).1 (st.Good n s.handle.havePiece)
      ((st.updateBuffering s n).2.Good n s.handle.havePiece) := by
  refine ⟨fun _ => rfl, [.updateBuffering s.handle st], rfl, fun _ hgood => ⟨?_, ?_⟩⟩
  · refine Stream.Good.of_flagFields ?_ hgood
    rfl
  · intro h x hx
    obtain ⟨rfl, rfl⟩ := Call.updateBuffering.inj (List.mem_singleton.mp hx)
    exact (hgood hreq hbuf).sound

/-- One step after the other. -/
theorem Keeps.trans {n : ℕ} {s₁ s₂ s₃ : Port} {G₁ G₂ G₃ : Prop} (h₁ : Keeps n s₁ s₂ G₁ G₂)
    (h₂ : Keeps n s₂ s₃ G₂ G₃) : Keeps n s₁ s₃ G₁ G₃ := by
  obtain ⟨hp₁, cs₁, hc₁, hg₁⟩ := h₁
  obtain ⟨hp₂, cs₂, hc₂, hg₂⟩ := h₂
  refine ⟨fun q => (hp₂ q).trans (hp₁ q), cs₁ ++ cs₂, by rw [hc₂, hc₁, List.append_assoc], ?_⟩
  intro hclean h
  obtain ⟨h2, hs₁⟩ := hg₁ (fun c hc => hclean c (List.mem_append_left _ hc)) h
  obtain ⟨h3, hs₂⟩ := hg₂ (fun c hc => hclean c (List.mem_append_right _ hc)) h2
  refine ⟨h3, fun x y hx => ?_⟩
  rcases List.mem_append.mp hx with hx | hx
  · exact hs₁ x y hx
  · exact hs₂ x y hx

/-! ### The element -/

namespace Demux

variable {n : ℕ} {d : Demux} {W : ℕ → ℤ → Prop}

/-- What holds of the element where all calls were clean: the calls of
`gst_bt_demux_stream_update_buffering` were sound, and the flags of the streams in `W` fit, a stream
being given by its position and its file. -/
def Inv (n : ℕ) (W : ℕ → ℤ → Prop) (d : Demux) : Prop :=
  d.bufferPieces = n ∧ ((∀ c ∈ d.port.calls, c.Clean d.bufferPieces) →
    (∀ (j : ℕ) (st : Stream), d.streams[j]? = some st → W j st.fileIdx →
      st.Good d.bufferPieces d.port.handle.havePiece) ∧
    ∀ h x, .updateBuffering h x ∈ d.port.calls → Sound d.bufferPieces h x)

/-- Less is asked of streams that are not requested. -/
theorem Inv.weaken {V : ℕ → ℤ → Prop} (hd : d.Inv n W)
    (hv : ∀ (j : ℕ) (st : Stream), d.streams[j]? = some st → V j st.fileIdx →
      W j st.fileIdx ∨ st.requested = false) : d.Inv n V := by
  refine ⟨hd.1, fun hclean => ?_⟩
  obtain ⟨h1, h2⟩ := hd.2 hclean
  refine ⟨fun j st hj hw => ?_, h2⟩
  rcases hv j st hj hw with hw | hoff
  · exact h1 j st hj hw
  · exact fun hreq => absurd (hoff.symm.trans hreq) (by decide)

/-- A step on all streams. -/
theorem Inv.of_keeps {V : ℕ → ℤ → Prop} (hd : d.Inv n W) {s : Port} {streams : List Stream}
    (hk : Keeps d.bufferPieces d.port s
      (∀ (j : ℕ) (st : Stream), d.streams[j]? = some st → W j st.fileIdx →
        st.Good d.bufferPieces d.port.handle.havePiece)
      (∀ (j : ℕ) (st : Stream), streams[j]? = some st → V j st.fileIdx →
        st.Good d.bufferPieces d.port.handle.havePiece)) :
    Inv n V { d with port := s, streams := streams } := by
  obtain ⟨hp, cs, hc, hg⟩ := hk
  refine ⟨hd.1, fun hclean => ?_⟩
  simp only [hc, List.mem_append] at hclean
  obtain ⟨hgood, hsound⟩ := hd.2 (fun c h => hclean c (.inl h))
  obtain ⟨hgood', hsound'⟩ := hg (fun c h => hclean c (.inr h)) hgood
  refine ⟨fun j st hst hw => (hgood' j st hst hw).of_eq (fun q => (hp q).symm), ?_⟩
  intro h x hx
  simp only [hc, List.mem_append] at hx
  exact hx.elim (hsound h x) (hsound' h x)

/-- The stream at `i` is replaced. Elsewhere as many streams are as before. -/
theorem Inv.set {V : ℕ → ℤ → Prop} (hd : d.Inv n W) {i : ℕ} {st st' : Stream}
    (hi : d.streams[i]? = some st) {s : Port} (hv : ∀ j f, j ≠ i → V j f → W j f)
    (hk : Keeps d.bufferPieces d.port s
      (W i st.fileIdx → st.Good d.bufferPieces d.port.handle.havePiece)
      (V i st'.fileIdx → st'.Good d.bufferPieces d.port.handle.havePiece)) :
    Inv n V { d with port := s, streams := d.streams.set i st' } := by
  obtain ⟨hp, cs, hc, hg⟩ := hk
  refine hd.of_keeps ⟨hp, cs, hc, fun hclean hall => ?_⟩
  obtain ⟨h1, h2⟩ := hg hclean (hall i st hi)
  refine ⟨fun j x hx hw => ?_, h2⟩
  by_cases hj : j = i
  · subst hj
    rw [List.getElem?_set_self (List.getElem?_eq_some_iff.mp hi).1] at hx
    obtain rfl := Option.some.inj hx
    exact h1 hw
  · rw [List.getElem?_set_ne (Ne.symm hj)] at hx
    exact hall j x hx (hv j _ hj hw)

/-- A step on one stream. -/
theorem Inv.withStream (hd : d.Inv n W) (i : ℕ) {f : Port → Stream → Port × Stream}
    (hf : ∀ st, Keeps d.bufferPieces d.port (f d.port st).1
      (W i st.fileIdx → st.Good d.bufferPieces d.port.handle.havePiece)
      (W i (f d.port st).2.fileIdx →
        (f d.port st).2.Good d.bufferPieces d.port.handle.havePiece)) :
    (d.withStream i f).Inv n W := by
  unfold Demux.withStream
  split
  · exact hd
  · rename_i st hi
    exact hd.set hi (fun _ _ _ => id) (hf st)

/-- The round of `send_buffering` for a stream changes nothing that matters here, or it ends the
buffering. -/
theorem sendBufferingStream_keeps (n : ℕ) (hv : ℤ → Bool) (x : Port × Bool) (st : Stream) :
    (sendBufferingStream x st).1.1.handle = x.1.handle ∧
    (sendBufferingStream x st).1.1.calls = x.1.calls ∧
    (sendBufferingStream x st).2.fileIdx = st.fileIdx ∧
    (sendBufferingStream x st).2.requested = st.requested ∧
    (st.Good n hv → (sendBufferingStream x st).2.Good n hv) := by
  unfold sendBufferingStream
  split
  · exact ⟨rfl, rfl, rfl, rfl, id⟩
  split
  · exact ⟨rfl, rfl, rfl, rfl, fun _ _ hbuf => by cases hbuf⟩
  split
  · exact ⟨rfl, rfl, rfl, rfl, id⟩
  · exact ⟨rfl, rfl, rfl, rfl, id⟩

/-- Only the messages are sent. -/
theorem Inv.sendBuffering (hd : d.Inv n W) : d.sendBuffering.Inv n W := by
  obtain ⟨hport, hout⟩ := walk_inv (f := sendBufferingStream)
    (I := fun x => x.1.handle = d.port.handle ∧ x.1.calls = d.port.calls)
    (l := d.streams) (s := (d.port, false)) ⟨rfl, rfl⟩ (fun x hx st _ => by
      obtain ⟨h1, h2, -, -, -⟩ := sendBufferingStream_keeps 0 (fun _ => true) x st
      exact ⟨h1.trans hx.1, h2.trans hx.2⟩)
  refine hd.of_keeps (Keeps.of_same ?_ hport.2 ?_)
  · intro q
    rw [hport.1]
  · intro hall j st' hj hw
    obtain ⟨x, st, -, hj', rfl⟩ := hout j st' hj
    obtain ⟨-, -, h3, -, h5⟩ :=
      sendBufferingStream_keeps d.bufferPieces d.port.handle.havePiece x st
    exact h5 (hall j st hj' (h3 ▸ hw))

/-- A stream is given another range and started; its flags fit then. -/
theorem Inv.restart {V : ℕ → ℤ → Prop} (hd : d.Inv n W) (i : ℕ) (g : Stream → Stream)
    (hv : ∀ j f, j ≠ i → V j f → W j f) :
    ((d.withStream i (fun s st => (s, g st))).start i).Inv n V := by
  unfold Demux.withStream
  split
  · rename_i hi
    unfold Demux.start
    rw [hi]
    refine hd.weaken (fun j st hj hw => .inl (hv j _ ?_ hw))
    rintro rfl
    cases hi.symm.trans hj
  · rename_i st hi
    have hlt : i < d.streams.length := (List.getElem?_eq_some_iff.mp hi).1
    unfold Demux.start
    simp only [List.getElem?_set_self hlt, List.set_set]
    have hk := Keeps.activate (n := d.bufferPieces) (s := d.port) (fun _ => rfl) rfl
      (W i st.fileIdx → st.Good d.bufferPieces d.port.handle.havePiece) (g st)
    have hk' := hk.imp id (fun h (_ : V i (g st).fileIdx) => h)
    split
    · exact Inv.sendBuffering (hd.set hi hv hk')
    · exact hd.set hi hv hk'

/-! ### Switching to another stream -/

/-- A change that a function does not see. -/
theorem map_set_of_eq {α β : Type} {f : α → β} {l : List α} {i : ℕ} {a b : α} (hi : l[i]? = some a)
    (hf : f b = f a) : (l.set i b).map f = l.map f := by
  obtain ⟨hlt, rfl⟩ := List.getElem?_eq_some_iff.mp hi
  rw [List.map_set, hf, ← List.getElem_map f (h := by simpa using hlt), List.set_getElem_self]

/-- A walk that a function does not see. -/
theorem walk_map {σ α β : Type} {f : σ → α → σ × α} {g : α → β} (hf : ∀ s a, g (f s a).2 = g a)
    (s : σ) (l : List α) : (walk f s l).2.map g = l.map g := by
  induction l generalizing s with
  | nil => rfl
  | cons a l ih =>
    simp only [walk, List.map_cons]
    rw [hf, ih]

/-- Whether a stream is on, where it is not the desired one. -/
def onState (desired : ℤ) (st : Stream) : ℤ × Bool :=
  (st.fileIdx, decide (st.fileIdx = desired) || st.requested)

/-- Streams of other files are not turned on or off by this. -/
theorem withStream_onState {desired : ℤ} {i : ℕ} {f : Port → Stream → Port × Stream}
    (hf : ∀ st, d.streams[i]? = some st → onState desired (f d.port st).2 = onState desired st) :
    (d.withStream i f).streams.map (onState desired) = d.streams.map (onState desired) := by
  unfold withStream
  split
  · rfl
  · rename_i st hi
    exact map_set_of_eq hi (hf st hi)

/-- Nor by a message. -/
theorem sendBuffering_onState (desired : ℤ) :
    d.sendBuffering.streams.map (onState desired) = d.streams.map (onState desired) := by
  refine walk_map (fun x st => ?_) _ _
  obtain ⟨-, -, h3, h4, -⟩ := sendBufferingStream_keeps 0 (fun _ => true) x st
  rw [onState, onState, h3, h4]

/-- Nor by a start of the file that is asked for. -/
theorem start_onState {desired : ℤ} {i : ℕ} {st : Stream} (hi : d.streams[i]? = some st)
    (hst : st.fileIdx = desired) :
    (d.start i).streams.map (onState desired) = d.streams.map (onState desired) := by
  have hset : (d.streams.set i (st.activate d.port d.bufferPieces).2.2).map (onState desired) =
      d.streams.map (onState desired) := by
    refine map_set_of_eq hi ?_
    simp [onState, Stream.activate, hst]
  unfold start
  rw [hi]
  simp only
  split
  · exact (sendBuffering_onState desired).trans hset
  · exact hset

/-- The loop of a switch over one stream. -/
theorem switchStream_inv {desired : ℤ} {i : ℕ} (hd : d.Inv n (fun j f => f = desired ∧ j < i)) :
    (switchStream desired d i).Inv n (fun j f => f = desired ∧ j < i + 1) ∧
    (switchStream desired d i).streams.map (onState desired) =
      d.streams.map (onState desired) := by
  have hv : ∀ (j : ℕ) (f : ℤ), j ≠ i → (f = desired ∧ j < i + 1) → f = desired ∧ j < i :=
    fun j f hj h => ⟨h.1, by omega⟩
  unfold switchStream
  split
  · rename_i hi
    refine ⟨hd.weaken (fun j st hj hw => .inl (hv j _ ?_ hw)), rfl⟩
    rintro rfl
    cases hi.symm.trans hj
  rename_i st hi
  split
  · rename_i hon
    refine ⟨hd.restart i (wholeFile d.port.handle.pieceLength) hv, ?_⟩
    have hlt : i < d.streams.length := (List.getElem?_eq_some_iff.mp hi).1
    have hi' : (d.withStream i (fun s st => (s, wholeFile s.handle.pieceLength st))).streams[i]? =
        some (wholeFile d.port.handle.pieceLength st) := by
      rw [withStream, hi]
      exact List.getElem?_set_self hlt
    exact (start_onState hi' hon.1).trans (withStream_onState (fun _ _ => rfl))
  · rename_i hoff
    have hout : ∀ s, (dismiss d.bufferPieces s st).2 =
        { st with bufferingCount := 0, bufferingLevel := 0 } := by
      intro s
      simp only [dismiss]
      split <;> rfl
    refine ⟨?_, ?_⟩
    · rw [withStream, hi]
      refine hd.set hi hv (Keeps.dismiss _ _ ?_)
      -- what is dismissed is another file, or it is not played
      intro _ hw hreq
      rw [hout] at hw hreq
      exact absurd ⟨hw.1, hreq⟩ hoff
    · refine withStream_onState (fun st' hi' => ?_)
      obtain rfl := Option.some.inj (hi.symm.trans hi')
      rw [hout]
      rfl

/-- There are as many streams as before. -/
theorem length_of_onState {d d' : Demux} {desired : ℤ}
    (h : d'.streams.map (onState desired) = d.streams.map (onState desired)) :
    d'.streams.length = d.streams.length := by
  simpa using congrArg List.length h

/-- The loop over all of them. -/
theorem switchStreams_inv (desired : ℤ) (hd : d.Inv n (fun _ _ => False)) :
    (d.switchStreams desired).Inv n (fun _ f => f = desired) ∧
    (d.switchStreams desired).streams.map (onState desired) =
      d.streams.map (onState desired) := by
  have hloop : ∀ k, ((List.range k).foldl (switchStream desired) d).Inv n
        (fun j f => f = desired ∧ j < k) ∧
      ((List.range k).foldl (switchStream desired) d).streams.map (onState desired) =
        d.streams.map (onState desired) := by
    intro k
    induction k with
    | zero => exact ⟨hd.weaken (fun j st _ hw => absurd hw.2 (Nat.not_lt_zero j)), rfl⟩
    | succ k ih =>
      rw [List.range_succ, List.foldl_append]
      obtain ⟨h1, h2⟩ := switchStream_inv ih.1
      exact ⟨h1, h2.trans ih.2⟩
  obtain ⟨h1, h2⟩ := hloop d.streams.length
  refine ⟨h1.weaken (fun j st hj hw => .inl ⟨hw, ?_⟩), h2⟩
  rw [← length_of_onState h2]
  exact (List.getElem?_eq_some_iff.mp hj).1

/-- The other streams up to `k` are off. -/
def OffUpTo (desired : ℤ) (k : ℕ) (d : Demux) : Prop :=
  ∀ (j : ℕ) (x : ℤ × Bool), (d.streams.map (onState desired))[j]? = some x → j < k →
    x.1 ≠ desired → x.2 = false

/-- A stream is requested if its file is asked for. -/
theorem requestStream_inv {desired : ℤ} {i : ℕ} (hd : d.Inv n (fun _ f => f = desired))
    (hoff : OffUpTo desired i d) :
    (requestStream desired d i).Inv n (fun _ f => f = desired) ∧
    OffUpTo desired (i + 1) (requestStream desired d i) ∧
    (requestStream desired d i).streams.length = d.streams.length := by
  unfold requestStream
  split
  · rename_i hi
    refine ⟨hd, fun j x hx hj hne => hoff j x hx ?_ hne, rfl⟩
    have hlt : j < d.streams.length := by
      simpa using (List.getElem?_eq_some_iff.mp hx).1
    have hge := List.getElem?_eq_none_iff.mp hi
    omega
  rename_i st hi
  split
  · rename_i hne
    refine ⟨?_, ?_, ?_⟩
    · rw [withStream, hi]
      refine hd.set hi (fun _ _ _ => id) (Keeps.of_same (fun _ => rfl) rfl ?_)
      exact fun _ hw => absurd hw hne
    · intro j x hx hj hxne
      rw [withStream, hi] at hx
      simp only [List.getElem?_map] at hx
      by_cases hji : j = i
      · subst hji
        rw [List.getElem?_set_self (List.getElem?_eq_some_iff.mp hi).1] at hx
        obtain rfl := Option.some.inj hx
        simpa [onState] using hne
      · rw [List.getElem?_set_ne (Ne.symm hji), ← List.getElem?_map] at hx
        exact hoff j x hx (by omega) hxne
    · rw [withStream, hi]
      exact List.length_set
  · rename_i heq
    have heq' : st.fileIdx = desired := by simpa using heq
    have hnone : (d.withStream i (fun s st => (s, { st with requested := true }))).Inv n
        (fun _ _ => False) :=
      (hd.weaken (fun _ _ _ h => h.elim)).withStream i
        (fun _ => Keeps.of_same (fun _ => rfl) rfl (fun _ h => h.elim))
    have hkeep : (d.withStream i
        (fun s st => (s, { st with requested := true }))).streams.map (onState desired) =
        d.streams.map (onState desired) := by
      refine withStream_onState (fun st' hi' => ?_)
      obtain rfl := Option.some.inj (hi.symm.trans hi')
      simp [onState, heq']
    obtain ⟨h1, h2⟩ := switchStreams_inv desired hnone
    refine ⟨h1, ?_, length_of_onState (h2.trans hkeep)⟩
    intro j x hx hj hxne
    rw [h2, hkeep] at hx
    refine hoff j x hx ?_ hxne
    by_contra hlt
    obtain rfl : j = i := by omega
    rw [List.getElem?_map, hi] at hx
    obtain rfl := Option.some.inj hx
    exact hxne heq'

/-- The element plays one stream at a time, whichever is chosen. -/
theorem Inv.updateRequestedStream (hd : d.Inv n (fun _ _ => True)) (desired : ℤ) :
    (d.updateRequestedStream desired).Inv n (fun _ _ => True) := by
  have hloop : ∀ k, ((List.range k).foldl (requestStream desired) d).Inv n (fun _ f => f = desired) ∧
      OffUpTo desired k ((List.range k).foldl (requestStream desired) d) ∧
      ((List.range k).foldl (requestStream desired) d).streams.length = d.streams.length := by
    intro k
    induction k with
    | zero =>
      exact ⟨hd.weaken (fun _ _ _ _ => .inl trivial), fun j _ _ hj => absurd hj (Nat.not_lt_zero j),
        rfl⟩
    | succ k ih =>
      rw [List.range_succ, List.foldl_append]
      obtain ⟨h1, h2, h3⟩ := requestStream_inv ih.1 ih.2.1
      exact ⟨h1, h2, h3.trans ih.2.2⟩
  obtain ⟨h1, h2, h3⟩ := hloop d.streams.length
  refine h1.weaken (fun j st hj _ => ?_)
  by_cases hst : st.fileIdx = desired
  · exact .inl hst
  · right
    have hx := h2 j (onState desired st) (by rw [List.getElem?_map, hj]; rfl)
      (by rw [← h3]; exact (List.getElem?_eq_some_iff.mp hj).1) hst
    simpa [onState, hst] using hx

/-! ### The other steps -/

/-- Pieces lose their priority. -/
theorem leaveWindow_keeps (n : ℕ) (s : Port) (st : Stream) :
    (∀ q, (leaveWindow n s st).handle.havePiece q = s.handle.havePiece q) ∧
    (leaveWindow n s st).calls = s.calls := by
  simp only [leaveWindow]
  split
  · exact ⟨fun q => Port.lowerPriority_havePiece _ _ _ _ q, Port.lowerPriority_calls _ _ _ _⟩
  · exact ⟨fun _ => rfl, rfl⟩

/-- The stream goes to another place. -/
theorem Inv.seek (hd : d.Inv n (fun _ _ => True)) (i : ℕ) (k : Seek) :
    (d.seek i k).Inv n (fun _ _ => True) := by
  unfold Demux.seek
  split
  · exact hd
  rename_i st hi
  simp only
  generalize hst : seekRange d.port.handle.pieceLength st k = st₁
  obtain ⟨hp, hc⟩ := leaveWindow_keeps d.bufferPieces d.port st₁
  have hact := Keeps.activate (n := d.bufferPieces) hp hc
    (True → st.Good d.bufferPieces d.port.handle.havePiece) st₁
  have hon := st₁.activate_on (leaveWindow d.bufferPieces d.port st₁) d.bufferPieces
  split
  · rename_i hret
    -- the stream is buffering now, so the update finds flags that fit
    generalize st₁.activate (leaveWindow d.bufferPieces d.port st₁) d.bufferPieces = r at *
    have hreq : r.2.2.requested = true ∧ r.2.2.buffering = true := hon hret
    have hupd := Keeps.updateBuffering (n := d.bufferPieces) (s := r.2.1) hreq.1 hreq.2
    rw [funext hact.1] at hupd
    exact Inv.sendBuffering
      (hd.set hi (fun _ _ _ => id) ((hact.trans hupd).imp id (fun h _ => h)))
  · exact hd.set hi (fun _ _ _ => id) (hact.imp id (fun h _ => h))

/-- The stream starts over behind the index of its file. -/
theorem Inv.moovReset (hd : d.Inv n (fun _ _ => True)) (i : ℕ) (q : ℤ) :
    (d.moovReset i q).Inv n (fun _ _ => True) := by
  unfold Demux.moovReset
  split
  · exact hd
  split
  · refine (hd.restart i (wholeFile d.port.handle.pieceLength) (fun _ _ _ => id)).withStream i ?_
    intro st
    refine Keeps.of_same (fun _ => rfl) rfl (fun h _ => ?_)
    refine Stream.Good.of_flagFields ?_ (h trivial)
    rfl
  · exact hd

/-- The next piece is read or waited for. -/
theorem Inv.readNext (hd : d.Inv n (fun _ _ => True)) (i : ℕ) (next : ℤ) (eos : Bool) :
    (d.readNext i next eos).Inv n (fun _ _ => True) := by
  unfold Demux.readNext
  split
  · exact hd
  rename_i st hi
  split
  · rename_i hnext
    split
    · split
      · exact hd
      · exact hd.of_keeps (Keeps.of_same (fun _ => rfl) rfl id)
    · rename_i hmiss
      refine (hd.withStream i (fun st' => ?_)).sendBuffering
      have hk : Keeps d.bufferPieces d.port _ (st'.Good _ _) _ :=
        Keeps.bufferNext (by omega) (by simpa using hmiss)
      exact hk.imp (fun h => h trivial) (fun h _ => h)
  · exact hd

/-- The push of a piece has come back. -/
theorem Inv.pushDone (hd : d.Inv n (fun _ _ => True)) (i : ℕ) (r : Flow) :
    (d.pushDone i r).Inv n (fun _ _ => True) := by
  unfold Demux.pushDone
  split
  · exact hd
  split
  · exact hd
  rename_i q old _
  have h1 : (d.withStream i (pushed q old r)).Inv n (fun _ _ => True) := by
    refine hd.withStream i (fun st => ?_)
    exact (Keeps.pushed q old r d.port st).imp (fun h => h trivial) (fun h _ => h)
  simp only
  split
  · exact h1.moovReset i q
  · exact (h1.moovReset i q).readNext i (q + 1) _

/-- A piece has been read. -/
theorem Inv.feedReadPiece (hd : d.Inv n (fun _ _ => True)) (p : ℤ) :
    Inv n (fun _ _ => True)
      { d with
        port := (walk (Demux.feedReadPiece d.bufferPieces p) d.port d.streams).1
        streams := (walk (Demux.feedReadPiece d.bufferPieces p) d.port d.streams).2 } := by
  have hround : ∀ s st, (Demux.feedReadPiece d.bufferPieces p s st).1 = s ∧
      (Demux.feedReadPiece d.bufferPieces p s st).2.flagFields = st.flagFields := by
    intro s st
    unfold Demux.feedReadPiece
    split
    · exact ⟨rfl, rfl⟩
    split
    · exact ⟨rfl, rfl⟩
    split
    · exact ⟨rfl, rfl⟩
    · exact ⟨rfl, rfl⟩
  obtain ⟨hport, hout⟩ := walk_inv (f := Demux.feedReadPiece d.bufferPieces p)
    (I := fun s => s = d.port) (l := d.streams) (s := d.port) rfl
    (fun s hs st _ => (hround s st).1.trans hs)
  refine hd.of_keeps (Keeps.of_same ?_ ?_ ?_)
  · intro q
    rw [hport]
  · rw [hport]
  · intro hall j st' hj _
    obtain ⟨s, st, -, hj', rfl⟩ := hout j st' hj
    exact (hall j st hj' trivial).of_flagFields (hround s st).2

/-- The round of `btdemux_feed_piece_finished_alert` for a stream: at most an update. -/
theorem feedPieceFinished_keeps (n : ℕ) (p : ℤ) (x : Port × Bool) (st : Stream) :
    Keeps n x.1 (Demux.feedPieceFinished n p x st).1.1 (st.Good n x.1.handle.havePiece) True ∧
    (Demux.feedPieceFinished n p x st).2.flagFields = st.flagFields := by
  have hset : ∀ G : Prop, Keeps n x.1 (x.1.setPiecePriority p dontDownload) G G :=
    fun G => Keeps.of_same (fun q => x.1.handle.setPiecePriority_havePiece p q _) rfl id
  simp only [Demux.feedPieceFinished]
  split
  · exact ⟨Keeps.of_same (fun _ => rfl) rfl (fun _ => trivial), rfl⟩
  rename_i hon
  split
  · rename_i hbuf
    have hreq : st.requested = true := by
      by_contra hno
      exact hon (.inr (.inr (by simpa using hno)))
    have hupd := Keeps.updateBuffering (n := n) (s := x.1.setPiecePriority p dontDownload) hreq hbuf
    rw [funext (hset True).1] at hupd
    exact ⟨((hset _).trans hupd).imp id (fun _ => trivial), rfl⟩
  · exact ⟨(hset _).imp id (fun _ => trivial), rfl⟩

/-- A piece has come. -/
theorem Inv.feedPieceFinished (hd : d.Inv n (fun _ _ => True)) (p : ℤ) :
    Inv n (fun _ _ => True)
      { d with
        port := (walk (Demux.feedPieceFinished d.bufferPieces p) (d.port, false) d.streams).1.1
        streams :=
          (walk (Demux.feedPieceFinished d.bufferPieces p) (d.port, false) d.streams).2 } := by
  obtain ⟨⟨hp, cs, hc, hs⟩, hout⟩ := walk_inv (f := Demux.feedPieceFinished d.bufferPieces p)
    (I := fun x => Keeps d.bufferPieces d.port x.1
      (∀ st ∈ d.streams, st.Good d.bufferPieces d.port.handle.havePiece)
      (∀ st ∈ d.streams, st.Good d.bufferPieces d.port.handle.havePiece))
    (l := d.streams) (s := (d.port, false)) (Keeps.of_same (fun _ => rfl) rfl id)
    (fun x hx st hst => by
      obtain ⟨hp, cs, hc, hs⟩ := (feedPieceFinished_keeps d.bufferPieces p x st).1
      rw [funext hx.1] at hs
      exact hx.trans ⟨hp, cs, hc, fun hclean hall => ⟨hall, (hs hclean (hall st hst)).2⟩⟩)
  refine hd.of_keeps ⟨hp, cs, hc, fun hclean hall => ⟨?_, ?_⟩⟩
  · intro j st' hj _
    obtain ⟨x, st, -, hj', rfl⟩ := hout j st' hj
    exact (hall j st hj' trivial).of_flagFields (feedPieceFinished_keeps d.bufferPieces p x st).2
  · refine (hs hclean (fun st hst => ?_)).2
    obtain ⟨j, hj⟩ := List.mem_iff_getElem?.mp hst
    exact hall j st hj trivial

/-- Any alert. -/
theorem Inv.feed (hd : d.Inv n (fun _ _ => True)) (a : Alert) : (d.feed a).Inv n (fun _ _ => True) := by
  cases a with
  | readPiece p buffer =>
    cases buffer with
    | false => exact hd
    | true => exact hd.feedReadPiece p
  | pieceFinished p =>
    have hnote : Inv n (fun _ _ => True)
        { d with port := d.port.note (.pieceFinished d.port.handle p) } := by
      refine hd.of_keeps (Keeps.of_call (c := .pieceFinished d.port.handle p) (fun _ => rfl) rfl ?_ ?_)
      · exact fun _ _ => Call.noConfusion
      · exact fun _ => id
    simp only [Demux.feed]
    split
    · exact (hnote.feedPieceFinished p).sendBuffering
    · exact hnote.feedPieceFinished p

/-- One event. -/
theorem Inv.step (hd : d.Inv n (fun _ _ => True)) (e : Event) :
    (d.step e).Inv n (fun _ _ => True) := by
  cases e with
  | switch f => exact hd.updateRequestedStream f
  | seek i k => exact hd.seek i k
  | take i =>
    refine hd.withStream i (fun st => ?_)
    exact (Keeps.takePiece d.port st).imp (fun h => h trivial) (fun h _ => h)
  | pushDone i r => exact hd.pushDone i r
  | readDone k =>
    simp only [Demux.step]
    split
    · exact hd
    · exact hd.of_keeps (Keeps.of_same (fun _ => rfl) rfl id)
  | passes p =>
    simp only [Demux.step]
    split
    · exact hd.of_keeps (Keeps.of_same (fun _ => rfl) rfl id)
    · exact hd
  | flushes p =>
    simp only [Demux.step]
    split
    · refine ⟨hd.1, fun hclean => ?_⟩
      obtain ⟨h1, h2⟩ := hd.2 hclean
      refine ⟨fun j st hj _ hreq hbuf => (h1 j st hj trivial hreq hbuf).mono ?_, h2⟩
      intro q hq
      simp only [Handle.havePiece, Handle.inRange, Bool.and_eq_true] at hq ⊢
      refine ⟨hq.1, ?_⟩
      simp only [Function.update_apply]
      split
      · rfl
      · exact hq.2
    · exact hd
  | alert =>
    simp only [Demux.step]
    split
    · exact hd
    · rename_i a rest _
      exact (hd.of_keeps (s := { d.port with alerts := rest })
        (Keeps.of_same (fun _ => rfl) rfl id)).feed a

/-- A run. -/
theorem Inv.run (hd : d.Inv n (fun _ _ => True)) (evs : List Event) :
    (d.run evs).Inv n (fun _ _ => True) := by
  induction evs generalizing d with
  | nil => exact hd
  | cons e evs ih => exact ih (hd.step e)

/-- Nothing is requested at first. -/
theorem feedPlaylist_inv (n : ℕ) (h : Handle) (files : List (ℤ × ℤ × ℤ)) :
    (feedPlaylist n h files).Inv n (fun _ _ => True) := by
  refine ⟨rfl, fun _ => ⟨fun j st hj _ hreq => ?_, fun _ _ hx => by cases hx⟩⟩
  simp only [feedPlaylist, List.getElem?_map, Option.map_eq_some_iff] at hj
  obtain ⟨f, -, rfl⟩ := hj
  cases hreq

/-- **The bookkeeping of the buffering.** In every run in which each activation finds no missing
piece of top priority in its window, the push loop moves on only when the stream is not buffering or
to the end piece, and it starts to buffer only for the end piece (or for nothing at all), every call
of `gst_bt_demux_stream_update_buffering` has something to divide by, reads flags that exist, and
stores a level that is full only when the window is on disk. -/
theorem run_updateBuffering_sound (n : ℕ) (h : Handle) (files : List (ℤ × ℤ × ℤ))
    (evs : List Event)
    (hclean : ∀ c ∈ ((feedPlaylist n h files).run evs).port.calls, c.Clean n) :
    ∀ h' st, .updateBuffering h' st ∈ ((feedPlaylist n h files).run evs).port.calls →
      Sound n h' st := by
  obtain ⟨hn, hinv⟩ := (feedPlaylist_inv n h files).run evs
  rw [hn] at hinv
  exact (hinv hclean).2

/-- A torrent of six pieces, the first `k` of which we have. -/
def sixPieceTorrent (k : ℤ) : Handle :=
  ⟨6, 10, fun p => decide (p < k), fun p => decide (p < k), fun _ => defaultPriority⟩

/-- One file, on all of its pieces. -/
def sixPieces (k : ℤ) : Demux := feedPlaylist 3 (sixPieceTorrent k) [(0, 0, 55)]

/-- What the updates of a run read: the positions, the number of flags, and the level. -/
def updates (d : Demux) : List (List ℕ × ℕ × ℕ) :=
  d.port.calls.filterMap (fun c => match c with
    | .updateBuffering h st =>
      some (st.flagReads h d.bufferPieces, st.curBufferingFlags.length,
        st.newLevel h d.bufferPieces)
    | _ => none)

/-- What an update reads is that of a call. -/
theorem mem_updates {d : Demux} {x : List ℕ × ℕ × ℕ} (hx : x ∈ d.updates) :
    ∃ h st, .updateBuffering h st ∈ d.port.calls ∧ x = (st.flagReads h d.bufferPieces,
      st.curBufferingFlags.length, st.newLevel h d.bufferPieces) := by
  obtain ⟨c, hc, he⟩ := List.mem_filterMap.mp hx
  cases c with
  | updateBuffering h st => exact ⟨h, st, hc, (Option.some.inj he).symm⟩
  | activate | push | rePush | bufferNext | pieceFinished => cases he

/-- Nothing is on disk when the stream is chosen; then a piece comes. -/
def firstPieceComes : List Event := [.switch 0, .passes 0, .flushes 0, .alert]

/-- The flags are sound when a piece comes. -/
theorem firstPieceComes_sound :
    (∀ c ∈ ((sixPieces 0).run firstPieceComes).port.calls, c.Clean 3) ∧
    ∃ h st, .updateBuffering h st ∈ ((sixPieces 0).run firstPieceComes).port.calls ∧
      Sound 3 h st := by
  have hclean : ∀ c ∈ ((sixPieces 0).run firstPieceComes).port.calls, c.Clean 3 := by
    decide +kernel
  have hup : ([0], 3, 33) ∈ ((sixPieces 0).run firstPieceComes).updates := by
    decide +kernel
  obtain ⟨h, st, hmem, -⟩ := mem_updates hup
  exact ⟨hclean, h, st, hmem,
    run_updateBuffering_sound 3 _ [(0, 0, 55)] firstPieceComes hclean h st hmem⟩

/-- The three pieces that we have are played, one after the other. -/
def playOne : List Event := [.readDone 0, .alert, .take 0, .pushDone 0 .ok]

/-- The push loop makes two flags for a window of three pieces, and the third piece comes. -/
def thirdPieceComes : List Event :=
  [.switch 0] ++ playOne ++ playOne ++ playOne ++ [.passes 5, .flushes 5, .alert]

/-- A piece that is finished again is counted twice. -/
theorem run_updateBuffering_not_sound :
    ¬ ∀ (n : ℕ) (h : Handle) (files : List (ℤ × ℤ × ℤ)) (evs : List Event) (h' : Handle)
      (st : Stream), .updateBuffering h' st ∈ ((feedPlaylist n h files).run evs).port.calls →
        Sound n h' st := by
  intro hall
  have hup : ([2], 2, 0) ∈ ((sixPieces 3).run thirdPieceComes).updates := by
    decide +kernel
  obtain ⟨h, st, hmem, he⟩ := mem_updates hup
  obtain ⟨hreads, hlen, -⟩ : [2] = st.flagReads h 3 ∧ 2 = st.curBufferingFlags.length ∧
      0 = st.newLevel h 3 := by
    have hn : ((sixPieces 3).run thirdPieceComes).bufferPieces = 3 := rfl
    simpa only [hn, Prod.mk.injEq] using he
  have hlt := (hall 3 _ [(0, 0, 55)] thirdPieceComes h st hmem).reads_lt 2
    (hreads ▸ List.mem_singleton_self 2)
  omega

end Demux

end Gst

end LibtorrentSN
