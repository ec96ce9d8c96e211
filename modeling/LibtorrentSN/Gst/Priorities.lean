import LibtorrentSN.Gst.Streaming

/-!
# The pieces with top priority

When another stream is played, or the same one from another position, the pieces of the new window get top priority,
and the places that leave an old window lower it again. Raising and lowering are loops of their own, so a window is
left behind where they do not fit together: a stream that is dismissed after the new one was activated lowers the
pieces they share, a stream that is switched to again does not leave its own old window, and a seek cuts the old
window off at the end of the new range.
-/

namespace LibtorrentSN

namespace Gst

/-- A piece of the torrent that we do not have. -/
def Handle.Missing (h : Handle) (p : ℤ) : Prop := h.inRange p = true ∧ h.havePiece p = false

instance (h : Handle) (p : ℤ) : Decidable (h.Missing p) := inferInstanceAs (Decidable (_ ∧ _))

def Handle.Top (h : Handle) (p : ℤ) : Prop := h.piecePriority p = topPriority

instance (h : Handle) (p : ℤ) : Decidable (h.Top p) := inferInstanceAs (Decidable (_ = _))

/-- The same pieces, with other priorities. -/
structure Handle.Same (h h' : Handle) : Prop where
  inRange : ∀ p, h'.inRange p = h.inRange p
  havePiece : ∀ p, h'.havePiece p = h.havePiece p
  pieceLength : h'.pieceLength = h.pieceLength

namespace Handle

variable {h h' h'' : Handle} {p : ℤ}

theorem Same.refl (h : Handle) : h.Same h := ⟨fun _ => rfl, fun _ => rfl, rfl⟩

theorem Same.trans (h₁ : h.Same h') (h₂ : h'.Same h'') : h.Same h'' :=
  ⟨fun p => (h₂.inRange p).trans (h₁.inRange p), fun p => (h₂.havePiece p).trans (h₁.havePiece p),
    h₂.pieceLength.trans h₁.pieceLength⟩

theorem Same.missing_iff (hs : h.Same h') : h'.Missing p ↔ h.Missing p := by
  rw [Missing, Missing, hs.inRange, hs.havePiece]

theorem same_setPiecePriority (h : Handle) (p : ℤ) (prio : ℕ) : h.Same (h.setPiecePriority p prio) where
  inRange q := h.setPiecePriority_inRange p q prio
  havePiece q := h.setPiecePriority_havePiece p q prio
  pieceLength := by
    rw [setPiecePriority]
    split <;> rfl

theorem top_setPiecePriority (h : Handle) (p q : ℤ) (prio : ℕ) :
    (h.setPiecePriority q prio).Top p ↔ if p = q ∧ h.inRange q then prio = topPriority else h.Top p := by
  rw [Top, setPiecePriority_piecePriority]
  split_ifs <;> rfl

end Handle

/-! ### The two loops -/

theorem scan_same (h : Handle) (ps : List ℤ) : h.Same (scan h ps).1 := by
  induction ps generalizing h with
  | nil => exact .refl h
  | cons p ps ih =>
    simp only [scan_cons]
    split
    · exact ih h
    split
    · exact ih h
    · exact (h.same_setPiecePriority p topPriority).trans (ih _)

/-- The missing pieces of the list get top priority. -/
theorem top_scan (h : Handle) (ps : List ℤ) {p : ℤ} (hp : h.Missing p) :
    (scan h ps).1.Top p ↔ p ∈ ps ∨ h.Top p := by
  induction ps generalizing h with
  | nil => exact ⟨.inr, fun h => h.resolve_left List.not_mem_nil⟩
  | cons q ps ih =>
    have hne : h.havePiece q = true → p ≠ q := by
      rintro hq rfl
      rw [hp.2] at hq
      cases hq
    simp only [scan_cons, List.mem_cons]
    split
    · rename_i hq
      rw [ih h hp, or_assoc, or_iff_right (hne hq)]
    split
    · rename_i htop
      rw [ih h hp]
      refine ⟨fun h => h.elim (.inl ∘ .inr) .inr, ?_⟩
      rintro ((rfl | h) | h)
      · exact .inr htop
      · exact .inl h
      · exact .inr h
    · rw [ih _ ((h.same_setPiecePriority q topPriority).missing_iff.mpr hp), Handle.top_setPiecePriority]
      split_ifs with hpq
      · exact iff_of_true (.inr rfl) (.inl (.inl hpq.1))
      · have hpq' : p ≠ q := by
          rintro rfl
          exact hpq ⟨rfl, hp.1⟩
        rw [or_assoc, or_iff_right hpq']

variable {lower : ℕ → Bool} {prio : ℕ}

theorem lowerPriority_same (lower : ℕ → Bool) (prio : ℕ) (ps : List ℤ) (s : Port) :
    s.handle.Same (s.lowerPriority lower prio ps).handle := by
  induction ps generalizing s with
  | nil => exact .refl _
  | cons p ps ih =>
    simp only [Port.lowerPriority]
    split
    · exact ih s
    split
    · exact (s.handle.same_setPiecePriority p prio).trans (ih (s.setPiecePriority p prio))
    · exact ih s

/-- The pieces of the list lose top priority. -/
theorem top_lowerPriority (hlow : lower topPriority = true) (hprio : prio ≠ topPriority) (ps : List ℤ) (s : Port)
    {p : ℤ} (hp : s.handle.Missing p) :
    (Port.lowerPriority lower prio ps s).handle.Top p ↔ s.handle.Top p ∧ p ∉ ps := by
  induction ps generalizing s with
  | nil => exact ⟨fun h => ⟨h, List.not_mem_nil⟩, And.left⟩
  | cons q ps ih =>
    have hcons : p ∉ q :: ps ↔ p ≠ q ∧ p ∉ ps := by rw [List.mem_cons, not_or]
    simp only [Port.lowerPriority]
    split
    · rename_i hq
      have hne : p ≠ q := by
        rintro rfl
        rw [hp.2] at hq
        cases hq
      rw [ih s hp, hcons, and_iff_right hne]
    split
    · have hsame := s.handle.same_setPiecePriority q prio
      rw [ih _ (hsame.missing_iff.mpr hp), hcons]
      have htop := s.handle.top_setPiecePriority p q prio
      rw [show (s.setPiecePriority q prio).handle = s.handle.setPiecePriority q prio from rfl, htop]
      split_ifs with hpq
      · exact iff_of_false (fun h => hprio h.1) fun h => h.2.1 hpq.1
      · have hne : p ≠ q := by
          rintro rfl
          exact hpq ⟨rfl, hp.1⟩
        rw [and_iff_right hne]
    · rename_i hq
      rw [ih s hp, hcons]
      refine and_congr_right fun htop => ⟨fun h => ⟨?_, h⟩, And.right⟩
      rintro rfl
      rw [htop] at hq
      exact hq hlow

/-! ### One stream -/

namespace Stream

/-- Where a stream is. -/
def place (st : Stream) : ℤ × Bool × ℤ × ℤ × ℤ × ℤ × ℤ :=
  (st.fileIdx, st.requested, st.startPiece, st.currentPiece, st.endPiece, st.startByteGlobal, st.endByteGlobal)

/-- The pieces that lose their priority when the stream is dismissed. -/
def dismissed (n : ℕ) (st : Stream) : List ℤ :=
  if min (st.currentPiece + 1) st.endPiece < st.startPiece then [] else st.nextWindow n

/-- The new window: from the first piece of the range on. -/
def InWindow (n : ℕ) (st : Stream) (p : ℤ) : Prop :=
  st.startPiece ≤ p ∧ p ≤ min (st.startPiece + n - 1) st.endPiece

instance (n : ℕ) (st : Stream) (p : ℤ) : Decidable (st.InWindow n p) := inferInstanceAs (Decidable (_ ∧ _))

variable {n : ℕ} {st st' : Stream} {p : ℤ}

theorem dismissed_of_place (h : st'.place = st.place) : st'.dismissed n = st.dismissed n := by
  simp only [place, Prod.mk.injEq] at h
  obtain ⟨-, -, hs, hc, he, -, -⟩ := h
  rw [dismissed, dismissed, nextWindow, nextWindow, hs, hc, he]

/-- What is activated is the window, for a range that is not empty. -/
theorem mem_window_iff (hn : 1 ≤ n) (hle : st.startPiece ≤ st.endPiece) :
    p ∈ window st.startPiece n st.endPiece ↔ st.InWindow n p := by
  rw [window, InWindow]
  split
  · rw [List.mem_singleton]
    omega
  · exact mem_pieceRange

end Stream

variable {n : ℕ} {st st' : Stream} {p : ℤ} {d d' : Demux} {i k : ℕ}

theorem dismiss_same (n : ℕ) (s : Port) (st : Stream) : s.handle.Same (Demux.dismiss n s st).1.handle := by
  simp only [Demux.dismiss]
  split
  · exact .refl _
  · exact lowerPriority_same _ _ _ s

theorem top_dismiss (n : ℕ) (s : Port) (st : Stream) (hp : s.handle.Missing p) :
    (Demux.dismiss n s st).1.handle.Top p ↔ s.handle.Top p ∧ p ∉ st.dismissed n := by
  simp only [Demux.dismiss, Stream.dismissed]
  split
  · exact ⟨fun h => ⟨h, List.not_mem_nil⟩, And.left⟩
  · exact top_lowerPriority (by decide) (by decide) _ s hp

theorem dismiss_place (n : ℕ) (s : Port) (st : Stream) : (Demux.dismiss n s st).2.place = st.place := by
  simp only [Demux.dismiss]
  split <;> rfl

theorem activate_same (st : Stream) (s : Port) (n : ℕ) : s.handle.Same (st.activate s n).2.1.handle :=
  scan_same s.handle _

theorem top_activate (st : Stream) (s : Port) (n : ℕ) (hp : s.handle.Missing p) :
    (st.activate s n).2.1.handle.Top p ↔ p ∈ window st.startPiece n st.endPiece ∨ s.handle.Top p :=
  top_scan s.handle _ hp

theorem leaveWindow_same (n : ℕ) (s : Port) (st : Stream) : s.handle.Same (Demux.leaveWindow n s st).handle := by
  simp only [Demux.leaveWindow]
  split
  · exact lowerPriority_same _ _ _ s
  · exact .refl _

/-- The pieces of the old window, as far as the new range goes. -/
theorem top_leaveWindow (n : ℕ) (s : Port) (st : Stream) (hp : s.handle.Missing p) :
    (Demux.leaveWindow n s st).handle.Top p ↔
      s.handle.Top p ∧ ¬ (st.startPiece ≠ min (st.currentPiece + 1) st.endPiece ∧ p ∈ st.nextWindow n) := by
  simp only [Demux.leaveWindow]
  split
  · rename_i hne
    rw [top_lowerPriority (by decide) (by decide) _ s hp]
    exact and_congr_right fun _ => not_congr (and_iff_right hne).symm
  · rename_i heq
    exact ⟨fun h => ⟨h, fun hc => heq hc.1⟩, And.left⟩

/-! ### Loops over the streams -/

theorem sendBuffering_handle (d : Demux) : d.sendBuffering.port.handle = d.port.handle := by
  refine (walk_inv (f := Demux.sendBufferingStream) (I := fun x => x.1.handle = d.port.handle)
    (l := d.streams) (s := (d.port, false)) rfl fun x hx st _ => ?_).1
  exact (Demux.sendBufferingStream_keeps 0 (fun _ => true) x st).1.trans hx

theorem sendBufferingStream_place (x : Port × Bool) (st : Stream) :
    (Demux.sendBufferingStream x st).2.place = st.place := by
  unfold Demux.sendBufferingStream
  split
  · rfl
  split
  · rfl
  split <;> rfl

theorem sendBuffering_place (d : Demux) :
    d.sendBuffering.streams.map Stream.place = d.streams.map Stream.place :=
  Demux.walk_map sendBufferingStream_place _ _

namespace Demux

/-- The loop has dismissed the streams `ks`. -/
structure Dismissed (d : Demux) (ks : List ℕ) (d' : Demux) : Prop where
  bufferPieces : d'.bufferPieces = d.bufferPieces
  same : d.port.handle.Same d'.port.handle
  places : d'.streams.map Stream.place = d.streams.map Stream.place
  top : ∀ p, d.port.handle.Missing p → (d'.port.handle.Top p ↔
    d.port.handle.Top p ∧ ∀ k ∈ ks, ∀ st ∈ d.streams[k]?, p ∉ st.dismissed d.bufferPieces)

/-- A stream of another file. -/
def Other (d : Demux) (desired : ℤ) (k : ℕ) : Prop := ∀ st ∈ d.streams[k]?, st.fileIdx ≠ desired

theorem place_of_places (h : d'.streams.map Stream.place = d.streams.map Stream.place) (k : ℕ) :
    (d'.streams[k]?).map Stream.place = (d.streams[k]?).map Stream.place := by
  rw [← List.getElem?_map, h, List.getElem?_map]

theorem mem_of_places (h : (d'.streams[k]?).map Stream.place = (d.streams[k]?).map Stream.place) {st' : Stream}
    (hst : st' ∈ d'.streams[k]?) : ∃ st ∈ d.streams[k]?, st'.place = st.place := by
  rw [Option.mem_def.mp hst, Option.map_some] at h
  obtain ⟨st, hst, heq⟩ := Option.map_eq_some_iff.mp h.symm
  exact ⟨st, hst, heq.symm⟩

theorem forall_dismissed_iff (h : (d'.streams[k]?).map Stream.place = (d.streams[k]?).map Stream.place) (n : ℕ)
    (p : ℤ) : (∀ st ∈ d'.streams[k]?, p ∉ st.dismissed n) ↔ ∀ st ∈ d.streams[k]?, p ∉ st.dismissed n := by
  constructor
  · intro hall st hst
    obtain ⟨st', hst', heq⟩ := mem_of_places h.symm hst
    rw [Stream.dismissed_of_place heq]
    exact hall st' hst'
  · intro hall st hst
    obtain ⟨st', hst', heq⟩ := mem_of_places h hst
    rw [Stream.dismissed_of_place heq]
    exact hall st' hst'

theorem Other.of_places {desired : ℤ} (ho : d.Other desired k)
    (h : (d'.streams[k]?).map Stream.place = (d.streams[k]?).map Stream.place) : d'.Other desired k := by
  intro st' hst'
  obtain ⟨st, hst, heq⟩ := mem_of_places h hst'
  simp only [Stream.place, Prod.mk.injEq] at heq
  rw [heq.1]
  exact ho st hst

theorem switchStream_dismissed {desired : ℤ} (ho : d.Other desired k) : d.Dismissed [k] (switchStream desired d k) := by
  rw [switchStream]
  split
  · rename_i hk
    refine ⟨rfl, .refl _, rfl, fun p _ => ⟨fun h => ⟨h, fun j hj st hst => ?_⟩, And.left⟩⟩
    rw [List.mem_singleton.mp hj, hk] at hst
    cases hst
  · rename_i st hk
    rw [if_neg fun hc => ho st hk hc.1, withStream, hk]
    refine ⟨rfl, dismiss_same _ d.port st, map_set_of_eq hk (dismiss_place _ d.port st), fun p hp => ?_⟩
    refine (top_dismiss _ d.port st hp).trans (and_congr_right fun _ => ⟨fun h j hj st' hst' => ?_, fun h => ?_⟩)
    · rw [List.mem_singleton.mp hj, hk] at hst'
      obtain rfl := Option.some.inj hst'
      exact h
    · exact h k (List.mem_singleton_self k) st hk

theorem Dismissed.trans {ks ks' : List ℕ} {d'' : Demux} (h : d.Dismissed ks d') (h' : d'.Dismissed ks' d'') :
    d.Dismissed (ks ++ ks') d'' where
  bufferPieces := h'.bufferPieces.trans h.bufferPieces
  same := h.same.trans h'.same
  places := h'.places.trans h.places
  top p hp := by
    rw [h'.top p (h.same.missing_iff.mpr hp), h.top p hp, and_assoc, h.bufferPieces]
    refine and_congr_right fun _ => ?_
    rw [List.forall_mem_append]
    exact and_congr_right fun _ => forall₂_congr fun k _ => forall_dismissed_iff (place_of_places h.places k) _ p

theorem foldl_dismissed {desired : ℤ} {ks : List ℕ} (ho : ∀ k ∈ ks, d.Other desired k) :
    d.Dismissed ks (ks.foldl (switchStream desired) d) := by
  induction ks generalizing d with
  | nil => exact ⟨rfl, .refl _, rfl, fun p _ => ⟨fun h => ⟨h, fun k hk => absurd hk List.not_mem_nil⟩, And.left⟩⟩
  | cons k ks ih =>
    have hfirst := switchStream_dismissed (ho k List.mem_cons_self)
    refine hfirst.trans (ih fun j hj => (ho j (List.mem_cons_of_mem _ hj)).of_places ?_)
    exact place_of_places hfirst.places j

/-- The stream `i` has been activated with the range of `st`. -/
structure Activated (d : Demux) (i : ℕ) (st : Stream) (d' : Demux) : Prop where
  bufferPieces : d'.bufferPieces = d.bufferPieces
  same : d.port.handle.Same d'.port.handle
  self : (d'.streams[i]?).map Stream.place =
    some { st with requested := true, currentPiece := st.startPiece - 1 }.place
  others : ∀ k, k ≠ i → (d'.streams[k]?).map Stream.place = (d.streams[k]?).map Stream.place
  top : ∀ p, d.port.handle.Missing p → (d'.port.handle.Top p ↔
    p ∈ window st.startPiece d.bufferPieces st.endPiece ∨ d.port.handle.Top p)

theorem set_activate_places (hi : d.streams[i]? = some st) (s : Port) (n : ℕ) (st₁ : Stream) :
    ((d.streams.set i (st₁.activate s n).2.2)[i]?).map Stream.place =
        some { st₁ with requested := true, currentPiece := st₁.startPiece - 1 }.place ∧
      ∀ k, k ≠ i → ((d.streams.set i (st₁.activate s n).2.2)[k]?).map Stream.place =
        (d.streams[k]?).map Stream.place := by
  refine ⟨?_, fun k hk => ?_⟩
  · rw [List.getElem?_set_self (List.getElem?_eq_some_iff.mp hi).1]
    rfl
  · rw [List.getElem?_set_ne (Ne.symm hk)]

/-- `send_buffering` does not matter here. -/
theorem Activated.sendBuffering (h : d.Activated i st d') : d.Activated i st d'.sendBuffering where
  bufferPieces := h.bufferPieces
  same := by
    rw [sendBuffering_handle]
    exact h.same
  self := (place_of_places (sendBuffering_place d') i).trans h.self
  others k hk := (place_of_places (sendBuffering_place d') k).trans (h.others k hk)
  top p hp := by
    rw [sendBuffering_handle]
    exact h.top p hp

theorem switchStream_activated (hi : d.streams[i]? = some st) (hreq : st.requested = true) :
    d.Activated i (wholeFile d.port.handle.pieceLength st) (switchStream st.fileIdx d i) := by
  have hlt : i < d.streams.length := (List.getElem?_eq_some_iff.mp hi).1
  obtain ⟨hself, hothers⟩ := set_activate_places hi d.port d.bufferPieces (wholeFile d.port.handle.pieceLength st)
  have hact : d.Activated i (wholeFile d.port.handle.pieceLength st)
      { d with
        port := ((wholeFile d.port.handle.pieceLength st).activate d.port d.bufferPieces).2.1
        streams := d.streams.set i ((wholeFile d.port.handle.pieceLength st).activate d.port d.bufferPieces).2.2 } :=
    ⟨rfl, activate_same _ d.port _, hself, hothers, fun p hp => top_activate _ d.port _ hp⟩
  rw [switchStream, hi]
  dsimp only
  rw [if_pos ⟨rfl, hreq⟩, withStream, hi]
  simp only [start, List.getElem?_set_self hlt, List.set_set]
  split
  · exact hact.sendBuffering
  · exact ⟨hact.bufferPieces, hact.same, hact.self, hact.others, hact.top⟩

/-- The priorities when a seek has left the old window. -/
def left (d : Demux) (st : Stream) : Demux := { d with port := leaveWindow d.bufferPieces d.port st }

theorem seek_activated (hi : d.streams[i]? = some st) (k : Seek) :
    let st₁ := seekRange d.port.handle.pieceLength st k
    (d.left st₁).Activated i st₁ (d.seek i k) := by
  intro st₁
  obtain ⟨hself, hothers⟩ := set_activate_places hi (d.left st₁).port d.bufferPieces st₁
  have hact : (d.left st₁).Activated i st₁
      { d with
        port := (st₁.activate (d.left st₁).port d.bufferPieces).2.1
        streams := d.streams.set i (st₁.activate (d.left st₁).port d.bufferPieces).2.2 } :=
    ⟨rfl, activate_same _ _ _, hself, hothers, fun p hp => top_activate _ _ _ hp⟩
  have hlt : i < d.streams.length := (List.getElem?_eq_some_iff.mp hi).1
  have hself' := hact.self
  have hothers' := hact.others
  rw [seek, hi]
  dsimp only
  change (d.left st₁).Activated i st₁ (if (st₁.activate (d.left st₁).port d.bufferPieces).1 = true then _ else _)
  split
  · refine Activated.sendBuffering ⟨hact.bufferPieces, hact.same, ?_, fun k hk => ?_, hact.top⟩
    · dsimp only
      rw [List.getElem?_set_self hlt]
      rfl
    · dsimp only
      rw [List.getElem?_set_ne (Ne.symm hk)]
      rfl
  · exact ⟨hact.bufferPieces, hact.same, hact.self, hact.others, hact.top⟩

/-! ### Requests -/

/-- The two ways to another window of the stream. -/
inductive Request where
  | switch
  | seek (k : Seek)
deriving Repr, DecidableEq

def Request.serve (d : Demux) (i : ℕ) (st : Stream) : Request → Demux
  | switch => d.switchStreams st.fileIdx
  | seek k => d.seek i k

/-- Of the missing pieces those in the window of the stream have top priority, and no others. -/
def Follows (d : Demux) (i : ℕ) : Prop :=
  ∃ st ∈ d.streams[i]?, ∀ p, d.port.handle.Missing p → (d.port.handle.Top p ↔ st.InWindow d.bufferPieces p)

/-- When the request can be made. A stream is requested, and the only one of its file, when it is switched to; with a
seek the pieces with top priority are in the window the stream had before. -/
def Request.Possible (d : Demux) (i : ℕ) (st : Stream) : Request → Prop
  | switch => st.requested = true ∧ (∀ k, k ≠ i → d.Other st.fileIdx k) ∧ 0 < d.port.handle.pieceLength ∧
      st.startByteGlobal ≤ st.endByteGlobal
  | seek _ => ∀ p, d.port.handle.Missing p → d.port.handle.Top p →
      st.currentPiece + 1 ≤ p ∧ p ≤ min (st.currentPiece + d.bufferPieces) st.endPiece

/-- The pieces are left alone by the other loops where they have to be, and they are found where they do not.

When a stream is switched to, no stream behind it in the list is dismissed with a missing piece of the new window, and
the pieces with top priority outside of it are in windows that are dismissed. After a seek, none of the pieces with
top priority is behind the new range, which is not empty (or whose end piece we have). -/
def Request.Fits (d : Demux) (i : ℕ) (st : Stream) : Request → Prop
  | switch =>
    let st₁ := wholeFile d.port.handle.pieceLength st
    (∀ k, i < k → ∀ other ∈ d.streams[k]?, ∀ p ∈ other.dismissed d.bufferPieces,
      d.port.handle.Missing p → ¬ st₁.InWindow d.bufferPieces p) ∧
    ∀ p, d.port.handle.Missing p → d.port.handle.Top p → ¬ st₁.InWindow d.bufferPieces p →
      ∃ k, k ≠ i ∧ ∃ other ∈ d.streams[k]?, p ∈ other.dismissed d.bufferPieces
  | seek k =>
    let st₁ := seekRange d.port.handle.pieceLength st k
    (st₁.startPiece ≤ st₁.endPiece ∨ ¬ d.port.handle.Missing st₁.endPiece) ∧
    ∀ p, d.port.handle.Missing p → d.port.handle.Top p → p ≤ st₁.endPiece

/-- The list of the streams, split at one of them. -/
theorem range_split {n : ℕ} (hi : i < n) :
    ∃ pre post, List.range n = pre ++ i :: post ∧ (∀ k, k ∈ pre ↔ k < i) ∧ ∀ k, k ∈ post ↔ i < k ∧ k < n := by
  obtain ⟨pre, post, hsplit⟩ := List.append_of_mem (List.mem_range.mpr hi)
  have hlt := List.pairwise_lt_range (n := n)
  rw [hsplit, List.pairwise_append, List.pairwise_cons] at hlt
  have hmem : ∀ k, k < n ↔ k ∈ pre ∨ k = i ∨ k ∈ post := fun k => by
    rw [← List.mem_range, hsplit, List.mem_append, List.mem_cons]
  have hpre : ∀ k ∈ pre, k < i := fun k hk => hlt.2.2 k hk i List.mem_cons_self
  have hpost : ∀ k ∈ post, i < k := hlt.2.1.1
  refine ⟨pre, post, hsplit, fun k => ⟨hpre k, fun hk => ?_⟩, fun k => ⟨fun hk => ?_, fun hk => ?_⟩⟩
  · rcases (hmem k).mp (hk.trans hi) with h | rfl | h
    · exact h
    · exact absurd hk (Nat.lt_irrefl _)
    · exact absurd (hpost k h) (Nat.lt_asymm hk)
  · exact ⟨hpost k hk, (hmem k).mpr (.inr (.inr hk))⟩
  · rcases (hmem k).mp hk.2 with h | rfl | h
    · exact absurd (hpre k h) (Nat.lt_asymm hk.1)
    · exact absurd hk.1 (Nat.lt_irrefl _)
    · exact h

/-- The pieces with top priority when a stream was switched to: those of its window and those that were left from
before, unless a later stream takes them. -/
theorem switchStreams_top (hi : d.streams[i]? = some st) (hreq : st.requested = true)
    (hother : ∀ k, k ≠ i → d.Other st.fileIdx k) :
    let st₁ := wholeFile d.port.handle.pieceLength st
    let d' := d.switchStreams st.fileIdx
    d'.bufferPieces = d.bufferPieces ∧ d.port.handle.Same d'.port.handle ∧
      (∃ st' ∈ d'.streams[i]?, st'.startPiece = st₁.startPiece ∧ st'.endPiece = st₁.endPiece) ∧
      ∀ p, d.port.handle.Missing p → (d'.port.handle.Top p ↔
        (p ∈ window st₁.startPiece d.bufferPieces st₁.endPiece ∨ d.port.handle.Top p ∧
          ∀ k < i, ∀ other ∈ d.streams[k]?, p ∉ other.dismissed d.bufferPieces) ∧
        ∀ k, i < k → ∀ other ∈ d.streams[k]?, p ∉ other.dismissed d.bufferPieces) := by
  intro st₁ d'
  obtain ⟨pre, post, hsplit, hpre, hpost⟩ := range_split (List.getElem?_eq_some_iff.mp hi).1
  have hdef : d' = post.foldl (switchStream st.fileIdx)
      (switchStream st.fileIdx (pre.foldl (switchStream st.fileIdx) d) i) := by
    change (List.range d.streams.length).foldl (switchStream st.fileIdx) d = _
    rw [hsplit, List.foldl_append, List.foldl_cons]
  set d₁ := pre.foldl (switchStream st.fileIdx) d with hd₁
  have h₁ : d.Dismissed pre d₁ := foldl_dismissed fun k hk => hother k ((hpre k).mp hk).ne
  -- the stream itself has not changed
  obtain ⟨st₀, hi₀, hplace⟩ := mem_of_places (place_of_places h₁.places.symm i) hi
  simp only [Stream.place, Prod.mk.injEq] at hplace
  obtain ⟨hfile, hreq₀, -, -, -, hs₀, he₀⟩ := hplace
  have h₂ : d₁.Activated i (wholeFile d₁.port.handle.pieceLength st₀) (switchStream st.fileIdx d₁ i) := by
    rw [hfile]
    exact switchStream_activated hi₀ (hreq₀ ▸ hreq)
  set d₂ := switchStream st.fileIdx d₁ i
  have hplaces : ∀ k, k ≠ i → (d₂.streams[k]?).map Stream.place = (d.streams[k]?).map Stream.place := fun k hk =>
    (h₂.others k hk).trans (place_of_places h₁.places k)
  have h₃ : d₂.Dismissed post d' := by
    rw [hdef]
    exact foldl_dismissed fun k hk => (hother k ((hpost k).mp hk).1.ne').of_places (hplaces k ((hpost k).mp hk).1.ne')
  have hstart : (wholeFile d₁.port.handle.pieceLength st₀).startPiece = st₁.startPiece := by
    change st₀.startByteGlobal.tdiv d₁.port.handle.pieceLength = _
    rw [← hs₀, h₁.same.pieceLength]
    rfl
  have hend : (wholeFile d₁.port.handle.pieceLength st₀).endPiece = st₁.endPiece := by
    change st₀.endByteGlobal.tdiv d₁.port.handle.pieceLength = _
    rw [← he₀, h₁.same.pieceLength]
    rfl
  have hbp : d₂.bufferPieces = d.bufferPieces := h₂.bufferPieces.trans h₁.bufferPieces
  refine ⟨h₃.bufferPieces.trans hbp, h₁.same.trans (h₂.same.trans h₃.same), ?_, fun p hp => ?_⟩
  · obtain ⟨st', hst', hplace⟩ := Option.map_eq_some_iff.mp ((place_of_places h₃.places i).trans h₂.self)
    simp only [Stream.place, Prod.mk.injEq] at hplace
    exact ⟨st', hst', hplace.2.2.1.trans hstart, hplace.2.2.2.2.1.trans hend⟩
  · have hp₁ := h₁.same.missing_iff.mpr hp
    rw [h₃.top p (h₂.same.missing_iff.mpr hp₁), h₂.top p hp₁, h₁.top p hp, hstart, hend, h₁.bufferPieces, hbp]
    refine and_congr (or_congr_right (and_congr_right fun _ => ?_)) ?_
    · exact forall_congr' fun k => imp_congr_left (hpre k)
    · constructor
      · intro hall k hk other hmem
        have hlt := (List.getElem?_eq_some_iff.mp (Option.mem_def.mp hmem)).1
        exact (forall_dismissed_iff (hplaces k hk.ne') _ p).mp (hall k ((hpost k).mpr ⟨hk, hlt⟩)) other hmem
      · intro hall k hk
        obtain ⟨hik, -⟩ := (hpost k).mp hk
        exact (forall_dismissed_iff (hplaces k hik.ne') _ p).mpr (hall k hik)

theorem follows_iff_top {st₁ st' : Stream} (hbp : d'.bufferPieces = d.bufferPieces)
    (hsame : d.port.handle.Same d'.port.handle) (hst' : d'.streams[i]? = some st')
    (hstart : st'.startPiece = st₁.startPiece) (hend : st'.endPiece = st₁.endPiece) :
    d'.Follows i ↔ ∀ p, d.port.handle.Missing p → (d'.port.handle.Top p ↔ st₁.InWindow d.bufferPieces p) := by
  have hwin : ∀ p, st'.InWindow d.bufferPieces p ↔ st₁.InWindow d.bufferPieces p := fun p => by
    rw [Stream.InWindow, Stream.InWindow, hstart, hend]
  constructor
  · rintro ⟨st'', hst'', hall⟩ p hp
    obtain rfl := Option.some.inj (hst''.symm.trans hst')
    rw [← hwin, ← hbp]
    exact hall p (hsame.missing_iff.mpr hp)
  · refine fun hall => ⟨st', hst', fun p hp => ?_⟩
    rw [hbp, hwin]
    exact hall p (hsame.missing_iff.mp hp)

theorem le_end_of_mem_nextWindow (hp : p ∈ st.nextWindow n) : p ≤ st.endPiece := by
  rw [Stream.nextWindow, window] at hp
  split at hp
  · exact (List.mem_singleton.mp hp).le
  · have := (mem_pieceRange.mp hp).2
    omega

theorem follows_switch (hn : 1 ≤ d.bufferPieces) (hi : d.streams[i]? = some st)
    (h : Request.switch.Possible d i st) : (d.switchStreams st.fileIdx).Follows i ↔ Request.switch.Fits d i st := by
  obtain ⟨hreq, hother, hpl, hbytes⟩ := h
  obtain ⟨hbp, hsame, ⟨st', hst', hstart, hend⟩, htop⟩ := switchStreams_top hi hreq hother
  set st₁ := wholeFile d.port.handle.pieceLength st
  have hle : st₁.startPiece ≤ st₁.endPiece := Int.tdiv_le_tdiv hpl hbytes
  rw [follows_iff_top hbp hsame hst' hstart hend]
  constructor
  · intro hall
    refine ⟨fun k hk other hother p hp hmiss hin => ?_, fun p hmiss hbefore hout => ?_⟩
    · exact ((htop p hmiss).mp ((hall p hmiss).mpr hin)).2 k hk other hother hp
    · -- some stream has taken it
      by_contra hno
      push Not at hno
      refine hout ((hall p hmiss).mp ((htop p hmiss).mpr ⟨.inr ⟨hbefore, fun k hk => ?_⟩, fun k hk => ?_⟩))
      · exact hno k hk.ne
      · exact hno k hk.ne'
  · rintro ⟨hlater, hrest⟩ p hmiss
    rw [htop p hmiss, Stream.mem_window_iff hn hle]
    constructor
    · rintro ⟨hin | ⟨hbefore, hbelow⟩, habove⟩
      · exact hin
      · by_contra hout
        obtain ⟨k, hk, other, hmem, hdis⟩ := hrest p hmiss hbefore hout
        rcases Nat.lt_or_gt_of_ne hk with hlt | hgt
        · exact hbelow k hlt other hmem hdis
        · exact habove k hgt other hmem hdis
    · exact fun hin => ⟨.inl hin, fun k hk other hmem hdis => hlater k hk other hmem p hdis hmiss hin⟩

theorem follows_seek (hn : 1 ≤ d.bufferPieces) (hi : d.streams[i]? = some st) (k : Seek)
    (h : (Request.seek k).Possible d i st) : (d.seek i k).Follows i ↔ (Request.seek k).Fits d i st := by
  have hact := seek_activated hi k
  set st₁ := seekRange d.port.handle.pieceLength st k
  have hcur : st₁.currentPiece = st.currentPiece := rfl
  have hleft : d.port.handle.Same (d.left st₁).port.handle := leaveWindow_same _ _ _
  have hbp : (d.seek i k).bufferPieces = d.bufferPieces := hact.bufferPieces
  obtain ⟨st', hst', hplace⟩ := Option.map_eq_some_iff.mp hact.self
  simp only [Stream.place, Prod.mk.injEq] at hplace
  have htop : ∀ p, d.port.handle.Missing p → ((d.seek i k).port.handle.Top p ↔
      p ∈ window st₁.startPiece d.bufferPieces st₁.endPiece ∨ d.port.handle.Top p ∧
        ¬ (st₁.startPiece ≠ min (st.currentPiece + 1) st₁.endPiece ∧ p ∈ st₁.nextWindow d.bufferPieces)) :=
    fun p hp => (hact.top p (hleft.missing_iff.mpr hp)).trans (or_congr_right (top_leaveWindow _ d.port st₁ hp))
  have hfits : (Request.seek k).Fits d i st ↔
      (st₁.startPiece ≤ st₁.endPiece ∨ ¬ d.port.handle.Missing st₁.endPiece) ∧
        ∀ p, d.port.handle.Missing p → d.port.handle.Top p → p ≤ st₁.endPiece := Iff.rfl
  rw [follows_iff_top hbp (hleft.trans hact.same) hst' hplace.2.2.1 hplace.2.2.2.2.1, hfits]
  constructor
  · intro hall
    refine ⟨?_, fun p hmiss hbefore => ?_⟩
    · -- an empty range still activates its end piece
      by_contra hno
      push Not at hno
      have hmem : st₁.endPiece ∈ window st₁.startPiece d.bufferPieces st₁.endPiece := by
        rw [window, if_pos hno.1.le]
        exact List.mem_singleton_self _
      have hin := (hall _ hno.2).mp ((htop _ hno.2).mpr (.inl hmem))
      exact absurd hin.1 (by omega)
    · by_contra hgt
      have hout : p ∉ st₁.nextWindow d.bufferPieces := fun hp => by
        have := le_end_of_mem_nextWindow hp
        omega
      have hin := (hall p hmiss).mp ((htop p hmiss).mpr (.inr ⟨hbefore, fun hc => hout hc.2⟩))
      have := hin.2
      omega
  · rintro ⟨hend, hbehind⟩ p hmiss
    rw [htop p hmiss]
    constructor
    · rintro (hp | ⟨hbefore, hkept⟩)
      · by_cases hle : st₁.startPiece ≤ st₁.endPiece
        · exact (Stream.mem_window_iff hn hle).mp hp
        · rw [window, if_pos (by omega), List.mem_singleton] at hp
          exact absurd (hp ▸ hmiss) (hend.resolve_left hle)
      · obtain ⟨hlow, hhigh⟩ := h p hmiss hbefore
        have hle := hbehind p hmiss hbefore
        have hp : p ∈ st₁.nextWindow d.bufferPieces := mem_window (by omega) (by omega)
        have hstart : st₁.startPiece = min (st.currentPiece + 1) st₁.endPiece := by
          by_contra hne
          exact hkept ⟨hne, hp⟩
        exact ⟨by omega, by omega⟩
    · exact fun hin => .inl (mem_window hin.1 hin.2)

/-- The priorities follow the window exactly when the loops that lower them fit together with the one that raises
them. -/
theorem follows_iff (hn : 1 ≤ d.bufferPieces) (hi : d.streams[i]? = some st) (r : Request)
    (h : r.Possible d i st) : (r.serve d i st).Follows i ↔ r.Fits d i st := by
  cases r with
  | switch => exact follows_switch hn hi h
  | seek k => exact follows_seek hn hi k h

/-- A file of 60 bytes in pieces of 16, played from its start: the first two of its four pieces are wanted. -/
def firstOfFour : Stream where
  fileIdx := 0
  startByteGlobal := 0
  endByteGlobal := 60
  lastPiece := 3
  startPiece := 0
  endPiece := 3
  currentPiece := -1
  requested := true

def fourPieces : Demux where
  bufferPieces := 2
  port := ⟨⟨4, 16, fun _ => false, fun _ => false, fun p => if p < 2 then topPriority else lowPriority⟩, [], [], []⟩
  streams := [firstOfFour]

theorem fourPieces_possible (k : Seek) : (Request.seek k).Possible fourPieces 0 firstOfFour := by
  rintro p ⟨hin, -⟩ htop
  have h0 : 0 ≤ p := of_decide_eq_true (Bool.and_eq_true_iff.mp hin).1
  rw [Handle.Top, Handle.piecePriority, if_pos hin] at htop
  change (if p < 2 then topPriority else lowPriority) = topPriority at htop
  have h2 : p < 2 := by
    by_contra hge
    rw [if_neg hge] at htop
    exact absurd htop (by decide)
  change -1 + 1 ≤ p ∧ p ≤ min (-1 + 2) 3
  omega

/-- A seek to the last two pieces. -/
theorem follows_iff_seek : ((Request.seek ⟨32, -1, true⟩).serve fourPieces 0 firstOfFour).Follows 0 := by
  refine (follows_iff (by decide) rfl (.seek ⟨32, -1, true⟩) (fourPieces_possible _)).mpr ⟨.inl (by decide), ?_⟩
  intro p hmiss htop
  have hle := (fourPieces_possible ⟨32, -1, true⟩ p hmiss htop).2
  exact hle.trans (by decide)

/-- A seek to the first ten bytes, which are in the first piece. The second one keeps its top priority. -/
theorem seek_not_follows : ¬ ∀ (d : Demux) (i : ℕ) (st : Stream) (k : Seek), 1 ≤ d.bufferPieces →
    d.streams[i]? = some st → 0 ≤ k.start → k.start < k.stop → k.stop ≤ st.endByteGlobal - st.startByteGlobal →
      (Request.seek k).Possible d i st → ((Request.seek k).serve d i st).Follows i := by
  intro h
  obtain ⟨st, hst, hall⟩ := h fourPieces 0 firstOfFour ⟨0, 10, true⟩ (by decide) rfl (by decide) (by decide)
    (by decide) (fourPieces_possible _)
  have htop := hall 1 (by decide)
  have hin := htop.mp (by decide)
  obtain rfl := Option.some.inj hst
  exact absurd hin.2 (by decide)

end Demux

end Gst

end LibtorrentSN
