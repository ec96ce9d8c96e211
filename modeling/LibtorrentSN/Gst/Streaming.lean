import LibtorrentSN.Gst.Buffering

/-!
# Playing a stream

A stream is played piece by piece, and each of the places that ask for the next piece relies on one
of the others: a read that is pending ends up in `ipc`, the push loop takes it from there and asks
for the next piece, and where that is missing an alert has to come. We follow one stream through a
run and show that one of them is always there, in the runs that stay clear of the places where the
wake-up gets lost.
-/

namespace LibtorrentSN

namespace Gst

/-! ### Runs of one stream -/

/-- The steps of a run of one stream. The push loop pushes the piece that it takes, and the buffer is
accepted. -/
inductive Play where
  | switch (fileIdx : ℤ)
  | seek (k : Seek)
  | push
  | readDone (k : ℕ)
  | passes (p : ℤ)
  | flushes (p : ℤ)
  | alert
deriving Repr, DecidableEq

def Play.events : Play → List Demux.Event
  | .switch f => [.switch f]
  | .seek k => [.seek 0 k]
  | .push => [.take 0, .pushDone 0 .ok]
  | .readDone k => [.readDone k]
  | .passes p => [.passes p]
  | .flushes p => [.flushes p]
  | .alert => [.alert]

def Demux.play (d : Demux) (ps : List Play) : Demux := d.run (ps.flatMap Play.events)

/-- Something is on its way to the stream: the read of the next piece is pending (not completed, or
its alert not handled), the piece is queued, an alert of a finished piece waits, or the stream is
buffering and a piece of the window has not passed its hash check yet. -/
def Alive (n : ℕ) (s : Port) (st : Stream) : Prop :=
  (st.currentPiece + 1 ∈ s.reads ∨ ∃ b, .readPiece (st.currentPiece + 1) b ∈ s.alerts) ∨
  st.currentPiece + 1 ∈ st.ipc ∨ (∃ p, .pieceFinished p ∈ s.alerts) ∨
  (st.buffering = true ∧ ∃ p ∈ st.nextWindow n, s.handle.hasPiecePassed p = false)

/-- The calls that lose no wake-up: an activation that counts each of the missing pieces, a push that
does not send the end of the stream too early, a refill of the flags that concerns the end piece
only, and the alert of a piece that is on disk. -/
def Call.Live (n : ℕ) : Call → Prop
  | .activate h st => ∀ p ∈ window st.startPiece n st.endPiece,
      h.havePiece p = false → h.piecePriority p ≠ topPriority
  | .push q st => q = st.lastPiece → st.moovAfterMdat = false → q = st.endPiece
  | .rePush _ => True
  | .bufferNext h next st =>
      h.piecePriority next ≠ topPriority ∧ next = st.endPiece ∧ next = st.currentPiece + 1
  | .updateBuffering _ _ => True
  | .pieceFinished h p => h.havePiece p = true

instance (n : ℕ) (c : Call) : Decidable (c.Live n) :=
  match c with
  | .activate h st => inferInstanceAs (Decidable (∀ p ∈ window st.startPiece n st.endPiece,
      h.havePiece p = false → h.piecePriority p ≠ topPriority))
  | .push q st => inferInstanceAs
      (Decidable (q = st.lastPiece → st.moovAfterMdat = false → q = st.endPiece))
  | .rePush _ => inferInstanceAs (Decidable True)
  | .bufferNext h next st => inferInstanceAs (Decidable
      (h.piecePriority next ≠ topPriority ∧ next = st.endPiece ∧ next = st.currentPiece + 1))
  | .updateBuffering _ _ => inferInstanceAs (Decidable True)
  | .pieceFinished h p => inferInstanceAs (Decidable (h.havePiece p = true))

/-! ### Ports that only get more reads -/

/-- The torrent and the alerts are the same, and no read is lost. -/
structure Port.Extends (s s' : Port) : Prop where
  inRange_eq : ∀ q, s'.handle.inRange q = s.handle.inRange q
  have_eq : ∀ q, s'.handle.havePiece q = s.handle.havePiece q
  passed_eq : ∀ q, s'.handle.hasPiecePassed q = s.handle.hasPiecePassed q
  alerts_eq : s'.alerts = s.alerts
  reads_sub : ∀ q ∈ s.reads, q ∈ s'.reads

namespace Port.Extends

variable {s s₁ s₂ : Port}

theorem refl (s : Port) : s.Extends s := ⟨fun _ => rfl, fun _ => rfl, fun _ => rfl, rfl, fun _ => id⟩

theorem trans (h₁ : s.Extends s₁) (h₂ : s₁.Extends s₂) : s.Extends s₂ where
  inRange_eq q := (h₂.inRange_eq q).trans (h₁.inRange_eq q)
  have_eq q := (h₂.have_eq q).trans (h₁.have_eq q)
  passed_eq q := (h₂.passed_eq q).trans (h₁.passed_eq q)
  alerts_eq := h₂.alerts_eq.trans h₁.alerts_eq
  reads_sub q hq := h₂.reads_sub q (h₁.reads_sub q hq)

theorem readPiece (s : Port) (p : ℤ) : s.Extends (s.readPiece p) :=
  ⟨fun _ => rfl, fun _ => rfl, fun _ => rfl, rfl, fun _ hq => List.mem_append_left _ hq⟩

theorem note (s : Port) (c : Call) : s.Extends (s.note c) :=
  ⟨fun _ => rfl, fun _ => rfl, fun _ => rfl, rfl, fun _ => id⟩

theorem setPiecePriority (s : Port) (p : ℤ) (prio : ℕ) :
    s.Extends (s.setPiecePriority p prio) where
  inRange_eq q := s.handle.setPiecePriority_inRange p q prio
  have_eq q := s.handle.setPiecePriority_havePiece p q prio
  passed_eq q := s.handle.setPiecePriority_hasPiecePassed p q prio
  alerts_eq := rfl
  reads_sub _ := id

theorem lowerPriority (lower : ℕ → Bool) (prio : ℕ) (ps : List ℤ) (s : Port) :
    s.Extends (Port.lowerPriority lower prio ps s) := by
  induction ps generalizing s with
  | nil => exact refl s
  | cons p ps ih =>
    simp only [Port.lowerPriority]
    split
    · exact ih s
    split
    · exact (setPiecePriority s p prio).trans (ih _)
    · exact ih s

end Port.Extends

theorem scan_inRange (h : Handle) (ps : List ℤ) (q : ℤ) :
    (scan h ps).1.inRange q = h.inRange q := by
  induction ps generalizing h with
  | nil => rfl
  | cons p ps ih =>
    simp only [scan_cons]
    split
    · exact ih h
    split
    · exact ih h
    · exact (ih _).trans (h.setPiecePriority_inRange p q topPriority)

theorem scan_hasPiecePassed (h : Handle) (ps : List ℤ) (q : ℤ) :
    (scan h ps).1.hasPiecePassed q = h.hasPiecePassed q := by
  induction ps generalizing h with
  | nil => rfl
  | cons p ps ih =>
    simp only [scan_cons]
    split
    · exact ih h
    split
    · exact ih h
    · exact (ih _).trans (h.setPiecePriority_hasPiecePassed p q topPriority)

theorem Port.Extends.activate (s : Port) (st : Stream) (n : ℕ) :
    s.Extends (st.activate s n).2.1 :=
  ⟨scan_inRange _ _, scan_havePiece _ _, scan_hasPiecePassed _ _, rfl, fun _ => id⟩

theorem Port.Extends.bufferNext (n : ℕ) (next : ℤ) (s : Port) (st : Stream) :
    s.Extends (Demux.bufferNext n next s st).1 :=
  ⟨scan_inRange _ _, scan_havePiece _ _, scan_hasPiecePassed _ _, rfl, fun _ => id⟩

/-! ### What is relied on -/

/-- The read of `p` is going to bring data. -/
def Pending (s : Port) (p : ℤ) : Prop :=
  (p ∈ s.reads ∧ s.handle.hasPiecePassed p = true) ∨ .readPiece p true ∈ s.alerts

/-- There is going to be an alert for `p`. -/
def Expected (s : Port) (p : ℤ) : Prop :=
  s.handle.hasPiecePassed p = false ∨ .pieceFinished p ∈ s.alerts

/-- What is on disk has passed its check, and what has passed is on disk or its alert waits. -/
structure Settled (s : Port) : Prop where
  passed : ∀ p, s.handle.havePiece p = true → s.handle.hasPiecePassed p = true
  announced : ∀ p, s.handle.havePiece p = false → Expected s p

/-- The flags of a stream fit, and they are no fewer than the count, unless the window goes past the
last piece of the torrent. -/
structure Covers (n : ℕ) (s : Port) (st : Stream) : Prop where
  fits : Fits n s.handle.havePiece st
  exact : (∀ p ∈ st.nextWindow n, s.handle.inRange p = true) → st.bufferingCount ≤
    (st.nextWindow n).zipIdx.countP (fun x => st.curBufferingFlags.getD x.2 false)

/-- The stream waits for its window: for some piece an alert is going to come. -/
structure Waits (n : ℕ) (s : Port) (st : Stream) : Prop where
  covers : Covers n s st
  expected : ∃ p ∈ st.nextWindow n, Expected s p

/-- One of the three ways by which the stream goes on. -/
def Goes (n : ℕ) (s : Port) (st : Stream) : Prop :=
  Pending s (st.currentPiece + 1) ∨ (st.currentPiece + 1 ∈ st.ipc ∧ st.task = true) ∨
  (st.buffering = true ∧ Waits n s st)

/-- When the last piece of the file has been pushed, with no `moov` header outstanding, the end of
the stream has been sent. -/
def Ended (st : Stream) : Prop :=
  st.pendingSegment = false → st.moovAfterMdat = false → st.currentPiece = st.lastPiece →
    st.eosSent = true

/-- Where a requested stream can be: not before its range, and ended when at its end. -/
def Placed (st : Stream) : Prop := st.startPiece ≤ st.currentPiece + 1 ∧ Ended st

/-- A requested stream between two steps. -/
structure Awake (n : ℕ) (s : Port) (st : Stream) : Prop where
  placed : Placed st
  low : st.buffering = true → st.bufferingLevel < 100
  goes : st.currentPiece < st.endPiece → Goes n s st

variable {n : ℕ} {s s' : Port} {st st' : Stream}

theorem Pending.extends {p : ℤ} (h : Pending s p) (he : s.Extends s') : Pending s' p := by
  rcases h with ⟨h1, h2⟩ | h
  · exact .inl ⟨he.reads_sub p h1, (he.passed_eq p).trans h2⟩
  · exact .inr (he.alerts_eq ▸ h)

theorem Expected.extends {p : ℤ} (h : Expected s p) (he : s.Extends s') : Expected s' p := by
  rcases h with h | h
  · exact .inl ((he.passed_eq p).trans h)
  · exact .inr (he.alerts_eq ▸ h)

theorem Settled.extends (h : Settled s) (he : s.Extends s') : Settled s' where
  passed p hp := (he.passed_eq p).trans (h.passed p ((he.have_eq p).symm.trans hp))
  announced p hp := (h.announced p ((he.have_eq p).symm.trans hp)).extends he

/-- More pieces on disk do no harm. -/
theorem Covers.mono (h : Covers n s st) (hr : ∀ q, s'.handle.inRange q = s.handle.inRange q)
    (hh : ∀ q, s.handle.havePiece q = true → s'.handle.havePiece q = true) : Covers n s' st :=
  ⟨h.fits.mono hh, fun hall => h.exact (fun p hp => (hr p).symm.trans (hall p hp))⟩

theorem Waits.extends (h : Waits n s st) (he : s.Extends s') : Waits n s' st := by
  obtain ⟨hc, p, hp, hexp⟩ := h
  exact ⟨hc.mono he.inRange_eq (fun q hq => (he.have_eq q).trans hq), p, hp, hexp.extends he⟩

theorem Goes.extends (h : Goes n s st) (he : s.Extends s') : Goes n s' st := by
  rcases h with h | h | ⟨hb, h⟩
  · exact .inl (h.extends he)
  · exact .inr (.inl h)
  · exact .inr (.inr ⟨hb, h.extends he⟩)

/-- Only some of the fields matter. -/
theorem Covers.of_flagFields (h : Covers n s st) (he : st'.flagFields = st.flagFields) :
    Covers n s st' := by
  simp only [Stream.flagFields, Prod.mk.injEq] at he
  obtain ⟨-, -, hc, hf, hcur, hend⟩ := he
  have hwin : st'.nextWindow n = st.nextWindow n := by
    rw [Stream.nextWindow, Stream.nextWindow, hcur, hend]
  obtain ⟨⟨h1, h2, h3, h4⟩, h5⟩ := h
  refine ⟨⟨hc ▸ h1, ?_, ?_, ?_⟩, ?_⟩
  · rwa [hwin, hf]
  · rwa [hwin, hf, hcur, hend, hc]
  · rwa [hwin, hf, hcur, hend]
  · rwa [hwin, hf, hc]

theorem Goes.of_fields (h : Goes n s st) (he : st'.flagFields = st.flagFields)
    (hipc : st.currentPiece + 1 ∈ st.ipc ∧ st.task = true →
      st.currentPiece + 1 ∈ st'.ipc ∧ st'.task = true) : Goes n s st' := by
  have he' := he
  simp only [Stream.flagFields, Prod.mk.injEq] at he'
  obtain ⟨-, hb, -, -, hcur, hend⟩ := he'
  unfold Goes
  rw [hcur, hb]
  rcases h with h | h | ⟨hbuf, hw⟩
  · exact .inl h
  · exact .inr (.inl (hipc h))
  · refine .inr (.inr ⟨hbuf, hw.covers.of_flagFields he, ?_⟩)
    rw [Stream.nextWindow, hcur, hend]
    exact hw.expected

/-- What goes on is alive. -/
theorem Goes.alive (h : Goes n s st) : Alive n s st := by
  rcases h with (⟨h, -⟩ | h) | ⟨h, -⟩ | ⟨hb, h⟩
  · exact .inl (.inl h)
  · exact .inl (.inr ⟨true, h⟩)
  · exact .inr (.inl h)
  · obtain ⟨p, hp, hpass | halert⟩ := h.expected
    · exact .inr (.inr (.inr ⟨hb, p, hp, hpass⟩))
    · exact .inr (.inr (.inl ⟨p, halert⟩))

theorem Awake.of_port (h : Awake n s st) (hp : ∀ p, Pending s p → Pending s' p)
    (he : ∀ p, Expected s p → Expected s' p) (hc : Covers n s st → Covers n s' st) :
    Awake n s' st := by
  refine ⟨h.placed, h.low, fun hlt => ?_⟩
  rcases h.goes hlt with h | h | ⟨hb, hw⟩
  · exact .inl (hp _ h)
  · exact .inr (.inl h)
  · obtain ⟨p, hmem, hexp⟩ := hw.expected
    exact .inr (.inr ⟨hb, hc hw.covers, p, hmem, he p hexp⟩)

/-! ### The level -/

/-- A level that is not full says that a piece is not on disk. -/
theorem Covers.missing (h : Covers n s st) (hlow : st.newLevel s.handle n < 100) :
    ∃ p ∈ st.nextWindow n, s.handle.havePiece p = false := by
  by_contra hno
  have hall : ∀ p ∈ st.nextWindow n, s.handle.havePiece p = true := by
    intro p hp
    by_contra hc
    exact hno ⟨p, hp, by simpa using hc⟩
  have hcount := h.exact (fun p hp => (Bool.and_eq_true_iff.mp (hall p hp)).1)
  have heq : st.bufferedPieces s.handle n = (st.nextWindow n).zipIdx.countP
      (fun x => st.curBufferingFlags.getD x.2 false) := by
    rw [st.bufferedPieces_eq]
    refine List.countP_congr (fun x hx => ?_)
    rw [hall x.1 (List.fst_mem_of_mem_zipIdx hx), Bool.and_true]
  have hpos := h.fits.count_pos
  rw [Stream.newLevel, heq, Nat.min_eq_right hcount, Nat.mul_div_cancel_left _ hpos] at hlow
  omega

/-- A full level says that the next piece is on disk. -/
theorem Covers.full (h : Covers n s st) (hn : 1 ≤ n) (hlt : st.currentPiece < st.endPiece)
    (hfull : 100 ≤ st.newLevel s.handle n) :
    s.handle.havePiece (st.currentPiece + 1) = true := by
  have hsound := h.fits.sound
  exact hsound.full (le_antisymm hsound.level_le hfull) _ le_rfl (by omega)

/-! ### Starting a stream -/

theorem Stream.activate_placed (st : Stream) (s : Port) (n : ℕ) :
    Placed (st.activate s n).2.2 :=
  ⟨by simp [Stream.activate], fun h => by cases h⟩

/-- After an activation that has counted something, the stream waits. -/
theorem activate_waits (hs : Settled s) (hlive : (Call.activate s.handle st).Live n)
    (hret : (st.activate s n).1 = true) :
    Waits n (st.activate s n).2.1 (st.activate s n).2.2 := by
  refine Waits.extends ?_ (Port.Extends.activate s st n)
  have hfits := Fits.activate hlive hret
  have hwin := st.activate_nextWindow s n
  have hcount : (st.activate s n).2.2.bufferingCount =
      (window st.startPiece n st.endPiece).countP (fun p => !s.handle.havePiece p) :=
    scan_count (nodup_window _ _ _) hlive
  have hpos := hfits.count_pos
  rw [hcount, List.countP_pos_iff] at hpos
  obtain ⟨p, hp, hmiss⟩ := hpos
  have hmiss' : s.handle.havePiece p = false := by simpa using hmiss
  exact ⟨⟨hfits, fun _ => (Stream.activate_count hlive).ge⟩, p, hwin ▸ hp, hs.announced p hmiss'⟩

/-- After one that has counted nothing, the first piece is on disk. -/
theorem activate_have (hn : 1 ≤ n) (hlive : (Call.activate s.handle st).Live n)
    (hret : (st.activate s n).1 = false) (hle : st.startPiece ≤ st.endPiece) :
    s.handle.havePiece st.startPiece = true := by
  have hcount : (scan s.handle (window st.startPiece n st.endPiece)).2.2 =
      (window st.startPiece n st.endPiece).countP (fun p => !s.handle.havePiece p) :=
    scan_count (nodup_window _ _ _) hlive
  have hzero : (scan s.handle (window st.startPiece n st.endPiece)).2.2 = 0 := by
    simpa [Stream.activate] using hret
  rw [hcount, List.countP_eq_zero] at hzero
  simpa using hzero st.startPiece (mem_window le_rfl (by omega))

namespace Demux

theorem sendBuffering_low (hlow : st.buffering = true → st.bufferingLevel < 100) :
    (⟨n, s, [st]⟩ : Demux).sendBuffering = ⟨n, s, [st]⟩ := by
  have hround : sendBufferingStream (s, false) st = ((s, false), st) := by
    unfold sendBufferingStream
    split
    · rfl
    rename_i hon
    have hb : st.buffering = true := by
      cases h : st.buffering with
      | true => rfl
      | false => exact absurd (by simp [h]) hon
    rw [if_neg (by have := hlow hb; omega)]
    rfl
  change (⟨n, (sendBufferingStream (s, false) st).1.1, [(sendBufferingStream (s, false) st).2]⟩ :
    Demux) = _
  rw [hround]

theorem sendBuffering_full (s : Port) (st : Stream) (hreq : st.requested = true) (hbuf : st.buffering = true)
    (hfull : 100 ≤ st.bufferingLevel) :
    (⟨n, s, [st]⟩ : Demux).sendBuffering =
      ⟨n, s.readPiece (st.currentPiece + 1),
        [{ st with buffering := false, bufferingLevel := 0 }]⟩ := by
  have hround : sendBufferingStream (s, false) st =
      ((s.readPiece (st.currentPiece + 1), true),
        { st with buffering := false, bufferingLevel := 0 }) := by
    unfold sendBufferingStream
    rw [hreq, hbuf, if_neg (by decide), if_pos hfull]
  change (⟨n, (sendBufferingStream (s, false) st).1.1, [(sendBufferingStream (s, false) st).2]⟩ :
    Demux) = _
  rw [hround]

/-- A port and a stream that come after others. The calls on the way are `cs`, and if they are live
the stream is awake. -/
structure Leads (n : ℕ) (s s' : Port) (st' : Stream) (cs : List Call) : Prop where
  calls : s'.calls = s.calls ++ cs
  extends_port : s.Extends s'
  idle : st'.pushing = none
  awake : (∀ c ∈ cs, c.Live n) → Settled s → st'.requested = true → Awake n s' st'

/-- A stream is started. -/
theorem start_leads (hn : 1 ≤ n) (s : Port) (st : Stream) (hidle : st.pushing = none) :
    ∃ s' st', (⟨n, s, [st]⟩ : Demux).start 0 = ⟨n, s', [st']⟩ ∧ st'.pendingSegment = true ∧
      Leads n s s' st' [.activate s.handle st] := by
  have hstart : (⟨n, s, [st]⟩ : Demux).start 0 =
      if (st.activate s n).1 then
        (⟨n, (st.activate s n).2.1, [(st.activate s n).2.2]⟩ : Demux).sendBuffering
      else ⟨n, (st.activate s n).2.1.readPiece st.startPiece, [(st.activate s n).2.2]⟩ := rfl
  rw [hstart]
  split
  · rename_i hret
    rw [sendBuffering_low (fun _ => by simp [Stream.activate])]
    refine ⟨_, _, rfl, rfl, rfl, Port.Extends.activate s st n, hidle, fun hlive hs _ => ?_⟩
    refine ⟨st.activate_placed s n, fun _ => by simp [Stream.activate], fun _ => ?_⟩
    exact .inr (.inr ⟨hret, activate_waits hs (hlive _ (List.mem_singleton_self _)) hret⟩)
  · rename_i hret
    have hret' : (st.activate s n).1 = false := by simpa using hret
    have hext := (Port.Extends.activate s st n).trans
      (Port.Extends.readPiece (st.activate s n).2.1 st.startPiece)
    refine ⟨_, _, rfl, rfl, rfl, hext, hidle, fun hlive hs _ => ?_⟩
    refine ⟨st.activate_placed s n, fun _ => by simp [Stream.activate], fun hlt => ?_⟩
    have hlt' : st.startPiece - 1 < st.endPiece := hlt
    have hhave := activate_have hn (hlive _ (List.mem_singleton_self _)) hret' (by omega)
    have hcur : (st.activate s n).2.2.currentPiece + 1 = st.startPiece := sub_add_cancel _ _
    refine .inl (.inl ?_)
    rw [hcur]
    refine ⟨List.mem_append_right _ (List.mem_singleton_self _), ?_⟩
    exact (hext.passed_eq _).trans (hs.passed _ hhave)

/-- After an update, a stream that is covered either reads its next piece or waits on. -/
theorem updateBuffering_leads (hn : 1 ≤ n) (s : Port) (st : Stream) (hreq : st.requested = true)
    (hbuf : st.buffering = true) :
    ∃ s' st', (⟨n, (st.updateBuffering s n).1, [(st.updateBuffering s n).2]⟩ :
        Demux).sendBuffering = ⟨n, s', [st']⟩ ∧
      s'.calls = s.calls ++ [.updateBuffering s.handle st] ∧ s.Extends s' ∧
      st'.pushing = st.pushing ∧
      (Placed st → Settled s →
        (st.currentPiece < st.endPiece → Pending s (st.currentPiece + 1) ∨
          (st.currentPiece + 1 ∈ st.ipc ∧ st.task = true) ∨ Covers n s st) →
        Awake n s' st') := by
  have hnote := Port.Extends.note s (.updateBuffering s.handle st)
  by_cases hfull : 100 ≤ st.newLevel s.handle n
  · rw [sendBuffering_full (st.updateBuffering s n).1 (st.updateBuffering s n).2 hreq hbuf hfull]
    have hext := hnote.trans (Port.Extends.readPiece _ (st.currentPiece + 1))
    refine ⟨_, _, rfl, rfl, hext, rfl, fun hstart hs hgo => ?_⟩
    refine ⟨hstart, (fun h => by cases h), fun hlt => ?_⟩
    rcases hgo hlt with hpend | hipc | hcov
    · exact .inl (hpend.extends hext)
    · exact .inr (.inl hipc)
    · refine .inl (.inl ⟨List.mem_append_right _ (List.mem_singleton_self _), ?_⟩)
      exact (hext.passed_eq _).trans (hs.passed _ (hcov.full hn hlt hfull))
  · rw [sendBuffering_low (fun _ => by simpa [Stream.updateBuffering] using hfull)]
    refine ⟨_, _, rfl, rfl, hnote, rfl, fun hstart hs hgo => ?_⟩
    refine ⟨hstart, fun _ => by simpa [Stream.updateBuffering] using hfull, fun hlt => ?_⟩
    rcases hgo hlt with hpend | hipc | hcov
    · exact .inl (hpend.extends hnote)
    · exact .inr (.inl hipc)
    · obtain ⟨p, hp, hmiss⟩ := hcov.missing (Nat.lt_of_not_le hfull)
      refine .inr (.inr ⟨hbuf, ⟨⟨?_, hcov.exact⟩, p, hp, (hs.announced p hmiss).extends hnote⟩⟩)
      obtain ⟨h1, h2, h3, h4⟩ := hcov.fits
      exact ⟨h1, h2, h3, h4⟩

/-- A stream is moved to another range, and started there. -/
theorem seek_leads (hn : 1 ≤ n) (s : Port) (st : Stream) (k : Seek) (hidle : st.pushing = none) :
    ∃ s' st' cs, (⟨n, s, [st]⟩ : Demux).seek 0 k = ⟨n, s', [st']⟩ ∧ Leads n s s' st' cs := by
  generalize hst : seekRange s.handle.pieceLength st k = st₁
  have hidle₁ : st₁.pushing = none := by
    rw [← hst]
    exact hidle
  generalize hs₁ : leaveWindow n s st₁ = s₁
  have hleave : s.Extends s₁ ∧ s₁.calls = s.calls := by
    rw [← hs₁]
    simp only [leaveWindow]
    split
    · exact ⟨Port.Extends.lowerPriority _ _ _ _, Port.lowerPriority_calls _ _ _ _⟩
    · exact ⟨Port.Extends.refl s, rfl⟩
  obtain ⟨hext₁, hcalls₁⟩ := hleave
  have hact := hext₁.trans (Port.Extends.activate s₁ st₁ n)
  by_cases hret : (st₁.activate s₁ n).1 = true
  · have hseek : (⟨n, s, [st]⟩ : Demux).seek 0 k =
        (⟨n, ((st₁.activate s₁ n).2.2.updateBuffering (st₁.activate s₁ n).2.1 n).1,
          [((st₁.activate s₁ n).2.2.updateBuffering (st₁.activate s₁ n).2.1 n).2]⟩ :
            Demux).sendBuffering := by
      subst hst hs₁
      exact if_pos hret
    obtain ⟨s', st', he, hcalls, hext, hidle', hawake⟩ := updateBuffering_leads hn
      (st₁.activate s₁ n).2.1 (st₁.activate s₁ n).2.2 rfl hret
    refine ⟨s', st', [.activate s₁.handle st₁, .updateBuffering (st₁.activate s₁ n).2.1.handle
      (st₁.activate s₁ n).2.2], hseek.trans he, ?_, hact.trans hext, hidle'.trans hidle₁, ?_⟩
    · have hc : (st₁.activate s₁ n).2.1.calls = s₁.calls ++ [.activate s₁.handle st₁] := rfl
      rw [hcalls, hc, hcalls₁, List.append_assoc]
      rfl
    · intro hlive hs _
      have hwaits := activate_waits (hs.extends hext₁) (hlive _ (by simp)) hret
      refine hawake (st₁.activate_placed s₁ n) (hs.extends hact) (fun _ => ?_)
      exact .inr (.inr hwaits.covers)
  · have hret' : (st₁.activate s₁ n).1 = false := by simpa using hret
    have hseek : (⟨n, s, [st]⟩ : Demux).seek 0 k =
        ⟨n, (st₁.activate s₁ n).2.1.readPiece st₁.startPiece, [(st₁.activate s₁ n).2.2]⟩ := by
      subst hst hs₁
      exact if_neg hret
    have hstart : (⟨n, s₁, [st₁]⟩ : Demux).start 0 =
        ⟨n, (st₁.activate s₁ n).2.1.readPiece st₁.startPiece, [(st₁.activate s₁ n).2.2]⟩ :=
      if_neg hret
    obtain ⟨s', st', he, -, hleads⟩ := start_leads hn s₁ st₁ hidle₁
    refine ⟨s', st', [.activate s₁.handle st₁], (hseek.trans hstart.symm).trans he, ?_,
      hext₁.trans hleads.extends_port, hleads.idle, ?_⟩
    · rw [hleads.calls, hcalls₁]
    · exact fun hlive hs => hleads.awake hlive (hs.extends hext₁)

/-- Another file, or this one. -/
theorem switch_leads (hn : 1 ≤ n) (s : Port) (st : Stream) (f : ℤ) (hidle : st.pushing = none) :
    ∃ s' st' cs, (⟨n, s, [st]⟩ : Demux).updateRequestedStream f = ⟨n, s', [st']⟩ ∧
      Leads n s s' st' cs := by
  by_cases hf : st.fileIdx = f
  · have hswitch : (⟨n, s, [st]⟩ : Demux).updateRequestedStream f =
        (⟨n, s, [wholeFile s.handle.pieceLength { st with requested := true }]⟩ : Demux).start 0 := by
      have h1 : (⟨n, s, [st]⟩ : Demux).updateRequestedStream f =
          (⟨n, s, [{ st with requested := true }]⟩ : Demux).switchStreams f :=
        if_neg (fun h => h hf)
      have h2 : (⟨n, s, [{ st with requested := true }]⟩ : Demux).switchStreams f =
          (⟨n, s, [wholeFile s.handle.pieceLength { st with requested := true }]⟩ :
            Demux).start 0 :=
        if_pos ⟨hf, rfl⟩
      exact h1.trans h2
    obtain ⟨s', st', he, -, hleads⟩ := start_leads hn s
      (wholeFile s.handle.pieceLength { st with requested := true }) hidle
    exact ⟨s', st', _, hswitch.trans he, hleads⟩
  · have hswitch : (⟨n, s, [st]⟩ : Demux).updateRequestedStream f =
        ⟨n, s, [{ st with requested := false, task := false }]⟩ := if_pos hf
    refine ⟨s, _, [], hswitch, (List.append_nil _).symm, Port.Extends.refl s, hidle, ?_⟩
    exact fun _ _ hreq => by cases hreq

/-! ### The push loop -/

/-- After a live refill of the flags, the stream waits for the end piece. -/
theorem bufferNext_waits {next : ℤ} (hn : 2 ≤ n) (hs : Settled s)
    (hlive : (Call.bufferNext s.handle next st).Live n) (hmiss : s.handle.havePiece next = false) :
    (bufferNext n next s st).2.buffering = true ∧
    Waits n (bufferNext n next s st).1 (bufferNext n next s st).2 := by
  obtain ⟨htop, hend, hcur⟩ := hlive
  have hwin : (bufferNext n next s st).2.nextWindow n = [next] := by
    simp only [Stream.nextWindow, bufferNext, window, ← hcur, ← hend, ge_iff_le, le_refl, if_true]
  have hmem : next ∈ (bufferNext n next s st).2.nextWindow n := by
    rw [hwin]
    exact List.mem_singleton_self next
  refine ⟨?_, Waits.extends ?_ (Port.Extends.bufferNext n next s st)⟩
  · have hpos : 0 < (scan s.handle (List.replicate (n - 1) next)).2.2 :=
      scan_count_pos (by omega) hmiss htop
    simp [bufferNext, hpos]
  · refine ⟨⟨Fits.bufferNext hn hmiss htop hend hcur, fun hall => ?_⟩, next, hmem,
      hs.announced next hmiss⟩
    have hflag : (bufferNext n next s st).2.curBufferingFlags.getD 0 false = true := by
      change (scan s.handle (List.replicate (n - 1) next)).2.1.getD 0 false = true
      rw [scan_flags, List.map_replicate, hmiss, List.getD_eq_getElem?_getD,
        List.getElem?_replicate_of_lt (by omega)]
      rfl
    rw [hwin, List.zipIdx_singleton, List.countP_singleton, if_pos hflag]
    exact scan_count_once (hall next hmem)

/-- The push loop goes on to `next`. -/
theorem readNext_leads (hn : 2 ≤ n) (s : Port) (st : Stream) (next : ℤ) (eos : Bool) :
    ∃ s' st' cs, (⟨n, s, [st]⟩ : Demux).readNext 0 next eos = ⟨n, s', [st']⟩ ∧
      s'.calls = s.calls ++ cs ∧ s.Extends s' ∧ st'.pushing = st.pushing ∧
      st'.requested = st.requested ∧
      ((∀ c ∈ cs, c.Live n) → Settled s → Placed st →
        (st.buffering = true → st.bufferingLevel < 100) →
        (st.currentPiece < st.endPiece →
          Goes n s st ∨ (next = st.currentPiece + 1 ∧ eos = false)) → Awake n s' st') := by
  by_cases hbranch : next ≤ st.endPiece ∧ st.currentPiece < next ∧ next ≤ st.currentPiece + n - 1
  swap
  · have he : (⟨n, s, [st]⟩ : Demux).readNext 0 next eos = ⟨n, s, [st]⟩ := if_neg hbranch
    refine ⟨s, st, [], he, (List.append_nil _).symm, Port.Extends.refl s, rfl, rfl, ?_⟩
    intro _ _ hstart hlow hgo
    refine ⟨hstart, hlow, fun hlt => ?_⟩
    rcases hgo hlt with h | ⟨h, -⟩
    · exact h
    · exact absurd ⟨by omega, by omega, by omega⟩ hbranch
  by_cases hhave : s.handle.havePiece next = true
  · cases eos with
    | true =>
      have he : (⟨n, s, [st]⟩ : Demux).readNext 0 next true = ⟨n, s, [st]⟩ :=
        (if_pos hbranch).trans (if_pos hhave)
      refine ⟨s, st, [], he, (List.append_nil _).symm, Port.Extends.refl s, rfl, rfl, ?_⟩
      intro _ _ hstart hlow hgo
      refine ⟨hstart, hlow, fun hlt => ?_⟩
      rcases hgo hlt with h | ⟨-, h⟩
      · exact h
      · cases h
    | false =>
      have he : (⟨n, s, [st]⟩ : Demux).readNext 0 next false = ⟨n, s.readPiece next, [st]⟩ :=
        (if_pos hbranch).trans (if_pos hhave)
      have hext := Port.Extends.readPiece s next
      refine ⟨_, st, [], he, (List.append_nil _).symm, hext, rfl, rfl, ?_⟩
      intro _ hs hstart hlow hgo
      refine ⟨hstart, hlow, fun hlt => ?_⟩
      rcases hgo hlt with h | ⟨h, -⟩
      · exact h.extends hext
      · refine .inl (.inl ⟨h ▸ List.mem_append_right _ (List.mem_singleton_self _), ?_⟩)
        exact (hext.passed_eq _).trans (hs.passed _ (h ▸ hhave))
  · have hmiss : s.handle.havePiece next = false := by simpa using hhave
    have he : (⟨n, s, [st]⟩ : Demux).readNext 0 next eos =
        (⟨n, (bufferNext n next s st).1, [(bufferNext n next s st).2]⟩ : Demux).sendBuffering :=
      (if_pos hbranch).trans (if_neg hhave)
    have hlow' : (bufferNext n next s st).2.buffering = true →
        (bufferNext n next s st).2.bufferingLevel < 100 := fun _ => Nat.zero_lt_succ _
    rw [sendBuffering_low hlow'] at he
    refine ⟨_, _, _, he, rfl, Port.Extends.bufferNext n next s st, rfl, rfl, ?_⟩
    intro hlive hs hstart _ _
    obtain ⟨hb, hw⟩ := bufferNext_waits hn hs (hlive _ (List.mem_singleton_self _)) hmiss
    exact ⟨hstart, hlow', fun _ => .inr (.inr ⟨hb, hw⟩)⟩

/-- Back to the first piece of the file, after the `moov` header. -/
theorem moovReset_leads (hn : 1 ≤ n) (s : Port) (st : Stream) (q : ℤ) (hidle : st.pushing = none) :
    ∃ s' st' cs, (⟨n, s, [st]⟩ : Demux).moovReset 0 q = ⟨n, s', [st']⟩ ∧
      s'.calls = s.calls ++ cs ∧ s.Extends s' ∧ st'.pushing = none ∧
      ((st.moovAfterMdat = true ∧ q = st.endPiece) ∨ (s' = s ∧ st' = st)) ∧
      ((∀ c ∈ cs, c.Live n) → Settled s → st.moovAfterMdat = true → q = st.endPiece →
        st'.requested = true → Awake n s' st') := by
  by_cases hm : st.moovAfterMdat = true ∧ q = st.endPiece
  · obtain ⟨s', st', he, hseg, hleads⟩ := start_leads hn s (wholeFile s.handle.pieceLength st) hidle
    have hreset : (⟨n, s, [st]⟩ : Demux).moovReset 0 q =
        ((⟨n, s, [wholeFile s.handle.pieceLength st]⟩ : Demux).start 0).withStream 0
          (fun s st => (s, { st with moovAfterMdat := false })) := if_pos hm
    rw [he] at hreset
    refine ⟨s', { st' with moovAfterMdat := false }, _, hreset, hleads.calls, hleads.extends_port,
      hleads.idle, .inl hm, ?_⟩
    intro hlive hs _ _ hreq
    obtain ⟨h1, h2, h3⟩ := hleads.awake hlive hs hreq
    refine ⟨⟨h1.1, fun h => ?_⟩, h2, fun hlt => (h3 hlt).of_fields rfl id⟩
    exact absurd (hseg.symm.trans h) (by decide)
  · have hreset : (⟨n, s, [st]⟩ : Demux).moovReset 0 q = ⟨n, s, [st]⟩ := if_neg hm
    refine ⟨s, st, [], hreset, (List.append_nil _).symm, Port.Extends.refl s, hidle, .inr ⟨rfl, rfl⟩,
      ?_⟩
    exact fun _ _ h1 h2 => absurd ⟨h1, h2⟩ hm

/-- The push loop takes nothing, or drops a piece that is not the next one. -/
def Idles (s : Port) (st : Stream) : Prop :=
  (takePiece s st).1 = s ∧ (takePiece s st).2.pushing = none ∧
  (takePiece s st).2.requested = st.requested ∧
  (st.requested = true → Awake n s st → Awake n s (takePiece s st).2)

theorem takePiece_cases (n : ℕ) (s : Port) (st : Stream) (hidle : st.pushing = none) :
    Idles (n := n) s st ∨
    ∃ q rest, st.requested = true ∧ q = st.currentPiece + 1 ∧
      takePiece s st = (s.note (.push q st), { st with
        ipc := rest
        pendingSegment := false
        currentPiece := q
        pushing := some (q, st.currentPiece) }) := by
  unfold Idles takePiece
  simp only [hidle, Option.isSome_none, Bool.or_false]
  split
  · exact .inl ⟨rfl, hidle, rfl, fun _ => id⟩
  split
  · rename_i hoff
    refine .inl ⟨rfl, rfl, rfl, fun hreq => ?_⟩
    exact absurd hreq (by simpa using hoff)
  rename_i hreq
  split
  · exact .inl ⟨rfl, hidle, rfl, fun _ => id⟩
  rename_i q rest hipc
  split
  · rename_i hdrop
    refine .inl ⟨rfl, rfl, rfl, fun _ hawake => ?_⟩
    refine ⟨hawake.placed, hawake.low, fun hlt => (hawake.goes hlt).of_fields (by rfl) ?_⟩
    rintro ⟨hmem, htask⟩
    refine ⟨?_, htask⟩
    have hne : st.currentPiece + 1 ≠ q := by
      rintro rfl
      have hstart := hawake.placed.1
      rcases hdrop with ⟨h, -⟩ | h
      · omega
      · exact h rfl
    rw [hipc] at hmem
    exact (List.mem_cons.mp hmem).resolve_left hne
  · rename_i htake
    refine .inr ⟨q, rest, by simpa using hreq, ?_, rfl⟩
    by_contra hne
    exact htake (.inr hne)

theorem push_leads (hn : 2 ≤ n) (s : Port) (st : Stream) (hidle : st.pushing = none) :
    ∃ s' st' cs, ((⟨n, s, [st]⟩ : Demux).step (.take 0)).step (.pushDone 0 .ok) = ⟨n, s', [st']⟩ ∧
      s'.calls = s.calls ++ cs ∧ s.Extends s' ∧ st'.pushing = none ∧
      ((∀ c ∈ cs, c.Live n) → Settled s → (st.requested = true → Awake n s st) →
        st'.requested = true → Awake n s' st') := by
  have htake : (⟨n, s, [st]⟩ : Demux).step (.take 0) =
      ⟨n, (takePiece s st).1, [(takePiece s st).2]⟩ := rfl
  rw [htake]
  rcases takePiece_cases n s st hidle with ⟨h1, h2, h3, h4⟩ | ⟨q, rest, hreq, hq, htaken⟩
  · have hdone : (⟨n, (takePiece s st).1, [(takePiece s st).2]⟩ : Demux).step (.pushDone 0 .ok) =
        ⟨n, (takePiece s st).1, [(takePiece s st).2]⟩ := by
      generalize takePiece s st = r at h2
      simp only [Demux.step, Demux.pushDone, List.getElem?_cons_zero, h2]
    rw [hdone, h1]
    refine ⟨s, _, [], rfl, (List.append_nil _).symm, Port.Extends.refl s, h2, ?_⟩
    intro _ _ hawake hreq'
    rw [h3] at hreq'
    exact h4 hreq' (hawake hreq')
  · rw [htaken]
    -- the stream after the push, which was accepted
    generalize hst₁ : ({ st with
        ipc := rest
        pendingSegment := false
        currentPiece := q
        pushing := some (q, st.currentPiece) } : Stream) = st₁
    generalize hst₂ : (pushed q st.currentPiece .ok (s.note (.push q st)) st₁).2 = st₂
    have hdone : (⟨n, s.note (.push q st), [st₁]⟩ : Demux).step (.pushDone 0 .ok) =
        ((⟨n, s.note (.push q st), [st₂]⟩ : Demux).moovReset 0 q).readNext 0 (q + 1)
          (sendEos q .ok st₁) := by
      subst hst₁ hst₂
      rfl
    have hfields : st₂.pushing = none ∧ st₂.startPiece = st.startPiece ∧
        st₂.endPiece = st.endPiece ∧ st₂.currentPiece = q ∧ st₂.buffering = st.buffering ∧
        st₂.bufferingLevel = st.bufferingLevel ∧ st₂.moovAfterMdat = st.moovAfterMdat ∧
        st₂.requested = st.requested ∧ st₂.lastPiece = st.lastPiece ∧
        (st₂.eosSent = (st.eosSent || sendEos q .ok st₁)) := by
      subst hst₁ hst₂
      simp only [pushed]
      split
      · rename_i h
        cases h
      · split
        · rename_i h
          exact ⟨rfl, rfl, rfl, rfl, rfl, rfl, rfl, rfl, rfl, by rw [h, Bool.or_true]⟩
        · rename_i h
          exact ⟨rfl, rfl, rfl, rfl, rfl, rfl, rfl, rfl, rfl, by simp [h]⟩
    have heos : sendEos q .ok st₁ = (!st.moovAfterMdat && decide (q = st.lastPiece)) := by
      subst hst₁
      simp [sendEos]
    obtain ⟨hidle₂, hstart₂, hend₂, hcur₂, hbuf₂, hlev₂, hmoov₂, hreq₂, hlast₂, hsent₂⟩ := hfields
    rw [hdone]
    obtain ⟨s₃, st₃, cs₃, he₃, hc₃, hext₃, hidle₃, hsame, hawake₃⟩ :=
      moovReset_leads (by omega : 1 ≤ n) (s.note (.push q st)) st₂ q hidle₂
    rw [he₃]
    obtain ⟨s₄, st₄, cs₄, he₄, hc₄, hext₄, hidle₄, hreq₄, hawake₄⟩ :=
      readNext_leads hn s₃ st₃ (q + 1) (sendEos q .ok st₁)
    have hnote := Port.Extends.note s (.push q st)
    refine ⟨s₄, st₄, [.push q st] ++ cs₃ ++ cs₄, he₄, ?_, (hnote.trans hext₃).trans hext₄,
      hidle₄.trans hidle₃, ?_⟩
    · rw [hc₄, hc₃]
      simp [Port.note]
    · intro hlive hs hawake hreq'
      have hpush : (Call.push q st).Live n := hlive _ (by simp)
      have hs₁ := hs.extends hnote
      have hs₃ := hs₁.extends hext₃
      have hawake₁ := hawake hreq
      have hlive₄ : ∀ c ∈ cs₄, c.Live n := fun c hc => hlive c (by simp [hc])
      rcases hsame with ⟨hm, hqend⟩ | ⟨rfl, rfl⟩
      · obtain ⟨h1, h2, h3⟩ := hawake₃ (fun c hc => hlive c (by simp [hc])) hs₁ hm hqend
          (hreq₄.symm.trans hreq')
        exact hawake₄ hlive₄ hs₃ h1 h2 (fun hlt => .inl (h3 hlt))
      · refine hawake₄ hlive₄ hs₃ ?_ ?_ ?_
        · have := hawake₁.placed.1
          refine ⟨by omega, fun _ hm hlast => ?_⟩
          rw [hmoov₂] at hm
          rw [hcur₂, hlast₂] at hlast
          rw [hsent₂, heos]
          simp [hm, hlast]
        · rw [hbuf₂, hlev₂]
          exact hawake₁.low
        · intro hlt
          refine .inr ⟨by rw [hcur₂], ?_⟩
          -- the end of the stream is sent at the end piece only
          rw [heos, Bool.and_eq_false_iff, Bool.not_eq_false', decide_eq_false_iff_not]
          by_cases hm : st.moovAfterMdat = true
          · exact .inl hm
          · right
            intro hlast
            have := hpush hlast (by simpa using hm)
            omega

/-! ### The session, and alerts -/

/-- A read is done. -/
theorem readDone_keeps (st : Stream) {k : ℕ} {p : ℤ} (hk : s.reads[k]? = some p)
    (hs' : s' = { s with
      reads := s.reads.eraseIdx k
      alerts := s.alerts ++ [.readPiece p (s.handle.hasPiecePassed p)] }) :
    (Settled s → Settled s') ∧ (Awake n s st → Awake n s' st) := by
  subst hs'
  have hexp : ∀ q, Expected s q → Expected { s with
      reads := s.reads.eraseIdx k
      alerts := s.alerts ++ [.readPiece p (s.handle.hasPiecePassed p)] } q :=
    fun q hq => hq.imp id (List.mem_append_left _)
  refine ⟨fun h => ⟨h.passed, fun q hq => hexp q (h.announced q hq)⟩, fun h => h.of_port ?_ hexp ?_⟩
  · intro q hq
    rcases hq with ⟨hmem, hpass⟩ | hq
    · by_cases hqp : q = p
      · subst hqp
        refine .inr (List.mem_append_right _ ?_)
        rw [hpass]
        exact List.mem_singleton_self _
      · refine .inl ⟨?_, hpass⟩
        obtain ⟨j, hj⟩ := List.mem_iff_getElem?.mp hmem
        refine List.mem_eraseIdx_iff_getElem?.mpr ⟨j, ?_, hj⟩
        rintro rfl
        exact hqp (Option.some.inj (hj.symm.trans hk))
    · exact .inr (List.mem_append_left _ hq)
  · exact fun hc => hc.mono (fun _ => rfl) (fun _ => id)

/-- A piece passes its hash check. -/
theorem passes_keeps (s : Port) (st : Stream) {p : ℤ}
    (hs' : s' = { s with
      handle := { s.handle with passed := Function.update s.handle.passed p true }
      alerts := s.alerts ++ [.pieceFinished p] }) :
    (Settled s → Settled s') ∧ (Awake n s st → Awake n s' st) := by
  have hpass : ∀ q, s.handle.hasPiecePassed q = true → s'.handle.hasPiecePassed q = true := by
    intro q hq
    subst hs'
    simp only [Handle.hasPiecePassed, Handle.inRange, Bool.and_eq_true, Function.update_apply] at hq ⊢
    refine ⟨hq.1, ?_⟩
    split
    · rfl
    · exact hq.2
  have hexp : ∀ q, Expected s q → Expected s' q := by
    intro q hq
    subst hs'
    by_cases hqp : q = p
    · subst hqp
      exact .inr (List.mem_append_right _ (List.mem_singleton_self _))
    · rcases hq with hq | hq
      · left
        simp only [Handle.hasPiecePassed, Handle.inRange, Function.update_of_ne hqp] at hq ⊢
        exact hq
      · exact .inr (List.mem_append_left _ hq)
  have hhave : ∀ q, s'.handle.havePiece q = s.handle.havePiece q := by
    subst hs'
    exact fun _ => rfl
  refine ⟨fun h => ⟨fun q hq => hpass q (h.passed q ((hhave q).symm.trans hq)),
    fun q hq => hexp q (h.announced q ((hhave q).symm.trans hq))⟩, fun h => h.of_port ?_ hexp ?_⟩
  · intro q hq
    rcases hq with ⟨hmem, hq⟩ | hq
    · refine .inl ⟨?_, hpass q hq⟩
      subst hs'
      exact hmem
    · right
      subst hs'
      exact List.mem_append_left _ hq
  · intro hc
    refine hc.mono ?_ (fun q hq => (hhave q).trans hq)
    subst hs'
    exact fun _ => rfl

/-- A piece that has passed is on disk. -/
theorem flushes_keeps (st : Stream) {p : ℤ} (hp : s.handle.passed p = true)
    (hs' : s' = { s with
      handle := { s.handle with flushed := Function.update s.handle.flushed p true } }) :
    (Settled s → Settled s') ∧ (Awake n s st → Awake n s' st) := by
  have hhave : ∀ q, s.handle.havePiece q = true → s'.handle.havePiece q = true := by
    intro q hq
    subst hs'
    simp only [Handle.havePiece, Handle.inRange, Bool.and_eq_true, Function.update_apply] at hq ⊢
    refine ⟨hq.1, ?_⟩
    split
    · rfl
    · exact hq.2
  have hexp : ∀ q, Expected s q → Expected s' q := by
    subst hs'
    exact fun _ => id
  refine ⟨fun h => ⟨fun q hq => ?_, fun q hq => ?_⟩, fun h => h.of_port ?_ hexp ?_⟩
  · subst hs'
    by_cases hqp : q = p
    · subst hqp
      have hr := (Bool.and_eq_true_iff.mp hq).1
      exact Bool.and_eq_true_iff.mpr ⟨hr, hp⟩
    · refine h.passed q ?_
      simp only [Handle.havePiece, Handle.inRange, Function.update_of_ne hqp] at hq ⊢
      exact hq
  · refine hexp q (h.announced q ?_)
    by_contra hc
    exact absurd (hq.symm.trans (hhave q (by simpa using hc))) (by decide)
  · subst hs'
    exact fun _ => id
  · intro hc
    refine hc.mono ?_ hhave
    subst hs'
    exact fun _ => rfl

/-- The pieces of the window are pieces of the range. -/
theorem le_of_mem_nextWindow {p : ℤ} (hp : p ∈ st.nextWindow n)
    (hlt : st.currentPiece < st.endPiece) : st.currentPiece + 1 ≤ p ∧ p ≤ st.endPiece := by
  unfold Stream.nextWindow window at hp
  split at hp
  · rw [List.mem_singleton] at hp
    omega
  · have := mem_pieceRange.mp hp
    omega

/-- The data of a piece has been read. -/
theorem feedReadPiece_keeps (hn : 2 ≤ n) (st : Stream) {p : ℤ} {b : Bool} {rest : List Alert}
    (halerts : s.alerts = .readPiece p b :: rest) (hs' : s' = { s with alerts := rest })
    (hst' : st' = if b then (feedReadPiece n p s' st).2 else st) :
    (Settled s → Settled s') ∧
    ((st.requested = true → Awake n s st) → st'.requested = true → Awake n s' st') := by
  have hexp : ∀ q, Expected s q → Expected s' q := by
    intro q hq
    subst hs'
    refine hq.imp id (fun h => ?_)
    rw [halerts] at h
    exact (List.mem_cons.mp h).resolve_left (fun h => by cases h)
  have hcov : ∀ x, Covers n s x → Covers n s' x := by
    subst hs'
    exact fun x hx => hx.mono (fun _ => rfl) (fun _ => id)
  refine ⟨fun h => ?_, fun hawake hreq' => ?_⟩
  · subst hs'
    exact ⟨h.passed, fun q hq => hexp q (h.announced q hq)⟩
  -- reads other than the one of this alert are as pending as before
  have hpend : ∀ q, Pending s q → Pending s' q ∨ (q = p ∧ b = true) := by
    intro q hq
    subst hs'
    rcases hq with hq | hq
    · exact .inl (.inl hq)
    · rw [halerts] at hq
      rcases List.mem_cons.mp hq with hq | hq
      · obtain ⟨h1, h2⟩ := Alert.readPiece.inj hq
        exact .inr ⟨h1, h2.symm⟩
      · exact .inl (.inr hq)
  cases b with
  | false =>
    obtain rfl : st' = st := hst'
    refine (hawake hreq').of_port (fun q hq => ?_) hexp (hcov _)
    exact (hpend q hq).resolve_right (fun h => by cases h.2)
  | true =>
    have hst'' : st' = (feedReadPiece n p s' st).2 := hst'
    have hreq : st.requested = true := by
      subst hst''
      unfold feedReadPiece at hreq'
      split at hreq'
      · exact hreq'
      split at hreq'
      · exact hreq'
      split at hreq' <;> exact hreq'
    have hA := hawake hreq
    by_cases hdrop : p < st.startPiece ∨ p > st.endPiece ∨ p ≤ st.currentPiece ∨
        p > st.currentPiece + n - 1
    · have hsame : st' = st := by
        rw [hst'', feedReadPiece]
        split
        · rfl
        rw [if_neg (by simp [hreq])]
        rw [if_pos]
        omega
      rw [hsame]
      refine ⟨hA.placed, hA.low, fun hlt => ?_⟩
      rcases hA.goes hlt with h | h | ⟨hb, hw⟩
      · rcases hpend _ h with h | ⟨h, -⟩
        · exact .inl h
        · have := hA.placed.1
          omega
      · exact .inr (.inl h)
      · obtain ⟨q, hmem, hq⟩ := hw.expected
        exact .inr (.inr ⟨hb, hcov _ hw.covers, q, hmem, hexp q hq⟩)
    · have hqueue : st' = { st with ipc := st.ipc ++ [p], task := true } := by
        rw [hst'', feedReadPiece, if_neg (by omega), if_neg (by simp [hreq]), if_neg (by omega)]
      rw [hqueue]
      refine ⟨hA.placed, hA.low, fun hlt => ?_⟩
      rcases hA.goes hlt with h | ⟨h, -⟩ | ⟨hb, hw⟩
      · rcases hpend _ h with h | ⟨h, -⟩
        · exact .inl h
        · exact .inr (.inl ⟨List.mem_append_right _ (h ▸ List.mem_singleton_self _), rfl⟩)
      · exact .inr (.inl ⟨List.mem_append_left _ h, rfl⟩)
      · obtain ⟨q, hmem, hq⟩ := hw.expected
        refine .inr (.inr ⟨hb, (hcov _ hw.covers).of_flagFields rfl, q, hmem, hexp q hq⟩)

/-- The alert of a finished piece that is on disk. -/
theorem pieceFinished_leads (hn : 1 ≤ n) {p : ℤ} {rest : List Alert}
    (halerts : s.alerts = .pieceFinished p :: rest) (st : Stream) :
    ∃ s' st' cs, (⟨n, { s with alerts := rest }, [st]⟩ : Demux).feed (.pieceFinished p) =
        ⟨n, s', [st']⟩ ∧ s'.calls = s.calls ++ cs ∧ st'.pushing = st.pushing ∧
      ((∀ c ∈ cs, c.Live n) → Settled s → Settled s' ∧
        ((st.requested = true → Awake n s st) → st'.requested = true → Awake n s' st')) := by
  generalize hs₁ : ({ s with alerts := rest } : Port).note
    (.pieceFinished s.handle p) = s₁
  -- without the alert the pieces are settled still, since this one is on disk
  have hsettled : s.handle.havePiece p = true → Settled s → Settled s₁ := by
    intro hp hs
    subst hs₁
    refine ⟨hs.passed, fun q hq => (hs.announced q hq).imp id (fun h => ?_)⟩
    rw [halerts] at h
    refine (List.mem_cons.mp h).resolve_left (fun h => ?_)
    obtain rfl := Alert.pieceFinished.inj h
    exact absurd (hq.symm.trans hp) (by decide)
  have hpend : ∀ q, Pending s q → Pending s₁ q := by
    intro q hq
    subst hs₁
    refine hq.imp id (fun h => ?_)
    rw [halerts] at h
    exact (List.mem_cons.mp h).resolve_left (fun h => by cases h)
  have hcov : Covers n s st → Covers n s₁ st := by
    subst hs₁
    exact fun h => h.mono (fun _ => rfl) (fun _ => id)
  have hcalls : s₁.calls = s.calls ++ [.pieceFinished s.handle p] := by
    subst hs₁
    rfl
  have hset := Port.Extends.setPiecePriority s₁ p dontDownload
  by_cases hskip : p < st.startPiece ∨ p > st.endPiece ∨ !st.requested
  · have he : (⟨n, { s with alerts := rest }, [st]⟩ : Demux).feed (.pieceFinished p) =
        ⟨n, s₁, [st]⟩ := by
      have hround : feedPieceFinished n p (s₁, false) st = ((s₁, false), st) := if_pos hskip
      simp only [Demux.feed, walk, hs₁, hround]
      rfl
    refine ⟨s₁, st, _, he, hcalls, rfl, fun hlive hs => ?_⟩
    refine ⟨hsettled (hlive _ (List.mem_singleton_self _)) hs, fun hawake hreq => ?_⟩
    obtain ⟨h1, h2, h3⟩ := hawake hreq
    refine ⟨h1, h2, fun hlt => ?_⟩
    rcases h3 hlt with h | h | ⟨hb, hw⟩
    · exact .inl (hpend _ h)
    · exact .inr (.inl h)
    · -- the piece is not one of the window, so it is not the one that is waited for
      obtain ⟨q, hmem, hq⟩ := hw.expected
      refine .inr (.inr ⟨hb, hcov hw.covers, q, hmem, ?_⟩)
      subst hs₁
      refine hq.imp id (fun h => ?_)
      rw [halerts] at h
      refine (List.mem_cons.mp h).resolve_left (fun h => ?_)
      obtain rfl := Alert.pieceFinished.inj h
      have hrange := le_of_mem_nextWindow hmem hlt
      have hstart := h1.1
      rcases hskip with h | h | h
      · omega
      · omega
      · rw [hreq] at h
        cases h
  have hreq : st.requested = true := by
    by_contra hno
    exact hskip (.inr (.inr (by simpa using hno)))
  by_cases hbuf : st.buffering = true
  · have he : (⟨n, { s with alerts := rest }, [st]⟩ : Demux).feed (.pieceFinished p) =
        (⟨n, (st.updateBuffering (s₁.setPiecePriority p dontDownload) n).1,
          [(st.updateBuffering (s₁.setPiecePriority p dontDownload) n).2]⟩ :
            Demux).sendBuffering := by
      have hround : feedPieceFinished n p (s₁, false) st =
          (((st.updateBuffering (s₁.setPiecePriority p dontDownload) n).1, true),
            (st.updateBuffering (s₁.setPiecePriority p dontDownload) n).2) :=
        (if_neg hskip).trans (if_pos hbuf)
      simp only [Demux.feed, walk, hs₁, hround]
      rfl
    obtain ⟨s', st', he', hcalls', hext, hidle, hawake'⟩ := updateBuffering_leads hn
      (s₁.setPiecePriority p dontDownload) st hreq hbuf
    refine ⟨s', st', [.pieceFinished s.handle p,
      .updateBuffering (s₁.setPiecePriority p dontDownload).handle st], he.trans he', ?_, hidle, ?_⟩
    · have hc : (s₁.setPiecePriority p dontDownload).calls = s₁.calls := rfl
      rw [hcalls', hc, hcalls, List.append_assoc]
      rfl
    · intro hlive hs
      have hs₁' := (hsettled (hlive _ List.mem_cons_self) hs).extends hset
      refine ⟨hs₁'.extends hext, fun hawake _ => ?_⟩
      obtain ⟨h1, -, h3⟩ := hawake hreq
      refine hawake' h1 hs₁' (fun hlt => ?_)
      rcases h3 hlt with h | h | ⟨-, hw⟩
      · exact .inl ((hpend _ h).extends hset)
      · exact .inr (.inl h)
      · exact .inr (.inr ((hcov hw.covers).mono hset.inRange_eq
          (fun q hq => (hset.have_eq q).trans hq)))
  · have he : (⟨n, { s with alerts := rest }, [st]⟩ : Demux).feed (.pieceFinished p) =
        ⟨n, s₁.setPiecePriority p dontDownload, [st]⟩ := by
      have hround : feedPieceFinished n p (s₁, false) st =
          ((s₁.setPiecePriority p dontDownload, false), st) :=
        (if_neg hskip).trans (if_neg hbuf)
      simp only [Demux.feed, walk, hs₁, hround]
      rfl
    refine ⟨_, st, _, he, hcalls, rfl, fun hlive hs => ?_⟩
    refine ⟨(hsettled (hlive _ (List.mem_singleton_self _)) hs).extends hset, fun hawake _ => ?_⟩
    obtain ⟨h1, h2, h3⟩ := hawake hreq
    refine ⟨h1, h2, fun hlt => ?_⟩
    rcases h3 hlt with h | h | ⟨hb, -⟩
    · exact .inl ((hpend _ h).extends hset)
    · exact .inr (.inl h)
    · exact absurd hb hbuf

/-! ### Whole runs -/

/-- One stream between two steps of a run. -/
def Playing (n : ℕ) (d : Demux) : Prop :=
  ∃ s st, d = ⟨n, s, [st]⟩ ∧ st.pushing = none ∧
    ((∀ c ∈ s.calls, c.Live n) → Settled s ∧ (st.requested = true → Awake n s st))

theorem Playing.of_leads {s' : Port} {st' : Stream} {cs : List Call} (hc : s'.calls = s.calls ++ cs)
    (hidle : st'.pushing = none)
    (hs : (∀ c ∈ s.calls, c.Live n) → Settled s ∧ (st.requested = true → Awake n s st))
    (hs' : (∀ c ∈ cs, c.Live n) → Settled s → (st.requested = true → Awake n s st) →
      Settled s' ∧ (st'.requested = true → Awake n s' st')) :
    Playing n ⟨n, s', [st']⟩ := by
  refine ⟨s', st', rfl, hidle, fun hlive => ?_⟩
  rw [hc] at hlive
  obtain ⟨h1, h2⟩ := hs (fun c h => hlive c (List.mem_append_left _ h))
  exact hs' (fun c h => hlive c (List.mem_append_right _ h)) h1 h2

theorem Playing.of_same {s' : Port} {st' : Stream}
    (hs : (∀ c ∈ s.calls, c.Live n) → Settled s ∧ (st.requested = true → Awake n s st))
    (hc : s'.calls = s.calls) (hidle : st'.pushing = none) (hset : Settled s → Settled s')
    (hawake : (st.requested = true → Awake n s st) → st'.requested = true → Awake n s' st') :
    Playing n ⟨n, s', [st']⟩ := by
  refine ⟨s', st', rfl, hidle, fun hlive => ?_⟩
  rw [hc] at hlive
  exact ⟨hset (hs hlive).1, hawake (hs hlive).2⟩

theorem Playing.step (hn : 2 ≤ n) {d : Demux} (hd : Playing n d) (e : Play) :
    Playing n (d.run e.events) := by
  obtain ⟨s, st, rfl, hidle, hinv⟩ := hd
  have hn' : 1 ≤ n := by omega
  cases e with
  | switch f =>
    obtain ⟨s', st', cs, he, hl⟩ := switch_leads hn' s st f hidle
    change Playing n ((⟨n, s, [st]⟩ : Demux).updateRequestedStream f)
    rw [he]
    exact Playing.of_leads hl.calls hl.idle hinv
      (fun hlive hs _ => ⟨hs.extends hl.extends_port, hl.awake hlive hs⟩)
  | seek k =>
    obtain ⟨s', st', cs, he, hl⟩ := seek_leads hn' s st k hidle
    change Playing n ((⟨n, s, [st]⟩ : Demux).seek 0 k)
    rw [he]
    exact Playing.of_leads hl.calls hl.idle hinv
      (fun hlive hs _ => ⟨hs.extends hl.extends_port, hl.awake hlive hs⟩)
  | push =>
    obtain ⟨s', st', cs, he, hc, hext, hidle', hawake⟩ := push_leads hn s st hidle
    change Playing n (((⟨n, s, [st]⟩ : Demux).step (.take 0)).step (.pushDone 0 .ok))
    rw [he]
    exact Playing.of_leads hc hidle' hinv
      (fun hlive hs h => ⟨hs.extends hext, hawake hlive hs h⟩)
  | readDone k =>
    change Playing n ((⟨n, s, [st]⟩ : Demux).step (.readDone k))
    simp only [Demux.step]
    split
    · exact ⟨s, st, rfl, hidle, hinv⟩
    · rename_i p hk
      obtain ⟨h1, h2⟩ := readDone_keeps (n := n) st hk rfl
      exact Playing.of_same hinv rfl hidle h1 (fun h hreq => h2 (h hreq))
  | passes p =>
    change Playing n ((⟨n, s, [st]⟩ : Demux).step (.passes p))
    simp only [Demux.step]
    split
    · obtain ⟨h1, h2⟩ := passes_keeps (n := n) (p := p) s st rfl
      exact Playing.of_same hinv rfl hidle h1 (fun h hreq => h2 (h hreq))
    · exact ⟨s, st, rfl, hidle, hinv⟩
  | flushes p =>
    change Playing n ((⟨n, s, [st]⟩ : Demux).step (.flushes p))
    simp only [Demux.step]
    split
    · rename_i hp
      obtain ⟨h1, h2⟩ := flushes_keeps (n := n) st hp rfl
      exact Playing.of_same hinv rfl hidle h1 (fun h hreq => h2 (h hreq))
    · exact ⟨s, st, rfl, hidle, hinv⟩
  | alert =>
    change Playing n ((⟨n, s, [st]⟩ : Demux).step .alert)
    simp only [Demux.step]
    split
    · exact ⟨s, st, rfl, hidle, hinv⟩
    rename_i a rest halerts
    cases a with
    | readPiece p b =>
      have hround : (feedReadPiece n p { s with alerts := rest } st).1 = { s with alerts := rest } ∧
          (feedReadPiece n p { s with alerts := rest } st).2.pushing = st.pushing := by
        unfold feedReadPiece
        split
        · exact ⟨rfl, rfl⟩
        split
        · exact ⟨rfl, rfl⟩
        split <;> exact ⟨rfl, rfl⟩
      obtain ⟨h1, h2⟩ := feedReadPiece_keeps hn st halerts rfl rfl
      cases b with
      | false => exact Playing.of_same hinv rfl hidle h1 h2
      | true =>
        have he : (⟨n, { s with alerts := rest }, [st]⟩ : Demux).feed (.readPiece p true) =
            ⟨n, { s with alerts := rest },
              [(feedReadPiece n p { s with alerts := rest } st).2]⟩ := by
          have h : (⟨n, { s with alerts := rest }, [st]⟩ : Demux).feed (.readPiece p true) =
              ⟨n, (feedReadPiece n p { s with alerts := rest } st).1,
                [(feedReadPiece n p { s with alerts := rest } st).2]⟩ := rfl
          rw [h, hround.1]
        rw [he]
        exact Playing.of_same hinv rfl (hround.2.trans hidle) h1 h2
    | pieceFinished p =>
      obtain ⟨s', st', cs, he, hc, hidle', hkeeps⟩ := pieceFinished_leads hn' halerts st
      rw [he]
      refine Playing.of_leads hc (hidle'.trans hidle) hinv (fun hlive hs h => ?_)
      obtain ⟨h1, h2⟩ := hkeeps hlive hs
      exact ⟨h1, h2 h⟩

theorem Playing.play (hn : 2 ≤ n) {d : Demux} (hd : Playing n d) (ps : List Play) :
    Playing n (d.play ps) := by
  induction ps generalizing d with
  | nil => exact hd
  | cons e ps ih =>
    have hsplit : d.play (e :: ps) = (d.run e.events).play ps := by
      simp only [Demux.play, Demux.run, List.flatMap_cons, List.foldl_append]
    rw [hsplit]
    exact ih (hd.step hn e)

theorem feedPlaylist_playing (n : ℕ) (h : Handle) (hdisk : ∀ p, h.passed p = h.flushed p)
    (file : ℤ × ℤ × ℤ) : Playing n (feedPlaylist n h [file]) := by
  refine ⟨_, _, rfl, rfl, fun _ => ⟨⟨fun p hp => ?_, fun p hp => ?_⟩, fun hreq => by cases hreq⟩⟩
  · simp only [Handle.hasPiecePassed, Handle.havePiece] at hp ⊢
    rw [hdisk]
    exact hp
  · left
    simp only [Handle.hasPiecePassed, Handle.havePiece] at hp ⊢
    rw [hdisk]
    exact hp

/-- **Streaming does not get stuck.** In every run of one stream over a torrent whose pieces are
checked and on disk at the same time to begin with, in which each activation finds no missing piece
of top priority in its window, the push loop starts to buffer only for the end piece and only if that
has not top priority yet, the last piece of the file is pushed only as the end piece, and the alert
of a finished piece is handled when the piece is on disk, something is always on its way to the
stream until its end piece has been pushed, and the end of the stream is sent with the last piece of
the file. -/
theorem play_alive {n : ℕ} (hn : 2 ≤ n) (h : Handle) (hdisk : ∀ p, h.passed p = h.flushed p)
    (file : ℤ × ℤ × ℤ) (ps : List Play)
    (hlive : ∀ c ∈ ((feedPlaylist n h [file]).play ps).port.calls, c.Live n) :
    ∀ st ∈ ((feedPlaylist n h [file]).play ps).streams, st.requested = true →
      (st.currentPiece < st.endPiece →
        Alive n ((feedPlaylist n h [file]).play ps).port st) ∧ Ended st := by
  obtain ⟨s, st, he, -, hinv⟩ := (feedPlaylist_playing n h hdisk file).play hn ps
  rw [he] at hlive ⊢
  intro st' hst' hreq
  obtain rfl := List.mem_singleton.mp hst'
  have hawake := (hinv hlive).2 hreq
  exact ⟨fun hlt => (hawake.goes hlt).alive, hawake.placed.2⟩

/-- A file of six pieces is chosen, the pieces of its window come, and two of them are played. -/
def playTwoPieces : List Play :=
  [.switch 0, .passes 0, .flushes 0, .alert, .passes 1, .flushes 1, .alert, .passes 2, .flushes 2, .alert,
    .readDone 0, .alert, .push, .readDone 0, .alert, .push]

theorem playTwoPieces_alive :
    ∃ st ∈ ((feedPlaylist 3 (sixPieceTorrent 0) [(0, 0, 55)]).play playTwoPieces).streams,
      st.currentPiece = 1 ∧ st.currentPiece < st.endPiece ∧
        Alive 3 ((feedPlaylist 3 (sixPieceTorrent 0) [(0, 0, 55)]).play playTwoPieces).port st ∧ Ended st := by
  have hlive : ∀ c ∈ ((feedPlaylist 3 (sixPieceTorrent 0) [(0, 0, 55)]).play playTwoPieces).port.calls,
      c.Live 3 := by
    decide +kernel
  have hmid : ∃ st ∈ ((feedPlaylist 3 (sixPieceTorrent 0) [(0, 0, 55)]).play playTwoPieces).streams,
      st.requested = true ∧ st.currentPiece = 1 ∧ st.currentPiece < st.endPiece := by
    decide +kernel
  obtain ⟨st, hst, hreq, hcur, hlt⟩ := hmid
  obtain ⟨halive, hended⟩ :=
    play_alive (by decide) (sixPieceTorrent 0) (fun _ => rfl) (0, 0, 55) playTwoPieces hlive st hst hreq
  exact ⟨st, hst, hcur, hlt, halive hlt, hended⟩

/-- The three pieces that we have are played, a later piece of the window comes, and the next piece,
which is missing, is read. -/
def laterPieceComes : List Play :=
  [.switch 0, .readDone 0, .alert, .push, .readDone 0, .alert, .push, .readDone 0, .alert, .push,
    .passes 4, .flushes 4, .alert, .readDone 0, .alert]

theorem play_not_alive :
    ¬ ∀ (n : ℕ), 2 ≤ n → ∀ (h : Handle), (∀ p, h.passed p = h.flushed p) →
      ∀ (file : ℤ × ℤ × ℤ) (ps : List Play),
      ∀ st ∈ ((feedPlaylist n h [file]).play ps).streams, st.requested = true →
        st.currentPiece < st.endPiece → Alive n ((feedPlaylist n h [file]).play ps).port st := by
  intro hall
  have hstuck : ∃ st ∈ ((feedPlaylist 3 (sixPieceTorrent 3) [(0, 0, 55)]).play
      laterPieceComes).streams, st.requested = true ∧ st.currentPiece < st.endPiece ∧
      st.ipc = [] ∧ st.buffering = false := by
    decide +kernel
  have hreads : ((feedPlaylist 3 (sixPieceTorrent 3) [(0, 0, 55)]).play
      laterPieceComes).port.reads = [] := by
    decide +kernel
  have halerts : ((feedPlaylist 3 (sixPieceTorrent 3) [(0, 0, 55)]).play
      laterPieceComes).port.alerts = [] := by
    decide +kernel
  obtain ⟨st, hst, hreq, hlt, hipc, hbuf⟩ := hstuck
  have halive := hall 3 (by decide) (sixPieceTorrent 3) (fun _ => rfl) (0, 0, 55) laterPieceComes st
    hst hreq hlt
  unfold Alive at halive
  rw [hreads, halerts, hipc, hbuf] at halive
  rcases halive with (h | ⟨b, h⟩) | h | ⟨p, h⟩ | ⟨h, -⟩
  · cases h
  · cases h
  · cases h
  · cases h
  · cases h

end Demux

end Gst

end LibtorrentSN
