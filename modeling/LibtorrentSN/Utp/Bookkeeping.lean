import LibtorrentSN.Utp.Sender

/-!
# The sender's books

`m_bytes_in_flight` counts the payload of the packets in `m_outbuf` that are not marked to be
resent, and the packets in `m_outbuf` are numbered between `m_acked_seq_nr` and `m_seq_nr`, except
for a FIN, which is numbered `m_seq_nr`.

`Books` is the invariant. Distances are taken from `m_acked_seq_nr` up, so that nothing depends on
where the numbers wrap. A selective ack reaches fewer than 2048 numbers past `m_acked_seq_nr`, so the
packets further out are all in `m_outbuf`; this bounds the distance to `m_seq_nr` by the number of
packets that are outstanding.
-/

namespace LibtorrentSN

namespace Utp

theorem getD_overwrite_lt {buf bytes : List UInt8} {offset i : ℕ} (hi : i < offset)
    (hb : i < buf.length) : (overwrite buf offset bytes).getD i 0 = buf.getD i 0 := by
  have hlen : i < (buf.take offset).length := by
    rw [List.length_take]
    omega
  rw [overwrite, List.append_assoc, List.getD_append _ _ _ _ hlen, List.getD_eq_getElem?_getD,
    List.getElem?_take_of_lt hi, ← List.getD_eq_getElem?_getD]

theorem getD_overwrite_zero {buf bytes : List UInt8} {i : ℕ} (hi : i < bytes.length) :
    (overwrite buf 0 bytes).getD i 0 = bytes.getD i 0 := by
  rw [overwrite, List.take_zero, List.nil_append, List.getD_append _ _ _ _ hi]

theorem length_overwrite (buf : List UInt8) (offset : ℕ) (bytes : List UInt8) :
    buf.length ≤ (overwrite buf offset bytes).length ∧
      bytes.length ≤ (overwrite buf offset bytes).length := by
  simp only [overwrite, List.length_append, List.length_take, List.length_drop]
  omega

namespace OutPacket

variable {p : OutPacket}

/-- A packet's SACK header is part of its header. -/
structure SackFits (p : OutPacket) : Prop where
  header_le : p.headerSize ≤ p.size
  sack : p.extension = sackExtension →
    2 ≤ p.body.length ∧ p.body.getD 0 0 ≠ sackExtension ∧ 0 < (p.body.getD 1 0).toNat ∧
      (p.body.getD 1 0).toNat + 22 ≤ p.headerSize

theorem SackFits.removeSackHeader (h : p.SackFits) (he : p.extension = sackExtension) :
    p.removeSackHeader.SackFits ∧ p.removeSackHeader.payloadSize = p.payloadSize := by
  obtain ⟨-, hnext, -, hfit⟩ := h.sack he
  have hle := h.header_le
  refine ⟨⟨?_, fun hc => absurd hc hnext⟩, ?_⟩
  · simp only [OutPacket.removeSackHeader]
    omega
  · simp only [OutPacket.removeSackHeader, payloadSize]
    omega

theorem SackFits.refreshSack (h : p.SackFits) (rx : RecvSide) :
    (p.refreshSack rx).SackFits ∧ (p.refreshSack rx).payloadSize = p.payloadSize ∧
      (p.refreshSack rx).type = p.type := by
  rw [OutPacket.refreshSack]
  split
  next hcond =>
    obtain ⟨hlen, hnext, hpos, hfit⟩ := h.sack hcond.1
    split
    next =>
      refine ⟨⟨h.header_le, fun _ => ?_⟩, rfl, rfl⟩
      dsimp only
      rw [getD_overwrite_lt (by decide) (by omega), getD_overwrite_lt (by decide) (by omega)]
      exact ⟨hlen.trans (length_overwrite _ _ _).1, hnext, hpos, hfit⟩
    next =>
      obtain ⟨hf, hsize⟩ := h.removeSackHeader hcond.1
      exact ⟨hf, hsize, rfl⟩
  next => exact ⟨h, rfl, rfl⟩

end OutPacket

/-- `b` lies between `a` and `q`, and `c` between `b` and `q`. -/
theorem seqDist_trans {a b c q : ℕ} (ha : a < 65536) (hb : b < 65536) (hc : c < 65536)
    (hq : q < 65536) (h : RingStore.dist 65536 a b + RingStore.dist 65536 b q = RingStore.dist 65536 a q)
    (h' : RingStore.dist 65536 b c + RingStore.dist 65536 c q = RingStore.dist 65536 b q) :
    RingStore.dist 65536 a c + RingStore.dist 65536 c q = RingStore.dist 65536 a q := by
  simp only [RingStore.dist] at h h' ⊢
  omega

theorem seqDist_lt (a b : ℕ) : RingStore.dist 65536 a b < 65536 := Nat.mod_lt _ (by decide)

theorem seqDist_self (a : ℕ) : RingStore.dist 65536 a a = 0 := by
  simp only [RingStore.dist]
  omega

theorem seqDist_pos {a k : ℕ} (ha : a < 65536) (hk : k < 65536) :
    0 < RingStore.dist 65536 a k ↔ k ≠ a := by
  simp only [RingStore.dist]
  omega

theorem seqDist_succ {a k : ℕ} (ha : a < 65536) (hk : k < 65536) (hne : k ≠ a) :
    RingStore.dist 65536 ((a + 1) % 65536) k + 1 = RingStore.dist 65536 a k := by
  simp only [RingStore.dist]
  omega

theorem seqDist_one {a : ℕ} (ha : a < 65536) : RingStore.dist 65536 a ((a + 1) % 65536) = 1 := by
  simp only [RingStore.dist]
  omega

theorem seqDist_inj {a k l : ℕ} (ha : a < 65536) (hk : k < 65536) (hl : l < 65536)
    (h : RingStore.dist 65536 a k = RingStore.dist 65536 a l) : k = l := by
  simp only [RingStore.dist] at h
  omega

namespace Sender

variable {s s' : Sender} {k nr : ℕ} {p : OutPacket}

/-- The distance from `m_acked_seq_nr` up to `k`. -/
def ahead (s : Sender) (k : ℕ) : ℕ := RingStore.dist 65536 s.ackedSeqNr k

/-- The payload of the packets in `m_outbuf` that are not marked to be resent. -/
def inFlight (s : Sender) : ℕ := RingStore.total 65536 OutPacket.inFlight s.outbuf

/-- The numbers of the packets in `m_outbuf`. -/
structure Window (s : Sender) : Prop where
  seq_lt : s.seqNr < 65536
  acked_lt : s.ackedSeqNr < 65536
  key_lt : ∀ k p, s.outbuf k = some p → k < 65536
  inside : ∀ k p, s.outbuf k = some p →
    0 < s.ahead k ∧ s.ahead k < s.ahead s.seqNr ∨
      k = s.seqNr ∧ p.type = .fin ∧ s.state = .finSent ∧ 0 < s.ahead s.seqNr
  unsent : s.state ≠ .finSent → 0 < s.ahead s.seqNr
  beyond : ∀ k < 65536, 2048 ≤ s.ahead k → s.ahead k < s.ahead s.seqNr → s.outbuf k ≠ none

/-- The packet after `m_acked_seq_nr` is in `m_outbuf`, if it has been sent. -/
def Front (s : Sender) : Prop :=
  2 ≤ s.ahead s.seqNr → s.outbuf ((s.ackedSeqNr + 1) % 65536) ≠ none

/-! ### Acknowledgements -/

/-- `s'` is `s` after packets have been acknowledged: some have left `m_outbuf`, and
`m_acked_seq_nr` has moved towards `m_seq_nr`. -/
structure Acks (s s' : Sender) : Prop where
  fields : ∃ outbuf bytesInFlight ackedSeqNr,
    s' = { s with outbuf, bytesInFlight, ackedSeqNr }
  outbuf : ∀ k p, s'.outbuf k = some p → s.outbuf k = some p
  moves : s.ahead s'.ackedSeqNr + s'.ahead s.seqNr = s.ahead s.seqNr

theorem Acks.seqNr (h : Acks s s') : s'.seqNr = s.seqNr := by
  obtain ⟨_, _, _, rfl⟩ := h.fields
  rfl

theorem Acks.state (h : Acks s s') : s'.state = s.state := by
  obtain ⟨_, _, _, rfl⟩ := h.fields
  rfl

theorem Acks.refl (hlt : s.ackedSeqNr < 65536) : Acks s s := by
  refine ⟨⟨_, _, _, rfl⟩, fun _ _ h => h, ?_⟩
  simp only [ahead, RingStore.dist]
  omega

theorem Acks.trans {s'' : Sender} (h : Acks s s') (h' : Acks s' s'') (hlt : s.ackedSeqNr < 65536)
    (hlt' : s'.ackedSeqNr < 65536) (hlt'' : s''.ackedSeqNr < 65536) (hq : s.seqNr < 65536) :
    Acks s s'' := by
  have hm' := h'.moves
  rw [h.seqNr] at hm'
  obtain ⟨o, b, a, he⟩ := h.fields
  obtain ⟨o', b', a', he'⟩ := h'.fields
  exact ⟨⟨o', b', a', by rw [he', he]⟩, fun k p hk => h.outbuf k p (h'.outbuf k p hk),
    seqDist_trans hlt hlt' hlt'' hq h.moves hm'⟩

/-- One step of the loop of `maybe_inc_acked_seq_nr`. -/
theorem Window.inc (h : s.Window) (hnone : s.outbuf ((s.ackedSeqNr + 1) % 65536) = none)
    (hfin : s.state ≠ .finSent → (s.ackedSeqNr + 1) % 65536 ≠ s.seqNr)
    (hpos : 0 < s.ahead s.seqNr) :
    Window { s with ackedSeqNr := (s.ackedSeqNr + 1) % 65536 } := by
  have hq := h.seq_lt
  have ha := h.acked_lt
  have hnlt : (s.ackedSeqNr + 1) % 65536 < 65536 := Nat.mod_lt _ (by decide)
  have hstep : ∀ k < 65536, k ≠ s.ackedSeqNr →
      RingStore.dist 65536 ((s.ackedSeqNr + 1) % 65536) k + 1 = s.ahead k :=
    fun k hk hne => seqDist_succ ha hk hne
  have hseq := hstep s.seqNr hq ((seqDist_pos ha hq).mp hpos)
  refine ⟨hq, hnlt, h.key_lt, fun k p hk => ?_, fun hs => ?_, fun k hk h1 h2 => ?_⟩
  · have hk' := h.key_lt k p hk
    have hknext : k ≠ (s.ackedSeqNr + 1) % 65536 := by
      rintro rfl
      rw [hnone] at hk
      exact absurd hk (by simp)
    have hkpos : 0 < RingStore.dist 65536 ((s.ackedSeqNr + 1) % 65536) k :=
      (seqDist_pos hnlt hk').mpr hknext
    rcases h.inside k p hk with ⟨h1, h2⟩ | ⟨rfl, ht, hst, -⟩
    · have := hstep k hk' ((seqDist_pos ha hk').mp h1)
      exact .inl ⟨hkpos, show RingStore.dist 65536 _ k < RingStore.dist 65536 ((s.ackedSeqNr + 1) % 65536) s.seqNr by
        change RingStore.dist 65536 ((s.ackedSeqNr + 1) % 65536) k < _
        omega⟩
    · exact .inr ⟨rfl, ht, hst, hkpos⟩
  · exact (seqDist_pos hnlt hq).mpr (hfin hs).symm
  · change 2048 ≤ RingStore.dist 65536 ((s.ackedSeqNr + 1) % 65536) k at h1
    change RingStore.dist 65536 ((s.ackedSeqNr + 1) % 65536) k <
      RingStore.dist 65536 ((s.ackedSeqNr + 1) % 65536) s.seqNr at h2
    have hkne : k ≠ s.ackedSeqNr := by
      rintro rfl
      have hlt := seqDist_lt s.ackedSeqNr s.seqNr
      have hfar : RingStore.dist 65536 ((s.ackedSeqNr + 1) % 65536) s.ackedSeqNr = 65535 := by
        simp only [RingStore.dist]
        omega
      rw [ahead] at hseq
      omega
    have := hstep k hk hkne
    exact h.beyond k hk (by omega) (by omega)

/-- The loop of `maybe_inc_acked_seq_nr` has nothing more to do. -/
theorem Window.stuck (h : s.Window)
    (hstop : ¬ ((s.ackedSeqNr + 1) % 65536 ≠ s.ackLimit ∧
      s.outbuf ((s.ackedSeqNr + 1) % 65536) = none))
    (hmore : 2 ≤ s.ahead s.seqNr ∨ s.state = .finSent ∧ 0 < s.ahead s.seqNr) :
    s.outbuf ((s.ackedSeqNr + 1) % 65536) ≠ none := by
  intro hnone
  have hq := h.seq_lt
  have ha := h.acked_lt
  refine hstop ⟨?_, hnone⟩
  rw [ackLimit, and_ffff]
  split
  next hst =>
    have hne : s.seqNr ≠ s.ackedSeqNr :=
      (seqDist_pos ha hq).mp (hmore.elim (fun h2 => Nat.lt_of_lt_of_le (by decide) h2) (·.2))
    omega
  next hst =>
    have h2 : 2 ≤ s.ahead s.seqNr := hmore.resolve_right fun hc => hst hc.1
    intro hc
    rw [ahead, ← hc, seqDist_one ha] at h2
    omega

/-- What `maybe_inc_acked_seq_nr` does: `m_acked_seq_nr` moves, nothing else, and it stops in front of
a packet in `m_outbuf`. -/
theorem Window.incAckedSeqNr {fuel : ℕ} (h : s.Window) (hf : s.ahead s.seqNr ≤ fuel) :
    ∃ acked, incAckedSeqNr fuel s = { s with ackedSeqNr := acked } ∧
      Window { s with ackedSeqNr := acked } ∧ Front { s with ackedSeqNr := acked } ∧
      s.ahead acked + RingStore.dist 65536 acked s.seqNr = s.ahead s.seqNr ∧
      (s.outbuf ((s.ackedSeqNr + 1) % 65536) = none →
        2 ≤ s.ahead s.seqNr ∨ s.state = .finSent ∧ 0 < s.ahead s.seqNr → 0 < s.ahead acked) := by
  induction fuel generalizing s with
  | zero =>
    refine ⟨s.ackedSeqNr, rfl, h, fun h2 => ?_, ?_, fun _ h2 => by omega⟩
    · change 2 ≤ s.ahead s.seqNr at h2
      omega
    · rw [ahead, seqDist_self, Nat.zero_add, ahead]
  | succ fuel ih =>
    have hq := h.seq_lt
    have ha := h.acked_lt
    simp only [Sender.incAckedSeqNr, and_ffff]
    split
    next hcond =>
      obtain ⟨hlim, hnone⟩ := hcond
      have hpos : 0 < s.ahead s.seqNr := by
        by_cases hst : s.state = .finSent
        · refine (seqDist_pos ha hq).mpr fun hc => hlim ?_
          rw [ackLimit, if_pos hst, and_ffff, hc]
        · exact h.unsent hst
      have hw := h.inc hnone (fun hst => by rwa [ackLimit, if_neg hst] at hlim) hpos
      have hdec : RingStore.dist 65536 ((s.ackedSeqNr + 1) % 65536) s.seqNr + 1 = s.ahead s.seqNr :=
        seqDist_succ ha hq ((seqDist_pos ha hq).mp hpos)
      obtain ⟨acked, he, hw', hfr, hm, -⟩ := ih hw
        (show RingStore.dist 65536 ((s.ackedSeqNr + 1) % 65536) s.seqNr ≤ fuel by omega)
      change RingStore.dist 65536 ((s.ackedSeqNr + 1) % 65536) acked + RingStore.dist 65536 acked s.seqNr =
        RingStore.dist 65536 ((s.ackedSeqNr + 1) % 65536) s.seqNr at hm
      have hlt : acked < 65536 := hw'.acked_lt
      have hne : acked ≠ s.ackedSeqNr := by
        rintro rfl
        have hfar : RingStore.dist 65536 ((s.ackedSeqNr + 1) % 65536) s.ackedSeqNr = 65535 := by
          simp only [RingStore.dist]
          omega
        have := seqDist_lt s.ackedSeqNr s.seqNr
        rw [ahead] at hdec hpos
        omega
      have hone : RingStore.dist 65536 ((s.ackedSeqNr + 1) % 65536) acked + 1 = s.ahead acked :=
        seqDist_succ ha hlt hne
      exact ⟨acked, he, hw', hfr, by omega, fun _ _ => by omega⟩
    next hcond =>
      refine ⟨s.ackedSeqNr, rfl, h, fun h2 => h.stuck hcond (.inl h2), ?_,
        fun hnone h2 => absurd hnone (h.stuck hcond h2)⟩
      rw [ahead, seqDist_self, Nat.zero_add, ahead]

/-- The invariant: the books are right. -/
structure Books (s : Sender) : Prop where
  window : s.Window
  front : s.Front
  flight : s.bytesInFlight = s.inFlight
  fits : ∀ k p, s.outbuf k = some p → p.SackFits
  nagleFits : ∀ p, s.naglePacket = some p → p.SackFits ∧ p.needResend = false
  closed : s.state = .finSent → s.writeBuffer = [] ∧ s.naglePacket = none

theorem Books.maybeInc (h : s.Books) :
    s.maybeIncAckedSeqNr.Books ∧ Acks s s.maybeIncAckedSeqNr := by
  obtain ⟨acked, he, hw, hfr, hm, -⟩ := h.window.incAckedSeqNr (seqDist_lt _ _).le
  rw [maybeIncAckedSeqNr, he]
  exact ⟨⟨hw, hfr, h.flight, h.fits, h.nagleFits, h.closed⟩, ⟨⟨_, _, _, rfl⟩, fun _ _ hk => hk, hm⟩⟩

/-- A packet that is acknowledged leaves the books, if no packet further out than a selective ack
reaches is concerned. -/
theorem Books.removeAcked (h : s.Books) (hk : k < 65536)
    (hnear : s.outbuf k ≠ none → s.ahead k < 2048) :
    (s.removeAcked k).Books ∧ Acks s (s.removeAcked k) ∧
    (k = (s.ackedSeqNr + 1) % 65536 → s.outbuf k ≠ none →
      0 < s.ahead (s.removeAcked k).ackedSeqNr) := by
  have hw := h.window
  rw [Sender.removeAcked]
  split
  next hnone =>
    exact ⟨h, .refl hw.acked_lt, fun _ hc => absurd hnone hc⟩
  next p hp =>
    -- the packet is taken out, then `m_acked_seq_nr` moves
    have hout : ∀ l q, Function.update s.outbuf k none l = some q → s.outbuf l = some q := by
      intro l q hl
      have hne : l ≠ k := by
        rintro rfl
        exact absurd hl (by simp)
      rwa [Function.update_of_ne hne] at hl
    have hw₁ : Window { s with
        outbuf := Function.update s.outbuf k none
        bytesInFlight := s.bytesInFlight - p.inFlight } := by
      refine ⟨hw.seq_lt, hw.acked_lt, fun l q hl => hw.key_lt l q (hout l q hl),
        fun l q hl => hw.inside l q (hout l q hl), hw.unsent, fun l hl h1 h2 => ?_⟩
      have hne : l ≠ k := by
        rintro rfl
        exact absurd h1 (Nat.not_le.mpr (hnear (by simp [hp])))
      change Function.update s.outbuf k none l ≠ none
      rw [Function.update_of_ne hne]
      exact hw.beyond l hl h1 h2
    obtain ⟨acked, he, hw₂, hfr, hm, hprog⟩ := hw₁.incAckedSeqNr (seqDist_lt _ _).le
    rw [maybeIncAckedSeqNr, he]
    refine ⟨⟨hw₂, hfr, ?_, fun l q hl => h.fits l q (hout l q hl), h.nagleFits, h.closed⟩,
      ⟨⟨_, _, _, rfl⟩, hout, hm⟩, ?_⟩
    · have hupd := RingStore.total_update OutPacket.inFlight s.outbuf hk none
      rw [hp] at hupd
      simp only [Option.elim_none, Option.elim_some] at hupd
      change s.bytesInFlight - p.inFlight =
        (RingStore.total 65536 OutPacket.inFlight (Function.update s.outbuf k none) : ℕ)
      rw [h.flight, inFlight]
      omega
    · rintro rfl -
      refine hprog (Function.update_self _ _ _) ?_
      rcases hw.inside _ _ hp with ⟨h1, h2⟩ | ⟨-, -, hst, hpos⟩
      · exact .inl (Nat.succ_le_of_lt (Nat.lt_of_le_of_lt h1 h2))
      · exact .inr ⟨hst, hpos⟩

/-- The books of `s`, seen from a state `s₀` before. -/
structure Since (s₀ s : Sender) : Prop where
  books : s.Books
  acks : Acks s₀ s

theorem Since.trans {s₀ : Sender} (h : Since s₀ s) (hb : s'.Books) (ha : Acks s s')
    (h₀ : s₀.Window) : Since s₀ s' :=
  ⟨hb, h.acks.trans ha h₀.acked_lt h.books.window.acked_lt hb.window.acked_lt h₀.seq_lt⟩

/-- Where a packet in `m_outbuf` lies, seen from a number `u` behind `m_acked_seq_nr`. -/
theorem Window.from_behind (h : s.Window) {u : ℕ} (hu : u < 65536)
    (hm : RingStore.dist 65536 u s.ackedSeqNr + s.ahead s.seqNr = RingStore.dist 65536 u s.seqNr)
    (hk : k < 65536) (hp : s.outbuf k ≠ none) :
    RingStore.dist 65536 u s.ackedSeqNr + s.ahead k = RingStore.dist 65536 u k ∧ 0 < s.ahead k := by
  obtain ⟨p, hp⟩ := Option.ne_none_iff_exists'.mp hp
  have ha := h.acked_lt
  have hq := h.seq_lt
  have hin : 0 < s.ahead k ∧ s.ahead k ≤ s.ahead s.seqNr := by
    rcases h.inside k p hp with ⟨h1, h2⟩ | ⟨rfl, -, -, hpos⟩
    · exact ⟨h1, h2.le⟩
    · exact ⟨hpos, le_rfl⟩
  refine ⟨?_, hin.1⟩
  have hsum : ∀ {a b c : ℕ}, a < 65536 → b < 65536 → c < 65536 →
      RingStore.dist 65536 a b + RingStore.dist 65536 b c < 65536 →
        RingStore.dist 65536 a b + RingStore.dist 65536 b c = RingStore.dist 65536 a c := by
    intro a b c ha hb hc hlt
    simp only [RingStore.dist] at hlt ⊢
    omega
  refine hsum hu ha hk ?_
  have hlt := seqDist_lt u s.seqNr
  have h2 := hin.2
  simp only [ahead] at h2 hm
  omega

theorem Since.moves {s₀ : Sender} (h : Since s₀ s) :
    s₀.ahead s.ackedSeqNr + s.ahead s.seqNr = s₀.ahead s.seqNr := by
  have hm := h.acks.moves
  rwa [← h.acks.seqNr] at hm

theorem Since.removeAcked {s₀ : Sender} (h : Since s₀ s) (h₀ : s₀.Window) (hk : k < 65536)
    (hnear : s.outbuf k ≠ none → s.ahead k < 2048) :
    Since s₀ (s.removeAcked k) ∧
    s₀.ahead s.ackedSeqNr ≤ s₀.ahead (s.removeAcked k).ackedSeqNr ∧
    (k = (s.ackedSeqNr + 1) % 65536 → s.outbuf k ≠ none →
      s₀.ahead s.ackedSeqNr < s₀.ahead (s.removeAcked k).ackedSeqNr) := by
  obtain ⟨hb, ha, hprog⟩ := h.books.removeAcked hk hnear
  have hs' := h.trans hb ha h₀
  have hm := hs'.moves
  have hm₀ := h.moves
  have hm' := ha.moves
  rw [← ha.seqNr] at hm'
  rw [ha.seqNr] at hm hm'
  exact ⟨hs', by omega, fun h1 h2 => by have := hprog h1 h2; omega⟩

/-- The loop over the packets that are acknowledged. Seen from `s₀`, where it started, the next
number to remove is at most one past `m_acked_seq_nr`. -/
theorem Since.ackLoop {s₀ : Sender} (h₀ : s₀.Window) {n i : ℕ} (h : Since s₀ s) (hi : 1 ≤ i)
    (hend : i + n ≤ s₀.ahead s₀.seqNr + 1)
    (hpos : i ≤ s₀.ahead s.ackedSeqNr + 2 ∧ (n ≠ 0 → i ≤ s₀.ahead s.ackedSeqNr + 1)) :
    Since s₀ (ackLoop n ((s₀.ackedSeqNr + i) % 65536) s) ∧
    i + n ≤ s₀.ahead (ackLoop n ((s₀.ackedSeqNr + i) % 65536) s).ackedSeqNr + 2 := by
  induction n generalizing s i with
  | zero => exact ⟨h, hpos.1⟩
  | succ n ih =>
    have hw := h.books.window
    have hle := hpos.2 (Nat.succ_ne_zero n)
    have hlt := seqDist_lt s₀.ackedSeqNr s₀.seqNr
    have hi' : i < 65536 := by
      rw [ahead] at hend
      omega
    have hnr : (s₀.ackedSeqNr + i) % 65536 < 65536 := Nat.mod_lt _ (by decide)
    have hat : s₀.ahead ((s₀.ackedSeqNr + i) % 65536) = i := RingStore.dist_add h₀.acked_lt hi'
    have hseq := h.acks.seqNr
    have hm := h.moves
    -- one past `m_acked_seq_nr`, seen from `s₀`
    have hnext : i = s₀.ahead s.ackedSeqNr + 1 →
        (s₀.ackedSeqNr + i) % 65536 = (s.ackedSeqNr + 1) % 65536 := by
      intro he
      have hadd : (s₀.ackedSeqNr + s₀.ahead s.ackedSeqNr) % 65536 = s.ackedSeqNr :=
        RingStore.add_dist h₀.acked_lt hw.acked_lt
      omega
    have hstored : s.outbuf ((s₀.ackedSeqNr + i) % 65536) ≠ none → i = s₀.ahead s.ackedSeqNr + 1 := by
      intro hp
      obtain ⟨h1, h2⟩ := hw.from_behind h₀.acked_lt hm hnr hp
      have hat' : RingStore.dist 65536 s₀.ackedSeqNr ((s₀.ackedSeqNr + i) % 65536) = i := hat
      rw [hat'] at h1
      have hle' : i ≤ RingStore.dist 65536 s₀.ackedSeqNr s.ackedSeqNr + 1 := hle
      change i = RingStore.dist 65536 s₀.ackedSeqNr s.ackedSeqNr + 1
      omega
    obtain ⟨hs', hmono, hgo⟩ := h.removeAcked h₀ hnr fun hp => by
      rw [hnext (hstored hp), ahead, seqDist_one hw.acked_lt]
      decide
    have hpast : n ≠ 0 →
        i ≤ s₀.ahead (s.removeAcked ((s₀.ackedSeqNr + i) % 65536)).ackedSeqNr := by
      intro hn
      rcases Nat.lt_or_ge (s₀.ahead s.ackedSeqNr) i with hlt' | hge
      · have he : i = s₀.ahead s.ackedSeqNr + 1 := by omega
        -- more is outstanding, so the packet is there
        have hp : s.outbuf ((s₀.ackedSeqNr + i) % 65536) ≠ none := by
          rw [hnext he]
          refine h.books.front ?_
          rw [hseq] at hm ⊢
          omega
        have := hgo (hnext he) hp
        omega
      · omega
    have hsucc : ((s₀.ackedSeqNr + i) % 65536 + 1) &&& 0xffff = (s₀.ackedSeqNr + (i + 1)) % 65536 := by
      rw [and_ffff]
      omega
    rw [Sender.ackLoop, hsucc]
    obtain ⟨hr, hlast⟩ := ih hs' (Nat.le_add_left 1 i) (by omega) ⟨by omega, fun hn => by
      have := hpast hn
      omega⟩
    exact ⟨hr, by omega⟩

/-- The loop over the bits of a selective ack. Seen from a number `u` at least three behind
`m_acked_seq_nr`, it does not get to numbers as far out as 2048. -/
theorem Books.sackLoop {bits : List Bool} {u y : ℕ} (h : s.Books) (hu : u < 65536)
    (hm : RingStore.dist 65536 u s.ackedSeqNr + s.ahead s.seqNr = RingStore.dist 65536 u s.seqNr)
    (h3 : 3 ≤ RingStore.dist 65536 u s.ackedSeqNr) (hy : y + bits.length ≤ 2050) :
    (sackLoop bits ((u + y) % 65536) s).Books ∧ Acks s (sackLoop bits ((u + y) % 65536) s) := by
  induction bits generalizing s y with
  | nil => exact ⟨h, .refl h.window.acked_lt⟩
  | cons bit bits ih =>
    have hw := h.window
    rw [List.length_cons] at hy
    have hnr : (u + y) % 65536 < 65536 := Nat.mod_lt _ (by decide)
    have hat : RingStore.dist 65536 u ((u + y) % 65536) = y := RingStore.dist_add hu (by omega)
    have hnear : s.outbuf ((u + y) % 65536) ≠ none → s.ahead ((u + y) % 65536) < 2048 := by
      intro hp
      obtain ⟨h1, -⟩ := hw.from_behind hu hm hnr hp
      omega
    have hone : ∀ s', s' = (if bit then
        if s.outbuf ((u + y) % 65536) = none then s.maybeIncAckedSeqNr
        else s.removeAcked ((u + y) % 65536) else s) → s'.Books ∧ Acks s s' := by
      rintro _ rfl
      split
      next =>
        split
        next => exact h.maybeInc
        next =>
          obtain ⟨hb, ha, -⟩ := h.removeAcked hnr hnear
          exact ⟨hb, ha⟩
      next => exact ⟨h, .refl hw.acked_lt⟩
    simp only [Sender.sackLoop]
    generalize hs' : (if bit then
        if s.outbuf ((u + y) % 65536) = none then s.maybeIncAckedSeqNr
        else s.removeAcked ((u + y) % 65536) else s) = s'
    obtain ⟨hb, ha⟩ := hone s' hs'.symm
    split
    next => exact ⟨hb, ha⟩
    next =>
      have hsucc : ((u + y) % 65536 + 1) &&& 0xffff = (u + (y + 1)) % 65536 := by
        rw [and_ffff]
        omega
      have hseq := ha.seqNr
      have hmoves : s.ahead s'.ackedSeqNr + s'.ahead s.seqNr = s.ahead s.seqNr := ha.moves
      have hm' : RingStore.dist 65536 u s'.ackedSeqNr + s'.ahead s'.seqNr =
          RingStore.dist 65536 u s'.seqNr := by
        rw [hseq]
        exact seqDist_trans hu hw.acked_lt hb.window.acked_lt hw.seq_lt hm hmoves
      rw [hsucc]
      have h3' : 3 ≤ RingStore.dist 65536 u s'.ackedSeqNr := by
        rw [hseq] at hm'
        omega
      obtain ⟨hb', ha'⟩ := ih hb hm' h3' (show y + 1 + bits.length ≤ 2050 by omega)
      exact ⟨hb', ha.trans ha' hw.acked_lt hb.window.acked_lt hb'.window.acked_lt hw.seq_lt⟩

/-- No more numbers are out than packets, but for those a selective ack can have taken out. -/
theorem Window.bound (h : s.Window) : s.ahead s.seqNr ≤ PacketBuffer.stored s.outbuf + 2048 := by
  have hlt := seqDist_lt s.ackedSeqNr s.seqNr
  have hcard : (Finset.Ico 2048 (s.ahead s.seqNr)).card ≤ PacketBuffer.stored s.outbuf := by
    refine Finset.card_le_card_of_injOn (fun i => (s.ackedSeqNr + i) % 65536) ?_ ?_
    · intro i hi
      obtain ⟨h1, h2⟩ := Finset.mem_Ico.mp hi
      have hat : s.ahead ((s.ackedSeqNr + i) % 65536) = i :=
        RingStore.dist_add h.acked_lt (h2.trans hlt)
      have hk : (s.ackedSeqNr + i) % 65536 < 65536 := Nat.mod_lt _ (by decide)
      refine Finset.mem_filter.mpr ⟨Finset.mem_range.mpr hk, Option.isSome_iff_ne_none.mpr ?_⟩
      exact h.beyond _ hk (by rw [hat]; exact h1) (by rw [hat]; exact h2)
    · intro i hi j hj hij
      obtain ⟨-, hi2⟩ := Finset.mem_Ico.mp hi
      obtain ⟨-, hj2⟩ := Finset.mem_Ico.mp hj
      have hi' := RingStore.dist_add h.acked_lt (hi2.trans hlt)
      have hj' := RingStore.dist_add h.acked_lt (hj2.trans hlt)
      rw [← hi', ← hj']
      exact congrArg _ hij
  rw [Nat.card_Ico] at hcard
  omega

/-- `compare_less_wrap` against `m_acked_seq_nr - dup_ack_limit`, which may be negative. -/
theorem compareLessWrap_sub {a b : ℕ} (ha : a < 65536) (hb : b < 65536) :
    compareLessWrap b (sub32 a 3) 0xffff = true ↔
      32768 < RingStore.dist 65536 ((a + 65533) % 65536) b := by
  rw [compareLessWrap, decide_eq_true_iff, and_ffff, and_ffff]
  simp only [sub32, RingStore.dist]
  omega

/-- What the checks on `ack_nr` leave: it lies at most three behind `m_acked_seq_nr` and not past
`m_seq_nr`. -/
theorem ackNr_range {a q c ackNr : ℕ} (ha : a < 65536) (hq : q < 65536) (hn : ackNr < 65536)
    (hc : c = q ∨ c = (q + 65535) % 65536) (hD : RingStore.dist 65536 a q < 30000)
    (h1 : ¬ 32768 < RingStore.dist 65536 ackNr c)
    (h2 : ¬ 32768 < RingStore.dist 65536 ((a + 65533) % 65536) ackNr) :
    RingStore.dist 65536 a ackNr ≤ RingStore.dist 65536 a q ∨
      RingStore.dist 65536 ackNr a ≤ 3 ∧ ¬ 32768 < RingStore.dist 65536 ackNr a := by
  simp only [RingStore.dist] at *
  omega

/-- Seen from four before `ack_nr`, `m_acked_seq_nr` lies at least three ahead. -/
theorem ackNr_behind {a q u ackNr a' : ℕ} (ha : a < 65536) (hq : q < 65536) (hn : ackNr < 65536)
    (ha' : a' < 65536) (hu : u = (ackNr + 65532) % 65536) (hD : RingStore.dist 65536 a q < 30000)
    (hm : RingStore.dist 65536 a a' + RingStore.dist 65536 a' q = RingStore.dist 65536 a q)
    (hr : RingStore.dist 65536 a ackNr ≤ RingStore.dist 65536 a a' + 1 ∨
      RingStore.dist 65536 ackNr a ≤ 3) :
    3 ≤ RingStore.dist 65536 u a' ∧
    RingStore.dist 65536 u a' + RingStore.dist 65536 a' q = RingStore.dist 65536 u q := by
  -- `u` as seen from `a`, where all the other distances are known
  obtain ⟨z, hz, hzu⟩ : ∃ z, z ≤ 7 + RingStore.dist 65536 a a' ∧ 3 ≤ z ∧
      RingStore.dist 65536 u a' = z := by
    refine ⟨RingStore.dist 65536 u a', ?_, ?_, rfl⟩
    · rcases hr with hr | hr
      · simp only [hu, RingStore.dist] at hr hD hm ⊢
        omega
      · simp only [hu, RingStore.dist] at hr hD hm ⊢
        omega
    · rcases hr with hr | hr
      · simp only [hu, RingStore.dist] at hr hD hm ⊢
        omega
      · simp only [hu, RingStore.dist] at hr hD hm ⊢
        omega
  refine ⟨hzu.2 ▸ hzu.1, ?_⟩
  have hlt := seqDist_lt u q
  have hu' : u < 65536 := hu ▸ Nat.mod_lt _ (by decide)
  have hz' := hzu.2
  simp only [RingStore.dist] at hD hm hz hz' ⊢
  omega

theorem cmpSeqNr_eq (h : s.Window) (type : PacketType) :
    s.cmpSeqNr type = s.seqNr ∨ s.cmpSeqNr type = (s.seqNr + 65535) % 65536 := by
  have hq := h.seq_lt
  rw [cmpSeqNr]
  split
  next => exact .inl rfl
  next =>
    right
    rw [and_ffff, sub32]
    omega

/-- The cumulative ack. -/
theorem Books.ackPackets (h : s.Books) {ackNr : ℕ} (hn : ackNr < 65536)
    (hD : s.ahead s.seqNr < 30000)
    (hr : s.ahead ackNr ≤ s.ahead s.seqNr ∨
      RingStore.dist 65536 ackNr s.ackedSeqNr ≤ 3 ∧
        ¬ 32768 < RingStore.dist 65536 ackNr s.ackedSeqNr) :
    Since s (s.ackPackets ackNr) ∧
    (s.ahead ackNr ≤ s.ahead (s.ackPackets ackNr).ackedSeqNr + 1 ∨
      RingStore.dist 65536 ackNr s.ackedSeqNr ≤ 3) := by
  have hw := h.window
  have hself : Since s s := ⟨h, .refl hw.acked_lt⟩
  rw [Sender.ackPackets]
  split
  next hless =>
    have hd := (compareLessWrap_iff hw.acked_lt hn).mp hless
    have hpos : 0 < s.ahead ackNr ∧ s.ahead ackNr ≤ s.ahead s.seqNr := by
      have hd' : 32768 < RingStore.dist 65536 ackNr s.ackedSeqNr := hd
      have hr' := hr.resolve_right fun hc => hc.2 hd'
      refine ⟨(seqDist_pos hw.acked_lt hn).mpr ?_, hr'⟩
      rintro rfl
      rw [seqDist_self] at hd'
      omega
    have hcount : sub32 ackNr s.ackedSeqNr &&& 0xffff = s.ahead ackNr := sub32_and hw.acked_lt hn
    obtain ⟨hs, hreach⟩ := hself.ackLoop hw (le_refl 1)
      (show 1 + s.ahead ackNr ≤ s.ahead s.seqNr + 1 by omega) ⟨by omega, fun _ => by omega⟩
    rw [hcount, and_ffff]
    obtain ⟨hb, ha⟩ := hs.books.maybeInc
    have hs' := hs.trans hb ha hw
    refine ⟨hs', .inl ?_⟩
    have hm := hs.acks.moves
    have hm' := hs'.acks.moves
    have hm'' := ha.moves
    rw [hs.acks.seqNr] at hm''
    omega
  next hless =>
    refine ⟨hself, ?_⟩
    have hd : ¬ 32768 < RingStore.dist 65536 ackNr s.ackedSeqNr := fun hc =>
      hless ((compareLessWrap_iff hw.acked_lt hn).mpr hc)
    rcases hr with hr | ⟨hr, -⟩
    · -- a number ahead of `m_acked_seq_nr` and not past it is `m_acked_seq_nr` itself
      left
      have hself' := seqDist_self s.ackedSeqNr
      have hlt := hw.acked_lt
      simp only [ahead, RingStore.dist] at hD hr hd ⊢
      omega
    · exact .inr hr

/-- The SACK headers of a packet, seen from a number `u` at least three behind `m_acked_seq_nr`. -/
theorem Books.parseSacks {ackNr u : ℕ} {sacks : List (List UInt8)} (h : s.Books) (hu : u < 65536)
    (hstart : (ackNr + 2) % 65536 = (u + 6) % 65536)
    (hm : RingStore.dist 65536 u s.ackedSeqNr + s.ahead s.seqNr = RingStore.dist 65536 u s.seqNr)
    (h3 : 3 ≤ RingStore.dist 65536 u s.ackedSeqNr)
    (hsacks : ∀ bitfield ∈ sacks, bitfield.length ≤ 255) :
    (sacks.foldl (fun s bitfield => s.parseSack ackNr bitfield) s).Books ∧
    Acks s (sacks.foldl (fun s bitfield => s.parseSack ackNr bitfield) s) := by
  induction sacks generalizing s with
  | nil => exact ⟨h, .refl h.window.acked_lt⟩
  | cons bitfield sacks ih =>
    have hw := h.window
    have hlen : (sackBits bitfield).length ≤ 2040 := by
      have := hsacks bitfield List.mem_cons_self
      simp only [sackBits, List.length_flatMap, List.length_map, List.length_range,
        List.map_const', List.sum_replicate, smul_eq_mul]
      omega
    obtain ⟨hb, ha⟩ := h.sackLoop hu hm h3 (show 6 + (sackBits bitfield).length ≤ 2050 by omega)
    rw [← hstart, ← and_ffff] at hb ha
    change (s.parseSack ackNr bitfield).Books at hb
    change Acks s (s.parseSack ackNr bitfield) at ha
    rw [List.foldl_cons]
    generalize s.parseSack ackNr bitfield = s' at hb ha
    have hm' : RingStore.dist 65536 u s'.ackedSeqNr + s'.ahead s'.seqNr =
        RingStore.dist 65536 u s'.seqNr := by
      rw [ha.seqNr]
      exact seqDist_trans hu hw.acked_lt hb.window.acked_lt hw.seq_lt hm ha.moves
    have h3' : 3 ≤ RingStore.dist 65536 u s'.ackedSeqNr := by
      have hmoves : s.ahead s'.ackedSeqNr + s'.ahead s.seqNr = s.ahead s.seqNr := ha.moves
      rw [ha.seqNr] at hm'
      omega
    obtain ⟨hb', ha'⟩ := ih hb hm' h3' fun b hb => hsacks b (List.mem_cons_of_mem _ hb)
    exact ⟨hb', ha.trans ha' hw.acked_lt hb.window.acked_lt hb'.window.acked_lt hw.seq_lt⟩

/-- The acknowledgements of a packet of the other end, whatever it claims. -/
theorem Books.incomingAcks (h : s.Books) {ackNr : ℕ} (hn : ackNr < 65536)
    (hcount : PacketBuffer.stored s.outbuf < 2 ^ 14) (type : PacketType)
    {sacks : List (List UInt8)} (hsacks : ∀ bitfield ∈ sacks, bitfield.length ≤ 255) :
    (s.incomingAcks type ackNr sacks).Books ∧ Acks s (s.incomingAcks type ackNr sacks) := by
  have hw := h.window
  have hD : s.ahead s.seqNr < 30000 := by
    have := hw.bound
    omega
  simp only [Sender.incomingAcks]
  split
  next => exact ⟨h, .refl hw.acked_lt⟩
  next hvalid =>
    rw [Bool.or_eq_true, not_or] at hvalid
    obtain ⟨h1, h2⟩ := hvalid
    have hc := cmpSeqNr_eq hw type
    have hclt : s.cmpSeqNr type < 65536 := by
      have := hw.seq_lt
      omega
    have hr := ackNr_range hw.acked_lt hw.seq_lt hn hc hD
      (fun hc => h1 ((compareLessWrap_iff hclt hn).mpr hc))
      (fun hc => h2 ((compareLessWrap_sub hw.acked_lt hn).mpr hc))
    obtain ⟨hs, hreach⟩ := h.ackPackets hn hD hr
    obtain ⟨h3, hm⟩ := ackNr_behind hw.acked_lt hw.seq_lt hn hs.books.window.acked_lt rfl hD
      hs.acks.moves hreach
    rw [← hs.acks.seqNr] at hm
    obtain ⟨hb, ha⟩ := hs.books.parseSacks (Nat.mod_lt _ (by decide))
      (show (ackNr + 2) % 65536 = ((ackNr + 65532) % 65536 + 6) % 65536 by omega) hm h3 hsacks
    exact ⟨hb, (hs.trans hb ha hw).acks⟩

/-! ### Resending -/

/-- The keys and types of the packets in `m_outbuf`, and what else resending leaves alone. -/
structure Resends (s s' : Sender) : Prop where
  fields : ∃ outbuf bytesInFlight stalled wire,
    s' = { s with outbuf, bytesInFlight, stalled, wire }
  types : ∀ k, (s'.outbuf k).map OutPacket.type = (s.outbuf k).map OutPacket.type

theorem Resends.refl (s : Sender) : Resends s s := ⟨⟨_, _, _, _, rfl⟩, fun _ => rfl⟩

theorem Resends.trans {s'' : Sender} (h : Resends s s') (h' : Resends s' s'') : Resends s s'' := by
  obtain ⟨_, _, _, _, he⟩ := h.fields
  obtain ⟨o, b, st, w, he'⟩ := h'.fields
  exact ⟨⟨o, b, st, w, by rw [he', he]⟩, fun k => (h'.types k).trans (h.types k)⟩

theorem Resends.none_iff (h : Resends s s') (k : ℕ) : s'.outbuf k = none ↔ s.outbuf k = none := by
  have := h.types k
  cases h1 : s.outbuf k <;> cases h2 : s'.outbuf k <;> simp_all

theorem Resends.some_type (h : Resends s s') {q : OutPacket} (hq : s'.outbuf k = some q) :
    ∃ p, s.outbuf k = some p ∧ q.type = p.type := by
  have ht := h.types k
  rw [hq] at ht
  cases hp : s.outbuf k with
  | none => rw [hp] at ht; exact absurd ht (by simp)
  | some p =>
    rw [hp] at ht
    exact ⟨p, rfl, Option.some.inj ht⟩

theorem Window.resends (h : s.Window) (hr : Resends s s') : s'.Window := by
  have hnone := hr.none_iff
  have htype : ∀ k q, s'.outbuf k = some q → ∃ p, s.outbuf k = some p ∧ q.type = p.type :=
    fun k q hq => hr.some_type hq
  obtain ⟨o, b, st, w, rfl⟩ := hr.fields
  refine ⟨h.seq_lt, h.acked_lt, fun k q hq => ?_, fun k q hq => ?_, h.unsent, fun k hk h1 h2 hc => ?_⟩
  · obtain ⟨p, hp, -⟩ := htype k q hq
    exact h.key_lt k p hp
  · obtain ⟨p, hp, ht⟩ := htype k q hq
    rcases h.inside k p hp with hin | ⟨h1, h2, h3⟩
    · exact .inl hin
    · exact .inr ⟨h1, ht.trans h2, h3⟩
  · exact h.beyond k hk h1 h2 ((hnone k).mp hc)

/-- One packet is replaced by the same one, with other headers or another mark. -/
theorem Books.replace (h : s.Books) (hp : s.outbuf k = some p) {q : OutPacket}
    (ht : q.type = p.type) (hq : q.SackFits) {b : ℤ} (stalled : Bool) (wire : List OutPacket)
    (hb : b = s.bytesInFlight - p.inFlight + q.inFlight) :
    Books { s with
      outbuf := Function.update s.outbuf k (some q), bytesInFlight := b, stalled, wire } ∧
    Resends s { s with
      outbuf := Function.update s.outbuf k (some q), bytesInFlight := b, stalled, wire } := by
  have hr : Resends s { s with
      outbuf := Function.update s.outbuf k (some q), bytesInFlight := b, stalled, wire } := by
    refine ⟨⟨_, _, _, _, rfl⟩, fun l => ?_⟩
    change (Function.update s.outbuf k (some q) l).map OutPacket.type = _
    by_cases hl : l = k
    · rw [hl, Function.update_self, hp, Option.map_some, Option.map_some, ht]
    · rw [Function.update_of_ne hl]
  have hk := h.window.key_lt k p hp
  refine ⟨⟨h.window.resends hr, fun h2 hc => h.front h2 ((hr.none_iff _).mp hc), ?_,
    fun l r hl => ?_, h.nagleFits, h.closed⟩, hr⟩
  · have hupd := RingStore.total_update OutPacket.inFlight s.outbuf hk (some q)
    rw [hp] at hupd
    simp only [Option.elim_some] at hupd
    change b = (RingStore.total 65536 OutPacket.inFlight (Function.update s.outbuf k (some q)) : ℕ)
    have hf := h.flight
    rw [inFlight] at hf
    omega
  · change Function.update s.outbuf k (some q) l = some r at hl
    by_cases hlk : l = k
    · rw [hlk, Function.update_self] at hl
      exact Option.some.inj hl ▸ hq
    · rw [Function.update_of_ne hlk] at hl
      exact h.fits l r hl

/-- What `resend_packet` does: the socket fails, or the books stay right. -/
theorem Books.resendPacket (h : s.Books) (hp : s.outbuf nr = some p) (fastResend : Bool)
    (rx : RecvSide) (inp : ResendInput) :
    (s.resendPacket nr p fastResend rx inp).1.state = .errorWait ∧
      (s.resendPacket nr p fastResend rx inp).2 = false ∨
    (s.resendPacket nr p fastResend rx inp).1.Books ∧
      Resends s (s.resendPacket nr p fastResend rx inp).1 := by
  obtain ⟨hfits, hsize, htype⟩ := (h.fits nr p hp).refreshSack rx
  have hq : OutPacket.SackFits { p.refreshSack rx with needResend := false, ackNr := rx.ackNr } :=
    ⟨hfits.header_le, hfits.sack⟩
  have hq' : OutPacket.SackFits { p.refreshSack rx with needResend := true, ackNr := rx.ackNr } :=
    ⟨hfits.header_le, hfits.sack⟩
  have hpay : (p.refreshSack rx).size - (p.refreshSack rx).headerSize = p.payloadSize := hsize
  rw [Sender.resendPacket]
  split
  next => exact .inr ⟨h, .refl s⟩
  split
  next => exact .inr ⟨h, .refl s⟩
  next =>
    dsimp only
    split
    next =>
      right
      refine h.replace (q := { p.refreshSack rx with needResend := false, ackNr := rx.ackNr }) hp htype
        hq s.stalled _ ?_
      simp only [OutPacket.inFlight, OutPacket.payloadSize, hpay]
      split <;> simp
    next =>
      right
      refine h.replace (q := { p.refreshSack rx with needResend := true, ackNr := rx.ackNr }) hp htype
        hq' true _ ?_
      simp only [OutPacket.inFlight, OutPacket.payloadSize, hpay]
      split <;> simp
    next => exact .inl ⟨rfl, rfl⟩
    next => exact .inl ⟨rfl, rfl⟩

theorem Books.resendLoop (h : s.Books) (rx : RecvSide) (inp : ℕ → ResendInput) (force : Bool)
    (fuel i : ℕ) :
    (resendLoop rx inp force fuel i s).1.state = .errorWait ∧
      (resendLoop rx inp force fuel i s).2 = false ∨
    (resendLoop rx inp force fuel i s).1.Books ∧ Resends s (resendLoop rx inp force fuel i s).1 := by
  induction fuel generalizing s i with
  | zero => exact .inr ⟨h, .refl s⟩
  | succ fuel ih =>
    simp only [Sender.resendLoop]
    split
    next => exact .inr ⟨h, .refl s⟩
    split
    next => exact ih h _
    next p hp =>
      split
      next => exact ih h _
      next =>
        rcases h.resendPacket hp false rx (inp i) with ⟨herr, hret⟩ | ⟨hb, hr⟩
        · left
          rw [hret]
          simp [herr]
        · split
          next =>
            rcases ih hb ((i + 1) &&& 0xffff) with herr | ⟨hb', hr'⟩
            · exact .inl herr
            · exact .inr ⟨hb', hr.trans hr'⟩
          next =>
            right
            split
            next => exact ⟨hb, hr⟩
            split
            next => exact ⟨hb, hr⟩
            split
            next => exact ⟨hb, hr⟩
            next => exact ⟨hb, hr⟩

end Sender

end Utp

end LibtorrentSN
