import LibtorrentSN.Utp.Bookkeeping

/-!
# Runs of the sender

The books stay right through `send_pkt`, `send_fin` and the sweep of `tick`, so they are right after
every step of a run. A step is one of the calls that the entry points of `utp_socket_impl` are made
of: `close`, `writable`, `issue_write`, `write_some`, `socket_drained`, `tick` and `incoming_packet`
are sequences of them, in which `send_fin` always comes last.
-/

namespace LibtorrentSN

namespace Utp

namespace Sender

variable {s s' : Sender} {k nr : ℕ} {p q : OutPacket} {inp : SendInput}

/-! ### The sweep -/

theorem Books.sweepLoop {n : ℕ} (h : s.Books) (hnr : nr < 65536) :
    (sweepLoop n nr s).Books ∧ Resends s (sweepLoop n nr s) ∧
    ∀ k p, (sweepLoop n nr s).outbuf k = some p →
      (∃ i < n, k = (nr + i) % 65536) ∨ (∃ q, s.outbuf k = some q ∧ q.needResend) → p.needResend := by
  induction n generalizing s nr with
  | zero =>
    refine ⟨h, .refl s, fun k p hp hk => ?_⟩
    rcases hk with ⟨i, hi, -⟩ | ⟨q, hq, hr⟩
    · omega
    · change s.outbuf k = some p at hp
      rw [hp] at hq
      exact Option.some.inj hq ▸ hr
  | succ n ih =>
    have hlt : (nr + 1) % 65536 < 65536 := Nat.mod_lt _ (by decide)
    -- a number of the range is `nr`, or one of those that follow
    have hrange : ∀ {k : ℕ}, (∃ i < n + 1, k = (nr + i) % 65536) →
        k = nr ∨ ∃ i < n, k = ((nr + 1) % 65536 + i) % 65536 := by
      rintro k ⟨i, hi, rfl⟩
      cases i with
      | zero => exact .inl (by omega)
      | succ i => exact .inr ⟨i, by omega, by omega⟩
    simp only [Sender.sweepLoop, and_ffff]
    split
    next hnone =>
      obtain ⟨hb, hr, hmark⟩ := ih h hlt
      refine ⟨hb, hr, fun k p hp hk => hmark k p hp ?_⟩
      rcases hk with hk | hk
      · rcases hrange hk with rfl | hk
        · rw [(hr.none_iff k).mpr hnone] at hp
          exact absurd hp (by simp)
        · exact .inl hk
      · exact .inr hk
    next q hq =>
      split
      next hneed =>
        obtain ⟨hb, hr, hmark⟩ := ih h hlt
        refine ⟨hb, hr, fun k p hp hk => hmark k p hp ?_⟩
        rcases hk with hk | hk
        · rcases hrange hk with rfl | hk
          · exact .inr ⟨q, hq, hneed⟩
          · exact .inl hk
        · exact .inr hk
      next hneed =>
        have hfits := h.fits nr q hq
        obtain ⟨hb₁, hr₁⟩ := h.replace (q := { q with needResend := true }) hq rfl
          ⟨hfits.header_le, hfits.sack⟩ s.stalled s.wire
          (show s.bytesInFlight - q.payloadSize = _ by simp [OutPacket.inFlight, hneed])
        obtain ⟨hb, hr, hmark⟩ := ih hb₁ hlt
        refine ⟨hb, hr₁.trans hr, fun k p hp hk => hmark k p hp ?_⟩
        have hself : k = nr → ∃ r, Function.update s.outbuf nr (some { q with needResend := true }) k =
            some r ∧ r.needResend := by
          rintro rfl
          exact ⟨_, Function.update_self _ _ _, rfl⟩
        rcases hk with hk | ⟨r, hr, hneed'⟩
        · rcases hrange hk with hk | hk
          · exact .inr (hself hk)
          · exact .inl hk
        · right
          by_cases hkn : k = nr
          · exact hself hkn
          · exact ⟨r, (Function.update_of_ne hkn _ _).trans hr, hneed'⟩

/-- After the sweep nothing is in flight. -/
theorem Books.sweep (h : s.Books) (hD : s.ahead s.seqNr < 65535) :
    s.sweep.Books ∧ Resends s s.sweep ∧ s.sweep.bytesInFlight = 0 := by
  have hw := h.window
  obtain ⟨hb, hr, hmark⟩ := h.sweepLoop (n := sub32 (s.seqNr + 1) s.ackedSeqNr &&& 0xffff) hw.acked_lt
  refine ⟨hb, hr, ?_⟩
  have hzero : ∀ k p, s.sweep.outbuf k = some p → p.inFlight = 0 := by
    intro k p hp
    obtain ⟨p₀, hp₀, -⟩ := hr.some_type hp
    have hk := hw.key_lt k p₀ hp₀
    have hneed : p.needResend := by
      refine hmark k p hp (.inl ⟨s.ahead k, ?_, (RingStore.add_dist hw.acked_lt hk).symm⟩)
      have hle : s.ahead k ≤ s.ahead s.seqNr := by
        rcases hw.inside k p₀ hp₀ with ⟨-, h2⟩ | ⟨rfl, -⟩
        · exact h2.le
        · exact le_rfl
      have hne : 0 < s.ahead k := by
        rcases hw.inside k p₀ hp₀ with ⟨h1, -⟩ | ⟨rfl, -, -, h1⟩
        · exact h1
        · exact h1
      have hlt := hw.acked_lt
      have hq := hw.seq_lt
      rw [and_ffff]
      simp only [ahead, RingStore.dist, sub32] at hD hle hne ⊢
      omega
    rw [OutPacket.inFlight, if_pos hneed]
  have hflight : s.sweep.bytesInFlight = s.sweep.inFlight := hb.flight
  rw [hflight]
  have htotal : s.sweep.inFlight = 0 := by
    rw [inFlight, RingStore.total]
    refine Finset.sum_eq_zero fun k _ => ?_
    cases hp : s.sweep.outbuf k with
    | none => rfl
    | some p => exact hzero k p hp
  exact_mod_cast htotal

/-! ### Sending -/

/-- The books do not depend on the user's buffers. -/
theorem Books.congr (h : s.Books) (hst : s'.state = s.state) (hq : s'.seqNr = s.seqNr)
    (ha : s'.ackedSeqNr = s.ackedSeqNr) (ho : s'.outbuf = s.outbuf)
    (hb : s'.bytesInFlight = s.bytesInFlight)
    (hn : ∀ p, s'.naglePacket = some p → p.SackFits ∧ p.needResend = false)
    (hc : s'.state = .finSent → s'.writeBuffer = [] ∧ s'.naglePacket = none) : s'.Books := by
  have hw := h.window
  have hahead : ∀ k, s'.ahead k = s.ahead k := fun k => by rw [ahead, ahead, ha]
  refine ⟨⟨hq ▸ hw.seq_lt, ha ▸ hw.acked_lt, fun k p hk => hw.key_lt k p (ho ▸ hk), fun k p hk => ?_,
    fun hs => ?_, fun k hk h1 h2 => ?_⟩, fun h2 => ?_, ?_, fun k p hk => h.fits k p (ho ▸ hk), hn, hc⟩
  · rw [hahead, hahead, hq, hst]
    exact hw.inside k p (ho ▸ hk)
  · rw [hahead, hq]
    exact hw.unsent (hst ▸ hs)
  · rw [hahead, hahead, hq] at h2
    rw [hahead] at h1
    rw [ho]
    exact hw.beyond k hk h1 h2
  · rw [hahead, hq] at h2
    rw [ho, ha]
    exact h.front h2
  · rw [hb, h.flight, inFlight, inFlight, ho]

/-- A packet with payload is put into `m_outbuf` and `m_seq_nr` moves on. -/
theorem Books.push (h : s.Books) (hst : s.state ≠ .finSent) (hD : s.ahead s.seqNr < 65535)
    (hq : q.SackFits) {b : ℤ} (hb : b = s.bytesInFlight + q.inFlight) :
    Books { s with
      outbuf := Function.update s.outbuf s.seqNr (some q)
      bytesInFlight := b
      seqNr := (s.seqNr + 1) % 65536 } := by
  have hw := h.window
  have hpos := hw.unsent hst
  have hseq := hw.seq_lt
  -- `m_seq_nr` moves one further from `m_acked_seq_nr`
  have hnext : s.ahead ((s.seqNr + 1) % 65536) = s.ahead s.seqNr + 1 := by
    have ha := hw.acked_lt
    simp only [ahead, RingStore.dist] at hD ⊢
    omega
  have hfree : s.outbuf s.seqNr = none := by
    cases hp : s.outbuf s.seqNr with
    | none => rfl
    | some p =>
      rcases hw.inside _ _ hp with ⟨-, h2⟩ | ⟨-, -, hc, -⟩
      · omega
      · exact absurd hc hst
  refine ⟨⟨Nat.mod_lt _ (by decide), hw.acked_lt, fun k p hk => ?_, fun k p hk => ?_, fun _ => ?_,
    fun k hk h1 h2 => ?_⟩, fun h2 => ?_, ?_, fun k p hk => ?_, h.nagleFits, fun hc => absurd hc hst⟩
  · change Function.update s.outbuf s.seqNr (some q) k = some p at hk
    by_cases hks : k = s.seqNr
    · exact hks ▸ hseq
    · exact hw.key_lt k p (by rwa [Function.update_of_ne hks] at hk)
  · change Function.update s.outbuf s.seqNr (some q) k = some p at hk
    left
    change 0 < s.ahead k ∧ s.ahead k < s.ahead ((s.seqNr + 1) % 65536)
    rw [hnext]
    by_cases hks : k = s.seqNr
    · rw [hks]
      omega
    · rw [Function.update_of_ne hks] at hk
      rcases hw.inside k p hk with ⟨h1, h2⟩ | ⟨hc, -⟩
      · omega
      · exact absurd hc hks
  · change 0 < s.ahead ((s.seqNr + 1) % 65536)
    omega
  · change Function.update s.outbuf s.seqNr (some q) k ≠ none
    change s.ahead k < s.ahead ((s.seqNr + 1) % 65536) at h2
    by_cases hks : k = s.seqNr
    · rw [hks, Function.update_self]
      exact Option.some_ne_none q
    · rw [Function.update_of_ne hks]
      refine hw.beyond k hk h1 (lt_of_le_of_ne (by omega) fun hc => hks ?_)
      exact seqDist_inj hw.acked_lt hk hseq hc
  · change Function.update s.outbuf s.seqNr (some q) ((s.ackedSeqNr + 1) % 65536) ≠ none
    by_cases hks : (s.ackedSeqNr + 1) % 65536 = s.seqNr
    · rw [hks, Function.update_self]
      exact Option.some_ne_none q
    · rw [Function.update_of_ne hks]
      refine h.front (Nat.succ_le_of_lt (lt_of_le_of_ne hpos fun hc => hks ?_))
      refine seqDist_inj hw.acked_lt (Nat.mod_lt _ (by decide)) hseq ?_
      rw [seqDist_one hw.acked_lt]
      exact hc
  · have hupd := RingStore.total_update OutPacket.inFlight s.outbuf hseq (some q)
    rw [hfree] at hupd
    simp only [Option.elim_none, Option.elim_some] at hupd
    change b = (RingStore.total 65536 OutPacket.inFlight
      (Function.update s.outbuf s.seqNr (some q)) : ℕ)
    have hf := h.flight
    rw [inFlight] at hf
    omega
  · change Function.update s.outbuf s.seqNr (some q) k = some p at hk
    by_cases hks : k = s.seqNr
    · rw [hks, Function.update_self] at hk
      exact Option.some.inj hk ▸ hq
    · exact h.fits k p (by rwa [Function.update_of_ne hks] at hk)

theorem Books.free (h : s.Books) (hst : s.state ≠ .finSent) : s.outbuf s.seqNr = none := by
  cases hp : s.outbuf s.seqNr with
  | none => rfl
  | some p =>
    rcases h.window.inside _ _ hp with ⟨-, h2⟩ | ⟨-, -, hc, -⟩
    · omega
    · exact absurd hc hst

/-- `transmit` for a packet that is not a FIN. -/
theorem Books.transmit (h : s.Books) (hp : p.SackFits) (hneed : p.needResend = false)
    (hpay : p.headerSize < p.size → s.state ≠ .finSent ∧ s.ahead s.seqNr < 65535) :
    (transmit s p false inp).state = .errorWait ∨
    (transmit s p false inp).Books ∧ (transmit s p false inp).state = s.state := by
  have hkeep : ∀ stalled wire, Books { s with stalled, wire } := fun stalled wire =>
    h.congr rfl rfl rfl rfl rfl h.nagleFits h.closed
  -- the packet with payload, in flight or to be resent
  have hpush : ∀ (needResend stalled : Bool) (wire : List OutPacket) (nagleSeqNr count : ℕ) (b : ℤ),
      p.headerSize < p.size →
      b = s.bytesInFlight + (OutPacket.inFlight { p with needResend := needResend } : ℕ) →
      Books { s with
        outbuf := Function.update s.outbuf s.seqNr
          (some { p with ackNr := inp.rx.ackNr, needResend := needResend })
        bytesInFlight := b
        seqNr := (s.seqNr + 1) % 65536
        stalled, wire, nagleSeqNr, count } := by
    intro needResend stalled wire nagleSeqNr count b hlt hb
    obtain ⟨hst, hD⟩ := hpay hlt
    exact (h.push (q := { p with ackNr := inp.rx.ackNr, needResend := needResend })
      hst hD ⟨hp.header_le, hp.sack⟩ hb).congr rfl rfl rfl rfl rfl h.nagleFits h.closed
  have hfree : p.headerSize < p.size →
      ((s.outbuf s.seqNr).map OutPacket.inFlight).getD 0 = 0 := by
    intro hlt
    rw [h.free (hpay hlt).1]
    rfl
  simp only [Sender.transmit, insertPacket, and_ffff]
  split
  next => exact .inl rfl
  next => exact .inl rfl
  next =>
    right
    split
    next hlt =>
      have hq : p = { p with needResend := false } := by rw [← hneed]
      refine ⟨?_, rfl⟩
      rw [hq]
      refine hpush false _ _ _ _ _ hlt ?_
      simp only [hfree hlt, OutPacket.inFlight, OutPacket.payloadSize]
      simp
    next => exact ⟨hkeep _ _, rfl⟩
  next =>
    right
    split
    next hlt =>
      refine ⟨hpush true _ _ _ _ _ hlt ?_, rfl⟩
      simp only [hfree hlt, OutPacket.inFlight]
      simp
    next => exact ⟨hkeep _ _, rfl⟩

theorem sackSize_le (s : Sender) (inp : SendInput) : s.sackSize inp ≤ 255 := by
  have := inp.span_le
  rw [sackSize]
  split <;> omega

/-- The extension headers are written where there is room for them. -/
theorem writeExtensions_fits (hp : p.headerSize ≤ p.size) {sack : ℕ} (rx : RecvSide)
    (hsack : sack ≠ 0 → sack ≤ 255 ∧ sack + 22 ≤ p.headerSize)
    (hext : sack = 0 → p.extension ≠ sackExtension) :
    (s.writeExtensions rx sack p).SackFits := by
  refine ⟨hp, fun he => ?_⟩
  have hne : sack ≠ 0 := fun hc => hext hc he
  obtain ⟨hle, hfit⟩ := hsack hne
  have hbyte : (sack.toUInt8).toNat = sack := by
    rw [Nat.toUInt8, UInt8.toNat_ofNat']
    omega
  -- the first two bytes are the next extension and the size of the bitfield
  have hbody : ∀ (next : UInt8) (bits tail : List UInt8), next ≠ sackExtension →
      ∀ body, body = overwrite p.body 0 (next :: sack.toUInt8 :: bits) ∨
        body = overwrite (overwrite p.body 0 (next :: sack.toUInt8 :: bits)) (sack + 2) tail →
      2 ≤ body.length ∧ body.getD 0 0 ≠ sackExtension ∧ 0 < (body.getD 1 0).toNat ∧
        (body.getD 1 0).toNat + 22 ≤ p.headerSize := by
    intro next bits tail hnext body hb
    have hlen : 2 ≤ (overwrite p.body 0 (next :: sack.toUInt8 :: bits)).length :=
      le_trans (by simp) (length_overwrite _ _ _).2
    have h0 : (overwrite p.body 0 (next :: sack.toUInt8 :: bits)).getD 0 0 = next :=
      getD_overwrite_zero (by simp)
    have h1 : (overwrite p.body 0 (next :: sack.toUInt8 :: bits)).getD 1 0 = sack.toUInt8 :=
      getD_overwrite_zero (by simp)
    rcases hb with rfl | rfl
    · rw [h0, h1, hbyte]
      exact ⟨hlen, hnext, by omega, by omega⟩
    · generalize overwrite p.body 0 (next :: sack.toUInt8 :: bits) = buf at hlen h0 h1 ⊢
      have h0' : (overwrite buf (sack + 2) tail).getD 0 0 = next := by
        rw [getD_overwrite_lt (by omega) (by omega), h0]
      have h1' : (overwrite buf (sack + 2) tail).getD 1 0 = sack.toUInt8 := by
        rw [getD_overwrite_lt (by omega) (by omega), h1]
      rw [h0', h1', hbyte]
      exact ⟨hlen.trans (length_overwrite _ _ _).1, hnext, by omega, by omega⟩
  simp only [writeExtensions, if_pos hne]
  split
  next => exact hbody _ _ _ (by decide) _ (.inr rfl)
  next => exact hbody _ _ [] (by decide) _ (.inl rfl)

/-- A new packet, with its extension headers. -/
theorem newPacket_fits (s s' : Sender) (inp : SendInput) (payload : ℕ) :
    (s'.writeExtensions inp.rx (s.sackSize inp) (s.newPacket inp payload)).SackFits := by
  refine writeExtensions_fits (Nat.le_add_right _ _) inp.rx (fun hne => ⟨sackSize_le s inp, ?_⟩)
    fun h0 => ?_
  · simp only [newPacket, newHeaderSize, if_pos hne]
    omega
  · simp only [newPacket, if_neg (not_not.mpr h0)]
    split <;> decide

/-- A nagle packet that has been picked up and filled. -/
theorem fill_fits (hp : p.SackFits) (rx : RecvSide) (n : ℕ) :
    (s.fill (pickedUp p rx) n).SackFits ∧
    ∀ s' : Sender, (s'.writeExtensions rx (pickedUpSack p rx) (s.fill (pickedUp p rx) n)).SackFits := by
  by_cases he : p.extension = sackExtension
  · obtain ⟨hlen, hnext, hpos, hfit⟩ := hp.sack he
    have hle := hp.header_le
    by_cases hany : rx.any
    · -- the SACK header stays
      have hup : pickedUp p rx = p := by
        rw [pickedUp, if_neg]
        simp [hany]
      have hsack : pickedUpSack p rx = (p.body.getD 1 0).toNat := by
        rw [pickedUpSack, if_pos ⟨he, hany⟩]
      have hbyte : (p.body.getD 1 0).toNat < 256 := UInt8.toNat_lt _
      rw [hup, hsack]
      refine ⟨⟨hle.trans (Nat.le_add_right _ _), fun _ => ?_⟩, fun s' =>
        writeExtensions_fits (p := s.fill p n) (hle.trans (Nat.le_add_right _ _)) rx
          (fun _ => ⟨by omega, hfit⟩) fun h0 => by omega⟩
      simp only [fill]
      rw [getD_overwrite_lt (by omega) (by omega), getD_overwrite_lt (by omega) (by omega)]
      exact ⟨hlen.trans (length_overwrite _ _ _).1, hnext, hpos, hfit⟩
    · -- it is removed
      have hup : pickedUp p rx = p.removeSackHeader := by
        rw [pickedUp, if_pos]
        exact ⟨he, by simp [hany]⟩
      have hsack : pickedUpSack p rx = 0 := by
        rw [pickedUpSack, if_neg fun hc => hany hc.2]
      obtain ⟨hf, -⟩ := hp.removeSackHeader he
      rw [hup, hsack]
      exact ⟨⟨hf.header_le.trans (Nat.le_add_right _ _), fun hc => absurd hc hnext⟩, fun s' =>
        writeExtensions_fits (p := s.fill p.removeSackHeader n) (hf.header_le.trans (Nat.le_add_right _ _)) rx
          (fun hc => absurd rfl hc) fun _ => hnext⟩
  · have hup : pickedUp p rx = p := by
      rw [pickedUp, if_neg fun hc => he hc.1]
    have hsack : pickedUpSack p rx = 0 := by
      rw [pickedUpSack, if_neg fun hc => he hc.1]
    rw [hup, hsack]
    exact ⟨⟨hp.header_le.trans (Nat.le_add_right _ _), fun hc => absurd hc he⟩, fun s' =>
      writeExtensions_fits (p := s.fill p n) (hp.header_le.trans (Nat.le_add_right _ _)) rx
        (fun hc => absurd rfl hc) fun _ => he⟩

theorem pickedUp_needResend (p : OutPacket) (rx : RecvSide) :
    (pickedUp p rx).needResend = p.needResend := by
  rw [pickedUp]
  split <;> rfl

theorem Resends.same (h : Resends s s') :
    s'.state = s.state ∧ s'.seqNr = s.seqNr ∧ s'.ackedSeqNr = s.ackedSeqNr ∧
      s'.writeBuffer = s.writeBuffer ∧ s'.naglePacket = s.naglePacket ∧ s'.outEof = s.outEof := by
  obtain ⟨_, _, _, _, rfl⟩ := h.fields
  exact ⟨rfl, rfl, rfl, rfl, rfl, rfl⟩

theorem Books.writePayload (h : s.Books) (n : ℕ) : (s.writePayload n).Books :=
  h.congr rfl rfl rfl rfl rfl h.nagleFits fun hc => by
    obtain ⟨hwb, hn⟩ := h.closed hc
    exact ⟨by simp [Sender.writePayload, hwb], hn⟩

/-- `send_pkt`, without `pkt_fin`. -/
theorem Books.sendPkt (h : s.Books) (hD : s.ahead s.seqNr < 65535) (ack : Bool) :
    (s.sendPktBody ack false inp).state = .errorWait ∨
    (s.sendPktBody ack false inp).Books ∧ (s.sendPktBody ack false inp).state = s.state := by
  rw [sendPktBody]
  split
  next => exact .inr ⟨h, rfl⟩
  dsimp only
  rcases h.resendLoop inp.rx inp.resend (ack || false || s.outEof) 65536
    ((s.ackedSeqNr + 1) &&& 0xffff) with ⟨herr, hret⟩ | ⟨hb, hr⟩
  · rw [hret]
    exact .inl herr
  generalize Sender.resendLoop inp.rx inp.resend (ack || false || s.outEof) 65536
    ((s.ackedSeqNr + 1) &&& 0xffff) s = r at hb hr ⊢
  obtain ⟨hst, hseq, hacked, -⟩ := hr.same
  have hD' : r.1.ahead r.1.seqNr < 65535 := by
    rw [ahead, hseq, hacked]
    exact hD
  have hkeep : r.1.Books ∧ r.1.state = s.state := ⟨hb, hst⟩
  generalize hpl : (if inp.window < r.1.bytesInFlight + r.1.payloadSize inp ∧ ack then 0
    else r.1.payloadSize inp) = payload
  split
  next => exact .inr hkeep
  split
  next => exact .inr hkeep
  split
  next => exact .inr hkeep
  next hforce =>
  split
  next p hp =>
    obtain ⟨hfits, hneed⟩ := hb.nagleFits p hp
    have hopen : r.1.state ≠ .finSent := fun hc => by
      rw [(hb.closed hc).2] at hp
      exact absurd hp (by simp)
    split
    next =>
      rw [← hst]
      exact hb.transmit (newPacket_fits _ _ _ _) rfl fun hlt => absurd hlt (lt_irrefl _)
    next =>
      obtain ⟨hf, hext⟩ := fill_fits (s := r.1) hfits inp.rx (r.1.sizeLeft (pickedUp p inp.rx) inp)
      have hneed' : (r.1.fill (pickedUp p inp.rx) (r.1.sizeLeft (pickedUp p inp.rx) inp)).needResend =
          false := (pickedUp_needResend p inp.rx).trans hneed
      have hb' := hb.writePayload (r.1.sizeLeft (pickedUp p inp.rx) inp)
      have hnone : Books { r.1.writePayload (r.1.sizeLeft (pickedUp p inp.rx) inp) with
          naglePacket := none } :=
        hb'.congr rfl rfl rfl rfl rfl (fun q hq => absurd hq (by simp)) fun hc => absurd hc hopen
      split
      next =>
        right
        refine ⟨hb'.congr rfl rfl rfl rfl rfl (fun q hq => ?_) fun hc => absurd hc hopen, hst⟩
        obtain rfl := Option.some.inj hq
        exact ⟨hf, hneed'⟩
      next =>
        rw [← hst]
        exact hnone.transmit (hext _) hneed' fun _ => ⟨hopen, hD'⟩
  next hp =>
    have hb' := hb.writePayload payload
    have hfits := newPacket_fits r.1 r.1 inp payload
    -- there is payload only if the user has left some
    have hopen : payload ≠ 0 → r.1.state ≠ .finSent := by
      intro hne hc
      refine hne ?_
      rw [← hpl]
      split
      next => rfl
      next => simp [Sender.payloadSize, hp, (hb.closed hc).1]
    split
    next hhold =>
      right
      refine ⟨hb'.congr rfl rfl rfl rfl rfl (fun q hq => ?_) fun hc => ?_, hst⟩
      · obtain rfl := Option.some.inj hq
        exact ⟨hfits, rfl⟩
      · -- an empty packet is held off only if it needn't be sent, and then there is none
        refine absurd ⟨?_, ?_⟩ hforce
        · exact by_contra fun hne => hopen hne hc
        · simp only [holdsOff, Bool.and_eq_true] at hhold
          exact hhold.1.2
    next =>
      rw [← hst]
      refine hb'.transmit hfits rfl fun hlt => ⟨hopen fun h0 => ?_, hD'⟩
      rw [h0] at hlt
      exact absurd hlt (lt_irrefl _)

/-! ### The FIN -/

/-- Once everything else has been sent, the state may become `fin_sent`, whether or not a FIN is put
into `m_outbuf`. -/
theorem Books.finSent (h : s.Books) (hst : s.state = .connected) (hwb : s.writeBuffer = [])
    (hn : s.naglePacket = none) : Books { s with state := .finSent } := by
  have hw := h.window
  have hne : s.state ≠ .finSent := by simp [hst]
  refine ⟨⟨hw.seq_lt, hw.acked_lt, hw.key_lt, fun k p hk => ?_, fun hc => absurd rfl hc, hw.beyond⟩,
    h.front, h.flight, h.fits, h.nagleFits, fun _ => ⟨hwb, hn⟩⟩
  rcases hw.inside k p hk with hin | ⟨-, -, hc, -⟩
  · exact .inl hin
  · exact absurd hc hne

/-- The FIN is put into `m_outbuf` under the number `m_seq_nr`, which doesn't move. -/
theorem Books.pushFin (h : s.Books) (hst : s.state = .connected) (hwb : s.writeBuffer = [])
    (hn : s.naglePacket = none) (hq : q.SackFits) (ht : q.type = .fin) (h0 : q.inFlight = 0)
    (stalled : Bool) (wire : List OutPacket) :
    Books { s with
      state := .finSent
      outbuf := Function.update s.outbuf s.seqNr (some q)
      stalled, wire } := by
  have hw := h.window
  have hne : s.state ≠ .finSent := by simp [hst]
  have hpos := hw.unsent hne
  have hkeep : ∀ k, s.outbuf k ≠ none → Function.update s.outbuf s.seqNr (some q) k ≠ none := by
    intro k hk
    by_cases hks : k = s.seqNr
    · rw [hks, Function.update_self]
      exact Option.some_ne_none q
    · rwa [Function.update_of_ne hks]
  refine ⟨⟨hw.seq_lt, hw.acked_lt, fun k p hk => ?_, fun k p hk => ?_, fun hc => absurd rfl hc,
    fun k hk h1 h2 => hkeep k (hw.beyond k hk h1 h2)⟩, fun h2 => hkeep _ (h.front h2), ?_,
    fun k p hk => ?_, h.nagleFits, fun _ => ⟨hwb, hn⟩⟩
  · change Function.update s.outbuf s.seqNr (some q) k = some p at hk
    by_cases hks : k = s.seqNr
    · exact hks ▸ hw.seq_lt
    · exact hw.key_lt k p (by rwa [Function.update_of_ne hks] at hk)
  · change Function.update s.outbuf s.seqNr (some q) k = some p at hk
    by_cases hks : k = s.seqNr
    · subst hks
      rw [Function.update_self] at hk
      exact .inr ⟨rfl, Option.some.inj hk ▸ ht, rfl, hpos⟩
    · rw [Function.update_of_ne hks] at hk
      rcases hw.inside k p hk with hin | ⟨-, -, hc, -⟩
      · exact .inl hin
      · exact absurd hc hne
  · have hupd := RingStore.total_update OutPacket.inFlight s.outbuf hw.seq_lt (some q)
    rw [h.free hne] at hupd
    simp only [Option.elim_none, Option.elim_some] at hupd
    change s.bytesInFlight = (RingStore.total 65536 OutPacket.inFlight
      (Function.update s.outbuf s.seqNr (some q)) : ℕ)
    have hf := h.flight
    rw [inFlight] at hf
    omega
  · change Function.update s.outbuf s.seqNr (some q) k = some p at hk
    by_cases hks : k = s.seqNr
    · rw [hks, Function.update_self] at hk
      exact Option.some.inj hk ▸ hq
    · exact h.fits k p (by rwa [Function.update_of_ne hks] at hk)

/-- `send_fin` finds the socket able to send: it is not stalled, and none of the packets that are
sent again first makes it stall. -/
def FinReady (s : Sender) (inp : SendInput) : Prop :=
  s.stalled = false ∧
    ∀ nr p, s.outbuf nr = some p → p.needResend → (inp.resend nr).outcome ≠ .wouldBlock

/-- A resend stalls the socket only if the UDP socket would block. -/
theorem resendLoop_stalled {rx : RecvSide} {resend : ℕ → ResendInput} {force : Bool} {fuel i : ℕ}
    (hs : s.stalled = false)
    (hok : ∀ nr p, s.outbuf nr = some p → p.needResend → (resend nr).outcome ≠ .wouldBlock) :
    (resendLoop rx resend force fuel i s).1.stalled = false := by
  induction fuel generalizing s i with
  | zero => exact hs
  | succ fuel ih =>
    simp only [resendLoop]
    split
    next => exact hs
    split
    next => exact ih hs hok
    next p hp =>
      split
      next => exact ih hs hok
      next hneed =>
        have hout := hok i p hp (by simpa using hneed)
        -- the packet is no longer marked, the others are left alone
        have hone : (s.resendPacket i p false rx (resend i)).1.stalled = false ∧
            ∀ nr q, (s.resendPacket i p false rx (resend i)).1.outbuf nr = some q → q.needResend →
              (resend nr).outcome ≠ .wouldBlock := by
          simp only [resendPacket, hs, Bool.false_eq_true, if_false]
          split
          next => exact ⟨hs, hok⟩
          next =>
            have hothers : ∀ nr q, Function.update s.outbuf i (some { p.refreshSack rx with
                needResend := false, ackNr := rx.ackNr }) nr = some q → q.needResend →
                (resend nr).outcome ≠ .wouldBlock := by
              intro nr q hq hr
              by_cases hni : nr = i
              · exact hni ▸ hout
              · exact hok nr q (by rwa [Function.update_of_ne hni] at hq) hr
            split
            next => exact ⟨rfl, hothers⟩
            next hc => exact absurd hc hout
            next => exact ⟨rfl, hothers⟩
            next => exact ⟨rfl, hothers⟩
        split
        next => exact ih hone.1 hone.2
        next =>
          split
          next => exact hone.1
          next =>
            split
            next => exact hone.1
            next =>
              split
              next => exact hone.1
              next => exact hone.1

/-- Why the packet itself is not sent, when it would be forced through. -/
theorem resendLoop_stops (rx : RecvSide) (resend : ℕ → ResendInput) (eof : Bool) (fuel i : ℕ) :
    (resendLoop rx resend (false || true || eof) fuel i s).2 = false →
      (resendLoop rx resend (false || true || eof) fuel i s).1.state = .errorWait ∨
      (resendLoop rx resend (false || true || eof) fuel i s).1.state = .deleting ∨
      (resendLoop rx resend (false || true || eof) fuel i s).1.stalled := by
  induction fuel generalizing s i with
  | zero => exact fun hc => absurd hc (by simp [resendLoop])
  | succ fuel ih =>
    simp only [resendLoop]
    split
    next => exact fun hc => absurd hc (by simp)
    split
    next => exact ih _
    split
    next => exact ih _
    split
    next => exact ih _
    split
    next hforce => exact absurd hforce (by simp)
    split
    next hstate => exact fun _ => hstate.imp_right .inl
    split
    next hstalled => exact fun _ => .inr (.inr hstalled)
    next => exact fun hc => absurd hc (by simp)

/-- What `transmit` does with a FIN. -/
theorem transmit_fin (h : s.Books) (hst : s.state ≠ .finSent) (hp : p.size = p.headerSize) :
    (s.transmit p true inp).state = .errorWait ∨
    ∃ needResend stalled wire, s.transmit p true inp = { s with
      outbuf := Function.update s.outbuf s.seqNr
        (some { p with ackNr := inp.rx.ackNr, type := .fin, needResend := needResend })
      stalled, wire } := by
  have hold : ((s.outbuf s.seqNr).map OutPacket.inFlight).getD 0 = 0 := by
    rw [h.free hst]
    rfl
  have hlt : ¬ p.headerSize < p.size := by omega
  simp only [Sender.transmit, insertPacket, if_neg hlt, hold, Nat.cast_zero, sub_zero, if_true]
  split
  next => exact .inl rfl
  next => exact .inl rfl
  next => exact .inr ⟨p.needResend, s.stalled, _, rfl⟩
  next => exact .inr ⟨true, true, _, rfl⟩

/-- `send_pkt(pkt_fin)`: an error, or the books are right once the socket is in `fin_sent`. The FIN is
in `m_outbuf` if the socket was able to send. -/
theorem Books.sendPktFin (h : s.Books) (hdue : s.finDue) :
    (s.sendPktBody false true inp).state = .errorWait ∨
    (s.sendPktBody false true inp).state = .connected ∧
      Books { s.sendPktBody false true inp with state := .finSent } ∧
      (s.FinReady inp → ∃ p, (s.sendPktBody false true inp).outbuf
        (s.sendPktBody false true inp).seqNr = some p ∧ p.type = .fin) := by
  obtain ⟨-, hwb, hn, hst⟩ := hdue
  rw [sendPktBody]
  split
  next hstalled =>
    exact .inr ⟨hst, h.finSent hst hwb hn, fun hready => absurd hstalled (by simp [hready.1])⟩
  next hstalled =>
    dsimp only
    have hstall : s.FinReady inp → (Sender.resendLoop inp.rx inp.resend (false || true || s.outEof)
        65536 ((s.ackedSeqNr + 1) &&& 0xffff) s).1.stalled = false := fun hready =>
      resendLoop_stalled hready.1 hready.2
    have hstop := resendLoop_stops (s := s) inp.rx inp.resend s.outEof 65536
      ((s.ackedSeqNr + 1) &&& 0xffff)
    have hloop := h.resendLoop inp.rx inp.resend (false || true || s.outEof) 65536
      ((s.ackedSeqNr + 1) &&& 0xffff)
    generalize Sender.resendLoop inp.rx inp.resend (false || true || s.outEof) 65536
      ((s.ackedSeqNr + 1) &&& 0xffff) s = r at hloop hstall hstop ⊢
    rcases hloop with ⟨herr, hret⟩ | ⟨hb, hr⟩
    · rw [hret]
      exact .inl herr
    obtain ⟨hst', hseq, hacked, hwb', hn', -⟩ := hr.same
    rw [hst] at hst'
    rw [hwb] at hwb'
    rw [hn] at hn'
    have hpay : r.1.payloadSize inp = 0 := by simp [payloadSize, hwb', hn']
    split
    next hret =>
      refine .inr ⟨hst', hb.finSent hst' hwb' hn', fun hready => absurd (hstall hready) ?_⟩
      rcases hstop (by simpa using hret) with hc | hc | hc
      · rw [hst'] at hc
        exact absurd hc (by simp)
      · rw [hst'] at hc
        exact absurd hc (by simp)
      · simp [hc]
    next =>
      simp only [hpay, hn', Bool.false_or, Bool.true_or, Bool.not_true, Bool.false_eq_true, and_false,
        if_false, holdsOff, Bool.and_false, Bool.false_and]
      have hfits : (r.1.writeExtensions inp.rx (r.1.sackSize inp) (r.1.newPacket inp 0)).SackFits :=
        newPacket_fits _ _ _ _
      have hb' : (r.1.writePayload 0).Books := hb.writePayload 0
      have hst'' : (r.1.writePayload 0).state = .connected := hst'
      have hsize : (r.1.writeExtensions inp.rx (r.1.sackSize inp) (r.1.newPacket inp 0)).size =
          (r.1.writeExtensions inp.rx (r.1.sackSize inp) (r.1.newPacket inp 0)).headerSize := rfl
      generalize r.1.writeExtensions inp.rx (r.1.sackSize inp) (r.1.newPacket inp 0) = q at hfits hsize ⊢
      rcases transmit_fin hb' (p := q) (by simp [hst'']) hsize with
        herr | ⟨needResend, stalled, wire, he⟩
      · exact .inl herr
      · rw [he]
        refine .inr ⟨hst'', ?_, fun _ => ⟨_, Function.update_self _ _ _, rfl⟩⟩
        refine hb'.pushFin (q := { q with ackNr := inp.rx.ackNr, type := .fin, needResend := needResend })
          hst'' ?_ hn' ⟨hfits.header_le, hfits.sack⟩ rfl ?_ stalled wire
        · simp [Sender.writePayload, hwb']
        · rw [OutPacket.inFlight, OutPacket.payloadSize]
          split
          next => rfl
          next => exact Nat.sub_eq_zero_of_le hsize.le

/-- `send_fin`. -/
theorem Books.sendFin (h : s.Books) (hdue : s.finDue) :
    (s.sendFin inp).state = .errorWait ∨
    (s.sendFin inp).Books ∧ (s.sendFin inp).state = .finSent ∧
      (s.FinReady inp →
        ∃ p, (s.sendFin inp).outbuf (s.sendFin inp).seqNr = some p ∧ p.type = .fin) := by
  rw [Sender.sendFin]
  rcases h.sendPktFin hdue with herr | ⟨hst, hb, hfin⟩
  · rw [if_pos herr]
    exact .inl herr
  · rw [if_neg (by simp [hst])]
    exact .inr ⟨hb, rfl, hfin⟩

end Sender

end Utp

end LibtorrentSN
