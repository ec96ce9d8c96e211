import LibtorrentSN.Utp.SenderRun

/-!
# Runs of the sender, and the FIN

A run is a sequence of the calls the entry points of `utp_socket_impl` are made of. `write_some`,
`issue_write`, `close`, `writable`, `socket_drained`, `send_deferred_ack`, `tick` and
`incoming_packet` each make some of them, one after the other; in which order and how often is left
open here, so that every run of the socket is one of these.

The books are right in every state of a run. Whether a FIN has been queued in the state `fin_sent` is
another matter: `send_fin` enters that state also if the socket is stalled, and then `writable`,
which asks for the state `connected`, does not make up for it.
-/

namespace LibtorrentSN

namespace Utp

namespace Sender

/-- The calls a run is made of. -/
inductive Op where
  /-- `add_write_buffer` -/
  | write (bytes : List UInt8)
  /-- the beginning of `issue_write` -/
  | issueWrite
  /-- the beginning of `write_some`: `m_written = 0` -/
  | resetWritten
  /-- the end of `write_some`: what has not been taken from the user's buffers is let go -/
  | clearWriteBuffer
  /-- `send_pkt`, or `send_pkt(pkt_ack)` -/
  | sendPkt (ack : Bool) (inp : SendInput)
  /-- `maybe_trigger_send_callback`, up to the call of `send_fin` -/
  | sendCallback (error : Bool)
  /-- `send_fin`, called at one of its places -/
  | sendFin (inp : SendInput)
  /-- the beginning of `close` -/
  | close
  /-- the beginning of `writable` -/
  | writable
  | setCloseReason (code : ℕ)
  /-- the acknowledgements of an incoming packet -/
  | acks (type : PacketType) (ackNr : ℕ) (sacks : List (List UInt8))
  /-- the SYN of an outgoing connection has been acknowledged -/
  | connect
  /-- `resend_packet`, for a lost packet -/
  | resend (nr : ℕ) (fastResend : Bool) (rx : RecvSide) (inp : ResendInput)
  /-- the sweep of `tick` -/
  | timeout

def maybeTriggerSendCallback (s : Sender) (error : Bool) : Sender :=
  if !s.writeHandler then s
  -- nothing has been written
  else if s.written = 0 ∧ !error then s
  else { s with writeHandler := false, written := 0, writeBuffer := [] }

def apply (s : Sender) : Op → Sender
  | .write bytes => { s with writeBuffer := s.writeBuffer ++ bytes }
  | .issueWrite => { s with writeHandler := true, written := 0 }
  | .resetWritten => { s with written := 0 }
  | .clearWriteBuffer => { s with writeBuffer := [] }
  | .sendPkt ack inp => s.sendPktBody ack false inp
  | .sendCallback error => s.maybeTriggerSendCallback error
  | .sendFin inp => s.sendFin inp
  | .close => { s with outEof := true }
  | .writable => { s with stalled := false }
  | .setCloseReason code => { s with closeReason := code }
  | .acks type ackNr sacks => s.incomingAcks type ackNr sacks
  | .connect => { s with state := .connected }
  | .resend nr fastResend rx inp =>
    match s.outbuf nr with
    | none => s
    | some p => (s.resendPacket nr p fastResend rx inp).1
  | .timeout => s.sweep

/-- When a call is made. `write_some` and `async_write_some` check that no FIN has been sent, and an
extension header has no more than 255 bytes. -/
def Enabled (s : Sender) : Op → Prop
  | .write _ => s.state ≠ .finSent
  | .sendFin _ => s.finDue
  | .acks _ ackNr sacks => ackNr < 65536 ∧ ∀ bitfield ∈ sacks, bitfield.length ≤ 255
  | .connect => s.state = .synSent
  | _ => True

instance (s : Sender) : (op : Op) → Decidable (s.Enabled op)
  | .write _ => inferInstanceAs (Decidable (s.state ≠ .finSent))
  | .sendFin _ => inferInstanceAs (Decidable s.finDue)
  | .acks _ ackNr sacks =>
    inferInstanceAs (Decidable (ackNr < 65536 ∧ ∀ bitfield ∈ sacks, bitfield.length ≤ 255))
  | .connect => inferInstanceAs (Decidable (s.state = .synSent))
  | .issueWrite | .resetWritten | .clearWriteBuffer | .sendPkt _ _ | .sendCallback _ | .close
  | .writable | .setCloseReason _ | .resend _ _ _ _ | .timeout => .isTrue trivial

/-- The SYN packet of `send_syn`. -/
def synPacket (nr : ℕ) (wouldBlock : Bool) : OutPacket :=
  { type := .syn, seqNr := nr, needResend := wouldBlock }

/-- After `send_syn`, with the random number `nr`. -/
def sendSyn (nr : ℕ) (wouldBlock : Bool) : Sender :=
  { state := .synSent
    seqNr := (nr + 1) &&& 0xffff
    ackedSeqNr := sub32 nr 1 &&& 0xffff
    outbuf := Function.update (fun _ => none) nr (some (synPacket nr wouldBlock))
    stalled := wouldBlock }

/-- After a SYN has been accepted, with the random number `nr`. -/
def accept (nr : ℕ) : Sender :=
  { state := .connected, seqNr := nr, ackedSeqNr := sub32 nr 1 &&& 0xffff }

/-- The runs of a socket, with the calls that have been made and the states they were made in. A call
is made before an error state is entered, and with fewer than 2^14 packets outstanding. -/
inductive Run : List (Sender × Op) → Sender → Prop
  | sendSyn {nr : ℕ} (hnr : nr < 65536) (wouldBlock : Bool) : Run [] (sendSyn nr wouldBlock)
  | accept {nr : ℕ} (hnr : nr < 65536) : Run [] (accept nr)
  | step {hist : List (Sender × Op)} {s : Sender} (h : Run hist s) (op : Op)
      (halive : s.state ≠ .errorWait ∧ s.state ≠ .deleting)
      (hcount : PacketBuffer.stored s.outbuf < 2 ^ 14) (hop : s.Enabled op) :
      Run (hist ++ [(s, op)]) (s.apply op)

variable {s s' : Sender} {k nr : ℕ} {p q : OutPacket} {inp : SendInput} {op : Op}
  {hist : List (Sender × Op)}

/-! ### The books of a run -/

theorem accept_books (hnr : nr < 65536) : (accept nr).Books := by
  have hone : (accept nr).ahead (accept nr).seqNr = 1 := by
    simp only [accept, ahead, RingStore.dist, sub32, and_ffff]
    omega
  have hnone : ∀ {k p}, (accept nr).outbuf k ≠ some p := by simp [accept]
  refine ⟨⟨hnr, ?_, fun k p hk => absurd hk hnone, fun k p hk => absurd hk hnone, fun _ => ?_,
    fun k hk h1 h2 => ?_⟩, fun h2 => ?_, ?_, fun k p hk => absurd hk hnone,
    fun p hp => absurd hp (by simp [accept]), fun hc => absurd hc (by simp [accept])⟩
  · simp only [accept, and_ffff]
    exact Nat.mod_lt _ (by decide)
  · omega
  · omega
  · omega
  · change (0 : ℤ) = ((RingStore.total 65536 OutPacket.inFlight fun _ => none : ℕ) : ℤ)
    rw [RingStore.total_empty]
    rfl

/-- The books depend on the state only as far as it is `fin_sent`. -/
theorem Books.setState (h : s.Books) (hs : s.state ≠ .finSent) {state : SocketState}
    (hne : state ≠ .finSent) : Books { s with state } := by
  have hw := h.window
  refine ⟨⟨hw.seq_lt, hw.acked_lt, hw.key_lt, fun k p hk => ?_, fun _ => hw.unsent hs, hw.beyond⟩,
    h.front, h.flight, h.fits, h.nagleFits, fun hc => absurd hc hne⟩
  rcases hw.inside k p hk with hin | ⟨-, -, hc, -⟩
  · exact .inl hin
  · exact absurd hc hs

theorem sendSyn_books (hnr : nr < 65536) (wouldBlock : Bool) : (sendSyn nr wouldBlock).Books := by
  -- it is what pushing the SYN makes of an accepted socket, but for the state
  have h : Books { accept nr with state := .synSent } :=
    (accept_books hnr).setState (by simp [accept]) (by simp)
  have hone : ({ accept nr with state := .synSent } : Sender).ahead nr < 65535 := by
    simp only [accept, ahead, RingStore.dist, sub32, and_ffff]
    omega
  refine (h.push (q := synPacket nr wouldBlock) (b := 0) (by simp) hone ⟨le_rfl, ?_⟩ ?_).congr
    rfl (and_ffff _) rfl rfl rfl (fun p hp => absurd hp (by simp [sendSyn]))
    fun hc => absurd hc (by simp [sendSyn])
  · exact fun hc => absurd hc (by simp [synPacket, noExtension, sackExtension])
  · simp [accept, synPacket, OutPacket.inFlight, OutPacket.payloadSize]

/-- One call: an error, or the books stay right. -/
theorem Books.apply (h : s.Books) (hcount : PacketBuffer.stored s.outbuf < 2 ^ 14)
    (hop : s.Enabled op) : (s.apply op).state = .errorWait ∨ (s.apply op).Books := by
  have hD : s.ahead s.seqNr < 65535 := by
    have := h.window.bound
    omega
  cases op with
  | write bytes =>
    exact .inr (h.congr rfl rfl rfl rfl rfl h.nagleFits fun hc => absurd hc hop)
  | issueWrite => exact .inr (h.congr rfl rfl rfl rfl rfl h.nagleFits h.closed)
  | resetWritten => exact .inr (h.congr rfl rfl rfl rfl rfl h.nagleFits h.closed)
  | clearWriteBuffer =>
    exact .inr (h.congr rfl rfl rfl rfl rfl h.nagleFits fun hc => ⟨rfl, (h.closed hc).2⟩)
  | sendPkt ack inp => exact (h.sendPkt hD ack).imp_right (·.1)
  | sendCallback error =>
    right
    rw [Sender.apply, maybeTriggerSendCallback]
    split
    next => exact h
    split
    next => exact h
    next => exact h.congr rfl rfl rfl rfl rfl h.nagleFits fun hc => ⟨rfl, (h.closed hc).2⟩
  | sendFin inp => exact (h.sendFin hop).imp_right (·.1)
  | close => exact .inr (h.congr rfl rfl rfl rfl rfl h.nagleFits h.closed)
  | writable => exact .inr (h.congr rfl rfl rfl rfl rfl h.nagleFits h.closed)
  | setCloseReason code => exact .inr (h.congr rfl rfl rfl rfl rfl h.nagleFits h.closed)
  | acks type ackNr sacks => exact .inr (h.incomingAcks hop.1 hcount type hop.2).1
  | connect =>
    right
    have hst : s.state = .synSent := hop
    exact h.setState (by simp [hst]) (by simp)
  | resend nr fastResend rx inp =>
    rw [Sender.apply]
    split
    next => exact .inr h
    next p hp =>
      rcases h.resendPacket hp fastResend rx inp with ⟨herr, -⟩ | ⟨hb, -⟩
      · exact .inl herr
      · exact .inr hb
  | timeout => exact .inr (h.sweep hD).1

/-- The books are right after every run that has not ended in an error. -/
theorem Run.books (h : Run hist s) : s.state = .errorWait ∨ s.Books := by
  induction h with
  | sendSyn hnr wouldBlock => exact .inr (sendSyn_books hnr wouldBlock)
  | accept hnr => exact .inr (accept_books hnr)
  | step h op halive hcount hop ih => exact (ih.resolve_left halive.1).apply hcount hop

/-- No more packets are stored than numbers are out. -/
theorem Window.stored_le (h : s.Window) : PacketBuffer.stored s.outbuf ≤ s.ahead s.seqNr := by
  have hcard : PacketBuffer.stored s.outbuf ≤ (Finset.Ioc 0 (s.ahead s.seqNr)).card := by
    refine Finset.card_le_card_of_injOn s.ahead ?_ ?_
    · intro k hk
      obtain ⟨-, hk⟩ := Finset.mem_filter.mp hk
      obtain ⟨p, hp⟩ := Option.isSome_iff_exists.mp hk
      rw [Finset.coe_Ioc, Set.mem_Ioc]
      rcases h.inside k p hp with ⟨h1, h2⟩ | ⟨rfl, -, -, h1⟩
      · exact ⟨h1, h2.le⟩
      · exact ⟨h1, le_rfl⟩
    · intro k hk l hl heq
      exact seqDist_inj h.acked_lt (Finset.mem_range.mp (Finset.mem_filter.mp hk).1)
        (Finset.mem_range.mp (Finset.mem_filter.mp hl).1) heq
  rwa [Nat.card_Ioc, Nat.sub_zero] at hcard

/-- A step of a run in which fewer than 2^14 numbers are out. -/
theorem Run.next (h : Run hist s) (op : Op) (halive : s.state ≠ .errorWait ∧ s.state ≠ .deleting)
    (hout : s.ahead s.seqNr < 2 ^ 14) (hop : s.Enabled op) : Run (hist ++ [(s, op)]) (s.apply op) :=
  h.step op halive ((h.books.resolve_left halive.1).window.stored_le.trans_lt hout) hop

/-- In every run `m_bytes_in_flight` is the payload of the packets in `m_outbuf` that are not to be
resent, and nothing after the sweep of `tick`; the packets in `m_outbuf` lie between
`m_acked_seq_nr` and `m_seq_nr`, which only a FIN may have as its number; and the first of these
numbers is in `m_outbuf` unless it is empty. -/
theorem run_keeps_books (h : Run hist s) (hs : s.state ≠ .errorWait) :
    s.bytesInFlight = s.inFlight ∧
    (∀ k p, s.outbuf k = some p → k < 65536 ∧
      (0 < s.ahead k ∧ s.ahead k < s.ahead s.seqNr ∨ k = s.seqNr ∧ p.type = .fin)) ∧
    (s.outbuf ((s.ackedSeqNr + 1) % 65536) ≠ none ∨ ∀ k, s.outbuf k = none) ∧
    (PacketBuffer.stored s.outbuf < 2 ^ 14 → s.sweep.bytesInFlight = 0) := by
  have hb := h.books.resolve_left hs
  have hw := hb.window
  refine ⟨hb.flight, fun k p hk => ⟨hw.key_lt k p hk, ?_⟩, ?_, fun hcount => ?_⟩
  · rcases hw.inside k p hk with hin | ⟨hks, ht, -⟩
    · exact .inl hin
    · exact .inr ⟨hks, ht⟩
  · rcases Nat.lt_or_ge (s.ahead s.seqNr) 2 with hlt | hge
    · -- at most the number after `m_acked_seq_nr` is taken
      refine or_iff_not_imp_left.mpr fun hfirst k => ?_
      cases hk : s.outbuf k with
      | none => rfl
      | some p =>
        refine absurd (fun hnone => ?_) hfirst
        have hone : s.ahead k = 1 := by
          rcases hw.inside k p hk with ⟨h1, h2⟩ | ⟨rfl, -, -, h1⟩
          · omega
          · omega
        have hkey := hw.key_lt k p hk
        have heq : k = (s.ackedSeqNr + 1) % 65536 :=
          seqDist_inj hw.acked_lt hkey (Nat.mod_lt _ (by decide)) (hone.trans (seqDist_one hw.acked_lt).symm)
        rw [← heq, hk] at hnone
        exact absurd hnone (by simp)
    · exact .inl (hb.front hge)
  · have hD : s.ahead s.seqNr < 65535 := by
      have := hw.bound
      omega
    exact (hb.sweep hD).2.2

/-- A call of `send_pkt` with room for everything, while nothing has been received out of order. -/
def roomyInput (outcome : SendOutcome) : SendInput where
  rx := { ackNr := 7, holds := fun _ => false, any := false }
  resend := fun _ => { window := 3000, outcome := .ok }
  window := 3000
  cwndFull := false
  effectiveMtu := 548
  span := 0
  buffer := List.replicate 528 0
  outcome := outcome
  retryOutcome := .ok
  span_le := by decide
  buffer_ge := by rw [List.length_replicate]

/-- A byte has been sent: it is in flight. -/
theorem run_keeps_books_sent : ∃ hist s, Run hist s ∧ s.bytesInFlight = 1 ∧
    s.bytesInFlight = s.inFlight ∧ s.sweep.bytesInFlight = 0 := by
  have run₀ : Run [] (accept 100) := .accept (by decide)
  have run₁ := run₀.next (.write [1]) (by decide) (by decide) (by decide)
  have run₂ := run₁.next (.sendPkt false (roomyInput .ok)) (by decide) (by decide) trivial
  obtain ⟨hflight, -, -, hsweep⟩ := run_keeps_books run₂ (by decide +kernel)
  refine ⟨_, _, run₂, by decide +kernel, hflight, hsweep ?_⟩
  have hw := (run₂.books.resolve_left (by decide +kernel)).window
  exact hw.stored_le.trans_lt (by decide +kernel)

/-! ### The FIN of a run -/

/-- A FIN numbered `m_seq_nr` is in `m_outbuf`, or was until it was acknowledged. -/
def FinQueued (hist : List (Sender × Op)) (s : Sender) : Prop :=
  (∃ p, s.outbuf s.seqNr = some p ∧ p.type = .fin) ∨
  ∃ s₀ type ackNr sacks p, (s₀, Op.acks type ackNr sacks) ∈ hist ∧ s₀.seqNr = s.seqNr ∧
    s₀.outbuf s.seqNr = some p ∧ p.type = .fin ∧
    (s₀.incomingAcks type ackNr sacks).outbuf s.seqNr = none

theorem FinQueued.mono (h : FinQueued hist s) (hseq : s'.seqNr = s.seqNr)
    (htypes : ∀ k, (s'.outbuf k).map OutPacket.type = (s.outbuf k).map OutPacket.type)
    (call : Sender × Op) : FinQueued (hist ++ [call]) s' := by
  rcases h with ⟨p, hp, ht⟩ | ⟨s₀, type, ackNr, sacks, p, hmem, h1, h2, h3, h4⟩
  · left
    have hk := htypes s.seqNr
    rw [hp, Option.map_some, ht] at hk
    obtain ⟨q, hq, hqt⟩ := Option.map_eq_some_iff.mp hk
    exact ⟨q, hseq ▸ hq, hqt⟩
  · right
    rw [← hseq] at h1 h2 h4
    exact ⟨s₀, type, ackNr, sacks, p, List.mem_append_left _ hmem, h1, h2, h3, h4⟩

/-- After the FIN, `send_pkt` sends no payload: it leaves `m_outbuf` to the packets it resends. -/
theorem Books.sendPkt_finSent (h : s.Books) (hst : s.state = .finSent) (ack : Bool) :
    (s.sendPktBody ack false inp).state = .errorWait ∨
    (s.sendPktBody ack false inp).seqNr = s.seqNr ∧
      ∀ k, ((s.sendPktBody ack false inp).outbuf k).map OutPacket.type =
        (s.outbuf k).map OutPacket.type := by
  have hkeep : s.seqNr = s.seqNr ∧ ∀ k, (s.outbuf k).map OutPacket.type =
      (s.outbuf k).map OutPacket.type := ⟨rfl, fun _ => rfl⟩
  rw [sendPktBody]
  split
  next => exact .inr hkeep
  dsimp only
  have hloop := h.resendLoop inp.rx inp.resend (ack || false || s.outEof) 65536
    ((s.ackedSeqNr + 1) &&& 0xffff)
  generalize Sender.resendLoop inp.rx inp.resend (ack || false || s.outEof) 65536
    ((s.ackedSeqNr + 1) &&& 0xffff) s = r at hloop ⊢
  rcases hloop with ⟨herr, hret⟩ | ⟨hb, hr⟩
  · rw [hret]
    exact .inl herr
  obtain ⟨hst', hseq, hacked, -⟩ := hr.same
  rw [hst] at hst'
  obtain ⟨hwb, hn⟩ := hb.closed hst'
  have hpay : r.1.payloadSize inp = 0 := by simp [payloadSize, hwb, hn]
  simp only [hpay, hn, ite_self]
  split
  next => exact .inr ⟨hseq, hr.types⟩
  split
  next => exact .inr ⟨hseq, hr.types⟩
  split
  next => exact .inr ⟨hseq, hr.types⟩
  split
  next => exact .inr ⟨hseq, hr.types⟩
  next =>
    -- an acknowledgement without payload is not kept
    simp only [Sender.transmit, writeExtensions, newPacket, Nat.add_zero, lt_irrefl, if_false, Bool.false_eq_true]
    split
    next => exact .inl rfl
    next => exact .inl rfl
    next => exact .inr ⟨hseq, hr.types⟩
    next => exact .inr ⟨hseq, hr.types⟩

theorem maybeTriggerSendCallback_eq (s : Sender) (error : Bool) :
    ∃ writeHandler written writeBuffer,
      s.maybeTriggerSendCallback error = { s with writeHandler, written, writeBuffer } := by
  rw [maybeTriggerSendCallback]
  split
  next => exact ⟨_, _, _, rfl⟩
  split
  next => exact ⟨_, _, _, rfl⟩
  next => exact ⟨_, _, _, rfl⟩

/-- How a call gets a socket into the state `fin_sent`: `send_fin` does it, and the others leave it
there. Then only an acknowledgement takes packets out of `m_outbuf`. -/
theorem Books.apply_finSent (h : s.Books) (hcount : PacketBuffer.stored s.outbuf < 2 ^ 14)
    (hop : s.Enabled op) (hst : (s.apply op).state = .finSent) :
    (∃ inp, op = .sendFin inp) ∨
    s.state = .finSent ∧ (s.apply op).seqNr = s.seqNr ∧
      ((∃ type ackNr sacks, op = .acks type ackNr sacks ∧
        ∀ k p, (s.apply op).outbuf k = some p → s.outbuf k = some p) ∨
      ∀ k, ((s.apply op).outbuf k).map OutPacket.type = (s.outbuf k).map OutPacket.type) := by
  have hD : s.ahead s.seqNr < 65535 := by
    have := h.window.bound
    omega
  cases op with
  | write bytes => exact .inr ⟨hst, rfl, .inr fun _ => rfl⟩
  | issueWrite => exact .inr ⟨hst, rfl, .inr fun _ => rfl⟩
  | resetWritten => exact .inr ⟨hst, rfl, .inr fun _ => rfl⟩
  | clearWriteBuffer => exact .inr ⟨hst, rfl, .inr fun _ => rfl⟩
  | sendPkt ack inp =>
    change (s.sendPktBody ack false inp).state = .finSent at hst
    rcases h.sendPkt hD ack with herr | ⟨-, hst'⟩
    · rw [herr] at hst
      exact absurd hst (by simp)
    · rw [hst'] at hst
      rcases h.sendPkt_finSent hst ack with herr | ⟨hseq, htypes⟩
      · rw [hst', hst] at herr
        exact absurd herr (by simp)
      · exact .inr ⟨hst, hseq, .inr htypes⟩
  | sendCallback error =>
    obtain ⟨writeHandler, written, writeBuffer, he⟩ := maybeTriggerSendCallback_eq s error
    rw [Sender.apply, he] at hst ⊢
    exact .inr ⟨hst, rfl, .inr fun _ => rfl⟩
  | sendFin inp => exact .inl ⟨inp, rfl⟩
  | close => exact .inr ⟨hst, rfl, .inr fun _ => rfl⟩
  | writable => exact .inr ⟨hst, rfl, .inr fun _ => rfl⟩
  | setCloseReason code => exact .inr ⟨hst, rfl, .inr fun _ => rfl⟩
  | acks type ackNr sacks =>
    obtain ⟨-, ha⟩ := h.incomingAcks hop.1 hcount type hop.2
    have happly : s.apply (.acks type ackNr sacks) = s.incomingAcks type ackNr sacks := rfl
    rw [happly] at hst ⊢
    rw [ha.state] at hst
    exact .inr ⟨hst, ha.seqNr, .inl ⟨type, ackNr, sacks, rfl, ha.outbuf⟩⟩
  | connect => exact absurd hst (by simp [Sender.apply])
  | resend nr fastResend rx inp =>
    right
    rw [Sender.apply] at hst ⊢
    split at hst
    next => exact ⟨hst, rfl, .inr fun _ => rfl⟩
    next p hp =>
      rcases h.resendPacket hp fastResend rx inp with ⟨herr, -⟩ | ⟨-, hr⟩
      · rw [herr] at hst
        exact absurd hst (by simp)
      · obtain ⟨hst', hseq, -⟩ := hr.same
        rw [hst'] at hst
        exact ⟨hst, hseq, .inr hr.types⟩
  | timeout =>
    obtain ⟨-, hr, -⟩ := h.sweep hD
    obtain ⟨hst', hseq, -⟩ := hr.same
    have happly : s.apply .timeout = s.sweep := rfl
    rw [happly] at hst ⊢
    rw [hst'] at hst
    exact .inr ⟨hst, hseq, .inr hr.types⟩

/-- If `send_fin` is only called when the socket can send, then there is a FIN whenever the socket is
in the state `fin_sent`, or takes its FIN as acknowledged. -/
theorem run_queues_fin (h : Run hist s)
    (hready : ∀ s₀ inp, (s₀, Op.sendFin inp) ∈ hist → s₀.FinReady inp) (hs : s.state ≠ .errorWait)
    (hfin : s.state = .finSent ∨ s.ackedSeqNr = s.seqNr) : FinQueued hist s := by
  have hst : s.state = .finSent := by
    refine by_contra fun hne => ?_
    have hpos := (h.books.resolve_left hs).window.unsent hne
    rw [ahead, ← hfin.resolve_left hne, seqDist_self] at hpos
    exact absurd hpos (lt_irrefl 0)
  clear hfin hs
  induction h with
  | sendSyn hnr wouldBlock => exact absurd hst (by simp [Sender.sendSyn])
  | accept hnr => exact absurd hst (by simp [Sender.accept])
  | @step hist s h op halive hcount hop ih =>
    have hb := h.books.resolve_left halive.1
    rcases hb.apply_finSent hcount hop hst with ⟨inp, rfl⟩ | ⟨hst', hseq, hcall⟩
    · have happly : s.apply (.sendFin inp) = s.sendFin inp := rfl
      rw [happly] at hst ⊢
      rcases hb.sendFin hop with herr | ⟨-, -, hq⟩
      · rw [herr] at hst
        exact absurd hst (by simp)
      · exact .inl (hq (hready s inp (List.mem_append_right _ List.mem_cons_self)))
    · have hq := ih (fun s₀ inp hmem => hready s₀ inp (List.mem_append_left _ hmem)) hst'
      rcases hcall with ⟨type, ackNr, sacks, rfl, hsub⟩ | htypes
      · have happly : s.apply (.acks type ackNr sacks) = s.incomingAcks type ackNr sacks := rfl
        rw [happly] at hst hseq hsub ⊢
        rcases hq with ⟨p, hp, ht⟩ | ⟨s₀, type', ackNr', sacks', p, hmem, h1, h2, h3, h4⟩
        · -- the FIN is still there, or this is the packet that acknowledges it
          cases hp' : (s.incomingAcks type ackNr sacks).outbuf s.seqNr with
          | none =>
            refine .inr ⟨s, type, ackNr, sacks, p, List.mem_append_right _ List.mem_cons_self,
              hseq.symm, ?_, ht, ?_⟩
            · rwa [hseq]
            · rw [hseq]
              exact hp'
          | some q =>
            have hq := hsub _ _ hp'
            rw [hp] at hq
            obtain rfl := Option.some.inj hq
            exact .inl ⟨p, hseq ▸ hp', ht⟩
        · rw [← hseq] at h1 h2 h4
          exact .inr ⟨s₀, type', ackNr', sacks', p, List.mem_append_left _ hmem, h1, h2, h3, h4⟩
      · exact hq.mono hseq htypes _

/-- The socket is closed while it can send. -/
theorem run_queues_fin_close : ∃ hist s, Run hist s ∧ s.state = .finSent ∧ FinQueued hist s := by
  have run₀ : Run [] (accept 100) := .accept (by decide)
  have run₁ := run₀.next .close (by decide) (by decide) trivial
  have run₂ := run₁.next (.sendFin (roomyInput .ok)) (by decide) (by decide) (by decide)
  refine ⟨_, _, run₂, by decide +kernel,
    run_queues_fin run₂ (fun s₀ inp hmem => ?_) (by decide +kernel) (.inl (by decide +kernel))⟩
  simp only [List.nil_append, List.cons_append, List.mem_cons, List.not_mem_nil, or_false,
    Prod.mk.injEq, reduceCtorEq, and_false, false_or, Op.sendFin.injEq] at hmem
  obtain ⟨rfl, rfl⟩ := hmem
  exact ⟨rfl, fun nr p hp => absurd hp (by simp [accept, Sender.apply])⟩

/-- A byte has been sent, and the acknowledgement of something received makes the UDP socket stall.
Then `close` enters the state `fin_sent` and no FIN is queued; the acknowledgement of the byte moves
`m_acked_seq_nr` on to the number the FIN would have had. -/
theorem stalled_close_loses_fin : ∃ hist s, Run hist s ∧ s.state = .finSent ∧
    s.ackedSeqNr = s.seqNr ∧ ¬ FinQueued hist s := by
  have run₀ : Run [] (accept 100) := .accept (by decide)
  have run₁ := run₀.next (.write [1]) (by decide) (by decide) (by decide)
  have run₂ := run₁.next (.sendPkt false (roomyInput .ok)) (by decide) (by decide) trivial
  have run₃ := run₂.next (.sendPkt true (roomyInput .wouldBlock)) (by decide +kernel) (by decide +kernel)
    trivial
  have run₄ := run₃.next .close (by decide +kernel) (by decide +kernel) trivial
  have run₅ := run₄.next (.sendFin (roomyInput .ok)) (by decide +kernel) (by decide +kernel)
    (by decide +kernel)
  have run₆ := run₅.next (.acks .state 100 []) (by decide +kernel) (by decide +kernel) (by decide)
  refine ⟨_, _, run₆, by decide +kernel, by decide +kernel, ?_⟩
  rintro (⟨p, hp, -⟩ | ⟨s₀, type, ackNr, sacks, p, hmem, -, hp, -⟩)
  · rw [show Sender.outbuf _ _ = none by decide +kernel] at hp
    exact absurd hp (by simp)
  · simp only [List.nil_append, List.cons_append, List.mem_cons, List.not_mem_nil, or_false,
      Prod.mk.injEq, reduceCtorEq, and_false, false_or] at hmem
    rw [hmem.1, show Sender.outbuf _ _ = none by decide +kernel] at hp
    exact absurd hp (by simp)

end Sender

end Utp

end LibtorrentSN
