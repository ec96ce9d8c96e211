import LibtorrentSN.Utp.Delivery

/-!
# Connection set-up

The end that sent the SYN waits in `syn_sent` for the other end to answer. Whatever packet answers
decides where `m_ack_nr` starts, and is then processed as on a connected socket.

The other end has numbered its first packet `base + 1`. The runs are parametrised by what may
happen in a step; `setup_delivers` is about the runs whose answer is the `ST_STATE` packet that
the other end sends before any payload.
-/

namespace LibtorrentSN

namespace Utp

namespace Receiver

variable {s : Receiver} {payload : ℕ → Payload} {base acked : ℕ} {e : Event}

/-- The number that `m_ack_nr` stands for after an answer to the SYN: the answer's own if it carries
payload, and the one before if not. -/
def Event.answer : Event → Option ℕ
  | .data n _ _ => some n
  | .state n _ _ => some (n - 1)
  | .issueRead _ => none
  | .readSome _ _ => none
  | .drained => none

/-- The number that `m_ack_nr` stands for after a step. The answer to the SYN sets it; after that it
moves as far as `m_ack_nr` does. -/
def numberAfter (payload : ℕ → Payload) (s : Receiver) (acked : ℕ) (e : Event) : ℕ :=
  if s.state = .synSent then e.answer.getD acked
  else acked + seqDist s.ackNr (s.step payload e).ackNr

/-- The runs of a socket that starts in `syn_sent`. -/
inductive SetupRun (payload : ℕ → Payload) (base : ℕ) (ok : Receiver → ℕ → Event → Prop) :
    Receiver → ℕ → Prop
  | start : SetupRun payload base ok { state := .synSent, ackNr := 0 } base
  | step {s : Receiver} {acked : ℕ} (h : SetupRun payload base ok s acked) (e : Event)
      (he : ok s acked e) :
      SetupRun payload base ok (s.step payload e) (s.numberAfter payload acked e)

/-- The packets are the ones the other end sends, and none is so late that its 16-bit number has
come to stand for another packet. -/
def Sends (base : ℕ) (s : Receiver) (acked : ℕ) (e : Event) : Prop :=
  (match e with
    | .data n _ _ => base < n
    | .state n _ _ => base < n
    | .issueRead _ => True
    | .readSome _ _ => True
    | .drained => True) ∧
  (s.state ≠ .synSent → e.Allowed acked)

/-- What arrives in `syn_sent` is an `ST_STATE` packet that was sent before any payload. -/
def Answered (base : ℕ) (s : Receiver) (e : Event) : Prop :=
  s.state = .synSent →
    match e with
    | .data _ _ _ => False
    | .state n _ _ => n = base + 1
    | .issueRead _ => True
    | .readSome _ _ => True
    | .drained => True

/-- Nothing has been received yet. -/
structure Waiting (s : Receiver) : Prop where
  state : s.state = .synSent
  buffers : s.Buffers
  settled : s.Settled
  stream : s.stream = []
  inbuf : s.inbuf = fun _ => none
  bytes : s.bufferedIncomingBytes = 0

theorem Waiting.reads {s' : Receiver} (h : s.Waiting) (hr : Reads s s') : s'.Waiting :=
  ⟨hr.window.state.trans h.state, hr.buffers, hr.settled, hr.stream.trans h.stream,
    hr.window.inbuf.trans h.inbuf, hr.window.bufferedIncomingBytes.trans h.bytes⟩

/-- The socket has connected, and expects the packet after `n`. -/
theorem Waiting.connect (h : s.Waiting) (n : ℕ) :
    Inv payload n n { s with state := .connected, ackNr := n % 65536 } := by
  refine ⟨rfl, ⟨h.buffers.pending, h.buffers.receiveSize, h.buffers.targets, h.buffers.readSize⟩,
    h.settled, rfl, le_rfl, ?_, ?_, ?_⟩
  · rw [sent, Nat.sub_self]
    exact h.stream
  · intro k p hk
    change s.inbuf k = some p at hk
    rw [h.inbuf] at hk
    exact absurd hk (by simp)
  · change s.bufferedIncomingBytes = buffered s.inbuf
    rw [h.inbuf, h.bytes, buffered, RingStore.total_empty]
    rfl

/-- The packet that was just counted as received is not received again. -/
theorem consumeIncomingData_self {seqNr : ℕ} (hlt : seqNr < 65536) (h : s.ackNr = seqNr)
    (bytes : List UInt8) : (s.consumeIncomingData seqNr bytes).1 = s := by
  have hself : compareLessWrap seqNr seqNr 0xffff = false := by
    rw [Bool.eq_false_iff]
    intro hc
    have hd := (compareLessWrap_iff hlt hlt).mp hc
    simp only [seqDist, RingStore.dist] at hd
    omega
  have hne : seqNr ≠ (s.ackNr + 1) &&& 0xffff := by
    rw [and_ffff, h]
    omega
  rw [consumeIncomingData]
  split
  next => rfl
  split
  next => rfl
  have hold : (!compareLessWrap s.ackNr seqNr 0xffff) = true := by
    rw [h, hself]
    rfl
  rw [if_pos hold]

/-- In `syn_sent` a packet is ignored, or it answers the SYN. Then its payload is dropped. -/
theorem incomingPacket_synSent (h : s.state = .synSent) (own : SendSide) {type : PacketType}
    (ht : type = .data ∨ type = .state) {seqNr : ℕ} (hlt : seqNr < 65536) (ackNr : ℕ)
    (bytes : List UInt8) :
    s.incomingPacket own type seqNr ackNr bytes = s ∨
    s.incomingPacket own type seqNr ackNr bytes =
      { s with
        state := .connected
        ackNr := if type = .data then seqNr else sub32 seqNr 1 &&& 0xffff } := by
  rw [incomingPacket]
  split
  next => exact .inl rfl
  split
  next => exact .inl rfl
  split
  next => exact .inl rfl
  split
  next => exact .inl rfl
  rw [acceptPacket, h]
  dsimp only
  rcases ht with rfl | rfl
  · rw [if_neg (by decide), if_neg (by decide)]
    split
    next => exact .inl rfl
    next =>
      right
      rw [consumePacket, if_pos rfl, if_pos rfl]
      exact consumeIncomingData_self hlt rfl bytes
  · rw [if_neg (by decide), if_neg (by decide)]
    split
    next => exact .inl rfl
    next => exact .inr rfl

/-- What an event does in `syn_sent`: the socket goes on waiting, or a packet of the other end
answers and decides which packet is expected next. -/
theorem Waiting.step (h : s.Waiting) (hb : Sends base s acked e) :
    (s.step payload e).Waiting ∨
    ∃ n, e.answer = some n ∧
      s.step payload e = { s with state := .connected, ackNr := n % 65536 } := by
  have hposted : ∀ lens, (s.addReadBuffers lens).Buffers ∧
      (s.addReadBuffers lens).stream = s.stream ∧ SameWindow s (s.addReadBuffers lens) :=
    fun lens => h.buffers.addReadBuffers lens
  have hread : ∀ {lens s''}, Reads (s.addReadBuffers lens) s'' → Reads s s'' := fun {lens _} hr =>
    ⟨hr.buffers, hr.stream.trans (hposted lens).2.1, hr.settled, (hposted lens).2.2.trans hr.window⟩
  cases e with
  | data n own ackNr =>
    rcases incomingPacket_synSent h.state own (.inl rfl) (Nat.mod_lt n (by decide)) ackNr
      (payload n).bytes with he | he
    · left
      rw [Receiver.step, he]
      exact h
    · right
      exact ⟨n, rfl, by rw [Receiver.step, he, if_pos rfl]⟩
  | state n own ackNr =>
    have hn : base < n := hb.1
    rcases incomingPacket_synSent h.state own (.inr rfl) (Nat.mod_lt n (by decide)) ackNr [] with
      he | he
    · left
      rw [Receiver.step, he]
      exact h
    · right
      have hsub : sub32 (n % 65536) 1 &&& 0xffff = (n - 1) % 65536 := by
        rw [and_ffff, sub32]
        omega
      exact ⟨n - 1, rfl, by rw [Receiver.step, he, if_neg (by decide), hsub]⟩
  | issueRead lens => exact .inl (h.reads (hread (hposted lens).1.issueRead))
  | readSome lens clearBuffers =>
    exact .inl (h.reads (hread ((hposted lens).1.readSome clearBuffers)))
  | drained => exact .inl (h.reads (h.buffers.maybeTriggerReceiveCallback h.settled false))

theorem Answered.answer (ha : Answered base s e) (h : s.state = .synSent) {n : ℕ}
    (hn : e.answer = some n) : n = base := by
  have ha' := ha h
  cases e with
  | data m own ackNr => exact ha'.elim
  | state m own ackNr =>
    have hm : m = base + 1 := ha'
    cases hn
    omega
  | issueRead lens => exact absurd hn (by simp [Event.answer])
  | readSome lens clearBuffers => exact absurd hn (by simp [Event.answer])
  | drained => exact absurd hn (by simp [Event.answer])

/-- The invariant of set-up. -/
def SetupInv (payload : ℕ → Payload) (base acked : ℕ) (s : Receiver) : Prop :=
  s.Waiting ∨ Inv payload base acked s

theorem SetupInv.step (h : SetupInv payload base acked s) (hs : Sends base s acked e)
    (ha : Answered base s e) :
    SetupInv payload base (s.numberAfter payload acked e) (s.step payload e) := by
  rcases h with h | h
  · have hstep : (s.step payload e).Waiting ∨ _ := h.step hs
    rcases hstep with hw | ⟨n, hn, he⟩
    · exact .inl hw
    · -- the answer is the `ST_STATE` packet before the first payload
      right
      obtain rfl := ha.answer h.state hn
      have hnum : s.numberAfter payload acked e = n := by
        rw [numberAfter, if_pos h.state, hn, Option.getD_some]
      rw [he, hnum]
      exact h.connect n
  · right
    have hst : s.state ≠ .synSent := by
      rw [h.1]
      decide
    obtain ⟨acked', hle, hlt, hinv⟩ := h.step (hs.2 hst)
    have hnum : s.numberAfter payload acked e = acked' := by
      rw [numberAfter, if_neg hst, h.2.ackNr, hinv.2.ackNr]
      simp only [seqDist, RingStore.dist]
      omega
    rw [hnum]
    exact hinv

theorem waiting_start : ({ state := .synSent, ackNr := 0 } : Receiver).Waiting :=
  ⟨rfl, ⟨fun p hp => absurd hp (by simp), rfl, fun t ht => absurd ht (by simp), rfl⟩, .inl rfl,
    rfl, rfl, rfl⟩

theorem SetupRun.inv
    (h : SetupRun payload base (fun s acked e => Sends base s acked e ∧ Answered base s e) s acked) :
    SetupInv payload base acked s := by
  induction h with
  | start => exact .inl waiting_start
  | step h e he ih => exact ih.step he.1 he.2

/-- In every run whose answer to the SYN is the `ST_STATE` packet that was sent before any payload,
the packets acknowledged are the ones delivered: on a connected socket, what the user has been given
followed by what waits to be read is the payload of every packet up to `m_ack_nr`. While the socket
waits it has nothing to acknowledge. -/
theorem setup_delivers
    (h : SetupRun payload base (fun s acked e => Sends base s acked e ∧ Answered base s e) s acked) :
    s.state = .synSent ∨
    s.state = .connected ∧ s.ackNr = acked % 65536 ∧ s.copied ++ s.unread = sent payload base acked := by
  rcases h.inv with hw | ⟨hst, hacc⟩
  · exact .inl hw.state
  · exact .inr ⟨hst, hacc.ackNr, hacc.stream⟩

/-- The answer arrives, then two packets in the wrong order. -/
theorem setup_delivers_reordered :
    let payload : ℕ → Payload := fun n => ⟨[n.toUInt8], by simp⟩
    let own : SendSide := ⟨101, 99⟩
    let s : Receiver := { state := .synSent, ackNr := 0 }
    let s' := ((s.step payload (.state 8 own 100)).step payload (.data 9 own 100)).step payload
      (.data 8 own 100)
    s'.ackNr = 9 ∧ s'.copied ++ s'.unread = sent payload 7 9 := by
  intro payload own s s'
  let ok : Receiver → ℕ → Event → Prop := fun s acked e => Sends 7 s acked e ∧ Answered 7 s e
  have run₀ : SetupRun payload 7 ok s 7 := .start
  have run₁ := run₀.step (.state 8 own 100) ⟨⟨by decide, fun h => absurd rfl h⟩, fun _ => rfl⟩
  have run₂ := run₁.step (.data 9 own 100) ⟨⟨by decide, fun _ => by decide +kernel⟩,
    fun h => absurd h (by decide +kernel)⟩
  have run₃ := run₂.step (.data 8 own 100) ⟨⟨by decide, fun _ => by decide +kernel⟩,
    fun h => absurd h (by decide +kernel)⟩
  obtain ⟨acked, run, rfl⟩ : ∃ acked, SetupRun payload 7 ok s' acked ∧ acked = 9 :=
    ⟨_, run₃, by decide +kernel⟩
  have hst : s'.state ≠ .synSent := by decide +kernel
  exact ⟨by decide +kernel, ((setup_delivers run).resolve_left hst).2.2⟩

/-- The other end answers with an `ST_STATE` packet, which is lost, and with a packet of payload: that
one is acknowledged and its payload is gone. -/
theorem setup_not_delivers :
    ¬ ∀ (payload : ℕ → Payload) (base acked : ℕ) (s : Receiver),
      SetupRun payload base (Sends base) s acked → s.state = .connected →
        s.ackNr = acked % 65536 ∧ s.copied ++ s.unread = sent payload base acked := by
  intro hall
  let payload : ℕ → Payload := fun n => ⟨[n.toUInt8], by simp⟩
  let s : Receiver := { state := .synSent, ackNr := 0 }
  have run₀ : SetupRun payload 7 (Sends 7) s 7 := .start
  have run₁ := run₀.step (.data 8 ⟨101, 99⟩ 100) ⟨by decide, fun h => absurd rfl h⟩
  have hbad := (hall payload 7 _ _ run₁ (by decide +kernel)).2
  exact absurd hbad (by decide +kernel)

end Receiver

end Utp

end LibtorrentSN
