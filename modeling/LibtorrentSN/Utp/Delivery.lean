import LibtorrentSN.Utp.Receiver

/-!
# In-order, exactly-once delivery

The payload the user has been given, followed by the payload that waits to be read, is the payload
of every packet up to the one acknowledged last. The reorder buffer holds packets beyond that.

`Buffers` is what the two queues keep to, `Reorders` what the reorder buffer keeps to. One lemma
for each operation says what it does to both; `Run.inv` is the induction over a run.
-/

namespace LibtorrentSN

namespace Utp

/-- The payload of one packet. A UDP datagram carries at most 65507 bytes, and 20 of them are the
uTP header. -/
structure Payload where
  bytes : List UInt8
  size_le : bytes.length ≤ 65507 - 20

theorem Payload.size_lt (d : Payload) : d.bytes.length < 65536 :=
  Nat.lt_of_le_of_lt d.size_le (by decide)

namespace Packet

/-- A packet that waits for a reader: it has bytes left, and the sizes fit their 16 bits. -/
structure Pending (p : Packet) : Prop where
  size_eq : p.size = p.buf.length
  size_lt : p.size < 65536
  left : p.headerSize < p.size

theorem Pending.payload_length {p : Packet} (h : p.Pending) : p.payload.length = p.payloadSize := by
  simp [payload, payloadSize, h.size_eq]

theorem Pending.payload_pos {p : Packet} (h : p.Pending) : 0 < p.payload.length := by
  have := h.left
  rw [h.payload_length, payloadSize]
  omega

theorem Pending.consume_headerSize {p : Packet} (h : p.Pending) {n : ℕ} (hn : n ≤ p.payloadSize) :
    (p.consume n).headerSize = p.headerSize + n := by
  have := h.left
  have := h.size_lt
  rw [payloadSize] at hn
  simp only [consume]
  omega

theorem Pending.consume_payload {p : Packet} (h : p.Pending) {n : ℕ} (hn : n ≤ p.payloadSize) :
    (p.consume n).payload = p.payload.drop n := by
  simp only [payload, h.consume_headerSize hn, List.drop_drop]
  rfl

theorem Pending.consume {p : Packet} (h : p.Pending) {n : ℕ} (hn : n < p.payloadSize) :
    (p.consume n).Pending := by
  refine ⟨h.size_eq, h.size_lt, ?_⟩
  rw [h.consume_headerSize hn.le]
  rw [payloadSize] at hn
  change p.headerSize + n < p.size
  omega

theorem acquire_payload {bytes : List UInt8} (h : bytes.length < 65536) :
    (acquire bytes).payload = bytes := by
  simp [acquire, payload, Nat.mod_eq_of_lt h]

theorem acquire_pending {bytes : List UInt8} (h : bytes.length < 65536) (h0 : bytes ≠ []) :
    (acquire bytes).Pending :=
  ⟨Nat.mod_eq_of_lt h, Nat.mod_lt _ (by decide), by
    simpa [acquire, Nat.mod_eq_of_lt h] using List.length_pos_iff.mpr h0⟩

end Packet

namespace Receiver

variable {s s' : Receiver}

/-- The unread bytes of `m_receive_buffer`. -/
def unread (s : Receiver) : List UInt8 := s.receiveBuffer.flatMap Packet.payload

/-- What the user has been given and what waits for him, in order. -/
def stream (s : Receiver) : List UInt8 := s.copied ++ s.unread

/-- The two queues and the counters that go with them. -/
structure Buffers (s : Receiver) : Prop where
  pending : ∀ p ∈ s.receiveBuffer, p.Pending
  receiveSize : s.receiveBufferSize = s.unread.length
  targets : ∀ t ∈ s.readBuffer, 0 < t
  readSize : s.readBufferSize = s.readBuffer.sum

/-- Nothing waits while there is room for it. -/
def Settled (s : Receiver) : Prop := s.receiveBuffer = [] ∨ s.readBuffer = []

/-- What the operations on the two queues leave alone. -/
structure SameWindow (s s' : Receiver) : Prop where
  state : s'.state = s.state
  ackNr : s'.ackNr = s.ackNr
  inbuf : s'.inbuf = s.inbuf
  bufferedIncomingBytes : s'.bufferedIncomingBytes = s.bufferedIncomingBytes

theorem SameWindow.refl (s : Receiver) : SameWindow s s := ⟨rfl, rfl, rfl, rfl⟩

theorem SameWindow.trans {s'' : Receiver} (h : SameWindow s s') (h' : SameWindow s' s'') :
    SameWindow s s'' :=
  ⟨h'.state.trans h.state, h'.ackNr.trans h.ackNr, h'.inbuf.trans h.inbuf,
    h'.bufferedIncomingBytes.trans h.bufferedIncomingBytes⟩

theorem Buffers.receiveBuffer_eq_nil (h : s.Buffers) (h0 : s.receiveBufferSize ≤ 0) :
    s.receiveBuffer = [] := by
  have hlen : s.unread.length = 0 := by
    have := h.receiveSize
    omega
  cases hrb : s.receiveBuffer with
  | nil => rfl
  | cons p packets =>
    have hp := (h.pending p (by simp [hrb])).payload_pos
    rw [unread, hrb, List.flatMap_cons, List.length_append] at hlen
    omega

/-! ### Reading -/

theorem Buffers.addReadBuffer (h : s.Buffers) (len : ℕ) : (s.addReadBuffer len).Buffers := by
  rw [Receiver.addReadBuffer]
  split
  next => exact h
  next hlen =>
    refine ⟨h.pending, h.receiveSize, fun t ht => ?_, ?_⟩
    · rcases List.mem_append.mp ht with ht | ht
      · exact h.targets t ht
      · rw [List.mem_singleton.mp ht]
        exact Nat.pos_of_ne_zero hlen
    · change s.readBufferSize + len = _
      rw [h.readSize]
      simp

theorem addReadBuffer_same (s : Receiver) (len : ℕ) : SameWindow s (s.addReadBuffer len) := by
  rw [addReadBuffer]
  split <;> exact ⟨rfl, rfl, rfl, rfl⟩

theorem addReadBuffer_stream (s : Receiver) (len : ℕ) : (s.addReadBuffer len).stream = s.stream := by
  rw [addReadBuffer]
  split <;> rfl

theorem Buffers.clearReadBuffer (h : s.Buffers) : s.clearReadBuffer.Buffers :=
  ⟨h.pending, h.receiveSize, fun _ ht => absurd ht (by simp [Receiver.clearReadBuffer]), rfl⟩

/-- What a round of the loop of `read_some` does: the bytes it copies move from the queue to the
user, and it uses up a packet or a buffer. -/
theorem Buffers.readRound {p : Packet} {packets : List Packet} {target : ℕ} {targets : List ℕ}
    (h : s.Buffers) (hp : s.receiveBuffer = p :: packets) (ht : s.readBuffer = target :: targets)
    {toCopy : ℕ} (hc : toCopy = min (min p.payloadSize target) (65535 - p.headerSize)) :
    (s.readRound p packets target targets toCopy).Buffers ∧
    (s.readRound p packets target targets toCopy).stream = s.stream ∧
    (s.readRound p packets target targets toCopy).receiveBuffer.length +
      (s.readRound p packets target targets toCopy).readBuffer.length <
        s.receiveBuffer.length + s.readBuffer.length := by
  have hpend : p.Pending := h.pending p (by simp [hp])
  have hpos : 0 < target := h.targets target (by simp [ht])
  have hlen := hpend.payload_length
  -- the third bound never bites, since the sizes are 16 bit
  have hcopy : toCopy = min p.payloadSize target := by
    have := hpend.size_lt
    have := hpend.left
    rw [hc, Packet.payloadSize]
    omega
  have hle : toCopy ≤ p.payloadSize := hcopy ▸ min_le_left _ _
  have hhead : (p.consume toCopy).headerSize = p.headerSize + toCopy := hpend.consume_headerSize hle
  have hrest : ((p.consume toCopy).headerSize = p.size ↔ toCopy = p.payloadSize) := by
    have := hpend.left
    rw [hhead, Packet.payloadSize]
    omega
  -- what is left of the first packet, popped or not
  have hunread : (s.readRound p packets target targets toCopy).unread = s.unread.drop toCopy := by
    rw [unread, unread, hp, List.flatMap_cons, List.drop_append_of_le_length (hlen ▸ hle)]
    simp only [Receiver.readRound]
    split
    next he =>
      rw [hrest.mp he, ← hlen, List.drop_length, List.nil_append]
    next =>
      rw [List.flatMap_cons, hpend.consume_payload hle]
  have htake : p.payload.take toCopy = s.unread.take toCopy := by
    rw [unread, hp, List.flatMap_cons, List.take_append_of_le_length (hlen ▸ hle)]
  have htot : toCopy ≤ s.unread.length := by
    rw [unread, hp, List.flatMap_cons, List.length_append]
    omega
  refine ⟨⟨fun q hq => ?_, ?_, fun t htm => ?_, ?_⟩, ?_, ?_⟩
  · simp only [Receiver.readRound] at hq
    split at hq
    next => exact h.pending q (by simp [hp, hq])
    next he =>
      rcases List.mem_cons.mp hq with rfl | hq
      · exact hpend.consume (lt_of_le_of_ne hle fun hc' => he (hrest.mpr hc'))
      · exact h.pending q (by simp [hp, hq])
  · rw [hunread, List.length_drop]
    change s.receiveBufferSize - toCopy = _
    rw [h.receiveSize]
    omega
  · simp only [Receiver.readRound] at htm
    split at htm
    next => exact h.targets t (by simp [ht, htm])
    next h0 =>
      rcases List.mem_cons.mp htm with rfl | htm
      · omega
      · exact h.targets t (by simp [ht, htm])
  · have hsum := h.readSize
    rw [ht, List.sum_cons] at hsum
    change s.readBufferSize - toCopy = _
    simp only [Receiver.readRound]
    split
    next h0 => omega
    next h0 =>
      rw [List.sum_cons]
      omega
  · rw [stream, hunread]
    change s.copied ++ p.payload.take toCopy ++ _ = _
    rw [htake, List.append_assoc, List.take_append_drop, stream]
  · rw [hp, ht]
    simp only [Receiver.readRound, List.length_cons]
    -- one of the two is used up, since `toCopy` is the smaller one
    rcases min_choice p.payloadSize target with hm | hm
    · rw [if_pos (hrest.mpr (hcopy.trans hm))]
      split
      next => omega
      next => simp
    · rw [if_pos (show target - toCopy = 0 by omega)]
      split
      next => omega
      next => simp

theorem readRound_same (s : Receiver) (p : Packet) (packets : List Packet) (target : ℕ)
    (targets : List ℕ) (toCopy : ℕ) :
    SameWindow s (s.readRound p packets target targets toCopy) := ⟨rfl, rfl, rfl, rfl⟩

/-- `s'` is `s` after bytes have moved from the queue to the user, and no others. -/
structure Reads (s s' : Receiver) : Prop where
  buffers : s'.Buffers
  stream : s'.stream = s.stream
  settled : s'.Settled
  window : SameWindow s s'

/-- The loop of `read_some` goes on until the queue is empty or the buffers are full. -/
theorem Buffers.readLoop {fuel : ℕ} (h : s.Buffers)
    (hf : s.receiveBuffer.length + s.readBuffer.length ≤ fuel) (ret : ℕ) :
    Reads s (readLoop fuel s ret).1 := by
  induction fuel generalizing s ret with
  | zero =>
    have h0 : s.receiveBuffer = [] := List.length_eq_zero_iff.mp (by omega)
    exact ⟨h, rfl, .inl h0, .refl s⟩
  | succ fuel ih =>
    simp only [Receiver.readLoop]
    split
    next p packets target targets hp ht =>
      obtain ⟨hb, hs, hlt⟩ := h.readRound hp ht rfl
      have hsame := readRound_same s p packets target targets
        (min (min p.payloadSize target) (65535 - p.headerSize))
      split
      next h0 => exact ⟨hb, hs, .inl (hb.receiveBuffer_eq_nil h0), hsame⟩
      next =>
        have h' := ih hb (by omega) (ret + min (min p.payloadSize target) (65535 - p.headerSize))
        exact ⟨h'.buffers, h'.stream.trans hs, h'.settled, hsame.trans h'.window⟩
    next hne =>
      refine ⟨h, rfl, ?_, .refl s⟩
      cases hp : s.receiveBuffer with
      | nil => exact .inl hp
      | cons p packets =>
        cases ht : s.readBuffer with
        | nil => exact .inr ht
        | cons target targets => exact (hne p packets target targets hp ht).elim

theorem Buffers.readSome (h : s.Buffers) (clearBuffers : Bool) :
    Reads s (s.readSome clearBuffers).1 := by
  rw [Receiver.readSome]
  split
  next h0 =>
    have hnil := h.receiveBuffer_eq_nil h0
    cases clearBuffers with
    | false => exact ⟨h, rfl, .inl hnil, .refl s⟩
    | true => exact ⟨h.clearReadBuffer, rfl, .inl hnil, ⟨rfl, rfl, rfl, rfl⟩⟩
  next =>
    have hr := h.readLoop le_rfl 0
    cases clearBuffers with
    | false => exact hr
    | true =>
      exact ⟨hr.buffers.clearReadBuffer, hr.stream, .inr rfl, hr.window.trans ⟨rfl, rfl, rfl, rfl⟩⟩

theorem Buffers.maybeTriggerReceiveCallback (h : s.Buffers) (hset : s.Settled) (ec : Bool) :
    Reads s (s.maybeTriggerReceiveCallback ec) := by
  have hkeep : Reads s s := ⟨h, rfl, hset, .refl s⟩
  rw [Receiver.maybeTriggerReceiveCallback]
  split
  next => exact hkeep
  next =>
    split
    next => exact hkeep
    next =>
      split
      next => exact hkeep
      next =>
        have hc := h.clearReadBuffer
        exact ⟨⟨hc.pending, hc.receiveSize, hc.targets, hc.readSize⟩, rfl, .inr rfl,
          ⟨rfl, rfl, rfl, rfl⟩⟩

theorem Buffers.issueRead (h : s.Buffers) : Reads s s.issueRead := by
  have h0 : Buffers { s with nullBuffers := s.readBufferSize == 0, readHandler := true } :=
    ⟨h.pending, h.receiveSize, h.targets, h.readSize⟩
  have hr := h0.readSome false
  simp only [Receiver.issueRead]
  generalize Receiver.readSome
    { s with nullBuffers := s.readBufferSize == 0, readHandler := true } false = r at hr ⊢
  have hb : Buffers { r.1 with read := r.1.read + r.2.1 } :=
    ⟨hr.buffers.pending, hr.buffers.receiveSize, hr.buffers.targets, hr.buffers.readSize⟩
  have hc := hb.maybeTriggerReceiveCallback hr.settled r.2.2
  refine ⟨hc.buffers, hc.stream.trans hr.stream, hc.settled, ?_⟩
  exact ⟨hc.window.state.trans hr.window.state, hc.window.ackNr.trans hr.window.ackNr,
    hc.window.inbuf.trans hr.window.inbuf,
    hc.window.bufferedIncomingBytes.trans hr.window.bufferedIncomingBytes⟩

/-! ### Arrivals -/

/-- The loop of `incoming` hands `buf` on, to the user as far as there is room and to the queue for
the rest. -/
theorem Buffers.incomingLoop {buf : List UInt8} {p : Option Packet} {targets : List ℕ}
    (h : s.Buffers) (hset : s.Settled) (ht : s.readBuffer = targets) (h0 : buf ≠ [])
    (hlt : buf.length < 65536) (hp : ∀ q, p = some q → q.Pending ∧ q.payload = buf) :
    (s.incomingLoop buf p targets).Buffers ∧
    (s.incomingLoop buf p targets).stream = s.stream ++ buf ∧
    (s.incomingLoop buf p targets).Settled ∧ SameWindow s (s.incomingLoop buf p targets) := by
  induction targets generalizing s buf p with
  | nil =>
    -- the packet that is queued holds `buf`, whether it was passed in or acquired
    have hq : (p.getD (Packet.acquire buf)).Pending ∧
        (p.getD (Packet.acquire buf)).payload = buf := by
      cases p with
      | none => exact ⟨Packet.acquire_pending hlt h0, Packet.acquire_payload hlt⟩
      | some q => exact hp q rfl
    obtain ⟨hpend, hpay⟩ := hq
    have hunread : (s.incomingLoop buf p []).unread = s.unread ++ buf := by
      simp [Receiver.incomingLoop, unread, hpay]
    refine ⟨⟨fun q hq => ?_, ?_, h.targets, h.readSize⟩, ?_, .inr ht, ⟨rfl, rfl, rfl, rfl⟩⟩
    · rcases List.mem_append.mp hq with hq | hq
      · exact h.pending q hq
      · rw [List.mem_singleton.mp hq]
        exact hpend
    · rw [hunread, List.length_append]
      change s.receiveBufferSize + (p.getD (Packet.acquire buf)).payloadSize = _
      rw [h.receiveSize, ← hpend.payload_length, hpay]
      norm_cast
    · rw [stream, hunread, ← List.append_assoc]
      rfl
  | cons target targets ih =>
    have hnil : s.receiveBuffer = [] := hset.resolve_right (by simp [ht])
    have hpos : 0 < target := h.targets target (by simp [ht])
    have hsum := h.readSize
    rw [ht, List.sum_cons] at hsum
    have hunread : s.unread = [] := by rw [unread, hnil, List.flatMap_nil]
    rw [Receiver.incomingLoop]
    split
    next hall =>
      have hc : min buf.length target = buf.length := by omega
      refine ⟨⟨h.pending, h.receiveSize, fun t htm => ?_, ?_⟩, ?_, .inl hnil, ⟨rfl, rfl, rfl, rfl⟩⟩
      · dsimp only at htm
        split at htm
        next => exact h.targets t (by simp [ht, htm])
        next hne =>
          rcases List.mem_cons.mp htm with rfl | htm
          · omega
          · exact h.targets t (by simp [ht, htm])
      · dsimp only
        split
        next => omega
        next =>
          rw [List.sum_cons]
          omega
      · change s.copied ++ buf.take (min buf.length target) ++ s.unread = _
        rw [hc, List.take_length, stream, hunread, List.append_nil, List.append_nil]
    next hmore =>
      have hc : min buf.length target = target := by omega
      simp only [hc, Nat.sub_self, if_true]
      have hb : Buffers { s with
          copied := s.copied ++ buf.take target, read := s.read + target,
          readBufferSize := s.readBufferSize - target, readBuffer := targets } := by
        refine ⟨h.pending, h.receiveSize, fun t htm => h.targets t (by simp [ht, htm]), ?_⟩
        change s.readBufferSize - target = (targets.sum : ℕ)
        omega
      have hp' : ∀ q, p.map (·.consume target) = some q → q.Pending ∧ q.payload = buf.drop target := by
        intro q hq
        obtain ⟨q₀, hq₀, rfl⟩ := Option.map_eq_some_iff.mp hq
        obtain ⟨hpend, hpay⟩ := hp q₀ hq₀
        have hlt' : target < q₀.payloadSize := by
          rw [← hpend.payload_length, hpay]
          omega
        exact ⟨hpend.consume hlt', by rw [hpend.consume_payload hlt'.le, hpay]⟩
      obtain ⟨hb', hs', hset', hsame⟩ := ih hb (.inl hnil) rfl
        (by
          apply List.ne_nil_of_length_pos
          rw [List.length_drop]
          omega)
        (by rw [List.length_drop]; omega) hp'
      refine ⟨hb', ?_, hset', ⟨hsame.state, hsame.ackNr, hsame.inbuf, hsame.bufferedIncomingBytes⟩⟩
      rw [hs']
      change s.copied ++ buf.take target ++ s.unread ++ buf.drop target = _
      rw [stream, hunread, List.append_nil, List.append_nil, List.append_assoc,
        List.take_append_drop]

theorem Buffers.incoming {bytes : List UInt8} {p : Option Packet} (h : s.Buffers)
    (hset : s.Settled) (hlt : bytes.length < 65536) (buf : List UInt8)
    (hp : p = none ∧ buf = bytes ∨ p = some (Packet.acquire bytes)) :
    (s.incoming buf p).Buffers ∧ (s.incoming buf p).stream = s.stream ++ bytes ∧
    (s.incoming buf p).Settled ∧ SameWindow s (s.incoming buf p) := by
  have hbytes : (p.map Packet.payload).getD buf = bytes := by
    rcases hp with ⟨rfl, rfl⟩ | rfl
    · rfl
    · exact Packet.acquire_payload hlt
  rw [Receiver.incoming, hbytes]
  split
  next h0 =>
    rw [List.length_eq_zero_iff.mp h0, List.append_nil]
    exact ⟨h, rfl, hset, .refl s⟩
  next h0 =>
    have hne : bytes ≠ [] := fun hc => h0 (by rw [hc, List.length_nil])
    refine h.incomingLoop hset rfl hne hlt fun q hq => ?_
    rcases hp with ⟨rfl, -⟩ | rfl
    · exact absurd hq (by simp)
    · cases hq
      exact ⟨Packet.acquire_pending hlt hne, Packet.acquire_payload hlt⟩

/-! ### The reorder buffer -/

/-- The payload bytes in `m_inbuf`. -/
def buffered (inbuf : ℕ → Option Packet) : ℕ := RingStore.total 65536 Packet.payloadSize inbuf

theorem buffered_update (inbuf : ℕ → Option Packet) {k : ℕ} (hk : k < 65536) (v : Option Packet) :
    buffered (Function.update inbuf k v) + (inbuf k).elim 0 Packet.payloadSize =
      buffered inbuf + v.elim 0 Packet.payloadSize :=
  RingStore.total_update Packet.payloadSize inbuf hk v

/-- The concatenation of the payloads of the packets after `base`, up to `acked`. -/
def sent (payload : ℕ → Payload) (base acked : ℕ) : List UInt8 :=
  (List.range' (base + 1) (acked - base)).flatMap fun n => (payload n).bytes

theorem sent_succ (payload : ℕ → Payload) {base acked : ℕ} (h : base ≤ acked) :
    sent payload base (acked + 1) = sent payload base acked ++ (payload (acked + 1)).bytes := by
  have hn : acked + 1 - base = (acked - base) + 1 := by omega
  have hlast : base + 1 + 1 * (acked - base) = acked + 1 := by omega
  rw [sent, sent, hn, List.range'_concat, List.flatMap_append, hlast]
  simp

/-- Every packet in `m_inbuf` is one whose number lies between `lo` and `hi`, under that number and
with its own payload. -/
def Holds (payload : ℕ → Payload) (lo hi : ℕ) (inbuf : ℕ → Option Packet) : Prop :=
  ∀ k p, inbuf k = some p →
    ∃ n, lo < n ∧ n < hi ∧ n % 65536 = k ∧ p = Packet.acquire (payload n).bytes

/-- The receiver has accepted every packet after `base` up to `acked`, and holds others that lie
between `lo` and `hi`. -/
structure Accepted (payload : ℕ → Payload) (base acked lo hi : ℕ) (s : Receiver) : Prop where
  buffers : s.Buffers
  settled : s.Settled
  ackNr : s.ackNr = acked % 65536
  base_le : base ≤ acked
  stream : s.stream = sent payload base acked
  holds : Holds payload lo hi s.inbuf
  bytes : s.bufferedIncomingBytes = buffered s.inbuf

variable {payload : ℕ → Payload} {base acked lo hi : ℕ}

/-- The loop that empties the reorder buffer ends where the next packet is missing. -/
theorem Accepted.reorderLoop (h : Accepted payload base acked acked hi s) (fuel : ℕ)
    (hhi : hi ≤ acked + 65536) (hf : hi ≤ acked + fuel + 1) :
    ∃ acked', acked ≤ acked' ∧ acked' < acked + fuel + 1 ∧
      (acked' < hi ∨ acked' = acked) ∧
      Accepted payload base acked' (acked' + 1) hi (reorderLoop fuel s) ∧
      (reorderLoop fuel s).state = s.state := by
  induction fuel generalizing s acked with
  | zero =>
    refine ⟨acked, le_rfl, by omega, .inr rfl, ⟨h.buffers, h.settled, h.ackNr, h.base_le, h.stream,
      fun k p hk => ?_, h.bytes⟩, rfl⟩
    obtain ⟨n, h1, h2, -⟩ := h.holds k p hk
    omega
  | succ fuel ih =>
    have hnext : (s.ackNr + 1) &&& 0xffff = (acked + 1) % 65536 := by
      rw [and_ffff, h.ackNr]
      omega
    simp only [Receiver.reorderLoop, hnext]
    split
    next hnone =>
      refine ⟨acked, le_rfl, by omega, .inr rfl, ⟨h.buffers, h.settled, h.ackNr, h.base_le, h.stream,
        fun k p hk => ?_, h.bytes⟩, rfl⟩
      obtain ⟨n, h1, h2, hmod, hp⟩ := h.holds k p hk
      have hne : n ≠ acked + 1 := by
        rintro rfl
        rw [← hmod, hnone] at hk
        exact absurd hk (by simp)
      exact ⟨n, by omega, h2, hmod, hp⟩
    next p hsome =>
      obtain ⟨n, h1, h2, hmod, hp⟩ := h.holds _ _ hsome
      obtain rfl : n = acked + 1 := by omega
      have hlt : (acked + 1) % 65536 < 65536 := Nat.mod_lt _ (by decide)
      have hupd := buffered_update s.inbuf hlt none
      rw [hsome] at hupd
      simp only [Option.elim_none, Option.elim_some] at hupd
      -- the packet leaves the reorder buffer ...
      have hb : Buffers { s with
          inbuf := Function.update s.inbuf ((acked + 1) % 65536) none
          bufferedIncomingBytes := s.bufferedIncomingBytes - p.payloadSize } :=
        ⟨h.buffers.pending, h.buffers.receiveSize, h.buffers.targets, h.buffers.readSize⟩
      -- ... and is handed on
      obtain ⟨hb', hs', hset', hsame⟩ := hb.incoming h.settled (payload (acked + 1)).size_lt []
        (.inr (congrArg some hp))
      have hacc : Accepted payload base (acked + 1) (acked + 1) hi { Receiver.incoming { s with
          inbuf := Function.update s.inbuf ((acked + 1) % 65536) none
          bufferedIncomingBytes := s.bufferedIncomingBytes - p.payloadSize } [] (some p) with
            ackNr := (acked + 1) % 65536 } := by
        refine ⟨⟨hb'.pending, hb'.receiveSize, hb'.targets, hb'.readSize⟩, hset', rfl,
          h.base_le.trans (Nat.le_succ _), ?_, ?_, ?_⟩
        · exact hs'.trans (by rw [sent_succ payload h.base_le, ← h.stream]; rfl)
        · intro k q hk
          change (Receiver.incoming _ _ _).inbuf k = some q at hk
          rw [hsame.inbuf] at hk
          have hkne : k ≠ (acked + 1) % 65536 := by
            rintro rfl
            exact absurd hk (by simp)
          change Function.update s.inbuf _ none k = some q at hk
          rw [Function.update_of_ne hkne] at hk
          obtain ⟨m, m1, m2, mmod, mp⟩ := h.holds k q hk
          have hmne : m ≠ acked + 1 := by
            rintro rfl
            exact hkne mmod.symm
          exact ⟨m, by omega, m2, mmod, mp⟩
        · change (Receiver.incoming _ _ _).bufferedIncomingBytes = buffered (Receiver.incoming _ _ _).inbuf
          rw [hsame.bufferedIncomingBytes, hsame.inbuf]
          change s.bufferedIncomingBytes - p.payloadSize = buffered (Function.update _ _ _)
          rw [h.bytes]
          omega
      obtain ⟨acked', hle, hlt', hhi', hacc', hst⟩ := ih hacc (by omega) (by omega)
      exact ⟨acked', by omega, by omega, by omega, hacc', hst.trans hsame.state⟩

/-! ### Runs -/

/-- The invariant of a run: the reorder buffer holds only packets beyond the next one. -/
def Inv (payload : ℕ → Payload) (base acked : ℕ) (s : Receiver) : Prop :=
  s.state = .connected ∧ Accepted payload base acked (acked + 1) (acked + 32768) s

/-- `s'` has accepted more packets than `s`, by fewer than `2 ^ 16`. -/
def Advances (payload : ℕ → Payload) (base acked : ℕ) (s' : Receiver) : Prop :=
  ∃ acked', acked ≤ acked' ∧ acked' < acked + 65536 ∧ Inv payload base acked' s'

theorem Inv.advances (h : Inv payload base acked s) : Advances payload base acked s :=
  ⟨acked, le_rfl, by omega, h⟩

/-- A packet numbered `n` arrives while `acked` is the last one acknowledged: it lies less than
`2 ^ 15` behind, or ahead by less than the `2 ^ 16` numbers that 16 bits tell apart. The numbers
ahead that the reorder-window check does not let pass are among them. -/
def Arrives (acked n : ℕ) : Prop := acked < n + 32768 ∧ n < acked + 65536

/-- What `consume_incoming_data` does with the packet that is next. -/
theorem Inv.consume_next (h : Inv payload base acked s) :
    let s' := s.incoming (payload (acked + 1)).bytes none
    Advances payload base acked
      (reorderLoop 65536 { s' with ackNr := (s'.ackNr + 1) &&& 0xffff }) := by
  obtain ⟨hst, h⟩ := h
  intro s'
  obtain ⟨hb, hs, hset, hsame⟩ := h.buffers.incoming h.settled (payload (acked + 1)).size_lt _
    (.inl ⟨rfl, rfl⟩)
  have hnext : (s'.ackNr + 1) &&& 0xffff = (acked + 1) % 65536 := by
    rw [and_ffff, hsame.ackNr, h.ackNr]
    omega
  have hacc : Accepted payload base (acked + 1) (acked + 1) (acked + 32768)
      { s' with ackNr := (s'.ackNr + 1) &&& 0xffff } := by
    refine ⟨⟨hb.pending, hb.receiveSize, hb.targets, hb.readSize⟩, hset, hnext,
      h.base_le.trans (Nat.le_succ _), ?_, ?_, ?_⟩
    · exact hs.trans (by rw [sent_succ payload h.base_le, ← h.stream])
    · change Holds _ _ _ s'.inbuf
      rw [hsame.inbuf]
      exact h.holds
    · change s'.bufferedIncomingBytes = buffered s'.inbuf
      rw [hsame.bufferedIncomingBytes, hsame.inbuf]
      exact h.bytes
  obtain ⟨acked', hle, hlt, hhi, hacc', hst'⟩ := hacc.reorderLoop 65536 (by omega)
    (by omega)
  refine ⟨acked', by omega, by omega, hst'.trans (hsame.state.trans hst), ?_⟩
  refine ⟨hacc'.buffers, hacc'.settled, hacc'.ackNr, hacc'.base_le, hacc'.stream, ?_, hacc'.bytes⟩
  intro k p hk
  obtain ⟨n, h1, h2, hn⟩ := hacc'.holds k p hk
  exact ⟨n, h1, by omega, hn⟩

/-- A packet ahead of the next one goes into the reorder buffer. -/
theorem Inv.hold (h : Inv payload base acked s) {n : ℕ} (h1 : acked + 1 < n) (h2 : n < acked + 32768)
    (hfree : s.inbuf (n % 65536) = none) :
    Inv payload base acked { s with
      bufferedIncomingBytes := s.bufferedIncomingBytes + (Packet.acquire (payload n).bytes).size
      inbuf := Function.update s.inbuf (n % 65536) (some (Packet.acquire (payload n).bytes)) } := by
  obtain ⟨hst, h⟩ := h
  refine ⟨hst, ⟨h.buffers.pending, h.buffers.receiveSize, h.buffers.targets, h.buffers.readSize⟩,
    h.settled, h.ackNr, h.base_le, h.stream, fun k p hk => ?_, ?_⟩
  · change Function.update s.inbuf (n % 65536) (some (Packet.acquire (payload n).bytes)) k = some p
      at hk
    by_cases hkn : k = n % 65536
    · subst hkn
      rw [Function.update_self] at hk
      exact ⟨n, h1, h2, rfl, (Option.some.inj hk).symm⟩
    · rw [Function.update_of_ne hkn] at hk
      exact h.holds k p hk
  · have hupd := buffered_update s.inbuf (Nat.mod_lt n (by decide))
      (some (Packet.acquire (payload n).bytes))
    rw [hfree] at hupd
    simp only [Option.elim_none, Option.elim_some] at hupd
    change s.bufferedIncomingBytes + _ = (buffered _ : ℤ)
    rw [h.bytes]
    simp only [Packet.payloadSize, Packet.acquire, Nat.sub_zero] at hupd ⊢
    omega

theorem Inv.consumeIncomingData (h : Inv payload base acked s) {n : ℕ} (hn : Arrives acked n) :
    Advances payload base acked (s.consumeIncomingData (n % 65536) (payload n).bytes).1 := by
  obtain ⟨hlo, hhi⟩ := hn
  have hack := h.2.ackNr
  rw [Receiver.consumeIncomingData]
  split
  next => exact h.advances
  split
  next => exact h.advances
  split
  next heq =>
    -- the number that is next modulo `2 ^ 16` is the next one
    obtain rfl : n = acked + 1 := by
      rw [and_ffff, hack] at heq
      omega
    split
    next => exact h.advances
    next => exact h.consume_next
  next hne =>
    split
    next => exact h.advances
    next hless =>
      have hd : 32768 < seqDist (n % 65536) (acked % 65536) := by
        rw [Bool.not_eq_true, Bool.not_eq_false', hack] at hless
        exact (compareLessWrap_iff (Nat.mod_lt _ (by decide)) (Nat.mod_lt _ (by decide))).mp hless
      have hahead : acked + 1 < n ∧ n < acked + 32768 := by
        rw [and_ffff, hack] at hne
        simp only [seqDist, RingStore.dist] at hd
        omega
      split
      next => exact h.advances
      next hfree =>
        split
        next => exact h.advances
        next =>
          have hfree' : s.inbuf (n % 65536) = none := Option.not_isSome_iff_eq_none.mp hfree
          exact (h.hold hahead.1 hahead.2 hfree').advances

/-- An `ST_DATA` packet comes in. -/
theorem Inv.incomingPacket (h : Inv payload base acked s) {n : ℕ} (hn : Arrives acked n)
    (own : SendSide) (ackNr : ℕ) :
    Advances payload base acked
      (s.incomingPacket own .data (n % 65536) ackNr (payload n).bytes) := by
  rw [Receiver.incomingPacket]
  split
  next => exact h.advances
  split
  next => exact h.advances
  split
  next => exact h.advances
  split
  next => exact h.advances
  · rw [if_neg (by decide), if_neg (by decide), acceptPacket, h.1]
    exact h.consumeIncomingData hn

/-- A connected socket takes no payload from an `ST_STATE` packet. -/
theorem incomingPacket_state (h : s.state = .connected) (own : SendSide) (seqNr ackNr : ℕ)
    (bytes : List UInt8) : s.incomingPacket own .state seqNr ackNr bytes = s := by
  rw [Receiver.incomingPacket]
  split
  next => rfl
  split
  next => rfl
  split
  next => rfl
  split
  next => rfl
  · rw [if_neg (by decide), if_neg (by decide), acceptPacket, h]
    rfl

theorem Inv.reads (h : Inv payload base acked s) (hr : Reads s s') : Inv payload base acked s' := by
  obtain ⟨hst, h⟩ := h
  refine ⟨hr.window.state.trans hst, hr.buffers, hr.settled, hr.window.ackNr.trans h.ackNr, h.base_le,
    hr.stream.trans h.stream, ?_, ?_⟩
  · rw [hr.window.inbuf]
    exact h.holds
  · rw [hr.window.bufferedIncomingBytes, hr.window.inbuf]
    exact h.bytes

/-- `add_read_buffer` for every buffer the user posts. -/
def addReadBuffers (s : Receiver) (lens : List ℕ) : Receiver := lens.foldl addReadBuffer s

theorem Buffers.addReadBuffers (h : s.Buffers) (lens : List ℕ) :
    (s.addReadBuffers lens).Buffers ∧ (s.addReadBuffers lens).stream = s.stream ∧
    SameWindow s (s.addReadBuffers lens) := by
  induction lens generalizing s with
  | nil => exact ⟨h, rfl, .refl s⟩
  | cons len lens ih =>
    obtain ⟨hb, hs, hw⟩ := ih (h.addReadBuffer len)
    exact ⟨hb, hs.trans (addReadBuffer_stream s len), (addReadBuffer_same s len).trans hw⟩

/-- What can happen to the receiving half of a connected socket. -/
inductive Event where
  /-- the `ST_DATA` packet that the other end has numbered `n` comes in -/
  | data (n : ℕ) (own : SendSide) (ackNr : ℕ)
  /-- an `ST_STATE` packet comes in, which the other end sent before the packet it numbers `n` -/
  | state (n : ℕ) (own : SendSide) (ackNr : ℕ)
  /-- the user posts buffers and calls `issue_read` -/
  | issueRead (lens : List ℕ)
  /-- the user posts buffers and calls `read_some` -/
  | readSome (lens : List ℕ) (clearBuffers : Bool)
  /-- `socket_drained` -/
  | drained

/-- What the event does to the receiver. A packet carries the low 16 bits of its number, and an
`ST_STATE` packet those of the next one. -/
def step (payload : ℕ → Payload) (s : Receiver) : Event → Receiver
  | .data n own ackNr => s.incomingPacket own .data (n % 65536) ackNr (payload n).bytes
  | .state n own ackNr => s.incomingPacket own .state (n % 65536) ackNr []
  | .issueRead lens => (s.addReadBuffers lens).issueRead
  | .readSome lens clearBuffers => ((s.addReadBuffers lens).readSome clearBuffers).1
  | .drained => s.maybeTriggerReceiveCallback false

/-- Only the arrival of payload is restricted. -/
def Event.Allowed (acked : ℕ) : Event → Prop
  | .data n _ _ => Arrives acked n
  | .state _ _ _ => True
  | .issueRead _ => True
  | .readSome _ _ => True
  | .drained => True

instance (acked : ℕ) (e : Event) : Decidable (e.Allowed acked) :=
  match e with
  | .data n _ _ => inferInstanceAs (Decidable (acked < n + 32768 ∧ n < acked + 65536))
  | .state _ _ _ => inferInstanceAs (Decidable True)
  | .issueRead _ => inferInstanceAs (Decidable True)
  | .readSome _ _ => inferInstanceAs (Decidable True)
  | .drained => inferInstanceAs (Decidable True)

/-- The runs of a connected socket whose peer numbers its first packet `base + 1`. The number
`acked` is the one `m_ack_nr` stands for: it moves as far as `m_ack_nr` does in each step. -/
inductive Run (payload : ℕ → Payload) (base : ℕ) : Receiver → ℕ → Prop
  | start (inEof : Bool) (inEofSeqNr : ℕ) :
      Run payload base { ackNr := base % 65536, inEof, inEofSeqNr } base
  | step {s : Receiver} {acked : ℕ} (h : Run payload base s acked) (e : Event)
      (he : e.Allowed acked) :
      Run payload base (s.step payload e) (acked + seqDist s.ackNr (s.step payload e).ackNr)

theorem Inv.step (h : Inv payload base acked s) {e : Event} (he : e.Allowed acked) :
    Advances payload base acked (s.step payload e) := by
  have hposted : ∀ lens, (s.addReadBuffers lens).Buffers ∧
      (s.addReadBuffers lens).stream = s.stream ∧ SameWindow s (s.addReadBuffers lens) :=
    fun lens => h.2.buffers.addReadBuffers lens
  have hread : ∀ {lens s''}, Reads (s.addReadBuffers lens) s'' → Reads s s'' := fun {lens _} hr =>
    ⟨hr.buffers, hr.stream.trans (hposted lens).2.1, hr.settled, (hposted lens).2.2.trans hr.window⟩
  cases e with
  | data n own ackNr => exact h.incomingPacket he own ackNr
  | state n own ackNr =>
    rw [Receiver.step, incomingPacket_state h.1]
    exact h.advances
  | issueRead lens => exact (h.reads (hread (hposted lens).1.issueRead)).advances
  | readSome lens clearBuffers =>
    exact (h.reads (hread ((hposted lens).1.readSome clearBuffers))).advances
  | drained =>
    exact (h.reads (h.2.buffers.maybeTriggerReceiveCallback h.2.settled false)).advances

theorem inv_start (payload : ℕ → Payload) (base : ℕ) (inEof : Bool) (inEofSeqNr : ℕ) :
    Inv payload base base { ackNr := base % 65536, inEof, inEofSeqNr } := by
  refine ⟨rfl, ⟨fun p hp => absurd hp (by simp), rfl, fun t ht => absurd ht (by simp), rfl⟩, .inl rfl,
    rfl, le_rfl, ?_, fun k p hk => absurd hk (by simp), ?_⟩
  · simp [stream, unread, sent]
  · rw [buffered, RingStore.total_empty]
    rfl

theorem Run.inv (h : Run payload base s acked) : Inv payload base acked s := by
  induction h with
  | start inEof inEofSeqNr => exact inv_start payload base inEof inEofSeqNr
  | step h e he ih =>
    obtain ⟨acked', hle, hlt, hinv⟩ := ih.step he
    have hd : ∀ a : ℕ, acked' = a + seqDist (a % 65536) (acked' % 65536) ∨ acked' < a ∨
        a + 65536 ≤ acked' := by
      intro a
      simp only [seqDist, RingStore.dist]
      omega
    rename_i s₀ acked₀
    have hnum : acked₀ + seqDist s₀.ackNr (s₀.step payload e).ackNr = acked' := by
      rw [ih.2.ackNr, hinv.2.ackNr]
      rcases hd acked₀ with h' | h' | h' <;> omega
    rw [hnum]
    exact hinv

/-- After every step of every run: what the user has been given, followed by what waits to be read,
is the payload of every packet up to `m_ack_nr`; the reorder buffer holds only packets beyond the
next one, with the payload they were sent with; the two counters are exact; and nothing waits while
a posted buffer has room. -/
theorem run_delivers (h : Run payload base s acked) :
    s.ackNr = acked % 65536 ∧
    s.copied ++ s.unread = sent payload base acked ∧
    (∀ k p, s.inbuf k = some p →
      ∃ n, acked + 1 < n ∧ n < acked + 32768 ∧ n % 65536 = k ∧ p.payload = (payload n).bytes) ∧
    s.receiveBufferSize = s.unread.length ∧
    s.bufferedIncomingBytes = buffered s.inbuf ∧
    (s.receiveBuffer = [] ∨ s.readBuffer = []) := by
  obtain ⟨-, hacc⟩ := h.inv
  refine ⟨hacc.ackNr, hacc.stream, fun k p hk => ?_, hacc.buffers.receiveSize, hacc.bytes,
    hacc.settled⟩
  obtain ⟨n, h1, h2, hmod, rfl⟩ := hacc.holds k p hk
  exact ⟨n, h1, h2, hmod, Packet.acquire_payload (payload n).size_lt⟩

/-- Two packets of two bytes each arrive in the wrong order, around a wrap of `m_ack_nr`, and the
user reads three of the four bytes. -/
theorem run_delivers_wrap :
    let payload : ℕ → Payload := fun n => ⟨[n.toUInt8, 7], by simp⟩
    let own : SendSide := ⟨5, 4⟩
    let s : Receiver := { ackNr := 65535 }
    let s' := ((s.step payload (.data 65537 own 4)).step payload (.data 65536 own 4)).step payload
      (.issueRead [3])
    s'.ackNr = 1 ∧ s'.copied = [0, 7, 1] ∧ s'.copied ++ s'.unread = sent payload 65535 65537 := by
  intro payload own s s'
  have run₀ : Run payload 65535 s 65535 := .start false 0
  have run₃ := ((run₀.step (.data 65537 own 4) (by decide)).step (.data 65536 own 4)
    (by decide +kernel)).step (.issueRead [3]) trivial
  obtain ⟨acked, run, rfl⟩ : ∃ acked, Run payload 65535 s' acked ∧ acked = 65537 :=
    ⟨_, run₃, by decide +kernel⟩
  exact ⟨by decide +kernel, by decide +kernel, (run_delivers run).2.1⟩

end Receiver

end Utp

end LibtorrentSN
