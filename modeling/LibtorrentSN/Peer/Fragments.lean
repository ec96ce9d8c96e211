import LibtorrentSN.Peer.Framing

/-!
# Framing does not depend on fragmentation

However the bytes of a stream are split into reads, the handlers see its frames. One invariant
carries the proof: the bytes fed so far are the frames handled, the four bytes of a length once its
message has begun, and the bytes of the current packet in the receive buffer.
-/

namespace LibtorrentSN

namespace Peer

/-- The stream `s` consists of the frames `fs`, followed by `rest`. -/
inductive Framed : List UInt8 → List (List UInt8) → List UInt8 → Prop where
  | nil (rest : List UInt8) : Framed rest [] rest
  | cons {header body s rest : List UInt8} {fs : List (List UInt8)} (hlen : header.length = 4)
    (hval : bigEndian header = body.length) (hle : body.length ≤ 2 ^ 20)
    (hs : Framed s fs rest) : Framed (header ++ body ++ s) (body :: fs) rest

theorem Framed.append {s rest : List UInt8} {fs : List (List UInt8)} (h : Framed s fs rest)
    (t : List UInt8) : Framed (s ++ t) fs (rest ++ t) := by
  induction h with
  | nil rest => exact .nil _
  | cons hlen hval hle _ ih =>
    rw [List.append_assoc]
    exact .cons hlen hval hle ih

theorem Framed.snoc {s header body rest : List UInt8} {fs : List (List UInt8)}
    (h : Framed s fs (header ++ body ++ rest)) (hlen : header.length = 4)
    (hval : bigEndian header = body.length) (hle : body.length ≤ 2 ^ 20) :
    Framed s (fs ++ [body]) rest := by
  generalize ht : header ++ body ++ rest = t at h
  induction h with
  | nil t =>
    rw [← ht]
    exact .cons hlen hval hle (.nil rest)
  | cons hlen' hval' hle' _ ih => exact .cons hlen' hval' hle' (ih ht)

/-- No complete frame starts at `rest`. -/
def Incomplete (rest : List UInt8) : Prop :=
  4 ≤ rest.length → bigEndian (rest.take 4) ≤ 2 ^ 20 →
    rest.length < 4 + bigEndian (rest.take 4)

/-- Reading frames finds exactly these. -/
theorem Framed.splitFrames_eq {s rest : List UInt8} {fs : List (List UInt8)}
    (h : Framed s fs rest) (hrest : Incomplete rest) {fuel : ℕ} (hfuel : s.length ≤ fuel) :
    splitFrames fuel s = (fs, rest) := by
  induction h generalizing fuel with
  | nil rest =>
    cases fuel with
    | zero => rfl
    | succ fuel =>
      rw [splitFrames, if_neg]
      rintro ⟨h4, hn, hle⟩
      have := hrest h4 hn
      omega
  | @cons header body s rest fs hlen hval hle _ ih =>
    have htake : (header ++ body ++ s).take 4 = header := by
      rw [← hlen, List.append_assoc, List.take_left]
    have hdrop : (header ++ body ++ s).drop 4 = body ++ s := by
      rw [← hlen, List.append_assoc, List.drop_left]
    simp only [List.length_append] at hfuel
    obtain ⟨fuel, rfl⟩ : ∃ f, fuel = f + 1 := ⟨fuel - 1, by omega⟩
    have hcond : 4 ≤ (header ++ body ++ s).length ∧ bigEndian header ≤ 2 ^ 20 ∧
        4 + bigEndian header ≤ (header ++ body ++ s).length := by
      simp only [List.length_append]
      omega
    have hnext : (header ++ body ++ s).drop (4 + bigEndian header) = s := by
      rw [← List.drop_drop, hdrop, hval, List.drop_left]
    have hbody : (body ++ s).take (bigEndian header) = body := by
      rw [hval, List.take_left]
    rw [splitFrames, htake, if_pos hcond, hnext, hdrop, hbody, ih hrest (by omega)]

theorem bigEndian_lt {s : List UInt8} (h : s.length = 4) : bigEndian s < 2 ^ 32 := by
  match s, h with
  | [a, b, c, d], _ =>
    have ha := a.toNat_lt
    have hb := b.toNat_lt
    have hc := c.toNat_lt
    have hd := d.toNat_lt
    simp only [bigEndian, List.foldl_cons, List.foldl_nil]
    omega

/-- The length field is accepted when it is at most one megabyte. -/
theorem readInt32_bounds {s : List UInt8} (h : 4 ≤ s.length)
    (hok : ¬ (readInt32 s > 1024 * 1024 ∨ readInt32 s < 0)) :
    readInt32 s = bigEndian (s.take 4) ∧ bigEndian (s.take 4) ≤ 2 ^ 20 := by
  have hlen : (s.take 4).length = 4 := by
    rw [List.length_take]
    omega
  have hlt := bigEndian_lt hlen
  simp only [readInt32] at hok ⊢
  split at hok
  next hsmall =>
    rw [if_pos hsmall]
    omega
  next => omega

namespace Connection

variable {A : Malloc} {h : Handlers} {c c' : Connection}

/-- The bytes counted as received. -/
def counted (c : Connection) : ℕ := c.payload + c.protocol

/-- Every call of a handler was for a message of a known type. -/
def AllKnown (c : Connection) : Prop := ∀ e ∈ c.handled, Known e.1

/-- Where the connection is in its stream: `got` are the bytes of the current packet. -/
inductive Position (c : Connection) (fed got : List UInt8) : Prop where
  /-- part of a length, or all of it without the first byte of its message -/
  | size (hstate : c.state = .readPacketSize) (hpacket : c.recvBuffer.packetSize = 5)
    (hframed : Framed fed c.finished got) (hlen : got.length < 5)
    (hval : got.length = 4 → 0 < bigEndian got) (hknown : c.AllKnown ↔ ∀ f ∈ c.finished, Known f)
  /-- part of a message -/
  | packet {header : List UInt8} (hstate : c.state = .readPacket) (hheader : header.length = 4)
    (hval : bigEndian header = c.recvBuffer.packetSize) (hle : c.recvBuffer.packetSize ≤ 2 ^ 20)
    (hframed : Framed fed c.finished (header ++ got)) (hpos : 0 < got.length)
    (hlen : got.length < c.recvBuffer.packetSize)
    (hknown : c.AllKnown ↔ (∀ f ∈ c.finished, Known f) ∧ Known got)

/-- After the bytes `fed`, with `pending` still in the buffer. -/
structure Synced (c : Connection) (fed pending : List UInt8) : Prop where
  position : ∃ got, c.recvBuffer.Holds got pending ∧ Position c fed got
  counted_le : c.counted ≤ fed.length
  counted_eq : c.counted = fed.length ↔ c.AllKnown

/-! ### One call of the upper layer -/

/-- Before a handler is called: `r` of the bytes fed are not counted yet. -/
structure Uncounted (c : Connection) (fed : List UInt8) (r : ℕ) : Prop where
  pos : 0 < r
  le : c.counted + r ≤ fed.length
  eq : c.counted + r = fed.length ↔ c.AllKnown

theorem counted_receivedBytes (c : Connection) (m n : ℕ) :
    (c.receivedBytes m n).counted = c.counted + m + n := by
  simp only [counted, receivedBytes]
  omega

theorem countPiece_counted (c : Connection) {r : ℕ} (hr : r ≤ c.recvBuffer.recvPos) :
    (c.countPiece r).counted = c.counted + r := by
  simp only [countPiece]
  split
  next => rw [counted_receivedBytes]; omega
  next =>
    split
    next => rw [counted_receivedBytes]; omega
    next => rw [counted_receivedBytes]; omega

@[simp] theorem countPiece_recvBuffer (c : Connection) (r : ℕ) :
    (c.countPiece r).recvBuffer = c.recvBuffer := by
  simp only [countPiece]
  split
  · rfl
  · split <;> rfl

@[simp] theorem countPiece_handled (c : Connection) (r : ℕ) :
    (c.countPiece r).handled = c.handled := by
  simp only [countPiece]
  split
  · rfl
  · split <;> rfl

@[simp] theorem countPiece_state (c : Connection) (r : ℕ) :
    (c.countPiece r).state = c.state := by
  simp only [countPiece]
  split
  · rfl
  · split <;> rfl

theorem known_iff {got : List UInt8} (hpos : 0 < got.length) :
    Known got ↔ (got.headD 0).toNat ∈ knownTypes := by
  cases got with
  | nil => exact absurd hpos (by simp)
  | cons t got => simp [Known]

theorem known_append {got new : List UInt8} (hpos : 0 < got.length) :
    Known (got ++ new) ↔ Known got := by
  cases got with
  | nil => exact absurd hpos (by simp)
  | cons t got => simp [Known]

/-- A handler is called with the bytes of the packet, and counts the new ones when it is one for a
known type. -/
theorem dispatchMessage_eq {got pending : List UInt8} {r : ℕ}
    (hb : c.recvBuffer.Holds got pending) (hpos : 0 < got.length) (hr : r ≤ got.length)
    (hd : c.dispatchMessage h r = some c') :
    c'.recvBuffer = c.recvBuffer ∧ c'.state = c.state ∧
      c'.handled = c.handled ++ [(got, c.recvBuffer.packetFinished)] ∧
      (Known got ∧ c'.counted = c.counted + r ∨ ¬ Known got ∧ c'.counted = c.counted) := by
  simp only [dispatchMessage, hb.get_eq] at hd
  rw [known_iff hpos]
  split at hd
  next hknown =>
    split at hd
    next =>
      split at hd
      next =>
        obtain rfl := Option.some.inj hd
        refine ⟨by simp, by simp, by simp, .inl ⟨hknown, ?_⟩⟩
        refine countPiece_counted _ ?_
        exact hb.pos ▸ hr
      next =>
        obtain rfl := Option.some.inj hd
        exact ⟨rfl, rfl, rfl, .inl ⟨hknown, by rw [counted_receivedBytes]; rfl⟩⟩
    next => cases hd
  next hknown =>
    split at hd
    next =>
      obtain rfl := Option.some.inj hd
      exact ⟨rfl, rfl, rfl, .inr ⟨hknown, rfl⟩⟩
    next => cases hd

theorem finished_append {c' : Connection} {e : List UInt8 × Bool}
    (he : c'.handled = c.handled ++ [e]) :
    c'.finished = c.finished ++ if e.2 then [e.1] else [] := by
  obtain ⟨bytes, fin⟩ := e
  rw [finished, finished, he, List.filterMap_append]
  cases fin <;> simp

theorem allKnown_append {c' : Connection} {e : List UInt8 × Bool}
    (he : c'.handled = c.handled ++ [e]) : c'.AllKnown ↔ c.AllKnown ∧ Known e.1 := by
  simp only [AllKnown, he, List.mem_append, List.mem_singleton]
  constructor
  · intro hall
    exact ⟨fun x hx => hall x (.inl hx), hall e (.inr rfl)⟩
  · rintro ⟨hc, hk⟩ x (hx | rfl)
    · exact hc x hx
    · exact hk

/-- A fragment of a message is handled. -/
theorem onReadPacket_synced {fed got pending header : List UInt8} {r : ℕ}
    (hstate : c.state = .readPacket) (hb : c.recvBuffer.Holds got pending)
    (hheader : header.length = 4) (hval : bigEndian header = c.recvBuffer.packetSize)
    (hle : c.recvBuffer.packetSize ≤ 2 ^ 20) (hframed : Framed fed c.finished (header ++ got))
    (hpos : 0 < got.length) (hlen : got.length ≤ c.recvBuffer.packetSize)
    (hknown : Known got → (c.AllKnown ↔ ∀ f ∈ c.finished, Known f)) (hr : r ≤ got.length)
    (hcount : c.Uncounted fed r) (hd : c.onReadPacket h r = some c') :
    c'.Synced fed pending := by
  obtain ⟨d, hdisp, rfl⟩ := Option.map_eq_some_iff.mp hd
  obtain ⟨hbuf, hst, hhandled, hcnt⟩ := dispatchMessage_eq hb hpos hr hdisp
  have hall := allKnown_append hhandled
  have hle' := hcount.le
  have heq := hcount.eq
  have hpos' := hcount.pos
  have hcnt_le : d.counted ≤ fed.length := by omega
  have hcnt_eq : d.counted = fed.length ↔ d.AllKnown := by
    rw [hall]
    obtain ⟨hk, hc⟩ | ⟨hk, hc⟩ := hcnt
    · rw [hc, heq]
      exact ⟨fun ha => ⟨ha, hk⟩, fun ha => ha.1⟩
    · refine ⟨fun ha => absurd ha (by omega), fun ha => absurd ha.2 hk⟩
  have hfin : d.recvBuffer.packetFinished = decide (c.recvBuffer.packetSize ≤ got.length) := by
    rw [hbuf, ReceiveBuffer.packetFinished, hb.pos]
  split
  next hfinished =>
    -- the packet is finished: the buffer starts over
    rw [hfin, decide_eq_true_iff] at hfinished
    have hsize : got.length = c.recvBuffer.packetSize := by omega
    have hlist : d.finished = c.finished ++ [got] := by
      rw [finished_append hhandled]
      simp [ReceiveBuffer.packetFinished, hb.pos, hfinished]
    have hframed' : Framed fed d.finished [] := by
      have hend : Framed fed c.finished (header ++ got ++ []) := by rwa [List.append_nil]
      rw [hlist]
      exact hend.snoc hheader (by omega) (by omega)
    have hreset : (d.recvBuffer.reset 5).Holds [] pending := by
      rw [hbuf]
      exact hb.reset hsize 5
    have hps : (d.recvBuffer.reset 5).packetSize = 5 := by
      rw [ReceiveBuffer.reset]
      split <;> rfl
    refine ⟨⟨[], hreset, .size rfl hps hframed' (by simp) (by simp) ?_⟩, hcnt_le, hcnt_eq⟩
    change d.AllKnown ↔ ∀ f ∈ d.finished, Known f
    rw [hall, hlist]
    constructor
    · rintro ⟨ha, hk⟩ f hf
      rcases List.mem_append.mp hf with hf | hf
      · exact (hknown hk).mp ha f hf
      · rw [List.mem_singleton.mp hf]
        exact hk
    · intro ha
      have hk : Known got := ha got (by simp)
      exact ⟨(hknown hk).mpr fun f hf => ha f (List.mem_append_left _ hf), hk⟩
  next hfinished =>
    rw [hfin, decide_eq_true_iff] at hfinished
    have hlist : d.finished = c.finished := by
      rw [finished_append hhandled]
      simp [ReceiveBuffer.packetFinished, hb.pos, hfinished]
    refine ⟨⟨got, hbuf ▸ hb, .packet (hst.trans hstate) hheader (hbuf ▸ hval) (hbuf ▸ hle)
      (hlist ▸ hframed) hpos (by rw [hbuf]; omega) ?_⟩, hcnt_le, hcnt_eq⟩
    rw [hall, hlist]
    constructor
    · rintro ⟨ha, hk⟩
      exact ⟨(hknown hk).mp ha, hk⟩
    · rintro ⟨ha, hk⟩
      exact ⟨(hknown hk).mpr ha, hk⟩

/-- The length of a message, or part of it, is read. -/
theorem onReadPacketSize_synced {fed got pending : List UInt8} {r : ℕ}
    (hstate : c.state = .readPacketSize) (hpacket : c.recvBuffer.packetSize = 5)
    (hb : c.recvBuffer.Holds got pending) (hframed : Framed fed c.finished got)
    (hlen : got.length ≤ 5) (hknown : c.AllKnown ↔ ∀ f ∈ c.finished, Known f)
    (hr : r ≤ got.length) (hcount : c.Uncounted fed r)
    (hd : c.onReadPacketSize h r = some c') : c'.Synced fed pending := by
  have hle := hcount.le
  have heq := hcount.eq
  have hpos := hcount.pos
  -- the state is left as it is when less than five bytes arrived
  have hpart : got.length < 5 → (got.length = 4 → 0 < bigEndian got) →
      (c.receivedBytes 0 r).Synced fed pending := by
    intro hlt hval
    refine ⟨⟨got, hb, .size hstate hpacket hframed hlt hval hknown⟩, ?_, ?_⟩
    · rw [counted_receivedBytes]
      omega
    · rw [counted_receivedBytes]
      exact heq
  simp only [onReadPacketSize, hb.get_eq] at hd
  split at hd
  next hlt4 =>
    obtain rfl := Option.some.inj hd
    rw [if_neg (by omega)]
    exact hpart (by omega) (by omega)
  next hge4 =>
  split at hd
  next => cases hd
  next hsmall =>
  obtain ⟨hint, hmax⟩ := readInt32_bounds (by omega) hsmall
  have htake : (got.take 4).length = 4 := by
    rw [List.length_take]
    omega
  have hsplit : got.take 4 ++ got.drop 4 = got := List.take_append_drop 4 got
  have hcut : ∀ n, (c.recvBuffer.cut 4 n).Holds (got.drop 4) pending := by
    intro n
    have hb' : c.recvBuffer.Holds (got.take 4 ++ got.drop 4) pending := by rwa [hsplit]
    have := hb'.cut n
    rwa [htake] at this
  split at hd
  next hzero =>
    -- a keep-alive: the fifth byte belongs to the next message
    obtain rfl := Option.some.inj hd
    have hn0 : bigEndian (got.take 4) = 0 := by
      rw [hint] at hzero
      exact_mod_cast hzero
    have hlist : c.finished ++ [[]] = (c.handled ++ [([], true)]).filterMap
        fun e : List UInt8 × Bool => if e.2 then some e.1 else none := by
      rw [List.filterMap_append]
      rfl
    have hframed' : Framed fed (c.finished ++ [[]]) (got.drop 4) := by
      have hg : Framed fed c.finished (got.take 4 ++ [] ++ got.drop 4) := by
        rwa [List.append_nil, hsplit]
      exact hg.snoc htake (by rw [hn0]; rfl) (by simp)
    have hdrop : (got.drop 4).length ≤ 1 := by
      rw [List.length_drop]
      omega
    have hall : ∀ d : Connection, d.handled = c.handled ++ [([], true)] →
        (d.AllKnown ↔ c.AllKnown) := by
      intro d hdh
      rw [allKnown_append hdh]
      exact ⟨fun ha => ha.1, fun ha => ⟨ha, by simp [Known]⟩⟩
    refine ⟨⟨got.drop 4, hcut 5, .size hstate rfl ?_ (by omega) (by omega) ?_⟩, ?_, ?_⟩
    · rw [finished, ← hlist]
      exact hframed'
    · rw [hall _ rfl, finished, ← hlist, hknown]
      constructor
      · intro ha f hf
        rcases List.mem_append.mp hf with hf | hf
        · exact ha f hf
        · rw [List.mem_singleton.mp hf]
          simp [Known]
      · exact fun ha f hf => ha f (List.mem_append_left _ hf)
    · change ((c.receivedBytes 0 _).receivedBytes 0 _).counted ≤ _
      rw [counted_receivedBytes, counted_receivedBytes]
      split <;> omega
    · rw [hall _ rfl, ← heq]
      change ((c.receivedBytes 0 _).receivedBytes 0 _).counted = _ ↔ _
      rw [counted_receivedBytes, counted_receivedBytes]
      split <;> omega
  next hzero =>
  have hn0 : 0 < bigEndian (got.take 4) := by
    rw [hint] at hzero
    have : bigEndian (got.take 4) ≠ 0 := fun hc => hzero (by rw [hc]; rfl)
    omega
  split at hd
  next hlt5 =>
    obtain rfl := Option.some.inj hd
    rw [if_neg (by omega)]
    refine hpart hlt5 fun h4 => ?_
    rwa [List.take_of_length_le (by omega)] at hn0
  next hge5 =>
  have h5 : got.length = 5 := by omega
  have hone : (got.drop 4).length = 1 := by
    rw [List.length_drop]
    omega
  rw [if_pos (by omega)] at hd
  have hleft : r - (r - 1) = 1 := by omega
  rw [hleft, hint, Int.toNat_natCast] at hd
  have hframed' : Framed fed c.finished (got.take 4 ++ got.drop 4) := by rwa [hsplit]
  obtain ⟨d, hdef⟩ : ∃ d : Connection, d = { c.receivedBytes 0 (r - 1) with
      state := .readPacket, recvBuffer := c.recvBuffer.cut 4 (bigEndian (got.take 4)) } := ⟨_, rfl⟩
  have hbuf : d.recvBuffer = c.recvBuffer.cut 4 (bigEndian (got.take 4)) := by rw [hdef]
  have hps : d.recvBuffer.packetSize = bigEndian (got.take 4) := by rw [hbuf]; rfl
  have hhandled : d.handled = c.handled := by rw [hdef]; rfl
  have hfin : d.finished = c.finished := by rw [finished, finished, hhandled]
  have hall : d.AllKnown ↔ c.AllKnown := by rw [AllKnown, AllKnown, hhandled]
  have hcnt : d.counted = c.counted + (r - 1) := by
    have : d.counted = (c.receivedBytes 0 (r - 1)).counted := by rw [hdef]; rfl
    rw [this, counted_receivedBytes, Nat.add_zero]
  rw [← hdef] at hd
  refine onReadPacket_synced (by rw [hdef]) (hbuf ▸ hcut _) htake hps.symm (by omega)
    (hfin ▸ hframed') (by omega) (by omega) (fun _ => ?_) (by omega) ⟨by omega, by omega, ?_⟩ hd
  · rw [hall, hfin, hknown]
  · rw [hcnt, hall, ← heq]
    omega

/-! ### Feeding -/

/-- One round of the loop passes on some bytes and handles them. -/
theorem Synced.round {fed pending : List UInt8} {n : ℕ} (hs : c.Synced fed pending)
    (hn : n = pending.length) (hpos : 0 < n)
    (hd : onReceiveImpl h { c with recvBuffer := (c.recvBuffer.advancePos n).1 }
      (c.recvBuffer.advancePos n).2 = some c') :
    0 < (c.recvBuffer.advancePos n).2 ∧ (c.recvBuffer.advancePos n).2 ≤ n ∧
      c'.Synced (fed ++ pending.take (c.recvBuffer.advancePos n).2)
        (pending.drop (c.recvBuffer.advancePos n).2) := by
  obtain ⟨⟨got, hb, hposn⟩, hle, heq⟩ := hs
  have hadv := hb.advancePos (n := n) hn.le
  have hbpos := hb.pos
  have hsub : (c.recvBuffer.advancePos n).2 ≤ n := min_le_left _ _
  have hlen : (pending.take (c.recvBuffer.advancePos n).2).length =
      (c.recvBuffer.advancePos n).2 := by
    rw [List.length_take]
    omega
  -- the bytes passed on complete the current packet at most
  have hlim : got.length < c.recvBuffer.packetSize →
      0 < (c.recvBuffer.advancePos n).2 ∧
        got.length + (c.recvBuffer.advancePos n).2 ≤ c.recvBuffer.packetSize := by
    intro hlt
    simp only [ReceiveBuffer.advancePos]
    rw [if_pos (by omega)]
    omega
  have hcount : 0 < (c.recvBuffer.advancePos n).2 →
      Uncounted { c with recvBuffer := (c.recvBuffer.advancePos n).1 }
        (fed ++ pending.take (c.recvBuffer.advancePos n).2) (c.recvBuffer.advancePos n).2 := by
    intro hp
    refine ⟨hp, ?_, ?_⟩
    · rw [List.length_append, hlen]
      exact Nat.add_le_add_right hle _
    · rw [List.length_append, hlen, Nat.add_right_cancel_iff]
      exact heq
  cases hposn with
  | size hstate hpacket hframed hlen5 hval hknown =>
    obtain ⟨hp, hmax⟩ := hlim (by omega)
    refine ⟨hp, hsub, ?_⟩
    have hd' : onReadPacketSize h { c with recvBuffer := (c.recvBuffer.advancePos n).1 }
        (c.recvBuffer.advancePos n).2 = some c' := by
      rw [onReceiveImpl] at hd
      simpa only [hstate] using hd
    refine onReadPacketSize_synced
      (c := { c with recvBuffer := (c.recvBuffer.advancePos n).1 }) hstate hpacket hadv
      (hframed.append _) ?_ hknown ?_ (hcount hp) hd'
    · rw [List.length_append, hlen]
      omega
    · rw [List.length_append, hlen]
      omega
  | packet hstate hheader hval hle' hframed hpos' hlt hknown =>
    obtain ⟨hp, hmax⟩ := hlim hlt
    refine ⟨hp, hsub, ?_⟩
    have hd' : onReadPacket h { c with recvBuffer := (c.recvBuffer.advancePos n).1 }
        (c.recvBuffer.advancePos n).2 = some c' := by
      rw [onReceiveImpl] at hd
      simpa only [hstate] using hd
    have hframed' := hframed.append (pending.take (c.recvBuffer.advancePos n).2)
    rw [List.append_assoc] at hframed'
    refine onReadPacket_synced
      (c := { c with recvBuffer := (c.recvBuffer.advancePos n).1 }) hstate hadv hheader hval hle'
      hframed' ?_ ?_ ?_ ?_ (hcount hp) hd'
    · rw [List.length_append]
      omega
    · rw [List.length_append, hlen]
      exact hmax
    · intro hk
      rw [known_append hpos'] at hk
      exact hknown.trans ⟨fun ha => ha.1, fun ha => ⟨ha, hk⟩⟩
    · rw [List.length_append, hlen]
      omega

theorem Synced.feed {fuel n : ℕ} {fed pending : List UInt8} (hs : c.Synced fed pending)
    (hn : n = pending.length) (hfuel : n ≤ fuel) (hd : feed h fuel c n = some c') :
    c'.Synced (fed ++ pending) [] := by
  induction fuel generalizing c fed pending n with
  | zero =>
    have hnil : pending = [] := List.length_eq_zero_iff.mp (by omega)
    obtain rfl := Option.some.inj hd
    rwa [hnil, List.append_nil, ← hnil]
  | succ fuel ih =>
    rw [Connection.feed] at hd
    split at hd
    next h0 =>
      have hnil : pending = [] := List.length_eq_zero_iff.mp (by omega)
      obtain rfl := Option.some.inj hd
      rwa [hnil, List.append_nil, ← hnil]
    next h0 =>
      cases himpl : onReceiveImpl h { c with recvBuffer := (c.recvBuffer.advancePos n).1 }
        (c.recvBuffer.advancePos n).2 with
      | none =>
        simp only [himpl] at hd
        cases hd
      | some d =>
        simp only [himpl] at hd
        obtain ⟨hp, hsub, hs'⟩ := hs.round hn (by omega) himpl
        simp only [gt_iff_lt, hp, if_true] at hd
        have hlast := ih hs' (by rw [List.length_drop]; omega) (by omega) hd
        rwa [List.append_assoc, List.take_append_drop] at hlast

/-- Between reads: everything received was fed, and the buffer is normalised. -/
structure Idle (c : Connection) (s : List UInt8) : Prop where
  synced : c.Synced s []
  start : c.recvBuffer.recvStart = 0

/-- What the position says does not depend on where the bytes are kept. -/
theorem Synced.replace {fed pending pending' : List UInt8} {b : ReceiveBuffer}
    (hs : c.Synced fed pending) (hps : b.packetSize = c.recvBuffer.packetSize)
    (hb : ∀ got, c.recvBuffer.Holds got pending → b.Holds got pending') :
    Synced { c with recvBuffer := b } fed pending' := by
  obtain ⟨⟨got, hholds, hposn⟩, hle, heq⟩ := hs
  refine ⟨⟨got, hb got hholds, ?_⟩, hle, heq⟩
  cases hposn with
  | size hstate hpacket hframed hlen hval hknown =>
    exact .size hstate (hps.trans hpacket) hframed hlen hval hknown
  | packet hstate hheader hval hle' hframed hpos hlt hknown =>
    exact .packet hstate hheader (hval.trans hps.symm) (hps ▸ hle') hframed hpos (hps ▸ hlt) hknown

/-- The current packet is never complete between two calls. -/
theorem Synced.lt_packetSize {fed pending got : List UInt8} (hs : c.Synced fed pending)
    (hb : c.recvBuffer.Holds got pending) : got.length < c.recvBuffer.packetSize := by
  obtain ⟨⟨got', hb', hposn⟩, -, -⟩ := hs
  have hgot : got.length = got'.length := hb.pos.symm.trans hb'.pos
  cases hposn with
  | size _ hpacket _ hlen _ _ => omega
  | packet _ _ _ _ _ _ hlt _ => omega

theorem Synced.tidy {fed : List UInt8} (hs : c.Synced fed []) (choked : Bool) (limit : ℕ) :
    (c.tidy A choked limit).Idle fed := by
  obtain ⟨⟨got, hb, -⟩, -, -⟩ := id hs
  simp only [Connection.tidy]
  generalize (if choked then 100 else 0) = force
  obtain ⟨hnorm, hzero, hps⟩ := hb.normalize (A := A) force
  split
  next hfull =>
    -- the packet does not fit the buffer, so the buffer grows to its size
    have hlt := hs.lt_packetSize hb
    have hstop := hnorm.stop
    have hend := hnorm.recvEnd_le
    rw [ReceiveBuffer.maxReceive] at hfull
    rw [List.length_nil] at hstop
    have hsmall : (c.recvBuffer.normalize A force).recvBuffer.length <
        (c.recvBuffer.normalize A force).packetSize := by omega
    refine ⟨hs.replace hps fun got' hb' => ?_, hzero⟩
    exact (hb'.normalize _).1.grow hzero hsmall limit
  next =>
    exact ⟨hs.replace hps fun got' hb' => (hb'.normalize _).1, hzero⟩

theorem Synced.feedAll {fed pending : List UInt8} {n : ℕ} (hs : c.Synced fed pending)
    (hn : n = pending.length) {choked : Bool} {limit : ℕ}
    (hd : feedAll A h c n choked limit = some c') : c'.Idle (fed ++ pending) := by
  obtain ⟨d, hfeed, rfl⟩ := Option.map_eq_some_iff.mp hd
  exact (hs.feed hn le_rfl hfeed).tidy choked limit

theorem reserve_recvStart (b : ReceiveBuffer) (n : ℕ) :
    (b.reserve A n).recvStart = b.recvStart := by
  rw [ReceiveBuffer.reserve]
  split <;> rfl

theorem reserve_packetSize (b : ReceiveBuffer) (n : ℕ) :
    (b.reserve A n).packetSize = b.packetSize := by
  rw [ReceiveBuffer.reserve]
  split <;> rfl

theorem Idle.reserve {s : List UInt8} (hi : c.Idle s) (n : ℕ) :
    Idle { c with recvBuffer := c.recvBuffer.reserve A n } s :=
  ⟨hi.synced.replace (reserve_packetSize _ n) fun _ hb => hb.reserve hi.start n,
    (reserve_recvStart _ n).trans hi.start⟩

theorem Idle.setupReceive {s : List UInt8} (hi : c.Idle s) (quota : ℕ) :
    (c.setupReceive A quota).Idle s := by
  simp only [Connection.setupReceive]
  split
  · split
    · exact hi.reserve 100
    · exact (hi.reserve 100).reserve _
  · split
    · exact hi
    · exact hi.reserve _

theorem Idle.onReceiveData {s : List UInt8} (hi : c.Idle s) {r : Read}
    (hd : c.onReceiveData A h r = some c') : c'.Idle (s ++ r.bytes) := by
  have hfirst : ∀ got, c.recvBuffer.Holds got [] →
      (c.recvBuffer.received r.chunk).Holds got r.chunk :=
    fun got hb => hb.received hi.start r.chunk
  rw [Connection.onReceiveData] at hd
  cases hm : r.more with
  | none =>
    simp only [hm] at hd
    have hbytes : r.bytes = r.chunk := by simp [Read.bytes, hm]
    have hs : Synced { c with recvBuffer := c.recvBuffer.received r.chunk } s r.bytes :=
      hi.synced.replace rfl fun got hb => by rw [hbytes]; exact hfirst got hb
    exact hs.feedAll rfl hd
  | some m =>
    obtain ⟨size, bytes⟩ := m
    simp only [hm] at hd
    have hbytes : r.bytes = r.chunk ++ bytes := by simp [Read.bytes, hm]
    have hs : Synced { c with
        recvBuffer := ((c.recvBuffer.received r.chunk).reserve A size).received bytes }
        s r.bytes := by
      refine hi.synced.replace (reserve_packetSize (A := A) _ size) fun got hb => ?_
      rw [hbytes]
      have hres := (hfirst got hb).reserve (A := A) hi.start size
      exact hres.received ((reserve_recvStart _ size).trans hi.start) bytes
    exact hs.feedAll rfl hd

/-! ### Runs -/

theorem Ready.synced {pending : List UInt8} (hr : c.Ready pending) : c.Synced [] pending := by
  have hall : c.AllKnown := by
    rw [AllKnown, hr.handled]
    exact fun e he => absurd he List.not_mem_nil
  have hfin : c.finished = [] := by rw [finished, hr.handled]; rfl
  have hcnt : c.counted = 0 := by rw [counted, hr.payload, hr.protocol]
  refine ⟨⟨[], hr.holds, .size hr.state hr.packetSize ?_ (by simp) (by simp) ?_⟩, ?_, ?_⟩
  · rw [hfin]
    exact .nil []
  · rw [hfin]
    exact ⟨fun _ f hf => absurd hf List.not_mem_nil, fun _ => hall⟩
  · rw [hcnt]
    exact Nat.zero_le _
  · exact ⟨fun _ => hall, fun _ => hcnt⟩

theorem Run.idle {c₀ : Connection} {pending s : List UInt8} (hr : c₀.Ready pending)
    (run : Run A h c₀ pending s c) : c.Idle s := by
  induction run with
  | start choked limit hfeed => exact hr.synced.feedAll rfl hfeed
  | setup _ quota ih => exact ih.setupReceive quota
  | read _ r _ hread ih => exact ih.onReceiveData hread

/-- The bytes fed so far, in terms of the frames of the stream. -/
theorem Synced.frames {s : List UInt8} (hs : c.Synced s []) :
    c.finished = frames s ∧ (c.AllKnown ↔ KnownTypes s) := by
  obtain ⟨⟨got, hb, hposn⟩, -, -⟩ := hs
  cases hposn with
  | size hstate hpacket hframed hlen hval hknown =>
    have hinc : Incomplete got := by
      intro h4 _
      have hgot : got.take 4 = got := List.take_of_length_le (by omega)
      have := hval (by omega)
      rw [hgot]
      omega
    have hsplit := hframed.splitFrames_eq hinc le_rfl
    have hf : Peer.frames s = c.finished := by rw [Peer.frames, hsplit]
    have hu : unfinished s = got := by rw [unfinished, hsplit]
    refine ⟨hf.symm, ?_⟩
    rw [hknown, KnownTypes, hf, hu, List.drop_eq_nil_of_le (by omega)]
    exact ⟨fun ha => ⟨ha, by simp [Known]⟩, fun ha => ha.1⟩
  | @packet header hstate hheader hval hle hframed hpos hlt hknown =>
    have htake : (header ++ got).take 4 = header := by rw [← hheader, List.take_left]
    have hdrop : (header ++ got).drop 4 = got := by rw [← hheader, List.drop_left]
    have hinc : Incomplete (header ++ got) := by
      intro _ _
      rw [htake, hval, List.length_append]
      omega
    have hsplit := hframed.splitFrames_eq hinc le_rfl
    have hf : Peer.frames s = c.finished := by rw [Peer.frames, hsplit]
    have hu : unfinished s = header ++ got := by rw [unfinished, hsplit]
    exact ⟨hf.symm, by rw [hknown, KnownTypes, hf, hu, hdrop]⟩

/-- However the stream is split into reads, and whatever the buffer does in between, the handlers
see exactly its frames. The bytes they count are all bytes of the stream exactly when every message
in it has a type there is a handler for: an extension that takes a message of another type does not
count it. -/
theorem run_frames {c₀ : Connection} {pending s : List UInt8} (hr : c₀.Ready pending)
    (run : Run A h c₀ pending s c) :
    c.finished = frames s ∧ (c.payload + c.protocol = s.length ↔ KnownTypes s) := by
  have hs := (run.idle hr).synced
  obtain ⟨hframes, hknown⟩ := hs.frames
  exact ⟨hframes, hs.counted_eq.trans hknown⟩

/-- A connection just after a handshake that came alone. -/
def afterHandshake : Connection :=
  { state := .readPacketSize, recvBuffer := { packetSize := 5 } }

theorem afterHandshake_ready : afterHandshake.Ready [] :=
  ⟨rfl, rfl, ⟨rfl, rfl, [], [], rfl, rfl⟩, rfl, rfl, rfl⟩

/-- An allocator that returns what was asked for. -/
def exactMalloc : Malloc := ⟨id, rfl, fun _ => le_rfl⟩

/-- Handlers that never close the connection, with an extension that takes every message of
another type. -/
def openHandlers : Handlers := ⟨fun _ _ => true, fun _ _ _ => true⟩

/-- A read that was handled, by evaluation. -/
theorem Run.read_get {c₀ : Connection} {pending s : List UInt8} (run : Run A h c₀ pending s c)
    (r : Read) (hfits : r.Fits c) (hs : (c.onReceiveData A h r).isSome) :
    Run A h c₀ pending (s ++ r.bytes) ((c.onReceiveData A h r).get hs) :=
  run.read r hfits (Option.some_get hs).symm

/-- A keep-alive and an unchoke in three reads, split inside both lengths: the second read fills the
buffer, so that the rest is read at once. -/
theorem run_frames_split : ∃ c, Run exactMalloc openHandlers afterHandshake []
      [0, 0, 0, 0, 0, 0, 0, 1, 1] c ∧
    c.finished = [[], [1]] ∧ c.payload + c.protocol = 9 := by
  have run₁ : Run exactMalloc openHandlers afterHandshake [] []
      (afterHandshake.tidy exactMalloc false 100) := .start false 100 rfl
  have run₂ := (run₁.setup 100).read_get { chunk := [0, 0], limit := 100 }
    ⟨by decide, by decide, fun m hm => absurd hm (by simp)⟩ (by decide)
  have run₃ := run₂.read_get
    { chunk := [0, 0, 0], more := some (4, [0, 0, 1, 1]), limit := 100 }
    ⟨by decide, by decide, fun m hm => Option.mem_some_iff.mp hm ▸ by decide⟩ (by decide)
  obtain ⟨hframes, hcount⟩ := run_frames afterHandshake_ready run₃
  exact ⟨_, run₃, hframes.trans (by decide), hcount.mpr (by decide)⟩

/-- A message of type 30 that an extension takes: its only byte is not counted. -/
theorem run_not_counted : ∃ c, Run exactMalloc openHandlers afterHandshake []
      [0, 0, 0, 1, 30] c ∧ c.finished = [[30]] ∧ c.payload + c.protocol = 4 := by
  have run₁ : Run exactMalloc openHandlers afterHandshake [] []
      (afterHandshake.tidy exactMalloc false 100) := .start false 100 rfl
  have run₂ := (run₁.setup 100).read_get { chunk := [0, 0, 0, 1, 30], limit := 100 }
    ⟨by decide, by decide, fun m hm => absurd hm (by simp)⟩ (by decide)
  exact ⟨_, run₂, by decide, by decide⟩

end Connection

end Peer

end LibtorrentSN
