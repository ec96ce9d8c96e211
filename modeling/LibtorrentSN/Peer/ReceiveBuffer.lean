import Mathlib

/-!
# The receive buffer

`receive_buffer` (`src/receive_buffer.cpp`): the bytes read from a peer's socket. `recvStart` is
where the current packet begins, `recvPos` the number of its bytes handed to the upper layer and
`recvEnd` the end of the bytes received; what lies beyond is garbage. The buffer is cut, reset,
normalised and reallocated while the cursors move.
-/

namespace LibtorrentSN

namespace Peer

/-- `sliding_average<std::ptrdiff_t, 20>`: a moving mean, in fixed point (times 64). -/
structure SlidingAverage where
  mean64 : ℤ := 0
  numSamples : ℕ := 0

def SlidingAverage.addSample (a : SlidingAverage) (s : ℤ) : SlidingAverage :=
  let n := if a.numSamples < 20 then a.numSamples + 1 else a.numSamples
  { mean64 := a.mean64 + (s * 64 - a.mean64).tdiv n, numSamples := n }

def SlidingAverage.mean (a : SlidingAverage) : ℤ :=
  if a.numSamples > 0 then (a.mean64 + 32).tdiv 64 else 0

/-- The size of the memory block the allocator returns for a request: never less than what was
asked for, and nothing for an empty request. -/
structure Malloc where
  usable : ℕ → ℕ
  zero : usable 0 = 0
  le : ∀ n, n ≤ usable n

/-- `buffer(size, initialize)`: a block of at least `size` bytes that starts with `init`. What the
rest of it holds is never read. -/
def buffer (A : Malloc) (size : ℕ) (init : List UInt8) : List UInt8 :=
  init.take size ++ List.replicate (A.usable size - min init.length size) 0

structure ReceiveBuffer where
  /-- the start of the logical receive buffer -/
  recvStart : ℕ := 0
  /-- the number of valid, received bytes in the buffer -/
  recvEnd : ℕ := 0
  /-- the number of bytes past `recvStart` that were passed on to the upper layer -/
  recvPos : ℕ := 0
  /-- the size of the message we are currently receiving -/
  packetSize : ℕ := 0
  watermark : SlidingAverage := {}
  recvBuffer : List UInt8 := []

namespace ReceiveBuffer

variable (A : Malloc)

def capacity (b : ReceiveBuffer) : ℕ := b.recvBuffer.length

def maxReceive (b : ReceiveBuffer) : ℕ := b.recvBuffer.length - b.recvEnd

def packetFinished (b : ReceiveBuffer) : Bool := b.packetSize ≤ b.recvPos

def get (b : ReceiveBuffer) : List UInt8 := (b.recvBuffer.drop b.recvStart).take b.recvPos

def reserve (b : ReceiveBuffer) (size : ℕ) : ReceiveBuffer :=
  if b.recvBuffer.length < b.recvEnd + size then
    let newSize := max (b.recvEnd + size) b.packetSize
    -- the size of the buffer increased: reset the watermark, to avoid flapping
    { b with recvBuffer := buffer A newSize (b.recvBuffer.take b.recvEnd), watermark := {} }
  else b

def grow (b : ReceiveBuffer) (limit : ℕ) : ReceiveBuffer :=
  let currentSize := b.recvBuffer.length
  -- first grow to one piece message, then grow by 50% each time
  let newSize :=
    if currentSize < b.packetSize then b.packetSize else min (currentSize * 3 / 2) limit
  { b with recvBuffer := buffer A newSize (b.recvBuffer.take b.recvEnd), watermark := {} }

/-- The socket wrote `bytes` at the end of the received ones, and `received` was told. -/
def received (b : ReceiveBuffer) (bytes : List UInt8) : ReceiveBuffer :=
  { b with
    recvBuffer := b.recvBuffer.take b.recvEnd ++ bytes ++
      b.recvBuffer.drop (b.recvEnd + bytes.length)
    recvEnd := b.recvEnd + bytes.length }

def advancePos (b : ReceiveBuffer) (bytes : ℕ) : ReceiveBuffer × ℕ :=
  let limit := if b.packetSize > b.recvPos then b.packetSize - b.recvPos else b.packetSize
  let subTransferred := min bytes limit
  ({ b with recvPos := b.recvPos + subTransferred }, subTransferred)

/-- `cut` without an offset, as all its callers use it: drop the first `size` bytes of the current
packet. -/
def cut (b : ReceiveBuffer) (size packetSize : ℕ) : ReceiveBuffer :=
  { b with recvStart := b.recvStart + size, recvPos := b.recvPos - size, packetSize }

def normalize (b : ReceiveBuffer) (forceShrink : ℕ) : ReceiveBuffer :=
  let watermark := b.watermark.addSample (max b.recvEnd b.packetSize)
  -- the running average dropped below half of the current buffer size
  let shrinkBuffer := ((b.recvBuffer.length : ℤ) / 2 > watermark.mean) ∧
    watermark.mean > (b.recvEnd : ℤ) - b.recvStart
  let bytesToShift := (b.recvBuffer.drop b.recvStart).take (b.recvEnd - b.recvStart)
  let recvBuffer :=
    if forceShrink ≠ 0 then
      buffer A (max (max forceShrink bytesToShift.length) b.packetSize) bytesToShift
    else if shrinkBuffer then buffer A watermark.mean.toNat bytesToShift
    else if b.recvEnd > b.recvStart ∧ b.recvStart > 0 then
      bytesToShift ++ b.recvBuffer.drop bytesToShift.length
    else b.recvBuffer
  { b with recvBuffer, watermark, recvEnd := b.recvEnd - b.recvStart, recvStart := 0 }

def reset (b : ReceiveBuffer) (packetSize : ℕ) : ReceiveBuffer :=
  if b.recvEnd > b.packetSize then b.cut b.packetSize packetSize
  else { b with recvPos := 0, recvStart := 0, recvEnd := 0, packetSize }

/-! ### What the buffer holds -/

/-- The buffer holds the bytes `got` of the current packet, and the bytes `pending` that were not
passed on yet. -/
structure Holds (b : ReceiveBuffer) (got pending : List UInt8) : Prop where
  pos : b.recvPos = got.length
  stop : b.recvEnd = b.recvStart + got.length + pending.length
  bytes : ∃ junk rest, junk.length = b.recvStart ∧ b.recvBuffer = junk ++ (got ++ pending) ++ rest

variable {A} {b : ReceiveBuffer} {got pending : List UInt8}

theorem Holds.get_eq (h : b.Holds got pending) : b.get = got := by
  obtain ⟨junk, rest, hj, hb⟩ := h.bytes
  rw [get, hb, ← hj, List.append_assoc, List.drop_left, List.append_assoc, h.pos, List.take_left]

theorem Holds.recvEnd_le (h : b.Holds got pending) : b.recvEnd ≤ b.recvBuffer.length := by
  obtain ⟨junk, rest, hj, hb⟩ := h.bytes
  rw [h.stop, hb, ← hj]
  simp only [List.length_append]
  omega

/-- The bytes from the start of the packet to the end of what was received. -/
theorem Holds.shift_eq (h : b.Holds got pending) :
    (b.recvBuffer.drop b.recvStart).take (b.recvEnd - b.recvStart) = got ++ pending := by
  obtain ⟨junk, rest, hj, hb⟩ := h.bytes
  have hlen : b.recvEnd - b.recvStart = (got ++ pending).length := by
    rw [h.stop, List.length_append]
    omega
  rw [hlen, hb, ← hj, List.append_assoc, List.drop_left, List.take_left]

theorem Holds.take_eq (h : b.Holds got pending) (h0 : b.recvStart = 0) :
    b.recvBuffer.take b.recvEnd = got ++ pending := by
  have := h.shift_eq
  rwa [h0, List.drop_zero, Nat.sub_zero] at this

theorem buffer_eq (A : Malloc) {n : ℕ} {init : List UInt8} (h : init.length ≤ n) :
    ∃ rest, buffer A n init = init ++ rest := by
  rw [buffer, List.take_of_length_le h]
  exact ⟨_, rfl⟩

/-- Moving to a block that is large enough keeps the bytes. -/
theorem Holds.realloc (h : b.Holds got pending) (h0 : b.recvStart = 0) {n : ℕ}
    (hn : b.recvEnd ≤ n) (w : SlidingAverage) :
    Holds { b with recvBuffer := buffer A n (b.recvBuffer.take b.recvEnd), watermark := w }
      got pending := by
  have hlen : (b.recvBuffer.take b.recvEnd).length ≤ n := by
    rw [List.length_take]
    omega
  obtain ⟨rest, hbuf⟩ := buffer_eq A hlen
  refine ⟨h.pos, h.stop, [], rest, h0.symm, ?_⟩
  dsimp only
  rw [hbuf, h.take_eq h0, List.nil_append]

theorem Holds.reserve (h : b.Holds got pending) (h0 : b.recvStart = 0) (n : ℕ) :
    (b.reserve A n).Holds got pending := by
  rw [ReceiveBuffer.reserve]
  split
  · exact h.realloc h0 (by omega) _
  · exact h

/-- The buffer only grows when the message being received does not fit: the limit is not
looked at. -/
theorem Holds.grow (h : b.Holds got pending) (h0 : b.recvStart = 0)
    (hlt : b.recvBuffer.length < b.packetSize) (limit : ℕ) :
    (b.grow A limit).Holds got pending := by
  have hle := h.recvEnd_le
  simp only [ReceiveBuffer.grow, if_pos hlt]
  exact h.realloc h0 (by omega) _

theorem Holds.received (h : b.Holds got pending) (h0 : b.recvStart = 0) (bytes : List UInt8) :
    (b.received bytes).Holds got (pending ++ bytes) := by
  refine ⟨h.pos, ?_, [], b.recvBuffer.drop (b.recvEnd + bytes.length), h0.symm, ?_⟩
  · simp only [ReceiveBuffer.received, h.stop, List.length_append]
    omega
  · simp only [ReceiveBuffer.received, h.take_eq h0, List.nil_append, List.append_assoc]

/-- The packet grows by the bytes passed on. -/
theorem Holds.advancePos (h : b.Holds got pending) {n : ℕ} (hn : n ≤ pending.length) :
    Holds (b.advancePos n).1 (got ++ pending.take (b.advancePos n).2)
      (pending.drop (b.advancePos n).2) := by
  obtain ⟨junk, rest, hj, hb⟩ := h.bytes
  have hsub : (b.advancePos n).2 ≤ pending.length := (min_le_left _ _).trans hn
  refine ⟨?_, ?_, junk, rest, hj, ?_⟩
  · rw [List.length_append, List.length_take, min_eq_left hsub, ← h.pos]
    rfl
  · rw [List.length_append, List.length_take, List.length_drop, min_eq_left hsub]
    have : (b.advancePos n).1.recvEnd = b.recvEnd := rfl
    have : (b.advancePos n).1.recvStart = b.recvStart := rfl
    have := h.stop
    omega
  · rw [List.append_assoc got, List.take_append_drop]
    exact hb

theorem Holds.cut {front back : List UInt8} (h : b.Holds (front ++ back) pending) (n : ℕ) :
    (b.cut front.length n).Holds back pending := by
  obtain ⟨junk, rest, hj, hb⟩ := h.bytes
  have hpos := h.pos
  have hstop := h.stop
  rw [List.length_append] at hpos hstop
  refine ⟨?_, ?_, junk ++ front, rest, ?_, ?_⟩
  · simp only [ReceiveBuffer.cut]
    omega
  · simp only [ReceiveBuffer.cut]
    omega
  · simp only [ReceiveBuffer.cut, List.length_append, hj]
  · simp only [ReceiveBuffer.cut, hb, List.append_assoc]

/-- After a finished packet the buffer starts over with the bytes behind it. -/
theorem Holds.reset (h : b.Holds got pending) (hfin : got.length = b.packetSize) (n : ℕ) :
    (b.reset n).Holds [] pending := by
  have hstop := h.stop
  rw [ReceiveBuffer.reset]
  split
  next =>
    rw [← hfin]
    have h' : b.Holds (got ++ []) pending := by rwa [List.append_nil]
    exact h'.cut n
  next hle =>
    -- no byte follows the packet, and none precedes it
    have hp : pending = [] := List.length_eq_zero_iff.mp (by omega)
    refine ⟨rfl, by rw [hp]; rfl, [], b.recvBuffer, rfl, ?_⟩
    rw [hp]
    rfl

theorem Holds.normalize (h : b.Holds got pending) (force : ℕ) :
    (b.normalize A force).Holds got pending ∧ (b.normalize A force).recvStart = 0 ∧
      (b.normalize A force).packetSize = b.packetSize := by
  refine ⟨?_, rfl, rfl⟩
  have hstop := h.stop
  have hshift := h.shift_eq
  obtain ⟨junk, rest, hj, hb⟩ := h.bytes
  have hlen : (got ++ pending).length = b.recvEnd - b.recvStart := by
    rw [List.length_append]
    omega
  -- whichever block is used, it starts with the bytes that are shifted
  have hnew : ∃ rest', (b.normalize A force).recvBuffer = got ++ pending ++ rest' := by
    simp only [ReceiveBuffer.normalize, hshift]
    split
    next => exact buffer_eq A (by omega)
    next =>
      split
      next hshrink => exact buffer_eq A (by omega)
      next =>
        split
        next => exact ⟨_, rfl⟩
        next hmove =>
          by_cases h0 : b.recvStart = 0
          · have : junk = [] := List.length_eq_zero_iff.mp (hj.trans h0)
            exact ⟨rest, by rw [hb, this, List.nil_append]⟩
          · have hnil : got ++ pending = [] := List.length_eq_zero_iff.mp (by omega)
            exact ⟨b.recvBuffer, by rw [hnil, List.nil_append]⟩
  obtain ⟨rest', hrest⟩ := hnew
  refine ⟨h.pos, ?_, [], rest', rfl, by rw [hrest, List.nil_append]⟩
  simp only [ReceiveBuffer.normalize]
  omega

end ReceiveBuffer

end Peer

end LibtorrentSN
