import Mathlib.Algebra.BigOperators.Group.List.Basic
import Mathlib.Algebra.Order.Ring.Int
import Mathlib.Data.Int.Order.Basic

/-!
# The send buffer

`chained_buffer` (`src/chained_buffer.cpp`): the bytes that wait to be sent to a peer, in a chain of buffers of
different owners. Bytes are taken from the front, and put into the space that the last buffer has left.

`m_capacity` and `m_bytes` are natural numbers. They are of type `int` in the source, which asserts that `m_capacity`
stays below `INT_MAX` when a buffer is added; `m_bytes` is never more.
-/

namespace LibtorrentSN

namespace Peer

/-- `buffer_t`: the bytes from `buf` on, of which so many are used. -/
structure Buffer where
  bytes : List UInt8
  usedSize : ℕ
  used_pos : 0 < usedSize
  used_le : usedSize ≤ bytes.length

namespace Buffer

variable (b : Buffer)

def size : ℕ := b.bytes.length

/-- The bytes to send. -/
def used : List UInt8 := b.bytes.take b.usedSize

/-- The buffer without its first bytes. -/
def advance (n : ℕ) (h : n < b.usedSize) : Buffer where
  bytes := b.bytes.drop n
  usedSize := b.usedSize - n
  used_pos := Nat.sub_pos_of_lt h
  used_le := (Nat.sub_le_sub_right b.used_le n).trans_eq List.length_drop.symm

/-- The buffer with more of its bytes used. -/
def extend (s : ℕ) (h : b.usedSize + s ≤ b.size) : Buffer where
  bytes := b.bytes
  usedSize := b.usedSize + s
  used_pos := Nat.add_pos_left b.used_pos s
  used_le := h

/-- `std::copy` to a place in the buffer -/
def copy (insert : ℕ) (buf : List UInt8) (h : insert + buf.length ≤ b.size) : Buffer where
  bytes := b.bytes.take insert ++ buf ++ b.bytes.drop (insert + buf.length)
  usedSize := b.usedSize
  used_pos := b.used_pos
  used_le := by
    have hlen : b.bytes.length = b.size := rfl
    have hused := b.used_le
    rw [List.length_append, List.length_append, List.length_take, List.length_drop]
    omega

end Buffer

/-- The chain. The totals are kept beside it. -/
structure ChainedBuffer where
  vec : List Buffer := []
  bytes : ℤ := 0
  capacity : ℤ := 0

namespace ChainedBuffer

variable (cb : ChainedBuffer)

def size : ℤ := cb.bytes

/-- The loop of `pop_front`, with the buffers, the totals and the number of bytes that are left to pop. -/
def popLoop : List Buffer → (bytes capacity bytesToPop : ℤ) → ChainedBuffer
  | [], bytes, capacity, _ => { vec := [], bytes, capacity }
  | b :: vec, bytes, capacity, bytesToPop =>
    if 0 < bytesToPop then
      if h : bytesToPop.toNat < b.usedSize then
        { vec := b.advance bytesToPop.toNat h :: vec
          bytes := bytes - bytesToPop
          capacity := capacity - bytesToPop }
      else popLoop vec (bytes - b.usedSize) (capacity - b.size) (bytesToPop - b.usedSize)
    else { vec := b :: vec, bytes, capacity }

def popFront (bytesToPop : ℤ) : ChainedBuffer := popLoop cb.vec cb.bytes cb.capacity bytesToPop

def appendBuffer (b : Buffer) : ChainedBuffer where
  vec := cb.vec ++ [b]
  bytes := cb.bytes + b.usedSize
  capacity := cb.capacity + b.size

def prependBuffer (b : Buffer) : ChainedBuffer where
  vec := b :: cb.vec
  bytes := cb.bytes + b.usedSize
  capacity := cb.capacity + b.size

/-- `allocate_appendix`, and the place in the last buffer that it returns -/
def allocateAppendix (s : ℕ) : Option ℕ × ChainedBuffer :=
  match cb.vec.getLast? with
  | none => (none, cb)
  | some b =>
    if h : b.usedSize + s ≤ b.size then
      (some b.usedSize, { cb with vec := cb.vec.dropLast ++ [b.extend s h], bytes := cb.bytes + s })
    else (none, cb)

/-- What is written to a place in the last buffer. -/
def copy (insert : ℕ) (buf : List UInt8) : ChainedBuffer :=
  match cb.vec.getLast? with
  | none => cb
  | some b =>
    if h : insert + buf.length ≤ b.size then { cb with vec := cb.vec.dropLast ++ [b.copy insert buf h] } else cb

/-- `append`, and whether there was room -/
def append (buf : List UInt8) : Bool × ChainedBuffer :=
  match cb.allocateAppendix buf.length with
  | (none, cb) => (false, cb)
  | (some insert, cb) => (true, cb.copy insert buf)

/-- `build_vec` -/
def buildVec : ℤ → List Buffer → List (List UInt8)
  | _, [] => []
  | bytes, b :: vec =>
    if 0 < bytes then
      if bytes < b.usedSize then [b.bytes.take bytes.toNat] else b.used :: buildVec (bytes - b.usedSize) vec
    else []

def buildIovec (toSend : ℤ) : List (List UInt8) := buildVec toSend cb.vec

def clear (_ : ChainedBuffer) : ChainedBuffer where
  vec := []
  bytes := 0
  capacity := 0

/-! ## The queue of bytes -/

def totalSize (vec : List Buffer) : ℕ := (vec.map Buffer.size).sum

/-- The bytes that wait in these buffers. -/
def waiting (vec : List Buffer) : List UInt8 := vec.flatMap Buffer.used

/-- The totals are those of the buffers, and the buffers hold the queue. -/
structure Holds (queue : List UInt8) : Prop where
  vec : waiting cb.vec = queue
  bytes : cb.bytes = queue.length
  capacity : cb.capacity = totalSize cb.vec

variable {cb} {b : Buffer} {vec : List Buffer} {queue : List UInt8}

theorem length_used (b : Buffer) : b.used.length = b.usedSize := by
  rw [Buffer.used, List.length_take]
  exact min_eq_left b.used_le

theorem used_advance {n : ℕ} (h : n < b.usedSize) : (b.advance n h).used = b.used.drop n := by
  rw [Buffer.used, Buffer.used, List.drop_take]
  rfl

theorem size_copy {insert : ℕ} {buf : List UInt8} (h : insert + buf.length ≤ b.size) :
    (b.copy insert buf h).size = b.size := by
  have hlen : b.bytes.length = b.size := rfl
  rw [Buffer.size, Buffer.copy]
  simp only [List.length_append, List.length_take, List.length_drop]
  omega

theorem waiting_cons (b : Buffer) (vec : List Buffer) : waiting (b :: vec) = b.used ++ waiting vec := List.flatMap_cons

theorem totalSize_cons (b : Buffer) (vec : List Buffer) : totalSize (b :: vec) = b.size + totalSize vec :=
  List.sum_cons

theorem waiting_append (vec vec' : List Buffer) : waiting (vec ++ vec') = waiting vec ++ waiting vec' :=
  List.flatMap_append

theorem totalSize_append (vec vec' : List Buffer) : totalSize (vec ++ vec') = totalSize vec + totalSize vec' := by
  rw [totalSize, List.map_append, List.sum_append]
  rfl

theorem length_waiting_le (vec : List Buffer) : (waiting vec).length ≤ totalSize vec := by
  induction vec with
  | nil => exact le_rfl
  | cons b vec ih =>
    rw [waiting_cons, totalSize_cons, List.length_append, length_used]
    exact Nat.add_le_add b.used_le ih

theorem holds_popLoop (vec : List Buffer) (n : ℤ) :
    (popLoop vec (waiting vec).length (totalSize vec) n).Holds ((waiting vec).drop n.toNat) := by
  induction vec generalizing n with
  | nil => exact ⟨by simp [popLoop, waiting], by simp [popLoop, waiting], rfl⟩
  | cons b vec ih =>
    have hlen := length_used b
    have hused := b.used_le
    have hsize : b.bytes.length = b.size := rfl
    rw [popLoop]
    split
    · next hpos =>
      split
      · next hlt =>
        have hdrop : (b.used ++ waiting vec).drop n.toNat = (b.advance n.toNat hlt).used ++ waiting vec := by
          rw [used_advance hlt]
          exact List.drop_append_of_le_length (by omega)
        have hadvance : (b.advance n.toNat hlt).size = b.size - n.toNat := List.length_drop
        rw [waiting_cons, hdrop]
        refine ⟨waiting_cons _ _, ?_, ?_⟩
        · dsimp only
          rw [List.length_append, List.length_append, length_used, length_used]
          have hsub : (b.advance n.toNat hlt).usedSize = b.usedSize - n.toNat := rfl
          omega
        · dsimp only
          rw [totalSize_cons, totalSize_cons, hadvance]
          omega
      · next hge =>
        have hbytes : ((waiting (b :: vec)).length : ℤ) - b.usedSize = (waiting vec).length := by
          rw [waiting_cons, List.length_append, hlen]
          omega
        have hcapacity : (totalSize (b :: vec) : ℤ) - b.size = totalSize vec := by
          rw [totalSize_cons]
          omega
        have hdrop : (waiting (b :: vec)).drop n.toNat = (waiting vec).drop (n - b.usedSize).toNat := by
          have hnat : (n - b.usedSize).toNat = n.toNat - b.usedSize := by omega
          rw [waiting_cons, List.drop_append, List.drop_eq_nil_of_le (by omega), List.nil_append, hlen, hnat]
        rw [hbytes, hcapacity, hdrop]
        exact ih (n - b.usedSize)
    · next hnot =>
      have hzero : n.toNat = 0 := by omega
      rw [hzero]
      exact ⟨rfl, rfl, rfl⟩

theorem Holds.popFront (h : cb.Holds queue) (n : ℤ) : (cb.popFront n).Holds (queue.drop n.toNat) := by
  obtain ⟨rfl, hbytes, hcapacity⟩ := h
  rw [ChainedBuffer.popFront, hbytes, hcapacity]
  exact holds_popLoop cb.vec n

theorem Holds.appendBuffer (h : cb.Holds queue) (b : Buffer) : (cb.appendBuffer b).Holds (queue ++ b.used) := by
  obtain ⟨rfl, hbytes, hcapacity⟩ := h
  have hone : waiting [b] = b.used := (waiting_cons b []).trans (List.append_nil _)
  refine ⟨?_, ?_, ?_⟩
  · rw [ChainedBuffer.appendBuffer, waiting_append, hone]
  · rw [ChainedBuffer.appendBuffer, hbytes, List.length_append, length_used]
    push_cast
    rfl
  · rw [ChainedBuffer.appendBuffer, hcapacity, totalSize_append, totalSize_cons]
    push_cast
    rfl

theorem Holds.prependBuffer (h : cb.Holds queue) (b : Buffer) : (cb.prependBuffer b).Holds (b.used ++ queue) := by
  obtain ⟨rfl, hbytes, hcapacity⟩ := h
  refine ⟨waiting_cons b cb.vec, ?_, ?_⟩
  · rw [ChainedBuffer.prependBuffer, hbytes, List.length_append, length_used]
    push_cast
    exact add_comm _ _
  · rw [ChainedBuffer.prependBuffer, hcapacity, totalSize_cons]
    push_cast
    exact add_comm _ _

theorem holds_clear (cb : ChainedBuffer) : cb.clear.Holds [] := ⟨rfl, rfl, rfl⟩

/-- The last buffer is changed, and keeps its size. -/
theorem Holds.replaceLast {front : List Buffer} {b' : Buffer} {more : List UInt8} (h : cb.Holds queue)
    (hvec : cb.vec = front ++ [b]) (hsize : b'.size = b.size) (hused : b'.used = b.used ++ more) :
    Holds { cb with vec := front ++ [b'], bytes := cb.bytes + more.length } (queue ++ more) := by
  obtain ⟨rfl, hbytes, hcapacity⟩ := h
  have hone : ∀ b, waiting [b] = b.used := fun b => (waiting_cons b []).trans (List.append_nil _)
  rw [hvec] at hbytes hcapacity ⊢
  refine ⟨?_, ?_, ?_⟩
  · rw [waiting_append, waiting_append, hone, hone, hused, List.append_assoc]
  · rw [List.length_append]
    push_cast
    rw [← hbytes]
  · rw [totalSize_append, totalSize_cons] at hcapacity ⊢
    rw [hsize]
    exact hcapacity

theorem getLast?_split (h : cb.vec.getLast? = some b) : cb.vec = cb.vec.dropLast ++ [b] :=
  (List.dropLast_append_getLast? b h).symm

/-- There is room in the last buffer, or nothing changes. -/
theorem allocateAppendix_cases (cb : ChainedBuffer) (s : ℕ) :
    cb.allocateAppendix s = (none, cb) ∨ ∃ b : Buffer, ∃ h : b.usedSize + s ≤ b.size, cb.vec = cb.vec.dropLast ++ [b] ∧
      cb.allocateAppendix s =
        (some b.usedSize, { cb with vec := cb.vec.dropLast ++ [b.extend s h], bytes := cb.bytes + s }) := by
  rw [allocateAppendix]
  split
  · exact .inl rfl
  · next b hlast =>
    split
    · next h => exact .inr ⟨b, h, getLast?_split hlast, rfl⟩
    · exact .inl rfl

/-- What is written behind the bytes that are used. -/
theorem used_copy_extend {buf : List UInt8} (h : b.usedSize + buf.length ≤ b.size) :
    ((b.extend buf.length h).copy b.usedSize buf h).used = b.used ++ buf := by
  have hlen : (b.used ++ buf).length = b.usedSize + buf.length := by rw [List.length_append, length_used]
  change (b.bytes.take b.usedSize ++ buf ++ _).take (b.usedSize + buf.length) = b.bytes.take b.usedSize ++ buf
  exact List.take_left' hlen

/-- `append` writes the bytes behind the others, or changes nothing. -/
theorem append_cases (h : cb.Holds queue) (buf : List UInt8) :
    cb.append buf = (false, cb) ∨ ((cb.append buf).1 = true ∧ (cb.append buf).2.Holds (queue ++ buf)) := by
  rw [append]
  rcases allocateAppendix_cases cb buf.length with hnone | ⟨b, hroom, hvec, hsome⟩
  · rw [hnone]
    exact .inl rfl
  · rw [hsome]
    refine .inr ⟨rfl, ?_⟩
    have hcopy : (ChainedBuffer.mk (cb.vec.dropLast ++ [b.extend buf.length hroom]) (cb.bytes + buf.length)
        cb.capacity).copy b.usedSize buf = ⟨cb.vec.dropLast ++ [(b.extend buf.length hroom).copy b.usedSize buf hroom],
          cb.bytes + buf.length, cb.capacity⟩ := by
      rw [copy, List.getLast?_concat]
      dsimp only
      rw [dif_pos (show b.usedSize + buf.length ≤ (b.extend buf.length hroom).size from hroom), List.dropLast_concat]
    dsimp only
    rw [hcopy]
    exact h.replaceLast hvec (size_copy _) (used_copy_extend hroom)

/-! ## The spans to send -/

theorem buildVec_spec (vec : List Buffer) (n : ℤ) :
    (buildVec n vec).flatten = (waiting vec).take n.toNat ∧ ∀ span ∈ buildVec n vec, span ≠ [] := by
  induction vec generalizing n with
  | nil => exact ⟨by simp [buildVec, waiting], by simp [buildVec]⟩
  | cons b vec ih =>
    have hlen := length_used b
    have hpos := b.used_pos
    have hle := b.used_le
    rw [buildVec, waiting_cons]
    split
    · next hn =>
      split
      · next hlt =>
        have htake : b.bytes.take n.toNat = b.used.take n.toNat := by
          rw [Buffer.used, List.take_take, min_eq_left (by omega)]
        refine ⟨?_, fun span hspan => ?_⟩
        · rw [List.flatten_singleton, htake, List.take_append_of_le_length (by omega)]
        · rw [List.mem_singleton.mp hspan]
          refine List.ne_nil_of_length_pos ?_
          rw [List.length_take]
          omega
      · next hge =>
        obtain ⟨hflatten, hspans⟩ := ih (n - b.usedSize)
        refine ⟨?_, List.forall_mem_cons.mpr ⟨List.ne_nil_of_length_pos (by omega), hspans⟩⟩
        have hnat : (n - b.usedSize).toNat = n.toNat - b.usedSize := by omega
        have hall : b.used.take n.toNat = b.used := List.take_of_length_le (by omega)
        rw [List.flatten_cons, hflatten, hnat, List.take_append, hall, hlen]
    · next hn =>
      have hzero : n.toNat = 0 := by omega
      rw [hzero]
      exact ⟨rfl, by simp⟩

/-! ## Runs -/

/-- The chains that the operations lead to from an empty one, and the queue that the same operations of lists give. -/
inductive Reached : ChainedBuffer → List UInt8 → Prop
  | init : Reached {} []
  | appendBuffer {cb : ChainedBuffer} {queue : List UInt8} (h : Reached cb queue) (b : Buffer) :
      Reached (cb.appendBuffer b) (queue ++ b.used)
  | prependBuffer {cb : ChainedBuffer} {queue : List UInt8} (h : Reached cb queue) (b : Buffer) :
      Reached (cb.prependBuffer b) (b.used ++ queue)
  | append {cb : ChainedBuffer} {queue : List UInt8} (h : Reached cb queue) (buf : List UInt8) :
      Reached (cb.append buf).2 (if (cb.append buf).1 then queue ++ buf else queue)
  -- the caller writes the bytes to the place that it is given
  | allocateAppendix {cb cb' : ChainedBuffer} {queue : List UInt8} {insert : ℕ} (h : Reached cb queue)
      (buf : List UInt8) (heq : cb.allocateAppendix buf.length = (some insert, cb')) :
      Reached (cb'.copy insert buf) (queue ++ buf)
  | allocateAppendixFailed {cb cb' : ChainedBuffer} {queue : List UInt8} (h : Reached cb queue) (s : ℕ)
      (heq : cb.allocateAppendix s = (none, cb')) : Reached cb' queue
  | popFront {cb : ChainedBuffer} {queue : List UInt8} (h : Reached cb queue) (n : ℤ) (hn : n ≤ cb.size) :
      Reached (cb.popFront n) (queue.drop n.toNat)
  | clear {cb : ChainedBuffer} {queue : List UInt8} (h : Reached cb queue) : Reached cb.clear []

theorem Reached.holds (h : Reached cb queue) : cb.Holds queue := by
  induction h with
  | init => exact ⟨rfl, rfl, rfl⟩
  | appendBuffer _ b ih => exact ih.appendBuffer b
  | prependBuffer _ b ih => exact ih.prependBuffer b
  | append _ buf ih =>
    rcases append_cases ih buf with heq | ⟨htrue, hholds⟩
    · rw [heq]
      exact ih
    · rw [if_pos htrue]
      exact hholds
  | @allocateAppendix cb cb' queue insert _ buf heq ih =>
    have happend : cb.append buf = (true, cb'.copy insert buf) := by
      rw [ChainedBuffer.append, heq]
    rcases append_cases ih buf with hfalse | ⟨-, hholds⟩
    · rw [happend] at hfalse
      cases hfalse
    · rwa [happend] at hholds
  | @allocateAppendixFailed cb cb' queue _ s heq ih =>
    rcases allocateAppendix_cases cb s with hnone | ⟨b, hroom, -, hsome⟩
    · rw [hnone] at heq
      exact (Prod.mk.inj heq).2 ▸ ih
    · rw [hsome] at heq
      cases heq
  | popFront _ n _ ih => exact ih.popFront n
  | clear _ _ => exact holds_clear _

/-- The chain is the queue: the totals are its length and the sizes of the buffers, what fails changes nothing, and
the spans to send are its first bytes. -/
theorem reached_refines (h : Reached cb queue) :
    waiting cb.vec = queue ∧ cb.size = queue.length ∧ cb.capacity = totalSize cb.vec ∧ cb.size ≤ cb.capacity ∧
      (∀ buf, (cb.append buf).1 = false → (cb.append buf).2 = cb) ∧
      (∀ s, (cb.allocateAppendix s).1 = none → (cb.allocateAppendix s).2 = cb) ∧
      ∀ n, (cb.buildIovec n).flatten = queue.take n.toNat ∧ ∀ span ∈ cb.buildIovec n, span ≠ [] := by
  have hholds := h.holds
  obtain ⟨hvec, hbytes, hcapacity⟩ := hholds
  refine ⟨hvec, hbytes, hcapacity, ?_, fun buf hfalse => ?_, fun s hnone => ?_, fun n => ?_⟩
  · have hle := length_waiting_le cb.vec
    rw [size, hbytes, hcapacity, ← hvec]
    exact_mod_cast hle
  · rcases append_cases ⟨hvec, hbytes, hcapacity⟩ buf with heq | ⟨htrue, -⟩
    · rw [heq]
    · rw [htrue] at hfalse
      cases hfalse
  · rcases allocateAppendix_cases cb s with heq | ⟨b, hroom, -, hsome⟩
    · rw [heq]
    · rw [hsome] at hnone
      cases hnone
  · rw [← hvec]
    exact buildVec_spec cb.vec n

/-- A buffer with five bytes, of which two are used. -/
def fiveBytes : Buffer where
  bytes := [1, 2, 0, 0, 0]
  usedSize := 2
  used_pos := by decide
  used_le := by decide

/-- The first byte is sent, and one is put behind the second. -/
theorem reached_refines_appended : ∃ cb, Reached cb [2, 3] ∧ waiting cb.vec = [2, 3] ∧ cb.size = 2 ∧ cb.capacity = 4 := by
  have hpop := (Reached.init.appendBuffer fiveBytes).popFront 1 (by decide)
  have happend := hpop.append [3]
  obtain ⟨hvec, hsize, -⟩ := reached_refines happend
  exact ⟨_, happend, hvec, hsize, by decide⟩

end ChainedBuffer

end Peer

end LibtorrentSN
