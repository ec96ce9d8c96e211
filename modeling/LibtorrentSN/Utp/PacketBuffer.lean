import LibtorrentSN.RingStore

/-!
# The packet buffer

`packet_buffer` (`src/packet_buffer.cpp`): a circular buffer of packets indexed by 16-bit
sequence numbers, which resizes itself as packets are inserted. The capacity is a power of two
and a packet numbered `k` sits in slot `k & (capacity - 1)`.

The members are `std::uint32_t`; additions and subtractions that can leave its range are
written with `add32` and `sub32`. A null `packet_ptr` is `none`.
-/

namespace LibtorrentSN

namespace Utp

/-- Addition on `std::uint32_t`. -/
def add32 (a b : ℕ) : ℕ := (a + b) % 2 ^ 32

/-- Subtraction on `std::uint32_t`. -/
def sub32 (a b : ℕ) : ℕ := (a + 2 ^ 32 - b) % 2 ^ 32

/-- `compare_less_wrap`: is `lhs` less than `rhs`, taking wrapping into account. -/
def compareLessWrap (lhs rhs mask : ℕ) : Bool :=
  -- walking upwards from `lhs` to `rhs` is shorter than walking downwards
  sub32 rhs lhs &&& mask < sub32 lhs rhs &&& mask

structure PacketBuffer (α : Type*) where
  storage : List (Option α) := []
  capacity : ℕ := 0
  /-- the number of slots that are occupied -/
  size : ℕ := 0
  /-- the first index that is part of the storage -/
  first : ℕ := 0
  /-- one past the last used slot -/
  last : ℕ := 0
deriving Repr, DecidableEq

namespace PacketBuffer

variable {α : Type*}

/-- The slot index `idx & (m_capacity - 1)`. -/
def slotIndex (b : PacketBuffer α) (idx : ℕ) : ℕ := idx &&& sub32 b.capacity 1

/-- `m_storage[idx & (m_capacity - 1)]`. -/
def slot (b : PacketBuffer α) (idx : ℕ) : Option α := RingStore.get b.storage (b.slotIndex idx)

def cursor (b : PacketBuffer α) : ℕ := b.first

def span (b : PacketBuffer α) : ℕ := sub32 b.last b.first &&& 0xffff

/-- `while (new_size < size) new_size <<= 1`. Thirty-two rounds exhaust the bits of a
`std::uint32_t`. -/
def growTo : ℕ → ℕ → ℕ → ℕ
  | 0, newSize, _ => newSize
  | fuel + 1, newSize, size =>
    if newSize < size then growTo fuel (newSize * 2 % 2 ^ 32) size else newSize

def reserve (b : PacketBuffer α) (size : ℕ) : PacketBuffer α :=
  let newSize := growTo 32 (if b.capacity = 0 then 16 else b.capacity) size
  let newStorage := (List.range b.capacity).foldl
    (fun st n => st.set (add32 b.first n &&& sub32 newSize 1) (b.slot (add32 b.first n)))
    (List.replicate newSize none)
  { b with storage := newStorage, capacity := newSize }

def packetAt (b : PacketBuffer α) (idx : ℕ) : Option α :=
  if idx ≥ add32 b.first b.capacity then none
  else if compareLessWrap idx b.first 0xffff then none
  else b.slot idx

/-- The loop of `insert` that counts the free slots below `m_first`. -/
def freeSpace (b : PacketBuffer α) : ℕ → ℕ → ℕ → ℕ
  | 0, _, free => free
  | fuel + 1, i, free =>
    if i = b.slotIndex b.first then free
    else if (b.slot i).isSome then free
    else b.freeSpace fuel (b.slotIndex (sub32 i 1)) (free + 1)

/-- The part of `insert` that grows the storage until `idx` is part of it, on a buffer that is
not empty. -/
def growFor (b : PacketBuffer α) (idx : ℕ) : PacketBuffer α :=
  if compareLessWrap idx b.first 0xffff then
    -- the index comes before `first`: if there is room, move `first` backward
    let free := b.freeSpace b.capacity (b.slotIndex (sub32 b.first 1)) 0
    let below := sub32 b.first idx &&& 0xffff
    let grown := if below > free then b.reserve (sub32 (add32 below b.capacity) free) else b
    { grown with first := idx }
  else if idx ≥ add32 b.first b.capacity then b.reserve (add32 (sub32 idx b.first) 1)
  else if idx < b.first then
    -- we have wrapped
    let wrapped := add32 b.first b.capacity &&& 0xffff
    if idx ≥ wrapped ∧ b.capacity < 0xffff then
      b.reserve (add32 b.capacity (sub32 (idx + 1) wrapped))
    else b
  else b

/-- The part of `insert` that moves `m_last` past `idx`. -/
def moveLast (b : PacketBuffer α) (idx : ℕ) : PacketBuffer α :=
  if compareLessWrap b.last ((idx + 1) &&& 0xffff) 0xffff then
    { b with last := (idx + 1) &&& 0xffff }
  else b

/-- `for (i = 0; i < m_capacity; ++i, ++m_first) if (m_storage[m_first & mask]) break;` -/
def scanFirst (b : PacketBuffer α) : ℕ → ℕ → ℕ
  | 0, first => first
  | n + 1, first => if (b.slot first).isSome then first else b.scanFirst n (add32 first 1)

/-- `for (i = 0; i < m_capacity; ++i, --m_last) if (m_storage[m_last & mask]) break;` -/
def scanLast (b : PacketBuffer α) : ℕ → ℕ → ℕ
  | 0, last => last
  | n + 1, last => if (b.slot last).isSome then last else b.scanLast n (sub32 last 1)

/-- The part of `remove` that empties the slot. -/
def clearSlot (b : PacketBuffer α) (idx : ℕ) : PacketBuffer α :=
  let cleared : PacketBuffer α := { b with storage := b.storage.set (b.slotIndex idx) none }
  if (b.slot idx).isSome then
    if b.size - 1 = 0 then { cleared with size := b.size - 1, last := b.first }
    else { cleared with size := b.size - 1 }
  else cleared

/-- The part of `remove` that moves `m_first` to the next occupied slot. -/
def dropFirst (b : PacketBuffer α) (idx : ℕ) : PacketBuffer α :=
  if idx = b.first ∧ b.size ≠ 0 then
    { b with first := b.scanFirst b.capacity (add32 b.first 1) &&& 0xffff }
  else b

/-- The part of `remove` that moves `m_last` back behind the last occupied slot. -/
def dropLast (b : PacketBuffer α) (idx : ℕ) : PacketBuffer α :=
  if (idx + 1) &&& 0xffff = b.last ∧ b.size ≠ 0 then
    { b with last := add32 (b.scanLast b.capacity (sub32 b.last 1)) 1 &&& 0xffff }
  else b

def remove (b : PacketBuffer α) (idx : ℕ) : PacketBuffer α × Option α :=
  if idx ≥ add32 b.first b.capacity then (b, none)
  else if compareLessWrap idx b.first 0xffff then (b, none)
  else (((b.clearSlot idx).dropFirst idx).dropLast idx, b.slot idx)

/-- The second half of `insert`: put `value` in the slot of `idx`. -/
def storeSlot (b : PacketBuffer α) (idx : ℕ) (value : α) : PacketBuffer α :=
  { b with
    storage := b.storage.set (b.slotIndex idx) (some value)
    first := if b.size = 0 then idx else b.first
    -- replacing an old value does not increase the number of elements
    size := if (b.slot idx).isSome then b.size else b.size + 1 }

def insert (b : PacketBuffer α) (idx : ℕ) : Option α → PacketBuffer α × Option α
  | none => b.remove idx
  | some value =>
    let b :=
      if b.size ≠ 0 then (b.growFor idx).moveLast idx
      else { b with first := idx, last := (idx + 1) &&& 0xffff }
    let b := if b.capacity = 0 then b.reserve 16 else b
    (b.storeSlot idx value, b.slot idx)

end PacketBuffer

end Utp

end LibtorrentSN
