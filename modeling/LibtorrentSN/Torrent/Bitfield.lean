import LibtorrentSN.WordBits

/-!
# Bit fields

The `bitfield` (`include/libtorrent/bitfield.hpp`, `src/bitfield.cpp`) keeps any number of bits in words of 32 bits, in
the order they are sent to other peers. It stands for a list of booleans. The bits behind the last one must be clear in
the last word, because the queries look at whole words. Sizes are natural numbers: the source computes `bits + 31` as
an `int`, which is right for sizes of less than `2 ^ 31 - 31` bits.
-/

namespace LibtorrentSN

/-- `m_buf`: the number of bits, and then the words. The empty bit field has no buffer. -/
structure Bitfield where
  buf : Option (ℕ × List (BitVec 32))

namespace Bitfield

variable (e : ByteOrder) (bf : Bitfield)

/-- `size()` -/
def size : ℕ := (bf.buf.map (·.1)).getD 0

/-- The words behind the number of bits. -/
def words : List (BitVec 32) := (bf.buf.map (·.2)).getD []

/-- `num_words()` -/
def numWords : ℕ := (bf.size + 31) / 32

/-- The words are changed, if there is a buffer. -/
def withWords (f : List (BitVec 32) → List (BitVec 32)) : Bitfield := ⟨bf.buf.map fun b => (b.1, f b.2)⟩

/-! ### Changes -/

/-- The bit with this index alone, as a word. -/
def maskOf (index : ℕ) : BitVec 32 := 0x80000000#32 >>> (index % 32)

/-- `clear_trailing_bits()` -/
def clearTrailingBits : Bitfield :=
  -- clear the tail bits in the last word
  if bf.size % 32 = 0 then bf
  else bf.withWords fun words =>
    words.modify (bf.numWords - 1) (· &&& e.hostToNetwork (0xffffffff#32 <<< (32 - bf.size % 32)))

/-- `resize(bits)`. -/
def resize (bits : ℕ) : Bitfield :=
  if bits = bf.size then bf
  else if bits = 0 then ⟨none⟩
  else
    let newSizeWords := (bits + 31) / 32
    let curSizeWords := bf.numWords
    let b := if curSizeWords ≠ newSizeWords then
        bf.words.take (min newSizeWords curSizeWords) ++ List.replicate (newSizeWords - curSizeWords) 0
      else bf.words
    clearTrailingBits e ⟨some (bits, b)⟩

/-- `resize(bits, val)`. -/
def resizeVal (bits : ℕ) (val : Bool) : Bitfield :=
  if bits = bf.size then bf
  else
    let s := bf.size
    let b := bf.size % 32
    let bf := bf.resize e bits
    if bf.size ≤ s then bf
    else
      let oldSizeWords := (s + 31) / 32
      let newSizeWords := bf.numWords
      if val then
        let bf := if oldSizeWords ≠ 0 ∧ b ≠ 0 then
            bf.withWords (·.modify (oldSizeWords - 1) (· ||| e.hostToNetwork (0xffffffff#32 >>> b)))
          else bf
        let bf := if oldSizeWords < newSizeWords then
            bf.withWords (ByteOrder.fill oldSizeWords newSizeWords 0xffffffff#32)
          else bf
        bf.clearTrailingBits e
      else if oldSizeWords < newSizeWords then bf.withWords (ByteOrder.fill oldSizeWords newSizeWords 0)
      else bf

/-- `assign(b, bits)` -/
def assign (b : List (BitVec 8)) (bits : ℕ) : Bitfield :=
  let bf := bf.resize e bits
  if 0 < bits then (bf.withWords (e.copyBytes b ((bits + 7) / 8))).clearTrailingBits e
  else bf

/-- `set_bit(index)` -/
def setBit (index : ℕ) : Bitfield := bf.withWords (·.modify (index / 32) (· ||| e.hostToNetwork (maskOf index)))

/-- `clear_bit(index)` -/
def clearBit (index : ℕ) : Bitfield := bf.withWords (·.modify (index / 32) (· &&& e.hostToNetwork (~~~maskOf index)))

/-- `set_all()` -/
def setAll : Bitfield :=
  if bf.size = 0 then bf
  else (bf.withWords (ByteOrder.fill 0 bf.numWords 0xffffffff#32)).clearTrailingBits e

/-- `clear_all()` -/
def clearAll : Bitfield :=
  if bf.size = 0 then bf
  else bf.withWords (ByteOrder.fill 0 bf.numWords 0)

/-- `clear()` -/
def clear : Bitfield := ⟨none⟩

/-- The copy of another bit field: `assign(rhs.data(), rhs.size())`. -/
def copy (rhs : Bitfield) : Bitfield := bf.assign e (e.bytes rhs.words) rhs.size

/-! ### Queries -/

/-- `get_bit(index)` -/
def getBit (index : ℕ) : Bool := bf.words.getD (index / 32) 0 &&& e.hostToNetwork (maskOf index) != 0

/-- `all_set()` -/
def allSet : Bool :=
  if bf.size = 0 then false
  else
    let full := bf.size / 32
    let rest := bf.size % 32
    let mask := e.hostToNetwork (0xffffffff#32 <<< (32 - rest))
    (bf.words.take full).all (· == 0xffffffff#32) && (rest == 0 || bf.words.getD full 0 &&& mask == mask)

/-- `none_set()` -/
def noneSet : Bool :=
  if bf.size = 0 then true
  else (bf.words.take bf.numWords).all (· == 0)

/-- `operator==` of two different objects. Their buffers are the same only if neither has one. -/
def eq (rhs : Bitfield) : Bool :=
  if bf.buf = none ∧ rhs.buf = none then true
  else if bf.size ≠ rhs.size then false
  else bf.words.take bf.numWords == rhs.words.take bf.numWords

/-- `count()` -/
def count : ℕ := ((bf.words.take bf.numWords).map fun w => w.cpop.toNat).sum

/-- `count_leading_zeros`. -/
def countLeadingZeros : List (BitVec 32) → ℕ
  | [] => 0
  | w :: words => if w = 0 then 32 + countLeadingZeros words else (e.hostToNetwork w).clz.toNat

/-- `find_first_set()` -/
def findFirstSet : ℤ :=
  let num := bf.numWords
  if num = 0 then -1
  else
    let count := countLeadingZeros e (bf.words.take num)
    if count ≠ num * 32 then count else -1

/-! ### Iteration -/

/-- The word an iterator points to, and the bit in it as a number in host order. -/
structure ConstIterator where
  buf : Option ℕ
  bit : BitVec 32
  deriving DecidableEq

/-- `const_iterator::inc()` -/
def ConstIterator.inc (it : ConstIterator) : ConstIterator :=
  if it.bit = 0x01#32 then ⟨it.buf.map (· + 1), 0x80000000#32⟩
  else ⟨it.buf, it.bit >>> 1⟩

/-- `operator*`. It must point into the buffer. -/
def deref (it : ConstIterator) : Option Bool := do
  let m ← it.buf
  let w ← bf.words[m]?
  pure (w &&& e.hostToNetwork it.bit != 0)

/-- `begin()` -/
def begin : ConstIterator := ⟨bf.buf.map fun _ => 0, 0x80000000#32 >>> 0⟩

/-- `end()` -/
def end' : ConstIterator :=
  ⟨bf.buf.map fun _ => bf.numWords - if bf.size % 32 = 0 then 0 else 1, 0x80000000#32 >>> (bf.size % 32)⟩

/-- The values seen in a loop from an iterator to the end, in at most that many turns. -/
def iterate (it : ConstIterator) : ℕ → Option (List Bool)
  | 0 => if it = bf.end' then some [] else none
  | n + 1 =>
    if it = bf.end' then some []
    else do
      let b ← bf.deref e it
      let bits ← iterate it.inc n
      pure (b :: bits)

/-! ### Refinement -/

/-- The bit field stands for the list. The bits of the last word that are behind it are clear. -/
structure Represents (l : List Bool) : Prop where
  size : bf.size = l.length
  length : bf.words.length = (l.length + 31) / 32
  null : bf.buf = none ↔ l = []
  bit : ∀ i, e.bitAt bf.words i = l.getD i false

variable {e bf} {l : List Bool} {i : ℕ}

/-- The number of bits is kept. -/
@[simp]
theorem withWords_size (f : List (BitVec 32) → List (BitVec 32)) : (bf.withWords f).size = bf.size := by
  cases bf with | mk buf => cases buf <;> rfl

/-- The words of a buffer that is there. -/
theorem withWords_words (f : List (BitVec 32) → List (BitVec 32)) (h : bf.buf ≠ none) :
    (bf.withWords f).words = f bf.words := by
  cases bf with
  | mk buf =>
    cases buf with
    | none => exact absurd rfl h
    | some b => rfl

/-- To change a word that is not there is to change nothing. -/
@[simp]
theorem withWords_modify_words (m : ℕ) (f : BitVec 32 → BitVec 32) :
    (bf.withWords (·.modify m f)).words = bf.words.modify m f := by
  cases bf with
  | mk buf =>
    cases buf with
    | none => exact (List.modify_nil ..).symm
    | some b => rfl

/-- No buffer comes or goes. -/
@[simp]
theorem withWords_buf_eq_none (f : List (BitVec 32) → List (BitVec 32)) :
    (bf.withWords f).buf = none ↔ bf.buf = none := Option.map_eq_none_iff

/-- Nor do words. -/
@[simp]
theorem withWords_numWords (f : List (BitVec 32) → List (BitVec 32)) : (bf.withWords f).numWords = bf.numWords := by
  rw [numWords, numWords, withWords_size]

/-- The bits behind the size are clear after `clear_trailing_bits`, and no other bit changes. -/
theorem clearTrailingBits_spec (hlen : bf.words.length = (bf.size + 31) / 32) :
    (bf.clearTrailingBits e).size = bf.size ∧ ((bf.clearTrailingBits e).buf = none ↔ bf.buf = none) ∧
      (bf.clearTrailingBits e).words.length = bf.words.length ∧
      ∀ i, e.bitAt (bf.clearTrailingBits e).words i = (decide (i < bf.size) && e.bitAt bf.words i) := by
  rw [clearTrailingBits]
  split_ifs with hmod
  · -- the last word is full
    refine ⟨rfl, Iff.rfl, rfl, fun i => ?_⟩
    rcases Nat.lt_or_ge i bf.size with hi | hi
    · rw [decide_eq_true hi, Bool.true_and]
    · rw [ByteOrder.bitAt_of_le (by omega), Bool.and_false]
  · rw [withWords_modify_words]
    refine ⟨withWords_size _, withWords_buf_eq_none _, List.length_modify .., fun i => ?_⟩
    rcases Nat.lt_or_ge i (32 * bf.words.length) with hi | hi
    · rw [ByteOrder.bitAt_modify hi, numWords]
      split_ifs with hlast
      · rw [ByteOrder.bit_and (Nat.mod_lt _ (by decide)), ByteOrder.bit_first (by omega) (Nat.mod_lt _ (by decide)),
          Bool.and_comm, ← ByteOrder.bitAt]
        congr 1
        exact decide_eq_decide.mpr (by omega)
      · rw [decide_eq_true (by omega), Bool.true_and]
    · rw [ByteOrder.bitAt_of_le (by rwa [List.length_modify]), ByteOrder.bitAt_of_le hi, Bool.and_false]

/-- What is to be shown of a bit field whose tail is cleared at last. -/
theorem Represents.clearTrailingBits (hsize : bf.size = l.length) (hlen : bf.words.length = (l.length + 31) / 32)
    (hnull : bf.buf = none ↔ l = []) (hbit : ∀ i < l.length, e.bitAt bf.words i = l.getD i false) :
    (bf.clearTrailingBits e).Represents e l := by
  obtain ⟨hsize', hnull', hlen', hbit'⟩ := clearTrailingBits_spec (e := e) (hlen.trans (by rw [hsize]))
  refine ⟨hsize'.trans hsize, hlen'.trans hlen, hnull'.trans hnull, fun i => ?_⟩
  rw [hbit', hsize]
  rcases Nat.lt_or_ge i l.length with hi | hi
  · rw [decide_eq_true hi, Bool.true_and, hbit i hi]
  · rw [decide_eq_false (not_lt.mpr hi), Bool.false_and, List.getD_eq_default _ _ hi]

/-- What a list is after a change of its length. -/
def resized (l : List Bool) (bits : ℕ) (val : Bool) : List Bool :=
  l.take bits ++ List.replicate (bits - l.length) val

/-- The list has the new length. -/
@[simp]
theorem length_resized (l : List Bool) (bits : ℕ) (val : Bool) : (resized l bits val).length = bits := by
  rw [resized, List.length_append, List.length_take, List.length_replicate]
  omega

/-- Old bits are kept, and new ones have the value given. -/
theorem getD_resized (l : List Bool) {bits : ℕ} (val : Bool) (hi : i < bits) :
    (resized l bits val).getD i false = if i < l.length then l.getD i false else val := by
  rw [resized, List.getD_eq_getElem?_getD, List.getD_eq_getElem?_getD, List.getElem?_append, List.length_take,
    List.getElem?_take, List.getElem?_replicate]
  split_ifs <;> first | rfl | omega

/-- The same length changes nothing. -/
theorem resized_length (l : List Bool) (val : Bool) : resized l l.length val = l := by
  rw [resized, List.take_length, Nat.sub_self, List.replicate_zero, List.append_nil]

/-- The empty bit field. -/
theorem Represents.empty : Represents e ⟨none⟩ [] where
  size := rfl
  length := rfl
  null := iff_of_true rfl rfl
  bit i := ByteOrder.bitAt_of_le (Nat.zero_le i)

/-- New bits are clear. -/
theorem Represents.resize (h : bf.Represents e l) (bits : ℕ) :
    (bf.resize e bits).Represents e (resized l bits false) := by
  rw [Bitfield.resize]
  split_ifs with hsame hzero
  · rw [hsame, h.size, resized_length]
    exact h
  · -- an empty bit field has no buffer
    rw [hzero, resized, List.take_zero, Nat.zero_sub, List.replicate_zero, List.append_nil]
    exact .empty
  · dsimp only
    -- no words are copied if there are as many as before
    have hwords : (if bf.numWords ≠ (bits + 31) / 32 then
        bf.words.take (min ((bits + 31) / 32) bf.numWords) ++ List.replicate ((bits + 31) / 32 - bf.numWords) 0
      else bf.words) =
        bf.words.take (min ((bits + 31) / 32) bf.numWords) ++ List.replicate ((bits + 31) / 32 - bf.numWords) 0 := by
      split_ifs with hne
      · rfl
      · rw [not_ne_iff.mp hne, min_self, Nat.sub_self, List.replicate_zero, List.append_nil, List.take_of_length_le]
        rw [h.length, ← h.size, ← not_ne_iff.mp hne, numWords]
    rw [hwords]
    refine Represents.clearTrailingBits (by rw [length_resized]; rfl) ?_ ?_ fun i hi => ?_
    · rw [length_resized]
      change (List.take _ _ ++ _).length = _
      rw [List.length_append, List.length_take, List.length_replicate, h.length, numWords, h.size]
      omega
    · refine iff_of_false (by simp) fun hc => hzero ?_
      rw [← length_resized l bits false, hc, List.length_nil]
    · rw [length_resized] at hi
      change e.bitAt (List.take _ _ ++ _) i = _
      rw [ByteOrder.bitAt_take_append, h.bit, getD_resized l false hi, numWords, h.size]
      split_ifs with hlt
      · rw [decide_eq_true (by omega), Bool.true_and]
      · rw [List.getD_eq_default _ _ (by omega), Bool.and_false]

/-- A bit field with bits has a buffer. -/
theorem Represents.buf_ne_none (h : bf.Represents e l) (hl : l ≠ []) : bf.buf ≠ none := fun hc => hl (h.null.mp hc)

/-- There are as many words as the bits need. -/
theorem Represents.numWords (h : bf.Represents e l) : bf.numWords = bf.words.length := by
  rw [Bitfield.numWords, h.size, h.length]

/-- All bits of the word are set. -/
theorem bit_ones {k : ℕ} (hk : k < 32) : e.bit 0xffffffff#32 k = true := ByteOrder.bit_allOnes hk

/-- The two have as many bits, in as many words. -/
structure Alike (bf bf' : Bitfield) : Prop where
  size : bf'.size = bf.size
  null : bf'.buf = none ↔ bf.buf = none
  length : bf'.words.length = bf.words.length

theorem Alike.refl (bf : Bitfield) : Alike bf bf := ⟨rfl, Iff.rfl, rfl⟩

/-- Alike are bit fields that differ in bits only. -/
theorem Alike.trans {bf₁ bf₂ bf₃ : Bitfield} (h : Alike bf₁ bf₂) (h' : Alike bf₂ bf₃) : Alike bf₁ bf₃ :=
  ⟨h'.size.trans h.size, h'.null.trans h.null, h'.length.trans h.length⟩

/-- A word may change. -/
theorem alike_modify (m : ℕ) (f : BitVec 32 → BitVec 32) : Alike bf (bf.withWords (·.modify m f)) :=
  ⟨withWords_size _, withWords_buf_eq_none _, by rw [withWords_modify_words, List.length_modify]⟩

/-- Words may be filled. -/
theorem alike_fill {m n : ℕ} (w : BitVec 32) (hm : m ≤ n) (hn : n = bf.words.length) (hbuf : bf.buf ≠ none) :
    Alike bf (bf.withWords (ByteOrder.fill m n w)) :=
  ⟨withWords_size _, withWords_buf_eq_none _, by rw [withWords_words _ hbuf, ByteOrder.length_fill hm hn]⟩

/-- A bit field of the same shape stands for a list of the same length. -/
theorem Represents.alike {bf' : Bitfield} {l' : List Bool} (h : bf.Represents e l) (ha : Alike bf bf')
    (hl : l'.length = l.length) (hbit : ∀ i < 32 * bf.words.length, e.bitAt bf'.words i = l'.getD i false) :
    bf'.Represents e l' where
  size := by rw [ha.size, h.size, hl]
  length := by rw [ha.length, h.length, hl]
  null := by rw [ha.null, h.null, ← List.length_eq_zero_iff, ← List.length_eq_zero_iff, hl]
  bit i := by
    rcases Nat.lt_or_ge i (32 * bf.words.length) with hi | hi
    · exact hbit i hi
    · have hlen := h.length
      rw [ByteOrder.bitAt_of_le (by rwa [ha.length]), List.getD_eq_default _ _ (by omega)]

/-- The same for one that is filled up at last. -/
theorem Represents.alike_clearTrailingBits {bf' : Bitfield} {l' : List Bool} (h : bf.Represents e l) (ha : Alike bf bf')
    (hl : l'.length = l.length) (hbit : ∀ i < l.length, e.bitAt bf'.words i = l'.getD i false) :
    (bf'.clearTrailingBits e).Represents e l' :=
  .clearTrailingBits (by rw [ha.size, h.size, hl]) (by rw [ha.length, h.length, hl])
    (by rw [ha.null, h.null, ← List.length_eq_zero_iff, ← List.length_eq_zero_iff, hl]) (by rwa [hl])

/-- The rest of the word that was the last one is set. -/
theorem setTail_spec {n : ℕ} (r : Bitfield) (hn : (n + 31) / 32 ≤ r.words.length) :
    ∃ r', r' = (if (n + 31) / 32 ≠ 0 ∧ n % 32 ≠ 0 then
        r.withWords (·.modify ((n + 31) / 32 - 1) (· ||| e.hostToNetwork (0xffffffff#32 >>> (n % 32)))) else r) ∧
      Alike r r' ∧ ∀ i < 32 * ((n + 31) / 32), e.bitAt r'.words i = (e.bitAt r.words i || decide (n ≤ i)) := by
  refine ⟨_, rfl, ?_⟩
  split_ifs with hlast
  · refine ⟨alike_modify _ _, fun i hi => ?_⟩
    rw [withWords_modify_words, ByteOrder.bitAt_modify (by omega)]
    split_ifs with hword
    · rw [ByteOrder.bit_or (Nat.mod_lt _ (by decide)), ByteOrder.bit_last (Nat.mod_lt _ (by decide)), ← ByteOrder.bitAt]
      congr 1
      exact decide_eq_decide.mpr (by omega)
    · rw [decide_eq_false (by omega), Bool.or_false]
  · refine ⟨.refl _, fun i hi => ?_⟩
    rw [decide_eq_false (by omega), Bool.or_false]

/-- New bits have the value given. -/
theorem Represents.resizeVal (h : bf.Represents e l) (bits : ℕ) (val : Bool) :
    (bf.resizeVal e bits val).Represents e (resized l bits val) := by
  by_cases hsame : bits = bf.size
  · rw [Bitfield.resizeVal, if_pos hsame, hsame, h.size, resized_length]
    exact h
  obtain ⟨r, hr⟩ : ∃ r, r = bf.resize e bits := ⟨_, rfl⟩
  have hresize : r.Represents e (resized l bits false) := hr ▸ h.resize bits
  have hsize : r.size = bits := by rw [hresize.size, length_resized]
  have hlen : r.words.length = (bits + 31) / 32 := by rw [hresize.length, length_resized]
  rw [Bitfield.resizeVal, if_neg hsame]
  dsimp only
  rw [← hr, h.size, hresize.numWords]
  by_cases hshrink : r.size ≤ l.length
  · -- no new bits
    have heq : resized l bits val = resized l bits false := by
      rw [resized, resized, Nat.sub_eq_zero_of_le (hsize ▸ hshrink)]
      rfl
    rwa [if_pos hshrink, heq]
  rw [if_neg hshrink]
  have hne : r.buf ≠ none := hresize.buf_ne_none fun hc => by
    rw [← length_resized l bits false, hc, List.length_nil] at hsize
    omega
  have hwords : (l.length + 31) / 32 ≤ r.words.length := by omega
  cases val with
  | true =>
    obtain ⟨r', hr', halike, hbit⟩ := setTail_spec (e := e) r hwords
    rw [if_pos rfl, ← hr', ← halike.length]
    have hne' : r'.buf ≠ none := fun hc => hne (halike.null.mp hc)
    by_cases hmore : (l.length + 31) / 32 < r'.words.length
    · -- the new words are all ones
      rw [if_pos hmore]
      refine hresize.alike_clearTrailingBits (halike.trans (alike_fill _ hmore.le rfl hne')) (by simp) fun i hi => ?_
      rw [length_resized] at hi
      have hlen' := halike.length
      rw [withWords_words _ hne', ByteOrder.bitAt_fill hmore.le rfl (by omega), getD_resized l true hi]
      split_ifs with hold hin hin
      · rw [hbit i hold, hresize.bit, getD_resized l false hi, if_pos hin, decide_eq_false (by omega), Bool.or_false]
      · rw [hbit i hold, decide_eq_true (by omega), Bool.or_true]
      · omega
      · exact bit_ones (Nat.mod_lt _ (by decide))
    · rw [if_neg hmore]
      refine hresize.alike_clearTrailingBits halike (by simp) fun i hi => ?_
      rw [length_resized] at hi
      have hlen' := halike.length
      rw [hbit i (by omega), hresize.bit, getD_resized l false hi, getD_resized l true hi]
      split_ifs with hin
      · rw [decide_eq_false (by omega), Bool.or_false]
      · rw [decide_eq_true (by omega), Bool.or_true]
  | false =>
    rw [if_neg Bool.false_ne_true]
    split_ifs with hmore
    · -- the new words are zero already
      refine hresize.alike (alike_fill _ hmore.le rfl hne) rfl fun i hi => ?_
      rw [withWords_words _ hne, ByteOrder.bitAt_fill hmore.le rfl hi, hresize.bit]
      split_ifs with hold
      · rfl
      · rw [ByteOrder.bit_zero]
        rcases Nat.lt_or_ge i bits with hi' | hi'
        · rw [getD_resized l false hi', if_neg (by omega)]
        · rw [List.getD_eq_default _ _ (by rwa [length_resized])]
    · exact hresize

/-- The bits of a buffer, each byte from its high bit on. -/
def bitsOf (b : List (BitVec 8)) (bits : ℕ) : List Bool :=
  (List.range bits).map fun i => (b.getD (i / 8) 0).getMsbD (i % 8)

/-- Bits are numbered from the highest one of a byte on. -/
theorem getD_bitsOf (b : List (BitVec 8)) {bits : ℕ} (hi : i < bits) :
    (bitsOf b bits).getD i false = (b.getD (i / 8) 0).getMsbD (i % 8) := by
  rw [List.getD_eq_getElem _ _ (by rwa [bitsOf, List.length_map, List.length_range])]
  simp only [bitsOf, List.getElem_map, List.getElem_range]

/-- The bits of the bytes are taken over. -/
theorem Represents.assign (h : bf.Represents e l) (b : List (BitVec 8)) (bits : ℕ) :
    (bf.assign e b bits).Represents e (bitsOf b bits) := by
  have hresize := h.resize bits
  have hlength : (bitsOf b bits).length = (resized l bits false).length := by
    rw [length_resized, bitsOf, List.length_map, List.length_range]
  rw [Bitfield.assign]
  split_ifs with hpos
  · have hne : (bf.resize e bits).buf ≠ none := hresize.buf_ne_none fun hc => by
      have hzero := length_resized l bits false
      rw [hc, List.length_nil] at hzero
      omega
    have halike : Alike (bf.resize e bits) ((bf.resize e bits).withWords (e.copyBytes b ((bits + 7) / 8))) :=
      ⟨withWords_size _, withWords_buf_eq_none _, by
        rw [withWords_words _ hne, ByteOrder.copyBytes, List.length_mapIdx]⟩
    refine hresize.alike_clearTrailingBits halike hlength fun i hi => ?_
    have hlen := hresize.length
    rw [length_resized] at hi hlen
    rw [withWords_words _ hne, ByteOrder.bitAt_copyBytes (by omega), if_pos (by omega), getD_bitsOf b hi]
  · obtain rfl : bits = 0 := by omega
    have hnil : resized l 0 false = [] := List.eq_nil_of_length_eq_zero (length_resized l 0 false)
    rw [hnil] at hresize
    exact hresize

/-- The bytes in memory are the bits in the order they are sent. -/
theorem Represents.bitsOf_bytes (h : bf.Represents e l) : bitsOf (e.bytes bf.words) bf.size = l := by
  refine List.ext_getElem (by rw [bitsOf, List.length_map, List.length_range, h.size]) fun i hi hi' => ?_
  have hlen := h.length
  rw [← List.getD_eq_getElem _ false hi, ← List.getD_eq_getElem _ false hi', getD_bitsOf _ (by rwa [h.size]),
    ByteOrder.getD_bytes (by omega), h.bit]

/-- The bits of another bit field are taken over. -/
theorem Represents.copy {rhs : Bitfield} {l' : List Bool} (h : bf.Represents e l) (h' : rhs.Represents e l') :
    (bf.copy e rhs).Represents e l' := by
  have hcopy := h.assign (e.bytes rhs.words) rhs.size
  rwa [h'.bitsOf_bytes] at hcopy

/-- One bit is set in the list. -/
theorem getD_set (hi : i < l.length) (b : Bool) (j : ℕ) :
    (l.set i b).getD j false = if i = j then b else l.getD j false := by
  rw [List.getD_eq_getElem?_getD, List.getD_eq_getElem?_getD, List.getElem?_set]
  split_ifs with hij <;> rfl

/-- One bit is set. -/
theorem Represents.setBit (h : bf.Represents e l) (hi : i < l.length) : (bf.setBit e i).Represents e (l.set i true) := by
  refine h.alike (alike_modify _ _) List.length_set fun j hj => ?_
  have hlt := Nat.mod_lt j (by decide : 32 > 0)
  rw [Bitfield.setBit, withWords_modify_words, ByteOrder.bitAt_modify hj, getD_set hi, h.bit]
  split_ifs with hword hij hij
  · rw [ByteOrder.bit_or hlt, maskOf, ByteOrder.bit_single (Nat.mod_lt _ (by decide)) hlt, hij, decide_eq_true rfl,
      Bool.or_true]
  · rw [ByteOrder.bit_or hlt, maskOf, ByteOrder.bit_single (Nat.mod_lt _ (by decide)) hlt,
      decide_eq_false (by omega), Bool.or_false]
    exact h.bit j
  · exact absurd (congrArg (· / 32) hij) hword
  · rfl

/-- One bit is cleared. -/
theorem Represents.clearBit (h : bf.Represents e l) (hi : i < l.length) :
    (bf.clearBit e i).Represents e (l.set i false) := by
  refine h.alike (alike_modify _ _) List.length_set fun j hj => ?_
  have hlt := Nat.mod_lt j (by decide : 32 > 0)
  have hmask : e.bit (e.hostToNetwork (~~~maskOf i)) (j % 32) = !decide (j % 32 = i % 32) := by
    rw [ByteOrder.bit_hostToNetwork hlt, BitVec.getMsbD_not, decide_eq_true hlt, Bool.true_and,
      ← ByteOrder.bit_hostToNetwork (e := e) hlt, maskOf, ByteOrder.bit_single (Nat.mod_lt _ (by decide)) hlt]
  rw [Bitfield.clearBit, withWords_modify_words, ByteOrder.bitAt_modify hj, getD_set hi, h.bit]
  split_ifs with hword hij hij
  · rw [ByteOrder.bit_and hlt, hmask, hij, decide_eq_true rfl, Bool.not_true, Bool.and_false]
  · rw [ByteOrder.bit_and hlt, hmask, decide_eq_false (by omega), Bool.not_false, Bool.and_true]
    exact h.bit j
  · exact absurd (congrArg (· / 32) hij) hword
  · rfl

/-- All bits are set, but not those behind the last. -/
theorem Represents.setAll (h : bf.Represents e l) : (bf.setAll e).Represents e (List.replicate l.length true) := by
  rw [Bitfield.setAll]
  split_ifs with hzero
  · rw [h.size, List.length_eq_zero_iff] at hzero
    rwa [hzero, List.length_nil, List.replicate_zero, ← hzero]
  · have hne := h.buf_ne_none fun hc => hzero (by rw [h.size, hc, List.length_nil])
    rw [h.numWords]
    refine h.alike_clearTrailingBits (alike_fill _ (Nat.zero_le _) rfl hne) List.length_replicate fun i hi => ?_
    have hlen := h.length
    rw [withWords_words _ hne, ByteOrder.bitAt_fill (Nat.zero_le _) rfl (by omega), if_neg (by omega),
      bit_ones (Nat.mod_lt _ (by decide)), List.getD_replicate _ hi]

/-- All bits are cleared. -/
theorem Represents.clearAll (h : bf.Represents e l) : bf.clearAll.Represents e (List.replicate l.length false) := by
  rw [Bitfield.clearAll]
  split_ifs with hzero
  · rw [h.size, List.length_eq_zero_iff] at hzero
    rwa [hzero, List.length_nil, List.replicate_zero, ← hzero]
  · have hne := h.buf_ne_none fun hc => hzero (by rw [h.size, hc, List.length_nil])
    rw [h.numWords]
    refine h.alike (alike_fill _ (Nat.zero_le _) rfl hne) List.length_replicate fun i hi => ?_
    rw [withWords_words _ hne, ByteOrder.bitAt_fill (Nat.zero_le _) rfl hi, if_neg (by omega), ByteOrder.bit_zero]
    rcases Nat.lt_or_ge i l.length with hi' | hi'
    · rw [List.getD_replicate _ hi']
    · rw [List.getD_eq_default _ _ (by rwa [List.length_replicate])]

/-- No word is left over. -/
theorem Represents.take_words (h : bf.Represents e l) : bf.words.take bf.numWords = bf.words := by
  rw [h.numWords, List.take_length]

/-- A bit is read. -/
theorem Represents.getBit (h : bf.Represents e l) (i : ℕ) : bf.getBit e i = l.getD i false := by
  rw [← h.bit, ByteOrder.bitAt, Bool.eq_iff_iff, Bitfield.getBit, bne_iff_ne, maskOf]
  exact ByteOrder.and_single_ne_zero (Nat.mod_lt _ (by decide))

/-- Whole words tell whether no bit is set. -/
theorem Represents.noneSet (h : bf.Represents e l) : bf.noneSet = l.all (!·) := by
  rw [Bitfield.noneSet, h.take_words]
  split_ifs with hzero
  · rw [h.size, List.length_eq_zero_iff] at hzero
    rw [hzero, List.all_nil]
  · rw [Bool.eq_iff_iff, List.all_eq_true, List.all_eq_true]
    constructor
    · intro hall b hb
      obtain ⟨i, hi, rfl⟩ := List.mem_iff_getElem.mp hb
      have hlen := h.length
      have hbit := h.bit i
      rw [ByteOrder.bitAt_of_lt (by omega), eq_of_beq (hall _ (List.getElem_mem _)), ByteOrder.bit_zero,
        List.getD_eq_getElem _ _ hi] at hbit
      rw [← hbit, Bool.not_false]
    · intro hall w hw
      obtain ⟨m, hm, rfl⟩ := List.mem_iff_getElem.mp hw
      refine beq_iff_eq.mpr ((ByteOrder.eq_zero_iff (e := e)).mpr fun k hk => ?_)
      have hbit := h.bit (32 * m + k)
      rw [ByteOrder.bitAt_of_lt (by omega)] at hbit
      simp only [show (32 * m + k) / 32 = m by omega, show (32 * m + k) % 32 = k by omega] at hbit
      rw [hbit]
      rcases Nat.lt_or_ge (32 * m + k) l.length with hi | hi
      · rw [List.getD_eq_getElem _ _ hi]
        simpa using hall _ (List.getElem_mem hi)
      · exact List.getD_eq_default _ _ hi

/-- Bit fields with the same bits are equal. -/
theorem Represents.eq {rhs : Bitfield} {l' : List Bool} (h : bf.Represents e l) (h' : rhs.Represents e l') :
    bf.eq rhs = decide (l = l') := by
  rw [Bitfield.eq, h.size, h'.size]
  split_ifs with hnull hsize
  · rw [h.null.mp hnull.1, h'.null.mp hnull.2, decide_eq_true rfl]
  · rw [decide_eq_false fun hc => hsize (congrArg _ hc)]
  · have hlen := not_ne_iff.mp hsize
    have hnum : bf.numWords = rhs.numWords := by rw [Bitfield.numWords, Bitfield.numWords, h.size, h'.size, hlen]
    rw [Bool.eq_iff_iff, beq_iff_eq, decide_eq_true_iff, h.take_words, hnum, h'.take_words]
    constructor
    · intro hwords
      refine List.ext_getElem hlen fun i hi hi' => ?_
      rw [← List.getD_eq_getElem _ false hi, ← List.getD_eq_getElem _ false hi', ← h.bit, ← h'.bit, hwords]
    · rintro rfl
      exact ByteOrder.eq_of_bitAt_eq (e := e) (h.length.trans h'.length.symm) fun i => (h.bit i).trans (h'.bit i).symm

/-- A list from its elements. -/
theorem map_getD_range (l : List Bool) : (List.range l.length).map (l.getD · false) = l := by
  refine List.ext_getElem (by simp) fun i hi hi' => ?_
  rw [List.getElem_map, List.getElem_range, List.getD_eq_getElem _ _ hi']

/-- The bits that are set, counted word by word. -/
theorem Represents.count (h : bf.Represents e l) : bf.count = l.count true := by
  have hlen := h.length
  obtain ⟨k, hk⟩ := Nat.exists_eq_add_of_le (show l.length ≤ 32 * bf.words.length by omega)
  have htail : ((List.range k).map (l.length + ·)).countP (e.bitAt bf.words) = 0 := by
    refine List.countP_eq_zero.mpr fun i hi => ?_
    obtain ⟨m, -, rfl⟩ := List.mem_map.mp hi
    rw [h.bit, List.getD_eq_default _ _ (Nat.le_add_right ..)]
    exact Bool.false_ne_true
  calc bf.count = (List.range (32 * bf.words.length)).countP (e.bitAt bf.words) := by
        rw [Bitfield.count, h.take_words, ByteOrder.sum_cpop]
    _ = (List.range l.length).countP (l.getD · false) := by
        rw [hk, List.range_add, List.countP_append, htail, Nat.add_zero]
        exact List.countP_congr fun i _ => by rw [h.bit]
    _ = ((List.range l.length).map (l.getD · false)).countP (· == true) := by
        rw [List.countP_map]
        exact List.countP_congr fun i _ => by rw [Function.comp_apply, beq_true]
    _ = l.count true := by rw [map_getD_range, List.count]

/-- The number of clear bits in front, if there is a bit that is set. -/
theorem countLeadingZeros_spec (e : ByteOrder) (words : List (BitVec 32)) :
    countLeadingZeros e words ≤ 32 * words.length ∧
      (∀ i < countLeadingZeros e words, e.bitAt words i = false) ∧
      (countLeadingZeros e words < 32 * words.length → e.bitAt words (countLeadingZeros e words) = true) := by
  induction words with
  | nil => exact ⟨le_rfl, fun i hi => absurd hi (Nat.not_lt_zero i), fun h => absurd h (lt_irrefl _)⟩
  | cons w words ih =>
    rw [countLeadingZeros, List.length_cons]
    split_ifs with hw
    · obtain ⟨hle, hbefore, hat⟩ := ih
      refine ⟨by omega, fun i hi => ?_, fun hlt => ?_⟩
      · rw [ByteOrder.bitAt_cons, hw]
        split_ifs
        · exact ByteOrder.bit_zero
        · exact hbefore _ (by omega)
      · rw [ByteOrder.bitAt_cons, if_neg (by omega), Nat.add_sub_cancel_left]
        exact hat (by omega)
    · obtain ⟨hlt, hat, hbefore⟩ := ByteOrder.clz_hostToNetwork (e := e) hw
      refine ⟨by omega, fun i hi => ?_, fun _ => ?_⟩
      · rw [ByteOrder.bitAt_cons, if_pos (by omega), hbefore i hi]
      · rw [ByteOrder.bitAt_cons, if_pos hlt, hat]

/-- The first bit that is set, or -1. -/
theorem Represents.findFirstSet (h : bf.Represents e l) :
    bf.findFirstSet e = (l.findIdx? (·)).elim (-1) (fun i => (i : ℤ)) := by
  have hlen := h.length
  obtain ⟨hle, hbefore, hat⟩ := countLeadingZeros_spec e bf.words
  rw [Bitfield.findFirstSet, h.take_words, h.numWords]
  dsimp only
  split_ifs with hnone hfound
  · obtain rfl : l = [] := List.eq_nil_of_length_eq_zero (by omega)
    rfl
  · have hbit := (h.bit _).symm.trans (hat (by omega))
    have hlt : countLeadingZeros e bf.words < l.length := by
      by_contra hc
      rw [List.getD_eq_default _ _ (not_lt.mp hc)] at hbit
      cases hbit
    have hfind : l.findIdx? (·) = some (countLeadingZeros e bf.words) := by
      refine List.findIdx?_eq_some_iff_getElem.mpr ⟨hlt, ?_, fun j hj => ?_⟩
      · rwa [List.getD_eq_getElem _ _ hlt] at hbit
      · have hclear := (h.bit j).symm.trans (hbefore j hj)
        rw [List.getD_eq_getElem _ _ (by omega)] at hclear
        rw [hclear]
        exact Bool.false_ne_true
    rw [hfind, Option.elim_some]
  · have hfind : l.findIdx? (·) = none := by
      refine List.findIdx?_eq_none_iff.mpr fun b hb => ?_
      obtain ⟨i, hi, rfl⟩ := List.mem_iff_getElem.mp hb
      have hclear := (h.bit i).symm.trans (hbefore i (by omega))
      rwa [List.getD_eq_getElem _ _ hi] at hclear
    rw [hfind, Option.elim_none]

/-- Whole words tell whether all bits are set, and the last one is masked. -/
theorem Represents.allSet (h : bf.Represents e l) (hl : l ≠ []) : bf.allSet e = l.all (·) := by
  have hlen := h.length
  rw [Bitfield.allSet, h.size, if_neg fun hc => hl (List.eq_nil_of_length_eq_zero hc), Bool.eq_iff_iff,
    Bool.and_eq_true, Bool.or_eq_true, List.all_eq_true, List.all_eq_true, beq_iff_eq, beq_iff_eq,
    ByteOrder.and_eq_right_iff (e := e)]
  constructor
  · rintro ⟨hfull, hrest⟩ b hb
    obtain ⟨i, hi, rfl⟩ := List.mem_iff_getElem.mp hb
    rw [← List.getD_eq_getElem _ false hi, ← h.bit]
    rcases Nat.lt_or_ge (i / 32) (l.length / 32) with hword | hword
    · -- a bit of a full word
      have hmem : bf.words[i / 32] ∈ bf.words.take (l.length / 32) :=
        List.mem_take_iff_getElem.mpr ⟨i / 32, by omega, rfl⟩
      rw [ByteOrder.bitAt_of_lt (by omega), eq_of_beq (hfull _ hmem), bit_ones (Nat.mod_lt _ (by decide))]
    · rw [ByteOrder.bitAt, show i / 32 = l.length / 32 by omega]
      refine hrest.resolve_left (by omega) _ (Nat.mod_lt _ (by decide)) ?_
      rw [ByteOrder.bit_first (by omega) (Nat.mod_lt _ (by decide))]
      exact decide_eq_true (by omega)
  · intro hall
    have hset : ∀ i < l.length, e.bitAt bf.words i = true := fun i hi => by
      rw [h.bit, List.getD_eq_getElem _ _ hi]
      exact hall _ (List.getElem_mem hi)
    constructor
    · intro w hw
      obtain ⟨m, hm, rfl⟩ := List.mem_take_iff_getElem.mp hw
      refine beq_iff_eq.mpr (ByteOrder.eq_of_bit_eq (e := e) fun k hk => ?_)
      have hbit := hset (32 * m + k) (by omega)
      rw [ByteOrder.bitAt_of_lt (by omega)] at hbit
      simp only [show (32 * m + k) / 32 = m by omega, show (32 * m + k) % 32 = k by omega] at hbit
      rw [hbit, bit_ones hk]
    · refine or_iff_not_imp_left.mpr fun hrest k hk hmask => ?_
      rw [ByteOrder.bit_first (by omega) hk, decide_eq_true_iff] at hmask
      have hbit := hset (32 * (l.length / 32) + k) (by omega)
      rwa [ByteOrder.bitAt, show (32 * (l.length / 32) + k) / 32 = l.length / 32 by omega,
        show (32 * (l.length / 32) + k) % 32 = k by omega] at hbit

/-- The iterator at an index. -/
def iteratorAt (i : ℕ) : ConstIterator := ⟨some (i / 32), 0x80000000#32 >>> (i % 32)⟩

/-- One step of an iterator. -/
theorem inc_iteratorAt (i : ℕ) : (iteratorAt i).inc = iteratorAt (i + 1) := by
  have hlast : ∀ k < 32, (0x80000000#32 >>> k = 0x01#32 ↔ k = 31) := by decide
  rw [iteratorAt, ConstIterator.inc]
  simp only [hlast _ (Nat.mod_lt i (by decide))]
  split_ifs with hword
  · rw [iteratorAt, show (i + 1) / 32 = i / 32 + 1 by omega, show (i + 1) % 32 = 0 by omega]
    rfl
  · rw [iteratorAt, ← BitVec.shiftRight_add, show (i + 1) / 32 = i / 32 by omega,
      show (i + 1) % 32 = i % 32 + 1 by omega]

/-- Iterators at different bits differ. -/
theorem iteratorAt_inj {i j : ℕ} (h : iteratorAt i = iteratorAt j) : i = j := by
  have hbit : ∀ k < 32, ∀ m < 32, 0x80000000#32 >>> k = 0x80000000#32 >>> m → k = m := by decide
  rw [iteratorAt, iteratorAt, ConstIterator.mk.injEq, Option.some.injEq] at h
  have hmod := hbit _ (Nat.mod_lt i (by decide)) _ (Nat.mod_lt j (by decide)) h.2
  omega

/-- The bits from one on, in order. -/
theorem Represents.iterate_iteratorAt (h : bf.Represents e l) (hend : bf.end' = iteratorAt l.length) (n : ℕ) {i : ℕ}
    (hi : i ≤ l.length) (hn : l.length - i ≤ n) : bf.iterate e (iteratorAt i) n = some (l.drop i) := by
  induction n generalizing i with
  | zero =>
    obtain rfl : i = l.length := by omega
    rw [iterate, hend, if_pos rfl, List.drop_length]
  | succ n ih =>
    rw [iterate, hend]
    rcases hi.lt_or_eq with hlt | rfl
    · have hlen := h.length
      have hderef : bf.deref e (iteratorAt i) = some l[i] := by
        have hget := h.getBit i
        rw [Bitfield.getBit, List.getD_eq_getElem _ _ (by omega), List.getD_eq_getElem _ _ hlt] at hget
        simp only [deref, iteratorAt, Option.bind_eq_bind, Option.bind_some,
          List.getElem?_eq_getElem (show i / 32 < bf.words.length by omega)]
        exact congrArg some hget
      rw [if_neg fun hc => hlt.ne (iteratorAt_inj hc), hderef, inc_iteratorAt, ih hlt (by omega),
        List.drop_eq_getElem_cons hlt]
      rfl
    · rw [if_pos rfl, List.drop_length]

/-- The loop over all bits. -/
theorem Represents.iterate (h : bf.Represents e l) {n : ℕ} (hn : l.length ≤ n) :
    bf.iterate e bf.begin n = some l := by
  rcases eq_or_ne bf.buf none with hbuf | hbuf
  · -- the null pointer is the end at once
    have hnil := h.null.mp hbuf
    have hend : bf.begin = bf.end' := by
      rw [begin, end', hbuf, h.size, hnil]
      rfl
    cases n <;> rw [Bitfield.iterate, if_pos hend, hnil]
  · obtain ⟨b, hb⟩ := Option.ne_none_iff_exists'.mp hbuf
    have hbegin : bf.begin = iteratorAt 0 := by
      rw [begin, hb]
      rfl
    have hend : bf.end' = iteratorAt l.length := by
      rw [end', hb, h.size, iteratorAt, Option.map_some, h.numWords, h.length]
      congr 2
      split_ifs <;> omega
    rw [hbegin, h.iterate_iteratorAt hend n (Nat.zero_le _) (by omega), List.drop_zero]

/-- The bit fields that arise from the operations, and the lists that arise from the same operations on lists. -/
inductive Reached (e : ByteOrder) : Bitfield → List Bool → Prop
  | empty : Reached e ⟨none⟩ []
  | resize {bf : Bitfield} {l : List Bool} (bits : ℕ) : Reached e bf l → Reached e (bf.resize e bits) (resized l bits false)
  | resizeVal {bf : Bitfield} {l : List Bool} (bits : ℕ) (val : Bool) : Reached e bf l →
    Reached e (bf.resizeVal e bits val) (resized l bits val)
  | assign {bf : Bitfield} {l : List Bool} (b : List (BitVec 8)) (bits : ℕ) : Reached e bf l →
    bits ≤ 8 * b.length → Reached e (bf.assign e b bits) (bitsOf b bits)
  | setBit {bf : Bitfield} {l : List Bool} {i : ℕ} : Reached e bf l → i < l.length → Reached e (bf.setBit e i) (l.set i true)
  | clearBit {bf : Bitfield} {l : List Bool} {i : ℕ} : Reached e bf l → i < l.length → Reached e (bf.clearBit e i) (l.set i false)
  | setAll {bf : Bitfield} {l : List Bool} : Reached e bf l → Reached e (bf.setAll e) (List.replicate l.length true)
  | clearAll {bf : Bitfield} {l : List Bool} : Reached e bf l → Reached e bf.clearAll (List.replicate l.length false)
  | copy {bf rhs : Bitfield} {l l' : List Bool} : Reached e bf l → Reached e rhs l' → Reached e (bf.copy e rhs) l'
  | clear {bf : Bitfield} {l : List Bool} : Reached e bf l → Reached e clear []

/-- All operations keep the bits of the list. -/
theorem Reached.represents (h : Reached e bf l) : bf.Represents e l := by
  induction h with
  | empty => exact .empty
  | resize bits _ ih => exact ih.resize bits
  | resizeVal bits val _ ih => exact ih.resizeVal bits val
  | assign b bits _ _ ih => exact ih.assign b bits
  | setBit _ hi ih => exact ih.setBit hi
  | clearBit _ hi ih => exact ih.clearBit hi
  | setAll _ ih => exact ih.setAll
  | clearAll _ ih => exact ih.clearAll
  | copy _ _ ih ih' => exact ih.copy ih'
  | clear _ _ => exact .empty

/-- What the queries say, and the bits behind the last one. -/
structure Agrees (e : ByteOrder) (bf : Bitfield) (l : List Bool) : Prop where
  size : bf.size = l.length
  getBit : ∀ (i : ℕ) (hi : i < l.length), bf.getBit e i = l[i]
  iterate : ∀ n, l.length ≤ n → bf.iterate e bf.begin n = some l
  length : bf.words.length = (bf.size + 31) / 32
  tail : ∀ i, bf.size ≤ i → e.bitAt bf.words i = false
  count : bf.count = l.count true
  allSet : 0 < bf.size → bf.allSet e = l.all (·)
  noneSet : bf.noneSet = l.all (!·)
  findFirstSet : bf.findFirstSet e = (l.findIdx? (·)).elim (-1) fun i => (i : ℤ)

/-- The bit field is a list of booleans to whoever asks it. -/
theorem Reached.agrees (h : Reached e bf l) :
    Agrees e bf l ∧ ∀ rhs l', Reached e rhs l' → bf.eq rhs = decide (l = l') := by
  have hr := h.represents
  refine ⟨⟨hr.size, fun i hi => ?_, fun n => hr.iterate, ?_, fun i hi => ?_, hr.count, fun hpos => ?_, hr.noneSet,
    hr.findFirstSet⟩, fun rhs l' h' => hr.eq h'.represents⟩
  · rw [hr.getBit, List.getD_eq_getElem _ _ hi]
  · rw [hr.length, hr.size]
  · rw [hr.bit, List.getD_eq_default _ _ (by rwa [← hr.size])]
  · refine hr.allSet fun hc => ?_
    rw [hr.size, hc, List.length_nil] at hpos
    exact lt_irrefl _ hpos

/-- Forty bits, the first of which is cleared, and the last ones cut off. -/
theorem Reached.agrees_forty :
    let bf := (((⟨none⟩ : Bitfield).resizeVal .little 40 true).clearBit .little 0).resize .little 35
    let l := resized ((resized [] 40 true).set 0 false) 35 false
    Reached .little bf l ∧ Agrees .little bf l ∧ ∀ rhs l', Reached .little rhs l' → bf.eq rhs = decide (l = l') :=
  have h := (Reached.empty.resizeVal 40 true).clearBit (i := 0) (by decide) |>.resize 35
  ⟨h, h.agrees⟩

end Bitfield

end LibtorrentSN
