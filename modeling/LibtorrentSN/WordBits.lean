import Mathlib

/-!
# The bits of words in memory

A word of 32 bits lies in memory as four bytes, in the order of the machine. Bit fields that are exchanged with other
machines number their bits by memory: byte after byte, each from its high bit on. The bits of a list of words are
numbered through.
-/

namespace LibtorrentSN

/-- The order of the bytes of a word in memory. -/
inductive ByteOrder
  | little
  | big

namespace ByteOrder

variable (e : ByteOrder)

/-- The byte of a word at an address within it. -/
def byteOf (w : BitVec 32) (j : ℕ) : BitVec 8 :=
  match e with
  | little => w.extractLsb' (8 * j) 8
  | big => w.extractLsb' (8 * (3 - j)) 8

/-- The word that has these bytes at its addresses. -/
def wordOf (b : ℕ → BitVec 8) : BitVec 32 :=
  match e with
  | little => b 3 ++ b 2 ++ b 1 ++ b 0
  | big => b 0 ++ b 1 ++ b 2 ++ b 3

/-- `htonl`, which is its own inverse: in memory the high byte comes first. -/
def hostToNetwork (w : BitVec 32) : BitVec 32 := e.wordOf (big.byteOf w)

/-- The bit of a word that is at the position `k` in memory. -/
def bit (w : BitVec 32) (k : ℕ) : Bool := (e.byteOf w (k / 8)).getMsbD (k % 8)

/-- The same of a list of words. There are no bits behind the last one. -/
def bitAt (words : List (BitVec 32)) (i : ℕ) : Bool := e.bit (words.getD (i / 32) 0) (i % 32)

/-- Where the bit is in the number that the word is. -/
def lsb (k : ℕ) : ℕ :=
  match e with
  | little => 8 * (k / 8) + (7 - k % 8)
  | big => 31 - k

variable {e} {w v : BitVec 32} {k : ℕ}

theorem bit_eq_getLsbD (hk : k < 32) : e.bit w k = w.getLsbD (e.lsb k) := by
  have hlt : k % 8 < 8 := Nat.mod_lt _ (by decide)
  have hlt' : 7 - k % 8 < 8 := by omega
  cases e <;> simp only [bit, byteOf, lsb, BitVec.getMsbD_eq_getLsbD, BitVec.getLsbD_extractLsb', hlt,
    hlt', decide_true, Bool.true_and, Nat.add_one_sub_one]
  congr 1
  omega

/-- Every bit of the number is somewhere in memory. -/
theorem exists_lsb_eq (e : ByteOrder) {j : ℕ} (hj : j < 32) : ∃ k < 32, e.lsb k = j := by
  cases e with
  | little => exact ⟨8 * (j / 8) + (7 - j % 8), by omega, by rw [lsb]; omega⟩
  | big => exact ⟨31 - j, by omega, by rw [lsb]; omega⟩

theorem eq_of_bit_eq (h : ∀ k < 32, e.bit w k = e.bit v k) : w = v := by
  refine BitVec.eq_of_getLsbD_eq fun j hj => ?_
  obtain ⟨k, hk, rfl⟩ := e.exists_lsb_eq hj
  rw [← bit_eq_getLsbD hk, ← bit_eq_getLsbD hk, h k hk]

@[simp]
theorem bit_zero : e.bit 0 k = false := by
  cases e <;> simp [bit, byteOf]

theorem bit_and (hk : k < 32) : e.bit (w &&& v) k = (e.bit w k && e.bit v k) := by
  simp only [bit_eq_getLsbD hk, BitVec.getLsbD_and]

theorem bit_or (hk : k < 32) : e.bit (w ||| v) k = (e.bit w k || e.bit v k) := by
  simp only [bit_eq_getLsbD hk, BitVec.getLsbD_or]

theorem bit_xor (hk : k < 32) : e.bit (w ^^^ v) k = (e.bit w k ^^ e.bit v k) := by
  simp only [bit_eq_getLsbD hk, BitVec.getLsbD_xor]

theorem lsb_lt (hk : k < 32) : e.lsb k < 32 := by
  cases e <;> rw [lsb] <;> omega

theorem bit_not (hk : k < 32) : e.bit (~~~w) k = !e.bit w k := by
  rw [bit_eq_getLsbD hk, bit_eq_getLsbD hk, BitVec.getLsbD_not, decide_eq_true (lsb_lt hk), Bool.true_and]

theorem bit_allOnes (hk : k < 32) : e.bit (BitVec.allOnes 32) k = true := by
  rw [bit_eq_getLsbD hk, BitVec.getLsbD_allOnes, decide_eq_true (lsb_lt hk)]

theorem byteOf_wordOf {b : ℕ → BitVec 8} {j : ℕ} (hj : j < 4) : e.byteOf (e.wordOf b) j = b j := by
  refine BitVec.eq_of_getLsbD_eq fun i hi => ?_
  cases e <;> rcases (by omega : j = 0 ∨ j = 1 ∨ j = 2 ∨ j = 3) with rfl | rfl | rfl | rfl <;>
    simp [byteOf, wordOf, hi] <;> grind

theorem bit_wordOf {b : ℕ → BitVec 8} (hk : k < 32) : e.bit (e.wordOf b) k = (b (k / 8)).getMsbD (k % 8) := by
  rw [bit, byteOf_wordOf (by omega)]

/-- In network order the bits of memory are those of the number from its high bit on. -/
theorem bit_hostToNetwork (hk : k < 32) : e.bit (e.hostToNetwork w) k = w.getMsbD k := by
  rw [hostToNetwork, bit_wordOf hk, ← bit, bit_eq_getLsbD hk, lsb, BitVec.getMsbD_eq_getLsbD, decide_eq_true hk,
    Bool.true_and]

/-- Seen from the number in network order. -/
theorem getMsbD_hostToNetwork (hk : k < 32) : (e.hostToNetwork w).getMsbD k = e.bit w k := by
  obtain ⟨m, hm, hlsb⟩ := e.exists_lsb_eq (j := 31 - k) (by omega)
  rw [BitVec.getMsbD_eq_getLsbD, decide_eq_true hk, Bool.true_and, ← hlsb, ← bit_eq_getLsbD hm, bit_hostToNetwork hm,
    BitVec.getMsbD_eq_getLsbD, decide_eq_true hm, Bool.true_and, bit_eq_getLsbD hk]
  congr 1
  cases e <;> rw [lsb] at hlsb ⊢ <;> omega

/-! ### Masks -/

/-- The bit at the position `j` alone. -/
theorem bit_single {j : ℕ} (hj : j < 32) (hk : k < 32) :
    e.bit (e.hostToNetwork (0x80000000#32 >>> j)) k = decide (k = j) := by
  have htop : ∀ m < 32, (0x80000000#32).getMsbD m = decide (m = 0) := by decide
  rw [bit_hostToNetwork hk, BitVec.getMsbD_ushiftRight, decide_eq_true hk, Bool.true_and, htop _ (by omega),
    ← decide_not, ← Bool.decide_and]
  exact decide_eq_decide.mpr (by omega)

/-- The first `n` bits. -/
theorem bit_first {n : ℕ} (hn : n ≤ 32) (hk : k < 32) :
    e.bit (e.hostToNetwork (0xffffffff#32 <<< (32 - n))) k = decide (k < n) := by
  rw [bit_hostToNetwork hk, show 0xffffffff#32 = BitVec.allOnes 32 from rfl, BitVec.getMsbD_shiftLeft,
    BitVec.getMsbD_allOnes]
  exact decide_eq_decide.mpr (by omega)

/-- All but the first `n` bits. -/
theorem bit_last {n : ℕ} (hk : k < 32) : e.bit (e.hostToNetwork (0xffffffff#32 >>> n)) k = decide (n ≤ k) := by
  rw [bit_hostToNetwork hk, show 0xffffffff#32 = BitVec.allOnes 32 from rfl, BitVec.getMsbD_ushiftRight,
    decide_eq_true hk, Bool.true_and, BitVec.getMsbD_allOnes, ← decide_not, ← Bool.decide_and]
  exact decide_eq_decide.mpr (by omega)

theorem eq_zero_iff : w = 0 ↔ ∀ k < 32, e.bit w k = false :=
  ⟨fun h _ _ => h ▸ bit_zero, fun h => eq_of_bit_eq fun k hk => (h k hk).trans bit_zero.symm⟩

theorem and_single_ne_zero {j : ℕ} (hj : j < 32) :
    w &&& e.hostToNetwork (0x80000000#32 >>> j) ≠ 0 ↔ e.bit w j = true := by
  constructor
  · intro h
    by_contra hc
    refine h ((eq_zero_iff (e := e)).mpr fun k hk => ?_)
    rw [bit_and hk, bit_single hj hk]
    by_cases hkj : k = j
    · rw [hkj, Bool.eq_false_of_not_eq_true hc, Bool.false_and]
    · rw [decide_eq_false hkj, Bool.and_false]
  · intro h hzero
    have hbit := (eq_zero_iff (e := e)).mp hzero j hj
    rw [bit_and hj, bit_single hj hj, h, decide_eq_true rfl] at hbit
    cases hbit

theorem and_eq_right_iff : w &&& v = v ↔ ∀ k < 32, e.bit v k = true → e.bit w k = true := by
  constructor
  · intro h k hk hbit
    rw [← h, bit_and hk, Bool.and_eq_true] at hbit
    exact hbit.1
  · intro h
    refine eq_of_bit_eq (e := e) fun k hk => ?_
    rw [bit_and hk]
    cases hbit : e.bit v k with
    | false => exact Bool.and_false _
    | true => rw [h k hk hbit, Bool.true_and]

/-! ### Counting -/

theorem cpopNatRec_eq_countP (w : BitVec 32) (n : ℕ) : w.cpopNatRec n 0 = (List.range n).countP w.getLsbD := by
  induction n with
  | zero => rfl
  | succ n ih =>
    rw [BitVec.cpopNatRec_succ, BitVec.cpopNatRec_eq, ih, List.range_succ, List.countP_append, List.countP_singleton,
      Nat.zero_add]
    cases w.getLsbD n <;> rfl

theorem map_lsb_perm (e : ByteOrder) : ((List.range 32).map e.lsb).Perm (List.range 32) := by
  cases e <;> decide

/-- The population count does not depend on the order of the bits. -/
theorem toNat_cpop_eq (e : ByteOrder) (w : BitVec 32) : w.cpop.toNat = (List.range 32).countP (e.bit w) := by
  rw [BitVec.toNat_cpop, cpopNatRec_eq_countP, ← (map_lsb_perm e).countP_eq, List.countP_map]
  refine List.countP_congr fun k hk => ?_
  rw [bit_eq_getLsbD (List.mem_range.mp hk)]
  rfl

/-- The leading zeros of a word in network order are the bits in front of the first one that is set. -/
theorem clz_hostToNetwork (hw : w ≠ 0) :
    (e.hostToNetwork w).clz.toNat < 32 ∧ e.bit w (e.hostToNetwork w).clz.toNat = true ∧
      ∀ k < (e.hostToNetwork w).clz.toNat, e.bit w k = false := by
  have hne : e.hostToNetwork w ≠ 0 := by
    intro hzero
    refine hw ((eq_zero_iff (e := e)).mpr fun k hk => ?_)
    rw [← getMsbD_hostToNetwork hk, hzero]
    exact BitVec.getMsbD_zero
  have hlt : (e.hostToNetwork w).clz.toNat < 32 := BitVec.clz_lt_iff_ne_zero.mpr hne
  refine ⟨hlt, ?_, fun k hk => ?_⟩
  · rw [← getMsbD_hostToNetwork hlt, BitVec.getMsbD_eq_getLsbD, decide_eq_true hlt, Bool.true_and]
    exact BitVec.getLsbD_true_clz_of_ne_zero (by decide) hne
  · -- the number is below the power of two of the first bit that is set
    have hbound := BitVec.toNat_lt_two_pow_sub_clz (x := e.hostToNetwork w)
    rw [← getMsbD_hostToNetwork (by omega), BitVec.getMsbD_eq_getLsbD, BitVec.getLsbD]
    refine Bool.and_eq_false_imp.mpr fun _ => Nat.testBit_lt_two_pow (hbound.trans_le ?_)
    exact Nat.pow_le_pow_right (by decide) (by omega)

/-! ### Lists of words -/

variable {words other : List (BitVec 32)} {i n : ℕ}

theorem bitAt_of_le (h : 32 * words.length ≤ i) : e.bitAt words i = false := by
  rw [bitAt, List.getD_eq_default _ _ (by omega), bit_zero]

theorem bitAt_of_lt (h : i / 32 < words.length) : e.bitAt words i = e.bit words[i / 32] (i % 32) := by
  rw [bitAt, List.getD_eq_getElem]

theorem eq_of_bitAt_eq (hlen : words.length = other.length) (h : ∀ i, e.bitAt words i = e.bitAt other i) :
    words = other := by
  refine List.ext_getElem hlen fun m hm hm' => eq_of_bit_eq (e := e) fun k hk => ?_
  have hbit := h (32 * m + k)
  have hdiv : (32 * m + k) / 32 = m := by omega
  have hmod : (32 * m + k) % 32 = k := by omega
  rwa [bitAt, bitAt, hdiv, hmod, List.getD_eq_getElem _ _ hm, List.getD_eq_getElem _ _ hm'] at hbit

theorem bitAt_modify {m : ℕ} {f : BitVec 32 → BitVec 32} (hi : i < 32 * words.length) :
    e.bitAt (words.modify m f) i =
      if m = i / 32 then e.bit (f (words.getD (i / 32) 0)) (i % 32) else e.bitAt words i := by
  rw [bitAt_of_lt (by rw [List.length_modify]; omega), List.getElem_modify, bitAt_of_lt (by omega), List.getD_eq_getElem _ _ (by omega)]
  split_ifs <;> rfl

/-- The words from `m` on are all set to the same value, up to the one with the number `n`. -/
def fill (m n : ℕ) (w : BitVec 32) (words : List (BitVec 32)) : List (BitVec 32) :=
  words.take m ++ List.replicate (n - m) w ++ words.drop n

theorem length_fill {m : ℕ} (hm : m ≤ n) (hn : n = words.length) : (fill m n w words).length = words.length := by
  rw [fill, List.length_append, List.length_append, List.length_take, List.length_replicate, List.length_drop]
  omega

theorem bitAt_fill {m : ℕ} (hm : m ≤ n) (hn : n = words.length) (hi : i < 32 * n) :
    e.bitAt (fill m n w words) i = if i < 32 * m then e.bitAt words i else e.bit w (i % 32) := by
  rw [bitAt_of_lt (by rw [length_fill hm hn]; omega), bitAt_of_lt (by omega)]
  simp only [fill, hn, List.drop_length, List.append_nil]
  split_ifs with h
  · rw [List.getElem_append_left (by rw [List.length_take]; omega), List.getElem_take]
  · rw [List.getElem_append_right (by rw [List.length_take]; omega), List.getElem_replicate]

/-- The first words, with zeros behind them. -/
theorem bitAt_take_append (m r : ℕ) :
    e.bitAt (words.take m ++ List.replicate r 0) i = (decide (i < 32 * m) && e.bitAt words i) := by
  rw [bitAt, bitAt, List.getD_eq_getElem?_getD, List.getD_eq_getElem?_getD, List.getElem?_append, List.length_take,
    List.getElem?_take, List.getElem?_replicate]
  by_cases h : i < 32 * m
  · rw [decide_eq_true h, Bool.true_and]
    split_ifs with h1 h2 h3
    · rfl
    · omega
    · rw [List.getElem?_eq_none (by omega)]
      rfl
    · rw [List.getElem?_eq_none (by omega)]
  · rw [decide_eq_false h, Bool.false_and, if_neg (by omega)]
    split_ifs <;> exact bit_zero

variable (e) in
/-- The bytes of the words in memory. -/
def bytes (words : List (BitVec 32)) : List (BitVec 8) :=
  (List.range (4 * words.length)).map fun m => e.byteOf (words.getD (m / 4) 0) (m % 4)

variable (e) in
/-- `memcpy` of the first bytes of a buffer over the words. -/
def copyBytes (b : List (BitVec 8)) (n : ℕ) (words : List (BitVec 32)) : List (BitVec 32) :=
  words.mapIdx fun m w => e.wordOf fun j => if 4 * m + j < n then b.getD (4 * m + j) 0 else e.byteOf w j

theorem bitAt_copyBytes {b : List (BitVec 8)} (hi : i < 32 * words.length) :
    e.bitAt (e.copyBytes b n words) i =
      if i / 8 < n then (b.getD (i / 8) 0).getMsbD (i % 8) else e.bitAt words i := by
  rw [bitAt_of_lt (by rw [copyBytes, List.length_mapIdx]; omega), bitAt_of_lt (by omega)]
  simp only [copyBytes, List.getElem_mapIdx]
  rw [bit_wordOf (Nat.mod_lt _ (by decide)), show 4 * (i / 32) + i % 32 / 8 = i / 8 by omega,
    show i % 32 % 8 = i % 8 by omega]
  split_ifs
  · rfl
  · rw [bit, show i % 32 % 8 = i % 8 by omega]

theorem getD_bytes (hi : i < 32 * words.length) :
    ((e.bytes words).getD (i / 8) 0).getMsbD (i % 8) = e.bitAt words i := by
  have hlt : i / 8 < (e.bytes words).length := by
    rw [bytes, List.length_map, List.length_range]
    omega
  rw [List.getD_eq_getElem _ _ hlt]
  simp only [bytes, List.getElem_map, List.getElem_range]
  rw [bitAt, bit, show i / 8 / 4 = i / 32 by omega, show i / 8 % 4 = i % 32 / 8 by omega,
    show i % 32 % 8 = i % 8 by omega]

theorem bitAt_cons (w : BitVec 32) (words : List (BitVec 32)) (i : ℕ) :
    e.bitAt (w :: words) i = if i < 32 then e.bit w i else e.bitAt words (i - 32) := by
  split_ifs with hi
  · rw [bitAt, Nat.div_eq_of_lt hi, Nat.mod_eq_of_lt hi, List.getD_cons_zero]
  · obtain ⟨k, rfl⟩ := Nat.exists_eq_add_of_le (not_lt.mp hi)
    rw [bitAt, bitAt, show (32 + k) / 32 = k / 32 + 1 by omega, show (32 + k) % 32 = k % 32 by omega,
      List.getD_cons_succ, Nat.add_sub_cancel_left]

theorem bitAt_append (words other : List (BitVec 32)) (i : ℕ) :
    e.bitAt (words ++ other) i =
      if i < 32 * words.length then e.bitAt words i else e.bitAt other (i - 32 * words.length) := by
  split_ifs with hi
  · rw [bitAt, bitAt, List.getD_append _ _ _ _ (by omega)]
  · rw [bitAt, bitAt, List.getD_append_right _ _ _ _ (by omega), show (i - 32 * words.length) % 32 = i % 32 by omega,
      show (i - 32 * words.length) / 32 = i / 32 - words.length by omega]

/-- The bits that are set, counted word by word. -/
theorem sum_cpop (e : ByteOrder) (words : List (BitVec 32)) :
    (words.map fun w => w.cpop.toNat).sum = (List.range (32 * words.length)).countP (e.bitAt words) := by
  induction words with
  | nil => rfl
  | cons w words ih =>
    rw [List.map_cons, List.sum_cons, ih, toNat_cpop_eq e, List.length_cons, Nat.mul_succ, Nat.add_comm (32 * _),
      List.range_add, List.countP_append, List.countP_map]
    refine congrArg₂ (· + ·) ?_ ?_
    · refine List.countP_congr fun k hk => ?_
      have hk' := List.mem_range.mp hk
      rw [bitAt_cons, if_pos hk']
    · refine List.countP_congr fun k _ => ?_
      rw [Function.comp_apply, bitAt_cons, if_neg (by omega), Nat.add_sub_cancel_left]

end ByteOrder

end LibtorrentSN
