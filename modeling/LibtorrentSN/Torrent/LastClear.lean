import LibtorrentSN.Torrent.Bitfield

/-!
# The last clear bit of a bit field

`find_last_clear` counts the ones at the end of the last word, and in the words before it if there is no clear bit in
the last one. The number it makes of the count of the last word is right only if the clear bit lies in the middle of
the bits of that word; and for sizes that are a multiple of 32 it shifts a word by its own width.
-/

namespace LibtorrentSN

namespace Bitfield

variable (e : ByteOrder) (bf : Bitfield)

/-- The loop of `count_trailing_ones`, over the words from the last one on. `__builtin_ctz` counts the zeros at the
end of a number. -/
def countTrailingOnesFrom : List (BitVec 32) → ℕ
  | [] => 0
  | w :: words =>
    if w = 0xffffffff#32 then 32 + countTrailingOnesFrom words else (~~~e.hostToNetwork w).ctz.toNat

/-- `count_trailing_ones`. -/
def countTrailingOnes (words : List (BitVec 32)) : ℕ := countTrailingOnesFrom e words.reverse

/-- A shift of a 32-bit number, which is undefined from 32 bits on. -/
def shiftLeft (w : BitVec 32) (n : ℕ) : Option (BitVec 32) := if n < 32 then some (w <<< n) else none

/-- Returns nothing where the behaviour is undefined. -/
def findLastClear : Option ℤ :=
  let num := bf.numWords
  if num = 0 then some (-1)
  else
    let size := bf.size
    (shiftLeft 0xffffffff#32 (32 - size % 32)).map fun mask =>
      let last := bf.words.getD (num - 1) 0 ^^^ e.hostToNetwork mask
      let ext : ℤ := countTrailingOnes e [~~~last] - (31 - (size % 32 : ℕ))
      if last ≠ 0 then (num - 1) * 32 + ext
      else size - (countTrailingOnes e (bf.words.take (num - 1)) + ext)

/-- The largest index of a clear bit, or -1 if there is none. -/
def IsLastClear (l : List Bool) (n : ℤ) : Prop :=
  (∃ i : ℕ, n = i ∧ IsGreatest {j | l[j]? = some false} i) ∨ n = -1 ∧ ∀ b ∈ l, b = true

variable {e bf} {l a b : List Bool} {words : List (BitVec 32)} {w : BitVec 32}

theorem IsLastClear.unique {n m : ℤ} (h : IsLastClear l n) (h' : IsLastClear l m) : n = m := by
  obtain ⟨i, rfl, hi⟩ | ⟨rfl, hall⟩ := h
  · obtain ⟨j, rfl, hj⟩ | ⟨-, hall⟩ := h'
    · rw [hi.unique hj]
    · exact absurd (hall _ (List.mem_of_getElem? hi.1)) Bool.false_ne_true
  · obtain ⟨j, rfl, hj⟩ | ⟨rfl, -⟩ := h'
    · exact absurd (hall _ (List.mem_of_getElem? hj.1)) Bool.false_ne_true
    · rfl

/-! ### Set bits at the end -/

def trailingOnes (l : List Bool) : ℕ := (l.reverse.takeWhile (·)).length

theorem trailingOnes_append (a b : List Bool) :
    trailingOnes (a ++ b) = if trailingOnes b = b.length then b.length + trailingOnes a else trailingOnes b := by
  rw [trailingOnes, trailingOnes, trailingOnes, List.reverse_append, List.takeWhile_append, List.length_reverse]
  split_ifs with hall
  · rw [List.length_append, List.length_reverse]
  · rfl

theorem trailingOnes_le (l : List Bool) : trailingOnes l ≤ l.length :=
  (List.takeWhile_prefix _).length_le.trans_eq List.length_reverse

theorem trailingOnes_replicate (n : ℕ) : trailingOnes (List.replicate n true) = n := by
  rw [trailingOnes, List.reverse_replicate, List.takeWhile_replicate_eq_filter, List.filter_replicate, if_pos rfl,
    List.length_replicate]

/-- The last clear bit is the one in front of the set bits at the end. -/
theorem isLastClear_trailingOnes (l : List Bool) : IsLastClear l (l.length - 1 - trailingOnes l) := by
  induction l using List.reverseRecOn with
  | nil => exact .inr ⟨rfl, fun b hb => absurd hb List.not_mem_nil⟩
  | append_singleton l b ih =>
    rw [trailingOnes_append, List.length_append, List.length_singleton]
    cases b with
    | false =>
      refine .inl ⟨l.length, ?_, List.getElem?_concat_length, fun j hj => ?_⟩
      · change ((l.length + 1 : ℕ) : ℤ) - 1 - (0 : ℕ) = _
        omega
      · have hlt := (List.getElem?_eq_some_iff.mp hj).1
        rw [List.length_append, List.length_singleton] at hlt
        exact Nat.lt_succ_iff.mp hlt
    | true =>
      change IsLastClear _ (((l.length + 1 : ℕ) : ℤ) - 1 - (1 + trailingOnes l : ℕ))
      rw [show ((l.length + 1 : ℕ) : ℤ) - 1 - (1 + trailingOnes l : ℕ) = l.length - 1 - trailingOnes l by omega]
      obtain ⟨i, hi, hclear, hmax⟩ | ⟨hi, hall⟩ := ih
      · refine .inl ⟨i, hi, ?_, fun j hj => ?_⟩
        · exact (List.getElem?_append_left (List.getElem?_eq_some_iff.mp hclear).1).trans hclear
        · rcases Nat.lt_or_ge j l.length with hlt | hge
          · exact hmax ((List.getElem?_append_left hlt).symm.trans hj)
          · -- only the new bit lies behind the others
            have hmem : ([true] : List Bool)[j - l.length]? = some false := (List.getElem?_append_right hge).symm.trans hj
            cases List.mem_singleton.mp (List.mem_of_getElem? hmem)
      · refine .inr ⟨hi, fun b hb => ?_⟩
        obtain hb | hb := List.mem_append.mp hb
        · exact hall b hb
        · exact List.mem_singleton.mp hb

theorem eq_trailingOnes {n : ℕ} (h : IsLastClear l (l.length - 1 - n)) : n = trailingOnes l := by
  have := h.unique (isLastClear_trailingOnes l)
  omega

/-! ### The count of the code -/

variable (e) in
def bitList (words : List (BitVec 32)) : List Bool := (List.range (32 * words.length)).map (e.bitAt words)

variable (e) in
def wordBits (w : BitVec 32) : List Bool := (List.range 32).map (e.bit w)

@[simp]
theorem length_wordBits : (wordBits e w).length = 32 := by rw [wordBits, List.length_map, List.length_range]

theorem bitList_append (words : List (BitVec 32)) (w : BitVec 32) :
    bitList e (words ++ [w]) = bitList e words ++ wordBits e w := by
  rw [bitList, List.length_append, List.length_singleton, Nat.mul_add, List.range_add, List.map_append, List.map_map]
  refine congrArg₂ (· ++ ·) ?_ ?_
  · refine List.map_congr_left fun i hi => ?_
    rw [ByteOrder.bitAt_append, if_pos (List.mem_range.mp hi)]
  · refine List.map_congr_left fun k hk => ?_
    rw [Function.comp_apply, ByteOrder.bitAt_append, if_neg (by omega), Nat.add_sub_cancel_left, ByteOrder.bitAt,
      Nat.div_eq_of_lt (List.mem_range.mp hk), Nat.mod_eq_of_lt (List.mem_range.mp hk), List.getD_cons_zero]

theorem wordBits_ones : wordBits e 0xffffffff#32 = List.replicate 32 true := by
  refine List.eq_replicate_iff.mpr ⟨length_wordBits, fun b hb => ?_⟩
  obtain ⟨k, hk, rfl⟩ := List.mem_map.mp hb
  exact bit_ones (List.mem_range.mp hk)

/-- `__builtin_ctz` of the complement, for a word that is not all ones. -/
theorem ctz_not_hostToNetwork (hw : w ≠ 0xffffffff#32) :
    (~~~e.hostToNetwork w).ctz.toNat = trailingOnes (wordBits e w) ∧ trailingOnes (wordBits e w) < 32 := by
  have hne : ~~~e.hostToNetwork w ≠ 0 := by
    intro hzero
    refine hw (ByteOrder.eq_of_bit_eq (e := e) fun k hk => ?_)
    have hones : e.hostToNetwork w = BitVec.allOnes 32 := by
      rw [← BitVec.not_not (b := e.hostToNetwork w), hzero]
      rfl
    rw [← ByteOrder.getMsbD_hostToNetwork hk, hones, bit_ones hk, BitVec.getMsbD_allOnes, decide_eq_true hk]
  have hlt : (~~~e.hostToNetwork w).ctz.toNat < 32 := BitVec.ctz_lt_iff_ne_zero.mpr hne
  have hbit : ∀ k < 32, e.bit w (31 - k) = !(~~~e.hostToNetwork w).getLsbD k := by
    intro k hk
    rw [← ByteOrder.getMsbD_hostToNetwork (by omega), BitVec.getMsbD_eq_getLsbD, BitVec.getLsbD_not,
      decide_eq_true (by omega), decide_eq_true hk, Bool.true_and, Bool.true_and, Bool.not_not]
    congr 1
    omega
  have heq : (~~~e.hostToNetwork w).ctz.toNat = trailingOnes (wordBits e w) := by
    refine eq_trailingOnes (.inl ⟨31 - (~~~e.hostToNetwork w).ctz.toNat, ?_, ?_, fun j hj => ?_⟩)
    · rw [length_wordBits]
      omega
    · change (wordBits e w)[_]? = _
      rw [wordBits, List.getElem?_map, List.getElem?_range (by omega), Option.map_some, hbit _ hlt,
        BitVec.getLsbD_true_ctz_of_ne_zero hne]
      rfl
    · by_contra hgt
      have hj' := (List.getElem?_eq_some_iff.mp hj).1
      rw [length_wordBits] at hj'
      have hset := hbit (31 - j) (by omega)
      rw [BitVec.getLsbD_false_of_lt_ctz (by omega), show 31 - (31 - j) = j by omega] at hset
      change (wordBits e w)[j]? = _ at hj
      rw [wordBits, List.getElem?_map, List.getElem?_range hj', Option.map_some, hset] at hj
      cases hj
  exact ⟨heq, heq ▸ hlt⟩

theorem countTrailingOnes_eq (e : ByteOrder) (words : List (BitVec 32)) :
    countTrailingOnes e words = trailingOnes (bitList e words) := by
  induction words using List.reverseRecOn with
  | nil => rfl
  | append_singleton words w ih =>
    rw [bitList_append, trailingOnes_append, length_wordBits, countTrailingOnes, List.reverse_concat,
      countTrailingOnesFrom]
    split_ifs with hones hall hall
    · rw [← ih, countTrailingOnes]
    · rw [hones, wordBits_ones, trailingOnes_replicate] at hall
      exact absurd rfl hall
    · exact absurd hall (ctz_not_hostToNetwork hones).2.ne
    · exact (ctz_not_hostToNetwork hones).1

theorem countTrailingOnes_singleton (w : BitVec 32) : countTrailingOnes e [w] = trailingOnes (wordBits e w) := by
  rw [countTrailingOnes_eq, ← List.nil_append [w], bitList_append]
  rfl

theorem trailingOnes_wordBits_eq_iff : trailingOnes (wordBits e w) = 32 ↔ w = 0xffffffff#32 := by
  constructor
  · intro hall
    by_contra hw
    exact (ctz_not_hostToNetwork hw).2.ne hall
  · rintro rfl
    rw [wordBits_ones, trailingOnes_replicate]

/-! ### The result -/

/-- The complement of what is left of the last word after the mask: the bits of the list, and then ones. -/
theorem Represents.wordBits_last (h : bf.Represents e l) (hr : l.length % 32 ≠ 0) :
    wordBits e (~~~(bf.words.getD (bf.numWords - 1) 0 ^^^
        e.hostToNetwork (0xffffffff#32 <<< (32 - bf.size % 32)))) =
      l.drop (32 * (bf.numWords - 1)) ++ List.replicate (32 - l.length % 32) true := by
  have hnum : bf.numWords = (l.length + 31) / 32 := by rw [h.numWords, h.length]
  refine List.ext_getElem? fun k => ?_
  rcases Nat.lt_or_ge k 32 with hk | hk
  · have hword : e.bit (bf.words.getD (bf.numWords - 1) 0) k = l.getD (32 * (bf.numWords - 1) + k) false := by
      rw [← h.bit, ByteOrder.bitAt, show (32 * (bf.numWords - 1) + k) / 32 = bf.numWords - 1 by omega,
        show (32 * (bf.numWords - 1) + k) % 32 = k by omega]
    rw [wordBits, List.getElem?_map, List.getElem?_range hk, Option.map_some, ByteOrder.bit_not hk,
      ByteOrder.bit_xor hk, hword, ByteOrder.bit_first (by omega) hk, h.size, List.getElem?_append, List.length_drop,
      List.getElem?_drop, List.getElem?_replicate, List.getD_eq_getElem?_getD]
    split_ifs with hlt hlt'
    · rw [List.getElem?_eq_getElem (by omega), decide_eq_true (by omega), Option.getD_some]
      cases l[32 * (bf.numWords - 1) + k] <;> rfl
    · rw [List.getElem?_eq_none (by omega), decide_eq_false (by omega)]
      rfl
    · omega
  · rw [List.getElem?_eq_none (by rwa [length_wordBits]), List.getElem?_eq_none]
    rw [List.length_append, List.length_drop, List.length_replicate]
    omega

/-- The words in front of the last one. -/
theorem Represents.bitList_take (h : bf.Represents e l) (hl : l ≠ []) :
    bitList e (bf.words.take (bf.numWords - 1)) = l.take (32 * (bf.numWords - 1)) := by
  have hpos := List.length_pos_iff.mpr hl
  have hnum : bf.numWords = (l.length + 31) / 32 := by rw [h.numWords, h.length]
  have hlen := h.length
  rw [bitList, List.length_take, min_eq_left (by omega)]
  refine List.ext_getElem? fun i => ?_
  rw [List.getElem?_map, List.getElem?_take]
  split_ifs with hi
  · have hbit := h.bit i
    rw [← List.take_append_drop (bf.numWords - 1) bf.words, ByteOrder.bitAt_append, List.length_take,
      min_eq_left (by omega), if_pos hi] at hbit
    rw [List.getElem?_range hi, Option.map_some, hbit, List.getD_eq_getElem?_getD, List.getElem?_eq_getElem (by omega),
      Option.getD_some]
  · rw [List.getElem?_eq_none (by rw [List.length_range]; omega), Option.map_none]

/-- What it returns of a bit field, in terms of the set bits at its end. -/
theorem Represents.findLastClear (h : bf.Represents e l) (hr : l.length % 32 ≠ 0) :
    bf.findLastClear e = some (if l.length % 32 ≤ trailingOnes l then (l.length : ℤ) - 1 - trailingOnes l
      else l.length - (l.length % 32 : ℕ) + 1 + trailingOnes l) := by
  have hl : l ≠ [] := by
    rintro rfl
    exact hr rfl
  have hnum : bf.numWords = (l.length + 31) / 32 := by rw [h.numWords, h.length]
  have hpos := List.length_pos_iff.mpr hl
  have hmod := Nat.mod_lt l.length (show 0 < 32 by decide)
  rw [Bitfield.findLastClear]
  dsimp only
  have hbits := h.wordBits_last hr
  rw [if_neg (by omega), shiftLeft, if_pos (by rw [h.size]; omega), Option.map_some]
  generalize hlast : bf.words.getD (bf.numWords - 1) 0 ^^^ e.hostToNetwork (0xffffffff#32 <<< (32 - bf.size % 32)) = last
    at hbits ⊢
  -- the list is what the words in front hold, and the rest
  have htail : trailingOnes (l.drop (32 * (bf.numWords - 1))) ≤ l.length % 32 := by
    refine (trailingOnes_le _).trans ?_
    rw [List.length_drop]
    omega
  have hlen : (l.drop (32 * (bf.numWords - 1))).length = l.length % 32 := by
    rw [List.length_drop]
    omega
  have hcount : trailingOnes (wordBits e (~~~last)) =
      32 - l.length % 32 + trailingOnes (l.drop (32 * (bf.numWords - 1))) := by
    rw [hbits, trailingOnes_append, trailingOnes_replicate, List.length_replicate, if_pos rfl]
  have hsplit : trailingOnes l = if trailingOnes (l.drop (32 * (bf.numWords - 1))) = l.length % 32 then
      l.length % 32 + trailingOnes (l.take (32 * (bf.numWords - 1)))
      else trailingOnes (l.drop (32 * (bf.numWords - 1))) := by
    conv_lhs => rw [← List.take_append_drop (32 * (bf.numWords - 1)) l]
    rw [trailingOnes_append, hlen]
  have hzero : last = 0 ↔ trailingOnes (l.drop (32 * (bf.numWords - 1))) = l.length % 32 := by
    have hnot : last = 0 ↔ ~~~last = 0xffffffff#32 :=
      ⟨fun h => h ▸ rfl, fun h => by rw [← BitVec.not_not (b := last), h]; rfl⟩
    rw [hnot, ← trailingOnes_wordBits_eq_iff (e := e), hcount]
    omega
  rw [countTrailingOnes_singleton, hcount, countTrailingOnes_eq, h.bitList_take hl, h.size]
  refine congrArg some ?_
  by_cases hall : trailingOnes (l.drop (32 * (bf.numWords - 1))) = l.length % 32
  · -- no bit of the last word is clear
    rw [if_pos hall] at hsplit
    rw [if_neg (not_not.mpr (hzero.mpr hall)), if_pos (by omega)]
    omega
  · rw [if_neg hall] at hsplit
    rw [if_pos (mt hzero.mp hall), if_neg (by omega)]
    omega

/-- Of five bits the last of which alone is clear, it returns the second one instead. -/
theorem findLastClear_five :
    ¬ ∀ (e : ByteOrder) (bf : Bitfield) (l : List Bool), Reached e bf l →
      ∃ n, bf.findLastClear e = some n ∧ IsLastClear l n := by
  intro hclaim
  obtain ⟨n, hn, hlast⟩ := hclaim .little _ _ ((Reached.empty.resizeVal 5 true).clearBit (i := 4) (by decide))
  have hone : n = 1 := (Option.some.inj (hn.symm.trans (by decide +kernel)))
  obtain ⟨i, hi, hclear, -⟩ | ⟨hi, -⟩ := hlast
  · have heq : i = 1 := by omega
    rw [heq] at hclear
    exact absurd hclear (by decide)
  · omega

/-- The result is right if the clear bit is in the middle of the bits of the last word, or if it is not in the last
word at all. -/
theorem Reached.findLastClear_iff (h : Reached e bf l) :
    (∃ n, bf.findLastClear e = some n ∧ IsLastClear l n) ↔
      l = [] ∨ l.length % 32 ≠ 0 ∧ (l.length % 32 ≤ trailingOnes l ∨ 2 * (trailingOnes l + 1) = l.length % 32) := by
  have hrep := h.represents
  by_cases hl : l = []
  · refine iff_of_true ⟨-1, ?_, .inr ⟨rfl, by simp [hl]⟩⟩ (.inl hl)
    rw [Bitfield.findLastClear, Bitfield.numWords, hrep.size, hl]
    rfl
  · have hpos := List.length_pos_iff.mpr hl
    rw [or_iff_right hl]
    by_cases hr : l.length % 32 = 0
    · -- the shift is as wide as the word
      refine iff_of_false ?_ fun hc => hc.1 hr
      rintro ⟨n, hn, -⟩
      rw [Bitfield.findLastClear, Bitfield.numWords, hrep.size] at hn
      dsimp only at hn
      rw [if_neg (by omega), shiftLeft, if_neg (by omega)] at hn
      cases hn
    · rw [hrep.findLastClear hr, and_iff_right hr]
      constructor
      · rintro ⟨n, hn, hlast⟩
        have hright := hlast.unique (isLastClear_trailingOnes l)
        rw [← Option.some.inj hn] at hright
        split_ifs at hright with hall
        · exact .inl hall
        · exact .inr (by omega)
      · intro hcond
        refine ⟨_, rfl, ?_⟩
        convert isLastClear_trailingOnes l using 1
        split_ifs
        · rfl
        · omega

/-- Six bits, the fourth of which is clear. -/
theorem Reached.findLastClear_iff_six :
    let bf := ((⟨none⟩ : Bitfield).resizeVal .little 6 true).clearBit .little 3
    let l := (resized [] 6 true).set 3 false
    Reached .little bf l ∧
      ((∃ n, bf.findLastClear .little = some n ∧ IsLastClear l n) ↔
        l = [] ∨ l.length % 32 ≠ 0 ∧ (l.length % 32 ≤ trailingOnes l ∨ 2 * (trailingOnes l + 1) = l.length % 32)) :=
  have h := (Reached.empty.resizeVal 6 true).clearBit (i := 3) (by decide)
  ⟨h, h.findLastClear_iff⟩

end Bitfield

end LibtorrentSN
