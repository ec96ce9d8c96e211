import LibtorrentSN.Torrent.Sanitize

/-!
# Repairing text

`parse_utf8_codepoint` and `append_utf8_codepoint` (`src/utf8.cpp`) read and write one code point.
`verify_encoding` (`src/torrent_info.cpp`) reads a string code point by code point and writes it
again, with an underscore for what is not one: the comment and the creator of a torrent and the
version of a peer's client pass through it.

The lengths that the source takes as `int(str.size())` are natural numbers, for strings of less than 2 GiB: all of these
strings come from messages and files that are much shorter.
-/

namespace LibtorrentSN

namespace Torrent

open Utf8 (Sequence WellFormed IsText Continues)

variable {b x : UInt8} {str xs tmp target : List UInt8} {c n fuel : ℕ} {valid : Bool}

/-! ## Writing a code point -/

/-- The number of bytes for a code point. -/
def codepointLength (codepoint : ℕ) : ℕ :=
  if codepoint < 0x80 then 1
  else if codepoint < 0x800 then 2
  else if codepoint < 0x10000 then 3
  else 4

/-- The first of them. -/
def codepointLead (seqLen codepoint : ℕ) : UInt8 :=
  if seqLen = 1 then UInt8.ofNat codepoint
  else if seqLen = 2 then UInt8.ofNat (0b11000000 ||| codepoint >>> 6)
  else if seqLen = 3 then UInt8.ofNat (0b11100000 ||| codepoint >>> 12)
  else UInt8.ofNat (0b11110000 ||| codepoint >>> 18)

/-- The others have six bits each. -/
def codepointTail (codepoint i : ℕ) : UInt8 :=
  UInt8.ofNat (0b10000000 ||| (codepoint >>> (6 * i) &&& 0b111111))

/-- The bytes for a code point that is not negative; those that have none are written as an
underscore. -/
def appendUtf8Codepoint (ret : List UInt8) (codepoint : ℕ) : List UInt8 :=
  let codepoint :=
    if surrogateStart ≤ codepoint ∧ codepoint ≤ surrogateEnd then '_'.toNat else codepoint
  let codepoint := if maxCodepoint < codepoint then '_'.toNat else codepoint
  let seqLen := codepointLength codepoint
  ret ++ codepointLead seqLen codepoint ::
    (List.range (seqLen - 1)).reverse.map (codepointTail codepoint)

theorem codepointTail_eq : codepointTail c n = UInt8.ofNat (c / 64 ^ n % 64 + 128) := by
  have hand : c >>> (6 * n) &&& 0b111111 = c / 64 ^ n % 64 := by
    rw [Nat.shiftRight_eq_div_pow, pow_mul]
    exact Nat.and_two_pow_sub_one_eq_mod _ 6
  have hor := Nat.two_pow_add_eq_or_of_lt (i := 6) (Nat.mod_lt (c / 64 ^ n) (by decide)) 2
  rw [codepointTail, hand, Nat.add_comm]
  exact congrArg UInt8.ofNat hor.symm

theorem or_lead {i a v : ℕ} (h : v < 2 ^ i) : 2 ^ i * a ||| v = v + 2 ^ i * a := by
  rw [← Nat.two_pow_add_eq_or_of_lt h, Nat.add_comm]

/-- A scalar value is written as its encoding. -/
theorem appendUtf8Codepoint_char (ret : List UInt8) (ch : Char) :
    appendUtf8Codepoint ret ch.val.toNat = ret ++ String.utf8EncodeChar ch := by
  have hvalid : ch.val.toNat < 0xd800 ∨ 0xdfff < ch.val.toNat ∧ ch.val.toNat < 0x110000 := ch.valid
  have hsur : ¬ (surrogateStart ≤ ch.val.toNat ∧ ch.val.toNat ≤ surrogateEnd) := by
    rw [surrogateStart, surrogateEnd]
    omega
  have hmax : ¬ maxCodepoint < ch.val.toNat := by
    rw [maxCodepoint]
    omega
  rw [appendUtf8Codepoint]
  simp only [if_neg hsur, if_neg hmax]
  fun_cases String.utf8EncodeChar ch with
  | case1 v hv =>
    have hl : codepointLength v = 1 := if_pos (by omega)
    rw [hl]
    rfl
  | case2 v h1 hv =>
    have hl : codepointLength v = 2 := by
      rw [codepointLength, if_neg (by omega), if_pos (by omega)]
    rw [hl]
    change ret ++ [UInt8.ofNat (2 ^ 5 * 6 ||| v >>> 6), codepointTail v 0] = _
    rw [Nat.shiftRight_eq_div_pow, or_lead (by omega), codepointTail_eq]
    have hlead : v / 2 ^ 6 + 2 ^ 5 * 6 = v / 64 % 32 + 192 := by omega
    rw [hlead, pow_zero, Nat.div_one]
  | case3 v h1 h2 hv =>
    have hl : codepointLength v = 3 := by
      rw [codepointLength, if_neg (by omega), if_neg (by omega), if_pos (by omega)]
    rw [hl]
    change ret ++ [UInt8.ofNat (2 ^ 4 * 14 ||| v >>> 12), codepointTail v 1, codepointTail v 0] = _
    rw [Nat.shiftRight_eq_div_pow, or_lead (by omega), codepointTail_eq, codepointTail_eq]
    have hlead : v / 2 ^ 12 + 2 ^ 4 * 14 = v / 4096 % 16 + 224 := by omega
    rw [hlead, pow_zero, pow_one, Nat.div_one]
  | case4 v h1 h2 hv =>
    have hl : codepointLength v = 4 := by
      rw [codepointLength, if_neg (by omega), if_neg (by omega), if_neg (by omega)]
    rw [hl]
    change ret ++ [UInt8.ofNat (2 ^ 3 * 30 ||| v >>> 18), codepointTail v 2, codepointTail v 1,
      codepointTail v 0] = _
    rw [Nat.shiftRight_eq_div_pow, or_lead (by omega), codepointTail_eq, codepointTail_eq,
      codepointTail_eq]
    have hlead : v / 2 ^ 18 + 2 ^ 3 * 30 = v / 262144 % 8 + 240 := by omega
    have hsq : 64 ^ 2 = 4096 := by norm_num
    rw [hlead, hsq, pow_zero, pow_one, Nat.div_one]

/-! ## Reading what was written -/

theorem continuation_continues {ch : ℕ} (hx : Continues x) :
    continuation ch (x :: xs) = continuation (ch * 64 + x.toNat % 64) xs := by
  refine if_neg ?_
  rintro (h | h)
  · exact absurd hx.2 (UInt8.not_le.mpr h)
  · exact absurd hx.1 (UInt8.not_le.mpr h)

/-- A sequence of several bytes is accepted. -/
theorem parseUtf8Codepoint_of_continuation (hl : utf8SequenceLength b = n) (h2 : 2 ≤ n) (h4 : n ≤ 4)
    (hlen : n ≤ xs.length + 1) (hc : continuation (leadBits n b) (xs.take (n - 1)) = some c)
    (hshort : shortest n ≤ c) (hvalid : c.isValidChar) :
    parseUtf8Codepoint (b :: xs) = (some c, n) := by
  rw [Nat.isValidChar] at hvalid
  rw [parseUtf8Codepoint, hl]
  simp only [List.length_cons, hc]
  rw [if_neg (by omega), if_neg (by omega), if_neg (by omega), if_neg (by omega),
    if_neg (by omega), if_neg, if_neg]
  · rw [surrogateStart, surrogateEnd]
    omega
  · rw [maxCodepoint]
    omega

theorem utf8SequenceLength_eq (h : b.toNat < 248) (hc : b.toNat < 128 ∨ 192 ≤ b.toNat) :
    utf8SequenceLength b = if b.toNat < 128 then 1 else if b.toNat < 224 then 2
      else if b.toNat < 240 then 3 else 4 := by
  simp only [utf8SequenceLength, Nat.shiftRight_eq_div_pow]
  split_ifs <;> omega

/-- What was written for a character is read back, whatever comes after it. -/
theorem parseUtf8Codepoint_char (ch : Char) (rest : List UInt8) :
    parseUtf8Codepoint (String.utf8EncodeChar ch ++ rest) =
      (some ch.val.toNat, (String.utf8EncodeChar ch).length) := by
  have hvalid : ch.val.toNat.isValidChar := ch.valid
  have hbound : ch.val.toNat < 0x110000 := by
    rw [Nat.isValidChar] at hvalid
    omega
  fun_cases String.utf8EncodeChar ch with
  | case1 v hv =>
    have hx := Utf8.toNat_ofNat_of_lt (n := v) (by omega)
    have hl : utf8SequenceLength (UInt8.ofNat v) = 1 := by
      rw [utf8SequenceLength_eq (by omega) (by omega), if_pos (by omega)]
    exact (parseUtf8Codepoint_one hl).trans (congrArg (some ·, 1) hx)
  | case2 v h1 hv =>
    have hx := Utf8.toNat_ofNat_of_lt (n := v / 64 % 32 + 192) (by omega)
    have hy := Utf8.toNat_ofNat_of_lt (n := v % 64 + 128) (by omega)
    have hl : utf8SequenceLength (UInt8.ofNat (v / 64 % 32 + 192)) = 2 := by
      rw [utf8SequenceLength_eq (by omega) (by omega), if_neg (by omega), if_pos (by omega)]
    refine parseUtf8Codepoint_of_continuation (n := 2) hl le_rfl (by decide) (by simp) ?_ ?_ hvalid
    · change continuation ((UInt8.ofNat (v / 64 % 32 + 192)).toNat % 32) [_] = some v
      rw [continuation_continues Utf8.continues_ofNat, hx, hy, continuation]
      exact congrArg some (by omega)
    · change 128 ≤ v
      omega
  | case3 v h1 h2 hv =>
    have hx := Utf8.toNat_ofNat_of_lt (n := v / 4096 % 16 + 224) (by omega)
    have hy := Utf8.toNat_ofNat_of_lt (n := v / 64 % 64 + 128) (by omega)
    have hz := Utf8.toNat_ofNat_of_lt (n := v % 64 + 128) (by omega)
    have hl : utf8SequenceLength (UInt8.ofNat (v / 4096 % 16 + 224)) = 3 := by
      rw [utf8SequenceLength_eq (by omega) (by omega), if_neg (by omega), if_neg (by omega),
        if_pos (by omega)]
    refine parseUtf8Codepoint_of_continuation (n := 3) hl (by decide) (by decide) (by simp) ?_ ?_ hvalid
    · change continuation ((UInt8.ofNat (v / 4096 % 16 + 224)).toNat % 16) [_, _] = some v
      rw [continuation_continues Utf8.continues_ofNat, continuation_continues Utf8.continues_ofNat,
        hx, hy, hz, continuation]
      exact congrArg some (by omega)
    · change 2048 ≤ v
      omega
  | case4 v h1 h2 hv =>
    have hw := Utf8.toNat_ofNat_of_lt (n := v / 262144 % 8 + 240) (by omega)
    have hx := Utf8.toNat_ofNat_of_lt (n := v / 4096 % 64 + 128) (by omega)
    have hy := Utf8.toNat_ofNat_of_lt (n := v / 64 % 64 + 128) (by omega)
    have hz := Utf8.toNat_ofNat_of_lt (n := v % 64 + 128) (by omega)
    have hl : utf8SequenceLength (UInt8.ofNat (v / 262144 % 8 + 240)) = 4 := by
      rw [utf8SequenceLength_eq (by omega) (by omega), if_neg (by omega), if_neg (by omega),
        if_neg (by omega)]
    refine parseUtf8Codepoint_of_continuation (n := 4) hl (by decide) le_rfl (by simp) ?_ ?_ hvalid
    · change continuation ((UInt8.ofNat (v / 262144 % 8 + 240)).toNat % 8) [_, _, _] = some v
      rw [continuation_continues Utf8.continues_ofNat, continuation_continues Utf8.continues_ofNat,
        continuation_continues Utf8.continues_ofNat, hw, hx, hy, hz, continuation]
      exact congrArg some (by omega)
    · change 65536 ≤ v
      omega

/-- Exactly where a sequence of the grammar starts is a code point read. -/
theorem parseUtf8Codepoint_isSome_iff :
    (parseUtf8Codepoint str).1.isSome ↔ ∃ q, Sequence q ∧ q <+: str := by
  constructor
  · intro h
    obtain ⟨c, hc⟩ := Option.isSome_iff_exists.mp h
    obtain ⟨ch, -, -, htake⟩ := parseUtf8Codepoint_some (n := (parseUtf8Codepoint str).2) (Prod.ext hc rfl)
    exact ⟨_, htake ▸ Utf8.sequence_char ch, List.take_prefix _ str⟩
  · rintro ⟨q, hq, rest, rfl⟩
    obtain ⟨ch, rfl⟩ := hq.exists_char
    rw [parseUtf8Codepoint_char]
    rfl

/-! ## The string -/

/-- The loop of `verify_encoding` over what is left of the string. The fuel is the number of
turns. -/
def verifyLoop : ℕ → List UInt8 → List UInt8 → Bool → List UInt8 × Bool
  | 0, _, tmpPath, validEncoding => (tmpPath, validEncoding)
  | fuel + 1, ptr, tmpPath, validEncoding =>
    if ptr = [] then (tmpPath, validEncoding)
    else match parseUtf8Codepoint ptr with
      | (none, len) =>
        verifyLoop fuel (ptr.drop (min len ptr.length)) (appendUtf8Codepoint tmpPath '_'.toNat) false
      | (some codepoint, len) =>
        verifyLoop fuel (ptr.drop (min len ptr.length)) (appendUtf8Codepoint tmpPath codepoint)
          validEncoding

/-- What is returned, and the string after it. -/
def verifyEncoding (target : List UInt8) : Bool × List UInt8 :=
  if target = [] then (true, target)
  else
    let (tmpPath, validEncoding) := verifyLoop target.length target [] true
    (validEncoding, if validEncoding then target else tmpPath)

/-- A text begins with a code point, and what follows it is a text. -/
theorem isText_iff_parse (h : parseUtf8Codepoint str = (some c, n)) :
    IsText str ↔ IsText (str.drop n) := by
  obtain ⟨ch, rfl, -, htake⟩ := parseUtf8Codepoint_some h
  have hsplit := List.take_append_drop n str
  rw [htake] at hsplit
  constructor
  · rintro ⟨cs, rfl⟩
    cases cs with
    | nil => cases h
    | cons d ds =>
      rw [List.flatMap_cons, parseUtf8Codepoint_char] at h
      obtain ⟨-, rfl⟩ := Prod.mk.inj h
      rw [List.flatMap_cons, List.drop_left]
      exact ⟨ds, rfl⟩
  · intro hdrop
    exact hsplit ▸ (Utf8.isText_char ch).append hdrop

theorem not_isText_of_parse (hne : str ≠ []) (h : parseUtf8Codepoint str = (none, n)) :
    ¬ IsText str := by
  rintro ⟨cs, rfl⟩
  cases cs with
  | nil => exact hne rfl
  | cons d ds =>
    rw [List.flatMap_cons, parseUtf8Codepoint_char] at h
    cases h

theorem appendUtf8Codepoint_underscore :
    appendUtf8Codepoint tmp '_'.toNat = tmp ++ String.utf8EncodeChar '_' :=
  appendUtf8Codepoint_char tmp '_'

/-- What is written is text. -/
theorem verifyLoop_isText (ht : IsText tmp) : IsText (verifyLoop fuel str tmp valid).1 := by
  induction fuel generalizing str tmp valid with
  | zero => exact ht
  | succ fuel ih =>
    rw [verifyLoop]
    split
    · exact ht
    · split
      · rw [appendUtf8Codepoint_underscore]
        exact ih (ht.append (Utf8.isText_char '_'))
      · next c n hparse =>
        obtain ⟨ch, rfl, -⟩ := parseUtf8Codepoint_some hparse
        rw [appendUtf8Codepoint_char]
        exact ih (ht.append (Utf8.isText_char ch))

theorem drop_length_lt (hne : str ≠ []) (hl : str.length ≤ fuel + 1) (hn : 0 < n) :
    (str.drop (min n str.length)).length ≤ fuel := by
  have hpos := List.length_pos_iff.mpr hne
  rw [List.length_drop]
  omega

/-- The loop ends with the flag it began with when the rest is text, and with `false` when it is
not. -/
theorem verifyLoop_valid (hl : str.length ≤ fuel) :
    (verifyLoop fuel str tmp valid).2 = true ↔ valid = true ∧ IsText str := by
  induction fuel generalizing str tmp valid with
  | zero =>
    obtain rfl := List.length_eq_zero_iff.mp (Nat.le_zero.mp hl)
    exact (and_iff_left Utf8.isText_nil).symm
  | succ fuel ih =>
    rw [verifyLoop]
    split
    · next hnil => exact (and_iff_left (hnil ▸ Utf8.isText_nil)).symm
    · next hne =>
      have hpos := parseUtf8Codepoint_pos hne
      split
      · next n hparse =>
        rw [hparse] at hpos
        rw [ih (drop_length_lt hne hl hpos)]
        have hnot := not_isText_of_parse hne hparse
        simp [hnot]
      · next c n hparse =>
        rw [hparse] at hpos
        obtain ⟨-, -, hn, -⟩ := parseUtf8Codepoint_some hparse
        rw [ih (drop_length_lt hne hl hpos), Nat.min_eq_left hn, isText_iff_parse hparse]

theorem verifyEncoding_fst : (verifyEncoding target).1 = true ↔ IsText target := by
  rw [verifyEncoding]
  split
  · next hnil => exact iff_of_true rfl (hnil ▸ Utf8.isText_nil)
  · exact (verifyLoop_valid le_rfl).trans (and_iff_right rfl)

theorem verifyEncoding_of_isText (h : IsText target) : verifyEncoding target = (true, target) := by
  have hvalid := verifyEncoding_fst.mpr h
  rw [verifyEncoding] at hvalid ⊢
  split
  · rfl
  · next hne =>
    rw [if_neg hne] at hvalid
    dsimp only at hvalid ⊢
    rw [hvalid, if_pos rfl]

theorem verifyEncoding_isText (target : List UInt8) : IsText (verifyEncoding target).2 := by
  rw [verifyEncoding]
  split
  · next hnil => exact hnil ▸ Utf8.isText_nil
  · dsimp only
    split
    · next hvalid => exact ((verifyLoop_valid le_rfl).mp hvalid).2
    · exact verifyLoop_isText Utf8.isText_nil

/-- The codec is exact: what is written for a scalar value is read back with its length, whatever
comes after it; a code point is read exactly where a sequence of the grammar starts, and some byte
is always taken; so a string is found valid, and left as it is, exactly when it is well formed, it
is well formed afterwards, and a second time nothing changes. -/
theorem utf8Codec_exact :
    (∀ (ret : List UInt8) (ch : Char), ∃ bytes,
      appendUtf8Codepoint ret ch.val.toNat = ret ++ bytes ∧
      ∀ rest, parseUtf8Codepoint (bytes ++ rest) = (some ch.val.toNat, bytes.length)) ∧
    (∀ str : List UInt8, str ≠ [] →
      ((parseUtf8Codepoint str).1.isSome ↔ ∃ q, Sequence q ∧ q <+: str) ∧
      1 ≤ (parseUtf8Codepoint str).2) ∧
    ∀ target : List UInt8,
      ((verifyEncoding target).1 = true ↔ WellFormed target) ∧
      ((verifyEncoding target).2 = target ↔ WellFormed target) ∧
      WellFormed (verifyEncoding target).2 ∧
      verifyEncoding (verifyEncoding target).2 = (true, (verifyEncoding target).2) := by
  refine ⟨?_, ?_, ?_⟩
  · intro ret ch
    exact ⟨_, appendUtf8Codepoint_char ret ch, parseUtf8Codepoint_char ch⟩
  · intro str hne
    exact ⟨parseUtf8Codepoint_isSome_iff, parseUtf8Codepoint_pos hne⟩
  · intro target
    have htext := verifyEncoding_isText target
    simp only [Utf8.wellFormed_iff]
    refine ⟨verifyEncoding_fst, ⟨?_, ?_⟩, htext, verifyEncoding_of_isText htext⟩
    · exact fun heq => heq ▸ htext
    · exact fun h => congrArg Prod.snd (verifyEncoding_of_isText h)

end Torrent

end LibtorrentSN
