import LibtorrentSN.Torrent.InfoSection

/-!
# The text of magnet links

Percent-encoding and base32 (`src/escape_string.cpp`), hexadecimal digits (`src/hex.cpp`) and the splitting of
strings (`src/string_util.cpp`).
-/

namespace LibtorrentSN

namespace Magnet

open Bencode (ascii)
open Torrent.Info (key)

/-- The errors of magnet links. -/
inductive ErrorCode
  | noError
  | invalidEscapedString
  | unsupportedUrlProtocol
  | invalidInfoHash
  | missingInfoHashInUri
  deriving DecidableEq, Repr

/-! ## Hexadecimal digits -/

/-- `hex_to_int`. There is no digit where the source returns -1. -/
def hexToInt (c : UInt8) : Option UInt8 :=
  if ascii '0' ≤ c ∧ c ≤ ascii '9' then some (c - ascii '0')
  else if ascii 'A' ≤ c ∧ c ≤ ascii 'F' then some (c - ascii 'A' + 10)
  else if ascii 'a' ≤ c ∧ c ≤ ascii 'f' then some (c - ascii 'a' + 10)
  else none

/-- `from_hex`: whether all characters are digits, and the buffer, of which the bytes up to the first character that
is none are written. -/
def fromHex : List UInt8 → List UInt8 → Bool × List UInt8
  | c₁ :: c₂ :: chars, o :: out =>
    match hexToInt c₁ with
    | none => (false, o :: out)
    | some t₁ =>
      match hexToInt c₂ with
      | none => (false, (t₁ <<< 4) :: out)
      | some t₂ =>
        let r := fromHex chars out
        (r.1, (t₁ <<< 4 ||| t₂ &&& 15) :: r.2)
  | _, out => (true, out)

/-! ## Percent-encoding -/

/-- `unescape_string`: an error, and what has been decoded. -/
def unescapeString : List UInt8 → ErrorCode × List UInt8
  | [] => (.noError, [])
  | c :: s =>
    if c = ascii '+' then
      let r := unescapeString s
      (r.1, ascii ' ' :: r.2)
    else if c ≠ ascii '%' then
      let r := unescapeString s
      (r.1, c :: r.2)
    else
      match s with
      | [] => (.invalidEscapedString, [])
      | h :: s =>
        match hexToInt h with
        | none => (.invalidEscapedString, [])
        | some high =>
          match s with
          | [] => (.invalidEscapedString, [])
          | l :: s =>
            match hexToInt l with
            | none => (.invalidEscapedString, [])
            | some low =>
              let r := unescapeString s
              (r.1, (high * 16 + low) :: r.2)

def unreservedChars : List UInt8 :=
  key ("%+" ++ ";?:@=&,$/" ++ "-_!.~*()" ++ "ABCDEFGHIJKLMNOPQRSTUVWXYZabcdefghijklmnopqrstuvwxyz" ++ "0123456789")

/-- One character in `escape_string_impl`. The end of the table is a zero, which is not left as it is. -/
def escapeChar (offset : ℕ) (c : UInt8) : List UInt8 :=
  if c ∈ unreservedChars.drop offset ∧ c ≠ 0 then [c]
  else [ascii '%', Torrent.Info.hexDigit (c.toNat / 16), Torrent.Info.hexDigit (c.toNat % 16)]

/-- `escape_string_impl`: `for (int i = 0; i < len; ++i)` -/
def escapeStringImpl (str : List UInt8) (len : ℤ) (offset : ℕ) : List UInt8 :=
  (str.take len.toNat).flatMap (escapeChar offset)

/-- `int(n)` -/
def toInt (n : ℕ) : ℤ := Int.bmod n (2 ^ 32)

/-- `escape_string` -/
def escapeString (str : List UInt8) : List UInt8 := escapeStringImpl str (toInt str.length) 11

/-! ## Base32 -/

/-- `std::toupper`, which leaves everything but the letters alone. -/
def toUpper (c : UInt8) : UInt8 := if ascii 'a' ≤ c ∧ c ≤ ascii 'z' then c - 32 else c

/-- The characters of a group of base32 from the one at `j` on: the numbers, and where the padding starts. -/
def base32Group : List UInt8 → (j padStart : ℕ) → Option (List UInt8 × ℕ)
  | [], _, padStart => some ([], padStart)
  | c :: chars, j, padStart =>
    let c := toUpper c
    if ascii 'A' ≤ c ∧ c ≤ ascii 'Z' then
      (base32Group chars (j + 1) padStart).map fun r => ((c - ascii 'A') :: r.1, r.2)
    else if ascii '2' ≤ c ∧ c ≤ ascii '7' then
      (base32Group chars (j + 1) padStart).map fun r => ((c - ascii '2' + 26) :: r.1, r.2)
    else if c = ascii '=' then
      (base32Group chars (j + 1) (if padStart = 0 then j else padStart)).map fun r => (0 :: r.1, r.2)
    else if c = ascii '1' then
      (base32Group chars (j + 1) padStart).map fun r => (8 :: r.1, r.2)
    else none

/-- The five bytes of eight numbers. -/
def base32Bytes (inbuf : List UInt8) : List UInt8 :=
  let i (j : ℕ) := inbuf.getD j 0
  [i 0 <<< 3 ||| i 1 >>> 2,
    (i 1 &&& 0x3) <<< 6 ||| i 2 <<< 1 ||| (i 3 &&& 0x10) >>> 4,
    (i 3 &&& 0x0f) <<< 4 ||| (i 4 &&& 0x1e) >>> 1,
    (i 4 &&& 0x01) <<< 7 ||| (i 5 &&& 0x1f) <<< 2 ||| (i 6 &&& 0x18) >>> 3,
    (i 6 &&& 0x07) <<< 5 ||| i 7]

/-- `input_output_mapping` -/
def inputOutputMapping : List ℕ := [5, 1, 1, 2, 2, 3, 4, 4, 5]

/-- The groups of `base32decode`. -/
def base32Groups : ℕ → List UInt8 → Option (List UInt8)
  | 0, _ => some []
  | _, [] => some []
  | fuel + 1, s =>
    let availableInput := min 8 s.length
    match base32Group (s.take 8) 0 (if availableInput < 8 then availableInput else 0) with
    | none => none
    | some (inbuf, padStart) =>
      (base32Groups fuel (s.drop 8)).map ((base32Bytes inbuf).take (inputOutputMapping.getD padStart 0) ++ ·)

/-- `base32decode`: the empty string if a character is not of the alphabet. -/
def base32decode (s : List UInt8) : List UInt8 := (base32Groups s.length s).getD []

/-! ## Strings -/

/-- `split_string`: without the separator, all of the string is the first part. -/
def splitString (last : List UInt8) (sep : UInt8) : List UInt8 × List UInt8 :=
  (last.takeWhile (· ≠ sep), (last.dropWhile (· ≠ sep)).tail)

def isDigit (c : UInt8) : Bool := ascii '0' ≤ c ∧ c ≤ ascii '9'

def toLower (c : UInt8) : UInt8 := if ascii 'A' ≤ c ∧ c ≤ ascii 'Z' then c + 32 else c

/-- `string_equal_no_case` -/
def stringEqualNoCase (s₁ s₂ : List UInt8) : Bool := s₁.map toLower = s₂.map toLower

/-- `to_string` of a number that is not negative. -/
def toString (n : ℕ) : List UInt8 := (Nat.toDigits 10 n).map ascii

/-! ## What the codecs are for -/

section Escape
variable {s t : List UInt8} {c sep : UInt8} {n : ℕ}

/-- What holds of all numbers below 256 holds of all bytes. -/
theorem forall_byte {P : UInt8 → Prop} (h : ∀ n < 256, P (UInt8.ofNat n)) (c : UInt8) : P c := by
  have hc := h c.toNat c.toNat_lt
  rwa [UInt8.ofNat_toNat] at hc

theorem hexToInt_digit : ∀ n < 16, hexToInt (Torrent.Info.hexDigit n) = some (UInt8.ofNat n) := by decide +kernel

/-- The digits that are written are read. -/
theorem hexToInt_hexDigit (c : UInt8) :
    hexToInt (Torrent.Info.hexDigit (c.toNat / 16)) = some (c >>> 4) ∧
      hexToInt (Torrent.Info.hexDigit (c.toNat % 16)) = some (c &&& 15) := by
  have hlt := c.toNat_lt
  rw [hexToInt_digit _ (by omega), hexToInt_digit _ (Nat.mod_lt _ (by decide))]
  refine ⟨congrArg some (UInt8.toNat_inj.mp ?_), congrArg some (UInt8.toNat_inj.mp ?_)⟩
  · rw [UInt8.toNat_ofNat', UInt8.toNat_shiftRight, Nat.mod_eq_of_lt (by omega), Nat.shiftRight_eq_div_pow]
    rfl
  · rw [UInt8.toNat_ofNat', UInt8.toNat_and, Nat.mod_eq_of_lt (by omega)]
    exact (Nat.and_two_pow_sub_one_eq_mod _ 4).symm

theorem high_low (c : UInt8) : (c >>> 4) * 16 + (c &&& 15) = c := by
  revert c
  refine forall_byte ?_
  decide +kernel

/-- The separators are not among the characters that are left as they are. -/
theorem separators_reserved : ascii '+' ∉ unreservedChars.drop 11 ∧ ascii '%' ∉ unreservedChars.drop 11 ∧
    ascii '&' ∉ unreservedChars.drop 11 := by
  simp only [unreservedChars, key, String.toList_append]
  repeat rw [String.toList_ofList]
  decide +kernel

/-- A character that is left as it is stands for itself. -/
theorem plain_of_unreserved (h : c ∈ unreservedChars.drop 11) : c ≠ ascii '+' ∧ c ≠ ascii '%' := by
  obtain ⟨hplus, hpercent, -⟩ := separators_reserved
  exact ⟨fun hc => hplus (hc ▸ h), fun hc => hpercent (hc ▸ h)⟩

theorem unescapeString_escapeChar (c : UInt8) (s : List UInt8) :
    unescapeString (escapeChar 11 c ++ s) = ((unescapeString s).1, c :: (unescapeString s).2) := by
  unfold escapeChar
  split
  next h =>
    obtain ⟨hplus, hpercent⟩ := plain_of_unreserved h.1
    rw [List.cons_append, List.nil_append, unescapeString.eq_def]
    dsimp only
    rw [if_neg hplus, if_pos hpercent]
  next h =>
    obtain ⟨hhigh, hlow⟩ := hexToInt_hexDigit c
    have hplus : ascii '%' ≠ ascii '+' := by decide
    rw [List.cons_append, List.cons_append, List.cons_append, List.nil_append, unescapeString.eq_def]
    dsimp only
    rw [if_neg hplus, if_neg (not_not.mpr rfl)]
    simp only [hhigh, hlow, high_low]

/-- What is escaped is unescaped. -/
theorem unescapeString_flatMap (s : List UInt8) :
    unescapeString (s.flatMap (escapeChar 11)) = (.noError, s) := by
  induction s with
  | nil => rfl
  | cons c s ih => rw [List.flatMap_cons, unescapeString_escapeChar, ih]

/-- No escaped character is a separator. -/
theorem not_mem_escapeChar (c : UInt8) : ascii '&' ∉ escapeChar 11 c := by
  have hpercent : ascii '&' ≠ ascii '%' := by decide
  have hdigit : ∀ n < 16, ascii '&' ≠ Torrent.Info.hexDigit n := by decide
  have hlt := c.toNat_lt
  unfold escapeChar
  split
  next h => exact fun hm => separators_reserved.2.2 (List.mem_singleton.mp hm ▸ h.1)
  next h =>
    rw [List.mem_cons, List.mem_cons, List.mem_singleton]
    rintro (hc | hc | hc)
    · exact hpercent hc
    · exact hdigit _ (by omega) hc
    · exact hdigit _ (by omega) hc

theorem not_mem_escapeString (s : List UInt8) : ascii '&' ∉ escapeString s := by
  intro h
  obtain ⟨c, -, hc⟩ := List.mem_flatMap.mp h
  exact not_mem_escapeChar c hc

/-- What an `int` counts of a string. -/
def cut (s : List UInt8) : List UInt8 := s.take (toInt s.length).toNat

theorem unescapeString_escapeString (s : List UInt8) : unescapeString (escapeString s) = (.noError, cut s) :=
  unescapeString_flatMap _

theorem toInt_of_lt (h : n < 2 ^ 31) : toInt n = n := by
  norm_num at h
  unfold toInt
  norm_num [Int.bmod_def]
  omega

theorem toInt_lt (n : ℕ) : toInt n < 2 ^ 31 := by
  unfold toInt
  norm_num [Int.bmod_def]
  split <;> omega

theorem toInt_eq_iff : toInt n = n ↔ n < 2 ^ 31 := by
  refine ⟨fun h => ?_, toInt_of_lt⟩
  have hlt := toInt_lt n
  omega

/-- A string is counted as a whole just when its size is an `int`. -/
theorem cut_eq_iff : cut s = s ↔ s.length < 2 ^ 31 := by
  rw [cut, List.take_eq_self_iff]
  have hlt := toInt_lt s.length
  refine ⟨fun h => by omega, fun h => ?_⟩
  rw [toInt_of_lt h, Int.toNat_natCast]

theorem cut_nil : cut [] = [] := List.take_nil

end Escape

section Split
variable {s t : List UInt8} {c sep : UInt8} {n : ℕ}

theorem splitString_append (h : sep ∉ s) (t : List UInt8) : splitString (s ++ sep :: t) sep = (s, t) := by
  have hs : ∀ c ∈ s, (decide (c ≠ sep)) = true := fun c hc => decide_eq_true fun heq => h (heq ▸ hc)
  rw [splitString, List.takeWhile_append_of_pos hs, List.dropWhile_append_of_pos hs,
    List.takeWhile_cons_of_neg (by simp), List.dropWhile_cons_of_neg (by simp), List.append_nil, List.tail_cons]

theorem splitString_of_notMem (h : sep ∉ s) : splitString s sep = (s, []) := by
  have hs : ∀ c ∈ s, (decide (c ≠ sep)) = true := fun c hc => decide_eq_true fun heq => h (heq ▸ hc)
  rw [splitString, List.takeWhile_eq_self_iff.mpr hs, List.dropWhile_eq_nil_iff.mpr hs, List.tail_nil]

theorem not_mem_toString (n : ℕ) : ascii '&' ∉ toString n := by
  intro h
  obtain ⟨d, hd, hc⟩ := List.mem_map.mp h
  have hdigit := Nat.isDigit_of_mem_toDigits (by decide) (by decide) hd
  rw [Char.isDigit_iff_toNat] at hdigit
  have hbyte := congrArg UInt8.toNat hc
  rw [ascii, Char.toUInt8, UInt32.toNat_toUInt8] at hbyte
  change 48 ≤ d.val.toNat ∧ d.val.toNat ≤ 57 at hdigit
  change d.val.toNat % 256 = 38 at hbyte
  omega

end Split

end Magnet

end LibtorrentSN
