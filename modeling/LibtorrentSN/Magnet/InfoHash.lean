import LibtorrentSN.Magnet.Uri

/-!
# The info-hash of a magnet link

What is accepted as an info-hash, and what it is read as. The parser does not look at whether 40 characters are all
digits, and base32 lets a group of characters begin with padding.
-/

namespace LibtorrentSN

namespace Magnet

open Bencode (ascii)
open Torrent.Info (key)
open Torrent.ResumeData (Sha1Hash)

/-! ## What an info-hash denotes -/

/-- The number that digits stand for, the first of them counting the most. -/
def numeral (base : ℕ) (digits : List ℕ) : ℕ := digits.foldl (fun n d => base * n + d) 0

/-- The digits of base32, where 1 is read as I. -/
def base32Digit (c : UInt8) : Option ℕ :=
  if ascii 'A' ≤ c ∧ c ≤ ascii 'Z' then some (c.toNat - 65)
  else if ascii 'a' ≤ c ∧ c ≤ ascii 'z' then some (c.toNat - 97)
  else if ascii '2' ≤ c ∧ c ≤ ascii '7' then some (c.toNat - 50 + 26)
  else if c = ascii '1' then some 8
  else none

def hexDigitValue (c : UInt8) : Option ℕ := (hexToInt c).map UInt8.toNat

/-- 40 hexadecimal digits, or 32 characters of base32. -/
def WellFormed (x : List UInt8) : Prop :=
  x.length = 40 ∧ (∀ c ∈ x, (hexDigitValue c).isSome = true) ∨
    x.length = 32 ∧ ∀ c ∈ x, (base32Digit c).isSome = true

instance (x : List UInt8) : Decidable (WellFormed x) := inferInstanceAs (Decidable (_ ∨ _))

/-- The 20 bytes are the number that the digits stand for. -/
def Denotes (x hash : List UInt8) : Prop :=
  hash.length = 20 ∧
    (x.length = 40 ∧ numeral 256 (hash.map UInt8.toNat) = numeral 16 (x.map fun c => (hexDigitValue c).getD 0) ∨
      x.length = 32 ∧ numeral 256 (hash.map UInt8.toNat) = numeral 32 (x.map fun c => (base32Digit c).getD 0))

/-! ## The info-hashes of a link -/

/-- The value of an `xt` parameter, which is decoded if it is escaped. -/
def topicText (value : List UInt8) : Option (List UInt8) :=
  if ascii '%' ∈ value then
    if (unescapeString value).1 = .noError then some (unescapeString value).2 else none
  else some value

/-- The values of the `xt` parameters. -/
def topicsOf (params : List (List UInt8 × List UInt8)) : List (List UInt8) :=
  (params.filter fun param => stringEqualNoCase (stripNumber param.1) (key "xt")).map Prod.snd

/-- What follows `urn:btih:`. -/
def btihOf (value : List UInt8) : Option (List UInt8) :=
  (topicText value).bind fun text => if text.take 9 = key "urn:btih:" then some (text.drop 9) else none

def infoHashesOf (params : List (List UInt8 × List UInt8)) : List (List UInt8) :=
  (topicsOf params).filterMap btihOf

/-- The parameters of a link. -/
def paramsOf (uri : List UInt8) : List (List UInt8 × List UInt8) := linkParams (uri.drop 8).length (uri.drop 8)

/-- What the parser takes for an info-hash: any 40 characters, or 32 of base32 of which the first, the ninth and so on
may be padding. -/
def Admitted (x : List UInt8) : Prop :=
  x.length = 40 ∨ x.length = 32 ∧ ∀ i < 32,
    (base32Digit (x.getD i 0)).isSome = true ∨ x.getD i 0 = ascii '=' ∧ i % 8 = 0

/-- The links that the parser accepts. -/
structure Accepted (uri : List UInt8) : Prop where
  scheme : uri.take 8 = key "magnet:?"
  text : ∀ value ∈ topicsOf (paramsOf uri), (topicText value).isSome = true
  found : infoHashesOf (paramsOf uri) ≠ []
  admitted : ∀ x ∈ infoHashesOf (paramsOf uri), Admitted x

/-! ## Base32 -/

section Base32
variable {c : UInt8} {chars s : List UInt8} {j padStart fuel k : ℕ}

/-- The number of a character in `inbuf`. -/
def base32Value (c : UInt8) : UInt8 := UInt8.ofNat ((base32Digit c).getD 0)

/-! The branches of the loop are those of the alphabet. -/

theorem base32_branch : ∀ c : UInt8,
    (ascii 'A' ≤ toUpper c ∧ toUpper c ≤ ascii 'Z' →
      (base32Digit c).isSome = true ∧ toUpper c - ascii 'A' = base32Value c) ∧
    (ascii '2' ≤ toUpper c ∧ toUpper c ≤ ascii '7' →
      (base32Digit c).isSome = true ∧ toUpper c - ascii '2' + 26 = base32Value c) ∧
    (toUpper c = ascii '=' → (base32Digit c).isSome = false ∧ c = ascii '=' ∧ 0 = base32Value c) :=
  forall_byte (by decide +kernel)

theorem base32_rest : ∀ c : UInt8,
    (toUpper c = ascii '1' → (base32Digit c).isSome = true ∧ 8 = base32Value c) ∧
    ((base32Digit c).isSome = true → ascii 'A' ≤ toUpper c ∧ toUpper c ≤ ascii 'Z' ∨
      ascii '2' ≤ toUpper c ∧ toUpper c ≤ ascii '7' ∨ toUpper c = ascii '1') := forall_byte (by decide +kernel)

theorem toUpper_pad : toUpper (ascii '=') = ascii '=' := by decide

/-- One character of a group, by the alphabet. -/
theorem base32Group_cons (c : UInt8) (chars : List UInt8) (j padStart : ℕ) :
    base32Group (c :: chars) j padStart =
      if (base32Digit c).isSome = true then
        (base32Group chars (j + 1) padStart).map fun r => (base32Value c :: r.1, r.2)
      else if c = ascii '=' then
        (base32Group chars (j + 1) (if padStart = 0 then j else padStart)).map fun r => (base32Value c :: r.1, r.2)
      else none := by
  obtain ⟨hletter, hnumber, hpad⟩ := base32_branch c
  obtain ⟨hone, hcases⟩ := base32_rest c
  rw [base32Group]
  split
  next h => rw [if_pos (hletter h).1, (hletter h).2]
  next h₁ =>
    split
    next h => rw [if_pos (hnumber h).1, (hnumber h).2]
    next h₂ =>
      split
      next h =>
        obtain ⟨hnone, hc, hvalue⟩ := hpad h
        have hnot : ¬ (base32Digit c).isSome = true := by
          rw [hnone]
          exact Bool.false_ne_true
        rw [if_neg hnot, if_pos hc, ← hvalue]
      next h₃ =>
        split
        next h => rw [if_pos (hone h).1, ← (hone h).2]
        next h₄ =>
          have hnot : ¬ (base32Digit c).isSome = true := fun hc =>
            (hcases hc).elim h₁ fun hc => hc.elim h₂ h₄
          have hne : c ≠ ascii '=' := by
            rintro rfl
            exact h₃ toUpper_pad
          rw [if_neg hnot, if_neg hne]

/-- Whether a character may stand in a group at all. -/
def Base32Char (c : UInt8) : Prop := (base32Digit c).isSome = true ∨ c = ascii '='

theorem base32Group_none (h : ¬ ∀ c ∈ chars, Base32Char c) : base32Group chars j padStart = none := by
  induction chars generalizing j padStart with
  | nil => exact absurd (List.forall_mem_nil _) h
  | cons c chars ih =>
    rw [base32Group_cons]
    by_cases hrest : ∀ c ∈ chars, Base32Char c
    · have hc : ¬ Base32Char c := fun hc => h (List.forall_mem_cons.mpr ⟨hc, hrest⟩)
      obtain ⟨hdigit, hpad⟩ := not_or.mp hc
      rw [if_neg hdigit, if_neg hpad]
    · rw [ih hrest, ih hrest]
      split
      · rfl
      · split <;> rfl

/-- The group is read with the padding where the first `=` after its first character is. -/
theorem base32Group_some (j padStart : ℕ) (h : ∀ c ∈ chars, Base32Char c) :
    ∃ pad, base32Group chars j padStart = some (chars.map base32Value, pad) ∧ pad ≤ max padStart (j + chars.length - 1) ∧
      (pad = 0 ↔ padStart = 0 ∧ ∀ i < chars.length, chars.getD i 0 = ascii '=' → j + i = 0) := by
  induction chars generalizing j padStart with
  | nil => exact ⟨padStart, rfl, le_max_left _ _, by simp⟩
  | cons c chars ih =>
    obtain ⟨hc, hrest⟩ := List.forall_mem_cons.mp h
    have hsplit : ∀ Q : UInt8 → ℕ → Prop, (∀ i < (c :: chars).length, Q ((c :: chars).getD i 0) (j + i)) ↔
        Q c j ∧ ∀ i < chars.length, Q (chars.getD i 0) (j + 1 + i) := by
      intro Q
      rw [List.length_cons]
      constructor
      · intro hall
        refine ⟨hall 0 (Nat.succ_pos _), fun i hi => ?_⟩
        have := hall (i + 1) (Nat.succ_lt_succ hi)
        rwa [List.getD_cons_succ, ← Nat.add_assoc, Nat.add_right_comm] at this
      · rintro ⟨hzero, hsucc⟩ (- | i) hi
        · exact hzero
        · have := hsucc i (Nat.lt_of_succ_lt_succ hi)
          rwa [List.getD_cons_succ, ← Nat.add_assoc, Nat.add_right_comm]
    rw [base32Group_cons, List.map_cons, List.length_cons]
    have hall := hsplit fun c i => c = ascii '=' → i = 0
    rw [List.length_cons] at hall
    rw [hall]
    by_cases hdigit : (base32Digit c).isSome = true
    · obtain ⟨pad, heq, hle, hzero⟩ := ih (j + 1) padStart hrest
      have hnot : c ≠ ascii '=' := by
        rintro rfl
        revert hdigit
        decide
      rw [if_pos hdigit, heq]
      refine ⟨pad, rfl, by omega, hzero.trans ?_⟩
      rw [and_iff_right fun hc => absurd hc hnot]
    · have hpad := hc.resolve_left hdigit
      obtain ⟨pad, heq, hle, hzero⟩ := ih (j + 1) (if padStart = 0 then j else padStart) hrest
      rw [if_neg hdigit, if_pos hpad, heq]
      refine ⟨pad, rfl, ?_, hzero.trans ?_⟩
      · split at hle <;> omega
      · split
        next hz => simp [hz, hpad]
        next hz => simp [hz]

theorem base32Digit_lt (c : UInt8) : (base32Digit c).getD 0 < 32 := by
  rw [base32Digit]
  split
  next h =>
    have hc : c.toNat ≤ 90 := UInt8.le_iff_toNat_le.mp h.2
    exact Nat.lt_of_le_of_lt (Nat.sub_le_sub_right hc 65) (by decide)
  next =>
    split
    next h =>
      have hc : c.toNat ≤ 122 := UInt8.le_iff_toNat_le.mp h.2
      exact Nat.lt_of_le_of_lt (Nat.sub_le_sub_right hc 97) (by decide)
    next =>
      split
      next h =>
        have hc : c.toNat ≤ 55 := UInt8.le_iff_toNat_le.mp h.2
        exact Nat.lt_of_le_of_lt (Nat.add_le_add_right (Nat.sub_le_sub_right hc 50) 26) (by decide)
      next => split <;> decide

theorem base32Value_toNat (c : UInt8) : (base32Value c).toNat = (base32Digit c).getD 0 ∧ (base32Value c).toNat < 32 := by
  have hlt := base32Digit_lt c
  have hvalue : (base32Value c).toNat = (base32Digit c).getD 0 := UInt8.toNat_ofNat_of_lt' (hlt.trans (by decide))
  exact ⟨hvalue, hvalue ▸ hlt⟩

/-! The five bytes of a group, as numbers. -/

theorem digit_bits : ∀ a < 32, UInt8.ofNat a >>> 2 = UInt8.ofNat (a / 4) ∧ UInt8.ofNat a &&& 0x3 = UInt8.ofNat (a % 4) ∧
    UInt8.ofNat a &&& 0x0f = UInt8.ofNat (a % 16) ∧ (UInt8.ofNat a &&& 0x1e) >>> 1 = UInt8.ofNat (a / 2) ∧
    UInt8.ofNat a &&& 0x01 = UInt8.ofNat (a % 2) ∧ UInt8.ofNat a &&& 0x1f = UInt8.ofNat a ∧
    UInt8.ofNat a &&& 0x07 = UInt8.ofNat (a % 8) ∧ (UInt8.ofNat a &&& 0x10) >>> 4 = UInt8.ofNat (a / 16) ∧
    (UInt8.ofNat a &&& 0x18) >>> 3 = UInt8.ofNat (a / 8) := by decide +kernel

/-- Bits below a shifted number are added to it. -/
theorem toNat_shiftLeft_or {a b n : ℕ} {x y k : UInt8} (hk : k.toNat = n) (hn : n < 8) (hx : x.toNat = a)
    (ha : a * 2 ^ n < 256) (hy : y.toNat = b) (hb : b < 2 ^ n) : (x <<< k ||| y).toNat = a * 2 ^ n + b := by
  rw [UInt8.toNat_or, UInt8.toNat_shiftLeft, hk, Nat.mod_eq_of_lt hn, hx, hy, Nat.shiftLeft_eq,
    Nat.mod_eq_of_lt ha, ← Nat.shiftLeft_eq, ← Nat.shiftLeft_add_eq_or_of_lt hb, Nat.shiftLeft_eq]

theorem byte_of_digits (a : ℕ) (ha : a < 32) (b : ℕ) (hb : b < 32) :
    (UInt8.ofNat a <<< 3 ||| UInt8.ofNat b >>> 2).toNat = 8 * a + b / 4 ∧
    (∀ c < 2, ((UInt8.ofNat a &&& 0x3) <<< 6 ||| UInt8.ofNat b <<< 1 ||| UInt8.ofNat c).toNat =
      64 * (a % 4) + 2 * b + c) ∧
    ((UInt8.ofNat a &&& 0x0f) <<< 4 ||| (UInt8.ofNat b &&& 0x1e) >>> 1).toNat = 16 * (a % 16) + b / 2 ∧
    (∀ c < 4, ((UInt8.ofNat a &&& 0x01) <<< 7 ||| (UInt8.ofNat b &&& 0x1f) <<< 2 ||| UInt8.ofNat c).toNat =
      128 * (a % 2) + 4 * b + c) ∧
    ((UInt8.ofNat a &&& 0x07) <<< 5 ||| UInt8.ofNat b).toNat = 32 * (a % 8) + b := by
  have hof : ∀ n < 256, (UInt8.ofNat n).toNat = n := fun n hn => UInt8.toNat_ofNat_of_lt' hn
  obtain ⟨-, a₃, a₁₅, -, a₁, -, a₇, -⟩ := digit_bits a ha
  obtain ⟨b₂, -, -, b₃₀, -, b₃₁, -⟩ := digit_bits b hb
  rw [a₃, a₁₅, a₁, a₇, b₂, b₃₀, b₃₁]
  refine ⟨?_, fun c hc => ?_, ?_, fun c hc => ?_, ?_⟩
  · rw [toNat_shiftLeft_or (n := 3) rfl (by decide) (hof a (by omega)) (by omega) (hof _ (by omega)) (by omega)]
    omega
  · rw [UInt8.or_assoc]
    have hlow : (UInt8.ofNat b <<< 1 ||| UInt8.ofNat c).toNat = b * 2 ^ 1 + c :=
      toNat_shiftLeft_or rfl (by decide) (hof b (by omega)) (by omega) (hof c (by omega)) (by omega)
    rw [toNat_shiftLeft_or (n := 6) rfl (by decide) (hof _ (by omega)) (by omega) hlow (by omega)]
    omega
  · rw [toNat_shiftLeft_or (n := 4) rfl (by decide) (hof _ (by omega)) (by omega) (hof _ (by omega)) (by omega)]
    omega
  · rw [UInt8.or_assoc]
    have hlow : (UInt8.ofNat b <<< 2 ||| UInt8.ofNat c).toNat = b * 2 ^ 2 + c :=
      toNat_shiftLeft_or rfl (by decide) (hof b (by omega)) (by omega) (hof c (by omega)) (by omega)
    rw [toNat_shiftLeft_or (n := 7) rfl (by decide) (hof _ (by omega)) (by omega) hlow (by omega)]
    omega
  · rw [toNat_shiftLeft_or (n := 5) rfl (by decide) (hof _ (by omega)) (by omega) (hof b (by omega)) (by omega)]
    omega

/-- Five bytes are the number of their eight digits. -/
theorem numeral_base32Bytes {d : ℕ → ℕ} (hd : ∀ j, d j < 32) (n : ℕ) :
    ((base32Bytes ((List.range 8).map fun j => UInt8.ofNat (d j))).map UInt8.toNat).foldl (fun n b => 256 * n + b) n =
      ((List.range 8).map d).foldl (fun n b => 32 * n + b) n := by
  have h₀ := (byte_of_digits (d 0) (hd 0) (d 1) (hd 1)).1
  have h₁ := (byte_of_digits (d 1) (hd 1) (d 2) (hd 2)).2.1 (d 3 / 16) (by have := hd 3; omega)
  have h₂ := (byte_of_digits (d 3) (hd 3) (d 4) (hd 4)).2.2.1
  have h₃ := (byte_of_digits (d 4) (hd 4) (d 5) (hd 5)).2.2.2.1 (d 6 / 8) (by have := hd 6; omega)
  have h₄ := (byte_of_digits (d 6) (hd 6) (d 7) (hd 7)).2.2.2.2
  rw [← (digit_bits (d 3) (hd 3)).2.2.2.2.2.2.2.1] at h₁
  rw [← (digit_bits (d 6) (hd 6)).2.2.2.2.2.2.2.2] at h₃
  have hrange : List.range 8 = [0, 1, 2, 3, 4, 5, 6, 7] := rfl
  rw [hrange]
  simp only [base32Bytes, List.map_cons, List.map_nil, List.getD_cons_zero, List.getD_cons_succ, List.foldl_cons,
    List.foldl_nil]
  rw [h₀, h₁, h₂, h₃, h₄]
  have := hd 1
  have := hd 3
  have := hd 4
  have := hd 6
  omega

/-- Only the first character of a group is padding. -/
def PadsFirst (s : List UInt8) : Prop := ∀ i < s.length, s.getD i 0 = ascii '=' → i % 8 = 0

theorem padsFirst_iff (h : 8 ≤ s.length) : PadsFirst s ↔
    (∀ i < (s.take 8).length, (s.take 8).getD i 0 = ascii '=' → 0 + i = 0) ∧ PadsFirst (s.drop 8) := by
  have htake : (s.take 8).length = 8 := List.length_take_of_le h
  have hget : ∀ i < 8, (s.take 8).getD i 0 = s.getD i 0 := by
    intro i hi
    rw [List.getD_eq_getElem?_getD, List.getElem?_take_of_lt hi, ← List.getD_eq_getElem?_getD]
  have hdrop : ∀ i, (s.drop 8).getD i 0 = s.getD (8 + i) 0 := by
    intro i
    rw [List.getD_eq_getElem?_getD, List.getElem?_drop, ← List.getD_eq_getElem?_getD]
  rw [htake]
  constructor
  · refine fun hpad => ⟨fun i hi heq => ?_, fun i hi heq => ?_⟩
    · have := hpad i (by omega) (hget i hi ▸ heq)
      omega
    · rw [List.length_drop] at hi
      have := hpad (8 + i) (by omega) (hdrop i ▸ heq)
      omega
  · rintro ⟨hfirst, hrest⟩ i hi heq
    obtain hlt | hge := Nat.lt_or_ge i 8
    · have := hfirst i hlt ((hget i hlt).trans heq)
      omega
    · obtain ⟨d, rfl⟩ := Nat.exists_eq_add_of_le hge
      have := hrest d (by rw [List.length_drop]; omega) ((hdrop d).trans heq)
      omega

/-- A group of eight, and then the others. -/
theorem base32Groups_succ (h : 8 ≤ s.length) (fuel : ℕ) : base32Groups (fuel + 1) s =
    (base32Group (s.take 8) 0 0).bind fun r =>
      (base32Groups fuel (s.drop 8)).map ((base32Bytes r.1).take (inputOutputMapping.getD r.2 0) ++ ·) := by
  have hne : s ≠ [] := List.ne_nil_of_length_pos (by omega)
  have hmin : min 8 s.length = 8 := by omega
  rw [base32Groups.eq_def]
  cases hs : s with
  | nil => exact absurd hs hne
  | cons c chars =>
    dsimp only
    rw [← hs, hmin, if_neg (lt_irrefl 8)]
    cases base32Group (s.take 8) 0 0 <;> rfl

theorem base32Groups_none (k : ℕ) (hlen : s.length = 8 * k) (hfuel : k ≤ fuel) (h : ¬ ∀ c ∈ s, Base32Char c) :
    base32Groups fuel s = none := by
  induction k generalizing s fuel with
  | zero =>
    obtain rfl := List.length_eq_zero_iff.mp (by omega : s.length = 0)
    exact absurd (List.forall_mem_nil _) h
  | succ k ih =>
    obtain ⟨fuel, rfl⟩ : ∃ n, fuel = n + 1 := ⟨fuel - 1, by omega⟩
    rw [base32Groups_succ (by omega)]
    by_cases hfirst : ∀ c ∈ s.take 8, Base32Char c
    · have hrest : ¬ ∀ c ∈ s.drop 8, Base32Char c := by
        intro hrest
        rw [← List.take_append_drop 8 s] at h
        exact h (List.forall_mem_append.mpr ⟨hfirst, hrest⟩)
      rw [ih (by rw [List.length_drop]; omega) (by omega) hrest]
      cases base32Group (s.take 8) 0 0 <;> rfl
    · rw [base32Group_none hfirst]
      rfl

theorem length_base32Bytes (inbuf : List UInt8) : (base32Bytes inbuf).length = 5 := rfl

/-- The numbers of a group, one for each character. -/
theorem map_base32Value (h : chars.length = 8) :
    chars.map base32Value = (List.range 8).map fun j => UInt8.ofNat ((base32Digit (chars.getD j 0)).getD 0) := by
  refine List.ext_getElem (by rw [List.length_map, List.length_map, List.length_range, h]) fun i hi hi' => ?_
  rw [List.getElem_map, List.getElem_map, List.getElem_range, List.getD_eq_getElem]
  rfl

theorem map_base32Digit (h : chars.length = 8) : chars.map (fun c => (base32Digit c).getD 0) =
    (List.range 8).map fun j => (base32Digit (chars.getD j 0)).getD 0 := by
  refine List.ext_getElem (by rw [List.length_map, List.length_map, List.length_range, h]) fun i hi hi' => ?_
  rw [List.getElem_map, List.getElem_map, List.getElem_range, List.getD_eq_getElem]

/-- How many bytes there are, and that they are the number the characters stand for. -/
theorem base32Groups_some (fuel k : ℕ) (hlen : s.length = 8 * k) (hfuel : k ≤ fuel) (h : ∀ c ∈ s, Base32Char c) :
    ∃ out, base32Groups fuel s = some out ∧ out.length ≤ 5 * k ∧ (out.length = 5 * k ↔ PadsFirst s) ∧
      (PadsFirst s → ∀ n, (out.map UInt8.toNat).foldl (fun n b => 256 * n + b) n =
        (s.map fun c => (base32Digit c).getD 0).foldl (fun n b => 32 * n + b) n) := by
  induction k generalizing s fuel with
  | zero =>
    obtain rfl := List.length_eq_zero_iff.mp (by omega : s.length = 0)
    refine ⟨[], ?_, le_rfl, by simp [PadsFirst], fun _ n => rfl⟩
    cases fuel <;> rfl
  | succ k ih =>
    obtain ⟨fuel, rfl⟩ : ∃ n, fuel = n + 1 := ⟨fuel - 1, by omega⟩
    have htake : (s.take 8).length = 8 := List.length_take_of_le (by omega)
    have hparts := h
    rw [← List.take_append_drop 8 s] at hparts
    obtain ⟨hfirst, hrest⟩ := List.forall_mem_append.mp hparts
    obtain ⟨pad, hgroup, hpad, hzero⟩ := base32Group_some 0 0 hfirst
    obtain ⟨out, hout, hle, hfull, hvalue⟩ := ih (s := s.drop 8) fuel (by rw [List.length_drop]; omega)
      (by omega) hrest
    rw [htake] at hpad
    rw [and_iff_right rfl] at hzero
    have hcount : ((base32Bytes ((s.take 8).map base32Value)).take (inputOutputMapping.getD pad 0)).length =
        if pad = 0 then 5 else inputOutputMapping.getD pad 0 := by
      have hsmall : ∀ pad ≤ 7, min (inputOutputMapping.getD pad 0) 5 =
          if pad = 0 then 5 else inputOutputMapping.getD pad 0 := by decide
      rw [List.length_take, length_base32Bytes, hsmall pad (by omega)]
    have hfew : pad ≠ 0 → inputOutputMapping.getD pad 0 ≤ 4 := by
      have hsmall : ∀ pad ≤ 7, pad ≠ 0 → inputOutputMapping.getD pad 0 ≤ 4 := by decide
      exact hsmall pad (by omega)
    refine ⟨(base32Bytes ((s.take 8).map base32Value)).take (inputOutputMapping.getD pad 0) ++ out, ?_, ?_, ?_, ?_⟩
    · rw [base32Groups_succ (by omega), hgroup, Option.bind_some, hout, Option.map_some]
    · rw [List.length_append, hcount]
      split
      · omega
      · have := hfew ‹_›
        omega
    · rw [padsFirst_iff (by omega), ← hzero, ← hfull, List.length_append, hcount]
      split
      next hz => omega
      next hz =>
        have := hfew hz
        omega
    · intro hpads n
      obtain ⟨hnone, hpads⟩ := (padsFirst_iff (by omega)).mp hpads
      have hsplit : s.map (fun c => (base32Digit c).getD 0) =
          (s.take 8).map (fun c => (base32Digit c).getD 0) ++ (s.drop 8).map fun c => (base32Digit c).getD 0 := by
        rw [← List.map_append, List.take_append_drop]
      have hall : (base32Bytes ((s.take 8).map base32Value)).take (inputOutputMapping.getD pad 0) =
          base32Bytes ((s.take 8).map base32Value) := by
        rw [hzero.mpr hnone]
        exact List.take_of_length_le le_rfl
      rw [hsplit, List.foldl_append, List.map_append, List.foldl_append, hall, hvalue hpads, map_base32Value htake,
        map_base32Digit htake, numeral_base32Bytes fun j => ?_]
      rw [← (base32Value_toNat _).1]
      exact (base32Value_toNat _).2

end Base32

/-! ## The decoders -/

section Decode
variable {c : UInt8} {x out : List UInt8}

/-- Base32 is decoded to 20 bytes just if it is admitted. -/
theorem length_base32decode (h : x.length = 32) : (base32decode x).length = 20 ↔ Admitted x := by
  have hadmitted : Admitted x ↔ (∀ c ∈ x, Base32Char c) ∧ PadsFirst x := by
    have hchars : (∀ c ∈ x, Base32Char c) ↔ ∀ i < 32, Base32Char (x.getD i 0) := by
      constructor
      · intro hall i hi
        rw [List.getD_eq_getElem _ _ (by omega)]
        exact hall _ (List.getElem_mem _)
      · intro hall c hc
        obtain ⟨i, hi, rfl⟩ := List.mem_iff_getElem.mp hc
        rw [← List.getD_eq_getElem x 0 hi]
        exact hall i (by omega)
    have hnot : ∀ c, (base32Digit c).isSome = true → c ≠ ascii '=' := by
      rintro c hc rfl
      revert hc
      decide
    rw [Admitted, or_iff_right (by omega), and_iff_right h, hchars, PadsFirst, h]
    constructor
    · refine fun hall => ⟨fun i hi => (hall i hi).imp_right And.left, fun i hi heq => ?_⟩
      exact ((hall i hi).resolve_left fun hc => hnot _ hc heq).2
    · exact fun ⟨hall, hpads⟩ i hi => (hall i hi).imp_right fun heq => ⟨heq, hpads i hi heq⟩
  rw [hadmitted, base32decode, h]
  by_cases hall : ∀ c ∈ x, Base32Char c
  · obtain ⟨out, hout, -, hfull, -⟩ := base32Groups_some 32 4 h (by decide) hall
    rw [hout, Option.getD_some, and_iff_right hall, ← hfull]
  · rw [base32Groups_none 4 h (by decide) hall]
    exact iff_of_false (by decide) fun hc => hall hc.1

/-- Without padding, the bytes are the number that the characters stand for. -/
theorem base32decode_denotes (h : x.length = 32) (hx : ∀ c ∈ x, (base32Digit c).isSome = true) :
    Denotes x (base32decode x) := by
  have hadmitted : Admitted x := by
    refine .inr ⟨h, fun i hi => .inl (hx _ ?_)⟩
    rw [List.getD_eq_getElem _ _ (by omega)]
    exact List.getElem_mem _
  have hlen := (length_base32decode h).mpr hadmitted
  refine ⟨hlen, .inr ⟨h, ?_⟩⟩
  obtain ⟨out, hout, -, hfull, hvalue⟩ := base32Groups_some 32 4 h (by decide) fun c hc => .inl (hx c hc)
  rw [base32decode, h, hout, Option.getD_some] at hlen ⊢
  exact hvalue (hfull.mp hlen) 0

theorem hexToInt_lt (c : UInt8) : ((hexToInt c).getD 0).toNat < 16 := by
  have hdigit : ∀ low high : UInt8, low ≤ c → c ≤ high → (c - low).toNat ≤ high.toNat - low.toNat := by
    intro low high hlow hhigh
    rw [UInt8.toNat_sub_of_le _ _ hlow]
    exact Nat.sub_le_sub_right (UInt8.le_iff_toNat_le.mp hhigh) _
  rw [hexToInt]
  split
  next h => exact Nat.lt_of_le_of_lt (hdigit _ _ h.1 h.2) (by decide)
  next =>
    split
    next h =>
      have hc := hdigit _ _ h.1 h.2
      rw [Option.getD_some, UInt8.toNat_add]
      exact Nat.lt_of_le_of_lt (Nat.mod_le _ _) (Nat.lt_of_le_of_lt (Nat.add_le_add_right hc _) (by decide))
    next =>
      split
      next h =>
        have hc := hdigit _ _ h.1 h.2
        rw [Option.getD_some, UInt8.toNat_add]
        exact Nat.lt_of_le_of_lt (Nat.mod_le _ _) (Nat.lt_of_le_of_lt (Nat.add_le_add_right hc _) (by decide))
      next => decide

/-- Digits are read as the number that they stand for. -/
theorem fromHex_value (hx : ∀ c ∈ x, (hexDigitValue c).isSome = true) (hlen : x.length = 2 * out.length) (n : ℕ) :
    ((fromHex x out).2.map UInt8.toNat).foldl (fun n b => 256 * n + b) n =
      (x.map fun c => (hexDigitValue c).getD 0).foldl (fun n b => 16 * n + b) n := by
  have hdigit : ∀ c t, hexToInt c = some t → t.toNat < 16 := fun c t h => by
    have hc := hexToInt_lt c
    rwa [h] at hc
  induction out generalizing x n with
  | nil =>
    obtain rfl := List.length_eq_zero_iff.mp (by rw [hlen]; rfl : x.length = 0)
    rfl
  | cons o out ih =>
    rcases x with - | ⟨c₁, - | ⟨c₂, x⟩⟩
    · rw [List.length_nil, List.length_cons] at hlen
      omega
    · rw [List.length_singleton, List.length_cons] at hlen
      omega
    · obtain ⟨h₁, hrest⟩ := List.forall_mem_cons.mp hx
      obtain ⟨h₂, hrest⟩ := List.forall_mem_cons.mp hrest
      rw [hexDigitValue, Option.isSome_map] at h₁ h₂
      obtain ⟨t₁, ht₁⟩ := Option.isSome_iff_exists.mp h₁
      obtain ⟨t₂, ht₂⟩ := Option.isSome_iff_exists.mp h₂
      have hb : (t₁ <<< 4 ||| t₂ &&& 15).toNat = 16 * t₁.toNat + t₂.toNat := by
        have h₁₆ := hdigit _ _ ht₁
        have h₁₅ : (t₂ &&& 15).toNat = t₂.toNat := by
          rw [UInt8.toNat_and]
          exact (Nat.and_two_pow_sub_one_eq_mod _ 4).trans (Nat.mod_eq_of_lt (hdigit _ _ ht₂))
        rw [toNat_shiftLeft_or (n := 4) rfl (by decide) rfl (by omega) h₁₅ (hdigit _ _ ht₂)]
        omega
      simp only [fromHex, ht₁, ht₂, List.map_cons, List.foldl_cons, hexDigitValue, Option.map_some, Option.getD_some]
      rw [hb]
      have hstep : 256 * n + (16 * t₁.toNat + t₂.toNat) = 16 * (16 * n + t₁.toNat) + t₂.toNat := by omega
      rw [hstep]
      exact ih hrest (by simp only [List.length_cons] at hlen; omega) _

theorem hexHash_denotes (h : x.length = 40) (hx : ∀ c ∈ x, (hexDigitValue c).isSome = true) :
    Denotes x (hexHash x).1 :=
  ⟨(hexHash x).2, .inl ⟨h, fromHex_value hx (by rw [h, List.length_replicate]) 0⟩⟩

end Decode

/-! ## The parser -/

section Parse
variable {s : LinkState} {uri : List UInt8} {p : MagnetParams}

theorem topicsOf_cons (param : List UInt8 × List UInt8) (params : List (List UInt8 × List UInt8)) :
    topicsOf (param :: params) = if stringEqualNoCase (stripNumber param.1) (key "xt") = true then
      param.2 :: topicsOf params else topicsOf params := by
  rw [topicsOf, List.filter_cons]
  split <;> rfl

theorem infoHashesOf_cons (param : List UInt8 × List UInt8) (params : List (List UInt8 × List UInt8)) :
    infoHashesOf (param :: params) = if stringEqualNoCase (stripNumber param.1) (key "xt") = true then
      (btihOf param.2).toList ++ infoHashesOf params else infoHashesOf params := by
  rw [infoHashesOf, topicsOf_cons]
  split
  · rw [List.filterMap_cons]
    cases btihOf param.2 <;> rfl
  · rfl

/-- The hash an info-hash is read as, once it is admitted. -/
def hashOf (x : List UInt8) : List UInt8 := if x.length = 40 then (hexHash x).1 else base32decode x

/-- An `xt` parameter is read, passed over, or an error. -/
theorem readTopic_spec (hs : s.ec = .noError) (value : List UInt8) :
    ((readTopic s value).ec = .noError ↔
      (topicText value).isSome = true ∧ ∀ x ∈ btihOf value, Admitted x) ∧
    ((readTopic s value).ec = .noError → (readTopic s value).hasIh = (s.hasIh || (btihOf value).isSome) ∧
      (readTopic s value).p.infoHash.1 = ((btihOf value).map hashOf).getD s.p.infoHash.1) := by
  have htext : (if ascii '%' ∈ value then unescapeString value else (.noError, value)).1 = .noError ↔
      (topicText value).isSome = true := by
    unfold topicText
    split
    · split
      next h => exact iff_of_true h rfl
      next h => exact iff_of_false h Bool.false_ne_true
    · exact iff_of_true rfl rfl
  have hsome : (if ascii '%' ∈ value then unescapeString value else (.noError, value)).1 = .noError →
      topicText value = some (if ascii '%' ∈ value then unescapeString value else (.noError, value)).2 := by
    unfold topicText
    split
    · intro h
      rw [if_pos h]
    · exact fun _ => rfl
  rw [readTopic]
  generalize (if ascii '%' ∈ value then unescapeString value else (.noError, value)) = r at htext hsome
  obtain ⟨ec, text⟩ := r
  dsimp only at htext hsome ⊢
  split
  next hec =>
    refine ⟨iff_of_false hec fun h => hec (htext.mpr h.1), fun h => absurd h hec⟩
  next hec =>
    rw [ne_eq, not_not] at hec
    have htopic := hsome hec
    rw [btihOf, htopic, Option.bind_some]
    split
    next hprefix =>
      have hmem : ∀ x ∈ some (text.drop 9), x = text.drop 9 := fun x hx => (Option.some.inj hx).symm
      split
      next hforty =>
        have hadmitted : Admitted (text.drop 9) := .inl hforty
        refine ⟨iff_of_true hs ⟨rfl, fun x hx => hmem x hx ▸ hadmitted⟩, fun _ => ⟨by simp, ?_⟩⟩
        rw [Option.map_some, Option.getD_some, hashOf, if_pos hforty]
      next hforty =>
        split
        next hlen =>
          split
          next hdecode =>
            have hadmitted := (length_base32decode hlen).mp hdecode
            refine ⟨iff_of_true hs ⟨rfl, fun x hx => hmem x hx ▸ hadmitted⟩, fun _ => ⟨by simp, ?_⟩⟩
            rw [Option.map_some, Option.getD_some, hashOf, if_neg hforty]
          next hdecode =>
            refine ⟨iff_of_false (by simp) fun h => hdecode ?_, fun h => by simp at h⟩
            exact (length_base32decode hlen).mpr (h.2 _ rfl)
        next hlen =>
          refine ⟨iff_of_false (by simp) fun h => ?_, fun h => by simp at h⟩
          exact (h.2 _ rfl).elim hforty fun h => hlen h.1
    next hprefix =>
      exact ⟨iff_of_true hs ⟨rfl, by simp⟩, fun _ => ⟨by simp, rfl⟩⟩

/-- The other parameters leave the hash alone. -/
theorem readParam_not_topic {param : List UInt8 × List UInt8} (hs : s.ec = .noError)
    (h : ¬ stringEqualNoCase (stripNumber param.1) (key "xt") = true) :
    (readParam s param).ec = .noError ∧ (readParam s param).hasIh = s.hasIh ∧
      (readParam s param).p.infoHash = s.p.infoHash := by
  rw [readParam, if_neg (not_not.mpr hs)]
  dsimp only
  split
  · exact ⟨hs, rfl, rfl⟩
  · split
    · unfold readTracker
      dsimp only
      split <;> exact ⟨hs, rfl, rfl⟩
    · exact ⟨hs, rfl, rfl⟩

theorem readParam_eq_readTopic {param : List UInt8 × List UInt8} (hs : s.ec = .noError)
    (h : stringEqualNoCase (stripNumber param.1) (key "xt") = true) : readParam s param = readTopic s param.2 := by
  have hname := of_decide_eq_true h
  have hdn : stringEqualNoCase (stripNumber param.1) (key "dn") = false := by
    rw [stringEqualNoCase, hname]
    decide
  have htr : stringEqualNoCase (stripNumber param.1) (key "tr") = false := by
    rw [stringEqualNoCase, hname]
    decide
  rw [readParam, if_neg (not_not.mpr hs)]
  dsimp only
  rw [hdn, htr, if_neg Bool.false_ne_true, if_neg Bool.false_ne_true, if_pos h]

theorem foldl_readParam_error {params : List (List UInt8 × List UInt8)} (hs : s.ec ≠ .noError) :
    params.foldl readParam s = s := by
  induction params with
  | nil => rfl
  | cons param params ih => rw [List.foldl_cons, readParam, if_pos hs, ih]

/-- The loop accepts the parameters when every info-hash is admitted, and keeps the last one. -/
theorem foldl_readParam_spec (params : List (List UInt8 × List UInt8)) (hs : s.ec = .noError) :
    ((params.foldl readParam s).ec = .noError ↔
      (∀ value ∈ topicsOf params, (topicText value).isSome = true) ∧ ∀ x ∈ infoHashesOf params, Admitted x) ∧
    ((params.foldl readParam s).ec = .noError →
      (params.foldl readParam s).hasIh = (s.hasIh || (infoHashesOf params).getLast?.isSome) ∧
      (params.foldl readParam s).p.infoHash.1 = ((infoHashesOf params).getLast?.map hashOf).getD s.p.infoHash.1) := by
  induction params generalizing s with
  | nil =>
    refine ⟨iff_of_true hs ⟨List.forall_mem_nil _, List.forall_mem_nil _⟩, fun _ => ⟨?_, rfl⟩⟩
    simp [infoHashesOf, topicsOf]
  | cons param params ih =>
    rw [List.foldl_cons, topicsOf_cons, infoHashesOf_cons]
    by_cases htopic : stringEqualNoCase (stripNumber param.1) (key "xt") = true
    · obtain ⟨hiff, hkeeps⟩ := readTopic_spec hs param.2
      rw [readParam_eq_readTopic hs htopic, if_pos htopic, if_pos htopic, List.forall_mem_cons, List.forall_mem_append]
      have hlist : (∀ x ∈ (btihOf param.2).toList, Admitted x) ↔ ∀ x ∈ btihOf param.2, Admitted x := by
        simp only [Option.mem_toList]
        exact Iff.rfl
      rw [hlist]
      by_cases hec : (readTopic s param.2).ec = .noError
      · obtain ⟨hiff', hkeeps'⟩ := ih hec
        obtain ⟨htext, hadmitted⟩ := hiff.mp hec
        obtain ⟨hih, hhash⟩ := hkeeps hec
        refine ⟨hiff'.trans ⟨fun h => ⟨⟨htext, h.1⟩, hadmitted, h.2⟩, fun h => ⟨h.1.2, h.2.2⟩⟩, fun h => ?_⟩
        obtain ⟨hih', hhash'⟩ := hkeeps' h
        rw [hih', hhash', hih, hhash, List.getLast?_append]
        cases (infoHashesOf params).getLast? <;> cases btihOf param.2 <;> simp
      · rw [foldl_readParam_error hec]
        exact ⟨iff_of_false hec fun h => hec (hiff.mpr ⟨h.1.1, h.2.1⟩), fun h => absurd h hec⟩
    · obtain ⟨hec, hih, hhash⟩ := readParam_not_topic hs htopic
      obtain ⟨hiff, hkeeps⟩ := ih hec
      rw [if_neg htopic, if_neg htopic, ← hih, ← hhash]
      exact ⟨hiff, hkeeps⟩

/-- The links without an error are those that are accepted, and the hash is that of the last info-hash. -/
theorem parseMagnetUri_spec (uri : List UInt8) (p : MagnetParams) :
    ((parseMagnetUri uri p).1 = .noError ↔ Accepted uri) ∧
    ((parseMagnetUri uri p).1 = .noError → ∃ x, (infoHashesOf (paramsOf uri)).getLast? = some x ∧
      (parseMagnetUri uri p).2.infoHash.1 = hashOf x) := by
  obtain ⟨hiff, hkeeps⟩ := foldl_readParam_spec (s := { p := p }) (paramsOf uri) rfl
  rw [parseMagnetUri]
  dsimp only
  rw [← paramsOf]
  generalize (paramsOf uri).foldl readParam { p := p } = s at hiff hkeeps
  by_cases hscheme : uri.take 8 = key "magnet:?"
  · rw [if_neg (not_not.mpr hscheme)]
    by_cases hec : s.ec = .noError
    · obtain ⟨htext, hadmitted⟩ := hiff.mp hec
      obtain ⟨hih, hhash⟩ := hkeeps hec
      rw [Bool.false_or] at hih
      rw [if_neg (not_not.mpr hec)]
      cases hlast : (infoHashesOf (paramsOf uri)).getLast? with
      | none =>
        rw [hlast, Option.isSome_none] at hih
        rw [if_pos hih]
        have hnone := List.getLast?_eq_none_iff.mp hlast
        exact ⟨iff_of_false (fun h => by cases h) fun h => h.found hnone, fun h => by cases h⟩
      | some x =>
        rw [hlast, Option.isSome_some] at hih
        rw [hlast] at hhash
        have hne : infoHashesOf (paramsOf uri) ≠ [] := by
          rintro hc
          rw [hc] at hlast
          cases hlast
        rw [if_neg (by rw [hih]; decide)]
        refine ⟨iff_of_true rfl ⟨hscheme, htext, hne, hadmitted⟩, fun _ => ⟨x, rfl, ?_⟩⟩
        split <;> exact hhash
    · rw [if_pos hec]
      exact ⟨iff_of_false hec fun h => hec (hiff.mpr ⟨h.text, h.admitted⟩), fun h => absurd h hec⟩
  · rw [if_pos hscheme]
    exact ⟨iff_of_false (fun h => by cases h) fun h => hscheme h.scheme, fun h => by cases h⟩

theorem WellFormed.denotes {x : List UInt8} (h : WellFormed x) : Denotes x (hashOf x) := by
  unfold hashOf
  rcases h with ⟨hlen, hx⟩ | ⟨hlen, hx⟩
  · rw [if_pos hlen]
    exact hexHash_denotes hlen hx
  · rw [if_neg (by omega)]
    exact base32decode_denotes hlen hx

/-- Without an error, the last info-hash is well formed and denotes the hash, and any other one is an error. -/
def ChecksInfoHash (uri : List UInt8) (p : MagnetParams) : Prop :=
  ((parseMagnetUri uri p).1 = .noError → ∃ x, (infoHashesOf (paramsOf uri)).getLast? = some x ∧ WellFormed x ∧
    Denotes x (parseMagnetUri uri p).2.infoHash.1) ∧
  ∀ x ∈ infoHashesOf (paramsOf uri), ¬ WellFormed x → (parseMagnetUri uri p).1 ≠ .noError

/-- The check of a link is right just when it is not one that is accepted with 40 characters of which some are not
digits, or with padding in front of a group of base32. -/
theorem checksInfoHash_iff (uri : List UInt8) (p : MagnetParams) :
    ChecksInfoHash uri p ↔ ¬ (Accepted uri ∧ ∃ x ∈ infoHashesOf (paramsOf uri), ¬ WellFormed x) := by
  obtain ⟨hiff, hlast⟩ := parseMagnetUri_spec uri p
  rw [ChecksInfoHash, hiff]
  constructor
  · rintro ⟨-, hbad⟩ ⟨hacc, x, hx, hnot⟩
    exact hbad x hx hnot (hiff.mpr hacc)
  · intro h
    have hgood : Accepted uri → ∀ x ∈ infoHashesOf (paramsOf uri), WellFormed x := fun hacc x hx =>
      by_contra fun hnot => h ⟨hacc, x, hx, hnot⟩
    refine ⟨fun hacc => ?_, fun x hx hnot hec => hnot (hgood (hiff.mp hec) x hx)⟩
    obtain ⟨x, hx, hhash⟩ := hlast (hiff.mpr hacc)
    have hwell := hgood hacc x (List.mem_of_getLast? hx)
    refine ⟨x, hx, hwell, ?_⟩
    rw [hhash]
    exact hwell.denotes

/-- 40 characters that are not digits are accepted, as the hash of zeros. -/
theorem checksInfoHash_not :
    ¬ ChecksInfoHash (key "magnet:?xt=urn:btih:zzzzzzzzzzzzzzzzzzzzzzzzzzzzzzzzzzzzzzzz") {} := by
  rintro ⟨-, h⟩
  refine h (List.replicate 40 (ascii 'z')) ?_ ?_ ?_
  · decide +kernel
  · decide +kernel
  · decide +kernel

end Parse

end Magnet

end LibtorrentSN
