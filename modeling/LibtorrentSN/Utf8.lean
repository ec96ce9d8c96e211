import Mathlib

/-!
# UTF-8 text

A sequence of bytes is text when it is the encoding of some characters. A suffix of a text may begin
in the middle of a character: it is a text just when its first byte does not continue one.
-/

namespace LibtorrentSN

namespace Utf8

variable {b : UInt8} {s t r : List UInt8} {c : Char} {cs : List Char}

/-- The bytes after the first of a character: `10xxxxxx`. -/
def Continues (b : UInt8) : Prop := 0x80 ≤ b ∧ b ≤ 0xBF

instance : DecidablePred Continues := fun _ => inferInstanceAs (Decidable (_ ∧ _))

/-- The bytes are the encoding of some characters. -/
def IsText (s : List UInt8) : Prop := ∃ cs : List Char, cs.flatMap String.utf8EncodeChar = s

theorem isText_nil : IsText [] := ⟨[], rfl⟩

theorem IsText.append (hs : IsText s) (ht : IsText t) : IsText (s ++ t) := by
  obtain ⟨cs, rfl⟩ := hs
  obtain ⟨ds, rfl⟩ := ht
  exact ⟨cs ++ ds, List.flatMap_append⟩

theorem isText_char (c : Char) : IsText (String.utf8EncodeChar c) := ⟨[c], by simp⟩

theorem continues_ofNat {n : ℕ} : Continues (UInt8.ofNat (n % 64 + 128)) := by
  have hmod : (n % 64 + 128) % 2 ^ 8 = n % 64 + 128 := by omega
  constructor
  · rw [UInt8.le_iff_toNat_le, UInt8.toNat_ofNat', hmod]
    exact Nat.le_add_left _ _
  · rw [UInt8.le_iff_toNat_le, UInt8.toNat_ofNat', hmod]
    change n % 64 + 128 ≤ 191
    omega

theorem not_continues_ofNat {n : ℕ} (h : n < 128 ∨ 192 ≤ n) (hn : n < 256) :
    ¬ Continues (UInt8.ofNat n) := by
  rintro ⟨hlow, hhigh⟩
  rw [UInt8.le_iff_toNat_le, UInt8.toNat_ofNat', Nat.mod_eq_of_lt hn] at hlow hhigh
  change 128 ≤ n at hlow
  change n ≤ 191 at hhigh
  omega

theorem lead_ofNat {n : ℕ} (h : 192 ≤ n) (hn : n < 256) : 0x80 ≤ UInt8.ofNat n := by
  rw [UInt8.le_iff_toNat_le, UInt8.toNat_ofNat', Nat.mod_eq_of_lt hn]
  change 128 ≤ n
  omega

/-- A character is a byte that does not continue one, and bytes that do. Only a character of one byte
begins with an ASCII byte. -/
theorem encodeChar_eq (c : Char) : ∃ b bs, String.utf8EncodeChar c = b :: bs ∧ ¬ Continues b ∧
    (bs = [] ∧ c.val.toNat < 128 ∨ 0x80 ≤ b) ∧ ∀ x ∈ bs, Continues x := by
  have hlead : ∀ {n : ℕ}, 192 ≤ n → n < 256 → ¬ Continues (UInt8.ofNat n) :=
    fun h hn => not_continues_ofNat (.inr h) hn
  fun_cases String.utf8EncodeChar c with
  | case1 v hv =>
    exact ⟨_, _, rfl, not_continues_ofNat (.inl (by omega)) (by omega),
      .inl ⟨rfl, Nat.lt_succ_of_le hv⟩, by simp⟩
  | case2 v _ hv =>
    refine ⟨_, _, rfl, hlead (by omega) (by omega), .inr (lead_ofNat (by omega) (by omega)), ?_⟩
    exact List.forall_mem_singleton.mpr continues_ofNat
  | case3 v _ _ hv =>
    refine ⟨_, _, rfl, hlead (by omega) (by omega), .inr (lead_ofNat (by omega) (by omega)), ?_⟩
    exact List.forall_mem_cons.mpr ⟨continues_ofNat, List.forall_mem_singleton.mpr continues_ofNat⟩
  | case4 v _ _ hv =>
    refine ⟨_, _, rfl, hlead (by omega) (by omega), .inr (lead_ofNat (by omega) (by omega)), ?_⟩
    refine List.forall_mem_cons.mpr ⟨continues_ofNat, ?_⟩
    exact List.forall_mem_cons.mpr ⟨continues_ofNat, List.forall_mem_singleton.mpr continues_ofNat⟩

/-- The bytes of a character that is not ASCII are not ASCII. -/
theorem encodeChar_high (h : 128 ≤ c.val.toNat) : ∀ b ∈ String.utf8EncodeChar c, 0x80 ≤ b := by
  obtain ⟨b, bs, hc, -, hlead, hbs⟩ := encodeChar_eq c
  rw [hc]
  intro x hx
  rcases List.mem_cons.mp hx with rfl | hx
  · rcases hlead with ⟨-, hlow⟩ | hlead
    · omega
    · exact hlead
  · exact (hbs x hx).1

/-! ## Characters from their bytes -/

section bytes

variable {w x y z : UInt8}

theorem ofNat_eq_of_toNat {n : ℕ} (h : x.toNat = n) : UInt8.ofNat n = x := by
  rw [← h, UInt8.ofNat_toNat]

theorem Continues.toNat (h : Continues x) : 128 ≤ x.toNat ∧ x.toNat ≤ 191 :=
  ⟨UInt8.le_iff_toNat_le.mp h.1, UInt8.le_iff_toNat_le.mp h.2⟩

theorem encodeChar_one (hv : c.val.toNat = x.toNat) (hx : x.toNat < 128) :
    String.utf8EncodeChar c = [x] := by
  rw [String.utf8EncodeChar]
  rw [if_pos (by omega), ofNat_eq_of_toNat hv.symm]

theorem isText_ascii (hx : x.toNat < 128) : IsText [x] := by
  have hvalid : x.toNat.isValidChar := .inl (by omega)
  have hx := encodeChar_one (c := Char.ofNatAux _ hvalid) rfl hx
  exact hx ▸ isText_char _

theorem encodeChar_two (hv : c.val.toNat = x.toNat % 32 * 64 + y.toNat % 64)
    (hx : 192 ≤ x.toNat ∧ x.toNat < 224) (hy : Continues y) (hlow : 0x80 ≤ c.val.toNat) :
    String.utf8EncodeChar c = [x, y] := by
  have hy := hy.toNat
  rw [String.utf8EncodeChar]
  rw [if_neg (by omega), if_pos (by omega), ofNat_eq_of_toNat (x := x) (by omega),
    ofNat_eq_of_toNat (x := y) (by omega)]

theorem encodeChar_three
    (hv : c.val.toNat = (x.toNat % 16 * 64 + y.toNat % 64) * 64 + z.toNat % 64)
    (hx : 224 ≤ x.toNat ∧ x.toNat < 240) (hy : Continues y) (hz : Continues z)
    (hlow : 0x800 ≤ c.val.toNat) : String.utf8EncodeChar c = [x, y, z] := by
  have hy := hy.toNat
  have hz := hz.toNat
  rw [String.utf8EncodeChar]
  rw [if_neg (by omega), if_neg (by omega), if_pos (by omega), ofNat_eq_of_toNat (x := x) (by omega),
    ofNat_eq_of_toNat (x := y) (by omega), ofNat_eq_of_toNat (x := z) (by omega)]

theorem encodeChar_four
    (hv : c.val.toNat = ((w.toNat % 8 * 64 + x.toNat % 64) * 64 + y.toNat % 64) * 64 + z.toNat % 64)
    (hw : 240 ≤ w.toNat ∧ w.toNat < 248) (hx : Continues x) (hy : Continues y) (hz : Continues z)
    (hlow : 0x10000 ≤ c.val.toNat) : String.utf8EncodeChar c = [w, x, y, z] := by
  have hx := hx.toNat
  have hy := hy.toNat
  have hz := hz.toNat
  rw [String.utf8EncodeChar]
  rw [if_neg (by omega), if_neg (by omega), if_neg (by omega), ofNat_eq_of_toNat (x := w) (by omega),
    ofNat_eq_of_toNat (x := x) (by omega), ofNat_eq_of_toNat (x := y) (by omega),
    ofNat_eq_of_toNat (x := z) (by omega)]

end bytes

/-! ## The grammar -/

/-- The sequences of RFC 3629: one to four bytes, the shortest that hold the value, none for a
surrogate or for a value above `10FFFF`. -/
inductive Sequence : List UInt8 → Prop
  | one {x : UInt8} (hx : x ≤ 0x7F) : Sequence [x]
  | two {x y : UInt8} (hx : 0xC2 ≤ x ∧ x ≤ 0xDF) (hy : Continues y) : Sequence [x, y]
  | three {x y z : UInt8} (hx : 0xE0 ≤ x ∧ x ≤ 0xEF) (hy : Continues y) (hz : Continues z)
      (short : x = 0xE0 → 0xA0 ≤ y) (surrogate : x = 0xED → y ≤ 0x9F) : Sequence [x, y, z]
  | four {w x y z : UInt8} (hw : 0xF0 ≤ w ∧ w ≤ 0xF4) (hx : Continues x) (hy : Continues y)
      (hz : Continues z) (short : w = 0xF0 → 0x90 ≤ x) (high : w = 0xF4 → x ≤ 0x8F) :
      Sequence [w, x, y, z]

theorem toNat_ofNat_of_lt {n : ℕ} (h : n < 256) : (UInt8.ofNat n).toNat = n := by
  rw [UInt8.toNat_ofNat', Nat.mod_eq_of_lt h]

/-- A sequence encodes a character. -/
theorem Sequence.exists_char (h : Sequence s) : ∃ c : Char, String.utf8EncodeChar c = s := by
  cases h with
  | @one x hx =>
    have hx : x.toNat ≤ 127 := UInt8.le_iff_toNat_le.mp hx
    have hvalid : x.toNat.isValidChar := .inl (by omega)
    exact ⟨Char.ofNatAux _ hvalid, encodeChar_one rfl (by omega)⟩
  | @two x y hx hy =>
    have hlow : 194 ≤ x.toNat := UInt8.le_iff_toNat_le.mp hx.1
    have hhigh : x.toNat ≤ 223 := UInt8.le_iff_toNat_le.mp hx.2
    have hvalid : (x.toNat % 32 * 64 + y.toNat % 64).isValidChar := .inl (by omega)
    refine ⟨Char.ofNatAux _ hvalid, encodeChar_two rfl (by omega) hy ?_⟩
    change 128 ≤ x.toNat % 32 * 64 + y.toNat % 64
    omega
  | @three x y z hx hy hz short surrogate =>
    have hlow : 224 ≤ x.toNat := UInt8.le_iff_toNat_le.mp hx.1
    have hhigh : x.toNat ≤ 239 := UInt8.le_iff_toNat_le.mp hx.2
    have hshort : x.toNat = 224 → 160 ≤ y.toNat :=
      fun heq => UInt8.le_iff_toNat_le.mp (short (UInt8.toNat_inj.mp heq))
    have hsurrogate : x.toNat = 237 → y.toNat ≤ 159 :=
      fun heq => UInt8.le_iff_toNat_le.mp (surrogate (UInt8.toNat_inj.mp heq))
    have hyb := hy.toNat
    have hvalid : ((x.toNat % 16 * 64 + y.toNat % 64) * 64 + z.toNat % 64).isValidChar := by
      rw [Nat.isValidChar]
      omega
    refine ⟨Char.ofNatAux _ hvalid, encodeChar_three rfl (by omega) hy hz ?_⟩
    change 2048 ≤ (x.toNat % 16 * 64 + y.toNat % 64) * 64 + z.toNat % 64
    omega
  | @four w x y z hw hx hy hz short high =>
    have hlow : 240 ≤ w.toNat := UInt8.le_iff_toNat_le.mp hw.1
    have hhigh : w.toNat ≤ 244 := UInt8.le_iff_toNat_le.mp hw.2
    have hshort : w.toNat = 240 → 144 ≤ x.toNat :=
      fun heq => UInt8.le_iff_toNat_le.mp (short (UInt8.toNat_inj.mp heq))
    have htop : w.toNat = 244 → x.toNat ≤ 143 :=
      fun heq => UInt8.le_iff_toNat_le.mp (high (UInt8.toNat_inj.mp heq))
    have hxb := hx.toNat
    have hvalid : (((w.toNat % 8 * 64 + x.toNat % 64) * 64 + y.toNat % 64) * 64 +
        z.toNat % 64).isValidChar := by
      rw [Nat.isValidChar]
      omega
    refine ⟨Char.ofNatAux _ hvalid, encodeChar_four rfl (by omega) hx hy hz ?_⟩
    change 65536 ≤ ((w.toNat % 8 * 64 + x.toNat % 64) * 64 + y.toNat % 64) * 64 + z.toNat % 64
    omega

/-- The encoding of a character is a sequence. -/
theorem sequence_char (c : Char) : Sequence (String.utf8EncodeChar c) := by
  have hvalid : c.val.toNat < 0xd800 ∨ 0xdfff < c.val.toNat ∧ c.val.toNat < 0x110000 := c.valid
  fun_cases String.utf8EncodeChar c with
  | case1 v hv =>
    refine .one (UInt8.le_iff_toNat_le.mpr ?_)
    rw [toNat_ofNat_of_lt (by omega)]
    exact hv
  | case2 v _ hv =>
    refine .two ?_ continues_ofNat
    simp only [UInt8.le_iff_toNat_le]
    rw [toNat_ofNat_of_lt (by omega)]
    change 194 ≤ _ ∧ _ ≤ 223
    omega
  | case3 v _ _ hv =>
    refine .three ?_ continues_ofNat continues_ofNat ?_ ?_
    · simp only [UInt8.le_iff_toNat_le]
      rw [toNat_ofNat_of_lt (by omega)]
      change 224 ≤ _ ∧ _ ≤ 239
      omega
    · rw [← UInt8.toNat_inj, UInt8.le_iff_toNat_le, toNat_ofNat_of_lt (by omega),
        toNat_ofNat_of_lt (by omega)]
      change _ = 224 → 160 ≤ _
      omega
    · rw [← UInt8.toNat_inj, UInt8.le_iff_toNat_le, toNat_ofNat_of_lt (by omega),
        toNat_ofNat_of_lt (by omega)]
      change _ = 237 → _ ≤ 159
      omega
  | case4 v _ _ hv =>
    refine .four ?_ continues_ofNat continues_ofNat continues_ofNat ?_ ?_
    · simp only [UInt8.le_iff_toNat_le]
      rw [toNat_ofNat_of_lt (by omega)]
      change 240 ≤ _ ∧ _ ≤ 244
      omega
    · rw [← UInt8.toNat_inj, UInt8.le_iff_toNat_le, toNat_ofNat_of_lt (by omega),
        toNat_ofNat_of_lt (by omega)]
      change _ = 240 → 144 ≤ _
      omega
    · rw [← UInt8.toNat_inj, UInt8.le_iff_toNat_le, toNat_ofNat_of_lt (by omega),
        toNat_ofNat_of_lt (by omega)]
      change _ = 244 → _ ≤ 143
      omega

/-- Any number of sequences, one after the other. -/
def WellFormed (s : List UInt8) : Prop := ∃ qs : List (List UInt8), (∀ q ∈ qs, Sequence q) ∧
  qs.flatten = s

theorem wellFormed_iff : WellFormed s ↔ IsText s := by
  constructor
  · rintro ⟨qs, hqs, rfl⟩
    induction qs with
    | nil => exact isText_nil
    | cons q qs ih =>
      obtain ⟨hq, htail⟩ := List.forall_mem_cons.mp hqs
      obtain ⟨c, rfl⟩ := hq.exists_char
      exact (isText_char c).append (ih htail)
  · rintro ⟨cs, rfl⟩
    refine ⟨cs.map String.utf8EncodeChar, ?_, rfl⟩
    intro q hq
    obtain ⟨c, -, rfl⟩ := List.mem_map.mp hq
    exact sequence_char c

/-! ## Suffixes -/

theorem IsText.not_continues (hs : IsText (b :: s)) : ¬ Continues b := by
  obtain ⟨cs, hcs⟩ := hs
  cases cs with
  | nil => cases hcs
  | cons c cs =>
    obtain ⟨b', bs, hc, hb', -, -⟩ := encodeChar_eq c
    rw [List.flatMap_cons, hc, List.cons_append] at hcs
    obtain ⟨rfl, -⟩ := List.cons.inj hcs
    exact hb'

/-- What follows an ASCII character is a text again. -/
theorem IsText.tail (hs : IsText (b :: s)) (hb : b < 0x80) : IsText s := by
  obtain ⟨cs, hcs⟩ := hs
  cases cs with
  | nil => cases hcs
  | cons c cs =>
    rw [List.flatMap_cons] at hcs
    obtain ⟨b', bs, hc, -, hlead, -⟩ := encodeChar_eq c
    rw [hc, List.cons_append] at hcs
    obtain ⟨rfl, hs⟩ := List.cons.inj hcs
    rcases hlead with ⟨rfl, -⟩ | hlead
    · exact ⟨cs, hs⟩
    · exact absurd hb (UInt8.not_lt.mpr hlead)

/-- A suffix of two lists one after the other begins in the first or is a suffix of the second. -/
theorem suffix_append_cases {α : Type*} {r s t : List α} (h : r <:+ s ++ t) :
    (∃ u, u <:+ s ∧ r = u ++ t) ∨ r <:+ t := by
  induction s with
  | nil => exact .inr h
  | cons a s ih =>
    rw [List.cons_append, List.suffix_cons_iff] at h
    rcases h with rfl | h
    · exact .inl ⟨a :: s, List.suffix_rfl, rfl⟩
    · exact (ih h).imp (fun ⟨u, hu, hr⟩ => ⟨u, hu.trans (List.suffix_cons a s), hr⟩) id

theorem IsText.suffix (hs : IsText s) (hr : r <:+ s) (hb : ∀ b ∈ r.head?, ¬ Continues b) :
    IsText r := by
  obtain ⟨cs, rfl⟩ := hs
  -- the suffix begins in the first character or after it
  induction cs with
  | nil =>
    rw [List.flatMap_nil, List.suffix_nil] at hr
    exact hr ▸ isText_nil
  | cons c cs ih =>
    rw [List.flatMap_cons] at hr
    rcases suffix_append_cases hr with ⟨u, hu, rfl⟩ | hr
    · obtain ⟨b, bs, hc, -, -, hbs⟩ := encodeChar_eq c
      rw [hc, List.suffix_cons_iff] at hu
      rcases hu with rfl | hu
      · exact (hc ▸ isText_char c).append ⟨cs, rfl⟩
      · cases u with
        | nil => exact ⟨cs, rfl⟩
        | cons x xs => exact absurd (hbs x (hu.subset (List.mem_cons_self ..))) (hb x rfl)
    · exact ih hr

/-- A suffix of a text is a text when it does not begin inside a character. -/
theorem IsText.suffix_iff (hs : IsText s) (hr : r <:+ s) :
    IsText r ↔ ∀ b ∈ r.head?, ¬ Continues b := by
  constructor
  · intro h b hb
    cases r with
    | nil => cases hb
    | cons x xs =>
      obtain rfl := Option.some.inj hb
      exact h.not_continues
  · exact hs.suffix hr

end Utf8

end LibtorrentSN
