import LibtorrentSN.Bencode.Grammar

/-!
# Bencoding: one token

`check_integer` and `parse_int` in terms of the digits they read, and from that what one token of
the buffer is: the first byte of a list or dictionary, an integer, a string or an end.
-/

namespace LibtorrentSN

namespace Bencode

open Value

/-! ## Integers -/

/-- The end of an integer is not a digit. -/
theorem not_numeric_e : ¬ numeric (ascii 'e') := by decide

/-- Nor is the end of a length. -/
theorem not_numeric_colon : ¬ numeric (ascii ':') := by decide

/-- Nor is a sign. -/
theorem not_numeric_minus : ¬ numeric (ascii '-') := by decide

section Digits
variable {buf cs digits rest : List UInt8} {n m : ℕ}

/-- Digits up to an `e` are accepted. -/
theorem checkDigits_of (hd : digits ≠ []) (hnum : ∀ c ∈ digits, numeric c) (n : ℕ)
    (rest : List UInt8) :
    checkDigits (digits ++ ascii 'e' :: rest) n = (n + digits.length, .noError) := by
  induction digits generalizing n with
  | nil => exact absurd rfl hd
  | cons c digits ih =>
    obtain ⟨hc, hnum⟩ := List.forall_mem_cons.mp hnum
    have hne : digits ++ ascii 'e' :: rest ≠ [] :=
      List.append_ne_nil_of_right_ne_nil _ (List.cons_ne_nil _ _)
    rw [List.cons_append, checkDigits, if_neg (not_not.mpr hc), if_neg hne]
    rcases digits with - | ⟨c', digits⟩
    · rfl
    · have hc' : some c' ≠ some (ascii 'e') := by
        intro h
        exact not_numeric_e (Option.some.inj h ▸ hnum _ List.mem_cons_self)
      rw [List.cons_append, List.head?_cons, if_neg hc', ← List.cons_append,
        ih (List.cons_ne_nil _ _) hnum, List.length_cons (a := c), Nat.add_assoc,
        Nat.add_comm 1]

/-- Nothing else is. -/
theorem of_checkDigits (h : (checkDigits cs n).2 = .noError) : ∃ digits rest,
    cs = digits ++ ascii 'e' :: rest ∧ digits ≠ [] ∧ (∀ c ∈ digits, numeric c) := by
  induction cs generalizing n with
  | nil => cases h
  | cons c cs ih =>
    rw [checkDigits] at h
    split_ifs at h with hc h₁ he
    · obtain ⟨cs, rfl⟩ := List.head?_eq_some_iff.mp he
      exact ⟨[c], cs, rfl, List.cons_ne_nil _ _, by simpa using hc⟩
    · obtain ⟨digits, rest, rfl, -, hnum⟩ := ih h
      exact ⟨c :: digits, rest, rfl, List.cons_ne_nil _ _, List.forall_mem_cons.mpr ⟨hc, hnum⟩⟩

/-- The sign of an integer. -/
def signBytes (negative : Bool) : List UInt8 := if negative then [ascii '-'] else []

/-- What is left after the sign. -/
theorem sign_eq (negative : Bool) (hd : digits ≠ []) (hnum : ∀ c ∈ digits, numeric c)
    (rest : List UInt8) :
    (if (signBytes negative ++ (digits ++ rest)).head? = some (ascii '-') then 1 else 0) =
      (signBytes negative).length := by
  cases negative with
  | true => rfl
  | false =>
    obtain ⟨c, digits, rfl⟩ := List.exists_cons_of_ne_nil hd
    refine if_neg fun h => not_numeric_minus ?_
    exact Option.some.inj h ▸ hnum _ List.mem_cons_self

/-- A valid integer is accepted. -/
theorem checkInteger_of {negative : Bool} (hv : (Value.int negative digits).Valid)
    (rest : List UInt8) : checkInteger (signBytes negative ++ digits ++ ascii 'e' :: rest) =
      ((signBytes negative).length + digits.length, .noError) := by
  obtain ⟨hnum, hpos, hmax⟩ := hv
  have hd := List.length_pos_iff.mp hpos
  have hcheck := checkDigits_of hd hnum 0 rest
  rw [Nat.zero_add] at hcheck
  have hne : digits ++ ascii 'e' :: rest ≠ [] :=
    List.append_ne_nil_of_right_ne_nil _ (List.cons_ne_nil _ _)
  rw [List.append_assoc, checkInteger, if_neg (List.append_ne_nil_of_right_ne_nil _ hne)]
  dsimp only
  rw [sign_eq negative hd hnum, List.drop_left, if_neg hne, hcheck, if_neg (Nat.not_lt.mpr hmax)]

/-- What is accepted is a valid integer. -/
theorem of_checkInteger (h : (checkInteger buf).2 = .noError) : ∃ negative digits rest,
    buf = signBytes negative ++ digits ++ ascii 'e' :: rest ∧ (Value.int negative digits).Valid := by
  have hvalid : ∀ {cs : List UInt8}, (checkDigits cs 0).2 = .noError →
      ¬ 20 < (checkDigits cs 0).1 → ∃ digits rest, cs = digits ++ ascii 'e' :: rest ∧
        ∀ negative, (Value.int negative digits).Valid := by
    intro cs hok hmax
    obtain ⟨digits, rest, rfl, hd, hnum⟩ := of_checkDigits hok
    rw [checkDigits_of hd hnum, Nat.zero_add, Nat.not_lt] at hmax
    exact ⟨digits, rest, rfl, fun _ => ⟨hnum, List.length_pos_iff.mpr hd, hmax⟩⟩
  simp only [checkInteger] at h
  split_ifs at h with h₁ hneg h₂ hmax h₂ hmax
  · obtain ⟨cs, rfl⟩ := List.head?_eq_some_iff.mp hneg
    obtain ⟨digits, rest, rfl, hv⟩ := hvalid h hmax
    exact ⟨true, digits, rest, rfl, hv true⟩
  · obtain ⟨digits, rest, heq, hv⟩ := hvalid h hmax
    exact ⟨false, digits, rest, heq, hv false⟩

/-- One more digit. -/
def addDigit (n : ℕ) (c : UInt8) : ℕ := n * 10 + digit c

/-- Digits make a number greater. -/
theorem le_foldl_addDigit (digits : List UInt8) (n : ℕ) : n ≤ digits.foldl addDigit n := by
  induction digits generalizing n with
  | nil => exact Nat.le_refl n
  | cons c digits ih =>
    refine Nat.le_trans ?_ (ih (addDigit n c))
    rw [addDigit]
    omega

/-- Digits up to a delimiter are read, if they make a number of 64 bits. -/
theorem parseInt_of {delimiter : UInt8} (hdel : ¬ numeric delimiter)
    (hnum : ∀ c ∈ digits, numeric c) (read val : ℕ)
    (hmax : ((digits.foldl addDigit val : ℕ) : ℤ) ≤ int64Max) (rest : List UInt8) :
    parseInt delimiter (digits ++ delimiter :: rest) read val =
      ⟨read + digits.length, (digits.foldl addDigit val : ℕ), .noError⟩ := by
  induction digits generalizing read val with
  | nil =>
    rw [List.nil_append, parseInt, if_pos rfl]
    rfl
  | cons c digits ih =>
    obtain ⟨hc, hnum⟩ := List.forall_mem_cons.mp hnum
    have hne : c ≠ delimiter := by
      rintro rfl
      exact hdel hc
    have hle : ((addDigit val c : ℕ) : ℤ) ≤ int64Max := by
      refine Int.le_trans ?_ hmax
      exact_mod_cast le_foldl_addDigit digits (addDigit val c)
    have hstep : ((addDigit val c : ℕ) : ℤ) = (val : ℤ) * 10 + digit c := by
      rw [addDigit]
      push_cast
      rfl
    rw [hstep] at hle
    rw [List.cons_append, parseInt, if_neg hne, if_neg (not_not.mpr hc), if_neg (by omega),
      if_neg (by omega), ← hstep, ih hnum _ _ hmax, List.length_cons, List.foldl_cons,
      Nat.add_right_comm, Nat.add_assoc]

/-- What is read is digits up to a delimiter. -/
theorem of_parseInt {delimiter : UInt8} {read read' val : ℕ} {val' : ℤ}
    (h : parseInt delimiter cs read val = ⟨read', val', .noError⟩)
    (hend : read' ≠ read + cs.length) : ∃ digits rest, cs = digits ++ delimiter :: rest ∧
      (∀ c ∈ digits, numeric c) ∧ read' = read + digits.length ∧
      val' = (digits.foldl addDigit val : ℕ) := by
  induction cs generalizing read val with
  | nil =>
    cases h
    exact absurd rfl hend
  | cons c cs ih =>
    rw [parseInt] at h
    split_ifs at h with hdel hc h₁ h₂
    · cases h
      exact ⟨[], cs, by rw [hdel]; rfl, by simp, rfl, rfl⟩
    · cases h
    · cases h
    · have hstep : ((addDigit val c : ℕ) : ℤ) = (val : ℤ) * 10 + digit c := by
        rw [addDigit]
        push_cast
        rfl
      rw [← hstep] at h
      rw [List.length_cons] at hend
      obtain ⟨digits, rest, rfl, hnum, hread, hval⟩ := ih h (by omega)
      refine ⟨c :: digits, rest, rfl, List.forall_mem_cons.mpr ⟨hc, hnum⟩, ?_, hval⟩
      rw [List.length_cons]
      omega
    · cases h

end Digits

/-! ## One token -/

/-- An integer or a string. -/
def Value.Leaf : Value → Prop
  | .int _ _ => True
  | .str _ _ => True
  | _ => False

/-- The number that the digits make. -/
theorem decimal_cons (c : UInt8) (digits : List UInt8) :
    decimal (c :: digits) = digits.foldl addDigit (digit c) := by
  rw [decimal, List.foldl_cons, Nat.zero_mul, Nat.zero_add]
  rfl

namespace Decoder

/-- The integer or string `v` is read. -/
def leaf (d : Decoder) (v : Value) : Decoder :=
  { d with tokens := d.tokens ++ v.tokens d.start, start := d.start + v.encode.length }

section Token
variable {buf pre cs : List UInt8} {d d' : Decoder} {t : UInt8} {v : Value}

/-- What is left of the buffer. -/
theorem drop_start (hd : d.start = pre.length) (hbuf : buf = pre ++ cs) : buf.drop d.start = cs := by
  rw [hbuf, hd, List.drop_left]

/-- What is left behind the next byte. -/
theorem drop_succ_start (hd : d.start = pre.length) (hbuf : buf = pre ++ t :: cs) :
    buf.drop (d.start + 1) = cs := by
  rw [← List.drop_drop, drop_start hd hbuf, List.drop_one, List.tail_cons]

/-- The next byte. -/
theorem getD_start (hd : d.start = pre.length) (hbuf : buf = pre ++ t :: cs) :
    buf.getD d.start 0 = t := by
  rw [hbuf, hd, List.getD_append_right _ _ _ _ (Nat.le_refl _), Nat.sub_self, List.getD_cons_zero]

/-- An integer in the buffer. -/
theorem encode_int (negative : Bool) (digits : List UInt8) : (Value.int negative digits).encode =
    ascii 'i' :: (signBytes negative ++ digits ++ [ascii 'e']) := rfl

/-- A valid integer is read. -/
theorem readInteger_of (hd : d.start = pre.length) {negative : Bool} {digits rest : List UInt8}
    (hbuf : buf = pre ++ ((Value.int negative digits).encode ++ rest))
    (hv : (Value.int negative digits).Valid) :
    d.readInteger buf = .ok (d.leaf (.int negative digits)) := by
  have hbuf' : buf = pre ++ ascii 'i' :: (signBytes negative ++ digits ++ ascii 'e' :: rest) := by
    rw [hbuf, encode_int, List.cons_append, List.append_assoc, List.singleton_append]
  rw [readInteger, drop_succ_start hd hbuf', checkInteger_of hv, if_neg (not_not.mpr rfl)]
  refine congrArg Except.ok (Decoder.ext ?_ rfl rfl rfl)
  rw [leaf, encode_int]
  simp only [List.length_cons, List.length_append, List.length_nil]
  omega

/-- What is read as an integer is one. -/
theorem of_readInteger (hd : d.start = pre.length) (hbuf : buf = pre ++ ascii 'i' :: cs)
    (h : d.readInteger buf = .ok d') : ∃ v rest, v.Leaf ∧ ascii 'i' :: cs = v.encode ++ rest ∧
      v.Valid ∧ d' = d.leaf v := by
  have hok : (checkInteger cs).2 = .noError := by
    by_contra hc
    rw [readInteger, drop_succ_start hd hbuf, if_pos hc] at h
    cases h
  obtain ⟨negative, digits, rest, rfl, hv⟩ := of_checkInteger hok
  have heq : ascii 'i' :: (signBytes negative ++ digits ++ ascii 'e' :: rest) =
      (Value.int negative digits).encode ++ rest := by
    rw [encode_int, List.cons_append, List.append_assoc _ [ascii 'e'], List.singleton_append]
  rw [heq] at hbuf
  rw [readInteger_of hd hbuf hv] at h
  exact ⟨.int negative digits, rest, trivial, heq, hv, (Except.ok.inj h).symm⟩

/-- A valid string is read. -/
theorem readString_of (hd : d.start = pre.length) (hlen : buf.length ≤ maxOffset)
    {length bytes rest : List UInt8} (hbuf : buf = pre ++ ((Value.str length bytes).encode ++ rest))
    (hv : (Value.str length bytes).Valid) :
    d.readString buf = .ok (d.leaf (.str length bytes)) := by
  obtain ⟨hnum, hpos, hmax, hval⟩ := hv
  obtain ⟨c, digits, rfl⟩ := List.exists_cons_of_ne_nil (List.length_pos_iff.mp hpos)
  obtain ⟨hc, hnum⟩ := List.forall_mem_cons.mp hnum
  have hbuf' : buf = pre ++ c :: (digits ++ ascii ':' :: (bytes ++ rest)) := by
    rw [hbuf, encode]
    simp only [List.cons_append, List.append_assoc]
  have hsize : buf.length = pre.length + 1 + digits.length + 1 + bytes.length + rest.length := by
    rw [hbuf']
    simp only [List.length_append, List.length_cons]
    omega
  rw [decimal_cons] at hval
  have hparse : parseInt (ascii ':') (digits ++ ascii ':' :: (bytes ++ rest)) 0 (digit c : ℕ) =
      ⟨0 + digits.length, (bytes.length : ℕ), .noError⟩ := by
    rw [parseInt_of not_numeric_colon hnum, hval]
    rw [hval]
    have : ((2 ^ 29 - 1 : ℕ) : ℤ) ≤ int64Max := by decide
    have : bytes.length ≤ 2 ^ 29 - 1 := by
      rw [maxOffset] at hlen
      omega
    omega
  rw [readString, getD_start hd hbuf']
  dsimp only
  rw [if_neg (not_not.mpr hc), if_neg (by omega), drop_succ_start hd hbuf', hparse]
  dsimp only
  rw [if_neg (not_not.mpr rfl), if_neg (by omega), if_neg (by omega), if_neg (by omega),
    if_neg (by rw [longStringMaxHeader]; rw [List.length_cons] at hmax; omega)]
  refine congrArg Except.ok (Decoder.ext ?_ rfl ?_ rfl)
  · rw [leaf, encode]
    simp only [List.length_cons, List.length_append, Int.toNat_natCast]
    omega
  · have hheader : d.start + 1 + (0 + digits.length) + 1 - d.start = (c :: digits).length + 1 := by
      rw [List.length_cons]
      omega
    rw [leaf, hheader]
    rfl

/-- What is read as a string is one. -/
theorem of_readString (hd : d.start = pre.length) (hlen : buf.length ≤ maxOffset)
    (hbuf : buf = pre ++ t :: cs)
    (h : d.readString buf = .ok d') : numeric t ∧ ∃ v rest, v.Leaf ∧ t :: cs = v.encode ++ rest ∧
      v.Valid ∧ d' = d.leaf v := by
  have hsize : buf.length = pre.length + 1 + cs.length := by
    rw [hbuf]
    simp only [List.length_append, List.length_cons]
    omega
  have h' := h
  rw [readString, getD_start hd hbuf] at h'
  dsimp only at h'
  rw [drop_succ_start hd hbuf] at h'
  split_ifs at h' with hc h₁ h₂ h₃ h₄ h₅ h₆
  all_goals try (cases h'; done)
  clear h'
  generalize hr : parseInt (ascii ':') cs 0 (digit t : ℕ) = r at h₂ h₃ h₄ h₅ h₆
  obtain ⟨read, val, e⟩ := r
  dsimp only at h₂ h₃ h₄ h₅ h₆
  obtain rfl := not_not.mp h₂
  obtain ⟨digits, rest, rfl, hnum, rfl, rfl⟩ := of_parseInt hr (by omega)
  rw [← decimal_cons] at h₄
  rw [List.length_append, List.length_cons] at hsize
  have heq : t :: (digits ++ ascii ':' :: rest) = (Value.str (t :: digits)
      (rest.take (decimal (t :: digits)))).encode ++ rest.drop (decimal (t :: digits)) := by
    rw [encode, List.append_assoc]
    simp only [List.cons_append, List.take_append_drop]
  have hv : (Value.str (t :: digits) (rest.take (decimal (t :: digits)))).Valid := by
    rw [longStringMaxHeader] at h₆
    refine ⟨List.forall_mem_cons.mpr ⟨hc, hnum⟩, Nat.succ_le_succ (Nat.zero_le _), ?_, ?_⟩
    · rw [List.length_cons]
      omega
    · rw [List.length_take, min_eq_left (by omega)]
  rw [heq] at hbuf
  rw [readString_of hd hlen hbuf hv] at h
  exact ⟨hc, .str _ _, _, trivial, heq, hv, (Except.ok.inj h).symm⟩

/-! ## Which token it is -/

/-- A digit begins a string and nothing else. -/
theorem ne_of_numeric (h : numeric t) :
    t ≠ ascii 'd' ∧ t ≠ ascii 'l' ∧ t ≠ ascii 'i' ∧ t ≠ ascii 'e' := by
  refine ⟨?_, ?_, ?_, ?_⟩ <;> rintro rfl <;> revert h <;> decide

/-- An integer or string is read. -/
theorem readToken_leaf (hd : d.start = pre.length) (hlen : buf.length ≤ maxOffset)
    {rest : List UInt8} (hbuf : buf = pre ++ (v.encode ++ rest)) (hleaf : v.Leaf) (hv : v.Valid) :
    d.readToken buf (buf.getD d.start 0) = .ok (d.leaf v) := by
  cases v with
  | int negative digits =>
    have ht : buf.getD d.start 0 = ascii 'i' := by
      rw [encode_int, List.cons_append] at hbuf
      exact getD_start hd hbuf
    rw [readToken, ht, if_neg (by decide), if_neg (by decide), if_pos rfl, readInteger_of hd hbuf hv]
  | str length bytes =>
    obtain ⟨c, digits, rfl⟩ := List.exists_cons_of_ne_nil (List.length_pos_iff.mp hv.2.1)
    have ht : buf.getD d.start 0 = c := by
      rw [encode, List.cons_append, List.cons_append] at hbuf
      exact getD_start hd hbuf
    obtain ⟨h₁, h₂, h₃, h₄⟩ := ne_of_numeric (hv.1 c List.mem_cons_self)
    rw [readToken, ht, if_neg h₁, if_neg h₂, if_neg h₃, if_neg h₄, readString_of hd hlen hbuf hv]
  | list items => cases hleaf
  | dict items => cases hleaf

/-- A list or a dictionary is opened. -/
theorem readToken_sequence (isDict : Bool) :
    d.readToken buf (sequenceByte isDict) = .ok (d.openSequence (sequenceType isDict)) := by
  cases isDict <;> rfl

/-- It is closed. -/
theorem readToken_end : d.readToken buf (ascii 'e') = d.closeSequence := rfl

/-- There are no other tokens. -/
theorem of_readToken (hd : d.start = pre.length) (hlen : buf.length ≤ maxOffset)
    (hbuf : buf = pre ++ t :: cs) (h : d.readToken buf t = .ok d') :
    (∃ isDict, t = sequenceByte isDict ∧ d' = d.openSequence (sequenceType isDict)) ∨
    (∃ v rest, v.Leaf ∧ t :: cs = v.encode ++ rest ∧ v.Valid ∧ d' = d.leaf v) ∨
    t = ascii 'e' ∧ d.closeSequence = .ok d' := by
  rw [readToken] at h
  split_ifs at h with h₁ h₂ h₃ h₄
  · exact .inl ⟨true, h₁, (Except.ok.inj h).symm⟩
  · exact .inl ⟨false, h₂, (Except.ok.inj h).symm⟩
  · subst h₃
    exact .inr (.inl (of_readInteger hd hbuf h))
  · exact .inr (.inr ⟨h₄, h⟩)
  · exact .inr (.inl (of_readString hd hlen hbuf h).2)

end Token

end Decoder

end Bencode

end LibtorrentSN
