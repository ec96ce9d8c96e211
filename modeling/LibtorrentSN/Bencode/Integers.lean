import LibtorrentSN.Bencode.Tree

/-!
# Bencoding: integers of 64 bits

`integer_to_str` (`src/entry.cpp`) works with negative numbers, so that it can write the lowest one as well. `parse_int`
(`src/bdecode.cpp`) counts upwards and the sign is put on afterwards, and the lowest number is out of its reach.
-/

namespace LibtorrentSN

namespace Bencode

open Value

/-- The digits of a number, without leading zeros. -/
def decimalDigits (n : ℕ) : List UInt8 := (Nat.toDigits 10 n).map ascii

/-- The canonical decimal of an integer. -/
def decimalOf (val : ℤ) : List UInt8 := signBytes (val < 0) ++ decimalDigits val.natAbs

section Write
variable {n : ℕ}

theorem ascii_digitChar {k : ℕ} (hk : k < 10) : ascii k.digitChar = digitByte k := by
  interval_cases k <;> decide

theorem decimalDigits_eq (n : ℕ) : decimalDigits n =
    if n < 10 then [digitByte n] else decimalDigits (n / 10) ++ [digitByte ((n % 10 : ℕ) : ℤ)] := by
  rw [decimalDigits, Nat.toDigits_eq_if (by decide)]
  split_ifs with hn
  · rw [List.map_singleton, ascii_digitChar hn]
  · rw [List.map_append, List.map_singleton, ascii_digitChar (Nat.mod_lt n (by decide)), decimalDigits]

theorem decimal_append (digits : List UInt8) (c : UInt8) : decimal (digits ++ [c]) = decimal digits * 10 + digit c := by
  rw [decimal, decimal, List.foldl_append, List.foldl_cons, List.foldl_nil]

/-- The digits are those of the number. -/
theorem decimalDigits_spec (n : ℕ) : (∀ c ∈ decimalDigits n, numeric c) ∧ decimal (decimalDigits n) = n := by
  induction n using Nat.strong_induction_on with
  | _ n ih =>
    rw [decimalDigits_eq]
    split_ifs with hn
    · obtain ⟨hnum, hdigit⟩ := digitByte_spec hn
      refine ⟨List.forall_mem_singleton.mpr hnum, ?_⟩
      rw [decimal, List.foldl_cons, List.foldl_nil, hdigit, Nat.zero_mul, Nat.zero_add]
    · obtain ⟨hnum, hdigit⟩ := digitByte_spec (Nat.mod_lt n (show 10 > 0 by decide))
      obtain ⟨hnums, hval⟩ := ih (n / 10) (by omega)
      refine ⟨List.forall_mem_append.mpr ⟨hnums, List.forall_mem_singleton.mpr hnum⟩, ?_⟩
      rw [decimal_append, hval, hdigit]
      omega

/-- The slow path writes the digits from the last one on. -/
theorem slowDigits_eq (fuel : ℕ) {n : ℕ} (hn : n < 10 ^ fuel) (hf : 0 < fuel) (str : List UInt8) :
    slowDigits fuel (-(n : ℤ)) str = decimalDigits n ++ str := by
  induction fuel generalizing n str with
  | zero => cases hf
  | succ fuel ih =>
    rw [slowDigits_neg, decimalDigits_eq]
    rcases Nat.lt_or_ge n 10 with hlt | hge
    · rw [if_neg (by omega), if_pos hlt, Nat.mod_eq_of_lt hlt, List.singleton_append]
    · have hdiv : n / 10 < 10 ^ fuel := by
        rw [Nat.pow_succ] at hn
        omega
      have hf' : 0 < fuel := by
        rcases fuel with - | fuel
        · rw [Nat.pow_zero] at hdiv
          omega
        · exact Nat.succ_pos fuel
      rw [if_pos (by omega), if_neg (by omega), ih hdiv hf', List.append_assoc, List.singleton_append]

/-- One more digit in front of the fast path. -/
theorem decimalDigits_succ (hn : 10 ≤ n) :
    decimalDigits n = decimalDigits (n / 10) ++ [digitByte ((n : ℤ) % 10)] := by
  rw [decimalDigits_eq, if_neg (by omega)]
  rfl

/-- The fast path, for numbers of up to five digits. -/
theorem integerToStr_fast_eq (hn : n < 100000) : integerToStr (n : ℤ) = decimalDigits n := by
  have hone : ∀ m < 10, decimalDigits m = [digitByte m] := fun m hm => by rw [decimalDigits_eq, if_pos hm]
  rw [integerToStr]
  split_ifs with h₁ h₂ h₃ h₄ h₅ h₆
  · rw [hone n (by omega)]
  · rw [decimalDigits_succ (by omega), hone _ (by omega), List.singleton_append]
    exact congrArg₂ _ (congrArg digitByte (by omega)) rfl
  · rw [decimalDigits_succ (by omega), decimalDigits_succ (by omega), hone _ (by omega)]
    simp only [List.cons_append, List.nil_append, List.cons.injEq, and_true]
    exact ⟨congrArg digitByte (by omega), congrArg digitByte (by omega)⟩
  · rw [decimalDigits_succ (by omega), decimalDigits_succ (by omega), decimalDigits_succ (by omega), hone _ (by omega)]
    simp only [List.cons_append, List.nil_append, List.cons.injEq, and_true]
    exact ⟨congrArg digitByte (by omega), congrArg digitByte (by omega), congrArg digitByte (by omega)⟩
  · rw [decimalDigits_succ (by omega), decimalDigits_succ (by omega), decimalDigits_succ (by omega),
      decimalDigits_succ (by omega), hone _ (by omega)]
    simp only [List.cons_append, List.nil_append, List.cons.injEq, and_true]
    exact ⟨congrArg digitByte (by omega), congrArg digitByte (by omega), congrArg digitByte (by omega),
      congrArg digitByte (by omega)⟩
  · omega
  · omega

/-- `integer_to_str` writes the canonical decimal, also of the lowest number. -/
theorem integerToStr_eq {val : ℤ} (h₁ : -2 ^ 63 ≤ val) (h₂ : val < 2 ^ 63) : integerToStr val = decimalOf val := by
  rw [decimalOf]
  rcases lt_or_ge val 0 with hneg | hpos
  · obtain ⟨n, rfl⟩ : ∃ n : ℕ, val = -(n : ℤ) := ⟨val.natAbs, by omega⟩
    rw [decide_eq_true hneg, integerToStr, if_neg (by omega), if_neg (by omega), if_neg (by omega), if_neg (by omega),
      if_neg (by omega), if_neg (by omega), slowDigits_eq 21 (by omega) (by decide), Int.natAbs_neg, Int.natAbs_natCast,
      List.append_nil]
    rfl
  · obtain ⟨n, rfl⟩ : ∃ n : ℕ, val = (n : ℤ) := ⟨val.natAbs, by omega⟩
    rw [decide_eq_false (by omega), Int.natAbs_natCast]
    change _ = decimalDigits n
    rcases Nat.lt_or_ge n 100000 with hlt | hge
    · exact integerToStr_fast_eq hlt
    · rw [integerToStr, if_neg (by omega), if_neg (by omega), if_neg (by omega), if_neg (by omega),
        if_neg (by omega), if_pos (by omega), slowDigits_eq 21 (by omega) (by decide), List.append_nil]

end Write

/-! ## Reading -/

section Read
variable {digits rest : List UInt8} {negative : Bool} {i off : ℕ} {v : Value} {vs : List Value}

/-- A number above the limit is an overflow at one of its digits. -/
theorem parseInt_overflow {delimiter : UInt8} (hdel : ¬ numeric delimiter) (hnum : ∀ c ∈ digits, numeric c)
    (read val : ℕ) (hval : (val : ℤ) ≤ int64Max) (hmax : int64Max < ((digits.foldl addDigit val : ℕ) : ℤ))
    (rest : List UInt8) : (parseInt delimiter (digits ++ delimiter :: rest) read val).error = .overflow := by
  induction digits generalizing read val with
  | nil => exact absurd hval (not_le.mpr hmax)
  | cons c digits ih =>
    obtain ⟨hc, hnum⟩ := List.forall_mem_cons.mp hnum
    have hne : c ≠ delimiter := by
      rintro rfl
      exact hdel hc
    have hstep : ((addDigit val c : ℕ) : ℤ) = (val : ℤ) * 10 + digit c := by
      rw [addDigit]
      push_cast
      rfl
    rw [List.cons_append, parseInt, if_neg hne, if_neg (not_not.mpr hc)]
    split_ifs with hten hdigit
    · rfl
    · rfl
    · rw [← hstep]
      exact ih hnum _ _ (by omega) hmax

/-- An integer beyond 64 bits, or the lowest one of 64 bits. -/
theorem BdecodeNode.IsNode.intValue_overflow {n : BdecodeNode} (h : n.IsNode (.int negative digits))
    (hv : (Value.int negative digits).Valid) (hmax : int64Max < (decimal digits : ℤ)) : n.intValue = 0 := by
  obtain ⟨rest, hparse⟩ := h.intValue_parse hv
  have hover := parseInt_overflow not_numeric_e hv.1 0 0 (by decide) hmax rest
  rw [Nat.cast_zero] at hover
  rw [hparse]
  refine if_pos ?_
  rw [hover]
  exact ErrorCode.noConfusion

/-- The number that an integer token stands for. -/
def intOf (negative : Bool) (digits : List UInt8) : ℤ := if negative then -(decimal digits : ℤ) else decimal digits

theorem int_eq_encode (val : ℤ) : ascii 'i' :: (decimalOf val ++ [ascii 'e']) =
    (Value.int (val < 0) (decimalDigits val.natAbs)).encode := by
  rw [Decoder.encode_int, decimalOf]

theorem decimalDigits_valid {val : ℤ} (h₁ : -2 ^ 63 ≤ val) (h₂ : val < 2 ^ 63) :
    (Value.int (val < 0) (decimalDigits val.natAbs)).Valid := by
  refine ⟨(decimalDigits_spec _).1, ?_, ?_⟩
  · rw [decimalDigits, List.length_map]
    exact Nat.length_toDigits_pos
  · rw [decimalDigits, List.length_map, Nat.length_toDigits_le_iff (by decide) (by decide)]
    omega

/-- The integer is written in its canonical form, and read back as it was. -/
def ReadBack (val depthLimit tokenLimit : ℤ) : Prop :=
  integerToStr val = decimalOf val ∧
    let r := bdecode (ascii 'i' :: (integerToStr val ++ [ascii 'e'])) depthLimit tokenLimit
    r.error = .noError ∧ r.node.intValue = val

theorem readBack_iff {val depthLimit tokenLimit : ℤ} (h₁ : -2 ^ 63 ≤ val) (h₂ : val < 2 ^ 63) (hd : 0 < depthLimit)
    (ht : 1 ≤ tokenLimit) : ReadBack val depthLimit tokenLimit ↔ val ≠ -2 ^ 63 := by
  have hv := decimalDigits_valid h₁ h₂
  have hval := (decimalDigits_spec val.natAbs).2
  have hlen : (Value.int (val < 0) (decimalDigits val.natAbs)).encode.length ≤ maxOffset := by
    have hsign : (signBytes (val < 0)).length ≤ 1 := by
      rw [signBytes]
      split_ifs <;> decide
    have hdigits := hv.2.2
    rw [Decoder.encode_int, maxOffset]
    simp only [List.length_cons, List.length_append, List.length_nil]
    omega
  have hbegins : Begins (Value.int (val < 0) (decimalDigits val.natAbs)).encode depthLimit tokenLimit
      (.int (val < 0) (decimalDigits val.natAbs)) := ⟨⟨[], (List.append_nil _).symm⟩, hv, hd, ht⟩
  have hnode : ((Zipper.done (.int (val < 0) (decimalDigits val.natAbs)) tokenLimit).finish _).IsNode _ :=
    finish_isNode hlen (List.append_nil _).symm
  rw [ReadBack, integerToStr_eq h₁ h₂, int_eq_encode, bdecode_of_begins hlen hbegins]
  simp only [true_and]
  constructor
  · -- the lowest number is an overflow, as its digits are read without the sign
    rintro hint rfl
    rw [hnode.intValue_overflow hv (by rw [hval]; decide)] at hint
    revert hint
    decide
  · intro hne
    rw [hnode.intValue_eq hv (by rw [hval, int64Max]; omega), hval]
    rcases lt_or_ge val 0 with hneg | hpos
    · rw [if_pos (decide_eq_true hneg)]
      omega
    · rw [if_neg (by simpa using hpos)]
      omega

/-- The integer token `i` of an accepted buffer. -/
theorem intValue_of_accepted {buf : List UInt8} {depthLimit tokenLimit : ℤ}
    (h : (bdecode buf depthLimit tokenLimit).error = .noError)
    (hi : ((bdecode buf depthLimit tokenLimit).node.token i).type = .integer) :
    ∃ negative digits, ((bdecode buf depthLimit tokenLimit).node.child i).dataSection =
        (Value.int negative digits).encode ∧ (Value.int negative digits).Valid ∧
      (¬ (-2 ^ 63 ≤ intOf negative digits ∧ intOf negative digits < 2 ^ 63) →
        ((bdecode buf depthLimit tokenLimit).node.child i).intValue = 0) := by
  have hlen : buf.length ≤ maxOffset := by
    by_contra hlen
    rw [bdecode, if_pos (not_le.mp hlen)] at h
    cases h
  obtain ⟨v, hv⟩ := begins_of_bdecode hlen h
  obtain ⟨rest, hbuf⟩ := hv.encode
  rw [bdecode_of_begins hlen hv] at hi ⊢
  have hnode : ((Zipper.done v tokenLimit).finish buf).IsNode v := finish_isNode hlen hbuf
  generalize hn : (Zipper.done v tokenLimit).finish buf = n at hi hnode ⊢
  have htokens : n.tokens = v.tokens 0 ++ [.linked (Zipper.done v tokenLimit).start 0 .endToken 0] := by
    rw [← hn, ← tokensAll_singleton]
    rfl
  have hidx : n.idx = 0 := by
    rw [← hn]
    rfl
  have hlt : i < v.tokenCount := by
    -- the token behind the value is an end
    by_contra hc
    rw [BdecodeNode.token, htokens, List.getD_append_right _ _ _ _ (by rw [length_tokens]; omega), length_tokens] at hi
    rcases Nat.eq_zero_or_pos (i - v.tokenCount) with hzero | hpos
    · rw [hzero] at hi
      cases hi
    · rw [List.getD_eq_default _ _ (by rw [List.length_singleton]; omega)] at hi
      cases hi
  obtain ⟨off, -, hholds⟩ := hnode
  rw [hidx] at hholds
  obtain ⟨off', w, hint, hvalid⟩ := BdecodeNode.holds_of_token v 0 off hholds hv.valid i hlt (by
    rw [Nat.zero_add, hi]
    exact TokenType.noConfusion)
  rw [Nat.zero_add] at hint
  obtain ⟨negative, digits, rfl⟩ := BdecodeNode.eq_int_of_type hint hi
  have hchild : (n.child i).IsNode (.int negative digits) := ⟨off', rfl, hint⟩
  refine ⟨negative, digits, hchild.dataSection_eq, hvalid, fun hout => ?_⟩
  refine hchild.intValue_overflow hvalid ?_
  rw [intOf] at hout
  rw [int64Max]
  split_ifs at hout <;> omega

/-- Integers of 64 bits are read back as they were, but for the lowest one, and those that do not fit are 0. -/
theorem int64_readBack (val : ℤ) (buf : List UInt8) (depthLimit tokenLimit : ℤ) (i : ℕ) :
    (-2 ^ 63 ≤ val → val < 2 ^ 63 → 0 < depthLimit → 1 ≤ tokenLimit →
      (ReadBack val depthLimit tokenLimit ↔ val ≠ -2 ^ 63)) ∧
    ((bdecode buf depthLimit tokenLimit).error = .noError →
      ((bdecode buf depthLimit tokenLimit).node.token i).type = .integer →
      ∃ negative digits, ((bdecode buf depthLimit tokenLimit).node.child i).dataSection =
          (Value.int negative digits).encode ∧ (Value.int negative digits).Valid ∧
        (¬ (-2 ^ 63 ≤ intOf negative digits ∧ intOf negative digits < 2 ^ 63) →
          ((bdecode buf depthLimit tokenLimit).node.child i).intValue = 0)) :=
  ⟨fun h₁ h₂ hd ht => readBack_iff h₁ h₂ hd ht, fun h hi => intValue_of_accepted h hi⟩

/-- The lowest number that is still read back, and a number with twenty digits in a list. -/
theorem int64_readBack_edges : ReadBack (-2 ^ 63 + 1) 100 2000000 ∧
    ∃ negative digits, ((bdecode ([108, 105] ++ List.replicate 20 57 ++ [101, 101]) 100 2000000).node.child 1).dataSection =
          (Value.int negative digits).encode ∧ (Value.int negative digits).Valid ∧
        (¬ (-2 ^ 63 ≤ intOf negative digits ∧ intOf negative digits < 2 ^ 63) →
          ((bdecode ([108, 105] ++ List.replicate 20 57 ++ [101, 101]) 100 2000000).node.child 1).intValue = 0) :=
  ⟨((int64_readBack _ [] 100 2000000 0).1 (by decide) (by decide) (by decide) (by decide)).mpr (by decide),
    (int64_readBack 0 _ 100 2000000 1).2 (by decide +kernel) (by decide +kernel)⟩

/-- The lowest number is written, and read as 0. -/
theorem lowest_not_readBack : ¬ ∀ val : ℤ, -2 ^ 63 ≤ val → val < 2 ^ 63 → ReadBack val 100 2000000 := by
  intro hall
  have hint := (hall (-2 ^ 63) (by decide) (by decide)).2.2
  revert hint
  decide +kernel

end Read

end Bencode

end LibtorrentSN
