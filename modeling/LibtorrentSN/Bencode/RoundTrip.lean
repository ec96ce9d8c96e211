import LibtorrentSN.Bencode.Entry

/-!
# Bencoding: the round trip

What `bencode` writes is a value of the grammar. `bdecode` reads it, and the entry made from the
node it returns is the one that was written.
-/

namespace LibtorrentSN

namespace Bencode

open Value

/-! ## Digits -/

section Digits
variable {n : ℕ}

theorem digitByte_spec {k : ℕ} (hk : k < 10) : numeric (digitByte k) ∧ digit (digitByte k) = k := by
  interval_cases k <;> decide

theorem slowDigits_neg (fuel n : ℕ) (str : List UInt8) :
    slowDigits (fuel + 1) (-(n : ℤ)) str = if n / 10 ≠ 0 then
      slowDigits fuel (-((n / 10 : ℕ) : ℤ)) (digitByte ((n % 10 : ℕ) : ℤ) :: str)
    else digitByte ((n % 10 : ℕ) : ℤ) :: str := by
  have hmod : -(-(n : ℤ)).tmod 10 = ((n % 10 : ℕ) : ℤ) := by
    rw [Int.neg_tmod, neg_neg]
    rfl
  have hdiv : (-(n : ℤ)).tdiv 10 = -((n / 10 : ℕ) : ℤ) := by
    rw [Int.neg_tdiv]
    rfl
  rw [slowDigits, hmod, hdiv]
  exact if_congr (by omega) rfl rfl

/-- The digits of the slow path are those of the number. -/
theorem slowDigits_spec (fuel : ℕ) {n : ℕ} (hn : n < 10 ^ fuel) (hf : 0 < fuel) (str : List UInt8)
    (hstr : ∀ c ∈ str, numeric c) :
    (∀ c ∈ slowDigits fuel (-(n : ℤ)) str, numeric c) ∧
      (slowDigits fuel (-(n : ℤ)) str).foldl addDigit 0 = str.foldl addDigit n ∧
      str.length < (slowDigits fuel (-(n : ℤ)) str).length ∧
      ∀ k, 0 < k → n < 10 ^ k → (slowDigits fuel (-(n : ℤ)) str).length ≤ k + str.length := by
  induction fuel generalizing n str with
  | zero => cases hf
  | succ fuel ih =>
    obtain ⟨hnum, hdig⟩ := digitByte_spec (Nat.mod_lt n (show 10 > 0 by decide))
    set c := digitByte ((n % 10 : ℕ) : ℤ) with hc
    have hstr' : ∀ c' ∈ c :: str, numeric c' := List.forall_mem_cons.mpr ⟨hnum, hstr⟩
    rw [slowDigits_neg, ← hc]
    split_ifs with hzero
    · have hlt : n / 10 < 10 ^ fuel := by
        rw [Nat.pow_succ] at hn
        omega
      have hf' : 0 < fuel := by
        rcases fuel with - | fuel
        · rw [Nat.pow_zero] at hlt
          omega
        · exact Nat.succ_pos fuel
      obtain ⟨h₁, h₂, h₃, h₄⟩ := ih hlt hf' (c :: str) hstr'
      refine ⟨h₁, ?_, ?_, fun k hk hnk => ?_⟩
      · rw [h₂, List.foldl_cons, addDigit, hdig, Nat.div_add_mod' n 10]
      · rw [List.length_cons] at h₃
        omega
      · obtain ⟨k, rfl⟩ : ∃ k', k = k' + 1 := ⟨k - 1, by omega⟩
        rw [Nat.pow_succ] at hnk
        have hk' : 0 < k := by
          rcases k with - | k
          · rw [Nat.pow_zero] at hnk
            omega
          · exact Nat.succ_pos k
        have := h₄ k hk' (by omega)
        rw [List.length_cons] at this
        omega
    · refine ⟨hstr', ?_, Nat.lt_succ_self _, fun k hk _ => ?_⟩
      · rw [List.foldl_cons, addDigit, hdig]
        congr 1
        omega
      · rw [List.length_cons]
        omega

/-- The digits of a number, without its sign. -/
def digitsOf (val : ℤ) : List UInt8 := (integerToStr val).drop (signBytes (val < 0)).length

/-- What `integer_to_str` writes. -/
structure Decimal (n : ℕ) (digits : List UInt8) : Prop where
  numeric : ∀ c ∈ digits, numeric c
  value : decimal digits = n
  pos : 1 ≤ digits.length
  length : ∀ k, 0 < k → n < 10 ^ k → digits.length ≤ k

theorem decimal_fast (ks : List ℕ) (hks : ∀ k ∈ ks, k < 10) (hne : ks ≠ [])
    (hval : ks.foldl (fun n k => n * 10 + k) 0 = n) (hlen : ks.length = 1 ∨ 10 ^ (ks.length - 1) ≤ n) :
    Decimal n (ks.map fun k : ℕ => digitByte (k : ℤ)) := by
  have hfold : ∀ (ks : List ℕ) (m : ℕ), (∀ k ∈ ks, k < 10) →
      (ks.map fun k : ℕ => digitByte (k : ℤ)).foldl addDigit m =
        ks.foldl (fun n k => n * 10 + k) m := by
    intro ks
    induction ks with
    | nil => exact fun m _ => rfl
    | cons k ks ih =>
      intro m h
      obtain ⟨hk, h⟩ := List.forall_mem_cons.mp h
      rw [List.map_cons, List.foldl_cons, List.foldl_cons, ih _ h, addDigit, (digitByte_spec hk).2]
  refine ⟨fun c hc => ?_, ?_, ?_, fun k hk hnk => ?_⟩
  · obtain ⟨k, hk, rfl⟩ := List.mem_map.mp hc
    exact (digitByte_spec (hks k hk)).1
  · exact (hfold ks 0 hks).trans hval
  · rw [List.length_map]
    exact List.length_pos_iff.mpr hne
  · rw [List.length_map]
    rcases hlen with h | h
    · omega
    · have := (Nat.pow_lt_pow_iff_right (show 1 < 10 by decide)).mp (Nat.lt_of_le_of_lt h hnk)
      omega

/-- The fast path, for numbers of up to five digits. -/
theorem integerToStr_fast (hn : n < 100000) : Decimal n (integerToStr (n : ℤ)) := by
  have hlt : ∀ m : ℕ, m % 10 < 10 := fun m => Nat.mod_lt m (by decide)
  rw [integerToStr]
  split_ifs with h₁ h₂ h₃ h₄ h₅ h₆
  · exact decimal_fast (n := n) [n] (by simp; omega) (by simp) (by simp) (.inl rfl)
  · exact decimal_fast (n := n) [n / 10 % 10, n % 10] (by simp [hlt]) (by simp)
      (by simp; omega) (.inr (by simp; omega))
  · exact decimal_fast (n := n) [n / 100 % 10, n / 10 % 10, n % 10] (by simp [hlt]) (by simp)
      (by simp; omega) (.inr (by simp; omega))
  · exact decimal_fast (n := n) [n / 1000 % 10, n / 100 % 10, n / 10 % 10, n % 10]
      (by simp [hlt]) (by simp) (by simp; omega) (.inr (by simp; omega))
  · exact decimal_fast (n := n)
      [n / 10000 % 10, n / 1000 % 10, n / 100 % 10, n / 10 % 10, n % 10]
      (by simp [hlt]) (by simp) (by simp; omega) (.inr (by simp; omega))
  · omega
  · omega

theorem slowDigits_decimal (hn : n < 2 ^ 63) : Decimal n (slowDigits 21 (-(n : ℤ)) []) := by
  obtain ⟨h₁, h₂, h₃, h₄⟩ := slowDigits_spec 21 (n := n) (by omega) (by decide) [] (by simp)
  exact ⟨h₁, h₂, h₃, h₄⟩

theorem integerToStr_spec {val : ℤ} (h₁ : -2 ^ 63 < val) (h₂ : val < 2 ^ 63) :
    integerToStr val = signBytes (val < 0) ++ digitsOf val ∧ Decimal val.natAbs (digitsOf val) := by
  rcases lt_or_ge val 0 with hneg | hpos
  · obtain ⟨n, rfl⟩ : ∃ n : ℕ, val = -(n : ℤ) := ⟨val.natAbs, by omega⟩
    have hstr : integerToStr (-(n : ℤ)) = ascii '-' :: slowDigits 21 (-(n : ℤ)) [] := by
      rw [integerToStr, if_neg (by omega), if_neg (by omega), if_neg (by omega), if_neg (by omega),
        if_neg (by omega), if_neg (by omega)]
    have hdigits : digitsOf (-(n : ℤ)) = slowDigits 21 (-(n : ℤ)) [] := by
      rw [digitsOf, decide_eq_true hneg, hstr]
      rfl
    rw [hdigits, hstr, decide_eq_true hneg, Int.natAbs_neg, Int.natAbs_natCast]
    exact ⟨rfl, slowDigits_decimal (by omega)⟩
  · obtain ⟨n, rfl⟩ : ∃ n : ℕ, val = (n : ℤ) := ⟨val.natAbs, by omega⟩
    have hdigits : digitsOf (n : ℤ) = integerToStr (n : ℤ) := by
      rw [digitsOf, decide_eq_false (by omega)]
      rfl
    rw [hdigits, decide_eq_false (by omega), Int.natAbs_natCast]
    refine ⟨rfl, ?_⟩
    rcases Nat.lt_or_ge n 100000 with hlt | hge
    · exact integerToStr_fast hlt
    · rw [integerToStr, if_neg (by omega), if_neg (by omega), if_neg (by omega), if_neg (by omega),
        if_neg (by omega), if_pos (by omega)]
      exact slowDigits_decimal (by omega)

end Digits

/-! ## What is written -/

namespace Entry

mutual

/-- The value that is written for an entry. -/
def value : Entry → Value
  | .int val => .int (val < 0) (digitsOf val)
  | .string val => .str (integerToStr val.length) val
  | .list val => .list (values val)
  | .dict val => .dict (members val)
  | .preformatted _ => .str [] []
  | .undefined => .str [] []

def values : List Entry → List Value
  | [] => []
  | e :: es => e.value :: values es

def members : List (List UInt8 × Entry) → List Value
  | [] => []
  | (key, e) :: es => .str (integerToStr key.length) key :: e.value :: members es

end

variable {out : List UInt8}

theorem bencodeString_eq (out val : List UInt8) : bencodeString out val =
    (out ++ (Value.str (integerToStr val.length) val).encode,
      (Value.str (integerToStr val.length) val).encode.length) := by
  simp only [bencodeString, writeInteger, writeChar, writeString, encode, List.append_assoc,
    List.length_append, List.length_cons, List.cons_append, List.nil_append]
  rfl

mutual

/-- `bencode` writes the value and returns its size. -/
theorem bencodeRecursive_eq : ∀ (e : Entry) (out : List UInt8), e.Plain →
    bencodeRecursive out e = (out ++ e.value.encode, e.value.encode.length)
  | .int val, out, h => by
    have hstr := (integerToStr_spec h.1 h.2).1
    rw [value, Decoder.encode_int, ← hstr]
    simp only [bencodeRecursive, writeChar, writeInteger, List.append_assoc,
      List.cons_append, List.length_append, List.length_cons, List.length_nil, List.nil_append]
  | .string val, out, _ => bencodeString_eq out val
  | .list val, out, h => by
    simp only [bencodeRecursive, bencodeList_eq val _ h, value, encode, writeChar, List.append_assoc,
      List.cons_append, List.nil_append, List.length_append, List.length_cons, List.length_nil]
  | .dict val, out, h => by
    simp only [bencodeRecursive, bencodeDict_eq val _ h.2, value, encode, writeChar, List.append_assoc,
      List.cons_append, List.nil_append, List.length_append, List.length_cons, List.length_nil]
  | .preformatted _, _, h => h.elim
  | .undefined, _, h => h.elim

theorem bencodeList_eq : ∀ (es : List Entry) (out : List UInt8), PlainList es →
    bencodeList out es = (out ++ encodeAll (values es), (encodeAll (values es)).length)
  | [], out, _ => by
    rw [bencodeList, values, encodeAll, List.append_nil]
    rfl
  | e :: es, out, h => by
    simp only [bencodeList, bencodeRecursive_eq e _ h.1, bencodeList_eq es _ h.2, values, encodeAll,
      List.append_assoc, List.length_append]

theorem bencodeDict_eq : ∀ (es : List (List UInt8 × Entry)) (out : List UInt8), PlainDict es →
    bencodeDict out es = (out ++ encodeAll (members es), (encodeAll (members es)).length)
  | [], out, _ => by
    rw [bencodeDict, members, encodeAll, List.append_nil]
    rfl
  | (key, e) :: es, out, h => by
    simp only [bencodeDict, bencodeString_eq, bencodeRecursive_eq e _ h.1, bencodeDict_eq es _ h.2,
      members, encodeAll, List.append_assoc, List.length_append, Nat.add_assoc]

end

theorem bencode_eq {e : Entry} (h : e.Plain) :
    bencode e = (e.value.encode, e.value.encode.length) := by
  rw [bencode, bencodeRecursive_eq e [] h, List.nil_append]

/-! ## The value is one of the grammar -/

theorem str_valid {s : List UInt8} (h : s.length ≤ maxOffset) :
    (Value.str (integerToStr s.length) s).Valid := by
  rw [maxOffset] at h
  have hmin : -2 ^ 63 < (s.length : ℤ) := by omega
  obtain ⟨hstr, hd⟩ := integerToStr_spec hmin (by omega)
  rw [decide_eq_false (by omega)] at hstr
  rw [show integerToStr (s.length : ℤ) = digitsOf s.length from hstr]
  have hlen := hd.length 16 (by decide) (by rw [Int.natAbs_natCast]; omega)
  exact ⟨hd.numeric, hd.pos, by omega, hd.value⟩

theorem members_members : ∀ es : List (List UInt8 × Entry), Bencode.members (members es)
  | [] => trivial
  | (_, _) :: es => members_members es

mutual

theorem value_valid : ∀ e : Entry, e.Plain → e.value.encode.length ≤ maxOffset → e.value.Valid
  | .int val, h, _ => by
    have hd := (integerToStr_spec h.1 h.2).2
    obtain ⟨h₁, h₂⟩ := h
    exact ⟨hd.numeric, hd.pos, hd.length 20 (by decide) (by omega)⟩
  | .string val, _, hlen => by
    refine str_valid ?_
    rw [value, encode, List.length_append, List.length_cons] at hlen
    omega
  | .list val, h, hlen => by
    rw [value, encode, List.length_cons, List.length_append] at hlen
    exact values_valid val h (by omega)
  | .dict val, h, hlen => by
    rw [value, encode, List.length_cons, List.length_append] at hlen
    exact ⟨members_members val, members_valid val h.2 (by omega)⟩
  | .preformatted _, h, _ => h.elim
  | .undefined, h, _ => h.elim

theorem values_valid : ∀ es : List Entry, PlainList es →
    (encodeAll (values es)).length ≤ maxOffset → ValidAll (values es)
  | [], _, _ => trivial
  | e :: es, h, hlen => by
    rw [values, encodeAll, List.length_append] at hlen
    exact ⟨value_valid e h.1 (by omega), values_valid es h.2 (by omega)⟩

theorem members_valid : ∀ es : List (List UInt8 × Entry), PlainDict es →
    (encodeAll (members es)).length ≤ maxOffset → ValidAll (members es)
  | [], _, _ => trivial
  | (key, e) :: es, h, hlen => by
    rw [members, encodeAll, encodeAll, List.length_append, List.length_append, encode,
      List.length_append, List.length_cons] at hlen
    exact ⟨str_valid (by omega), value_valid e h.1 (by omega), members_valid es h.2 (by omega)⟩

end

mutual

theorem depth_value : ∀ e : Entry, e.value.depth = e.depth
  | .int _ => rfl
  | .string _ => rfl
  | .list val => congrArg (· + 1) (depth_values val)
  | .dict val => congrArg (· + 1) (depth_members val)
  | .preformatted _ => rfl
  | .undefined => rfl

theorem depth_values : ∀ es : List Entry, depthAll (values es) = depthList es
  | [] => rfl
  | e :: es => by rw [values, depthAll, depthList, depth_value e, depth_values es]

theorem depth_members : ∀ es : List (List UInt8 × Entry), depthAll (members es) = depthDict es
  | [] => rfl
  | (key, e) :: es => by
    rw [members, depthAll, depthAll, depthDict, depth_value e, depth_members es]
    exact Nat.zero_max _

end

mutual

theorem tokenCount_value : ∀ e : Entry, e.value.tokenCount = e.tokenCount
  | .int _ => rfl
  | .string _ => rfl
  | .list val => congrArg (· + 2) (tokenCount_values val)
  | .dict val => congrArg (· + 2) (tokenCount_members val)
  | .preformatted _ => rfl
  | .undefined => rfl

theorem tokenCount_values : ∀ es : List Entry, tokenCountAll (values es) = tokenCountList es
  | [] => rfl
  | e :: es => by
    rw [values, tokenCountAll, tokenCountList, tokenCount_value e, tokenCount_values es]

theorem tokenCount_members :
    ∀ es : List (List UInt8 × Entry), tokenCountAll (members es) = tokenCountDict es
  | [] => rfl
  | (key, e) :: es => by
    rw [members, tokenCountAll, tokenCountAll, tokenCountDict, tokenCount_value e,
      tokenCount_members es, Nat.add_assoc]
    rfl

end

/-! ## Reading it back -/

theorem values_eq_map : ∀ es : List Entry, values es = es.map value
  | [] => rfl
  | e :: es => by rw [values, List.map_cons, values_eq_map es]

theorem members_getElem? : ∀ (es : List (List UInt8 × Entry)) (i : ℕ),
    (members es)[2 * i]? = es[i]?.map (fun p => .str (integerToStr p.1.length) p.1) ∧
      (members es)[2 * i + 1]? = es[i]?.map fun p => p.2.value
  | [], _ => ⟨rfl, rfl⟩
  | (_, _) :: _, 0 => ⟨rfl, rfl⟩
  | (_, _) :: es, i + 1 => members_getElem? es i

theorem length_members : ∀ es : List (List UInt8 × Entry), (members es).length = 2 * es.length
  | [] => rfl
  | (_, _) :: es => by
    rw [members, List.length_cons, List.length_cons, length_members es, List.length_cons]
    omega

variable {convert : BdecodeNode → Option Entry} {n : BdecodeNode}

/-- The conversion works for the entry `e`. -/
def Converts (convert : BdecodeNode → Option Entry) (e : Entry) : Prop :=
  ∀ n : BdecodeNode, n.IsNode e.value → n.Fresh → convert n = some e

theorem listLoop_eq {es : List Entry} (hconv : ∀ e ∈ es, Converts convert e) {fuel i : ℕ}
    (hi : i ≤ es.length) (hfuel : es.length - i < fuel) (hn : n.HasItems 1 (values es)) :
    listLoop convert fuel i n (es.take i) = some es := by
  have hlen : (values es).length = es.length := by rw [values_eq_map, List.length_map]
  induction fuel generalizing i n with
  | zero => cases hfuel
  | succ fuel ih =>
    obtain ⟨hsize, hn'⟩ := hn.listSize
    rw [hlen] at hsize
    rw [listLoop, show n.listSize = (some es.length, n.listSize.2) from Prod.ext hsize rfl]
    dsimp only
    split_ifs with hlt
    · obtain ⟨hitem, hn''⟩ := hn'.listAt (show i < (values es).length by omega)
      have hget : (values es)[i]? = some es[i].value := by
        rw [values_eq_map, List.getElem?_map, List.getElem?_eq_getElem hlt]
        rfl
      have hc := hconv es[i] (List.getElem_mem hlt) _ (hn'.child hget)
        (BdecodeNode.child_fresh _ _)
      rw [hitem, hc]
      dsimp only
      rw [List.take_append_getElem hlt]
      exact ih (by omega) (by omega) hn''
    · rw [List.take_of_length_le (by omega)]

/-- A key after all others is put at the end. -/
theorem assign_of_lt {key : List UInt8} {d : List (List UInt8 × Entry)}
    (h : ∀ p ∈ d, p.1 < key) (val : Entry) : assign key val d = d ++ [(key, val)] := by
  induction d with
  | nil => rfl
  | cons p d ih =>
    obtain ⟨k, v⟩ := p
    obtain ⟨hk, h⟩ := List.forall_mem_cons.mp h
    have hk' : k < key := hk
    rw [assign, if_neg (List.lt_asymm hk'), if_neg, ih h, List.cons_append]
    rintro rfl
    exact List.lt_irrefl _ hk'

theorem dictLoop_eq {es : List (List UInt8 × Entry)} (hconv : ∀ p ∈ es, Converts convert p.2)
    (hsorted : (es.map Prod.fst).Pairwise (· < ·)) (hvalid : ValidAll (members es)) {fuel i : ℕ}
    (hi : i ≤ es.length) (hfuel : es.length - i < fuel) (hn : n.HasItems 2 (members es)) :
    dictLoop convert fuel i n (es.take i) = some es := by
  induction fuel generalizing i n with
  | zero => cases hfuel
  | succ fuel ih =>
    obtain ⟨hsize, hn'⟩ := hn.dictSize (length_members es)
    rw [dictLoop, show n.dictSize = (some es.length, n.dictSize.2) from Prod.ext hsize rfl]
    dsimp only
    split_ifs with hlt
    · obtain ⟨hitem, hn''⟩ := hn'.dictAtNode (i := i) (by rw [length_members]; omega)
      obtain ⟨hkey, hval⟩ := members_getElem? es i
      rw [List.getElem?_eq_getElem hlt] at hkey hval
      have hc := hconv es[i] (List.getElem_mem hlt) _ (hn'.child hval)
        (BdecodeNode.child_fresh _ _)
      have hstr := (hn'.child hkey).stringValue_eq
        (validAll_iff.mp hvalid _ (List.mem_of_getElem? hkey))
      have hless : ∀ p ∈ es.take i, p.1 < es[i].1 := by
        intro p hp
        obtain ⟨j, hj, rfl⟩ := List.getElem_of_mem hp
        rw [List.length_take] at hj
        rw [List.getElem_take]
        have := List.pairwise_iff_getElem.mp hsorted j i (by rw [List.length_map]; omega)
          (by rw [List.length_map]; omega) (by omega)
        rwa [List.getElem_map, List.getElem_map] at this
      rw [BdecodeNode.dictAt_eq, hitem]
      dsimp only
      rw [hc, hstr]
      dsimp only
      rw [assign_of_lt hless, Prod.mk.eta, List.take_append_getElem hlt]
      exact ih (by omega) (by omega) hn''
    · rw [List.take_of_length_le (by omega)]

mutual

/-- A node of the value is converted to the entry. -/
theorem ofNodeAt_converts : ∀ (e : Entry) (d : ℕ), e.Plain → e.value.Valid → e.depth < d →
    Converts (ofNodeAt d) e
  | _, 0, _, _, hd => by cases hd
  | .int val, d + 1, h, hv, _ => by
    intro n hn _
    have hdec := (integerToStr_spec h.1 h.2).2.value
    obtain ⟨h₁, h₂⟩ := h
    have hval := hn.intValue_eq hv (by rw [hdec, int64Max]; omega)
    rw [ofNodeAt, hn.type_eq]
    dsimp only [value, BdecodeNode.typeOf]
    rw [hval, hdec]
    congr 2
    by_cases hneg : val < 0
    · rw [decide_eq_true hneg, if_pos rfl]
      omega
    · rw [decide_eq_false hneg, if_neg (by decide)]
      omega
  | .string val, d + 1, _, hv, _ => by
    intro n hn _
    rw [ofNodeAt, hn.type_eq]
    dsimp only [value, BdecodeNode.typeOf]
    rw [hn.stringValue_eq hv]
  | .list val, d + 1, h, hv, hd => by
    intro n hn hf
    have hitems : n.HasItems 1 (values val) := hn.hasItems false hf 1
    have hlen := hitems.length_le
    rw [values_eq_map, List.length_map] at hlen
    have hconv := ofNodeAt_converts_list val d h hv (Nat.lt_of_succ_lt_succ hd)
    have hloop := listLoop_eq hconv (Nat.zero_le _) (show _ < n.tokens.length + 1 by omega) hitems
    rw [ofNodeAt, hn.type_eq]
    dsimp only [value, BdecodeNode.typeOf]
    rw [List.take_zero] at hloop
    rw [hloop]
    rfl
  | .dict val, d + 1, h, hv, hd => by
    intro n hn hf
    have hitems : n.HasItems 2 (members val) := hn.hasItems true hf 2
    have hlen := hitems.length_le
    rw [length_members] at hlen
    have hconv := ofNodeAt_converts_dict val d h.2 hv.2 (Nat.lt_of_succ_lt_succ hd)
    have hloop := dictLoop_eq hconv h.1 hv.2 (Nat.zero_le _)
      (show _ < n.tokens.length + 1 by omega) hitems
    rw [ofNodeAt, hn.type_eq]
    dsimp only [value, BdecodeNode.typeOf]
    rw [List.take_zero] at hloop
    rw [hloop]
    rfl
  | .preformatted _, _, h, _, _ => h.elim
  | .undefined, _, h, _, _ => h.elim

theorem ofNodeAt_converts_list : ∀ (es : List Entry) (d : ℕ), PlainList es → ValidAll (values es) →
    depthList es < d → ∀ e ∈ es, Converts (ofNodeAt d) e
  | [], _, _, _, _ => by simp
  | e :: es, d, h, hv, hd => by
    rw [depthList, max_lt_iff] at hd
    exact List.forall_mem_cons.mpr ⟨ofNodeAt_converts e d h.1 hv.1 hd.1,
      ofNodeAt_converts_list es d h.2 hv.2 hd.2⟩

theorem ofNodeAt_converts_dict : ∀ (es : List (List UInt8 × Entry)) (d : ℕ), PlainDict es →
    ValidAll (members es) → depthDict es < d → ∀ p ∈ es, Converts (ofNodeAt d) p.2
  | [], _, _, _, _ => by simp
  | (_, e) :: es, d, h, hv, hd => by
    rw [depthDict, max_lt_iff] at hd
    exact List.forall_mem_cons.mpr ⟨ofNodeAt_converts e d h.1 hv.2.1 hd.1,
      ofNodeAt_converts_dict es d h.2 hv.2.2 hd.2⟩

end

theorem value_begins {e : Entry} {rest : List UInt8} (h : e.Plain) (hlen : (e.value.encode ++ rest).length ≤ maxOffset)
    {depthLimit tokenLimit : ℤ} (hdepth : (e.depth : ℤ) < depthLimit) (htokens : (e.tokenCount : ℤ) ≤ tokenLimit) :
    Begins (e.value.encode ++ rest) depthLimit tokenLimit e.value := by
  rw [List.length_append] at hlen
  exact ⟨⟨rest, rfl⟩, value_valid e h ((Nat.le_add_right _ _).trans hlen), by rwa [depth_value], by rwa [tokenCount_value]⟩

/-- What is behind an entry does not change what is read. -/
theorem ofNode_finish {e : Entry} {rest : List UInt8} (h : e.Plain)
    (hlen : (e.value.encode ++ rest).length ≤ maxOffset) (tokenLimit : ℤ) :
    ofNode ((Zipper.done e.value tokenLimit).finish (e.value.encode ++ rest)) = some e := by
  have hv := (value_begins h hlen (Int.lt_succ_self _) le_rfl).valid
  set node := (Zipper.done e.value tokenLimit).finish (e.value.encode ++ rest)
  have hnode : node.IsNode e.value := finish_isNode hlen rfl
  have htoks : node.tokens.length = e.tokenCount + 1 := by
    rw [← tokenCount_value, ← Value.length_tokens 0, ← Value.tokensAll_singleton]
    exact List.length_append
  have hle := e.value.depth_le_tokenCount
  rw [depth_value, tokenCount_value] at hle
  rw [ofNode, htoks]
  exact ofNodeAt_converts e _ h hv (by omega) _ hnode ⟨rfl, rfl⟩

/-- What is written can be read back: no error is reported, the entry is the same, and all of the
buffer is read. -/
theorem bencode_bdecode (e : Entry) (depthLimit tokenLimit : ℤ) (h : e.Plain)
    (hdepth : (e.depth : ℤ) < depthLimit) (htokens : (e.tokenCount : ℤ) ≤ tokenLimit)
    (hlen : (bencode e).1.length ≤ 2 ^ 29 - 1) :
    (bdecode (bencode e).1 depthLimit tokenLimit).error = .noError ∧
    ofNode (bdecode (bencode e).1 depthLimit tokenLimit).node = some e ∧
    (bencode e).2 = (bencode e).1.length ∧
    (bdecode (bencode e).1 depthLimit tokenLimit).node.dataSection = (bencode e).1 := by
  rw [bencode_eq h] at hlen ⊢
  have hbuf : (e.value.encode ++ []).length ≤ maxOffset := by rwa [List.append_nil]
  have hbegins := value_begins h hbuf hdepth htokens
  have hread := ofNode_finish h hbuf tokenLimit
  rw [List.append_nil] at hbuf hbegins hread
  rw [bdecode_of_begins hbuf hbegins]
  exact ⟨rfl, hread, rfl, (finish_isNode hbuf (List.append_nil _).symm).dataSection_eq⟩

/-- A dictionary with a number and a list. -/
theorem bencode_bdecode_dict : ofNode (bdecode (bencode (.dict
    [([97], .int (-123456)), ([98], .list [.string [104, 105]])])).1 100 2000000).node =
      some (.dict [([97], .int (-123456)), ([98], .list [.string [104, 105]])]) := by
  refine (bencode_bdecode (.dict [([97], .int (-123456)), ([98], .list [.string [104, 105]])]) 100
    2000000 ?_ (by decide) (by decide) (by decide +kernel)).2.1
  exact ⟨by decide, ⟨by decide, by decide⟩, ⟨trivial, trivial⟩, trivial⟩

end Entry

end Bencode

end LibtorrentSN
